import Zizq.Take.Stream

/-! Decoding undoes framing.

In both formats the server writes heartbeats and records. The decoders are shown to
undo these two encodings item by item, and to wait in front of a cut item, which is
what the general rule on encodings asks for. With it, a stream over an encoding that
is cut at any byte yields the records before the cut, and complains exactly if the
cut is inside an item (`items_encodeAll`). -/
namespace Zizq.Take
open Client Data Framing
variable {J : Type}

/-- What the parsing of a record comes to for the caller. -/
def recordResult (parsed : Except String J) : Except ZizqError J := parsed.mapError .decode

theorem ofParse_eq (decode : Bytes → DecodeResult J) (parsed : Except String J) (rest : Bytes) :
    DecodeResult.ofParse parsed rest = .ofItem decode rest (some (recordResult parsed)) := by
  cases parsed <;> rfl

/-! ### NDJSON -/

inductive NdjsonItem where
  | heartbeat (blank : Bytes) (hblank : ∀ b ∈ blank, isAsciiWhitespace b = true ∧ b ≠ newline)
  | record (text : Bytes) (crlf : Bool) (hline : newline ∉ text)
      (htext : text.all isAsciiWhitespace = false) (hcr : text.getLast? ≠ some carriageReturn)

namespace NdjsonItem

/-- The line without its newline. -/
def line : NdjsonItem → Bytes
  | .heartbeat blank _ => blank
  | .record text crlf .. => if crlf then text ++ [carriageReturn] else text

def encode (item : NdjsonItem) : Bytes := item.line ++ [newline]

def payload : NdjsonItem → Option Bytes
  | .heartbeat .. => none
  | .record text .. => some text

theorem newline_not_mem_line (item : NdjsonItem) : newline ∉ item.line := by
  cases item with
  | heartbeat blank hblank => exact fun h => (hblank _ h).2 rfl
  | record text crlf hline htext hcr =>
    cases crlf with
    | false => exact hline
    | true => simpa [line, newline, carriageReturn] using hline

theorem stripCr_line {text : Bytes} {crlf : Bool} {hline : newline ∉ text}
    {htext : text.all isAsciiWhitespace = false} {hcr : text.getLast? ≠ some carriageReturn} :
    stripCr (record text crlf hline htext hcr).line = text := by
  cases crlf with
  | false => exact if_neg hcr
  | true => simp [line, stripCr]

theorem stripCr_blank {blank : Bytes} (hblank : ∀ b ∈ blank, isAsciiWhitespace b = true) :
    (stripCr blank).all isAsciiWhitespace = true := by
  rw [List.all_eq_true]
  unfold stripCr
  split
  · exact fun b hb => hblank b (List.dropLast_subset _ hb)
  · exact hblank

end NdjsonItem

section Ndjson
variable (parse : Bytes → Except String J)

theorem findIdx_eq_none {t : Bytes} (h : newline ∉ t) : t.findIdx? (· = newline) = none := by
  rw [List.findIdx?_eq_none_iff]
  exact fun b hb => decide_eq_false fun heq => h (heq ▸ hb)

theorem decodeNdjson_line_newline {line : Bytes} (h : newline ∉ line) (rest : Bytes) :
    decodeNdjson parse (line ++ newline :: rest) =
      if (stripCr line).all isAsciiWhitespace then decodeNdjson parse rest
      else DecodeResult.ofParse (parse (stripCr line)) rest := by
  have hfind : (line ++ newline :: rest).findIdx? (· = newline) = some line.length := by
    rw [List.findIdx?_append, findIdx_eq_none h]
    simp [List.findIdx?_cons]
  rw [decodeNdjson_line hfind]
  simp

theorem decodeNdjson_item (item : NdjsonItem) (rest : Bytes) :
    decodeNdjson parse (item.encode ++ rest) =
      .ofItem (decodeNdjson parse) rest (item.payload.map fun text => recordResult (parse text)) := by
  rw [NdjsonItem.encode, List.append_assoc, List.singleton_append,
    decodeNdjson_line_newline parse item.newline_not_mem_line]
  cases item with
  | heartbeat blank hblank => exact if_pos (NdjsonItem.stripCr_blank fun b hb => (hblank b hb).1)
  | record text crlf hline htext hcr =>
    rw [NdjsonItem.stripCr_line, if_neg (by simp [htext])]
    exact ofParse_eq _ _ _

/-- Without a newline there is no record yet. -/
theorem decodeNdjson_wait {t : Bytes} (h : newline ∉ t) : decodeNdjson parse t = .needMore t := by
  rw [decodeNdjson]
  split
  · rfl
  · next nl hsome => cases (findIdx_eq_none h).symm.trans hsome

/-- A cut line is all in front of its newline. -/
theorem newline_not_mem_cut {line t : Bytes} (hline : newline ∉ line) (hcut : t <+: line ++ [newline])
    (hne : t ≠ line ++ [newline]) : newline ∉ t := by
  rcases List.prefix_concat_iff.mp hcut with heq | hfront
  · exact absurd heq hne
  · exact fun h => hline (hfront.subset h)

def ndjsonEncoder : Encoder (ndjsonDecoder parse) NdjsonItem where
  encode := NdjsonItem.encode
  result item := item.payload.map fun text => recordResult (parse text)
  decode_nil := decodeNdjson_wait parse List.not_mem_nil
  decode_whole := decodeNdjson_item parse
  decode_cut {item t} hcut hne hnil :=
    ⟨t, decodeNdjson_wait parse (newline_not_mem_cut item.newline_not_mem_line hcut hne), hnil⟩

end Ndjson

/-! ### MessagePack -/

inductive MsgpackItem where
  | heartbeat
  | record (payload : Bytes) (hne : payload ≠ []) (hlen : payload.length < 2 ^ 32)

/-- A length below `2 ^ 32` as four bytes, the highest first. -/
def toBeBytes (n : Nat) : UInt8 × UInt8 × UInt8 × UInt8 :=
  (UInt8.ofNat (n / 2 ^ 24), UInt8.ofNat (n / 2 ^ 16), UInt8.ofNat (n / 2 ^ 8), UInt8.ofNat n)

theorem fromBeBytes_toBeBytes {n : Nat} (h : n < 2 ^ 32) :
    fromBeBytes (toBeBytes n).1 (toBeBytes n).2.1 (toBeBytes n).2.2.1 (toBeBytes n).2.2.2 = n := by
  simp only [toBeBytes, fromBeBytes, UInt8.toNat_ofNat']
  omega

namespace MsgpackItem

/-- The bytes that the header counts. -/
def body : MsgpackItem → Bytes
  | .heartbeat => []
  | .record payload .. => payload

def encode (item : MsgpackItem) : Bytes :=
  let (b₀, b₁, b₂, b₃) := toBeBytes item.body.length
  b₀ :: b₁ :: b₂ :: b₃ :: item.body

def payload : MsgpackItem → Option Bytes
  | .heartbeat => none
  | .record payload .. => some payload

theorem encode_heartbeat : heartbeat.encode = [0, 0, 0, 0] := rfl

end MsgpackItem

section Msgpack
variable (parse : Bytes → Except String J)

theorem decodeMsgpack_item (item : MsgpackItem) (rest : Bytes) :
    decodeMsgpack parse (item.encode ++ rest) =
      .ofItem (decodeMsgpack parse) rest (item.payload.map fun payload => recordResult (parse payload)) := by
  cases item with
  | heartbeat =>
    rw [MsgpackItem.encode_heartbeat, List.cons_append, List.cons_append, List.cons_append, List.cons_append,
      decodeMsgpack]
    exact if_pos (by decide)
  | record payload hne hlen =>
    have hlength := fromBeBytes_toBeBytes hlen
    have hpos : payload.length ≠ 0 := by simpa using hne
    simp only [MsgpackItem.encode, MsgpackItem.body, List.cons_append, decodeMsgpack, hlength]
    rw [if_neg hpos, if_neg (by rw [List.length_append]; omega), List.take_left, List.drop_left]
    exact ofParse_eq _ _ _

/-- Less than a header, or a header and less than it counts. -/
theorem decodeMsgpack_wait {item : MsgpackItem} {t : Bytes} (hcut : t <+: item.encode)
    (hne : t ≠ item.encode) : decodeMsgpack parse t = .needMore t := by
  obtain ⟨s, hs⟩ := hcut
  rcases t with _ | ⟨b₀, _ | ⟨b₁, _ | ⟨b₂, _ | ⟨b₃, t⟩⟩⟩⟩
  · rfl
  · rfl
  · rfl
  · rfl
  · obtain ⟨rfl, rfl, rfl, rfl, hbody⟩ : b₀ = _ ∧ b₁ = _ ∧ b₂ = _ ∧ b₃ = _ ∧ t ++ s = item.body := by
      simpa [MsgpackItem.encode] using hs
    have hrest : s ≠ [] := fun hnil => hne (by rw [← hs, hnil, List.append_nil])
    cases item with
    | heartbeat => exact absurd (List.append_eq_nil_iff.mp hbody).2 hrest
    | record payload hpayload hlen =>
      have hlength := fromBeBytes_toBeBytes hlen
      have hshort : t.length < payload.length := by
        have hpos := List.length_pos_iff.mpr hrest
        have := congrArg List.length hbody
        simp only [MsgpackItem.body, List.length_append] at this
        omega
      rw [decodeMsgpack]
      simp only [MsgpackItem.body, hlength]
      rw [if_neg (by omega), if_pos (by omega)]

def msgpackEncoder : Encoder (msgpackDecoder parse) MsgpackItem where
  encode := MsgpackItem.encode
  result item := item.payload.map fun payload => recordResult (parse payload)
  decode_nil := rfl
  decode_whole := decodeMsgpack_item parse
  decode_cut {_ t} hcut hne hnil := ⟨t, decodeMsgpack_wait parse hcut hne, hnil⟩

end Msgpack

/-! ### The stream -/

/-- An item of a stream in either format. -/
abbrev Item : Format → Type
  | .json => NdjsonItem
  | .messagePack => MsgpackItem

def Parsers.encoder (parsers : Parsers J) : (format : Format) → Encoder (parsers.decoder format) (Item format)
  | .json => ndjsonEncoder parsers.json
  | .messagePack => msgpackEncoder parsers.msgpack

/-- The results up to and with the first error. -/
def upToError {α ε : Type} : List (Except ε α) → List (Except ε α)
  | [] => []
  | .ok a :: results => .ok a :: upToError results
  | .error e :: _ => [.error e]

/-- What the stream yields for the results of the records before the cut. A cut inside an item is an
error too, if none came before it. -/
def yielded (results : List (Except ZizqError J)) (boundary : Bool) : List (Except ZizqError J) :=
  upToError results ++
    if results.all (·.isOk) && !boundary then [.error (.decode "incomplete frame at end of stream")] else []

theorem contents_found (left : Bytes) (results : List (Except ZizqError J)) :
    (found left results).1.map .ok ++ (TakeStream.lastItem none (found left results).2).toList.map .error =
      yielded results left.isEmpty := by
  induction results with
  | nil => cases left <;> simp [found, TakeStream.lastItem, yielded, upToError]
  | cons r results ih =>
    cases r with
    | ok job => simpa [found, yielded, upToError, Except.isOk, Except.toBool] using ih
    | error e => simp [found, TakeStream.lastItem, yielded, upToError, Except.isOk, Except.toBool]

/-- What a stream yields on a body that is delivered in chunks. -/
theorem items_delivered (parsers : Parsers J) (format : Format) (deliveries : List (Option Bytes)) :
    TakeStream.items parsers (TakeStream.new (deliveries.map TakeStream.InnerPoll.ofDelivery) format) =
      let all := decodeAll (parsers.decoder format) deliveries.reduceOption.flatten
      all.1.map .ok ++ (TakeStream.lastItem none all.2).toList.map .error := by
  have hformat : (StreamDecoder.forFormat format).format = format := by cases format <;> rfl
  have hbuffer : (StreamDecoder.forFormat format).buffer = [] := by cases format <;> rfl
  simp only [TakeStream.items_eq, TakeStream.new, TakeStream.contents_open, TakeStream.delivered_ofDelivery,
    hformat, hbuffer, List.nil_append]

/-- A body that ends at the cut. -/
theorem items_take (parsers : Parsers J) (format : Format) (list : List (Item format)) {n : Nat}
    {deliveries : List (Option Bytes)} (hn : n ≤ ((parsers.encoder format).encodeAll list).length)
    (hcut : deliveries.reduceOption.flatten = ((parsers.encoder format).encodeAll list).take n) :
    let encoder := parsers.encoder format
    let before := encoder.whole n list
    TakeStream.items parsers (TakeStream.new (deliveries.map TakeStream.InnerPoll.ofDelivery) format) =
      yielded (before.filterMap encoder.result) ((encoder.encodeAll before).length = n) := by
  intro encoder before
  obtain ⟨left, hdecode, hleft⟩ := encoder.decodeAll_take list n hn
  have hboundary : left.isEmpty = decide ((encoder.encodeAll before).length = n) := by
    rw [Bool.eq_iff_iff, List.isEmpty_iff, decide_eq_true_iff]
    exact hleft
  rw [items_delivered, hcut, ← hboundary, ← contents_found, ← hdecode]

/-- **Main theorem.** However the encoding of a list of items is delivered, the stream yields the results
of its records, up to the first error. If the body ends at any byte of the encoding, it yields those of
the records wholly before the cut, and complains exactly if none failed and the cut is inside an item. -/
theorem items_encodeAll (parsers : Parsers J) (format : Format) (list : List (Item format))
    (deliveries : List (Option Bytes)) :
    let encoder := parsers.encoder format
    let stream := TakeStream.new (deliveries.map TakeStream.InnerPoll.ofDelivery) format
    (deliveries.reduceOption.flatten = encoder.encodeAll list →
      stream.items parsers = upToError (list.filterMap encoder.result)) ∧
    ∀ n ≤ (encoder.encodeAll list).length, deliveries.reduceOption.flatten = (encoder.encodeAll list).take n →
      stream.items parsers =
        yielded ((encoder.whole n list).filterMap encoder.result)
          ((encoder.encodeAll (encoder.whole n list)).length = n) := by
  intro encoder stream
  refine ⟨fun hall => ?_, fun n hn hcut => items_take parsers format list hn hcut⟩
  have hitems := items_take parsers format list le_rfl (hall.trans (List.take_length).symm)
  dsimp only at hitems
  rw [encoder.whole_length] at hitems
  simpa [yielded] using hitems

/-- A heartbeat and a record, cut inside the record. -/
theorem items_encodeAll_cut :
    let parsers : Parsers Unit := ⟨fun _ => .ok (), fun _ => .ok ()⟩
    let deliveries : List (Option Bytes) := [some [10], none, some [123]]
    let stream := TakeStream.new (deliveries.map TakeStream.InnerPoll.ofDelivery) .json
    stream.items parsers = [.error (.decode "incomplete frame at end of stream")] := by
  intro parsers deliveries stream
  let list : List NdjsonItem :=
    [.heartbeat [] (by simp), .record [123, 125] true (by decide) (by decide) (by decide)]
  exact (items_encodeAll parsers .json list deliveries).2 2 (by decide) (by decide)

end Zizq.Take
