import Mathlib.Data.List.ReduceOption
import Zizq.Take.Decoder

/-! The take stream.

The inner byte stream is the list of what polling it will return; after the list it
has ended. `pollNext` is one poll of the take stream, and `items` is all it yields
to a caller that polls until the first `None`. What it yields is what decoding the
delivered bytes at once finds (`items_eq`), so where the body was cut into chunks,
and where polls came back pending, does not matter (`items_chunking`). -/
namespace Zizq.Take
open Client Data Framing
variable {J : Type}

/-- What one poll of the inner stream returns before its end. -/
inductive InnerPoll where
  | pending
  | chunk (bytes : Bytes)
  | error (source : String)

inductive StreamDecoder where
  | ndjson (buffer : Bytes)
  | msgpack (buffer : Bytes)

namespace StreamDecoder

def forFormat : Format → StreamDecoder
  | .json => .ndjson []
  | .messagePack => .msgpack []

def format : StreamDecoder → Format
  | .ndjson _ => .json
  | .msgpack _ => .messagePack

def buffer : StreamDecoder → Bytes
  | .ndjson buffer | .msgpack buffer => buffer

def setBuffer : StreamDecoder → Bytes → StreamDecoder
  | .ndjson _, buffer => .ndjson buffer
  | .msgpack _, buffer => .msgpack buffer

def feed (decoder : StreamDecoder) (chunk : Bytes) : StreamDecoder :=
  decoder.setBuffer (decoder.buffer ++ chunk)

def next (parsers : Parsers J) : StreamDecoder → DecodeResult J
  | .ndjson buffer => decodeNdjson parsers.json buffer
  | .msgpack buffer => decodeMsgpack parsers.msgpack buffer

/-- A frame that the end of the body cut short is an error. -/
def finalize (decoder : StreamDecoder) : Option ZizqError :=
  if decoder.buffer.isEmpty then none else some (.decode "incomplete frame at end of stream")

@[simp] theorem buffer_setBuffer (decoder : StreamDecoder) (b : Bytes) :
    (decoder.setBuffer b).buffer = b := by
  cases decoder <;> rfl

@[simp] theorem format_setBuffer (decoder : StreamDecoder) (b : Bytes) :
    (decoder.setBuffer b).format = decoder.format := by
  cases decoder <;> rfl

@[simp] theorem buffer_feed (decoder : StreamDecoder) (chunk : Bytes) :
    (decoder.feed chunk).buffer = decoder.buffer ++ chunk := buffer_setBuffer ..

@[simp] theorem format_feed (decoder : StreamDecoder) (chunk : Bytes) :
    (decoder.feed chunk).format = decoder.format := format_setBuffer ..

theorem next_eq (parsers : Parsers J) (decoder : StreamDecoder) :
    decoder.next parsers = (parsers.decoder decoder.format).decode decoder.buffer := by
  cases decoder <;> rfl

end StreamDecoder

structure TakeStream where
  inner : List InnerPoll
  decoder : StreamDecoder
  finished : Bool

inductive Poll (α : Type) where
  | pending
  | ready (a : α)

namespace TakeStream

def new (inner : List InnerPoll) (format : Format) : TakeStream :=
  { inner := inner
    decoder := StreamDecoder.forFormat format
    finished := false }

/-- The loop of `poll_next` on a stream that is not finished. -/
def pollLoop (parsers : Parsers J) (decoder : StreamDecoder) (inner : List InnerPoll) :
    Poll (Option (Except ZizqError J)) × TakeStream :=
  match decoder.next parsers with
  | .record job rest => (.ready (some (.ok job)), ⟨inner, decoder.setBuffer rest, false⟩)
  | .error e rest => (.ready (some (.error e)), ⟨inner, decoder.setBuffer rest, true⟩)
  | .needMore rest =>
    match inner with
    | .chunk bytes :: inner => pollLoop parsers ((decoder.setBuffer rest).feed bytes) inner
    | .error source :: inner =>
      (.ready (some (.error (.transport source))), ⟨inner, decoder.setBuffer rest, true⟩)
    | [] =>
      (.ready ((decoder.setBuffer rest).finalize.map .error), ⟨[], decoder.setBuffer [], true⟩)
    | .pending :: inner => (.pending, ⟨inner, decoder.setBuffer rest, false⟩)

def pollNext (parsers : Parsers J) (this : TakeStream) :
    Poll (Option (Except ZizqError J)) × TakeStream :=
  if this.finished then (.ready none, this) else pollLoop parsers this.decoder this.inner

/-! ### What a stream holds -/

/-- The bytes that the inner stream delivers, and the transport error that ends it. -/
def delivered : List InnerPoll → Bytes × Option String
  | [] => ([], none)
  | .pending :: inner => delivered inner
  | .chunk bytes :: inner => (bytes ++ (delivered inner).1, (delivered inner).2)
  | .error source :: _ => ([], some source)

/-- What follows the records of a stream: the failure that stops the decoder, else the transport
error, else the complaint about bytes left over at the end. -/
def lastItem (error : Option String) : Ending UInt8 ZizqError → Option ZizqError
  | .failed e => some e
  | .waiting rest =>
    match error with
    | some source => some (.transport source)
    | none => if rest.isEmpty then none else some (.decode "incomplete frame at end of stream")

/-- The items of a stream, decoded from all its bytes at once. -/
def contents (parsers : Parsers J) (this : TakeStream) : List (Except ZizqError J) :=
  if this.finished then []
  else
    let (bytes, error) := delivered this.inner
    let (jobs, ending) :=
      decodeAll (parsers.decoder this.decoder.format) (this.decoder.buffer ++ bytes)
    jobs.map .ok ++ (lastItem error ending).toList.map .error

theorem contents_finished (parsers : Parsers J) (inner : List InnerPoll) (decoder : StreamDecoder) :
    contents parsers ⟨inner, decoder, true⟩ = [] := rfl

theorem contents_open (parsers : Parsers J) (inner : List InnerPoll) (decoder : StreamDecoder) :
    contents parsers ⟨inner, decoder, false⟩ =
      let all := decodeAll (parsers.decoder decoder.format) (decoder.buffer ++ (delivered inner).1)
      all.1.map .ok ++ (lastItem (delivered inner).2 all.2).toList.map .error := rfl

section Contents
variable (parsers : Parsers J) {decoder : StreamDecoder} (inner : List InnerPoll)

theorem contents_record {job : J} {rest : Bytes} (h : decoder.next parsers = .record job rest) :
    contents parsers ⟨inner, decoder, false⟩ =
      .ok job :: contents parsers ⟨inner, decoder.setBuffer rest, false⟩ := by
  have hdecode := (parsers.decoder decoder.format).decode_append decoder.buffer (delivered inner).1
  rw [← decoder.next_eq, h] at hdecode
  simp only [contents_open, decodeAll_record _ hdecode, StreamDecoder.buffer_setBuffer,
    StreamDecoder.format_setBuffer, List.map_cons, List.cons_append]

theorem contents_error {e : ZizqError} {rest : Bytes} (h : decoder.next parsers = .error e rest) :
    contents parsers ⟨inner, decoder, false⟩ = [.error e] := by
  have hdecode := (parsers.decoder decoder.format).decode_append decoder.buffer (delivered inner).1
  rw [← decoder.next_eq, h] at hdecode
  simp only [contents_open, decodeAll_error _ hdecode]
  rfl

/-- A decoder that waits has dropped nothing but heartbeats. -/
theorem contents_needMore {rest : Bytes} (h : decoder.next parsers = .needMore rest) :
    contents parsers ⟨inner, decoder, false⟩ =
      contents parsers ⟨inner, decoder.setBuffer rest, false⟩ := by
  rw [decoder.next_eq] at h
  simp only [contents_open, decodeAll_needMore_append _ h, StreamDecoder.buffer_setBuffer,
    StreamDecoder.format_setBuffer]

theorem contents_chunk (bytes : Bytes) :
    contents parsers ⟨.chunk bytes :: inner, decoder, false⟩ =
      contents parsers ⟨inner, decoder.feed bytes, false⟩ := by
  simp only [contents_open, delivered, StreamDecoder.buffer_feed, StreamDecoder.format_feed,
    List.append_assoc]

theorem contents_starved {rest : Bytes} (h : decoder.next parsers = .needMore rest)
    (hinner : (delivered inner).1 = []) :
    contents parsers ⟨inner, decoder, false⟩ =
      (lastItem (delivered inner).2 (.waiting rest)).toList.map .error := by
  rw [decoder.next_eq] at h
  simp only [contents_open, hinner, List.append_nil, decodeAll_needMore _ h, List.map_nil,
    List.nil_append]

end Contents

/-- One poll takes the first item off the contents, or leaves them as they are while it waits. -/
theorem pollLoop_contents (parsers : Parsers J) (decoder : StreamDecoder) (inner : List InnerPoll) :
    match pollLoop parsers decoder inner with
    | (.pending, this) => contents parsers ⟨inner, decoder, false⟩ = contents parsers this
    | (.ready none, _) => contents parsers ⟨inner, decoder, false⟩ = []
    | (.ready (some item), this) =>
      contents parsers ⟨inner, decoder, false⟩ = item :: contents parsers this := by
  fun_induction pollLoop parsers decoder inner with
  | case1 inner decoder job rest h => exact contents_record parsers inner h
  | case2 inner decoder e rest h => exact contents_error parsers inner h
  | case3 decoder rest h bytes inner ih =>
    rwa [contents_needMore parsers _ h, contents_chunk]
  | case4 decoder rest h source inner => exact contents_starved parsers _ h rfl
  | case5 decoder rest h =>
    have hcontents := contents_starved parsers [] h rfl
    simp only [StreamDecoder.finalize, StreamDecoder.buffer_setBuffer]
    cases hrest : rest.isEmpty <;>
      simpa [lastItem, delivered, hrest, contents_finished] using hcontents
  | case6 decoder rest h inner => exact contents_needMore parsers _ h

theorem pollNext_contents (parsers : Parsers J) (this : TakeStream) :
    match pollNext parsers this with
    | (.pending, this') => contents parsers this = contents parsers this'
    | (.ready none, _) => contents parsers this = []
    | (.ready (some item), this') => contents parsers this = item :: contents parsers this' := by
  obtain ⟨inner, decoder, _ | _⟩ := this
  · exact pollLoop_contents parsers decoder inner
  · rfl

/-! ### Polling until the end -/

/-- A poll that is not the last leaves the stream finished, or with fewer polls of the inner stream
to come, or with as many and fewer bytes buffered. -/
theorem pollLoop_rank (parsers : Parsers J) (decoder : StreamDecoder) (inner : List InnerPoll) :
    let this := (pollLoop parsers decoder inner).2
    this.finished = true ∨ this.inner.length < inner.length ∨
      this.inner.length = inner.length ∧ this.decoder.buffer.length < decoder.buffer.length := by
  fun_induction pollLoop parsers decoder inner with
  | case1 inner decoder job rest h =>
    rw [decoder.next_eq] at h
    exact .inr (.inr ⟨rfl, by simpa using (parsers.decoder decoder.format).progress h⟩)
  | case2 | case4 | case5 => exact .inl rfl
  | case3 decoder rest h bytes inner ih =>
    rcases ih with hfinished | hlt | ⟨heq, -⟩
    · exact .inl hfinished
    · exact .inr (.inl (hlt.trans (Nat.lt_succ_self _)))
    · exact .inr (.inl (heq ▸ Nat.lt_succ_self _))
  | case6 decoder rest h inner => exact .inr (.inl (Nat.lt_succ_self _))

/-- What a poll that is not the last takes something off. -/
def rank (this : TakeStream) : Nat × Nat × Nat :=
  (if this.finished then 0 else 1, this.inner.length, this.decoder.buffer.length)

theorem rank_pollNext (parsers : Parsers J) {this this' : TakeStream}
    {poll : Poll (Option (Except ZizqError J))} (h : pollNext parsers this = (poll, this'))
    (hpoll : poll ≠ .ready none) :
    Prod.Lex (· < ·) (Prod.Lex (· < ·) (· < ·)) (rank this') (rank this) := by
  obtain ⟨inner, decoder, _ | _⟩ := this
  · have hrank := pollLoop_rank parsers decoder inner
    rw [show pollLoop parsers decoder inner = (poll, this') from h] at hrank
    obtain ⟨inner', decoder', _ | _⟩ := this'
    · refine .right _ ?_
      rcases hrank with hfinished | hlt | ⟨heq, hlt⟩
      · cases hfinished
      · exact .left _ _ hlt
      · exact heq ▸ .right _ hlt
    · exact .left _ _ Nat.zero_lt_one
  · obtain ⟨rfl, -⟩ := Prod.mk.inj h
    exact absurd rfl hpoll

/-- What the stream yields to a caller that polls it until the first `None`. -/
def items (parsers : Parsers J) (this : TakeStream) : List (Except ZizqError J) :=
  match _h : pollNext parsers this with
  | (.ready none, _) => []
  | (.ready (some item), this') => item :: items parsers this'
  | (.pending, this') => items parsers this'
termination_by rank this
decreasing_by all_goals exact rank_pollNext parsers _h nofun

/-- The stream yields what decoding all its bytes at once finds. -/
theorem items_eq (parsers : Parsers J) (this : TakeStream) :
    items parsers this = contents parsers this := by
  fun_induction items parsers this with
  | case1 this this' h =>
    have := pollNext_contents parsers this
    rw [h] at this
    exact this.symm
  | case2 this item this' h ih =>
    have := pollNext_contents parsers this
    rw [h] at this
    rw [ih, this]
  | case3 this this' h ih =>
    have := pollNext_contents parsers this
    rw [h] at this
    rw [ih, this]

/-- A poll of an inner stream that delivers chunks, with waits between them. -/
def InnerPoll.ofDelivery : Option Bytes → InnerPoll
  | none => .pending
  | some bytes => .chunk bytes

theorem delivered_ofDelivery (deliveries : List (Option Bytes)) :
    delivered (deliveries.map InnerPoll.ofDelivery) = (deliveries.reduceOption.flatten, none) := by
  induction deliveries with
  | nil => rfl
  | cons delivery deliveries ih =>
    cases delivery with
    | none => rw [List.map_cons, InnerPoll.ofDelivery, delivered, ih, List.reduceOption_cons_of_none]
    | some bytes =>
      rw [List.map_cons, InnerPoll.ofDelivery, delivered, ih, List.reduceOption_cons_of_some,
        List.flatten_cons]

/-- **Main theorem.** However a body is cut into chunks, and wherever the polls of the inner stream
come back pending, the take stream yields what it yields when the body arrives as one chunk. -/
theorem items_chunking (parsers : Parsers J) (format : Format) (deliveries : List (Option Bytes)) :
    items parsers (new (deliveries.map InnerPoll.ofDelivery) format) =
      items parsers (new [.chunk deliveries.reduceOption.flatten] format) := by
  simp only [items_eq, new, contents_open, delivered_ofDelivery, delivered, List.append_nil]

end TakeStream

end Zizq.Take
