import Zizq.Client.Response
import Zizq.Data.Framing

/-! The framing decoders of the take stream.

NDJSON is one record a line, MessagePack one record behind each big-endian
length. Blank lines and empty frames are heartbeats, skipped inside the loop. The
per-record parsers are third-party code and a parameter here. Both loops are
incremental decoders (`Parsers.decoder`): a record, a failure and a skipped
heartbeat are settled by bytes that have arrived. -/
namespace Zizq.Take
open Client Data Framing
variable {J : Type}

/-- `serde_json::from_slice` and `rmp_serde::from_slice` at the job type. -/
structure Parsers (J : Type) where
  json : Bytes → Except String J
  msgpack : Bytes → Except String J

abbrev DecodeResult (J : Type) := Framing.Result UInt8 J ZizqError

/-- What either loop returns for the bytes of a complete record. -/
def DecodeResult.ofParse (parsed : Except String J) (rest : Bytes) : DecodeResult J :=
  match parsed with
  | .ok job => .record job rest
  | .error message => .error (.decode message) rest

/-! ### The loops -/

def newline : UInt8 := 10

def carriageReturn : UInt8 := 13

def isAsciiWhitespace (b : UInt8) : Bool := b = 32 || b = 9 || b = 10 || b = 12 || b = 13

/-- The line without the `\r` of a CRLF ending. -/
def stripCr (line : Bytes) : Bytes :=
  if line.getLast? = some carriageReturn then line.dropLast else line

def decodeNdjson (parse : Bytes → Except String J) (buffer : Bytes) : DecodeResult J :=
  match _h : buffer.findIdx? (· = newline) with
  | none => .needMore buffer
  | some nl =>
    let line := stripCr (buffer.take nl)
    if line.all isAsciiWhitespace then decodeNdjson parse (buffer.drop (nl + 1))
    else DecodeResult.ofParse (parse line) (buffer.drop (nl + 1))
termination_by buffer.length
decreasing_by
  have := (List.findIdx?_eq_some_iff_getElem.mp _h).1
  simp only [List.length_drop]
  omega

def fromBeBytes (b₀ b₁ b₂ b₃ : UInt8) : Nat :=
  ((b₀.toNat * 256 + b₁.toNat) * 256 + b₂.toNat) * 256 + b₃.toNat

/-- The length is below `2 ^ 32`, so that `4 + len` fits a 64-bit `usize`. -/
def decodeMsgpack (parse : Bytes → Except String J) : Bytes → DecodeResult J
  | b₀ :: b₁ :: b₂ :: b₃ :: rest =>
    let len := fromBeBytes b₀ b₁ b₂ b₃
    if len = 0 then decodeMsgpack parse rest
    else if rest.length + 4 < 4 + len then .needMore (b₀ :: b₁ :: b₂ :: b₃ :: rest)
    else DecodeResult.ofParse (parse (rest.take len)) (rest.drop len)
  | buffer => .needMore buffer

/-! ### They are incremental -/

theorem DecodeResult.ofParse_append (decode : Bytes → DecodeResult J) (parsed : Except String J)
    (rest more : Bytes) :
    (DecodeResult.ofParse parsed rest).extend decode more = DecodeResult.ofParse parsed (rest ++ more) := by
  cases parsed <;> rfl

theorem DecodeResult.rest_of_ofParse {parsed : Except String J} {rest rest' : Bytes} {job : J}
    (h : DecodeResult.ofParse parsed rest = .record job rest') : rest' = rest := by
  cases parsed <;> cases h
  rfl

section Ndjson
variable {parse : Bytes → Except String J}

theorem decodeNdjson_line {buffer : Bytes} {nl : Nat} (h : buffer.findIdx? (· = newline) = some nl) :
    decodeNdjson parse buffer =
      if (stripCr (buffer.take nl)).all isAsciiWhitespace then decodeNdjson parse (buffer.drop (nl + 1))
      else DecodeResult.ofParse (parse (stripCr (buffer.take nl))) (buffer.drop (nl + 1)) := by
  rw [decodeNdjson]
  split <;> simp_all

/-- The first line of a buffer is its first line whatever comes behind. -/
theorem line_append {buffer : Bytes} {nl : Nat} (h : buffer.findIdx? (· = newline) = some nl)
    (more : Bytes) :
    (buffer ++ more).findIdx? (· = newline) = some nl ∧ (buffer ++ more).take nl = buffer.take nl ∧
      (buffer ++ more).drop (nl + 1) = buffer.drop (nl + 1) ++ more := by
  have hlt := (List.findIdx?_eq_some_iff_getElem.mp h).1
  refine ⟨?_, List.take_append_of_le_length hlt.le, List.drop_append_of_le_length hlt⟩
  rw [List.findIdx?_append, h]
  rfl

theorem decodeNdjson_append (buffer more : Bytes) :
    decodeNdjson parse (buffer ++ more) =
      (decodeNdjson parse buffer).extend (decodeNdjson parse) more := by
  fun_induction decodeNdjson parse buffer with
  | case1 buffer h => rfl
  | case2 buffer nl h line hblank ih =>
    obtain ⟨hfind, htake, hdrop⟩ := line_append h more
    rw [decodeNdjson_line hfind, htake, hdrop, if_pos hblank, ih]
  | case3 buffer nl h line hblank =>
    obtain ⟨hfind, htake, hdrop⟩ := line_append h more
    rw [decodeNdjson_line hfind, htake, hdrop, if_neg hblank, DecodeResult.ofParse_append]

theorem length_decodeNdjson {buffer rest : Bytes} {job : J}
    (hr : decodeNdjson parse buffer = .record job rest) : rest.length < buffer.length := by
  fun_induction decodeNdjson parse buffer with
  | case1 buffer h => cases hr
  | case2 buffer nl h line hblank ih =>
    have hlt := (List.findIdx?_eq_some_iff_getElem.mp h).1
    have := ih hr
    simp only [List.length_drop] at this
    omega
  | case3 buffer nl h line hblank =>
    have hlt := (List.findIdx?_eq_some_iff_getElem.mp h).1
    rw [DecodeResult.rest_of_ofParse hr, List.length_drop]
    omega

end Ndjson

section Msgpack
variable {parse : Bytes → Except String J}

theorem decodeMsgpack_append (buffer more : Bytes) :
    decodeMsgpack parse (buffer ++ more) =
      (decodeMsgpack parse buffer).extend (decodeMsgpack parse) more := by
  fun_induction decodeMsgpack parse buffer with
  | case1 b₀ b₁ b₂ b₃ rest len hzero ih =>
    simp only [List.cons_append, decodeMsgpack]
    rw [if_pos hzero, ih]
  | case2 b₀ b₁ b₂ b₃ rest len hzero hshort => rfl
  | case3 b₀ b₁ b₂ b₃ rest len hzero hshort =>
    have hle : len ≤ rest.length := by omega
    have hshort' : ¬ (rest ++ more).length + 4 < 4 + len := by
      rw [List.length_append]
      omega
    simp only [List.cons_append, decodeMsgpack]
    rw [if_neg hzero, if_neg hshort', List.take_append_of_le_length hle,
      List.drop_append_of_le_length hle, DecodeResult.ofParse_append]
  | case4 buffer h => rfl

theorem length_decodeMsgpack {buffer rest : Bytes} {job : J}
    (hr : decodeMsgpack parse buffer = .record job rest) : rest.length < buffer.length := by
  fun_induction decodeMsgpack parse buffer with
  | case1 b₀ b₁ b₂ b₃ rest' len hzero ih =>
    have := ih hr
    simp only [List.length_cons]
    omega
  | case2 b₀ b₁ b₂ b₃ rest' len hzero hshort => cases hr
  | case3 b₀ b₁ b₂ b₃ rest' len hzero hshort =>
    rw [DecodeResult.rest_of_ofParse hr, List.length_drop]
    simp only [List.length_cons]
    omega
  | case4 buffer h => cases hr

end Msgpack

def ndjsonDecoder (parse : Bytes → Except String J) : Decoder UInt8 J ZizqError where
  decode := decodeNdjson parse
  progress := length_decodeNdjson
  decode_append := decodeNdjson_append

def msgpackDecoder (parse : Bytes → Except String J) : Decoder UInt8 J ZizqError where
  decode := decodeMsgpack parse
  progress := length_decodeMsgpack
  decode_append := decodeMsgpack_append

/-- The decoder of a stream in either format. -/
def Parsers.decoder (parsers : Parsers J) : Format → Decoder UInt8 J ZizqError
  | .json => ndjsonDecoder parsers.json
  | .messagePack => msgpackDecoder parsers.msgpack

end Zizq.Take
