import Zizq.Take.Decoder

/-! The MessagePack decoder on a target.

`decodeMsgpack` of the decoder module computes with numbers of any size. The code adds
in `usize`, which may have 32 bits and, without overflow checks, wraps; indexing,
`advance` and `split_to` panic outside the buffer. A length comes from the peer and may
be any `u32`, so that on a 32-bit target `4 + len` overflows for the last four of them.
A wrapped sum lets the call through to a split beyond the end of the buffer. On every
other buffer the code computes what `decodeMsgpack` does (`decodes_iff`). -/
namespace Zizq.Take
open Client
variable {J : Type}

inductive Word where
  | bits32
  | bits64
deriving DecidableEq

def Word.bits : Word → Nat
  | bits32 => 32
  | bits64 => 64

structure Target where
  word : Word
  overflowChecks : Bool

/-- A `BytesMut`. No allocation is larger than `isize::MAX`. -/
structure Buffer (word : Word) where
  bytes : Bytes
  length_lt : bytes.length < 2 ^ (word.bits - 1)

inductive Panic where
  | overflow
  | outOfBounds
deriving DecidableEq

/-! ### The code -/

/-- `buffer[i]` -/
def byteAt (buffer : Bytes) (i : Nat) : Except Panic UInt8 :=
  match buffer[i]? with
  | some b => .ok b
  | none => .error .outOfBounds

/-- The rest of the buffer. -/
def advance (cnt : Nat) (buffer : Bytes) : Except Panic Bytes :=
  if cnt ≤ buffer.length then .ok (buffer.drop cnt) else .error .outOfBounds

/-- The front that is split off, and the rest of the buffer. -/
def splitTo (len : Nat) (buffer : Bytes) : Except Panic (Bytes × Bytes) :=
  if len ≤ buffer.length then .ok (buffer.take len, buffer.drop len) else .error .outOfBounds

namespace Target

/-- The sum of two `usize`s. -/
def add (target : Target) (a b : Nat) : Except Panic Nat :=
  if a + b < 2 ^ target.word.bits then .ok (a + b)
  else if target.overflowChecks then .error .overflow
  else .ok ((a + b) % 2 ^ target.word.bits)

/-- `u32::from_be_bytes([buffer[0], buffer[1], buffer[2], buffer[3]]) as usize` -/
def header (buffer : Bytes) : Except Panic Nat := do
  let b₀ ← byteAt buffer 0
  let b₁ ← byteAt buffer 1
  let b₂ ← byteAt buffer 2
  let b₃ ← byteAt buffer 3
  return fromBeBytes b₀ b₁ b₂ b₃

/-- The frame behind a header that is no heartbeat. -/
def decodeFrame (target : Target) (parse : Bytes → Except String J) (len : Nat) (buffer : Bytes) :
    Except Panic (DecodeResult J) := do
  let total ← target.add 4 len
  if buffer.length < total then return .needMore buffer
  else
    let (_header, buffer) ← splitTo 4 buffer
    let (payload, buffer) ← splitTo len buffer
    return DecodeResult.ofParse (parse payload) buffer

def decodeMsgpack (target : Target) (parse : Bytes → Except String J) (buffer : Bytes) :
    Except Panic (DecodeResult J) :=
  if buffer.length < 4 then .ok (.needMore buffer)
  else
    match header buffer with
    | .error panic => .error panic
    | .ok len =>
      if len = 0 then
        -- a heartbeat
        match _h : advance 4 buffer with
        | .error panic => .error panic
        | .ok rest => decodeMsgpack target parse rest
      else decodeFrame target parse len buffer
termination_by buffer.length
decreasing_by
  rw [advance] at _h
  split at _h
  · obtain rfl := Except.ok.inj _h
    rw [List.length_drop]
    omega
  · cases _h

end Target

/-! ### What it is to do -/

/-- Heartbeats are consumed, and then there is too little for a frame, or exactly one frame is split off. -/
inductive Framed (parse : Bytes → Except String J) : Bytes → DecodeResult J → Prop where
  | short {buffer : Bytes} (h : buffer.length < 4) : Framed parse buffer (.needMore buffer)
  | heartbeat {rest : Bytes} {result : DecodeResult J} (h : Framed parse rest result) :
      Framed parse (0 :: 0 :: 0 :: 0 :: rest) result
  | waiting {b₀ b₁ b₂ b₃ : UInt8} {rest : Bytes} (h : rest.length < fromBeBytes b₀ b₁ b₂ b₃) :
      Framed parse (b₀ :: b₁ :: b₂ :: b₃ :: rest) (.needMore (b₀ :: b₁ :: b₂ :: b₃ :: rest))
  | frame {b₀ b₁ b₂ b₃ : UInt8} {payload : Bytes} (hlen : payload.length = fromBeBytes b₀ b₁ b₂ b₃)
      (hne : payload ≠ []) (rest : Bytes) :
      Framed parse (b₀ :: b₁ :: b₂ :: b₃ :: (payload ++ rest)) (DecodeResult.ofParse (parse payload) rest)

/-- The call does not panic, and frames the buffer. -/
def Decodes (target : Target) (parse : Bytes → Except String J) (buffer : Bytes) : Prop :=
  ∃ result, target.decodeMsgpack parse buffer = .ok result ∧ Framed parse buffer result

/-- The first header behind the heartbeats is one of the last four. -/
inductive Overlong : Bytes → Prop where
  | header {b : UInt8} (h : 252 ≤ b) (rest : Bytes) : Overlong (255 :: 255 :: 255 :: b :: rest)
  | heartbeat {rest : Bytes} (h : Overlong rest) : Overlong (0 :: 0 :: 0 :: 0 :: rest)

/-! ### Headers -/

theorem fromBeBytes_eq_zero {b₀ b₁ b₂ b₃ : UInt8} :
    fromBeBytes b₀ b₁ b₂ b₃ = 0 ↔ b₀ = 0 ∧ b₁ = 0 ∧ b₂ = 0 ∧ b₃ = 0 := by
  simp only [fromBeBytes, ← UInt8.toNat_inj, UInt8.toNat_ofNat]
  omega

theorem fromBeBytes_lt (b₀ b₁ b₂ b₃ : UInt8) : fromBeBytes b₀ b₁ b₂ b₃ < 2 ^ 32 := by
  have h₀ := b₀.toNat_lt
  have h₁ := b₁.toNat_lt
  have h₂ := b₂.toNat_lt
  have h₃ := b₃.toNat_lt
  rw [fromBeBytes]
  omega

theorem overlong_of_le {b₀ b₁ b₂ b₃ : UInt8} (h : 2 ^ 32 - 4 ≤ fromBeBytes b₀ b₁ b₂ b₃) (rest : Bytes) :
    Overlong (b₀ :: b₁ :: b₂ :: b₃ :: rest) := by
  have h₀ := b₀.toNat_lt
  have h₁ := b₁.toNat_lt
  have h₂ := b₂.toNat_lt
  have h₃ := b₃.toNat_lt
  rw [fromBeBytes] at h
  obtain rfl : b₀ = 255 := UInt8.toNat_inj.mp (by simp only [UInt8.toNat_ofNat]; omega)
  obtain rfl : b₁ = 255 := UInt8.toNat_inj.mp (by simp only [UInt8.toNat_ofNat]; omega)
  obtain rfl : b₂ = 255 := UInt8.toNat_inj.mp (by simp only [UInt8.toNat_ofNat]; omega)
  exact .header (UInt8.le_iff_toNat_le.mpr (by simp only [UInt8.toNat_ofNat] at h ⊢; omega)) rest

theorem exists_header {buffer : Bytes} (h : 4 ≤ buffer.length) :
    ∃ b₀ b₁ b₂ b₃ rest, buffer = b₀ :: b₁ :: b₂ :: b₃ :: rest := by
  rcases buffer with _ | ⟨b₀, _ | ⟨b₁, _ | ⟨b₂, _ | ⟨b₃, rest⟩⟩⟩⟩
  iterate 4 exact absurd h (by simp)
  exact ⟨b₀, b₁, b₂, b₃, rest, rfl⟩

/-- The decoder module's function frames every buffer. -/
theorem framed_decodeMsgpack (parse : Bytes → Except String J) (buffer : Bytes) :
    Framed parse buffer (decodeMsgpack parse buffer) := by
  fun_induction decodeMsgpack parse buffer with
  | case1 b₀ b₁ b₂ b₃ rest len hzero ih =>
    obtain ⟨rfl, rfl, rfl, rfl⟩ := fromBeBytes_eq_zero.mp hzero
    exact .heartbeat ih
  | case2 b₀ b₁ b₂ b₃ rest len hzero hshort => exact .waiting (by omega)
  | case3 b₀ b₁ b₂ b₃ rest len hzero hshort =>
    have hlength : (rest.take len).length = len := List.length_take_of_le (by omega)
    have hne : rest.take len ≠ [] := by
      intro hnil
      rw [hnil] at hlength
      exact hzero hlength.symm
    have hframe : Framed parse (b₀ :: b₁ :: b₂ :: b₃ :: (rest.take len ++ rest.drop len)) _ :=
      .frame hlength hne (rest.drop len)
    rwa [List.take_append_drop] at hframe
  | case4 buffer h =>
    refine .short (Nat.lt_of_not_le fun hle => ?_)
    obtain ⟨b₀, b₁, b₂, b₃, rest, rfl⟩ := exists_header hle
    exact h _ _ _ _ _ rfl

/-! ### The code against it -/

section Code
variable {target : Target} {parse : Bytes → Except String J}

theorem decodeMsgpack_short {buffer : Bytes} (h : buffer.length < 4) :
    target.decodeMsgpack parse buffer = .ok (.needMore buffer) := by
  rw [Target.decodeMsgpack, if_pos h]

theorem decodeMsgpack_header (b₀ b₁ b₂ b₃ : UInt8) (rest : Bytes) :
    target.decodeMsgpack parse (b₀ :: b₁ :: b₂ :: b₃ :: rest) =
      if fromBeBytes b₀ b₁ b₂ b₃ = 0 then target.decodeMsgpack parse rest
      else target.decodeFrame parse (fromBeBytes b₀ b₁ b₂ b₃) (b₀ :: b₁ :: b₂ :: b₃ :: rest) := by
  have hlength : ¬ (b₀ :: b₁ :: b₂ :: b₃ :: rest).length < 4 := by simp
  have hheader : Target.header (b₀ :: b₁ :: b₂ :: b₃ :: rest) = .ok (fromBeBytes b₀ b₁ b₂ b₃) := rfl
  rw [Target.decodeMsgpack, if_neg hlength]
  simp only [hheader]
  split
  · split
    · next panic h => simp [advance] at h
    · next rest' h =>
      obtain rfl : rest = rest' := by simpa [advance] using h
      rfl
  · rfl

/-- Where the sum does not overflow, both splits are inside the buffer. -/
theorem decodeFrame_fits {len : Nat} (hfits : 4 + len < 2 ^ target.word.bits) (b₀ b₁ b₂ b₃ : UInt8)
    (rest : Bytes) :
    target.decodeFrame parse len (b₀ :: b₁ :: b₂ :: b₃ :: rest) =
      .ok (if rest.length + 4 < 4 + len then .needMore (b₀ :: b₁ :: b₂ :: b₃ :: rest)
        else DecodeResult.ofParse (parse (rest.take len)) (rest.drop len)) := by
  have hsum : target.add 4 len = .ok (4 + len) := if_pos hfits
  have hheader : splitTo 4 (b₀ :: b₁ :: b₂ :: b₃ :: rest) = .ok ([b₀, b₁, b₂, b₃], rest) :=
    if_pos (by simp)
  rw [Target.decodeFrame, hsum]
  by_cases hshort : rest.length + 4 < 4 + len
  · rw [if_pos hshort]
    exact if_pos hshort
  · have hpayload : splitTo len rest = .ok (rest.take len, rest.drop len) := if_pos (by omega)
    rw [if_neg hshort]
    refine Eq.trans (if_neg hshort) ?_
    rw [hheader]
    show (splitTo len rest >>= _) = _
    rw [hpayload]
    rfl

/-- On 32 bits the last four lengths overflow: with checks the sum panics, and without it wraps to less than
the four bytes of the header, so that the second split is out of bounds. -/
theorem decodeFrame_overflows (hword : target.word = .bits32) {len : Nat} (hlast : 2 ^ 32 - 4 ≤ len)
    (hlen : len < 2 ^ 32) (b₀ b₁ b₂ b₃ : UInt8) {rest : Bytes} (hrest : rest.length < 2 ^ 31) :
    ∃ panic, target.decodeFrame parse len (b₀ :: b₁ :: b₂ :: b₃ :: rest) = .error panic := by
  have hover : ¬ 4 + len < 2 ^ target.word.bits := by
    rw [hword, Word.bits]
    omega
  rw [Target.decodeFrame, Target.add, if_neg hover]
  cases target.overflowChecks with
  | true => exact ⟨.overflow, rfl⟩
  | false =>
    have hwrap : ¬ rest.length + 4 < (4 + len) % 2 ^ target.word.bits := by
      rw [hword, Word.bits]
      omega
    have hheader : splitTo 4 (b₀ :: b₁ :: b₂ :: b₃ :: rest) = .ok ([b₀, b₁, b₂, b₃], rest) :=
      if_pos (by simp)
    have hpayload : splitTo len rest = .error .outOfBounds := if_neg (by omega)
    refine ⟨.outOfBounds, Eq.trans (if_neg hwrap) ?_⟩
    rw [hheader]
    show (splitTo len rest >>= _) = _
    rw [hpayload]
    rfl

theorem decodeMsgpack_overlong (hword : target.word = .bits32) {buffer : Bytes} (h : Overlong buffer)
    (hlength : buffer.length < 2 ^ 31) : ∃ panic, target.decodeMsgpack parse buffer = .error panic := by
  induction h with
  | @header b hb rest =>
    have hlen : 2 ^ 32 - 4 ≤ fromBeBytes 255 255 255 b := by
      have hlast : 252 ≤ b.toNat := UInt8.le_iff_toNat_le.mp hb
      simp only [fromBeBytes, UInt8.toNat_ofNat]
      omega
    have hrest : rest.length < 2 ^ 31 := by
      simp only [List.length_cons] at hlength
      omega
    rw [decodeMsgpack_header, if_neg (by omega)]
    exact decodeFrame_overflows hword hlen (fromBeBytes_lt ..) 255 255 255 b hrest
  | heartbeat h ih =>
    rw [decodeMsgpack_header, if_pos (fromBeBytes_eq_zero.mpr ⟨rfl, rfl, rfl, rfl⟩)]
    exact ih (by simp only [List.length_cons] at hlength; omega)

theorem fits_of_not_overlong {b₀ b₁ b₂ b₃ : UInt8} {rest : Bytes}
    (h : ¬ (target.word = .bits32 ∧ Overlong (b₀ :: b₁ :: b₂ :: b₃ :: rest))) :
    4 + fromBeBytes b₀ b₁ b₂ b₃ < 2 ^ target.word.bits := by
  cases hword : target.word with
  | bits32 =>
    have hlt : fromBeBytes b₀ b₁ b₂ b₃ < 2 ^ 32 - 4 :=
      Nat.lt_of_not_le fun hle => h ⟨hword, overlong_of_le hle rest⟩
    rw [Word.bits]
    omega
  | bits64 =>
    have hlt := fromBeBytes_lt b₀ b₁ b₂ b₃
    rw [Word.bits]
    omega

/-- Elsewhere the code does what `decodeMsgpack` says. -/
theorem decodeMsgpack_refines {buffer : Bytes} (h : ¬ (target.word = .bits32 ∧ Overlong buffer)) :
    target.decodeMsgpack parse buffer = .ok (decodeMsgpack parse buffer) := by
  fun_induction decodeMsgpack parse buffer with
  | case1 b₀ b₁ b₂ b₃ rest len hzero ih =>
    rw [decodeMsgpack_header, if_pos hzero]
    obtain ⟨rfl, rfl, rfl, rfl⟩ := fromBeBytes_eq_zero.mp hzero
    exact ih fun hlong => h ⟨hlong.1, .heartbeat hlong.2⟩
  | case2 b₀ b₁ b₂ b₃ rest len hzero hshort =>
    rw [decodeMsgpack_header, if_neg hzero, decodeFrame_fits (fits_of_not_overlong h), if_pos hshort]
  | case3 b₀ b₁ b₂ b₃ rest len hzero hshort =>
    rw [decodeMsgpack_header, if_neg hzero, decodeFrame_fits (fits_of_not_overlong h), if_neg hshort]
  | case4 buffer hbuffer =>
    refine decodeMsgpack_short (Nat.lt_of_not_le fun hle => ?_)
    obtain ⟨b₀, b₁, b₂, b₃, rest, rfl⟩ := exists_header hle
    exact hbuffer _ _ _ _ _ rfl

end Code

/-- **Main theorem.** A call consumes heartbeats and then asks for more data or splits off one frame that is
there, without a panic, exactly when it does not meet one of the last four headers on a 32-bit target. -/
theorem decodes_iff (target : Target) (parse : Bytes → Except String J) (buffer : Buffer target.word) :
    Decodes target parse buffer.bytes ↔ ¬ (target.word = .bits32 ∧ Overlong buffer.bytes) := by
  constructor
  · intro hdecodes hlong
    obtain ⟨result, hresult, -⟩ := hdecodes
    obtain ⟨hword, hoverlong⟩ := hlong
    have hbits : target.word.bits = 32 := congrArg Word.bits hword
    have hlength := buffer.length_lt
    rw [hbits] at hlength
    obtain ⟨panic, hpanic⟩ : ∃ panic, target.decodeMsgpack parse buffer.bytes = .error panic :=
      decodeMsgpack_overlong hword hoverlong hlength
    cases hresult.symm.trans hpanic
  · intro h
    exact ⟨_, decodeMsgpack_refines h, framed_decodeMsgpack parse buffer.bytes⟩

/-- The greatest header and nothing behind it. -/
def greatest : Buffer .bits32 := ⟨[255, 255, 255, 255], by decide⟩

theorem not_decodes_greatest : ¬ ∀ (target : Target) (parse : Bytes → Except String Unit)
    (buffer : Buffer target.word), Decodes target parse buffer.bytes := by
  intro h
  obtain ⟨result, hresult, -⟩ := h ⟨.bits32, true⟩ (fun _ => .ok ()) greatest
  have hoverlong : Overlong greatest.bytes := .header (by decide) []
  obtain ⟨panic, hpanic⟩ : ∃ panic, Target.decodeMsgpack ⟨.bits32, true⟩ _ greatest.bytes = .error panic :=
    decodeMsgpack_overlong rfl hoverlong (by decide)
  cases hresult.symm.trans hpanic

end Zizq.Take
