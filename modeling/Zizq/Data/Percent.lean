import Mathlib.Data.List.Basic
import Mathlib.Logic.Function.Basic

/-! Percent-encoding of bytes.

The bytes that `escape` selects are written as `%` and two hexadecimal digits,
all others as the character with that code. If `%` itself is escaped the text
decodes back to the bytes, so that it determines them, and no character that is
escaped occurs in it. -/
namespace Zizq.Data.Percent
variable {escape : UInt8 → Bool}

def hexDigit (n : Nat) : Char := if n < 10 then Char.ofNat (48 + n) else Char.ofNat (55 + n)

def hexValue (c : Char) : Option Nat :=
  if '0' ≤ c ∧ c ≤ '9' then some (c.toNat - 48)
  else if 'A' ≤ c ∧ c ≤ 'F' then some (c.toNat - 55)
  else if 'a' ≤ c ∧ c ≤ 'f' then some (c.toNat - 87)
  else none

def encodeByte (escape : UInt8 → Bool) (b : UInt8) : List Char :=
  if escape b then ['%', hexDigit (b.toNat / 16), hexDigit (b.toNat % 16)] else [Char.ofNat b.toNat]

def encode (escape : UInt8 → Bool) (bytes : List UInt8) : List Char := bytes.flatMap (encodeByte escape)

/-- An escape stands for its byte, any other character for its code. -/
def decode : List Char → List UInt8
  | [] => []
  | '%' :: h :: l :: rest =>
    match hexValue h, hexValue l with
    | some high, some low => (16 * high + low).toUInt8 :: decode rest
    | _, _ => '%'.toNat.toUInt8 :: decode (h :: l :: rest)
  | c :: rest => c.toNat.toUInt8 :: decode rest

theorem hexValue_hexDigit : ∀ n : Fin 16, hexValue (hexDigit n) = some n.val := by decide

theorem toNat_char (b : UInt8) : (Char.ofNat b.toNat).toNat = b.toNat := by
  have hvalid : b.toNat.isValidChar := .inl (by have := b.toNat_lt; omega)
  rw [Char.ofNat, dif_pos hvalid]
  rfl

theorem decode_cons_of_ne {c : Char} (hc : c ≠ '%') (rest : List Char) :
    decode (c :: rest) = c.toNat.toUInt8 :: decode rest := by
  rw [decode.eq_def]
  split <;> simp_all

theorem decode_encodeByte (hpercent : escape 37 = true) (b : UInt8) (rest : List Char) :
    decode (encodeByte escape b ++ rest) = b :: decode rest := by
  have hb := b.toNat_lt
  rw [encodeByte]
  split
  · have hhigh := hexValue_hexDigit ⟨b.toNat / 16, by omega⟩
    have hlow := hexValue_hexDigit ⟨b.toNat % 16, by omega⟩
    simp only at hhigh hlow
    simp only [List.cons_append, List.nil_append, decode, hhigh, hlow, Nat.div_add_mod]
    rw [Nat.toUInt8_eq, UInt8.ofNat_toNat]
  · next hplain =>
    have hne : Char.ofNat b.toNat ≠ '%' := by
      intro h
      have hcode : b.toNat = 37 := (toNat_char b).symm.trans (congrArg Char.toNat h)
      exact hplain (by rwa [show b = 37 from UInt8.toNat_inj.mp hcode])
    rw [List.singleton_append, decode_cons_of_ne hne, toNat_char, Nat.toUInt8_eq, UInt8.ofNat_toNat]

/-- Decoding gives the encoded bytes back. -/
theorem decode_encode (hpercent : escape 37 = true) (bytes : List UInt8) :
    decode (encode escape bytes) = bytes := by
  induction bytes with
  | nil => rfl
  | cons b bytes ih =>
    rw [encode, List.flatMap_cons, decode_encodeByte hpercent]
    exact congrArg _ ih

theorem encode_injective (hpercent : escape 37 = true) : (encode escape).Injective :=
  Function.LeftInverse.injective (decode_encode hpercent)

/-- An escaped character does not occur in the text, unless escapes are written with it. -/
theorem not_mem_encode {c : Char} (hc : c.toNat < 256) (hescape : escape c.toNat.toUInt8 = true)
    (hpercent : c ≠ '%') (hhex : hexValue c = none) (bytes : List UInt8) : c ∉ encode escape bytes := by
  intro hmem
  obtain ⟨b, -, hb⟩ := List.mem_flatMap.mp hmem
  have hlt := b.toNat_lt
  have hdigit (n : Fin 16) : c ≠ hexDigit n := by
    rintro rfl
    rw [hexValue_hexDigit] at hhex
    cases hhex
  rw [encodeByte] at hb
  split at hb
  · simp only [List.mem_cons, List.not_mem_nil, or_false] at hb
    rcases hb with h | h | h
    · exact hpercent h
    · exact hdigit ⟨b.toNat / 16, by omega⟩ h
    · exact hdigit ⟨b.toNat % 16, by omega⟩ h
  · next hplain =>
    rw [List.mem_singleton] at hb
    rw [hb, toNat_char, Nat.toUInt8_eq, UInt8.ofNat_toNat] at hescape
    exact hplain hescape

end Zizq.Data.Percent
