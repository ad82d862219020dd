import Mathlib.Data.List.Basic
import Mathlib.Data.String.Basic

/-! Text by its bytes.

A text is a list of characters, and `encode` its UTF-8 bytes. Programs that hold byte
offsets into a text are right about the characters as long as an offset is on the
boundary of two of them: `At` says what text is behind such an offset. The first byte
of a character tells whether it is an ASCII character, and which. -/
namespace Zizq.Data.Utf8

def encode (cs : List Char) : List UInt8 := cs.flatMap String.utf8EncodeChar

def size (cs : List Char) : Nat := (encode cs).length

/-- The first byte of a character. -/
def lead (c : Char) : UInt8 := (String.utf8EncodeChar c).headD 0

/-- A text in front of a byte offset and behind it; none where the offset is inside a character. -/
def splitAt : Nat → List Char → Option (List Char × List Char)
  | 0, cs => some ([], cs)
  | _ + 1, [] => none
  | i + 1, c :: cs =>
    if c.utf8Size ≤ i + 1 then (splitAt (i + 1 - c.utf8Size) cs).map fun (front, rest) => (c :: front, rest)
    else none

theorem encode_cons (c : Char) (cs : List Char) : encode (c :: cs) = String.utf8EncodeChar c ++ encode cs :=
  List.flatMap_cons

theorem encode_append (cs cs' : List Char) : encode (cs ++ cs') = encode cs ++ encode cs' :=
  List.flatMap_append

@[simp]
theorem size_nil : size [] = 0 := rfl

@[simp]
theorem size_cons (c : Char) (cs : List Char) : size (c :: cs) = c.utf8Size + size cs := by
  rw [size, encode_cons, List.length_append, String.length_utf8EncodeChar, size]

@[simp]
theorem size_append (cs cs' : List Char) : size (cs ++ cs') = size cs + size cs' := by
  rw [size, encode_append, List.length_append, size, size]

theorem length_le_size (cs : List Char) : cs.length ≤ size cs := by
  induction cs with
  | nil => exact Nat.le_refl 0
  | cons c cs ih =>
    rw [List.length_cons, size_cons, Nat.add_comm]
    exact Nat.add_le_add c.utf8Size_pos ih

theorem encode_eq_lead (c : Char) : ∃ more, String.utf8EncodeChar c = lead c :: more := by
  cases h : String.utf8EncodeChar c with
  | nil => exact absurd h String.utf8EncodeChar_ne_nil
  | cons b more => exact ⟨more, by rw [lead, h]; rfl⟩

/-! ### ASCII -/

theorem utf8Size_ascii {c : Char} (h : c.toNat < 128) : c.utf8Size = 1 := by
  rw [Char.utf8Size_eq_one_iff, UInt32.le_iff_toNat_le]
  exact Nat.le_of_lt_succ h

theorem encode_ascii {c : Char} (h : c.toNat < 128) : String.utf8EncodeChar c = [c.toUInt8] :=
  String.utf8EncodeChar_eq_singleton (utf8Size_ascii h)

@[simp]
theorem toNat_ofUInt8 (b : UInt8) : (Char.ofUInt8 b).toNat = b.toNat := rfl

theorem ofUInt8_toUInt8 {c : Char} (h : c.toNat < 128) : Char.ofUInt8 c.toUInt8 = c := by
  apply Char.toNat_inj.mp
  rw [toNat_ofUInt8]
  exact Nat.mod_eq_of_lt (h.trans (by decide))

theorem lead_ascii {c : Char} (h : c.toNat < 128) : lead c = c.toUInt8 := by
  rw [lead, encode_ascii h]
  rfl

theorem lead_not_ascii {c : Char} (h : 128 ≤ c.toNat) : 128 ≤ (lead c).toNat := by
  have hc : ¬ c.val.toNat ≤ 127 := Nat.not_le_of_lt h
  simp only [lead, String.utf8EncodeChar, if_neg hc]
  split
  · simp only [List.headD_cons, UInt8.toNat_ofNat']
    omega
  · split
    · simp only [List.headD_cons, UInt8.toNat_ofNat']
      omega
    · simp only [List.headD_cons, UInt8.toNat_ofNat']
      omega

/-- A test that only ASCII characters pass sees from the first byte what the character is. -/
theorem test_lead {p : Char → Bool} (hp : ∀ c, p c = true → c.toNat < 128) (c : Char) :
    p (Char.ofUInt8 (lead c)) = p c := by
  by_cases h : c.toNat < 128
  · rw [lead_ascii h, ofUInt8_toUInt8 h]
  · have hlead : 128 ≤ (Char.ofUInt8 (lead c)).toNat := by
      rw [toNat_ofUInt8]
      exact lead_not_ascii (Nat.le_of_not_lt h)
    rw [Bool.eq_false_iff.mpr fun hc => h (hp c hc),
      Bool.eq_false_iff.mpr fun hc => Nat.not_lt.mpr hlead (hp _ hc)]

theorem takeWhile_encode {p : Char → Bool} (hp : ∀ c, p c = true → c.toNat < 128) (cs : List Char) :
    (encode cs).takeWhile (fun b => p (Char.ofUInt8 b)) = encode (cs.takeWhile p) := by
  induction cs with
  | nil => rfl
  | cons c cs ih =>
    obtain ⟨more, hmore⟩ := encode_eq_lead c
    have hlead := test_lead hp c
    rw [List.takeWhile_cons, encode_cons]
    cases hc : p c with
    | true =>
      rw [lead_ascii (hp c hc)] at hlead
      simp only [encode_ascii (hp c hc), List.singleton_append, List.takeWhile_cons, hlead, hc, ih,
        if_true, encode_cons]
    | false =>
      simp only [hmore, List.cons_append, List.takeWhile_cons, hlead, hc]
      rfl

/-! ### Offsets -/

theorem splitAt_append (front rest : List Char) :
    splitAt (size front) (front ++ rest) = some (front, rest) := by
  induction front with
  | nil => rw [size_nil, splitAt]; rfl
  | cons c front ih =>
    obtain ⟨n, hn⟩ := Nat.exists_eq_succ_of_ne_zero (Nat.ne_zero_of_lt c.utf8Size_pos)
    rw [size_cons, List.cons_append, hn, Nat.succ_add, splitAt, if_pos (by omega), hn,
      show n + size front + 1 - n.succ = size front by omega, ih]
    rfl

/-- The offset `i` of `cs` is on a boundary, and `rest` is the text behind it. -/
def At (cs : List Char) (i : Nat) (rest : List Char) : Prop :=
  ∃ front, cs = front ++ rest ∧ i = size front

namespace At
variable {cs rest : List Char} {i : Nat}

theorem start (cs : List Char) : At cs 0 cs := ⟨[], rfl, rfl⟩

theorem append {part : List Char} (h : At cs i (part ++ rest)) : At cs (i + size part) rest := by
  obtain ⟨front, rfl, rfl⟩ := h
  exact ⟨front ++ part, (List.append_assoc ..).symm, (size_append ..).symm⟩

theorem next {c : Char} (h : At cs i (c :: rest)) : At cs (i + c.utf8Size) rest := by
  have hpart : At cs i ([c] ++ rest) := h
  have hrest := hpart.append
  rwa [size_cons, size_nil, Nat.add_zero] at hrest

theorem next_ascii {c : Char} (hc : c.toNat < 128) (h : At cs i (c :: rest)) : At cs (i + 1) rest :=
  utf8Size_ascii hc ▸ h.next

theorem drop (h : At cs i rest) : (encode cs).drop i = encode rest := by
  obtain ⟨front, rfl, rfl⟩ := h
  rw [encode_append, size, List.drop_left]

theorem getElem? (h : At cs i rest) : (encode cs)[i]? = rest.head?.map lead := by
  rw [← List.head?_drop, h.drop]
  cases rest with
  | nil => rfl
  | cons c rest =>
    obtain ⟨more, hmore⟩ := encode_eq_lead c
    rw [encode_cons, hmore]
    rfl

theorem size_eq (h : At cs i rest) : size cs = i + size rest := by
  obtain ⟨front, rfl, rfl⟩ := h
  exact size_append ..

theorem le_size (h : At cs i rest) : i ≤ size cs := h.size_eq ▸ Nat.le_add_right ..

end At

/-! ### Inside a character -/

theorem utf8Size_not_ascii {c : Char} (h : 128 ≤ c.toNat) : 1 < c.utf8Size := by
  have hpos := c.utf8Size_pos
  have hne : c.utf8Size ≠ 1 := by
    rw [Ne, Char.utf8Size_eq_one_iff, UInt32.le_iff_toNat_le]
    exact Nat.not_le_of_lt h
  omega

/-- Neither the first nor the second byte of a character outside ASCII is an ASCII character. -/
theorem second_not_ascii {c : Char} (h : 128 ≤ c.toNat) :
    ∃ b more, String.utf8EncodeChar c = lead c :: b :: more ∧ 128 ≤ b.toNat := by
  have hc : ¬ c.val.toNat ≤ 127 := Nat.not_le_of_lt h
  -- every byte behind the first one has its high bit set
  have hbehind (n : Nat) : 128 ≤ (UInt8.ofNat (n % 64 + 128)).toNat := by
    rw [UInt8.toNat_ofNat']
    omega
  simp only [lead, String.utf8EncodeChar, if_neg hc]
  split
  · exact ⟨_, _, rfl, hbehind _⟩
  · split
    · exact ⟨_, _, rfl, hbehind _⟩
    · exact ⟨_, _, rfl, hbehind _⟩

/-- The offset of the second byte of a character is not on a boundary. -/
theorem splitAt_second {c : Char} (hc : 1 < c.utf8Size) (front rest : List Char) :
    splitAt (size front + 1) (front ++ c :: rest) = none := by
  induction front with
  | nil =>
    rw [size_nil, List.nil_append, splitAt, if_neg (by omega)]
  | cons d front ih =>
    have hpos := d.utf8Size_pos
    rw [size_cons, List.cons_append, splitAt, if_pos (by omega),
      show d.utf8Size + size front + 1 - d.utf8Size = size front + 1 by omega, ih]
    rfl

theorem At.second {cs rest : List Char} {c : Char} {i : Nat} (h : At cs i (c :: rest)) (hc : 128 ≤ c.toNat) :
    splitAt (i + 1) cs = none ∧ ∃ b, (encode cs)[i + 1]? = some b ∧ 128 ≤ b.toNat := by
  obtain ⟨b, more, hbytes, hb⟩ := second_not_ascii hc
  have hdrop := h.drop
  obtain ⟨front, rfl, rfl⟩ := h
  refine ⟨splitAt_second (utf8Size_not_ascii hc) front rest, b, ?_, hb⟩
  rw [← List.getElem?_drop, hdrop, encode_cons, hbytes]
  rfl

end Zizq.Data.Utf8
