import Zizq.Key.Canonical

/-! Uniqueness keys.

A derived key is the lowercase-hex digest of a value's canonical text, with an
optional tag in front. Nothing here computes SHA-256: the digest is a function
from byte strings to 32 bytes, and no such function is injective on all of them,
so what is assumed of it is that it has no collision within a set of texts. -/
namespace Zizq.Key
open Data Value
variable {ν : Type}

inductive UniqueScope where
  | queued | active | «exists» | unknown
deriving DecidableEq

structure UniqueKey where
  key : String
  scope : Option UniqueScope
deriving DecidableEq

def UniqueKey.raw (key : String) : UniqueKey := ⟨key, none⟩

/-- SHA-256 over a byte string. -/
abbrev Digest := ByteArray → Vector UInt8 32

/-- One byte as `{byte:02x}`. -/
def hexByte (b : UInt8) : List Char := [Nat.digitChar (b.toNat / 16), Nat.digitChar (b.toNat % 16)]

/-- The bytes that the hasher is fed. -/
def canonicalBytes (tokens : Tokens ν) (value : Value ν) : ByteArray :=
  (String.ofList (writeCanonical tokens value)).toUTF8

section Keys
variable (tokens : Tokens ν) (digest : Digest)

def hashHex (value : Value ν) : String :=
  String.ofList ((digest (canonicalBytes tokens value)).toList.flatMap hexByte)

def UniqueKey.hashOf (value : Value ν) : UniqueKey := .raw (hashHex tokens digest value)

def UniqueKey.taggedHashOf (tag : String) (value : Value ν) : UniqueKey :=
  .raw (tag ++ ":" ++ hashHex tokens digest value)

end Keys

/-! ### Hexadecimal digests -/

theorem digitChar_injective : ∀ m n : Fin 16, Nat.digitChar m = Nat.digitChar n → m = n := by
  decide

theorem hexByte_injective : hexByte.Injective := by
  intro a b h
  have ha := a.toNat_lt
  have hb := b.toNat_lt
  simp only [hexByte, List.cons.injEq, and_true] at h
  have hhigh := digitChar_injective ⟨a.toNat / 16, by omega⟩ ⟨b.toNat / 16, by omega⟩ h.1
  have hlow := digitChar_injective ⟨a.toNat % 16, by omega⟩ ⟨b.toNat % 16, by omega⟩ h.2
  simp only [Fin.mk.injEq] at hhigh hlow
  exact UInt8.toNat_inj.mp (by omega)

theorem flatMap_hexByte_injective : (List.flatMap hexByte).Injective := by
  intro as bs h
  induction as generalizing bs with
  | nil => cases bs <;> simp [hexByte] at h ⊢
  | cons a as ih =>
    cases bs with
    | nil => simp [hexByte] at h
    | cons b bs =>
      rw [List.flatMap_cons, List.flatMap_cons] at h
      obtain ⟨hbyte, hrest⟩ := List.append_inj h rfl
      rw [hexByte_injective hbyte, ih hrest]

theorem length_flatMap_hexByte (bytes : List UInt8) : (bytes.flatMap hexByte).length = 2 * bytes.length := by
  induction bytes with
  | nil => rfl
  | cons b bytes ih =>
    rw [List.flatMap_cons, List.length_append, ih, List.length_cons]
    simp only [hexByte, List.length_cons, List.length_nil]
    omega

/-! ### JSON tokens -/

/-- A character inside a JSON string, as `serde_json` escapes it. -/
def escapeChar (c : Char) : List Char :=
  if c = '"' then ['\\', '"'] else if c = '\\' then ['\\', '\\']
  else if c = Char.ofNat 8 then ['\\', 'b'] else if c = '\t' then ['\\', 't']
  else if c = '\n' then ['\\', 'n'] else if c = Char.ofNat 12 then ['\\', 'f']
  else if c = '\r' then ['\\', 'r']
  else if c.toNat < 32 then '\\' :: 'u' :: '0' :: '0' :: hexByte c.toNat.toUInt8
  else [c]

def hexValue (digit : Char) : Nat := if digit.isDigit then digit.toNat - 48 else digit.toNat - 87

/-- The first character of an escaped text and what comes after it. -/
def unescape : List Char → Option (Char × List Char)
  | '\\' :: 'u' :: _ :: _ :: h :: l :: r =>
    some (Char.ofNat (16 * hexValue h + hexValue l), r)
  | '\\' :: 'b' :: r => some (Char.ofNat 8, r)
  | '\\' :: 't' :: r => some ('\t', r)
  | '\\' :: 'n' :: r => some ('\n', r)
  | '\\' :: 'f' :: r => some (Char.ofNat 12, r)
  | '\\' :: 'r' :: r => some ('\r', r)
  | '\\' :: c :: r => some (c, r)
  | c :: r => some (c, r)
  | [] => none

theorem hexValue_digitChar : ∀ n : Fin 16, hexValue (Nat.digitChar n) = n := by
  decide

theorem unescape_escapeChar (c : Char) (r : List Char) : unescape (escapeChar c ++ r) = some (c, r) := by
  unfold escapeChar
  split_ifs with h₁ h₂ h₃ h₄ h₅ h₆ h₇ h₈
  · rw [h₁]; rfl
  · rw [h₂]; rfl
  · rw [h₃]; rfl
  · rw [h₄]; rfl
  · rw [h₅]; rfl
  · rw [h₆]; rfl
  · rw [h₇]; rfl
  · have hbyte : c.toNat.toUInt8.toNat = c.toNat := by
      rw [UInt8.toNat_ofNat']
      omega
    have hhigh := hexValue_digitChar ⟨c.toNat / 16, by omega⟩
    have hlow := hexValue_digitChar ⟨c.toNat % 16, by omega⟩
    simp only [hexByte, hbyte, List.cons_append, List.nil_append, unescape] at hhigh hlow ⊢
    rw [hhigh, hlow, Nat.div_add_mod, Char.ofNat_toNat]
  · rw [List.singleton_append, unescape.eq_def]
    split <;> simp_all

theorem flatMap_escapeChar_injective : (List.flatMap escapeChar).Injective := by
  intro cs ds h
  induction cs generalizing ds with
  | nil =>
    cases ds with
    | nil => rfl
    | cons d ds =>
      have := congrArg unescape h
      rw [List.flatMap_cons, unescape_escapeChar] at this
      cases this
  | cons c cs ih =>
    cases ds with
    | nil =>
      have := congrArg unescape h
      rw [List.flatMap_cons, unescape_escapeChar] at this
      cases this
    | cons d ds =>
      have := congrArg unescape h
      simp only [List.flatMap_cons, unescape_escapeChar, Option.some.injEq, Prod.mk.injEq] at this
      rw [this.1, ih this.2]

theorem escaped_escapeChar (c : Char) : Delimited.Escaped '\\' '"' (escapeChar c) := by
  unfold escapeChar
  split_ifs with h₁ h₂ h₃ h₄ h₅ h₆ h₇ h₈
  · simp [Delimited.Escaped]
  · simp [Delimited.Escaped]
  · simp [Delimited.Escaped]
  · simp [Delimited.Escaped]
  · simp [Delimited.Escaped]
  · simp [Delimited.Escaped]
  · simp [Delimited.Escaped]
  · have hdigit : ∀ n : Fin 16, Nat.digitChar n ≠ '\\' ∧ Nat.digitChar n ≠ '"' := by decide
    have hbyte : c.toNat.toUInt8.toNat = c.toNat := by
      rw [UInt8.toNat_ofNat']
      omega
    have hhigh := hdigit ⟨c.toNat / 16, by omega⟩
    have hlow := hdigit ⟨c.toNat % 16, by omega⟩
    simp_all [Delimited.Escaped, hexByte]
  · exact ⟨h₂, h₁⟩

/-- The tokens of documents whose numbers are natural. -/
def natTokens : Tokens Nat where
  string s := '"' :: (s.toList.flatMap escapeChar ++ ['"'])
  number n := Nat.toDigits 10 n

theorem natTokens_lawful : natTokens.Lawful where
  quoted s := ⟨_, rfl, Delimited.escaped_flatMap escaped_escapeChar _⟩
  string_injective s s' h :=
    String.toList_inj.mp (flatMap_escapeChar_injective (List.append_cancel_right (List.cons.inj h).2))
  numeric n c hc := by
    rw [isNumeric, Nat.isDigit_of_mem_toDigits (by decide) (by decide) hc, Bool.true_or]
  number_nonempty n := Nat.toDigits_ne_nil
  number_injective m n h := by
    rw [← Nat.ofDigitChars_ten_toDigits (n := m), ← Nat.ofDigitChars_ten_toDigits (n := n)]
    exact congrArg (Nat.ofDigitChars 10 · 0) h

/-! ### Keys -/

section Keys
variable (tokens : Tokens ν) (digest : Digest)

theorem length_hashHex (value : Value ν) : (hashHex tokens digest value).toList.length = 64 := by
  rw [hashHex, String.toList_ofList, length_flatMap_hexByte, Vector.length_toList]

theorem canonicalBytes_inj {tokens : Tokens ν} {v w : Value ν} :
    canonicalBytes tokens v = canonicalBytes tokens w ↔
      writeCanonical tokens v = writeCanonical tokens w := by
  rw [canonicalBytes, canonicalBytes, String.toUTF8_eq_toByteArray, String.toUTF8_eq_toByteArray,
    String.toByteArray_inj, String.ofList_inj]

theorem hashHex_inj {v w : Value ν} :
    hashHex tokens digest v = hashHex tokens digest w ↔
      digest (canonicalBytes tokens v) = digest (canonicalBytes tokens w) := by
  rw [hashHex, hashHex, String.ofList_inj, flatMap_hexByte_injective.eq_iff, Vector.toList_inj]

/-- The tag ends where the 64 digits and their colon begin, whatever it is. -/
theorem tagged_inj {t₁ t₂ : String} {v w : Value ν} :
    t₁ ++ ":" ++ hashHex tokens digest v = t₂ ++ ":" ++ hashHex tokens digest w ↔
      t₁ = t₂ ∧ hashHex tokens digest v = hashHex tokens digest w := by
  constructor
  · intro h
    have hlist := congrArg String.toList h
    rw [String.toList_append, String.toList_append, String.toList_append, String.toList_append] at hlist
    obtain ⟨htag, hhash⟩ := List.append_inj' hlist (by rw [length_hashHex, length_hashHex])
    exact ⟨String.toList_inj.mp (List.append_cancel_right htag), String.toList_inj.mp hhash⟩
  · rintro ⟨rfl, hhash⟩
    rw [hhash]

theorem tagged_ne_untagged (t : String) (v w : Value ν) :
    t ++ ":" ++ hashHex tokens digest v ≠ hashHex tokens digest w := by
  intro h
  have hlen := congrArg (fun s => s.toList.length) h
  simp only [String.toList_append, List.length_append, length_hashHex] at hlen
  have : (":" : String).toList.length = 1 := rfl
  omega

variable {tokens digest}

theorem hashHex_eq_iff (ht : tokens.Lawful) {S : Set ByteArray} (hS : S.InjOn digest)
    {v w : Unordered ν} (hv : canonicalBytes tokens v.value ∈ S)
    (hw : canonicalBytes tokens w.value ∈ S) :
    hashHex tokens digest v.value = hashHex tokens digest w.value ↔ Same v.value w.value := by
  rw [hashHex_inj, hS.eq_iff hv hw, canonicalBytes_inj, writeCanonical_inj ht v.distinct w.distinct]

/-- **Main theorem.** As long as the digest has no collision among the texts of the values compared,
keys are equal exactly for equal tags and values that are the same up to member order, and no
tagged key is an untagged one. -/
theorem key_eq_iff (ht : tokens.Lawful) {S : Set ByteArray} (hS : S.InjOn digest)
    (t₁ t₂ : String) (v₁ v₂ : Unordered ν) (h₁ : canonicalBytes tokens v₁.value ∈ S)
    (h₂ : canonicalBytes tokens v₂.value ∈ S) :
    ((UniqueKey.taggedHashOf tokens digest t₁ v₁.value).key =
        (UniqueKey.taggedHashOf tokens digest t₂ v₂.value).key ↔ t₁ = t₂ ∧ Same v₁.value v₂.value) ∧
    ((UniqueKey.hashOf tokens digest v₁.value).key = (UniqueKey.hashOf tokens digest v₂.value).key ↔
      Same v₁.value v₂.value) ∧
    (UniqueKey.taggedHashOf tokens digest t₁ v₁.value).key ≠
      (UniqueKey.hashOf tokens digest v₂.value).key := by
  refine ⟨?_, hashHex_eq_iff ht hS h₁ h₂, tagged_ne_untagged tokens digest t₁ v₁.value v₂.value⟩
  rw [← hashHex_eq_iff ht hS h₁ h₂]
  exact tagged_inj tokens digest

end Keys

/-- The digest that is known on the texts of a table only. -/
def tableDigest (table : List (String × Vector UInt8 32)) : Digest := fun bytes =>
  ((table.find? fun e => e.1.toUTF8.data = bytes.data).map Prod.snd).getD (.replicate 32 0)

def tableTexts (table : List (String × Vector UInt8 32)) : Set ByteArray :=
  {bytes | ∃ e ∈ table, e.1.toUTF8 = bytes}

theorem tableDigest_injOn {table : List (String × Vector UInt8 32)} (hnodup : (table.map Prod.snd).Nodup) :
    (tableTexts table).InjOn (tableDigest table) := by
  have hfind {bytes : ByteArray} (h : bytes ∈ tableTexts table) :
      ∃ e ∈ table, e.1.toUTF8 = bytes ∧ tableDigest table bytes = e.2 := by
    obtain ⟨e, he, hbytes⟩ := h
    have hsome : (table.find? fun e => e.1.toUTF8.data = bytes.data).isSome :=
      List.find?_isSome.mpr ⟨e, he, decide_eq_true (congrArg ByteArray.data hbytes)⟩
    obtain ⟨a, ha⟩ := Option.isSome_iff_exists.mp hsome
    have htext : a.1.toUTF8 = bytes := ByteArray.ext (by simpa using List.find?_some ha)
    refine ⟨a, List.mem_of_find?_eq_some ha, htext, ?_⟩
    rw [tableDigest, ha]
    rfl
  intro x hx y hy heq
  obtain ⟨a, ha, rfl, hdigest⟩ := hfind hx
  obtain ⟨b, hb, rfl, hdigest'⟩ := hfind hy
  rw [List.inj_on_of_nodup_map hnodup ha hb (hdigest.symm.trans (heq.trans hdigest'))]

theorem mem_tableTexts {table : List (String × Vector UInt8 32)} {tokens : Tokens ν} {v : Value ν}
    (h : ∃ e ∈ table, e.1.toList = writeCanonical tokens v) :
    canonicalBytes tokens v ∈ tableTexts table := by
  obtain ⟨e, he, htext⟩ := h
  exact ⟨e, he, by rw [canonicalBytes, ← htext, String.ofList_toList]⟩

/-- SHA-256 on two texts. -/
def sampleTable : List (String × Vector UInt8 32) :=
  [("\x7b\"a\":1,\"b\":[true,\"x\"]\x7d",
    #v[99, 232, 6, 61, 157, 198, 240, 253, 90, 36, 180, 112, 104, 24, 161, 101,
      253, 87, 195, 83, 27, 116, 70, 108, 245, 222, 166, 43, 255, 9, 176, 182]),
   ("\x7b\"a\":1\x7d",
    #v[1, 90, 189, 127, 92, 197, 122, 45, 217, 75, 117, 144, 240, 74, 216, 8,
      66, 115, 144, 94, 227, 62, 197, 206, 190, 174, 98, 39, 106, 151, 248, 98])]

def sampleFirst : Unordered Nat :=
  ⟨.object [("b", .array [.bool true, .string "x"]), ("a", .number 1)], by decide⟩

def sampleSecond : Unordered Nat := ⟨.object [("a", .number 1)], by decide⟩

theorem key_eq_iff_sample :
    ((UniqueKey.taggedHashOf natTokens (tableDigest sampleTable) "t" sampleFirst.value).key =
        (UniqueKey.taggedHashOf natTokens (tableDigest sampleTable) "t:" sampleSecond.value).key ↔
      "t" = "t:" ∧ Same sampleFirst.value sampleSecond.value) ∧
    ((UniqueKey.hashOf natTokens (tableDigest sampleTable) sampleFirst.value).key =
        (UniqueKey.hashOf natTokens (tableDigest sampleTable) sampleSecond.value).key ↔
      Same sampleFirst.value sampleSecond.value) ∧
    (UniqueKey.taggedHashOf natTokens (tableDigest sampleTable) "t" sampleFirst.value).key ≠
      (UniqueKey.hashOf natTokens (tableDigest sampleTable) sampleSecond.value).key :=
  key_eq_iff natTokens_lawful (tableDigest_injOn (by decide)) "t" "t:" sampleFirst sampleSecond
    (mem_tableTexts (by decide)) (mem_tableTexts (by decide))

end Zizq.Key
