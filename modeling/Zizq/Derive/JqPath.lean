import Zizq.Data.Utf8
import Zizq.Json.Path

/-! The path parser of the derive.

`parse` is a scanner over the bytes of a path. It holds a byte offset; a name in
brackets is read a character at a time, which slices the text at the offset, and
everything else a byte at a time. An offset out of range, and a slice off the boundary
of a character, panic; each loop has fuel. Read at a boundary, every part of the scanner
does what the characters there say (`Utf8.At`). -/
namespace Zizq.Derive
open Data Json

structure PathParseError where
  message : String
  position : Nat
deriving DecidableEq

/-- What ends the parser without steps. -/
inductive Halt where
  | error (e : PathParseError)
  | panicked
  | exhausted
deriving DecidableEq

/-- The largest `usize`, and `{:?}` of a string. -/
structure Platform where
  usizeMax : Nat
  debug : String → String

def fail {α : Type} (message : String) (position : Nat) : Except Halt α :=
  .error (.error ⟨message, position⟩)

/-- The byte literal `b'c'`. -/
def isByte (c : Char) (b : UInt8) : Bool := Char.ofUInt8 b == c

def isDigit (b : UInt8) : Bool := (Char.ofUInt8 b).isDigit

def isNameStart (b : UInt8) : Bool := (Char.ofUInt8 b).isAlpha || Char.ofUInt8 b == '_'

def isNameCont (b : UInt8) : Bool := (Char.ofUInt8 b).isAlphanum || Char.ofUInt8 b == '_'

section Scanner
variable (platform : Platform) (input : List Char)

/-- `bytes[i]` -/
def byteAt (i : Nat) : Except Halt UInt8 :=
  match (Utf8.encode input)[i]? with
  | some b => .ok b
  | none => .error .panicked

/-- `i < n && p(bytes[i])` -/
def probe (p : UInt8 → Bool) (i : Nat) : Except Halt Bool :=
  if i < Utf8.size input then (byteAt input i).map p else .ok false

/-- `while i < n && p(bytes[i]) { i += 1 }` -/
def skipWhile (p : UInt8 → Bool) (i : Nat) : Nat := i + (((Utf8.encode input).drop i).takeWhile p).length

/-- `input[i..].chars().next().unwrap()` -/
def nextChar (i : Nat) : Except Halt Char :=
  match Utf8.splitAt i input with
  | some (_, c :: _) => .ok c
  | _ => .error .panicked

/-- `input[start..stop]` -/
def slice (start stop : Nat) : Except Halt (List Char) :=
  match Utf8.splitAt start input with
  | none => .error .panicked
  | some (_, rest) =>
    if stop < start then .error .panicked
    else
      match Utf8.splitAt (stop - start) rest with
      | none => .error .panicked
      | some (part, _) => .ok part

/-- `digits.parse::<usize>()`, of digits -/
def parseUsize (digits : List Char) : Option Nat :=
  let n := Nat.ofDigitChars 10 digits 0
  if n ≤ platform.usizeMax then some n else none

/-- The loop over the characters of a quoted key, up to its closing quote. -/
def quotedKey : Nat → Nat → List Char → Except Halt (List Char × Nat)
  | 0, _, _ => .error .exhausted
  | fuel + 1, i, name => do
    if ← probe input (fun b => !isByte '"' b) i then
      let b ← byteAt input i
      if isByte '\\' b && decide (i + 1 < Utf8.size input) then
        let b ← byteAt input (i + 1)
        quotedKey fuel (i + 2) (name ++ [Char.ofUInt8 b])
      else
        let ch ← nextChar input i
        quotedKey fuel (i + ch.utf8Size) (name ++ [ch])
    else return (name, i)

/-- What stands behind an opening bracket, with its closing one. -/
def bracket (i : Nat) : Except Halt (PathStep × Nat) := do
  if ← probe input (isByte '"') i then
    let (name, i) ← quotedKey input (Utf8.size input + 1) (i + 1) []
    if !(← probe input (isByte '"') i) then fail "unterminated quoted key" i
    else if !(← probe input (isByte ']') (i + 1)) then fail "expected `]` after quoted key" (i + 1)
    else return (.field (String.ofList name), i + 2)
  else
    let start := i
    let i := skipWhile input isDigit start
    if i = start then fail "expected digit or quoted key after `[`" i
    else if !(← probe input (isByte ']') i) then fail "expected `]` after array index" i
    else
      let digits ← slice input start i
      match parseUsize platform digits with
      | none => fail ("invalid array index `" ++ String.ofList digits ++ "`") start
      | some index => return (.index index, i + 1)

/-- The main loop. -/
def scan : Nat → Nat → Path → Except Halt Path
  | 0, _, _ => .error .exhausted
  | fuel + 1, i, steps =>
    if i < Utf8.size input then do
      let b ← byteAt input i
      if isByte '[' b then
        let (step, i) ← bracket platform input (i + 1)
        scan fuel i (steps ++ [step])
      else if isByte '.' b then scan fuel (i + 1) steps
      else if isNameStart b then
        let start := i
        let i := skipWhile input isNameCont (start + 1)
        let name ← slice input start i
        scan fuel i (steps ++ [.field (String.ofList name)])
      else
        let ch ← nextChar input i
        fail ("unexpected character `" ++ ch.toString ++ "`") i
    else .ok steps

end Scanner

def parse (platform : Platform) (input : String) : Except Halt Path :=
  if input = "." then .ok []
  else if input = "" then fail "path is empty (use `.` for the root)" 0
  else do
    let b ← byteAt input.toList 0
    if !isByte '.' b then fail ("path must start with `.`, got " ++ platform.debug input) 0
    else scan platform input.toList (Utf8.size input.toList + 1) 1 []

/-! ### At a boundary -/

theorem ok_bind {α β : Type} (a : α) (f : α → Except Halt β) : (Except.ok a >>= f) = f a := rfl

theorem ascii_of_isAlphanum {c : Char} (h : c.isAlphanum = true) : c.toNat < 128 := by
  have hlast (d : Char) (hd : d.toNat < 128) (hle : c.val ≤ d.val) : c.toNat < 128 :=
    Nat.lt_of_le_of_lt (UInt32.le_iff_toNat_le.mp hle) hd
  rcases (Bool.or_eq_true ..).mp h with halpha | hdigit
  · rcases (Bool.or_eq_true ..).mp halpha with hupper | hlower
    · exact hlast 'Z' (by decide) (of_decide_eq_true hupper).2
    · exact hlast 'z' (by decide) (of_decide_eq_true ((Bool.and_eq_true ..).mp hlower).2)
  · exact hlast '9' (by decide) (of_decide_eq_true ((Bool.and_eq_true ..).mp hdigit).2)

theorem ascii_of_isName {c : Char} (h : (c.isAlphanum || c == '_') = true) : c.toNat < 128 := by
  rcases (Bool.or_eq_true ..).mp h with halnum | hscore
  · exact ascii_of_isAlphanum halnum
  · exact eq_of_beq hscore ▸ (by decide)

/-- A byte literal tells an ASCII character from all others. -/
theorem isByte_lead {a : Char} (ha : a.toNat < 128) (c : Char) : isByte a (Utf8.lead c) = (c == a) :=
  Utf8.test_lead (p := (· == a)) (fun _ hc => eq_of_beq hc ▸ ha) c

section At
variable {platform : Platform} {input rest : List Char} {i : Nat}

theorem probe_at (h : Utf8.At input i rest) (p : UInt8 → Bool) :
    probe input p i = .ok (rest.head?.any fun c => p (Utf8.lead c)) := by
  have hsize := h.size_eq
  rw [probe, byteAt, h.getElem?]
  cases rest with
  | nil => exact if_neg (by simp [hsize])
  | cons c rest =>
    have hpos := c.utf8Size_pos
    exact if_pos (by rw [hsize, Utf8.size_cons]; omega)

theorem byteAt_at {c : Char} (h : Utf8.At input i (c :: rest)) : byteAt input i = .ok (Utf8.lead c) := by
  rw [byteAt, h.getElem?]
  rfl

theorem nextChar_at {c : Char} (h : Utf8.At input i (c :: rest)) : nextChar input i = .ok c := by
  obtain ⟨front, rfl, rfl⟩ := h
  rw [nextChar, Utf8.splitAt_append]

theorem slice_at {part : List Char} (h : Utf8.At input i (part ++ rest)) :
    slice input i (i + Utf8.size part) = .ok part := by
  obtain ⟨front, rfl, rfl⟩ := h
  simp only [slice, Utf8.splitAt_append, Nat.add_sub_cancel_left, if_neg (Nat.not_lt.mpr (Nat.le_add_right ..))]

theorem skipWhile_at (h : Utf8.At input i rest) {p : Char → Bool} (hp : ∀ c, p c = true → c.toNat < 128) :
    skipWhile input (fun b => p (Char.ofUInt8 b)) i = i + Utf8.size (rest.takeWhile p) := by
  rw [skipWhile, h.drop, Utf8.takeWhile_encode hp, Utf8.size]

/-! ### A quoted key -/

theorem quotedKey_quote (h : Utf8.At input i ('"' :: rest)) (fuel : Nat) (name : List Char) :
    quotedKey input (fuel + 1) i name = .ok (name, i) := by
  rw [quotedKey, probe_at h]
  rfl

theorem quotedKey_char {c : Char} (h : Utf8.At input i (c :: rest)) (hquote : c ≠ '"') (hslash : c ≠ '\\')
    (fuel : Nat) (name : List Char) :
    quotedKey input (fuel + 1) i name = quotedKey input fuel (i + c.utf8Size) (name ++ [c]) := by
  have hq : isByte '"' (Utf8.lead c) = false := by simpa [isByte_lead] using hquote
  have hs : isByte '\\' (Utf8.lead c) = false := by simpa [isByte_lead] using hslash
  simp only [quotedKey, probe_at h, byteAt_at h, nextChar_at h, ok_bind, List.head?_cons, Option.any_some,
    hq, hs, Bool.not_false, Bool.false_and, if_true, Bool.false_eq_true, if_false]

/-- Behind a backslash an ASCII character is taken as it is. -/
theorem quotedKey_escape {c : Char} (h : Utf8.At input i ('\\' :: c :: rest)) (hc : c.toNat < 128)
    (fuel : Nat) (name : List Char) :
    quotedKey input (fuel + 1) i name = quotedKey input fuel (i + 2) (name ++ [c]) := by
  have hnext : Utf8.At input (i + 1) (c :: rest) := h.next_ascii (by decide)
  have hlt : i + 1 < Utf8.size input := by
    have hpos := c.utf8Size_pos
    rw [hnext.size_eq, Utf8.size_cons]
    omega
  have hq : isByte '"' (Utf8.lead '\\') = false := rfl
  have hs : isByte '\\' (Utf8.lead '\\') = true := rfl
  have hbyte : Char.ofUInt8 (Utf8.lead c) = c := by rw [Utf8.lead_ascii hc, Utf8.ofUInt8_toUInt8 hc]
  simp only [quotedKey, probe_at h, byteAt_at h, byteAt_at hnext, ok_bind, List.head?_cons, Option.any_some,
    hq, hs, hlt, hbyte, decide_true, Bool.not_false, Bool.true_and, if_true]

/-! ### Steps -/

theorem bracket_key (h : Utf8.At input i ('"' :: rest)) {name rest' : List Char} {j : Nat}
    (hkey : quotedKey input (Utf8.size input + 1) (i + 1) [] = .ok (name, j))
    (hj : Utf8.At input j ('"' :: ']' :: rest')) :
    bracket platform input i = .ok (.field (String.ofList name), j + 2) := by
  have hclose : Utf8.At input (j + 1) (']' :: rest') := hj.next_ascii (by decide)
  have hquote : isByte '"' (Utf8.lead '"') = true := rfl
  have hbracket : isByte ']' (Utf8.lead ']') = true := rfl
  simp only [bracket, probe_at h, probe_at hj, probe_at hclose, hkey, ok_bind, List.head?_cons, Option.any_some,
    hquote, hbracket, Bool.not_true, Bool.false_eq_true, if_true, if_false]
  rfl

theorem bracket_index {d : Char} {ds : List Char} (h : Utf8.At input i (d :: ds ++ ']' :: rest))
    (hall : ∀ c ∈ d :: ds, c.isDigit = true) {index : Nat}
    (hindex : parseUsize platform (d :: ds) = some index) :
    bracket platform input i = .ok (.index index, i + Utf8.size (d :: ds) + 1) := by
  have hskip : skipWhile input isDigit i = i + Utf8.size (d :: ds) := by
    have htake : (d :: ds ++ ']' :: rest).takeWhile Char.isDigit = d :: ds := by
      rw [List.takeWhile_append_of_pos hall]
      simp
    exact (skipWhile_at h fun c hc => ascii_of_isAlphanum (by simp [Char.isAlphanum, hc])).trans (by rw [htake])
  have hfirst : isByte '"' (Utf8.lead d) = false := by
    rw [isByte_lead (by decide), beq_eq_false_iff_ne]
    rintro rfl
    exact absurd (hall '"' List.mem_cons_self) (by decide)
  have hne : i + Utf8.size (d :: ds) ≠ i := by
    have hpos := d.utf8Size_pos
    rw [Utf8.size_cons]
    omega
  have hclose : isByte ']' (Utf8.lead ']') = true := rfl
  simp only [bracket, probe_at h, probe_at h.append, hskip, slice_at h, hindex, ok_bind, List.cons_append,
    List.head?_cons, Option.any_some, hfirst, hclose, if_neg hne, Bool.not_true, Bool.false_eq_true, if_false]
  rfl

theorem scan_end (h : Utf8.At input i []) (fuel : Nat) (steps : Path) :
    scan platform input (fuel + 1) i steps = .ok steps := by
  rw [scan, if_neg (by rw [h.size_eq]; exact Nat.lt_irrefl _)]

theorem scan_cons {c : Char} (h : Utf8.At input i (c :: rest)) : i < Utf8.size input := by
  have hpos := c.utf8Size_pos
  rw [h.size_eq, Utf8.size_cons]
  omega

theorem scan_dot (h : Utf8.At input i ('.' :: rest)) (fuel : Nat) (steps : Path) :
    scan platform input (fuel + 1) i steps = scan platform input fuel (i + 1) steps := by
  rw [scan, if_pos (scan_cons h), byteAt_at h]
  rfl

theorem scan_bracket (h : Utf8.At input i ('[' :: rest)) {step : PathStep} {j : Nat}
    (hstep : bracket platform input (i + 1) = .ok (step, j)) (fuel : Nat) (steps : Path) :
    scan platform input (fuel + 1) i steps = scan platform input fuel j (steps ++ [step]) := by
  rw [scan, if_pos (scan_cons h), byteAt_at h, hstep]
  rfl

theorem scan_name {c : Char} {others : List Char} (h : Utf8.At input i (c :: others ++ rest))
    (hstart : (c.isAlpha || c == '_') = true)
    (hname : (others ++ rest).takeWhile (fun c => c.isAlphanum || c == '_') = others) (fuel : Nat)
    (steps : Path) :
    scan platform input (fuel + 1) i steps =
      scan platform input fuel (i + Utf8.size (c :: others))
        (steps ++ [.field (String.ofList (c :: others))]) := by
  have hascii : c.toNat < 128 := by
    apply ascii_of_isName
    rw [Char.isAlphanum, Bool.or_right_comm, hstart, Bool.true_or]
  have hskip : skipWhile input isNameCont (i + 1) = i + Utf8.size (c :: others) := by
    have hrest : Utf8.At input (i + 1) (others ++ rest) := Utf8.At.next_ascii hascii h
    apply Eq.trans (skipWhile_at hrest fun _ => ascii_of_isName)
    rw [hname, Utf8.size_cons, Utf8.utf8Size_ascii hascii, Nat.add_assoc]
  have hother (a : Char) (ha : a.toNat < 128) (hstart' : (a.isAlpha || a == '_') = false) :
      isByte a (Utf8.lead c) = false := by
    rw [isByte_lead ha, beq_eq_false_iff_ne]
    rintro rfl
    exact absurd (hstart'.symm.trans hstart) Bool.false_ne_true
  have hbracket : isByte '[' (Utf8.lead c) = false := hother '[' (by decide) rfl
  have hdot : isByte '.' (Utf8.lead c) = false := hother '.' (by decide) rfl
  have hfirst : isNameStart (Utf8.lead c) = true := by
    rw [isNameStart, Utf8.lead_ascii hascii, Utf8.ofUInt8_toUInt8 hascii, hstart]
  rw [scan, if_pos (scan_cons h), byteAt_at h]
  simp only [ok_bind, hbracket, hdot, hfirst, hskip, slice_at h, Bool.false_eq_true, if_true, if_false]

end At

end Zizq.Derive
