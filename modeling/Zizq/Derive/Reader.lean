import Zizq.Derive.JqPath
import Zizq.Jq.Spelling

/-! What the path parser reads.

The scanner takes a text apart into dots, names and bracketed steps, whatever stands
next to what: it holds no memory of the lexeme before. `parse_cases` says what becomes
of any text. Either it is such a sequence, or there is an error at an offset of the
text, or the scanner comes to a backslash in front of a character outside ASCII. There
it takes the first byte for a character and goes on inside it, where the next slice
panics (`settles_iff`). -/
namespace Zizq.Derive
open Data Json Jq

/-! ### Lexemes -/

/-- A character of a quoted key as it is written. -/
inductive KeyChar where
  | plain (c : Char) (h : c ≠ '"' ∧ c ≠ '\\')
  | escape (c : Char) (h : c.toNat < 128)

namespace KeyChar

def chars : KeyChar → List Char
  | plain c _ => [c]
  | escape c _ => ['\\', c]

/-- The character that the parser takes it for. -/
def char : KeyChar → Char
  | plain c _ => c
  | escape c _ => c

end KeyChar

/-- A step as it is written, without the dot in front. -/
inductive Written where
  | name (name : Jq.Name)
  | index (digits : Digits)
  | key (chars : List KeyChar)

namespace Written

def chars : Written → List Char
  | name n => n.chars
  | index d => '[' :: (d.chars ++ [']'])
  | key ks => '[' :: '"' :: (ks.flatMap KeyChar.chars ++ ['"', ']'])

def step : Written → PathStep
  | name n => .field n.name
  | index d => .index d.value
  | key ks => .field (String.ofList (ks.map KeyChar.char))

def isName : Written → Bool
  | name _ => true
  | _ => false

/-- An index is a `usize`. -/
def Fits (platform : Platform) : Written → Prop
  | index d => d.value ≤ platform.usizeMax
  | _ => True

end Written

inductive Lexeme where
  | dot
  | step (written : Written)

namespace Lexeme

def chars : Lexeme → List Char
  | dot => ['.']
  | step w => w.chars

def steps : Lexeme → Path
  | dot => []
  | step w => [w.step]

def isName : Lexeme → Bool
  | dot => false
  | step w => w.isName

def Fits (platform : Platform) : Lexeme → Prop
  | dot => True
  | step w => w.Fits platform

theorem length_chars_pos (l : Lexeme) : 0 < l.chars.length := by
  cases l with
  | dot => exact Nat.zero_lt_one
  | step w => cases w <;> exact Nat.zero_lt_succ _

end Lexeme

def text (ls : List Lexeme) : List Char := ls.flatMap Lexeme.chars

/-- No two names stand side by side: they would be one name. -/
def Spaced : List Lexeme → Prop
  | l :: l' :: ls => ¬ (l.isName = true ∧ l'.isName = true) ∧ Spaced (l' :: ls)
  | _ => True

/-- A quoted key in which a backslash stands in front of a character outside ASCII, from its bracket on. -/
def IsWide (cs : List Char) : Prop :=
  ∃ (ks : List KeyChar) (c : Char) (rest : List Char), 128 ≤ c.toNat ∧
    cs = '[' :: '"' :: (ks.flatMap KeyChar.chars ++ '\\' :: c :: rest)

/-- Behind lexemes that the parser reads there is such a key. -/
def WideEscape (platform : Platform) (input : String) : Prop :=
  ∃ ls tail, Spaced ls ∧ (∀ l ∈ ls, l.Fits platform) ∧ IsWide tail ∧
    input.toList = '.' :: (text ls ++ tail)

/-- The parser returns steps, or an error at an offset of the text. -/
def Settles (platform : Platform) (input : String) : Prop :=
  (∃ path, parse platform input = .ok path) ∨
    ∃ e, parse platform input = .error (.error e) ∧ e.position ≤ Utf8.size input.toList

/-! ### A quoted key -/

/-- Where the characters of a quoted key end: at its quote, with the text, or at a backslash that the parser
does not take for the start of an escape. -/
inductive KeyEnd : List Char → Prop where
  | quote (rest : List Char) : KeyEnd ('"' :: rest)
  | finished : KeyEnd []
  | dangling : KeyEnd ['\\']
  | wide {c : Char} (h : 128 ≤ c.toNat) (rest : List Char) : KeyEnd ('\\' :: c :: rest)

theorem exists_keyEnd : ∀ cs : List Char, ∃ (ks : List KeyChar) (tail : List Char), KeyEnd tail ∧
    cs = ks.flatMap KeyChar.chars ++ tail
  | [] => ⟨[], [], .finished, rfl⟩
  | c :: cs => by
    by_cases hquote : c = '"'
    · exact ⟨[], _, hquote ▸ .quote cs, rfl⟩
    · by_cases hslash : c = '\\'
      · subst hslash
        match cs with
        | [] => exact ⟨[], _, .dangling, rfl⟩
        | d :: cs =>
          by_cases hd : 128 ≤ d.toNat
          · exact ⟨[], _, .wide hd cs, rfl⟩
          · obtain ⟨ks, tail, hend, heq⟩ := exists_keyEnd cs
            exact ⟨.escape d (Nat.lt_of_not_le hd) :: ks, tail, hend, by simp [KeyChar.chars, heq]⟩
      · obtain ⟨ks, tail, hend, heq⟩ := exists_keyEnd cs
        exact ⟨.plain c ⟨hquote, hslash⟩ :: ks, tail, hend, by simp [KeyChar.chars, heq]⟩

section Read
variable {platform : Platform} {input rest : List Char} {i : Nat}

theorem quotedKey_keyChars (ks : List KeyChar) (h : Utf8.At input i (ks.flatMap KeyChar.chars ++ rest))
    (fuel : Nat) (name : List Char) :
    quotedKey input (ks.length + fuel) i name =
      quotedKey input fuel (i + Utf8.size (ks.flatMap KeyChar.chars)) (name ++ ks.map KeyChar.char) := by
  induction ks generalizing i name with
  | nil => simp
  | cons k ks ih =>
    rw [List.flatMap_cons, List.append_assoc] at h
    have hk : quotedKey input (ks.length + fuel + 1) i name =
        quotedKey input (ks.length + fuel) (i + Utf8.size k.chars) (name ++ [k.char]) := by
      cases k with
      | plain c hc =>
        have hsize : Utf8.size [c] = c.utf8Size := by simp
        exact hsize ▸ quotedKey_char h hc.1 hc.2 _ name
      | escape c hc =>
        have hsize : Utf8.size ['\\', c] = 2 := by
          rw [Utf8.size_cons, Utf8.size_cons, Utf8.utf8Size_ascii hc]
          rfl
        exact hsize ▸ quotedKey_escape h hc _ name
    rw [List.length_cons, Nat.add_right_comm, hk, ih h.append]
    simp [Nat.add_assoc]

theorem quotedKey_finished (h : Utf8.At input i []) (fuel : Nat) (name : List Char) :
    quotedKey input (fuel + 1) i name = .ok (name, i) := by
  rw [quotedKey, probe_at h]
  rfl

/-- A backslash at the end of the text is taken as it is. -/
theorem quotedKey_dangling (h : Utf8.At input i ['\\']) (fuel : Nat) (name : List Char) :
    quotedKey input (fuel + 2) i name = .ok (name ++ ['\\'], i + 1) := by
  have hend : Utf8.At input (i + 1) [] := h.next_ascii (by decide)
  have hlast : ¬ i + 1 < Utf8.size input := by
    rw [hend.size_eq]
    exact Nat.lt_irrefl _
  have hq : isByte '"' (Utf8.lead '\\') = false := rfl
  have hsize : '\\'.utf8Size = 1 := rfl
  rw [quotedKey]
  simp only [probe_at h, byteAt_at h, nextChar_at h, ok_bind, List.head?_cons, Option.any_some, hq, hlast,
    decide_false, Bool.and_false, Bool.not_false, Bool.false_eq_true, if_true, if_false, hsize]
  exact quotedKey_finished hend fuel _

/-- Behind the escape the offset is inside the character. -/
theorem quotedKey_wide {c : Char} (h : Utf8.At input i ('\\' :: c :: rest)) (hc : 128 ≤ c.toNat)
    (fuel : Nat) (name : List Char) : quotedKey input (fuel + 2) i name = .error .panicked := by
  have hnext : Utf8.At input (i + 1) (c :: rest) := h.next_ascii (by decide)
  obtain ⟨hsplit, b, hb, hwide⟩ := hnext.second hc
  have hlt : i + 2 < Utf8.size input := (List.getElem?_eq_some_iff.mp hb).1
  have hother (a : Char) (ha : a.toNat < 128) : isByte a b = false := by
    rw [isByte, beq_eq_false_iff_ne]
    intro heq
    subst heq
    exact absurd ha (Nat.not_lt.mpr hwide)
  have hbyte : byteAt input (i + 2) = .ok b := by
    rw [byteAt, show i + 2 = i + 1 + 1 from rfl, hb]
  have hchar : nextChar input (i + 2) = .error .panicked := by
    rw [nextChar, show i + 2 = i + 1 + 1 from rfl, hsplit]
  have hq : isByte '"' (Utf8.lead '\\') = false := rfl
  have hs : isByte '\\' (Utf8.lead '\\') = true := rfl
  have hinside (name : List Char) : quotedKey input (fuel + 1) (i + 2) name = .error .panicked := by
    rw [quotedKey, probe, if_pos hlt, hbyte]
    simp only [Except.map, hother _ (show '"'.toNat < 128 by decide), hother _ (show '\\'.toNat < 128 by decide),
      ok_bind, hchar, Bool.not_false, Bool.false_and, Bool.false_eq_true, if_true, if_false]
    rfl
  rw [quotedKey]
  simp only [probe_at h, byteAt_at h, byteAt_at hnext, ok_bind, List.head?_cons, Option.any_some,
    hq, hs, Nat.lt_of_succ_lt hlt, decide_true, Bool.not_false, Bool.true_and, if_true, hinside]

/-! ### A bracket -/

theorem length_keyChars_le (ks : List KeyChar) : ks.length ≤ Utf8.size (ks.flatMap KeyChar.chars) := by
  refine Nat.le_trans ?_ (Utf8.length_le_size _)
  induction ks with
  | nil => exact Nat.le_refl 0
  | cons k ks ih =>
    have hk : 1 ≤ k.chars.length := by cases k <;> simp [KeyChar.chars]
    rw [List.flatMap_cons, List.length_append, List.length_cons]
    omega

/-- There is fuel for what the characters of a key end with. -/
theorem quotedKey_upTo (ks : List KeyChar) {tail : List Char}
    (h : Utf8.At input (i + 1) (ks.flatMap KeyChar.chars ++ tail)) :
    ∃ fuel, quotedKey input (Utf8.size input + 1) (i + 1) [] =
      quotedKey input (fuel + 2) (i + 1 + Utf8.size (ks.flatMap KeyChar.chars)) (ks.map KeyChar.char) := by
  have hlength := length_keyChars_le ks
  have hsize := h.size_eq
  rw [Utf8.size_append] at hsize
  obtain ⟨fuel, hfuel⟩ := Nat.exists_eq_add_of_le (show ks.length + 2 ≤ Utf8.size input + 1 by omega)
  refine ⟨fuel, ?_⟩
  rw [hfuel, Nat.add_assoc, Nat.add_comm 2, quotedKey_keyChars ks h, List.nil_append]

theorem bracket_written {w : Written} (hw : w.Fits platform) (hname : w.isName = false)
    (h : Utf8.At input i (w.chars ++ rest)) :
    bracket platform input (i + 1) = .ok (w.step, i + Utf8.size w.chars) := by
  cases w with
  | name n => cases hname
  | index d =>
    have hdigits : Utf8.At input (i + 1) (d.chars ++ ']' :: rest) := by
      simpa [Written.chars] using h.next_ascii (by decide)
    have hsize : Utf8.size (Written.index d).chars = 1 + (Utf8.size d.chars + 1) := by
      rw [Written.chars, Utf8.size_cons, Utf8.size_append]
      rfl
    rw [bracket_index hdigits (List.all_eq_true.mp d.isDigit) (if_pos hw), hsize]
    simp only [Nat.add_assoc]
    rfl
  | key ks =>
    have hquote : Utf8.At input (i + 1) ('"' :: (ks.flatMap KeyChar.chars ++ '"' :: ']' :: rest)) := by
      simpa [Written.chars] using h.next_ascii (by decide)
    have hchars : Utf8.At input (i + 1 + 1) (ks.flatMap KeyChar.chars ++ '"' :: ']' :: rest) :=
      hquote.next_ascii (by decide)
    have hsize : Utf8.size (Written.key ks).chars = 1 + (1 + (Utf8.size (ks.flatMap KeyChar.chars) + 2)) := by
      rw [Written.chars, Utf8.size_cons, Utf8.size_cons, Utf8.size_append]
      rfl
    obtain ⟨fuel, hfuel⟩ := quotedKey_upTo ks hchars
    have hread := hfuel.trans (quotedKey_quote hchars.append _ _)
    rw [bracket_key hquote hread hchars.append, hsize]
    simp only [Nat.add_assoc]
    rfl

theorem bracket_wide {body : List Char} (h : Utf8.At input i body) (hwide : IsWide ('[' :: body)) :
    bracket platform input i = .error .panicked := by
  obtain ⟨ks, c, rest, hc, heq⟩ := hwide
  obtain rfl := (List.cons.inj heq).2
  have hchars : Utf8.At input (i + 1) (ks.flatMap KeyChar.chars ++ '\\' :: c :: rest) :=
    h.next_ascii (by decide)
  obtain ⟨fuel, hfuel⟩ := quotedKey_upTo ks hchars
  have hread := hfuel.trans (quotedKey_wide hchars.append hc _ _)
  have hquote : isByte '"' (Utf8.lead '"') = true := rfl
  simp only [bracket, probe_at h, ok_bind, List.head?_cons, Option.any_some, hquote, if_true, hread]
  rfl

/-- What may stand behind an opening bracket and a quote. -/
theorem bracket_quote {cs : List Char} (h : Utf8.At input i ('"' :: cs)) :
    (∃ w rest, Written.isName w = false ∧ w.Fits platform ∧ '[' :: '"' :: cs = w.chars ++ rest) ∨
    (∃ e, bracket platform input i = .error (.error e) ∧ e.position ≤ Utf8.size input) ∨
    IsWide ('[' :: '"' :: cs) := by
  obtain ⟨ks, tail, hend, rfl⟩ := exists_keyEnd cs
  have hchars : Utf8.At input (i + 1) (ks.flatMap KeyChar.chars ++ tail) := h.next_ascii (by decide)
  have hquote : isByte '"' (Utf8.lead '"') = true := rfl
  obtain ⟨fuel, hfuel⟩ := quotedKey_upTo ks hchars
  cases hend with
  | quote rest =>
    have hread := hfuel.trans (quotedKey_quote hchars.append _ _)
    have hclose : Utf8.At input (i + 1 + Utf8.size (ks.flatMap KeyChar.chars) + 1) rest :=
      hchars.append.next_ascii (by decide)
    by_cases hbracket : rest.head? = some ']'
    · obtain ⟨rest, rfl⟩ := List.head?_eq_some_iff.mp hbracket
      exact .inl ⟨.key ks, rest, rfl, trivial, by simp [Written.chars]⟩
    · have hother : (rest.head?.any fun c => isByte ']' (Utf8.lead c)) = false := by
        cases rest with
        | nil => rfl
        | cons c rest => simpa [isByte_lead] using hbracket
      refine .inr (.inl ⟨⟨"expected `]` after quoted key", _⟩, ?_, hclose.le_size⟩)
      simp only [bracket, probe_at h, hread, probe_at hchars.append, probe_at hclose, ok_bind, List.head?_cons,
        Option.any_some, hquote, hother, Bool.not_true, Bool.not_false, Bool.false_eq_true, if_true, if_false]
      rfl
  | finished =>
    have hread := hfuel.trans (quotedKey_finished hchars.append _ _)
    refine .inr (.inl ⟨⟨"unterminated quoted key", _⟩, ?_, hchars.append.le_size⟩)
    simp only [bracket, probe_at h, hread, probe_at hchars.append, ok_bind, List.head?_cons, List.head?_nil,
      Option.any_some, Option.any_none, hquote, Bool.not_false, if_true]
    rfl
  | dangling =>
    have hread := hfuel.trans (quotedKey_dangling hchars.append _ _)
    have hdone : Utf8.At input (i + 1 + Utf8.size (ks.flatMap KeyChar.chars) + 1) [] :=
      hchars.append.next_ascii (by decide)
    refine .inr (.inl ⟨⟨"unterminated quoted key", _⟩, ?_, hdone.le_size⟩)
    simp only [bracket, probe_at h, hread, probe_at hdone, ok_bind, List.head?_cons, List.head?_nil,
      Option.any_some, Option.any_none, hquote, Bool.not_false, if_true]
    rfl
  | wide hc rest => exact .inr (.inr ⟨ks, _, rest, hc, rfl⟩)

/-- What may stand behind an opening bracket without a quote. -/
theorem bracket_digit {body : List Char} (h : Utf8.At input i body) (hquote : body.head? ≠ some '"') :
    (∃ w rest, Written.isName w = false ∧ w.Fits platform ∧ '[' :: body = w.chars ++ rest) ∨
    ∃ e, bracket platform input i = .error (.error e) ∧ e.position ≤ Utf8.size input := by
  have hother : (body.head?.any fun c => isByte '"' (Utf8.lead c)) = false := by
    cases body with
    | nil => rfl
    | cons c body => simpa [isByte_lead] using hquote
  have hskip : skipWhile input isDigit i = i + Utf8.size (body.takeWhile Char.isDigit) :=
    skipWhile_at h fun c hc => ascii_of_isAlphanum (by simp [Char.isAlphanum, hc])
  obtain ⟨digits, rest, hdigits, hbody⟩ :
      ∃ digits rest, body.takeWhile Char.isDigit = digits ∧ body = digits ++ rest :=
    ⟨_, _, rfl, List.takeWhile_append_dropWhile.symm⟩
  rw [hdigits] at hskip
  cases digits with
  | nil =>
    refine .inr ⟨⟨"expected digit or quoted key after `[`", i⟩, ?_, h.le_size⟩
    simp only [bracket, probe_at h, hskip, ok_bind, hother, Utf8.size_nil, Nat.add_zero, Bool.false_eq_true,
      if_false, if_true]
    rfl
  | cons d ds =>
    subst hbody
    have hall : (d :: ds).all Char.isDigit = true := hdigits ▸ List.all_takeWhile
    have hrest : Utf8.At input (i + Utf8.size (d :: ds)) rest := h.append
    have hne : i + Utf8.size (d :: ds) ≠ i := by
      have hpos := d.utf8Size_pos
      rw [Utf8.size_cons]
      omega
    by_cases hbracket : rest.head? = some ']'
    · obtain ⟨rest, rfl⟩ := List.head?_eq_some_iff.mp hbracket
      have hclose : isByte ']' (Utf8.lead ']') = true := rfl
      by_cases hfits : Nat.ofDigitChars 10 (d :: ds) 0 ≤ platform.usizeMax
      · exact .inl ⟨.index ⟨d, ds, hall⟩, rest, rfl, hfits, by simp [Written.chars, Digits.chars]⟩
      · have hparse : parseUsize platform (d :: ds) = none := if_neg hfits
        refine .inr ⟨⟨"invalid array index `" ++ String.ofList (d :: ds) ++ "`", i⟩, ?_, h.le_size⟩
        simp only [bracket, probe_at h, probe_at hrest, hskip, slice_at h, hparse, ok_bind, hother,
          List.head?_cons, Option.any_some, hclose, if_neg hne, Bool.not_true, Bool.false_eq_true, if_false]
        rfl
    · have hopen : (rest.head?.any fun c => isByte ']' (Utf8.lead c)) = false := by
        cases rest with
        | nil => rfl
        | cons c rest => simpa [isByte_lead] using hbracket
      refine .inr ⟨⟨"expected `]` after array index", _⟩, ?_, hrest.le_size⟩
      simp only [bracket, probe_at h, probe_at hrest, hskip, ok_bind, hother, hopen, if_neg hne, Bool.not_false,
        Bool.false_eq_true, if_false, if_true]
      rfl

theorem bracket_cases {body : List Char} (h : Utf8.At input i body) :
    (∃ w rest, Written.isName w = false ∧ w.Fits platform ∧ '[' :: body = w.chars ++ rest) ∨
    (∃ e, bracket platform input i = .error (.error e) ∧ e.position ≤ Utf8.size input) ∨
    IsWide ('[' :: body) := by
  by_cases hquote : body.head? = some '"'
  · obtain ⟨cs, rfl⟩ := List.head?_eq_some_iff.mp hquote
    exact bracket_quote h
  · exact (bracket_digit h hquote).imp_right .inl

/-! ### The main loop -/

theorem Spaced.tail {l : Lexeme} {ls : List Lexeme} (h : Spaced (l :: ls)) : Spaced ls := by
  cases ls with
  | nil => trivial
  | cons l' ls => exact h.2

theorem follows_nil : Follows [] := by
  intro c hc
  cases hc

theorem follows_wide {tail : List Char} (h : IsWide tail) : Follows tail := by
  obtain ⟨ks, c, rest, -, rfl⟩ := h
  rintro c ⟨⟩
  decide

/-- A lexeme that is no name does not continue one. -/
theorem follows_lexeme {l : Lexeme} (hname : l.isName = false) (rest : List Char) :
    Follows (l.chars ++ rest) := by
  cases l with
  | dot => rintro c ⟨⟩; decide
  | step w =>
    cases w with
    | name n => cases hname
    | index d => rintro c ⟨⟩; decide
    | key ks => rintro c ⟨⟩; decide

theorem Spaced.follows {l : Lexeme} {ls : List Lexeme} (h : Spaced (l :: ls)) (hname : l.isName = true)
    {tail : List Char} (htail : Follows tail) : Follows (text ls ++ tail) := by
  cases ls with
  | nil => exact htail
  | cons l' ls =>
    have hl' : l'.isName = false := by simpa [hname] using h.1
    rw [text, List.flatMap_cons, List.append_assoc]
    exact follows_lexeme hl' _

theorem isNameChar_of_isNameStart {c : Char} (h : Jq.isNameStart c = true) : isNameChar c = true := by
  rw [Jq.isNameStart] at h
  rw [isNameChar, Char.isAlphanum, Bool.or_right_comm, h, Bool.true_or]

theorem Spaced.cons {l : Lexeme} {ls : List Lexeme} (h : Spaced ls) {tail : List Char}
    (hfollows : l.isName = true → Follows (text ls ++ tail)) : Spaced (l :: ls) := by
  cases ls with
  | nil => trivial
  | cons l' ls =>
    refine ⟨fun ⟨hl, hl'⟩ => ?_, h⟩
    match l' with
    | .step (.name n) =>
      -- the name behind would go on with the one in front
      have hfirst : isNameChar n.first = false := hfollows hl n.first rfl
      exact absurd (isNameChar_of_isNameStart n.isStart) (by simp [hfirst])

theorem scan_lexeme {l : Lexeme} (hl : l.Fits platform) (h : Utf8.At input i (l.chars ++ rest))
    (hrest : l.isName = true → Follows rest) (fuel : Nat) (steps : Path) :
    scan platform input (fuel + 1) i steps =
      scan platform input fuel (i + Utf8.size l.chars) (steps ++ l.steps) := by
  cases l with
  | dot => rw [scan_dot h]; simp [Lexeme.steps]; rfl
  | step w =>
    cases w with
    | name n =>
      apply scan_name h n.isStart
      exact (span_append rest (List.all_eq_true.mp n.isName) (hrest rfl)).1
    | index d => exact scan_bracket h (bracket_written (w := .index d) hl rfl h) fuel steps
    | key ks => exact scan_bracket h (bracket_written (w := .key ks) hl rfl h) fuel steps

theorem scan_lexemes {ls : List Lexeme} (hls : Spaced ls) (hfits : ∀ l ∈ ls, l.Fits platform)
    (h : Utf8.At input i (text ls ++ rest)) (hrest : Follows rest) (fuel : Nat) (steps : Path) :
    scan platform input (ls.length + fuel) i steps =
      scan platform input fuel (i + Utf8.size (text ls)) (steps ++ ls.flatMap Lexeme.steps) := by
  induction ls generalizing i steps with
  | nil => simp [text]
  | cons l ls ih =>
    obtain ⟨hl, hfits⟩ := List.forall_mem_cons.mp hfits
    have hl' : Utf8.At input i (l.chars ++ (text ls ++ rest)) := by
      rwa [text, List.flatMap_cons, List.append_assoc] at h
    rw [List.length_cons, Nat.add_right_comm, scan_lexeme hl hl' fun hname => hls.follows hname hrest,
      ih hls.tail hfits hl'.append]
    simp [text, Nat.add_assoc]

/-- What becomes of the text `rest` in front of the scanner. -/
def Reads (platform : Platform) (input rest : List Char) (result : Except Halt Path) : Prop :=
  (∃ ls, Spaced ls ∧ (∀ l ∈ ls, l.Fits platform) ∧ rest = text ls) ∨
  (∃ e, result = .error (.error e) ∧ e.position ≤ Utf8.size input) ∨
  ∃ ls tail, Spaced ls ∧ (∀ l ∈ ls, l.Fits platform) ∧ IsWide tail ∧ rest = text ls ++ tail

theorem Reads.cons {l : Lexeme} {result : Except Halt Path} (h : Reads platform input rest result)
    (hl : l.Fits platform) (hname : l.isName = true → Follows rest) :
    Reads platform input (l.chars ++ rest) result := by
  rcases h with ⟨ls, hls, hfits, rfl⟩ | herror | ⟨ls, tail, hls, hfits, htail, rfl⟩
  · have hfollows : l.isName = true → Follows (text ls ++ []) := fun h => by simpa using hname h
    exact .inl ⟨l :: ls, hls.cons hfollows, List.forall_mem_cons.mpr ⟨hl, hfits⟩, by simp [text]⟩
  · exact .inr (.inl herror)
  · have hspaced : Spaced (l :: ls) := hls.cons hname
    exact .inr (.inr ⟨l :: ls, tail, hspaced, List.forall_mem_cons.mpr ⟨hl, hfits⟩, htail, by simp [text]⟩)

/-- A character that starts no lexeme is an error where it stands. -/
theorem scan_other {c : Char} (h : Utf8.At input i (c :: rest)) (hbracket : c ≠ '[') (hdot : c ≠ '.')
    (hname : Jq.isNameStart c = false) (fuel : Nat) (steps : Path) :
    scan platform input (fuel + 1) i steps =
      .error (.error ⟨"unexpected character `" ++ c.toString ++ "`", i⟩) := by
  have hb : isByte '[' (Utf8.lead c) = false := by simpa [isByte_lead] using hbracket
  have hd : isByte '.' (Utf8.lead c) = false := by simpa [isByte_lead] using hdot
  have hs : isNameStart (Utf8.lead c) = false :=
    (Utf8.test_lead (fun _ hc => ascii_of_isName (isNameChar_of_isNameStart hc)) c).trans hname
  rw [scan, if_pos (scan_cons h)]
  simp only [byteAt_at h, nextChar_at h, ok_bind, hb, hd, hs, Bool.false_eq_true, if_false]
  rfl

theorem scan_reads (h : Utf8.At input i rest) {fuel : Nat} (hfuel : rest.length < fuel) (steps : Path) :
    Reads platform input rest (scan platform input fuel i steps) := by
  induction fuel generalizing i rest steps with
  | zero => exact absurd hfuel (Nat.not_lt_zero _)
  | succ fuel ih =>
    -- a lexeme in front is left behind, and the rest is read with what is left of the fuel
    have hnext (l : Lexeme) {rest' : List Char} (heq : rest = l.chars ++ rest') (hl : l.Fits platform)
        (hname : l.isName = true → Follows rest') :
        Reads platform input rest (scan platform input (fuel + 1) i steps) := by
      subst heq
      have hchars := l.length_chars_pos
      rw [List.length_append] at hfuel
      rw [scan_lexeme hl h hname]
      exact (ih h.append (by omega) _).cons hl hname
    cases rest with
    | nil => exact .inl ⟨[], trivial, nofun, rfl⟩
    | cons c rest =>
      by_cases hdot : c = '.'
      · subst hdot
        exact hnext .dot rfl trivial nofun
      by_cases hbracket : c = '['
      · subst hbracket
        have hbody : Utf8.At input (i + 1) rest := h.next_ascii (by decide)
        rcases bracket_cases hbody with ⟨w, rest', hname, hw, heq⟩ | ⟨e, he, hposition⟩ | hwide
        · exact hnext (.step w) heq hw fun h => absurd (hname.symm.trans h) Bool.false_ne_true
        · refine .inr (.inl ⟨e, ?_, hposition⟩)
          rw [scan, if_pos (scan_cons h), byteAt_at h, ok_bind, he]
          rfl
        · exact .inr (.inr ⟨[], _, trivial, nofun, hwide, rfl⟩)
      cases hstart : Jq.isNameStart c with
      | true =>
        have hfollows : Follows (rest.dropWhile isNameChar) := by
          intro d hd
          have hhead := List.head?_dropWhile_not isNameChar rest
          rwa [Option.mem_def.mp hd] at hhead
        refine hnext (.step (.name ⟨c, rest.takeWhile isNameChar, hstart, List.all_takeWhile⟩)) ?_ trivial
          fun _ => hfollows
        show c :: rest = c :: (rest.takeWhile isNameChar ++ rest.dropWhile isNameChar)
        rw [List.takeWhile_append_dropWhile]
      | false => exact .inr (.inl ⟨_, scan_other h hbracket hdot hstart fuel steps, h.le_size⟩)

end Read

/-! ### The whole text -/

theorem at_one {input : String} {rest : List Char} (h : input.toList = '.' :: rest) :
    Utf8.At input.toList 1 rest := by
  have hstart : Utf8.At input.toList 0 ('.' :: rest) := h ▸ .start _
  exact hstart.next_ascii (by decide)

/-- Behind the dot the text is what is left to the main loop. -/
theorem parse_dot (platform : Platform) {input : String} {rest : List Char}
    (h : input.toList = '.' :: rest) (hroot : rest ≠ []) :
    parse platform input = scan platform input.toList (Utf8.size input.toList + 1) 1 [] := by
  have hstart : Utf8.At input.toList 0 ('.' :: rest) := h ▸ .start _
  have hdot : isByte '.' (Utf8.lead '.') = true := rfl
  have hne : input ≠ "." := fun heq => hroot (by simpa [heq] using h)
  have hempty : input ≠ "" := fun heq => by simp [heq] at h
  rw [parse, if_neg hne, if_neg hempty, byteAt_at hstart, ok_bind, hdot]
  rfl

theorem length_le_text (ls : List Lexeme) : ls.length ≤ Utf8.size (text ls) := by
  refine Nat.le_trans ?_ (Utf8.length_le_size _)
  induction ls with
  | nil => exact Nat.le_refl 0
  | cons l ls ih =>
    have hl := l.length_chars_pos
    rw [text, List.flatMap_cons, List.length_append, List.length_cons]
    rw [text] at ih
    omega

/-- The main loop gets to what stands behind the lexemes. -/
theorem parse_upTo (platform : Platform) {input : String} {ls : List Lexeme} {tail : List Char}
    (hls : Spaced ls) (hfits : ∀ l ∈ ls, l.Fits platform) (htail : Follows tail)
    (h : input.toList = '.' :: (text ls ++ tail)) (hroot : text ls ++ tail ≠ []) :
    ∃ fuel, parse platform input =
      scan platform input.toList (fuel + 1) (1 + Utf8.size (text ls)) (ls.flatMap Lexeme.steps) := by
  have hstart := at_one h
  have hlength := length_le_text ls
  have hsize := hstart.size_eq
  rw [Utf8.size_append] at hsize
  obtain ⟨fuel, hfuel⟩ := Nat.exists_eq_add_of_le (show ls.length + 1 ≤ Utf8.size input.toList + 1 by omega)
  refine ⟨fuel, ?_⟩
  rw [parse_dot platform h hroot, hfuel, Nat.add_assoc, Nat.add_comm 1, scan_lexemes hls hfits hstart htail,
    List.nil_append]

theorem parse_lexemes (platform : Platform) {input : String} {ls : List Lexeme} (hls : Spaced ls)
    (hfits : ∀ l ∈ ls, l.Fits platform) (h : input.toList = '.' :: text ls) :
    parse platform input = .ok (ls.flatMap Lexeme.steps) := by
  cases ls with
  | nil =>
    obtain rfl : input = "." := String.toList_inj.mp h
    rfl
  | cons l ls =>
    have hroot : text (l :: ls) ++ [] ≠ [] := by
      have hlength := length_le_text (l :: ls)
      intro hnil
      rw [List.append_nil] at hnil
      rw [hnil] at hlength
      exact absurd hlength (Nat.not_succ_le_zero _)
    have htext : input.toList = '.' :: (text (l :: ls) ++ []) := by rw [h, List.append_nil]
    obtain ⟨fuel, hfuel⟩ := parse_upTo platform hls hfits follows_nil htext hroot
    rw [hfuel, scan_end (at_one htext).append]

theorem parse_wide {platform : Platform} {input : String} (h : WideEscape platform input) :
    parse platform input = .error .panicked := by
  obtain ⟨ls, tail, hls, hfits, hwide, htext⟩ := h
  have hfollows := follows_wide hwide
  obtain ⟨ks, c, rest, hc, rfl⟩ := hwide
  have hbracket := (at_one htext).append
  have hbody := hbracket.next_ascii (by decide)
  obtain ⟨fuel, hfuel⟩ := parse_upTo platform hls hfits hfollows htext (by simp)
  rw [hfuel, scan, if_pos (scan_cons hbracket), byteAt_at hbracket, ok_bind,
    bracket_wide hbody ⟨ks, c, rest, hc, rfl⟩]
  rfl

/-- What the parser makes of any text. -/
theorem parse_cases (platform : Platform) (input : String) :
    (∃ ls, Spaced ls ∧ (∀ l ∈ ls, l.Fits platform) ∧ input.toList = '.' :: text ls) ∨
    (∃ e, parse platform input = .error (.error e) ∧ e.position ≤ Utf8.size input.toList) ∨
    WideEscape platform input := by
  cases htext : input.toList with
  | nil =>
    obtain rfl : input = "" := String.toList_inj.mp htext
    exact .inr (.inl ⟨_, rfl, Nat.zero_le _⟩)
  | cons c rest =>
    by_cases hdot : c = '.'
    · subst hdot
      by_cases hroot : rest = []
      · exact .inl ⟨[], trivial, nofun, by rw [hroot]; rfl⟩
      · have hstart := at_one htext
        have hlength := Utf8.length_le_size rest
        have hreads : Reads platform input.toList rest _ :=
          scan_reads hstart (show rest.length < Utf8.size input.toList + 1 by rw [hstart.size_eq]; omega) []
        rw [← parse_dot platform htext hroot] at hreads
        rcases hreads with ⟨ls, hls, hfits, rfl⟩ | herror | ⟨ls, tail, hls, hfits, hwide, rfl⟩
        · exact .inl ⟨ls, hls, hfits, rfl⟩
        · exact .inr (.inl (htext ▸ herror))
        · exact .inr (.inr ⟨ls, tail, hls, hfits, hwide, htext⟩)
    · have hstart : Utf8.At input.toList 0 (c :: rest) := htext ▸ .start _
      have hother : isByte '.' (Utf8.lead c) = false := by simpa [isByte_lead] using hdot
      have hne : input ≠ "." := by
        intro heq
        subst heq
        exact hdot (List.cons.inj htext).1.symm
      have hempty : input ≠ "" := fun h => by simp [h] at htext
      refine .inr (.inl ⟨⟨"path must start with `.`, got " ++ platform.debug input, 0⟩, ?_, Nat.zero_le _⟩)
      rw [parse, if_neg hne, if_neg hempty, byteAt_at hstart, ok_bind, hother]
      rfl

/-- **Main theorem.** The parser returns steps, or an error at an offset of the text, exactly when it does not
come to a backslash in front of a character outside ASCII in a quoted key. Otherwise it panics. -/
theorem settles_iff (platform : Platform) (input : String) :
    Settles platform input ↔ ¬ WideEscape platform input := by
  constructor
  · intro hsettles hwide
    rcases hsettles with ⟨path, hpath⟩ | ⟨e, he, -⟩
    · cases hpath.symm.trans (parse_wide hwide)
    · cases he.symm.trans (parse_wide hwide)
  · intro hwide
    rcases parse_cases platform input with ⟨ls, hls, hfits, htext⟩ | herror | h
    · exact .inl ⟨_, parse_lexemes platform hls hfits htext⟩
    · exact .inr herror
    · exact absurd h hwide

/-- `.["\é"]` -/
theorem not_settles_wide : ¬ ∀ (platform : Platform) (input : String), Settles platform input := by
  intro h
  have hwide : WideEscape ⟨2 ^ 64 - 1, id⟩ ".[\"\\é\"]" :=
    ⟨[], _, trivial, nofun, ⟨[], 'é', ['"', ']'], by decide, rfl⟩, rfl⟩
  rcases h ⟨2 ^ 64 - 1, id⟩ ".[\"\\é\"]" with ⟨path, hpath⟩ | ⟨e, he, -⟩
  · cases hpath.symm.trans (parse_wide hwide)
  · cases he.symm.trans (parse_wide hwide)

end Zizq.Derive
