import Zizq.Data.Percent

/-! The tokens of jq.

The lexer takes the longest token that the text starts with, as jq's own does. It
covers names, variables, naturals, string literals, brackets and the five operators
below; on a text with any other token it fails. -/
namespace Zizq.Jq
open Data

inductive Op where
  | pipe | assign | plusAssign | le | add
deriving DecidableEq

inductive Token where
  | dot
  | field (name : String)
  | var (name : String)
  | ident (name : String)
  | number (n : Nat)
  | string (text : String)
  | op (o : Op)
  | lparen | rparen | lbracket | rbracket
deriving DecidableEq

def isSpace (c : Char) : Bool := c == ' ' || c == '\t' || c == '\n' || c == '\r'

def isNameStart (c : Char) : Bool := c.isAlpha || c == '_'

def isNameChar (c : Char) : Bool := c.isAlphanum || c == '_'

/-! ### String literals -/

/-- What a string literal is made of; `\u` escapes are UTF-16 code units. -/
inductive Unit16 where
  | char (c : Char)
  | code (n : Nat)

/-- The escapes of two characters. -/
def escaped : Char → Option Char
  | '"' => some '"'
  | '\\' => some '\\'
  | '/' => some '/'
  | 'b' => some '\x08'
  | 'f' => some '\x0c'
  | 'n' => some '\n'
  | 'r' => some '\r'
  | 't' => some '\t'
  | _ => none

/-- The code unit of four hexadecimal digits. -/
def codeUnit (a b c d : Char) : Option Nat := do
  let a ← Percent.hexValue a
  let b ← Percent.hexValue b
  let c ← Percent.hexValue c
  let d ← Percent.hexValue d
  return ((a * 16 + b) * 16 + c) * 16 + d

/-- The rest of a literal after its opening quote. -/
def scanString : List Char → Option (List Unit16 × List Char)
  | '"' :: rest => some ([], rest)
  | '\\' :: 'u' :: a :: b :: c :: d :: rest => do
    let n ← codeUnit a b c d
    let (units, rest) ← scanString rest
    return (.code n :: units, rest)
  | '\\' :: c :: rest => do
    let c ← escaped c
    let (units, rest) ← scanString rest
    return (.char c :: units, rest)
  | c :: rest => do
    let (units, rest) ← scanString rest
    return (.char c :: units, rest)
  | [] => none

/-- The character of a surrogate pair. -/
def surrogates (high low : Nat) : Option Char :=
  if 0xD800 ≤ high ∧ high < 0xDC00 ∧ 0xDC00 ≤ low ∧ low < 0xE000 then
    some (Char.ofNat (0x10000 + (high - 0xD800) * 0x400 + (low - 0xDC00)))
  else none

/-- The text of the units; it has none with a lone surrogate. -/
def joinUnits : List Unit16 → Option (List Char)
  | [] => some []
  | .char c :: units => (joinUnits units).map (c :: ·)
  | .code high :: .code low :: units =>
    match surrogates high low with
    | some c => (joinUnits units).map (c :: ·)
    | none => if high.isValidChar then (joinUnits (.code low :: units)).map (Char.ofNat high :: ·) else none
  | .code n :: units => if n.isValidChar then (joinUnits units).map (Char.ofNat n :: ·) else none

theorem scanString_char {c : Char} (hquote : c ≠ '"') (hslash : c ≠ '\\') (rest : List Char) :
    scanString (c :: rest) = (scanString rest).map fun r => (.char c :: r.1, r.2) := by
  rw [scanString, Option.map_eq_bind]
  · rfl
  · exact hquote
  · intro _ _ _ _ _ hslash'
    exact absurd hslash' hslash
  · intro _ _ hslash'
    exact absurd hslash' hslash

theorem scanString_escape {c meaning : Char} (h : escaped c = some meaning) (rest : List Char) :
    scanString ('\\' :: c :: rest) = (scanString rest).map fun r => (.char meaning :: r.1, r.2) := by
  rw [scanString, h, Option.map_eq_bind]
  · rfl
  · intro _ _ _ _ _ hu
    rw [hu] at h
    cases h

theorem scanString_code {a b c d : Char} {n : Nat} (h : codeUnit a b c d = some n) (rest : List Char) :
    scanString ('\\' :: 'u' :: a :: b :: c :: d :: rest) =
      (scanString rest).map fun r => (.code n :: r.1, r.2) := by
  rw [scanString, h, Option.map_eq_bind]
  rfl

theorem joinUnits_code {n : Nat} (h : n.isValidChar) (units : List Unit16) :
    joinUnits (.code n :: units) = (joinUnits units).map (Char.ofNat n :: ·) := by
  cases units with
  | nil => simp [joinUnits, h]
  | cons u units =>
    cases u with
    | char c => simp [joinUnits, h]
    | code low =>
      have hnone : surrogates n low = none := by
        rw [surrogates, if_neg]
        intro hsur
        rcases h with h | h <;> omega
      rw [joinUnits, hnone]
      exact if_pos h

/-! ### The lexer -/

def lexDot : List Char → Option (Token × List Char)
  | [] => some (.dot, [])
  | c :: cs =>
    if isNameStart c then
      some (.field (String.ofList (c :: cs.takeWhile isNameChar)), cs.dropWhile isNameChar)
    else if c == '.' || c.isDigit then none
    else some (.dot, c :: cs)

def lexVar : List Char → Option (Token × List Char)
  | [] => none
  | c :: cs =>
    if isNameStart c then
      some (.var (String.ofList (c :: cs.takeWhile isNameChar)), cs.dropWhile isNameChar)
    else none

def lexString (cs : List Char) : Option (Token × List Char) := do
  let (units, rest) ← scanString cs
  let text ← joinUnits units
  return (.string (String.ofList text), rest)

/-- A natural; a fraction or an exponent is outside the fragment. -/
def lexNumber (c : Char) (cs : List Char) : Option (Token × List Char) :=
  match cs.dropWhile Char.isDigit with
  | '.' :: _ | 'e' :: _ | 'E' :: _ => none
  | rest => some (.number (Nat.ofDigitChars 10 (c :: cs.takeWhile Char.isDigit) 0), rest)

/-- The longest token at the start of a text that is not blank. -/
def lexOne : Char → List Char → Option (Token × List Char)
  | '.', cs => lexDot cs
  | '$', cs => lexVar cs
  | '"', cs => lexString cs
  | '(', cs => some (.lparen, cs)
  | ')', cs => some (.rparen, cs)
  | '[', cs => some (.lbracket, cs)
  | ']', cs => some (.rbracket, cs)
  | '|', '=' :: _ => none
  | '|', cs => some (.op .pipe, cs)
  | '=', '=' :: _ => none
  | '=', cs => some (.op .assign, cs)
  | '+', '=' :: cs => some (.op .plusAssign, cs)
  | '+', cs => some (.op .add, cs)
  | '<', '=' :: cs => some (.op .le, cs)
  | c, cs =>
    if c.isDigit then lexNumber c cs
    else if isNameStart c then
      some (.ident (String.ofList (c :: cs.takeWhile isNameChar)), cs.dropWhile isNameChar)
    else none

/-! A token takes at least one character. -/

theorem scanString_length {cs rest : List Char} {units : List Unit16}
    (h : scanString cs = some (units, rest)) : rest.length ≤ cs.length := by
  fun_induction scanString cs generalizing units with
  | case1 cs => cases h; exact Nat.le_succ _
  | case2 a b c d cs ih =>
    obtain ⟨_, _, h⟩ := Option.bind_eq_some_iff.mp h
    obtain ⟨⟨_, rest'⟩, hscan, h⟩ := Option.bind_eq_some_iff.mp h
    cases h
    have := ih hscan
    simp only [List.length_cons]
    omega
  | case3 c cs _ ih =>
    obtain ⟨_, _, h⟩ := Option.bind_eq_some_iff.mp h
    obtain ⟨⟨_, rest'⟩, hscan, h⟩ := Option.bind_eq_some_iff.mp h
    cases h
    have := ih hscan
    simp only [List.length_cons]
    omega
  | case4 c cs _ _ _ ih =>
    obtain ⟨⟨_, rest'⟩, hscan, h⟩ := Option.bind_eq_some_iff.mp h
    cases h
    exact Nat.le_succ_of_le (ih hscan)
  | case5 => cases h

theorem dropWhile_length (p : Char → Bool) (cs : List Char) : (cs.dropWhile p).length ≤ cs.length :=
  (List.dropWhile_sublist p).length_le

theorem lexDot_length {cs rest : List Char} {tok : Token} (h : lexDot cs = some (tok, rest)) :
    rest.length ≤ cs.length := by
  cases cs with
  | nil => cases h; exact Nat.le_refl _
  | cons c cs =>
    rw [lexDot] at h
    split at h
    · cases h
      exact Nat.le_succ_of_le (dropWhile_length ..)
    · split at h <;> cases h
      exact Nat.le_refl _

theorem lexVar_length {cs rest : List Char} {tok : Token} (h : lexVar cs = some (tok, rest)) :
    rest.length ≤ cs.length := by
  cases cs with
  | nil => cases h
  | cons c cs =>
    rw [lexVar] at h
    split at h <;> cases h
    exact Nat.le_succ_of_le (dropWhile_length ..)

theorem lexString_length {cs rest : List Char} {tok : Token} (h : lexString cs = some (tok, rest)) :
    rest.length ≤ cs.length := by
  obtain ⟨⟨units, rest'⟩, hscan, h⟩ := Option.bind_eq_some_iff.mp h
  obtain ⟨_, _, h⟩ := Option.bind_eq_some_iff.mp h
  cases h
  exact scanString_length hscan

theorem lexNumber_length {c : Char} {cs rest : List Char} {tok : Token}
    (h : lexNumber c cs = some (tok, rest)) : rest.length ≤ cs.length := by
  rw [lexNumber] at h
  split at h <;> cases h
  exact dropWhile_length ..

theorem lexOne_length {c : Char} {cs rest : List Char} {tok : Token}
    (h : lexOne c cs = some (tok, rest)) : rest.length ≤ cs.length := by
  unfold lexOne at h
  split at h
  · exact lexDot_length h
  · exact lexVar_length h
  · exact lexString_length h
  case h_15 =>
    split at h
    · exact lexNumber_length h
    · split at h <;> cases h
      exact dropWhile_length ..
  all_goals cases h <;> simp

def lex : List Char → Option (List Token)
  | [] => some []
  | c :: cs =>
    if isSpace c then lex cs
    else
      match _h : lexOne c cs with
      | some (tok, rest) => (lex rest).map (tok :: ·)
      | none => none
termination_by cs => cs.length
decreasing_by
  · exact Nat.lt_succ_self _
  · exact Nat.lt_succ_of_le (lexOne_length _h)

theorem lex_nil : lex [] = some [] := by rw [lex]

theorem lex_space {c : Char} (hc : isSpace c = true) (cs : List Char) : lex (c :: cs) = lex cs := by
  rw [lex, if_pos hc]

theorem lex_token {c : Char} {cs rest : List Char} {tok : Token} (hc : isSpace c = false)
    (h : lexOne c cs = some (tok, rest)) : lex (c :: cs) = (lex rest).map (tok :: ·) := by
  rw [lex, if_neg (by rw [hc]; exact Bool.false_ne_true)]
  split
  · next h' => rw [h] at h'; cases h'; rfl
  · next h' => rw [h] at h'; cases h'

theorem isSpace_of_digit {c : Char} (h : c.isDigit = true) : isSpace c = false := by
  by_contra hspace
  simp only [isSpace, Bool.not_eq_false, Bool.or_eq_true, beq_iff_eq] at hspace
  rcases hspace with ((rfl | rfl) | rfl) | rfl <;> exact absurd h (by decide)

theorem lexOne_digit {c : Char} (h : c.isDigit = true) (cs : List Char) : lexOne c cs = lexNumber c cs := by
  unfold lexOne
  split
  case h_15 => rw [if_pos h]
  all_goals exact absurd h (by decide)

/-! ### Texts that end where their last token does -/

/-- The text reads as the same tokens whatever comes after it. -/
def Lexes (text : List Char) (toks : List Token) : Prop :=
  ∀ rest, lex (text ++ rest) = (lex rest).map (toks ++ ·)

theorem Lexes.append {text text' : List Char} {toks toks' : List Token} (h : Lexes text toks)
    (h' : Lexes text' toks') : Lexes (text ++ text') (toks ++ toks') := by
  intro rest
  rw [List.append_assoc, h, h', Option.map_map]
  exact congrArg (Option.map · (lex rest)) (funext fun _ => (List.append_assoc ..).symm)

theorem Lexes.of_eq {text text' : List Char} {toks : List Token} (h : Lexes text toks)
    (heq : text' = text) : Lexes text' toks := heq ▸ h

theorem lexes_space : Lexes [' '] [] := by
  intro rest
  rw [List.singleton_append, lex_space rfl]
  simp

theorem lexes_token {c : Char} {cs : List Char} {tok : Token} (hc : isSpace c = false)
    (h : ∀ rest, lexOne c (cs ++ rest) = some (tok, rest)) : Lexes (c :: cs) [tok] :=
  fun rest => lex_token hc (h rest)

/-- A token that the character after it ends. -/
theorem lexes_before (c : Char) (cs : List Char) {last : Char} {text : List Char} {tok : Token}
    {toks : List Token} (hlast : Lexes [last] toks) (htext : text = c :: (cs ++ [last]))
    (hc : isSpace c = false)
    (h : ∀ rest, lexOne c (cs ++ last :: rest) = some (tok, last :: rest)) : Lexes text (tok :: toks) := by
  intro rest
  rw [htext, List.cons_append, List.append_assoc, List.singleton_append, lex_token hc (h rest)]
  show Option.map _ (lex ([last] ++ rest)) = _
  rw [hlast, Option.map_map]
  rfl

theorem lexes_word (c : Char) (cs : List Char) {text : List Char} {tok : Token}
    (htext : text = c :: (cs ++ [' '])) (hc : isSpace c = false)
    (h : ∀ rest, lexOne c (cs ++ ' ' :: rest) = some (tok, ' ' :: rest)) : Lexes text [tok] :=
  lexes_before c cs lexes_space htext hc h

theorem lexes_lparen : Lexes ['('] [.lparen] := lexes_token rfl fun _ => rfl

theorem lexes_rparen : Lexes [')'] [.rparen] := lexes_token rfl fun _ => rfl

theorem lexes_lbracket : Lexes ['['] [.lbracket] := lexes_token rfl fun _ => rfl

theorem lexes_rbracket : Lexes [']'] [.rbracket] := lexes_token rfl fun _ => rfl

end Zizq.Jq
