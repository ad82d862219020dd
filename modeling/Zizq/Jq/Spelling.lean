import Zizq.Jq.Parser
import Zizq.Json.Path

/-! The spellings of a path.

A path is written as a dot and its steps: a field as `.name` or as a string literal in
brackets, with any of the escapes that such a literal may have, and an index as digits
in brackets. The root is a single dot. -/
namespace Zizq.Jq
open Data Json

structure Name where
  first : Char
  others : List Char
  isStart : isNameStart first = true
  isName : others.all isNameChar = true

structure Digits where
  first : Char
  others : List Char
  isDigit : (first :: others).all Char.isDigit = true

/-- One character of a string literal as it is written, and the character it stands for. -/
inductive Piece where
  | plain (c : Char) (h : c ≠ '"' ∧ c ≠ '\\')
  | escape (c meaning : Char) (h : escaped c = some meaning)
  | code (a b c d : Char) (n : Nat) (h : codeUnit a b c d = some n ∧ n.isValidChar)
  | pair (a b c d a' b' c' d' : Char) (high low : Nat) (meaning : Char)
      (hhigh : codeUnit a b c d = some high) (hlow : codeUnit a' b' c' d' = some low)
      (h : surrogates high low = some meaning)

inductive StepText where
  | name (name : Name)
  | index (digits : Digits)
  | key (pieces : List Piece)

abbrev PathText := List StepText

namespace Name
def chars (n : Name) : List Char := n.first :: n.others
def name (n : Name) : String := String.ofList n.chars
end Name

namespace Digits
def chars (d : Digits) : List Char := d.first :: d.others
def value (d : Digits) : Nat := Nat.ofDigitChars 10 d.chars 0
end Digits

namespace Piece

def chars : Piece → List Char
  | plain c _ => [c]
  | escape c _ _ => ['\\', c]
  | code a b c d _ _ => ['\\', 'u', a, b, c, d]
  | pair a b c d a' b' c' d' _ _ _ _ _ _ => ['\\', 'u', a, b, c, d, '\\', 'u', a', b', c', d']

def meaning : Piece → Char
  | plain c _ => c
  | escape _ c _ => c
  | code _ _ _ _ n _ => Char.ofNat n
  | pair _ _ _ _ _ _ _ _ _ _ c _ _ _ => c

def units : Piece → List Unit16
  | plain c _ => [.char c]
  | escape _ c _ => [.char c]
  | code _ _ _ _ n _ => [.code n]
  | pair _ _ _ _ _ _ _ _ high low _ _ _ _ => [.code high, .code low]

end Piece

namespace StepText

def chars : StepText → List Char
  | name n => '.' :: n.chars
  | index d => '[' :: (d.chars ++ [']'])
  | key ps => '[' :: '"' :: (ps.flatMap Piece.chars ++ ['"', ']'])

def step : StepText → PathStep
  | name n => .field n.name
  | index d => .index d.value
  | key ps => .field (String.ofList (ps.map Piece.meaning))

def tokens : StepText → List Token
  | name n => [.field n.name]
  | index d => [.lbracket, .number d.value, .rbracket]
  | key ps => [.lbracket, .string (String.ofList (ps.map Piece.meaning)), .rbracket]

/-- The step as a suffix of `e`. -/
def access (e : Expr) : StepText → Expr
  | name n => .field e n.name
  | index d => .index e (.number d.value)
  | key ps => .index e (.string (String.ofList (ps.map Piece.meaning)))

/-- No index beyond the bound. -/
def Within (bound : Nat) : StepText → Prop
  | index d => d.value ≤ bound
  | _ => True

end StepText

namespace PathText

/-- A bracket does not start a path: without a name in front there is a dot. -/
def dotted : PathText → Bool
  | .name _ :: _ => false
  | _ => true

def chars (path : PathText) : List Char :=
  (if dotted path then ['.'] else []) ++ path.flatMap StepText.chars

def text (path : PathText) : String := String.ofList (chars path)

def steps (path : PathText) : Path := path.map StepText.step

def tokens (path : PathText) : List Token :=
  (if dotted path then [.dot] else []) ++ path.flatMap StepText.tokens

def expr (path : PathText) : Expr := path.foldl (fun e s => s.access e) .identity

end PathText

/-! ### Lexing a path -/

theorem span_append {p : Char → Bool} {cs : List Char} (rest : List Char) (hcs : ∀ c ∈ cs, p c = true)
    (hrest : ∀ c ∈ rest.head?, p c = false) :
    (cs ++ rest).takeWhile p = cs ∧ (cs ++ rest).dropWhile p = rest := by
  rw [List.takeWhile_append_of_pos hcs, List.dropWhile_append_of_pos hcs]
  cases rest with
  | nil => simp
  | cons c rest =>
    have hc := hrest c rfl
    simp [hc]

theorem lex_name (n : Name) {rest : List Char} (hrest : ∀ c ∈ rest.head?, isNameChar c = false) :
    lex ('.' :: (n.chars ++ rest)) = (lex rest).map (.field n.name :: ·) := by
  obtain ⟨htake, hdrop⟩ := span_append rest (List.all_eq_true.mp n.isName) hrest
  refine lex_token rfl ?_
  show lexDot (n.first :: (n.others ++ rest)) = _
  rw [lexDot, if_pos n.isStart, htake, hdrop]
  rfl

theorem lexes_index (d : Digits) : Lexes (d.chars ++ [']']) [.number d.value, .rbracket] := by
  obtain ⟨hfirst, hothers⟩ := List.forall_mem_cons.mp (List.all_eq_true.mp d.isDigit)
  refine lexes_before d.first d.others lexes_rbracket rfl (isSpace_of_digit hfirst) fun rest => ?_
  obtain ⟨htake, hdrop⟩ := span_append (']' :: rest) hothers (by simp)
  rw [lexOne_digit hfirst, lexNumber, htake, hdrop]
  rfl

theorem scanString_piece (p : Piece) (rest : List Char) :
    scanString (p.chars ++ rest) = (scanString rest).map fun r => (p.units ++ r.1, r.2) := by
  cases p with
  | plain c h => exact scanString_char h.1 h.2 rest
  | escape c meaning h => exact scanString_escape h rest
  | code a b c d n h => exact scanString_code h.1 rest
  | pair a b c d a' b' c' d' high low meaning hhigh hlow h =>
    show scanString ('\\' :: 'u' :: a :: b :: c :: d :: '\\' :: 'u' :: a' :: b' :: c' :: d' :: rest) = _
    rw [scanString_code hhigh, scanString_code hlow, Option.map_map]
    rfl

theorem scanString_pieces (ps : List Piece) (rest : List Char) :
    scanString (ps.flatMap Piece.chars ++ '"' :: rest) = some (ps.flatMap Piece.units, rest) := by
  induction ps with
  | nil => rfl
  | cons p ps ih =>
    rw [List.flatMap_cons, List.flatMap_cons, List.append_assoc, scanString_piece, ih]
    rfl

theorem joinUnits_piece (p : Piece) (units : List Unit16) :
    joinUnits (p.units ++ units) = (joinUnits units).map (p.meaning :: ·) := by
  cases p with
  | plain c h => rfl
  | escape c meaning h => rfl
  | code a b c d n h => exact joinUnits_code h.2 units
  | pair a b c d a' b' c' d' high low meaning hhigh hlow h =>
    show joinUnits (.code high :: .code low :: units) = _
    rw [joinUnits, h]
    rfl

theorem joinUnits_pieces (ps : List Piece) :
    joinUnits (ps.flatMap Piece.units) = some (ps.map Piece.meaning) := by
  induction ps with
  | nil => rfl
  | cons p ps ih =>
    rw [List.flatMap_cons, joinUnits_piece, ih]
    rfl

theorem lexes_key (ps : List Piece) :
    Lexes ('"' :: (ps.flatMap Piece.chars ++ ['"'])) [.string (String.ofList (ps.map Piece.meaning))] := by
  refine lexes_token rfl fun rest => ?_
  show lexString _ = _
  rw [List.append_assoc, List.singleton_append, lexString, scanString_pieces]
  show (joinUnits _).bind _ = _
  rw [joinUnits_pieces]
  rfl

/-- What may follow a step: nothing that could belong to its name. -/
def Follows (rest : List Char) : Prop := ∀ c ∈ rest.head?, isNameChar c = false

theorem lex_step (s : StepText) {rest : List Char} (hrest : Follows rest) :
    lex (s.chars ++ rest) = (lex rest).map (s.tokens ++ ·) := by
  cases s with
  | name n => exact lex_name n hrest
  | index d => exact (lexes_lbracket.append (lexes_index d)) rest
  | key ps =>
    have h := (lexes_lbracket.append (lexes_key ps)).append lexes_rbracket
    have hchars : StepText.chars (.key ps) =
        ['['] ++ ('"' :: (ps.flatMap Piece.chars ++ ['"'])) ++ [']'] := by
      simp [StepText.chars]
    rw [hchars]
    exact h rest

theorem follows_step (s : StepText) (rest : List Char) : Follows (s.chars ++ rest) := by
  cases s <;> (intro c hc; cases hc; decide)

theorem lex_steps (path : PathText) {rest : List Char} (hrest : Follows rest) :
    lex (path.flatMap StepText.chars ++ rest) = (lex rest).map (path.flatMap StepText.tokens ++ ·) := by
  induction path with
  | nil => simp
  | cons s path ih =>
    have hfollows : Follows (path.flatMap StepText.chars ++ rest) := by
      cases path with
      | nil => exact hrest
      | cons s' path =>
        rw [List.flatMap_cons, List.append_assoc]
        exact follows_step s' _
    rw [List.flatMap_cons, List.append_assoc, lex_step s hfollows, ih, Option.map_map, List.flatMap_cons]
    exact congrArg (Option.map · (lex rest)) (funext fun toks => (List.append_assoc ..).symm)

/-- What may follow a path. -/
def Delimits (rest : List Char) : Prop := ∀ c ∈ rest.head?, c = ' ' ∨ c = ')'

theorem Delimits.follows {rest : List Char} (h : Delimits rest) : Follows rest := by
  intro c hc
  rcases h c hc with rfl | rfl <;> decide

theorem lex_dot {rest : List Char}
    (hrest : ∀ c ∈ rest.head?, isNameStart c = false ∧ c ≠ '.' ∧ c.isDigit = false) :
    lex ('.' :: rest) = (lex rest).map (.dot :: ·) := by
  refine lex_token rfl ?_
  show lexDot rest = _
  cases rest with
  | nil => rfl
  | cons c cs =>
    obtain ⟨hname, hdot, hdigit⟩ := hrest c rfl
    simp [lexDot, hname, hdot, hdigit]

theorem lex_path (path : PathText) {rest : List Char} (hrest : Delimits rest) :
    lex (path.chars ++ rest) = (lex rest).map (path.tokens ++ ·) := by
  rw [PathText.chars, PathText.tokens, List.append_assoc]
  cases hdotted : path.dotted with
  | false => exact lex_steps path hrest.follows
  | true =>
    show lex ('.' :: (path.flatMap StepText.chars ++ rest)) = _
    rw [lex_dot, lex_steps path hrest.follows, Option.map_map]
    · rfl
    · intro c hc
      cases path with
      | nil => rcases hrest c hc with rfl | rfl <;> decide
      | cons s path =>
        cases s with
        | name n => cases hdotted
        | _ => cases hc; decide

/-- A path and the text that it is set in front of. -/
theorem lexes_path (path : PathText) {text : List Char} {toks : List Token}
    (hhead : text.head? = some ' ' ∨ text.head? = some ')') (h : Lexes text toks) :
    Lexes (path.chars ++ text) (path.tokens ++ toks) := by
  intro rest
  have hdelimits : Delimits (text ++ rest) := by
    intro c hc
    rcases hhead with hhead | hhead <;> rw [List.head?_append, hhead] at hc <;> cases hc
    · exact .inl rfl
    · exact .inr rfl
  rw [List.append_assoc, lex_path path hdelimits, h, Option.map_map]
  exact congrArg (Option.map · (lex rest)) (funext fun _ => (List.append_assoc ..).symm)

/-! ### Parsing a path -/

theorem read_step (s : StepText) (frames : List Frame) (e : Expr) :
    s.tokens.foldlM read ⟨frames, some e⟩ = some ⟨frames, some (s.access e)⟩ := by
  cases s <;> rfl

theorem read_steps (path : PathText) (frames : List Frame) (e : Expr) :
    (path.flatMap StepText.tokens).foldlM read ⟨frames, some e⟩ =
      some ⟨frames, some (path.foldl (fun e s => s.access e) e)⟩ := by
  induction path generalizing e with
  | nil => rfl
  | cons s path ih =>
    rw [List.flatMap_cons, List.foldlM_append, read_step]
    exact ih _

theorem read_path (path : PathText) (frames : List Frame) :
    path.tokens.foldlM read ⟨frames, none⟩ = some ⟨frames, some path.expr⟩ := by
  rw [PathText.tokens, List.foldlM_append]
  cases hdotted : path.dotted with
  | true => exact read_steps path frames .identity
  | false =>
    cases path with
    | nil => cases hdotted
    | cons s path =>
      cases s with
      | name n => exact read_steps path frames (.field .identity n.name)
      | _ => cases hdotted

end Zizq.Jq
