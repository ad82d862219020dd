import Mathlib.Data.List.Induction
import Zizq.Jq.Eval

/-! The batch templates.

`BatchConfig::at(path, limit)` writes two jq programs around the path it is given. What
they do is decided by how jq reads the finished text: every template lexes and parses to
the expression that its parentheses suggest, whatever the path, and from there on the
path is just a location in the two payloads. -/
namespace Zizq.Batch
open Data Json Jq
variable {ν : Type}

structure BatchConfig where
  key : String
  when : String
  fold : String

inductive FoldMode where
  | append | dedup | sorted
deriving DecidableEq

structure BatchConfigAt where
  path : String
  limit : Nat
  mode : FoldMode

def BatchConfig.at (path : String) (limit : Nat) : BatchConfigAt := ⟨path, limit, .append⟩

namespace BatchConfigAt

def dedup (b : BatchConfigAt) : BatchConfigAt := { b with mode := .dedup }

/-- Ignored once `dedup` was called. -/
def sorted (b : BatchConfigAt) : BatchConfigAt :=
  if b.mode = .append then { b with mode := .sorted } else b

def keyedBy (b : BatchConfigAt) (key : String) : BatchConfig :=
  let path := b.path
  let limit := b.limit
  let when := s!"(($existing | {path}) + ($new | {path})) | length <= {limit}"
  let fold := match b.mode with
    | .append => s!"$existing | {path} += ($new | {path})"
    | .dedup => s!"$existing | {path} = (({path}) + ($new | {path}) | unique)"
    | .sorted => s!"$existing | {path} = (({path}) + ($new | {path}) | sort)"
  ⟨key, when, fold⟩

end BatchConfigAt

/-- The calls that choose the mode. -/
inductive Call where
  | dedup | sorted
deriving DecidableEq

def apply (b : BatchConfigAt) : Call → BatchConfigAt
  | .dedup => b.dedup
  | .sorted => b.sorted

/-- The mode that a sequence of calls ends up with. -/
def modeOf (calls : List Call) : FoldMode :=
  if .dedup ∈ calls then .dedup else if .sorted ∈ calls then .sorted else .append

/-- The variables that the server binds. -/
def env (existing new : Json ν) : Env ν
  | "existing" => some existing.value
  | "new" => some new.value
  | _ => none

example : ((BatchConfig.at ".deviceIds" 100).keyedBy "push:apple").when =
    "(($existing | .deviceIds) + ($new | .deviceIds)) | length <= 100" := by decide

theorem foldl_apply (path : String) (limit : Nat) (calls : List Call) :
    calls.foldl apply (BatchConfig.at path limit) = ⟨path, limit, modeOf calls⟩ := by
  induction calls using List.reverseRecOn with
  | nil => rfl
  | append_singleton calls c ih =>
    rw [List.foldl_append, ih]
    cases c with
    | dedup => simp [apply, BatchConfigAt.dedup, modeOf]
    | sorted =>
      by_cases hd : Call.dedup ∈ calls <;> by_cases hs : Call.sorted ∈ calls <;>
        simp [apply, BatchConfigAt.sorted, modeOf, hd, hs]

/-! ### How jq reads the templates -/

theorem lexes_existing : Lexes "$existing ".toList [.var "existing"] :=
  lexes_word '$' "existing".toList rfl rfl fun _ => rfl

theorem lexes_new : Lexes "$new ".toList [.var "new"] :=
  lexes_word '$' "new".toList rfl rfl fun _ => rfl

theorem lexes_pipe : Lexes "| ".toList [.op .pipe] := lexes_word '|' [] rfl rfl fun _ => rfl

theorem lexes_add : Lexes "+ ".toList [.op .add] := lexes_word '+' [] rfl rfl fun _ => rfl

theorem lexes_length : Lexes "length ".toList [.ident "length"] :=
  lexes_word 'l' "ength".toList rfl rfl fun _ => rfl

theorem lexes_le : Lexes "<= ".toList [.op .le] := lexes_word '<' "=".toList rfl rfl fun _ => rfl

theorem lexes_assign : Lexes "= ".toList [.op .assign] := lexes_word '=' [] rfl rfl fun _ => rfl

theorem lexes_plusAssign : Lexes "+= ".toList [.op .plusAssign] :=
  lexes_word '+' "=".toList rfl rfl fun _ => rfl

/-! What stands between the paths. -/

theorem lexes_intoExisting : Lexes "$existing | ".toList [.var "existing", .op .pipe] :=
  (lexes_existing.append lexes_pipe).of_eq (by decide)

theorem lexes_openExisting : Lexes "(($existing | ".toList [.lparen, .lparen, .var "existing", .op .pipe] :=
  (lexes_lparen.append <| lexes_lparen.append lexes_intoExisting).of_eq (by decide)

theorem lexes_openNew : Lexes "($new | ".toList [.lparen, .var "new", .op .pipe] :=
  (lexes_lparen.append <| lexes_new.append lexes_pipe).of_eq (by decide)

theorem lexes_addNew :
    Lexes ") + ($new | ".toList [.rparen, .op .add, .lparen, .var "new", .op .pipe] :=
  (lexes_rparen.append <| lexes_space.append <| lexes_add.append lexes_openNew).of_eq (by decide)

theorem lexes_atMost :
    Lexes ")) | length <= ".toList [.rparen, .rparen, .op .pipe, .ident "length", .op .le] :=
  (lexes_rparen.append <| lexes_rparen.append <| lexes_space.append <| lexes_pipe.append <|
    lexes_length.append lexes_le).of_eq (by decide)

theorem lexes_appendNew :
    Lexes " += ($new | ".toList [.op .plusAssign, .lparen, .var "new", .op .pipe] :=
  (lexes_space.append <| lexes_plusAssign.append lexes_openNew).of_eq (by decide)

theorem lexes_assignOpen : Lexes " = ((".toList [.op .assign, .lparen, .lparen] :=
  (lexes_space.append <| lexes_assign.append <| lexes_lparen.append lexes_lparen).of_eq (by decide)

theorem lexes_unique : Lexes ") | unique)".toList [.rparen, .op .pipe, .ident "unique", .rparen] :=
  (lexes_rparen.append <| lexes_space.append <| lexes_pipe.append <|
    lexes_before 'u' "nique".toList lexes_rparen rfl rfl fun _ => rfl).of_eq (by decide)

theorem lexes_sort : Lexes ") | sort)".toList [.rparen, .op .pipe, .ident "sort", .rparen] :=
  (lexes_rparen.append <| lexes_space.append <| lexes_pipe.append <|
    lexes_before 's' "ort".toList lexes_rparen rfl rfl fun _ => rfl).of_eq (by decide)

/-! The templates. -/

section Templates
variable (path : PathText) (limit : Nat) (mode : FoldMode) (key : String)

def whenTokens : List Token :=
  [.lparen, .lparen, .var "existing", .op .pipe] ++ (path.tokens ++
    ([.rparen, .op .add, .lparen, .var "new", .op .pipe] ++ (path.tokens ++
      [.rparen, .rparen, .op .pipe, .ident "length", .op .le, .number limit])))

/-- The array that is there and the new one through a function of jq. -/
def assignTokens (function : String) : List Token :=
  [.var "existing", .op .pipe] ++ (path.tokens ++ ([.op .assign, .lparen, .lparen] ++ (path.tokens ++
    ([.rparen, .op .add, .lparen, .var "new", .op .pipe] ++ (path.tokens ++
      [.rparen, .op .pipe, .ident function, .rparen])))))

def foldTokens : FoldMode → List Token
  | .append => [.var "existing", .op .pipe] ++ (path.tokens ++
      ([.op .plusAssign, .lparen, .var "new", .op .pipe] ++ (path.tokens ++ [.rparen])))
  | .dedup => assignTokens path "unique"
  | .sorted => assignTokens path "sort"

theorem lex_limit : lex (Nat.toDigits 10 limit) = some [.number limit] := by
  have hvalue : Nat.ofDigitChars 10 (Nat.toDigits 10 limit) 0 = limit := Nat.ofDigitChars_ten_toDigits
  have hdigits : ∀ c ∈ Nat.toDigits 10 limit, c.isDigit = true := fun c hc =>
    Nat.isDigit_of_mem_toDigits (by decide) (by decide) hc
  cases hchars : Nat.toDigits 10 limit with
  | nil => exact absurd hchars Nat.toDigits_ne_nil
  | cons c cs =>
    rw [hchars] at hvalue hdigits
    obtain ⟨hc, hcs⟩ := List.forall_mem_cons.mp hdigits
    obtain ⟨htake, hdrop⟩ := span_append [] hcs nofun
    rw [List.append_nil] at htake hdrop
    have hone : lexOne c cs = some (.number limit, []) := by
      rw [lexOne_digit hc, lexNumber, htake, hdrop, hvalue]
    rw [lex_token (isSpace_of_digit hc) hone, lex_nil]
    rfl

theorem lex_when : lex ((BatchConfigAt.mk path.text limit mode).keyedBy key).when.toList =
    some (whenTokens path limit) := by
  show lex ("(($existing | " ++ path.text ++ ") + ($new | " ++ path.text ++ ")) | length <= " ++
    toString limit).toList = _
  have h := (lexes_openExisting.append ((lexes_path path (.inr rfl) lexes_addNew).append
    (lexes_path path (.inr rfl) lexes_atMost))) (Nat.toDigits 10 limit)
  rw [lex_limit] at h
  simp only [String.toList_append, PathText.text, String.toList_ofList, Nat.toString_eq_repr,
    Nat.toList_repr, List.append_assoc] at h ⊢
  rw [h, whenTokens]
  simp only [Option.map_some, List.cons_append, List.nil_append]

theorem lex_assign {text : String} {function : String} (hhead : text.toList.head? = some ')')
    (htext : Lexes text.toList [.rparen, .op .pipe, .ident function, .rparen]) :
    lex ("$existing | " ++ path.text ++ " = ((" ++ path.text ++ ") + ($new | " ++ path.text ++ text).toList =
      some (assignTokens path function) := by
  have h := (lexes_intoExisting.append ((lexes_path path (.inl rfl) lexes_assignOpen).append
    ((lexes_path path (.inr rfl) lexes_addNew).append (lexes_path path (.inr hhead) htext)))) []
  simp only [String.toList_append, PathText.text, String.toList_ofList, List.append_assoc,
    List.append_nil, lex_nil] at h ⊢
  rw [h, assignTokens]
  simp only [Option.map_some, List.append_nil]

theorem lex_fold : lex ((BatchConfigAt.mk path.text limit mode).keyedBy key).fold.toList =
    some (foldTokens path mode) := by
  cases mode with
  | append =>
    show lex ("$existing | " ++ path.text ++ " += ($new | " ++ path.text ++ ")").toList = _
    have h := (lexes_intoExisting.append ((lexes_path path (.inl rfl) lexes_appendNew).append
      (lexes_path path (.inr rfl) (lexes_rparen.of_eq (by decide : ")".toList = _))))) []
    simp only [String.toList_append, PathText.text, String.toList_ofList, List.append_assoc,
      List.append_nil, lex_nil] at h ⊢
    rw [h, foldTokens]
    simp only [Option.map_some, List.append_nil]
  | dedup => exact lex_assign path (by decide) lexes_unique
  | sorted => exact lex_assign path (by decide) lexes_sort

/-! ### The expressions -/

def accessExpr (name : String) (path : PathText) : Expr := .binary .pipe (.var name) path.expr

def whenExpr : Expr :=
  .binary .pipe (.binary .add (accessExpr "existing" path) (accessExpr "new" path))
    (.binary .le (.call "length") (.number limit))

def assignExpr (function : String) : Expr :=
  .binary .assign path.expr
    (.binary .pipe (.binary .add path.expr (accessExpr "new" path)) (.call function))

def foldExpr : FoldMode → Expr
  | .append => .binary .pipe (.var "existing") (.binary .plusAssign path.expr (accessExpr "new" path))
  | .dedup => .binary .pipe (.var "existing") (assignExpr path "unique")
  | .sorted => .binary .pipe (.var "existing") (assignExpr path "sort")

theorem foldlM_path {toks toks' : List Token} {r : Reading} {frames : List Frame}
    (h : toks.foldlM read r = some ⟨frames, none⟩) :
    (toks ++ (path.tokens ++ toks')).foldlM read r = toks'.foldlM read ⟨frames, some path.expr⟩ := by
  rw [List.foldlM_append, h]
  show (path.tokens ++ toks').foldlM read _ = _
  rw [List.foldlM_append, read_path]
  rfl

theorem parse_when : parse (whenTokens path limit) = some (whenExpr path limit) := by
  rw [parse, whenTokens, foldlM_path path rfl, foldlM_path path rfl]
  rfl

theorem parse_assign (function : String) : parse (assignTokens path function) =
    some (.binary .pipe (.var "existing") (assignExpr path function)) := by
  rw [parse, assignTokens, foldlM_path path rfl, foldlM_path path rfl, foldlM_path path rfl]
  rfl

theorem parse_fold : parse (foldTokens path mode) = some (foldExpr path mode) := by
  cases mode with
  | append =>
    show parse ([.var "existing", .op .pipe] ++ _) = _
    rw [parse, foldlM_path path rfl, foldlM_path path rfl]
    rfl
  | dedup => exact parse_assign path "unique"
  | sorted => exact parse_assign path "sort"

end Templates

end Zizq.Batch
