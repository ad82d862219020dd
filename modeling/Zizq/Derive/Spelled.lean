import Zizq.Batch.Fold
import Zizq.Derive.Reader

/-! Spelled paths in the derive.

The text of a batch path is used twice: the derive parses it, for the steps that the
key hash leaves out, and jq reads it on the server. The derive takes any character
behind a backslash as it is, so the two agree on a spelling exactly when every escape
in it stands for the character that it is written with (`agrees_iff`). -/
namespace Zizq.Derive
open Data Json Jq
variable {ν : Type}

/-- The characters that the derive takes a piece of a key for. -/
def readPiece : Piece → List Char
  | .plain c _ => [c]
  | .escape c _ _ => [c]
  | .code a b c d _ _ => ['u', a, b, c, d]
  | .pair a b c d a' b' c' d' _ _ _ _ _ _ => ['u', a, b, c, d, 'u', a', b', c', d']

def readStep : StepText → PathStep
  | .name n => .field n.name
  | .index d => .index d.value
  | .key ps => .field (String.ofList (ps.flatMap readPiece))

/-- The piece is a character as it is, or one of the escapes `\"`, `\\` and `\/`. -/
def isVerbatim : Piece → Bool
  | .plain _ _ => true
  | .escape c _ _ => c == '"' || c == '\\' || c == '/'
  | _ => false

def Verbatim : StepText → Prop
  | .key ps => ∀ p ∈ ps, isVerbatim p = true
  | _ => True

/-- An index is a `usize`. -/
def Fits (platform : Platform) : StepText → Prop
  | .index d => d.value ≤ platform.usizeMax
  | _ => True

/-! ### What the derive reads -/

theorem hexValue_plain {c : Char} {n : Nat} (h : Percent.hexValue c = some n) : c ≠ '"' ∧ c ≠ '\\' := by
  constructor
  · intro heq
    subst heq
    cases h
  · intro heq
    subst heq
    cases h

theorem codeUnit_plain {a b c d : Char} {n : Nat} (h : codeUnit a b c d = some n) :
    ∀ x ∈ [a, b, c, d], x ≠ '"' ∧ x ≠ '\\' := by
  obtain ⟨_, ha, h⟩ := Option.bind_eq_some_iff.mp h
  obtain ⟨_, hb, h⟩ := Option.bind_eq_some_iff.mp h
  obtain ⟨_, hc, h⟩ := Option.bind_eq_some_iff.mp h
  obtain ⟨_, hd, -⟩ := Option.bind_eq_some_iff.mp h
  simp [hexValue_plain ha, hexValue_plain hb, hexValue_plain hc, hexValue_plain hd]

theorem escaped_ascii {c meaning : Char} (h : escaped c = some meaning) : c.toNat < 128 := by
  unfold escaped at h
  split at h <;> first | decide | cases h

/-- The four digits of a code are characters as they are. -/
theorem exists_codeChars {a b c d : Char} {n : Nat} (h : codeUnit a b c d = some n) :
    ∃ ks : List KeyChar, ks.flatMap KeyChar.chars = ['\\', 'u', a, b, c, d] ∧
      ks.map KeyChar.char = ['u', a, b, c, d] :=
  ⟨.escape 'u' (by decide) :: [a, b, c, d].pmap KeyChar.plain (codeUnit_plain h), rfl, rfl⟩

theorem exists_keyChars (p : Piece) :
    ∃ ks : List KeyChar, ks.flatMap KeyChar.chars = p.chars ∧ ks.map KeyChar.char = readPiece p := by
  cases p with
  | plain c hc => exact ⟨[.plain c hc], rfl, rfl⟩
  | escape c meaning hc => exact ⟨[.escape c (escaped_ascii hc)], rfl, rfl⟩
  | code a b c d n hc => exact exists_codeChars hc.1
  | pair a b c d a' b' c' d' high low meaning hhigh hlow hc =>
    obtain ⟨ks, hchars, hread⟩ := exists_codeChars hhigh
    obtain ⟨ks', hchars', hread'⟩ := exists_codeChars hlow
    refine ⟨ks ++ ks', ?_, ?_⟩
    · rw [List.flatMap_append, hchars, hchars']
      rfl
    · rw [List.map_append, hread, hread']
      rfl

theorem exists_allKeyChars (ps : List Piece) : ∃ ks : List KeyChar,
    ks.flatMap KeyChar.chars = ps.flatMap Piece.chars ∧ ks.map KeyChar.char = ps.flatMap readPiece := by
  induction ps with
  | nil => exact ⟨[], rfl, rfl⟩
  | cons p ps ih =>
    obtain ⟨ks, hchars, hread⟩ := exists_keyChars p
    obtain ⟨ks', hchars', hread'⟩ := ih
    refine ⟨ks ++ ks', ?_, ?_⟩
    · rw [List.flatMap_append, hchars, hchars', List.flatMap_cons]
    · rw [List.map_append, hread, hread', List.flatMap_cons]

/-- The lexemes are those of the text, and stand for the steps. -/
structure Lexed (platform : Platform) (ls : List Lexeme) (cs : List Char) (steps : Path) : Prop where
  spaced : Spaced ls
  fits : ∀ l ∈ ls, l.Fits platform
  text_eq : text ls = cs
  steps_eq : ls.flatMap Lexeme.steps = steps

section Read
variable {platform : Platform} {ls : List Lexeme} {cs : List Char} {steps : Path}

theorem Lexed.cons {l : Lexeme} (h : Lexed platform ls cs steps) (hl : l.Fits platform)
    (hname : l.isName = true → Follows cs) : Lexed platform (l :: ls) (l.chars ++ cs) (l.steps ++ steps) where
  spaced := by
    have hfollows : l.isName = true → Follows (text ls ++ []) := by
      rwa [List.append_nil, h.text_eq]
    exact h.spaced.cons hfollows
  fits := List.forall_mem_cons.mpr ⟨hl, h.fits⟩
  text_eq := congrArg (l.chars ++ ·) h.text_eq
  steps_eq := congrArg (l.steps ++ ·) h.steps_eq

theorem follows_path (path : PathText) : Follows (path.flatMap StepText.chars) := by
  cases path with
  | nil => exact follows_nil
  | cons s path => exact follows_step s _

/-- A step is a lexeme, and a name has a dot in front. -/
theorem exists_lexed {path : PathText} (hfits : ∀ s ∈ path, Fits platform s) :
    ∃ ls, Lexed platform ls (path.flatMap StepText.chars) (path.map readStep) := by
  induction path with
  | nil => exact ⟨[], trivial, nofun, rfl, rfl⟩
  | cons s path ih =>
    obtain ⟨hs, hfits⟩ := List.forall_mem_cons.mp hfits
    obtain ⟨ls, hls⟩ := ih hfits
    cases s with
    | name n =>
      have hname := hls.cons (l := .step (.name n)) trivial fun _ => follows_path path
      exact ⟨_, hname.cons (l := .dot) trivial nofun⟩
    | index d => exact ⟨_, hls.cons (l := .step (.index d)) hs nofun⟩
    | key ps =>
      obtain ⟨ks, hchars, hread⟩ := exists_allKeyChars ps
      have hkey := hls.cons (l := .step (.key ks)) trivial nofun
      rw [Lexeme.chars, Written.chars, hchars, Lexeme.steps, Written.step, hread] at hkey
      exact ⟨_, hkey⟩

/-- The dot that a path starts with is that of its first name, or stands alone. -/
theorem exists_tail {path : PathText} (hfits : ∀ s ∈ path, Fits platform s) :
    ∃ ls tail, path.chars = '.' :: tail ∧ Lexed platform ls tail (path.map readStep) := by
  obtain ⟨ls, hls⟩ := exists_lexed hfits
  cases path with
  | nil => exact ⟨ls, _, rfl, hls⟩
  | cons s path =>
    cases s with
    | name n =>
      obtain ⟨-, hfits⟩ := List.forall_mem_cons.mp hfits
      obtain ⟨ls', hls'⟩ := exists_lexed hfits
      exact ⟨_, _, rfl, hls'.cons (l := .step (.name n)) trivial fun _ => follows_path path⟩
    | index d | key ps => exact ⟨ls, _, rfl, hls⟩

/-- The derive reads every spelling of a path whose indices fit. -/
theorem parse_text {path : PathText} (hfits : ∀ s ∈ path, Fits platform s) :
    parse platform path.text = .ok (path.map readStep) := by
  obtain ⟨ls, tail, hchars, hls⟩ := exists_tail hfits
  have hlist : path.text.toList = '.' :: text ls := by
    rw [PathText.text, String.toList_ofList, hchars, hls.text_eq]
  rw [parse_lexemes platform hls.spaced hls.fits hlist, hls.steps_eq]

end Read

/-! ### What jq reads -/

section Jq
variable [LinearOrder ν]

/-- The path that jq takes a text for. -/
def jqPath (numbers : Numbers ν) (env : Env ν) (text : String) (v : Value ν) : Option Path := do
  let toks ← lex text.toList
  pathOf numbers env (← Jq.parse toks) v

theorem jqPath_text {numbers : Numbers ν} {bound : Nat} (hnumbers : numbers.Exact bound) (env : Env ν)
    {path : PathText} (hwithin : ∀ s ∈ path, s.Within bound) (v : Value ν) :
    jqPath numbers env path.text v = some path.steps := by
  have hlist : path.text.toList = path.chars := String.toList_ofList
  have hlex : lex path.chars = some path.tokens := by
    have hdelimits : Delimits [] := fun c hc => nomatch hc
    have h := lex_path path hdelimits
    simpa [lex] using h
  have hparse : Jq.parse path.tokens = some path.expr := by
    rw [Jq.parse, read_path]
    rfl
  rw [jqPath, hlist, hlex]
  show (Jq.parse path.tokens).bind _ = _
  rw [hparse]
  exact pathOf_path hnumbers env hwithin v

end Jq

/-! ### Where they agree -/

theorem flatMap_eq_map_iff {α β : Type} {f : α → List β} {g : α → β} (hf : ∀ a, f a ≠ []) {l : List α} :
    l.flatMap f = l.map g ↔ ∀ a ∈ l, f a = [g a] := by
  have hlength (l : List α) : l.length ≤ (l.flatMap f).length := by
    induction l with
    | nil => exact Nat.le_refl 0
    | cons a l ih =>
      have hpos := List.length_pos_of_ne_nil (hf a)
      rw [List.flatMap_cons, List.length_append, List.length_cons]
      omega
  induction l with
  | nil => simp
  | cons a l ih =>
    rw [List.flatMap_cons, List.map_cons, List.forall_mem_cons]
    constructor
    · intro h
      -- no item gives less than one, so this one does not give more
      have hone : (f a).length = [g a].length := by
        have htotal := congrArg List.length h
        have hpos := List.length_pos_of_ne_nil (hf a)
        have hrest := hlength l
        simp only [List.length_append, List.length_cons, List.length_map, List.length_nil] at htotal ⊢
        omega
      obtain ⟨ha, hl⟩ := List.append_inj h hone
      exact ⟨ha, ih.mp hl⟩
    · rintro ⟨ha, hl⟩
      rw [ha, ih.mpr hl, List.singleton_append]

theorem escaped_eq_iff {c meaning : Char} (h : escaped c = some meaning) :
    c = meaning ↔ c = '"' ∨ c = '\\' ∨ c = '/' := by
  unfold escaped at h
  split at h
  all_goals first | (obtain rfl := Option.some.inj h; decide) | cases h

theorem readPiece_eq_iff (p : Piece) : readPiece p = [p.meaning] ↔ isVerbatim p = true := by
  cases p with
  | plain c hc => simp [readPiece, Piece.meaning, isVerbatim]
  | escape c meaning hc => simp [readPiece, Piece.meaning, isVerbatim, escaped_eq_iff hc, or_assoc]
  | code => simp [readPiece, isVerbatim]
  | pair => simp [readPiece, isVerbatim]

theorem readStep_eq_iff (s : StepText) : readStep s = s.step ↔ Verbatim s := by
  cases s with
  | name n => simp [readStep, StepText.step, Verbatim]
  | index d => simp [readStep, StepText.step, Verbatim]
  | key ps =>
    have hne (p : Piece) : readPiece p ≠ [] := by cases p <;> simp [readPiece]
    simp only [readStep, StepText.step, Verbatim, PathStep.field.injEq, String.ofList_inj, ← readPiece_eq_iff]
    exact flatMap_eq_map_iff hne

/-- The derive takes the text for the steps that it spells, which are the path that jq takes it for. -/
def Agrees [LinearOrder ν] (platform : Platform) (numbers : Numbers ν) (env : Env ν)
    (path : PathText) : Prop :=
  parse platform path.text = .ok path.steps ∧
    ∀ v, ∃ steps, parse platform path.text = .ok steps ∧ jqPath numbers env path.text v = some steps

/-- **Main theorem.** The derive reads a spelling as jq does exactly when none of its escapes stands for another
character than the one behind the backslash. -/
theorem agrees_iff [LinearOrder ν] (platform : Platform) {numbers : Numbers ν} {bound : Nat}
    (hnumbers : numbers.Exact bound) (env : Env ν) {path : PathText} (hfits : ∀ s ∈ path, Fits platform s)
    (hwithin : ∀ s ∈ path, s.Within bound) :
    Agrees platform numbers env path ↔ ∀ s ∈ path, Verbatim s := by
  rw [Agrees, parse_text hfits]
  constructor
  · rintro ⟨hsteps, -⟩
    exact fun s hs => (readStep_eq_iff s).mp (List.map_inj_left.mp (Except.ok.inj hsteps) s hs)
  · intro h
    have hsteps : path.map readStep = path.steps :=
      List.map_inj_left.mpr fun s hs => (readStep_eq_iff s).mpr (h s hs)
    exact ⟨congrArg _ hsteps, fun v => ⟨_, congrArg _ hsteps, jqPath_text hnumbers env hwithin v⟩⟩

/-- Words of 64 bits, and `{:?}` of a string in which it escapes nothing. -/
def bits64 : Platform := ⟨2 ^ 64 - 1, fun s => "\"" ++ s ++ "\""⟩

/-- `.["a\"é"][0]` -/
def quoteKey : PathText :=
  [.key [.plain 'a' (by decide), .escape '"' '"' rfl, .plain 'é' (by decide)], .index ⟨'0', [], rfl⟩]

theorem agrees_iff_quoteKey : Agrees bits64 Batch.natNumbers (fun _ => none) quoteKey :=
  (agrees_iff bits64 (Batch.natNumbers_exact 0) _ (by simp [quoteKey, Fits]; decide)
    (by simp [quoteKey, StepText.Within]; decide)).mpr
    (by simp [quoteKey, Verbatim, isVerbatim])

/-- `.["\n"]` -/
def newlineKey : PathText := [.key [.escape 'n' '\n' rfl]]

/-- The derive takes the key of one newline for the key `n`. -/
theorem not_agrees_newlineKey : ¬ Agrees bits64 Batch.natNumbers (fun _ => none) newlineKey := by
  rintro ⟨h, -⟩
  exact absurd h (by decide)

end Zizq.Derive
