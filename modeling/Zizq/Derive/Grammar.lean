import Zizq.Data.Delimited
import Zizq.Derive.Reader

/-! The documented path grammar.

A path is a dot alone, or a dot, a step and further steps: a further name stands behind
one dot, a further bracket behind at most one, and a quoted key has the escapes of jq.
The scanner asks no such thing of what it reads. A text can be taken apart into lexemes
in one way only (`text_inj`), so the parser follows the grammar exactly on the texts
without a misplaced lexeme and without an escape that jq does not have, as far as it does
not panic (`followsGrammar_iff`). -/
namespace Zizq.Derive
open Data Json Jq

/-! ### The grammar -/

/-- Four hexadecimal digits come first. -/
def fourHex : List KeyChar → Bool
  | .plain a _ :: .plain b _ :: .plain c _ :: .plain d _ :: _ => (codeUnit a b c d).isSome
  | _ => false

/-- Every backslash in a quoted key starts an escape of jq: one of two characters, or of a code unit. -/
def jqEscapes : List KeyChar → Bool
  | [] => true
  | .plain _ _ :: ks => jqEscapes ks
  | .escape c _ :: ks => ((escaped c).isSome || (c == 'u' && fourHex ks)) && jqEscapes ks

def Written.isJq : Written → Bool
  | .key ks => jqEscapes ks
  | _ => true

def Lexeme.isJq : Lexeme → Bool
  | .dot => true
  | .step w => w.isJq

/-- A step behind another one. -/
structure Further where
  dotted : Bool
  written : Written
  dotted_of_name : written.isName = true → dotted = true

namespace Further

def chars (f : Further) : List Char := (if f.dotted then ['.'] else []) ++ f.written.chars

def lexemes (f : Further) : List Lexeme := (if f.dotted then [.dot] else []) ++ [.step f.written]

end Further

/-- A dot alone, or a dot and steps, each as jq has it. -/
def Documented (cs : List Char) : Prop :=
  cs = ['.'] ∨ ∃ (first : Written) (more : List Further),
    (first.isJq = true ∧ ∀ f ∈ more, f.written.isJq = true) ∧
      cs = '.' :: (first.chars ++ more.flatMap Further.chars)

/-- A dot behind a dot, or a name behind a step. -/
def clashes : Lexeme → Lexeme → Bool
  | .dot, .dot => true
  | .step _, .step w => w.isName
  | _, _ => false

/-- Two lexemes clash that stand side by side, or the last one is a dot. -/
def misplaced : Lexeme → List Lexeme → Bool
  | .dot, [] => true
  | .step _, [] => false
  | l, l' :: ls => clashes l l' || misplaced l' ls

/-- The text consists of lexemes that the parser reads, more than a dot, and one of them is misplaced. -/
def Misplaced (platform : Platform) (input : String) : Prop :=
  ∃ ls, Spaced ls ∧ (∀ l ∈ ls, l.Fits platform) ∧ ls ≠ [] ∧ misplaced .dot ls = true ∧
    input.toList = '.' :: text ls

/-- The text consists of such lexemes, and a quoted key among them has an escape that jq does not have. -/
def Misescaped (platform : Platform) (input : String) : Prop :=
  ∃ ls, Spaced ls ∧ (∀ l ∈ ls, l.Fits platform) ∧ (∃ l ∈ ls, l.isJq = false) ∧ input.toList = '.' :: text ls

/-- Every text outside the grammar is an error, and only the dot is the root. -/
def FollowsGrammar (platform : Platform) (input : String) : Prop :=
  (¬ Documented input.toList → ∃ e, parse platform input = .error (.error e)) ∧
    (parse platform input = .ok [] → input = ".")

/-! ### One way to take a text apart -/

theorem KeyEnd.not_keyChar {k : KeyChar} {r : List Char} : ¬ KeyEnd (k.chars ++ r) := by
  cases k with
  | plain c h =>
    rintro (_ | _ | _ | _)
    · exact h.1 rfl
    · exact h.2 rfl
    · exact h.2 rfl
  | escape c h =>
    rintro (_ | _ | _ | hc)
    exact absurd h (Nat.not_lt.mpr ‹_›)

theorem keyChar_cut {k k' : KeyChar} {r r' : List Char} (h : k.chars ++ r = k'.chars ++ r') :
    k = k' ∧ r = r' := by
  cases k with
  | plain c hc =>
    cases k' with
    | plain c' hc' =>
      obtain ⟨rfl, hr⟩ := List.cons.inj h
      exact ⟨rfl, hr⟩
    | escape c' hc' => exact absurd (List.cons.inj h).1 hc.2
  | escape c hc =>
    cases k' with
    | plain c' hc' => exact absurd (List.cons.inj h).1.symm hc'.2
    | escape c' hc' =>
      obtain ⟨rfl, hr⟩ := List.cons.inj (List.cons.inj h).2
      exact ⟨rfl, hr⟩

theorem keyChars_cut {ks ks' : List KeyChar} {t t' : List Char} (ht : KeyEnd t) (ht' : KeyEnd t')
    (h : ks.flatMap KeyChar.chars ++ t = ks'.flatMap KeyChar.chars ++ t') : ks = ks' ∧ t = t' := by
  induction ks generalizing ks' with
  | nil =>
    cases ks' with
    | nil => exact ⟨rfl, h⟩
    | cons k' ks' =>
      rw [List.flatMap_nil, List.nil_append, List.flatMap_cons, List.append_assoc] at h
      exact absurd (h ▸ ht) KeyEnd.not_keyChar
  | cons k ks ih =>
    cases ks' with
    | nil =>
      rw [List.flatMap_nil, List.nil_append, List.flatMap_cons, List.append_assoc] at h
      exact absurd (h ▸ ht') KeyEnd.not_keyChar
    | cons k' ks' =>
      rw [List.flatMap_cons, List.flatMap_cons, List.append_assoc, List.append_assoc] at h
      obtain ⟨rfl, hrest⟩ := keyChar_cut h
      obtain ⟨rfl, htail⟩ := ih hrest
      exact ⟨rfl, htail⟩

theorem name_cut {n n' : Jq.Name} {r r' : List Char} (hr : Follows r) (hr' : Follows r')
    (h : n.chars ++ r = n'.chars ++ r') : n = n' ∧ r = r' := by
  obtain ⟨first, others, hstart, hname⟩ := n
  obtain ⟨first', others', hstart', hname'⟩ := n'
  obtain ⟨rfl, hrest⟩ := List.cons.inj h
  have hreads : Delimited.Reads (isNameChar · = false) others others' (others = others') :=
    Delimited.reads_class (C := (isNameChar · = true)) (fun _ hc => by simp [hc])
      (List.all_eq_true.mp hname) (List.all_eq_true.mp hname')
  obtain ⟨rfl, hr⟩ := hreads r r' hr hr' hrest
  exact ⟨rfl, hr⟩

theorem digits_cut {d d' : Digits} {r r' : List Char}
    (h : d.chars ++ ']' :: r = d'.chars ++ ']' :: r') : d = d' ∧ r = r' := by
  obtain ⟨first, others, hdigit⟩ := d
  obtain ⟨first', others', hdigit'⟩ := d'
  have hreads : Delimited.Reads (Eq ']') (first :: others) (first' :: others')
      (first :: others = first' :: others') :=
    Delimited.reads_class (C := (Char.isDigit · = true)) (by rintro _ rfl; decide)
      (List.all_eq_true.mp hdigit) (List.all_eq_true.mp hdigit')
  obtain ⟨hchars, hr⟩ := hreads _ _ (Delimited.stops_cons rfl r) (Delimited.stops_cons rfl r') h
  obtain ⟨rfl, rfl⟩ := List.cons.inj hchars
  exact ⟨rfl, (List.cons.inj hr).2⟩

theorem written_cut {w w' : Written} {r r' : List Char} (hr : w.isName = true → Follows r)
    (hr' : w'.isName = true → Follows r') (h : w.chars ++ r = w'.chars ++ r') : w = w' ∧ r = r' := by
  have hname (n : Jq.Name) : n.first ≠ '[' := fun heq => absurd (heq ▸ n.isStart) (by decide)
  have hdigit (d : Digits) : d.first ≠ '"' := fun heq =>
    absurd (heq ▸ List.all_eq_true.mp d.isDigit d.first List.mem_cons_self) (by decide)
  cases w with
  | name n =>
    cases w' with
    | name n' =>
      obtain ⟨rfl, hrest⟩ := name_cut (hr rfl) (hr' rfl) h
      exact ⟨rfl, hrest⟩
    | index d' => exact absurd (List.cons.inj h).1 (hname n)
    | key ks' => exact absurd (List.cons.inj h).1 (hname n)
  | index d =>
    cases w' with
    | name n' => exact absurd (List.cons.inj h).1.symm (hname n')
    | index d' =>
      simp only [Written.chars, List.cons_append, List.append_assoc, List.nil_append] at h
      obtain ⟨rfl, hrest⟩ := digits_cut (List.cons.inj h).2
      exact ⟨rfl, hrest⟩
    | key ks' => exact absurd (List.cons.inj (List.cons.inj h).2).1 (hdigit d)
  | key ks =>
    cases w' with
    | name n' => exact absurd (List.cons.inj h).1.symm (hname n')
    | index d' => exact absurd (List.cons.inj (List.cons.inj h).2).1.symm (hdigit d')
    | key ks' =>
      simp only [Written.chars, List.cons_append, List.append_assoc, List.nil_append] at h
      obtain ⟨rfl, hrest⟩ := keyChars_cut (.quote _) (.quote _) (List.cons.inj (List.cons.inj h).2).2
      exact ⟨rfl, (List.cons.inj (List.cons.inj hrest).2).2⟩

theorem lexeme_cut {l l' : Lexeme} {r r' : List Char} (hr : l.isName = true → Follows r)
    (hr' : l'.isName = true → Follows r') (h : l.chars ++ r = l'.chars ++ r') : l = l' ∧ r = r' := by
  have hdot (w : Written) (r r' : List Char) : w.chars ++ r ≠ '.' :: r' := by
    intro heq
    cases w with
    | name n => exact absurd ((List.cons.inj heq).1 ▸ n.isStart) (by decide)
    | index d => exact absurd (List.cons.inj heq).1 (by decide)
    | key ks => exact absurd (List.cons.inj heq).1 (by decide)
  cases l with
  | dot =>
    cases l' with
    | dot => exact ⟨rfl, (List.cons.inj h).2⟩
    | step w' => exact absurd h.symm (hdot w' r' r)
  | step w =>
    cases l' with
    | dot => exact absurd h (hdot w r r')
    | step w' =>
      obtain ⟨rfl, hrest⟩ := written_cut hr hr' h
      exact ⟨rfl, hrest⟩

/-- The lexemes that a text starts with are the first ones of all its lexemes. -/
theorem text_cut {ls ls' : List Lexeme} {t : List Char} (hls : Spaced ls) (hls' : Spaced ls')
    (ht : Follows t) (h : text ls ++ t = text ls') : ∃ more, ls' = ls ++ more ∧ t = text more := by
  induction ls generalizing ls' with
  | nil => exact ⟨ls', rfl, h⟩
  | cons l ls ih =>
    have hl := l.length_chars_pos
    cases ls' with
    | nil =>
      have hlength := congrArg List.length h
      simp only [text, List.flatMap_cons, List.flatMap_nil, List.length_append, List.length_nil] at hlength
      omega
    | cons l' ls' =>
      have hboth : l.chars ++ (text ls ++ t) = l'.chars ++ text ls' := by
        simpa [text] using h
      obtain ⟨rfl, hrest⟩ := lexeme_cut (fun hname => hls.follows hname ht)
        (fun hname => by simpa using hls'.follows hname follows_nil) hboth
      obtain ⟨more, rfl, htail⟩ := ih hls.tail hls'.tail hrest
      exact ⟨more, rfl, htail⟩

theorem text_eq_nil {ls : List Lexeme} (h : text ls = []) : ls = [] := by
  have hlength := length_le_text ls
  rw [h] at hlength
  exact List.length_eq_zero_iff.mp (Nat.le_zero.mp hlength)

/-- A text is taken apart in one way only. -/
theorem text_inj {ls ls' : List Lexeme} (hls : Spaced ls) (hls' : Spaced ls') (h : text ls = text ls') :
    ls = ls' := by
  obtain ⟨more, rfl, hmore⟩ := text_cut hls hls' follows_nil (by rw [List.append_nil, h])
  rw [text_eq_nil hmore.symm, List.append_nil]

/-- A text with a character outside ASCII behind a backslash does not consist of lexemes. -/
theorem text_ne_wide {ls ls' : List Lexeme} {tail : List Char} (hls : Spaced ls) (hls' : Spaced ls')
    (hwide : IsWide tail) : text ls ++ tail ≠ text ls' := by
  intro h
  obtain ⟨more, -, hmore⟩ := text_cut hls hls' (follows_wide hwide) h
  obtain ⟨ks, c, rest, hc, rfl⟩ := hwide
  match more with
  | [] => cases hmore
  | .dot :: more => exact absurd (List.cons.inj hmore).1 (by decide)
  | .step (.name n) :: more => exact absurd ((List.cons.inj hmore).1 ▸ n.isStart) (by decide)
  | .step (.index d) :: more =>
    have hfirst : d.first.isDigit = true := List.all_eq_true.mp d.isDigit d.first List.mem_cons_self
    exact absurd ((List.cons.inj (List.cons.inj hmore).2).1 ▸ hfirst) (by decide)
  | .step (.key ks') :: more =>
    simp only [text, List.flatMap_cons, Lexeme.chars, Written.chars, List.cons_append, List.append_assoc,
      List.nil_append] at hmore
    obtain ⟨-, htail⟩ := keyChars_cut (.wide hc rest) (.quote _) (List.cons.inj (List.cons.inj hmore).2).2
    exact absurd (List.cons.inj htail).1 (by decide)

/-! ### The grammar by lexemes -/

theorem text_further (more : List Further) :
    text (more.flatMap Further.lexemes) = more.flatMap Further.chars := by
  induction more with
  | nil => rfl
  | cons f more ih =>
    rw [text] at ih ⊢
    rw [List.flatMap_cons, List.flatMap_append, ih, List.flatMap_cons]
    obtain ⟨_ | _, w, h⟩ := f <;> simp [Further.lexemes, Further.chars, Lexeme.chars]

theorem not_misplaced_further (w : Written) (more : List Further) :
    misplaced (.step w) (more.flatMap Further.lexemes) = false := by
  induction more generalizing w with
  | nil => rfl
  | cons f more ih =>
    obtain ⟨dotted, w', h⟩ := f
    cases dotted with
    | true => simpa [Further.lexemes, misplaced, clashes] using ih w'
    | false =>
      have hname : w'.isName = false := Bool.eq_false_iff.mpr fun hname => Bool.false_ne_true (h hname)
      simpa [Further.lexemes, misplaced, clashes, hname] using ih w'

/-- What is not misplaced behind a step is further steps. -/
theorem exists_further : ∀ {w : Written} {ls : List Lexeme}, misplaced (.step w) ls = false →
    ∃ more : List Further, ls = more.flatMap Further.lexemes
  | _, [], _ => ⟨[], rfl⟩
  | _, .step w :: ls, h => by
    obtain ⟨hname, hls⟩ := Bool.or_eq_false_iff.mp h
    obtain ⟨more, rfl⟩ := exists_further hls
    exact ⟨⟨false, w, fun hw => absurd (hname.symm.trans hw) Bool.false_ne_true⟩ :: more, rfl⟩
  | _, [.dot], h => nomatch h
  | _, .dot :: .dot :: ls, h => nomatch h
  | _, .dot :: .step w :: ls, h => by
    have hls : misplaced (.step w) ls = false := by simpa [misplaced, clashes] using h
    obtain ⟨more, rfl⟩ := exists_further hls
    exact ⟨⟨true, w, fun _ => rfl⟩ :: more, rfl⟩

theorem spaced_of_not_misplaced {l : Lexeme} {ls : List Lexeme} (h : misplaced l ls = false) :
    Spaced (l :: ls) := by
  induction ls generalizing l with
  | nil => trivial
  | cons l' ls ih =>
    rw [misplaced] at h
    obtain ⟨hclash, hrest⟩ := Bool.or_eq_false_iff.mp h
    refine ⟨?_, ih hrest⟩
    intro hnames
    obtain ⟨hname, hname'⟩ := hnames
    match l, l' with
    | .step w, .step w' => exact absurd (hclash.symm.trans hname') Bool.false_ne_true

theorem forall_isJq_further {more : List Further} :
    (∀ l ∈ more.flatMap Further.lexemes, l.isJq = true) ↔ ∀ f ∈ more, f.written.isJq = true := by
  have hfurther (f : Further) : (∀ l ∈ f.lexemes, l.isJq = true) ↔ f.written.isJq = true := by
    obtain ⟨_ | _, w, h⟩ := f <;> simp [Further.lexemes, Lexeme.isJq]
  simp only [List.mem_flatMap, forall_exists_index, and_imp]
  rw [forall_comm]
  exact forall_congr' fun f => by rw [← hfurther f]; exact forall_comm

/-- The lexemes of a documented text. -/
theorem lexemes_of_documented {cs : List Char} (h : Documented cs) :
    ∃ ls, Spaced ls ∧ cs = '.' :: text ls ∧ (ls = [] ∨ misplaced .dot ls = false) ∧ ∀ l ∈ ls, l.isJq = true := by
  rcases h with rfl | ⟨first, more, ⟨hfirst, hmore⟩, rfl⟩
  · exact ⟨[], trivial, rfl, .inl rfl, by simp⟩
  · have hplaced := not_misplaced_further first more
    refine ⟨.step first :: more.flatMap Further.lexemes, spaced_of_not_misplaced hplaced, ?_, .inr hplaced,
      List.forall_mem_cons.mpr ⟨hfirst, forall_isJq_further.mpr hmore⟩⟩
    rw [← text_further]
    rfl

theorem documented_text_iff {ls : List Lexeme} (hls : Spaced ls) :
    Documented ('.' :: text ls) ↔ (ls = [] ∨ misplaced .dot ls = false) ∧ ∀ l ∈ ls, l.isJq = true := by
  constructor
  · intro h
    obtain ⟨ls', hls', htext, hplaced⟩ := lexemes_of_documented h
    rwa [text_inj hls hls' (List.cons.inj htext).2]
  · intro h
    obtain ⟨hplaced, hjq⟩ := h
    match ls, hplaced with
    | [], _ => exact .inl rfl
    | .dot :: ls, .inr h => cases h
    | .step first :: ls, .inr h =>
      obtain ⟨more, rfl⟩ := exists_further (show misplaced (.step first) ls = false from h)
      obtain ⟨hfirst, hmore⟩ := List.forall_mem_cons.mp hjq
      refine .inr ⟨first, more, ⟨hfirst, forall_isJq_further.mp hmore⟩, ?_⟩
      rw [← text_further]
      rfl

theorem not_documented_wide {platform : Platform} {input : String} (h : WideEscape platform input) :
    ¬ Documented input.toList := by
  intro hdoc
  obtain ⟨ls, tail, hls, -, hwide, htext⟩ := h
  obtain ⟨ls', hls', htext', -, -⟩ := lexemes_of_documented hdoc
  exact text_ne_wide hls hls' hwide (List.cons.inj (htext.symm.trans htext')).2

/-! ### The main result -/

/-- **Main theorem.** The parser follows the documented grammar exactly on the texts that have no misplaced
lexeme and no escape that jq does not have, and on which it does not panic. -/
theorem followsGrammar_iff (platform : Platform) (input : String) :
    FollowsGrammar platform input ↔
      ¬ Misplaced platform input ∧ ¬ Misescaped platform input ∧ ¬ WideEscape platform input := by
  constructor
  · intro hfollows
    have hgrammar := hfollows.1
    refine ⟨fun hmis => ?_, fun hmis => ?_, fun hwide => ?_⟩
    · obtain ⟨ls, hls, hfits, hne, hmisplaced, htext⟩ := hmis
      have hdoc : ¬ Documented input.toList := by
        rw [htext, documented_text_iff hls, hmisplaced]
        simpa using fun hnil => absurd hnil hne
      obtain ⟨e, he⟩ := hgrammar hdoc
      cases he.symm.trans (parse_lexemes platform hls hfits htext)
    · obtain ⟨ls, hls, hfits, ⟨l, hl, hforeign⟩, htext⟩ := hmis
      have hdoc : ¬ Documented input.toList := by
        rw [htext, documented_text_iff hls]
        exact fun h => Bool.false_ne_true (hforeign.symm.trans (h.2 l hl))
      obtain ⟨e, he⟩ := hgrammar hdoc
      cases he.symm.trans (parse_lexemes platform hls hfits htext)
    · obtain ⟨e, he⟩ := hgrammar (not_documented_wide hwide)
      cases he.symm.trans (parse_wide hwide)
  · intro hnone
    obtain ⟨hmisplaced, hmisescaped, hwide⟩ := hnone
    rcases parse_cases platform input with ⟨ls, hls, hfits, htext⟩ | ⟨e, he, -⟩ | h
    · have hplaced : ls = [] ∨ misplaced .dot ls = false := by
        by_cases hne : ls = []
        · exact .inl hne
        · exact .inr (Bool.eq_false_iff.mpr fun h => hmisplaced ⟨ls, hls, hfits, hne, h, htext⟩)
      have hjq (l : Lexeme) (hl : l ∈ ls) : l.isJq = true :=
        Bool.eq_true_of_not_eq_false fun h => hmisescaped ⟨ls, hls, hfits, ⟨l, hl, h⟩, htext⟩
      refine ⟨fun hdoc => absurd (htext ▸ (documented_text_iff hls).mpr ⟨hplaced, hjq⟩) hdoc, fun hroot => ?_⟩
      rw [parse_lexemes platform hls hfits htext] at hroot
      -- a text that is more than the dot has a step at its start
      match ls, hplaced with
      | [], _ => exact String.toList_inj.mp htext
      | .dot :: ls, .inr h => cases h
      | .step w :: ls, .inr _ => cases hroot
    · exact ⟨fun _ => ⟨e, he⟩, fun hroot => nomatch he.symm.trans hroot⟩
    · exact absurd h hwide

/-- Two dots are read as the root. -/
theorem not_followsGrammar_dots : ¬ ∀ (platform : Platform) (input : String), FollowsGrammar platform input := by
  intro h
  have hroot : parse ⟨2 ^ 64 - 1, id⟩ ".." = .ok [] := rfl
  exact absurd ((h _ _).2 hroot) (by decide)

end Zizq.Derive
