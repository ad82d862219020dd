import Mathlib.Data.List.Forall2

/-! Text that can be read back.

A text that stands in front of others can be cut off again when what follows
shows where it ends: at a symbol of a set `stop`, at a closing quote that is
escaped inside, or at the closing symbol of a separated list. `Reads` says so of
two texts at once, with the fact that reading the same text there amounts to. -/
namespace Zizq.Data.Delimited
universe u v w
variable {τ : Type u} {stop : τ → Prop}

/-- Nothing follows, or a symbol of `stop` does. -/
def Stops (stop : τ → Prop) (r : List τ) : Prop := ∀ c ∈ r.head?, stop c

theorem stops_nil : Stops stop [] := fun _ h => nomatch h

theorem stops_cons {c : τ} (h : stop c) (r : List τ) : Stops stop (c :: r) := by
  rintro d ⟨⟩
  exact h

/-- Where `t` and `t'` begin the same text, they end at the same place, and `p` holds. -/
def Reads (stop : τ → Prop) (t t' : List τ) (p : Prop) : Prop :=
  ∀ r r', Stops stop r → Stops stop r' → t ++ r = t' ++ r' → p ∧ r = r'

theorem Reads.imp {t t' : List τ} {p q : Prop} (h : Reads stop t t' p) (hpq : p → q) :
    Reads stop t t' q := fun r r' hr hr' heq => (h r r' hr hr' heq).imp_left hpq

theorem Reads.of_eq {t t' : List τ} {p : Prop} (h : Reads stop t t' p) (heq : t = t') : p :=
  (h [] [] stops_nil stops_nil (by rw [heq])).1

/-! ### A class of symbols -/

theorem reads_class {C : τ → Prop} (hdisjoint : ∀ c, stop c → ¬ C c) {t t' : List τ}
    (ht : ∀ c ∈ t, C c) (ht' : ∀ c ∈ t', C c) : Reads stop t t' (t = t') := by
  intro r r' hr hr' heq
  induction t generalizing t' with
  | nil =>
    cases t' with
    | nil => exact ⟨rfl, heq⟩
    | cons c t' =>
      have hc : stop c := hr c (by rw [show r = c :: (t' ++ r') from heq]; rfl)
      exact absurd (ht' c (List.mem_cons_self ..)) (hdisjoint c hc)
  | cons c t ih =>
    obtain ⟨hc, htail⟩ := List.forall_mem_cons.mp ht
    cases t' with
    | nil =>
      have hstop : stop c := hr' c (by rw [← show c :: (t ++ r) = r' from heq]; rfl)
      exact absurd hc (hdisjoint c hstop)
    | cons c' t' =>
      obtain ⟨-, htail'⟩ := List.forall_mem_cons.mp ht'
      obtain ⟨rfl, htails⟩ := List.cons.inj heq
      obtain ⟨rfl, hr⟩ := ih htail htail' htails
      exact ⟨rfl, hr⟩

/-! ### Quoted text -/

section Quoted
variable [DecidableEq τ] {esc quote : τ}

/-- Every quote in the text has an escape before it, and no escape is left dangling. -/
def Escaped (esc quote : τ) : List τ → Prop
  | [] => True
  | [c] => c ≠ esc ∧ c ≠ quote
  | c :: d :: rest => if c = esc then Escaped esc quote rest else c ≠ quote ∧ Escaped esc quote (d :: rest)

theorem escaped_append {a b : List τ} (ha : Escaped esc quote a) (hb : Escaped esc quote b) :
    Escaped esc quote (a ++ b) := by
  induction a using Escaped.induct esc with
  | case1 => exact hb
  | case2 c =>
    obtain ⟨hesc, hquote⟩ := ha
    cases b with
    | nil => exact ⟨hesc, hquote⟩
    | cons d rest => exact (if_neg hesc).mpr ⟨hquote, hb⟩
  | case3 d rest ih =>
    simp only [Escaped, if_true] at ha
    simpa only [List.cons_append, Escaped, if_true] using ih ha
  | case4 c d rest hesc ih =>
    simp only [Escaped, hesc, if_false] at ha
    simp only [List.cons_append, Escaped, hesc, if_false]
    exact ⟨ha.1, ih ha.2⟩

theorem escaped_flatMap {α : Type v} {f : α → List τ} (h : ∀ a, Escaped esc quote (f a)) (as : List α) :
    Escaped esc quote (as.flatMap f) := by
  induction as with
  | nil => trivial
  | cons a as ih =>
    rw [List.flatMap_cons]
    exact escaped_append (h a) ih

/-- A quoted text ends at its first unescaped quote. -/
theorem escaped_cut (hne : esc ≠ quote) {a b r r' : List τ} (ha : Escaped esc quote a)
    (hb : Escaped esc quote b) (heq : a ++ quote :: r = b ++ quote :: r') : a = b ∧ r = r' := by
  induction a using Escaped.induct esc generalizing b with
  | case1 =>
    cases b with
    | nil => exact ⟨rfl, (List.cons.inj heq).2⟩
    | cons c b =>
      obtain ⟨rfl, -⟩ := List.cons.inj heq
      cases b <;> simp_all [Escaped, hne.symm]
  | case2 c =>
    obtain ⟨hesc, hquote⟩ := ha
    match b with
    | [] => exact absurd (List.cons.inj heq).1 hquote
    | [d] =>
      obtain ⟨rfl, hrest⟩ := List.cons.inj heq
      exact ⟨rfl, (List.cons.inj hrest).2⟩
    | d :: e :: b =>
      obtain ⟨rfl, hrest⟩ := List.cons.inj heq
      obtain ⟨rfl, -⟩ := List.cons.inj hrest
      simp only [Escaped, hesc, if_false] at hb
      cases b <;> simp_all [Escaped, hne.symm]
  | case3 d rest ih =>
    simp only [Escaped, if_true] at ha
    match b with
    | [] => exact absurd (List.cons.inj heq).1 hne
    | [e] =>
      obtain ⟨rfl, -⟩ := List.cons.inj heq
      exact absurd rfl hb.1
    | e :: f :: b =>
      obtain ⟨rfl, hrest⟩ := List.cons.inj heq
      obtain ⟨rfl, htails⟩ := List.cons.inj hrest
      simp only [Escaped, if_true] at hb
      obtain ⟨rfl, hr⟩ := ih ha hb htails
      exact ⟨rfl, hr⟩
  | case4 c d rest hesc ih =>
    simp only [Escaped, hesc, if_false] at ha
    match b with
    | [] => exact absurd (List.cons.inj heq).1 ha.1
    | [e] =>
      obtain ⟨rfl, hrest⟩ := List.cons.inj heq
      obtain ⟨hd, hr⟩ := ih (b := []) ha.2 trivial hrest
      cases hd
    | e :: f :: b =>
      obtain ⟨rfl, hrest⟩ := List.cons.inj heq
      simp only [Escaped, hesc, if_false] at hb
      obtain ⟨htail, hr⟩ := ih (b := f :: b) ha.2 hb.2 hrest
      exact ⟨congrArg _ htail, hr⟩

end Quoted

/-! ### Splitting -/

section Splitting
variable [DecidableEq τ]

theorem sep_not_mem_splitOn {sep : τ} {r : List τ} : ∀ t ∈ r.splitOn sep, sep ∉ t := by
  induction r with
  | nil => simp
  | cons c r ih =>
    rw [List.splitOn_cons_eq_if_modifyHead]
    split
    · exact List.forall_mem_cons.mpr ⟨List.not_mem_nil, ih⟩
    · next hne =>
      obtain ⟨t, ts, hsplit⟩ := List.exists_cons_of_ne_nil (List.splitOn_ne_nil sep r)
      rw [hsplit] at ih ⊢
      obtain ⟨ht, hts⟩ := List.forall_mem_cons.mp ih
      refine List.forall_mem_cons.mpr ⟨fun hmem => ?_, hts⟩
      rcases List.mem_cons.mp hmem with rfl | hmem
      · exact hne (beq_self_eq_true _)
      · exact ht hmem

/-- A joined list is split back exactly if the separator is in none of its texts. -/
theorem splitOn_intercalate_iff (sep : τ) {ts : List (List τ)} (hts : ts ≠ []) :
    ([sep].intercalate ts).splitOn sep = ts ↔ ∀ t ∈ ts, sep ∉ t := by
  constructor
  · intro h t ht
    exact sep_not_mem_splitOn t (h.symm ▸ ht)
  · intro h
    exact List.splitOn_intercalate sep h hts

end Splitting

/-! ### Separated lists -/

/-- The texts with `sep` before each one but the first. -/
def separated (sep : τ) : List (List τ) → List τ
  | [] => []
  | t :: ts => t ++ ts.flatMap (sep :: ·)

/-- A separator that occurs in none of the texts shows where each one starts. -/
theorem flatMap_sep_inj {sep : τ} {ts ts' : List (List τ)} (h : ∀ t ∈ ts, sep ∉ t) (h' : ∀ t ∈ ts', sep ∉ t)
    (heq : ts.flatMap (sep :: ·) = ts'.flatMap (sep :: ·)) : ts = ts' := by
  have hstops (ts : List (List τ)) : Stops (Eq sep) (ts.flatMap (sep :: ·)) := by
    cases ts with
    | nil => exact stops_nil
    | cons t ts => exact stops_cons rfl _
  induction ts generalizing ts' with
  | nil => cases ts' <;> simp at heq ⊢
  | cons t ts ih =>
    cases ts' with
    | nil => simp at heq
    | cons t' ts' =>
      obtain ⟨ht, hts⟩ := List.forall_mem_cons.mp h
      obtain ⟨ht', hts'⟩ := List.forall_mem_cons.mp h'
      have hreads : Reads (Eq sep) t t' (t = t') :=
        reads_class (C := (sep ≠ ·)) (fun c hc hne => hne hc) (fun c hc hsep => ht (hsep ▸ hc))
          fun c hc hsep => ht' (hsep ▸ hc)
      simp only [List.flatMap_cons, List.cons_append, List.cons.injEq, true_and] at heq
      obtain ⟨rfl, hrest⟩ := hreads _ _ (hstops ts) (hstops ts') heq
      rw [ih hts hts' hrest]

section Separated
variable {α : Type v} {β : Type w} {f : α → List τ} {g : β → List τ} {R : α → β → Prop} {sep close : τ}

theorem reads_tail (hsep : stop sep) (hclose : stop close) (hne : sep ≠ close) {xs : List α} {ys : List β}
    (h : ∀ x ∈ xs, ∀ y ∈ ys, Reads stop (f x) (g y) (R x y)) {r r' : List τ}
    (heq : (xs.map f).flatMap (sep :: ·) ++ close :: r = (ys.map g).flatMap (sep :: ·) ++ close :: r') :
    List.Forall₂ R xs ys ∧ r = r' := by
  induction xs generalizing ys with
  | nil =>
    cases ys with
    | nil => exact ⟨.nil, (List.cons.inj heq).2⟩
    | cons y ys => exact absurd (List.cons.inj heq).1 hne.symm
  | cons x xs ih =>
    cases ys with
    | nil => exact absurd (List.cons.inj heq).1 hne
    | cons y ys =>
      have hstops (ts : List (List τ)) (r : List τ) : Stops stop (ts.flatMap (sep :: ·) ++ close :: r) := by
        cases ts with
        | nil => exact stops_cons hclose r
        | cons t ts => exact stops_cons hsep _
      simp only [List.map_cons, List.flatMap_cons, List.cons_append, List.append_assoc, List.cons.injEq,
        true_and] at heq
      obtain ⟨hxy, hrest⟩ :=
        h x (List.mem_cons_self ..) y (List.mem_cons_self ..) _ _ (hstops _ _) (hstops _ _) heq
      obtain ⟨htail, hr⟩ := ih (fun a ha b hb => h a (List.mem_cons_of_mem _ ha) b
        (List.mem_cons_of_mem _ hb)) hrest
      exact ⟨.cons hxy htail, hr⟩

/-- Lists of readable texts, none of them opening with the closing symbol, are readable. -/
theorem reads_separated (hsep : stop sep) (hclose : stop close) (hne : sep ≠ close) {xs : List α}
    {ys : List β} (hf : ∀ x, ∃ c ∈ (f x).head?, c ≠ close) (hg : ∀ y, ∃ c ∈ (g y).head?, c ≠ close)
    (h : ∀ x ∈ xs, ∀ y ∈ ys, Reads stop (f x) (g y) (R x y)) {r r' : List τ}
    (heq : separated sep (xs.map f) ++ close :: r = separated sep (ys.map g) ++ close :: r') :
    List.Forall₂ R xs ys ∧ r = r' := by
  have hopens {t s s' : List τ} (ht : ∃ c ∈ t.head?, c ≠ close) : close :: s ≠ t ++ s' := by
    obtain ⟨c, hc, hcne⟩ := ht
    cases t with
    | nil => cases hc
    | cons d t =>
      obtain rfl := Option.some.inj hc
      exact fun heq => hcne (List.cons.inj heq).1.symm
  cases xs with
  | nil =>
    cases ys with
    | nil => exact ⟨.nil, (List.cons.inj heq).2⟩
    | cons y ys =>
      rw [List.map_cons, separated, List.append_assoc] at heq
      exact absurd heq (hopens (hg y))
  | cons x xs =>
    cases ys with
    | nil =>
      rw [List.map_cons, separated, List.append_assoc] at heq
      exact absurd heq.symm (hopens (hf x))
    | cons y ys =>
      refine reads_tail hsep hclose hne h ?_
      simpa only [List.map_cons, separated, List.flatMap_cons, List.cons_append] using
        congrArg (sep :: ·) heq

end Separated

end Zizq.Data.Delimited
