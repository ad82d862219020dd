import Mathlib.Order.Lattice

/-! Ordered association lists.

A finite map is the list of its entries, strictly increasing in the key, which
is how an ordered tree map iterates. Lookup, insertion and removal are single
passes; their laws need no order. The order is what makes the representation
unique: two sorted lists with the same lookups are the same list (`ext`). -/
namespace Zizq.Data.Assoc
universe u v
variable {κ : Type u} {α : Type v} [LinearOrder κ]

/-- Strictly increasing in the key. -/
def Sorted (m : List (κ × α)) : Prop := m.Pairwise fun a b => a.1 < b.1

instance (m : List (κ × α)) : Decidable (Sorted m) :=
  inferInstanceAs (Decidable (m.Pairwise fun a b => a.1 < b.1))

def get (k : κ) : List (κ × α) → Option α
  | [] => none
  | (k', v) :: m => if k = k' then some v else get k m

def insert (k : κ) (v : α) : List (κ × α) → List (κ × α)
  | [] => [(k, v)]
  | (k', v') :: m =>
    if k < k' then (k, v) :: (k', v') :: m
    else if k = k' then (k, v) :: m
    else (k', v') :: insert k v m

def erase (k : κ) : List (κ × α) → List (κ × α)
  | [] => []
  | (k', v) :: m => if k = k' then erase k m else (k', v) :: erase k m

/-! ### Lookup -/

@[simp] theorem get_nil (k : κ) : get k ([] : List (κ × α)) = none := rfl

theorem get_cons (k k' : κ) (v : α) (m : List (κ × α)) :
    get k ((k', v) :: m) = if k = k' then some v else get k m := rfl

theorem get_append (k : κ) (m m' : List (κ × α)) : get k (m ++ m') = (get k m).or (get k m') := by
  induction m with
  | nil => rfl
  | cons e m ih =>
    obtain ⟨j, w⟩ := e
    rw [List.cons_append, get_cons, get_cons, ih]
    by_cases h : k = j <;> simp [h]

theorem get_map {β : Type v} (f : α → β) (k : κ) (m : List (κ × α)) :
    get k (m.map fun e => (e.1, f e.2)) = (get k m).map f := by
  induction m with
  | nil => rfl
  | cons e m ih =>
    obtain ⟨j, w⟩ := e
    rw [List.map_cons, get_cons, get_cons, ih]
    by_cases h : k = j <;> simp [h]

theorem get_insert (k k' : κ) (v : α) (m : List (κ × α)) :
    get k' (insert k v m) = if k' = k then some v else get k' m := by
  induction m with
  | nil => rfl
  | cons e m ih =>
    obtain ⟨j, w⟩ := e
    simp only [insert]
    by_cases hlt : k < j
    · rw [if_pos hlt, get_cons]
    · by_cases heq : k = j
      · subst heq
        rw [if_neg hlt, if_pos rfl, get_cons, get_cons]
        by_cases h : k' = k <;> simp [h]
      · rw [if_neg hlt, if_neg heq, get_cons, get_cons, ih]
        by_cases h : k' = k
        · subst h
          simp [heq]
        · simp [h]

@[simp] theorem get_insert_self (k : κ) (v : α) (m : List (κ × α)) :
    get k (insert k v m) = some v := by
  rw [get_insert, if_pos rfl]

theorem get_insert_ne {k k' : κ} (v : α) (m : List (κ × α)) (h : k' ≠ k) :
    get k' (insert k v m) = get k' m := by
  rw [get_insert, if_neg h]

theorem get_erase (k k' : κ) (m : List (κ × α)) :
    get k' (erase k m) = if k' = k then none else get k' m := by
  induction m with
  | nil => simp [erase]
  | cons e m ih =>
    obtain ⟨j, w⟩ := e
    simp only [erase]
    by_cases heq : k = j
    · subst heq
      rw [if_pos rfl, ih, get_cons]
      by_cases h : k' = k <;> simp [h]
    · rw [if_neg heq, get_cons, get_cons, ih]
      by_cases h : k' = k
      · subst h
        simp [heq]
      · simp [h]

@[simp] theorem get_erase_self (k : κ) (m : List (κ × α)) : get k (erase k m) = none := by
  rw [get_erase, if_pos rfl]

/-! ### Membership -/

theorem mem_of_get {k : κ} {v : α} {m : List (κ × α)} (h : get k m = some v) : (k, v) ∈ m := by
  induction m with
  | nil => simp at h
  | cons e m ih =>
    obtain ⟨j, w⟩ := e
    rw [get_cons] at h
    by_cases heq : k = j
    · rw [if_pos heq] at h
      simp [heq, Option.some.inj h]
    · rw [if_neg heq] at h
      exact List.mem_cons_of_mem _ (ih h)

theorem get_eq_none {k : κ} {m : List (κ × α)} (h : ∀ e ∈ m, k ≠ e.1) : get k m = none := by
  cases hg : get k m with
  | none => rfl
  | some v => exact absurd rfl (h _ (mem_of_get hg))

theorem mem_insert {k : κ} {v : α} {m : List (κ × α)} {e : κ × α} (h : e ∈ insert k v m) :
    e = (k, v) ∨ e ∈ m := by
  induction m with
  | nil => simpa [insert] using h
  | cons a m ih =>
    obtain ⟨j, w⟩ := a
    simp only [insert] at h
    split at h
    · simpa using h
    · split at h
      · rcases List.mem_cons.mp h with rfl | h
        · exact .inl rfl
        · exact .inr (List.mem_cons_of_mem _ h)
      · rcases List.mem_cons.mp h with rfl | h
        · exact .inr (List.mem_cons_self ..)
        · exact (ih h).imp_right (List.mem_cons_of_mem _)

theorem mem_erase {k : κ} {m : List (κ × α)} {e : κ × α} (h : e ∈ erase k m) : e ∈ m := by
  induction m with
  | nil => simp [erase] at h
  | cons a m ih =>
    obtain ⟨j, w⟩ := a
    simp only [erase] at h
    split at h
    · exact List.mem_cons_of_mem _ (ih h)
    · rcases List.mem_cons.mp h with rfl | h
      · exact List.mem_cons_self ..
      · exact List.mem_cons_of_mem _ (ih h)

theorem erase_append (k : κ) (m m' : List (κ × α)) : erase k (m ++ m') = erase k m ++ erase k m' := by
  induction m with
  | nil => rfl
  | cons e m ih =>
    obtain ⟨j, w⟩ := e
    rw [List.cons_append, erase, erase, ih]
    split
    · rfl
    · rw [List.cons_append]

theorem erase_eq_self {k : κ} {m : List (κ × α)} (h : get k m = none) : erase k m = m := by
  induction m with
  | nil => rfl
  | cons e m ih =>
    obtain ⟨j, w⟩ := e
    rw [get_cons] at h
    by_cases heq : k = j
    · rw [if_pos heq] at h
      cases h
    · rw [if_neg heq] at h
      rw [erase, if_neg heq, ih h]

/-! ### Order -/

theorem sorted_nil : Sorted ([] : List (κ × α)) := List.Pairwise.nil

theorem sorted_insert (k : κ) (v : α) {m : List (κ × α)} (hs : Sorted m) :
    Sorted (insert k v m) := by
  induction m with
  | nil => exact List.pairwise_singleton ..
  | cons e m ih =>
    obtain ⟨j, w⟩ := e
    obtain ⟨hhead, htail⟩ := List.pairwise_cons.mp hs
    simp only [insert]
    by_cases hlt : k < j
    · rw [if_pos hlt]
      refine List.pairwise_cons.mpr ⟨fun a ha => ?_, hs⟩
      rcases List.mem_cons.mp ha with rfl | ha
      · exact hlt
      · exact hlt.trans (hhead a ha)
    · rw [if_neg hlt]
      by_cases heq : k = j
      · subst heq
        rw [if_pos rfl]
        exact List.pairwise_cons.mpr ⟨hhead, htail⟩
      · rw [if_neg heq]
        refine List.pairwise_cons.mpr ⟨fun a ha => ?_, ih htail⟩
        rcases mem_insert ha with rfl | ha
        · exact lt_of_le_of_ne (not_lt.mp hlt) (Ne.symm heq)
        · exact hhead a ha

theorem sorted_erase (k : κ) {m : List (κ × α)} (hs : Sorted m) : Sorted (erase k m) := by
  induction m with
  | nil => exact sorted_nil
  | cons e m ih =>
    obtain ⟨j, w⟩ := e
    obtain ⟨hhead, htail⟩ := List.pairwise_cons.mp hs
    simp only [erase]
    split
    · exact ih htail
    · exact List.pairwise_cons.mpr ⟨fun a ha => hhead a (mem_erase ha), ih htail⟩

/-- Erasing an entry takes that one out and leaves the others in their places. -/
theorem exists_erase {k : κ} {v : α} {m : List (κ × α)} (hs : Sorted m) (h : get k m = some v) :
    ∃ before after, m = before ++ (k, v) :: after ∧ erase k m = before ++ after := by
  obtain ⟨before, after, rfl⟩ := List.append_of_mem (mem_of_get h)
  obtain ⟨-, hafter, hbefore⟩ := List.pairwise_append.mp hs
  have hnone : get k before = none :=
    get_eq_none fun e he => (hbefore e he (k, v) (List.mem_cons_self ..)).ne'
  have hnone' : get k after = none :=
    get_eq_none fun e he => (List.rel_of_pairwise_cons hafter he).ne
  refine ⟨before, after, rfl, ?_⟩
  rw [erase_append, erase_eq_self hnone, erase, if_pos rfl, erase_eq_self hnone']

/-- Sorted lists with the same lookups are the same list. -/
theorem ext {m m' : List (κ × α)} (hs : Sorted m) (hs' : Sorted m')
    (h : ∀ k, get k m = get k m') : m = m' := by
  induction m generalizing m' with
  | nil =>
    cases m' with
    | nil => rfl
    | cons e m' =>
      obtain ⟨j, w⟩ := e
      have := h j
      simp [get_cons] at this
  | cons e m ih =>
    obtain ⟨j, w⟩ := e
    obtain ⟨hhead, htail⟩ := List.pairwise_cons.mp hs
    cases m' with
    | nil =>
      have := h j
      simp [get_cons] at this
    | cons e' m' =>
      obtain ⟨j', w'⟩ := e'
      obtain ⟨hhead', htail'⟩ := List.pairwise_cons.mp hs'
      -- the two least keys agree: each is a key of the other list
      have hle {a b : κ} {x y : α} {l l' : List (κ × α)} (hl : ∀ e ∈ l, a < e.1)
          (hg : get b ((a, x) :: l) = get b ((b, y) :: l')) : a ≤ b := by
        rw [get_cons, get_cons, if_pos rfl] at hg
        by_cases hab : b = a
        · exact hab.ge
        · rw [if_neg hab] at hg
          exact (hl _ (mem_of_get hg)).le
      have hj : j = j' := le_antisymm (hle hhead (h j')) (hle hhead' (h j).symm)
      subst hj
      have hw : w = w' := by simpa [get_cons] using h j
      subst hw
      congr 1
      refine ih htail htail' fun k => ?_
      by_cases hk : k = j
      · subst hk
        rw [get_eq_none fun e he => (hhead e he).ne, get_eq_none fun e he => (hhead' e he).ne]
      · simpa [get_cons, hk] using h k

/-- Inserting what is there already changes nothing. -/
theorem insert_eq_self {k : κ} {v : α} {m : List (κ × α)} (hs : Sorted m) (h : get k m = some v) :
    insert k v m = m := by
  refine ext (sorted_insert k v hs) hs fun k' => ?_
  rw [get_insert]
  split
  · next heq => rw [heq, h]
  · rfl

/-! ### Keys -/

theorem mem_keys_iff {k : κ} {m : List (κ × α)} : k ∈ m.map Prod.fst ↔ (get k m).isSome := by
  induction m with
  | nil => simp
  | cons e m ih =>
    obtain ⟨j, w⟩ := e
    rw [get_cons, List.map_cons, List.mem_cons, ih]
    by_cases h : k = j <;> simp [h]

/-- A new value for a key that is there leaves the keys as they are. -/
theorem keys_insert {k : κ} {m : List (κ × α)} (hs : Sorted m) (h : (get k m).isSome) (v : α) :
    (insert k v m).map Prod.fst = m.map Prod.fst := by
  induction m with
  | nil => cases h
  | cons e m ih =>
    obtain ⟨j, w⟩ := e
    obtain ⟨hhead, htail⟩ := List.pairwise_cons.mp hs
    rw [get_cons] at h
    rw [insert]
    by_cases heq : k = j
    · subst heq
      rw [if_neg (lt_irrefl k), if_pos rfl]
      rfl
    · rw [if_neg heq] at h
      obtain ⟨v', hv'⟩ := Option.isSome_iff_exists.mp h
      have hlt : j < k := hhead (k, v') (mem_of_get hv')
      rw [if_neg hlt.not_gt, if_neg heq, List.map_cons, List.map_cons, ih htail h]

end Zizq.Data.Assoc
