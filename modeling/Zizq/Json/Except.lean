import Mathlib.Order.Interval.Finset.Nat
import Zizq.Json.Path

/-! What `payloadExcept` excludes.

`deleteAll` deletes at once everything a list of paths addresses. `payloadExcept`
removes one path after another, and an array removal moves every later item down
by one, onto the position that another removal, or a repetition of the same one,
goes on to address. The two agree, for every order and repetition of the paths,
exactly when no path that takes effect removes an array item with another item
after it (`Settled`). -/
namespace Zizq.Json
open Data Value
variable {ν : Type}

/-- The rests of the paths that start with `step`. -/
def under (step : PathStep) (paths : List Path) : List Path :=
  paths.filterMap fun
    | s :: rest => if s = step then some rest else none
    | [] => none

mutual
def deleteIn : List Path → Value ν → Value ν
  | paths, .array xs => .array (deleteItems paths 0 xs)
  | paths, .object m => .object (deleteMembers paths m)
  | _, v => v

def deleteItems : List Path → Nat → List (Value ν) → List (Value ν)
  | _, _, [] => []
  | paths, i, x :: xs =>
    if [.index i] ∈ paths then deleteItems paths (i + 1) xs
    else deleteIn (under (.index i) paths) x :: deleteItems paths (i + 1) xs

def deleteMembers : List Path → List (String × Value ν) → List (String × Value ν)
  | _, [] => []
  | paths, (k, v) :: m =>
    if [.field k] ∈ paths then deleteMembers paths m
    else (k, deleteIn (under (.field k) paths) v) :: deleteMembers paths m
end

/-- The value with everything that `paths` address in it deleted at once; the root path gives null. -/
def deleteAll (paths : List Path) (v : Value ν) : Value ν :=
  if [] ∈ paths then .null else deleteIn paths v

/-- The same paths, in any order and any number of times. -/
def SameMembers (paths paths' : List Path) : Prop := ∀ p, p ∈ paths ↔ p ∈ paths'

/-- Equal at every location that is neither addressed by `paths` nor inside one that is. -/
def AgreeOff (paths : List Path) (s s' : Value ν) : Prop :=
  ∀ q, (∀ p ∈ paths, ¬ p <+: q) → (walk s q).map shape = (walk s' q).map shape

/-- No path, unless another one already covers it, removes an array item that another item follows. -/
def Settled (paths : List Path) (s : Value ν) : Prop :=
  ∀ q i, q ++ [.index i] ∈ paths → (∀ p ∈ paths, ¬ p <+: q) → walk s (q ++ [.index (i + 1)]) = none

/-! ### Paths under a step -/

theorem mem_under {step : PathStep} {paths : List Path} {rest : Path} :
    rest ∈ under step paths ↔ step :: rest ∈ paths := by
  rw [under, List.mem_filterMap]
  constructor
  · rintro ⟨path, hp, h⟩
    cases path with
    | nil => cases h
    | cons s r =>
      simp only [Option.ite_none_right_eq_some, Option.some.injEq] at h
      obtain ⟨rfl, rfl⟩ := h
      exact hp
  · intro hp
    exact ⟨_, hp, if_pos rfl⟩

theorem under_cons_self (step : PathStep) (rest : Path) (paths : List Path) :
    under step ((step :: rest) :: paths) = rest :: under step paths := by
  simp [under]

theorem under_cons_ne {step step' : PathStep} (rest : Path) (paths : List Path) (h : step ≠ step') :
    under step' ((step :: rest) :: paths) = under step' paths := by
  simp [under, h]

theorem SameMembers.under {paths paths' : List Path} (h : SameMembers paths paths') (step : PathStep) :
    SameMembers (under step paths) (under step paths') := fun p => by
  rw [mem_under, mem_under, h]

theorem forall_not_prefix_cons {paths : List Path} {step : PathStep} {q : Path} (hroot : [] ∉ paths) :
    (∀ p ∈ paths, ¬ p <+: step :: q) ↔ ∀ p ∈ under step paths, ¬ p <+: q := by
  constructor
  · intro h p hp hpre
    exact h _ (mem_under.mp hp) (List.cons_prefix_cons.mpr ⟨rfl, hpre⟩)
  · intro h p hp hpre
    cases p with
    | nil => exact hroot hp
    | cons s rest =>
      obtain ⟨rfl, hrest⟩ := List.cons_prefix_cons.mp hpre
      exact h rest (mem_under.mpr hp) hrest

theorem forall_not_prefix_nil {paths : List Path} (hroot : [] ∉ paths) : ∀ p ∈ paths, ¬ p <+: [] := by
  intro p hp hpre
  exact hroot (List.prefix_nil.mp hpre ▸ hp)

/-! ### One removal -/

theorem child_setChild {step : PathStep} {v w x : Value ν} (hx : child step v = some x)
    (step' : PathStep) :
    child step' (setChild step w v) = if step' = step then some w else child step' v := by
  cases step with
  | field name =>
    cases v with
    | object m =>
      cases step' with
      | field name' =>
        simp only [setChild, child, Assoc.get_insert, PathStep.field.injEq]
      | index idx' => rfl
    | _ => cases hx
  | index idx =>
    cases v with
    | array xs =>
      cases step' with
      | field name' => rfl
      | index idx' =>
        have hlt : idx < xs.length := (List.getElem?_eq_some_iff.mp hx).1
        simp only [setChild, child, List.getElem?_set, hlt, if_true, PathStep.index.injEq, eq_comm]
    | _ => cases hx

theorem child_deleteChild {step : PathStep} {v : Value ν}
    (hlast : ∀ i, step = .index i → child (.index (i + 1)) v = none) (step' : PathStep) :
    child step' (deleteChild step v) = if step' = step then none else child step' v := by
  cases step with
  | field name =>
    cases v with
    | object m =>
      cases step' with
      | field name' =>
        simp only [deleteChild, child, Assoc.get_erase, PathStep.field.injEq]
      | index idx' => rfl
    | _ => cases step' <;> simp [deleteChild, child]
  | index idx =>
    cases v with
    | array xs =>
      have hlen : xs.length ≤ idx + 1 := List.getElem?_eq_none_iff.mp (hlast idx rfl)
      cases step' with
      | field name' => by_cases hlt : idx < xs.length <;> simp [deleteChild, child, hlt]
      | index idx' =>
        by_cases hlt : idx < xs.length
        · simp only [deleteChild, hlt, if_true, child, List.getElem?_eraseIdx, PathStep.index.injEq]
          rcases Nat.lt_trichotomy idx' idx with h | rfl | h
          · rw [if_pos h, if_neg (by omega)]
          · rw [if_neg (by omega), if_pos rfl, List.getElem?_eq_none hlen]
          · rw [if_neg (by omega), if_neg (by omega), List.getElem?_eq_none (by omega),
              List.getElem?_eq_none (by omega)]
        · simp only [deleteChild, hlt, if_false, child, PathStep.index.injEq]
          split
          · exact List.getElem?_eq_none (by omega)
          · rfl
    | _ => cases step' <;> simp [deleteChild, child]

theorem remove_nil (v : Value ν) : remove v [] = .null := rfl

theorem remove_singleton (v : Value ν) (step : PathStep) : remove v [step] = deleteChild step v := rfl

theorem remove_cons (v : Value ν) (step : PathStep) {rest : Path} (h : rest ≠ []) :
    remove v (step :: rest) =
      match child step v with
      | some next => setChild step (remove next rest) v
      | none => v := by
  obtain ⟨s, r, rfl⟩ := List.exists_cons_of_ne_nil h
  cases hchild : child step v <;>
    simp only [remove, List.getLast?_cons, List.dropLast_cons_cons, modify, Option.getD_some, hchild]

theorem child_remove {step : PathStep} {rest : Path} {v : Value ν}
    (hlast : ∀ i, step = .index i → rest = [] → child (.index (i + 1)) v = none) (step' : PathStep) :
    child step' (remove v (step :: rest)) =
      if step' = step then (if rest = [] then none else (child step v).map fun x => remove x rest)
      else child step' v := by
  by_cases hrest : rest = []
  · subst hrest
    rw [remove_singleton, child_deleteChild (fun i hi => hlast i hi rfl), if_pos rfl]
  · rw [remove_cons v step hrest, if_neg hrest]
    cases hx : child step v with
    | some x => exact child_setChild hx step'
    | none =>
      by_cases hstep : step' = step
      · rw [if_pos hstep, hstep, hx, Option.map_none]
      · rw [if_neg hstep]

theorem kind_setChild (step : PathStep) (w v : Value ν) : kind (setChild step w v) = kind v := by
  cases step <;> cases v <;> rfl

theorem kind_deleteChild (step : PathStep) (v : Value ν) : kind (deleteChild step v) = kind v := by
  cases step with
  | field name => cases v <;> rfl
  | index idx =>
    cases v with
    | array xs => by_cases h : idx < xs.length <;> simp [deleteChild, h, kind]
    | _ => rfl

theorem kind_remove (step : PathStep) (rest : Path) (v : Value ν) :
    kind (remove v (step :: rest)) = kind v := by
  by_cases hrest : rest = []
  · subst hrest
    exact kind_deleteChild step v
  · rw [remove_cons v step hrest]
    split
    · exact kind_setChild ..
    · rfl

theorem ordered_setChild {step : PathStep} {w v : Value ν} (hw : w.ordered = true)
    (hv : v.ordered = true) : (setChild step w v).ordered = true := by
  cases step with
  | field name =>
    cases v with
    | object m => exact ordered_insert hw hv
    | _ => exact hv
  | index idx =>
    cases v with
    | array xs => exact ordered_set hw hv
    | _ => exact hv

theorem ordered_deleteChild {step : PathStep} {v : Value ν} (hv : v.ordered = true) :
    (deleteChild step v).ordered = true := by
  cases step with
  | field name =>
    cases v with
    | object m =>
      obtain ⟨hsorted, hmembers⟩ := ordered_object.mp hv
      exact ordered_object.mpr
        ⟨Assoc.sorted_erase name hsorted, fun e he => hmembers e (Assoc.mem_erase he)⟩
    | _ => exact hv
  | index idx =>
    cases v with
    | array xs =>
      rw [deleteChild]
      split
      · exact ordered_array.mpr fun x hx => ordered_array.mp hv x (List.mem_of_mem_eraseIdx hx)
      · exact hv
    | _ => exact hv

theorem ordered_remove {path : Path} {v : Value ν} (hv : v.ordered = true) :
    (remove v path).ordered = true := by
  induction path generalizing v with
  | nil => rfl
  | cons step rest ih =>
    by_cases hrest : rest = []
    · subst hrest
      exact ordered_deleteChild hv
    · rw [remove_cons v step hrest]
      split
      · next hx => exact ordered_setChild (ih (ordered_child hv hx)) hv
      · exact hv

/-! ### All removals, child by child -/

/-- The settled condition at the root alone. -/
def LastOnly (paths : List Path) (v : Value ν) : Prop :=
  ∀ i, [.index i] ∈ paths → child (.index (i + 1)) v = none

theorem payloadExcept_nil (v : Value ν) : payloadExcept v [] = v := rfl

theorem payloadExcept_cons (v : Value ν) (path : Path) (paths : List Path) :
    payloadExcept v (path :: paths) = payloadExcept (remove v path) paths := rfl

theorem payloadExcept_append (v : Value ν) (paths paths' : List Path) :
    payloadExcept v (paths ++ paths') = payloadExcept (payloadExcept v paths) paths' :=
  List.foldl_append

theorem ordered_payloadExcept {v : Value ν} (paths : List Path) (hv : v.ordered = true) :
    (payloadExcept v paths).ordered = true := by
  induction paths generalizing v with
  | nil => exact hv
  | cons path paths ih => exact ih (ordered_remove hv)

theorem remove_null (path : Path) : remove (.null : Value ν) path = .null := by
  cases path with
  | nil => rfl
  | cons step rest =>
    by_cases hrest : rest = []
    · subst hrest
      cases step <;> rfl
    · rw [remove_cons _ step hrest]
      cases step <;> rfl

theorem payloadExcept_null (paths : List Path) : payloadExcept (.null : Value ν) paths = .null := by
  induction paths with
  | nil => rfl
  | cons path paths ih => rw [payloadExcept_cons, remove_null, ih]

theorem payloadExcept_root {paths : List Path} (v : Value ν) (hroot : [] ∈ paths) :
    payloadExcept v paths = .null := by
  obtain ⟨before, after, rfl⟩ := List.append_of_mem hroot
  rw [payloadExcept_append, payloadExcept_cons, remove_nil, payloadExcept_null]

theorem kind_payloadExcept {v : Value ν} {paths : List Path} (hroot : [] ∉ paths) :
    kind (payloadExcept v paths) = kind v := by
  induction paths generalizing v with
  | nil => rfl
  | cons path paths ih =>
    cases path with
    | nil => exact absurd (List.mem_cons_self ..) hroot
    | cons step rest =>
      rw [payloadExcept_cons, ih fun h => hroot (List.mem_cons_of_mem _ h), kind_remove]

/-- Where only last items are removed, nothing shifts and the removals act child by child. -/
theorem child_payloadExcept {v : Value ν} {paths : List Path} (hroot : [] ∉ paths)
    (hlast : LastOnly paths v) (step : PathStep) :
    child step (payloadExcept v paths) =
      if [step] ∈ paths then none
      else (child step v).map fun x => payloadExcept x (under step paths) := by
  induction paths generalizing v with
  | nil =>
    rw [payloadExcept_nil, if_neg (by simp)]
    exact (Option.map_id' ..).symm
  | cons path paths ih =>
    cases path with
    | nil => exact absurd (List.mem_cons_self ..) hroot
    | cons s rest =>
      have hremove := child_remove (fun i (hi : s = .index i) (hrest : rest = []) =>
        hlast i (by simp [hi, hrest]))
      have hlast' : LastOnly paths (remove v (s :: rest)) := by
        intro i hi
        rw [hremove, hlast i (List.mem_cons_of_mem _ hi)]
        split
        · next heq =>
          split
          · rfl
          · rw [← heq, hlast i (List.mem_cons_of_mem _ hi), Option.map_none]
        · rfl
      rw [payloadExcept_cons, ih (fun h => hroot (List.mem_cons_of_mem _ h)) hlast', hremove]
      by_cases hmem : [step] ∈ paths
      · rw [if_pos hmem, if_pos (List.mem_cons_of_mem _ hmem)]
      · rw [if_neg hmem]
        by_cases hs : step = s
        · subst hs
          by_cases hrest : rest = []
          · subst hrest
            rw [if_pos rfl, if_pos rfl, if_pos (List.mem_cons_self ..), Option.map_none]
          · rw [if_pos rfl, if_neg hrest, if_neg (by simp [hmem, Ne.symm hrest]), under_cons_self]
            cases child step v <;> rfl
        · rw [if_neg hs, if_neg (by simp [hmem, hs]), under_cons_ne rest paths (Ne.symm hs)]

/-! ### Deletion at once, child by child -/

theorem deleteMembers_get (paths : List Path) (m : List (String × Value ν)) (k : String) :
    Assoc.get k (deleteMembers paths m) =
      if [.field k] ∈ paths then none
      else (Assoc.get k m).map (deleteIn (under (.field k) paths)) := by
  induction m with
  | nil => simp [deleteMembers]
  | cons e m ih =>
    obtain ⟨j, v⟩ := e
    rw [deleteMembers, Assoc.get_cons]
    by_cases hk : k = j
    · subst hk
      by_cases hmem : [.field k] ∈ paths
      · rw [if_pos hmem, ih, if_pos hmem, if_pos hmem]
      · rw [if_neg hmem, Assoc.get_cons, if_pos rfl, if_neg hmem, if_pos rfl, Option.map_some]
    · rw [if_neg hk, ← ih]
      split
      · rfl
      · rw [Assoc.get_cons, if_neg hk]

theorem deleteItems_getElem? (paths : List Path) (i : Nat) (xs : List (Value ν))
    (hlast : ∀ j, [.index (i + j)] ∈ paths → xs[j + 1]? = none) (j : Nat) :
    (deleteItems paths i xs)[j]? =
      if [.index (i + j)] ∈ paths then none
      else xs[j]?.map (deleteIn (under (.index (i + j)) paths)) := by
  induction xs generalizing i j with
  | nil => simp [deleteItems]
  | cons x xs ih =>
    have hlast' : ∀ j, [.index (i + 1 + j)] ∈ paths → xs[j + 1]? = none := by
      intro j hj
      have := hlast (j + 1) (by rwa [← Nat.add_assoc, Nat.add_right_comm])
      rwa [List.getElem?_cons_succ] at this
    rw [deleteItems]
    by_cases hmem : [.index i] ∈ paths
    · -- the removed item is the last, so nothing is left
      obtain rfl : xs = [] := by simpa using hlast 0 hmem
      rw [if_pos hmem]
      cases j with
      | zero => simp [deleteItems, hmem]
      | succ j => simp [deleteItems]
    · rw [if_neg hmem]
      cases j with
      | zero => simp [hmem]
      | succ j =>
        rw [List.getElem?_cons_succ, List.getElem?_cons_succ, ih (i + 1) hlast' j, Nat.add_right_comm,
          Nat.add_assoc]

theorem child_deleteIn {v : Value ν} {paths : List Path} (hlast : LastOnly paths v) (step : PathStep) :
    child step (deleteIn paths v) =
      if [step] ∈ paths then none else (child step v).map (deleteIn (under step paths)) := by
  cases v with
  | array xs =>
    cases step with
    | field name => simp [deleteIn, child]
    | index idx =>
      have := deleteItems_getElem? paths 0 xs (fun j hj => hlast j (by rwa [Nat.zero_add] at hj)) idx
      rwa [Nat.zero_add] at this
  | object m =>
    cases step with
    | field name => rw [deleteIn]; exact deleteMembers_get paths m name
    | index idx => simp [deleteIn, child]
  | _ => cases step <;> simp [deleteIn, child]

theorem kind_deleteIn (paths : List Path) (v : Value ν) : kind (deleteIn paths v) = kind v := by
  cases v <;> simp [deleteIn, kind]

theorem mem_deleteMembers {paths : List Path} {m : List (String × Value ν)} {e : String × Value ν}
    (he : e ∈ deleteMembers paths m) :
    ∃ v, (e.1, v) ∈ m ∧ e.2 = deleteIn (under (.field e.1) paths) v := by
  induction m with
  | nil => simp [deleteMembers] at he
  | cons a m ih =>
    obtain ⟨k, v⟩ := a
    rw [deleteMembers] at he
    have hrest (he : e ∈ deleteMembers paths m) :
        ∃ v', (e.1, v') ∈ (k, v) :: m ∧ e.2 = deleteIn (under (.field e.1) paths) v' := by
      obtain ⟨v', hv', heq⟩ := ih he
      exact ⟨v', List.mem_cons_of_mem _ hv', heq⟩
    split at he
    · exact hrest he
    · rcases List.mem_cons.mp he with rfl | he
      · exact ⟨v, List.mem_cons_self .., rfl⟩
      · exact hrest he

theorem mem_deleteItems {paths : List Path} {i : Nat} {xs : List (Value ν)} {x : Value ν}
    (hx : x ∈ deleteItems paths i xs) : ∃ y ∈ xs, ∃ paths', x = deleteIn paths' y := by
  induction xs generalizing i with
  | nil => simp [deleteItems] at hx
  | cons y ys ih =>
    rw [deleteItems] at hx
    split at hx
    · obtain ⟨z, hz, hrest⟩ := ih hx
      exact ⟨z, List.mem_cons_of_mem _ hz, hrest⟩
    · rcases List.mem_cons.mp hx with rfl | hx
      · exact ⟨y, List.mem_cons_self .., _, rfl⟩
      · obtain ⟨z, hz, hrest⟩ := ih hx
        exact ⟨z, List.mem_cons_of_mem _ hz, hrest⟩

theorem sorted_deleteMembers {paths : List Path} {m : List (String × Value ν)} (hm : Assoc.Sorted m) :
    Assoc.Sorted (deleteMembers paths m) := by
  induction m with
  | nil => exact Assoc.sorted_nil
  | cons e m ih =>
    obtain ⟨hhead, htail⟩ := List.pairwise_cons.mp hm
    rw [deleteMembers]
    split
    · exact ih htail
    · refine List.pairwise_cons.mpr ⟨fun a ha => ?_, ih htail⟩
      obtain ⟨v, hv, -⟩ := mem_deleteMembers ha
      exact hhead (a.1, v) hv

theorem ordered_deleteIn {v : Value ν} (paths : List Path) (hv : v.ordered = true) :
    (deleteIn paths v).ordered = true := by
  induction v generalizing paths with
  | array xs ih =>
    rw [deleteIn]
    refine ordered_array.mpr fun x hx => ?_
    obtain ⟨y, hy, paths', rfl⟩ := mem_deleteItems hx
    exact ih y hy paths' (ordered_array.mp hv y hy)
  | object m ih =>
    obtain ⟨hsorted, hmembers⟩ := ordered_object.mp hv
    rw [deleteIn]
    refine ordered_object.mpr ⟨sorted_deleteMembers hsorted, fun e he => ?_⟩
    obtain ⟨v, hv, heq⟩ := mem_deleteMembers he
    exact heq ▸ ih _ hv _ (hmembers _ hv)
  | _ => rw [deleteIn] <;> simp [Value.ordered]

theorem deleteAll_congr {paths paths' : List Path} (hmem : SameMembers paths paths') (v : Value ν) :
    deleteAll paths v = deleteAll paths' v := by
  have hin : deleteIn paths v = deleteIn paths' v := by
    induction v generalizing paths paths' with
    | array xs ih =>
      have hitems (i : Nat) : deleteItems paths i xs = deleteItems paths' i xs := by
        induction xs generalizing i with
        | nil => rfl
        | cons x xs ihxs =>
          obtain ⟨hx, hxs⟩ := List.forall_mem_cons.mp ih
          simp only [deleteItems, hmem [.index i], hx (hmem.under (.index i)), ihxs hxs (i + 1)]
      rw [deleteIn, deleteIn, hitems]
    | object m ih =>
      have hmembers : deleteMembers paths m = deleteMembers paths' m := by
        induction m with
        | nil => rfl
        | cons e m ihm =>
          obtain ⟨k, v⟩ := e
          obtain ⟨he, hm⟩ := List.forall_mem_cons.mp ih
          simp only [deleteMembers, hmem [.field k], he (hmem.under (.field k)), ihm hm]
      rw [deleteIn, deleteIn, hmembers]
    | _ => rw [deleteIn, deleteIn] <;> simp
  rw [deleteAll, deleteAll, hin]
  simp only [hmem []]

/-! ### Settled paths -/

theorem Settled.lastOnly {paths : List Path} {v : Value ν} (h : Settled paths v)
    (hroot : [] ∉ paths) : LastOnly paths v := by
  intro i hi
  have := h [] i hi (forall_not_prefix_nil hroot)
  rw [List.nil_append, walk_cons] at this
  cases hc : child (.index (i + 1)) v with
  | none => rfl
  | some x => simp [hc] at this

theorem Settled.at_child {paths : List Path} {v x : Value ν} {step : PathStep} (h : Settled paths v)
    (hroot : [] ∉ paths) (hx : child step v = some x) : Settled (under step paths) x := by
  intro q i hi hq
  have := h (step :: q) i (mem_under.mp hi) ((forall_not_prefix_cons hroot).mpr hq)
  rwa [List.cons_append, walk_cons, hx] at this

theorem Settled.congr {paths paths' : List Path} {v : Value ν} (h : Settled paths v)
    (hmem : SameMembers paths paths') : Settled paths' v := fun q i hi hq =>
  h q i ((hmem _).mpr hi) fun p hp => hq p ((hmem p).mp hp)

theorem settled_of_child {paths : List Path} {v : Value ν} (hlast : LastOnly paths v)
    (hchild : ∀ step x, child step v = some x → [step] ∉ paths → Settled (under step paths) x) :
    Settled paths v := by
  intro q i hi hq
  have hroot : [] ∉ paths := fun h => hq [] h List.nil_prefix
  cases q with
  | nil => rw [List.nil_append, walk_cons, hlast i hi, Option.bind_none]
  | cons step q =>
    rw [List.cons_append, walk_cons]
    cases hx : child step v with
    | none => rfl
    | some x =>
      have hstep : [step] ∉ paths := fun h => hq _ h (by simp)
      exact hchild step x hx hstep q i (mem_under.mpr hi) ((forall_not_prefix_cons hroot).mp hq)

theorem not_mem_under {step : PathStep} {paths : List Path} : [] ∉ under step paths ↔ [step] ∉ paths :=
  not_congr mem_under

/-- For settled paths the successive removals delete everything at once. -/
theorem payloadExcept_eq_deleteAll {s : Value ν} {paths : List Path} (hs : s.ordered = true)
    (h : Settled paths s) : payloadExcept s paths = deleteAll paths s := by
  induction s using induct_child generalizing paths with
  | h s ih =>
    by_cases hroot : [] ∈ paths
    · rw [payloadExcept_root s hroot, deleteAll, if_pos hroot]
    · have hlast := h.lastOnly hroot
      rw [deleteAll, if_neg hroot]
      refine ext_child (ordered_payloadExcept paths hs) (ordered_deleteIn paths hs) ?_ fun step => ?_
      · rw [kind_payloadExcept hroot, kind_deleteIn]
      · rw [child_payloadExcept hroot hlast, child_deleteIn hlast]
        by_cases hstep : [step] ∈ paths
        · rw [if_pos hstep, if_pos hstep]
        · rw [if_neg hstep, if_neg hstep]
          cases hx : child step s with
          | none => rfl
          | some x =>
            have := ih step x hx (ordered_child hs hx) (h.at_child hroot hx)
            rw [deleteAll, if_neg (not_mem_under.mpr hstep)] at this
            rw [Option.map_some, Option.map_some, this]

/-! ### How many items are left -/

/-- The path addresses an item of an array of length `n`. -/
def hits (n : Nat) : Path → Bool
  | [.index i] => i < n
  | _ => false

/-- The length of an array of length `n` after the removal. -/
def lenStep (n : Nat) (path : Path) : Nat := if hits n path then n - 1 else n

theorem hits_iff {n : Nat} {path : Path} : hits n path = true ↔ ∃ i < n, path = [.index i] := by
  constructor
  · intro h
    unfold hits at h
    split at h
    · exact ⟨_, of_decide_eq_true h, rfl⟩
    · cases h
  · rintro ⟨i, hi, rfl⟩
    exact decide_eq_true hi

theorem remove_array {path : Path} (hpath : path ≠ []) (xs : List (Value ν)) :
    ∃ ys, remove (.array xs) path = .array ys ∧ ys.length = lenStep xs.length path := by
  obtain ⟨step, rest, rfl⟩ := List.exists_cons_of_ne_nil hpath
  by_cases hrest : rest = []
  · subst hrest
    rw [remove_singleton]
    cases step with
    | field name => exact ⟨xs, rfl, rfl⟩
    | index idx =>
      by_cases hlt : idx < xs.length
      · exact ⟨xs.eraseIdx idx, by simp [deleteChild, hlt],
          by simp [lenStep, hits, hlt, List.length_eraseIdx]⟩
      · exact ⟨xs, by simp [deleteChild, hlt], by simp [lenStep, hits, hlt]⟩
  · have hhits : lenStep xs.length (step :: rest) = xs.length := by
      rw [lenStep, if_neg]
      intro h
      obtain ⟨i, -, heq⟩ := hits_iff.mp h
      exact hrest (List.cons.inj heq).2
    rw [remove_cons _ step hrest, hhits]
    cases hx : child step (.array xs) with
    | none => exact ⟨xs, rfl, rfl⟩
    | some x =>
      cases step with
      | field name => cases hx
      | index idx => exact ⟨_, rfl, List.length_set⟩

theorem payloadExcept_array {paths : List Path} (hroot : [] ∉ paths) (xs : List (Value ν)) :
    ∃ ys, payloadExcept (.array xs) paths = .array ys ∧ ys.length = paths.foldl lenStep xs.length := by
  induction paths generalizing xs with
  | nil => exact ⟨xs, rfl, rfl⟩
  | cons path paths ih =>
    have hpath : path ≠ [] := fun h => hroot (h ▸ List.mem_cons_self ..)
    obtain ⟨ys, hys, hlen⟩ := remove_array hpath xs
    rw [payloadExcept_cons, hys, List.foldl_cons, ← hlen]
    exact ih (fun h => hroot (List.mem_cons_of_mem _ h)) ys

theorem lenStep_le (n : Nat) (path : Path) : lenStep n path ≤ n := by
  rw [lenStep]
  split
  · exact Nat.sub_le n 1
  · exact Nat.le_refl n

theorem foldl_lenStep_le (n : Nat) (paths : List Path) : paths.foldl lenStep n ≤ n := by
  induction paths generalizing n with
  | nil => exact Nat.le_refl n
  | cons path paths ih => exact (ih _).trans (lenStep_le n path)

/-- Repeating a removal empties the array from its index on. -/
theorem foldl_lenStep_replicate (n k i : Nat) :
    (List.replicate k [PathStep.index i]).foldl lenStep n ≤ max i (n - k) := by
  induction k generalizing n with
  | zero => simp
  | succ k ih =>
    rw [List.replicate_succ, List.foldl_cons]
    refine (ih _).trans ?_
    rw [lenStep]
    split
    · omega
    · next h =>
      have : ¬ i < n := fun hlt => h (hits_iff.mpr ⟨i, hlt, rfl⟩)
      omega

theorem le_foldl_lenStep (n : Nat) (paths : List Path) :
    n ≤ paths.foldl lenStep n + paths.countP (hits n) := by
  induction paths generalizing n with
  | nil => simp
  | cons path paths ih =>
    rw [List.foldl_cons, List.countP_cons, lenStep]
    split
    · have hmono : paths.countP (hits (n - 1)) ≤ paths.countP (hits n) := by
        refine List.countP_mono_left fun p _ hp => ?_
        obtain ⟨i, hi, rfl⟩ := hits_iff.mp hp
        exact hits_iff.mpr ⟨i, by omega, rfl⟩
      have := ih (n - 1)
      omega
    · simpa using ih n

/-- Distinct paths that all address items strictly between two positions are few. -/
theorem countP_hits_le {n m : Nat} {paths : List Path} (hnodup : paths.Nodup)
    (habove : ∀ i, [.index i] ∈ paths → i < n → m < i) : paths.countP (hits n) ≤ n - (m + 1) := by
  rw [List.countP_eq_length_filter, ← List.toFinset_card_of_nodup (hnodup.filter _), ← Nat.card_Ico]
  refine (Finset.card_le_card fun p hp => ?_).trans
    (Finset.card_image_le (f := fun i => [PathStep.index i]))
  obtain ⟨hmem, hhits⟩ := List.mem_filter.mp (List.mem_toFinset.mp hp)
  obtain ⟨i, hi, rfl⟩ := hits_iff.mp hhits
  exact Finset.mem_image.mpr ⟨i, Finset.mem_Ico.mpr ⟨habove i hmem hi, hi⟩, rfl⟩

/-- Removing the first removable item of an array first keeps more items than repeating its removal. -/
theorem length_depends {paths : List Path} {n a : Nat} (ha : [.index a] ∈ paths) (hlt : a + 1 < n) :
    ∃ p₁ p₂, SameMembers paths p₁ ∧ SameMembers paths p₂ ∧ p₁.foldl lenStep n < p₂.foldl lenStep n := by
  have hex : ∃ i, [PathStep.index i] ∈ paths := ⟨a, ha⟩
  obtain ⟨m, hm, hmin⟩ : ∃ m, [PathStep.index m] ∈ paths ∧ ∀ i, [PathStep.index i] ∈ paths → m ≤ i :=
    ⟨Nat.find hex, Nat.find_spec hex, fun i hi => Nat.find_min' hex hi⟩
  have hma : m ≤ a := hmin a ha
  refine ⟨paths ++ List.replicate n [.index m], [.index m] :: paths.dedup.erase [.index m],
    fun p => ?_, fun p => ?_, ?_⟩
  · rw [List.mem_append]
    refine ⟨.inl, fun h => h.elim id fun h => ?_⟩
    exact List.eq_of_mem_replicate h ▸ hm
  · by_cases hp : p = [.index m]
    · simp [hp, hm]
    · rw [List.mem_cons, List.mem_erase_of_ne hp, List.mem_dedup]
      exact ⟨.inr, fun h => h.resolve_left hp⟩
  · have hshort : (paths ++ List.replicate n [PathStep.index m]).foldl lenStep n ≤ m := by
      rw [List.foldl_append]
      have h₁ := foldl_lenStep_replicate (paths.foldl lenStep n) n m
      have h₂ := foldl_lenStep_le n paths
      omega
    have hcount : (paths.dedup.erase [.index m]).countP (hits (n - 1)) ≤ n - 1 - (m + 1) := by
      refine countP_hits_le ((List.nodup_dedup paths).erase _) fun i hi _ => ?_
      obtain ⟨hne, hmem⟩ := (List.nodup_dedup paths).mem_erase_iff.mp hi
      have hle := hmin i (List.mem_dedup.mp hmem)
      have : i ≠ m := fun heq => hne (by rw [heq])
      omega
    have hlong : m + 1 ≤ ([PathStep.index m] :: paths.dedup.erase [.index m]).foldl lenStep n := by
      have hhit : lenStep n [.index m] = n - 1 := if_pos (hits_iff.mpr ⟨m, by omega, rfl⟩)
      rw [List.foldl_cons, hhit]
      have := le_foldl_lenStep (n - 1) (paths.dedup.erase [.index m])
      omega
    omega

/-! ### Exactly the settled paths -/

theorem lastOnly_of_forall {s : Value ν} {paths : List Path} (hroot : [] ∉ paths)
    (h : ∀ paths', SameMembers paths paths' → payloadExcept s paths' = deleteAll paths s) :
    LastOnly paths s := by
  intro i hi
  cases s with
  | array xs =>
    by_contra hsome
    have hlt : i + 1 < xs.length := by
      by_contra hge
      exact hsome (List.getElem?_eq_none (Nat.not_lt.mp hge))
    obtain ⟨p₁, p₂, hp₁, hp₂, hne⟩ := length_depends hi hlt
    obtain ⟨ys₁, hys₁, hlen₁⟩ := payloadExcept_array (fun h => hroot ((hp₁ _).mpr h)) xs
    obtain ⟨ys₂, hys₂, hlen₂⟩ := payloadExcept_array (fun h => hroot ((hp₂ _).mpr h)) xs
    have heq : ys₁ = ys₂ := Value.array.inj (hys₁.symm.trans ((h p₁ hp₁).trans (h p₂ hp₂).symm) |>.trans hys₂)
    rw [← hlen₁, ← hlen₂, heq] at hne
    exact Nat.lt_irrefl _ hne
  | _ => rfl

/-- Any order and repetition of the paths under a step comes from one of the paths themselves. -/
theorem exists_under_eq {paths rests : List Path} {step : PathStep} (hstep : [step] ∉ paths)
    (hmem : SameMembers (under step paths) rests) :
    ∃ paths', SameMembers paths paths' ∧ under step paths' = rests := by
  let others := paths.filter fun p => p.head? ≠ some step
  have hothers : under step others = [] := by
    refine List.eq_nil_iff_forall_not_mem.mpr fun r hr => ?_
    have := (List.mem_filter.mp (mem_under.mp hr)).2
    simp at this
  have hmap : under step (rests.map (step :: ·)) = rests := by
    clear hmem
    induction rests with
    | nil => rfl
    | cons r rests ih => rw [List.map_cons, under_cons_self, ih]
  refine ⟨rests.map (step :: ·) ++ others, fun p => ?_, ?_⟩
  · rw [List.mem_append, List.mem_map, List.mem_filter]
    constructor
    · intro hp
      cases p with
      | nil => exact .inr ⟨hp, by simp⟩
      | cons s r =>
        by_cases hs : s = step
        · subst hs
          exact .inl ⟨r, (hmem r).mp (mem_under.mpr hp), rfl⟩
        · exact .inr ⟨hp, by simp [hs]⟩
    · rintro (⟨r, hr, rfl⟩ | ⟨hp, -⟩)
      · exact mem_under.mp ((hmem r).mpr hr)
      · exact hp
  · rw [under, List.filterMap_append]
    show under step _ ++ under step others = rests
    rw [hmap, hothers, List.append_nil]

theorem settled_of_forall {s : Value ν} {paths : List Path}
    (h : ∀ paths', SameMembers paths paths' → payloadExcept s paths' = deleteAll paths s) :
    Settled paths s := by
  induction s using induct_child generalizing paths with
  | h s ih =>
    by_cases hroot : [] ∈ paths
    · intro q i _ hq
      exact absurd List.nil_prefix (hq [] hroot)
    · have hlast := lastOnly_of_forall hroot h
      refine settled_of_child hlast fun step x hx hstep => ih step x hx fun rests hrests => ?_
      -- read the equation for a lifted list of paths at the child
      obtain ⟨paths', hmem, hunder⟩ := exists_under_eq hstep hrests
      have hroot' : [] ∉ paths' := fun h => hroot ((hmem _).mpr h)
      have hlast' : LastOnly paths' s := fun i hi => hlast i ((hmem _).mpr hi)
      have hstep' : [step] ∉ paths' := fun h => hstep ((hmem _).mpr h)
      have heq := congrArg (child step) (h paths' hmem)
      rw [deleteAll, if_neg hroot, child_payloadExcept hroot' hlast', child_deleteIn hlast,
        if_neg hstep', if_neg hstep, hx, hunder] at heq
      rw [deleteAll, if_neg (not_mem_under.mpr hstep)]
      exact Option.some.inj heq

/-! ### What is excluded does not matter -/

theorem shape_kind {v w : Value ν} (h : shape v = shape w) : kind v = kind w := by
  cases v <;> cases w <;> simp_all [shape, kind]

theorem child_isSome_of_shape {v w : Value ν} (h : shape v = shape w) (step : PathStep) :
    (child step v).isSome = (child step w).isSome := by
  cases v with
  | array xs =>
    cases w with
    | array ys =>
      have hlen : xs.length = ys.length := by simpa [shape] using h
      cases step with
      | field name => rfl
      | index idx =>
        show xs[idx]?.isSome = ys[idx]?.isSome
        by_cases hlt : idx < xs.length
        · rw [List.getElem?_eq_getElem hlt, List.getElem?_eq_getElem (hlen ▸ hlt)]
          rfl
        · rw [List.getElem?_eq_none (by omega), List.getElem?_eq_none (by omega)]
    | _ => simp [shape] at h
  | object m =>
    cases w with
    | object m' =>
      have hkeys : m.map Prod.fst = m'.map Prod.fst := by simpa [shape] using h
      cases step with
      | field name =>
        rw [Bool.eq_iff_iff]
        exact Assoc.mem_keys_iff.symm.trans (hkeys ▸ Assoc.mem_keys_iff)
      | index idx => rfl
    | _ => simp [shape] at h
  | _ => cases w <;> first | (cases step <;> rfl) | simp [shape] at h

theorem AgreeOff.shape_eq {paths : List Path} {s s' : Value ν} (h : AgreeOff paths s s')
    (hroot : [] ∉ paths) : shape s = shape s' := by
  simpa using h [] (forall_not_prefix_nil hroot)

theorem AgreeOff.at_child {paths : List Path} {s s' x x' : Value ν} {step : PathStep}
    (h : AgreeOff paths s s') (hroot : [] ∉ paths) (hx : child step s = some x)
    (hx' : child step s' = some x') : AgreeOff (under step paths) x x' := by
  intro q hq
  have := h (step :: q) ((forall_not_prefix_cons hroot).mpr hq)
  rwa [walk_cons, walk_cons, hx, hx'] at this

theorem Settled.agree {paths : List Path} {s s' : Value ν} (h : Settled paths s)
    (hagree : AgreeOff paths s s') : Settled paths s' := by
  intro q i hi hq
  have hnone := h q i hi hq
  have hshape := hagree q hq
  rw [walk_append] at hnone ⊢
  cases hw' : walk s' q with
  | none => rfl
  | some v' =>
    cases hw : walk s q with
    | none => simp [hw, hw'] at hshape
    | some v =>
      have hsame : shape v = shape v' := by simpa [hw, hw'] using hshape
      have hv : child (.index (i + 1)) v = none := by
        cases hc : child (.index (i + 1)) v with
        | none => rfl
        | some x => simp [hw, walk_cons, hc] at hnone
      have hv' : child (.index (i + 1)) v' = none := by
        have := child_isSome_of_shape hsame (.index (i + 1))
        rw [hv] at this
        cases hc : child (.index (i + 1)) v' with
        | none => rfl
        | some x => simp [hc] at this
      rw [Option.bind_some, walk_cons, hv', Option.bind_none]

theorem deleteAll_agree {paths : List Path} {s s' : Value ν} (hs : s.ordered = true)
    (hs' : s'.ordered = true) (h : Settled paths s) (hagree : AgreeOff paths s s') :
    deleteAll paths s = deleteAll paths s' := by
  induction s using induct_child generalizing paths s' with
  | h s ih =>
    by_cases hroot : [] ∈ paths
    · rw [deleteAll, deleteAll, if_pos hroot, if_pos hroot]
    · have hshape := hagree.shape_eq hroot
      rw [deleteAll, deleteAll, if_neg hroot, if_neg hroot]
      refine ext_child (ordered_deleteIn paths hs) (ordered_deleteIn paths hs') ?_ fun step => ?_
      · rw [kind_deleteIn, kind_deleteIn, shape_kind hshape]
      · rw [child_deleteIn (h.lastOnly hroot), child_deleteIn ((h.agree hagree).lastOnly hroot)]
        by_cases hstep : [step] ∈ paths
        · rw [if_pos hstep, if_pos hstep]
        · rw [if_neg hstep, if_neg hstep]
          have hsome := child_isSome_of_shape hshape step
          cases hx : child step s with
          | none =>
            cases hx' : child step s' with
            | none => rfl
            | some x' => simp [hx, hx'] at hsome
          | some x =>
            cases hx' : child step s' with
            | none => simp [hx, hx'] at hsome
            | some x' =>
              have := ih step x hx (ordered_child hs hx) (ordered_child hs' hx')
                (h.at_child hroot hx) (hagree.at_child hroot hx hx')
              rw [deleteAll, deleteAll, if_neg (not_mem_under.mpr hstep),
                if_neg (not_mem_under.mpr hstep)] at this
              rw [Option.map_some, Option.map_some, this]

/-- On settled paths, what is left is equal exactly for values that are equal at every location outside of them. -/
theorem deleteAll_eq_iff {paths : List Path} {s s' : Value ν} (hs : s.ordered = true)
    (hs' : s'.ordered = true) (h : Settled paths s) (h' : Settled paths s') :
    deleteAll paths s = deleteAll paths s' ↔
      ∀ q, (∀ p ∈ paths, ¬ p <+: q) → (walk s q).map kind = (walk s' q).map kind := by
  induction s using induct_child generalizing paths s' with
  | h s ih =>
    by_cases hroot : [] ∈ paths
    · rw [deleteAll, deleteAll, if_pos hroot, if_pos hroot]
      exact ⟨fun _ q hq => absurd (List.nil_prefix) (hq [] hroot), fun _ => rfl⟩
    · have hlast := h.lastOnly hroot
      have hlast' := h'.lastOnly hroot
      -- what is left of a child that is not deleted, against what the values have below it
      have hchild (step : PathStep) (hstep : [step] ∉ paths) :
          child step (deleteIn paths s) = child step (deleteIn paths s') ↔
            ∀ q, (∀ p ∈ under step paths, ¬ p <+: q) →
              (walk s (step :: q)).map kind = (walk s' (step :: q)).map kind := by
        have hnil : ∀ p ∈ under step paths, ¬ p <+: [] := forall_not_prefix_nil (not_mem_under.mpr hstep)
        simp only [child_deleteIn hlast, child_deleteIn hlast', if_neg hstep, walk_cons]
        cases hx : child step s with
        | none =>
          cases hx' : child step s' with
          | none => simp
          | some x' => exact iff_of_false (by simp) fun hwalk => absurd (hwalk [] hnil) (by simp)
        | some x =>
          cases hx' : child step s' with
          | none => exact iff_of_false (by simp) fun hwalk => absurd (hwalk [] hnil) (by simp)
          | some x' =>
            have hrec := ih step x hx (ordered_child hs hx) (ordered_child hs' hx') (h.at_child hroot hx)
              (h'.at_child hroot hx')
            rw [deleteAll, deleteAll, if_neg (not_mem_under.mpr hstep), if_neg (not_mem_under.mpr hstep)] at hrec
            rw [Option.map_some, Option.map_some, Option.some.injEq]
            exact hrec
      rw [deleteAll, deleteAll, if_neg hroot, if_neg hroot]
      constructor
      · intro heq q hq
        cases q with
        | nil =>
          have := congrArg kind heq
          rw [kind_deleteIn, kind_deleteIn] at this
          simp [this]
        | cons step q =>
          have hstep : [step] ∉ paths := fun hmem => hq _ hmem (by simp)
          exact (hchild step hstep).mp (congrArg (child step) heq) q ((forall_not_prefix_cons hroot).mp hq)
      · intro hwalk
        refine ext_child (ordered_deleteIn paths hs) (ordered_deleteIn paths hs') ?_ fun step => ?_
        · have := hwalk [] (forall_not_prefix_nil hroot)
          rw [kind_deleteIn, kind_deleteIn]
          simpa using this
        · by_cases hstep : [step] ∈ paths
          · rw [child_deleteIn hlast, child_deleteIn hlast', if_pos hstep, if_pos hstep]
          · exact (hchild step hstep).mpr fun q hq => hwalk (step :: q) ((forall_not_prefix_cons hroot).mpr hq)

/-! ### The exclusion contract -/

/-- Whatever the order and repetition of the paths, what they address is deleted at once and,
in payloads that are otherwise the same, has no influence on the result. -/
def Excludes (s : Json ν) (paths : List Path) : Prop :=
  ∀ paths', SameMembers paths paths' →
    payloadExcept s.value paths' = deleteAll paths s.value ∧
    ∀ s' : Json ν, AgreeOff paths s.value s'.value →
      payloadExcept s'.value paths' = payloadExcept s.value paths'

/-- **Main theorem.** The successive removals meet the contract exactly on settled paths. -/
theorem excludes_iff_settled (s : Json ν) (paths : List Path) :
    Excludes s paths ↔ Settled paths s.value := by
  constructor
  · intro h
    exact settled_of_forall fun paths' hmem => (h paths' hmem).1
  · intro h paths' hmem
    have hself := payloadExcept_eq_deleteAll s.ordered (h.congr hmem)
    rw [← deleteAll_congr hmem] at hself
    refine ⟨hself, fun s' hagree => ?_⟩
    rw [hself, payloadExcept_eq_deleteAll s'.ordered ((h.agree hagree).congr hmem),
      ← deleteAll_congr hmem, deleteAll_agree s.ordered s'.ordered h hagree]

/-- Removing `.[0]` moves the second item to where `.[1]` no longer finds it. -/
theorem not_excludes_first_two :
    ¬ Excludes ⟨(.array [.number 1, .number 2] : Value Nat), rfl⟩ [[.index 0], [.index 1]] := by
  intro h
  have heq := (h _ fun _ => Iff.rfl).1
  exact absurd heq (by decide)

end Zizq.Json
