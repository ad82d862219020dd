import Zizq.Json.Except

/-! What one removal takes away.

`remove` walks to the parent of the last step with shape checks of its own, and deletes
there. It does nothing exactly where `walk` finds nothing. Otherwise the parent loses the
one entry, and every path that leads elsewhere goes on doing so, once an index behind the
removed one is lowered (`remove_exact`). -/
namespace Zizq.Json
open Data Value
variable {ν : Type}

/-- The second container is the first without its entry at the step. -/
inductive Loses : PathStep → Value ν → Value ν → Value ν → Prop
  | field (before after : List (String × Value ν)) (name : String) (x : Value ν) :
    Loses (.field name) x (.object (before ++ (name, x) :: after)) (.object (before ++ after))
  | index (before after : List (Value ν)) (x : Value ν) :
    Loses (.index before.length) x (.array (before ++ x :: after)) (.array (before ++ after))

/-- The path goes through the array that the other one ends in, at a higher index. -/
def Behind (p q : Path) : Prop :=
  ∃ parent i j rest, p = parent ++ [.index i] ∧ q = parent ++ .index j :: rest ∧ i < j

/-- The value has lost what the path led to, and nothing else. -/
structure Removed (s : Value ν) (p : Path) (s' : Value ν) : Prop where
  missing : walk s p = none → s' = s
  entry : ∀ x, walk s p = some x → ∃ parent step container container', p = parent ++ [step] ∧
    walk s parent = some container ∧ walk s' parent = some container' ∧ Loses step x container container'
  above : ∀ q step step' rest, p = q ++ step :: step' :: rest → (walk s' q).map shape = (walk s q).map shape
  beside : ∀ q, ¬ p <+: q → ¬ q <+: p → ¬ Behind p q → walk s' q = walk s q
  behind : (walk s p).isSome → ∀ parent i j rest, p = parent ++ [.index i] → i < j →
    walk s' (parent ++ .index (j - 1) :: rest) = walk s (parent ++ .index j :: rest)

/-! ### Changes in place -/

section Modify
variable {f : Value ν → Value ν}

theorem modify_cons {step : PathStep} {path : Path} {v x : Value ν} (hx : child step v = some x) :
    modify f (step :: path) v = setChild step (modify f path x) v := by
  simp only [modify, hx]

theorem modify_cons_none {step : PathStep} {path : Path} {v : Value ν} (hx : child step v = none) :
    modify f (step :: path) v = v := by
  simp only [modify, hx]

theorem modify_append (path path' : Path) (v : Value ν) :
    modify f (path ++ path') v = modify (modify f path') path v := by
  induction path generalizing v with
  | nil => rfl
  | cons step path ih =>
    rw [List.cons_append]
    cases hx : child step v with
    | none => rw [modify_cons_none hx, modify_cons_none hx]
    | some x => rw [modify_cons hx, modify_cons hx, ih]

theorem walk_modify (path : Path) (v : Value ν) : walk (modify f path v) path = (walk v path).map f := by
  induction path generalizing v with
  | nil => rfl
  | cons step path ih =>
    cases hx : child step v with
    | none => rw [modify_cons_none hx, walk_cons, hx, Option.bind_none, Option.map_none]
    | some x =>
      rw [modify_cons hx, walk_cons, walk_cons, child_setChild hx, if_pos rfl, hx, Option.bind_some,
        Option.bind_some, ih]

/-- A path that neither contains the changed value nor lies inside it reads the same. -/
theorem walk_modify_beside {path q : Path} (v : Value ν) (hp : ¬ path <+: q) (hq : ¬ q <+: path) :
    walk (modify f path v) q = walk v q := by
  induction path generalizing v q with
  | nil => exact absurd List.nil_prefix hp
  | cons step rest ih =>
    cases q with
    | nil => exact absurd List.nil_prefix hq
    | cons step' rest' =>
      cases hx : child step v with
      | none => rw [modify_cons_none hx]
      | some x =>
        rw [modify_cons hx, walk_cons, walk_cons, child_setChild hx]
        by_cases hstep : step' = step
        · subst hstep
          rw [if_pos rfl, hx, Option.bind_some, Option.bind_some]
          exact ih x (fun h => hp (List.cons_prefix_cons.mpr ⟨rfl, h⟩))
            fun h => hq (List.cons_prefix_cons.mpr ⟨rfl, h⟩)
        · rw [if_neg hstep]

theorem setChild_self {step : PathStep} {v x : Value ν} (hv : v.ordered = true) (hx : child step v = some x) :
    setChild step x v = v := by
  cases step with
  | field name =>
    cases v with
    | object m => exact congrArg Value.object (Assoc.insert_eq_self (ordered_object.mp hv).1 hx)
    | _ => cases hx
  | index idx =>
    cases v with
    | array xs =>
      obtain ⟨hlt, hget⟩ := List.getElem?_eq_some_iff.mp hx
      rw [setChild, ← hget, List.set_getElem_self]
    | _ => cases hx

/-- A change that leaves what is at the path as it is leaves all as it is. -/
theorem modify_eq_self {path : Path} {v : Value ν} (hv : v.ordered = true)
    (h : ∀ w, walk v path = some w → f w = w) : modify f path v = v := by
  induction path generalizing v with
  | nil => exact h v rfl
  | cons step path ih =>
    cases hx : child step v with
    | none => exact modify_cons_none hx
    | some x =>
      have hself : modify f path x = x := ih (ordered_child hv hx) fun w hw => h w (by rw [walk_cons, hx]; exact hw)
      rw [modify_cons hx, hself, setChild_self hv hx]

theorem shape_setChild {step : PathStep} {v x : Value ν} (hv : v.ordered = true) (hx : child step v = some x)
    (w : Value ν) : shape (setChild step w v) = shape v := by
  cases step with
  | field name =>
    cases v with
    | object m =>
      have hget : Assoc.get name m = some x := hx
      exact congrArg Shape.object (Assoc.keys_insert (ordered_object.mp hv).1 (by rw [hget]; rfl) w)
    | _ => cases hx
  | index idx =>
    cases v with
    | array xs => exact congrArg Shape.array List.length_set
    | _ => cases hx

/-- Above the change, no value becomes another one but for its children. -/
theorem shape_walk_modify {path : Path} {step : PathStep} {rest : Path} {v : Value ν} (hv : v.ordered = true) :
    (walk (modify f (path ++ step :: rest) v) path).map shape = (walk v path).map shape := by
  rw [modify_append, walk_modify, Option.map_map]
  cases hw : walk v path with
  | none => rfl
  | some w =>
    cases hx : child step w with
    | none => exact congrArg (fun w => some (shape w)) (modify_cons_none hx)
    | some x =>
      have hshape : shape (modify f (step :: rest) w) = shape w := by
        rw [modify_cons hx, shape_setChild (ordered_walk hv hw) hx]
      exact congrArg some hshape

end Modify

/-! ### Deletion -/

theorem remove_concat (v : Value ν) (parent : Path) (step : PathStep) :
    remove v (parent ++ [step]) = modify (deleteChild step) parent v := by
  rw [remove, List.getLast?_concat, List.dropLast_concat]

theorem deleteChild_eq_self {step : PathStep} {v : Value ν} (h : child step v = none) : deleteChild step v = v := by
  cases step with
  | field name =>
    cases v with
    | object m => exact congrArg Value.object (Assoc.erase_eq_self h)
    | _ => rfl
  | index idx =>
    cases v with
    | array xs => exact if_neg (List.getElem?_eq_none_iff.mp h).not_gt
    | _ => rfl

theorem loses_deleteChild {step : PathStep} {v x : Value ν} (hv : v.ordered = true) (h : child step v = some x) :
    Loses step x v (deleteChild step v) := by
  cases step with
  | field name =>
    cases v with
    | object m =>
      obtain ⟨before, after, rfl, herase⟩ := Assoc.exists_erase (ordered_object.mp hv).1 h
      rw [deleteChild, herase]
      exact .field before after name x
    | _ => cases h
  | index idx =>
    cases v with
    | array xs =>
      obtain ⟨hlt, hget⟩ := List.getElem?_eq_some_iff.mp h
      have hlength : (xs.take idx).length = idx := by rw [List.length_take, Nat.min_eq_left hlt.le]
      have hxs : xs.take idx ++ x :: xs.drop (idx + 1) = xs := by
        rw [← hget, List.getElem_cons_drop, List.take_append_drop]
      have hloses := Loses.index (xs.take idx) (xs.drop (idx + 1)) x
      rw [hlength, hxs, ← List.eraseIdx_eq_take_drop_succ] at hloses
      rw [deleteChild, if_pos hlt]
      exact hloses
    | _ => cases h

/-- A child at another step is where it was, unless it is an item behind the deleted one. -/
theorem child_deleteChild_beside {step step' : PathStep} (v : Value ν) (hne : step' ≠ step)
    (hbehind : ∀ i j, step = .index i → step' = .index j → j ≤ i) :
    child step' (deleteChild step v) = child step' v := by
  cases step with
  | field name =>
    cases v with
    | object m =>
      cases step' with
      | field name' =>
        have hname : name' ≠ name := fun h => hne (congrArg _ h)
        exact (Assoc.get_erase name name' m).trans (if_neg hname)
      | index j => rfl
    | _ => rfl
  | index i =>
    cases v with
    | array xs =>
      rw [deleteChild]
      split
      · cases step' with
        | field name' => rfl
        | index j =>
          have hlt : j < i := Nat.lt_of_le_of_ne (hbehind i j rfl rfl) fun h => hne (congrArg _ h)
          exact List.getElem?_eraseIdx_of_lt hlt
      · rfl
    | _ => rfl

theorem child_deleteChild_behind {i j : Nat} {v : Value ν} (h : (child (.index i) v).isSome) (hlt : i < j) :
    child (.index (j - 1)) (deleteChild (.index i) v) = child (.index j) v := by
  cases v with
  | array xs =>
    obtain ⟨x, hx⟩ := Option.isSome_iff_exists.mp h
    have hi : i < xs.length := (List.getElem?_eq_some_iff.mp hx).1
    rw [deleteChild, if_pos hi, child, List.getElem?_eraseIdx_of_ge (by omega), Nat.sub_add_cancel (by omega)]
    rfl
  | _ => cases h

/-! ### Removal -/

section Remove
variable {s : Value ν} {parent : Path} {step : PathStep}

theorem walk_concat (s : Value ν) (parent : Path) (step : PathStep) :
    walk s (parent ++ [step]) = (walk s parent).bind (child step) := by
  rw [walk_append]
  congr 1
  funext w
  exact Option.bind_fun_some _

/-- Below the parent of what is removed. -/
theorem walk_remove (s : Value ν) (parent : Path) (step : PathStep) (rest : Path) :
    walk (remove s (parent ++ [step])) (parent ++ rest) =
      (walk s parent).bind fun w => walk (deleteChild step w) rest := by
  rw [remove_concat, walk_append, walk_modify, Option.bind_map]
  rfl

theorem remove_missing (hs : s.ordered = true) (h : walk s (parent ++ [step]) = none) :
    remove s (parent ++ [step]) = s := by
  rw [remove_concat]
  apply modify_eq_self hs
  intro w hw
  rw [walk_concat, hw] at h
  exact deleteChild_eq_self h

theorem remove_entry (hs : s.ordered = true) {x : Value ν} (h : walk s (parent ++ [step]) = some x) :
    ∃ container container', walk s parent = some container ∧
      walk (remove s (parent ++ [step])) parent = some container' ∧ Loses step x container container' := by
  rw [walk_concat] at h
  obtain ⟨w, hw, hx⟩ := Option.bind_eq_some_iff.mp h
  refine ⟨w, deleteChild step w, hw, ?_, loses_deleteChild (ordered_walk hs hw) hx⟩
  rw [remove_concat, walk_modify, hw, Option.map_some]

theorem remove_above (hs : s.ordered = true) {q rest : Path} {step' step'' : PathStep}
    (h : parent ++ [step] = q ++ step' :: step'' :: rest) :
    (walk (remove s (parent ++ [step])) q).map shape = (walk s q).map shape := by
  have hparent : parent = q ++ step' :: (step'' :: rest).dropLast := by
    have hdrop := congrArg List.dropLast h
    rwa [List.dropLast_concat, List.dropLast_append_of_ne_nil (List.cons_ne_nil _ _)] at hdrop
  rw [remove_concat, hparent]
  exact shape_walk_modify hs

theorem remove_beside {q : Path} (hp : ¬ parent ++ [step] <+: q) (hq : ¬ q <+: parent ++ [step])
    (hbehind : ¬ Behind (parent ++ [step]) q) : walk (remove s (parent ++ [step])) q = walk s q := by
  by_cases hparent : parent <+: q
  · obtain ⟨rest, rfl⟩ := hparent
    obtain _ | ⟨step', rest⟩ := rest
    · exact absurd (by simp) hq
    have hne : step' ≠ step := fun h => hp (by simp [h])
    have hchild (w : Value ν) : child step' (deleteChild step w) = child step' w := by
      refine child_deleteChild_beside w hne fun i j hi hj => Nat.not_lt.mp fun hlt => hbehind ?_
      exact ⟨parent, i, j, rest, by rw [hi], by rw [hj], hlt⟩
    rw [walk_remove, walk_append]
    congr 1
    funext w
    rw [walk_cons, walk_cons, hchild]
  · rw [remove_concat]
    exact walk_modify_beside s hparent fun h => hq (h.trans (List.prefix_append _ _))

theorem remove_behind {i j : Nat} (h : (walk s (parent ++ [.index i])).isSome) (hlt : i < j) (rest : Path) :
    walk (remove s (parent ++ [.index i])) (parent ++ .index (j - 1) :: rest) =
      walk s (parent ++ .index j :: rest) := by
  rw [walk_concat] at h
  rw [walk_remove, walk_append]
  cases hw : walk s parent with
  | none => rfl
  | some w =>
    rw [hw, Option.bind_some] at h
    rw [Option.bind_some, Option.bind_some, walk_cons, walk_cons, child_deleteChild_behind h hlt]

end Remove

/-! ### The main result -/

/-- **Main theorem.** A removal takes away what `walk` finds, and nothing else. -/
theorem remove_exact (s : Json ν) {p : Path} (hp : p ≠ []) : Removed s.value p (remove s.value p) := by
  obtain ⟨parent, step, rfl⟩ := (List.eq_nil_or_concat p).resolve_left hp
  rw [List.concat_eq_append]
  constructor
  · exact remove_missing s.ordered
  · intro x hx
    obtain ⟨container, container', hparent, hremoved, hloses⟩ := remove_entry s.ordered hx
    exact ⟨parent, step, container, container', rfl, hparent, hremoved, hloses⟩
  · intro q step' step'' rest h
    exact remove_above s.ordered h
  · intro q
    exact remove_beside
  · intro hsome parent' i j rest heq hlt
    obtain ⟨rfl, hstep⟩ := List.append_inj' heq rfl
    obtain rfl := List.singleton_inj.mp hstep
    exact remove_behind hsome hlt rest

/-- Of three items the first is removed, and the second is where the first was. -/
theorem remove_exact_first :
    let s : Value Nat := .object [("a", .array [.number 1, .number 2, .number 3]), ("b", .null)]
    walk (remove s [.field "a", .index 0]) [.field "a", .index 0] = some (.number 2) :=
  (remove_exact ⟨_, by decide⟩ (by decide)).behind rfl [.field "a"] 0 1 [] rfl (by decide)

end Zizq.Json
