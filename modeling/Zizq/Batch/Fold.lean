import Zizq.Batch.Template

/-! What the batch programs do.

For two payloads with an array at the path, `when` asks whether both arrays together
stay within the limit, and `fold` replaces the array in the existing payload by both of
them combined, as the mode says. -/
namespace Zizq.Batch
open Data Json Jq
variable {ν : Type} [LinearOrder ν]

/-- `zs` holds the items of both arrays, as the mode arranges them. -/
def FoldMode.Combines (mode : FoldMode) (xs ys zs : List (Value ν)) : Prop :=
  match mode with
  | .append => zs = xs ++ ys
  | .dedup => zs.Pairwise (· < ·) ∧ ∀ v, v ∈ zs ↔ v ∈ xs ∨ v ∈ ys
  | .sorted => zs.Pairwise (· ≤ ·) ∧ zs.Perm (xs ++ ys)

theorem FoldMode.Combines.mem {mode : FoldMode} {xs ys zs : List (Value ν)} (h : mode.Combines xs ys zs)
    (v : Value ν) : v ∈ zs ↔ v ∈ xs ∨ v ∈ ys := by
  cases mode with
  | append =>
    have hzs : zs = xs ++ ys := h
    rw [hzs, List.mem_append]
  | dedup => exact h.2 v
  | sorted => rw [h.2.mem_iff, List.mem_append]

theorem FoldMode.Combines.length_le {mode : FoldMode} {xs ys zs : List (Value ν)}
    (h : mode.Combines xs ys zs) : zs.length ≤ xs.length + ys.length := by
  rw [← List.length_append]
  cases mode with
  | append => exact (congrArg List.length h).le
  | dedup =>
    have hnodup : zs.Nodup := h.1.imp ne_of_lt
    exact (List.subperm_of_subset hnodup fun v hv => List.mem_append.mpr ((h.2 v).mp hv)).length_le
  | sorted => exact h.2.length_eq.le

section Meaning
variable {numbers : Numbers ν} {bound : Nat} (hnumbers : numbers.Exact bound) {path : PathText}
  (hpath : ∀ s ∈ path, s.Within bound)
include hnumbers hpath

theorem eval_access {vars : Env ν} {name : String} {v w : Value ν} (hname : vars name = some v)
    (h : walk v path.steps = some w) (input : Value ν) :
    eval numbers vars (accessExpr name path) input = some w := by
  rw [accessExpr, eval, eval, hname]
  exact eval_path hnumbers vars hpath h

variable {existing new : Json ν} {xs ys : List (Value ν)}
  (hxs : walk existing.value path.steps = some (.array xs))
  (hys : walk new.value path.steps = some (.array ys))
include hxs hys

theorem eval_when {limit : Nat} (hlimit : limit ≤ bound) (hlengths : xs.length + ys.length ≤ bound)
    (input : Value ν) :
    eval numbers (env existing new) (whenExpr path limit) input =
      some (.bool (decide (xs.length + ys.length ≤ limit))) := by
  have hsum : eval numbers (env existing new)
      (.binary .add (accessExpr "existing" path) (accessExpr "new" path)) input =
      some (.array (xs ++ ys)) := by
    rw [eval, eval_access hnumbers hpath rfl hxs, eval_access hnumbers hpath rfl hys]
    rfl
  rw [whenExpr, eval, hsum]
  show some (Value.bool (decide (Value.number (numbers.ofNat (xs ++ ys).length) ≤
    .number (numbers.ofNat limit)))) = _
  rw [← List.length_append] at hlengths ⊢
  simp only [Value.number_le, hnumbers.ofNat_le _ _ hlengths hlimit]

theorem eval_append (input : Value ν) :
    eval numbers (env existing new) (foldExpr path .append) input =
      some (modify (fun _ => .array (xs ++ ys)) path.steps existing.value) := by
  show eval numbers (env existing new) (.binary .plusAssign path.expr (accessExpr "new" path))
    existing.value = _
  rw [eval, eval_access hnumbers hpath rfl hys, pathOf_path hnumbers _ hpath]
  show (getpath path.steps existing.value).bind _ = _
  rw [getpath_walk hxs]
  exact setpath_walk hxs _

/-- The right side of the assignment is read against the existing payload. -/
theorem eval_assign {function : String} {combine : List (Value ν) → List (Value ν)}
    (hcall : ∀ zs, call numbers function (.array zs) = some (.array (combine zs))) (input : Value ν) :
    eval numbers (env existing new) (.binary .pipe (.var "existing") (assignExpr path function)) input =
      some (modify (fun _ => .array (combine (xs ++ ys))) path.steps existing.value) := by
  have hsum : eval numbers (env existing new) (.binary .add path.expr (accessExpr "new" path))
      existing.value = some (.array (xs ++ ys)) := by
    rw [eval, eval_path hnumbers _ hpath hxs, eval_access hnumbers hpath rfl hys]
    rfl
  have hvalue : eval numbers (env existing new)
      (.binary .pipe (.binary .add path.expr (accessExpr "new" path)) (.call function)) existing.value =
      some (.array (combine (xs ++ ys))) := by
    rw [eval, hsum]
    exact hcall _
  show eval numbers (env existing new) (assignExpr path function) existing.value = _
  rw [assignExpr, eval, hvalue, pathOf_path hnumbers _ hpath]
  exact setpath_walk hxs _

theorem eval_fold (mode : FoldMode) (input : Value ν) :
    ∃ zs, eval numbers (env existing new) (foldExpr path mode) input =
      some (modify (fun _ => .array zs) path.steps existing.value) ∧ mode.Combines xs ys zs := by
  cases mode with
  | append => exact ⟨xs ++ ys, eval_append hnumbers hpath hxs hys input, rfl⟩
  | dedup =>
    have hmem (v : Value ν) : v ∈ unique (xs ++ ys) ↔ v ∈ xs ∨ v ∈ ys := by
      rw [mem_unique, List.mem_append]
    exact ⟨unique (xs ++ ys), eval_assign hnumbers hpath hxs hys (fun _ => rfl) input, unique_sorted _, hmem⟩
  | sorted =>
    exact ⟨sort (xs ++ ys), eval_assign hnumbers hpath hxs hys (fun _ => rfl) input, sort_sorted _, sort_perm _⟩

end Meaning

/-- **Main theorem.** For every path, limit and mode, as far as jq counts exactly: `when` says whether the
two arrays together stay within the limit, and `fold` puts them, combined, where the existing one was and
changes nothing else. So a fold that `when` allows exceeds no limit, and no fold loses an item. -/
theorem keyedBy_folds {numbers : Numbers ν} {bound : Nat} (hnumbers : numbers.Exact bound) {path : PathText}
    (hpath : ∀ s ∈ path, s.Within bound) {limit : Nat} (hlimit : limit ≤ bound) (calls : List Call) (key : String)
    {existing new : Json ν} {xs ys : List (Value ν)} (hxs : walk existing.value path.steps = some (.array xs))
    (hys : walk new.value path.steps = some (.array ys)) (hlengths : xs.length + ys.length ≤ bound)
    (input : Value ν) :
    let config := (calls.foldl apply (BatchConfig.at path.text limit)).keyedBy key
    run numbers (env existing new) config.when input =
        some (.bool (decide (xs.length + ys.length ≤ limit))) ∧
      ∃ zs, run numbers (env existing new) config.fold input =
          some (modify (fun _ => .array zs) path.steps existing.value) ∧
        (modeOf calls).Combines xs ys zs ∧
        (xs.length + ys.length ≤ limit → zs.length ≤ limit) ∧ ∀ v, v ∈ zs ↔ v ∈ xs ∨ v ∈ ys := by
  intro config
  have hconfig : config = (BatchConfigAt.mk path.text limit (modeOf calls)).keyedBy key := by
    rw [← foldl_apply]
  constructor
  · rw [run, hconfig, lex_when]
    show (parse _).bind _ = _
    rw [parse_when]
    exact eval_when hnumbers hpath hxs hys hlimit hlengths input
  · obtain ⟨zs, hfold, hcombines⟩ := eval_fold hnumbers hpath hxs hys (modeOf calls) input
    refine ⟨zs, ?_, hcombines, fun hlimit => hcombines.length_le.trans hlimit, hcombines.mem⟩
    rw [run, hconfig, lex_fold]
    show (parse _).bind _ = _
    rw [parse_fold]
    exact hfold

/-- Numbers that are naturals. -/
def natNumbers : Numbers Nat := ⟨id, some, (· + ·), id⟩

theorem natNumbers_exact (bound : Nat) : natNumbers.Exact bound := ⟨fun _ _ _ _ => Iff.rfl, fun _ _ => rfl⟩

/-- `.deviceIds` -/
def deviceIds : PathText := [.name ⟨'d', "eviceIds".toList, rfl, rfl⟩]

example : deviceIds.text = ".deviceIds" := by decide

/-- `{"deviceIds":[2,1],"platform":"apple"}` -/
def queuedPush : Json Nat :=
  ⟨.object [("deviceIds", .array [.number 2, .number 1]), ("platform", .string "apple")], by decide⟩

/-- `{"deviceIds":[2,3],"platform":"apple"}` -/
def incomingPush : Json Nat :=
  ⟨.object [("deviceIds", .array [.number 2, .number 3]), ("platform", .string "apple")], by decide⟩

theorem keyedBy_folds_deviceIds :
    let config := (BatchConfig.at deviceIds.text 4).sorted.dedup.keyedBy "push:apple"
    run natNumbers (env queuedPush incomingPush) config.when .null = some (.bool true) ∧
      ∃ zs, run natNumbers (env queuedPush incomingPush) config.fold .null =
          some (.object [("deviceIds", .array zs), ("platform", .string "apple")]) ∧
        FoldMode.dedup.Combines [.number 2, .number 1] [.number 2, .number 3] zs ∧ zs.length ≤ 4 := by
  have hwithin : ∀ s ∈ deviceIds, s.Within 4 := by simp [deviceIds, StepText.Within]
  obtain ⟨hwhen, zs, hfold, hcombines, hlimit, -⟩ := keyedBy_folds (natNumbers_exact 4) hwithin (le_refl 4)
    [.sorted, .dedup] "push:apple"
    (rfl : walk queuedPush.value deviceIds.steps = some (.array [.number 2, .number 1]))
    (rfl : walk incomingPush.value deviceIds.steps = some (.array [.number 2, .number 3])) (by decide) .null
  exact ⟨hwhen, zs, hfold, hcombines, hlimit (by decide)⟩

end Zizq.Batch
