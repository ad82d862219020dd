import Zizq.Json.Path

/-! JSON merge patches.

A patch that is an object is applied member by member: `null` removes the member, and
any other value is merged into what the target has there. Every other patch replaces
the target. So the children of a merged object are known one by one
(`child_mergePatch`). -/
namespace Zizq.Json
open Data Value
variable {ν : Type}

/-- The members that a patch is merged into; a target that is no object counts as empty. -/
def members : Value ν → List (String × Value ν)
  | .object m => m
  | _ => []

mutual
def mergePatch : Value ν → Value ν → Value ν
  | target, .object patch => .object (mergeMembers (members target) patch)
  | _, patch => patch

def mergeMembers : List (String × Value ν) → List (String × Value ν) → List (String × Value ν)
  | target, [] => target
  | target, (name, value) :: patch =>
    mergeMembers
      (if value.isNull then Assoc.erase name target
        else Assoc.insert name (mergePatch ((Assoc.get name target).getD .null) value) target) patch
end

theorem get_members (k : String) (v : Value ν) : Assoc.get k (members v) = child (.field k) v := by
  cases v <;> rfl

/-- What a member of the patch makes of the target's. -/
def merged (target : Option (Value ν)) : Option (Value ν) → Option (Value ν)
  | none => target
  | some v => if v.isNull then none else some (mergePatch (target.getD .null) v)

theorem get_mergeMembers (k : String) (target : List (String × Value ν)) {patch : List (String × Value ν)}
    (hpatch : Assoc.Sorted patch) :
    Assoc.get k (mergeMembers target patch) = merged (Assoc.get k target) (Assoc.get k patch) := by
  induction patch generalizing target with
  | nil => rfl
  | cons e patch ih =>
    obtain ⟨name, value⟩ := e
    obtain ⟨hfirst, hrest⟩ := List.pairwise_cons.mp hpatch
    rw [mergeMembers, ih _ hrest, Assoc.get_cons]
    by_cases hname : k = name
    · subst hname
      rw [if_pos rfl, Assoc.get_eq_none fun e he => (hfirst e he).ne]
      cases hnull : value.isNull <;> simp [merged, hnull]
    · rw [if_neg hname]
      congr 1
      cases hnull : value.isNull
      · exact Assoc.get_insert_ne _ _ hname
      · simp [Assoc.get_erase, hname]

theorem child_mergePatch (k : String) (target : Value ν) {patch : List (String × Value ν)}
    (hpatch : Assoc.Sorted patch) :
    child (.field k) (mergePatch target (.object patch)) =
      merged (child (.field k) target) (Assoc.get k patch) := by
  rw [mergePatch, ← get_members k target]
  exact get_mergeMembers k _ hpatch

end Zizq.Json
