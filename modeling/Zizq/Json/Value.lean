import Mathlib.Data.String.Basic
import Zizq.Data.Assoc

/-! JSON values as `serde_json` holds them.

`Value` is the tree; numbers are a parameter, since nothing here computes with
them. `Map` is an ordered tree map: its entries come in increasing key order,
once each. `Value.ordered` says that of every object of a tree, and `Json` is a
tree that satisfies it, the only kind there is at run time. -/
namespace Zizq
open Data

inductive Value (ν : Type) where
  | null
  | bool (b : Bool)
  | number (n : ν)
  | string (s : String)
  | array (items : List (Value ν))
  | object (members : List (String × Value ν))

namespace Value
variable {ν : Type}

/-- Induction over the tree, with the hypothesis for every item and member. -/
@[elab_as_elim, induction_eliminator]
theorem induct {P : Value ν → Prop} (null : P .null) (bool : ∀ b, P (.bool b))
    (number : ∀ n, P (.number n)) (string : ∀ s, P (.string s))
    (array : ∀ xs, (∀ x ∈ xs, P x) → P (.array xs))
    (object : ∀ m, (∀ e ∈ m, P e.2) → P (.object m)) (v : Value ν) : P v :=
  @Value.rec _ P (fun xs => ∀ x ∈ xs, P x) (fun m => ∀ e ∈ m, P e.2) (fun e => P e.2)
    null bool number string array object
    (fun _ h => nomatch h)
    (fun _ _ hx hxs => List.forall_mem_cons.mpr ⟨hx, hxs⟩)
    (fun _ h => nomatch h)
    (fun _ _ he hm => List.forall_mem_cons.mpr ⟨he, hm⟩)
    (fun _ _ hv => hv) v

def isNull : Value ν → Bool
  | .null => true
  | _ => false

theorem isNull_iff {v : Value ν} : v.isNull = true ↔ v = .null := by
  cases v <;> simp [isNull]

/-! ### Well-formed trees -/

mutual
/-- Every object of the tree lists its members in increasing key order. -/
def ordered : Value ν → Bool
  | .array xs => orderedItems xs
  | .object m => decide (Assoc.Sorted m) && orderedMembers m
  | _ => true

def orderedItems : List (Value ν) → Bool
  | [] => true
  | x :: xs => x.ordered && orderedItems xs

def orderedMembers : List (String × Value ν) → Bool
  | [] => true
  | (_, v) :: m => v.ordered && orderedMembers m
end

theorem ordered_array {xs : List (Value ν)} :
    (array xs).ordered = true ↔ ∀ x ∈ xs, x.ordered = true := by
  rw [ordered]
  induction xs with
  | nil => simp [orderedItems]
  | cons x xs ih => simp [orderedItems, ih]

theorem ordered_object {m : List (String × Value ν)} :
    (object m).ordered = true ↔ Assoc.Sorted m ∧ ∀ e ∈ m, e.2.ordered = true := by
  have hm : orderedMembers m = true ↔ ∀ e ∈ m, e.2.ordered = true := by
    induction m with
    | nil => simp [orderedMembers]
    | cons e m ih => simp only [orderedMembers, Bool.and_eq_true, ih, List.forall_mem_cons]
  simp [ordered, hm]

theorem ordered_get {m : List (String × Value ν)} {k : String} {v : Value ν}
    (h : (object m).ordered = true) (hg : Assoc.get k m = some v) : v.ordered = true :=
  (ordered_object.mp h).2 _ (Assoc.mem_of_get hg)

theorem ordered_item {xs : List (Value ν)} {i : Nat} {v : Value ν}
    (h : (array xs).ordered = true) (hg : xs[i]? = some v) : v.ordered = true :=
  ordered_array.mp h v (List.mem_of_getElem? hg)

theorem ordered_insert {m : List (String × Value ν)} {k : String} {w : Value ν}
    (hw : w.ordered = true) (h : (object m).ordered = true) :
    (object (Assoc.insert k w m)).ordered = true := by
  obtain ⟨hsorted, hmembers⟩ := ordered_object.mp h
  refine ordered_object.mpr ⟨Assoc.sorted_insert k w hsorted, fun e he => ?_⟩
  rcases Assoc.mem_insert he with rfl | he
  · exact hw
  · exact hmembers e he

theorem ordered_set {xs : List (Value ν)} {i : Nat} {w : Value ν} (hw : w.ordered = true)
    (h : (array xs).ordered = true) : (array (xs.set i w)).ordered = true := by
  refine ordered_array.mpr fun x hx => ?_
  rcases List.mem_or_eq_of_mem_set hx with hx | rfl
  · exact ordered_array.mp h x hx
  · exact hw

/-! ### Decidable equality -/

section Equality
variable [DecidableEq ν]

mutual
def beq : Value ν → Value ν → Bool
  | .null, .null => true
  | .bool a, .bool b => a == b
  | .number a, .number b => a == b
  | .string a, .string b => a == b
  | .array xs, .array ys => beqItems xs ys
  | .object m, .object m' => beqMembers m m'
  | _, _ => false

def beqItems : List (Value ν) → List (Value ν) → Bool
  | [], [] => true
  | x :: xs, y :: ys => x.beq y && beqItems xs ys
  | _, _ => false

def beqMembers : List (String × Value ν) → List (String × Value ν) → Bool
  | [], [] => true
  | (k, v) :: m, (k', v') :: m' => k == k' && v.beq v' && beqMembers m m'
  | _, _ => false
end

theorem beq_iff {v w : Value ν} : v.beq w = true ↔ v = w := by
  induction v generalizing w with
  | null => cases w <;> simp [beq]
  | bool | number | string => cases w <;> simp [beq]
  | array xs ih =>
    cases w with
    | array ys =>
      rw [beq, Value.array.injEq]
      induction xs generalizing ys with
      | nil => cases ys <;> simp [beqItems]
      | cons x xs ihxs =>
        obtain ⟨hx, hxs⟩ := List.forall_mem_cons.mp ih
        cases ys with
        | nil => simp [beqItems]
        | cons y ys => rw [beqItems, Bool.and_eq_true, hx, ihxs hxs, List.cons.injEq]
    | _ => simp [beq]
  | object m ih =>
    cases w with
    | object m' =>
      rw [beq, Value.object.injEq]
      induction m generalizing m' with
      | nil => cases m' <;> simp [beqMembers]
      | cons e m ihm =>
        obtain ⟨he, hm⟩ := List.forall_mem_cons.mp ih
        cases m' with
        | nil => simp [beqMembers]
        | cons e' m' =>
          obtain ⟨k, v⟩ := e
          obtain ⟨k', v'⟩ := e'
          rw [beqMembers, Bool.and_eq_true, Bool.and_eq_true, he, ihm hm, beq_iff_eq,
            List.cons.injEq, Prod.mk.injEq]
    | _ => simp [beq]

instance : DecidableEq (Value ν) := fun _ _ => decidable_of_iff _ beq_iff

end Equality

/-! ### Nodes -/

/-- What a node is, apart from its children. -/
inductive Shape (ν : Type) where
  | null
  | bool (b : Bool)
  | number (n : ν)
  | string (s : String)
  | array (len : Nat)
  | object (keys : List String)

def shape : Value ν → Shape ν
  | .null => .null
  | .bool b => .bool b
  | .number n => .number n
  | .string s => .string s
  | .array xs => .array xs.length
  | .object m => .object (m.map Prod.fst)

end Value

/-- A JSON value: a tree whose objects are maps. -/
structure Json (ν : Type) where
  value : Value ν
  ordered : value.ordered = true

end Zizq
