import Mathlib.Data.List.Induction

/-! Records that are built by setters.

A call of a setter says how it leaves one field of a record, and touches no other. So
after any sequence of calls each field is as the last call on it says (`get_foldl`), and
two calls on different fields may be made in either order (`foldl_swap`). -/
namespace Zizq.Data.Setters
universe u v w x
variable {P : Type u} {C : Type v} {κ : Type w} {α : Type x} [DecidableEq κ]

/-- What the last call on the field says of it. -/
def last (field : C → κ) (change : C → α) (initial : α) (calls : List C) (k : κ) : α :=
  match calls.reverse.find? fun call => field call = k with
  | some call => change call
  | none => initial

/-- A call leaves its own field as it says, and every other one as it was. -/
def Lawful (get : P → κ → α) (apply : P → C → P) (field : C → κ) (change : C → α) : Prop :=
  ∀ p call k, get (apply p call) k = if field call = k then change call else get p k

theorem last_concat (field : C → κ) (change : C → α) (initial : α) (calls : List C) (call : C) (k : κ) :
    last field change initial (calls ++ [call]) k =
      if field call = k then change call else last field change initial calls k := by
  rw [last, List.reverse_append, List.reverse_singleton, List.singleton_append, List.find?_cons]
  by_cases h : field call = k
  · rw [if_pos h, decide_eq_true h]
  · rw [if_neg h, decide_eq_false h, last]

/-- What no call on the field says, and what is not so at first, is not said last. -/
theorem last_ne {field : C → κ} {change : C → α} {initial a : α} (hinitial : initial ≠ a) {k : κ}
    (h : ∀ call, field call = k → change call ≠ a) (calls : List C) :
    last field change initial calls k ≠ a := by
  induction calls using List.reverseRecOn with
  | nil => exact hinitial
  | append_singleton calls call ih =>
    rw [last_concat]
    split
    · next hk => exact h call hk
    · exact ih

namespace Lawful
variable {get : P → κ → α} {apply : P → C → P} {field : C → κ} {change : C → α}

theorem get_foldl (h : Lawful get apply field change) (p : P) (calls : List C) (k : κ) :
    get (calls.foldl apply p) k = last field change (get p k) calls k := by
  induction calls using List.reverseRecOn with
  | nil => rfl
  | append_singleton calls call ih =>
    rw [List.foldl_append, List.foldl_cons, List.foldl_nil, h, last_concat, ih]

theorem apply_comm (h : Lawful get apply field change) (hext : ∀ p q, (∀ k, get p k = get q k) → p = q)
    {a b : C} (hne : field a ≠ field b) (p : P) : apply (apply p a) b = apply (apply p b) a := by
  apply hext
  intro k
  rw [h, h, h, h]
  by_cases ha : field a = k
  · rw [if_neg fun hb => hne (ha.trans hb.symm), if_pos ha, if_pos ha]
  · rw [if_neg ha, if_neg ha]

theorem foldl_swap (h : Lawful get apply field change) (hext : ∀ p q, (∀ k, get p k = get q k) → p = q)
    {a b : C} (hne : field a ≠ field b) (before after : List C) (p : P) :
    (before ++ a :: b :: after).foldl apply p = (before ++ b :: a :: after).foldl apply p := by
  rw [List.foldl_append, List.foldl_append, List.foldl_cons, List.foldl_cons, List.foldl_cons, List.foldl_cons,
    h.apply_comm hext hne]

end Lawful

/-! ### Settings that a call may leave -/

/-- What the latest call decides, of those that decide anything. -/
def latest (change : C → Option α) (calls : List C) : Option α := calls.reverse.findSome? change

/-- A setting that each call decides or leaves is as the latest call on it decides. -/
theorem get_foldl_latest {get : P → Option α} {apply : P → C → P} {change : C → Option α}
    (h : ∀ p call, get (apply p call) = (change call <|> get p)) (p : P) (calls : List C) :
    get (calls.foldl apply p) = (latest change calls <|> get p) := by
  induction calls using List.reverseRecOn with
  | nil => rfl
  | append_singleton calls call ih =>
    rw [List.foldl_append, List.foldl_cons, List.foldl_nil, h, ih, latest, latest, List.reverse_append,
      List.reverse_singleton, List.singleton_append, List.findSome?_cons]
    cases change call <;> rfl

theorem get_foldl_of_none {get : P → Option α} {apply : P → C → P} {change : C → Option α}
    (h : ∀ p call, get (apply p call) = (change call <|> get p)) {p : P} (hnone : get p = none) (calls : List C) :
    get (calls.foldl apply p) = latest change calls := by
  rw [get_foldl_latest h, hnone]
  cases latest change calls <;> rfl

end Zizq.Data.Setters
