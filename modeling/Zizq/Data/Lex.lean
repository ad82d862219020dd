import Mathlib.Order.Compare
import Mathlib.Order.Defs.LinearOrder

/-! Lexicographic comparison.

`List.compareLex` compares two lists by a comparison of their items. Its laws are
stated for the items that occur, so that they serve in an induction over trees:
items that compare lawfully make lists that do. -/
namespace Zizq.Data.Lex
universe u
variable {α : Type u} {cmp : α → α → Ordering}

/-- Comparing first by one thing and then by another is transitive. -/
theorem then_trans (heq : ∀ x y, cmp x y = .eq ↔ x = y) {x y z : α} {o o' o'' : Ordering}
    (h : cmp x y = .lt → cmp y z = .lt → cmp x z = .lt) (ho : o = .lt → o' = .lt → o'' = .lt)
    (hxy : (cmp x y).then o = .lt) (hyz : (cmp y z).then o' = .lt) :
    (cmp x z).then o'' = .lt := by
  rw [Ordering.then_eq_lt] at hxy hyz ⊢
  rcases hxy with hxy | ⟨hxy, ho₁⟩
  · rcases hyz with hyz | ⟨hyz, -⟩
    · exact .inl (h hxy hyz)
    · exact .inl ((heq y z).mp hyz ▸ hxy)
  · obtain rfl := (heq x y).mp hxy
    rcases hyz with hyz | ⟨hyz, ho₂⟩
    · exact .inl hyz
    · exact .inr ⟨hyz, ho ho₁ ho₂⟩

theorem compareLex_eq_iff {xs : List α} (h : ∀ x ∈ xs, ∀ y, cmp x y = .eq ↔ x = y) (ys : List α) :
    xs.compareLex cmp ys = .eq ↔ xs = ys := by
  induction xs generalizing ys with
  | nil => cases ys <;> simp [List.compareLex]
  | cons x xs ih =>
    obtain ⟨hx, hxs⟩ := List.forall_mem_cons.mp h
    cases ys with
    | nil => simp [List.compareLex]
    | cons y ys => simp [List.compareLex_cons_cons, Ordering.then_eq_eq, hx, ih hxs]

theorem compareLex_swap {xs : List α} (h : ∀ x ∈ xs, ∀ y, cmp y x = (cmp x y).swap) (ys : List α) :
    ys.compareLex cmp xs = (xs.compareLex cmp ys).swap := by
  induction xs generalizing ys with
  | nil => cases ys <;> rfl
  | cons x xs ih =>
    obtain ⟨hx, hxs⟩ := List.forall_mem_cons.mp h
    cases ys with
    | nil => rfl
    | cons y ys =>
      rw [List.compareLex_cons_cons, List.compareLex_cons_cons, hx, ih hxs, Ordering.swap_then]

theorem compareLex_trans (heq : ∀ x y, cmp x y = .eq ↔ x = y) {xs : List α}
    (h : ∀ x ∈ xs, ∀ y z, cmp x y = .lt → cmp y z = .lt → cmp x z = .lt) {ys zs : List α}
    (hxy : xs.compareLex cmp ys = .lt) (hyz : ys.compareLex cmp zs = .lt) :
    xs.compareLex cmp zs = .lt := by
  induction xs generalizing ys zs with
  | nil =>
    cases zs with
    | nil =>
      cases ys with
      | nil => exact hyz
      | cons y ys => cases hyz
    | cons z zs => rfl
  | cons x xs ih =>
    obtain ⟨hx, hxs⟩ := List.forall_mem_cons.mp h
    cases ys with
    | nil => cases hxy
    | cons y ys =>
      cases zs with
      | nil => cases hyz
      | cons z zs =>
        rw [List.compareLex_cons_cons] at hxy hyz ⊢
        exact then_trans heq (hx y z) (ih hxs) hxy hyz

end Zizq.Data.Lex
