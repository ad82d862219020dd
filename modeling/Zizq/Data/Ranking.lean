import Mathlib.Algebra.GroupWithZero.Nat
import Mathlib.Data.List.Basic
import Zizq.Data.Transition

/-! Ranks of states.

A rank that goes down by the cost of each event, but for what the event gains, bounds how
much a run can cost (`run_rank`). Where from every state on the way a run leads on to one
of a smaller rank, some run leads to the goal (`run_reaches`). -/
namespace Zizq.Data.Transition
universe u v
variable {σ : Type u} {ε : Type v} {step : σ → ε → Option σ} {I : σ → Prop} {rank : σ → Nat}

theorem run_rank {cost gain : ε → Nat} (hkeep : ∀ s e s', I s → step s e = some s' → I s')
    (hstep : ∀ s e s', I s → step s e = some s' → rank s' + cost e ≤ rank s + gain e) {s t : σ} {es : List ε}
    (hr : run step s es = some t) (hs : I s) : rank t + (es.map cost).sum ≤ rank s + (es.map gain).sum := by
  induction es generalizing s with
  | nil =>
    obtain rfl := Option.some.inj hr
    exact Nat.le_refl _
  | cons e es ih =>
    obtain ⟨s', he, hrest⟩ := run_cons_eq_some.mp hr
    have hfirst := hstep s e s' hs he
    have hlater := ih hrest (hkeep s e s' hs he)
    rw [List.map_cons, List.sum_cons, List.map_cons, List.sum_cons]
    omega

theorem sum_map_if {α : Type*} (p : α → Bool) (n : Nat) (l : List α) :
    (l.map fun a => if p a then n else 0).sum = n * l.countP p := by
  induction l with
  | nil => rfl
  | cons a l ih =>
    rw [List.map_cons, List.sum_cons, List.countP_cons, ih]
    cases p a with
    | true => rw [if_pos rfl, if_pos rfl, Nat.mul_succ, Nat.add_comm]
    | false => rw [if_neg Bool.false_ne_true, if_neg Bool.false_ne_true, Nat.zero_add, Nat.add_zero]

theorem run_reaches {goal : σ → Prop} {allowed : ε → Prop}
    (hprogress : ∀ s, I s → ¬ goal s → ∃ es t, (∀ e ∈ es, allowed e) ∧ run step s es = some t ∧ I t ∧ rank t < rank s)
    {s : σ} (hs : I s) : ∃ es t, (∀ e ∈ es, allowed e) ∧ run step s es = some t ∧ I t ∧ goal t := by
  generalize hn : rank s = n
  induction n using Nat.strongRecOn generalizing s with
  | ind n ih =>
    by_cases hgoal : goal s
    · exact ⟨[], s, nofun, rfl, hs, hgoal⟩
    · obtain ⟨es, t, hes, hrun, ht, hlt⟩ := hprogress s hs hgoal
      obtain ⟨es', u, hes', hrun', hu, hgoal'⟩ := ih (rank t) (hn ▸ hlt) ht rfl
      refine ⟨es ++ es', u, fun e he => ?_, run_append_eq_some.mpr ⟨t, hrun, hrun'⟩, hu, hgoal'⟩
      exact (List.mem_append.mp he).elim (hes e) (hes' e)

end Zizq.Data.Transition
