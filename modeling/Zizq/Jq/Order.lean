import Mathlib.Data.List.Lex
import Zizq.Data.Lex
import Zizq.Json.Value

/-! The order of jq.

`sort`, `unique` and the comparisons of jq go by one order on all values: null, false,
true, numbers, strings, arrays, objects. Arrays are compared item by item, objects by
their sorted keys first and then by their values, key by key. -/
namespace Zizq.Value
open Data
variable {ν : Type}

theorem members_ext {m m' : List (String × Value ν)} (hkeys : m.map Prod.fst = m'.map Prod.fst)
    (hvalues : m.map Prod.snd = m'.map Prod.snd) : m = m' := by
  rw [← List.zip_unzip m, ← List.zip_unzip m', List.unzip_eq_map, List.unzip_eq_map, hkeys, hvalues]

theorem forall_mem_values {m : List (String × Value ν)} {P : Value ν → Prop} (h : ∀ e ∈ m, P e.2) :
    ∀ v ∈ m.map Prod.snd, P v := by
  intro v hv
  obtain ⟨e, he, rfl⟩ := List.mem_map.mp hv
  exact h e he

def rank : Value ν → Nat
  | .null => 0
  | .bool _ => 1
  | .number _ => 2
  | .string _ => 3
  | .array _ => 4
  | .object _ => 5

variable [LinearOrder ν]

mutual
def cmp : Value ν → Value ν → Ordering
  | .bool a, .bool b => compare a b
  | .number a, .number b => compare a b
  | .string a, .string b => compare a b
  | .array xs, .array ys => cmpItems xs ys
  | .object m, .object m' =>
    ((m.map Prod.fst).compareLex compare (m'.map Prod.fst)).then (cmpMembers m m')
  | v, w => compare v.rank w.rank

def cmpItems : List (Value ν) → List (Value ν) → Ordering
  | [], [] => .eq
  | [], _ :: _ => .lt
  | _ :: _, [] => .gt
  | x :: xs, y :: ys => (x.cmp y).then (cmpItems xs ys)

/-- The values of two objects, in the order of their keys. -/
def cmpMembers : List (String × Value ν) → List (String × Value ν) → Ordering
  | [], [] => .eq
  | [], _ :: _ => .lt
  | _ :: _, [] => .gt
  | (_, v) :: m, (_, v') :: m' => (v.cmp v').then (cmpMembers m m')
end

theorem cmpItems_eq (xs ys : List (Value ν)) : cmpItems xs ys = xs.compareLex cmp ys := by
  induction xs generalizing ys with
  | nil => cases ys <;> rfl
  | cons x xs ih =>
    cases ys with
    | nil => rfl
    | cons y ys => rw [cmpItems, ih, List.compareLex_cons_cons]

theorem cmpMembers_eq (m m' : List (String × Value ν)) :
    cmpMembers m m' = (m.map Prod.snd).compareLex cmp (m'.map Prod.snd) := by
  induction m generalizing m' with
  | nil => cases m' <;> rfl
  | cons e m ih =>
    cases m' with
    | nil => rfl
    | cons e' m' => rw [cmpMembers, ih, List.map_cons, List.map_cons, List.compareLex_cons_cons]

theorem cmp_object (m m' : List (String × Value ν)) :
    cmp (.object m) (.object m') =
      ((m.map Prod.fst).compareLex compare (m'.map Prod.fst)).then
        ((m.map Prod.snd).compareLex cmp (m'.map Prod.snd)) := by
  rw [cmp, cmpMembers_eq]

/-- Values of different kinds are ordered by their kinds. -/
theorem cmp_of_rank {v w : Value ν} (h : v.rank ≠ w.rank) : cmp v w = compare v.rank w.rank := by
  cases v <;> cases w <;> first | rfl | exact absurd rfl h

theorem rank_le_of_cmp {v w : Value ν} (h : cmp v w = .lt) : v.rank ≤ w.rank := by
  by_cases hrank : v.rank = w.rank
  · exact hrank.le
  · rw [cmp_of_rank hrank, compare_lt_iff_lt] at h
    exact h.le

/-! ### Laws -/

theorem cmp_eq_iff_of {v : Value ν} (h : ∀ w, v.rank = w.rank → (cmp v w = .eq ↔ v = w)) (w : Value ν) :
    cmp v w = .eq ↔ v = w := by
  by_cases hrank : v.rank = w.rank
  · exact h w hrank
  · rw [cmp_of_rank hrank, compare_eq_iff_eq]
    exact ⟨fun heq => absurd heq hrank, fun heq => absurd (congrArg rank heq) hrank⟩

theorem cmp_eq_iff (v w : Value ν) : cmp v w = .eq ↔ v = w := by
  induction v generalizing w with
  | array xs ih =>
    refine cmp_eq_iff_of (fun w hrank => ?_) w
    cases w with
    | array ys => rw [cmp, cmpItems_eq, Lex.compareLex_eq_iff ih, Value.array.injEq]
    | _ => cases hrank
  | object m ih =>
    refine cmp_eq_iff_of (fun w hrank => ?_) w
    cases w with
    | object m' =>
      rw [cmp_object, Ordering.then_eq_eq, Lex.compareLex_eq_iff fun k _ k' => compare_eq_iff_eq,
        Lex.compareLex_eq_iff (forall_mem_values ih), Value.object.injEq]
      exact ⟨fun h => members_ext h.1 h.2, fun h => h ▸ ⟨rfl, rfl⟩⟩
    | _ => cases hrank
  | _ =>
    refine cmp_eq_iff_of (fun w hrank => ?_) w
    cases w <;> first | (cases hrank; done) | simp [cmp]

theorem cmp_swap_of {v : Value ν} (h : ∀ w, v.rank = w.rank → cmp w v = (cmp v w).swap) (w : Value ν) :
    cmp w v = (cmp v w).swap := by
  by_cases hrank : v.rank = w.rank
  · exact h w hrank
  · rw [cmp_of_rank hrank, cmp_of_rank (Ne.symm hrank), Std.OrientedOrd.eq_swap]

theorem cmp_swap (v w : Value ν) : cmp w v = (cmp v w).swap := by
  induction v generalizing w with
  | array xs ih =>
    refine cmp_swap_of (fun w hrank => ?_) w
    cases w with
    | array ys => rw [cmp, cmp, cmpItems_eq, cmpItems_eq, Lex.compareLex_swap ih]
    | _ => cases hrank
  | object m ih =>
    refine cmp_swap_of (fun w hrank => ?_) w
    cases w with
    | object m' =>
      rw [cmp_object, cmp_object, Ordering.swap_then,
        Lex.compareLex_swap fun k _ k' => Std.OrientedOrd.eq_swap,
        Lex.compareLex_swap (forall_mem_values ih)]
    | _ => cases hrank
  | _ =>
    refine cmp_swap_of (fun w hrank => ?_) w
    cases w <;> first | (cases hrank; done) | exact Std.OrientedOrd.eq_swap

theorem cmp_trans_of {v : Value ν}
    (h : ∀ w u, v.rank = w.rank → w.rank = u.rank → cmp v w = .lt → cmp w u = .lt → cmp v u = .lt)
    (w u : Value ν) (hvw : cmp v w = .lt) (hwu : cmp w u = .lt) : cmp v u = .lt := by
  have hrank := rank_le_of_cmp hvw
  have hrank' := rank_le_of_cmp hwu
  by_cases heq : v.rank = u.rank
  · exact h w u (by omega) (by omega) hvw hwu
  · rw [cmp_of_rank heq, compare_lt_iff_lt]
    omega

theorem cmp_trans (v w u : Value ν) (hvw : cmp v w = .lt) (hwu : cmp w u = .lt) : cmp v u = .lt := by
  induction v generalizing w u with
  | array xs ih =>
    refine cmp_trans_of (fun w u hrank hrank' hvw hwu => ?_) w u hvw hwu
    cases w with
    | array ys =>
      cases u with
      | array zs =>
        rw [cmp, cmpItems_eq] at hvw hwu ⊢
        exact Lex.compareLex_trans cmp_eq_iff ih hvw hwu
      | _ => cases hrank'
    | _ => cases hrank
  | object m ih =>
    refine cmp_trans_of (fun w u hrank hrank' hvw hwu => ?_) w u hvw hwu
    cases w with
    | object m' =>
      cases u with
      | object m'' =>
        rw [cmp_object] at hvw hwu ⊢
        refine Lex.then_trans (fun ks => Lex.compareLex_eq_iff fun k _ k' => compare_eq_iff_eq) ?_ ?_ hvw hwu
        · exact Lex.compareLex_trans (fun k k' => compare_eq_iff_eq) fun k _ k' k'' => Std.TransCmp.lt_trans
        · exact Lex.compareLex_trans cmp_eq_iff (forall_mem_values ih)
      | _ => cases hrank'
    | _ => cases hrank
  | null =>
    refine cmp_trans_of (fun w u hrank hrank' hvw hwu => ?_) w u hvw hwu
    cases w <;> first | (cases hrank; done) | cases hvw
  | _ =>
    refine cmp_trans_of (fun w u hrank hrank' hvw hwu => ?_) w u hvw hwu
    cases w <;> first | (cases hrank; done) | skip
    cases u <;> first | (cases hrank'; done) | skip
    rw [cmp] at hvw hwu ⊢
    exact Std.TransCmp.lt_trans hvw hwu

theorem cmp_le_trans {v w u : Value ν} (hvw : cmp v w ≠ .gt) (hwu : cmp w u ≠ .gt) : cmp v u ≠ .gt := by
  intro h
  have huv : cmp u v = .lt := by rw [cmp_swap v u, h]; rfl
  cases hcmp : cmp v w with
  | lt =>
    have := cmp_trans u v w huv hcmp
    exact hwu (by rw [cmp_swap u w, this]; rfl)
  | eq => exact hwu ((cmp_eq_iff v w).mp hcmp ▸ h)
  | gt => exact hvw hcmp

instance : LinearOrder (Value ν) where
  le v w := cmp v w ≠ .gt
  le_refl v := by
    rw [(cmp_eq_iff v v).mpr rfl]
    exact nofun
  le_trans v w u hvw hwu := cmp_le_trans hvw hwu
  le_antisymm v w hvw hwv := by
    rw [cmp_swap v w] at hwv
    refine (cmp_eq_iff v w).mp ?_
    cases hcmp : cmp v w <;> simp [hcmp] at hvw hwv ⊢
  le_total v w := by
    rw [cmp_swap v w]
    cases cmp v w <;> simp
  toDecidableLE v w := inferInstanceAs (Decidable (cmp v w ≠ .gt))

theorem number_le {a b : ν} : (number a : Value ν) ≤ number b ↔ a ≤ b := by
  show cmp (number a) (number b) ≠ .gt ↔ a ≤ b
  rw [cmp, Ne, compare_gt_iff_gt, not_lt]

end Zizq.Value
