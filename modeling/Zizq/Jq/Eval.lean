import Mathlib.Data.List.Dedup
import Mathlib.Data.List.Sort
import Zizq.Jq.Order
import Zizq.Jq.Spelling

/-! The meaning of a jq program.

`eval` gives the output of an expression on an input, and none where jq raises an
error. A pipe hands its left output on as the input of its right side; every other
operator evaluates both sides on the input it has itself. So does an assignment, which
then writes at the path that its left side names. -/
namespace Zizq.Jq
open Data Json
variable {ν : Type}

/-- What jq needs of its numbers. -/
structure Numbers (ν : Type) where
  ofNat : Nat → ν
  toIndex : ν → Option Nat
  add : ν → ν → ν
  abs : ν → ν

/-- The naturals up to the bound are numbers of their own, as they are in a double up to `2 ^ 53`. -/
structure Numbers.Exact [LinearOrder ν] (numbers : Numbers ν) (bound : Nat) : Prop where
  ofNat_le : ∀ m n, m ≤ bound → n ≤ bound → (numbers.ofNat m ≤ numbers.ofNat n ↔ m ≤ n)
  toIndex_ofNat : ∀ n, n ≤ bound → numbers.toIndex (numbers.ofNat n) = some n

/-- The variables of a program. -/
abbrev Env (ν : Type) := String → Option (Value ν)

/-! ### Paths -/

/-- Null has every child, and all of them are null. -/
def get : PathStep → Value ν → Option (Value ν)
  | .field name, .object m => some ((Assoc.get name m).getD .null)
  | .index idx, .array xs => some (xs[idx]?.getD .null)
  | _, .null => some .null
  | _, _ => none

/-- The value with its child at `step` replaced or added. -/
def put (step : PathStep) (next v : Value ν) : Value ν :=
  putChild step next (if v.isNull then containerFor step else v)

def getpath : Path → Value ν → Option (Value ν)
  | [], v => some v
  | step :: path, v => (get step v).bind (getpath path)

def setpath : Path → Value ν → Value ν → Option (Value ν)
  | [], w, _ => some w
  | step :: path, w, v => do
    let next ← setpath path w (← get step v)
    return put step next v

theorem get_child {step : PathStep} {v w : Value ν} (h : child step v = some w) : get step v = some w := by
  cases step with
  | field name =>
    cases v with
    | object m =>
      have hget : Assoc.get name m = some w := h
      simp [get, hget]
    | _ => cases h
  | index idx =>
    cases v with
    | array xs =>
      have hget : xs[idx]? = some w := h
      simp [get, hget]
    | _ => cases h

theorem put_child {step : PathStep} {v w : Value ν} (h : child step v = some w) (next : Value ν) :
    put step next v = setChild step next v := by
  cases step with
  | field name =>
    cases v with
    | object m => rfl
    | _ => cases h
  | index idx =>
    cases v with
    | array xs =>
      have hlt := (List.getElem?_eq_some_iff.mp h).1
      have hpad : pad idx xs = xs := by
        rw [pad, Nat.sub_eq_zero_of_le hlt, List.replicate_zero, List.append_nil]
      show Value.array ((pad idx xs).set idx next) = .array (xs.set idx next)
      rw [hpad]
    | _ => cases h

theorem getpath_walk {path : Path} {v w : Value ν} (h : walk v path = some w) :
    getpath path v = some w := by
  induction path generalizing v with
  | nil => exact h
  | cons step path ih =>
    obtain ⟨next, hnext, hrest⟩ := Option.bind_eq_some_iff.mp h
    rw [getpath, get_child hnext]
    exact ih hrest

/-- Where the path leads to a value, only that value is replaced. -/
theorem setpath_walk {path : Path} {v old : Value ν} (h : walk v path = some old) (w : Value ν) :
    setpath path w v = some (modify (fun _ => w) path v) := by
  induction path generalizing v with
  | nil => rfl
  | cons step path ih =>
    obtain ⟨next, hnext, hrest⟩ := Option.bind_eq_some_iff.mp h
    simp only [setpath, get_child hnext, Json.modify, hnext]
    show (setpath path w next).bind _ = _
    rw [ih hrest]
    exact congrArg some (put_child hnext _)

/-! ### Values -/

/-- `+` -/
def add (numbers : Numbers ν) : Value ν → Value ν → Option (Value ν)
  | .null, w => some w
  | v, .null => some v
  | .number a, .number b => some (.number (numbers.add a b))
  | .string s, .string t => some (.string (s ++ t))
  | .array xs, .array ys => some (.array (xs ++ ys))
  | .object m, .object m' => some (.object (m'.foldl (fun m e => Assoc.insert e.1 e.2 m) m))
  | _, _ => none

def length (numbers : Numbers ν) : Value ν → Option (Value ν)
  | .null => some (.number (numbers.ofNat 0))
  | .bool _ => none
  | .number n => some (.number (numbers.abs n))
  | .string s => some (.number (numbers.ofNat s.length))
  | .array xs => some (.number (numbers.ofNat xs.length))
  | .object m => some (.number (numbers.ofNat m.length))

section Order
variable [LinearOrder ν]

def sort (xs : List (Value ν)) : List (Value ν) := xs.mergeSort fun v w => decide (v ≤ w)

def unique (xs : List (Value ν)) : List (Value ν) := (sort xs).dedup

theorem sort_perm (xs : List (Value ν)) : (sort xs).Perm xs := List.mergeSort_perm ..

theorem sort_sorted (xs : List (Value ν)) : (sort xs).Pairwise (· ≤ ·) :=
  List.pairwise_mergeSort' (· ≤ ·) xs

theorem unique_sorted (xs : List (Value ν)) : (unique xs).Pairwise (· < ·) := by
  have hle : (unique xs).Pairwise (· ≤ ·) := (sort_sorted xs).sublist (List.dedup_sublist _)
  have hne : (unique xs).Pairwise (· ≠ ·) := List.nodup_dedup _
  exact (hle.and hne).imp fun h => lt_of_le_of_ne h.1 h.2

theorem mem_unique {xs : List (Value ν)} {v : Value ν} : v ∈ unique xs ↔ v ∈ xs := by
  rw [unique, List.mem_dedup, (sort_perm xs).mem_iff]

/-- The functions without arguments. -/
def call (numbers : Numbers ν) : String → Value ν → Option (Value ν)
  | "length", v => length numbers v
  | "sort", .array xs => some (.array (sort xs))
  | "unique", .array xs => some (.array (unique xs))
  | _, _ => none

/-! ### Programs -/

/-- A string is the key of a member, a natural the index of an item. -/
def keyStep (numbers : Numbers ν) : Value ν → Option PathStep
  | .string s => some (.field s)
  | .number n => (numbers.toIndex n).map .index
  | _ => none

mutual
def eval (numbers : Numbers ν) (env : Env ν) : Expr → Value ν → Option (Value ν)
  | .identity, v => some v
  | .field e name, v => do get (.field name) (← eval numbers env e v)
  | .index e key, v => do
    let step ← keyStep numbers (← eval numbers env key v)
    get step (← eval numbers env e v)
  | .var name, _ => env name
  | .number n, _ => some (.number (numbers.ofNat n))
  | .string text, _ => some (.string text)
  | .call name, v => call numbers name v
  | .binary .pipe l r, v => do eval numbers env r (← eval numbers env l v)
  | .binary .add l r, v => do add numbers (← eval numbers env l v) (← eval numbers env r v)
  | .binary .le l r, v => do
    return .bool (decide ((← eval numbers env l v) ≤ (← eval numbers env r v)))
  | .binary .assign l r, v => do
    let w ← eval numbers env r v
    setpath (← pathOf numbers env l v) w v
  | .binary .plusAssign l r, v => do
    let w ← eval numbers env r v
    let path ← pathOf numbers env l v
    let sum ← add numbers (← getpath path v) w
    setpath path sum v

/-- The path that the left side of an assignment names. -/
def pathOf (numbers : Numbers ν) (env : Env ν) : Expr → Value ν → Option Path
  | .identity, _ => some []
  | .field e name, v => do return (← pathOf numbers env e v) ++ [.field name]
  | .index e key, v => do
    let step ← keyStep numbers (← eval numbers env key v)
    return (← pathOf numbers env e v) ++ [step]
  | .binary .pipe l r, v => do
    let path ← pathOf numbers env l v
    return path ++ (← pathOf numbers env r (← getpath path v))
  | _, _ => none
end

/-- A program, from its text, on an input. -/
def run (numbers : Numbers ν) (env : Env ν) (program : String) (input : Value ν) : Option (Value ν) := do
  let toks ← lex program.toList
  eval numbers env (← parse toks) input

/-! ### A spelled path in a program -/

section Spelled
variable {numbers : Numbers ν} {bound : Nat} (hnumbers : numbers.Exact bound) (env : Env ν)
include hnumbers

theorem eval_access {s : StepText} (hs : s.Within bound) (e : Expr) (v : Value ν) :
    eval numbers env (s.access e) v = (eval numbers env e v).bind (get s.step) := by
  cases s with
  | index d =>
    show (keyStep numbers (.number (numbers.ofNat d.value))).bind _ = _
    rw [keyStep, hnumbers.toIndex_ofNat _ hs]
    rfl
  | _ => rfl

theorem pathOf_access {s : StepText} (hs : s.Within bound) (e : Expr) (v : Value ν) :
    pathOf numbers env (s.access e) v = (pathOf numbers env e v).map (· ++ [s.step]) := by
  rw [Option.map_eq_bind]
  cases s with
  | index d =>
    show (keyStep numbers (.number (numbers.ofNat d.value))).bind _ = _
    rw [keyStep, hnumbers.toIndex_ofNat _ hs]
    rfl
  | _ => rfl

/-- A spelled path reads what is at the path that it spells. -/
theorem eval_path {path : PathText} (hpath : ∀ s ∈ path, s.Within bound) {v w : Value ν}
    (h : walk v path.steps = some w) : eval numbers env path.expr v = some w := by
  suffices hfold : ∀ (path : PathText) (e : Expr) (x : Value ν), (∀ s ∈ path, s.Within bound) →
      eval numbers env e v = some x → walk x path.steps = some w →
      eval numbers env (path.foldl (fun e s => s.access e) e) v = some w from
    hfold path .identity v hpath rfl h
  intro path
  induction path with
  | nil =>
    intro e x _ he hx
    rw [List.foldl_nil, he]
    exact hx
  | cons s path ih =>
    intro e x hpath he hx
    obtain ⟨hs, hpath⟩ := List.forall_mem_cons.mp hpath
    obtain ⟨next, hnext, hrest⟩ := Option.bind_eq_some_iff.mp hx
    refine ih (s.access e) next hpath ?_ hrest
    rw [eval_access hnumbers env hs, he]
    exact get_child hnext

/-- On the left of an assignment it names that path. -/
theorem pathOf_path {path : PathText} (hpath : ∀ s ∈ path, s.Within bound) (v : Value ν) :
    pathOf numbers env path.expr v = some path.steps := by
  suffices hfold : ∀ (path : PathText) (e : Expr) (p : Path), (∀ s ∈ path, s.Within bound) →
      pathOf numbers env e v = some p →
      pathOf numbers env (path.foldl (fun e s => s.access e) e) v = some (p ++ path.steps) from
    hfold path .identity [] hpath rfl
  intro path
  induction path with
  | nil =>
    intro e p _ he
    rw [List.foldl_nil, he, PathText.steps, List.map_nil, List.append_nil]
  | cons s path ih =>
    intro e p hpath he
    obtain ⟨hs, hpath⟩ := List.forall_mem_cons.mp hpath
    have hstep : pathOf numbers env (s.access e) v = some (p ++ [s.step]) := by
      rw [pathOf_access hnumbers env hs, he]
      rfl
    rw [List.foldl_cons, ih (s.access e) _ hpath hstep, List.append_assoc]
    rfl

end Spelled

end Order

end Zizq.Jq
