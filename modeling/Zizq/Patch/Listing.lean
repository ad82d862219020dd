import Zizq.Client.Visitor
import Zizq.Patch.Merge

/-! Budgets as the client reads them.

`BudgetStrategy::Unknown` is there so that a strategy of a newer server fails neither its
budget nor the page the budget is on. But the wire form of a strategy is read with the
field types of the known ones, before its name is looked at: an unknown strategy is read
exactly if what it has under the names of those fields fits them (`tolerates_iff`). -/
namespace Zizq.Patch
open Client Data Json
variable {ν : Type}

structure Budget where
  key : String
  allocation : UInt32
  strategy : BudgetStrategy
  createdAt : UInt64
  updatedAt : UInt64

/-! ### The `Deserialize` impls -/

section Read
variable (natural : ν → Option Nat)

namespace StrategyWire

def visitMap (members : List (String × Value ν)) : Option StrategyWire := do
  let kind ← required readString "type" members
  let durationMs ← Client.optional (readU64 natural) "duration_ms" members
  let burst ← Client.optional (readU32 natural) "burst" members
  return ⟨kind, durationMs, burst⟩

def visitSeq : List (Value ν) → Option StrategyWire
  | [kind] => do return ⟨← readString kind, none, none⟩
  | [kind, durationMs] => do return ⟨← readString kind, ← readOption (readU64 natural) durationMs, none⟩
  | [kind, durationMs, burst] => do
    return ⟨← readString kind, ← readOption (readU64 natural) durationMs, ← readOption (readU32 natural) burst⟩
  | _ => none

def read : Value ν → Option StrategyWire
  | .object members => visitMap natural members
  | .array items => visitSeq natural items
  | _ => none

end StrategyWire

def BudgetStrategy.read (v : Value ν) : Option BudgetStrategy := (StrategyWire.read natural v).map .ofWire

namespace Budget

def visitMap (members : List (String × Value ν)) : Option Budget := do
  let key ← required readString "key" members
  let allocation ← required (readU32 natural) "allocation" members
  let strategy ← required (BudgetStrategy.read natural) "strategy" members
  let createdAt ← required (readU64 natural) "created_at" members
  let updatedAt ← required (readU64 natural) "updated_at" members
  return ⟨key, allocation, strategy, createdAt, updatedAt⟩

def visitSeq : List (Value ν) → Option Budget
  | [key, allocation, strategy, createdAt, updatedAt] => do
    return ⟨← readString key, ← readU32 natural allocation, ← BudgetStrategy.read natural strategy,
      ← readU64 natural createdAt, ← readU64 natural updatedAt⟩
  | _ => none

def read : Value ν → Option Budget
  | .object members => visitMap natural members
  | .array items => visitSeq natural items
  | _ => none

end Budget

/-- The budgets of a `ListBudgetsResponse`. -/
def listBudgets : Value ν → Option (List Budget)
  | .object members => required (readVec (Budget.read natural)) "budgets" members
  | .array [budgets] => readVec (Budget.read natural) budgets
  | _ => none

end Read

/-! ### On a JSON value -/

theorem optional_eq_get {α : Type} (bound : Nat) (f : Nat → α) (name : String)
    {members : List (String × Value Nat)} (h : (members.map Prod.fst).Nodup) :
    Client.optional (fun v => (readNatural some bound v).map f) name members =
      (StrategyWire.optional bound (Assoc.get name members)).map (Option.map f) := by
  rw [Client.optional, slot_eq, stated_eq_get h]
  cases Assoc.get name members with
  | none => rfl
  | some v =>
    cases v with
    | number n =>
      by_cases hlt : n < bound
      · simp [readOption, readNatural, StrategyWire.optional, hlt]
      · simp [readOption, readNatural, StrategyWire.optional, hlt, Nat.not_lt.mp hlt]
    | _ => rfl

/-- Under distinct names the visitor reads what is looked up. -/
theorem StrategyWire.read_eq_deserialize {members : List (String × Value Nat)}
    (h : (members.map Prod.fst).Nodup) : read some (.object members) = deserialize (.object members) := by
  have hduration : Client.optional (readU64 some) "duration_ms" members = _ := optional_eq_get _ _ _ h
  have hburst : Client.optional (readU32 some) "burst" members = _ := optional_eq_get _ _ _ h
  rw [read, visitMap, deserialize, hduration, hburst, required, slot_eq, stated_eq_get h]
  simp only [child]
  cases Assoc.get "type" members with
  | none => rfl
  | some v =>
    cases v with
    | string kind =>
      cases optional (2 ^ 64) (Assoc.get "duration_ms" members) <;>
        cases optional (2 ^ 32) (Assoc.get "burst" members) <;> rfl
    | _ => rfl

/-! ### What is to be tolerated -/

/-- Nothing is stated, or null, or a natural number below the bound, and that once. -/
def Fits (natural : ν → Option Nat) (bound : Nat) : List (Value ν) → Prop
  | [] => True
  | [.null] => True
  | [.number n] => ∃ k, natural n = some k ∧ k < bound
  | _ => False

/-- A budget with its strategy replaced. -/
inductive Renewed (strategy : Value ν) : Value ν → Value ν → Prop
  | same (v : Value ν) : Renewed strategy v v
  | renewed (before after : List (String × Value ν)) (other : Value ν) :
    Renewed strategy (.object (before ++ ("strategy", other) :: after))
      (.object (before ++ ("strategy", strategy) :: after))

/-- The object is read as an unknown strategy, and no budget and no page becomes unreadable by it. -/
structure Tolerates (natural : ν → Option Nat) (strategy : List (String × Value ν)) (kind : String) : Prop where
  unknown : BudgetStrategy.read natural (.object strategy) = some (.unknown kind)
  budget : ∀ before after other budget,
    Budget.read natural (.object (before ++ ("strategy", other) :: after)) = some budget →
    Budget.read natural (.object (before ++ ("strategy", .object strategy) :: after)) =
      some { budget with strategy := .unknown kind }
  page : ∀ before after items items' budgets, List.Forall₂ (Renewed (.object strategy)) items items' →
    listBudgets natural (.object (before ++ ("budgets", .array items) :: after)) = some budgets →
    ∃ budgets', listBudgets natural (.object (before ++ ("budgets", .array items') :: after)) = some budgets' ∧
      List.Forall₂ (fun b b' => b' = b ∨ b' = { b with strategy := .unknown kind }) budgets budgets'

/-! ### A strategy -/

section Unknown
variable {natural : ν → Option Nat}

theorem optional_isSome_iff {α : Type} (bound : Nat) (f : Nat → α) (name : String)
    (members : List (String × Value ν)) :
    (Client.optional (fun v => (readNatural natural bound v).map f) name members).isSome ↔
      Fits natural bound (stated name members) := by
  rw [Client.optional, slot_eq, Option.isSome_map]
  rcases stated name members with _ | ⟨v, _ | ⟨v', rest⟩⟩
  · simp [Fits]
  · cases v with
    | null => simp [readOption, Fits]
    | number n => cases h : natural n <;> simp [readOption, readNatural, Fits, h, Option.filter]
    | _ => simp [readOption, readNatural, Fits]
  · simp [Fits]

theorem read_unknown_iff {strategy : List (String × Value ν)} {kind : String}
    (htype : stated "type" strategy = [.string kind]) (hrate : kind ≠ "time_based")
    (hflight : kind ≠ "while_in_flight") :
    BudgetStrategy.read natural (.object strategy) = some (.unknown kind) ↔
      Fits natural (2 ^ 64) (stated "duration_ms" strategy) ∧ Fits natural (2 ^ 32) (stated "burst" strategy) := by
  have hkind : required readString "type" strategy = some kind :=
    (required_eq_some_iff readString "type").mpr ⟨_, htype, rfl⟩
  rw [← optional_isSome_iff (2 ^ 64) UInt64.ofNat, ← optional_isSome_iff (2 ^ 32) UInt32.ofNat]
  change (StrategyWire.visitMap natural strategy).map _ = _ ↔
    (Client.optional (readU64 natural) _ _).isSome ∧ (Client.optional (readU32 natural) _ _).isSome
  rw [StrategyWire.visitMap, hkind]
  cases Client.optional (readU64 natural) "duration_ms" strategy with
  | none => simp
  | some durationMs =>
    cases Client.optional (readU32 natural) "burst" strategy with
    | none => simp
    | some burst => simp [BudgetStrategy.ofWire, hrate, hflight]

/-! ### Budgets and pages -/

theorem Budget.visitMap_eq_some_iff {members : List (String × Value ν)} {budget : Budget} :
    Budget.visitMap natural members = some budget ↔
      required readString "key" members = some budget.key ∧
      required (readU32 natural) "allocation" members = some budget.allocation ∧
      required (BudgetStrategy.read natural) "strategy" members = some budget.strategy ∧
      required (readU64 natural) "created_at" members = some budget.createdAt ∧
      required (readU64 natural) "updated_at" members = some budget.updatedAt := by
  obtain ⟨key, allocation, strategy, createdAt, updatedAt⟩ := budget
  simp only [visitMap, Option.bind_eq_bind, Option.bind_eq_some_iff, Option.pure_def, Option.some.injEq, mk.injEq]
  constructor
  · intro h
    obtain ⟨_, hkey, _, hallocation, _, hstrategy, _, hcreated, _, hupdated, rfl, rfl, rfl, rfl, rfl⟩ := h
    exact ⟨hkey, hallocation, hstrategy, hcreated, hupdated⟩
  · intro h
    obtain ⟨hkey, hallocation, hstrategy, hcreated, hupdated⟩ := h
    exact ⟨_, hkey, _, hallocation, _, hstrategy, _, hcreated, _, hupdated, rfl, rfl, rfl, rfl, rfl⟩

variable {strategy : List (String × Value ν)} {kind : String}

/-- A budget with a strategy that is read has it in place of the other one. -/
theorem Budget.read_replace (hunknown : BudgetStrategy.read natural (.object strategy) = some (.unknown kind))
    {before after : List (String × Value ν)} {other : Value ν} {budget : Budget}
    (h : Budget.read natural (.object (before ++ ("strategy", other) :: after)) = some budget) :
    Budget.read natural (.object (before ++ ("strategy", .object strategy) :: after)) =
      some { budget with strategy := .unknown kind } := by
  obtain ⟨hkey, hallocation, hstrategy, hcreated, hupdated⟩ := visitMap_eq_some_iff.mp h
  obtain ⟨-, hreplaced⟩ := required_replace hstrategy
  refine visitMap_eq_some_iff.mpr ⟨?_, ?_, hreplaced _ _ hunknown, ?_, ?_⟩
  · exact (required_replace_ne (by decide) _ other).trans hkey
  · exact (required_replace_ne (by decide) _ other).trans hallocation
  · exact (required_replace_ne (by decide) _ other).trans hcreated
  · exact (required_replace_ne (by decide) _ other).trans hupdated

theorem listBudgets_replace (hunknown : BudgetStrategy.read natural (.object strategy) = some (.unknown kind))
    {before after : List (String × Value ν)} {items items' : List (Value ν)} {budgets : List Budget}
    (hitems : List.Forall₂ (Renewed (.object strategy)) items items')
    (h : listBudgets natural (.object (before ++ ("budgets", .array items) :: after)) = some budgets) :
    ∃ budgets', listBudgets natural (.object (before ++ ("budgets", .array items') :: after)) = some budgets' ∧
      List.Forall₂ (fun b b' => b' = b ∨ b' = { b with strategy := .unknown kind }) budgets budgets' := by
  obtain ⟨hread, hreplaced⟩ := required_replace h
  have hitem (v v' : Value ν) (b : Budget) (hv : Renewed (.object strategy) v v')
      (hb : Budget.read natural v = some b) :
      ∃ b', Budget.read natural v' = some b' ∧ (b' = b ∨ b' = { b with strategy := .unknown kind }) := by
    cases hv with
    | same => exact ⟨b, hb, .inl rfl⟩
    | renewed => exact ⟨_, Budget.read_replace hunknown hb, .inr rfl⟩
  obtain ⟨budgets', hbudgets', hall⟩ := mapM_forall₂ hitem hitems hread
  exact ⟨budgets', hreplaced _ _ hbudgets', hall⟩

end Unknown

/-! ### The main result -/

/-- **Main theorem.** A strategy of an unknown name is tolerated exactly if it has nothing under the names
`duration_ms` and `burst` that a rate limit could not have there. -/
theorem tolerates_iff (natural : ν → Option Nat) {strategy : List (String × Value ν)} {kind : String}
    (htype : stated "type" strategy = [.string kind]) (hrate : kind ≠ "time_based")
    (hflight : kind ≠ "while_in_flight") :
    Tolerates natural strategy kind ↔
      Fits natural (2 ^ 64) (stated "duration_ms" strategy) ∧ Fits natural (2 ^ 32) (stated "burst" strategy) := by
  rw [← read_unknown_iff htype hrate hflight]
  constructor
  · exact Tolerates.unknown
  · intro hunknown
    exact ⟨hunknown, fun _ _ _ _ => Budget.read_replace hunknown, fun _ _ _ _ _ => listBudgets_replace hunknown⟩

/-- A new strategy with a field of its own, and a period in milliseconds, is tolerated. -/
theorem tolerates_iff_window :
    Tolerates some [("type", .string "sliding_window"), ("duration_ms", .number 60000), ("buckets", .array [])]
      "sliding_window" :=
  (tolerates_iff some rfl (by decide) (by decide)).mpr ⟨⟨60000, rfl, by decide⟩, trivial⟩

/-- One that writes its period with a unit is an error, and so is a page with a budget under it. -/
theorem not_tolerates_period :
    let strategy : List (String × Value Nat) :=
      [("type", .string "sliding_window"), ("duration_ms", .string "60s")]
    stated "type" strategy = [.string "sliding_window"] ∧ ¬ Tolerates some strategy "sliding_window" ∧
      listBudgets some (.object [("budgets", .array [.object [("key", .string "emails"), ("allocation", .number 3),
        ("strategy", .object strategy), ("created_at", .number 0), ("updated_at", .number 0)]])]) = none := by
  refine ⟨rfl, fun h => ?_, by decide⟩
  have hread : BudgetStrategy.read some
      (.object [("type", .string "sliding_window"), ("duration_ms", .string "60s")]) = none := by decide
  rw [h.unknown] at hread
  cases hread

end Zizq.Patch
