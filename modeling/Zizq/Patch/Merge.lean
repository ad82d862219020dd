import Zizq.Json.Except
import Zizq.Json.MergePatch
import Zizq.Patch.Strategy

/-! A patched budget.

The server merges the patch into the stored budget and drops what a concurrency limit
cannot carry. A strategy set by `strategy` is read back from the result as it was,
whatever was stored and whatever earlier calls said (`strategy_replaced`): the wire
form of the new strategy is stated field by field, an unstated burst as `null`, or it
is one of which the decoder reads the name alone. -/
namespace Zizq.Patch
open Client Data Json

/-! ### The wire form in a document -/

namespace StrategyWire

def fields (wire : StrategyWire) : List (String × Datum Nat) :=
  [("type", .str wire.kind)] ++
    (wire.durationMs.map fun ms => ("duration_ms", .some (.number ms.toNat))).toList ++
    (wire.burst.map fun n => ("burst", .some (.number n.toNat))).toList

def serialize (wire : StrategyWire) : Datum Nat := .struct "StrategyWire" wire.fields

/-- An optional member that is a number below `bound`. -/
def optional (bound : Nat) : Option (Value Nat) → Option (Option Nat)
  | none | some .null => some none
  | some (.number n) => if n < bound then some (some n) else none
  | some _ => none

/-- The `Deserialize` impl on an object; `none` is an error. -/
def deserialize (value : Value Nat) : Option StrategyWire := do
  let .string kind ← child (.field "type") value | none
  let durationMs ← optional (2 ^ 64) (child (.field "duration_ms") value)
  let burst ← optional (2 ^ 32) (child (.field "burst") value)
  return ⟨kind, durationMs.map UInt64.ofNat, burst.map UInt32.ofNat⟩

end StrategyWire

/-- What the client makes of a budget's strategy. -/
def decodeStrategy (budget : Value Nat) : Option BudgetStrategy := do
  let strategy ← walk budget [.field "strategy"]
  let wire ← StrategyWire.deserialize strategy
  return .ofWire wire

/-! ### The server -/

def dropRate (strategy : Value Nat) : Value Nat :=
  deleteChild (.field "burst") (deleteChild (.field "duration_ms") strategy)

/-- The budget after the patch; a period and a burst go when the type becomes `while_in_flight`. -/
def serverPatch (budget patch : Value Nat) : Value Nat :=
  let budget := mergePatch budget patch
  if walk budget [.field "strategy", .field "type"] = some (.string "while_in_flight") then
    Json.modify dropRate [.field "strategy"] budget
  else budget

/-! ### Members of a strategy -/

/-- The value has the members of the wire form. -/
structure Holds (value : Value Nat) (wire : StrategyWire) : Prop where
  kind : child (.field "type") value = some (.string wire.kind)
  durationMs : child (.field "duration_ms") value = wire.durationMs.map fun ms => .number ms.toNat
  burst : child (.field "burst") value = wire.burst.map fun n => .number n.toNat

theorem Holds.deserialize {value : Value Nat} {wire : StrategyWire} (h : Holds value wire) :
    StrategyWire.deserialize value = some wire := by
  have hduration : StrategyWire.optional (2 ^ 64) (child (.field "duration_ms") value) =
      some (wire.durationMs.map UInt64.toNat) := by
    rw [h.durationMs]
    cases wire.durationMs with
    | none => rfl
    | some ms => exact if_pos ms.toNat_lt
  have hburst : StrategyWire.optional (2 ^ 32) (child (.field "burst") value) =
      some (wire.burst.map UInt32.toNat) := by
    rw [h.burst]
    cases wire.burst with
    | none => rfl
    | some n => exact if_pos n.toNat_lt
  rw [StrategyWire.deserialize, h.kind, hduration, hburst]
  obtain ⟨kind, durationMs, burst⟩ := wire
  cases durationMs <;> cases burst <;> simp

/-- What is stored holds its members. -/
theorem holds_serialize (format : Format) (wire : StrategyWire) :
    Holds (wireValue format wire.serialize) wire := by
  have hnodup : (wire.fields.map Prod.fst).Nodup := by
    rw [StrategyWire.fields]
    cases wire.durationMs <;> cases wire.burst <;> simp
  have hchild : ∀ k, child (.field k) (wireValue format wire.serialize) =
      (Assoc.get k wire.fields).map (wireValue format) := fun k => get_wireMembers format k hnodup
  obtain ⟨kind, durationMs, burst⟩ := wire
  constructor <;> rw [hchild, StrategyWire.fields] <;> cases durationMs <;> cases burst <;>
    simp [Assoc.get_cons, wireValue]

theorem Holds.dropRate {value : Value Nat} {wire : StrategyWire} (h : Holds value wire) :
    Holds (dropRate value) ⟨wire.kind, none, none⟩ := by
  constructor <;> simp [Patch.dropRate, child_deleteChild, h.kind]

/-! ### Merging -/

/-- What a field of the patch makes of the stored one. -/
def Field.apply {α : Type} (stored : Option α) : Field α → Option α
  | .keep => stored
  | .clear => none
  | .set v => some v

theorem merged_field {α : Type} {value : α → Option (Datum Nat)} {read : α → Value Nat} (format : Format)
    (hvalue : ∀ v, (value v).map (wireValue format) = some (read v)) (hnull : ∀ v, (read v).isNull = false)
    (hmerge : ∀ v target, mergePatch target (read v) = read v) (field : Field α) (stored : Option α) :
    merged (stored.map read) ((field.serialize value).map (wireValue format)) =
      (field.apply stored).map read := by
  cases field with
  | keep => rfl
  | clear => rfl
  | set v =>
    have hset : (Field.serialize value (.set v)).map (wireValue format) = some (read v) := by
      rw [← hvalue v, Field.serialize, Option.map_map]
      rfl
    simp [hset, merged, hnull v, hmerge v, Field.apply]

/-- The members of the patch under `strategy`, in the body that the server reads. -/
theorem wireValue_strategy (format : Format) {patch : BudgetPatch} {strategy : StrategyPatch}
    {datum : Datum Nat} (h : patch.serialize = some datum) (hfield : patch.strategy = .set strategy) :
    ∃ outer inner, wireValue format datum = .object outer ∧ Assoc.Sorted outer ∧
      Assoc.get "strategy" outer = some (.object inner) ∧ Assoc.Sorted inner ∧
      Assoc.get "type" inner = (strategy.kind.serialize serializeString).map (wireValue format) ∧
      Assoc.get "duration_ms" inner = (strategy.durationMs.serialize serializeU64).map (wireValue format) ∧
      Assoc.get "burst" inner = (strategy.burst.serialize serializeU32).map (wireValue format) := by
  obtain ⟨outer, heq, houter, hstrategy⟩ := patch.serialize_eq
  obtain rfl := Option.some.inj (h.symm.trans heq)
  obtain ⟨inner, hinner, hnodup, htype, hduration, hburst⟩ := strategy.serialize_eq
  refine ⟨_, ofMembers (wireMembers format inner), rfl, sorted_ofMembers _, ?_, sorted_ofMembers _, ?_, ?_, ?_⟩
  · rw [get_wireMembers format _ houter, hstrategy, hfield, Field.serialize, hinner]
    rfl
  · rw [get_wireMembers format _ hnodup, htype]
  · rw [get_wireMembers format _ hnodup, hduration]
  · rw [get_wireMembers format _ hnodup, hburst]

/-- A patched strategy holds the stored members with those of the patch in their place. -/
theorem holds_mergePatch (format : Format) {stored : Value Nat} {wire : StrategyWire}
    (hstored : Holds stored wire) {strategy : StrategyPatch} {kind : String}
    (hkind : strategy.kind = .set kind) {inner : List (String × Value Nat)} (hsorted : Assoc.Sorted inner)
    (htype : Assoc.get "type" inner = (strategy.kind.serialize serializeString).map (wireValue format))
    (hduration : Assoc.get "duration_ms" inner =
      (strategy.durationMs.serialize serializeU64).map (wireValue format))
    (hburst : Assoc.get "burst" inner = (strategy.burst.serialize serializeU32).map (wireValue format)) :
    Holds (mergePatch stored (.object inner))
      ⟨kind, strategy.durationMs.apply wire.durationMs, strategy.burst.apply wire.burst⟩ := by
  constructor
  · rw [child_mergePatch _ _ hsorted, hstored.kind, htype, hkind]
    rfl
  · rw [child_mergePatch _ _ hsorted, hstored.durationMs, hduration]
    exact merged_field format (fun _ => rfl) (fun _ => rfl) (fun _ _ => rfl) _ _
  · rw [child_mergePatch _ _ hsorted, hstored.burst, hburst]
    exact merged_field format (fun _ => rfl) (fun _ => rfl) (fun _ _ => rfl) _ _

/-! ### The main result -/

def PatchCall.touchesStrategy : PatchCall → Bool
  | .allocation _ => false
  | _ => true

/-- After a chain of setters whose last one on the strategy is `strategy`, the nested patch is what that
call has put there. -/
theorem assemble_lastStrategy {calls : List PatchCall} {s : BudgetStrategy}
    (hlast : (calls.filter PatchCall.touchesStrategy).getLast? = some (.strategy s)) :
    ∃ patch, assemble calls = some patch ∧ patch.strategy = (BudgetPatch.setStrategy s {}).strategy := by
  induction calls using List.reverseRecOn with
  | nil => cases hlast
  | append_singleton calls call ih =>
    rw [List.filter_append] at hlast
    cases call with
    | allocation n =>
      have hfilter : [PatchCall.allocation n].filter PatchCall.touchesStrategy = [] := rfl
      rw [hfilter, List.append_nil] at hlast
      obtain ⟨patch, hpatch, hstrategy⟩ := ih hlast
      exact ⟨patch.setAllocation n, assemble_concat hpatch _, hstrategy⟩
    | strategy s' =>
      have hfilter : [PatchCall.strategy s'].filter PatchCall.touchesStrategy = [.strategy s'] := rfl
      rw [hfilter, List.getLast?_concat] at hlast
      cases hlast
      obtain ⟨patch, hpatch, -⟩ := assemble_built calls
      exact ⟨patch.setStrategy s, assemble_concat hpatch _, rfl⟩
    | _ => simp [PatchCall.touchesStrategy] at hlast

/-- The server's result holds the merged members, without those of a rate limit beside the name of a
concurrency limit. -/
theorem holds_serverPatch {budget patch stored : Value Nat} {wire : StrategyWire}
    (hstrategy : walk (mergePatch budget patch) [.field "strategy"] = some stored) (hstored : Holds stored wire) :
    ∃ stored', walk (serverPatch budget patch) [.field "strategy"] = some stored' ∧
      Holds stored' (if wire.kind = "while_in_flight" then ⟨wire.kind, none, none⟩ else wire) := by
  have hchild : child (.field "strategy") (mergePatch budget patch) = some stored := by
    simpa [walk] using hstrategy
  have hwalk : walk (mergePatch budget patch) [.field "strategy", .field "type"] = some (.string wire.kind) := by
    simp [walk, hchild, hstored.kind]
  have hkind : walk (mergePatch budget patch) [.field "strategy", .field "type"] =
      some (.string "while_in_flight") ↔ wire.kind = "while_in_flight" := by
    rw [hwalk, Option.some_inj, Value.string.injEq]
  rw [serverPatch]
  split
  · next hheld =>
    rw [if_pos (hkind.mp hheld)]
    refine ⟨dropRate stored, ?_, hstored.dropRate⟩
    simp [walk, Json.modify, hchild, child_setChild hchild]
  · next hheld =>
    rw [if_neg fun h => hheld (hkind.mpr h)]
    exact ⟨stored, hstrategy, hstored⟩

/-- The decoder reads the new strategy off the merged wire form. -/
theorem ofWire_replaced {s : BudgetStrategy} (hplain : s.Plain) (hfits : s.Fits) {strategy : StrategyPatch}
    (hset : (BudgetPatch.setStrategy s {}).strategy = .set strategy) (wire : StrategyWire) :
    .ofWire (if s.kind = "while_in_flight" then ⟨s.kind, none, none⟩
      else ⟨s.kind, strategy.durationMs.apply wire.durationMs, strategy.burst.apply wire.burst⟩) = s := by
  cases s with
  | timeBased duration burst =>
    obtain rfl := Field.set.inj hset
    refine Eq.trans ?_ ((BudgetStrategy.ofWire_toWire_iff hplain).mpr hfits)
    cases burst <;> rfl
  | whileInFlight => rfl
  | unknown kind =>
    have hne : kind ≠ "while_in_flight" := hplain.2
    rw [BudgetStrategy.kind, if_neg hne]
    simp [BudgetStrategy.ofWire, hplain.1, hne]

/-- **Main theorem.** Whatever is stored and whatever earlier calls said, a strategy that `strategy` has
set last is what the client reads back from the patched budget. -/
theorem strategy_replaced (format : Format) {calls : List PatchCall} {s : BudgetStrategy}
    (hlast : (calls.filter PatchCall.touchesStrategy).getLast? = some (.strategy s)) (hplain : s.Plain)
    (hfits : s.Fits) {budget stored : Value Nat} {wire : StrategyWire}
    (hbudget : walk budget [.field "strategy"] = some stored) (hstored : Holds stored wire) :
    ∃ patch datum, assemble calls = some patch ∧ patch.serialize = some datum ∧
      decodeStrategy (serverPatch budget (wireValue format datum)) = some s := by
  obtain ⟨patch, hpatch, hfield⟩ := assemble_lastStrategy hlast
  obtain ⟨members, hdatum, -⟩ := patch.serialize_eq
  refine ⟨patch, _, hpatch, hdatum, ?_⟩
  obtain ⟨strategy, hset⟩ : ∃ strategy, (BudgetPatch.setStrategy s {}).strategy = .set strategy := ⟨_, rfl⟩
  obtain ⟨outer, inner, hvalue, houter, hget, hinner, htype, hduration, hburst⟩ :=
    wireValue_strategy format hdatum (hfield.trans hset)
  have hkind : strategy.kind = .set s.kind := by
    cases s <;> exact (Field.set.inj hset) ▸ rfl
  have hmerged := holds_mergePatch format hstored hkind hinner htype hduration hburst
  have hchild : child (.field "strategy") budget = some stored := by simpa [walk] using hbudget
  have hwalk : walk (mergePatch budget (wireValue format (.struct "BudgetPatch" members))) [.field "strategy"] =
      some (mergePatch stored (.object inner)) := by
    rw [hvalue, walk_cons, child_mergePatch _ _ houter, hchild, hget]
    rfl
  obtain ⟨stored', hstored', hholds⟩ := holds_serverPatch hwalk hmerged
  rw [decodeStrategy, hstored']
  simp only [Option.bind_eq_bind, Option.bind_some, hholds.deserialize, Option.pure_def, Option.some.injEq]
  exact ofWire_replaced hplain hfits hset wire

/-- A stored burst, and a burst set earlier, do not survive a rate without one. -/
theorem strategy_replaced_burst :
    let hourly : BudgetStrategy := .timeBased ⟨3600, 0, by decide⟩ none
    let stored := wireValue .json (StrategyWire.serialize ⟨"time_based", some 60000, some 500⟩)
    ∃ patch datum, assemble [.burst 7, .strategy hourly, .allocation 20000] = some patch ∧
      patch.serialize = some datum ∧
      decodeStrategy (serverPatch (.object [("strategy", stored)]) (wireValue .json datum)) = some hourly := by
  intro hourly stored
  have hplain : hourly.Plain := show 0 % 1000000 = 0 from rfl
  have hfits : hourly.Fits := show 3600000 < 2 ^ 64 by decide
  exact strategy_replaced .json rfl hplain hfits rfl (holds_serialize .json _)

end Zizq.Patch
