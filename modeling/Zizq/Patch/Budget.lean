import Mathlib.Data.List.Induction
import Zizq.Json.Path
import Zizq.Patch.Field

/-! Budget strategies and the patch that changes one.

The setters of `BudgetPatch` share one nested patch. `strategy` replaces it and
states every field that the new strategy implies; the other setters add to it
whatever is there. So a `duration`, `burst` or `clear_burst` after a switch to
`while_in_flight` assembles what the server rejects (`compatible_iff`). -/
namespace Zizq.Patch
open Client Data Json

/-! ### Strategies -/

/-- `std::time::Duration`. -/
structure Duration where
  secs : UInt64
  nanos : UInt32
  nanos_lt : nanos < 1000000000

/-- Whole milliseconds, in a `u128`. -/
def Duration.asMillis (d : Duration) : Nat := d.secs.toNat * 1000 + d.nanos.toNat / 1000000

inductive BudgetStrategy where
  | timeBased (duration : Duration) (burst : Option UInt32)
  | whileInFlight
  | unknown (kind : String)

def BudgetStrategy.kind : BudgetStrategy → String
  | .timeBased .. => "time_based"
  | .whileInFlight => "while_in_flight"
  | .unknown kind => kind

/-! ### The patch -/

structure StrategyPatch where
  kind : Field String := .keep
  durationMs : Field UInt64 := .keep
  burst : Field UInt32 := .keep

structure BudgetPatch where
  allocation : Field UInt32 := .keep
  strategy : Field StrategyPatch := .keep

def StrategyPatch.serialize (patch : StrategyPatch) : Option (Datum Nat) := do
  let kind ← patch.kind.member "type" serializeString
  let durationMs ← patch.durationMs.member "duration_ms" serializeU64
  let burst ← patch.burst.member "burst" serializeU32
  return .struct "StrategyPatch" (kind ++ durationMs ++ burst)

namespace BudgetPatch

def serialize (patch : BudgetPatch) : Option (Datum Nat) := do
  let allocation ← patch.allocation.member "allocation" serializeU32
  let strategy ← patch.strategy.member "strategy" StrategyPatch.serialize
  return .struct "BudgetPatch" (allocation ++ strategy)

def setAllocation (allocation : UInt32) (patch : BudgetPatch) : BudgetPatch :=
  { patch with allocation := .set allocation }

def setStrategy (strategy : BudgetStrategy) (patch : BudgetPatch) : BudgetPatch :=
  { patch with
    strategy := .set <| match strategy with
      | .timeBased duration burst =>
        { kind := .set "time_based"
          durationMs := .set (UInt64.ofNat duration.asMillis)
          burst := match burst with
            | some burst => .set burst
            | none => .clear }
      -- neither a period nor a burst beside the new type
      | .whileInFlight => { kind := .set "while_in_flight" }
      | .unknown kind => { kind := .set kind } }

/-- The nested patch, promoted on first use; `none` for a cleared one, which is `unreachable!`. -/
def strategyMut (patch : BudgetPatch) : Option StrategyPatch :=
  match if patch.strategy.isKeep then .set {} else patch.strategy with
  | .set strategy => some strategy
  | _ => none

def setDuration (duration : Duration) (patch : BudgetPatch) : Option BudgetPatch :=
  patch.strategyMut.map fun strategy =>
    { patch with strategy := .set { strategy with durationMs := .set (UInt64.ofNat duration.asMillis) } }

def setBurst (burst : UInt32) (patch : BudgetPatch) : Option BudgetPatch :=
  patch.strategyMut.map fun strategy => { patch with strategy := .set { strategy with burst := .set burst } }

def clearBurst (patch : BudgetPatch) : Option BudgetPatch :=
  patch.strategyMut.map fun strategy => { patch with strategy := .set { strategy with burst := .clear } }

end BudgetPatch

/-! ### Setter calls -/

inductive PatchCall where
  | allocation (allocation : UInt32)
  | strategy (strategy : BudgetStrategy)
  | duration (duration : Duration)
  | burst (burst : UInt32)
  | clearBurst

def BudgetPatch.apply (patch : BudgetPatch) : PatchCall → Option BudgetPatch
  | .allocation allocation => some (patch.setAllocation allocation)
  | .strategy strategy => some (patch.setStrategy strategy)
  | .duration duration => patch.setDuration duration
  | .burst burst => patch.setBurst burst
  | .clearBurst => patch.clearBurst

/-- The patch that a chain of setters builds. -/
def assemble (calls : List PatchCall) : Option BudgetPatch := calls.foldlM BudgetPatch.apply {}

/-- The strategy that the call states, if it is a `strategy` call. -/
def PatchCall.strategy? : PatchCall → Option BudgetStrategy
  | .strategy s => some s
  | _ => none

/-- The call sets or clears a field that only a rate limit has. -/
def PatchCall.refines : PatchCall → Bool
  | .duration _ | .burst _ | .clearBurst => true
  | _ => false

/-- The strategy of the latest `strategy` call. -/
def lastStrategy (calls : List PatchCall) : Option BudgetStrategy :=
  calls.reverse.findSome? PatchCall.strategy?

/-- The calls after the latest `strategy` call, latest first. -/
def sinceStrategy (calls : List PatchCall) : List PatchCall :=
  calls.reverse.takeWhile fun call => call.strategy?.isNone

/-- The body names `while_in_flight` together with a duration or a burst, be it `null`. -/
def Rejected (body : Value Nat) : Prop :=
  walk body [.field "strategy", .field "type"] = some (.string "while_in_flight") ∧
    ((walk body [.field "strategy", .field "duration_ms"]).isSome ∨
      (walk body [.field "strategy", .field "burst"]).isSome)

/-! ### What is serialized -/

theorem StrategyPatch.serialize_eq (patch : StrategyPatch) :
    ∃ members, patch.serialize = some (.struct "StrategyPatch" members) ∧ (members.map Prod.fst).Nodup ∧
      Assoc.get "type" members = patch.kind.serialize serializeString ∧
      Assoc.get "duration_ms" members = patch.durationMs.serialize serializeU64 ∧
      Assoc.get "burst" members = patch.burst.serialize serializeU32 := by
  obtain ⟨kind, hkind⟩ := Field.member_isSome "type" serializeString_isSome patch.kind
  obtain ⟨durationMs, hduration⟩ := Field.member_isSome "duration_ms" serializeU64_isSome patch.durationMs
  obtain ⟨burst, hburst⟩ := Field.member_isSome "burst" serializeU32_isSome patch.burst
  refine ⟨kind ++ durationMs ++ burst, ?_, ?_, ?_⟩
  · rw [serialize, hkind, hduration, hburst]
    rfl
  · have hnames : ((kind ++ durationMs ++ burst).map Prod.fst).Sublist ["type", "duration_ms", "burst"] := by
      rw [List.map_append, List.map_append]
      exact ((Field.member_names hkind).append (Field.member_names hduration)).append
        (Field.member_names hburst)
    exact hnames.nodup (by decide)
  · simp [Assoc.get_append, Field.get_member hkind, Field.get_member hduration, Field.get_member hburst]

theorem StrategyPatch.serialize_isSome (patch : StrategyPatch) : patch.serialize.isSome := by
  obtain ⟨members, heq, -⟩ := patch.serialize_eq
  rw [heq]
  rfl

theorem BudgetPatch.serialize_eq (patch : BudgetPatch) :
    ∃ members, patch.serialize = some (.struct "BudgetPatch" members) ∧ (members.map Prod.fst).Nodup ∧
      Assoc.get "strategy" members = patch.strategy.serialize StrategyPatch.serialize := by
  obtain ⟨allocation, hallocation⟩ := Field.member_isSome "allocation" serializeU32_isSome patch.allocation
  obtain ⟨strategy, hstrategy⟩ := Field.member_isSome "strategy" StrategyPatch.serialize_isSome patch.strategy
  refine ⟨allocation ++ strategy, ?_, ?_, ?_⟩
  · rw [serialize, hallocation, hstrategy]
    rfl
  · have hnames : ((allocation ++ strategy).map Prod.fst).Sublist ["allocation", "strategy"] := by
      rw [List.map_append]
      exact (Field.member_names hallocation).append (Field.member_names hstrategy)
    exact hnames.nodup (by decide)
  · simp [Assoc.get_append, Field.get_member hallocation, Field.get_member hstrategy]

/-- The nested patch states the type of a concurrency limit, and sets or clears a field of a rate limit. -/
def StrategyPatch.Rejected (patch : StrategyPatch) : Prop :=
  patch.kind = .set "while_in_flight" ∧ (¬ patch.durationMs.isKeep ∨ ¬ patch.burst.isKeep)

/-- What the server finds under a member of the nested patch. -/
theorem walk_strategy (format : Format) {patch : BudgetPatch} {strategy : StrategyPatch}
    {datum : Datum Nat} (h : patch.serialize = some datum) (hfield : patch.strategy = .set strategy) :
    ∃ members, (∀ key, walk (wireValue format datum) [.field "strategy", .field key] =
        (Assoc.get key members).map (wireValue format)) ∧
      Assoc.get "type" members = strategy.kind.serialize serializeString ∧
      Assoc.get "duration_ms" members = strategy.durationMs.serialize serializeU64 ∧
      Assoc.get "burst" members = strategy.burst.serialize serializeU32 := by
  obtain ⟨outer, heq, houter, hstrategy⟩ := patch.serialize_eq
  obtain rfl := Option.some.inj (h.symm.trans heq)
  obtain ⟨inner, hinner, hnodup, hmembers⟩ := strategy.serialize_eq
  refine ⟨inner, fun key => ?_, hmembers⟩
  rw [hfield, Field.serialize, hinner] at hstrategy
  simp [walk, child, wireValue, get_wireMembers _ _ houter, hstrategy, get_wireMembers _ _ hnodup]

/-- The body names both exactly if the nested patch does. -/
theorem rejected_wireValue {format : Format} {patch : BudgetPatch} {datum : Datum Nat}
    (h : patch.serialize = some datum) :
    Rejected (wireValue format datum) ↔ ∃ strategy, patch.strategy = .set strategy ∧ strategy.Rejected := by
  cases hfield : patch.strategy with
  | set strategy =>
    obtain ⟨members, hwalk, htype, hduration, hburst⟩ := walk_strategy format h hfield
    have hkind : (strategy.kind.serialize serializeString).map (wireValue format) =
        some (.string "while_in_flight" : Value Nat) ↔ strategy.kind = .set "while_in_flight" := by
      cases strategy.kind <;> simp [Field.serialize, serializeString, wireValue]
    simp only [Rejected, hwalk, htype, hduration, hburst, hkind, Option.isSome_map,
      Field.serialize_isSome serializeU64_isSome, Field.serialize_isSome serializeU32_isSome,
      Field.set.injEq, exists_eq_left', StrategyPatch.Rejected]
  | _ =>
    obtain ⟨members, heq, hnodup, hstrategy⟩ := patch.serialize_eq
    obtain rfl := Option.some.inj (h.symm.trans heq)
    simp [Rejected, walk, child, wireValue, get_wireMembers _ _ hnodup, hstrategy, hfield, Field.serialize]

/-! ### What the setters keep -/

theorem lastStrategy_concat (calls : List PatchCall) (call : PatchCall) :
    lastStrategy (calls ++ [call]) = call.strategy?.or (lastStrategy calls) := by
  simp only [lastStrategy, List.reverse_append, List.reverse_cons, List.reverse_nil, List.nil_append,
    List.singleton_append, List.findSome?_cons]
  cases call.strategy? <;> rfl

theorem sinceStrategy_concat (calls : List PatchCall) (call : PatchCall) :
    sinceStrategy (calls ++ [call]) = if call.strategy?.isNone then call :: sinceStrategy calls else [] := by
  simp [sinceStrategy, List.takeWhile_cons]

/-- A setter of a strategy field after the latest `strategy` call. -/
def Refined (calls : List PatchCall) : Prop := ∃ call ∈ sinceStrategy calls, call.refines = true

/-- The nested patch names the latest strategy, and it carries a field of a rate limit if that strategy
is one or a setter has put it there. -/
structure Tracks (calls : List PatchCall) (strategy : StrategyPatch) : Prop where
  kind : strategy.kind = ((lastStrategy calls).elim .keep fun s => .set s.kind)
  fields : (¬ strategy.durationMs.isKeep ∨ ¬ strategy.burst.isKeep) ↔
    Refined calls ∨ ∃ duration burst, lastStrategy calls = some (.timeBased duration burst)

/-- The nested patch of what the calls build. -/
def Built (calls : List PatchCall) (patch : BudgetPatch) : Prop :=
  ∃ strategy, patch.strategyMut = some strategy ∧ Tracks calls strategy

theorem strategyMut_set {patch : BudgetPatch} {strategy : StrategyPatch}
    (h : patch.strategy = .set strategy) : patch.strategyMut = some strategy := by
  simp [BudgetPatch.strategyMut, h, Field.isKeep]

theorem built_initial : Built [] {} :=
  ⟨{}, rfl, rfl, by simp [Refined, sinceStrategy, lastStrategy, Field.isKeep]⟩

/-- A setter of a strategy field adds to the nested patch. -/
theorem tracks_refines {calls : List PatchCall} {call : PatchCall} {strategy strategy' : StrategyPatch}
    (htracks : Tracks calls strategy) (hcall : call.refines = true) (hkind : strategy'.kind = strategy.kind)
    (hfields : ¬ strategy'.durationMs.isKeep ∨ ¬ strategy'.burst.isKeep) :
    Tracks (calls ++ [call]) strategy' := by
  have hnone : call.strategy? = none := by cases call <;> simp_all [PatchCall.refines, PatchCall.strategy?]
  have hlast : lastStrategy (calls ++ [call]) = lastStrategy calls := by
    rw [lastStrategy_concat, hnone, Option.none_or]
  refine ⟨by rw [hkind, hlast, htracks.kind], iff_of_true hfields (.inl ⟨call, ?_, hcall⟩)⟩
  rw [sinceStrategy_concat, hnone]
  exact List.mem_cons_self

/-- The `strategy` setter states every field that the new strategy implies, and no other. -/
theorem built_strategy (calls : List PatchCall) (patch : BudgetPatch) (s : BudgetStrategy) :
    Built (calls ++ [.strategy s]) (patch.setStrategy s) := by
  have hlast : lastStrategy (calls ++ [.strategy s]) = some s := by rw [lastStrategy_concat]; rfl
  have hsince : sinceStrategy (calls ++ [.strategy s]) = [] := by rw [sinceStrategy_concat]; rfl
  refine ⟨_, strategyMut_set rfl, ?_, ?_⟩
  · rw [hlast]
    cases s <;> rfl
  · rw [Refined, hlast, hsince]
    cases s <;> simp [Field.isKeep]

theorem built_apply {calls : List PatchCall} {patch : BudgetPatch} (hbuilt : Built calls patch)
    (call : PatchCall) : ∃ patch', patch.apply call = some patch' ∧ Built (calls ++ [call]) patch' := by
  obtain ⟨strategy, hmut, htracks⟩ := hbuilt
  cases call with
  | allocation n =>
    have hsince : sinceStrategy (calls ++ [.allocation n]) = .allocation n :: sinceStrategy calls := by
      rw [sinceStrategy_concat]; rfl
    have hlast : lastStrategy (calls ++ [.allocation n]) = lastStrategy calls := by
      rw [lastStrategy_concat]; rfl
    refine ⟨_, rfl, strategy, hmut, by rw [hlast, htracks.kind], ?_⟩
    rw [htracks.fields, hlast, Refined, Refined, hsince, List.exists_mem_cons_iff]
    simp [PatchCall.refines]
  | strategy s => exact ⟨_, rfl, built_strategy calls patch s⟩
  | duration d =>
    refine ⟨_, by rw [BudgetPatch.apply, BudgetPatch.setDuration, hmut]; rfl, _, strategyMut_set rfl, ?_⟩
    exact tracks_refines htracks rfl rfl (.inl (by simp [Field.isKeep]))
  | burst n =>
    refine ⟨_, by rw [BudgetPatch.apply, BudgetPatch.setBurst, hmut]; rfl, _, strategyMut_set rfl, ?_⟩
    exact tracks_refines htracks rfl rfl (.inr (by simp [Field.isKeep]))
  | clearBurst =>
    refine ⟨_, by rw [BudgetPatch.apply, BudgetPatch.clearBurst, hmut]; rfl, _, strategyMut_set rfl, ?_⟩
    exact tracks_refines htracks rfl rfl (.inr (by simp [Field.isKeep]))

theorem assemble_concat {calls : List PatchCall} {patch : BudgetPatch} (h : assemble calls = some patch)
    (call : PatchCall) : assemble (calls ++ [call]) = patch.apply call := by
  rw [assemble] at h ⊢
  rw [List.foldlM_append, h]
  exact bind_pure (patch.apply call)

/-- No chain of setters panics. -/
theorem assemble_built (calls : List PatchCall) : ∃ patch, assemble calls = some patch ∧ Built calls patch := by
  induction calls using List.reverseRecOn with
  | nil => exact ⟨{}, rfl, built_initial⟩
  | append_singleton calls call ih =>
    obtain ⟨patch, hpatch, hbuilt⟩ := ih
    obtain ⟨patch', happly, hbuilt'⟩ := built_apply hbuilt call
    exact ⟨patch', (assemble_concat hpatch call).trans happly, hbuilt'⟩

/-! ### The main result -/

/-- No field of a rate limit is set or cleared after a switch to `while_in_flight`. -/
def Compatible (calls : List PatchCall) : Prop :=
  ∀ s, lastStrategy calls = some s → s.kind = "while_in_flight" → ¬ Refined calls

/-- The nested patch names both exactly if the calls are not compatible. -/
theorem Tracks.rejected_iff {calls : List PatchCall} {strategy : StrategyPatch} (h : Tracks calls strategy) :
    strategy.Rejected ↔ ¬ Compatible calls := by
  rw [StrategyPatch.Rejected, h.kind, h.fields]
  cases hlast : lastStrategy calls with
  | none => simp [Compatible, hlast]
  | some s =>
    have hcompatible : Compatible calls ↔ (s.kind = "while_in_flight" → ¬ Refined calls) := by
      simp [Compatible, hlast]
    rw [hcompatible, Classical.not_imp, not_not, Option.elim_some, Field.set.injEq]
    refine and_congr_right fun hkind => or_iff_left fun htimed => ?_
    obtain ⟨duration, burst, hs⟩ := htimed
    obtain rfl := Option.some.inj hs
    simp [BudgetStrategy.kind] at hkind

theorem Built.rejected_iff {calls : List PatchCall} {patch : BudgetPatch} (h : Built calls patch) :
    (∃ strategy, patch.strategy = .set strategy ∧ strategy.Rejected) ↔ ¬ Compatible calls := by
  obtain ⟨strategy, hmut, htracks⟩ := h
  rw [← htracks.rejected_iff]
  cases hfield : patch.strategy with
  | keep =>
    have hempty : strategy = {} := by simpa [BudgetPatch.strategyMut, hfield, Field.isKeep] using hmut.symm
    simp [hempty, StrategyPatch.Rejected]
  | clear => simp [BudgetPatch.strategyMut, hfield, Field.isKeep] at hmut
  | set s =>
    obtain rfl := Option.some.inj ((strategyMut_set hfield).symm.trans hmut)
    simp

/-- **Main theorem.** Every chain of setters builds a patch that serializes, and in either format the body
names `while_in_flight` together with a duration or a burst exactly when a setter of those fields comes
after a switch to `while_in_flight`. -/
theorem compatible_iff (format : Format) (calls : List PatchCall) :
    ∃ patch datum, assemble calls = some patch ∧ patch.serialize = some datum ∧
      (¬ Rejected (wireValue format datum) ↔ Compatible calls) := by
  obtain ⟨patch, hpatch, hbuilt⟩ := assemble_built calls
  obtain ⟨members, hdatum, -⟩ := patch.serialize_eq
  refine ⟨patch, _, hpatch, hdatum, ?_⟩
  rw [rejected_wireValue hdatum, hbuilt.rejected_iff, not_not]

/-- A duration after the switch stands in the body beside the new type. -/
theorem not_compatible_duration : ¬ ∀ (format : Format) (calls : List PatchCall) (patch : BudgetPatch)
    (datum : Datum Nat), assemble calls = some patch → patch.serialize = some datum →
      ¬ Rejected (wireValue format datum) := by
  intro h
  exact h .json [.strategy .whileInFlight, .duration ⟨60, 0, by decide⟩] _ _ rfl rfl ⟨rfl, .inl rfl⟩

end Zizq.Patch
