import Zizq.Client.CommaSet
import Zizq.Client.Range

/-! What a sequence of filter setters leaves in the request of a bulk operation.

The request has one pair for each axis that a setter was called on, and its text reads
back as the value of the last call (`bulk_selection`): a list as its words or names,
joined by commas, a range as its bounds, an instant as its milliseconds. So a request
without any filter pair comes from a builder that no filter setter was called on. -/
namespace Zizq.Client

/-! ### What a text stands for -/

/-- The status that a word of the API names. -/
def statusNamed : String → Option JobStatus
  | "ready" => some .ready
  | "in_flight" => some .inFlight
  | "scheduled" => some .scheduled
  | "completed" => some .completed
  | "dead" => some .dead
  | "unknown" => some .unknown
  | _ => none

/-- The milliseconds of an instant, counted down from `2 ^ 64` before the epoch. -/
def OffsetDateTime.millis (t : OffsetDateTime) : Nat :=
  (t.unixTimestampNanos.tdiv 1000000 % (2 ^ 64 : Nat)).toNat

/-- The text stands for the value that the call gives its axis. -/
def FilterCall.Holds (text : String) : FilterCall → Prop
  | .status statuses => (commaSet text).map statusNamed = statuses.map some
  | .queue names | .jobType names | .id names | .budgetsKey names => text = ",".intercalate names
  | .filter expr => text = expr
  | .priority range => readRange text.toList = some (range.interval UInt16.toNat)
  | .readyAt range => readRange text.toList = some (range.interval OffsetDateTime.millis)
  | .attempts range => readRange text.toList = some (range.interval UInt32.toNat)

/-- One pair for each axis that was set, and no other, with the value of its last call. -/
structure LastValues (calls : List FilterCall) (pairs : List (String × String)) : Prop where
  names : pairs.map Prod.fst = (Axis.all.filter fun axis => (lastCall axis calls).isSome).map Axis.name
  nodup : (pairs.map Prod.fst).Nodup
  holds : ∀ axis call, lastCall axis calls = some call → ∃ text, (axis.name, text) ∈ pairs ∧ call.Holds text

theorem statusNamed_asStr (status : JobStatus) : statusNamed status.asStr = some status := by
  cases status <;> rfl

theorem notMem_asStr (status : JobStatus) : ',' ∉ status.asStr.toList := by cases status <;> decide

theorem interval_toMsEpoch (range : RangeFilter OffsetDateTime) :
    range.interval (fun t => (toMsEpoch t).toNat) = range.interval OffsetDateTime.millis :=
  congrArg range.interval (funext toNat_toMsEpoch)

/-- The text that a setter's value is sent as stands for it. -/
theorem holds_value {call : FilterCall} (h : call.isEmpty = false) : call.Holds call.value := by
  cases call with
  | status statuses =>
    have hne : statuses.map JobStatus.asStr ≠ [] := by simpa [FilterCall.isEmpty] using h
    have hcomma : ∀ word ∈ statuses.map JobStatus.asStr, ',' ∉ word.toList := by
      intro word hword
      obtain ⟨status, -, rfl⟩ := List.mem_map.mp hword
      exact notMem_asStr status
    show (commaSet (",".intercalate (statuses.map JobStatus.asStr))).map statusNamed = statuses.map some
    rw [(commaSet_intercalate_iff hne).mpr hcomma, List.map_map]
    exact List.map_congr_left fun status _ => statusNamed_asStr status
  | queue | jobType | id | budgetsKey | filter => rfl
  | priority range => exact readRange_encode range UInt16.toNat
  | attempts range => exact readRange_encode range UInt32.toNat
  | readyAt range =>
    rw [FilterCall.Holds, ← interval_toMsEpoch]
    exact readRange_encode range fun t => (toMsEpoch t).toNat

theorem mem_lastPairs_iff {axis : Axis} {value : String} {calls : List FilterCall} :
    (axis.name, value) ∈ lastPairs calls ↔ ∃ call, lastCall axis calls = some call ∧ call.value = value := by
  simp only [lastPairs, List.mem_filterMap, Option.map_eq_some_iff, Prod.mk.injEq]
  constructor
  · intro h
    obtain ⟨axis', -, call, hcall, hname, hvalue⟩ := h
    obtain rfl := Axis.name_injective hname
    exact ⟨call, hcall, hvalue⟩
  · intro h
    obtain ⟨call, hcall, hvalue⟩ := h
    exact ⟨axis, Axis.mem_all axis, call, hcall, rfl, hvalue⟩

theorem lastPairs_names (calls : List FilterCall) : (lastPairs calls).map Prod.fst =
    (Axis.all.filter fun axis => (lastCall axis calls).isSome).map Axis.name := by
  rw [lastPairs, List.map_filterMap]
  induction Axis.all with
  | nil => rfl
  | cons axis axes ih =>
    rw [List.filterMap_cons, List.filter_cons, ih]
    cases lastCall axis calls <;> rfl

theorem lastValues_lastPairs {calls : List FilterCall} (h : ¬ Emptied calls) :
    LastValues calls (lastPairs calls) where
  names := lastPairs_names calls
  nodup := lastPairs_nodup calls
  holds axis call hcall := by
    have hempty : call.isEmpty = false := Bool.eq_false_iff.mpr fun hempty => h ⟨axis, call, hcall, hempty⟩
    exact ⟨call.value, mem_lastPairs_iff.mpr ⟨call, hcall, rfl⟩, holds_value hempty⟩

/-! ### The requests -/

section Builders
variable {J Patch Policy : Type}
variable (crate : UrlCrate) (codec : BulkCodec J Patch Policy) (base : AbsoluteUrl) (configured : Format)

theorem await_emptied (op : BulkOp Patch Policy) {calls : List FilterCall} (h : Emptied calls) :
    op.await crate codec base configured (JobFilter.build calls) = .ready op.nothing :=
  await_nothing crate codec base configured ((matchesNothing_build calls).mpr h) op

theorem await_calls (op : BulkOp Patch Policy) {calls : List FilterCall} (h : ¬ Emptied calls) :
    match op.refused codec configured with
    | some e => op.await crate codec base configured (JobFilter.build calls) = .ready (.error e)
    | none =>
      (op.await crate codec base configured (JobFilter.build calls)).Sends (op.paging ++ lastPairs calls) := by
  have hsends := await_something crate codec base configured
    (Bool.eq_false_iff.mpr fun hm => h ((matchesNothing_build calls).mp hm)) op
  rwa [appendTo_build h] at hsends

/-- A request that goes out has the pairs of the last calls, none of which emptied its axis. -/
theorem await_send {op : BulkOp Patch Policy} {calls : List FilterCall} {request : Request}
    {settle : Exchange → Except ZizqError (op.Result J)}
    (h : op.await crate codec base configured (JobFilter.build calls) = .send request settle) :
    ¬ Emptied calls ∧ request.target.pairs = op.paging ++ lastPairs calls := by
  have hemptied : ¬ Emptied calls := by
    intro hemptied
    cases (await_emptied crate codec base configured op hemptied).symm.trans h
  refine ⟨hemptied, ?_⟩
  have hsends := await_calls crate codec base configured op hemptied
  split at hsends
  · cases hsends.symm.trans h
  · obtain ⟨request', settle', hsend, hpairs⟩ := hsends
    obtain ⟨rfl, -⟩ := Awaited.send.inj (h.symm.trans hsend)
    exact hpairs

/-- **Main theorem.** For every bulk operation and every sequence of filter setters: after an empty list on
some axis no request is sent, and the result is the one on no job. Otherwise the request, unless its body
is refused, has one pair for each axis that was set, whose text stands for the last value; `has_params`
answers whether there is one, and without any no setter was called. -/
theorem bulk_selection (op : BulkOp Patch Policy) (calls : List FilterCall) :
    let filters := JobFilter.build calls
    let outcome := op.await crate codec base configured filters
    (Emptied calls → outcome = .ready op.nothing) ∧
      (¬ Emptied calls →
        match op.refused codec configured with
        | some e => outcome = .ready (.error e)
        | none => outcome.Sends (op.paging ++ lastPairs calls) ∧ LastValues calls (lastPairs calls)) ∧
      (filters.hasParams = true ↔ filters.appendTo ≠ []) ∧
      (outcome.Sends op.paging → calls = []) := by
  intro filters outcome
  refine ⟨await_emptied crate codec base configured op, fun h => ?_, filters.hasParams_iff, ?_⟩
  · have hsends := await_calls crate codec base configured op h
    cases hrefused : op.refused codec configured with
    | some e =>
      rw [hrefused] at hsends
      exact hsends
    | none =>
      rw [hrefused] at hsends
      exact ⟨hsends, lastValues_lastPairs h⟩
  · rintro ⟨request, settle, hsend, hpairs⟩
    obtain ⟨-, hlast⟩ := await_send crate codec base configured hsend
    rw [hlast, List.append_right_eq_self] at hpairs
    exact lastPairs_eq_nil.mp hpairs

end Builders

def bulkCodec : BulkCodec Unit Unit Unit where
  encodeIds _ _ := .ok []
  encodeFailure _ _ := .ok []
  decodeApiError _ _ := none
  decodeJob _ _ := .ok ()
  lossy _ := ""
  encodePatch _ _ := .ok []
  encodeBinding _ _ := .ok []
  encodeCost _ _ := .ok []
  decodePage _ _ := .ok .empty
  decodeCount _ _ := .ok 0
  decodeDeleted _ _ := .ok 0
  decodePatched _ _ := .ok 0
  decodeChange _ _ := .ok ⟨0, []⟩

/-- The first queue is not asked for in the end. -/
def urgent : List FilterCall :=
  [.queue ["low"], .priority (.atMost 10), .status [.dead, .inFlight], .queue ["high", "emails"],
    .readyAt (.bounded ⟨1500000000⟩ ⟨2000000000⟩), .attempts (.exact 3)]

theorem bulk_selection_urgent :
    let base : AbsoluteUrl := ⟨.http, "host", none, ⟨[[]], by decide⟩, none⟩
    ((BulkOp.delete : BulkOp Unit Unit).await urlStandard bulkCodec base .json (JobFilter.build urgent)).Sends
        [("status", "dead,in_flight"), ("queue", "high,emails"), ("priority", "..10"),
          ("ready_at", "1500..2000"), ("attempts", "3")] ∧
      (BulkOp.delete : BulkOp Unit Unit).await urlStandard bulkCodec base .json
        (JobFilter.build (.status [] :: urgent ++ [.jobType []])) = .ready (.ok (0 : UInt64)) := by
  intro base
  have hurgent : ¬ Emptied urgent := by
    rintro ⟨axis, call, hcall, hempty⟩
    cases axis <;> cases hcall <;> cases hempty
  exact ⟨((bulk_selection urlStandard bulkCodec base .json .delete urgent).2.1 hurgent).1,
    (bulk_selection urlStandard bulkCodec base .json .delete _).1 ⟨.jobType, .jobType [], rfl, rfl⟩⟩

end Zizq.Client
