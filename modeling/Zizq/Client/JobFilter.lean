import Mathlib.Data.String.Basic
import Mathlib.Data.List.Nodup
import Zizq.Data.Setters

/-! The job-selection filter that the bulk endpoints share.

`matches_nothing`, `has_params` and `append_to` each list the nine axes by hand, and
so do the setters. What they agree on is said once, axis by axis: a filter is
determined by the call that last set each axis (`get_apply`), and the three functions
are functions of those calls. -/
namespace Zizq.Client

inductive JobStatus where
  | ready | inFlight | scheduled | completed | dead | unknown
deriving DecidableEq

def JobStatus.asStr : JobStatus → String
  | .ready => "ready"
  | .inFlight => "in_flight"
  | .scheduled => "scheduled"
  | .completed => "completed"
  | .dead => "dead"
  | .unknown => "unknown"

inductive RangeFilter (α : Type) where
  | exact (v : α)
  | bounded (a b : α)
  | atLeast (a : α)
  | atMost (b : α)
  | unbounded

def RangeFilter.encode {α : Type} (toStr : α → String) : RangeFilter α → String
  | .exact v => toStr v
  | .bounded a b => toStr a ++ ".." ++ toStr b
  | .atLeast a => toStr a ++ ".."
  | .atMost b => ".." ++ toStr b
  | .unbounded => ".."

/-- A point in time, by its nanoseconds since the Unix epoch. -/
structure OffsetDateTime where
  unixTimestampNanos : Int

/-- Whole milliseconds, rounded towards the epoch, `as u64`. -/
def toMsEpoch (t : OffsetDateTime) : UInt64 := UInt64.ofInt (t.unixTimestampNanos.tdiv 1000000)

structure JobFilter where
  status : Option (List JobStatus) := none
  queue : Option (List String) := none
  jobType : Option (List String) := none
  id : Option (List String) := none
  jq : Option String := none
  priority : Option (RangeFilter UInt16) := none
  readyAt : Option (RangeFilter OffsetDateTime) := none
  attempts : Option (RangeFilter UInt32) := none
  budgetsKey : Option (List String) := none

section Lists
variable {α : Type}

def isExplicitlyEmpty : Option (List α) → Bool
  | some v => v.isEmpty
  | none => false

def isPresent : Option (List α) → Bool
  | some v => !v.isEmpty
  | none => false

/-- The pair of a list filter, comma-delimited; none for an unset and for an empty one. -/
def listPair (name : String) (text : α → String) (opt : Option (List α)) : List (String × String) :=
  match opt.filter fun v => !v.isEmpty with
  | some v => [(name, ",".intercalate (v.map text))]
  | none => []

@[simp] theorem listPair_none (name : String) (text : α → String) : listPair name text none = [] := rfl

@[simp] theorem listPair_nil (name : String) (text : α → String) : listPair name text (some []) = [] := rfl

@[simp] theorem listPair_cons (name : String) (text : α → String) (x : α) (xs : List α) :
    listPair name text (some (x :: xs)) = [(name, ",".intercalate ((x :: xs).map text))] := rfl

def valuePair (name : String) (text : α → String) (opt : Option α) : List (String × String) :=
  match opt with
  | some v => [(name, text v)]
  | none => []

end Lists

namespace JobFilter

def matchesNothing (filters : JobFilter) : Bool :=
  isExplicitlyEmpty filters.status || isExplicitlyEmpty filters.queue ||
    isExplicitlyEmpty filters.jobType || isExplicitlyEmpty filters.id ||
    isExplicitlyEmpty filters.budgetsKey

def hasParams (filters : JobFilter) : Bool :=
  isPresent filters.status || isPresent filters.queue || isPresent filters.jobType ||
    isPresent filters.id || isPresent filters.budgetsKey || filters.jq.isSome ||
    filters.priority.isSome || filters.readyAt.isSome || filters.attempts.isSome

/-- The pairs that `append_to` appends, in its order. -/
def appendTo (filters : JobFilter) : List (String × String) :=
  listPair "status" JobStatus.asStr filters.status ++
  listPair "queue" (fun s => s) filters.queue ++
  listPair "type" (fun s => s) filters.jobType ++
  listPair "id" (fun s => s) filters.id ++
  listPair "budgets.key" (fun s => s) filters.budgetsKey ++
  valuePair "filter" (fun s => s) filters.jq ++
  valuePair "priority" (RangeFilter.encode fun v => toString v.toNat) filters.priority ++
  valuePair "ready_at" (RangeFilter.encode fun t => toString (toMsEpoch t).toNat) filters.readyAt ++
  valuePair "attempts" (RangeFilter.encode fun v => toString v.toNat) filters.attempts

end JobFilter

/-! ### Setters -/

/-- A call of a setter that `job_filter_setters!` generates. -/
inductive FilterCall where
  | status (statuses : List JobStatus)
  | queue (queues : List String)
  | jobType (types : List String)
  | id (ids : List String)
  | budgetsKey (keys : List String)
  | filter (expr : String)
  | priority (range : RangeFilter UInt16)
  | readyAt (range : RangeFilter OffsetDateTime)
  | attempts (range : RangeFilter UInt32)

def JobFilter.apply (filters : JobFilter) : FilterCall → JobFilter
  | .status statuses => { filters with status := some statuses }
  | .queue queues => { filters with queue := some queues }
  | .jobType types => { filters with jobType := some types }
  | .id ids => { filters with id := some ids }
  | .budgetsKey keys => { filters with budgetsKey := some keys }
  | .filter expr => { filters with jq := some expr }
  | .priority range => { filters with priority := some range }
  | .readyAt range => { filters with readyAt := some range }
  | .attempts range => { filters with attempts := some range }

def JobFilter.build (calls : List FilterCall) : JobFilter := calls.foldl JobFilter.apply {}

/-! ### Axes -/

inductive Axis where
  | status | queue | jobType | id | budgetsKey | filter | priority | readyAt | attempts
deriving DecidableEq

namespace Axis

/-- Its parameter on the wire. -/
def name : Axis → String
  | .status => "status"
  | .queue => "queue"
  | .jobType => "type"
  | .id => "id"
  | .budgetsKey => "budgets.key"
  | .filter => "filter"
  | .priority => "priority"
  | .readyAt => "ready_at"
  | .attempts => "attempts"

def all : List Axis :=
  [.status, .queue, .jobType, .id, .budgetsKey, .filter, .priority, .readyAt, .attempts]

theorem mem_all (axis : Axis) : axis ∈ all := by cases axis <;> decide

theorem all_nodup : all.Nodup := by decide

theorem name_injective : name.Injective := by
  intro axis axis' h
  cases axis <;> cases axis' <;> first | rfl | exact absurd h (by decide)

end Axis

namespace FilterCall

def axis : FilterCall → Axis
  | .status _ => .status
  | .queue _ => .queue
  | .jobType _ => .jobType
  | .id _ => .id
  | .budgetsKey _ => .budgetsKey
  | .filter _ => .filter
  | .priority _ => .priority
  | .readyAt _ => .readyAt
  | .attempts _ => .attempts

/-- A list axis is given an empty iterator. -/
def isEmpty : FilterCall → Bool
  | .status statuses => statuses.isEmpty
  | .queue names | .jobType names | .id names | .budgetsKey names => names.isEmpty
  | _ => false

/-- The text of the value. -/
def value : FilterCall → String
  | .status statuses => ",".intercalate (statuses.map JobStatus.asStr)
  | .queue names | .jobType names | .id names | .budgetsKey names => ",".intercalate names
  | .filter expr => expr
  | .priority range => range.encode fun v => toString v.toNat
  | .readyAt range => range.encode fun t => toString (toMsEpoch t).toNat
  | .attempts range => range.encode fun v => toString v.toNat

/-- The pair that the axis is left with after the call. -/
def pair (call : FilterCall) : Option (String × String) :=
  if call.isEmpty then none else some (call.axis.name, call.value)

end FilterCall

/-- The call that set the axis as it is. -/
def JobFilter.get (filters : JobFilter) : Axis → Option FilterCall
  | .status => filters.status.map .status
  | .queue => filters.queue.map .queue
  | .jobType => filters.jobType.map .jobType
  | .id => filters.id.map .id
  | .budgetsKey => filters.budgetsKey.map .budgetsKey
  | .filter => filters.jq.map .filter
  | .priority => filters.priority.map .priority
  | .readyAt => filters.readyAt.map .readyAt
  | .attempts => filters.attempts.map .attempts

/-- The last call on the axis. -/
def lastCall (axis : Axis) (calls : List FilterCall) : Option FilterCall :=
  calls.reverse.find? fun call => call.axis = axis

theorem get_apply (filters : JobFilter) (call : FilterCall) (axis : Axis) :
    (filters.apply call).get axis = if call.axis = axis then some call else filters.get axis := by
  cases call <;> cases axis <;> rfl

/-- Each axis of the filter is as the last call on it left it. -/
theorem get_build (calls : List FilterCall) (axis : Axis) :
    (JobFilter.build calls).get axis = lastCall axis calls := by
  have hlawful : Data.Setters.Lawful JobFilter.get JobFilter.apply FilterCall.axis some := get_apply
  rw [JobFilter.build, hlawful.get_foldl, Data.Setters.last, lastCall]
  split
  · next call hcall => exact hcall.symm
  · next hcall =>
    rw [hcall]
    cases axis <;> rfl

/-! ### Agreement of the three lists -/

section Lists
variable {α : Type}

theorem listPair_eq {name : String} {text : α → String} (call : List α → FilterCall)
    (hempty : ∀ v, (call v).isEmpty = v.isEmpty)
    (hpair : ∀ v, ((call v).axis.name, (call v).value) = (name, ",".intercalate (v.map text)))
    (opt : Option (List α)) :
    listPair name text opt = ((opt.map call).bind FilterCall.pair).toList := by
  rcases opt with _ | _ | ⟨x, xs⟩
  · rfl
  · simp [FilterCall.pair, hempty]
  · rw [listPair_cons, ← hpair]
    simp [FilterCall.pair, hempty]

theorem namePair_eq {name : String} (call : List String → FilterCall)
    (hempty : ∀ names, (call names).isEmpty = names.isEmpty)
    (hpair : ∀ names, ((call names).axis.name, (call names).value) = (name, ",".intercalate names))
    (opt : Option (List String)) :
    listPair name (fun s => s) opt = ((opt.map call).bind FilterCall.pair).toList :=
  listPair_eq call hempty (fun names => by rw [hpair, List.map_id']) opt

theorem valuePair_eq {name : String} {text : α → String} (call : α → FilterCall)
    (hempty : ∀ v, (call v).isEmpty = false)
    (hpair : ∀ v, ((call v).axis.name, (call v).value) = (name, text v)) (opt : Option α) :
    valuePair name text opt = ((opt.map call).bind FilterCall.pair).toList := by
  cases opt with
  | none => rfl
  | some v => simp [valuePair, FilterCall.pair, hempty, hpair]

theorem isPresent_eq (name : String) (text : α → String) (opt : Option (List α)) :
    isPresent opt = !(listPair name text opt).isEmpty := by
  rcases opt with _ | _ | ⟨x, xs⟩ <;> rfl

theorem isSome_eq (name : String) (text : α → String) (opt : Option α) :
    opt.isSome = !(valuePair name text opt).isEmpty := by
  cases opt <;> rfl

theorem isExplicitlyEmpty_eq (call : List α → FilterCall) (hempty : ∀ v, (call v).isEmpty = v.isEmpty)
    (opt : Option (List α)) : isExplicitlyEmpty opt = (opt.map call).any FilterCall.isEmpty := by
  cases opt <;> simp [isExplicitlyEmpty, hempty]

theorem any_isEmpty_eq_false (call : α → FilterCall) (hempty : ∀ v, (call v).isEmpty = false)
    (opt : Option α) : (opt.map call).any FilterCall.isEmpty = false := by
  cases opt <;> simp [hempty]

end Lists

namespace JobFilter

/-- `append_to` has one pair for each axis that is set, but for a list that is empty. -/
theorem appendTo_eq (filters : JobFilter) :
    filters.appendTo = Axis.all.filterMap fun axis => (filters.get axis).bind FilterCall.pair := by
  have hstatus := listPair_eq .status (fun _ => rfl) (fun _ => rfl) filters.status
  have hqueue := namePair_eq .queue (fun _ => rfl) (fun _ => rfl) filters.queue
  have htype := namePair_eq .jobType (fun _ => rfl) (fun _ => rfl) filters.jobType
  have hid := namePair_eq .id (fun _ => rfl) (fun _ => rfl) filters.id
  have hkey := namePair_eq .budgetsKey (fun _ => rfl) (fun _ => rfl) filters.budgetsKey
  have hfilter : valuePair "filter" (fun s => s) filters.jq = _ :=
    valuePair_eq .filter (fun _ => rfl) (fun _ => rfl) filters.jq
  have hpriority : valuePair "priority" (RangeFilter.encode fun v => toString v.toNat) filters.priority = _ :=
    valuePair_eq .priority (fun _ => rfl) (fun _ => rfl) filters.priority
  have hready : valuePair "ready_at" (RangeFilter.encode fun t => toString (toMsEpoch t).toNat)
      filters.readyAt = _ := valuePair_eq .readyAt (fun _ => rfl) (fun _ => rfl) filters.readyAt
  have hattempts : valuePair "attempts" (RangeFilter.encode fun v => toString v.toNat) filters.attempts = _ :=
    valuePair_eq .attempts (fun _ => rfl) (fun _ => rfl) filters.attempts
  rw [appendTo, hstatus, hqueue, htype, hid, hkey, hfilter, hpriority, hready, hattempts,
    List.filterMap_eq_flatMap_toList]
  simp only [Axis.all, List.flatMap_cons, List.flatMap_nil, List.append_nil, List.append_assoc, get]

/-- `has_params` answers whether there is a pair. -/
theorem hasParams_iff (filters : JobFilter) : filters.hasParams = true ↔ filters.appendTo ≠ [] := by
  rw [hasParams, appendTo, isPresent_eq "status" JobStatus.asStr, isPresent_eq "queue" (fun s => s),
    isPresent_eq "type" (fun s => s), isPresent_eq "id" (fun s => s),
    isPresent_eq "budgets.key" (fun s => s), isSome_eq "filter" (fun s => s),
    isSome_eq "priority" (RangeFilter.encode fun v => toString v.toNat) filters.priority,
    isSome_eq "ready_at" (RangeFilter.encode fun t => toString (toMsEpoch t).toNat) filters.readyAt,
    isSome_eq "attempts" (RangeFilter.encode fun v => toString v.toNat) filters.attempts]
  simp only [Bool.or_eq_true, Bool.not_eq_true', List.isEmpty_eq_false_iff, ne_eq,
    List.append_eq_nil_iff, not_and_or]

/-- `matches_nothing` answers whether an axis was last set to an empty list. -/
theorem matchesNothing_eq (filters : JobFilter) :
    filters.matchesNothing = Axis.all.any fun axis => (filters.get axis).any FilterCall.isEmpty := by
  rw [matchesNothing, isExplicitlyEmpty_eq .status (fun _ => rfl), isExplicitlyEmpty_eq .queue (fun _ => rfl),
    isExplicitlyEmpty_eq .jobType (fun _ => rfl), isExplicitlyEmpty_eq .id (fun _ => rfl),
    isExplicitlyEmpty_eq .budgetsKey (fun _ => rfl)]
  simp only [Axis.all, List.any_cons, List.any_nil, get, any_isEmpty_eq_false .filter (fun _ => rfl),
    any_isEmpty_eq_false .priority (fun _ => rfl), any_isEmpty_eq_false .readyAt (fun _ => rfl),
    any_isEmpty_eq_false .attempts (fun _ => rfl), Bool.or_false, Bool.or_assoc]

end JobFilter

/-! ### After a sequence of calls -/

/-- The last call on some list axis received an empty iterator. -/
def Emptied (calls : List FilterCall) : Prop := ∃ axis call, lastCall axis calls = some call ∧ call.isEmpty = true

/-- One pair for each axis that was ever set, with its last value. -/
def lastPairs (calls : List FilterCall) : List (String × String) :=
  Axis.all.filterMap fun axis => (lastCall axis calls).map fun call => (axis.name, call.value)

theorem lastCall_axis {axis : Axis} {calls : List FilterCall} {call : FilterCall}
    (h : lastCall axis calls = some call) : call.axis = axis := by
  simpa using List.find?_some h

theorem lastCall_eq_none {axis : Axis} {calls : List FilterCall} :
    lastCall axis calls = none ↔ ∀ call ∈ calls, call.axis ≠ axis := by
  simp [lastCall]

theorem matchesNothing_build (calls : List FilterCall) :
    (JobFilter.build calls).matchesNothing = true ↔ Emptied calls := by
  rw [JobFilter.matchesNothing_eq, List.any_eq_true]
  simp only [get_build, Option.any_eq_true, Axis.mem_all, true_and, Emptied]

theorem appendTo_build {calls : List FilterCall} (h : ¬ Emptied calls) :
    (JobFilter.build calls).appendTo = lastPairs calls := by
  rw [JobFilter.appendTo_eq]
  refine List.filterMap_congr fun axis _ => ?_
  rw [get_build]
  cases hlast : lastCall axis calls with
  | none => rfl
  | some call =>
    have hempty : call.isEmpty = false := Bool.eq_false_iff.mpr fun hempty => h ⟨axis, call, hlast, hempty⟩
    simp [FilterCall.pair, hempty, lastCall_axis hlast]

/-- No parameter is sent twice. -/
theorem lastPairs_nodup (calls : List FilterCall) : ((lastPairs calls).map Prod.fst).Nodup := by
  rw [lastPairs, List.map_filterMap]
  refine List.Nodup.filterMap (fun axis axis' name h h' => Axis.name_injective ?_) Axis.all_nodup
  simp only [Option.mem_def, Option.map_eq_some_iff] at h h'
  obtain ⟨pair, ⟨call, -, rfl⟩, rfl⟩ := h
  obtain ⟨pair', ⟨call', -, rfl⟩, hname⟩ := h'
  exact hname.symm

/-- Every setter that was called has left a pair. -/
theorem lastPairs_eq_nil {calls : List FilterCall} : lastPairs calls = [] ↔ calls = [] := by
  constructor
  · intro h
    rw [lastPairs, List.filterMap_eq_nil_iff] at h
    refine List.eq_nil_iff_forall_not_mem.mpr fun call hcall => ?_
    have hnone := lastCall_eq_none.mp (Option.map_eq_none_iff.mp (h call.axis (Axis.mem_all _)))
    exact hnone call hcall rfl
  · rintro rfl
    rfl

end Zizq.Client
