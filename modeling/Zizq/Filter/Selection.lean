import Zizq.Client.LastValues
import Zizq.Filter.JqExpr
import Zizq.Resources.Job

/-! What a bulk operation selects.

The server reads each parameter of a query as a condition on the jobs, and combines the
conditions with AND (`Server.Documented`): a list by what is between its commas, a range
by its bounds, a filter as a program on the payload. So the request of a bulk operation
selects exactly the jobs that meet the last call on each axis, as long as no status is
unknown, which the server would reject, no name has a comma in it and no instant is early;
and where the last call on an axis was an empty list, so that no job meets it, there is no
request (`selection_exact`). -/
namespace Zizq.Filter
open Client Data Resources
variable {κ φ : Type} (selects : String → Value κ → Prop)

/-! ### What is asked for, and what is read -/

/-- The payload of a job that has none is null. -/
def payloadOf (job : Job κ φ) : Value κ := job.payload.getD .null

/-- What a setter asks of a job, where `selects` says which payloads a filter selects; an instant counts to the
millisecond. -/
def Meets (job : Job κ φ) : FilterCall → Prop
  | .status statuses => job.status ∈ statuses
  | .queue queues => job.queue ∈ queues
  | .jobType types => job.jobType ∈ types
  | .id ids => job.id ∈ ids
  | .budgetsKey keys => ∃ binding ∈ job.budgets, binding.key ∈ keys
  | .filter expr => selects expr (payloadOf job)
  | .priority range => range.Denotes (fun v => v.toNat) job.priority.toNat
  | .readyAt range => range.Denotes (fun t => t.unixTimestampNanos.tdiv 1000000) job.readyAt.toNat
  | .attempts range => range.Denotes (fun v => v.toNat) job.attempts.toNat

/-- Every axis that was set is met. -/
def Wanted (calls : List FilterCall) (job : Job κ φ) : Prop :=
  ∀ axis call, lastCall axis calls = some call → Meets selects job call

/-- The server's side of a query: the condition that a parameter stands for, and the jobs of a query. -/
structure Server (κ φ : Type) where
  reads : Axis → String → Job κ φ → Prop
  picks : List (String × String) → Job κ φ → Prop

/-- What the API documents of it. A list of statuses is only described where each is one that it knows. -/
structure Server.Documented (server : Server κ φ) : Prop where
  status : ∀ (text : String) (statuses : List JobStatus), (commaSet text).map statusNamed = statuses.map some →
    .unknown ∉ statuses →
      ∀ job, server.reads .status text job ↔ job.status ∈ statuses
  queue : ∀ text job, server.reads .queue text job ↔ job.queue ∈ commaSet text
  jobType : ∀ text job, server.reads .jobType text job ↔ job.jobType ∈ commaSet text
  id : ∀ text job, server.reads .id text job ↔ job.id ∈ commaSet text
  budgetsKey : ∀ text job, server.reads .budgetsKey text job ↔ ∃ binding ∈ job.budgets, binding.key ∈ commaSet text
  filter : ∀ text job, server.reads .filter text job ↔ selects text (payloadOf job)
  priority : ∀ text interval, readRange text.toList = some interval →
    ∀ job, server.reads .priority text job ↔ interval.Selects job.priority.toNat
  readyAt : ∀ text interval, readRange text.toList = some interval →
    ∀ job, server.reads .readyAt text job ↔ interval.Selects job.readyAt.toNat
  attempts : ∀ text interval, readRange text.toList = some interval →
    ∀ job, server.reads .attempts text job ↔ interval.Selects job.attempts.toNat
  combined : ∀ pairs job, server.picks pairs job ↔
    ∀ axis text, (axis.name, text) ∈ pairs → server.reads axis text job

/-- The server reads the value that was meant. -/
def Legible : FilterCall → Prop
  | .status statuses => .unknown ∉ statuses
  | .queue names | .jobType names | .id names | .budgetsKey names => ∀ name ∈ names, ',' ∉ name.toList
  | .readyAt range => ∀ t ∈ range.bounds, t.Admitted ∧ ¬ t.Early
  | _ => True

/-! ### One parameter -/

theorem denotes_congr {α : Type} {r : RangeFilter α} {position position' : α → Int}
    (h : ∀ v ∈ r.bounds, position v = position' v) (x : Int) : r.Denotes position x ↔ r.Denotes position' x := by
  cases r <;> simp_all [RangeFilter.Denotes, RangeFilter.bounds]

/-- An instant that is not early is sent as its milliseconds. -/
theorem millis_eq {t : OffsetDateTime} (ht : t.Admitted) (hlate : ¬ t.Early) :
    (t.millis : Int) = t.unixTimestampNanos.tdiv 1000000 := by
  rw [OffsetDateTime.millis, ← toNat_toMsEpoch, toMsEpoch_late ht hlate]
  rw [OffsetDateTime.Early] at hlate
  by_cases hneg : t.unixTimestampNanos < 0
  · have htdiv : t.unixTimestampNanos.tdiv 1000000 = 0 := by
      rw [← Int.neg_neg t.unixTimestampNanos, Int.neg_tdiv, Int.tdiv_eq_ediv_of_nonneg (by omega)]
      omega
    rw [htdiv]
    omega
  · rw [Int.tdiv_eq_ediv_of_nonneg (by omega)]
    omega

theorem commaSet_names {names : List String} (hne : names.isEmpty = false)
    (h : ∀ name ∈ names, ',' ∉ name.toList) : commaSet (",".intercalate names) = names :=
  (commaSet_intercalate_iff (List.isEmpty_eq_false_iff.mp hne)).mpr h

/-- What a call asks for is what the server reads of its value. -/
theorem reads_value_iff {server : Server κ φ} (hserver : server.Documented selects) (job : Job κ φ)
    {call : FilterCall} (hempty : call.isEmpty = false) (hlegible : Legible call) :
    server.reads call.axis call.value job ↔ Meets selects job call := by
  have hholds := holds_value hempty
  cases call with
  | status statuses => exact hserver.status _ statuses hholds hlegible job
  | queue names =>
    rw [FilterCall.axis, hserver.queue, hholds, commaSet_names hempty hlegible]
    rfl
  | jobType names =>
    rw [FilterCall.axis, hserver.jobType, hholds, commaSet_names hempty hlegible]
    rfl
  | id names =>
    rw [FilterCall.axis, hserver.id, hholds, commaSet_names hempty hlegible]
    rfl
  | budgetsKey names =>
    rw [FilterCall.axis, hserver.budgetsKey, hholds, commaSet_names hempty hlegible]
    rfl
  | filter expr => exact hserver.filter expr job
  | priority range => exact (hserver.priority _ _ hholds job).trans (interval_selects_iff range _ _)
  | attempts range => exact (hserver.attempts _ _ hholds job).trans (interval_selects_iff range _ _)
  | readyAt range =>
    have hread := (hserver.readyAt _ _ hholds job).trans (interval_selects_iff range _ _)
    exact hread.trans (denotes_congr (fun t ht => millis_eq (hlegible t ht).1 (hlegible t ht).2) _)

/-- Nothing is in an empty list. -/
theorem not_meets_of_isEmpty (job : Job κ φ) {call : FilterCall} (h : call.isEmpty = true) :
    ¬ Meets selects job call := by
  cases call with
  | status statuses =>
    obtain rfl := List.isEmpty_iff.mp h
    exact List.not_mem_nil
  | queue names | jobType names | id names =>
    obtain rfl := List.isEmpty_iff.mp h
    exact List.not_mem_nil
  | budgetsKey keys =>
    obtain rfl := List.isEmpty_iff.mp h
    intro hmeets
    obtain ⟨binding, -, hmem⟩ := hmeets
    exact List.not_mem_nil hmem
  | _ => cases h

/-! ### All parameters -/

section Bulk
variable {J Patch Policy : Type}

/-- No parameter of paging is one of a filter. -/
theorem notMem_paging (op : BulkOp Patch Policy) (axis : Axis) (value : String) :
    (axis.name, value) ∉ op.paging := by
  have hpaging (builder : ListJobsBuilder) : (axis.name, value) ∉ builder.paging := by
    have hpair {α : Type} (name : String) (text : α → String) (opt : Option α) (hne : axis.name ≠ name) :
        (axis.name, value) ∉ valuePair name text opt := by
      cases opt with
      | none => exact List.not_mem_nil
      | some v =>
        intro hmem
        exact hne (Prod.mk.inj (List.mem_singleton.mp hmem)).1
    rw [ListJobsBuilder.paging, List.mem_append, List.mem_append, not_or, not_or]
    exact ⟨⟨hpair _ _ _ (by cases axis <;> decide), hpair _ _ _ (by cases axis <;> decide)⟩,
      hpair _ _ _ (by cases axis <;> decide)⟩
  cases op with
  | list | stream => exact hpaging _
  | _ => exact List.not_mem_nil

theorem picks_iff {server : Server κ φ} (hserver : server.Documented selects) (op : BulkOp Patch Policy)
    {calls : List FilterCall} (hemptied : ¬ Emptied calls)
    (hlegible : ∀ axis call, lastCall axis calls = some call → Legible call) (job : Job κ φ) :
    server.picks (op.paging ++ lastPairs calls) job ↔ Wanted selects calls job := by
  have hread {axis : Axis} {call : FilterCall} (hcall : lastCall axis calls = some call) :
      server.reads axis call.value job ↔ Meets selects job call := by
    have hempty : call.isEmpty = false := Bool.eq_false_iff.mpr fun hempty => hemptied ⟨axis, call, hcall, hempty⟩
    rw [← reads_value_iff selects hserver job hempty (hlegible axis call hcall), lastCall_axis hcall]
  rw [hserver.combined]
  constructor
  · intro h axis call hcall
    exact (hread hcall).mp (h axis _ (List.mem_append_right _ (mem_lastPairs_iff.mpr ⟨call, hcall, rfl⟩)))
  · intro h axis value hmem
    rcases List.mem_append.mp hmem with hmem | hmem
    · exact absurd hmem (notMem_paging op axis value)
    · obtain ⟨call, hcall, rfl⟩ := mem_lastPairs_iff.mp hmem
      exact (hread hcall).mpr (h axis call hcall)

/-- **Main theorem.** Whatever setters were called, in any order, what a bulk operation sends selects exactly the jobs
that meet the last call on every axis; and where that is an empty list on some axis, which no job meets, the operation
comes to its result on no job, and nothing is sent. -/
theorem selection_exact (crate : UrlCrate) (codec : BulkCodec J Patch Policy) (base : AbsoluteUrl)
    (configured : Format) (op : BulkOp Patch Policy) {server : Server κ φ} (hserver : server.Documented selects)
    {calls : List FilterCall}
    (hlegible : ∀ axis call, lastCall axis calls = some call → Legible call) :
    let outcome := op.await crate codec base configured (JobFilter.build calls)
    (∀ request settle, outcome = .send request settle →
        ∀ job : Job κ φ, server.picks request.target.pairs job ↔ Wanted selects calls job) ∧
      (Emptied calls → outcome = .ready op.nothing ∧ ∀ job : Job κ φ, ¬ Wanted selects calls job) := by
  intro outcome
  refine ⟨fun request settle hsend job => ?_, fun h => ⟨await_emptied crate codec base configured op h,
    fun job hwanted => ?_⟩⟩
  · obtain ⟨hemptied, hpairs⟩ := await_send crate codec base configured hsend
    rw [hpairs]
    exact picks_iff selects hserver op hemptied hlegible job
  · obtain ⟨axis, call, hcall, hempty⟩ := h
    exact not_meets_of_isEmpty selects job hempty (hwanted axis call hcall)

end Bulk

/-- What a server that knows the five statuses reads. -/
def conditionOf (job : Job String Unit) (text : String) : Axis → Prop
  | .status => job.status ≠ .unknown ∧ some job.status ∈ (commaSet text).map statusNamed
  | .queue => job.queue ∈ commaSet text
  | .jobType => job.jobType ∈ commaSet text
  | .id => job.id ∈ commaSet text
  | .budgetsKey => ∃ binding ∈ job.budgets, binding.key ∈ commaSet text
  | .filter => Selects texts text (payloadOf job)
  | .priority => ∃ interval ∈ readRange text.toList, interval.Selects job.priority.toNat
  | .readyAt => ∃ interval ∈ readRange text.toList, interval.Selects job.readyAt.toNat
  | .attempts => ∃ interval ∈ readRange text.toList, interval.Selects job.attempts.toNat

def documentedServer : Server String Unit where
  reads axis text job := conditionOf job text axis
  picks pairs job := ∀ axis text, (axis.name, text) ∈ pairs → conditionOf job text axis

theorem documentedServer_documented : documentedServer.Documented (Selects texts) := by
  have hinterval {text : String} {interval : Interval} (h : readRange text.toList = some interval) (n : Nat) :
      (∃ interval ∈ readRange text.toList, interval.Selects n) ↔ interval.Selects n := by simp [h]
  refine ⟨fun text statuses hread hknown job => ?_, fun _ _ => Iff.rfl, fun _ _ => Iff.rfl, fun _ _ => Iff.rfl,
    fun _ _ => Iff.rfl, fun _ _ => Iff.rfl, fun _ _ h _ => hinterval h _, fun _ _ h _ => hinterval h _,
    fun _ _ h _ => hinterval h _, fun _ _ => Iff.rfl⟩
  show job.status ≠ .unknown ∧ some job.status ∈ (commaSet text).map statusNamed ↔ job.status ∈ statuses
  rw [hread, List.mem_map_of_injective (Option.some_injective _)]
  exact and_iff_right_of_imp fun h hunknown => hknown (hunknown ▸ h)

/-- A job that is asked for, and one of a queue that is not asked for in the end. -/
theorem selection_exact_urgent :
    ∃ request settle, (BulkOp.count : BulkOp Unit Unit).await urlStandard bulkCodec
        ⟨.http, "host", none, ⟨[[]], by decide⟩, none⟩ .json (JobFilter.build urgent) = .send request settle ∧
      ∀ job : Job String Unit, job.status = .dead → job.priority = 7 → job.readyAt = 1700 → job.attempts = 3 →
        (job.queue = "high" → documentedServer.picks request.target.pairs job) ∧
          (job.queue = "low" → ¬ documentedServer.picks request.target.pairs job) := by
  have hlegible (axis : Axis) (call : FilterCall) (hcall : lastCall axis urgent = some call) : Legible call := by
    cases axis <;> cases hcall
    · exact show .unknown ∉ [JobStatus.dead, .inFlight] by decide
    · exact show ∀ name ∈ ["high", "emails"], ',' ∉ name.toList by decide
    · trivial
    · intro t ht
      rcases List.mem_pair.mp ht with rfl | rfl
      · exact ⟨show (1500000000 : Int).natAbs < _ by decide, show ¬ (1500000000 : Int) ≤ _ by decide⟩
      · exact ⟨show (2000000000 : Int).natAbs < _ by decide, show ¬ (2000000000 : Int) ≤ _ by decide⟩
    · trivial
  refine ⟨_, _, rfl, fun job hstatus hpriority hready hattempts => ?_⟩
  let base : AbsoluteUrl := ⟨.http, "host", none, ⟨[[]], by decide⟩, none⟩
  have hselects := (selection_exact (Selects texts) urlStandard bulkCodec base .json .count
    documentedServer_documented hlegible).1 _ _ rfl job
  rw [hselects]
  constructor
  · intro hqueue axis call hcall
    cases axis <;> cases hcall
    · exact List.mem_cons.mpr (.inl hstatus)
    · exact List.mem_cons.mpr (.inl hqueue)
    · exact show (job.priority.toNat : Int) ≤ 10 from hpriority ▸ by decide
    · exact show (1500 : Int) ≤ job.readyAt.toNat ∧ (job.readyAt.toNat : Int) ≤ 2000 from hready ▸ by decide
    · exact show (job.attempts.toNat : Int) = 3 from hattempts ▸ by decide
  · intro hqueue hwanted
    have hmeets : job.queue ∈ ["high", "emails"] := hwanted .queue _ rfl
    rw [hqueue] at hmeets
    exact absurd hmeets (by decide)

end Zizq.Filter
