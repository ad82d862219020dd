import Zizq.Data.Setters
import Zizq.Patch.Record

/-! The patch of a job.

Six three-state fields, the last of them a patch of its own with two. The setters list
them by hand. Each is on one field and says how it leaves that (`jobSetters_lawful`), so
the object that is sent, and what the server makes of a job with it, are functions of
the last call on each field (`jobPatch_exact`). -/
namespace Zizq.Patch
open Client Data Json

/-- How a format writes numbers. A float that is not finite may become a null. -/
structure Numerals (ν φ : Type) where
  natural : Nat → ν
  float : φ → Datum ν

variable {ν φ : Type}

structure BackoffConfig (φ : Type) where
  baseMs : UInt32
  exponent : φ
  jitterMs : UInt32

structure RetentionPatch where
  completedMs : Field UInt64 := .keep
  deadMs : Field UInt64 := .keep

structure JobPatch (φ : Type) where
  queue : Field String := .keep
  priority : Field UInt16 := .keep
  readyAt : Field UInt64 := .keep
  retryLimit : Field UInt32 := .keep
  backoff : Field (BackoffConfig φ) := .keep
  retention : Field RetentionPatch := .keep

/-! ### Serializing -/

section Serialize
variable (numerals : Numerals ν φ)

def serializeNumber (n : Nat) : Option (Datum ν) := some (.number (numerals.natural n))

def BackoffConfig.serialize (config : BackoffConfig φ) : Option (Datum ν) :=
  some (.struct "BackoffConfig"
    [("base_ms", .number (numerals.natural config.baseMs.toNat)), ("exponent", numerals.float config.exponent),
      ("jitter_ms", .number (numerals.natural config.jitterMs.toNat))])

def RetentionPatch.serialize (patch : RetentionPatch) : Option (Datum ν) := do
  let completedMs ← patch.completedMs.member "completed_ms" fun n => serializeNumber numerals n.toNat
  let deadMs ← patch.deadMs.member "dead_ms" fun n => serializeNumber numerals n.toNat
  return .struct "RetentionPatch" (completedMs ++ deadMs)

def JobPatch.serialize (patch : JobPatch φ) : Option (Datum ν) := do
  let queue ← patch.queue.member "queue" serializeString
  let priority ← patch.priority.member "priority" fun n => serializeNumber numerals n.toNat
  let readyAt ← patch.readyAt.member "ready_at" fun n => serializeNumber numerals n.toNat
  let retryLimit ← patch.retryLimit.member "retry_limit" fun n => serializeNumber numerals n.toNat
  let backoff ← patch.backoff.member "backoff" (BackoffConfig.serialize numerals)
  let retention ← patch.retention.member "retention" (RetentionPatch.serialize numerals)
  return .struct "JobPatch" (queue ++ priority ++ readyAt ++ retryLimit ++ backoff ++ retention)

end Serialize

/-! ### Setters -/

namespace RetentionPatch

def setCompletedMs (completedMs : UInt64) (patch : RetentionPatch) : RetentionPatch :=
  { patch with completedMs := .set completedMs }
def clearCompletedMs (patch : RetentionPatch) : RetentionPatch := { patch with completedMs := .clear }
def keepCompletedMs (patch : RetentionPatch) : RetentionPatch := { patch with completedMs := .keep }

def setDeadMs (deadMs : UInt64) (patch : RetentionPatch) : RetentionPatch :=
  { patch with deadMs := .set deadMs }
def clearDeadMs (patch : RetentionPatch) : RetentionPatch := { patch with deadMs := .clear }
def keepDeadMs (patch : RetentionPatch) : RetentionPatch := { patch with deadMs := .keep }

end RetentionPatch

namespace JobPatch

def setQueue (queue : String) (patch : JobPatch φ) : JobPatch φ := { patch with queue := .set queue }
def moveToQueue (queue : String) (patch : JobPatch φ) : JobPatch φ := patch.setQueue queue
def keepQueue (patch : JobPatch φ) : JobPatch φ := { patch with queue := .keep }

def setPriority (priority : UInt16) (patch : JobPatch φ) : JobPatch φ :=
  { patch with priority := .set priority }
def keepPriority (patch : JobPatch φ) : JobPatch φ := { patch with priority := .keep }

def setReadyAt (readyAtMs : UInt64) (patch : JobPatch φ) : JobPatch φ :=
  { patch with readyAt := .set readyAtMs }
def clearReadyAt (patch : JobPatch φ) : JobPatch φ := { patch with readyAt := .clear }
def readyNow (patch : JobPatch φ) : JobPatch φ := patch.clearReadyAt
def keepReadyAt (patch : JobPatch φ) : JobPatch φ := { patch with readyAt := .keep }

def setRetryLimit (retryLimit : UInt32) (patch : JobPatch φ) : JobPatch φ :=
  { patch with retryLimit := .set retryLimit }
def clearRetryLimit (patch : JobPatch φ) : JobPatch φ := { patch with retryLimit := .clear }
def keepRetryLimit (patch : JobPatch φ) : JobPatch φ := { patch with retryLimit := .keep }

def setBackoff (backoff : BackoffConfig φ) (patch : JobPatch φ) : JobPatch φ :=
  { patch with backoff := .set backoff }
def clearBackoff (patch : JobPatch φ) : JobPatch φ := { patch with backoff := .clear }
def keepBackoff (patch : JobPatch φ) : JobPatch φ := { patch with backoff := .keep }

def setRetention (retention : RetentionPatch) (patch : JobPatch φ) : JobPatch φ :=
  { patch with retention := .set retention }
def clearRetention (patch : JobPatch φ) : JobPatch φ := { patch with retention := .clear }
def keepRetention (patch : JobPatch φ) : JobPatch φ := { patch with retention := .keep }

end JobPatch

/-! ### Calls -/

inductive RetentionCall where
  | completedMs (completedMs : UInt64)
  | clearCompletedMs
  | keepCompletedMs
  | deadMs (deadMs : UInt64)
  | clearDeadMs
  | keepDeadMs

def RetentionPatch.apply (patch : RetentionPatch) : RetentionCall → RetentionPatch
  | .completedMs completedMs => patch.setCompletedMs completedMs
  | .clearCompletedMs => patch.clearCompletedMs
  | .keepCompletedMs => patch.keepCompletedMs
  | .deadMs deadMs => patch.setDeadMs deadMs
  | .clearDeadMs => patch.clearDeadMs
  | .keepDeadMs => patch.keepDeadMs

def RetentionPatch.build (calls : List RetentionCall) : RetentionPatch := calls.foldl RetentionPatch.apply {}

/-- A call of a setter; a retention patch is given by the calls that it is built with. -/
inductive JobCall (φ : Type) where
  | queue (queue : String)
  | moveToQueue (queue : String)
  | keepQueue
  | priority (priority : UInt16)
  | keepPriority
  | readyAt (readyAtMs : UInt64)
  | clearReadyAt
  | readyNow
  | keepReadyAt
  | retryLimit (retryLimit : UInt32)
  | clearRetryLimit
  | keepRetryLimit
  | backoff (backoff : BackoffConfig φ)
  | clearBackoff
  | keepBackoff
  | retention (calls : List RetentionCall)
  | clearRetention
  | keepRetention

def JobPatch.apply (patch : JobPatch φ) : JobCall φ → JobPatch φ
  | .queue queue => patch.setQueue queue
  | .moveToQueue queue => patch.moveToQueue queue
  | .keepQueue => patch.keepQueue
  | .priority priority => patch.setPriority priority
  | .keepPriority => patch.keepPriority
  | .readyAt readyAtMs => patch.setReadyAt readyAtMs
  | .clearReadyAt => patch.clearReadyAt
  | .readyNow => patch.readyNow
  | .keepReadyAt => patch.keepReadyAt
  | .retryLimit retryLimit => patch.setRetryLimit retryLimit
  | .clearRetryLimit => patch.clearRetryLimit
  | .keepRetryLimit => patch.keepRetryLimit
  | .backoff backoff => patch.setBackoff backoff
  | .clearBackoff => patch.clearBackoff
  | .keepBackoff => patch.keepBackoff
  | .retention calls => patch.setRetention (.build calls)
  | .clearRetention => patch.clearRetention
  | .keepRetention => patch.keepRetention

def JobPatch.build (calls : List (JobCall φ)) : JobPatch φ := calls.foldl JobPatch.apply {}

/-! ### Fields -/

inductive RetentionField where
  | completedMs | deadMs
deriving DecidableEq

inductive JobField where
  | queue | priority | readyAt | retryLimit | backoff | retention
deriving DecidableEq

def RetentionField.name : RetentionField → String
  | .completedMs => "completed_ms"
  | .deadMs => "dead_ms"

def JobField.name : JobField → String
  | .queue => "queue"
  | .priority => "priority"
  | .readyAt => "ready_at"
  | .retryLimit => "retry_limit"
  | .backoff => "backoff"
  | .retention => "retention"

/-- What a field of a job may be set to. -/
inductive Given (φ : Type) where
  | queue (queue : String)
  | priority (priority : UInt16)
  | readyAt (readyAtMs : UInt64)
  | retryLimit (retryLimit : UInt32)
  | backoff (backoff : BackoffConfig φ)
  | retention (retention : RetentionPatch)

def Given.serialize (numerals : Numerals ν φ) : Given φ → Option (Datum ν)
  | .queue s => serializeString s
  | .priority n => serializeNumber numerals n.toNat
  | .readyAt n => serializeNumber numerals n.toNat
  | .retryLimit n => serializeNumber numerals n.toNat
  | .backoff config => config.serialize numerals
  | .retention patch => patch.serialize numerals

namespace RetentionCall

/-- The field that the call is on. -/
def field : RetentionCall → RetentionField
  | .completedMs _ | .clearCompletedMs | .keepCompletedMs => .completedMs
  | .deadMs _ | .clearDeadMs | .keepDeadMs => .deadMs

/-- How the call leaves its field. -/
def change : RetentionCall → Field UInt64
  | .completedMs n | .deadMs n => .set n
  | .clearCompletedMs | .clearDeadMs => .clear
  | .keepCompletedMs | .keepDeadMs => .keep

/-- How the last call on the field leaves it; a field that no call is on is kept. -/
def last (calls : List RetentionCall) : RetentionField → Field UInt64 := Setters.last field change .keep calls

end RetentionCall

namespace JobCall

def field : JobCall φ → JobField
  | .queue _ | .moveToQueue _ | .keepQueue => .queue
  | .priority _ | .keepPriority => .priority
  | .readyAt _ | .clearReadyAt | .readyNow | .keepReadyAt => .readyAt
  | .retryLimit _ | .clearRetryLimit | .keepRetryLimit => .retryLimit
  | .backoff _ | .clearBackoff | .keepBackoff => .backoff
  | .retention _ | .clearRetention | .keepRetention => .retention

def change : JobCall φ → Field (Given φ)
  | .queue s | .moveToQueue s => .set (.queue s)
  | .priority n => .set (.priority n)
  | .readyAt n => .set (.readyAt n)
  | .retryLimit n => .set (.retryLimit n)
  | .backoff config => .set (.backoff config)
  | .retention calls => .set (.retention (.build calls))
  | .clearReadyAt | .readyNow | .clearRetryLimit | .clearBackoff | .clearRetention => .clear
  | .keepQueue | .keepPriority | .keepReadyAt | .keepRetryLimit | .keepBackoff | .keepRetention => .keep

def last (calls : List (JobCall φ)) : JobField → Field (Given φ) := Setters.last field change .keep calls

end JobCall

def RetentionPatch.get (patch : RetentionPatch) : RetentionField → Field UInt64
  | .completedMs => patch.completedMs
  | .deadMs => patch.deadMs

def JobPatch.get (patch : JobPatch φ) : JobField → Field (Given φ)
  | .queue => patch.queue.map .queue
  | .priority => patch.priority.map .priority
  | .readyAt => patch.readyAt.map .readyAt
  | .retryLimit => patch.retryLimit.map .retryLimit
  | .backoff => patch.backoff.map .backoff
  | .retention => patch.retention.map .retention

/-! ### What the setters change -/

theorem retentionSetters_lawful : Setters.Lawful RetentionPatch.get RetentionPatch.apply RetentionCall.field
    RetentionCall.change := by
  intro patch call field
  cases call <;> cases field <;> rfl

theorem jobSetters_lawful : Setters.Lawful JobPatch.get (JobPatch.apply (φ := φ)) JobCall.field
    JobCall.change := by
  intro patch call field
  cases call <;> cases field <;> rfl

theorem RetentionPatch.ext_get (p q : RetentionPatch) (h : ∀ field, p.get field = q.get field) : p = q := by
  obtain ⟨completedMs, deadMs⟩ := p
  rw [show completedMs = q.completedMs from h .completedMs, show deadMs = q.deadMs from h .deadMs]

theorem JobPatch.ext_get (p q : JobPatch φ) (h : ∀ field, p.get field = q.get field) : p = q := by
  have hqueue := Field.map_injective (fun _ _ => Given.queue.inj) (h .queue)
  have hpriority := Field.map_injective (fun _ _ => Given.priority.inj) (h .priority)
  have hready := Field.map_injective (fun _ _ => Given.readyAt.inj) (h .readyAt)
  have hlimit := Field.map_injective (fun _ _ => Given.retryLimit.inj) (h .retryLimit)
  have hbackoff := Field.map_injective (fun _ _ => Given.backoff.inj) (h .backoff)
  have hretention := Field.map_injective (fun _ _ => Given.retention.inj) (h .retention)
  cases p
  cases q
  rw [JobPatch.mk.injEq]
  exact ⟨hqueue, hpriority, hready, hlimit, hbackoff, hretention⟩

theorem RetentionPatch.get_build (calls : List RetentionCall) :
    (RetentionPatch.build calls).get = RetentionCall.last calls := by
  funext field
  apply (retentionSetters_lawful.get_foldl {} calls field).trans
  cases field <;> rfl

theorem JobPatch.get_build (calls : List (JobCall φ)) : (JobPatch.build calls).get = JobCall.last calls := by
  funext field
  apply (jobSetters_lawful.get_foldl {} calls field).trans
  cases field <;> rfl

/-! ### What is sent -/

section Json
variable (numerals : Numerals ν φ) (format : Format)

/-- The member of a retention time: a null if it is cleared, none if it is kept. -/
def timeMember (name : String) : Field UInt64 → List (String × Value ν)
  | .keep => []
  | .clear => [(name, .null)]
  | .set ms => [(name, .number (numerals.natural ms.toNat))]

/-- The JSON value of what a field is set to. -/
def Given.json : Given φ → Value ν
  | .queue s => .string s
  | .priority n => .number (numerals.natural n.toNat)
  | .readyAt ms => .number (numerals.natural ms.toNat)
  | .retryLimit n => .number (numerals.natural n.toNat)
  | .backoff config => .object [("base_ms", .number (numerals.natural config.baseMs.toNat)),
      ("exponent", wireValue format (numerals.float config.exponent)),
      ("jitter_ms", .number (numerals.natural config.jitterMs.toNat))]
  | .retention patch =>
    .object (timeMember numerals "completed_ms" patch.completedMs ++ timeMember numerals "dead_ms" patch.deadMs)

theorem Given.json_isNull (given : Given φ) : (given.json numerals format).isNull = false := by
  cases given <;> rfl

/-- A struct whose members stand in the order of their names. -/
theorem wireValue_sorted (struct : String) {members : List (String × Datum ν)}
    (h : (members.map Prod.fst).Pairwise (· < ·)) :
    wireValue format (.struct struct members) = .object (wireMembers format members) := by
  refine congrArg Value.object (ofMembers_eq_self ?_)
  rw [wireMembers_eq]
  exact List.pairwise_map.mpr (List.pairwise_map.mp h)

theorem RetentionPatch.wireValue_serialize (patch : RetentionPatch) :
    (patch.serialize numerals).map (wireValue format) =
      some (.object (timeMember numerals "completed_ms" patch.completedMs ++
        timeMember numerals "dead_ms" patch.deadMs)) := by
  obtain ⟨completedMs, deadMs⟩ := patch
  cases completedMs <;> cases deadMs <;> refine congrArg some (wireValue_sorted format _ ?_) <;>
    simp only [List.nil_append, List.cons_append, List.map_cons, List.map_nil] <;> decide

theorem Given.wireValue_serialize (given : Given φ) :
    (given.serialize numerals).map (wireValue format) = some (given.json numerals format) := by
  cases given with
  | retention patch => exact patch.wireValue_serialize numerals format
  | backoff config =>
    refine congrArg some (wireValue_sorted format _ ?_)
    simp only [List.map_cons, List.map_nil]
    decide
  | _ => rfl

theorem RetentionPatch.shows (patch : RetentionPatch) :
    Shows RetentionField.name (fun ms : UInt64 => .number (numerals.natural ms.toNat)) patch.get
      ((Given.retention patch : Given φ).json numerals format) := by
  have hvalue (n : UInt64) : (serializeNumber numerals n.toNat).isSome := rfl
  choose members hmembers using fun field => Field.member_isSome (RetentionField.name field) hvalue (patch.get field)
  have hjson (ms : UInt64) : (serializeNumber numerals ms.toNat).map (wireValue format) =
      some (.number (numerals.natural ms.toNat)) := rfl
  have hfields (field : RetentionField) : field ∈ [RetentionField.completedMs, .deadMs] := by
    cases field <;> decide
  have hshows := shows_flatMap hmembers hjson hfields (by decide) "RetentionPatch"
  have hcompleted : patch.completedMs.member "completed_ms" _ = some _ := hmembers .completedMs
  have hdead : patch.deadMs.member "dead_ms" _ = some _ := hmembers .deadMs
  have hwire := patch.wireValue_serialize numerals format
  rw [serialize, hcompleted, hdead] at hwire
  rw [Given.json, ← Option.some.inj hwire]
  simpa using hshows

theorem JobPatch.shows (patch : JobPatch φ) : ∃ datum, patch.serialize numerals = some datum ∧
    Shows JobField.name (Given.json numerals format) patch.get (wireValue format datum) := by
  have hjson := Given.wireValue_serialize (φ := φ) numerals format
  have hvalue (given : Given φ) : (given.serialize numerals).isSome := by
    obtain ⟨datum, hdatum, -⟩ := Option.map_eq_some_iff.mp (hjson given)
    exact Option.isSome_iff_exists.mpr ⟨datum, hdatum⟩
  choose members hmembers using fun field => Field.member_isSome (JobField.name field) hvalue (patch.get field)
  have hfields (field : JobField) :
      field ∈ [JobField.queue, .priority, .readyAt, .retryLimit, .backoff, .retention] := by
    cases field <;> decide
  have hshows := shows_flatMap hmembers hjson hfields (by decide) "JobPatch"
  refine ⟨_, ?_, hshows⟩
  have hmember {α : Type} (field : JobField) {given : α → Given φ} {state : Field α}
      (h : patch.get field = state.map given) :
      state.member field.name (fun v => (given v).serialize numerals) = some (members field) := by
    rw [← hmembers field, h, Field.member_map]
  have hqueue : patch.queue.member "queue" serializeString = some _ := hmember .queue rfl
  have hpriority : patch.priority.member "priority" (fun n => serializeNumber numerals n.toNat) = some _ :=
    hmember .priority rfl
  have hready : patch.readyAt.member "ready_at" (fun n => serializeNumber numerals n.toNat) = some _ :=
    hmember .readyAt rfl
  have hlimit : patch.retryLimit.member "retry_limit" (fun n => serializeNumber numerals n.toNat) = some _ :=
    hmember .retryLimit rfl
  have hbackoff : patch.backoff.member "backoff" (BackoffConfig.serialize numerals) = some _ :=
    hmember .backoff rfl
  have hretention : patch.retention.member "retention" (RetentionPatch.serialize numerals) = some _ :=
    hmember .retention rfl
  rw [serialize, hqueue, hpriority, hready, hlimit, hbackoff, hretention]
  simp

end Json

/-! ### The main result -/

/-- The server forbids a null in these. -/
def JobField.required : JobField → Bool
  | .queue | .priority => true
  | _ => false

theorem JobCall.change_ne_clear {call : JobCall φ} (h : call.field.required) : call.change ≠ .clear := by
  intro hclear
  cases call <;> cases hclear <;> cases h

/-- No call clears a field that is required. -/
theorem JobCall.last_ne_clear {field : JobField} (h : field.required) (calls : List (JobCall φ)) :
    last calls field ≠ .clear := by
  have hinitial : (Field.keep : Field (Given φ)) ≠ .clear := nofun
  refine Setters.last_ne hinitial (fun call hcall => ?_) calls
  exact change_ne_clear (hcall ▸ h)

section Sent
variable (numerals : Numerals ν φ) (format : Format)

/-- The JSON number of a retention time. -/
def timeJson (ms : UInt64) : Value ν := .number (numerals.natural ms.toNat)

/-- A nested retention patch shows the calls that built it, and the server does what these say to the
retention of the job. -/
structure RetentionSent (calls : List RetentionCall) (body : Value ν) : Prop where
  shows : Shows RetentionField.name (timeJson numerals) (RetentionCall.last calls) body
  patched : ∀ target, Patched RetentionField.name (timeJson numerals) (RetentionCall.last calls) target
    (mergePatch target body)

/-- The body shows the calls, and the server does what these say to a job. -/
structure Sent (calls : List (JobCall φ)) (body : Value ν) : Prop where
  shows : Shows JobField.name (Given.json numerals format) (JobCall.last calls) body
  patched : ∀ job, Patched JobField.name (Given.json numerals format) (JobCall.last calls) job (mergePatch job body)
  required : ∀ field : JobField, field.required → child (.field field.name) body ≠ some .null
  retention : ∀ nested, JobCall.last calls .retention = .set (.retention (.build nested)) →
    ∃ inner, child (.field "retention") body = some inner ∧ RetentionSent numerals nested inner

theorem RetentionPatch.sent (calls : List RetentionCall) :
    RetentionSent numerals calls ((Given.retention (.build calls) : Given φ).json numerals format) := by
  have hshows := (RetentionPatch.build calls).shows numerals format
  rw [RetentionPatch.get_build] at hshows
  exact ⟨hshows, hshows.patched fun _ => rfl⟩

theorem JobPatch.sent (calls : List (JobCall φ)) :
    ∃ datum, (JobPatch.build calls).serialize numerals = some datum ∧
      Sent numerals format calls (wireValue format datum) := by
  obtain ⟨datum, hdatum, hshows⟩ := (JobPatch.build calls).shows numerals format
  rw [JobPatch.get_build] at hshows
  refine ⟨datum, hdatum, hshows, hshows.patched (Given.json_isNull numerals format), ?_, ?_⟩
  · intro field hfield
    rw [hshows.field]
    cases hlast : JobCall.last calls field with
    | keep => exact nofun
    | clear => exact absurd hlast (JobCall.last_ne_clear hfield calls)
    | set given =>
      intro heq
      have hnull := given.json_isNull numerals format
      rw [Option.some.inj heq] at hnull
      cases hnull
  · intro nested hlast
    refine ⟨_, ?_, RetentionPatch.sent numerals format nested⟩
    rw [show "retention" = JobField.name .retention from rfl, hshows.field, hlast]
    rfl

end Sent

theorem RetentionPatch.build_swap {a b : RetentionCall} (h : a.field ≠ b.field)
    (before after : List RetentionCall) :
    build (before ++ a :: b :: after) = build (before ++ b :: a :: after) :=
  retentionSetters_lawful.foldl_swap ext_get h before after {}

theorem JobPatch.build_swap {a b : JobCall φ} (h : a.field ≠ b.field) (before after : List (JobCall φ)) :
    build (before ++ a :: b :: after) = build (before ++ b :: a :: after) :=
  jobSetters_lawful.foldl_swap ext_get h before after {}

/-- **Main theorem.** A patch is always serialized, and what is sent, and done to a job with it, is what the
last call on each field says; the order of calls on different fields is of no account. -/
theorem jobPatch_exact (numerals : Numerals ν φ) (format : Format) (calls : List (JobCall φ)) :
    (∃ datum, (JobPatch.build calls).serialize numerals = some datum ∧
      Sent numerals format calls (wireValue format datum)) ∧
    (∀ before (a b : JobCall φ) after, a.field ≠ b.field →
      JobPatch.build (before ++ a :: b :: after) = .build (before ++ b :: a :: after)) ∧
    (∀ before (a b : RetentionCall) after, a.field ≠ b.field →
      RetentionPatch.build (before ++ a :: b :: after) = .build (before ++ b :: a :: after)) :=
  ⟨JobPatch.sent numerals format calls, fun before _ _ after h => JobPatch.build_swap h before after,
    fun before _ _ after h => RetentionPatch.build_swap h before after⟩

/-- Numbers by their texts. -/
def texts : Numerals String String where
  natural := toString
  float text := .number text

/-- Set, cleared, and kept after all. -/
def slower : List (JobCall String) :=
  [.moveToQueue "low", .priority 10, .readyAt 1234, .clearBackoff, .clearRetryLimit,
    .retention [.completedMs 5, .keepCompletedMs, .deadMs 7, .completedMs 86400000, .clearDeadMs],
    .backoff ⟨1000, "1.5", 250⟩, .keepReadyAt]

theorem jobPatch_exact_slower :
    ∃ datum, (JobPatch.build slower).serialize texts = some datum ∧
      (child (.field "queue") (wireValue .json datum) = some (.string "low") ∧
        child (.field "priority") (wireValue .json datum) = some (.number "10") ∧
        child (.field "ready_at") (wireValue .json datum) = none ∧
        child (.field "retry_limit") (wireValue .json datum) = some .null ∧
        child (.field "backoff") (wireValue .json datum) = some (.object [("base_ms", .number "1000"),
          ("exponent", .number "1.5"), ("jitter_ms", .number "250")])) ∧
      child (.field "retention") (wireValue .json datum) =
        some (.object [("completed_ms", .number "86400000"), ("dead_ms", .null)]) := by
  obtain ⟨datum, hdatum, hsent⟩ := (jobPatch_exact texts .json slower).1
  have hfield := hsent.shows.field
  exact ⟨datum, hdatum, ⟨hfield .queue, hfield .priority, hfield .readyAt, hfield .retryLimit, hfield .backoff⟩,
    hfield .retention⟩

end Zizq.Patch
