import Mathlib.Data.List.Perm.Basic
import Zizq.Client.Url
import Zizq.Resources.Request

/-! Cron schedules.

A schedule is an entry after an entry, each with the job that it enqueues, and a timezone
and a pause for the group; the server is as documented here, where it keeps what it is
sent and decides on the rest. So the group that it answers with has the entries of the
schedule, each with its own settings and those of its job, and no job that is timed
(`schedule_reads_back`). -/
namespace Zizq.Resources
open Batch Client Data Json Patch
variable {ν φ : Type}

/-! ### What is written -/

/-- The body of an entry: its name, when it fires, and the job that it enqueues. -/
structure CronEntryBody (ν φ : Type) where
  name : String
  expression : String
  timezone : Option String
  paused : Option Bool
  job : Request ν φ

/-- An entry as it is built, around the builder of its job. -/
structure CronEntry (ν φ : Type) where
  name : String
  expression : String
  timezone : Option String
  paused : Option Bool
  job : Except ZizqError (Request ν φ)

namespace CronEntry

def new (name expression : String) (kind : Kind φ) (job : Builder ν φ) : CronEntry ν φ where
  name := name
  expression := expression
  timezone := none
  paused := none
  job := .ok (intoRequest kind job)

variable (entry : CronEntry ν φ)

def setTimezone (timezone : String) : CronEntry ν φ := { entry with timezone := some timezone }
def setPaused (paused : Bool) : CronEntry ν φ := { entry with paused := some paused }

def intoBody : Except ZizqError (CronEntryBody ν φ) := do
  return ⟨entry.name, entry.expression, entry.timezone, entry.paused, ← entry.job⟩

end CronEntry

/-- The body that replaces a group. -/
structure ReplaceCronGroupBody (ν φ : Type) where
  paused : Option Bool
  timezone : Option String
  entries : List (CronEntryBody ν φ)

/-- The builder; once an entry has no body it keeps that error. -/
structure ReplaceCronBuilder (ν φ : Type) where
  name : String
  paused : Option Bool
  timezone : Option String
  entries : Except ZizqError (List (CronEntryBody ν φ))

namespace ReplaceCronBuilder

def new (name : String) : ReplaceCronBuilder ν φ where
  name := name
  paused := none
  timezone := none
  entries := .ok []

variable (builder : ReplaceCronBuilder ν φ)

/-- `entry`: the first error is kept. -/
def addEntry (entry : CronEntry ν φ) : ReplaceCronBuilder ν φ :=
  match builder.entries with
  | .ok entries =>
    match entry.intoBody with
    | .ok body => { builder with entries := .ok (entries ++ [body]) }
    | .error e => { builder with entries := .error e }
  | .error _ => builder

def setPaused (paused : Bool) : ReplaceCronBuilder ν φ := { builder with paused := some paused }
def setTimezone (timezone : String) : ReplaceCronBuilder ν φ := { builder with timezone := some timezone }

/-- What is sent, and by which call. -/
def intoFuture : Except ZizqError (Client.Call × ReplaceCronGroupBody ν φ) := do
  return (.replaceCron builder.name, ⟨builder.paused, builder.timezone, ← builder.entries⟩)

end ReplaceCronBuilder

def addCronEntry (group : String) (entry : CronEntry ν φ) : Except ZizqError (Client.Call × CronEntryBody ν φ) := do
  return (.addCronEntry group, ← entry.intoBody)

/-- The name in the path is that of the body. -/
def putCronEntry (group : String) (entry : CronEntry ν φ) : Except ZizqError (Client.Call × CronEntryBody ν φ) := do
  let body ← entry.intoBody
  return (.putCronEntry group body.name, body)

section Members
variable (numerals : Numerals ν φ) (format : Format)

def entryMembers (body : CronEntryBody ν φ) : List (String × Value ν) :=
  [("name", .string body.name), ("expression", .string body.expression)] ++ given "timezone" .string body.timezone ++
    given "paused" .bool body.paused ++ [("job", .object (requestMembers numerals format body.job))]

def groupMembers (body : ReplaceCronGroupBody ν φ) : List (String × Value ν) :=
  given "paused" .bool body.paused ++ given "timezone" .string body.timezone ++
    [("entries", .array (body.entries.map fun entry => .object (entryMembers numerals format entry)))]

end Members

/-! ### What is read -/

/-- The job of an entry, as the server holds it. -/
structure JobTemplate (ν φ : Type) where
  jobType : String
  queue : String
  payload : Option (Value ν)
  priority : Option UInt16
  retryLimit : Option UInt32
  backoff : Option (BackoffConfig φ)
  retention : Option RetentionConfig
  uniqueKey : Option String
  uniqueWhile : Option Key.UniqueScope
  budgets : List BudgetBinding

/-- An entry, as the server holds it. -/
structure CronEntryRecord (ν φ : Type) where
  name : String
  expression : String
  timezone : Option String
  paused : Bool
  pausedAt : Option UInt64
  resumedAt : Option UInt64
  job : JobTemplate ν φ
  nextEnqueueAt : Option UInt64
  lastEnqueueAt : Option UInt64

/-- A group of entries, as the server holds it. -/
structure CronGroup (ν φ : Type) where
  name : String
  paused : Bool
  timezone : Option String
  pausedAt : Option UInt64
  resumedAt : Option UInt64
  entries : List (CronEntryRecord ν φ)

section Read
variable (formatted : Formatted ν φ)

def JobTemplate.read : Value ν → Option (JobTemplate ν φ) :=
  readStruct ["type", "queue", "payload", "priority", "retry_limit", "backoff", "retention", "unique_key",
      "unique_while", "budgets"] fun members => do
    let jobType ← required readString "type" members
    let queue ← required readString "queue" members
    let payload ← Client.optional (fun v => some (collect v)) "payload" members
    let priority ← Client.optional (readU16 formatted.natural) "priority" members
    let retryLimit ← Client.optional (readU32 formatted.natural) "retry_limit" members
    let backoff ← Client.optional (BackoffConfig.read formatted) "backoff" members
    let retention ← Client.optional (RetentionConfig.read formatted) "retention" members
    let uniqueKey ← Client.optional readString "unique_key" members
    let uniqueWhile ← Client.optional (readScope formatted) "unique_while" members
    let budgets ← defaulted (readVec (BudgetBinding.read formatted)) [] "budgets" members
    return ⟨jobType, queue, payload, priority, retryLimit, backoff, retention, uniqueKey, uniqueWhile, budgets⟩

def CronEntryRecord.read : Value ν → Option (CronEntryRecord ν φ) :=
  readStruct ["name", "expression", "timezone", "paused", "paused_at", "resumed_at", "job", "next_enqueue_at",
      "last_enqueue_at"] fun members => do
    let name ← required readString "name" members
    let expression ← required readString "expression" members
    let timezone ← Client.optional readString "timezone" members
    let paused ← required readBool "paused" members
    let pausedAt ← Client.optional (readU64 formatted.natural) "paused_at" members
    let resumedAt ← Client.optional (readU64 formatted.natural) "resumed_at" members
    let job ← required (JobTemplate.read formatted) "job" members
    let nextEnqueueAt ← Client.optional (readU64 formatted.natural) "next_enqueue_at" members
    let lastEnqueueAt ← Client.optional (readU64 formatted.natural) "last_enqueue_at" members
    return ⟨name, expression, timezone, paused, pausedAt, resumedAt, job, nextEnqueueAt, lastEnqueueAt⟩

def CronGroup.read : Value ν → Option (CronGroup ν φ) :=
  readStruct ["name", "paused", "timezone", "paused_at", "resumed_at", "entries"] fun members => do
    let name ← required readString "name" members
    let paused ← required readBool "paused" members
    let timezone ← Client.optional readString "timezone" members
    let pausedAt ← Client.optional (readU64 formatted.natural) "paused_at" members
    let resumedAt ← Client.optional (readU64 formatted.natural) "resumed_at" members
    let entries ← required (readVec (CronEntryRecord.read formatted)) "entries" members
    return ⟨name, paused, timezone, pausedAt, resumedAt, entries⟩

end Read

/-! ### What a schedule settles -/

/-- The setters of an entry. -/
inductive EntryCall where
  | timezone (timezone : String)
  | paused (paused : Bool)

namespace EntryCall

def timezone? : EntryCall → Option String
  | .timezone zone => some zone
  | .paused _ => none

def paused? : EntryCall → Option Bool
  | .paused flag => some flag
  | .timezone _ => none

end EntryCall

def CronEntry.apply (entry : CronEntry ν φ) : EntryCall → CronEntry ν φ
  | .timezone timezone => entry.setTimezone timezone
  | .paused paused => entry.setPaused paused

/-- An entry of a schedule: an enqueue, and the calls on the entry. -/
structure Entry (ν φ : Type) where
  name : String
  expression : String
  job : Enqueue ν φ
  calls : List EntryCall

namespace Entry
variable (e : Entry ν φ)

def cronEntry : CronEntry ν φ :=
  e.calls.foldl CronEntry.apply
    (.new e.name e.expression e.job.kind (e.job.calls.foldl Builder.apply (Builder.new e.job.payload)))

def timezone : Option String := Setters.latest EntryCall.timezone? e.calls
def paused : Option Bool := Setters.latest EntryCall.paused? e.calls
def body : CronEntryBody ν φ := ⟨e.name, e.expression, e.timezone, e.paused, e.job.request⟩

end Entry

/-- The setters of the builder. -/
inductive ReplaceCall (ν φ : Type) where
  | entry (entry : Entry ν φ)
  | paused (paused : Bool)
  | timezone (timezone : String)

namespace ReplaceCall

def entry? : ReplaceCall ν φ → Option (Entry ν φ)
  | .entry e => some e
  | _ => none

def timezone? : ReplaceCall ν φ → Option String
  | .timezone zone => some zone
  | _ => none

def paused? : ReplaceCall ν φ → Option Bool
  | .paused flag => some flag
  | _ => none

end ReplaceCall

def ReplaceCronBuilder.apply (builder : ReplaceCronBuilder ν φ) : ReplaceCall ν φ → ReplaceCronBuilder ν φ
  | .entry e => builder.addEntry e.cronEntry
  | .paused paused => builder.setPaused paused
  | .timezone timezone => builder.setTimezone timezone

/-- A group with all that is called on its builder. -/
structure Schedule (ν φ : Type) where
  name : String
  calls : List (ReplaceCall ν φ)

namespace Schedule
variable (s : Schedule ν φ)

def builder : ReplaceCronBuilder ν φ := s.calls.foldl ReplaceCronBuilder.apply (.new s.name)
def entries : List (Entry ν φ) := s.calls.filterMap ReplaceCall.entry?
def timezone : Option String := Setters.latest ReplaceCall.timezone? s.calls
def paused : Option Bool := Setters.latest ReplaceCall.paused? s.calls
def body : ReplaceCronGroupBody ν φ := ⟨s.paused, s.timezone, s.entries.map Entry.body⟩

end Schedule

/-- No call on an entry touches its name, its expression or its job. -/
theorem cronEntry_foldl_apply (entry : CronEntry ν φ) (calls : List EntryCall) :
    let built := calls.foldl CronEntry.apply entry
    built.name = entry.name ∧ built.expression = entry.expression ∧ built.job = entry.job := by
  induction calls generalizing entry with
  | nil => exact ⟨rfl, rfl, rfl⟩
  | cons call calls ih =>
    obtain ⟨hname, hexpression, hjob⟩ := ih (entry.apply call)
    cases call <;> exact ⟨hname, hexpression, hjob⟩

/-- There is a body, as no time is set. -/
theorem intoBody_cronEntry (e : Entry ν φ) : e.cronEntry.intoBody = .ok e.body := by
  have htimezone : e.cronEntry.timezone = e.timezone :=
    Setters.get_foldl_of_none (fun _ call => by cases call <;> rfl) rfl _
  have hpaused : e.cronEntry.paused = e.paused :=
    Setters.get_foldl_of_none (fun _ call => by cases call <;> rfl) rfl _
  obtain ⟨hname, hexpression, hjob⟩ := cronEntry_foldl_apply
    (.new e.name e.expression e.job.kind (e.job.calls.foldl Builder.apply (Builder.new e.job.payload))) e.calls
  rw [← Entry.cronEntry] at hname hexpression hjob
  rw [CronEntry.intoBody, htimezone, hpaused, hname, hexpression, hjob]
  rfl

/-- Adding an entry touches nothing but the entries. -/
theorem addEntry_frame (builder : ReplaceCronBuilder ν φ) (entry : CronEntry ν φ) :
    (builder.addEntry entry).name = builder.name ∧ (builder.addEntry entry).timezone = builder.timezone ∧
      (builder.addEntry entry).paused = builder.paused := by
  rw [ReplaceCronBuilder.addEntry]
  split
  · split <;> exact ⟨rfl, rfl, rfl⟩
  · exact ⟨rfl, rfl, rfl⟩

/-- Every entry is in the body, for the job of an entry is always a request. -/
theorem entries_foldl_apply {builder : ReplaceCronBuilder ν φ} {entries : List (CronEntryBody ν φ)}
    (h : builder.entries = .ok entries) (calls : List (ReplaceCall ν φ)) :
    let built := calls.foldl ReplaceCronBuilder.apply builder
    built.name = builder.name ∧
      built.entries = .ok (entries ++ (calls.filterMap ReplaceCall.entry?).map Entry.body) := by
  induction calls generalizing builder entries with
  | nil => exact ⟨rfl, by simpa using h⟩
  | cons call calls ih =>
    cases call with
    | entry e =>
      have hadded : (builder.addEntry e.cronEntry).entries = .ok (entries ++ [e.body]) := by
        rw [ReplaceCronBuilder.addEntry, h, intoBody_cronEntry]
      obtain ⟨hname, hentries⟩ := ih hadded
      refine ⟨hname.trans (addEntry_frame _ _).1, hentries.trans ?_⟩
      rw [List.append_assoc]
      rfl
    | paused | timezone => exact ih h

theorem Schedule.intoFuture_builder (s : Schedule ν φ) :
    s.builder.intoFuture = .ok (.replaceCron s.name, s.body) := by
  have htimezone : s.builder.timezone = s.timezone := by
    refine Setters.get_foldl_of_none (fun builder call => ?_) rfl _
    cases call with
    | entry e => exact (addEntry_frame _ _).2.1
    | _ => rfl
  have hpaused : s.builder.paused = s.paused := by
    refine Setters.get_foldl_of_none (fun builder call => ?_) rfl _
    cases call with
    | entry e => exact (addEntry_frame _ _).2.2
    | _ => rfl
  have hnew : (.new s.name : ReplaceCronBuilder ν φ).entries = .ok [] := rfl
  obtain ⟨hname, hentries⟩ : s.builder.name = s.name ∧ s.builder.entries = .ok (s.entries.map Entry.body) :=
    entries_foldl_apply hnew s.calls
  rw [ReplaceCronBuilder.intoFuture, htimezone, hpaused, hname, hentries]
  rfl

/-! ### The server -/

/-- The template that a cron entry has for its job. A job that sets a time is rejected. -/
structure Templates (formatted : Formatted ν φ) (request members : List (String × Value ν)) : Prop where
  kept : ∀ name ∈ ["type", "queue", "payload"], stated name members = stated name request
  unset : ∀ name ∈ ["priority", "retry_limit", "backoff", "retention", "unique_key", "unique_while"],
    Keeps name request members
  budgets : Bound formatted (stated "budgets" request) (stated "budgets" members)
  untimed : stated "ready_at" request = []

/-- The record of an entry. The server decides whether it is paused if the entry does not. -/
structure Records (formatted : Formatted ν φ) (entry members : List (String × Value ν)) : Prop where
  kept : ∀ name ∈ ["name", "expression"], stated name members = stated name entry
  timezone : Keeps "timezone" entry members
  decided : stated "paused" entry ≠ [] → stated "paused" members = stated "paused" entry
  job : ∃ request template, stated "job" entry = [.object request] ∧ stated "job" members = [.object template] ∧
    Templates formatted request template
  paused : (required readBool "paused" members).isSome
  times : ∀ name ∈ ["paused_at", "resumed_at", "next_enqueue_at", "last_enqueue_at"],
    (Client.optional (readU64 formatted.natural) name members).isSome

/-- The group after it was replaced: in full, so that its timezone is the one that was sent, with the entries in any
order. -/
structure Replaces (formatted : Formatted ν φ) (name : String) (group members : List (String × Value ν)) : Prop where
  name : stated "name" members = [.string name]
  timezone : Keeps "timezone" group members
  decided : stated "paused" group ≠ [] → stated "paused" members = stated "paused" group
  entries : ∃ entries arranged records : List (List (String × Value ν)),
    stated "entries" group = [.array (entries.map .object)] ∧ entries.Perm arranged ∧
      List.Forall₂ (Records formatted) arranged records ∧ stated "entries" members = [.array (records.map .object)]
  paused : (required readBool "paused" members).isSome
  times : ∀ name ∈ ["paused_at", "resumed_at"], (Client.optional (readU64 formatted.natural) name members).isSome

/-! ### Reading it back -/

/-- The template of a job shows what its enqueue asks for. -/
structure TemplateShows (name : String) (payload : Value ν) (settings : Settings φ) (template : JobTemplate ν φ) :
    Prop where
  jobType : template.jobType = name
  queue : template.queue = settings.queue
  payload : template.payload = if payload.isNull then none else some (collect payload)
  priority : template.priority = settings.priority
  retryLimit : template.retryLimit = settings.retryLimit
  backoff : template.backoff = settings.backoff
  retention : template.retention = settings.retention
  uniqueKey : template.uniqueKey = settings.uniqueKey.map (·.key)
  uniqueWhile : template.uniqueWhile = settings.uniqueKey.bind (·.scope)
  budgets : template.budgets = settings.budgets.map fun binding => ⟨binding.key, binding.cost.getD 1⟩
  untimed : settings.readyAt = none

/-- A record has what its entry was given. -/
structure Entry.Shows (format : Format) (e : Entry ν φ) (record : CronEntryRecord ν φ) : Prop where
  name : record.name = e.name
  expression : record.expression = e.expression
  timezone : record.timezone = e.timezone
  paused : ∀ flag, e.paused = some flag → record.paused = flag
  job : TemplateShows e.job.kind.name (payloadRead format e.job.request) e.job.settings record.job

section Back
variable {numerals : Numerals ν φ} {formatted : Formatted ν φ} {format : Format}
  {members : List (String × Value ν)}

/-- The template of an entry has the settings of its enqueue. -/
theorem JobTemplate.reads_back (hmirrors : Mirrors numerals formatted) (e : Enqueue ν φ)
    (hfloat : ∀ config, e.settings.backoff = some config →
      formatted.float (wireValue format (numerals.float config.exponent)) = some config.exponent)
    (h : Templates formatted (requestMembers numerals format e.request) members) :
    ∃ template, JobTemplate.read formatted (.object members) = some template ∧
      TemplateShows e.kind.name (payloadRead format e.request) e.settings template := by
  have hlookup := stated_requestMembers numerals format e
  have hunset : ∀ name ∈ ["retry_limit", "backoff", "retention", "unique_key"], Keeps name _ members :=
    fun name hname => h.unset name (List.mem_cons_of_mem _ (List.mem_append_left ["unique_while"] hname))
  have hcarried := e.carried hmirrors format hfloat rfl h.kept hunset h.budgets
  have hpriority : Client.optional (readU16 formatted.natural) "priority" members = some e.settings.priority :=
    optional_of_keeps (fun n _ => readOption_natural (readU16_natural hmirrors n)) (by simp [hlookup, stated_cons])
      (h.unset _ (by simp))
  have hscope : Client.optional (readScope formatted) "unique_while" members =
      some (e.settings.uniqueKey.bind (·.scope)) := by
    have hread (scope : Key.UniqueScope) :
        readOption (readScope formatted) (.string (scopeName scope)) = some (some scope) := by
      show (readScope formatted (.string (scopeName scope))).map some = _
      rw [readScope, hmirrors.lawful (scopeName scope), Option.map_some, scopeOf_scopeName]
      rfl
    exact optional_of_keeps (fun scope _ => hread scope) (by simp [hlookup, stated_cons]) (h.unset _ (by simp))
  have huntimed : e.settings.readyAt = none := by
    have hready := h.untimed
    rw [hlookup] at hready
    simpa [stated_cons] using hready
  refine ⟨⟨_, _, _, _, _, _, _, _, _, _⟩, ?_, ⟨rfl, rfl, rfl, rfl, rfl, rfl, rfl, rfl, rfl, rfl, huntimed⟩⟩
  rw [JobTemplate.read, readStruct, hcarried.jobType, hcarried.queue, hcarried.payload, hpriority,
    hcarried.retryLimit, hcarried.backoff, hcarried.retention, hcarried.uniqueKey, hscope, hcarried.budgets]
  rfl

theorem optional_timezone {timezone : Option String} {request : List (String × Value ν)}
    (hrequest : stated "timezone" request = (timezone.map .string).toList) (h : Keeps "timezone" request members) :
    Client.optional readString "timezone" members = some timezone :=
  optional_of_keeps (fun zone _ => show readOption readString (.string zone) = some (some zone) from rfl) hrequest h

theorem paused_of_decided {paused : Option Bool} {request : List (String × Value ν)} {read : Bool}
    (hread : required readBool "paused" members = some read)
    (hrequest : stated "paused" request = (paused.map .bool).toList)
    (h : stated "paused" request ≠ [] → stated "paused" members = stated "paused" request) (flag : Bool)
    (hflag : paused = some flag) : read = flag := by
  subst hflag
  have hstated : stated "paused" members = [.bool flag] := (h (by simp [hrequest])).trans hrequest
  exact Option.some.inj (hread.symm.trans ((required_eq_some_iff ..).mpr ⟨_, hstated, rfl⟩))

/-- One entry, as it is added or put. -/
theorem CronEntryRecord.reads_back (hmirrors : Mirrors numerals formatted) (e : Entry ν φ)
    (hfloat : ∀ config, e.job.settings.backoff = some config →
      formatted.float (wireValue format (numerals.float config.exponent)) = some config.exponent)
    (h : Records formatted (entryMembers numerals format e.body) members) :
    ∃ record, CronEntryRecord.read formatted (.object members) = some record ∧ e.Shows format record := by
  have hlookup (name : String) : stated name (entryMembers numerals format e.body) =
      stated name [("name", .string e.name), ("expression", .string e.expression)] ++
        (if "timezone" = name then (e.timezone.map .string).toList else []) ++
        (if "paused" = name then (e.paused.map .bool).toList else []) ++
        stated name [("job", .object (requestMembers numerals format e.job.request))] := by
    simp only [entryMembers, stated_append, stated_given]
    rfl
  have hname : required readString "name" members = some e.name :=
    (required_eq_some_iff ..).mpr
      ⟨.string e.name, (h.kept "name" (by simp)).trans (by simp [hlookup, stated_cons]), rfl⟩
  have hexpression : required readString "expression" members = some e.expression :=
    (required_eq_some_iff ..).mpr
      ⟨.string e.expression, (h.kept "expression" (by simp)).trans (by simp [hlookup, stated_cons]), rfl⟩
  have htimezone : Client.optional readString "timezone" members = some e.timezone :=
    optional_timezone (by simp [hlookup, stated_cons]) h.timezone
  obtain ⟨template, hjob, htemplate⟩ : ∃ template,
      required (JobTemplate.read formatted) "job" members = some template ∧
      TemplateShows e.job.kind.name (payloadRead format e.job.request) e.job.settings template := by
    obtain ⟨request, job, hrequest, hjob, htemplates⟩ := h.job
    obtain rfl : requestMembers numerals format e.job.request = request := by
      simpa [hlookup, stated_cons] using hrequest
    obtain ⟨template, hread, hshows⟩ := JobTemplate.reads_back hmirrors e.job hfloat htemplates
    exact ⟨template, (required_eq_some_iff ..).mpr ⟨_, hjob, hread⟩, hshows⟩
  obtain ⟨paused, hpaused⟩ := Option.isSome_iff_exists.mp h.paused
  obtain ⟨pausedAt, hpausedAt⟩ := Option.isSome_iff_exists.mp (h.times "paused_at" (by simp))
  obtain ⟨resumedAt, hresumedAt⟩ := Option.isSome_iff_exists.mp (h.times "resumed_at" (by simp))
  obtain ⟨nextAt, hnext⟩ := Option.isSome_iff_exists.mp (h.times "next_enqueue_at" (by simp))
  obtain ⟨lastAt, hlast⟩ := Option.isSome_iff_exists.mp (h.times "last_enqueue_at" (by simp))
  have hsent : stated "paused" (entryMembers numerals format e.body) = (e.paused.map .bool).toList := by
    simp [hlookup, stated_cons]
  have hflag := paused_of_decided hpaused hsent h.decided
  refine ⟨⟨e.name, e.expression, e.timezone, paused, pausedAt, resumedAt, template, nextAt, lastAt⟩, ?_,
    ⟨rfl, rfl, rfl, hflag, htemplate⟩⟩
  rw [CronEntryRecord.read, readStruct, hname, hexpression, htimezone, hpaused, hpausedAt, hresumedAt, hjob, hnext,
    hlast]
  rfl

theorem mapM_records (hmirrors : Mirrors numerals formatted) {entries : List (Entry ν φ)}
    (hfloat : ∀ e ∈ entries, ∀ config, e.job.settings.backoff = some config →
      formatted.float (wireValue format (numerals.float config.exponent)) = some config.exponent)
    {records : List (List (String × Value ν))}
    (h : List.Forall₂ (fun e members => Records formatted (entryMembers numerals format e.body) members)
      entries records) :
    ∃ read, (records.map .object).mapM (CronEntryRecord.read formatted) = some read ∧
      List.Forall₂ (Entry.Shows format) entries read := by
  induction h with
  | nil => exact ⟨[], rfl, .nil⟩
  | cons hrecord _ ih =>
    obtain ⟨hhead, htail⟩ := List.forall_mem_cons.mp hfloat
    obtain ⟨record, hread, hshows⟩ := CronEntryRecord.reads_back hmirrors _ hhead hrecord
    obtain ⟨rest, hrest, hall⟩ := ih htail
    refine ⟨record :: rest, ?_, .cons hshows hall⟩
    rw [List.map_cons, List.mapM_cons, hread, hrest]
    rfl

/-- The group of a schedule. -/
theorem CronGroup.reads_back (hmirrors : Mirrors numerals formatted) (s : Schedule ν φ)
    (hfloat : ∀ e ∈ s.entries, ∀ config, e.job.settings.backoff = some config →
      formatted.float (wireValue format (numerals.float config.exponent)) = some config.exponent)
    (h : Replaces formatted s.name (groupMembers numerals format s.body) members) :
    ∃ group, CronGroup.read formatted (.object members) = some group ∧ group.name = s.name ∧
      group.timezone = s.timezone ∧ (∀ flag, s.paused = some flag → group.paused = flag) ∧
      ∃ arranged, s.entries.Perm arranged ∧ List.Forall₂ (Entry.Shows format) arranged group.entries := by
  have hlookup (name : String) : stated name (groupMembers numerals format s.body) =
      (if "paused" = name then (s.paused.map .bool).toList else []) ++
        (if "timezone" = name then (s.timezone.map .string).toList else []) ++
        stated name [("entries",
          .array ((s.entries.map fun e => entryMembers numerals format e.body).map .object))] := by
    simp only [groupMembers, stated_append, stated_given, Schedule.body, List.map_map]
    rfl
  have hname : required readString "name" members = some s.name := (required_eq_some_iff ..).mpr ⟨_, h.name, rfl⟩
  have htimezone : Client.optional readString "timezone" members = some s.timezone :=
    optional_timezone (by simp [hlookup, stated_cons]) h.timezone
  obtain ⟨arranged, read, hperm, hentries, hshows⟩ : ∃ arranged read, s.entries.Perm arranged ∧
      required (readVec (CronEntryRecord.read formatted)) "entries" members = some read ∧
      List.Forall₂ (Entry.Shows format) arranged read := by
    obtain ⟨sent, arranged, records, hsent, hperm, hrecords, hstated⟩ := h.entries
    have harray : (s.entries.map fun e => entryMembers numerals format e.body).map Value.object =
        sent.map Value.object := by
      simpa [hlookup, stated_cons] using hsent
    obtain rfl := (List.map_inj_right fun _ _ => Value.object.inj).mp harray
    obtain ⟨entries, rfl, hentries⟩ := (congrFun₂ (List.eq_map_comp_perm _) _ _).mpr hperm.symm
    rw [List.forall₂_map_left_iff] at hrecords
    have hfloat' : ∀ e ∈ entries, _ := fun e he => hfloat e (hentries.mem_iff.mp he)
    obtain ⟨read, hread, hshows⟩ := mapM_records hmirrors hfloat' hrecords
    exact ⟨entries, read, hentries.symm, (required_eq_some_iff ..).mpr ⟨_, hstated, hread⟩, hshows⟩
  obtain ⟨paused, hpaused⟩ := Option.isSome_iff_exists.mp h.paused
  obtain ⟨pausedAt, hpausedAt⟩ := Option.isSome_iff_exists.mp (h.times "paused_at" (by simp))
  obtain ⟨resumedAt, hresumedAt⟩ := Option.isSome_iff_exists.mp (h.times "resumed_at" (by simp))
  have hsent : stated "paused" (groupMembers numerals format s.body) = (s.paused.map .bool).toList := by
    simp [hlookup, stated_cons]
  have hflag := paused_of_decided hpaused hsent h.decided
  refine ⟨⟨s.name, paused, s.timezone, pausedAt, resumedAt, read⟩, ?_, rfl, rfl, hflag, arranged, hperm, hshows⟩
  rw [CronGroup.read, readStruct, hname, hpaused, htimezone, hpausedAt, hresumedAt, hentries]
  rfl

end Back

/-- **Main theorem.** Whatever is called on the builder of a schedule, on its entries and on the builders of their
jobs, in any order, there is a body to send. The group that a server answers with has the last timezone, and the last
pause if any, and its entries are those of the schedule, each with the last timezone and pause of its own, and with
what its enqueue asks for, which is no time. An entry that is added or put by itself is read like one of the group. -/
theorem schedule_reads_back {numerals : Numerals ν φ} {formatted : Formatted ν φ}
    (hmirrors : Mirrors numerals formatted) (format : Format) (s : Schedule ν φ)
    (hfloat : ∀ e ∈ s.entries, ∀ config, e.job.settings.backoff = some config →
      formatted.float (wireValue format (numerals.float config.exponent)) = some config.exponent) :
    (∃ body, s.builder.intoFuture = .ok (.replaceCron s.name, body) ∧
      ∀ answer, Replaces formatted s.name (groupMembers numerals format body) answer →
        ∃ group, CronGroup.read formatted (.object answer) = some group ∧ group.name = s.name ∧
          group.timezone = s.timezone ∧ (∀ flag, s.paused = some flag → group.paused = flag) ∧
          ∃ arranged, s.entries.Perm arranged ∧ List.Forall₂ (Entry.Shows format) arranged group.entries) ∧
    ∀ e ∈ s.entries, ∃ body, addCronEntry s.name e.cronEntry = .ok (.addCronEntry s.name, body) ∧
      putCronEntry s.name e.cronEntry = .ok (.putCronEntry s.name e.name, body) ∧
      ∀ answer, Records formatted (entryMembers numerals format body) answer →
        ∃ record, CronEntryRecord.read formatted (.object answer) = some record ∧ e.Shows format record := by
  refine ⟨⟨s.body, s.intoFuture_builder, fun answer h => CronGroup.reads_back hmirrors s hfloat h⟩, fun e he => ?_⟩
  refine ⟨e.body, ?_, ?_, fun answer h => CronEntryRecord.reads_back hmirrors e (hfloat e he) h⟩
  · rw [addCronEntry, intoBody_cronEntry]
    rfl
  · rw [putCronEntry, intoBody_cronEntry]
    rfl

/-- The group's timezone is set twice, and one of the two entries has its own. -/
def nightly : Schedule Nat Nat where
  name := "nightly"
  calls := [.timezone "UTC", .entry ⟨"digest", "0 6 * * *", sendEmail, [.paused true, .timezone "UTC"]⟩,
    .entry ⟨"sweep", "0 3 * * *", sweep, []⟩, .timezone "Europe/Rome"]

def digestTemplate : List (String × Value Nat) :=
  answer.filter fun e => e.1 ∉ ["id", "status", "ready_at", "attempts", "unique_while"]

def digestRecord : List (String × Value Nat) :=
  [("name", .string "digest"), ("expression", .string "0 6 * * *"), ("timezone", .string "UTC"),
    ("paused", .bool true), ("job", .object digestTemplate)]

def sweepTemplate : List (String × Value Nat) :=
  sweepAnswer.filter fun e => e.1 ∉ ["id", "status", "priority", "ready_at", "attempts"]

def sweepRecord : List (String × Value Nat) :=
  [("name", .string "sweep"), ("expression", .string "0 3 * * *"), ("paused", .bool false),
    ("job", .object sweepTemplate)]

/-- The server has the entries by the hour. -/
def nightlyGroup : List (String × Value Nat) :=
  [("name", .string "nightly"), ("paused", .bool false), ("timezone", .string "Europe/Rome"),
    ("entries", .array [.object sweepRecord, .object digestRecord])]

theorem nightly_replaces :
    Replaces plainFormat "nightly" (groupMembers plainNumerals .json nightly.body) nightlyGroup := by
  have hdigest : Templates plainFormat (requestMembers plainNumerals .json sendEmail.request) digestTemplate :=
    ⟨by decide, by decide, sendEmail_answers.budgets, by decide⟩
  have hsweep : Templates plainFormat (requestMembers plainNumerals .json sweep.request) sweepTemplate :=
    ⟨by decide, by decide, sweep_answers.budgets, by decide⟩
  refine ⟨by decide, by decide, by decide, ⟨_, _, [sweepRecord, digestRecord], rfl, .swap ..,
    .cons ?_ (.cons ?_ .nil), rfl⟩, by decide, by decide⟩
  · exact ⟨by decide, by decide, by decide, ⟨_, _, rfl, rfl, hsweep⟩, by decide, by decide⟩
  · exact ⟨by decide, by decide, by decide, ⟨_, _, rfl, rfl, hdigest⟩, by decide, by decide⟩

theorem schedule_reads_back_nightly :
    ∃ group, CronGroup.read plainFormat (.object nightlyGroup) = some group ∧
      group.timezone = some "Europe/Rome" ∧
      (group.entries.map fun record => (record.name, record.timezone)).Perm
        [("digest", some "UTC"), ("sweep", none)] := by
  have hfloat (n : Nat) : plainFormat.float (wireValue .json (plainNumerals.float n)) = some n := rfl
  obtain ⟨⟨body, hbody, hgroup⟩, -⟩ := schedule_reads_back plain_mirrors .json nightly fun _ _ config _ => hfloat _
  obtain rfl : nightly.body = body := (Prod.mk.inj (Except.ok.inj (nightly.intoFuture_builder.symm.trans hbody))).2
  obtain ⟨group, hread, -, htimezone, -, arranged, hperm, hshows⟩ := hgroup nightlyGroup nightly_replaces
  have hentries : arranged.map (fun e => (e.name, e.timezone)) =
      group.entries.map fun record => (record.name, record.timezone) := by
    rw [← List.forall₂_eq_eq_eq, List.forall₂_map_left_iff, List.forall₂_map_right_iff]
    exact hshows.imp fun _ _ hrecord => Prod.ext hrecord.name.symm hrecord.timezone.symm
  refine ⟨group, hread, htimezone, ?_⟩
  rw [← hentries]
  exact (hperm.map _).symm

end Zizq.Resources
