import Zizq.Batch.Template
import Zizq.Client.JobFilter
import Zizq.Client.Visitor
import Zizq.Key.UniqueKey
import Zizq.Patch.Job

/-! Jobs as the client reads them.

A job is read from an object with members in any order. Members of other names are
ignored, and `JobStatus` and `UniqueScope` have a catch-all, so that a client goes on
reading what a newer server sends: a page is read with the jobs that it had, but for
these two (`page_renewed`). -/
namespace Zizq.Resources
open Batch Client Data Json Patch
variable {ν φ α : Type}

/-! ### Scalars and enumerations -/

/-- What a derived `Deserialize` impl is told of the variant of an enumeration. -/
inductive Variant where
  | name (name : String)
  | index (i : Nat)

/-- What a format makes of the values that the two formats read in their own ways. -/
structure Formatted (ν φ : Type) where
  natural : ν → Option Nat
  float : Value ν → Option φ
  variant : Value ν → Option Variant

/-- A variant without fields is written as its name. -/
def Formatted.Lawful (formatted : Formatted ν φ) : Prop :=
  ∀ name, formatted.variant (.string name) = some (.name name)

def statusOf : Variant → JobStatus
  | .name "ready" | .index 0 => .ready
  | .name "in_flight" | .index 1 => .inFlight
  | .name "scheduled" | .index 2 => .scheduled
  | .name "completed" | .index 3 => .completed
  | .name "dead" | .index 4 => .dead
  -- `serde(other)`
  | _ => .unknown

def scopeOf : Variant → Key.UniqueScope
  | .name "queued" | .index 0 => .queued
  | .name "active" | .index 1 => .active
  | .name "exists" | .index 2 => .exists
  -- `serde(other)`
  | _ => .unknown

def readBool : Value ν → Option Bool
  | .bool b => some b
  | _ => none

def readU16 (natural : ν → Option Nat) (v : Value ν) : Option UInt16 :=
  (readNatural natural (2 ^ 16) v).map UInt16.ofNat

/-- A struct is an object, or an array of its fields in the order of their declaration. -/
def readStruct (fields : List String) (visit : List (String × Value ν) → Option α) : Value ν → Option α
  | .object members => visit members
  | .array items => if items.length ≤ fields.length then visit (fields.zip items) else none
  | _ => none

mutual
/-- The members of every object as the map of a `serde_json::Value` holds them. -/
def collect : Value ν → Value ν
  | .array items => .array (collectItems items)
  | .object members => .object (ofMembers (collectMembers members))
  | v => v

def collectItems : List (Value ν) → List (Value ν)
  | [] => []
  | item :: items => collect item :: collectItems items

def collectMembers : List (String × Value ν) → List (String × Value ν)
  | [] => []
  | (key, value) :: members => (key, collect value) :: collectMembers members
end

/-! ### Resources -/

structure RetentionConfig where
  completedMs : Option UInt64
  deadMs : Option UInt64
deriving DecidableEq

structure BudgetBinding where
  key : String
  cost : UInt32
deriving DecidableEq

structure Job (ν φ : Type) where
  id : String
  jobType : String
  queue : String
  status : JobStatus
  priority : UInt16
  payload : Option (Value ν)
  readyAt : UInt64
  attempts : UInt32
  retryLimit : Option UInt32
  backoff : Option (BackoffConfig φ)
  dequeuedAt : Option UInt64
  failedAt : Option UInt64
  completedAt : Option UInt64
  retention : Option RetentionConfig
  purgeAt : Option UInt64
  uniqueKey : Option Key.UniqueKey
  duplicate : Option Bool
  folded : Option Bool
  batch : Option BatchConfig
  budgets : List BudgetBinding

structure JobFromApi (ν φ : Type) where
  id : String
  jobType : String
  queue : String
  status : JobStatus
  priority : UInt16
  payload : Option (Value ν)
  readyAt : UInt64
  attempts : UInt32
  retryLimit : Option UInt32
  backoff : Option (BackoffConfig φ)
  dequeuedAt : Option UInt64
  failedAt : Option UInt64
  completedAt : Option UInt64
  retention : Option RetentionConfig
  purgeAt : Option UInt64
  uniqueKey : Option String
  uniqueWhile : Option Key.UniqueScope
  duplicate : Option Bool
  folded : Option Bool
  batch : Option BatchConfig
  budgets : List BudgetBinding

def Job.ofApi (w : JobFromApi ν φ) : Job ν φ where
  id := w.id
  jobType := w.jobType
  queue := w.queue
  status := w.status
  priority := w.priority
  payload := w.payload
  readyAt := w.readyAt
  attempts := w.attempts
  retryLimit := w.retryLimit
  backoff := w.backoff
  dequeuedAt := w.dequeuedAt
  failedAt := w.failedAt
  completedAt := w.completedAt
  retention := w.retention
  purgeAt := w.purgeAt
  uniqueKey := w.uniqueKey.map fun key => ⟨key, w.uniqueWhile⟩
  duplicate := w.duplicate
  folded := w.folded
  batch := w.batch
  budgets := w.budgets

structure PageLinks where
  next : Option String
  prev : Option String

structure JobPage (ν φ : Type) where
  jobs : List (Job ν φ)
  pages : PageLinks

/-! ### The `Deserialize` impls -/

/-- A field with `serde(default)`. -/
def defaulted (read : Value ν → Option α) (default : α) (name : String) (members : List (String × Value ν)) :
    Option α :=
  (slot read name members).map (·.getD default)

section Read
variable (formatted : Formatted ν φ)

def BackoffConfig.read : Value ν → Option (BackoffConfig φ) :=
  readStruct ["base_ms", "exponent", "jitter_ms"] fun members => do
    let baseMs ← required (readU32 formatted.natural) "base_ms" members
    let exponent ← required formatted.float "exponent" members
    let jitterMs ← required (readU32 formatted.natural) "jitter_ms" members
    return ⟨baseMs, exponent, jitterMs⟩

def RetentionConfig.read : Value ν → Option RetentionConfig :=
  readStruct ["completed_ms", "dead_ms"] fun members => do
    let completedMs ← Client.optional (readU64 formatted.natural) "completed_ms" members
    let deadMs ← Client.optional (readU64 formatted.natural) "dead_ms" members
    return ⟨completedMs, deadMs⟩

def BatchConfig.read : Value ν → Option BatchConfig :=
  readStruct ["key", "when", "fold"] fun members => do
    let key ← required readString "key" members
    let when ← required readString "when" members
    let fold ← required readString "fold" members
    return ⟨key, when, fold⟩

def BudgetBinding.read : Value ν → Option BudgetBinding :=
  readStruct ["key", "cost"] fun members => do
    let key ← required readString "key" members
    let cost ← required (readU32 formatted.natural) "cost" members
    return ⟨key, cost⟩

def readStatus (v : Value ν) : Option JobStatus := (formatted.variant v).map statusOf

def readScope (v : Value ν) : Option Key.UniqueScope := (formatted.variant v).map scopeOf

namespace JobFromApi

def fields : List String :=
  ["id", "type", "queue", "status", "priority", "payload", "ready_at", "attempts", "retry_limit", "backoff",
    "dequeued_at", "failed_at", "completed_at", "retention", "purge_at", "unique_key", "unique_while", "duplicate",
    "folded", "batch", "budgets"]

def visitMap (members : List (String × Value ν)) : Option (JobFromApi ν φ) := do
  let id ← required readString "id" members
  let jobType ← required readString "type" members
  let queue ← required readString "queue" members
  let status ← required (readStatus formatted) "status" members
  let priority ← required (readU16 formatted.natural) "priority" members
  let payload ← Client.optional (fun v => some (collect v)) "payload" members
  let readyAt ← required (readU64 formatted.natural) "ready_at" members
  let attempts ← required (readU32 formatted.natural) "attempts" members
  let retryLimit ← Client.optional (readU32 formatted.natural) "retry_limit" members
  let backoff ← Client.optional (BackoffConfig.read formatted) "backoff" members
  let dequeuedAt ← Client.optional (readU64 formatted.natural) "dequeued_at" members
  let failedAt ← Client.optional (readU64 formatted.natural) "failed_at" members
  let completedAt ← Client.optional (readU64 formatted.natural) "completed_at" members
  let retention ← Client.optional (RetentionConfig.read formatted) "retention" members
  let purgeAt ← Client.optional (readU64 formatted.natural) "purge_at" members
  let uniqueKey ← Client.optional readString "unique_key" members
  let uniqueWhile ← Client.optional (readScope formatted) "unique_while" members
  let duplicate ← Client.optional readBool "duplicate" members
  let folded ← Client.optional readBool "folded" members
  let batch ← Client.optional BatchConfig.read "batch" members
  let budgets ← defaulted (readVec (BudgetBinding.read formatted)) [] "budgets" members
  return ⟨id, jobType, queue, status, priority, payload, readyAt, attempts, retryLimit, backoff, dequeuedAt,
    failedAt, completedAt, retention, purgeAt, uniqueKey, uniqueWhile, duplicate, folded, batch, budgets⟩

def read : Value ν → Option (JobFromApi ν φ) := readStruct fields (visitMap formatted)

end JobFromApi

def Job.read (v : Value ν) : Option (Job ν φ) := (JobFromApi.read formatted v).map .ofApi

/-- Without `serde(default)` an `Option` may be missing from an object, but not from an array. -/
def PageLinks.read : Value ν → Option PageLinks
  | .object members => do
    let next ← Client.optional readString "next" members
    let prev ← Client.optional readString "prev" members
    return ⟨next, prev⟩
  | .array [next, prev] => do return ⟨← readOption readString next, ← readOption readString prev⟩
  | _ => none

def JobPage.read : Value ν → Option (JobPage ν φ) :=
  readStruct ["jobs", "pages"] fun members => do
    let jobs ← required (readVec (Job.read formatted)) "jobs" members
    let pages ← required PageLinks.read "pages" members
    return ⟨jobs, pages⟩

end Read

/-! ### What a job is read from -/

section Shows
variable {formatted : Formatted ν φ} {members members' : List (String × Value ν)} {w : JobFromApi ν φ}

/-- Every field of the job is what the members hold for it. -/
structure JobFromApi.Shows (formatted : Formatted ν φ) (members : List (String × Value ν)) (w : JobFromApi ν φ) :
    Prop where
  id : required readString "id" members = some w.id
  jobType : required readString "type" members = some w.jobType
  queue : required readString "queue" members = some w.queue
  status : required (readStatus formatted) "status" members = some w.status
  priority : required (readU16 formatted.natural) "priority" members = some w.priority
  payload : Client.optional (fun v => some (collect v)) "payload" members = some w.payload
  readyAt : required (readU64 formatted.natural) "ready_at" members = some w.readyAt
  attempts : required (readU32 formatted.natural) "attempts" members = some w.attempts
  retryLimit : Client.optional (readU32 formatted.natural) "retry_limit" members = some w.retryLimit
  backoff : Client.optional (BackoffConfig.read formatted) "backoff" members = some w.backoff
  dequeuedAt : Client.optional (readU64 formatted.natural) "dequeued_at" members = some w.dequeuedAt
  failedAt : Client.optional (readU64 formatted.natural) "failed_at" members = some w.failedAt
  completedAt : Client.optional (readU64 formatted.natural) "completed_at" members = some w.completedAt
  retention : Client.optional (RetentionConfig.read formatted) "retention" members = some w.retention
  purgeAt : Client.optional (readU64 formatted.natural) "purge_at" members = some w.purgeAt
  uniqueKey : Client.optional readString "unique_key" members = some w.uniqueKey
  uniqueWhile : Client.optional (readScope formatted) "unique_while" members = some w.uniqueWhile
  duplicate : Client.optional readBool "duplicate" members = some w.duplicate
  folded : Client.optional readBool "folded" members = some w.folded
  batch : Client.optional BatchConfig.read "batch" members = some w.batch
  budgets : defaulted (readVec (BudgetBinding.read formatted)) [] "budgets" members = some w.budgets

theorem JobFromApi.visitMap_eq_some_iff : visitMap formatted members = some w ↔ w.Shows formatted members := by
  constructor
  · intro h
    obtain ⟨_, hid, h⟩ := Option.bind_eq_some_iff.mp h
    obtain ⟨_, htype, h⟩ := Option.bind_eq_some_iff.mp h
    obtain ⟨_, hqueue, h⟩ := Option.bind_eq_some_iff.mp h
    obtain ⟨_, hstatus, h⟩ := Option.bind_eq_some_iff.mp h
    obtain ⟨_, hpriority, h⟩ := Option.bind_eq_some_iff.mp h
    obtain ⟨_, hpayload, h⟩ := Option.bind_eq_some_iff.mp h
    obtain ⟨_, hready, h⟩ := Option.bind_eq_some_iff.mp h
    obtain ⟨_, hattempts, h⟩ := Option.bind_eq_some_iff.mp h
    obtain ⟨_, hretry, h⟩ := Option.bind_eq_some_iff.mp h
    obtain ⟨_, hbackoff, h⟩ := Option.bind_eq_some_iff.mp h
    obtain ⟨_, hdequeued, h⟩ := Option.bind_eq_some_iff.mp h
    obtain ⟨_, hfailed, h⟩ := Option.bind_eq_some_iff.mp h
    obtain ⟨_, hcompleted, h⟩ := Option.bind_eq_some_iff.mp h
    obtain ⟨_, hretention, h⟩ := Option.bind_eq_some_iff.mp h
    obtain ⟨_, hpurge, h⟩ := Option.bind_eq_some_iff.mp h
    obtain ⟨_, hkey, h⟩ := Option.bind_eq_some_iff.mp h
    obtain ⟨_, hwhile, h⟩ := Option.bind_eq_some_iff.mp h
    obtain ⟨_, hduplicate, h⟩ := Option.bind_eq_some_iff.mp h
    obtain ⟨_, hfolded, h⟩ := Option.bind_eq_some_iff.mp h
    obtain ⟨_, hbatch, h⟩ := Option.bind_eq_some_iff.mp h
    obtain ⟨_, hbudgets, h⟩ := Option.bind_eq_some_iff.mp h
    obtain rfl := Option.some.inj h
    exact ⟨hid, htype, hqueue, hstatus, hpriority, hpayload, hready, hattempts, hretry, hbackoff, hdequeued, hfailed,
      hcompleted, hretention, hpurge, hkey, hwhile, hduplicate, hfolded, hbatch, hbudgets⟩
  · intro h
    rw [visitMap, h.id, h.jobType, h.queue, h.status, h.priority, h.payload, h.readyAt, h.attempts, h.retryLimit,
      h.backoff, h.dequeuedAt, h.failedAt, h.completedAt, h.retention, h.purgeAt, h.uniqueKey, h.uniqueWhile,
      h.duplicate, h.folded, h.batch, h.budgets]
    rfl

theorem Job.read_eq_some_iff {job : Job ν φ} : Job.read formatted (.object members) = some job ↔
    ∃ w : JobFromApi ν φ, w.Shows formatted members ∧ Job.ofApi w = job := by
  simp only [← JobFromApi.visitMap_eq_some_iff]
  exact Option.map_eq_some_iff

end Shows

/-! ### Jobs of a newer server -/

/-- What a client knows is the same, in any order and among any other members, but for the status and the scope. -/
structure Renewed (status : String) (scope : Option String) (members members' : List (String × Value ν)) : Prop where
  same : ∀ name ∈ JobFromApi.fields, name ≠ "status" → name ≠ "unique_while" →
    stated name members' = stated name members
  status : stated "status" members' = [.string status]
  scope : match scope with
    | some s => stated "unique_while" members' = [.string s]
    | none => stated "unique_while" members' = [] ∨ stated "unique_while" members' = [.null]

def Job.renew (job : Job ν φ) (status : String) (scope : Option String) : Job ν φ :=
  { job with
    status := statusOf (.name status)
    uniqueKey := job.uniqueKey.map fun key => ⟨key.key, scope.map fun s => scopeOf (.name s)⟩ }

theorem statusOf_asStr (status : JobStatus) : statusOf (.name status.asStr) = status := by cases status <;> rfl

/-- A status that is not read as one of the known ones has a name of its own. -/
theorem statusOf_eq_unknown_iff {name : String} :
    statusOf (.name name) = .unknown ↔ ∀ status : JobStatus, status ≠ .unknown → status.asStr ≠ name := by
  constructor
  · intro h status hknown hname
    exact hknown (by rw [← statusOf_asStr status, hname, h])
  · intro h
    by_contra hknown
    refine h _ hknown ?_
    unfold statusOf at hknown ⊢
    split at hknown
    all_goals simp_all [JobStatus.asStr]

section Renew
variable {formatted : Formatted ν φ} {members members' : List (String × Value ν)} {status : String}
  {scope : Option String}

theorem required_congr {read : Value ν → Option α} {name : String} (h : stated name members' = stated name members) :
    required read name members' = required read name members := by
  rw [required, required, slot_congr read name h]

theorem optional_congr {read : Value ν → Option α} {name : String} (h : stated name members' = stated name members) :
    Client.optional read name members' = Client.optional read name members := by
  rw [Client.optional, Client.optional, slot_congr (readOption read) name h]

theorem defaulted_congr {read : Value ν → Option α} {default : α} {name : String}
    (h : stated name members' = stated name members) :
    defaulted read default name members' = defaulted read default name members := by
  rw [defaulted, defaulted, slot_congr read name h]

theorem optional_eq {read : Value ν → Option α} {name : String} :
    Client.optional read name members =
      match stated name members with
      | [] => some none
      | [v] => readOption read v
      | _ => none := by
  rw [Client.optional, slot_eq]
  rcases stated name members with _ | ⟨v, _ | ⟨v', rest⟩⟩
  · rfl
  · cases h : readOption read v <;> simp [h]
  · rfl

/-- A renewed job is read as it was, with the status and the scope that it has now. -/
theorem JobFromApi.Shows.renewed (hlawful : formatted.Lawful) {w : JobFromApi ν φ} (h : w.Shows formatted members)
    (hrenewed : Renewed status scope members members') :
    ({ w with status := statusOf (.name status), uniqueWhile := scope.map fun s => scopeOf (.name s) } :
      JobFromApi ν φ).Shows formatted members' := by
  have hsame (name : String) (hname : name ∈ fields ∧ name ≠ "status" ∧ name ≠ "unique_while") :
      stated name members' = stated name members := hrenewed.same name hname.1 hname.2.1 hname.2.2
  have hstatus : required (readStatus formatted) "status" members' = some (statusOf (.name status)) :=
    (required_eq_some_iff _ _).mpr ⟨_, hrenewed.status, by rw [readStatus, hlawful]; rfl⟩
  have hscope : Client.optional (readScope formatted) "unique_while" members' =
      some (scope.map fun s => scopeOf (.name s)) := by
    have hstated := hrenewed.scope
    rw [optional_eq]
    cases scope with
    | none => rcases hstated with hstated | hstated <;> simp [hstated, readOption]
    | some s => simp [show stated "unique_while" members' = _ from hstated, readOption, readScope, hlawful s]
  exact
    { id := (required_congr (hsame "id" (by decide))).trans h.id
      jobType := (required_congr (hsame "type" (by decide))).trans h.jobType
      queue := (required_congr (hsame "queue" (by decide))).trans h.queue
      status := hstatus
      priority := (required_congr (hsame "priority" (by decide))).trans h.priority
      payload := (optional_congr (hsame "payload" (by decide))).trans h.payload
      readyAt := (required_congr (hsame "ready_at" (by decide))).trans h.readyAt
      attempts := (required_congr (hsame "attempts" (by decide))).trans h.attempts
      retryLimit := (optional_congr (hsame "retry_limit" (by decide))).trans h.retryLimit
      backoff := (optional_congr (hsame "backoff" (by decide))).trans h.backoff
      dequeuedAt := (optional_congr (hsame "dequeued_at" (by decide))).trans h.dequeuedAt
      failedAt := (optional_congr (hsame "failed_at" (by decide))).trans h.failedAt
      completedAt := (optional_congr (hsame "completed_at" (by decide))).trans h.completedAt
      retention := (optional_congr (hsame "retention" (by decide))).trans h.retention
      purgeAt := (optional_congr (hsame "purge_at" (by decide))).trans h.purgeAt
      uniqueKey := (optional_congr (hsame "unique_key" (by decide))).trans h.uniqueKey
      uniqueWhile := hscope
      duplicate := (optional_congr (hsame "duplicate" (by decide))).trans h.duplicate
      folded := (optional_congr (hsame "folded" (by decide))).trans h.folded
      batch := (optional_congr (hsame "batch" (by decide))).trans h.batch
      budgets := (defaulted_congr (hsame "budgets" (by decide))).trans h.budgets }

theorem Job.read_renewed (hlawful : formatted.Lawful) {job : Job ν φ}
    (h : Job.read formatted (.object members) = some job) (hrenewed : Renewed status scope members members') :
    Job.read formatted (.object members') = some (job.renew status scope) := by
  obtain ⟨w, hw, rfl⟩ := read_eq_some_iff.mp h
  refine read_eq_some_iff.mpr ⟨_, hw.renewed hlawful hrenewed, ?_⟩
  rw [ofApi, ofApi, renew, Option.map_map]
  rfl

/-- A job as an old server sends it, and as a new one does. -/
structure Renewal (ν : Type) where
  status : String
  scope : Option String
  old : List (String × Value ν)
  new : List (String × Value ν)
  renewed : Renewed status scope old new

theorem mapM_renewals (hlawful : formatted.Lawful) {renewals : List (Renewal ν)} {jobs : List (Job ν φ)}
    (h : (renewals.map fun r => .object r.old).mapM (Job.read formatted) = some jobs) :
    (renewals.map fun r => .object r.new).mapM (Job.read formatted) =
      some (List.zipWith (fun job r => job.renew r.status r.scope) jobs renewals) := by
  induction renewals generalizing jobs with
  | nil =>
    obtain rfl := Option.some.inj h
    rfl
  | cons r renewals ih =>
    rw [List.map_cons, List.mapM_cons] at h
    obtain ⟨job, hjob, htail⟩ := Option.bind_eq_some_iff.mp h
    obtain ⟨rest, hrest, heq⟩ := Option.bind_eq_some_iff.mp htail
    obtain rfl := Option.some.inj heq
    rw [List.map_cons, List.mapM_cons, Job.read_renewed hlawful hjob r.renewed, ih hrest]
    rfl

theorem JobPage.read_eq_some_iff {page : JobPage ν φ} : JobPage.read formatted (.object members) = some page ↔
    required (readVec (Job.read formatted)) "jobs" members = some page.jobs ∧
      required PageLinks.read "pages" members = some page.pages := by
  obtain ⟨jobs, pages⟩ := page
  simp [JobPage.read, readStruct, Option.bind_eq_some_iff]

end Renew

/-- **Main theorem.** A page of a newer server is read: with the jobs as they were, but for their statuses and
scopes, which are unknown if they go by none of the known names. -/
theorem page_renewed {formatted : Formatted ν φ} (hlawful : formatted.Lawful) {before after : List (String × Value ν)}
    (renewals : List (Renewal ν)) {page : JobPage ν φ}
    (h : JobPage.read formatted
      (.object (before ++ ("jobs", .array (renewals.map fun r => .object r.old)) :: after)) = some page) :
    JobPage.read formatted (.object (before ++ ("jobs", .array (renewals.map fun r => .object r.new)) :: after)) =
        some { page with jobs := List.zipWith (fun job r => job.renew r.status r.scope) page.jobs renewals } ∧
      ∀ name, statusOf (.name name) = .unknown ↔ ∀ status : JobStatus, status ≠ .unknown → status.asStr ≠ name := by
  refine ⟨?_, fun _ => statusOf_eq_unknown_iff⟩
  obtain ⟨hjobs, hpages⟩ := JobPage.read_eq_some_iff.mp h
  obtain ⟨hread, hreplaced⟩ := required_replace hjobs
  exact JobPage.read_eq_some_iff.mpr
    ⟨hreplaced _ _ (mapM_renewals hlawful hread), (required_replace_ne (by decide) _ _).trans hpages⟩

/-- Numbers are naturals, and a variant is only ever a name. -/
def plainFormat : Formatted Nat Nat where
  natural := some
  float
    | .number n => some n
    | _ => none
  variant
    | .string name => some (.name name)
    | _ => none

/-- A job that is blocked, of a server that has blocked jobs. -/
def blocked : Renewal Nat where
  status := "blocked"
  scope := none
  old := [("id", .string "job-1"), ("type", .string "send_email"), ("queue", .string "emails"),
    ("status", .string "ready"), ("priority", .number 50), ("ready_at", .number 0), ("attempts", .number 0)]
  new := [("status", .string "blocked"), ("blocked_by", .array []), ("id", .string "job-1"),
    ("queue", .string "emails"), ("type", .string "send_email"), ("attempts", .number 0), ("ready_at", .number 0),
    ("priority", .number 50)]
  renewed := ⟨by decide, rfl, .inl rfl⟩

/-- A job with a scope that only the new server has. -/
def watched : Renewal Nat where
  status := "ready"
  scope := some "blocked"
  old := [("id", .string "job-2"), ("type", .string "sweep"), ("queue", .string "default"),
    ("status", .string "ready"), ("priority", .number 50), ("ready_at", .number 0), ("attempts", .number 0),
    ("unique_key", .string "sweep"), ("unique_while", .string "queued")]
  new := [("id", .string "job-2"), ("type", .string "sweep"), ("queue", .string "default"),
    ("status", .string "ready"), ("priority", .number 50), ("ready_at", .number 0), ("attempts", .number 0),
    ("unique_key", .string "sweep"), ("unique_while", .string "blocked")]
  renewed := ⟨by decide, rfl, rfl⟩

theorem page_renewed_blocked :
    ∃ page : JobPage Nat Nat,
      JobPage.read plainFormat (.object [("jobs", .array [.object blocked.new, .object watched.new]),
        ("pages", .object [])]) = some page ∧
      page.jobs.map (fun job => (job.id, job.status, job.uniqueKey)) =
        [("job-1", .unknown, none), ("job-2", .ready, some ⟨"sweep", some .unknown⟩)] := by
  have hlawful : plainFormat.Lawful := fun _ => rfl
  obtain ⟨page, hread, hjobs⟩ : ∃ page : JobPage Nat Nat,
      JobPage.read plainFormat (.object [("jobs", .array [.object blocked.old, .object watched.old]),
        ("pages", .object [])]) = some page ∧
      page.jobs.map (fun job => (job.id, job.uniqueKey)) =
        [("job-1", none), ("job-2", some ⟨"sweep", some .queued⟩)] := ⟨_, rfl, rfl⟩
  have hold : JobPage.read plainFormat
      (.object ([] ++ ("jobs", .array ([blocked, watched].map fun r => .object r.old)) :: [("pages", .object [])])) =
        some page := hread
  have hrenewed := (page_renewed hlawful [blocked, watched] hold).1
  refine ⟨_, hrenewed, ?_⟩
  obtain ⟨first, rest, hpage, hfirst, hrest⟩ := List.map_eq_cons_iff.mp hjobs
  obtain ⟨second, rest, rfl, hsecond, hnil⟩ := List.map_eq_cons_iff.mp hrest
  obtain rfl := List.map_eq_nil_iff.mp hnil
  obtain ⟨hfirst, hnone⟩ := Prod.mk.inj hfirst
  obtain ⟨hsecond, hkey⟩ := Prod.mk.inj hsecond
  simp only [hpage, List.zipWith_cons_cons, List.zipWith_nil_left, List.map_cons, List.map_nil, Job.renew, hfirst,
    hnone, hsecond, hkey]
  rfl

end Zizq.Resources
