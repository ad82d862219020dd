import Zizq.Client.Bulk
import Zizq.Client.Range
import Zizq.Data.Setters
import Zizq.Patch.Strategy
import Zizq.Resources.Job

/-! Enqueue requests and the jobs that answer them.

An enqueue is settled by the last call on each setting, else by what the payload derives,
else by the constants of its kind; budgets accumulate. The request has a member for what
is settled and none for what is left to the server. The server is as documented here: a
new job has the members of its request. So the jobs that a bulk enqueue returns have the
settings of the builders, in their order and in either format (`bulk_reads_back`). -/
namespace Zizq.Resources
open Batch Client Data Json Patch
variable {ν φ : Type}

structure BudgetPolicy where
  allocation : UInt32
  strategy : BudgetStrategy

abbrev Budgets := List (BudgetBindingInput BudgetPolicy)

abbrev Kind (φ : Type) := JobKind (BackoffConfig φ) RetentionConfig (BudgetBindingInput BudgetPolicy)

abbrev Builder (ν φ : Type) :=
  EnqueueBuilder (BackoffConfig φ) RetentionConfig BatchConfig (BudgetBindingInput BudgetPolicy) ν

abbrev Request (ν φ : Type) :=
  EnqueueRequest (BackoffConfig φ) RetentionConfig BatchConfig (BudgetBindingInput BudgetPolicy) ν

/-! ### The builder -/

/-- A payload, with the key and the batch that it derives. -/
structure Derived (ν : Type) where
  payload : Payload ν
  uniqueKey : Option Key.UniqueKey
  batch : Option BatchConfig

namespace Builder

def new (payload : Derived ν) : Builder ν φ where
  payload := payload.payload
  payloadUniqueKey := payload.uniqueKey
  payloadBatch := payload.batch
  queue := none
  priority := none
  readyAtMs := none
  retryLimit := none
  backoff := none
  retention := none
  uniqueKey := none
  batch := none
  budgets := none

variable (builder : Builder ν φ)

def setQueue (queue : String) : Builder ν φ := { builder with queue := some queue }
def setPriority (priority : UInt16) : Builder ν φ := { builder with priority := some priority }
def setRetryLimit (n : UInt32) : Builder ν φ := { builder with retryLimit := some n }
def setBackoff (backoff : BackoffConfig φ) : Builder ν φ := { builder with backoff := some backoff }
def setRetention (retention : RetentionConfig) : Builder ν φ := { builder with retention := some retention }
def setUniqueKey (key : Key.UniqueKey) : Builder ν φ := { builder with uniqueKey := some key }
def setBatch (batch : BatchConfig) : Builder ν φ := { builder with batch := some batch }

/-- `budget`: pushed on what the builder has, which is nothing at first. -/
def addBudget (budget : BudgetBindingInput BudgetPolicy) : Builder ν φ :=
  { builder with budgets := some (builder.budgets.getD [] ++ [budget]) }

def setBudgets (budgets : Budgets) : Builder ν φ := { builder with budgets := some budgets }
def clearBudgets : Builder ν φ := { builder with budgets := some [] }

end Builder

/-- A call of a setter; `delay` with the instant that the clock and the delay come to. -/
inductive EnqueueCall (φ : Type) where
  | queue (queue : String)
  | priority (priority : UInt16)
  | delay (instant : OffsetDateTime)
  | readyAt (instant : OffsetDateTime)
  | runAt (instant : OffsetDateTime)
  | retryLimit (n : UInt32)
  | backoff (backoff : BackoffConfig φ)
  | retention (retention : RetentionConfig)
  | uniqueKey (key : Key.UniqueKey)
  | batch (batch : BatchConfig)
  | budget (budget : BudgetBindingInput BudgetPolicy)
  | budgets (budgets : Budgets)
  | clearBudgets

def Builder.apply (builder : Builder ν φ) : EnqueueCall φ → Builder ν φ
  | .queue queue => builder.setQueue queue
  | .priority priority => builder.setPriority priority
  | .delay instant | .readyAt instant | .runAt instant => EnqueueBuilder.setReadyAt instant builder
  | .retryLimit n => builder.setRetryLimit n
  | .backoff backoff => builder.setBackoff backoff
  | .retention retention => builder.setRetention retention
  | .uniqueKey key => builder.setUniqueKey key
  | .batch batch => builder.setBatch batch
  | .budget budget => builder.addBudget budget
  | .budgets budgets => builder.setBudgets budgets
  | .clearBudgets => builder.clearBudgets

/-- An enqueue: the kind of the payload, the payload, and the calls on the builder. -/
structure Enqueue (ν φ : Type) where
  kind : Kind φ
  payload : Derived ν
  calls : List (EnqueueCall φ)

def Enqueue.request (e : Enqueue ν φ) : Request ν φ :=
  intoRequest e.kind (e.calls.foldl Builder.apply (Builder.new e.payload))

/-- The requests of a `BulkEnqueueBuilder`, which are pushed one after another. -/
def Enqueue.push (requests : List (Request ν φ)) (e : Enqueue ν φ) : List (Request ν φ) := requests ++ [e.request]

def bulkRequests (enqueues : List (Enqueue ν φ)) : List (Request ν φ) := enqueues.foldl Enqueue.push []

/-! ### The members of a request -/

/-- A field with `skip_serializing_if = "Option::is_none"`. -/
def given {α : Type} (name : String) (value : α → Value ν) (field : Option α) : List (String × Value ν) :=
  (field.map fun a => (name, value a)).toList

section Members
variable (numerals : Numerals ν φ) (format : Format)

def natural (n : Nat) : Value ν := .number (numerals.natural n)

def backoffValue (config : BackoffConfig φ) : Value ν :=
  .object [("base_ms", natural numerals config.baseMs.toNat),
    ("exponent", wireValue format (numerals.float config.exponent)),
    ("jitter_ms", natural numerals config.jitterMs.toNat)]

def retentionValue (config : RetentionConfig) : Value ν :=
  .object (given "completed_ms" (fun ms => natural numerals ms.toNat) config.completedMs ++
    given "dead_ms" (fun ms => natural numerals ms.toNat) config.deadMs)

def batchValue (config : BatchConfig) : Value ν :=
  .object [("key", .string config.key), ("when", .string config.when), ("fold", .string config.fold)]

def scopeName : Key.UniqueScope → String
  | .queued => "queued"
  | .active => "active"
  | .exists => "exists"
  | .unknown => "unknown"

def strategyValue (wire : StrategyWire) : Value ν :=
  .object ([("type", .string wire.kind)] ++
    given "duration_ms" (fun ms => natural numerals ms.toNat) wire.durationMs ++
    given "burst" (fun n => natural numerals n.toNat) wire.burst)

def policyValue (policy : BudgetPolicy) : Value ν :=
  .object [("allocation", natural numerals policy.allocation.toNat),
    ("strategy", strategyValue numerals policy.strategy.toWire)]

def bindingValue (binding : BudgetBindingInput BudgetPolicy) : Value ν :=
  .object ([("key", .string binding.key)] ++ given "cost" (fun n => natural numerals n.toNat) binding.cost ++
    given "create_with" (policyValue numerals) binding.createWith)

/-- What the `Serialize` impl of a request writes. -/
def requestMembers (request : Request ν φ) : List (String × Value ν) :=
  [("type", .string request.jobType), ("queue", .string request.queue), ("payload", payloadRead format request)] ++
    given "priority" (fun n => natural numerals n.toNat) request.priority ++
    given "ready_at" (fun n => natural numerals n.toNat) request.readyAt ++
    given "retry_limit" (fun n => natural numerals n.toNat) request.retryLimit ++
    given "backoff" (backoffValue numerals format) request.backoff ++
    given "retention" (retentionValue numerals) request.retention ++
    given "unique_key" .string request.uniqueKey ++
    given "unique_while" (fun scope => .string (scopeName scope)) request.uniqueWhile ++
    given "batch" batchValue request.batch ++
    if request.budgets.isEmpty then [] else [("budgets", .array (request.budgets.map (bindingValue numerals)))]

end Members

/-! ### What an enqueue settles -/

namespace EnqueueCall

def queue? : EnqueueCall φ → Option String
  | .queue name => some name
  | _ => none

def priority? : EnqueueCall φ → Option UInt16
  | .priority n => some n
  | _ => none

def readyAt? : EnqueueCall φ → Option UInt64
  | .delay instant | .readyAt instant | .runAt instant => some (toMsEpoch instant)
  | _ => none

def retryLimit? : EnqueueCall φ → Option UInt32
  | .retryLimit n => some n
  | _ => none

def backoff? : EnqueueCall φ → Option (BackoffConfig φ)
  | .backoff config => some config
  | _ => none

def retention? : EnqueueCall φ → Option RetentionConfig
  | .retention config => some config
  | _ => none

def uniqueKey? : EnqueueCall φ → Option Key.UniqueKey
  | .uniqueKey key => some key
  | _ => none

def batch? : EnqueueCall φ → Option BatchConfig
  | .batch config => some config
  | _ => none

end EnqueueCall

/-- The budgets after some calls, the latest first; `none` before any of them is about budgets. -/
def budgetsAfter : List (EnqueueCall φ) → Option Budgets
  | [] => none
  | .budgets budgets :: _ => some budgets
  | .clearBudgets :: _ => some []
  | .budget budget :: earlier => some ((budgetsAfter earlier).getD [] ++ [budget])
  | _ :: earlier => budgetsAfter earlier

/-- What an enqueue asks for; where it has `none`, the server decides. -/
structure Settings (φ : Type) where
  queue : String
  priority : Option UInt16
  readyAt : Option UInt64
  retryLimit : Option UInt32
  backoff : Option (BackoffConfig φ)
  retention : Option RetentionConfig
  uniqueKey : Option Key.UniqueKey
  batch : Option BatchConfig
  budgets : Budgets

def Enqueue.settings (e : Enqueue ν φ) : Settings φ where
  queue := (Setters.latest EnqueueCall.queue? e.calls).getD e.kind.queue
  priority := Setters.latest EnqueueCall.priority? e.calls <|> e.kind.priority
  readyAt := Setters.latest EnqueueCall.readyAt? e.calls
  retryLimit := Setters.latest EnqueueCall.retryLimit? e.calls <|> e.kind.retryLimit
  backoff := Setters.latest EnqueueCall.backoff? e.calls <|> e.kind.backoff
  retention := Setters.latest EnqueueCall.retention? e.calls <|> e.kind.retention
  uniqueKey := Setters.latest EnqueueCall.uniqueKey? e.calls <|> e.payload.uniqueKey
  batch := Setters.latest EnqueueCall.batch? e.calls <|> e.payload.batch
  budgets := (budgetsAfter e.calls.reverse).getD e.kind.budgets

theorem budgets_foldl_apply (builder : Builder ν φ) (hnone : builder.budgets = none) (calls : List (EnqueueCall φ)) :
    (calls.foldl Builder.apply builder).budgets = budgetsAfter calls.reverse := by
  induction calls using List.reverseRecOn with
  | nil => exact hnone
  | append_singleton calls call ih =>
    rw [List.foldl_append, List.foldl_cons, List.foldl_nil, List.reverse_append, List.reverse_singleton,
      List.singleton_append]
    cases call with
    | budget budget => simp only [Builder.apply, Builder.addBudget, budgetsAfter, ih]
    | budgets | clearBudgets => rfl
    | _ => exact ih

/-- No call touches the payload or what it derives. -/
theorem payload_foldl_apply (builder : Builder ν φ) (calls : List (EnqueueCall φ)) :
    let built := calls.foldl Builder.apply builder
    built.payload = builder.payload ∧ built.payloadUniqueKey = builder.payloadUniqueKey ∧
      built.payloadBatch = builder.payloadBatch := by
  induction calls generalizing builder with
  | nil => exact ⟨rfl, rfl, rfl⟩
  | cons call calls ih =>
    obtain ⟨hpayload, hkey, hbatch⟩ := ih (builder.apply call)
    cases call <;> exact ⟨hpayload, hkey, hbatch⟩

/-- The request has what is settled, each in its own field. -/
theorem Enqueue.request_eq (e : Enqueue ν φ) :
    e.request =
      { jobType := e.kind.name
        queue := e.settings.queue
        payload := boxPayload e.kind.zeroSized e.payload.payload.datum
        priority := e.settings.priority
        readyAt := e.settings.readyAt
        retryLimit := e.settings.retryLimit
        backoff := e.settings.backoff
        retention := e.settings.retention
        uniqueKey := e.settings.uniqueKey.map (·.key)
        uniqueWhile := e.settings.uniqueKey.bind (·.scope)
        batch := e.settings.batch
        budgets := e.settings.budgets } := by
  obtain ⟨hpayload, hpayloadKey, hpayloadBatch⟩ := payload_foldl_apply (Builder.new e.payload) e.calls
  have hbudgets := budgets_foldl_apply (Builder.new e.payload) rfl e.calls
  rw [request, settings]
  generalize hbuilt : e.calls.foldl Builder.apply (Builder.new e.payload) = built at *
  have hqueue : built.queue = Setters.latest EnqueueCall.queue? e.calls :=
    hbuilt ▸ Setters.get_foldl_of_none (fun _ call => by cases call <;> rfl) rfl _
  have hpriority : built.priority = Setters.latest EnqueueCall.priority? e.calls :=
    hbuilt ▸ Setters.get_foldl_of_none (fun _ call => by cases call <;> rfl) rfl _
  have hready : built.readyAtMs = Setters.latest EnqueueCall.readyAt? e.calls :=
    hbuilt ▸ Setters.get_foldl_of_none (fun _ call => by cases call <;> rfl) rfl _
  have hretry : built.retryLimit = Setters.latest EnqueueCall.retryLimit? e.calls :=
    hbuilt ▸ Setters.get_foldl_of_none (fun _ call => by cases call <;> rfl) rfl _
  have hbackoff : built.backoff = Setters.latest EnqueueCall.backoff? e.calls :=
    hbuilt ▸ Setters.get_foldl_of_none (fun _ call => by cases call <;> rfl) rfl _
  have hretention : built.retention = Setters.latest EnqueueCall.retention? e.calls :=
    hbuilt ▸ Setters.get_foldl_of_none (fun _ call => by cases call <;> rfl) rfl _
  have hkey : built.uniqueKey = Setters.latest EnqueueCall.uniqueKey? e.calls :=
    hbuilt ▸ Setters.get_foldl_of_none (fun _ call => by cases call <;> rfl) rfl _
  have hbatch : built.batch = Setters.latest EnqueueCall.batch? e.calls :=
    hbuilt ▸ Setters.get_foldl_of_none (fun _ call => by cases call <;> rfl) rfl _
  rw [intoRequest, hpayload, hpayloadKey, hpayloadBatch, hbudgets, hqueue, hpriority, hready, hretry, hbackoff,
    hretention, hkey, hbatch]
  rfl

/-! ### The server -/

/-- A binding of a request, and the one of the job; a job holds the cost, 1 if none was given, and no policy. -/
def Binds (formatted : Formatted ν φ) (input output : Value ν) : Prop :=
  ∃ asked held, input = .object asked ∧ output = .object held ∧ stated "key" held = stated "key" asked ∧
    (stated "cost" asked ≠ [] ∧ stated "cost" held = stated "cost" asked ∨
      stated "cost" asked = [] ∧ ∃ n, stated "cost" held = [.number n] ∧ formatted.natural n = some 1)

inductive Bound (formatted : Formatted ν φ) : List (Value ν) → List (Value ν) → Prop
  | unthrottled {outputs : List (Value ν)} (h : outputs = [] ∨ outputs = [.array []]) : Bound formatted [] outputs
  | throttled {inputs outputs : List (Value ν)} (h : List.Forall₂ (Binds formatted) inputs outputs) :
    Bound formatted [.array inputs] [.array outputs]

/-- A member that is kept, or unset if none was sent. -/
def Keeps (name : String) (request members : List (String × Value ν)) : Prop :=
  stated name members = stated name request ∨ stated name request = [] ∧ stated name members = [.null]

instance [DecidableEq ν] (name : String) (request members : List (String × Value ν)) :
    Decidable (Keeps name request members) :=
  inferInstanceAs (Decidable (_ ∨ _))

/-- A new job has the members of its request. Where the request has none, the server decides on the priority, the time
and the scope, and leaves the others unset. -/
structure Answers (formatted : Formatted ν φ) (request members : List (String × Value ν)) : Prop where
  kept : ∀ name ∈ ["type", "queue", "payload"], stated name members = stated name request
  decided : ∀ name ∈ ["priority", "ready_at", "unique_while"], stated name request ≠ [] →
    stated name members = stated name request
  unset : ∀ name ∈ ["retry_limit", "backoff", "retention", "unique_key", "batch"], Keeps name request members
  budgets : Bound formatted (stated "budgets" request) (stated "budgets" members)
  id : (required readString "id" members).isSome
  status : (required (readStatus formatted) "status" members).isSome
  priority : (required (readU16 formatted.natural) "priority" members).isSome
  readyAt : (required (readU64 formatted.natural) "ready_at" members).isSome
  attempts : (required (readU32 formatted.natural) "attempts" members).isSome
  scope : (Client.optional (readScope formatted) "unique_while" members).isSome
  times : ∀ name ∈ ["dequeued_at", "failed_at", "completed_at", "purge_at"],
    (Client.optional (readU64 formatted.natural) name members).isSome
  flags : ∀ name ∈ ["duplicate", "folded"], (Client.optional readBool name members).isSome

/-- What was asked for is what the job shows. -/
structure ReadsBack (name : String) (payload : Value ν) (settings : Settings φ) (job : Job ν φ) : Prop where
  jobType : job.jobType = name
  queue : job.queue = settings.queue
  payload : job.payload = if payload.isNull then none else some (collect payload)
  priority : ∀ n, settings.priority = some n → job.priority = n
  readyAt : ∀ ms, settings.readyAt = some ms → job.readyAt = ms
  retryLimit : job.retryLimit = settings.retryLimit
  backoff : job.backoff = settings.backoff
  retention : job.retention = settings.retention
  uniqueKey : job.uniqueKey.map (·.key) = settings.uniqueKey.map (·.key)
  scope : ∀ key scope, settings.uniqueKey = some key → key.scope = some scope → job.uniqueKey = some key
  batch : job.batch = settings.batch
  budgets : job.budgets = settings.budgets.map fun binding => ⟨binding.key, binding.cost.getD 1⟩

/-- A payload that is null is as good as one that is missing. -/
theorem ReadsBack.payload_getD {name : String} {payload : Value ν} {settings : Settings φ} {job : Job ν φ}
    (h : ReadsBack name payload settings job) : job.payload.getD .null = collect payload := by
  rw [h.payload]
  split
  · next hnull =>
    obtain rfl := Value.isNull_iff.mp hnull
    rfl
  · rfl

/-- The format reads what it writes. -/
structure Mirrors (numerals : Numerals ν φ) (formatted : Formatted ν φ) : Prop where
  lawful : formatted.Lawful
  natural : ∀ n < 2 ^ 64, formatted.natural (numerals.natural n) = some n

/-! ### Reading it back -/

section Back
variable {numerals : Numerals ν φ} {formatted : Formatted ν φ} {request members : List (String × Value ν)}

theorem readNatural_natural (hmirrors : Mirrors numerals formatted) {bound n : Nat} (hn : n < bound)
    (hbound : bound ≤ 2 ^ 64) : readNatural formatted.natural bound (natural numerals n) = some n := by
  rw [natural, readNatural, hmirrors.natural n (hn.trans_le hbound)]
  simp [hn]

theorem readU16_natural (hmirrors : Mirrors numerals formatted) (n : UInt16) :
    readU16 formatted.natural (natural numerals n.toNat) = some n := by
  rw [readU16, readNatural_natural hmirrors n.toNat_lt (by decide), Option.map_some, UInt16.ofNat_toNat]

theorem readU32_natural (hmirrors : Mirrors numerals formatted) (n : UInt32) :
    readU32 formatted.natural (natural numerals n.toNat) = some n := by
  rw [readU32, readNatural_natural hmirrors n.toNat_lt (by decide), Option.map_some, UInt32.ofNat_toNat]

theorem readU64_natural (hmirrors : Mirrors numerals formatted) (n : UInt64) :
    readU64 formatted.natural (natural numerals n.toNat) = some n := by
  rw [readU64, readNatural_natural hmirrors n.toNat_lt (by decide), Option.map_some, UInt64.ofNat_toNat]

theorem stated_given {α : Type} (name name' : String) (value : α → Value ν) (field : Option α) :
    stated name (given name' value field) = if name' = name then (field.map value).toList else [] := by
  cases field with
  | none => simp [given, stated]
  | some a => by_cases h : name' = name <;> simp [given, stated, h]

@[simp] theorem stated_nil (name : String) : stated name ([] : List (String × Value ν)) = [] := rfl

/-- A member that is there or not, read as it was written. -/
theorem optional_of_stated {α : Type} {read : Value ν → Option α} {name : String} {value : α → Value ν}
    {field : Option α} (hread : ∀ a, field = some a → readOption read (value a) = some (some a))
    (h : stated name members = (field.map value).toList ∨ field = none ∧ stated name members = [.null]) :
    Client.optional read name members = some field := by
  rw [optional_eq]
  cases field with
  | none => rcases h with h | ⟨-, h⟩ <;> simp [h, readOption]
  | some a =>
    rcases h with h | ⟨h, -⟩
    · simpa [h] using hread a rfl
    · cases h

theorem scopeOf_scopeName (scope : Key.UniqueScope) : scopeOf (.name (scopeName scope)) = scope := by
  cases scope <;> rfl

theorem readOption_backoffValue (hmirrors : Mirrors numerals formatted) {format : Format} {config : BackoffConfig φ}
    (hfloat : formatted.float (wireValue format (numerals.float config.exponent)) = some config.exponent) :
    readOption (BackoffConfig.read formatted) (backoffValue numerals format config) = some (some config) := by
  simp [readOption, BackoffConfig.read, backoffValue, readStruct, required, slot_eq, stated, hfloat,
    readU32_natural hmirrors]

theorem readOption_natural {α : Type} {read : Value ν → Option α} {n : Nat} {a : α}
    (h : read (natural numerals n) = some a) : readOption read (natural numerals n) = some (some a) := by
  show (read (natural numerals n)).map some = _
  rw [h]
  rfl

theorem optional_given (hmirrors : Mirrors numerals formatted) {field : Option UInt64} {name : String}
    (h : stated name members = (field.map fun ms => natural numerals ms.toNat).toList) :
    Client.optional (readU64 formatted.natural) name members = some field :=
  optional_of_stated (fun ms _ => readOption_natural (readU64_natural hmirrors ms)) (.inl h)

theorem readOption_retentionValue (hmirrors : Mirrors numerals formatted) (config : RetentionConfig) :
    readOption (RetentionConfig.read formatted) (retentionValue numerals config) = some (some config) := by
  obtain ⟨completedMs, deadMs⟩ := config
  have hread (field : Option UInt64) {name : String} {members : List (String × Value ν)}
      (h : stated name members = (field.map fun ms => natural numerals ms.toNat).toList) :=
    optional_given hmirrors h
  show (RetentionConfig.read formatted (.object _)).map some = _
  rw [RetentionConfig.read, readStruct, hread completedMs (by simp [stated_append, stated_given]),
    hread deadMs (by simp [stated_append, stated_given])]
  rfl

theorem readOption_batchValue (config : BatchConfig) :
    readOption (BatchConfig.read : Value ν → Option BatchConfig) (batchValue config) = some (some config) := by
  simp [readOption, BatchConfig.read, batchValue, readStruct, required, slot_eq, stated, readString]

/-- What a job holds of a binding. -/
theorem read_binds (hmirrors : Mirrors numerals formatted) {binding : BudgetBindingInput BudgetPolicy}
    {output : Value ν} (h : Binds formatted (bindingValue numerals binding) output) :
    BudgetBinding.read formatted output = some ⟨binding.key, binding.cost.getD 1⟩ := by
  obtain ⟨asked, held, hasked, rfl, hkey, hcost⟩ := h
  obtain rfl := Value.object.inj hasked
  simp only [stated_append, stated_given, stated_cons, stated_nil] at hkey hcost
  have hname : required readString "key" held = some binding.key :=
    (required_eq_some_iff ..).mpr ⟨_, by simpa using hkey, rfl⟩
  have hread : required (readU32 formatted.natural) "cost" held = some (binding.cost.getD 1) := by
    rw [required_eq_some_iff]
    cases hgiven : binding.cost with
    | none =>
      rcases hcost with ⟨hne, -⟩ | ⟨-, n, hcost, hn⟩
      · simp [hgiven] at hne
      · exact ⟨_, hcost, by simp [readU32, readNatural, hn]⟩
    | some cost =>
      rcases hcost with ⟨-, hcost⟩ | ⟨hcost, -⟩
      · exact ⟨_, by simpa [hgiven] using hcost, readU32_natural hmirrors cost⟩
      · simp [hgiven] at hcost
  rw [BudgetBinding.read, readStruct, hname, hread]
  rfl

theorem mapM_binds (hmirrors : Mirrors numerals formatted) {budgets : Budgets} {outputs : List (Value ν)}
    (h : List.Forall₂ (Binds formatted) (budgets.map (bindingValue numerals)) outputs) :
    outputs.mapM (BudgetBinding.read formatted) =
      some (budgets.map fun binding => ⟨binding.key, binding.cost.getD 1⟩) := by
  induction budgets generalizing outputs with
  | nil =>
    obtain rfl := List.forall₂_nil_left_iff.mp h
    rfl
  | cons binding budgets ih =>
    obtain ⟨output, rest, hbinds, hrest, rfl⟩ := List.forall₂_cons_left_iff.mp h
    rw [List.mapM_cons, read_binds hmirrors hbinds, ih hrest]
    rfl

theorem defaulted_bound (hmirrors : Mirrors numerals formatted) {budgets : Budgets}
    (hrequest : stated "budgets" request =
      if budgets.isEmpty then [] else [.array (budgets.map (bindingValue numerals))])
    (h : Bound formatted (stated "budgets" request) (stated "budgets" members)) :
    defaulted (readVec (BudgetBinding.read formatted)) [] "budgets" members =
      some (budgets.map fun binding => ⟨binding.key, binding.cost.getD 1⟩) := by
  rw [hrequest] at h
  rw [defaulted, slot_eq]
  generalize stated "budgets" members = outputs at h
  cases budgets with
  | nil =>
    cases h with
    | unthrottled h => rcases h with rfl | rfl <;> rfl
  | cons binding budgets =>
    cases h with
    | throttled h =>
      show ((readVec (BudgetBinding.read formatted) (.array _)).map some).map _ = _
      rw [readVec, mapM_binds hmirrors h]
      rfl

theorem stated_requestMembers (numerals : Numerals ν φ) (format : Format) (e : Enqueue ν φ) (name : String) :
    stated name (requestMembers numerals format e.request) =
      stated name [("type", .string e.kind.name), ("queue", .string e.settings.queue),
        ("payload", payloadRead format e.request)] ++
      (if "priority" = name then (e.settings.priority.map fun n => natural numerals n.toNat).toList else []) ++
      (if "ready_at" = name then (e.settings.readyAt.map fun ms => natural numerals ms.toNat).toList else []) ++
      (if "retry_limit" = name then (e.settings.retryLimit.map fun n => natural numerals n.toNat).toList else []) ++
      (if "backoff" = name then (e.settings.backoff.map (backoffValue numerals format)).toList else []) ++
      (if "retention" = name then (e.settings.retention.map (retentionValue numerals)).toList else []) ++
      (if "unique_key" = name then ((e.settings.uniqueKey.map (·.key)).map .string).toList else []) ++
      (if "unique_while" = name then
        ((e.settings.uniqueKey.bind (·.scope)).map fun scope => .string (scopeName scope)).toList else []) ++
      (if "batch" = name then (e.settings.batch.map batchValue).toList else []) ++
      (if "budgets" = name then
        if e.settings.budgets.isEmpty then [] else [.array (e.settings.budgets.map (bindingValue numerals))]
      else []) := by
  have hbudgets : stated name (if e.settings.budgets.isEmpty then []
      else [("budgets", .array (e.settings.budgets.map (bindingValue numerals)))]) =
        if "budgets" = name then
          if e.settings.budgets.isEmpty then [] else [.array (e.settings.budgets.map (bindingValue numerals))]
        else [] := by
    split <;> simp [stated_cons]
  rw [← hbudgets]
  simp only [requestMembers, stated_append, stated_given, e.request_eq]

theorem optional_of_keeps {α : Type} {read : Value ν → Option α} {name : String} {value : α → Value ν}
    {field : Option α} (hread : ∀ a, field = some a → readOption read (value a) = some (some a))
    (hrequest : stated name request = (field.map value).toList) (h : Keeps name request members) :
    Client.optional read name members = some field := by
  refine optional_of_stated hread (h.imp (fun h => h.trans hrequest) fun h => ⟨?_, h.2⟩)
  cases field with
  | none => rfl
  | some a => exact absurd (hrequest.symm.trans h.1) (by simp)

/-- What an answer shows of an enqueue, whether of a new job or of a template. -/
structure Carried (formatted : Formatted ν φ) (name : String) (payload : Value ν) (settings : Settings φ)
    (members : List (String × Value ν)) : Prop where
  jobType : required readString "type" members = some name
  queue : required readString "queue" members = some settings.queue
  payload : Client.optional (fun v => some (collect v)) "payload" members =
    some (if payload.isNull then none else some (collect payload))
  retryLimit : Client.optional (readU32 formatted.natural) "retry_limit" members = some settings.retryLimit
  backoff : Client.optional (BackoffConfig.read formatted) "backoff" members = some settings.backoff
  retention : Client.optional (RetentionConfig.read formatted) "retention" members = some settings.retention
  uniqueKey : Client.optional readString "unique_key" members = some (settings.uniqueKey.map (·.key))
  budgets : defaulted (readVec (BudgetBinding.read formatted)) [] "budgets" members =
    some (settings.budgets.map fun binding => ⟨binding.key, binding.cost.getD 1⟩)

theorem Enqueue.carried (hmirrors : Mirrors numerals formatted) (format : Format) (e : Enqueue ν φ)
    (hfloat : ∀ config, e.settings.backoff = some config →
      formatted.float (wireValue format (numerals.float config.exponent)) = some config.exponent)
    (hrequest : requestMembers numerals format e.request = request)
    (hkept : ∀ name ∈ ["type", "queue", "payload"], stated name members = stated name request)
    (hunset : ∀ name ∈ ["retry_limit", "backoff", "retention", "unique_key"], Keeps name request members)
    (hbudgets : Bound formatted (stated "budgets" request) (stated "budgets" members)) :
    Carried formatted e.kind.name (payloadRead format e.request) e.settings members := by
  have hlookup := stated_requestMembers numerals format e
  rw [hrequest] at hlookup
  constructor
  case jobType =>
    exact (required_eq_some_iff ..).mpr
      ⟨.string e.kind.name, (hkept "type" (by simp)).trans (by simp [hlookup, stated_cons]), rfl⟩
  case queue =>
    exact (required_eq_some_iff ..).mpr
      ⟨.string e.settings.queue, (hkept "queue" (by simp)).trans (by simp [hlookup, stated_cons]), rfl⟩
  case payload =>
    have hstated : stated "payload" members = [payloadRead format e.request] :=
      (hkept "payload" (by simp)).trans (by simp [hlookup, stated_cons])
    rw [optional_eq, hstated]
    cases payloadRead format e.request <;> rfl
  case retryLimit =>
    exact optional_of_keeps (fun n _ => readOption_natural (readU32_natural hmirrors n))
      (by simp [hlookup, stated_cons]) (hunset _ (by simp))
  case backoff =>
    exact optional_of_keeps (fun config hconfig => readOption_backoffValue hmirrors (hfloat config hconfig))
      (by simp [hlookup, stated_cons]) (hunset _ (by simp))
  case retention =>
    exact optional_of_keeps (fun config _ => readOption_retentionValue hmirrors config)
      (by simp [hlookup, stated_cons]) (hunset _ (by simp))
  case uniqueKey =>
    exact optional_of_keeps (fun key _ => show readOption readString (.string key) = some (some key) from rfl)
      (by simp [hlookup, stated_cons]) (hunset _ (by simp))
  case budgets =>
    exact defaulted_bound hmirrors (show stated "budgets" _ = if e.settings.budgets.isEmpty then [] else _ by
      simp [hlookup, stated_cons]) hbudgets

/-- The job that answers an enqueue has what was asked for. -/
theorem Enqueue.reads_back (hmirrors : Mirrors numerals formatted) (format : Format) (e : Enqueue ν φ)
    (hfloat : ∀ config, e.settings.backoff = some config →
      formatted.float (wireValue format (numerals.float config.exponent)) = some config.exponent)
    (h : Answers formatted (requestMembers numerals format e.request) members) :
    ∃ job, Job.read formatted (.object members) = some job ∧
      ReadsBack e.kind.name (payloadRead format e.request) e.settings job := by
  have hlookup := stated_requestMembers numerals format e
  have hdecided (name : String) {v : Value ν} (hname : name ∈ ["priority", "ready_at", "unique_while"])
      (hrequest : stated name (requestMembers numerals format e.request) = [v]) : stated name members = [v] :=
    (h.decided name hname (by simp [hrequest])).trans hrequest
  have hcarried := e.carried hmirrors format hfloat rfl h.kept
    (fun name hname => h.unset name (List.mem_append_left ["batch"] hname)) h.budgets
  have hbatch : Client.optional BatchConfig.read "batch" members = some e.settings.batch :=
    optional_of_keeps (fun config _ => readOption_batchValue config) (by simp [hlookup, stated_cons])
      (h.unset _ (by simp))
  -- what the server decides on
  obtain ⟨id, hid⟩ := Option.isSome_iff_exists.mp h.id
  obtain ⟨status, hstatus⟩ := Option.isSome_iff_exists.mp h.status
  obtain ⟨priority, hpriority⟩ := Option.isSome_iff_exists.mp h.priority
  obtain ⟨readyAt, hready⟩ := Option.isSome_iff_exists.mp h.readyAt
  obtain ⟨attempts, hattempts⟩ := Option.isSome_iff_exists.mp h.attempts
  obtain ⟨scope, hscope⟩ := Option.isSome_iff_exists.mp h.scope
  obtain ⟨dequeuedAt, hdequeued⟩ := Option.isSome_iff_exists.mp (h.times "dequeued_at" (by simp))
  obtain ⟨failedAt, hfailed⟩ := Option.isSome_iff_exists.mp (h.times "failed_at" (by simp))
  obtain ⟨completedAt, hcompleted⟩ := Option.isSome_iff_exists.mp (h.times "completed_at" (by simp))
  obtain ⟨purgeAt, hpurge⟩ := Option.isSome_iff_exists.mp (h.times "purge_at" (by simp))
  obtain ⟨duplicate, hduplicate⟩ := Option.isSome_iff_exists.mp (h.flags "duplicate" (by simp))
  obtain ⟨folded, hfolded⟩ := Option.isSome_iff_exists.mp (h.flags "folded" (by simp))
  refine ⟨_, Job.read_eq_some_iff.mpr ⟨⟨id, e.kind.name, e.settings.queue, status, priority, _, readyAt, attempts,
    e.settings.retryLimit, e.settings.backoff, dequeuedAt, failedAt, completedAt, e.settings.retention, purgeAt,
    e.settings.uniqueKey.map (·.key), scope, duplicate, folded, e.settings.batch, _⟩,
    ⟨hid, hcarried.jobType, hcarried.queue, hstatus, hpriority, hcarried.payload, hready, hattempts,
      hcarried.retryLimit, hcarried.backoff, hdequeued, hfailed, hcompleted, hcarried.retention, hpurge,
      hcarried.uniqueKey, hscope, hduplicate, hfolded, hbatch, hcarried.budgets⟩, rfl⟩, ?_⟩
  exact
    { jobType := rfl
      queue := rfl
      payload := rfl
      priority := fun n hn => by
        have hstated := hdecided "priority" (by simp)
          (show _ = [natural numerals n.toNat] by simp [hlookup, stated_cons, hn])
        exact Option.some.inj <| hpriority.symm.trans <|
          (required_eq_some_iff ..).mpr ⟨_, hstated, readU16_natural hmirrors n⟩
      readyAt := fun ms hms => by
        have hstated := hdecided "ready_at" (by simp)
          (show _ = [natural numerals ms.toNat] by simp [hlookup, stated_cons, hms])
        exact Option.some.inj <| hready.symm.trans <|
          (required_eq_some_iff ..).mpr ⟨_, hstated, readU64_natural hmirrors ms⟩
      retryLimit := rfl
      backoff := rfl
      retention := rfl
      uniqueKey := by simp [Job.ofApi, Option.map_map, Function.comp_def]
      scope := fun key s hsettled hs => by
        have hstated := hdecided "unique_while" (by simp)
          (show _ = [.string (scopeName s)] by simp [hlookup, stated_cons, hsettled, hs])
        rw [optional_eq, hstated] at hscope
        simp only [readOption, readScope, hmirrors.lawful (scopeName s), Option.map_some, scopeOf_scopeName,
          Option.some.injEq] at hscope
        rw [← hs] at hscope
        simp [Job.ofApi, hsettled, ← hscope]
      batch := rfl
      budgets := rfl }

theorem bulkRequests_eq (enqueues : List (Enqueue ν φ)) : bulkRequests enqueues = enqueues.map Enqueue.request := by
  have hfold : bulkRequests enqueues = enqueues.foldl (fun requests e => requests ++ [e.request]) [] := rfl
  rw [hfold, List.foldl_append_eq_append, List.nil_append, ← List.flatMap_def, List.map_eq_flatMap]

theorem mapM_answers (hmirrors : Mirrors numerals formatted) (format : Format) {enqueues : List (Enqueue ν φ)}
    (hfloat : ∀ e ∈ enqueues, ∀ config, e.settings.backoff = some config →
      formatted.float (wireValue format (numerals.float config.exponent)) = some config.exponent)
    {answers : List (List (String × Value ν))}
    (h : List.Forall₂ (fun e members => Answers formatted (requestMembers numerals format e.request) members)
      enqueues answers) :
    ∃ jobs, (answers.map .object).mapM (Job.read formatted) = some jobs ∧
      List.Forall₂ (fun e job => ReadsBack e.kind.name (payloadRead format e.request) e.settings job)
        enqueues jobs := by
  induction h with
  | nil => exact ⟨[], rfl, .nil⟩
  | cons hanswer _ ih =>
    obtain ⟨hhead, htail⟩ := List.forall_mem_cons.mp hfloat
    obtain ⟨job, hjob, hback⟩ := Enqueue.reads_back hmirrors format _ hhead hanswer
    obtain ⟨jobs, hjobs, hall⟩ := ih htail
    refine ⟨job :: jobs, ?_, .cons hback hall⟩
    rw [List.map_cons, List.mapM_cons, hjob, hjobs]
    rfl

end Back

/-- The jobs of a `BulkEnqueueResponse`. -/
def BulkEnqueueResponse.read (formatted : Formatted ν φ) : Value ν → Option (List (Job ν φ)) :=
  readStruct ["jobs"] (required (readVec (Job.read formatted)) "jobs")

/-- **Main theorem.** Whatever is set on the builders of a bulk enqueue, in any order and over any kinds, the requests
state it, and the jobs that a server answers with show it, one for each builder and in their order. -/
theorem bulk_reads_back {numerals : Numerals ν φ} {formatted : Formatted ν φ} (hmirrors : Mirrors numerals formatted)
    (format : Format) (enqueues : List (Enqueue ν φ))
    (hfloat : ∀ e ∈ enqueues, ∀ config, e.settings.backoff = some config →
      formatted.float (wireValue format (numerals.float config.exponent)) = some config.exponent)
    {answers : List (List (String × Value ν))}
    (hanswers : List.Forall₂
      (fun request members => Answers formatted (requestMembers numerals format request) members)
      (bulkRequests enqueues) answers)
    {response : List (String × Value ν)} (hresponse : stated "jobs" response = [.array (answers.map .object)]) :
    ∃ jobs, BulkEnqueueResponse.read formatted (.object response) = some jobs ∧
      List.Forall₂ (fun e job => ReadsBack e.kind.name (payloadRead format e.request) e.settings job)
        enqueues jobs := by
  rw [bulkRequests_eq, List.forall₂_map_left_iff] at hanswers
  obtain ⟨jobs, hjobs, hall⟩ := mapM_answers hmirrors format hfloat hanswers
  exact ⟨jobs, (required_eq_some_iff ..).mpr ⟨_, hresponse, hjobs⟩, hall⟩

def plainNumerals : Numerals Nat Nat := ⟨id, .number⟩

/-- The queue is set twice, and the budgets of the kind are replaced. -/
def sendEmail : Enqueue Nat Nat where
  kind := ⟨"send_email", "default", some 50, none, some ⟨100, 2, 30⟩, none, [⟨"smtp", none, none⟩], false⟩
  payload := ⟨⟨.struct "SendEmail" [("to", .str "a@x")], by decide⟩, some (.raw "a@x"), none⟩
  calls := [.queue "high", .budget ⟨"stripe", some 2, none⟩, .queue "low", .budget ⟨"emails", none, none⟩]

/-- What the server answers with. -/
def answer : List (String × Value Nat) :=
  [("id", .string "job-1"), ("type", .string "send_email"), ("queue", .string "low"), ("status", .string "ready"),
    ("priority", .number 50), ("payload", .object [("to", .string "a@x")]), ("ready_at", .number 7),
    ("attempts", .number 0), ("backoff", backoffValue plainNumerals .json ⟨100, 2, 30⟩),
    ("unique_key", .string "a@x"), ("unique_while", .string "queued"),
    ("budgets", .array [.object [("key", .string "stripe"), ("cost", .number 2)],
      .object [("key", .string "emails"), ("cost", .number 1)]])]

theorem plain_mirrors : Mirrors plainNumerals plainFormat := ⟨fun _ => rfl, fun _ _ => rfl⟩

theorem sendEmail_answers : Answers plainFormat (requestMembers plainNumerals .json sendEmail.request) answer := by
  refine ⟨by decide, by decide, by decide, ?_, by decide, by decide, by decide, by decide, by decide, by decide,
    by decide, by decide⟩
  have hstripe : Binds plainFormat (bindingValue plainNumerals ⟨"stripe", some 2, none⟩)
      (.object [("key", .string "stripe"), ("cost", .number 2)]) := ⟨_, _, rfl, rfl, by decide, .inl (by decide)⟩
  have hemails : Binds plainFormat (bindingValue plainNumerals ⟨"emails", none, none⟩)
      (.object [("key", .string "emails"), ("cost", .number 1)]) :=
    ⟨_, _, rfl, rfl, by decide, .inr ⟨by decide, 1, by decide, rfl⟩⟩
  exact .throttled (.cons hstripe (.cons hemails .nil))

/-- Of another kind, with nothing but what every job has. -/
def sweep : Enqueue Nat Nat where
  kind := ⟨"sweep", "default", none, none, none, none, [], true⟩
  payload := ⟨⟨.unitStruct "Sweep", by decide⟩, none, none⟩
  calls := []

def sweepAnswer : List (String × Value Nat) :=
  [("id", .string "job-2"), ("type", .string "sweep"), ("queue", .string "default"), ("status", .string "ready"),
    ("priority", .number 100), ("payload", .null), ("ready_at", .number 8), ("attempts", .number 0)]

theorem sweep_answers : Answers plainFormat (requestMembers plainNumerals .json sweep.request) sweepAnswer := by
  refine ⟨by decide, by decide, by decide, ?_, by decide, by decide, by decide, by decide, by decide, by decide,
    by decide, by decide⟩
  exact .unthrottled (.inl rfl)

theorem bulk_reads_back_sweep :
    ∃ jobs, BulkEnqueueResponse.read plainFormat
        (.object [("jobs", .array [.object answer, .object sweepAnswer])]) = some jobs ∧
      jobs.map (fun job => (job.jobType, job.queue, job.budgets)) =
        [("send_email", "low", [⟨"stripe", 2⟩, ⟨"emails", 1⟩]), ("sweep", "default", [])] := by
  have hfloat (n : Nat) : plainFormat.float (wireValue .json (plainNumerals.float n)) = some n := rfl
  have hresponse : stated "jobs" [("jobs", .array [.object answer, .object sweepAnswer])] =
      [.array ([answer, sweepAnswer].map .object)] := rfl
  obtain ⟨jobs, hread, hall⟩ :=
    bulk_reads_back plain_mirrors .json [sendEmail, sweep] (fun _ _ config _ => hfloat _)
      (.cons sendEmail_answers (.cons sweep_answers .nil)) hresponse
  obtain ⟨email, rest, hemail, hrest, rfl⟩ := List.forall₂_cons_left_iff.mp hall
  obtain ⟨swept, rest, hswept, hnil, rfl⟩ := List.forall₂_cons_left_iff.mp hrest
  obtain rfl := List.forall₂_nil_left_iff.mp hnil
  refine ⟨_, hread, ?_⟩
  simp only [List.map_cons, List.map_nil, hemail.jobType, hemail.queue, hemail.budgets, hswept.jobType, hswept.queue,
    hswept.budgets]
  rfl

end Zizq.Resources
