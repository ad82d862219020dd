import Zizq.Client.LastValues
import Zizq.Derive.Methods
import Zizq.Resources.Request

/-! From the attributes to the jobs.

The constants and the methods of a derived kind go into every enqueue of it. So the jobs
of a bulk enqueue show the last call on each axis, and what the attributes say wherever no
call says otherwise; and two of them have the same unique key exactly if their payloads
hold the same wherever the `unique` attribute looks (`derived_reads_back`). -/
namespace Zizq.Derive
open Client Data Json Patch Resources
variable {τ ν φ : Type}

/-! ### The kind -/

/-- What the compiler makes of an expression, for each of the types that a constant can have. -/
structure Evaluation (τ φ : Type) where
  u16 : Expr τ → UInt16
  u32 : Expr τ → UInt32
  u64 : Expr τ → UInt64
  usize : Expr τ → Nat
  float : Expr τ → φ

section Kind
variable (eval : Evaluation τ φ)

def BackoffAttr.config (backoff : BackoffAttr τ) : BackoffConfig φ where
  baseMs := eval.u32 backoff.baseMs
  exponent := eval.float backoff.exponent
  jitterMs := eval.u32 backoff.jitterMs

def RetentionAttr.config (retention : RetentionAttr τ) : RetentionConfig where
  completedMs := retention.completedMs.map eval.u64
  deadMs := retention.deadMs.map eval.u64

def emitBudgetStrategy : BudgetStrategyAttr τ → BudgetStrategy
  | .whileInFlight => .whileInFlight
  | .timeBased durationMs burst => .timeBased (.fromMillis (eval.u64 durationMs)) (burst.map eval.u32)

def BudgetPolicyAttr.policy (policy : BudgetPolicyAttr τ) : BudgetPolicy where
  allocation := eval.u32 policy.allocation
  strategy := emitBudgetStrategy eval policy.strategy

def BudgetAttr.binding (budget : BudgetAttr τ) : BudgetBindingInput BudgetPolicy where
  key := budget.key
  cost := budget.cost.map eval.u32
  createWith := budget.createWith.map (BudgetPolicyAttr.policy eval)

/-- The constants, with those of the trait where none is emitted. -/
def JobKindImpl.kind (zeroSized : Bool) (emitted : JobKindImpl τ) : Resources.Kind φ where
  name := emitted.name
  queue := emitted.queue.getD "default"
  priority := emitted.priority.map eval.u16
  retryLimit := emitted.retryLimit.map eval.u32
  backoff := emitted.backoff.map (BackoffAttr.config eval)
  retention := emitted.retention.map (RetentionAttr.config eval)
  budgets := emitted.budgets.map (BudgetAttr.binding eval)
  zeroSized

/-- What `serde_json::to_value` makes of a payload before it is hashed. -/
def hashed (payload : Payload ν) : Json ν := ⟨wireValue .json payload.datum, ordered_wireValue .json payload.datum⟩

/-- An enqueue of the kind. -/
structure Push (ν φ : Type) where
  payload : Payload ν
  calls : List (EnqueueCall φ)

variable (tokens : Key.Tokens ν) (digest : Key.Digest)

/-- The methods, at a payload; the trait's own return nothing. -/
def JobKindImpl.derived (emitted : JobKindImpl τ) (payload : Payload ν) : Derived ν where
  payload
  uniqueKey := emitted.uniqueKey.map fun fn => fn.uniqueKey tokens digest emitted.name (hashed payload).value
  batch := emitted.batch.map fun fn =>
    fn.batch tokens digest emitted.name (eval.usize fn.limit) (hashed payload).value

def JobKindImpl.enqueue (zeroSized : Bool) (emitted : JobKindImpl τ) (push : Push ν φ) : Enqueue ν φ where
  kind := emitted.kind eval zeroSized
  payload := emitted.derived eval tokens digest push.payload
  calls := push.calls

end Kind

/-! ### What the jobs show -/

/-- The payloads hold the same at the paths of an `only` list, or at every location outside of those of an
`except` list, or at every location. -/
def UniqueAttr.Same (platform : Platform) (unique : UniqueAttr) (s s' : Json ν) : Prop :=
  match unique.selection with
  | none => s.value = s'.value
  | some (.only texts) => ∀ text ∈ texts, ∀ p, parse platform text = .ok p → walk s.value p = walk s'.value p
  | some (.except texts) =>
    ∀ q, (∀ text ∈ texts, ∀ p, parse platform text = .ok p → ¬ p <+: q) →
      (walk s.value q).map kind = (walk s'.value q).map kind

/-- The fold mode that the attribute asks for. -/
def BatchFoldMode.mode : BatchFoldMode → Batch.FoldMode
  | .append => .append
  | .dedup => .dedup
  | .sorted => .sorted

/-- The instant of a call that sets the time. -/
def instant? : EnqueueCall φ → Option OffsetDateTime
  | .delay instant | .readyAt instant | .runAt instant => some instant
  | _ => none

/-- What a job shows of the calls, and of the attributes where no call says otherwise. A batch has the programs of
its path, limit and mode, and the key that the emitted method derives. -/
structure Shows (platform : Platform) (eval : Evaluation τ φ) (tokens : Key.Tokens ν) (digest : Key.Digest)
    (ident : String) (attrs : ZizqAttrs τ) (push : Push ν φ) (job : Job ν φ) : Prop where
  jobType : job.jobType = attrs.name.getD ident
  queue : job.queue = (Setters.latest EnqueueCall.queue? push.calls).getD (attrs.queue.getD "default")
  priority : ∀ n, (Setters.latest EnqueueCall.priority? push.calls <|> attrs.priority.map eval.u16) = some n →
    job.priority = n
  readyAt : ∀ instant, Setters.latest instant? push.calls = some instant → job.readyAt.toNat = instant.millis
  retryLimit : job.retryLimit =
    (Setters.latest EnqueueCall.retryLimit? push.calls <|> attrs.retryLimit.map eval.u32)
  backoff : job.backoff =
    (Setters.latest EnqueueCall.backoff? push.calls <|> attrs.backoff.map (BackoffAttr.config eval))
  retention : job.retention =
    (Setters.latest EnqueueCall.retention? push.calls <|> attrs.retention.map (RetentionAttr.config eval))
  budgets : job.budgets =
    ((budgetsAfter push.calls.reverse).getD (attrs.budgets.map (BudgetAttr.binding eval))).map
      fun binding => ⟨binding.key, binding.cost.getD 1⟩
  keyed : ∀ key, Setters.latest EnqueueCall.uniqueKey? push.calls = some key →
    job.uniqueKey.map (·.key) = some key.key ∧ ∀ scope, key.scope = some scope → job.uniqueKey = some key
  unkeyed : attrs.unique = none → Setters.latest EnqueueCall.uniqueKey? push.calls = none → job.uniqueKey = none
  scope : ∀ unique scope, attrs.unique = some unique → unique.scope = some scope →
    Setters.latest EnqueueCall.uniqueKey? push.calls = none → job.uniqueKey.map (·.scope) = some (some scope.variant)
  batched : ∀ config, Setters.latest EnqueueCall.batch? push.calls = some config → job.batch = some config
  unbatched : attrs.batch = none → Setters.latest EnqueueCall.batch? push.calls = none → job.batch = none
  batch : ∀ batch, attrs.batch = some batch → Setters.latest EnqueueCall.batch? push.calls = none →
    ∃ fn : BatchFn τ, fn.Implements platform batch ∧
      job.batch = some ((Batch.BatchConfigAt.mk batch.path (eval.usize batch.limit) batch.fold.mode).keyedBy
        (fn.key.batchKey tokens digest (attrs.name.getD ident) (hashed push.payload).value))

/-- What the emitted method hashes of the payload is in the set, and its `except` paths remove no array item that
another one follows. -/
def JobKindImpl.HashesInto (emitted : JobKindImpl τ) (tokens : Key.Tokens ν) (S : Set ByteArray) (push : Push ν φ) :
    Prop :=
  ∀ fn, emitted.uniqueKey = some fn →
    Key.canonicalBytes tokens (fn.hashable (hashed push.payload).value) ∈ S ∧
      Settled fn.exceptPaths (hashed push.payload).value

/-! ### Reading the jobs back -/

section Back
variable {platform : Platform} {unique : UniqueAttr} {fn : UniqueKeyFn}

theorem Paths.forall_iff {texts : List String} {paths : List Path} (h : Paths platform texts paths)
    {P : Path → Prop} : (∀ p ∈ paths, P p) ↔ ∀ text ∈ texts, ∀ p, parse platform text = .ok p → P p := by
  induction h with
  | nil => simp
  | cons hparse _ ih => simp [ih, hparse]

/-- The emitted method looks where the attribute says. -/
theorem UniqueKeyFn.Implements.agree_iff (h : fn.Implements platform unique) (s s' : Json ν) :
    fn.Agree s s' ↔ unique.Same platform s s' := by
  have hselection := h.selection
  rw [UniqueKeyFn.Agree, UniqueAttr.Same]
  generalize unique.selection = asked at hselection
  generalize fn.selection = emitted at hselection
  cases hselection with
  | none => exact Iff.rfl
  | some hselects =>
    cases hselects with
    | only hpaths => exact hpaths.forall_iff
    | except hpaths => exact forall_congr' fun q => imp_congr_left hpaths.forall_iff

variable {eval : Evaluation τ φ} {ident : String} {attrs : ZizqAttrs τ} {emitted : JobKindImpl τ}
  {tokens : Key.Tokens ν} {digest : Key.Digest} {zeroSized : Bool} {push push' : Push ν φ}
  {payload payload' : Value ν} {job job' : Job ν φ}

theorem UniqueKeyFn.scope_uniqueKey (name : String) (fn : UniqueKeyFn) (payload : Value ν) :
    (fn.uniqueKey tokens digest name payload).scope = fn.scope.map UniqueScopeAttr.variant := by
  rw [uniqueKey]
  cases fn.scope with
  | none => cases fn.prefixOn <;> rfl
  | some scope => rfl

/-- Where no call sets a key, it is left to the method. -/
theorem JobKindImpl.settings_uniqueKey (hcalls : Setters.latest EnqueueCall.uniqueKey? push.calls = none) :
    (emitted.enqueue eval tokens digest zeroSized push).settings.uniqueKey =
      emitted.uniqueKey.map fun fn => fn.uniqueKey tokens digest emitted.name (hashed push.payload).value := by
  show (Setters.latest EnqueueCall.uniqueKey? push.calls <|> _) = _
  rw [hcalls]
  rfl

theorem latest_readyAt (calls : List (EnqueueCall φ)) :
    Setters.latest EnqueueCall.readyAt? calls = (Setters.latest instant? calls).map toMsEpoch := by
  rw [Setters.latest, Setters.latest, List.map_findSome?]
  congr 1
  funext call
  cases call <;> rfl

/-- Where no call sets a batch, it is left to the method. -/
theorem JobKindImpl.settings_batch (hcalls : Setters.latest EnqueueCall.batch? push.calls = none) :
    (emitted.enqueue eval tokens digest zeroSized push).settings.batch = emitted.batch.map fun fn =>
      fn.batch tokens digest emitted.name (eval.usize fn.limit) (hashed push.payload).value := by
  show (Setters.latest EnqueueCall.batch? push.calls <|> _) = _
  rw [hcalls]
  rfl

theorem BatchFn.Implements.batch_eq {batch : BatchAttr τ} {fn : BatchFn τ} (h : fn.Implements platform batch)
    (name : String) (payload : Value ν) :
    fn.batch tokens digest name (eval.usize fn.limit) payload =
      (Batch.BatchConfigAt.mk batch.path (eval.usize batch.limit) batch.fold.mode).keyedBy
        (fn.key.batchKey tokens digest name payload) := by
  have hmode : Batch.modeOf batch.fold.calls = batch.fold.mode := by cases batch.fold <;> rfl
  rw [BatchFn.batch, Batch.foldl_apply, h.text, h.limit, h.fold, hmode]

theorem JobKindImpl.Implements.shows (h : emitted.Implements platform ident attrs)
    (hback : ReadsBack emitted.name payload (emitted.enqueue eval tokens digest zeroSized push).settings job) :
    Shows platform eval tokens digest ident attrs push job where
  jobType := hback.jobType.trans h.name
  queue := hback.queue.trans (by rw [← h.queue]; rfl)
  priority := fun n hn => hback.priority n (by rw [← h.priority] at hn; exact hn)
  readyAt := fun instant hinstant => by
    have hsettled : (emitted.enqueue eval tokens digest zeroSized push).settings.readyAt =
        some (toMsEpoch instant) := by
      rw [Enqueue.settings]
      show Setters.latest EnqueueCall.readyAt? push.calls = _
      rw [latest_readyAt, hinstant, Option.map_some]
    rw [hback.readyAt _ hsettled, toNat_toMsEpoch]
    rfl
  retryLimit := hback.retryLimit.trans (by rw [← h.retryLimit]; rfl)
  backoff := hback.backoff.trans (by rw [← h.backoff]; rfl)
  retention := hback.retention.trans (by rw [← h.retention]; rfl)
  budgets := hback.budgets.trans (by rw [← h.budgets]; rfl)
  keyed := fun key hcall => by
    have hsettled : (emitted.enqueue eval tokens digest zeroSized push).settings.uniqueKey = some key := by
      show (Setters.latest EnqueueCall.uniqueKey? push.calls <|> _) = _
      rw [hcall]
      rfl
    refine ⟨?_, fun scope hscope => hback.scope key scope hsettled hscope⟩
    rw [hback.uniqueKey, hsettled, Option.map_some]
  unkeyed := fun hnone hcalls => by
    have hkey := h.uniqueKey
    rw [hnone] at hkey
    generalize hemitted : emitted.uniqueKey = method at hkey
    cases hkey
    have hshown := hback.uniqueKey
    rw [settings_uniqueKey hcalls, hemitted] at hshown
    exact Option.map_eq_none_iff.mp hshown
  scope := fun unique scope hunique hscope hcalls => by
    have hkey := h.uniqueKey
    rw [hunique] at hkey
    generalize hemitted : emitted.uniqueKey = method at hkey
    cases hkey with
    | @some _ fn himplements =>
      have hsettled : (emitted.enqueue eval tokens digest zeroSized push).settings.uniqueKey = _ :=
        settings_uniqueKey hcalls
      rw [hemitted, Option.map_some] at hsettled
      have hvariant : (fn.uniqueKey tokens digest emitted.name (hashed push.payload).value).scope =
          some scope.variant := by
        rw [UniqueKeyFn.scope_uniqueKey, himplements.scope, hscope, Option.map_some]
      rw [hback.scope _ _ hsettled hvariant, Option.map_some, hvariant]
  batched := fun config hcall => by
    rw [hback.batch]
    show (Setters.latest EnqueueCall.batch? push.calls <|> _) = _
    rw [hcall]
    rfl
  unbatched := fun hnone hcalls => by
    have hbatch := h.batch
    rw [hnone] at hbatch
    generalize hemitted : emitted.batch = method at hbatch
    cases hbatch
    rw [hback.batch, settings_batch hcalls, hemitted, Option.map_none]
  batch := fun batch hsome hcalls => by
    have hbatch := h.batch
    rw [hsome] at hbatch
    generalize hemitted : emitted.batch = method at hbatch
    cases hbatch with
    | @some _ fn himplements =>
      refine ⟨fn, himplements, ?_⟩
      rw [hback.batch, settings_batch hcalls, hemitted, Option.map_some, himplements.batch_eq, h.name]

/-- Two keys that were derived are equal exactly if the payloads are the same for the attribute. -/
theorem JobKindImpl.Implements.key_eq_key_iff (h : emitted.Implements platform ident attrs)
    (hunique : attrs.unique = some unique) (ht : tokens.Lawful) {S : Set ByteArray} (hS : S.InjOn digest)
    (hhashed : emitted.HashesInto tokens S push) (hhashed' : emitted.HashesInto tokens S push')
    (hback : ReadsBack emitted.name payload (emitted.enqueue eval tokens digest zeroSized push).settings job)
    (hback' : ReadsBack emitted.name payload' (emitted.enqueue eval tokens digest zeroSized push').settings job')
    (hcalls : Setters.latest EnqueueCall.uniqueKey? push.calls = none)
    (hcalls' : Setters.latest EnqueueCall.uniqueKey? push'.calls = none) :
    job.uniqueKey.map (·.key) = job'.uniqueKey.map (·.key) ↔
      unique.Same platform (hashed push.payload) (hashed push'.payload) := by
  have hkey := h.uniqueKey
  rw [hunique] at hkey
  generalize hemitted : emitted.uniqueKey = method at hkey
  cases hkey with
  | @some _ fn himplements =>
    obtain ⟨hs, hsettled⟩ := hhashed fn hemitted
    obtain ⟨hs', hsettled'⟩ := hhashed' fn hemitted
    rw [hback.uniqueKey, hback'.uniqueKey, settings_uniqueKey hcalls, settings_uniqueKey hcalls', hemitted]
    simp only [Option.map_some, Option.some.injEq]
    rw [UniqueKeyFn.key_eq_key_iff ht hS hs hs', UniqueKeyFn.hashable_eq_iff hsettled hsettled',
      himplements.agree_iff]
    simp

end Back

end Zizq.Derive
