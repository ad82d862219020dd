import Zizq.Derive.Attrs

/-! The attributes that the derive accepts.

Whatever the parser of the attributes makes of a list of them, the list writes that, item
by item, and whatever can be written is read as what it is (`parse_eq_ok_iff`). Nothing else of
the list matters: neither the order of the items of any group, nor how they are spread
over attributes, but for the order of the budgets. -/
namespace Zizq.Derive
open Data Fields
variable {τ : Type} {syn : Syn}

/-! ### How values are written -/

/-- The item is a group of this name, with this in its parentheses. -/
def Meta.Lists (syn : Syn) (ident : String) (content : List (Meta τ) → Prop) (item : Meta τ) : Prop :=
  ∃ items, item = .list ident items ∧ (items = [] → syn.emptyList = true) ∧ content items

namespace BackoffAttr

/-- The item gives the field this value. -/
def writes : BackoffField → Expr τ → Meta τ → Prop
  | .baseMs, e, item => item = .value "base_ms" e
  | .exponent, e, item => item = .value "exponent" e
  | .jitterMs, e, item => item = .value "jitter_ms" e

def slots (backoff : BackoffAttr τ) : BackoffField → Option (Expr τ)
  | .baseMs => some backoff.baseMs
  | .exponent => some backoff.exponent
  | .jitterMs => some backoff.jitterMs

/-- `backoff(base_ms = .., exponent = .., jitter_ms = ..)`, in any order. -/
def Writes (syn : Syn) (backoff : BackoffAttr τ) : Meta τ → Prop :=
  Meta.Lists syn "backoff" (WrittenBy [.baseMs, .exponent, .jitterMs] writes backoff.slots)

end BackoffAttr

namespace RetentionAttr

def writes : RetentionField → Expr τ → Meta τ → Prop
  | .completedMs, e, item => item = .value "completed_ms" e
  | .deadMs, e, item => item = .value "dead_ms" e

def slots (retention : RetentionAttr τ) : RetentionField → Option (Expr τ)
  | .completedMs => retention.completedMs
  | .deadMs => retention.deadMs

/-- `retention(..)` with at least one of its two fields. -/
def Writes (syn : Syn) (retention : RetentionAttr τ) (item : Meta τ) : Prop :=
  (retention.completedMs.isSome ∨ retention.deadMs.isSome) ∧
    item.Lists syn "retention" (WrittenBy [.completedMs, .deadMs] writes retention.slots)

end RetentionAttr

namespace BudgetStrategyAttr

def writes : TimeBasedField → Expr τ → Meta τ → Prop
  | .durationMs, e, item => item = .value "duration_ms" e
  | .burst, e, item => item = .value "burst" e

def slots (durationMs : Expr τ) (burst : Option (Expr τ)) : TimeBasedField → Option (Expr τ)
  | .durationMs => some durationMs
  | .burst => burst

/-- `while_in_flight`, or `time_based(duration_ms = ..)` with or without a burst. -/
def Writes (syn : Syn) : BudgetStrategyAttr τ → Meta τ → Prop
  | .whileInFlight, item => item = .bare "while_in_flight"
  | .timeBased durationMs burst, item =>
    item.Lists syn "time_based" (WrittenBy [.durationMs, .burst] writes (slots durationMs burst))

end BudgetStrategyAttr

namespace BudgetPolicyAttr

def writes (syn : Syn) : (k : PolicyField) → PolicyField.Value τ k → Meta τ → Prop
  | .allocation, e, item => item = .value "allocation" e
  | .strategy, strategy, item => strategy.Writes syn item

def slots (policy : BudgetPolicyAttr τ) : (k : PolicyField) → Option (PolicyField.Value τ k)
  | .allocation => some policy.allocation
  | .strategy => some policy.strategy

/-- `create_with(allocation = .., ..)`, with a strategy. -/
def Writes (syn : Syn) (policy : BudgetPolicyAttr τ) : Meta τ → Prop :=
  Meta.Lists syn "create_with" (WrittenBy [.allocation, .strategy] (writes syn) policy.slots)

end BudgetPolicyAttr

namespace BudgetAttr

def writes (syn : Syn) : (k : BudgetField) → BudgetField.Value τ k → Meta τ → Prop
  | .key, key, item => item = .value "key" (.str key)
  | .cost, e, item => item = .value "cost" e
  | .createWith, policy, item => policy.Writes syn item

def slots (budget : BudgetAttr τ) : (k : BudgetField) → Option (BudgetField.Value τ k)
  | .key => some budget.key
  | .cost => budget.cost
  | .createWith => budget.createWith

/-- `budget(key = "..")`, with or without a cost and a policy. -/
def Writes (syn : Syn) (budget : BudgetAttr τ) : Meta τ → Prop :=
  Meta.Lists syn "budget" (WrittenBy [.key, .cost, .createWith] (writes syn) budget.slots)

end BudgetAttr

/-- `ident = ["..", ".."]` -/
def writesPaths (ident : String) (paths : List String) (item : Meta τ) : Prop :=
  item = .value ident (.array (paths.map .str))

namespace UniqueSelection

/-- The two lists of paths; a selection has one of them. -/
def onlyPaths : Option UniqueSelection → Option (List String)
  | some (.only paths) => some paths
  | _ => none

def exceptPaths : Option UniqueSelection → Option (List String)
  | some (.except paths) => some paths
  | _ => none

end UniqueSelection

namespace UniqueAttr

def writes : (k : UniqueField) → k.Value → Meta τ → Prop
  | .only, paths, item => writesPaths "only" paths item
  | .except, paths, item => writesPaths "except" paths item
  | .scope, scope, item => item = .value "scope" (.str scope.name)
  | .withPrefix, b, item => item = .value "prefix" (.bool b)

def slots (unique : UniqueAttr) : (k : UniqueField) → Option k.Value
  | .only => UniqueSelection.onlyPaths unique.selection
  | .except => UniqueSelection.exceptPaths unique.selection
  | .scope => unique.scope
  | .withPrefix => unique.withPrefix

/-- Bare, it asks for nothing in particular. -/
def Writes (syn : Syn) (unique : UniqueAttr) (item : Meta τ) : Prop :=
  (item = .bare "unique" ∧ unique = {}) ∨
    item.Lists syn "unique" (WrittenBy [.only, .except, .scope, .withPrefix] writes unique.slots)

end UniqueAttr

namespace BatchKeyConfig

def writes : (k : BatchKeyField) → k.Value → Meta τ → Prop
  | .only, paths, item => writesPaths "only" paths item
  | .except, paths, item => writesPaths "except" paths item
  | .withPrefix, b, item => item = .value "prefix" (.bool b)

def slots (key : BatchKeyConfig) : (k : BatchKeyField) → Option k.Value
  | .only => UniqueSelection.onlyPaths key.selection
  | .except => UniqueSelection.exceptPaths key.selection
  | .withPrefix => key.withPrefix

/-- `key(..)`, with one of the lists of paths at most. -/
def Writes (syn : Syn) (key : BatchKeyConfig) : Meta τ → Prop :=
  Meta.Lists syn "key" (WrittenBy [.only, .except, .withPrefix] writes key.slots)

end BatchKeyConfig

namespace BatchAttr

def writes (syn : Syn) : (k : BatchField) → BatchField.Value τ k → Meta τ → Prop
  | .path, path, item => item = .value "path" (.str path)
  | .limit, e, item => item = .value "limit" e
  | .fold, fold, item => fold = .dedup ∧ item = .bare "dedup" ∨ fold = .sorted ∧ item = .bare "sorted"
  | .key, key, item => key.Writes syn item

/-- The default fold is written by no flag. -/
def slots (batch : BatchAttr τ) : (k : BatchField) → Option (BatchField.Value τ k)
  | .path => some batch.path
  | .limit => some batch.limit
  | .fold => if batch.fold = .append then none else some batch.fold
  | .key => batch.key

/-- `batch(path = "..", limit = ..)`, with a flag and a key or without. -/
def Writes (syn : Syn) (batch : BatchAttr τ) : Meta τ → Prop :=
  Meta.Lists syn "batch" (WrittenBy [.path, .limit, .fold, .key] (writes syn) batch.slots)

end BatchAttr

namespace ZizqAttrs

/-- The item is one of the fields that are set once. -/
def writes (syn : Syn) : (k : AttrField) → AttrField.Value τ k → Meta τ → Prop
  | .name, s, item => item = .value "name" (.str s)
  | .queue, s, item => item = .value "queue" (.str s)
  | .priority, e, item => item = .value "priority" e
  | .retryLimit, e, item => item = .value "retry_limit" e
  | .backoff, backoff, item => backoff.Writes syn item
  | .retention, retention, item => retention.Writes syn item
  | .unique, unique, item => unique.Writes syn item
  | .batch, batch, item => batch.Writes syn item

def slots (attrs : ZizqAttrs τ) : (k : AttrField) → Option (AttrField.Value τ k)
  | .name => attrs.name
  | .queue => attrs.queue
  | .priority => attrs.priority
  | .retryLimit => attrs.retryLimit
  | .backoff => attrs.backoff
  | .retention => attrs.retention
  | .unique => attrs.unique
  | .batch => attrs.batch

/-- The items write the attributes: the budgets in their order and with keys of their own, everything else
in any order. -/
structure Writes (syn : Syn) (attrs : ZizqAttrs τ) (items : List (Meta τ)) : Prop where
  budgets : List.Forall₂ (BudgetAttr.Writes syn) attrs.budgets (items.filter Meta.isBudget)
  distinct : (attrs.budgets.map (·.key)).Nodup
  others : WrittenBy [.name, .queue, .priority, .retryLimit, .backoff, .retention, .unique, .batch]
    (writes syn) attrs.slots (items.filter fun item => !item.isBudget)

end ZizqAttrs

/-- The items of the `zizq` attributes. -/
def itemsOf (attrs : List (Attribute τ)) : List (Meta τ) :=
  attrs.flatMap fun attr => if attr.path = "zizq" then attr.args.getD [] else []

/-! ### Reading an item -/

theorem lookup_eq_some_iff {α β : Type} [BEq α] [LawfulBEq α] {names : List (α × β)} {a : α} {b : β}
    (hnames : (names.map Prod.fst).Nodup) : names.lookup a = some b ↔ (a, b) ∈ names := by
  induction names with
  | nil => simp
  | cons e names ih =>
    obtain ⟨a', b'⟩ := e
    obtain ⟨hhead, htail⟩ := List.nodup_cons.mp hnames
    rw [List.lookup_cons, List.mem_cons, Prod.mk.injEq]
    by_cases h : a = a'
    · subst h
      have hnone : (a, b) ∉ names := fun hmem => hhead (List.mem_map.mpr ⟨_, hmem, rfl⟩)
      simp [hnone, eq_comm]
    · rw [beq_false_of_ne h, ih htail]
      simp [h]

/-- A reader that goes by names reads an item whose name it knows, and whose value is one for that field. -/
theorem reads_fieldReader_iff {κ : Type} {ν : κ → Type} {names : List (String × κ)} {unknown : String → String}
    {taken : κ → String → String} {value : (k : κ) → Meta τ → Except AttrError (ν k)}
    (hnames : (names.map Prod.fst).Nodup) {item : Meta τ} {k : κ} {v : ν k} :
    (fieldReader names unknown taken value).Reads item ⟨k, v⟩ ↔
      ∃ ident, (ident, k) ∈ names ∧ item.ident = .ok ident ∧ value k item = .ok v := by
  simp only [Reader.Reads, fieldReader, ← lookup_eq_some_iff hnames]
  cases item.ident with
  | error e => simp
  | ok ident =>
    cases hlookup : names.lookup ident with
    | none => simp [hlookup]
    | some k' => simp [hlookup]

namespace Meta

theorem ident_expr_iff {item : Meta τ} {ident : String} {e : Expr τ} :
    item.ident = .ok ident ∧ item.expr = .ok e ↔ item = .value ident e := by
  cases item <;> simp [Meta.ident, Meta.expr]

theorem ident_litStr_iff {item : Meta τ} {ident s : String} :
    item.ident = .ok ident ∧ item.litStr = .ok s ↔ item = .value ident (.str s) := by
  cases item with
  | value i e => cases e <;> simp [Meta.ident, Meta.litStr]
  | _ => simp [Meta.ident, Meta.litStr]

theorem ident_litBool_iff {item : Meta τ} {ident : String} {b : Bool} :
    item.ident = .ok ident ∧ item.litBool = .ok b ↔ item = .value ident (.bool b) := by
  cases item with
  | value i e => cases e <;> simp [Meta.ident, Meta.litBool]
  | _ => simp [Meta.ident, Meta.litBool]

theorem ident_flag_iff {item : Meta τ} {ident : String} :
    item.ident = .ok ident ∧ item.flag = .ok () ↔ item = .bare ident := by
  cases item <;> simp [Meta.ident, Meta.flag]

theorem mapM_strElem_eq_ok_iff {elems : List (Expr τ)} {paths : List String} :
    elems.mapM strElem = .ok paths ↔ elems = paths.map .str := by
  induction elems generalizing paths with
  | nil => cases paths <;> simp [pure, Except.pure]
  | cons e elems ih =>
    rw [List.mapM_cons, bind_eq_ok_iff]
    cases paths with
    | nil =>
      simp only [bind_eq_ok_iff]
      simp [pure, Except.pure]
    | cons s paths =>
      simp only [bind_eq_ok_iff, List.map_cons, List.cons.injEq, ← ih]
      cases e <;> simp [strElem, pure, Except.pure, and_comm]

/-- A list of paths is an array of string literals. -/
theorem ident_paths_iff {item : Meta τ} {ident : String} {paths : List String} :
    item.ident = .ok ident ∧ parseStrArray item = .ok paths ↔ writesPaths ident paths item := by
  rw [parseStrArray, bind_eq_ok_iff, writesPaths]
  simp only [mapM_strElem_eq_ok_iff]
  cases item with
  | value i e => cases e <;> simp [Meta.ident, Meta.exprArray, eq_comm]
  | _ => simp [Meta.ident, Meta.exprArray]

/-- A list is empty only where the syntax allows that. -/
theorem ident_nested_iff {item : Meta τ} {ident : String} {items : List (Meta τ)} :
    item.ident = .ok ident ∧ item.nested syn = .ok items ↔
      item = .list ident items ∧ (items = [] → syn.emptyList = true) := by
  cases item with
  | list i written =>
    simp only [Meta.ident, Meta.nested, Except.ok.injEq, Meta.list.injEq]
    by_cases h : written = [] ∧ syn.emptyList = false
    · rw [if_pos h]
      simp [h.1, h.2, eq_comm]
    · rw [if_neg h]
      grind
  | _ => simp [Meta.ident, Meta.nested]

end Meta

/-! ### Reading a group -/

/-- A group is read as what its items write, if that can be made of what is read. -/
theorem group_eq_ok_iff {κ β : Type} {ν : κ → Type} [DecidableEq κ] {all : List κ} (hall : all.Nodup)
    (hmem : ∀ k, k ∈ all) {r : Reader (Meta τ) κ ν AttrError} {writes : (k : κ) → ν k → Meta τ → Prop}
    (hreads : ∀ item k v, r.Reads item ⟨k, v⟩ ↔ writes k v item)
    {finish : ((k : κ) → Option (ν k)) → Except AttrError β} {b : β} {valid : Prop} {slots : (k : κ) → Option (ν k)}
    (hread : ∀ fields items, WrittenBy all writes fields items → finish fields = .ok b → valid ∧ fields = slots)
    (hwrite : valid → finish slots = .ok b) {item : Meta τ} {ident : String} :
    (item.ident = .ok ident ∧ (item.nested syn >>= fun items => r.slots items >>= finish) = .ok b) ↔
      valid ∧ item.Lists syn ident (WrittenBy all writes slots) := by
  simp only [bind_eq_ok_iff, Reader.slots_eq_ok_iff hall hmem hreads, Meta.Lists]
  constructor
  · intro h
    obtain ⟨hident, items, hnested, fields, hwritten, hfinish⟩ := h
    obtain ⟨hitem, hempty⟩ := Meta.ident_nested_iff.mp ⟨hident, hnested⟩
    obtain ⟨hvalid, rfl⟩ := hread fields items hwritten hfinish
    exact ⟨hvalid, items, hitem, hempty, hwritten⟩
  · intro h
    obtain ⟨hvalid, items, hitem, hempty, hwritten⟩ := h
    obtain ⟨hident, hnested⟩ := Meta.ident_nested_iff.mpr ⟨hitem, hempty⟩
    exact ⟨hident, items, hnested, slots, hwritten, hwrite hvalid⟩

/-- All three fields have to be there. -/
theorem parseBackoff_eq_ok_iff {item : Meta τ} {backoff : BackoffAttr τ} :
    item.ident = .ok "backoff" ∧ parseBackoff syn item = .ok backoff ↔ backoff.Writes syn item := by
  have hreads (item : Meta τ) (k : BackoffField) (e : Expr τ) :
      backoffReader.Reads item ⟨k, e⟩ ↔ BackoffAttr.writes k e item := by
    rw [backoffReader, reads_fieldReader_iff (by decide)]
    cases k <;> simp [BackoffAttr.writes, Meta.ident_expr_iff]
  rw [← true_and (BackoffAttr.Writes ..)]
  refine group_eq_ok_iff (by decide) (fun k => by cases k <;> decide) hreads (fun fields _ _ h => ?_) ?_
  · split at h
    · next hbase hexponent hjitter =>
      cases h
      refine ⟨trivial, funext fun k => ?_⟩
      cases k
      · exact hbase
      · exact hexponent
      · exact hjitter
    · cases h
  · intro _
    rfl

/-- One field is enough. -/
theorem parseRetention_eq_ok_iff {item : Meta τ} {retention : RetentionAttr τ} :
    item.ident = .ok "retention" ∧ parseRetention syn item = .ok retention ↔ retention.Writes syn item := by
  have hreads (item : Meta τ) (k : RetentionField) (e : Expr τ) :
      retentionReader.Reads item ⟨k, e⟩ ↔ RetentionAttr.writes k e item := by
    rw [retentionReader, reads_fieldReader_iff (by decide)]
    cases k <;> simp [RetentionAttr.writes, Meta.ident_expr_iff]
  refine group_eq_ok_iff (by decide) (fun k => by cases k <;> decide) hreads (fun fields _ _ h => ?_) ?_
  · split at h
    · cases h
    · next hsome =>
      cases h
      constructor
      · rw [not_and_or, Option.isNone_iff_eq_none, Option.isNone_iff_eq_none] at hsome
        exact hsome.imp Option.isSome_iff_ne_none.mpr Option.isSome_iff_ne_none.mpr
      · funext k
        cases k <;> rfl
  · intro hsome
    rw [if_neg]
    · rfl
    · intro hnone
      obtain ⟨hcompleted, hdead⟩ := hnone
      rcases hsome with h | h
      · exact absurd hcompleted (by simpa [RetentionAttr.slots] using Option.isSome_iff_ne_none.mp h)
      · exact absurd hdead (by simpa [RetentionAttr.slots] using Option.isSome_iff_ne_none.mp h)

/-! ### Reading a budget -/

/-- A duration has to be there, and a burst may be. -/
theorem parseTimeBased_eq_ok_iff {item : Meta τ} {strategy : BudgetStrategyAttr τ} :
    item.ident = .ok "time_based" ∧ parseTimeBased syn item = .ok strategy ↔
      strategy ≠ .whileInFlight ∧ strategy.Writes syn item := by
  have hreads (item : Meta τ) (k : TimeBasedField) (e : Expr τ) :
      timeBasedReader.Reads item ⟨k, e⟩ ↔ BudgetStrategyAttr.writes k e item := by
    rw [timeBasedReader, reads_fieldReader_iff (by decide)]
    cases k <;> simp [BudgetStrategyAttr.writes, Meta.ident_expr_iff]
  have hmem (k : TimeBasedField) : k ∈ [TimeBasedField.durationMs, .burst] := by cases k <;> decide
  cases strategy with
  | whileInFlight =>
    constructor
    · intro h
      obtain ⟨_, -, hfields⟩ := bind_eq_ok_iff.mp h.2
      obtain ⟨fields, -, hfields⟩ := bind_eq_ok_iff.mp hfields
      split at hfields <;> cases hfields
    · intro h
      exact absurd rfl h.1
  | timeBased durationMs burst =>
    refine group_eq_ok_iff (by decide) hmem hreads (fun fields _ _ h => ?_) ?_
    · split at h
      · next hduration =>
        cases h
        refine ⟨by simp, funext fun k => ?_⟩
        cases k
        · exact hduration
        · rfl
      · cases h
    · intro _
      rfl

theorem parseWhileInFlight_eq_ok_iff {item : Meta τ} {strategy : BudgetStrategyAttr τ} :
    item.ident = .ok "while_in_flight" ∧ parseWhileInFlight item = .ok strategy ↔
      strategy = .whileInFlight ∧ item = .bare "while_in_flight" := by
  cases item <;> simp [Meta.ident, parseWhileInFlight, Meta.flag, Except.map, eq_comm, and_comm]

theorem Meta.name_eq {item : Meta τ} {ident : String} (h : item.ident = .ok ident) : item.name = ident := by
  cases item with
  | other i => cases i <;> simp_all [Meta.ident, Meta.name]
  | _ => simpa [Meta.ident, Meta.name] using h

/-- The two strategies have identifiers of their own. -/
theorem ident_strategy_iff {item : Meta τ} {strategy : BudgetStrategyAttr τ} :
    (∃ ident, (ident = "while_in_flight" ∨ ident = "time_based") ∧ item.ident = .ok ident ∧
      (if item.name = "while_in_flight" then parseWhileInFlight item else parseTimeBased syn item) = .ok strategy) ↔
      strategy.Writes syn item := by
  constructor
  · intro h
    obtain ⟨ident, hident, hitem, hparse⟩ := h
    rw [Meta.name_eq hitem] at hparse
    rcases hident with rfl | rfl
    · rw [if_pos rfl] at hparse
      obtain ⟨rfl, rfl⟩ := parseWhileInFlight_eq_ok_iff.mp ⟨hitem, hparse⟩
      rfl
    · rw [if_neg (by decide)] at hparse
      exact (parseTimeBased_eq_ok_iff.mp ⟨hitem, hparse⟩).2
  · intro h
    cases strategy with
    | whileInFlight =>
      obtain ⟨hitem, hparse⟩ := parseWhileInFlight_eq_ok_iff.mpr ⟨rfl, h⟩
      refine ⟨_, .inl rfl, hitem, ?_⟩
      rwa [Meta.name_eq hitem, if_pos rfl]
    | timeBased durationMs burst =>
      have hne : BudgetStrategyAttr.timeBased durationMs burst ≠ .whileInFlight := by simp
      obtain ⟨hitem, hparse⟩ := parseTimeBased_eq_ok_iff.mpr ⟨hne, h⟩
      refine ⟨_, .inr rfl, hitem, ?_⟩
      rwa [Meta.name_eq hitem, if_neg (by decide)]

theorem parseBudgetPolicy_eq_ok_iff {item : Meta τ} {policy : BudgetPolicyAttr τ} :
    item.ident = .ok "create_with" ∧ parseBudgetPolicy syn item = .ok policy ↔ policy.Writes syn item := by
  have hreads (item : Meta τ) (k : PolicyField) (v : PolicyField.Value τ k) :
      (policyReader syn).Reads item ⟨k, v⟩ ↔ BudgetPolicyAttr.writes syn k v item := by
    rw [policyReader, reads_fieldReader_iff (by decide)]
    cases k with
    | allocation => simp [BudgetPolicyAttr.writes, Meta.ident_expr_iff]
    | strategy =>
      rw [BudgetPolicyAttr.writes, ← ident_strategy_iff]
      simp
  rw [← true_and (BudgetPolicyAttr.Writes ..)]
  refine group_eq_ok_iff (by decide) (fun k => by cases k <;> decide) hreads (fun fields _ _ h => ?_) ?_
  · split at h
    · cases h
    · cases h
    · next hallocation hstrategy =>
      cases h
      refine ⟨trivial, funext fun k => ?_⟩
      cases k
      · exact hallocation
      · exact hstrategy
  · intro _
    rfl

theorem parseBudget_eq_ok_iff {item : Meta τ} {budget : BudgetAttr τ} :
    item.ident = .ok "budget" ∧ parseBudget syn item = .ok budget ↔ budget.Writes syn item := by
  have hreads (item : Meta τ) (k : BudgetField) (v : BudgetField.Value τ k) :
      (budgetReader syn).Reads item ⟨k, v⟩ ↔ BudgetAttr.writes syn k v item := by
    rw [budgetReader, reads_fieldReader_iff (by decide)]
    cases k with
    | key => simp [BudgetAttr.writes, Meta.ident_litStr_iff]
    | cost => simp [BudgetAttr.writes, Meta.ident_expr_iff]
    | createWith => simp [BudgetAttr.writes, parseBudgetPolicy_eq_ok_iff]
  rw [← true_and (BudgetAttr.Writes ..)]
  refine group_eq_ok_iff (by decide) (fun k => by cases k <;> decide) hreads (fun fields _ _ h => ?_) ?_
  · split at h
    · next hkey =>
      cases h
      refine ⟨trivial, funext fun k => ?_⟩
      cases k
      · exact hkey
      · rfl
      · rfl
    · cases h
  · intro _
    rfl

/-! ### Reading keys -/

theorem ident_scope_iff {item : Meta τ} {ident : String} {scope : UniqueScopeAttr} :
    item.ident = .ok ident ∧ parseScope item = .ok scope ↔ item = .value ident (.str scope.name) := by
  rw [← Meta.ident_litStr_iff, parseScope, bind_eq_ok_iff]
  refine and_congr_right fun _ => ?_
  constructor
  · intro h
    obtain ⟨s, hs, hscope⟩ := h
    split at hscope <;> cases hscope <;> exact hs
  · intro h
    refine ⟨_, h, ?_⟩
    cases scope <;> rfl

/-- There is a selection unless both lists are given. -/
theorem selectionOf_eq_ok_iff {conflict : String} {only except : Option (List String)}
    {selection : Option UniqueSelection} :
    selectionOf conflict only except = .ok selection ↔
      only = UniqueSelection.onlyPaths selection ∧ except = UniqueSelection.exceptPaths selection := by
  cases only <;> cases except <;> rcases selection with _ | selection <;>
    simp [selectionOf, UniqueSelection.onlyPaths, UniqueSelection.exceptPaths]
  all_goals cases selection <;> simp [eq_comm]

theorem parseUnique_eq_ok_iff {item : Meta τ} {unique : UniqueAttr} :
    item.ident = .ok "unique" ∧ parseUnique syn item = .ok unique ↔
      item.Lists syn "unique" (WrittenBy [.only, .except, .scope, .withPrefix] UniqueAttr.writes unique.slots) := by
  have hreads (item : Meta τ) (k : UniqueField) (v : k.Value) :
      uniqueReader.Reads item ⟨k, v⟩ ↔ UniqueAttr.writes k v item := by
    rw [uniqueReader, reads_fieldReader_iff (by decide)]
    cases k with
    | only => simp [UniqueAttr.writes, Meta.ident_paths_iff]
    | except => simp [UniqueAttr.writes, Meta.ident_paths_iff]
    | scope => simp [UniqueAttr.writes, ident_scope_iff]
    | withPrefix => simp [UniqueAttr.writes, Meta.ident_litBool_iff]
  rw [← true_and (Meta.Lists ..)]
  refine group_eq_ok_iff (by decide) (fun k => by cases k <;> decide) hreads (fun fields _ _ h => ?_) fun _ => ?_
  · obtain ⟨selection, hselection, heq⟩ := bind_eq_ok_iff.mp h
    obtain ⟨honly, hexcept⟩ := selectionOf_eq_ok_iff.mp hselection
    cases heq
    refine ⟨trivial, funext fun k => ?_⟩
    cases k
    · exact honly
    · exact hexcept
    · rfl
    · rfl
  · exact bind_eq_ok_iff.mpr ⟨unique.selection, selectionOf_eq_ok_iff.mpr ⟨rfl, rfl⟩, rfl⟩

/-! ### Reading a batch -/

theorem parseBatchKey_eq_ok_iff {item : Meta τ} {key : BatchKeyConfig} :
    item.ident = .ok "key" ∧ parseBatchKey syn item = .ok key ↔ key.Writes syn item := by
  have hreads (item : Meta τ) (k : BatchKeyField) (v : k.Value) :
      batchKeyReader.Reads item ⟨k, v⟩ ↔ BatchKeyConfig.writes k v item := by
    rw [batchKeyReader, reads_fieldReader_iff (by decide)]
    cases k with
    | only => simp [BatchKeyConfig.writes, Meta.ident_paths_iff]
    | except => simp [BatchKeyConfig.writes, Meta.ident_paths_iff]
    | withPrefix => simp [BatchKeyConfig.writes, Meta.ident_litBool_iff]
  rw [← true_and (BatchKeyConfig.Writes ..)]
  refine group_eq_ok_iff (by decide) (fun k => by cases k <;> decide) hreads (fun fields _ _ h => ?_) fun _ => ?_
  · obtain ⟨selection, hselection, heq⟩ := bind_eq_ok_iff.mp h
    obtain ⟨honly, hexcept⟩ := selectionOf_eq_ok_iff.mp hselection
    cases heq
    refine ⟨trivial, funext fun k => ?_⟩
    cases k
    · exact honly
    · exact hexcept
    · rfl
  · exact bind_eq_ok_iff.mpr ⟨key.selection, selectionOf_eq_ok_iff.mpr ⟨rfl, rfl⟩, rfl⟩

/-- The flags are written bare. -/
theorem ident_fold_iff {item : Meta τ} {fold : BatchFoldMode} :
    (∃ ident, (ident = "dedup" ∨ ident = "sorted") ∧ item.ident = .ok ident ∧
      (item.flag.map fun _ => if item.name = "dedup" then BatchFoldMode.dedup else .sorted) = .ok fold) ↔
      fold = .dedup ∧ item = .bare "dedup" ∨ fold = .sorted ∧ item = .bare "sorted" := by
  simp only [map_eq_ok_iff]
  constructor
  · intro h
    obtain ⟨ident, hident, hitem, ⟨⟩, hflag, rfl⟩ := h
    rw [Meta.name_eq hitem, Meta.ident_flag_iff.mp ⟨hitem, hflag⟩]
    rcases hident with rfl | rfl
    · exact .inl ⟨rfl, rfl⟩
    · exact .inr ⟨rfl, rfl⟩
  · intro h
    rcases h with ⟨rfl, rfl⟩ | ⟨rfl, rfl⟩
    · exact ⟨_, .inl rfl, rfl, (), rfl, rfl⟩
    · exact ⟨_, .inr rfl, rfl, (), rfl, rfl⟩

theorem parseBatch_eq_ok_iff {item : Meta τ} {batch : BatchAttr τ} :
    item.ident = .ok "batch" ∧ parseBatch syn item = .ok batch ↔ batch.Writes syn item := by
  have hreads (item : Meta τ) (k : BatchField) (v : BatchField.Value τ k) :
      (batchReader syn).Reads item ⟨k, v⟩ ↔ BatchAttr.writes syn k v item := by
    rw [batchReader, reads_fieldReader_iff (by decide)]
    cases k with
    | path => simp [BatchAttr.writes, Meta.ident_litStr_iff]
    | limit => simp [BatchAttr.writes, Meta.ident_expr_iff]
    | fold =>
      rw [BatchAttr.writes, ← ident_fold_iff]
      simp
    | key => simp [BatchAttr.writes, parseBatchKey_eq_ok_iff]
  rw [← true_and (BatchAttr.Writes ..)]
  refine group_eq_ok_iff (by decide) (fun k => by cases k <;> decide) hreads
    (fun fields _ hwritten h => ?_) fun _ => ?_
  · obtain ⟨item, hitem, -⟩ := hwritten
    have hfold := hitem .fold
    split at h
    · next hpath hlimit =>
      cases h
      refine ⟨trivial, funext fun k => ?_⟩
      cases k with
      | path => exact hpath
      | limit => exact hlimit
      | fold =>
        cases hflag : fields .fold with
        | none => rfl
        | some fold =>
          rw [hflag] at hfold
          generalize item .fold = written at hfold
          cases hfold with
          | some hwrites =>
            rcases hwrites with ⟨rfl, -⟩ | ⟨rfl, -⟩
            · rfl
            · rfl
      | key => rfl
    · cases h
  · obtain ⟨path, limit, fold, key⟩ := batch
    cases fold <;> rfl

/-! ### Reading all attributes -/

/-- `unique` alone is read as the group without items. -/
theorem parseUniqueItem_eq_ok_iff {item : Meta τ} {unique : UniqueAttr} :
    item.ident = .ok "unique" ∧ parseUniqueItem syn item = .ok unique ↔ unique.Writes syn item := by
  rw [UniqueAttr.Writes, ← parseUnique_eq_ok_iff]
  cases item with
  | list ident items => simp [parseUniqueItem]
  | bare ident =>
    simp [parseUniqueItem, Meta.ident, Meta.flag, Except.map, parseUnique, Meta.nested, bind, Except.bind, eq_comm]
  | _ => simp [parseUniqueItem, Meta.flag, Except.map, parseUnique, Meta.nested, bind, Except.bind]

theorem reads_attrReader_iff {item : Meta τ} {k : AttrField} {v : AttrField.Value τ k} :
    (attrReader syn).Reads item ⟨k, v⟩ ↔ ZizqAttrs.writes syn k v item := by
  rw [attrReader, reads_fieldReader_iff (by decide)]
  cases k with
  | name => simp [ZizqAttrs.writes, Meta.ident_litStr_iff]
  | queue => simp [ZizqAttrs.writes, Meta.ident_litStr_iff]
  | priority => simp [ZizqAttrs.writes, Meta.ident_expr_iff]
  | retryLimit => simp [ZizqAttrs.writes, Meta.ident_expr_iff]
  | backoff => simp [ZizqAttrs.writes, parseBackoff_eq_ok_iff]
  | retention => simp [ZizqAttrs.writes, parseRetention_eq_ok_iff]
  | unique => simp [ZizqAttrs.writes, parseUniqueItem_eq_ok_iff]
  | batch => simp [ZizqAttrs.writes, parseBatch_eq_ok_iff]

theorem Meta.ident_of_isBudget {item : Meta τ} (h : item.isBudget = true) : item.ident = .ok "budget" := by
  rw [Meta.isBudget, decide_eq_true_eq] at h
  cases item with
  | other i => cases i <;> simp_all [Meta.ident, Meta.name]
  | _ => simpa [Meta.ident, Meta.name] using h

/-- A budget is read under its key. -/
theorem reads_budgetsReader_iff {item : Meta τ} (hitem : item.isBudget = true) {key : String}
    {budget : BudgetAttr τ} :
    (budgetsReader syn).Reads item ⟨key, budget⟩ ↔ budget.key = key ∧ budget.Writes syn item := by
  rw [← parseBudget_eq_ok_iff]
  simp only [Reader.Reads, budgetsReader, map_eq_ok_iff, Meta.ident_of_isBudget hitem, true_and]
  constructor
  · intro h
    obtain ⟨⟨budget', hparse', hkey⟩, hparse⟩ := h
    obtain rfl := Except.ok.inj (hparse'.symm.trans hparse)
    exact ⟨hkey, hparse⟩
  · intro h
    exact ⟨⟨budget, h.2, h.1⟩, h.2⟩

theorem values_entries (budgets : List (BudgetAttr τ)) :
    (budgets.map fun budget => (⟨budget.key, budget⟩ : Sigma fun _ : String => BudgetAttr τ)).map (·.2) =
      budgets := by
  rw [List.map_map]
  exact List.map_id budgets

/-- The budgets are read in their order, each under its key. -/
theorem collect_budgets_eq_ok_iff {items : List (Meta τ)} (hitems : ∀ item ∈ items, item.isBudget = true)
    {entries : List (Sigma fun _ : String => BudgetAttr τ)} :
    (budgetsReader syn).collect items = .ok entries ↔
      ∃ budgets : List (BudgetAttr τ), entries = budgets.map (fun budget => ⟨budget.key, budget⟩) ∧
        List.Forall₂ (BudgetAttr.Writes syn) budgets items ∧ (budgets.map (·.key)).Nodup := by
  have hreads : List.Forall₂ (budgetsReader syn).Reads items entries ↔
      ∃ budgets : List (BudgetAttr τ), entries = budgets.map (fun budget => ⟨budget.key, budget⟩) ∧
        List.Forall₂ (BudgetAttr.Writes syn) budgets items := by
    induction items generalizing entries with
    | nil =>
      constructor
      · intro h
        cases h
        exact ⟨[], rfl, .nil⟩
      · intro h
        obtain ⟨_, rfl, hwrites⟩ := h
        cases hwrites
        exact .nil
    | cons item items ih =>
      obtain ⟨hitem, hitems⟩ := List.forall_mem_cons.mp hitems
      constructor
      · intro h
        cases h with
        | cons hreads hrest =>
          rename_i entry _
          obtain ⟨key, budget⟩ := entry
          obtain ⟨rfl, hwrites⟩ := (reads_budgetsReader_iff hitem).mp hreads
          obtain ⟨budgets, rfl, hbudgets⟩ := (ih hitems).mp hrest
          exact ⟨budget :: budgets, rfl, .cons hwrites hbudgets⟩
      · intro h
        obtain ⟨_, rfl, hwrites⟩ := h
        cases hwrites with
        | cons hwrite hrest =>
          exact .cons ((reads_budgetsReader_iff hitem).mpr ⟨rfl, hwrite⟩) ((ih hitems).mpr ⟨_, rfl, hrest⟩)
  rw [Reader.collect_eq_ok_iff, hreads]
  constructor
  · intro h
    obtain ⟨⟨budgets, rfl, hwrites⟩, hnodup⟩ := h
    refine ⟨budgets, rfl, hwrites, ?_⟩
    rwa [List.NodupKeys, List.keys, List.map_map] at hnodup
  · intro h
    obtain ⟨budgets, rfl, hwrites, hnodup⟩ := h
    refine ⟨⟨budgets, rfl, hwrites⟩, ?_⟩
    rwa [List.NodupKeys, List.keys, List.map_map]

namespace ZizqAttrs

/-- The attributes are worked through as one list of items. -/
theorem foldlM_putAttribute_eq_ok_iff {attrs : List (Attribute τ)} {state state' : State τ} :
    attrs.foldlM (putAttribute syn) state = .ok state' ↔
      (∀ attr ∈ attrs, attr.path = "zizq" → attr.args.isSome) ∧
        (itemsOf attrs).foldlM (putItem syn) state = .ok state' := by
  induction attrs generalizing state with
  | nil => simp [itemsOf]
  | cons attr attrs ih =>
    rw [List.foldlM_cons, bind_eq_ok_iff, itemsOf, List.flatMap_cons, List.foldlM_append, bind_eq_ok_iff,
      List.forall_mem_cons]
    simp only [ih, putAttribute]
    by_cases hpath : attr.path = "zizq"
    · cases hargs : attr.args with
      | none => simp [hpath]
      | some items =>
        simp only [hpath, if_true, Option.isSome_some, true_and, Option.getD_some, forall_const]
        constructor
        · intro h
          obtain ⟨mid, hmid, hall, hrest⟩ := h
          exact ⟨hall, mid, hmid, hrest⟩
        · intro h
          obtain ⟨hall, mid, hmid, hrest⟩ := h
          exact ⟨mid, hmid, hall, hrest⟩
    · simp only [hpath, if_false, false_imp_iff, true_and]
      constructor
      · intro h
        obtain ⟨mid, hmid, hall, hrest⟩ := h
        exact ⟨hall, mid, hmid, hrest⟩
      · intro h
        obtain ⟨hall, mid, hmid, hrest⟩ := h
        exact ⟨mid, hmid, hall, hrest⟩

theorem slots_ofState (state : State τ) : (ofState state).slots = fun k => state.2.dlookup k := by
  funext k
  cases k <;> rfl

theorem ofState_eq {state : State τ} {attrs : ZizqAttrs τ} (hslots : (fun k => state.2.dlookup k) = attrs.slots)
    (hbudgets : state.1.map (·.2) = attrs.budgets) : ofState state = attrs := by
  obtain ⟨name, queue, priority, retryLimit, backoff, retention, unique, batch, budgets⟩ := attrs
  have hslot (k : AttrField) := congrFun hslots k
  simp only [ofState, hslot, hbudgets]
  rfl

/-- What the parser makes of the items of all attributes. -/
theorem parse_eq_ok_iff {attrs : List (Attribute τ)} {a : ZizqAttrs τ} :
    parse syn attrs = .ok a ↔
      (∀ attr ∈ attrs, attr.path = "zizq" → attr.args.isSome) ∧ a.Writes syn (itemsOf attrs) := by
  have hmem (k : AttrField) : k ∈ [AttrField.name, .queue, .priority, .retryLimit, .backoff, .retention, .unique,
      .batch] := by cases k <;> decide
  have hslots {items : List (Meta τ)} {slots : (k : AttrField) → Option (AttrField.Value τ k)} :
      (attrReader syn).slots items = .ok slots ↔ WrittenBy _ (writes syn) slots items :=
    Reader.slots_eq_ok_iff (by decide) hmem fun item k v => reads_attrReader_iff
  rw [parse, map_eq_ok_iff]
  simp only [foldlM_putAttribute_eq_ok_iff]
  constructor
  · intro h
    obtain ⟨⟨budgets, entries⟩, ⟨hargs, hfold⟩, rfl⟩ := h
    obtain ⟨hbudgets, hothers⟩ := foldlM_beside_eq_ok_iff.mp hfold
    obtain ⟨budgets, rfl, hwrites, hnodup⟩ :=
      (collect_budgets_eq_ok_iff fun item hitem => (List.mem_filter.mp hitem).2).mp hbudgets
    have hread : (attrReader syn).slots _ = .ok _ := map_eq_ok_iff.mpr ⟨entries, hothers, rfl⟩
    have hvalues := values_entries budgets
    refine ⟨hargs, ?_, ?_, ?_⟩
    · rwa [ofState, hvalues]
    · rwa [ofState, hvalues]
    · rw [slots_ofState]
      exact hslots.mp hread
  · intro h
    obtain ⟨hargs, hwrites, hnodup, hothers⟩ := h
    obtain ⟨entries, hcollect, hentries⟩ := map_eq_ok_iff.mp (hslots.mpr hothers)
    have hbudgets : (budgetsReader syn).collect _ = .ok _ :=
      (collect_budgets_eq_ok_iff fun item hitem => (List.mem_filter.mp hitem).2).mpr
        ⟨a.budgets, rfl, hwrites, hnodup⟩
    refine ⟨(_, entries), ⟨hargs, foldlM_beside_eq_ok_iff.mpr ⟨hbudgets, hcollect⟩⟩, ofState_eq hentries ?_⟩
    exact values_entries a.budgets

end ZizqAttrs

end Zizq.Derive
