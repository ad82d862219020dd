import Zizq.Batch.Template
import Zizq.Derive.Accepted
import Zizq.Derive.JqPath
import Zizq.Key.Batch

/-! What the derive emits.

The derive reads the attributes, parses every path that they mention, and emits an
implementation of `JobKind` that holds the parsed paths. So it succeeds exactly on
attributes that can be written and whose paths all parse, and what it emits then holds
what the attributes say (`derive_eq_ok_iff`). -/
namespace Zizq.Derive
open Data Fields Json
variable {τ : Type}

/-- The annotated struct, so far as the derive looks at it. -/
structure DeriveInput (τ : Type) where
  ident : String
  attrs : List (Attribute τ)

/-- An error of the attributes, or what ended the parser of a path. -/
inductive DeriveError where
  | attr (e : AttrError)
  | path (text : String)
  | panicked
  | exhausted
deriving DecidableEq

/-! ### What is emitted -/

/-- `fn unique_key(&self)` -/
structure UniqueKeyFn where
  selection : Option Key.UniqueSelection
  prefixOn : Bool
  scope : Option UniqueScopeAttr

/-- `fn batch(&self)`: the path goes into the jq programs as it was written, and into the key as parsed. -/
structure BatchFn (τ : Type) where
  path : String
  limit : Expr τ
  fold : BatchFoldMode
  key : Key.BatchAttr

/-- The implementation of `JobKind`. A constant that is not there has the default of the trait. -/
structure JobKindImpl (τ : Type) where
  name : String
  queue : Option String
  priority : Option (Expr τ)
  retryLimit : Option (Expr τ)
  backoff : Option (BackoffAttr τ)
  retention : Option (RetentionAttr τ)
  budgets : List (BudgetAttr τ)
  uniqueKey : Option UniqueKeyFn
  batch : Option (BatchFn τ)

section Emit
variable (platform : Platform)

/-- `PathParseError::fmt` -/
def PathParseError.display (e : PathParseError) : String := s!"{e.message} (at position {e.position})"

def parsePath (text : String) : Except DeriveError Path :=
  match parse platform text with
  | .ok path => .ok path
  | .error (.error e) => .error (.path s!"invalid jq path {platform.debug text}: {e.display}")
  | .error .panicked => .error .panicked
  | .error .exhausted => .error .exhausted

def emitSelection : UniqueSelection → Except DeriveError Key.UniqueSelection
  | .only paths => (paths.mapM (parsePath platform)).map .only
  | .except paths => (paths.mapM (parsePath platform)).map .except

def emitUniqueKey (unique : UniqueAttr) : Except DeriveError UniqueKeyFn := do
  let selection ← unique.selection.mapM (emitSelection platform)
  return ⟨selection, unique.withPrefix.getD true, unique.scope⟩

def emitBatchKey (key : BatchKeyConfig) : Except DeriveError Key.BatchKeyConfig := do
  let selection ← key.selection.mapM (emitSelection platform)
  return ⟨selection, key.withPrefix⟩

/-- The batch path is parsed before the paths of its key. -/
def emitBatch (batch : BatchAttr τ) : Except DeriveError (BatchFn τ) := do
  let path ← parsePath platform batch.path
  let key ← batch.key.mapM (emitBatchKey platform)
  return ⟨batch.path, batch.limit, batch.fold, path, key⟩

def deriveJobKindImpl (syn : Syn) (input : DeriveInput τ) : Except DeriveError (JobKindImpl τ) := do
  let attrs ← (ZizqAttrs.parse syn input.attrs).mapError .attr
  let uniqueKey ← attrs.unique.mapM (emitUniqueKey platform)
  let batch ← attrs.batch.mapM (emitBatch platform)
  return {
    name := attrs.name.getD input.ident, queue := attrs.queue, priority := attrs.priority,
    retryLimit := attrs.retryLimit, backoff := attrs.backoff, retention := attrs.retention,
    budgets := attrs.budgets, uniqueKey, batch }

end Emit

/-! ### What the emitted methods compute -/

section Methods
variable {ν : Type} (tokens : Key.Tokens ν) (digest : Key.Digest) (name : String)

def UniqueScopeAttr.variant : UniqueScopeAttr → Key.UniqueScope
  | .queued => .queued
  | .active => .active
  | .exists => .exists

namespace UniqueKeyFn

/-- The value that is hashed. -/
def hashable (fn : UniqueKeyFn) (payload : Value ν) : Value ν :=
  match fn.selection with
  | none => payload
  | some (.only paths) => payloadOnly payload paths
  | some (.except paths) => payloadExcept payload paths

def uniqueKey (fn : UniqueKeyFn) (payload : Value ν) : Key.UniqueKey :=
  let key : Key.UniqueKey :=
    if fn.prefixOn then .taggedHashOf tokens digest name (fn.hashable payload)
    else .hashOf tokens digest (fn.hashable payload)
  match fn.scope with
  | some scope => { key with scope := some scope.variant }
  | none => key

end UniqueKeyFn

/-- The calls on the builder that a fold mode is written as. -/
def BatchFoldMode.calls : BatchFoldMode → List Batch.Call
  | .append => []
  | .dedup => [.dedup]
  | .sorted => [.sorted]

/-- `limit` is the value of the limit expression, as a `usize`. -/
def BatchFn.batch (limit : Nat) (fn : BatchFn τ) (payload : Value ν) : Batch.BatchConfig :=
  (fn.fold.calls.foldl Batch.apply (Batch.BatchConfig.at fn.path limit)).keyedBy
    (fn.key.batchKey tokens digest name payload)

end Methods

/-! ### What the attributes ask for -/

/-- The texts are parsed to the paths, one by one. -/
def Paths (platform : Platform) : List String → List Path → Prop :=
  List.Forall₂ fun text path => parse platform text = .ok path

inductive Selects (platform : Platform) : UniqueSelection → Key.UniqueSelection → Prop
  | only {texts : List String} {paths : List Path} (h : Paths platform texts paths) :
      Selects platform (.only texts) (.only paths)
  | except {texts : List String} {paths : List Path} (h : Paths platform texts paths) :
      Selects platform (.except texts) (.except paths)

structure UniqueKeyFn.Implements (platform : Platform) (unique : UniqueAttr) (fn : UniqueKeyFn) : Prop where
  selection : Option.Rel (Selects platform) unique.selection fn.selection
  prefixOn : fn.prefixOn = unique.withPrefix.getD true
  scope : fn.scope = unique.scope

structure BatchKeyConfig.Implements (platform : Platform) (key : BatchKeyConfig) (emitted : Key.BatchKeyConfig) :
    Prop where
  selection : Option.Rel (Selects platform) key.selection emitted.selection
  withPrefix : emitted.withPrefix = key.withPrefix

structure BatchFn.Implements (platform : Platform) (batch : BatchAttr τ) (fn : BatchFn τ) : Prop where
  text : fn.path = batch.path
  path : parse platform batch.path = .ok fn.key.path
  limit : fn.limit = batch.limit
  fold : fn.fold = batch.fold
  key : Option.Rel (BatchKeyConfig.Implements platform) batch.key fn.key.key

structure JobKindImpl.Implements (platform : Platform) (ident : String) (attrs : ZizqAttrs τ)
    (emitted : JobKindImpl τ) : Prop where
  name : emitted.name = attrs.name.getD ident
  queue : emitted.queue = attrs.queue
  priority : emitted.priority = attrs.priority
  retryLimit : emitted.retryLimit = attrs.retryLimit
  backoff : emitted.backoff = attrs.backoff
  retention : emitted.retention = attrs.retention
  budgets : emitted.budgets = attrs.budgets
  uniqueKey : Option.Rel (UniqueKeyFn.Implements platform) attrs.unique emitted.uniqueKey
  batch : Option.Rel (BatchFn.Implements platform) attrs.batch emitted.batch

/-! ### Emitting -/

section Emitting
variable {platform : Platform}

theorem parsePath_eq_ok_iff {text : String} {path : Path} :
    parsePath platform text = .ok path ↔ parse platform text = .ok path := by
  rw [parsePath]
  cases parse platform text with
  | ok path => simp
  | error halt => cases halt <;> simp

theorem mapM_parsePath_eq_ok_iff {texts : List String} {paths : List Path} :
    texts.mapM (parsePath platform) = .ok paths ↔ Paths platform texts paths := by
  rw [mapM_eq_ok_iff, Paths]
  simp only [parsePath_eq_ok_iff]

theorem emitSelection_eq_ok_iff {selection : UniqueSelection} {emitted : Key.UniqueSelection} :
    emitSelection platform selection = .ok emitted ↔ Selects platform selection emitted := by
  cases selection with
  | only texts =>
    simp only [emitSelection, map_eq_ok_iff, mapM_parsePath_eq_ok_iff]
    constructor
    · intro h
      obtain ⟨paths, hpaths, rfl⟩ := h
      exact .only hpaths
    · intro h
      cases h with
      | only hpaths => exact ⟨_, hpaths, rfl⟩
  | except texts =>
    simp only [emitSelection, map_eq_ok_iff, mapM_parsePath_eq_ok_iff]
    constructor
    · intro h
      obtain ⟨paths, hpaths, rfl⟩ := h
      exact .except hpaths
    · intro h
      cases h with
      | except hpaths => exact ⟨_, hpaths, rfl⟩

theorem emitSelection?_eq_ok_iff {selection : Option UniqueSelection} {emitted : Option Key.UniqueSelection} :
    selection.mapM (emitSelection platform) = .ok emitted ↔ Option.Rel (Selects platform) selection emitted := by
  rw [option_mapM_eq_ok_iff]
  simp only [emitSelection_eq_ok_iff]

theorem emitUniqueKey_eq_ok_iff {unique : UniqueAttr} {fn : UniqueKeyFn} :
    emitUniqueKey platform unique = .ok fn ↔ fn.Implements platform unique := by
  rw [emitUniqueKey, bind_eq_ok_iff]
  simp only [emitSelection?_eq_ok_iff]
  constructor
  · intro h
    obtain ⟨selection, hselection, hfn⟩ := h
    obtain rfl := Except.ok.inj hfn
    exact ⟨hselection, rfl, rfl⟩
  · intro h
    obtain ⟨selection, prefixOn, scope⟩ := fn
    obtain ⟨hselection, rfl, rfl⟩ := h
    exact ⟨selection, hselection, rfl⟩

theorem emitBatchKey_eq_ok_iff {key : BatchKeyConfig} {emitted : Key.BatchKeyConfig} :
    emitBatchKey platform key = .ok emitted ↔ key.Implements platform emitted := by
  rw [emitBatchKey, bind_eq_ok_iff]
  simp only [emitSelection?_eq_ok_iff]
  constructor
  · intro h
    obtain ⟨selection, hselection, hemitted⟩ := h
    obtain rfl := Except.ok.inj hemitted
    exact ⟨hselection, rfl⟩
  · intro h
    obtain ⟨selection, withPrefix⟩ := emitted
    obtain ⟨hselection, rfl⟩ := h
    exact ⟨selection, hselection, rfl⟩

theorem emitBatch_eq_ok_iff {batch : BatchAttr τ} {fn : BatchFn τ} :
    emitBatch platform batch = .ok fn ↔ fn.Implements platform batch := by
  rw [emitBatch, bind_eq_ok_iff]
  simp only [parsePath_eq_ok_iff, bind_eq_ok_iff, option_mapM_eq_ok_iff, emitBatchKey_eq_ok_iff]
  constructor
  · intro h
    obtain ⟨path, hpath, key, hkey, hfn⟩ := h
    obtain rfl := Except.ok.inj hfn
    exact ⟨rfl, hpath, rfl, rfl, hkey⟩
  · intro h
    obtain ⟨text, limit, fold, path, key⟩ := fn
    obtain ⟨rfl, hpath, rfl, rfl, hkey⟩ := h
    exact ⟨path, hpath, key, hkey, rfl⟩

theorem implements_iff {attrs : ZizqAttrs τ} {ident : String} {emitted : JobKindImpl τ} :
    (∃ uniqueKey, attrs.unique.mapM (emitUniqueKey platform) = .ok uniqueKey ∧
      ∃ batch, attrs.batch.mapM (emitBatch platform) = .ok batch ∧
        emitted = {
          name := attrs.name.getD ident, queue := attrs.queue, priority := attrs.priority,
          retryLimit := attrs.retryLimit, backoff := attrs.backoff, retention := attrs.retention,
          budgets := attrs.budgets, uniqueKey, batch }) ↔
      emitted.Implements platform ident attrs := by
  simp only [option_mapM_eq_ok_iff, emitUniqueKey_eq_ok_iff, emitBatch_eq_ok_iff]
  constructor
  · intro h
    obtain ⟨uniqueKey, hunique, batch, hbatch, rfl⟩ := h
    exact ⟨rfl, rfl, rfl, rfl, rfl, rfl, rfl, hunique, hbatch⟩
  · intro h
    obtain ⟨name, queue, priority, retryLimit, backoff, retention, budgets, uniqueKey, batch⟩ := emitted
    obtain ⟨rfl, rfl, rfl, rfl, rfl, rfl, rfl, hunique, hbatch⟩ := h
    exact ⟨uniqueKey, hunique, batch, hbatch, rfl⟩

theorem derive_eq_ok_iff_parse {syn : Syn} {input : DeriveInput τ} {emitted : JobKindImpl τ} :
    deriveJobKindImpl platform syn input = .ok emitted ↔
      ∃ attrs, ZizqAttrs.parse syn input.attrs = .ok attrs ∧ emitted.Implements platform input.ident attrs := by
  rw [deriveJobKindImpl, bind_eq_ok_iff]
  have hparse (attrs : ZizqAttrs τ) : (ZizqAttrs.parse syn input.attrs).mapError DeriveError.attr = .ok attrs ↔
      ZizqAttrs.parse syn input.attrs = .ok attrs := by
    cases ZizqAttrs.parse syn input.attrs <;> simp [Except.mapError]
  have hreturn (a : JobKindImpl τ) : (pure a : Except DeriveError (JobKindImpl τ)) = .ok emitted ↔ emitted = a :=
    ⟨fun h => (Except.ok.inj h).symm, fun h => h ▸ rfl⟩
  simp only [hparse, bind_eq_ok_iff, hreturn, ← implements_iff]

end Emitting

/-- **Main theorem.** The derive succeeds exactly on attributes that can be written and whose paths all parse, and
what it emits is what they ask for. -/
theorem derive_eq_ok_iff {syn : Syn} {platform : Platform} {input : DeriveInput τ} {emitted : JobKindImpl τ} :
    deriveJobKindImpl platform syn input = .ok emitted ↔
      (∀ attr ∈ input.attrs, attr.path = "zizq" → attr.args.isSome) ∧
        ∃ attrs : ZizqAttrs τ, attrs.Writes syn (itemsOf input.attrs) ∧
          emitted.Implements platform input.ident attrs := by
  simp only [derive_eq_ok_iff_parse, ZizqAttrs.parse_eq_ok_iff, and_assoc, exists_and_left]

end Zizq.Derive
