import Zizq.Data.Fields

/-! The `#[zizq(..)]` attributes of a derived job kind.

What stands in the parentheses of an attribute is read as a list of items, each an
identifier with nothing, an expression, or a further list behind it. Every list is read
in the same way: an item is for a field of its list, a field can be written once, and
some fields have to be. The items of all attributes are read as one list, in which
budgets accumulate and everything else can be written once. -/
namespace Zizq.Derive
open Data
variable {τ : Type}

/-! ### Items -/

/-- An expression. Only literals and arrays are looked into; the rest is left to the compiler. -/
inductive Expr (τ : Type) where
  | str (s : String)
  | bool (b : Bool)
  | array (elems : List (Expr τ))
  | other (tokens : τ)

/-- What stands up to the next comma. `other` is anything that is no item, or has something else behind its
identifier than nothing, `= e`, or a group in parentheses. -/
inductive Meta (τ : Type) where
  | bare (ident : String)
  | value (ident : String) (e : Expr τ)
  | list (ident : String) (items : List (Meta τ))
  | other (ident : Option String)

/-- An attribute, with what is in its parentheses if it has any. -/
structure Attribute (τ : Type) where
  path : String
  args : Option (List (Meta τ))

/-- An error of `syn`, or one of the derive with its text. -/
inductive AttrError where
  | syn
  | message (text : String)
deriving DecidableEq

/-- Whether `parse_nested_meta` takes empty parentheses. -/
structure Syn where
  emptyList : Bool

namespace Meta

/-- `path.require_ident()` -/
def ident : Meta τ → Except AttrError String
  | .bare ident | .value ident _ | .list ident _ | .other (some ident) => .ok ident
  | .other none => .error .syn

def name : Meta τ → String
  | .bare ident | .value ident _ | .list ident _ => ident
  | .other ident => ident.getD ""

/-- Nothing may stand behind the identifier. -/
def flag : Meta τ → Except AttrError Unit
  | .bare _ => .ok ()
  | _ => .error .syn

/-- `value()?.parse::<Expr>()` -/
def expr : Meta τ → Except AttrError (Expr τ)
  | .value _ e => .ok e
  | _ => .error .syn

/-- `value()?.parse::<LitStr>()` -/
def litStr : Meta τ → Except AttrError String
  | .value _ (.str s) => .ok s
  | _ => .error .syn

/-- `value()?.parse::<LitBool>()` -/
def litBool : Meta τ → Except AttrError Bool
  | .value _ (.bool b) => .ok b
  | _ => .error .syn

/-- `value()?.parse::<ExprArray>()` -/
def exprArray : Meta τ → Except AttrError (List (Expr τ))
  | .value _ (.array elems) => .ok elems
  | _ => .error .syn

/-- The items that `parse_nested_meta` goes through. -/
def nested (syn : Syn) : Meta τ → Except AttrError (List (Meta τ))
  | .list _ items => if items = [] ∧ syn.emptyList = false then .error .syn else .ok items
  | _ => .error .syn

end Meta

/-! ### Lists of fields -/

def unknownField (list ident : String) : String := s!"unknown `{list}` field `{ident}`"

def duplicateField (ident : String) : String := s!"duplicate `{ident}` field"

/-- The closure of a `parse_nested_meta`: `names` says which identifier is for which field. -/
def fieldReader {κ : Type} {ν : κ → Type} (names : List (String × κ)) (unknown : String → String)
    (taken : κ → String → String) (value : (k : κ) → Meta τ → Except AttrError (ν k)) :
    Fields.Reader (Meta τ) κ ν AttrError where
  field item :=
    match item.ident with
    | .error e => .error e
    | .ok ident =>
      match names.lookup ident with
      | some k => .ok k
      | none => .error (.message (unknown ident))
  taken k item := .message (taken k item.name)
  value := value

/-! ### `backoff(..)`, `retention(..)` -/

structure BackoffAttr (τ : Type) where
  baseMs : Expr τ
  exponent : Expr τ
  jitterMs : Expr τ

inductive BackoffField where
  | baseMs | exponent | jitterMs
deriving DecidableEq

def backoffReader : Fields.Reader (Meta τ) BackoffField (fun _ => Expr τ) AttrError :=
  fieldReader [("base_ms", .baseMs), ("exponent", .exponent), ("jitter_ms", .jitterMs)]
    (unknownField "backoff") (fun _ => duplicateField) fun _ => Meta.expr

def parseBackoff (syn : Syn) (item : Meta τ) : Except AttrError (BackoffAttr τ) := do
  let fields ← backoffReader.slots (← item.nested syn)
  match fields .baseMs, fields .exponent, fields .jitterMs with
  | some baseMs, some exponent, some jitterMs => .ok ⟨baseMs, exponent, jitterMs⟩
  | _, _, _ => .error (.message "`backoff(...)` requires all of `base_ms`, `exponent`, and `jitter_ms`")

structure RetentionAttr (τ : Type) where
  completedMs : Option (Expr τ)
  deadMs : Option (Expr τ)

inductive RetentionField where
  | completedMs | deadMs
deriving DecidableEq

def retentionReader : Fields.Reader (Meta τ) RetentionField (fun _ => Expr τ) AttrError :=
  fieldReader [("completed_ms", .completedMs), ("dead_ms", .deadMs)]
    (unknownField "retention") (fun _ => duplicateField) fun _ => Meta.expr

def parseRetention (syn : Syn) (item : Meta τ) : Except AttrError (RetentionAttr τ) := do
  let fields ← retentionReader.slots (← item.nested syn)
  if (fields .completedMs).isNone ∧ (fields .deadMs).isNone then
    .error (.message "`retention(...)` requires at least one of `completed_ms` or `dead_ms`")
  else .ok ⟨fields .completedMs, fields .deadMs⟩

/-! ### `budget(..)` -/

inductive BudgetStrategyAttr (τ : Type) where
  | whileInFlight
  | timeBased (durationMs : Expr τ) (burst : Option (Expr τ))

structure BudgetPolicyAttr (τ : Type) where
  allocation : Expr τ
  strategy : BudgetStrategyAttr τ

structure BudgetAttr (τ : Type) where
  key : String
  cost : Option (Expr τ)
  createWith : Option (BudgetPolicyAttr τ)

inductive TimeBasedField where
  | durationMs | burst
deriving DecidableEq

def timeBasedReader : Fields.Reader (Meta τ) TimeBasedField (fun _ => Expr τ) AttrError :=
  fieldReader [("duration_ms", .durationMs), ("burst", .burst)]
    (unknownField "time_based") (fun _ => duplicateField) fun _ => Meta.expr

def parseTimeBased (syn : Syn) (item : Meta τ) : Except AttrError (BudgetStrategyAttr τ) := do
  let fields ← timeBasedReader.slots (← item.nested syn)
  match fields .durationMs with
  | some durationMs => .ok (.timeBased durationMs (fields .burst))
  | none => .error (.message "`time_based(...)` requires `duration_ms = ...`")

/-- `while_in_flight`, which has no fields. -/
def parseWhileInFlight (item : Meta τ) : Except AttrError (BudgetStrategyAttr τ) :=
  match item with
  | .list _ _ => .error (.message
      "`while_in_flight` takes no fields — its tokens return on acknowledgement, not on a clock")
  | item => item.flag.map fun _ => .whileInFlight

inductive PolicyField where
  | allocation | strategy
deriving DecidableEq

abbrev PolicyField.Value (τ : Type) : PolicyField → Type
  | .allocation => Expr τ
  | .strategy => BudgetStrategyAttr τ

def policyReader (syn : Syn) : Fields.Reader (Meta τ) PolicyField (PolicyField.Value τ) AttrError :=
  fieldReader [("allocation", .allocation), ("while_in_flight", .strategy), ("time_based", .strategy)]
    (unknownField "create_with")
    (fun k ident =>
      match k with
      | .allocation => duplicateField ident
      | .strategy => "`create_with(...)` names more than one strategy")
    fun k item =>
      match k with
      | .allocation => item.expr
      | .strategy => if item.name = "while_in_flight" then parseWhileInFlight item else parseTimeBased syn item

def parseBudgetPolicy (syn : Syn) (item : Meta τ) : Except AttrError (BudgetPolicyAttr τ) := do
  let fields ← (policyReader syn).slots (← item.nested syn)
  match fields .allocation, fields .strategy with
  | none, _ => .error (.message "`create_with(...)` requires `allocation = ...`")
  | some _, none => .error (.message
      "`create_with(...)` requires a strategy — `while_in_flight` or `time_based(...)`")
  | some allocation, some strategy => .ok ⟨allocation, strategy⟩

inductive BudgetField where
  | key | cost | createWith
deriving DecidableEq

abbrev BudgetField.Value (τ : Type) : BudgetField → Type
  | .key => String
  | .cost => Expr τ
  | .createWith => BudgetPolicyAttr τ

def budgetReader (syn : Syn) : Fields.Reader (Meta τ) BudgetField (BudgetField.Value τ) AttrError :=
  fieldReader [("key", .key), ("cost", .cost), ("create_with", .createWith)]
    (unknownField "budget") (fun _ => duplicateField) fun k item =>
      match k with
      | .key => item.litStr
      | .cost => item.expr
      | .createWith => parseBudgetPolicy syn item

def parseBudget (syn : Syn) (item : Meta τ) : Except AttrError (BudgetAttr τ) := do
  let fields ← (budgetReader syn).slots (← item.nested syn)
  match fields .key with
  | some key => .ok ⟨key, fields .cost, fields .createWith⟩
  | none => .error (.message "`budget(...)` requires `key = \"...\"`")

/-! ### `unique(..)` -/

/-- An element of an array has to be a string literal. -/
def strElem : Expr τ → Except AttrError String
  | .str s => .ok s
  | _ => .error (.message "expected a string literal (e.g. `\".foo\"`)")

def parseStrArray (item : Meta τ) : Except AttrError (List String) := do
  let elems ← item.exprArray
  elems.mapM strElem

inductive UniqueSelection where
  | only (paths : List String)
  | except (paths : List String)
deriving DecidableEq

inductive UniqueScopeAttr where
  | queued | active | «exists»
deriving DecidableEq

def UniqueScopeAttr.name : UniqueScopeAttr → String
  | .queued => "queued"
  | .active => "active"
  | .exists => "exists"

structure UniqueAttr where
  selection : Option UniqueSelection := none
  scope : Option UniqueScopeAttr := none
  withPrefix : Option Bool := none
deriving DecidableEq

/-- Of `only` and `except` at most one may be written. -/
def selectionOf (conflict : String) : Option (List String) → Option (List String) →
    Except AttrError (Option UniqueSelection)
  | some _, some _ => .error (.message conflict)
  | some paths, none => .ok (some (.only paths))
  | none, some paths => .ok (some (.except paths))
  | none, none => .ok none

def parseScope (item : Meta τ) : Except AttrError UniqueScopeAttr := do
  match ← item.litStr with
  | "queued" => .ok .queued
  | "active" => .ok .active
  | "exists" => .ok .exists
  | other => .error (.message s!"unknown scope `{other}` — expected `queued`, `active`, or `exists`")

inductive UniqueField where
  | only | except | scope | withPrefix
deriving DecidableEq

abbrev UniqueField.Value : UniqueField → Type
  | .only | .except => List String
  | .scope => UniqueScopeAttr
  | .withPrefix => Bool

def uniqueReader : Fields.Reader (Meta τ) UniqueField UniqueField.Value AttrError :=
  fieldReader [("only", .only), ("except", .except), ("scope", .scope), ("prefix", .withPrefix)]
    (unknownField "unique") (fun _ => duplicateField) fun k item =>
      match k with
      | .only => parseStrArray item
      | .except => parseStrArray item
      | .scope => parseScope item
      | .withPrefix => item.litBool

def parseUnique (syn : Syn) (item : Meta τ) : Except AttrError UniqueAttr := do
  let fields ← uniqueReader.slots (← item.nested syn)
  let selection ← selectionOf "`only` and `except` are mutually exclusive on `unique(...)`"
    (fields .only) (fields .except)
  return ⟨selection, fields .scope, fields .withPrefix⟩

/-- `unique` is bare, or has a parenthesised body. -/
def parseUniqueItem (syn : Syn) (item : Meta τ) : Except AttrError UniqueAttr :=
  match item with
  | .list _ _ => parseUnique syn item
  | item => item.flag.map fun _ => {}

/-! ### `batch(..)` -/

inductive BatchFoldMode where
  | append | dedup | sorted
deriving DecidableEq

structure BatchKeyConfig where
  selection : Option UniqueSelection := none
  withPrefix : Option Bool := none
deriving DecidableEq

structure BatchAttr (τ : Type) where
  path : String
  limit : Expr τ
  fold : BatchFoldMode
  key : Option BatchKeyConfig

inductive BatchKeyField where
  | only | except | withPrefix
deriving DecidableEq

abbrev BatchKeyField.Value : BatchKeyField → Type
  | .only | .except => List String
  | .withPrefix => Bool

def batchKeyReader : Fields.Reader (Meta τ) BatchKeyField BatchKeyField.Value AttrError :=
  fieldReader [("only", .only), ("except", .except), ("prefix", .withPrefix)]
    (unknownField "key") (fun _ => duplicateField) fun k item =>
      match k with
      | .only => parseStrArray item
      | .except => parseStrArray item
      | .withPrefix => item.litBool

def parseBatchKey (syn : Syn) (item : Meta τ) : Except AttrError BatchKeyConfig := do
  let fields ← batchKeyReader.slots (← item.nested syn)
  let selection ← selectionOf "`only` and `except` are mutually exclusive on `key(...)`"
    (fields .only) (fields .except)
  return ⟨selection, fields .withPrefix⟩

inductive BatchField where
  | path | limit | fold | key
deriving DecidableEq

abbrev BatchField.Value (τ : Type) : BatchField → Type
  | .path => String
  | .limit => Expr τ
  | .fold => BatchFoldMode
  | .key => BatchKeyConfig

/-- The flags `dedup` and `sorted` are one field. -/
def batchReader (syn : Syn) : Fields.Reader (Meta τ) BatchField (BatchField.Value τ) AttrError :=
  fieldReader [("path", .path), ("limit", .limit), ("dedup", .fold), ("sorted", .fold), ("key", .key)]
    (unknownField "batch")
    (fun k ident =>
      match k with
      | .fold => "`dedup` and `sorted` are mutually exclusive on `batch(...)`"
      | _ => duplicateField ident)
    fun k item =>
      match k with
      | .path => item.litStr
      | .limit => item.expr
      | .fold => item.flag.map fun _ => if item.name = "dedup" then .dedup else .sorted
      | .key => parseBatchKey syn item

def parseBatch (syn : Syn) (item : Meta τ) : Except AttrError (BatchAttr τ) := do
  let fields ← (batchReader syn).slots (← item.nested syn)
  match fields .path, fields .limit with
  | some path, some limit => .ok ⟨path, limit, (fields .fold).getD .append, fields .key⟩
  | _, _ => .error (.message "`batch(...)` requires both `path = \"...\"` and `limit = <expr>`")

/-! ### All attributes -/

structure ZizqAttrs (τ : Type) where
  name : Option String
  queue : Option String
  priority : Option (Expr τ)
  retryLimit : Option (Expr τ)
  backoff : Option (BackoffAttr τ)
  retention : Option (RetentionAttr τ)
  unique : Option UniqueAttr
  batch : Option (BatchAttr τ)
  budgets : List (BudgetAttr τ)

inductive AttrField where
  | name | queue | priority | retryLimit | backoff | retention | unique | batch
deriving DecidableEq

abbrev AttrField.Value (τ : Type) : AttrField → Type
  | .name | .queue => String
  | .priority | .retryLimit => Expr τ
  | .backoff => BackoffAttr τ
  | .retention => RetentionAttr τ
  | .unique => UniqueAttr
  | .batch => BatchAttr τ

/-- The items that can be written once. -/
def attrReader (syn : Syn) : Fields.Reader (Meta τ) AttrField (AttrField.Value τ) AttrError :=
  fieldReader
    [("name", .name), ("queue", .queue), ("priority", .priority), ("retry_limit", .retryLimit),
      ("backoff", .backoff), ("retention", .retention), ("unique", .unique), ("batch", .batch)]
    (fun ident => s!"unknown `zizq` attribute `{ident}`") (fun _ ident => s!"duplicate `{ident}` attribute")
    fun k item =>
      match k with
      | .name => item.litStr
      | .queue => item.litStr
      | .priority => item.expr
      | .retryLimit => item.expr
      | .backoff => parseBackoff syn item
      | .retention => parseRetention syn item
      | .unique => parseUniqueItem syn item
      | .batch => parseBatch syn item

/-- The budgets, told apart by their keys. -/
def budgetsReader (syn : Syn) : Fields.Reader (Meta τ) String (fun _ => BudgetAttr τ) AttrError where
  field item := (parseBudget syn item).map (·.key)
  taken key _ := .message s!"duplicate `budget` key `{key}`"
  value _ item := parseBudget syn item

def Meta.isBudget (item : Meta τ) : Bool := item.name = "budget"

namespace ZizqAttrs

/-- The budgets and the other entries so far. -/
abbrev State (τ : Type) := List (Sigma fun _ : String => BudgetAttr τ) × List (Sigma (AttrField.Value τ))

def putItem (syn : Syn) : State τ → Meta τ → Except AttrError (State τ) :=
  Fields.beside Meta.isBudget (budgetsReader syn).put (attrReader syn).put

/-- An attribute of another name is not looked at. -/
def putAttribute (syn : Syn) (state : State τ) (attr : Attribute τ) : Except AttrError (State τ) :=
  if attr.path = "zizq" then
    match attr.args with
    | none => .error .syn
    | some items => items.foldlM (putItem syn) state
  else .ok state

def ofState (state : State τ) : ZizqAttrs τ where
  name := state.2.dlookup .name
  queue := state.2.dlookup .queue
  priority := state.2.dlookup .priority
  retryLimit := state.2.dlookup .retryLimit
  backoff := state.2.dlookup .backoff
  retention := state.2.dlookup .retention
  unique := state.2.dlookup .unique
  batch := state.2.dlookup .batch
  budgets := state.1.map (·.2)

def parse (syn : Syn) (attrs : List (Attribute τ)) : Except AttrError (ZizqAttrs τ) :=
  (attrs.foldlM (putAttribute syn) ([], [])).map ofState

end ZizqAttrs

end Zizq.Derive
