import Zizq.Json.Value

/-! Paths into a JSON value.

`walk`, `remove`, `pick` and `setPath` are the traversals of `jq_path`, and
`payloadExcept` and `payloadOnly` the two payload transformations that a derived
unique or batch key hashes. Every traversal goes one `child` at a time, and a
value is determined by its kind and its children (`ext_child`). -/
namespace Zizq.Json
open Data Value
variable {ν : Type}

inductive PathStep where
  | field (name : String)
  | index (idx : Nat)
deriving DecidableEq

abbrev Path := List PathStep

/-- One hop of `walk`. -/
def child : PathStep → Value ν → Option (Value ν)
  | .field name, .object map => Assoc.get name map
  | .index idx, .array arr => arr[idx]?
  | _, _ => none

def walk (value : Value ν) : Path → Option (Value ν)
  | [] => some value
  | step :: path => (child step value).bind fun next => walk next path

/-! ### Removal -/

/-- The value with its child at `step`, if it has one, replaced. -/
def setChild (step : PathStep) (next value : Value ν) : Value ν :=
  match step, value with
  | .field name, .object map => .object (Assoc.insert name next map)
  | .index idx, .array arr => .array (arr.set idx next)
  | _, v => v

/-- `f` applied in place at the end of `path`; a hop that does not fit leaves all as it is. -/
def modify (f : Value ν → Value ν) : Path → Value ν → Value ν
  | [], value => f value
  | step :: path, value =>
    match child step value with
    | some next => setChild step (modify f path next) value
    | none => value

def deleteChild : PathStep → Value ν → Value ν
  | .field name, .object map => .object (Assoc.erase name map)
  | .index idx, .array arr => if idx < arr.length then .array (arr.eraseIdx idx) else .array arr
  | _, v => v

def remove (value : Value ν) (path : Path) : Value ν :=
  match path.getLast? with
  | none => .null
  | some last => modify (deleteChild last) path.dropLast value

def payloadExcept (payload : Value ν) (paths : List Path) : Value ν :=
  paths.foldl remove payload

/-! ### Selection -/

def containerFor : PathStep → Value ν
  | .field _ => .object []
  | .index _ => .array []

/-- `arr` filled up with nulls to a length above `idx`. -/
def pad (idx : Nat) (arr : List (Value ν)) : List (Value ν) :=
  arr ++ List.replicate (idx + 1 - arr.length) .null

/-- The child that `setPath` goes on in: `init` where there is none yet. -/
def descend (step : PathStep) (init cur : Value ν) : Option (Value ν) :=
  match step, cur with
  | .field name, .object map => some ((Assoc.get name map).getD init)
  | .index idx, .array arr =>
    match arr[idx]? with
    | some next => some (if next.isNull then init else next)
    | none => some init
  | _, _ => none

def putChild (step : PathStep) (next cur : Value ν) : Value ν :=
  match step, cur with
  | .field name, .object map => .object (Assoc.insert name next map)
  | .index idx, .array arr => .array ((pad idx arr).set idx next)
  | _, v => v

/-- The loop of `setPath` from the step it is at; a shape mismatch abandons the write. -/
def writeAt (step : PathStep) : Path → Value ν → Value ν → Value ν
  | [], value, cur => putChild step value cur
  | next :: rest, value, cur =>
    match descend step (containerFor next) cur with
    | some inner => putChild step (writeAt next rest value inner) cur
    | none => cur

def setPath (target : Value ν) (path : Path) (value : Value ν) : Value ν :=
  match path with
  | [] => target
  | step :: rest => writeAt step rest value (if target.isNull then containerFor step else target)

/-- The loop of `pick`; the root path returns the whole source at once. -/
def pickFrom (source target : Value ν) : List Path → Value ν
  | [] => if target.isNull then .object [] else target
  | [] :: _ => source
  | (step :: rest) :: paths =>
    match walk source (step :: rest) with
    | some v => pickFrom source (setPath target (step :: rest) v) paths
    | none => pickFrom source target paths

def pick (source : Value ν) (paths : List Path) : Value ν := pickFrom source .null paths

def payloadOnly (payload : Value ν) (paths : List Path) : Value ν := pick payload paths

/-! ### Children -/

@[simp] theorem walk_nil (v : Value ν) : walk v [] = some v := rfl

theorem walk_cons (v : Value ν) (step : PathStep) (path : Path) :
    walk v (step :: path) = (child step v).bind fun next => walk next path := rfl

theorem walk_append (v : Value ν) (path path' : Path) :
    walk v (path ++ path') = (walk v path).bind fun next => walk next path' := by
  induction path generalizing v with
  | nil => rfl
  | cons step path ih =>
    rw [List.cons_append, walk_cons, walk_cons]
    cases child step v with
    | none => rfl
    | some next => exact ih next

/-- What a value is before any of its children are looked at. -/
inductive Kind (ν : Type) where
  | leaf (v : Value ν)
  | array
  | object

def kind : Value ν → Kind ν
  | .array _ => .array
  | .object _ => .object
  | v => .leaf v

/-- A value is its kind and its children. -/
theorem ext_child {v w : Value ν} (hv : v.ordered = true) (hw : w.ordered = true)
    (hkind : kind v = kind w) (h : ∀ step, child step v = child step w) : v = w := by
  cases v with
  | array xs =>
    cases w with
    | array ys => exact congrArg Value.array (List.ext_getElem? fun i => h (.index i))
    | _ => simp [kind] at hkind
  | object m =>
    cases w with
    | object m' =>
      exact congrArg Value.object
        (Assoc.ext (ordered_object.mp hv).1 (ordered_object.mp hw).1 fun k => h (.field k))
    | _ => simp [kind] at hkind
  | _ => cases w <;> simp_all [kind]

/-- Induction over the tree by its children. -/
@[elab_as_elim]
theorem induct_child {P : Value ν → Prop}
    (h : ∀ v, (∀ step w, child step v = some w → P w) → P v) (v : Value ν) : P v := by
  induction v with
  | array xs ih =>
    refine h _ fun step w hw => ?_
    cases step with
    | field name => cases hw
    | index idx => exact ih w (List.mem_of_getElem? hw)
  | object m ih =>
    refine h _ fun step w hw => ?_
    cases step with
    | field name => exact ih _ (Assoc.mem_of_get hw)
    | index idx => cases hw
  | _ => exact h _ fun step w hw => by cases step <;> cases hw

theorem ordered_child {step : PathStep} {v w : Value ν} (hv : v.ordered = true)
    (h : child step v = some w) : w.ordered = true := by
  cases v with
  | array xs =>
    cases step with
    | field name => cases h
    | index idx => exact ordered_item hv h
  | object m =>
    cases step with
    | field name => exact ordered_get hv h
    | index idx => cases h
  | _ => cases step <;> cases h

theorem ordered_walk {path : Path} {v w : Value ν} (hv : v.ordered = true)
    (h : walk v path = some w) : w.ordered = true := by
  induction path generalizing v with
  | nil => exact Option.some.inj h ▸ hv
  | cons step path ih =>
    obtain ⟨next, hchild, hrest⟩ := Option.bind_eq_some_iff.mp h
    exact ih (ordered_child hv hchild) hrest

end Zizq.Json
