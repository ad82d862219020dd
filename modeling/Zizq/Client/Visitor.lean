import Zizq.Client.Serde

/-! Derived `Deserialize` impls.

The visitor of a struct passes once over the members of an object. A member named like a
field is read into the slot of that field, which can be filled only once, and any other
member is ignored. No error text is looked at here, so each slot may be filled in a pass
of its own (`slot`), and what it holds depends on the members of that name alone
(`slot_eq`). -/
namespace Zizq.Client
open Data
variable {ν α : Type}

/-- What the members of the name hold, in order. -/
def stated (name : String) (members : List (String × Value ν)) : List (Value ν) :=
  members.filterMap fun e => if e.1 = name then some e.2 else none

/-! ### Fields -/

section Field
variable (read : Value ν → Option α) (name : String)

/-- What a member makes of the slot; `none` is an error. -/
def fill (slot : Option α) (e : String × Value ν) : Option (Option α) :=
  if e.1 = name then
    -- a duplicate field
    if slot.isSome then none
    else (read e.2).map some
  else some slot

def slot (members : List (String × Value ν)) : Option (Option α) := members.foldlM (fill read name) none

/-- A field that has to be there. -/
def required (members : List (String × Value ν)) : Option α := (slot read name members).join

def readOption : Value ν → Option (Option α)
  | .null => some none
  | v => (read v).map some

/-- A field of an `Option` type with `serde(default)`. -/
def optional (members : List (String × Value ν)) : Option (Option α) :=
  (slot (readOption read) name members).map Option.join

end Field

/-! ### Values -/

def readString : Value ν → Option String
  | .string s => some s
  | _ => none

def readVec (read : Value ν → Option α) : Value ν → Option (List α)
  | .array items => items.mapM read
  | _ => none

section Natural
variable (natural : ν → Option Nat)

/-- A number that is a natural one below the bound. -/
def readNatural (bound : Nat) : Value ν → Option Nat
  | .number n => (natural n).filter fun k => k < bound
  | _ => none

def readU32 (v : Value ν) : Option UInt32 := (readNatural natural (2 ^ 32) v).map UInt32.ofNat
def readU64 (v : Value ν) : Option UInt64 := (readNatural natural (2 ^ 64) v).map UInt64.ofNat

end Natural

/-! ### What is stated -/

theorem stated_cons (name : String) (e : String × Value ν) (members : List (String × Value ν)) :
    stated name (e :: members) = if e.1 = name then e.2 :: stated name members else stated name members := by
  rw [stated, List.filterMap_cons]
  by_cases h : e.1 = name
  · rw [if_pos h, if_pos h]
    rfl
  · rw [if_neg h, if_neg h]
    rfl

theorem stated_append (name : String) (members members' : List (String × Value ν)) :
    stated name (members ++ members') = stated name members ++ stated name members' :=
  List.filterMap_append

theorem stated_eq_get {name : String} {members : List (String × Value ν)} (h : (members.map Prod.fst).Nodup) :
    stated name members = (Assoc.get name members).toList := by
  induction members with
  | nil => rfl
  | cons e members ih =>
    obtain ⟨hhead, htail⟩ := List.nodup_cons.mp h
    rw [stated_cons, Assoc.get_cons]
    by_cases hname : e.1 = name
    · have hnone : Assoc.get name members = none :=
        Assoc.get_eq_none fun e' he' heq => hhead (hname.trans heq ▸ List.mem_map_of_mem he')
      rw [if_pos hname, if_pos hname.symm, ih htail, hnone]
      rfl
    · rw [if_neg hname, if_neg (Ne.symm hname), ih htail]

/-! ### What a slot holds -/

section Slot
variable (read : Value ν → Option α) (name : String)

theorem foldlM_fill_some (a : α) (members : List (String × Value ν)) :
    members.foldlM (fill read name) (some a) = if stated name members = [] then some (some a) else none := by
  induction members with
  | nil => rfl
  | cons e members ih =>
    rw [List.foldlM_cons, stated_cons, fill]
    by_cases h : e.1 = name
    · rw [if_pos h, if_pos h, if_neg (List.cons_ne_nil _ _)]
      rfl
    · rw [if_neg h, if_neg h]
      exact ih

theorem slot_eq (members : List (String × Value ν)) :
    slot read name members =
      match stated name members with
      | [] => some none
      | [v] => (read v).map some
      | _ => none := by
  rw [slot]
  induction members with
  | nil => rfl
  | cons e members ih =>
    rw [List.foldlM_cons, stated_cons, fill]
    by_cases h : e.1 = name
    · rw [if_pos h, if_pos h]
      cases hread : read e.2 with
      | none => cases hrest : stated name members <;> simp [hread]
      | some a => cases hrest : stated name members <;> simp [hread, foldlM_fill_some, hrest]
    · rw [if_neg h, if_neg h]
      exact ih

theorem slot_congr {members members' : List (String × Value ν)} (h : stated name members = stated name members') :
    slot read name members = slot read name members' := by
  rw [slot_eq, slot_eq, h]

theorem required_eq_some_iff {members : List (String × Value ν)} {a : α} :
    required read name members = some a ↔ ∃ v, stated name members = [v] ∧ read v = some a := by
  rw [required, slot_eq]
  rcases stated name members with _ | ⟨v, _ | ⟨v', rest⟩⟩
  · simp
  · cases hread : read v <;> simp [hread]
  · simp

end Slot

/-! ### A member replaced -/

section Replace
variable {read : Value ν → Option α} {name : String} {before after : List (String × Value ν)} {v : Value ν}

theorem stated_replace_ne {key : String} (h : key ≠ name) (v v' : Value ν) :
    stated name (before ++ (key, v) :: after) = stated name (before ++ (key, v') :: after) := by
  simp only [stated_append, stated_cons, if_neg h]

/-- A member of another name is of no account. -/
theorem required_replace_ne {key : String} (h : key ≠ name) (v v' : Value ν) :
    required read name (before ++ (key, v) :: after) = required read name (before ++ (key, v') :: after) := by
  rw [required, required, slot_congr read name (stated_replace_ne h v v')]

/-- What a required field holds is what its only member holds, and it goes by that if it is replaced. -/
theorem required_replace {a : α} (h : required read name (before ++ (name, v) :: after) = some a) :
    read v = some a ∧
      ∀ v' a', read v' = some a' → required read name (before ++ (name, v') :: after) = some a' := by
  obtain ⟨w, hstated, hread⟩ := (required_eq_some_iff read name).mp h
  rw [stated_append, stated_cons, if_pos rfl] at hstated
  have hlength := congrArg List.length hstated
  rw [List.length_append, List.length_cons, List.length_singleton] at hlength
  have hbefore : stated name before = [] := List.length_eq_zero_iff.mp (by omega)
  have hafter : stated name after = [] := List.length_eq_zero_iff.mp (by omega)
  rw [hbefore, hafter, List.nil_append, List.singleton_inj] at hstated
  obtain rfl : v = w := hstated
  refine ⟨hread, fun v' a' hv' => (required_eq_some_iff read name).mpr ⟨v', ?_, hv'⟩⟩
  rw [stated_append, stated_cons, if_pos rfl, hbefore, hafter, List.nil_append]

theorem mapM_forall₂ {R : Value ν → Value ν → Prop} {S : α → α → Prop}
    (h : ∀ v v' a, R v v' → read v = some a → ∃ a', read v' = some a' ∧ S a a') {items items' : List (Value ν)}
    (hitems : List.Forall₂ R items items') {values : List α} (hread : items.mapM read = some values) :
    ∃ values', items'.mapM read = some values' ∧ List.Forall₂ S values values' := by
  induction hitems generalizing values with
  | nil =>
    obtain rfl := Option.some.inj hread
    exact ⟨[], rfl, .nil⟩
  | cons hitem _ ih =>
    rw [List.mapM_cons] at hread
    obtain ⟨a, ha, htail⟩ := Option.bind_eq_some_iff.mp hread
    obtain ⟨rest, hrest, heq⟩ := Option.bind_eq_some_iff.mp htail
    obtain rfl := Option.some.inj heq
    obtain ⟨a', ha', hS⟩ := h _ _ _ hitem ha
    obtain ⟨rest', hrest', hall⟩ := ih hrest
    refine ⟨a' :: rest', ?_, .cons hS hall⟩
    rw [List.mapM_cons, ha', hrest']
    rfl

end Replace

end Zizq.Client
