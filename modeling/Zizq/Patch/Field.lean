import Zizq.Client.Serde

/-! Three-state fields of a JSON merge patch.

A field is kept (absent), cleared (`null`) or set. Serializing a kept field is
`unreachable!` in the code, and `none` here; every struct member asks `is_keep`
first, so that none ever comes to it (`Field.member_keep`). -/
namespace Zizq.Patch
open Client Data
variable {α ν : Type}

inductive Field (α : Type) where
  | keep
  | clear
  | set (value : α)

namespace Field

def isKeep : Field α → Bool
  | .keep => true
  | _ => false

/-- The `Serialize` impl, over that of the value; `none` where the code panics. -/
def serialize (value : α → Option (Datum ν)) : Field α → Option (Datum ν)
  | .keep => none
  | .clear => some .none
  | .set v => (value v).map .some

/-- A struct member with `skip_serializing_if = "Field::is_keep"`. -/
def member (name : String) (value : α → Option (Datum ν)) (field : Field α) :
    Option (List (String × Datum ν)) :=
  if field.isKeep then some [] else (field.serialize value).map fun datum => [(name, datum)]

theorem member_keep (name : String) (value : α → Option (Datum ν)) :
    member name value .keep = some [] := rfl

/-- Serializing a struct member does not panic unless its value does. -/
theorem member_isSome (name : String) {value : α → Option (Datum ν)} (hvalue : ∀ v, (value v).isSome)
    (field : Field α) : ∃ members, field.member name value = some members := by
  cases field with
  | keep => exact ⟨[], rfl⟩
  | clear => exact ⟨[(name, .none)], rfl⟩
  | set v =>
    obtain ⟨datum, hdatum⟩ := Option.isSome_iff_exists.mp (hvalue v)
    exact ⟨[(name, .some datum)], by simp [member, isKeep, serialize, hdatum]⟩

/-- The member has the field's name, and a kept field has none. -/
theorem get_member {name : String} {value : α → Option (Datum ν)} {field : Field α}
    {members : List (String × Datum ν)} (h : field.member name value = some members) (key : String) :
    Assoc.get key members = if key = name then field.serialize value else none := by
  unfold member at h
  split at h
  · next hkeep =>
    obtain rfl := Option.some.inj h
    cases field <;> simp_all [isKeep, serialize]
  · obtain ⟨datum, hdatum, rfl⟩ := Option.map_eq_some_iff.mp h
    rw [hdatum]
    rfl

theorem member_names {name : String} {value : α → Option (Datum ν)} {field : Field α}
    {members : List (String × Datum ν)} (h : field.member name value = some members) :
    (members.map Prod.fst).Sublist [name] := by
  unfold member at h
  split at h
  · obtain rfl := Option.some.inj h
    exact List.nil_sublist _
  · obtain ⟨datum, -, rfl⟩ := Option.map_eq_some_iff.mp h
    exact List.Sublist.refl _

/-- A field is serialized exactly if it is not kept, for values that serialize. -/
theorem serialize_isSome {value : α → Option (Datum ν)} (hvalue : ∀ v, (value v).isSome)
    (field : Field α) : (field.serialize value).isSome ↔ ¬ field.isKeep := by
  cases field with
  | keep | clear => simp [serialize, isKeep]
  | set v => simpa [serialize, isKeep] using hvalue v

end Field

/-! ### The values of fields -/

def serializeString (s : String) : Option (Datum ν) := some (.str s)
def serializeU32 (n : UInt32) : Option (Datum Nat) := some (.number n.toNat)
def serializeU64 (n : UInt64) : Option (Datum Nat) := some (.number n.toNat)

theorem serializeString_isSome (s : String) : (serializeString s : Option (Datum ν)).isSome := rfl
theorem serializeU32_isSome (n : UInt32) : (serializeU32 n).isSome := rfl
theorem serializeU64_isSome (n : UInt64) : (serializeU64 n).isSome := rfl

end Zizq.Patch
