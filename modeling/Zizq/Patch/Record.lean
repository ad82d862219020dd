import Zizq.Json.MergePatch
import Zizq.Patch.Field

/-! Structs of three-state fields.

A struct whose members are such fields is sent as the object of those that are not kept,
each with a null or with the JSON value of what it is set to (`Shows`). The server merges
that into a document, where each field does what its state says, and nothing else is
touched (`Patched`). -/
namespace Zizq.Patch
open Client Data Json
variable {κ α β ν : Type}

namespace Field

/-- What stands under the name of a field, given the JSON values of what it may be set to. -/
def shown (json : α → Value ν) : Field α → Option (Value ν)
  | .keep => none
  | .clear => some .null
  | .set v => some (json v)

/-- What a field makes of the member of a document: a kept one leaves it, a cleared one takes it away, and a
set one merges its value into it. -/
def merged (json : α → Value ν) (target : Option (Value ν)) : Field α → Option (Value ν)
  | .keep => target
  | .clear => none
  | .set v => some (mergePatch (target.getD .null) (json v))

end Field

/-- The body is an object of the fields that are not kept. -/
structure Shows (name : κ → String) (json : α → Value ν) (fields : κ → Field α) (body : Value ν) : Prop where
  object : ∃ members, Assoc.Sorted members ∧ body = .object members
  field : ∀ k, child (.field (name k)) body = (fields k).shown json
  other : ∀ key, (∀ k, key ≠ name k) → child (.field key) body = none

/-- Each field does what its state says, and every other member is as it was. -/
structure Patched (name : κ → String) (json : α → Value ν) (fields : κ → Field α)
    (target result : Value ν) : Prop where
  field : ∀ k, child (.field (name k)) result = (fields k).merged json (child (.field (name k)) target)
  other : ∀ key, (∀ k, key ≠ name k) → child (.field key) result = child (.field key) target

/-- What the server makes of a body that shows the fields, none of which is set to null. -/
theorem Shows.patched {name : κ → String} {json : α → Value ν} {fields : κ → Field α} {body : Value ν}
    (h : Shows name json fields body) (hjson : ∀ v, (json v).isNull = false) (target : Value ν) :
    Patched name json fields target (mergePatch target body) := by
  obtain ⟨members, hsorted, rfl⟩ := h.object
  have hchild (key : String) : child (.field key) (mergePatch target (.object members)) =
      Json.merged (child (.field key) target) (child (.field key) (.object members)) :=
    child_mergePatch key target hsorted
  constructor
  · intro k
    rw [hchild, h.field]
    cases fields k with
    | keep | clear => rfl
    | set v =>
      show (if (json v).isNull then none else some _) = some _
      rw [hjson v]
      rfl
  · intro key hkey
    rw [hchild, h.other key hkey]
    rfl

/-! ### Fields -/

namespace Field

def map (f : α → β) : Field α → Field β
  | .keep => .keep
  | .clear => .clear
  | .set v => .set (f v)

theorem member_map (name : String) (value : β → Option (Datum ν)) (f : α → β) (field : Field α) :
    (field.map f).member name value = field.member name fun v => value (f v) := by
  cases field <;> rfl

theorem map_injective {f : α → β} (hf : f.Injective) : (map f).Injective := by
  intro a b h
  cases a <;> cases b <;> simp only [map, set.injEq, reduceCtorEq] at h ⊢
  exact hf h

/-- A field whose value is sent as `json` is sent as what it shows. -/
theorem wireValue_serialize {format : Format} {value : α → Option (Datum ν)} {json : α → Value ν}
    (hjson : ∀ v, (value v).map (wireValue format) = some (json v)) (field : Field α) :
    (field.serialize value).map (wireValue format) = field.shown json := by
  cases field with
  | keep | clear => rfl
  | set v =>
    obtain ⟨datum, hdatum, hwire⟩ := Option.map_eq_some_iff.mp (hjson v)
    rw [serialize, hdatum, shown, ← hwire]
    rfl

end Field

/-! ### Structs -/

section Members
variable {name : κ → String} {value : α → Option (Datum ν)} {fields : κ → Field α}
  {members : κ → List (String × Datum ν)} {ks : List κ}

theorem names_flatMap (hmembers : ∀ k, (fields k).member (name k) value = some (members k)) (ks : List κ) :
    ((ks.flatMap members).map Prod.fst).Sublist (ks.map name) := by
  induction ks with
  | nil => exact List.Sublist.refl _
  | cons k ks ih =>
    rw [List.flatMap_cons, List.map_append, List.map_cons]
    exact (Field.member_names (hmembers k)).append ih

theorem get_flatMap (hmembers : ∀ k, (fields k).member (name k) value = some (members k))
    (hnames : (ks.map name).Nodup) {k : κ} (hk : k ∈ ks) :
    Assoc.get (name k) (ks.flatMap members) = (fields k).serialize value := by
  induction ks with
  | nil => cases hk
  | cons j ks ih =>
    obtain ⟨hj, hnames⟩ := List.nodup_cons.mp hnames
    rw [List.flatMap_cons, Assoc.get_append, Field.get_member (hmembers j)]
    rcases List.mem_cons.mp hk with rfl | hk
    · have hrest : Assoc.get (name k) (ks.flatMap members) = none :=
        Assoc.get_eq_none fun e he heq =>
          hj ((names_flatMap hmembers ks).subset (heq ▸ List.mem_map_of_mem he))
      rw [if_pos rfl, hrest, Option.or_none]
    · have hne : name k ≠ name j := fun heq => hj (heq ▸ List.mem_map_of_mem hk)
      rw [if_neg hne, Option.none_or, ih hnames hk]

/-- A struct with a member for each field is sent as an object that shows the fields. -/
theorem shows_flatMap {format : Format} {json : α → Value ν}
    (hmembers : ∀ k, (fields k).member (name k) value = some (members k))
    (hjson : ∀ v, (value v).map (wireValue format) = some (json v)) (hks : ∀ k, k ∈ ks)
    (hnames : (ks.map name).Nodup) (struct : String) :
    Shows name json fields (wireValue format (.struct struct (ks.flatMap members))) where
  object := ⟨_, sorted_ofMembers _, rfl⟩
  field k := by
    apply (get_wireMembers format _ ((names_flatMap hmembers ks).nodup hnames)).trans
    rw [get_flatMap hmembers hnames (hks k)]
    exact Field.wireValue_serialize hjson _
  other key hkey := by
    apply (get_wireMembers format _ ((names_flatMap hmembers ks).nodup hnames)).trans
    rw [Assoc.get_eq_none fun e he heq => ?_]
    · rfl
    · obtain ⟨k, -, hk⟩ := List.mem_map.mp ((names_flatMap hmembers ks).subset (List.mem_map_of_mem he))
      exact hkey k (heq.trans hk.symm)

end Members

end Zizq.Patch
