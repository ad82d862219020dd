import Zizq.Client.Response
import Zizq.Json.Value

/-! Serde's data model.

A `Serialize` impl presents a value to a serializer as a tree of calls (`Datum`). What
is relied on of the two formats is that the server reads back the same JSON value from
either (`wireValue`), but for a unit struct, which MessagePack writes as an empty array
(`wireValue_format_iff`). -/
namespace Zizq.Client
open Data
variable {ν : Type}

/-! ### Values -/

/-- What the `Serialize` impl of a value presents to a serializer. -/
inductive Datum (ν : Type) where
  | unit
  | unitStruct (name : String)
  | bool (b : Bool)
  | number (n : ν)
  | str (s : String)
  | none
  | some (value : Datum ν)
  | seq (items : List (Datum ν))
  | tuple (items : List (Datum ν))
  | newtypeStruct (name : String) (value : Datum ν)
  | tupleStruct (name : String) (items : List (Datum ν))
  | struct (name : String) (fields : List (String × Datum ν))
  | map (entries : List (String × Datum ν))
  | unitVariant (name variant : String)
  | newtypeVariant (name variant : String) (value : Datum ν)
  | tupleVariant (name variant : String) (items : List (Datum ν))
  | structVariant (name variant : String) (fields : List (String × Datum ν))

namespace Datum

@[elab_as_elim, induction_eliminator]
theorem induct {P : Datum ν → Prop} (unit : P .unit) (unitStruct : ∀ name, P (.unitStruct name))
    (bool : ∀ b, P (.bool b)) (number : ∀ n, P (.number n)) (str : ∀ s, P (.str s)) (none : P .none)
    (some : ∀ v, P v → P (.some v)) (seq : ∀ xs, (∀ x ∈ xs, P x) → P (.seq xs))
    (tuple : ∀ xs, (∀ x ∈ xs, P x) → P (.tuple xs))
    (newtypeStruct : ∀ name v, P v → P (.newtypeStruct name v))
    (tupleStruct : ∀ name xs, (∀ x ∈ xs, P x) → P (.tupleStruct name xs))
    (struct : ∀ name m, (∀ e ∈ m, P e.2) → P (.struct name m))
    (map : ∀ m, (∀ e ∈ m, P e.2) → P (.map m))
    (unitVariant : ∀ name variant, P (.unitVariant name variant))
    (newtypeVariant : ∀ name variant v, P v → P (.newtypeVariant name variant v))
    (tupleVariant : ∀ name variant xs, (∀ x ∈ xs, P x) → P (.tupleVariant name variant xs))
    (structVariant : ∀ name variant m, (∀ e ∈ m, P e.2) → P (.structVariant name variant m))
    (d : Datum ν) : P d :=
  @Datum.rec _ P (fun xs => ∀ x ∈ xs, P x) (fun m => ∀ e ∈ m, P e.2) (fun e => P e.2)
    unit unitStruct bool number str none some seq tuple newtypeStruct tupleStruct struct map
    unitVariant newtypeVariant tupleVariant structVariant
    (fun _ h => nomatch h)
    (fun _ _ hx hxs => List.forall_mem_cons.mpr ⟨hx, hxs⟩)
    (fun _ h => nomatch h)
    (fun _ _ he hm => List.forall_mem_cons.mpr ⟨he, hm⟩)
    (fun _ _ hv => hv) d

mutual
/-- No struct or map of the tree has a member name twice. -/
def distinct : Datum ν → Bool
  | .some v | .newtypeStruct _ v | .newtypeVariant _ _ v => distinct v
  | .seq xs | .tuple xs | .tupleStruct _ xs | .tupleVariant _ _ xs => distinctItems xs
  | .struct _ m | .map m | .structVariant _ _ m =>
    decide (m.map Prod.fst).Nodup && distinctMembers m
  | _ => true

def distinctItems : List (Datum ν) → Bool
  | [] => true
  | x :: xs => distinct x && distinctItems xs

def distinctMembers : List (String × Datum ν) → Bool
  | [] => true
  | (_, v) :: m => distinct v && distinctMembers m
end

mutual
/-- No unit struct occurs in the tree. -/
def plain : Datum ν → Bool
  | .unitStruct _ => false
  | .some v | .newtypeStruct _ v | .newtypeVariant _ _ v => plain v
  | .seq xs | .tuple xs | .tupleStruct _ xs | .tupleVariant _ _ xs => plainItems xs
  | .struct _ m | .map m | .structVariant _ _ m => plainMembers m
  | _ => true

def plainItems : List (Datum ν) → Bool
  | [] => true
  | x :: xs => plain x && plainItems xs

def plainMembers : List (String × Datum ν) → Bool
  | [] => true
  | (_, v) :: m => plain v && plainMembers m
end

@[simp] theorem distinctItems_iff {xs : List (Datum ν)} :
    distinctItems xs = true ↔ ∀ x ∈ xs, x.distinct = true := by
  induction xs with
  | nil => simp [distinctItems]
  | cons x xs ih => simp only [distinctItems, Bool.and_eq_true, ih, List.forall_mem_cons]

@[simp] theorem distinctMembers_iff {m : List (String × Datum ν)} :
    distinctMembers m = true ↔ ∀ e ∈ m, e.2.distinct = true := by
  induction m with
  | nil => simp [distinctMembers]
  | cons e m ih => simp only [distinctMembers, Bool.and_eq_true, ih, List.forall_mem_cons]

@[simp] theorem plainItems_iff {xs : List (Datum ν)} :
    plainItems xs = true ↔ ∀ x ∈ xs, x.plain = true := by
  induction xs with
  | nil => simp [plainItems]
  | cons x xs ih => simp only [plainItems, Bool.and_eq_true, ih, List.forall_mem_cons]

@[simp] theorem plainMembers_iff {m : List (String × Datum ν)} :
    plainMembers m = true ↔ ∀ e ∈ m, e.2.plain = true := by
  induction m with
  | nil => simp [plainMembers]
  | cons e m ih => simp only [plainMembers, Bool.and_eq_true, ih, List.forall_mem_cons]

end Datum

/-! ### Serializers -/

/-- The methods of serde's `Serializer`, each with what it is called with. -/
structure Serializer (ν Ok : Type) where
  serializeUnit : Ok
  serializeUnitStruct (name : String) : Ok
  serializeBool (b : Bool) : Ok
  serializeNumber (n : ν) : Ok
  serializeStr (s : String) : Ok
  serializeNone : Ok
  serializeSome (value : Datum ν) : Ok
  serializeSeq (items : List (Datum ν)) : Ok
  serializeTuple (items : List (Datum ν)) : Ok
  serializeNewtypeStruct (name : String) (value : Datum ν) : Ok
  serializeTupleStruct (name : String) (items : List (Datum ν)) : Ok
  serializeStruct (name : String) (fields : List (String × Datum ν)) : Ok
  serializeMap (entries : List (String × Datum ν)) : Ok
  serializeUnitVariant (name variant : String) : Ok
  serializeNewtypeVariant (name variant : String) (value : Datum ν) : Ok
  serializeTupleVariant (name variant : String) (items : List (Datum ν)) : Ok
  serializeStructVariant (name variant : String) (fields : List (String × Datum ν)) : Ok

def Datum.serialize {Ok : Type} (serializer : Serializer ν Ok) : Datum ν → Ok
  | .unit => serializer.serializeUnit
  | .unitStruct name => serializer.serializeUnitStruct name
  | .bool b => serializer.serializeBool b
  | .number n => serializer.serializeNumber n
  | .str s => serializer.serializeStr s
  | .none => serializer.serializeNone
  | .some value => serializer.serializeSome value
  | .seq items => serializer.serializeSeq items
  | .tuple items => serializer.serializeTuple items
  | .newtypeStruct name value => serializer.serializeNewtypeStruct name value
  | .tupleStruct name items => serializer.serializeTupleStruct name items
  | .struct name fields => serializer.serializeStruct name fields
  | .map entries => serializer.serializeMap entries
  | .unitVariant name variant => serializer.serializeUnitVariant name variant
  | .newtypeVariant name variant value => serializer.serializeNewtypeVariant name variant value
  | .tupleVariant name variant items => serializer.serializeTupleVariant name variant items
  | .structVariant name variant fields => serializer.serializeStructVariant name variant fields

/-- The members of a JSON object in the order they are written; a later one replaces an earlier one. -/
def ofMembers {α : Type} (members : List (String × α)) : List (String × α) :=
  members.foldl (fun map e => Assoc.insert e.1 e.2 map) []

section Members
variable {α β : Type}

theorem get_foldl_insert_of_notMem {k : String} {m : List (String × α)} (h : k ∉ m.map Prod.fst)
    (acc : List (String × α)) :
    Assoc.get k (m.foldl (fun map e => Assoc.insert e.1 e.2 map) acc) = Assoc.get k acc := by
  induction m generalizing acc with
  | nil => rfl
  | cons e m ih =>
    simp only [List.map_cons, List.mem_cons, not_or] at h
    rw [List.foldl_cons, ih h.2, Assoc.get_insert_ne _ _ h.1]

/-- Under distinct names every member is kept. -/
theorem get_ofMembers {k : String} {v : α} {m : List (String × α)} (hm : (m.map Prod.fst).Nodup)
    (h : (k, v) ∈ m) : Assoc.get k (ofMembers m) = some v := by
  suffices ∀ acc, Assoc.get k (m.foldl (fun map e => Assoc.insert e.1 e.2 map) acc) = some v from
    this []
  induction m with
  | nil => cases h
  | cons e m ih =>
    intro acc
    obtain ⟨hhead, htail⟩ := List.nodup_cons.mp hm
    rw [List.foldl_cons]
    rcases List.mem_cons.mp h with rfl | h
    · rw [get_foldl_insert_of_notMem hhead, Assoc.get_insert_self]
    · exact ih htail h _

theorem get_ofMembers_eq (k : String) {m : List (String × α)} (hm : (m.map Prod.fst).Nodup) :
    Assoc.get k (ofMembers m) = Assoc.get k m := by
  cases h : Assoc.get k m with
  | some v => exact get_ofMembers hm (Assoc.mem_of_get h)
  | none =>
    have hk : k ∉ m.map Prod.fst := fun hmem => by simpa [h] using Assoc.mem_keys_iff.mp hmem
    exact get_foldl_insert_of_notMem hk []

theorem sorted_ofMembers (m : List (String × α)) : Assoc.Sorted (ofMembers m) := by
  suffices ∀ acc, Assoc.Sorted acc →
      Assoc.Sorted (m.foldl (fun map e => Assoc.insert e.1 e.2 map) acc) from this [] Assoc.sorted_nil
  induction m with
  | nil => exact fun acc hacc => hacc
  | cons e m ih => exact fun acc hacc => ih _ (Assoc.sorted_insert e.1 e.2 hacc)

theorem ofMembers_map_inj {f g : β → α} {m : List (String × β)} (hm : (m.map Prod.fst).Nodup) :
    ofMembers (m.map fun e => (e.1, f e.2)) = ofMembers (m.map fun e => (e.1, g e.2)) ↔
      ∀ e ∈ m, f e.2 = g e.2 := by
  have hkeys (f : β → α) : ((m.map fun e => (e.1, f e.2)).map Prod.fst).Nodup := by
    simpa only [List.map_map, Function.comp_def] using hm
  constructor
  · intro h e he
    have hf := get_ofMembers (hkeys f) (List.mem_map_of_mem he)
    have hg := get_ofMembers (hkeys g) (List.mem_map_of_mem he)
    rw [h, hg] at hf
    exact (Option.some.inj hf).symm
  · intro h
    rw [List.map_congr_left fun e he => by rw [h e he]]

theorem map_insert (f : α → β) (key : String) (a : α) (m : List (String × α)) :
    (Assoc.insert key a m).map (fun e => (e.1, f e.2)) = Assoc.insert key (f a) (m.map fun e => (e.1, f e.2)) := by
  induction m with
  | nil => rfl
  | cons e m ih =>
    obtain ⟨key', b⟩ := e
    simp only [Assoc.insert, List.map_cons]
    split
    · rfl
    · split
      · rfl
      · rw [List.map_cons, ih]

theorem ofMembers_map (f : α → β) (m : List (String × α)) :
    ofMembers (m.map fun e => (e.1, f e.2)) = (ofMembers m).map fun e => (e.1, f e.2) := by
  suffices h : ∀ acc : List (String × α),
      (m.map fun e => (e.1, f e.2)).foldl (fun map e => Assoc.insert e.1 e.2 map) (acc.map fun e => (e.1, f e.2)) =
        (m.foldl (fun map e => Assoc.insert e.1 e.2 map) acc).map fun e => (e.1, f e.2) from h []
  induction m with
  | nil => exact fun _ => rfl
  | cons e m ih =>
    intro acc
    rw [List.foldl_cons, ← ih, map_insert, List.map_cons, List.foldl_cons]

theorem mem_of_ofMembers {m : List (String × α)} {e : String × α} (h : e ∈ ofMembers m) : e ∈ m := by
  suffices ∀ acc : List (String × α), e ∈ m.foldl (fun map e => Assoc.insert e.1 e.2 map) acc → e ∈ acc ∨ e ∈ m from
    (this [] h).resolve_left List.not_mem_nil
  clear h
  induction m with
  | nil => exact fun acc h => .inl h
  | cons d m ih =>
    intro acc h
    rcases ih _ h with h | h
    · rcases Assoc.mem_insert h with rfl | h
      · exact .inr (List.mem_cons_self ..)
      · exact .inl h
    · exact .inr (List.mem_cons_of_mem _ h)

/-- Members in the order of their names are written as they are. -/
theorem ofMembers_eq_self {m : List (String × α)} (h : Assoc.Sorted m) : ofMembers m = m := by
  refine Assoc.ext (sorted_ofMembers _) h fun key => get_ofMembers_eq key ?_
  exact List.pairwise_map.mpr (h.imp fun hlt => hlt.ne)

theorem ofMembers_idem (m : List (String × α)) : ofMembers (ofMembers m) = ofMembers m :=
  ofMembers_eq_self (sorted_ofMembers m)

end Members

/-- What the server reads where a unit struct was written. -/
def unitStructValue : Format → Value ν
  | .json => .null
  | .messagePack => .array []

section Wire
variable (format : Format)

mutual
/-- The JSON value that the server reads from the encoding of a value. -/
def wireValue : Datum ν → Value ν
  | .unit | .none => .null
  | .unitStruct _ => unitStructValue format
  | .bool b => .bool b
  | .number n => .number n
  | .str s => .string s
  | .some value | .newtypeStruct _ value => wireValue value
  | .seq items | .tuple items | .tupleStruct _ items => .array (wireItems items)
  | .struct _ members | .map members => .object (ofMembers (wireMembers members))
  | .unitVariant _ variant => .string variant
  | .newtypeVariant _ variant value => .object [(variant, wireValue value)]
  | .tupleVariant _ variant items => .object [(variant, .array (wireItems items))]
  | .structVariant _ variant fields => .object [(variant, .object (ofMembers (wireMembers fields)))]

def wireItems : List (Datum ν) → List (Value ν)
  | [] => []
  | item :: items => wireValue item :: wireItems items

def wireMembers : List (String × Datum ν) → List (String × Value ν)
  | [] => []
  | (key, value) :: members => (key, wireValue value) :: wireMembers members
end

/-- The serializer of a format, by what the server reads. -/
def formatSerializer : Serializer ν (Value ν) where
  serializeUnit := .null
  serializeUnitStruct _ := unitStructValue format
  serializeBool b := .bool b
  serializeNumber n := .number n
  serializeStr s := .string s
  serializeNone := .null
  serializeSome value := wireValue format value
  serializeSeq items := .array (wireItems format items)
  serializeTuple items := .array (wireItems format items)
  serializeNewtypeStruct _ value := wireValue format value
  serializeTupleStruct _ items := .array (wireItems format items)
  serializeStruct _ fields := .object (ofMembers (wireMembers format fields))
  serializeMap entries := .object (ofMembers (wireMembers format entries))
  serializeUnitVariant _ variant := .string variant
  serializeNewtypeVariant _ variant value := .object [(variant, wireValue format value)]
  serializeTupleVariant _ variant items := .object [(variant, .array (wireItems format items))]
  serializeStructVariant _ variant fields :=
    .object [(variant, .object (ofMembers (wireMembers format fields)))]

theorem serialize_formatSerializer (d : Datum ν) :
    d.serialize (formatSerializer format) = wireValue format d := by
  cases d <;> simp only [Datum.serialize, formatSerializer, wireValue]

theorem wireItems_eq (xs : List (Datum ν)) : wireItems format xs = xs.map (wireValue format) := by
  induction xs with
  | nil => rfl
  | cons x xs ih => rw [wireItems, ih, List.map_cons]

theorem wireMembers_eq (m : List (String × Datum ν)) :
    wireMembers format m = m.map fun e => (e.1, wireValue format e.2) := by
  induction m with
  | nil => rfl
  | cons e m ih => rw [wireMembers, ih, List.map_cons]

/-- A member of an object is read back under its name. -/
theorem get_wireMembers (k : String) {m : List (String × Datum ν)} (hm : (m.map Prod.fst).Nodup) :
    Assoc.get k (ofMembers (wireMembers format m)) = (Assoc.get k m).map (wireValue format) := by
  have hkeys : ((m.map fun e => (e.1, wireValue format e.2)).map Prod.fst).Nodup := by
    simpa only [List.map_map, Function.comp_def] using hm
  rw [wireMembers_eq, get_ofMembers_eq k hkeys, Assoc.get_map]

theorem ordered_ofMembers {m : List (String × Value ν)} (h : ∀ e ∈ m, e.2.ordered = true) :
    (Value.object (ofMembers m)).ordered = true :=
  Value.ordered_object.mpr ⟨sorted_ofMembers m, fun e he => h e (mem_of_ofMembers he)⟩

theorem ordered_wireValue (d : Datum ν) : (wireValue format d).ordered = true := by
  have hitems {xs : List (Datum ν)} (ih : ∀ x ∈ xs, (wireValue format x).ordered = true) :
      (Value.array (wireItems format xs)).ordered = true := by
    rw [wireItems_eq, Value.ordered_array]
    exact List.forall_mem_map.mpr ih
  have hmembers {m : List (String × Datum ν)} (ih : ∀ e ∈ m, (wireValue format e.2).ordered = true) :
      (Value.object (ofMembers (wireMembers format m))).ordered = true := by
    rw [wireMembers_eq]
    exact ordered_ofMembers (List.forall_mem_map.mpr ih)
  have hvariant (variant : String) {v : Value ν} (hv : v.ordered = true) :
      (Value.object [(variant, v)]).ordered = true :=
    Value.ordered_object.mpr ⟨List.pairwise_singleton .., List.forall_mem_singleton.mpr hv⟩
  induction d with
  | unit | bool | number | str | none | unitVariant => rfl
  | unitStruct name => cases format <;> rfl
  | some v ih | newtypeStruct name v ih => exact ih
  | newtypeVariant name variant v ih => exact hvariant variant ih
  | seq xs ih | tuple xs ih | tupleStruct name xs ih => exact hitems ih
  | tupleVariant name variant xs ih => exact hvariant variant (hitems ih)
  | struct name m ih | map m ih => exact hmembers ih
  | structVariant name variant m ih => exact hvariant variant (hmembers ih)

end Wire

theorem wireItems_format_iff {xs : List (Datum ν)}
    (h : ∀ x ∈ xs, wireValue .json x = wireValue .messagePack x ↔ x.plain = true) :
    wireItems .json xs = wireItems .messagePack xs ↔ Datum.plainItems xs = true := by
  rw [wireItems_eq, wireItems_eq, List.map_inj_left, Datum.plainItems_iff]
  exact forall₂_congr h

theorem wireMembers_format_iff {m : List (String × Datum ν)} (hm : (m.map Prod.fst).Nodup)
    (h : ∀ e ∈ m, wireValue .json e.2 = wireValue .messagePack e.2 ↔ e.2.plain = true) :
    ofMembers (wireMembers .json m) = ofMembers (wireMembers .messagePack m) ↔
      Datum.plainMembers m = true := by
  rw [wireMembers_eq, wireMembers_eq, ofMembers_map_inj hm, Datum.plainMembers_iff]
  exact forall₂_congr h

/-- Without the wrapper the formats differ at every unit struct, and nowhere else. -/
theorem wireValue_format_iff {d : Datum ν} (hd : d.distinct = true) :
    wireValue .json d = wireValue .messagePack d ↔ d.plain = true := by
  induction d with
  | unit | bool | number | str | none | unitVariant => simp only [wireValue, Datum.plain]
  | unitStruct name => simp [wireValue, unitStructValue, Datum.plain]
  | some v ih | newtypeStruct name v ih =>
    simp only [wireValue, Datum.plain]
    exact ih (by simpa only [Datum.distinct] using hd)
  | newtypeVariant name variant v ih =>
    simpa [wireValue, Datum.plain] using ih (by simpa only [Datum.distinct] using hd)
  | seq xs ih | tuple xs ih | tupleStruct name xs ih | tupleVariant name variant xs ih =>
    simp only [Datum.distinct, Datum.distinctItems_iff] at hd
    have hitems := wireItems_format_iff fun x hx => ih x hx (hd x hx)
    simpa [wireValue, Datum.plain] using hitems
  | struct name m ih | map m ih | structVariant name variant m ih =>
    simp only [Datum.distinct, Bool.and_eq_true, decide_eq_true_eq, Datum.distinctMembers_iff] at hd
    have hmembers := wireMembers_format_iff hd.1 fun e he => ih e he (hd.2 e he)
    simpa [wireValue, Datum.plain] using hmembers

end Zizq.Client
