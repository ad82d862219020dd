import Mathlib.Data.List.Sort
import Zizq.Data.Delimited
import Zizq.Json.Value

/-! The canonical encoding of a JSON value.

`writeCanonical` is the text that `write_canonical` streams into the hasher: the
members of an object in key order, the items of an array as they come, scalars as
their JSON tokens. Here an object may list its members in any order, each key
once (`Unordered`), since the encoder sorts them itself. Two values have the same
text exactly when they differ in nothing but that order (`Same`). -/
namespace Zizq.Key
open Data Value
variable {ν : Type}

/-- The tokens that `serde_json` renders for strings and numbers. -/
structure Tokens (ν : Type) where
  string : String → List Char
  number : ν → List Char

def isNumeric (c : Char) : Bool := c.isDigit || ['-', '+', '.', 'e', 'E'].contains c

/-- What is relied on of the tokens: they are JSON tokens, and injective. -/
structure Tokens.Lawful (tokens : Tokens ν) : Prop where
  quoted : ∀ s, ∃ body, tokens.string s = '"' :: (body ++ ['"']) ∧ Delimited.Escaped '\\' '"' body
  string_injective : tokens.string.Injective
  numeric : ∀ n, ∀ c ∈ tokens.number n, isNumeric c = true
  number_nonempty : ∀ n, tokens.number n ≠ []
  number_injective : tokens.number.Injective

def sortByKey {α : Type} (members : List (String × α)) : List (String × α) :=
  members.insertionSort fun a b => a.1 ≤ b.1

section Write
variable (tokens : Tokens ν)

mutual
def writeCanonical : Value ν → List Char
  | .object map =>
    -- sorting the members with their texts is sorting the keys: no key comes twice
    '{' :: (Delimited.separated ','
      ((sortByKey (memberTexts map)).map fun e => tokens.string e.1 ++ ':' :: e.2) ++ ['}'])
  | .array items => '[' :: (Delimited.separated ',' (itemTexts items) ++ [']'])
  | .null => "null".toList
  | .bool true => "true".toList
  | .bool false => "false".toList
  | .number n => tokens.number n
  | .string s => tokens.string s

def itemTexts : List (Value ν) → List (List Char)
  | [] => []
  | item :: items => writeCanonical item :: itemTexts items

def memberTexts : List (String × Value ν) → List (String × List Char)
  | [] => []
  | (key, value) :: map => (key, writeCanonical value) :: memberTexts map
end

end Write

/-! ### Values up to member order -/

mutual
/-- Every object of the tree has each of its keys once. -/
def distinct : Value ν → Bool
  | .array xs => distinctItems xs
  | .object m => decide ((m.map Prod.fst).Nodup) && distinctMembers m
  | _ => true

def distinctItems : List (Value ν) → Bool
  | [] => true
  | x :: xs => distinct x && distinctItems xs

def distinctMembers : List (String × Value ν) → Bool
  | [] => true
  | (_, v) :: m => distinct v && distinctMembers m
end

/-- A JSON value whose objects list their members in any order. -/
structure Unordered (ν : Type) where
  value : Value ν
  distinct : distinct value = true

/-- Equal up to the order of object members. -/
inductive Same : Value ν → Value ν → Prop where
  | null : Same .null .null
  | bool (b : Bool) : Same (.bool b) (.bool b)
  | number (n : ν) : Same (.number n) (.number n)
  | string (s : String) : Same (.string s) (.string s)
  | array {xs ys : List (Value ν)} (hlen : xs.length = ys.length)
      (hitem : ∀ (i : Nat) (x y : Value ν), xs[i]? = some x → ys[i]? = some y → Same x y) :
      Same (.array xs) (.array ys)
  | object {m m' : List (String × Value ν)}
      (hkey : ∀ k, (Assoc.get k m).isSome = (Assoc.get k m').isSome)
      (hmember : ∀ k v v', Assoc.get k m = some v → Assoc.get k m' = some v' → Same v v') :
      Same (.object m) (.object m')

theorem distinct_array {xs : List (Value ν)} :
    distinct (.array xs) = true ↔ ∀ x ∈ xs, distinct x = true := by
  rw [distinct]
  induction xs with
  | nil => simp [distinctItems]
  | cons x xs ih => simp [distinctItems, ih]

theorem distinct_object {m : List (String × Value ν)} :
    distinct (.object m) = true ↔ (m.map Prod.fst).Nodup ∧ ∀ e ∈ m, distinct e.2 = true := by
  have hm : distinctMembers m = true ↔ ∀ e ∈ m, distinct e.2 = true := by
    induction m with
    | nil => simp [distinctMembers]
    | cons e m ih => simp only [distinctMembers, Bool.and_eq_true, ih, List.forall_mem_cons]
  simp [distinct, hm]

theorem distinct_of_ordered {v : Value ν} (h : v.ordered = true) : distinct v = true := by
  induction v with
  | array xs ih => exact distinct_array.mpr fun x hx => ih x hx (ordered_array.mp h x hx)
  | object m ih =>
    obtain ⟨hsorted, hmembers⟩ := ordered_object.mp h
    refine distinct_object.mpr ⟨?_, fun e he => ih e he (hmembers e he)⟩
    exact List.pairwise_map.mpr (hsorted.imp fun hlt => hlt.ne)
  | _ => rfl

/-- Values whose objects are maps differ in no order. -/
theorem Same.eq {v w : Value ν} (h : Same v w) (hv : v.ordered = true) (hw : w.ordered = true) :
    v = w := by
  induction h with
  | @array xs ys hlen hitem ih =>
    refine congrArg Value.array (List.ext_getElem hlen fun i hi hi' => ?_)
    have hx := List.getElem?_eq_getElem hi
    have hy := List.getElem?_eq_getElem hi'
    exact ih i _ _ hx hy (ordered_item hv hx) (ordered_item hw hy)
  | @object m m' hkey hmember ih =>
    refine congrArg Value.object
      (Assoc.ext (ordered_object.mp hv).1 (ordered_object.mp hw).1 fun k => ?_)
    have hk := hkey k
    cases hg : Assoc.get k m with
    | none => cases hg' : Assoc.get k m' <;> simp_all
    | some x =>
      cases hg' : Assoc.get k m' with
      | none => simp [hg, hg'] at hk
      | some y => rw [ih k x y hg hg' (ordered_get hv hg) (ordered_get hw hg')]
  | _ => rfl

/-! ### Sorting members -/

section Sorting
variable {α β : Type}

theorem sortByKey_perm (m : List (String × α)) : (sortByKey m).Perm m :=
  List.perm_insertionSort _ m

theorem sortByKey_map (f : α → β) (m : List (String × α)) :
    sortByKey (m.map fun e => (e.1, f e.2)) = (sortByKey m).map fun e => (e.1, f e.2) :=
  (List.map_insertionSort (fun a b : String × α => a.1 ≤ b.1) (fun a b : String × β => a.1 ≤ b.1)
    (fun e => (e.1, f e.2)) m fun _ _ _ _ => Iff.rfl).symm

theorem sortByKey_sorted {m : List (String × α)} (h : (m.map Prod.fst).Nodup) :
    Assoc.Sorted (sortByKey m) := by
  have hle : (sortByKey m).Pairwise fun a b => a.1 ≤ b.1 := List.pairwise_insertionSort _ m
  have hne : (sortByKey m).Pairwise fun a b => a.1 ≠ b.1 :=
    List.pairwise_map.mp (((sortByKey_perm m).map Prod.fst).nodup_iff.mpr h)
  exact (hle.and hne).imp fun ⟨hle, hne⟩ => lt_of_le_of_ne hle hne

theorem get_of_perm {m m' : List (String × α)} (hperm : m.Perm m') (hm : (m.map Prod.fst).Nodup)
    (k : String) : Assoc.get k m = Assoc.get k m' := by
  induction hperm with
  | nil => rfl
  | cons e _ ih =>
    obtain ⟨j, v⟩ := e
    rw [Assoc.get_cons, Assoc.get_cons, ih (List.nodup_cons.mp hm).2]
  | swap a b m =>
    obtain ⟨i, v⟩ := a
    obtain ⟨j, w⟩ := b
    have hij : j ≠ i := by
      have := (List.nodup_cons.mp hm).1
      simp only [List.map_cons, List.mem_cons, not_or] at this
      exact this.1
    simp only [Assoc.get_cons]
    by_cases hki : k = i
    · simp [hki, hij.symm]
    · simp [hki]
  | trans h₁ _ ih₁ ih₂ => rw [ih₁ hm, ih₂ ((h₁.map Prod.fst).nodup_iff.mp hm)]

theorem get_sortByKey {m : List (String × α)} (h : (m.map Prod.fst).Nodup) (k : String) :
    Assoc.get k (sortByKey m) = Assoc.get k m :=
  (get_of_perm (sortByKey_perm m).symm h k).symm

theorem get_map (f : α → β) (m : List (String × α)) (k : String) :
    Assoc.get k (m.map fun e => (e.1, f e.2)) = (Assoc.get k m).map f := by
  induction m with
  | nil => rfl
  | cons e m ih =>
    obtain ⟨j, v⟩ := e
    rw [List.map_cons, Assoc.get_cons, Assoc.get_cons, ih]
    split <;> rfl

end Sorting

/-! ### The text determines the value -/

section Text
variable (tokens : Tokens ν)

theorem itemTexts_eq (xs : List (Value ν)) : itemTexts tokens xs = xs.map (writeCanonical tokens) := by
  induction xs with
  | nil => rfl
  | cons x xs ih => rw [itemTexts, ih, List.map_cons]

theorem memberTexts_eq (m : List (String × Value ν)) :
    memberTexts tokens m = m.map fun e => (e.1, writeCanonical tokens e.2) := by
  induction m with
  | nil => rfl
  | cons e m ih =>
    obtain ⟨k, v⟩ := e
    rw [memberTexts, ih, List.map_cons]

theorem writeCanonical_same {v w : Value ν} (hv : distinct v = true) (hw : distinct w = true)
    (h : Same v w) : writeCanonical tokens v = writeCanonical tokens w := by
  induction h with
  | @array xs ys hlen hitem ih =>
    have htexts : itemTexts tokens xs = itemTexts tokens ys := by
      rw [itemTexts_eq, itemTexts_eq]
      refine List.ext_getElem (by simp [hlen]) fun i hi hi' => ?_
      rw [List.length_map] at hi hi'
      rw [List.getElem_map, List.getElem_map]
      exact ih i _ _ (List.getElem?_eq_getElem hi) (List.getElem?_eq_getElem hi')
        (distinct_array.mp hv _ (List.getElem_mem hi)) (distinct_array.mp hw _ (List.getElem_mem hi'))
    rw [writeCanonical, writeCanonical, htexts]
  | @object m m' hkey hmember ih =>
    obtain ⟨hnodup, hmembers⟩ := distinct_object.mp hv
    obtain ⟨hnodup', hmembers'⟩ := distinct_object.mp hw
    have hfst (m : List (String × Value ν)) :
        (memberTexts tokens m).map Prod.fst = m.map Prod.fst := by
      rw [memberTexts_eq, List.map_map]
      rfl
    have htexts : sortByKey (memberTexts tokens m) = sortByKey (memberTexts tokens m') := by
      refine Assoc.ext (sortByKey_sorted (hfst m ▸ hnodup)) (sortByKey_sorted (hfst m' ▸ hnodup'))
        fun k => ?_
      rw [get_sortByKey (hfst m ▸ hnodup), get_sortByKey (hfst m' ▸ hnodup'), memberTexts_eq,
        memberTexts_eq, get_map, get_map]
      have hk := hkey k
      cases hg : Assoc.get k m with
      | none => cases hg' : Assoc.get k m' <;> simp_all
      | some x =>
        cases hg' : Assoc.get k m' with
        | none => simp [hg, hg'] at hk
        | some y =>
          rw [Option.map_some, Option.map_some, ih k x y hg hg' (hmembers _ (Assoc.mem_of_get hg))
            (hmembers' _ (Assoc.mem_of_get hg'))]
    rw [writeCanonical, writeCanonical, htexts]
  | _ => rfl

variable {tokens} (ht : tokens.Lawful)
include ht

/-- The symbols that can follow a value. -/
def Ends (c : Char) : Prop := c = ',' ∨ c = ':' ∨ c = ']' ∨ c = '}'

theorem reads_string (s s' : String) :
    Delimited.Reads Ends (tokens.string s) (tokens.string s') (s = s') := by
  intro r r' _ _ heq
  obtain ⟨body, hbody, hescaped⟩ := ht.quoted s
  obtain ⟨body', hbody', hescaped'⟩ := ht.quoted s'
  rw [hbody, hbody'] at heq
  simp only [List.cons_append, List.append_assoc, List.nil_append, List.cons.injEq, true_and] at heq
  obtain ⟨hsame, hr⟩ := Delimited.escaped_cut (by decide) hescaped hescaped' heq
  exact ⟨ht.string_injective (by rw [hbody, hbody', hsame]), hr⟩

theorem reads_number (n n' : ν) :
    Delimited.Reads Ends (tokens.number n) (tokens.number n') (n = n') := by
  refine (Delimited.reads_class (C := fun c => isNumeric c = true) ?_ (ht.numeric n)
    (ht.numeric n')).imp fun h => ht.number_injective h
  rintro c (rfl | rfl | rfl | rfl) <;> decide

/-- The first symbol of a text tells what kind of value it is. -/
inductive Lead where
  | null | true | false | string | array | object | number
deriving DecidableEq

omit ht in
def leadOf (c : Char) : Lead :=
  if c = 'n' then .null else if c = 't' then .true else if c = 'f' then .false
  else if c = '"' then .string else if c = '[' then .array else if c = '{' then .object else .number

omit ht in
def lead : Value ν → Lead
  | .null => .null
  | .bool true => .true
  | .bool false => .false
  | .number _ => .number
  | .string _ => .string
  | .array _ => .array
  | .object _ => .object

omit ht in
theorem leadOf_numeric {c : Char} (h : isNumeric c = true) : leadOf c = .number := by
  have hne (d : Char) (hd : isNumeric d = false) : c ≠ d := by
    rintro rfl
    rw [h] at hd
    cases hd
  simp only [leadOf, hne 'n' (by decide), hne 't' (by decide), hne 'f' (by decide),
    hne '"' (by decide), hne '[' (by decide), hne '{' (by decide), if_false]

theorem writeCanonical_lead (v : Value ν) :
    ∃ c ∈ (writeCanonical tokens v).head?, leadOf c = lead v ∧ ¬ Ends c := by
  cases v with
  | null => exact ⟨'n', rfl, rfl, by simp [Ends]⟩
  | bool b =>
    cases b with
    | false => exact ⟨'f', rfl, rfl, by simp [Ends]⟩
    | true => exact ⟨'t', rfl, rfl, by simp [Ends]⟩
  | number n =>
    obtain ⟨c, text, htext⟩ := List.exists_cons_of_ne_nil (ht.number_nonempty n)
    have hc := ht.numeric n c (by rw [htext]; exact List.mem_cons_self ..)
    refine ⟨c, by rw [writeCanonical, htext]; rfl, leadOf_numeric hc, ?_⟩
    rintro (rfl | rfl | rfl | rfl) <;> exact absurd hc (by decide)
  | string s =>
    obtain ⟨body, hbody, -⟩ := ht.quoted s
    exact ⟨'"', by rw [writeCanonical, hbody]; rfl, rfl, by simp [Ends]⟩
  | array xs => exact ⟨'[', by rw [writeCanonical]; rfl, rfl, by simp [Ends]⟩
  | object m => exact ⟨'{', by rw [writeCanonical]; rfl, rfl, by simp [Ends]⟩

theorem lead_eq {v w : Value ν} {r r' : List Char}
    (heq : writeCanonical tokens v ++ r = writeCanonical tokens w ++ r') : lead v = lead w := by
  obtain ⟨c, hc, hlead, -⟩ := writeCanonical_lead ht v
  obtain ⟨d, hd, hlead', -⟩ := writeCanonical_lead ht w
  obtain ⟨t, ht⟩ := List.head?_eq_some_iff.mp hc
  obtain ⟨t', ht'⟩ := List.head?_eq_some_iff.mp hd
  rw [ht, ht'] at heq
  rw [← hlead, ← hlead', (List.cons.inj heq).1]

omit ht in
theorem same_of_forall₂ {m m' : List (String × Value ν)}
    (h : List.Forall₂ (fun e e' => e.1 = e'.1 ∧ Same e.2 e'.2) m m') (k : String) :
    (Assoc.get k m).isSome = (Assoc.get k m').isSome ∧
      ∀ v v', Assoc.get k m = some v → Assoc.get k m' = some v' → Same v v' := by
  induction h with
  | nil => exact ⟨rfl, fun v v' hv => nomatch hv⟩
  | @cons e e' m m' hhead _ ih =>
    obtain ⟨j, v⟩ := e
    obtain ⟨j', v'⟩ := e'
    obtain ⟨rfl, hsame⟩ := hhead
    rw [Assoc.get_cons, Assoc.get_cons]
    by_cases hk : k = j
    · rw [if_pos hk, if_pos hk]
      refine ⟨rfl, fun w w' hw hw' => ?_⟩
      rw [← Option.some.inj hw, ← Option.some.inj hw']
      exact hsame
    · rw [if_neg hk, if_neg hk]
      exact ih

theorem reads_member {k k' : String} {v v' : Value ν}
    (h : Delimited.Reads Ends (writeCanonical tokens v) (writeCanonical tokens v') (Same v v')) :
    Delimited.Reads Ends (tokens.string k ++ ':' :: writeCanonical tokens v)
      (tokens.string k' ++ ':' :: writeCanonical tokens v') (k = k' ∧ Same v v') := by
  intro r r' hr hr' heq
  rw [List.append_assoc, List.append_assoc] at heq
  obtain ⟨hk, hrest⟩ := reads_string ht k k' _ _ (Delimited.stops_cons (.inr (.inl rfl)) _)
    (Delimited.stops_cons (.inr (.inl rfl)) _) heq
  obtain ⟨hsame, hr⟩ := h r r' hr hr' (List.cons.inj hrest).2
  exact ⟨⟨hk, hsame⟩, hr⟩

theorem reads_array {xs ys : List (Value ν)}
    (hread : ∀ x ∈ xs, ∀ y ∈ ys,
      Delimited.Reads Ends (writeCanonical tokens x) (writeCanonical tokens y) (Same x y)) {r r' : List Char}
    (heq : writeCanonical tokens (.array xs) ++ r = writeCanonical tokens (.array ys) ++ r') :
    Same (.array xs) (.array ys) ∧ r = r' := by
  have hopens (x : Value ν) : ∃ c ∈ (writeCanonical tokens x).head?, c ≠ ']' := by
    obtain ⟨c, hc, -, hne⟩ := writeCanonical_lead ht x
    exact ⟨c, hc, fun h => hne (.inr (.inr (.inl h)))⟩
  simp only [writeCanonical, itemTexts_eq, List.cons_append, List.append_assoc, List.nil_append,
    List.cons.injEq, true_and] at heq
  obtain ⟨hitems, hr⟩ := Delimited.reads_separated (.inl rfl) (.inr (.inr (.inl rfl))) (by decide)
    hopens hopens hread heq
  refine ⟨.array hitems.length_eq fun i x y hx hy => ?_, hr⟩
  obtain ⟨hi, rfl⟩ := List.getElem?_eq_some_iff.mp hx
  obtain ⟨hi', rfl⟩ := List.getElem?_eq_some_iff.mp hy
  exact (List.forall₂_iff_get.mp hitems).2 i hi hi'

theorem reads_object {m m' : List (String × Value ν)} (hnodup : (m.map Prod.fst).Nodup)
    (hnodup' : (m'.map Prod.fst).Nodup)
    (hread : ∀ e ∈ m, ∀ e' ∈ m',
      Delimited.Reads Ends (writeCanonical tokens e.2) (writeCanonical tokens e'.2) (Same e.2 e'.2))
    {r r' : List Char}
    (heq : writeCanonical tokens (.object m) ++ r = writeCanonical tokens (.object m') ++ r') :
    Same (.object m) (.object m') ∧ r = r' := by
  have hopens (e : String × Value ν) :
      ∃ c ∈ (tokens.string e.1 ++ ':' :: writeCanonical tokens e.2).head?, c ≠ '}' := by
    obtain ⟨body, hbody, -⟩ := ht.quoted e.1
    exact ⟨'"', by rw [hbody]; rfl, by decide⟩
  simp only [writeCanonical, memberTexts_eq, sortByKey_map, List.map_map, List.cons_append,
    List.append_assoc, List.nil_append, List.cons.injEq, true_and] at heq
  have hmember : ∀ e ∈ sortByKey m, ∀ e' ∈ sortByKey m',
      Delimited.Reads Ends (writeCanonical tokens e.2) (writeCanonical tokens e'.2) (Same e.2 e'.2) :=
    fun e he e' he' => hread e ((sortByKey_perm m).mem_iff.mp he) e' ((sortByKey_perm m').mem_iff.mp he')
  obtain ⟨hsorted, hr⟩ := Delimited.reads_separated (.inl rfl) (.inr (.inr (.inr rfl))) (by decide)
    hopens hopens (fun e he e' he' => reads_member ht (hmember e he e' he')) heq
  have hsame (k : String) := same_of_forall₂ hsorted k
  simp only [get_sortByKey hnodup, get_sortByKey hnodup'] at hsame
  exact ⟨.object (fun k => (hsame k).1) fun k => (hsame k).2, hr⟩

/-- The text of a value can be cut off wherever it stands, and determines the value. -/
theorem reads_writeCanonical {v w : Value ν} (hv : distinct v = true) (hw : distinct w = true) :
    Delimited.Reads Ends (writeCanonical tokens v) (writeCanonical tokens w) (Same v w) := by
  induction v generalizing w with
  | null =>
    intro r r' _ _ heq
    cases w with
    | null => exact ⟨.null, List.append_cancel_left heq⟩
    | bool b => cases b <;> exact nomatch lead_eq ht heq
    | _ => exact nomatch lead_eq ht heq
  | bool b =>
    intro r r' _ _ heq
    cases w with
    | bool b' =>
      obtain rfl : b = b' := by
        have := lead_eq ht heq
        cases b <;> cases b' <;> first | rfl | cases this
      exact ⟨.bool b, List.append_cancel_left heq⟩
    | _ => cases b <;> exact nomatch lead_eq ht heq
  | number n =>
    intro r r' hr hr' heq
    cases w with
    | number n' =>
      rw [writeCanonical, writeCanonical] at heq
      obtain ⟨rfl, hrest⟩ := reads_number ht n n' r r' hr hr' heq
      exact ⟨.number n, hrest⟩
    | bool b => cases b <;> exact nomatch lead_eq ht heq
    | _ => exact nomatch lead_eq ht heq
  | string s =>
    intro r r' hr hr' heq
    cases w with
    | string s' =>
      rw [writeCanonical, writeCanonical] at heq
      obtain ⟨rfl, hrest⟩ := reads_string ht s s' r r' hr hr' heq
      exact ⟨.string s, hrest⟩
    | bool b => cases b <;> exact nomatch lead_eq ht heq
    | _ => exact nomatch lead_eq ht heq
  | array xs ih =>
    intro r r' _ _ heq
    cases w with
    | array ys =>
      exact reads_array ht (fun x hx y hy =>
        ih x hx (distinct_array.mp hv x hx) (distinct_array.mp hw y hy)) heq
    | bool b => cases b <;> exact nomatch lead_eq ht heq
    | _ => exact nomatch lead_eq ht heq
  | object m ih =>
    intro r r' _ _ heq
    cases w with
    | object m' =>
      obtain ⟨hnodup, hmembers⟩ := distinct_object.mp hv
      obtain ⟨hnodup', hmembers'⟩ := distinct_object.mp hw
      exact reads_object ht hnodup hnodup' (fun e he e' he' =>
        ih e he (hmembers e he) (hmembers' e' he')) heq
    | bool b => cases b <;> exact nomatch lead_eq ht heq
    | _ => exact nomatch lead_eq ht heq

/-- **Main theorem.** Two values have the same canonical text exactly when they are the same
up to the order of object members. -/
theorem writeCanonical_inj {v w : Value ν} (hv : distinct v = true) (hw : distinct w = true) :
    writeCanonical tokens v = writeCanonical tokens w ↔ Same v w :=
  ⟨(reads_writeCanonical ht hv hw).of_eq, writeCanonical_same tokens hv hw⟩

end Text

end Zizq.Key
