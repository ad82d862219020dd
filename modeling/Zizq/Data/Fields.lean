import Mathlib.Data.List.Perm.Basic
import Mathlib.Data.List.Sigma

/-! Records that are read off keyed items.

A reader tells of an item which field it is for, and reads what it says of the field.
The items are read in order, and a field can be read once. So a list is collected
exactly if each item reads an entry and no two entries are of one field
(`collect_eq_ok_iff`), and what is collected for the fields does not depend on the order
of the items (`Reader.slots_eq_ok_iff`). Two readers with items of their own can work
through one list side by side (`foldlM_beside_eq_ok_iff`). -/
namespace Zizq.Data.Fields
universe u v w x y z
variable {ι : Type u} {κ : Type v} {ν : κ → Type w} {ε : Type x}

structure Reader (ι : Type u) (κ : Type v) (ν : κ → Type w) (ε : Type x) where
  field (item : ι) : Except ε κ
  /-- What is said of an item for a field that was read before. -/
  taken (k : κ) (item : ι) : ε
  value (k : κ) (item : ι) : Except ε (ν k)

theorem bind_eq_ok_iff {α β : Type y} {x : Except ε α} {f : α → Except ε β} {b : β} :
    x >>= f = .ok b ↔ ∃ a, x = .ok a ∧ f a = .ok b := by
  cases x with
  | error e =>
    constructor
    · intro h
      cases h
    · intro h
      obtain ⟨_, h, _⟩ := h
      cases h
  | ok a =>
    constructor
    · intro h
      exact ⟨a, rfl, h⟩
    · intro h
      obtain ⟨_, heq, hf⟩ := h
      cases heq
      exact hf

theorem map_eq_ok_iff {α : Type y} {β : Type z} {x : Except ε α} {f : α → β} {b : β} :
    x.map f = .ok b ↔ ∃ a, x = .ok a ∧ f a = b := by
  cases x with
  | error e =>
    constructor
    · intro h
      cases h
    · intro h
      obtain ⟨_, h, _⟩ := h
      cases h
  | ok a =>
    constructor
    · intro h
      exact ⟨a, rfl, Except.ok.inj h⟩
    · intro h
      obtain ⟨_, heq, rfl⟩ := h
      cases heq
      rfl

theorem mapM_eq_ok_iff {α : Type y} {β : Type x} {f : α → Except ε β} {as : List α} {bs : List β} :
    as.mapM f = .ok bs ↔ List.Forall₂ (fun a b => f a = .ok b) as bs := by
  induction as generalizing bs with
  | nil =>
    rw [List.mapM_nil, List.forall₂_nil_left_iff]
    constructor
    · intro h
      exact (Except.ok.inj h).symm
    · intro h
      exact h ▸ rfl
  | cons a as ih =>
    rw [List.mapM_cons, bind_eq_ok_iff, List.forall₂_cons_left_iff]
    simp only [bind_eq_ok_iff, ih]
    constructor
    · intro h
      obtain ⟨b, hb, bs', hbs, heq⟩ := h
      exact ⟨b, bs', hb, hbs, (Except.ok.inj heq).symm⟩
    · intro h
      obtain ⟨b, bs', hb, hbs, rfl⟩ := h
      exact ⟨b, hb, bs', hbs, rfl⟩

theorem option_mapM_eq_ok_iff {α : Type y} {β : Type x} {f : α → Except ε β} {a : Option α} {b : Option β} :
    a.mapM f = .ok b ↔ Option.Rel (fun a b => f a = .ok b) a b := by
  cases a with
  | none =>
    rw [Option.mapM_none]
    constructor
    · intro h
      obtain rfl := Except.ok.inj h
      exact .none
    · intro h
      cases h
      rfl
  | some a =>
    show (f a).map some = .ok b ↔ _
    rw [map_eq_ok_iff]
    constructor
    · intro h
      obtain ⟨b, hb, rfl⟩ := h
      exact .some hb
    · intro h
      cases h with
      | some hb => exact ⟨_, hb, rfl⟩

namespace Reader

/-- The item reads this entry. -/
def Reads (r : Reader ι κ ν ε) (item : ι) (entry : Sigma ν) : Prop :=
  r.field item = .ok entry.1 ∧ r.value entry.1 item = .ok entry.2

/-! ### What is collected -/

section Collect
variable [DecidableEq κ]

def put (r : Reader ι κ ν ε) (entries : List (Sigma ν)) (item : ι) : Except ε (List (Sigma ν)) :=
  match r.field item with
  | .error e => .error e
  | .ok k =>
    if (entries.dlookup k).isSome then .error (r.taken k item)
    else (r.value k item).map fun v => entries ++ [⟨k, v⟩]

def collect (r : Reader ι κ ν ε) (items : List ι) : Except ε (List (Sigma ν)) := items.foldlM r.put []

variable {r : Reader ι κ ν ε}

theorem put_eq_ok_iff {entries entries' : List (Sigma ν)} {item : ι} :
    r.put entries item = .ok entries' ↔
      ∃ entry, r.Reads item entry ∧ entry.1 ∉ entries.keys ∧ entries' = entries ++ [entry] := by
  rw [put]
  constructor
  · intro h
    split at h
    · cases h
    · next k hfield =>
      split at h
      · cases h
      · next hfree =>
        obtain ⟨v, hvalue, rfl⟩ := map_eq_ok_iff.mp h
        exact ⟨⟨k, v⟩, ⟨hfield, hvalue⟩, fun hmem => hfree (List.dlookup_isSome.mpr hmem), rfl⟩
  · intro h
    obtain ⟨⟨k, v⟩, ⟨hfield, hvalue⟩, hfree, rfl⟩ := h
    simp only [hfield, hvalue]
    rw [if_neg fun hsome => hfree (List.dlookup_isSome.mp hsome)]
    rfl

theorem foldlM_put_eq_ok_iff {entries entries' : List (Sigma ν)} (hentries : entries.NodupKeys) {items : List ι} :
    items.foldlM r.put entries = .ok entries' ↔
      ∃ more, List.Forall₂ r.Reads items more ∧ entries' = entries ++ more ∧ entries'.NodupKeys := by
  induction items generalizing entries with
  | nil =>
    constructor
    · intro h
      obtain rfl := Except.ok.inj h
      exact ⟨[], .nil, (List.append_nil _).symm, hentries⟩
    · intro h
      obtain ⟨more, hmore, rfl, -⟩ := h
      cases hmore
      rw [List.append_nil]
      rfl
  | cons item items ih =>
    rw [List.foldlM_cons, bind_eq_ok_iff]
    constructor
    · intro h
      obtain ⟨mid, hput, hrest⟩ := h
      obtain ⟨entry, hreads, hfree, rfl⟩ := put_eq_ok_iff.mp hput
      have hmid : (entries ++ [entry]).NodupKeys := (List.perm_nodupKeys (List.perm_append_singleton ..)).mpr
        (List.nodupKeys_cons.mpr ⟨hfree, hentries⟩)
      obtain ⟨more, hmore, rfl, hnodup⟩ := (ih hmid).mp hrest
      exact ⟨entry :: more, .cons hreads hmore, List.append_cons .. |>.symm, hnodup⟩
    · intro h
      obtain ⟨more, hmore, rfl, hnodup⟩ := h
      cases hmore with
      | cons hreads hmore =>
        rename_i entry more
        have hall : (entries ++ [entry] ++ more).NodupKeys := List.append_cons .. ▸ hnodup
        have hmid : (entries ++ [entry]).NodupKeys := hall.sublist (List.sublist_append_left ..)
        have hfree : entry.1 ∉ entries.keys :=
          (List.nodupKeys_cons.mp ((List.perm_nodupKeys (List.perm_append_singleton ..)).mp hmid)).1
        refine ⟨entries ++ [entry], put_eq_ok_iff.mpr ⟨entry, hreads, hfree, rfl⟩, ?_⟩
        exact (ih hmid).mpr ⟨more, hmore, List.append_cons .., hnodup⟩

/-- Exactly the items that read entries of distinct fields are collected, each as its entry. -/
theorem collect_eq_ok_iff {items : List ι} {entries : List (Sigma ν)} :
    r.collect items = .ok entries ↔ List.Forall₂ r.Reads items entries ∧ entries.NodupKeys := by
  rw [collect, foldlM_put_eq_ok_iff List.nodupKeys_nil]
  constructor
  · intro h
    obtain ⟨more, hmore, rfl, hnodup⟩ := h
    exact ⟨hmore, hnodup⟩
  · intro h
    exact ⟨entries, h.1, rfl, h.2⟩

/-- What is read for each field. -/
def slots (r : Reader ι κ ν ε) (items : List ι) : Except ε ((k : κ) → Option (ν k)) :=
  (r.collect items).map fun entries k => entries.dlookup k

end Collect

end Reader

/-! ### What is collected for the fields -/

/-- The entries of the fields, in the order of the fields. -/
def entriesOf (all : List κ) (slots : (k : κ) → Option (ν k)) : List (Sigma ν) :=
  all.filterMap fun k => (slots k).map (Sigma.mk k)

theorem mem_entriesOf {all : List κ} {slots : (k : κ) → Option (ν k)} {entry : Sigma ν} :
    entry ∈ entriesOf all slots ↔ entry.1 ∈ all ∧ slots entry.1 = some entry.2 := by
  obtain ⟨k, v⟩ := entry
  simp only [entriesOf, List.mem_filterMap, Option.map_eq_some_iff]
  constructor
  · intro h
    obtain ⟨k', hk', v', hslot, heq⟩ := h
    cases heq
    exact ⟨hk', hslot⟩
  · intro h
    exact ⟨k, h.1, v, h.2, rfl⟩

theorem nodupKeys_entriesOf {all : List κ} (hall : all.Nodup) (slots : (k : κ) → Option (ν k)) :
    (entriesOf all slots).NodupKeys := by
  induction all with
  | nil => exact List.nodupKeys_nil
  | cons k all ih =>
    obtain ⟨hk, hall⟩ := List.nodup_cons.mp hall
    rw [entriesOf, List.filterMap_cons]
    cases hslot : slots k with
    | none => exact ih hall
    | some v =>
      refine List.nodupKeys_cons.mpr ⟨fun hmem => hk ?_, ih hall⟩
      obtain ⟨v', hv'⟩ := List.mem_keys.mp hmem
      exact (mem_entriesOf.mp hv').1

/-- The items write what `slots` holds: one item for each field that it has something for, in any order. -/
def WrittenBy (all : List κ) (writes : (k : κ) → ν k → ι → Prop) (slots : (k : κ) → Option (ν k))
    (items : List ι) : Prop :=
  ∃ item : κ → Option ι, (∀ k, Option.Rel (writes k) (slots k) (item k)) ∧ items.Perm (all.filterMap item)

section Arranged
variable [DecidableEq κ] {all : List κ}

theorem dlookup_entriesOf (hall : all.Nodup) (hmem : ∀ k, k ∈ all) (slots : (k : κ) → Option (ν k)) (k : κ) :
    (entriesOf all slots).dlookup k = slots k := by
  apply Option.ext
  intro v
  rw [← Option.mem_def, List.mem_dlookup_iff (nodupKeys_entriesOf hall slots), mem_entriesOf]
  exact and_iff_right (hmem k)

theorem perm_entriesOf (hall : all.Nodup) (hmem : ∀ k, k ∈ all) {entries : List (Sigma ν)}
    (hentries : entries.NodupKeys) : entries.Perm (entriesOf all fun k => entries.dlookup k) := by
  refine List.mem_ext hentries.nodup (nodupKeys_entriesOf hall _).nodup fun entry => ?_
  rw [mem_entriesOf, and_iff_right (hmem entry.1)]
  exact (List.mem_dlookup_iff hentries).symm

theorem Reader.slots_eq_ok_iff_arranged (hall : all.Nodup) (hmem : ∀ k, k ∈ all) {r : Reader ι κ ν ε}
    {items : List ι} {slots : (k : κ) → Option (ν k)} :
    r.slots items = .ok slots ↔
      ∃ arranged, items.Perm arranged ∧ List.Forall₂ r.Reads arranged (entriesOf all slots) := by
  rw [Reader.slots, map_eq_ok_iff]
  constructor
  · intro h
    obtain ⟨entries, hcollect, rfl⟩ := h
    obtain ⟨hreads, hentries⟩ := Reader.collect_eq_ok_iff.mp hcollect
    have hcomp : Relation.Comp (List.Forall₂ r.Reads) List.Perm items _ :=
      ⟨entries, hreads, perm_entriesOf hall hmem hentries⟩
    rwa [List.forall₂_comp_perm_eq_perm_comp_forall₂] at hcomp
  · intro h
    obtain ⟨arranged, hperm, hreads⟩ := h
    obtain ⟨entries, hreads, hentries⟩ := List.perm_comp_forall₂ hperm hreads
    have hnodup : entries.NodupKeys := (List.perm_nodupKeys hentries).mpr (nodupKeys_entriesOf hall slots)
    refine ⟨entries, Reader.collect_eq_ok_iff.mpr ⟨hreads, hnodup⟩, funext fun k => ?_⟩
    rw [List.perm_dlookup k hnodup hentries, dlookup_entriesOf hall hmem]

/-- One item for each field that `slots` has something for, and no others. -/
theorem forall₂_entriesOf_iff (hall : all.Nodup) {reads : ι → Sigma ν → Prop} {slots : (k : κ) → Option (ν k)}
    {items : List ι} :
    List.Forall₂ reads items (entriesOf all slots) ↔
      ∃ item : κ → Option ι, (∀ k ∈ all, Option.Rel (fun v i => reads i ⟨k, v⟩) (slots k) (item k)) ∧
        items = all.filterMap item := by
  induction all generalizing items with
  | nil =>
    constructor
    · intro h
      cases h
      exact ⟨fun _ => none, fun k hk => absurd hk List.not_mem_nil, rfl⟩
    · intro h
      obtain ⟨_, -, rfl⟩ := h
      exact .nil
  | cons k all ih =>
    obtain ⟨hk, hall⟩ := List.nodup_cons.mp hall
    have hne (k' : κ) (hk' : k' ∈ all) : k' ≠ k := fun heq => hk (heq ▸ hk')
    have hupdate (item : κ → Option ι) (written : Option ι) :
        all.filterMap (Function.update item k written) = all.filterMap item :=
      List.filterMap_congr fun k' hk' => Function.update_of_ne (hne k' hk') ..
    rw [entriesOf, List.filterMap_cons]
    constructor
    · intro h
      cases hslot : slots k with
      | none =>
        rw [hslot] at h
        obtain ⟨item, hitem, rfl⟩ := (ih hall).mp h
        refine ⟨Function.update item k none, List.forall_mem_cons.mpr ⟨?_, fun k' hk' => ?_⟩, ?_⟩
        · rw [Function.update_self, hslot]
          exact .none
        · rw [Function.update_of_ne (hne k' hk')]
          exact hitem k' hk'
        · rw [List.filterMap_cons, Function.update_self, hupdate]
      | some v =>
        rw [hslot] at h
        cases h with
        | cons hreads hrest =>
          rename_i i items
          obtain ⟨item, hitem, rfl⟩ := (ih hall).mp hrest
          refine ⟨Function.update item k (some i), List.forall_mem_cons.mpr ⟨?_, fun k' hk' => ?_⟩, ?_⟩
          · rw [Function.update_self, hslot]
            exact .some hreads
          · rw [Function.update_of_ne (hne k' hk')]
            exact hitem k' hk'
          · rw [List.filterMap_cons, Function.update_self, hupdate]
    · intro h
      obtain ⟨item, hitem, rfl⟩ := h
      obtain ⟨hhead, htail⟩ := List.forall_mem_cons.mp hitem
      have hrest := (ih hall).mpr ⟨item, htail, rfl⟩
      rw [List.filterMap_cons]
      cases hslot : slots k with
      | none =>
        rw [hslot] at hhead
        generalize item k = written at hhead
        cases hhead
        exact hrest
      | some v =>
        rw [hslot] at hhead
        generalize item k = written at hhead
        cases hhead with
        | some hreads => exact .cons hreads hrest

theorem writtenBy_iff_arranged (hall : all.Nodup) (hmem : ∀ k, k ∈ all) {writes : (k : κ) → ν k → ι → Prop}
    {slots : (k : κ) → Option (ν k)} {items : List ι} :
    WrittenBy all writes slots items ↔ ∃ arranged, items.Perm arranged ∧
      List.Forall₂ (fun item entry => writes entry.1 entry.2 item) arranged (entriesOf all slots) := by
  rw [WrittenBy]
  simp only [forall₂_entriesOf_iff hall]
  constructor
  · intro h
    obtain ⟨item, hitem, hperm⟩ := h
    exact ⟨_, hperm, item, fun k _ => hitem k, rfl⟩
  · intro h
    obtain ⟨arranged, hperm, item, hitem, rfl⟩ := h
    exact ⟨item, fun k => hitem k (hmem k), hperm⟩

/-- Where a reader reads what is written, the fields read are the ones written. -/
theorem Reader.slots_eq_ok_iff (hall : all.Nodup) (hmem : ∀ k, k ∈ all) {r : Reader ι κ ν ε}
    {writes : (k : κ) → ν k → ι → Prop} (hreads : ∀ item k v, r.Reads item ⟨k, v⟩ ↔ writes k v item)
    {items : List ι} {slots : (k : κ) → Option (ν k)} :
    r.slots items = .ok slots ↔ WrittenBy all writes slots items := by
  have hrel : r.Reads = fun item entry => writes entry.1 entry.2 item :=
    funext fun item => funext fun entry => propext (hreads item entry.1 entry.2)
  rw [Reader.slots_eq_ok_iff_arranged hall hmem, writtenBy_iff_arranged hall hmem, hrel]

theorem forall₂_replace {α : Type y} {β : Type z} {replaces : α → α → Prop} {writes : α → β → Prop}
    (hreplace : ∀ a a' b, writes a b → replaces a a' → writes a' b) {as as' : List α} {bs : List β}
    (h : List.Forall₂ writes as bs) (has : List.Forall₂ replaces as as') : List.Forall₂ writes as' bs := by
  induction h generalizing as' with
  | nil =>
    cases has
    exact .nil
  | cons hwrites _ ih =>
    cases has with
    | cons hreplaces has => exact .cons (hreplace _ _ _ hwrites hreplaces) (ih has)

/-- What is written stays written where its items are replaced by ones that write the same, in any order. -/
theorem WrittenBy.arrange (hall : all.Nodup) (hmem : ∀ k, k ∈ all) {writes : (k : κ) → ν k → ι → Prop}
    {replaces : ι → ι → Prop} (hreplace : ∀ k v item item', writes k v item → replaces item item' → writes k v item')
    {slots : (k : κ) → Option (ν k)} {items items' replaced : List ι} (h : WrittenBy all writes slots items)
    (hitems : List.Forall₂ replaces items replaced) (hperm : replaced.Perm items') :
    WrittenBy all writes slots items' := by
  obtain ⟨arranged, harranged, hwrites⟩ := (writtenBy_iff_arranged hall hmem).mp h
  obtain ⟨arranged', hreplaced, harranged'⟩ := List.perm_comp_forall₂ harranged.symm hitems
  refine (writtenBy_iff_arranged hall hmem).mpr ⟨arranged', hperm.symm.trans harranged'.symm, ?_⟩
  exact forall₂_replace (fun item item' entry => hreplace entry.1 entry.2 item item') hwrites hreplaced

end Arranged

/-! ### Side by side -/

section Beside
variable {α β : Type y}

/-- One list for two readers: `own` tells whose an item is. -/
def beside (own : ι → Bool) (first : α → ι → Except ε α) (second : β → ι → Except ε β) (state : α × β) (item : ι) :
    Except ε (α × β) :=
  if own item then (first state.1 item).map fun a => (a, state.2)
  else (second state.2 item).map fun b => (state.1, b)

theorem foldlM_beside_eq_ok_iff {own : ι → Bool} {first : α → ι → Except ε α} {second : β → ι → Except ε β}
    {a a' : α} {b b' : β} {items : List ι} :
    items.foldlM (beside own first second) (a, b) = .ok (a', b') ↔
      (items.filter own).foldlM first a = .ok a' ∧ (items.filter fun item => !own item).foldlM second b = .ok b' := by
  induction items generalizing a b with
  | nil =>
    show Except.ok (a, b) = .ok (a', b') ↔ Except.ok a = .ok a' ∧ Except.ok b = .ok b'
    rw [Except.ok.injEq, Except.ok.injEq, Except.ok.injEq, Prod.mk.injEq]
  | cons item items ih =>
    rw [List.foldlM_cons, bind_eq_ok_iff, List.filter_cons, List.filter_cons]
    cases hown : own item with
    | true =>
      simp only [beside, hown, if_true, Bool.not_true, Bool.false_eq_true, if_false, map_eq_ok_iff]
      rw [List.foldlM_cons, bind_eq_ok_iff]
      constructor
      · intro h
        obtain ⟨_, ⟨mid, hfirst, rfl⟩, hrest⟩ := h
        obtain ⟨hfirst', hsecond⟩ := ih.mp hrest
        exact ⟨⟨mid, hfirst, hfirst'⟩, hsecond⟩
      · intro h
        obtain ⟨⟨mid, hfirst, hfirst'⟩, hsecond⟩ := h
        exact ⟨_, ⟨mid, hfirst, rfl⟩, ih.mpr ⟨hfirst', hsecond⟩⟩
    | false =>
      simp only [beside, hown, Bool.false_eq_true, if_false, Bool.not_false, if_true, map_eq_ok_iff]
      rw [List.foldlM_cons, bind_eq_ok_iff]
      constructor
      · intro h
        obtain ⟨_, ⟨mid, hsecond, rfl⟩, hrest⟩ := h
        obtain ⟨hfirst, hsecond'⟩ := ih.mp hrest
        exact ⟨hfirst, mid, hsecond, hsecond'⟩
      · intro h
        obtain ⟨hfirst, mid, hsecond, hsecond'⟩ := h
        exact ⟨_, ⟨mid, hsecond, rfl⟩, ih.mpr ⟨hfirst, hsecond'⟩⟩

end Beside

end Zizq.Data.Fields
