import Zizq.Json.Path

/-! What `pick` selects.

The partial target that `pick` builds up is ordered against the source by `Part`:
members of objects and ends of arrays may be missing, and an array item may still
be the null it was padded with. A write along a path of the source stays below
every value that has the path's sub-value in that place, and leaves the earlier
writes as they are. So the result is the least part of the source that has all
the selected sub-values, whatever the order of the paths. -/
namespace Zizq.Json
open Data Value
variable {ν : Type}

/-- `t` is `u` with members or trailing items left out and items replaced by null. -/
inductive Part : Value ν → Value ν → Prop where
  | refl (v : Value ν) : Part v v
  | array {xs ys : List (Value ν)} (hlen : xs.length ≤ ys.length)
      (hitem : ∀ (i : Nat) (x y : Value ν),
        xs[i]? = some x → ys[i]? = some y → x ≠ .null → Part x y) :
      Part (.array xs) (.array ys)
  | object {m m' : List (String × Value ν)}
      (hkey : ∀ k, (Assoc.get k m).isSome → (Assoc.get k m').isSome)
      (hmember : ∀ k v v', Assoc.get k m = some v → Assoc.get k m' = some v' → Part v v') :
      Part (.object m) (.object m')

/-- A null stands for anything: it is what arrays are padded with. -/
def Within (t u : Value ν) : Prop := t ≠ .null → Part t u

/-- The relation between children at `step`: only array items are padded. -/
def PartAt : PathStep → Value ν → Value ν → Prop
  | .field _ => Part
  | .index _ => Within

theorem within_null (u : Value ν) : Within .null u := fun h => absurd rfl h

theorem Part.within {t u : Value ν} (h : Part t u) : Within t u := fun _ => h

theorem Part.partAt {t u : Value ν} (h : Part t u) (step : PathStep) : PartAt step t u := by
  cases step with
  | field name => exact h
  | index idx => exact h.within

theorem PartAt.within {step : PathStep} {t u : Value ν} (h : PartAt step t u) : Within t u := by
  cases step with
  | field name => exact Part.within h
  | index idx => exact h

/-- A part is of the kind of the whole. -/
theorem Part.kind_eq {t u : Value ν} (h : Part t u) : kind t = kind u := by
  cases h <;> rfl

theorem Part.eq_null {t : Value ν} (h : Part t .null) : t = .null := by
  cases h
  rfl

/-- A child of a part is a part of the child there. -/
theorem Part.child_some {t u : Value ν} (h : Part t u) {step : PathStep} {x : Value ν}
    (hx : child step t = some x) : ∃ y, child step u = some y ∧ PartAt step x y := by
  cases h with
  | refl => exact ⟨x, hx, (Part.refl x).partAt step⟩
  | @array xs ys hlen hitem =>
    cases step with
    | field name => cases hx
    | index idx =>
      have hlt : idx < xs.length := (List.getElem?_eq_some_iff.mp hx).1
      have hy : ys[idx]? = some ys[idx] := List.getElem?_eq_getElem (by omega)
      exact ⟨ys[idx], hy, hitem idx x _ hx hy⟩
  | @object m m' hkey hmember =>
    cases step with
    | field name =>
      obtain ⟨y, hy⟩ := Option.isSome_iff_exists.mp (hkey name (Option.isSome_of_eq_some hx))
      exact ⟨y, hy, hmember name x y hx hy⟩
    | index idx => cases hx

theorem Within.child_some {t u : Value ν} (h : Within t u) {step : PathStep} {x : Value ν}
    (hx : child step t = some x) : ∃ y, child step u = some y ∧ Within x y := by
  have hne : t ≠ .null := by
    rintro rfl
    cases step <;> cases hx
  obtain ⟨y, hy, hxy⟩ := (h hne).child_some hx
  exact ⟨y, hy, hxy.within⟩

theorem Within.walk_some {t u : Value ν} (h : Within t u) {path : Path} {x : Value ν}
    (hx : walk t path = some x) : ∃ y, walk u path = some y ∧ Within x y := by
  induction path generalizing t u with
  | nil => exact ⟨u, rfl, Option.some.inj hx ▸ h⟩
  | cons step path ih =>
    obtain ⟨t', ht', hrest⟩ := Option.bind_eq_some_iff.mp hx
    obtain ⟨u', hu', hwithin⟩ := h.child_some ht'
    obtain ⟨y, hy, hxy⟩ := ih hwithin hrest
    exact ⟨y, by rw [walk_cons, hu']; exact hy, hxy⟩

/-- Values that are parts of each other are one. -/
theorem Within.antisymm {t u : Value ν} (ht : t.ordered = true) (hu : u.ordered = true)
    (htu : Within t u) (hut : Within u t) : t = u := by
  induction t using induct_child generalizing u with
  | h t ih =>
    by_cases hnull : t = .null
    · subst hnull
      by_contra hne
      exact hne (hut (Ne.symm hne)).eq_null.symm
    · refine ext_child ht hu (htu hnull).kind_eq fun step => ?_
      cases hx : child step t with
      | none =>
        cases hy : child step u with
        | none => rfl
        | some y =>
          obtain ⟨x, hx', -⟩ := hut.child_some hy
          rw [hx] at hx'
          cases hx'
      | some x =>
        obtain ⟨y, hy, hxy⟩ := htu.child_some hx
        obtain ⟨x', hx', hyx⟩ := hut.child_some hy
        obtain rfl : x = x' := Option.some.inj (hx.symm.trans hx')
        rw [hy, ih step x hx (ordered_child ht hx) (ordered_child hu hy) hxy hyx]

/-! ### Writing one child -/

theorem pad_getElem? {xs : List (Value ν)} {idx i : Nat} {x : Value ν} (h : (pad idx xs)[i]? = some x) :
    xs[i]? = some x ∨ x = .null := by
  rw [pad, List.getElem?_append] at h
  split at h
  · exact .inl h
  · exact .inr (List.eq_of_mem_replicate (List.mem_of_getElem? h))

theorem pad_length (idx : Nat) (xs : List (Value ν)) :
    (pad idx xs).length = max xs.length (idx + 1) := by
  rw [pad, List.length_append, List.length_replicate]
  omega

/-- Padding keeps the items that are there. -/
theorem getElem?_pad {xs : List (Value ν)} {idx i : Nat} {x : Value ν} (h : xs[i]? = some x) :
    (pad idx xs)[i]? = some x := by
  rw [pad, List.getElem?_append_left (List.getElem?_eq_some_iff.mp h).1, h]

theorem containerFor_part {step : PathStep} {u y : Value ν} (h : child step u = some y) :
    Part (containerFor step) u := by
  cases step with
  | field name =>
    cases u with
    | object m => exact .object (fun k hk => by simp at hk) fun k v v' hv => by simp at hv
    | _ => cases h
  | index idx =>
    cases u with
    | array ys => exact .array (Nat.zero_le _) fun i x y hx => by simp at hx
    | _ => cases h

section Write
variable {step : PathStep} {cur u y w : Value ν} (hcur : Part cur u) (hu : child step u = some y)
include hcur hu

/-- What was put is there. -/
theorem child_putChild : child step (putChild step w cur) = some w := by
  cases step with
  | field name =>
    cases u with
    | object m' =>
      cases hcur <;> exact Assoc.get_insert_self ..
    | _ => cases hu
  | index idx =>
    cases u with
    | array ys =>
      have hset (xs : List (Value ν)) : ((pad idx xs).set idx w)[idx]? = some w := by
        rw [List.getElem?_set_self (by rw [pad_length]; omega)]
      cases hcur <;> exact hset _
    | _ => cases hu

/-- Putting a part of the child that is there leaves a part. -/
theorem putChild_part (hw : Part w y) : Part (putChild step w cur) u := by
  cases step with
  | field name =>
    cases u with
    | object m' =>
      have hput (m : List (String × Value ν)) (hm : Part (.object m) (.object m')) :
          Part (putChild (.field name) w (.object m)) (.object m') := by
        refine .object (fun k hk => ?_) fun k v v' hv hv' => ?_
        · rw [Assoc.get_insert] at hk
          split at hk
          · next heq => exact Option.isSome_iff_exists.mpr ⟨y, heq ▸ hu⟩
          · obtain ⟨v, hv⟩ := Option.isSome_iff_exists.mp hk
            obtain ⟨v', hv', -⟩ := hm.child_some (show child (.field k) (.object m) = some v from hv)
            exact Option.isSome_iff_exists.mpr ⟨v', hv'⟩
        · rw [Assoc.get_insert] at hv
          split at hv
          · next heq =>
            obtain rfl : y = v' := Option.some.inj (hu.symm.trans (heq ▸ hv'))
            exact Option.some.inj hv ▸ hw
          · obtain ⟨v'', hv'', hpart⟩ := hm.child_some (show child (.field k) (.object m) = some v from hv)
            obtain rfl : v' = v'' := Option.some.inj (hv'.symm.trans hv'')
            exact hpart
      cases hcur with
      | refl => exact hput m' (.refl _)
      | object hkey hmember => exact hput _ (.object hkey hmember)
    | _ => cases hu
  | index idx =>
    cases u with
    | array ys =>
      have hlt : idx < ys.length := (List.getElem?_eq_some_iff.mp hu).1
      have hput (xs : List (Value ν)) (hlen : xs.length ≤ ys.length)
          (hxs : Part (.array xs) (.array ys)) :
          Part (putChild (.index idx) w (.array xs)) (.array ys) := by
        refine .array (by rw [List.length_set, pad_length]; omega) fun i x y' hx hy' hne => ?_
        by_cases hi : idx = i
        · subst hi
          obtain rfl : y = y' := Option.some.inj (hu.symm.trans hy')
          rw [List.getElem?_set_self (by rw [pad_length]; omega)] at hx
          exact Option.some.inj hx ▸ hw
        · rw [List.getElem?_set_ne hi] at hx
          rcases pad_getElem? hx with hx | rfl
          · obtain ⟨y'', hy'', hwithin⟩ :=
              hxs.child_some (show child (.index i) (.array xs) = some x from hx)
            obtain rfl : y' = y'' := Option.some.inj (hy'.symm.trans hy'')
            exact hwithin hne
          · exact absurd rfl hne
      cases hcur with
      | refl => exact hput ys (Nat.le_refl _) (.refl _)
      | array hlen hitem => exact hput _ hlen (.array hlen hitem)
    | _ => cases hu

/-- Nothing is lost of what was there, if the new child has it. -/
theorem part_putChild (hold : ∀ x, child step cur = some x → PartAt step x w) :
    Part cur (putChild step w cur) := by
  cases step with
  | field name =>
    cases u with
    | object m' =>
      have hput (m : List (String × Value ν))
          (hold : ∀ x, Assoc.get name m = some x → Part x w) :
          Part (.object m) (putChild (.field name) w (.object m)) := by
        refine .object (fun k hk => ?_) fun k v v' hv hv' => ?_
        · rw [Assoc.get_insert]
          split
          · rfl
          · exact hk
        · rw [Assoc.get_insert] at hv'
          split at hv'
          · next heq =>
            subst heq
            exact Option.some.inj hv' ▸ hold v hv
          · obtain rfl : v = v' := Option.some.inj (hv.symm.trans hv')
            exact .refl v
      cases hcur <;> exact hput _ hold
    | _ => cases hu
  | index idx =>
    cases u with
    | array ys =>
      have hput (xs : List (Value ν)) (hold : ∀ x, xs[idx]? = some x → Within x w) :
          Part (.array xs) (putChild (.index idx) w (.array xs)) := by
        refine .array (by rw [List.length_set, pad_length]; omega) fun i x y' hx hy' hne => ?_
        by_cases hi : idx = i
        · subst hi
          rw [List.getElem?_set_self (by rw [pad_length]; omega)] at hy'
          exact Option.some.inj hy' ▸ hold x hx hne
        · rw [List.getElem?_set_ne hi, getElem?_pad hx] at hy'
          exact Option.some.inj hy' ▸ .refl x
      cases hcur <;> exact hput _ hold
    | _ => cases hu

/-- Going down leaves a part, whether the child was there or is made. -/
theorem descend_part {init : Value ν} (hinit : Part init y) :
    ∃ inner, descend step init cur = some inner ∧ Part inner y ∧
      ∀ w, Part inner w → ∀ x, child step cur = some x → PartAt step x w := by
  cases step with
  | field name =>
    cases u with
    | object m' =>
      have hstep (m : List (String × Value ν)) (hm : Part (.object m) (.object m')) :
          ∃ inner, descend (.field name) init (.object m) = some inner ∧ Part inner y ∧
            ∀ w, Part inner w → ∀ x, Assoc.get name m = some x → Part x w := by
        cases hg : Assoc.get name m with
        | none => exact ⟨init, by simp [descend, hg], hinit, fun w _ x hx => nomatch hx⟩
        | some x =>
          obtain ⟨y', hy', hxy⟩ :=
            hm.child_some (show child (.field name) (.object m) = some x from hg)
          obtain rfl : y = y' := Option.some.inj (hu.symm.trans hy')
          exact ⟨x, by simp [descend, hg], hxy, fun w hw x' hx' => Option.some.inj hx' ▸ hw⟩
      cases hcur with
      | refl => exact hstep m' (.refl _)
      | object hkey hmember => exact hstep _ (.object hkey hmember)
    | _ => cases hu
  | index idx =>
    cases u with
    | array ys =>
      have hstep (xs : List (Value ν)) (hxs : Part (.array xs) (.array ys)) :
          ∃ inner, descend (.index idx) init (.array xs) = some inner ∧ Part inner y ∧
            ∀ w, Part inner w → ∀ x, xs[idx]? = some x → Within x w := by
        cases hg : xs[idx]? with
        | none => exact ⟨init, by simp [descend, hg], hinit, fun w _ x hx => nomatch hx⟩
        | some x =>
          obtain ⟨y', hy', hxy⟩ :=
            hxs.child_some (show child (.index idx) (.array xs) = some x from hg)
          obtain rfl : y = y' := Option.some.inj (hu.symm.trans hy')
          by_cases hnull : x = .null
          · subst hnull
            refine ⟨init, by simp [descend, hg, isNull], hinit, fun w _ x' hx' => ?_⟩
            exact Option.some.inj hx' ▸ within_null w
          · have hisNull : x.isNull = false := by
              rw [Bool.eq_false_iff]
              exact fun h => hnull (isNull_iff.mp h)
            refine ⟨x, by simp [descend, hg, hisNull], hxy hnull, fun w hw x' hx' => ?_⟩
            exact Option.some.inj hx' ▸ hw.within
      cases hcur with
      | refl => exact hstep ys (.refl _)
      | array hlen hitem => exact hstep _ (.array hlen hitem)
    | _ => cases hu

end Write

theorem ordered_containerFor (step : PathStep) : (containerFor step : Value ν).ordered = true := by
  cases step <;> rfl

theorem ordered_putChild {step : PathStep} {w cur : Value ν} (hw : w.ordered = true)
    (hcur : cur.ordered = true) : (putChild step w cur).ordered = true := by
  cases step with
  | field name =>
    cases cur with
    | object m => exact ordered_insert hw hcur
    | _ => exact hcur
  | index idx =>
    cases cur with
    | array xs =>
      refine ordered_set hw (ordered_array.mpr fun x hx => ?_)
      rcases List.mem_append.mp hx with hx | hx
      · exact ordered_array.mp hcur x hx
      · exact List.eq_of_mem_replicate hx ▸ rfl
    | _ => exact hcur

theorem ordered_descend {step : PathStep} {init cur inner : Value ν} (hinit : init.ordered = true)
    (hcur : cur.ordered = true) (h : descend step init cur = some inner) : inner.ordered = true := by
  cases step with
  | field name =>
    cases cur with
    | object m =>
      obtain rfl := Option.some.inj h
      cases hg : Assoc.get name m with
      | none => exact hinit
      | some x => exact ordered_get hcur hg
    | _ => cases h
  | index idx =>
    cases cur with
    | array xs =>
      cases hg : xs[idx]? with
      | none =>
        simp only [descend, hg, Option.some.injEq] at h
        exact h ▸ hinit
      | some x =>
        simp only [descend, hg, Option.some.injEq] at h
        subst h
        split
        · exact hinit
        · exact ordered_item hcur hg
    | _ => cases h

/-! ### Writing a path -/

theorem ordered_writeAt {step : PathStep} {rest : Path} {value cur : Value ν}
    (hvalue : value.ordered = true) (hcur : cur.ordered = true) :
    (writeAt step rest value cur).ordered = true := by
  induction rest generalizing step cur with
  | nil => exact ordered_putChild hvalue hcur
  | cons next rest ih =>
    rw [writeAt]
    cases hd : descend step (containerFor next) cur with
    | none => exact hcur
    | some inner =>
      exact ordered_putChild (ih (ordered_descend (ordered_containerFor next) hcur hd)) hcur

/-- Writing what `u` has at a path keeps a part of `u` a part of it, only adds, and is read back. -/
theorem writeAt_part {step : PathStep} {rest : Path} {value cur u : Value ν} (hcur : Part cur u)
    (hu : walk u (step :: rest) = some value) :
    Part (writeAt step rest value cur) u ∧ Part cur (writeAt step rest value cur) ∧
      walk (writeAt step rest value cur) (step :: rest) = some value := by
  obtain ⟨y, hy, hrest⟩ := Option.bind_eq_some_iff.mp hu
  induction rest generalizing step cur u y with
  | nil =>
    obtain rfl := Option.some.inj hrest
    refine ⟨putChild_part hcur hy (.refl y), part_putChild hcur hy fun x hx => ?_, ?_⟩
    · obtain ⟨y', hy', hxy⟩ := hcur.child_some hx
      exact Option.some.inj (hy.symm.trans hy') ▸ hxy
    · rw [walk_cons, writeAt, child_putChild hcur hy]
      rfl
  | cons next rest ih =>
    obtain ⟨z, hz, hrest'⟩ := Option.bind_eq_some_iff.mp hrest
    obtain ⟨inner, hd, hinner, hold⟩ := descend_part hcur hy (containerFor_part hz)
    obtain ⟨hbelow, habove, hread⟩ := ih hinner hrest z hz hrest'
    rw [writeAt, hd]
    refine ⟨putChild_part hcur hy hbelow, part_putChild hcur hy (hold _ habove), ?_⟩
    rw [walk_cons]
    show (child step (putChild step _ cur)).bind _ = _
    rw [child_putChild hcur hy]
    exact hread

/-- Setting what is at a path leaves a part, with all it had and that path. -/
theorem setPath_part {path : Path} {value target u : Value ν} (hpath : path ≠ [])
    (ht : Within target u) (hu : walk u path = some value) :
    Part (setPath target path value) u ∧ Within target (setPath target path value) ∧
      walk (setPath target path value) path = some value := by
  cases path with
  | nil => exact absurd rfl hpath
  | cons step rest =>
    obtain ⟨y, hy, -⟩ := Option.bind_eq_some_iff.mp hu
    rw [setPath]
    by_cases hnull : target = .null
    · subst hnull
      obtain ⟨hbelow, -, hread⟩ := writeAt_part (containerFor_part hy) hu
      exact ⟨hbelow, within_null _, hread⟩
    · have hisNull : ¬ target.isNull = true := fun h => hnull (isNull_iff.mp h)
      rw [if_neg hisNull]
      obtain ⟨hbelow, habove, hread⟩ := writeAt_part (ht hnull) hu
      exact ⟨hbelow, habove.within, hread⟩

theorem ordered_setPath {path : Path} {value target : Value ν} (hvalue : value.ordered = true)
    (ht : target.ordered = true) : (setPath target path value).ordered = true := by
  cases path with
  | nil => exact ht
  | cons step rest =>
    rw [setPath]
    split
    · exact ordered_writeAt hvalue (ordered_containerFor step)
    · exact ordered_writeAt hvalue ht

theorem setPath_ne_null {path : Path} {value target u : Value ν} (hpath : path ≠ [])
    (ht : Within target u) (hu : walk u path = some value) : setPath target path value ≠ .null := by
  intro hnull
  obtain ⟨-, -, hread⟩ := setPath_part hpath ht hu
  rw [hnull] at hread
  cases path with
  | nil => exact hpath rfl
  | cons step rest => cases step <;> cases hread

/-! ### The loop of `pick` -/

/-- `u` has every sub-value of `source` at `paths`. -/
def Covers (source : Value ν) (paths : List Path) (u : Value ν) : Prop :=
  ∀ p ∈ paths, ∀ v, walk source p = some v → walk u p = some v

/-- `target` after the picks of `paths`: the least part of the source that covers them. -/
structure Picked (source : Value ν) (paths : List Path) (target : Value ν) : Prop where
  ordered : target.ordered = true
  within : Within target source
  covers : Covers source paths target
  least : ∀ u, Covers source paths u → Within target u
  found : target = .null ↔ ∀ p ∈ paths, walk source p = none

/-- Nothing has been picked yet. -/
theorem picked_nil (source : Value ν) : Picked source [] .null where
  ordered := rfl
  within := within_null source
  covers := fun _ hp => nomatch hp
  least := fun u _ => within_null u
  found := ⟨fun _ _ hp => (nomatch hp), fun _ => rfl⟩

/-- A path that leads nowhere changes nothing. -/
theorem Picked.skip {source target : Value ν} {paths : List Path} {path : Path}
    (h : Picked source paths target) (hmiss : walk source path = none) :
    Picked source (paths ++ [path]) target where
  ordered := h.ordered
  within := h.within
  covers := by
    intro p hp v hv
    rcases List.mem_append.mp hp with hp | hp
    · exact h.covers p hp v hv
    · rw [List.mem_singleton.mp hp, hmiss] at hv
      cases hv
  least := fun u hu => h.least u fun p hp => hu p (List.mem_append_left _ hp)
  found := by
    refine h.found.trans ⟨fun hall p hp => ?_, fun hall p hp => hall p (List.mem_append_left _ hp)⟩
    rcases List.mem_append.mp hp with hp | hp
    · exact hall p hp
    · rw [List.mem_singleton.mp hp, hmiss]

/-- A path that leads to a value adds it. -/
theorem Picked.set {source target v : Value ν} {paths : List Path} {path : Path}
    (h : Picked source paths target) (hsource : source.ordered = true) (hpath : path ≠ [])
    (hv : walk source path = some v) :
    Picked source (paths ++ [path]) (setPath target path v) where
  ordered := ordered_setPath (ordered_walk hsource hv) h.ordered
  within := (setPath_part hpath h.within hv).1.within
  covers := by
    obtain ⟨hbelow, habove, hread⟩ := setPath_part hpath h.within hv
    have hordered : (setPath target path v).ordered = true :=
      ordered_setPath (ordered_walk hsource hv) h.ordered
    intro p hp w hw
    rcases List.mem_append.mp hp with hp | hp
    · -- what an earlier pick wrote lies between itself and the source, so it is still there
      obtain ⟨w', hw', hle⟩ := habove.walk_some (h.covers p hp w hw)
      obtain ⟨w'', hw'', hge⟩ := hbelow.within.walk_some hw'
      obtain rfl : w = w'' := Option.some.inj (hw.symm.trans hw'')
      rw [hw', hle.antisymm (ordered_walk hsource hw) (ordered_walk hordered hw') hge]
    · rw [List.mem_singleton.mp hp] at hw ⊢
      exact hread.trans (hv.symm.trans hw)
  least := by
    intro u hu
    have hearlier := h.least u fun p hp => hu p (List.mem_append_left _ hp)
    exact (setPath_part hpath hearlier (hu path (by simp) v hv)).1.within
  found := by
    constructor
    · intro hnull
      exact absurd hnull (setPath_ne_null hpath h.within hv)
    · intro hall
      rw [hall path (by simp)] at hv
      cases hv

/-- What `pick` returns when no path is the root path. -/
theorem pickFrom_picked {source target : Value ν} {done paths : List Path}
    (hsource : source.ordered = true) (h : Picked source done target) (hroot : [] ∉ paths) :
    ∃ t, Picked source (done ++ paths) t ∧
      pickFrom source target paths = if t.isNull then .object [] else t := by
  induction paths generalizing done target with
  | nil => exact ⟨target, by rwa [List.append_nil], rfl⟩
  | cons path paths ih =>
    have hroot' : [] ∉ paths := fun hmem => hroot (List.mem_cons_of_mem _ hmem)
    have hpath : path ≠ [] := fun heq => hroot (heq ▸ List.mem_cons_self ..)
    obtain ⟨step, rest, rfl⟩ := List.exists_cons_of_ne_nil hpath
    rw [← List.singleton_append (l := paths), ← List.append_assoc]
    cases hw : walk source (step :: rest) with
    | none =>
      obtain ⟨t, ht, heq⟩ := ih (h.skip hw) hroot'
      exact ⟨t, ht, by simp only [List.singleton_append, pickFrom, hw, heq]⟩
    | some v =>
      obtain ⟨t, ht, heq⟩ := ih (h.set hsource hpath hw) hroot'
      exact ⟨t, ht, by simp only [List.singleton_append, pickFrom, hw, heq]⟩

/-- The root path picks all. -/
theorem pickFrom_root {source target : Value ν} {paths : List Path} (hroot : [] ∈ paths) :
    pickFrom source target paths = source := by
  induction paths generalizing target with
  | nil => cases hroot
  | cons path paths ih =>
    cases path with
    | nil => rfl
    | cons step rest =>
      have hroot' : [] ∈ paths := by simpa using hroot
      rw [pickFrom]
      split
      · exact ih hroot'
      · exact ih hroot'

/-- The picking looks at the values at the paths alone. -/
theorem pickFrom_congr {source source' target : Value ν} {paths : List Path}
    (h : ∀ p ∈ paths, walk source p = walk source' p) :
    pickFrom source target paths = pickFrom source' target paths := by
  induction paths generalizing target with
  | nil => rfl
  | cons path paths ih =>
    obtain ⟨hhead, htail⟩ := List.forall_mem_cons.mp h
    cases path with
    | nil => exact Option.some.inj hhead
    | cons step rest =>
      rw [pickFrom, pickFrom, hhead]
      split
      · exact ih htail
      · exact ih htail

/-! ### What `pick` returns -/

/-- What is picked is settled by the paths and what is there. -/
theorem picked_unique {source t t' : Value ν} {paths paths' : List Path}
    (h : Picked source paths t) (h' : Picked source paths' t') (hmem : ∀ p, p ∈ paths ↔ p ∈ paths') :
    t = t' := by
  refine Within.antisymm h.ordered h'.ordered ?_ ?_
  · exact h.least t' fun p hp => h'.covers p ((hmem p).mp hp)
  · exact h'.least t fun p hp => h.covers p ((hmem p).mpr hp)

/-- At a path that was asked for there is what the source has. -/
theorem walk_pick {source : Value ν} {paths : List Path} (hsource : source.ordered = true) {p : Path}
    (hp : p ∈ paths) : walk (pick source paths) p = walk source p := by
  by_cases hroot : [] ∈ paths
  · rw [pick, pickFrom_root hroot]
  · obtain ⟨t, ht, heq⟩ := pickFrom_picked hsource (picked_nil source) hroot
    rw [List.nil_append] at ht
    have hpath : p ≠ [] := fun h => hroot (h ▸ hp)
    rw [pick, heq]
    by_cases hnull : t = .null
    · rw [ht.found.mp hnull p hp, if_pos (isNull_iff.mpr hnull)]
      obtain ⟨step, rest, rfl⟩ := List.exists_cons_of_ne_nil hpath
      cases step <;> rfl
    · rw [if_neg fun h => hnull (isNull_iff.mp h)]
      cases hw : walk source p with
      | some v => exact ht.covers p hp v hw
      | none =>
        cases hw' : walk t p with
        | none => rfl
        | some x =>
          obtain ⟨y, hy, -⟩ := ht.within.walk_some hw'
          rw [hw] at hy
          cases hy

/-- Neither the order of the paths nor repetition matters. -/
theorem pick_congr_paths {source : Value ν} {paths paths' : List Path}
    (hsource : source.ordered = true) (hmem : ∀ p, p ∈ paths ↔ p ∈ paths') :
    pick source paths = pick source paths' := by
  by_cases hroot : [] ∈ paths
  · rw [pick, pick, pickFrom_root hroot, pickFrom_root ((hmem _).mp hroot)]
  · obtain ⟨t, ht, heq⟩ := pickFrom_picked hsource (picked_nil source) hroot
    obtain ⟨t', ht', heq'⟩ :=
      pickFrom_picked hsource (picked_nil source) fun h => hroot ((hmem _).mpr h)
    rw [pick, pick, heq, heq', picked_unique ht ht' hmem]

/-- Two results are equal exactly if the sources agree at every path. -/
theorem pick_eq_iff {s₁ s₂ : Value ν} {paths : List Path} (h₁ : s₁.ordered = true)
    (h₂ : s₂.ordered = true) :
    pick s₁ paths = pick s₂ paths ↔ ∀ p ∈ paths, walk s₁ p = walk s₂ p := by
  constructor
  · intro heq p hp
    rw [← walk_pick h₁ hp, ← walk_pick h₂ hp, heq]
  · exact pickFrom_congr

/-- **Main theorem.** `pick` has at every path what the source has there, so two payloads
select the same subset exactly when they agree at every path; only the set of paths matters. -/
theorem payloadOnly_selects (s : Json ν) (paths : List Path) :
    (∀ p ∈ paths, walk (payloadOnly s.value paths) p = walk s.value p) ∧
    (∀ s' : Json ν, payloadOnly s.value paths = payloadOnly s'.value paths ↔
      ∀ p ∈ paths, walk s.value p = walk s'.value p) ∧
    ∀ paths', (∀ p, p ∈ paths ↔ p ∈ paths') →
      payloadOnly s.value paths = payloadOnly s.value paths' :=
  ⟨fun _ hp => walk_pick s.ordered hp, fun s' => pick_eq_iff s.ordered s'.ordered,
    fun _ hmem => pick_congr_paths s.ordered hmem⟩

end Zizq.Json
