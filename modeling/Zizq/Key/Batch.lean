import Zizq.Json.Pick
import Zizq.Json.Remove
import Zizq.Key.UniqueKey

/-! Batch keys.

A derived `batch()` folds payloads with the same key into one job by what they
have at the batch path, so what they have there must not be part of the key. With
an `except` list or none the batch path is removed before anything else. With an
`only` list it is never looked at, so the key ignores it exactly when no listed
path contains it or lies inside it (`ignoresData_iff`). -/
namespace Zizq.Key
open Data Value Json
variable {ν : Type}

inductive UniqueSelection where
  | only (paths : List Path)
  | except (paths : List Path)

/-- `key(...)` of a batch attribute; `withPrefix` is its `prefix` flag. -/
structure BatchKeyConfig where
  selection : Option UniqueSelection
  withPrefix : Option Bool

/-- What a batch key depends on of `batch(...)`, with its paths parsed. -/
structure BatchAttr where
  path : Path
  key : Option BatchKeyConfig

namespace BatchAttr

def selection (attr : BatchAttr) : Option UniqueSelection := attr.key.bind (·.selection)

def prefixOn (attr : BatchAttr) : Bool := (attr.key.bind (·.withPrefix)).getD true

/-- The value that the generated method hashes (`emit_batch_key_hashable`). -/
def hashable (attr : BatchAttr) (payload : Value ν) : Value ν :=
  match attr.selection with
  | some (.only paths) => payloadOnly payload paths
  | some (.except userPaths) => payloadExcept payload (attr.path :: userPaths)
  | none => payloadExcept payload [attr.path]

/-- The key computed by the generated `batch()` of the job kind called `name`. -/
def batchKey (tokens : Tokens ν) (digest : Digest) (name : String) (attr : BatchAttr)
    (payload : Value ν) : String :=
  if attr.prefixOn then (UniqueKey.taggedHashOf tokens digest name (attr.hashable payload)).key
  else (UniqueKey.hashOf tokens digest (attr.hashable payload)).key

/-- The paths of an `only` list. -/
def onlyPaths (attr : BatchAttr) : List Path :=
  match attr.selection with
  | some (.only paths) => paths
  | _ => []

/-- No listed path contains the batch path or lies inside it. -/
def Disjoint (attr : BatchAttr) : Prop :=
  ∀ p ∈ attr.onlyPaths, ¬ p <+: attr.path ∧ ¬ attr.path <+: p

end BatchAttr

/-- Both payloads have a value at `path`, and differ in nothing else. -/
def DifferAt (path : Path) (s s' : Json ν) : Prop :=
  (walk s.value path).isSome ∧ ∃ v, s'.value = modify (fun _ => v) path s.value

/-- The data accumulated at the batch path does not influence the key. -/
def IgnoresData (tokens : Tokens ν) (digest : Digest) (name : String) (attr : BatchAttr) : Prop :=
  ∀ s s' : Json ν, DifferAt attr.path s s' →
    attr.batchKey tokens digest name s.value = attr.batchKey tokens digest name s'.value

/-! ### Replacing the value at a path -/

theorem setChild_setChild (step : PathStep) (w w' : Value ν) {v : Value ν} (hv : v.ordered = true) :
    setChild step w (setChild step w' v) = setChild step w v := by
  cases step with
  | field name =>
    cases v with
    | object m =>
      have hsorted := (ordered_object.mp hv).1
      refine congrArg Value.object (Assoc.ext ?_ (Assoc.sorted_insert name w hsorted) fun k => ?_)
      · exact Assoc.sorted_insert name w (Assoc.sorted_insert name w' hsorted)
      · rw [Assoc.get_insert, Assoc.get_insert, Assoc.get_insert]
        split <;> rfl
    | _ => rfl
  | index idx =>
    cases v with
    | array xs => exact congrArg Value.array (List.set_set ..)
    | _ => rfl

theorem deleteChild_setChild (step : PathStep) (w : Value ν) {v : Value ν} (hv : v.ordered = true) :
    deleteChild step (setChild step w v) = deleteChild step v := by
  cases step with
  | field name =>
    cases v with
    | object m =>
      have hsorted := (ordered_object.mp hv).1
      refine congrArg Value.object (Assoc.ext ?_ (Assoc.sorted_erase name hsorted) fun k => ?_)
      · exact Assoc.sorted_erase name (Assoc.sorted_insert name w hsorted)
      · rw [Assoc.get_erase, Assoc.get_insert, Assoc.get_erase]
        split <;> rfl
    | _ => rfl
  | index idx =>
    cases v with
    | array xs =>
      simp only [setChild, deleteChild, List.length_set, List.eraseIdx_set_eq]
      split
      · rfl
      · next hge => rw [List.set_eq_of_length_le (Nat.not_lt.mp hge)]
    | _ => rfl

/-- The removal of a path does not see what stood there. -/
theorem remove_modify {path : Path} {s v : Value ν} (hs : s.ordered = true)
    (hsome : (walk s path).isSome) : remove (modify (fun _ => v) path s) path = remove s path := by
  induction path generalizing s with
  | nil => rfl
  | cons step rest ih =>
    obtain ⟨y, hy⟩ := Option.isSome_iff_exists.mp hsome
    obtain ⟨x, hx, hrest⟩ := Option.bind_eq_some_iff.mp hy
    rw [modify_cons hx]
    by_cases hnil : rest = []
    · subst hnil
      exact deleteChild_setChild step _ hs
    · rw [remove_cons _ step hnil, remove_cons _ step hnil, child_setChild hx step, if_pos rfl, hx]
      show setChild step (remove (modify _ rest x) rest) _ = setChild step (remove x rest) s
      rw [setChild_setChild step _ _ hs, ih (ordered_child hs hx) (hrest ▸ rfl)]

theorem ordered_pick {s : Value ν} (paths : List Path) (hs : s.ordered = true) :
    (pick s paths).ordered = true := by
  by_cases hroot : [] ∈ paths
  · rwa [pick, pickFrom_root hroot]
  · obtain ⟨t, ht, heq⟩ := pickFrom_picked hs (picked_nil s) hroot
    rw [pick, heq]
    split
    · rfl
    · exact ht.ordered

/-! ### Payloads with one leaf -/

/-- The payload that has nothing but `leaf` at the end of the path. -/
def build : Path → Value ν → Value ν
  | [], leaf => leaf
  | .field name :: path, leaf => .object [(name, build path leaf)]
  | .index idx :: path, leaf => .array (List.replicate idx .null ++ [build path leaf])

theorem child_build (step : PathStep) (path : Path) (leaf : Value ν) :
    child step (build (step :: path) leaf) = some (build path leaf) := by
  cases step with
  | field name => simp [build, child, Assoc.get_cons]
  | index idx => simp [build, child]

theorem setChild_build (step : PathStep) (path : Path) (leaf : Value ν) (path' : Path) (leaf' : Value ν) :
    setChild step (build path' leaf') (build (step :: path) leaf) = build (step :: path') leaf' := by
  cases step with
  | field name => simp [build, setChild, Assoc.insert]
  | index idx => simp [build, setChild, List.set_append_right]

theorem ordered_build (path : Path) {leaf : Value ν} (hleaf : leaf.ordered = true) :
    (build path leaf).ordered = true := by
  induction path with
  | nil => exact hleaf
  | cons step path ih =>
    cases step with
    | field name =>
      exact ordered_object.mpr ⟨List.pairwise_singleton .., by simpa using ih⟩
    | index idx =>
      refine ordered_array.mpr fun x hx => ?_
      rcases List.mem_append.mp hx with hx | hx
      · exact List.eq_of_mem_replicate hx ▸ rfl
      · exact List.mem_singleton.mp hx ▸ ih

theorem walk_build (path rest : Path) (leaf : Value ν) :
    walk (build (path ++ rest) leaf) path = some (build rest leaf) := by
  induction path with
  | nil => rfl
  | cons step path ih => rw [List.cons_append, walk_cons, child_build, Option.bind_some, ih]

theorem modify_build (path rest : Path) (leaf leaf' : Value ν) :
    modify (fun _ => build rest leaf') path (build (path ++ rest) leaf) = build (path ++ rest) leaf' := by
  induction path with
  | nil => rfl
  | cons step path ih =>
    rw [List.cons_append, modify_cons (child_build step (path ++ rest) leaf), ih, setChild_build]

theorem build_injective {path : Path} {leaf leaf' : Value ν} (h : build path leaf = build path leaf') :
    leaf = leaf' := by
  have hleaf := walk_build path [] leaf
  have hleaf' := walk_build path [] leaf'
  rw [List.append_nil] at hleaf hleaf'
  exact Option.some.inj (hleaf.symm.trans ((congrArg (walk · path) h).trans hleaf'))

/-! ### When the key ignores the data -/

namespace BatchAttr

/-- A path into the payload below both the batch path and `p`, where one contains the other. -/
def probe (attr : BatchAttr) (p : Path) : Path := if p.length < attr.path.length then attr.path else p

/-- Two payloads that differ at the probe differ at the batch path only, and at `p`. -/
theorem probe_spec {attr : BatchAttr} {p : Path} (h : p <+: attr.path ∨ attr.path <+: p) :
    p <+: attr.probe p ∧ attr.path <+: attr.probe p := by
  rw [probe]
  rcases h with h | h
  · split
    · exact ⟨h, List.prefix_rfl⟩
    · next hle =>
      have := h.eq_of_length (by have := h.length_le; omega)
      exact ⟨List.prefix_rfl, this ▸ List.prefix_rfl⟩
  · rw [if_neg (by have := h.length_le; omega)]
    exact ⟨List.prefix_rfl, h⟩

theorem batchKey_congr (tokens : Tokens ν) (digest : Digest) (name : String) {attr : BatchAttr}
    {v w : Value ν} (h : attr.hashable v = attr.hashable w) :
    attr.batchKey tokens digest name v = attr.batchKey tokens digest name w := by
  rw [batchKey, batchKey, h]

theorem hashable_inj {tokens : Tokens ν} {digest : Digest} (ht : tokens.Lawful) {S : Set ByteArray}
    (hS : S.InjOn digest) {name : String} {attr : BatchAttr} {v w : Value ν}
    (hv : (attr.hashable v).ordered = true) (hw : (attr.hashable w).ordered = true)
    (hvS : canonicalBytes tokens (attr.hashable v) ∈ S)
    (hwS : canonicalBytes tokens (attr.hashable w) ∈ S)
    (h : attr.batchKey tokens digest name v = attr.batchKey tokens digest name w) :
    attr.hashable v = attr.hashable w := by
  have hhash : hashHex tokens digest (attr.hashable v) = hashHex tokens digest (attr.hashable w) := by
    rw [batchKey, batchKey] at h
    split at h
    · exact ((tagged_inj tokens digest).mp h).2
    · exact h
  have hsame := (hashHex_eq_iff (v := ⟨_, distinct_of_ordered hv⟩) (w := ⟨_, distinct_of_ordered hw⟩)
    ht hS hvS hwS).mp hhash
  exact hsame.eq hv hw

theorem hashable_of_only {attr : BatchAttr} {p : Path} (hp : p ∈ attr.onlyPaths) (v : Value ν) :
    attr.hashable v = pick v attr.onlyPaths := by
  unfold onlyPaths at hp ⊢
  unfold hashable
  cases hsel : attr.selection with
  | none => simp [hsel] at hp
  | some selection =>
    cases selection with
    | only paths => rfl
    | except userPaths => simp [hsel] at hp

theorem hashable_modify {attr : BatchAttr} (hdisjoint : attr.Disjoint) {s v : Value ν}
    (hs : s.ordered = true) (hsome : (walk s attr.path).isSome) :
    attr.hashable (modify (fun _ => v) attr.path s) = attr.hashable s := by
  unfold hashable
  cases hsel : attr.selection with
  | none => exact remove_modify hs hsome
  | some selection =>
    cases selection with
    | only paths =>
      refine pickFrom_congr fun p hp => ?_
      obtain ⟨hp₁, hp₂⟩ := hdisjoint p (by rw [onlyPaths, hsel]; exact hp)
      exact walk_modify_beside s hp₂ hp₁
    | except userPaths =>
      show payloadExcept (remove _ _) userPaths = payloadExcept (remove _ _) userPaths
      rw [remove_modify hs hsome]

end BatchAttr

/-- **Main theorem.** As long as the digest tells the listed probes apart, the key ignores the data
exactly when no path of an `only` list contains the batch path or lies inside it. -/
theorem ignoresData_iff {tokens : Tokens ν} {digest : Digest} (ht : tokens.Lawful) (name : String)
    (attr : BatchAttr) {S : Set ByteArray} (hS : S.InjOn digest)
    (hprobe : ∀ p ∈ attr.onlyPaths, ∀ b : Bool,
      canonicalBytes tokens (attr.hashable (build (attr.probe p) (.bool b))) ∈ S) :
    IgnoresData tokens digest name attr ↔ attr.Disjoint := by
  constructor
  · intro h p hp
    by_contra hcomparable
    have hor : p <+: attr.path ∨ attr.path <+: p := by
      by_contra hnone
      exact hcomparable (not_or.mp hnone)
    obtain ⟨⟨rest, hrest⟩, ⟨rest', hrest'⟩⟩ := BatchAttr.probe_spec hor
    let payload (b : Bool) : Json ν := ⟨build (attr.probe p) (.bool b), ordered_build _ rfl⟩
    have hdiffer : DifferAt attr.path (payload true) (payload false) := by
      constructor
      · show (walk (build (attr.probe p) _) attr.path).isSome
        rw [← hrest', walk_build]
        rfl
      · refine ⟨build rest' (.bool false), ?_⟩
        show build (attr.probe p) _ = modify _ attr.path (build (attr.probe p) _)
        rw [← hrest', modify_build]
    have honly (v : Value ν) := BatchAttr.hashable_of_only hp v
    have hordered (b : Bool) : (attr.hashable (payload b).value).ordered = true := by
      rw [honly]
      exact ordered_pick _ (payload b).ordered
    have heq := BatchAttr.hashable_inj ht hS (hordered true) (hordered false) (hprobe p hp true)
      (hprobe p hp false) (h _ _ hdiffer)
    rw [honly, honly] at heq
    have hwalk := (pick_eq_iff (payload true).ordered (payload false).ordered).mp heq p hp
    simp only [payload, ← hrest, walk_build] at hwalk
    exact nomatch build_injective (Option.some.inj hwalk)
  · rintro hdisjoint s s' ⟨hsome, v, hv⟩
    rw [hv]
    exact BatchAttr.batchKey_congr tokens digest name
      (BatchAttr.hashable_modify hdisjoint s.ordered hsome).symm

/-- SHA-256 on the texts of four payloads that carry nothing but the batched data. -/
def idsTable : List (String × Vector UInt8 32) :=
  [("\x7b\"ids\":[1]\x7d",
    #v[139, 124, 30, 170, 31, 80, 117, 247, 74, 162, 103, 227, 119, 51, 202, 80,
      124, 184, 175, 63, 47, 107, 26, 69, 152, 46, 187, 13, 153, 202, 67, 124]),
   ("\x7b\"ids\":[2]\x7d",
    #v[69, 205, 5, 121, 83, 80, 250, 223, 210, 121, 249, 253, 135, 147, 62, 117,
      167, 248, 14, 112, 104, 179, 131, 242, 142, 115, 116, 220, 217, 166, 222, 27]),
   ("\x7b\"ids\":true\x7d",
    #v[29, 95, 40, 186, 26, 155, 229, 144, 245, 206, 4, 177, 121, 42, 40, 64,
      184, 158, 248, 98, 43, 93, 48, 188, 104, 237, 88, 205, 154, 176, 250, 70]),
   ("\x7b\"ids\":false\x7d",
    #v[36, 122, 112, 79, 184, 106, 147, 146, 106, 164, 249, 195, 174, 248, 23, 211,
      232, 229, 55, 218, 52, 17, 249, 144, 106, 130, 68, 55, 169, 19, 126, 71])]

/-- `batch(path = ".ids", limit = .., key(only = [".ids"]))` -/
def idsOnly : BatchAttr := ⟨[.field "ids"], some ⟨some (.only [[.field "ids"]]), none⟩⟩

theorem ignoresData_iff_idsOnly :
    IgnoresData natTokens (tableDigest idsTable) "push" idsOnly ↔ idsOnly.Disjoint := by
  refine ignoresData_iff natTokens_lawful "push" idsOnly (tableDigest_injOn (by decide)) fun p hp b => ?_
  obtain rfl := List.mem_singleton.mp hp
  cases b
  · exact mem_tableTexts (by decide)
  · exact mem_tableTexts (by decide)

/-- With the batch path in its own `only` list, every payload keeps its own key. -/
theorem not_ignoresData_idsOnly :
    ¬ IgnoresData natTokens (tableDigest idsTable) "push" idsOnly := by
  intro h
  let payload (n : Nat) : Json Nat := ⟨.object [("ids", .array [.number n])], rfl⟩
  have heq := h (payload 1) (payload 2) ⟨rfl, .array [.number 2], rfl⟩
  have hhash := BatchAttr.hashable_inj natTokens_lawful (tableDigest_injOn (by decide)) rfl rfl
    (mem_tableTexts (by decide)) (mem_tableTexts (by decide)) heq
  exact absurd hhash (by decide)

end Zizq.Key
