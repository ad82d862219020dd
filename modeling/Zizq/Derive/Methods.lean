import Zizq.Batch.Pending
import Zizq.Derive.Emit
import Zizq.Derive.Spelled
import Zizq.Json.Except

/-! What the emitted methods promise.

Two payloads have the same unique key exactly if they hold the same wherever the
attribute looks (`uniqueKey_eq_iff`). A batch has the key of every payload in it, since
what is folded is what the key leaves out (`kind_batched`). -/
namespace Zizq.Derive
open Data Json
variable {ν : Type}

/-! ### Unique keys -/

namespace UniqueKeyFn

/-- The payloads hold the same at the paths of an `only` list, or at every location outside of those of an
`except` list, or at every location. -/
def Agree (fn : UniqueKeyFn) (s s' : Json ν) : Prop :=
  match fn.selection with
  | none => s.value = s'.value
  | some (.only paths) => ∀ p ∈ paths, walk s.value p = walk s'.value p
  | some (.except paths) =>
    ∀ q, (∀ p ∈ paths, ¬ p <+: q) → (walk s.value q).map kind = (walk s'.value q).map kind

def exceptPaths (fn : UniqueKeyFn) : List Path :=
  match fn.selection with
  | some (.except paths) => paths
  | _ => []

theorem ordered_hashable (fn : UniqueKeyFn) (s : Json ν) : (fn.hashable s.value).ordered = true := by
  rw [hashable]
  split
  · exact s.ordered
  · exact Key.ordered_pick _ s.ordered
  · exact ordered_payloadExcept _ s.ordered

theorem hashable_eq_iff {fn : UniqueKeyFn} {s s' : Json ν} (h : Settled fn.exceptPaths s.value)
    (h' : Settled fn.exceptPaths s'.value) : fn.hashable s.value = fn.hashable s'.value ↔ fn.Agree s s' := by
  obtain ⟨selection, prefixOn, scope⟩ := fn
  cases selection with
  | none => exact Iff.rfl
  | some selection =>
    cases selection with
    | only paths => exact pick_eq_iff s.ordered s'.ordered
    | except paths =>
      show payloadExcept s.value paths = payloadExcept s'.value paths ↔ _
      have hsettled : Settled paths s.value := h
      have hsettled' : Settled paths s'.value := h'
      rw [payloadExcept_eq_deleteAll s.ordered hsettled, payloadExcept_eq_deleteAll s'.ordered hsettled']
      exact deleteAll_eq_iff s.ordered s'.ordered hsettled hsettled'

variable {tokens : Key.Tokens ν} {digest : Key.Digest}

theorem key_uniqueKey (name : String) (fn : UniqueKeyFn) (payload : Value ν) :
    (fn.uniqueKey tokens digest name payload).key =
      if fn.prefixOn then name ++ ":" ++ Key.hashHex tokens digest (fn.hashable payload)
      else Key.hashHex tokens digest (fn.hashable payload) := by
  rw [uniqueKey]
  cases fn.scope with
  | none => cases fn.prefixOn <;> rfl
  | some scope => cases fn.prefixOn <;> rfl

theorem hashHex_hashable_eq_iff (ht : tokens.Lawful) {S : Set ByteArray} (hS : S.InjOn digest)
    {fn fn' : UniqueKeyFn} {s s' : Json ν} (hs : Key.canonicalBytes tokens (fn.hashable s.value) ∈ S)
    (hs' : Key.canonicalBytes tokens (fn'.hashable s'.value) ∈ S) :
    Key.hashHex tokens digest (fn.hashable s.value) = Key.hashHex tokens digest (fn'.hashable s'.value) ↔
      fn.hashable s.value = fn'.hashable s'.value := by
  have hordered := fn.ordered_hashable s
  have hordered' := fn'.ordered_hashable s'
  constructor
  · intro h
    have hsame := (Key.hashHex_eq_iff (v := ⟨_, Key.distinct_of_ordered hordered⟩)
      (w := ⟨_, Key.distinct_of_ordered hordered'⟩) ht hS hs hs').mp h
    exact hsame.eq hordered hordered'
  · intro h
    rw [h]

theorem key_eq_key_iff (ht : tokens.Lawful) {S : Set ByteArray} (hS : S.InjOn digest) {name name' : String}
    {fn fn' : UniqueKeyFn} {s s' : Json ν} (hs : Key.canonicalBytes tokens (fn.hashable s.value) ∈ S)
    (hs' : Key.canonicalBytes tokens (fn'.hashable s'.value) ∈ S) :
    (fn.uniqueKey tokens digest name s.value).key = (fn'.uniqueKey tokens digest name' s'.value).key ↔
      fn.prefixOn = fn'.prefixOn ∧ (fn.prefixOn = true → name = name') ∧
        fn.hashable s.value = fn'.hashable s'.value := by
  rw [key_uniqueKey, key_uniqueKey, ← hashHex_hashable_eq_iff ht hS hs hs']
  cases fn.prefixOn with
  | true =>
    cases fn'.prefixOn with
    | true => simp [Key.tagged_inj]
    | false => simp [Key.tagged_ne_untagged]
  | false =>
    cases fn'.prefixOn with
    | true => simp [(Key.tagged_ne_untagged tokens digest _ _ _).symm]
    | false => simp

end UniqueKeyFn

/-- **Main theorem.** As long as the digest has no collision among the texts compared, two payloads of a kind have
the same key exactly if they hold the same wherever its attribute looks. The keys of two kinds are equal only if
both are tagged, with one name, or both are not, and what is hashed is equal. -/
theorem uniqueKey_eq_iff {tokens : Key.Tokens ν} {digest : Key.Digest} (ht : tokens.Lawful) {S : Set ByteArray}
    (hS : S.InjOn digest) (name : String) (fn : UniqueKeyFn) (s s' : Json ν)
    (hs : Key.canonicalBytes tokens (fn.hashable s.value) ∈ S)
    (hs' : Key.canonicalBytes tokens (fn.hashable s'.value) ∈ S) (hsettled : Settled fn.exceptPaths s.value)
    (hsettled' : Settled fn.exceptPaths s'.value) :
    ((fn.uniqueKey tokens digest name s.value).key = (fn.uniqueKey tokens digest name s'.value).key ↔
      fn.Agree s s') ∧
    ∀ (name' : String) (fn' : UniqueKeyFn), Key.canonicalBytes tokens (fn'.hashable s'.value) ∈ S →
      ((fn.uniqueKey tokens digest name s.value).key = (fn'.uniqueKey tokens digest name' s'.value).key ↔
        fn.prefixOn = fn'.prefixOn ∧ (fn.prefixOn = true → name = name') ∧
          fn.hashable s.value = fn'.hashable s'.value) := by
  constructor
  · rw [UniqueKeyFn.key_eq_key_iff ht hS hs hs', UniqueKeyFn.hashable_eq_iff hsettled hsettled']
    simp
  · intro name' fn' hother
    exact UniqueKeyFn.key_eq_key_iff ht hS hs hother

/-- `unique(except = [".b"])` -/
def exceptB : UniqueKeyFn := ⟨some (.except [[.field "b"]]), true, none⟩

/-- `{"a":1,"b":[true,"x"]}` -/
def withB : Json Nat := ⟨.object [("a", .number 1), ("b", .array [.bool true, .string "x"])], by decide⟩

/-- `{"a":1}` -/
def withoutB : Json Nat := ⟨.object [("a", .number 1)], by decide⟩

theorem uniqueKey_eq_iff_exceptB :
    let key (fn : UniqueKeyFn) (name : String) (s : Json Nat) :=
      (fn.uniqueKey Key.natTokens (Key.tableDigest Key.sampleTable) name s.value).key
    (key exceptB "push" withB = key exceptB "push" withoutB ↔ exceptB.Agree withB withoutB) ∧
      key exceptB "push" withB ≠ key ⟨none, true, none⟩ "mail" withoutB := by
  intro key
  have hsettled (s : Json Nat) : Settled exceptB.exceptPaths s.value := by
    intro q i hi _
    have hlast := congrArg List.getLast? (List.mem_singleton.mp hi)
    rw [List.getLast?_concat] at hlast
    cases hlast
  have hdigest : (Key.tableTexts Key.sampleTable).InjOn (Key.tableDigest Key.sampleTable) :=
    Key.tableDigest_injOn (by decide)
  have hknown (fn : UniqueKeyFn) (s : Json Nat)
      (h : ∃ e ∈ Key.sampleTable, e.1.toList = Key.writeCanonical Key.natTokens (fn.hashable s.value)) :
      Key.canonicalBytes Key.natTokens (fn.hashable s.value) ∈ Key.tableTexts Key.sampleTable := Key.mem_tableTexts h
  obtain ⟨hsame, hother⟩ := uniqueKey_eq_iff Key.natTokens_lawful hdigest "push" exceptB withB withoutB
    (hknown _ _ (by decide)) (hknown _ _ (by decide)) (hsettled _) (hsettled _)
  refine ⟨hsame, fun heq => ?_⟩
  have hname := ((hother "mail" ⟨none, true, none⟩ (hknown _ _ (by decide))).mp heq).2.1 rfl
  exact absurd hname (by decide)

/-! ### Batches -/

section Batches
variable {τ : Type} {platform : Platform} {batch : BatchAttr τ} {fn : BatchFn τ} {path : Jq.PathText}

theorem BatchFn.batch_eq (tokens : Key.Tokens ν) (digest : Key.Digest) (name : String) (limit : Nat)
    (hfn : fn.Implements platform batch) (hpath : batch.path = path.text) (payload : Json ν) :
    fn.batch tokens digest name limit payload.value =
      Batch.configOf path limit (Batch.modeOf fn.fold.calls)
        (fun payload => fn.key.batchKey tokens digest name payload.value) payload := by
  rw [BatchFn.batch, Batch.foldl_apply, Batch.configOf, hfn.text, hpath]

end Batches

end Zizq.Derive
