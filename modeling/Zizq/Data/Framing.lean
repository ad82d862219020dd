import Mathlib.Data.List.Basic

/-! Incremental decoders.

A decoder looks at the front of a buffer and either takes a record off it, fails, or
asks for more input, having skipped what it will not look at again. The law of a
`Decoder` says that what it finds does not change when bytes are added behind, so
that a decoder which waits may drop what it has skipped
(`decodeAll_needMore_append`).

An `Encoder` writes items for a decoder: what it finds at the front of an item is the
item's result, and in front of a cut item it waits. Cut anywhere, the encoding of a
list of items holds the results of the items wholly before the cut
(`decodeAll_take`). -/
namespace Zizq.Data.Framing
universe u v w
variable {β : Type u} {α : Type v} {ε : Type w}

/-- What a decoder finds at the front of a buffer, with the bytes that are left of it. -/
inductive Result (β : Type u) (α : Type v) (ε : Type w) where
  | record (a : α) (rest : List β)
  | error (e : ε) (rest : List β)
  | needMore (rest : List β)

/-- The result on a buffer with `more` behind it; only a decoder that waits looks at `more`. -/
def Result.extend (decode : List β → Result β α ε) (more : List β) : Result β α ε → Result β α ε
  | .record a rest => .record a (rest ++ more)
  | .error e rest => .error e (rest ++ more)
  | .needMore rest => decode (rest ++ more)

structure Decoder (β : Type u) (α : Type v) (ε : Type w) where
  decode : List β → Result β α ε
  /-- A record takes at least one byte off the buffer. -/
  progress : ∀ {b : List β} {a : α} {rest : List β}, decode b = .record a rest → rest.length < b.length
  decode_append : ∀ b more, decode (b ++ more) = (decode b).extend decode more

/-- How decoding a whole buffer ends. -/
inductive Ending (β : Type u) (ε : Type w) where
  | failed (e : ε)
  | waiting (rest : List β)

/-- The records at the front of a buffer, and how they end. -/
def decodeAll (d : Decoder β α ε) (b : List β) : List α × Ending β ε :=
  match _h : d.decode b with
  | .record a rest => (a :: (decodeAll d rest).1, (decodeAll d rest).2)
  | .error e _ => ([], .failed e)
  | .needMore rest => ([], .waiting rest)
termination_by b.length
decreasing_by all_goals exact d.progress _h

section All
variable (d : Decoder β α ε) {b rest : List β}

theorem decodeAll_record {a : α} (h : d.decode b = .record a rest) :
    decodeAll d b = (a :: (decodeAll d rest).1, (decodeAll d rest).2) := by
  rw [decodeAll]
  split <;> simp_all

theorem decodeAll_error {e : ε} (h : d.decode b = .error e rest) : decodeAll d b = ([], .failed e) := by
  rw [decodeAll]
  split <;> simp_all

theorem decodeAll_needMore (h : d.decode b = .needMore rest) : decodeAll d b = ([], .waiting rest) := by
  rw [decodeAll]
  split <;> simp_all

/-- Buffers at which the decoder finds the same have the same records. -/
theorem decodeAll_congr {b b' : List β} (h : d.decode b = d.decode b') : decodeAll d b = decodeAll d b' := by
  cases hb : d.decode b' with
  | record a rest => rw [decodeAll_record d hb, decodeAll_record d (h.trans hb)]
  | error e rest => rw [decodeAll_error d hb, decodeAll_error d (h.trans hb)]
  | needMore rest => rw [decodeAll_needMore d hb, decodeAll_needMore d (h.trans hb)]

/-- A buffer at which the decoder waits goes on, with more input, as what is left of it does. -/
theorem decodeAll_needMore_append (h : d.decode b = .needMore rest) (more : List β) :
    decodeAll d (b ++ more) = decodeAll d (rest ++ more) :=
  decodeAll_congr d (by rw [d.decode_append b, h]; rfl)

end All

/-! ### Encodings -/

/-- What a decoder finds at an item with `rest` behind it: the item's result, and for an item without
one what it finds at `rest`. -/
def Result.ofItem (decode : List β → Result β α ε) (rest : List β) : Option (Except ε α) → Result β α ε
  | none => decode rest
  | some (.ok a) => .record a rest
  | some (.error e) => .error e rest

/-- A way to write items for a decoder, some of which it skips. -/
structure Encoder (d : Decoder β α ε) (ι : Type*) where
  encode : ι → List β
  result : ι → Option (Except ε α)
  decode_nil : d.decode [] = .needMore []
  decode_whole : ∀ (item : ι) (rest : List β),
    d.decode (encode item ++ rest) = .ofItem d.decode rest (result item)
  decode_cut : ∀ {item : ι} {t : List β}, t <+: encode item → t ≠ encode item → t ≠ [] →
    ∃ rest, d.decode t = .needMore rest ∧ rest ≠ []

/-- What decoding finds where the results are in front of `left`. -/
def found (left : List β) : List (Except ε α) → List α × Ending β ε
  | [] => ([], .waiting left)
  | .ok a :: results => (a :: (found left results).1, (found left results).2)
  | .error e :: _ => ([], .failed e)

namespace Encoder
variable {d : Decoder β α ε} {ι : Type*} (encoder : Encoder d ι)

def encodeAll (items : List ι) : List β := items.flatMap encoder.encode

theorem encodeAll_cons (item : ι) (items : List ι) :
    encoder.encodeAll (item :: items) = encoder.encode item ++ encoder.encodeAll items := List.flatMap_cons

/-- The items that lie wholly before the cut. -/
def whole (n : Nat) : List ι → List ι
  | [] => []
  | item :: items =>
    if (encoder.encode item).length ≤ n then item :: whole (n - (encoder.encode item).length) items else []

theorem whole_length (items : List ι) : encoder.whole (encoder.encodeAll items).length items = items := by
  induction items with
  | nil => rfl
  | cons item items ih =>
    rw [encodeAll_cons, List.length_append, whole, if_pos (Nat.le_add_right _ _), Nat.add_sub_cancel_left, ih]

theorem decodeAll_whole (item : ι) (rest : List β) :
    decodeAll d (encoder.encode item ++ rest) =
      match encoder.result item with
      | none => decodeAll d rest
      | some (.ok a) => (a :: (decodeAll d rest).1, (decodeAll d rest).2)
      | some (.error e) => ([], .failed e) := by
  have hdecode := encoder.decode_whole item rest
  cases hresult : encoder.result item with
  | none => exact decodeAll_congr d (by rw [hdecode, hresult]; rfl)
  | some r =>
    cases r with
    | ok a => exact decodeAll_record d (by rw [hdecode, hresult]; rfl)
    | error e => exact decodeAll_error d (by rw [hdecode, hresult]; rfl)

/-- Where the decoder ends up waiting, the results of the items in front have all been found. -/
theorem results_leading (items : List ι) {rest left : List β} {as : List α}
    (h : decodeAll d (encoder.encodeAll items ++ rest) = (as, .waiting left)) :
    items.filterMap encoder.result <+: as.map .ok := by
  induction items generalizing as with
  | nil => exact List.nil_prefix
  | cons item items ih =>
    rw [encodeAll_cons, List.append_assoc, decodeAll_whole] at h
    rw [List.filterMap_cons]
    cases hresult : encoder.result item with
    | none =>
      rw [hresult] at h
      exact ih h
    | some r =>
      rw [hresult] at h
      cases r with
      | ok a =>
        obtain ⟨rfl, hend⟩ := Prod.mk.inj h
        exact List.cons_prefix_cons.mpr ⟨rfl, ih (Prod.ext rfl hend)⟩
      | error e => cases h

/-- A cut encoding holds the results of the items before the cut, and then nothing if the cut is on the
boundary of an item. -/
theorem decodeAll_take (items : List ι) (n : Nat) (hn : n ≤ (encoder.encodeAll items).length) :
    ∃ left, decodeAll d ((encoder.encodeAll items).take n) =
        found left ((encoder.whole n items).filterMap encoder.result) ∧
      (left = [] ↔ (encoder.encodeAll (encoder.whole n items)).length = n) := by
  induction items generalizing n with
  | nil =>
    obtain rfl : n = 0 := by simpa [encodeAll] using hn
    exact ⟨[], decodeAll_needMore d encoder.decode_nil, by simp [encodeAll, whole]⟩
  | cons item items ih =>
    rw [encodeAll_cons, List.length_append] at hn
    rw [encodeAll_cons, List.take_append, whole]
    by_cases hle : (encoder.encode item).length ≤ n
    · obtain ⟨left, hdecode, hleft⟩ := ih (n - (encoder.encode item).length) (by omega)
      rw [if_pos hle, List.take_of_length_le hle, decodeAll_whole, hdecode]
      refine ⟨left, ?_, ?_⟩
      · rw [List.filterMap_cons]
        cases encoder.result item with
        | none => rfl
        | some r => cases r <;> rfl
      · rw [hleft, encodeAll_cons, List.length_append]
        omega
    · have hcut : (encoder.encode item).take n ≠ encoder.encode item := fun heq => hle (by
        have := congrArg List.length heq
        rw [List.length_take] at this
        omega)
      rw [if_neg hle, Nat.sub_eq_zero_of_le (by omega), List.take_zero, List.append_nil]
      by_cases hzero : n = 0
      · subst hzero
        exact ⟨[], decodeAll_needMore d encoder.decode_nil, by simp [encodeAll]⟩
      · have hne : (encoder.encode item).take n ≠ [] := by
          rw [Ne, List.take_eq_nil_iff, not_or]
          exact ⟨hzero, fun hnil => hle (by simp [hnil])⟩
        obtain ⟨rest, hdecode, hrest⟩ := encoder.decode_cut (List.take_prefix n _) hcut hne
        refine ⟨rest, decodeAll_needMore d hdecode, ?_⟩
        simp [encodeAll, hrest, Ne.symm hzero]

end Encoder

end Zizq.Data.Framing
