import Zizq.Client.Serde
import Zizq.Key.UniqueKey

/-! Enqueue requests and the payload that the server reads.

`into_request` wraps the payload of a zero-sized type in a serializer that rewrites
the outermost call only, so unit structs further inside keep the difference between
the formats (`payload_format_iff`). -/
namespace Zizq.Client
open Data Key
variable {ν : Type}

/-- A payload: a value whose structs and maps have each member once. -/
structure Payload (ν : Type) where
  datum : Datum ν
  distinct : datum.distinct = true

/-- `ZstFixupSerializer`: a unit struct becomes a unit, every other call goes through as it is. -/
def zstFixup {Ok : Type} (serializer : Serializer ν Ok) : Serializer ν Ok :=
  { serializer with serializeUnitStruct := fun _ => serializer.serializeUnit }

/-! ### Requests -/

/-- A payload behind the type-erased `Serialize` it is boxed as. -/
abbrev Erased (ν : Type) := Serializer ν (Value ν) → Value ν

section Request
variable (Backoff Retention Batch Budget : Type)

/-- The constants of a `JobKind` impl, and whether its type is zero-sized. -/
structure JobKind where
  name : String
  queue : String
  priority : Option UInt16
  retryLimit : Option UInt32
  backoff : Option Backoff
  retention : Option Retention
  budgets : List Budget
  zeroSized : Bool

/-- The overrides of an enqueue call, with the payload and what it derives. -/
structure EnqueueBuilder (ν : Type) where
  payload : Payload ν
  payloadUniqueKey : Option UniqueKey
  payloadBatch : Option Batch
  queue : Option String
  priority : Option UInt16
  readyAtMs : Option UInt64
  retryLimit : Option UInt32
  backoff : Option Backoff
  retention : Option Retention
  uniqueKey : Option UniqueKey
  batch : Option Batch
  budgets : Option (List Budget)

structure EnqueueRequest (ν : Type) where
  jobType : String
  queue : String
  payload : Erased ν
  priority : Option UInt16
  readyAt : Option UInt64
  retryLimit : Option UInt32
  backoff : Option Backoff
  retention : Option Retention
  uniqueKey : Option String
  uniqueWhile : Option UniqueScope
  batch : Option Batch
  budgets : List Budget

variable {Backoff Retention Batch Budget}

/-- The payload of a zero-sized type is wrapped (`ZstPayload`), any other is boxed as it is. -/
def boxPayload (zeroSized : Bool) (payload : Datum ν) : Erased ν := fun serializer =>
  if zeroSized then payload.serialize (zstFixup serializer) else payload.serialize serializer

def intoRequest (kind : JobKind Backoff Retention Budget)
    (builder : EnqueueBuilder Backoff Retention Batch Budget ν) :
    EnqueueRequest Backoff Retention Batch Budget ν :=
  let uniqueKey := builder.uniqueKey <|> builder.payloadUniqueKey
  { jobType := kind.name
    queue := builder.queue.getD kind.queue
    payload := boxPayload kind.zeroSized builder.payload.datum
    priority := builder.priority <|> kind.priority
    readyAt := builder.readyAtMs
    retryLimit := builder.retryLimit <|> kind.retryLimit
    backoff := builder.backoff <|> kind.backoff
    retention := builder.retention <|> kind.retention
    uniqueKey := uniqueKey.map (·.key)
    uniqueWhile := uniqueKey.bind (·.scope)
    batch := builder.batch <|> builder.payloadBatch
    budgets := builder.budgets.getD kind.budgets }

/-- The payload field that the server reads from the body that `encode_body` makes of a request. -/
def payloadRead (format : Format) (request : EnqueueRequest Backoff Retention Batch Budget ν) :
    Value ν := request.payload (formatSerializer format)

/-- The wrapper changes only a payload that is itself a unit struct. -/
theorem boxPayload_eq {zeroSized : Bool} {d : Datum ν} (format : Format)
    (h : zeroSized = false ∨ ∀ name, d ≠ .unitStruct name) :
    boxPayload zeroSized d (formatSerializer format) = wireValue format d := by
  rcases h with rfl | h
  · exact serialize_formatSerializer format d
  · cases d with
    | unitStruct name => exact absurd rfl (h name)
    | _ => cases zeroSized <;> rfl

/-- **Main theorem.** The server reads the same payload from both formats exactly when the
payload holds no unit struct, or is nothing but one and of a zero-sized type. -/
theorem payload_format_iff (kind : JobKind Backoff Retention Budget)
    (builder : EnqueueBuilder Backoff Retention Batch Budget ν) :
    payloadRead .json (intoRequest kind builder) = payloadRead .messagePack (intoRequest kind builder) ↔
      builder.payload.datum.plain = true ∨
        kind.zeroSized = true ∧ ∃ name, builder.payload.datum = .unitStruct name := by
  show boxPayload kind.zeroSized builder.payload.datum _ =
    boxPayload kind.zeroSized builder.payload.datum _ ↔ _
  have hplain := wireValue_format_iff builder.payload.distinct
  by_cases hwrapped : kind.zeroSized = true ∧ ∃ name, builder.payload.datum = .unitStruct name
  · obtain ⟨hz, name, hd⟩ := hwrapped
    rw [hz, hd]
    simp only [boxPayload, Datum.serialize, zstFixup, formatSerializer]
    simp
  · have hbox : kind.zeroSized = false ∨ ∀ name, builder.payload.datum ≠ .unitStruct name := by
      rw [not_and_or, Bool.not_eq_true, not_exists] at hwrapped
      exact hwrapped
    rw [boxPayload_eq .json hbox, boxPayload_eq .messagePack hbox, hplain, or_iff_left hwrapped]

/-- A unit struct in a field: null through JSON, an empty array through MessagePack. -/
theorem not_payload_format_field :
    ¬ ∀ (kind : JobKind Unit Unit Unit) (builder : EnqueueBuilder Unit Unit Unit Unit Nat),
      payloadRead .json (intoRequest kind builder) =
        payloadRead .messagePack (intoRequest kind builder) := by
  intro h
  let payload : Payload Nat := ⟨.struct "Job" [("marker", .unitStruct "Marker")], by decide⟩
  have := h ⟨"job", "default", none, none, none, none, [], false⟩
    ⟨payload, none, none, none, none, none, none, none, none, none, none, none⟩
  revert this
  decide

end Request

end Zizq.Client
