import Zizq.Client.JobFilter
import Zizq.Client.Page
import Zizq.Client.Response

/-! The builders that act on every job a filter selects.

Each asks `matches_nothing` before it builds a request, so that a filter set to an
empty list never becomes a request without that filter (`await_nothing`). Any other
filter is sent with the pairs that it appends (`await_something`). -/
namespace Zizq.Client

inductive Order where
  | asc | desc
deriving DecidableEq

def Order.asStr : Order → String
  | .asc => "asc"
  | .desc => "desc"

structure PageLinks where
  next : Option String
  prev : Option String

structure JobPage (J : Type) where
  jobs : List J
  pages : PageLinks

def JobPage.empty {J : Type} : JobPage J := ⟨[], ⟨none, none⟩⟩

/-- The outcome of a change of budget bindings. -/
structure BudgetChange where
  changed : UInt64
  blocked : List String

structure BudgetBindingInput (Policy : Type) where
  key : String
  cost : Option UInt32
  createWith : Option Policy

structure BindingBody (Policy : Type) where
  cost : Option UInt32
  createWith : Option Policy

structure CostBody where
  cost : UInt32

def BudgetBindingInput.body {Policy : Type} (binding : BudgetBindingInput Policy) : BindingBody Policy :=
  ⟨binding.cost, binding.createWith⟩

/-! ### Requests -/

/-- A URL, and the pairs that are appended to its query. -/
structure Target where
  url : AbsoluteUrl
  pairs : List (String × String)

structure Request where
  method : Method
  target : Target
  body : Option Bytes

/-- What awaiting comes to: a result at once, or a request, whose exchange settles it. -/
inductive Awaited (α : Type) where
  | ready (result : Except ZizqError α)
  | send (request : Request) (settle : Exchange → Except ZizqError α)

/-- The codecs of the bodies that these endpoints take and return. -/
structure BulkCodec (J Patch Policy : Type) extends Codec J where
  encodePatch : Format → Patch → Except String Bytes
  encodeBinding : Format → BindingBody Policy → Except String Bytes
  encodeCost : Format → CostBody → Except String Bytes
  decodePage : Format → Bytes → Except String (JobPage J)
  decodeCount : Format → Bytes → Except String UInt64
  decodeDeleted : Format → Bytes → Except String UInt64
  decodePatched : Format → Bytes → Except String UInt64
  decodeChange : Format → Bytes → Except String BudgetChange

section Builders
variable {J Patch Policy α : Type} (crate : UrlCrate) (codec : BulkCodec J Patch Policy)
  (base : AbsoluteUrl) (configured : Format)

/-- The body of a successful response, decoded; any other response is an error. -/
def settle (decode : Format → Bytes → Except String α) : Exchange → Except ZizqError α
  | .error source => .error (.transport source)
  | .ok response =>
    match response.body with
    | .error source => .error (.transport source)
    | .ok body =>
      let format := responseFormat configured response
      if response.isSuccess then (decode format body).mapError .decode
      else .error (.response response.status (extractErrorMessage codec.toCodec body format))

/-- `send_decoded`: a request without a body. -/
def sendDecoded (method : Method) (target : Target) (decode : Format → Bytes → Except String α) : Awaited α :=
  .send ⟨method, target, none⟩ (settle codec configured decode)

/-- `send_body_decoded` and `patch_decoded`: the body is encoded first. -/
def sendBodyDecoded (method : Method) (target : Target) (body : Except String Bytes)
    (decode : Format → Bytes → Except String α) : Awaited α :=
  match body with
  | .error message => .ready (.error (.encode message))
  | .ok bytes => .send ⟨method, target, some bytes⟩ (settle codec configured decode)

/-- The URL of an endpoint; its query is only touched if there is a pair to append. -/
def filteredUrl (segments : List String) (filters : JobFilter) : Target where
  url := requestUrl crate base segments
  pairs := if filters.hasParams then filters.appendTo else []

/-! ### Listing -/

structure ListJobsBuilder where
  filters : JobFilter := {}
  fromId : Option String := none
  order : Option Order := none
  limit : Option UInt16 := none

/-- The pairs of the paging parameters. -/
def ListJobsBuilder.paging (builder : ListJobsBuilder) : List (String × String) :=
  valuePair "from" (fun s => s) builder.fromId ++ valuePair "order" Order.asStr builder.order ++
    valuePair "limit" (fun n => toString n.toNat) builder.limit

def ListJobsBuilder.buildUrl (builder : ListJobsBuilder) : Target where
  url := requestUrl crate base ["jobs"]
  pairs :=
    if builder.fromId.isSome || builder.order.isSome || builder.limit.isSome ||
        builder.filters.hasParams then
      builder.paging ++ builder.filters.appendTo
    else []

def ListJobsBuilder.intoFuture (builder : ListJobsBuilder) : Awaited (JobPage J) :=
  if builder.filters.matchesNothing then .ready (.ok .empty)
  else sendDecoded codec configured .get (builder.buildUrl crate base) codec.decodePage

/-- Where the stream fetches its next page from. -/
inductive PageCursor where
  | first (target : Target)
  | next (path : String)
  | done

structure JobStreamState (J : Type) where
  buffer : List J
  cursor : PageCursor

def ListJobsBuilder.stream (builder : ListJobsBuilder) : JobStreamState J where
  buffer := []
  cursor := if builder.filters.matchesNothing then .done else .first (builder.buildUrl crate base)

/-- What the stream does with a drained buffer: fetch the next page, or end. -/
def PageCursor.fetch : PageCursor → Awaited (Option (JobPage J))
  | .first target =>
    sendDecoded codec configured .get target fun format body => (codec.decodePage format body).map some
  | .next path =>
    match resolvePagePath crate base path.toList with
    | .error e => .ready (.error e)
    | .ok url =>
      sendDecoded codec configured .get ⟨url, []⟩ fun format body => (codec.decodePage format body).map some
  | .done => .ready (.ok none)

/-! ### Counting, deleting, patching -/

structure CountJobsBuilder where
  filters : JobFilter := {}

def CountJobsBuilder.buildUrl (builder : CountJobsBuilder) : Target :=
  filteredUrl crate base ["jobs", "count"] builder.filters

def CountJobsBuilder.intoFuture (builder : CountJobsBuilder) : Awaited UInt64 :=
  if builder.filters.matchesNothing then .ready (.ok 0)
  else sendDecoded codec configured .get (builder.buildUrl crate base) codec.decodeCount

structure DeleteJobsBuilder where
  filters : JobFilter := {}

def DeleteJobsBuilder.buildUrl (builder : DeleteJobsBuilder) : Target :=
  filteredUrl crate base ["jobs"] builder.filters

def DeleteJobsBuilder.intoFuture (builder : DeleteJobsBuilder) : Awaited UInt64 :=
  if builder.filters.matchesNothing then .ready (.ok 0)
  else sendDecoded codec configured .delete (builder.buildUrl crate base) codec.decodeDeleted

structure PatchJobsBuilder (Patch : Type) where
  filters : JobFilter := {}
  patch : Option Patch := none

def PatchJobsBuilder.buildUrl (builder : PatchJobsBuilder Patch) : Target :=
  filteredUrl crate base ["jobs"] builder.filters

def PatchJobsBuilder.intoFuture (builder : PatchJobsBuilder Patch) : Awaited UInt64 :=
  match builder.patch with
  -- a missing patch comes before an empty filter
  | none => .ready (.error .missingPatch)
  | some patch =>
    if builder.filters.matchesNothing then .ready (.ok 0)
    else
      sendBodyDecoded codec configured .patch (builder.buildUrl crate base)
        (codec.encodePatch configured patch) codec.decodePatched

/-! ### Budgets -/

inductive Operation (Policy : Type) where
  | bind (binding : BudgetBindingInput Policy)
  | rebind (binding : BudgetBindingInput Policy)
  | setCost (key : String) (cost : UInt32)
  | unbind (key : String)
  | clear

structure BudgetJobsBuilder (Policy : Type) where
  filters : JobFilter := {}
  operation : Operation Policy

def BudgetJobsBuilder.buildUrl (builder : BudgetJobsBuilder Policy) : Target :=
  let segments :=
    match builder.operation with
    | .bind binding | .rebind binding => ["jobs", "budgets", binding.key]
    | .setCost key _ | .unbind key => ["jobs", "budgets", key]
    | .clear => ["jobs", "budgets"]
  filteredUrl crate base segments builder.filters

def BudgetJobsBuilder.intoFuture (builder : BudgetJobsBuilder Policy) : Awaited BudgetChange :=
  if builder.filters.matchesNothing then .ready (.ok ⟨0, []⟩)
  else
    let target := builder.buildUrl crate base
    match builder.operation with
    | .bind binding =>
      sendBodyDecoded codec configured .post target (codec.encodeBinding configured binding.body)
        codec.decodeChange
    | .rebind binding =>
      sendBodyDecoded codec configured .put target (codec.encodeBinding configured binding.body)
        codec.decodeChange
    | .setCost _ cost =>
      sendBodyDecoded codec configured .patch target (codec.encodeCost configured ⟨cost⟩) codec.decodeChange
    | .unbind _ | .clear => sendDecoded codec configured .delete target codec.decodeChange

/-! ### One operation on all jobs -/

/-- A bulk builder by all but its filters. -/
inductive BulkOp (Patch Policy : Type) where
  | list (fromId : Option String) (order : Option Order) (limit : Option UInt16)
  | stream (fromId : Option String) (order : Option Order) (limit : Option UInt16)
  | count
  | delete
  | patch (patch : Option Patch)
  | budget (operation : Operation Policy)

namespace BulkOp

/-- What awaiting the builder gives; for a stream, its first page. -/
abbrev Result (J : Type) : BulkOp Patch Policy → Type
  | .list .. => JobPage J
  | .stream .. => Option (JobPage J)
  | .count | .delete | .patch _ => UInt64
  | .budget _ => BudgetChange

def await (filters : JobFilter) : (op : BulkOp Patch Policy) → Awaited (op.Result J)
  | .list fromId order limit =>
    ListJobsBuilder.intoFuture crate codec base configured ⟨filters, fromId, order, limit⟩
  | .stream fromId order limit =>
    (ListJobsBuilder.stream crate base ⟨filters, fromId, order, limit⟩ : JobStreamState J).cursor.fetch
      crate codec base configured
  | .count => CountJobsBuilder.intoFuture crate codec base configured ⟨filters⟩
  | .delete => DeleteJobsBuilder.intoFuture crate codec base configured ⟨filters⟩
  | .patch p => PatchJobsBuilder.intoFuture crate codec base configured ⟨filters, p⟩
  | .budget operation => BudgetJobsBuilder.intoFuture crate codec base configured ⟨filters, operation⟩

/-- The result of an operation on no job. -/
def empty : (op : BulkOp Patch Policy) → op.Result J
  | .list .. => .empty
  | .stream .. => none
  | .count | .delete | .patch _ => (0 : UInt64)
  | .budget _ => ⟨0, []⟩

/-- What comes of a filter that matches nothing: a missing patch is found before it. -/
def nothing : (op : BulkOp Patch Policy) → Except ZizqError (op.Result J)
  | .patch none => .error .missingPatch
  | op => .ok op.empty

/-- The pairs that do not come from the filter. -/
def paging : BulkOp Patch Policy → List (String × String)
  | .list fromId order limit | .stream fromId order limit => ListJobsBuilder.paging ⟨{}, fromId, order, limit⟩
  | _ => []

/-- The error that keeps a request from being built: no patch, or a body that does not encode. -/
def refused : BulkOp Patch Policy → Option ZizqError
  | .patch none => some .missingPatch
  | .patch (some p) => encodeError (codec.encodePatch configured p)
  | .budget (.bind binding) | .budget (.rebind binding) =>
    encodeError (codec.encodeBinding configured binding.body)
  | .budget (.setCost _ cost) => encodeError (codec.encodeCost configured ⟨cost⟩)
  | _ => none
where
  encodeError : Except String Bytes → Option ZizqError
    | .error message => some (.encode message)
    | .ok _ => none

end BulkOp

/-! ### What is sent -/

theorem filteredUrl_pairs (segments : List String) (filters : JobFilter) :
    (filteredUrl crate base segments filters).pairs = filters.appendTo := by
  unfold filteredUrl
  split
  · rfl
  · next h => exact (not_ne_iff.mp fun hne => h (filters.hasParams_iff.mpr hne)).symm

theorem list_buildUrl_pairs (builder : ListJobsBuilder) :
    (builder.buildUrl crate base).pairs = builder.paging ++ builder.filters.appendTo := by
  unfold ListJobsBuilder.buildUrl
  split
  · rfl
  · next h =>
    simp only [Bool.or_eq_true, not_or, Bool.not_eq_true, Option.isSome_eq_false_iff,
      Option.isNone_iff_eq_none] at h
    obtain ⟨⟨⟨hfrom, horder⟩, hlimit⟩, hparams⟩ := h
    have hpairs : builder.filters.appendTo = [] :=
      not_ne_iff.mp fun hne => absurd (builder.filters.hasParams_iff.mpr hne) (by simp [hparams])
    simp [ListJobsBuilder.paging, hfrom, horder, hlimit, hpairs, valuePair]

/-- A request goes out with the given pairs. -/
def Awaited.Sends (pairs : List (String × String)) (outcome : Awaited α) : Prop :=
  ∃ request settle, outcome = .send request settle ∧ request.target.pairs = pairs

/-- A body that encodes is sent with the pairs of the filter, and one that does not is an error. -/
theorem sendBodyDecoded_sends (filters : JobFilter) (segments : List String) (method : Method)
    (body : Except String Bytes) (decode : Format → Bytes → Except String α) :
    let target := filteredUrl crate base segments filters
    match BulkOp.refused.encodeError body with
    | some e => sendBodyDecoded codec configured method target body decode = .ready (.error e)
    | none => (sendBodyDecoded codec configured method target body decode).Sends filters.appendTo := by
  cases body with
  | error message => rfl
  | ok bytes => exact ⟨_, _, rfl, filteredUrl_pairs crate base _ _⟩

theorem await_stream (filters : JobFilter) (fromId : Option String) (order : Option Order)
    (limit : Option UInt16) :
    (.stream fromId order limit : BulkOp Patch Policy).await crate codec base configured filters =
      PageCursor.fetch crate codec base configured (if filters.matchesNothing then .done
        else .first (ListJobsBuilder.buildUrl crate base ⟨filters, fromId, order, limit⟩)) := rfl

/-- With a filter that matches nothing no request is sent. -/
theorem await_nothing {filters : JobFilter} (h : filters.matchesNothing = true)
    (op : BulkOp Patch Policy) :
    op.await crate codec base configured filters = .ready op.nothing := by
  cases op with
  | list fromId order limit => exact if_pos h
  | stream fromId order limit =>
    rw [await_stream, if_pos h]
    rfl
  | count | delete => exact if_pos h
  | patch p =>
    cases p with
    | none => rfl
    | some p => exact if_pos h
  | budget operation => exact if_pos h

/-- With any other filter the operation sends its pairs, unless its body is refused. -/
theorem await_something {filters : JobFilter} (h : filters.matchesNothing = false)
    (op : BulkOp Patch Policy) :
    match op.refused codec configured with
    | some e => op.await crate codec base configured filters = .ready (.error e)
    | none => (op.await crate codec base configured filters).Sends (op.paging ++ filters.appendTo) := by
  have hn : ¬ filters.matchesNothing = true := by simp [h]
  cases op with
  | list fromId order limit => exact ⟨_, _, if_neg hn, list_buildUrl_pairs crate base _⟩
  | stream fromId order limit =>
    show Awaited.Sends _ _
    rw [await_stream, if_neg hn]
    exact ⟨_, _, rfl, list_buildUrl_pairs crate base _⟩
  | count | delete => exact ⟨_, _, if_neg hn, filteredUrl_pairs crate base _ _⟩
  | patch p =>
    cases p with
    | none => rfl
    | some p =>
      have hawait : PatchJobsBuilder.intoFuture crate codec base configured ⟨filters, some p⟩ = _ :=
        if_neg hn
      rw [BulkOp.await, hawait]
      exact sendBodyDecoded_sends crate codec base configured filters ["jobs"] .patch _ _
  | budget operation =>
    have hbody (segments : List String) (method : Method) (body : Except String Bytes) :=
      sendBodyDecoded_sends crate codec base configured filters segments method body codec.decodeChange
    have hawait : BudgetJobsBuilder.intoFuture crate codec base configured ⟨filters, operation⟩ = _ :=
      if_neg hn
    rw [BulkOp.await, hawait]
    cases operation with
    | bind binding => exact hbody ["jobs", "budgets", binding.key] .post _
    | rebind binding => exact hbody ["jobs", "budgets", binding.key] .put _
    | setCost key cost => exact hbody ["jobs", "budgets", key] .patch _
    | unbind key => exact ⟨_, _, rfl, filteredUrl_pairs crate base _ _⟩
    | clear => exact ⟨_, _, rfl, filteredUrl_pairs crate base _ _⟩

end Builders

end Zizq.Client
