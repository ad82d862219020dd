import Zizq.Resources.Request
import Zizq.Worker.Retry

/-! Routers.

A router is a handler that looks a job's type up in a table of routes, each of which was
registered for one kind of jobs. A route reads the payload as its type, and starts the
handler of the user on it; what it cannot read, and a type without a route, is an error
of the router's own. The latest route of a name is the one that counts (`handle_eq`), and
a value that was enqueued is the value that it starts its handler on
(`handle_enqueued`). -/
namespace Zizq.Worker
open Client Data Resources
variable {σ ν φ F : Type}

/-! ### Handlers -/

/-- `HandlerError::from_typed`, of an error by the name of its type and its `Display` text. -/
def HandlerError.fromTyped (typeName display : String) : HandlerError := ⟨display, typeName⟩

/-- A future that a handler of the user has returned, with the name of its error type. -/
structure Started (F : Type) where
  future : F
  errorType : String

/-- What the future comes to, as the worker sees it. -/
def Started.result (started : Started F) (outcome : Except String Unit) : Except HandlerError Unit :=
  outcome.mapError (.fromTyped started.errorType)

/-- A handler that takes the payload alone, or the state of the router with it. -/
inductive RouteFn (σ T F : Type) where
  | stateless (f : T → F)
  | stateful (f : σ → T → F)

def RouteFn.call {T : Type} (state : σ) (typed : T) : RouteFn σ T F → F
  | .stateless f => f typed
  | .stateful f => f state typed

/-- A handler with the type of payload that it takes: the name of its kind, the name of the type, how it is read from
a `serde_json::Value`, and the name of the type of the handler's errors. -/
structure Route (σ ν F : Type) where
  T : Type
  name : String
  typeName : String
  fromValue : Value ν → Except String T
  errorType : String
  handler : RouteFn σ T F

/-- The future that a route returns: the user's, or a ready one with an error. -/
abbrev ErasedRouteHandler (ν φ F : Type) := Resources.Job ν φ → Except HandlerError (Started F)

/-- The error for a payload that is not of the route's type. -/
def Route.unreadable (route : Route σ ν F) (e : String) : HandlerError :=
  .fromTyped "zizq::router::PayloadDeserializeError"
    ("failed to deserialise job payload as " ++ route.typeName ++ ": " ++ e)

def Route.intoRouteHandler (route : Route σ ν F) (state : σ) : ErasedRouteHandler ν φ F := fun job =>
  match route.fromValue (job.payload.getD .null) with
  | .ok typed => .ok ⟨route.handler.call state typed, route.errorType⟩
  | .error e => .error (route.unreadable e)

/-! ### Routers -/

structure Router (σ ν φ F : Type) where
  routes : List (String × ErasedRouteHandler ν φ F)
  state : σ

namespace Router

def withState (state : σ) : Router σ ν φ F := ⟨[], state⟩

def route (router : Router σ ν φ F) (route : Route σ ν F) : Router σ ν φ F :=
  { router with routes := Assoc.insert route.name (route.intoRouteHandler router.state) router.routes }

/-- The error for a type that has no route; `debug` is `{:?}` of a text. -/
def noRoute (debug : String → String) (jobType : String) : HandlerError :=
  .fromTyped "zizq::router::NoRouteError" ("no route registered for job type " ++ debug jobType)

def handle (debug : String → String) (router : Router σ ν φ F) : ErasedRouteHandler ν φ F := fun job =>
  match Assoc.get job.jobType router.routes with
  | some handler => handler job
  | none => .error (noRoute debug job.jobType)

end Router

/-! ### The table of a router -/

/-- The route that was registered last under a name. -/
def latestRoute (routes : List (Route σ ν F)) (name : String) : Option (Route σ ν F) :=
  routes.reverse.find? fun route => route.name = name

theorem latestRoute_concat (routes : List (Route σ ν F)) (route : Route σ ν F) (name : String) :
    latestRoute (routes ++ [route]) name = if route.name = name then some route else latestRoute routes name := by
  rw [latestRoute, List.reverse_append, List.reverse_singleton, List.singleton_append, List.find?_cons]
  by_cases h : route.name = name
  · rw [if_pos h, decide_eq_true h]
  · rw [if_neg h, decide_eq_false h, latestRoute]

/-- Registering does not touch the state, and every route is given it. -/
theorem get_routes (state : σ) (routes : List (Route σ ν F)) (name : String) :
    let router : Router σ ν φ F := routes.foldl Router.route (.withState state)
    router.state = state ∧
      Assoc.get name router.routes = (latestRoute routes name).map fun route => route.intoRouteHandler state := by
  induction routes using List.reverseRecOn with
  | nil => exact ⟨rfl, rfl⟩
  | append_singleton routes route ih =>
    obtain ⟨hstate, hget⟩ := ih
    rw [List.foldl_append, List.foldl_cons, List.foldl_nil, latestRoute_concat]
    refine ⟨hstate, ?_⟩
    rw [Router.route, hstate]
    by_cases h : route.name = name
    · rw [if_pos h, ← h]
      exact Assoc.get_insert_self ..
    · rw [if_neg h, ← hget]
      exact Assoc.get_insert_ne _ _ (Ne.symm h)

/-- What a router makes of a job is up to the last route that was registered for its type. -/
theorem handle_eq (debug : String → String) (state : σ) (routes : List (Route σ ν F)) (job : Resources.Job ν φ) :
    (routes.foldl Router.route (.withState state)).handle debug job =
      match latestRoute routes job.jobType with
      | some route => route.intoRouteHandler state job
      | none => .error (Router.noRoute debug job.jobType) := by
  rw [Router.handle, (get_routes state routes job.jobType).2]
  cases latestRoute routes job.jobType <;> rfl

/-! ### A value from its enqueue to its handler -/

/-- The payload is sent as its JSON in either format: a unit struct only in JSON, or as the whole payload of a
zero-sized type. -/
def SentAsJson (format : Format) (e : Enqueue ν φ) : Prop :=
  format = .json ∨ e.payload.payload.datum.plain = true ∨
    e.kind.zeroSized = true ∧ ∃ name, e.payload.payload.datum = .unitStruct name

theorem payloadRead_eq {format : Format} {e : Enqueue ν φ} (h : SentAsJson format e) :
    payloadRead format e.request = wireValue .json e.payload.payload.datum := by
  rw [e.request_eq, payloadRead]
  show boxPayload e.kind.zeroSized e.payload.payload.datum _ = _
  by_cases hunit : e.kind.zeroSized = true ∧ ∃ name, e.payload.payload.datum = .unitStruct name
  · obtain ⟨hzero, name, hdatum⟩ := hunit
    rw [hzero, hdatum]
    simp only [boxPayload, Datum.serialize, zstFixup, formatSerializer, wireValue, unitStructValue, if_true]
  · have hbox : e.kind.zeroSized = false ∨ ∀ name, e.payload.payload.datum ≠ .unitStruct name := by
      rwa [not_and_or, Bool.not_eq_true, not_exists] at hunit
    rw [boxPayload_eq format hbox]
    rcases h with rfl | hplain | hunit'
    · rfl
    · cases format with
      | json => rfl
      | messagePack => exact ((wireValue_format_iff e.payload.payload.distinct).mpr hplain).symm
    · exact absurd hunit' hunit

/-- The job of an enqueue starts the handler of its kind on the value that was enqueued. -/
theorem handle_enqueued (debug : String → String) (state : σ) {routes : List (Route σ ν F)} {format : Format}
    {e : Enqueue ν φ} {job : Resources.Job ν φ}
    (hback : ReadsBack e.kind.name (payloadRead format e.request) e.settings job) (hsent : SentAsJson format e)
    {route : Route σ ν F} (hroute : latestRoute routes e.kind.name = some route) {typed : route.T}
    (hread : route.fromValue (collect (wireValue .json e.payload.payload.datum)) = .ok typed) :
    (routes.foldl Router.route (.withState state)).handle debug job =
      .ok ⟨route.handler.call state typed, route.errorType⟩ := by
  have hpayload : job.payload.getD .null = collect (wireValue .json e.payload.payload.datum) := by
    rw [hback.payload_getD, payloadRead_eq hsent]
  rw [handle_eq, hback.jobType, hroute]
  simp only [Route.intoRouteHandler, hpayload, hread]

end Zizq.Worker
