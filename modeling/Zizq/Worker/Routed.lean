import Zizq.Worker.Router
import Zizq.Worker.Session

/-! A worker with a router on its take streams.

The bodies of the streams are decoded into whole jobs, and what the handler of a task
returns is what the router makes of its job: the error of the router, or what the future
of the user's handler comes to. Over every run of all of them together, a job is
acknowledged only if the handler of its own kind returned `Ok` for it, and what is
reported of it is the error of that handler or of the router (`routed_settles`). So a
value goes from its enqueue to its handler and nowhere else (`enqueued_settles`). -/
namespace Zizq.Worker
open Client Data Patch Resources Take
variable {σ ν φ F : Type}

/-! ### What a task has done -/

/-- What the handler has returned for a task to be in the phase. -/
def Phase.Due (h : List TaskEvent) : Phase → Prop
  | .sending => .handled (.ok ()) ∈ h
  | .reporting err _ | .awaiting err _ | .sleeping err _ => .handled (.error err) ∈ h
  | _ => True

/-- Whatever has happened, the id was only sent after an `Ok`, and only an error that was returned was reported. -/
structure Answered (job : Job) (h : List TaskEvent) (phase : Phase) : Prop where
  sent : .sent ∈ h → .handled (.ok ()) ∈ h
  reported : ∀ request, .reportStarted request ∈ h →
    ∃ err, .handled (.error err) ∈ h ∧ request = (job.id, failureRequest err)
  due : phase.Due h

section Answered
variable {worker : Worker} {es : List Event} {s : State} {job : Job} {h : List TaskEvent} {phase phase' : Phase}
  {e : TaskEvent}

theorem Phase.Due.append (hdue : phase.Due h) (h' : List TaskEvent) : phase.Due (h ++ h') := by
  cases phase with
  | handling | finished | joined => trivial
  | _ => exact List.mem_append_left h' hdue

/-- An event that is neither of the two leaves what they need. -/
theorem Answered.append (ha : Answered job h phase) (hsent : e ≠ .sent)
    (hreport : ∀ request, e ≠ .reportStarted request) (hdue : phase'.Due (h ++ [e])) :
    Answered job (h ++ [e]) phase' := by
  refine ⟨fun hmem => ?_, fun request hmem => ?_, hdue⟩
  · rcases List.mem_append.mp hmem with hmem | hmem
    · exact List.mem_append_left _ (ha.sent hmem)
    · exact absurd (List.mem_singleton.mp hmem).symm hsent
  · rcases List.mem_append.mp hmem with hmem | hmem
    · obtain ⟨err, herr, hrequest⟩ := ha.reported request hmem
      exact ⟨err, List.mem_append_left _ herr, hrequest⟩
    · exact absurd (List.mem_singleton.mp hmem).symm (hreport request)

theorem answered_phase (ha : Answered job h phase) (hnext : phase.next job e = some phase') :
    Answered job (h ++ [e]) phase' := by
  have hreturned : e ∈ h ++ [e] := List.mem_append_right _ (List.mem_singleton_self _)
  have hdue : phase.Due (h ++ [e]) := ha.due.append _
  unfold Phase.next at hnext
  split at hnext
  · -- the handler returned `Ok`
    cases hnext
    exact ha.append nofun nofun hreturned
  · -- the handler returned `Err`
    cases hnext
    exact ha.append nofun nofun hreturned
  · cases hnext
    exact ha.append nofun nofun trivial
  · -- the id was sent
    cases hnext
    refine ⟨fun _ => hdue, fun request hmem => ?_, trivial⟩
    obtain ⟨err, herr, hrequest⟩ := ha.reported request (by simpa using hmem)
    exact ⟨err, List.mem_append_left _ herr, hrequest⟩
  · cases hnext
    exact ha.append nofun nofun trivial
  · -- a report went out
    next err backoff request =>
    split at hnext <;> cases hnext
    next heq =>
    refine ⟨fun hmem => List.mem_append_left _ (ha.sent (by simpa using hmem)), fun request' hmem => ?_, hdue⟩
    rcases List.mem_append.mp hmem with hmem | hmem
    · obtain ⟨err', herr, hrequest⟩ := ha.reported request' hmem
      exact ⟨err', List.mem_append_left _ herr, hrequest⟩
    · cases List.mem_singleton.mp hmem
      exact ⟨err, hdue, heq⟩
  · -- a report was answered
    split at hnext <;> cases hnext
    · exact ha.append nofun nofun trivial
    · exact ha.append nofun nofun hdue
  · -- the sleep is over
    cases hnext
    exact ha.append nofun nofun hdue
  · cases hnext

theorem answered_task {task task' : Task} (ha : Answered task.job h task.phase)
    (hnext : task.next e = some task') : Answered task'.job (h ++ [e]) task'.phase := by
  obtain ⟨hjob, hcases⟩ := Task.next_cases hnext
  rw [hjob]
  rcases hcases with ⟨he, heq⟩ | ⟨rfl, -, heq⟩ | ⟨-, hstep⟩
  · rw [heq]
    rcases he with rfl | rfl <;> exact ha.append nofun nofun (ha.due.append _)
  · rw [heq]
    exact ha.append nofun nofun trivial
  · exact answered_phase ha hstep

/-- Over every run, with or without panics and the deadline. -/
theorem Execution.answered (h : Execution worker es s) : Histories Answered es s := by
  refine h.always (fun _ _ => trivial) histories_initial fun h s e s' _ hs hstep => ?_
  cases e with
  | main e =>
    exact histories_stepMain (fun _ => ⟨nofun, nofun, trivial⟩)
      (fun _ _ ha => ⟨ha.sent, ha.reported, trivial⟩) hs hstep
  | task i e => exact histories_stepTask (fun _ _ _ ha hnext => answered_task ha hnext) hs hstep
  | ack e => exact histories_stepAck hs hstep

end Answered

/-! ### The system -/

/-- What is up to the handler, so that no one else decides it. -/
def SessionEvent.ofHandler : SessionEvent → Bool
  | .other (.task _ (.handled _)) | .other (.task _ .panicked) => true
  | _ => false

/-- An event of another party, or the future of a task that is ready, or that has panicked. -/
inductive RoutedEvent where
  | session (e : SessionEvent)
  | ready (i : Nat) (outcome : Option (Except String Unit))

/-- What the machine has of a job. -/
def asJob (job : Resources.Job ν φ) : Job := ⟨job.id⟩

/-- The end of the handler for a job: an error of the router is there at once, and does not panic. -/
def Router.outcome (debug : String → String) (router : Router σ ν φ F) (job : Resources.Job ν φ)
    (outcome : Option (Except String Unit)) : TaskEvent :=
  match router.handle debug job with
  | .error err => .handled (.error err)
  | .ok started =>
    match outcome with
    | some outcome => .handled (started.result outcome)
    | none => .panicked

section System
variable (worker : Worker) (parsers : Parsers (Resources.Job ν φ)) (debug : String → String) (router : Router σ ν φ F)

def stepRouted (t : List Event × Session (Resources.Job ν φ)) :
    RoutedEvent → Option (List Event × Session (Resources.Job ν φ))
  | .session e => if e.ofHandler then none else stepTraced worker parsers asJob t e
  | .ready i outcome =>
    t.2.jobs[i]?.bind fun job =>
      stepTraced worker parsers asJob t (.other (.task i (router.outcome debug job outcome)))

/-- The run has followed the worker, and what the handler of a task has returned is what its job and its future
came to. -/
structure Handles (es : List RoutedEvent) (t : List Event × Session (Resources.Job ν φ)) : Prop where
  follows : Follows worker parsers asJob t.1 t.2
  handled : ∀ i result, .task i (.handled result) ∈ t.1 → ∃ job outcome, t.2.jobs[i]? = some job ∧
    .ready i outcome ∈ es ∧ router.outcome debug job outcome = .handled result

end System

section Handles
variable {worker : Worker} {parsers : Parsers (Resources.Job ν φ)} {debug : String → String} {router : Router σ ν φ F}
  {es : List RoutedEvent} {t t' : List Event × Session (Resources.Job ν φ)}

theorem getElem?_of_isPrefix {α : Type} {xs ys : List α} (h : xs <+: ys) {i : Nat} {a : α} (ha : xs[i]? = some a) :
    ys[i]? = some a := by
  obtain ⟨rest, rfl⟩ := h
  rw [List.getElem?_append_left (List.getElem?_eq_some_iff.mp ha).1, ha]

theorem jobs_stepTraced {e : SessionEvent} (h : stepTraced worker parsers asJob t e = some t') :
    t.2.jobs <+: t'.2.jobs := by
  obtain ⟨r, hr, rfl⟩ := Option.map_eq_some_iff.mp h
  exact jobs_stepSession hr

theorem mem_stepTraced {e : SessionEvent} (h : stepTraced worker parsers asJob t e = some t') {x : Event}
    (hx : x ∈ t'.1) : x ∈ t.1 ∨ e = .other x ∨ x.ofStream = true := by
  obtain ⟨r, hr, rfl⟩ := Option.map_eq_some_iff.mp h
  refine (List.mem_append.mp hx).imp_right fun hx => event_stepSession hr ?_
  exact Option.mem_toList.mp hx

theorem handles_step {e : RoutedEvent} (ht : Handles worker parsers debug router es t)
    (h : stepRouted worker parsers debug router t e = some t') :
    Handles worker parsers debug router (es ++ [e]) t' := by
  have hkept {t' : List Event × Session (Resources.Job ν φ)} (hjobs : t.2.jobs <+: t'.2.jobs) {i : Nat}
      {result : Except HandlerError Unit} (hmem : Event.task i (.handled result) ∈ t.1) :
      ∃ job outcome, t'.2.jobs[i]? = some job ∧ RoutedEvent.ready i outcome ∈ es ++ [e] ∧
        router.outcome debug job outcome = .handled result := by
    obtain ⟨job, outcome, hjob, hready, hresult⟩ := ht.handled i result hmem
    exact ⟨job, outcome, getElem?_of_isPrefix hjobs hjob, List.mem_append_left _ hready, hresult⟩
  cases e with
  | session e =>
    simp only [stepRouted] at h
    split at h
    · cases h
    · next hother =>
      refine ⟨follows_traced ht.follows h, fun i result hmem => ?_⟩
      rcases mem_stepTraced h hmem with hmem | rfl | hstream
      · exact hkept (jobs_stepTraced h) hmem
      · exact absurd rfl hother
      · cases hstream
  | ready j outcome =>
    obtain ⟨job, hjob, hstep⟩ := Option.bind_eq_some_iff.mp h
    refine ⟨follows_traced ht.follows hstep, fun i result hmem => ?_⟩
    rcases mem_stepTraced hstep hmem with hmem | heq | hstream
    · exact hkept (jobs_stepTraced hstep) hmem
    · obtain ⟨rfl, hresult⟩ : j = i ∧ router.outcome debug job outcome = .handled result := by simpa using heq
      exact ⟨job, outcome, getElem?_of_isPrefix (jobs_stepTraced hstep) hjob,
        List.mem_append_right _ (List.mem_singleton_self _), hresult⟩
    · cases hstream

theorem handles_run {s₀ : State} (hstart : start worker = some s₀)
    (h : Data.Transition.run (stepRouted worker parsers debug router) ([], ⟨s₀, none, []⟩) es = some t) :
    Handles worker parsers debug router es t := by
  have hstep (es : List RoutedEvent) (t : List Event × Session (Resources.Job ν φ)) (e : RoutedEvent)
      (t' : List Event × Session (Resources.Job ν φ)) (_ : True) (ht : Handles worker parsers debug router es t)
      (hstep : stepRouted worker parsers debug router t e = some t') := handles_step ht hstep
  exact Data.Transition.run_history (h := []) hstep h (fun _ _ => trivial) ⟨follows_initial hstart, nofun⟩

theorem mem_taskEvents {i : Nat} {e : TaskEvent} {trace : List Event} :
    e ∈ taskEvents i trace ↔ .task i e ∈ trace := by
  rw [taskEvents, List.mem_filterMap]
  constructor
  · intro h
    obtain ⟨x, hx, he⟩ := h
    cases x with
    | task j e' =>
      obtain ⟨rfl, rfl⟩ : j = i ∧ e' = e := by simpa using he
      exact hx
    | _ => cases he
  · intro h
    exact ⟨_, h, if_pos rfl⟩

/-- Task `i` has the `i`-th job. -/
theorem Handles.job (ht : Handles worker parsers debug router es t) {i : Nat} {task : Task}
    (hi : t.2.state.tasks[i]? = some task) {job : Resources.Job ν φ} (hjob : t.2.jobs[i]? = some job) :
    task.job = asJob job := by
  obtain ⟨hpulls, hspawns⟩ := ht.follows.execution.dispatched
  rw [hspawns, ht.follows.jobs] at hpulls
  have hlt : i < (t.2.state.tasks.map (·.job)).length := by
    rw [List.length_map]
    exact (List.getElem?_eq_some_iff.mp hi).1
  have hget := congrArg (·[i]?) hpulls
  simp only [List.getElem?_append_left hlt, List.getElem?_map, hi, hjob, Option.map_some, Option.some.injEq] at hget
  exact hget.symm

/-- A task that has done anything is there, and what it has done is as it should be. -/
theorem Handles.answered (ht : Handles worker parsers debug router es t) {i : Nat} {e : TaskEvent}
    (hmem : .task i e ∈ t.1) {job : Resources.Job ν φ} (hjob : t.2.jobs[i]? = some job) :
    ∃ phase, Answered (asJob job) (taskEvents i t.1) phase := by
  have hhistories := ht.follows.execution.answered
  cases hi : t.2.state.tasks[i]? with
  | none =>
    have hevents := mem_taskEvents.mpr hmem
    rw [hhistories.fresh i hi] at hevents
    cases hevents
  | some task => exact ⟨task.phase, ht.job hi hjob ▸ hhistories.fits i task hi⟩

/-- What a task has returned, it has of its own job. -/
theorem Handles.returned (ht : Handles worker parsers debug router es t) {i : Nat} {job : Resources.Job ν φ}
    (hjob : t.2.jobs[i]? = some job) {result : Except HandlerError Unit}
    (hmem : .handled result ∈ taskEvents i t.1) :
    ∃ outcome, .ready i outcome ∈ es ∧ router.outcome debug job outcome = .handled result := by
  obtain ⟨job', outcome, hjob', hready, hresult⟩ := ht.handled i result (mem_taskEvents.mp hmem)
  obtain rfl := Option.some.inj (hjob.symm.trans hjob')
  exact ⟨outcome, hready, hresult⟩

theorem Handles.sent (ht : Handles worker parsers debug router es t) {i : Nat} {job : Resources.Job ν φ}
    (hjob : t.2.jobs[i]? = some job) (hmem : .task i .sent ∈ t.1) :
    ∃ outcome, .ready i outcome ∈ es ∧ router.outcome debug job outcome = .handled (.ok ()) := by
  obtain ⟨phase, hanswered⟩ := ht.answered hmem hjob
  exact ht.returned hjob (hanswered.sent (mem_taskEvents.mpr hmem))

theorem Handles.reported (ht : Handles worker parsers debug router es t) {i : Nat} {job : Resources.Job ν φ}
    (hjob : t.2.jobs[i]? = some job) {request : String × FailureRequest}
    (hmem : .task i (.reportStarted request) ∈ t.1) :
    ∃ err outcome, .ready i outcome ∈ es ∧ router.outcome debug job outcome = .handled (.error err) ∧
      request = (job.id, failureRequest err) := by
  obtain ⟨phase, hanswered⟩ := ht.answered hmem hjob
  obtain ⟨err, hreturned, hrequest⟩ := hanswered.reported request (mem_taskEvents.mpr hmem)
  obtain ⟨outcome, hready, houtcome⟩ := ht.returned hjob hreturned
  exact ⟨err, outcome, hready, houtcome, hrequest⟩

theorem outcome_eq_ok {job : Resources.Job ν φ} {outcome : Option (Except String Unit)}
    (h : router.outcome debug job outcome = .handled (.ok ())) :
    outcome = some (.ok ()) ∧ ∃ started, router.handle debug job = .ok started := by
  unfold Router.outcome at h
  split at h
  · cases h
  · next started hhandle =>
    split at h
    · next outcome =>
      cases outcome with
      | ok a => exact ⟨rfl, started, hhandle⟩
      | error display => cases h
    · cases h

theorem outcome_eq_error {job : Resources.Job ν φ} {outcome : Option (Except String Unit)} {err : HandlerError}
    (h : router.outcome debug job outcome = .handled (.error err)) :
    router.handle debug job = .error err ∨ ∃ started display, router.handle debug job = .ok started ∧
      outcome = some (.error display) ∧ err = .fromTyped started.errorType display := by
  unfold Router.outcome at h
  split at h
  · next err' hhandle =>
    cases h
    exact .inl hhandle
  · next started hhandle =>
    split at h
    · next outcome =>
      cases outcome with
      | ok a => cases h
      | error display =>
        cases h
        exact .inr ⟨started, display, hhandle, rfl, rfl⟩
    · cases h

end Handles

/-! ### The main results -/

/-- The handler of `send_email` takes the address, and the relay that is the state of the router. -/
def sendRoute : Route String Nat String where
  T := String
  name := "send_email"
  typeName := "SendEmail"
  fromValue
    | .object [("to", .string address)] => .ok address
    | _ => .error "not an address"
  errorType := "SendError"
  handler := .stateful fun relay address => relay ++ "/" ++ address

/-- A record of the stream is the job that answers an enqueue, or the like of it of a kind without a route. -/
def emailParsers : Parsers (Resources.Job Nat Nat) :=
  have parse := fun record : List UInt8 =>
    let members := if record = [49] then answer else
      ("id", .string "job-2") :: ("type", .string "sweep") :: answer.drop 2
    ((Job.read plainFormat (.object members)).elim (.error "no job") .ok : Except String _)
  ⟨parse, parse⟩

/-- **Main theorem.** A value that is enqueued, by a builder of its kind with any calls on it, in either format, and
comes back on a take stream, is the value that the last route of its kind calls its handler with. The job is
acknowledged only if that call comes to `Ok`, and nothing but an error that it comes to is reported. -/
theorem enqueued_settles {worker : Worker} {parsers : Parsers (Resources.Job ν φ)} {debug : String → String}
    {state : σ} {routes : List (Route σ ν F)} {s₀ : State} (hstart : start worker = some s₀) {es : List RoutedEvent}
    {trace : List Event} {p : Session (Resources.Job ν φ)}
    (h : Data.Transition.run (stepRouted worker parsers debug (routes.foldl Router.route (.withState state)))
      ([], ⟨s₀, none, []⟩) es = some (trace, p))
    {numerals : Numerals ν φ} {formatted : Formatted ν φ} (hmirrors : Mirrors numerals formatted) {format : Format}
    {e : Enqueue ν φ} (hsent : SentAsJson format e)
    (hfloat : ∀ config, e.settings.backoff = some config →
      formatted.float (wireValue format (numerals.float config.exponent)) = some config.exponent)
    {members : List (String × Value ν)}
    (hanswers : Answers formatted (requestMembers numerals format e.request) members) {i : Nat}
    {job : Resources.Job ν φ} (hjob : p.jobs[i]? = some job)
    (hread : Job.read formatted (.object members) = some job) {route : Route σ ν F}
    (hroute : latestRoute routes e.kind.name = some route) {typed : route.T}
    (hvalue : route.fromValue (collect (wireValue .json e.payload.payload.datum)) = .ok typed) :
    (routes.foldl Router.route (.withState state)).handle debug job =
        .ok ⟨route.handler.call state typed, route.errorType⟩ ∧
      (.task i .sent ∈ trace → .ready i (some (.ok ())) ∈ es) ∧
      ∀ request, .task i (.reportStarted request) ∈ trace → ∃ display, .ready i (some (.error display)) ∈ es ∧
        request = (job.id, failureRequest (.fromTyped route.errorType display)) := by
  obtain ⟨job', hjob', hback⟩ := e.reads_back hmirrors format hfloat hanswers
  obtain rfl := Option.some.inj (hread.symm.trans hjob')
  have hhandle := handle_enqueued debug state hback hsent hroute hvalue
  have ht := handles_run hstart h
  refine ⟨hhandle, fun hsent => ?_, fun request hreport => ?_⟩
  · obtain ⟨outcome, hready, houtcome⟩ := ht.sent hjob hsent
    obtain ⟨rfl, -⟩ := outcome_eq_ok houtcome
    exact hready
  · obtain ⟨err, outcome, hready, houtcome, hrequest⟩ := ht.reported hjob hreport
    rcases outcome_eq_error houtcome with herror | ⟨started, display, hstarted, rfl, rfl⟩
    · cases hhandle.symm.trans herror
    · cases hhandle.symm.trans hstarted
      exact ⟨display, hready, hrequest⟩

/-- The relay refuses, and that is reported. -/
def refused : List RoutedEvent :=
  [.session (.connected [.chunk [0, 0, 0], .chunk [1, 49]] .messagePack), .session .polled,
    .session (.other (.main (.spawned ⟨"job-1"⟩))), .session (.other (.task 0 .resumed)),
    .ready 0 (some (.error "refused")),
    .session (.other (.task 0 (.reportStarted ("job-1", ⟨"refused", some "SendError", none, none, false⟩))))]

theorem enqueued_settles_sendEmail :
    ∃ (trace : List Event) (job : Resources.Job Nat Nat), spawns trace = [asJob job] ∧
      ([sendRoute].foldl Router.route (.withState "relay")).handle id job = .ok ⟨"relay/a@x", "SendError"⟩ ∧
      ∃ display, .ready 0 (some (.error display)) ∈ refused ∧ display = "refused" := by
  obtain ⟨trace, p, job, hrun, hread, hjob, hspawned, hreport⟩ :
      ∃ (trace : List Event) (p : Session (Resources.Job Nat Nat)) (job : Resources.Job Nat Nat),
        Data.Transition.run
            (stepRouted ⟨1, 1, true⟩ emailParsers id ([sendRoute].foldl Router.route (.withState "relay")))
            ([], ⟨initial, none, []⟩) refused = some (trace, p) ∧
        Job.read plainFormat (.object answer) = some job ∧ p.jobs[0]? = some job ∧ spawns trace = [asJob job] ∧
        .task 0 (.reportStarted ("job-1", ⟨"refused", some "SendError", none, none, false⟩)) ∈ trace := by
    refine ⟨_, _, _, rfl, rfl, rfl, rfl, ?_⟩
    exact List.mem_of_getLast? rfl
  have hfloat (n : Nat) : plainFormat.float (wireValue .json (plainNumerals.float n)) = some n := rfl
  have hsent : SentAsJson .json sendEmail := .inl rfl
  have hroute : latestRoute [sendRoute] sendEmail.kind.name = some sendRoute := rfl
  have hvalue : sendRoute.fromValue (collect (wireValue .json sendEmail.payload.payload.datum)) = .ok "a@x" := rfl
  obtain ⟨hhandle, -, hreported⟩ := enqueued_settles rfl hrun plain_mirrors hsent (fun config _ => hfloat _)
    sendEmail_answers hjob hread hroute hvalue
  obtain ⟨display, hready, hrequest⟩ := hreported _ hreport
  refine ⟨trace, job, hspawned, hhandle, display, hready, ?_⟩
  exact (congrArg (fun request => request.2.message) hrequest).symm

end Zizq.Worker
