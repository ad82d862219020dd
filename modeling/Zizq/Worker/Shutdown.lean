import Zizq.Worker.Record

/-! The shutdown signal, poll by poll.

Every wait of the dispatcher but the connect itself is a biased `select!`, which
polls the shutdown future before the branch it waits for. The machine of this module
refines the system of parties by these polls: a branch is looked at only after a poll
that came back pending (`PollExecution.execution`). The first poll that comes back
ready leaves every loop at once (`shutdown_final`). -/
namespace Zizq.Worker
open Client Data

variable {worker : Worker} {s s' : State}

/-! ### The dispatcher's polls -/

/-- The dispatcher waits in a `select!`: for a slot or a job, or for the end of a back-off. -/
def Main.selects : Main → Bool
  | .dispatching | .sleeping => true
  | _ => false

/-- `pending` once the `select!` that the dispatcher is in has polled the shutdown future in vain. -/
structure Polling where
  state : State
  pending : Bool

/-- A poll of the shutdown future, the other branch coming back pending, or a step of a party. -/
inductive PollEvent where
  | polled (ready : Bool)
  | parked
  | other (e : Event)

def stepPolling (worker : Worker) (p : Polling) : PollEvent → Option Polling
  | .polled ready =>
    if p.state.main.selects ∧ ¬ p.pending then
      if ready then (step worker p.state (.main .shutdown)).map fun s => ⟨s, false⟩
      else some { p with pending := true }
    else none
  | .parked => if p.pending then some { p with pending := false } else none
  | .other (.main .shutdown) => none
  | .other (.main e) =>
    -- in a `select!` the branch comes after the poll
    if p.pending = p.state.main.selects then (step worker p.state (.main e)).map fun s => ⟨s, false⟩ else none
  | .other e => (step worker p.state e).map fun s => { p with state := s }

/-- The polls `es`, from the start of the worker, lead to `p`. -/
def PollExecution (worker : Worker) (es : List PollEvent) (p : Polling) : Prop :=
  ∃ s₀, start worker = some s₀ ∧ Transition.run (stepPolling worker) ⟨s₀, false⟩ es = some p

/-- The step of the system of parties that an event is. -/
def PollEvent.visible : PollEvent → Option Event
  | .polled true => some (.main .shutdown)
  | .polled false | .parked => none
  | .other e => some e

theorem stepPolling_main {p p' : Polling} {e : MainEvent}
    (h : stepPolling worker p (.other (.main e)) = some p') :
    p.pending = p.state.main.selects ∧ ∃ s, step worker p.state (.main e) = some s ∧ p' = ⟨s, false⟩ := by
  have hbranch : (if p.pending = p.state.main.selects then
      (step worker p.state (.main e)).map fun s => Polling.mk s false else none) = some p' := by
    cases e with
    | shutdown => cases h
    | _ => exact h
  split at hbranch
  · next hpending =>
    obtain ⟨s, hstep, rfl⟩ := Option.map_eq_some_iff.mp hbranch
    exact ⟨hpending, s, hstep, rfl⟩
  · cases hbranch

/-- Each poll is one step of the system of parties, or none. -/
theorem stepPolling_step {p p' : Polling} {e : PollEvent} (h : stepPolling worker p e = some p') :
    Transition.run (step worker) p.state e.visible.toList = some p'.state := by
  have hone {e : Event} {s' : State} (hstep : step worker p.state e = some s') :
      Transition.run (step worker) p.state [e] = some s' :=
    Transition.run_cons_eq_some.mpr ⟨s', hstep, rfl⟩
  cases e with
  | polled ready =>
    cases ready with
    | false =>
      simp only [stepPolling, Bool.false_eq_true, if_false] at h
      split at h <;> cases h
      rfl
    | true =>
      simp only [stepPolling, if_true] at h
      split at h
      · obtain ⟨s', hstep, rfl⟩ := Option.map_eq_some_iff.mp h
        exact hone hstep
      · cases h
  | parked =>
    simp only [stepPolling] at h
    split at h <;> cases h
    rfl
  | other e =>
    cases e with
    | main e =>
      obtain ⟨-, s', hstep, rfl⟩ := stepPolling_main h
      exact hone hstep
    | task i e | ack e =>
      obtain ⟨s', hstep, rfl⟩ := Option.map_eq_some_iff.mp h
      exact hone hstep

/-- The polls of a run are a run of the system of parties. -/
theorem PollExecution.execution {es : List PollEvent} {p : Polling} (h : PollExecution worker es p) :
    Execution worker (es.filterMap PollEvent.visible) p.state := by
  obtain ⟨s₀, hstart, hrun⟩ := h
  exact ⟨s₀, hstart, Transition.run_simulation (fun _ _ _ => stepPolling_step) hrun⟩

/-! ### Out of the loop -/

/-- What `run` is going to return, once `dispatch_loop` has. -/
def Main.result : Main → Option (Except ZizqError Unit)
  | .joining result | .flushing result | .aborting result | .closing result | .returning result
  | .returned result => some result
  | _ => none

/-- The events of the dispatcher inside its loops. -/
def MainEvent.inLoop : MainEvent → Bool
  | .connected | .connectFailed _ | .pulled _ | .spawned _ | .streamEnded | .streamFailed _ | .shutdown
  | .slept => true
  | _ => false

def PollEvent.inLoop : PollEvent → Bool
  | .polled _ | .parked => true
  | .other (.main e) => e.inLoop
  | .other _ => false

theorem stepMain_result {e : MainEvent} {result : Except ZizqError Unit}
    (h : stepMain worker s e = some s') (hresult : s.main.result = some result) :
    s'.main.result = some result ∧ e.inLoop = false := by
  cases stepMain_cases h with
  | joined => exact ⟨hresult, rfl⟩
  | drained hmain | flushed hmain | aborted hmain | dropped hmain | returned hmain =>
    rw [hmain] at hresult
    exact ⟨hresult, rfl⟩
  | deadline hmain =>
    rcases hmain with hmain | hmain <;> rw [hmain] at hresult <;> exact ⟨hresult, rfl⟩
  | shutdown hmain => rcases hmain with hmain | hmain <;> cases hmain ▸ hresult
  | _ hmain => cases hmain ▸ hresult

/-- Out of the loop for good: the result is settled and no `select!` is left. -/
structure Left (result : Except ZizqError Unit) (p : Polling) : Prop where
  result : p.state.main.result = some result
  pending : p.pending = false

theorem Left.selects {result : Except ZizqError Unit} {p : Polling} (hp : Left result p) :
    p.state.main.selects = false := by
  have hresult := hp.result
  cases hmain : p.state.main <;> simp_all [Main.result, Main.selects]

theorem left_step {result : Except ZizqError Unit} {p p' : Polling} {e : PollEvent} (hp : Left result p)
    (h : stepPolling worker p e = some p') : Left result p' ∧ e.inLoop = false := by
  have hselects := hp.selects
  have hpending := hp.pending
  cases e with
  | polled ready => simp [stepPolling, hselects] at h
  | parked => simp [stepPolling, hpending] at h
  | other e =>
    cases e with
    | main e =>
      obtain ⟨-, s', hstep, rfl⟩ := stepPolling_main h
      obtain ⟨hresult, hloop⟩ := stepMain_result hstep hp.result
      exact ⟨⟨hresult, rfl⟩, hloop⟩
    | task i e =>
      obtain ⟨s', hstep, rfl⟩ := Option.map_eq_some_iff.mp h
      obtain ⟨task, task', -, -, -, rfl⟩ := stepTask_eq_some.mp hstep
      exact ⟨⟨hp.result, hpending⟩, rfl⟩
    | ack e =>
      obtain ⟨s', hstep, rfl⟩ := Option.map_eq_some_iff.mp h
      refine ⟨⟨?_, hpending⟩, rfl⟩
      rw [← hp.result]
      exact congrArg Main.result (stepAck_frame hstep).1

/-- A run from out of the loop stays out of it. -/
theorem left_run {result : Except ZizqError Unit} {p q : Polling} {es : List PollEvent}
    (h : Transition.run (stepPolling worker) p es = some q) (hp : Left result p) :
    Left result q ∧ ∀ e ∈ es, e.inLoop = false := by
  induction es generalizing p with
  | nil => exact ⟨Option.some.inj h ▸ hp, nofun⟩
  | cons e es ih =>
    obtain ⟨p', hstep, hrest⟩ := Transition.run_cons_eq_some.mp h
    obtain ⟨hp', he⟩ := left_step hp hstep
    obtain ⟨hq, hes⟩ := ih hrest hp'
    exact ⟨hq, List.forall_mem_cons.mpr ⟨he, hes⟩⟩

/-- What `run` does on its own to return: the deadline fires, the tasks are aborted, the stream is dropped. -/
def finish : List PollEvent :=
  [.other (.main .deadline), .other (.main .aborted), .other (.main .dropped), .other (.main .returned)]

theorem left_finish (worker : Worker) {result : Except ZizqError Unit} {p : Polling} (hp : Left result p) :
    ∃ later q, later <:+ finish ∧ Transition.run (stepPolling worker) p later = some q ∧
      q.state.main = .returned result := by
  obtain ⟨hresult, hpending⟩ := hp
  obtain ⟨s, pending⟩ := p
  obtain rfl : pending = false := hpending
  let returned : State := { s with main := .returned result, stream := false }
  cases hmain : s.main with
  | joining r | flushing r =>
    obtain rfl : r = result := by simpa [hmain, Main.result] using hresult
    refine ⟨finish, ⟨{ returned with ackTx := false, aborted := true }, false⟩, List.suffix_refl _, ?_, rfl⟩
    simp [finish, Transition.run, stepPolling, step, stepMain, hmain, Main.selects, returned]
  | aborting r =>
    obtain rfl : r = result := by simpa [hmain, Main.result] using hresult
    refine ⟨finish.drop 1, ⟨{ returned with aborted := true }, false⟩, List.drop_suffix _ _, ?_, rfl⟩
    simp [finish, Transition.run, stepPolling, step, stepMain, hmain, Main.selects, returned]
  | closing r =>
    obtain rfl : r = result := by simpa [hmain, Main.result] using hresult
    refine ⟨finish.drop 2, ⟨returned, false⟩, List.drop_suffix _ _, ?_, rfl⟩
    simp [finish, Transition.run, stepPolling, step, stepMain, hmain, Main.selects, returned]
  | returning r =>
    obtain rfl : r = result := by simpa [hmain, Main.result] using hresult
    refine ⟨finish.drop 3, ⟨{ s with main := .returned r }, false⟩, List.drop_suffix _ _, ?_, rfl⟩
    simp [finish, Transition.run, stepPolling, step, stepMain, hmain, Main.selects]
  | returned r =>
    obtain rfl : r = result := by simpa [hmain, Main.result] using hresult
    exact ⟨[], _, List.nil_suffix, rfl, hmain⟩
  | _ => simp [hmain, Main.result] at hresult

/-! ### The main result -/

/-- A poll of the shutdown future that comes back ready leaves the loop with `Ok`, and with no job in
hand. -/
theorem left_of_ready {p p' : Polling} (h : stepPolling worker p (.polled true) = some p') :
    Left (.ok ()) p' ∧ p.state.main.inHand = [] := by
  simp only [stepPolling, if_true] at h
  split at h
  · obtain ⟨s', hstep, rfl⟩ := Option.map_eq_some_iff.mp h
    cases stepMain_cases hstep with
    | shutdown hmain =>
      refine ⟨⟨rfl, rfl⟩, ?_⟩
      rcases hmain with hmain | hmain <;> rw [hmain] <;> rfl
  · cases h

/-- Nothing of the loops happens any more, the result is `Ok`, every job that came off the stream has
been dispatched, and `run` can return on its own. -/
structure ShutDown (worker : Worker) (before after : List PollEvent) (p : Polling) : Prop where
  quiet : ∀ e ∈ after, e.inLoop = false
  result : p.state.main.result = some (.ok ())
  dispatched : pulls (before.filterMap PollEvent.visible) = spawns (before.filterMap PollEvent.visible)
  returns : ∃ later q, later <:+ finish ∧
    PollExecution worker (before ++ .polled true :: after ++ later) q ∧ q.state.main = .returned (.ok ())

/-- **Main theorem.** Once the shutdown future is ready at a poll, no job is pulled or dispatched, no
stream is opened and the future is not polled again; nothing that was pulled is lost, and `run` returns
`Ok`. -/
theorem shutdown_final {before after : List PollEvent} {p : Polling}
    (h : PollExecution worker (before ++ .polled true :: after) p) : ShutDown worker before after p := by
  obtain ⟨s₀, hstart, hrun⟩ := h
  obtain ⟨p₁, hbefore, hrest⟩ := Transition.run_append_eq_some.mp hrun
  obtain ⟨p₂, hready, hafter⟩ := Transition.run_cons_eq_some.mp hrest
  obtain ⟨hleft, hhand⟩ := left_of_ready hready
  obtain ⟨hp, hquiet⟩ := left_run hafter hleft
  obtain ⟨later, q, hlater, hfinish, hreturned⟩ := left_finish worker hp
  refine ⟨hquiet, hp.result, ?_, later, q, hlater, ⟨s₀, hstart, ?_⟩, hreturned⟩
  · have hdispatched := (PollExecution.execution ⟨s₀, hstart, hbefore⟩).dispatched.1
    rwa [hhand, List.append_nil] at hdispatched
  · exact Transition.run_append_eq_some.mpr ⟨p, hrun, hfinish⟩

/-- Shutdown at capacity: a job is being handled as the future becomes ready. -/
def busyShutdown : List PollEvent :=
  [.other (.main .connected), .polled false, .other (.main (.pulled ⟨"job-1"⟩)),
    .other (.main (.spawned ⟨"job-1"⟩)), .polled false, .parked]

theorem shutdown_final_busyShutdown :
    ∃ p, PollExecution ⟨1, 1, true⟩ (busyShutdown ++ .polled true :: [.other (.task 0 .resumed)]) p ∧
      ShutDown ⟨1, 1, true⟩ busyShutdown [.other (.task 0 .resumed)] p := by
  have h : ∃ p, PollExecution ⟨1, 1, true⟩
      (busyShutdown ++ .polled true :: [.other (.task 0 .resumed)]) p := ⟨_, _, rfl, rfl⟩
  obtain ⟨p, hp⟩ := h
  exact ⟨p, hp, shutdown_final hp⟩

end Zizq.Worker
