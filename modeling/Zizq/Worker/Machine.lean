import Zizq.Data.Transition
import Zizq.Worker.Retry

/-! The worker as a system of parties.

`run` with its dispatch loop is one party, each spawned `handle_job` another, and the
ack processor a third; they share the inflight set and the ack channel. A step is one
event of one party, so a run of the system is any interleaving of them with any
outcome of the requests and any timing of shutdown and of the deadline. Task `i` is
the `i`-th that was spawned, and stays in the list after it has been joined. -/
namespace Zizq

structure Worker where
  concurrency : Nat
  prefetch : Nat
  reconnect : Bool

end Zizq

namespace Zizq.Worker
open Client Data

/-! ### Tasks -/

structure Job where
  id : String
deriving DecidableEq

/-- Where a task is in `handle_job`, or that it has ended, or that `join_next` has returned it. -/
inductive Phase where
  | handling
  | sending
  | reporting (err : HandlerError) (backoff : Nat)
  | awaiting (err : HandlerError) (backoff : Nat)
  | sleeping (err : HandlerError) (backoff : Nat)
  | finished
  | joined
deriving DecidableEq

/-- The task holds its future, and with it a sender of the ack channel. -/
def Phase.live : Phase → Bool
  | .finished | .joined => false
  | _ => true

/-- A task that is `polled` is being run by the runtime; any other waits at an `await`. -/
structure Task where
  job : Job
  phase : Phase
  polled : Bool
deriving DecidableEq

inductive TaskEvent where
  | resumed
  | parked
  | handled (result : Except HandlerError Unit)
  | panicked
  | sent
  | sendFailed
  | reportStarted (request : String × FailureRequest)
  | reportAnswered (outcome : Except ZizqError Job)
  | slept
  | cancelled

/-- One step of `handle_job`. -/
def Phase.next (job : Job) : Phase → TaskEvent → Option Phase
  | .handling, .handled (.ok _) => some .sending
  | .handling, .handled (.error err) => some (.reporting err initialBackoff)
  | .handling, .panicked => some .finished
  | .sending, .sent => some .finished
  | .sending, .sendFailed => some .finished
  | .reporting err backoff, .reportStarted request =>
    if request = (job.id, failureRequest err) then some (.awaiting err backoff) else none
  | .awaiting err backoff, .reportAnswered outcome =>
    match verdict outcome with
    | .stop => some .finished
    | .retry => some (.sleeping err backoff)
  | .sleeping err backoff, .slept => some (.reporting err (nextBackoff backoff))
  | _, _ => none

/-- Only a task that is not being polled is resumed or cancelled, and only one that is being polled
does anything else. -/
def Task.next (task : Task) : TaskEvent → Option Task
  | .resumed => if task.phase.live ∧ ¬ task.polled then some { task with polled := true } else none
  | .cancelled => if task.phase.live ∧ ¬ task.polled then some { task with phase := .finished } else none
  | .parked => if task.polled then some { task with polled := false } else none
  | e =>
    if task.polled then
      (task.phase.next task.job e).map fun phase => { task with phase := phase, polled := phase.live }
    else none

/-! ### The ack processor -/

/-- What the ack channel carries: an id, with the task that sent it. -/
structure Ack where
  task : Nat
  id : String
deriving DecidableEq

/-- Where `ack_processor` is: in `recv`, in the `try_recv` loop, about to send the request for a
batch, waiting for its answer, backing off, or gone. -/
inductive AckPhase where
  | receiving
  | collecting (batch : List Ack)
  | starting (batch : List Ack) (backoff : Nat)
  | requesting (batch : List Ack) (backoff : Nat)
  | sleeping (batch : List Ack) (backoff : Nat)
  | done
deriving DecidableEq

inductive AckEvent where
  | received
  | closed
  | collected
  | emptied
  | started (batch : List Ack)
  | answered (outcome : Except ZizqError Unit)
  | slept

/-! ### The dispatcher -/

/-- Where `run` is: opening the take stream, in `dispatch_session`, between a job off the stream and
its `spawn`, backing off; then, with its result, joining the tasks, waiting for the ack processor,
about to call `abort_all` past the deadline, dropping the stream, and returning. -/
inductive Main where
  | connecting
  | dispatching
  | holding (job : Job)
  | sleeping
  | joining (result : Except ZizqError Unit)
  | flushing (result : Except ZizqError Unit)
  | aborting (result : Except ZizqError Unit)
  | closing (result : Except ZizqError Unit)
  | returning (result : Except ZizqError Unit)
  | returned (result : Except ZizqError Unit)

inductive MainEvent where
  | connected
  | connectFailed (e : ZizqError)
  | pulled (job : Job)
  | spawned (job : Job)
  | joined (i : Nat)
  | streamEnded
  | streamFailed (e : ZizqError)
  | shutdown
  | slept
  | drained
  | flushed
  | deadline
  | aborted
  | dropped
  | returned

/-- `dispatch_loop` has not returned. -/
def Main.looping : Main → Bool
  | .connecting | .dispatching | .holding _ | .sleeping => true
  | _ => false

/-- `run` is past joining its tasks. -/
def Main.drained : Main → Bool
  | .flushing _ | .aborting _ | .closing _ | .returning _ | .returned _ => true
  | _ => false

/-- `run` is past the drain. -/
def Main.ended : Main → Bool
  | .aborting _ | .closing _ | .returning _ | .returned _ => true
  | _ => false

/-- The job that is off the stream and not spawned. -/
def Main.inHand : Main → List Job
  | .holding job => [job]
  | _ => []

/-! ### The system -/

/-- `aborted` once `abort_all` was called; `stream` while a take stream is open. -/
structure State where
  main : Main
  backoff : Nat
  stream : Bool
  aborted : Bool
  tasks : List Task
  ackTx : Bool
  channel : List Ack
  ack : AckPhase

inductive Event where
  | main (e : MainEvent)
  | task (i : Nat) (e : TaskEvent)
  | ack (e : AckEvent)

/-- The most permits that a bounded channel takes. -/
def maxPermits : Nat := (2 ^ 64 - 1) / 8

/-- `prefetch * 2` in a 64-bit `usize`. -/
def capacity (worker : Worker) : Nat := worker.prefetch * 2 % 2 ^ 64

def initial : State where
  main := .connecting
  backoff := initialBackoff
  stream := false
  aborted := false
  tasks := []
  ackTx := true
  channel := []
  ack := .receiving

/-- `None` where creating the channel panics. -/
def start (worker : Worker) : Option State :=
  if 1 ≤ capacity worker ∧ capacity worker ≤ maxPermits then some initial else none

/-- The length of the inflight set: the tasks that `join_next` has not returned. -/
def inflight (s : State) : Nat := s.tasks.countP fun task => task.phase ≠ .joined

/-- Every sender of the ack channel has been dropped. -/
def sendersGone (s : State) : Bool := !s.ackTx && s.tasks.all fun task => !task.phase.live

/-- `join_next` returns a task that has ended. -/
def join (s : State) (i : Nat) : Option State :=
  match s.tasks[i]? with
  | some ⟨job, .finished, polled⟩ => some { s with tasks := s.tasks.set i ⟨job, .joined, polled⟩ }
  | _ => none

def stepMain (worker : Worker) (s : State) (e : MainEvent) : Option State :=
  match s.main, e with
  | .connecting, .connected =>
    some { s with main := .dispatching, stream := true, backoff := initialBackoff }
  | .connecting, .connectFailed e =>
    if e.isClientError ∨ ¬ worker.reconnect then some { s with main := .joining (.error e) }
    else some { s with main := .sleeping }
  | .dispatching, .shutdown => some { s with main := .joining (.ok ()) }
  | .dispatching, .joined i => if worker.concurrency ≤ inflight s then join s i else none
  | .dispatching, .pulled job =>
    if inflight s < worker.concurrency then some { s with main := .holding job } else none
  | .dispatching, .streamEnded =>
    if inflight s < worker.concurrency then
      some { s with main := if worker.reconnect then .sleeping else .joining (.ok ()), stream := false }
    else none
  | .dispatching, .streamFailed e =>
    if inflight s < worker.concurrency then
      some { s with main := if worker.reconnect then .sleeping else .joining (.error e), stream := false }
    else none
  | .holding job, .spawned job' =>
    if job = job' then
      some { s with main := .dispatching, tasks := s.tasks ++ [⟨job, .handling, false⟩] }
    else none
  | .sleeping, .shutdown => some { s with main := .joining (.ok ()) }
  | .sleeping, .slept => some { s with main := .connecting, backoff := nextBackoff s.backoff }
  | .joining _, .joined i => join s i
  | .joining result, .drained =>
    if inflight s = 0 then some { s with main := .flushing result, ackTx := false } else none
  | .flushing result, .flushed => if s.ack = .done then some { s with main := .closing result } else none
  -- dropping the drain drops the sender and detaches the ack processor; the tasks run on until `abort_all`
  | .joining result, .deadline | .flushing result, .deadline =>
    some { s with main := .aborting result, ackTx := false }
  | .aborting result, .aborted => some { s with main := .closing result, aborted := true }
  | .closing result, .dropped => some { s with main := .returning result, stream := false }
  | .returning result, .returned => some { s with main := .returned result }
  | _, _ => none

/-- What an event of a task needs of the other parties. -/
def permitted (worker : Worker) (s : State) : TaskEvent → Bool
  | .resumed => !s.aborted
  | .cancelled => s.aborted
  | .sent => s.channel.length < capacity worker && s.ack ≠ .done
  | .sendFailed => s.ack = .done
  | _ => true

/-- What an event of a task puts on the ack channel. -/
def outbox (i : Nat) (task : Task) : TaskEvent → List Ack
  | .sent => [⟨i, task.job.id⟩]
  | _ => []

def stepTask (worker : Worker) (s : State) (i : Nat) (e : TaskEvent) : Option State :=
  match s.tasks[i]? with
  | none => none
  | some task =>
    if permitted worker s e then
      (task.next e).map fun task' =>
        { s with tasks := s.tasks.set i task', channel := s.channel ++ outbox i task e }
    else none

def stepAck (s : State) (e : AckEvent) : Option State :=
  match s.ack, e, s.channel with
  | .receiving, .received, a :: channel => some { s with ack := .collecting [a], channel := channel }
  | .receiving, .closed, [] => if sendersGone s then some { s with ack := .done } else none
  | .collecting batch, .collected, a :: channel =>
    some { s with ack := .collecting (batch ++ [a]), channel := channel }
  | .collecting batch, .emptied, [] => some { s with ack := .starting batch initialBackoff }
  | .starting batch backoff, .started batch', _ =>
    if batch = batch' then some { s with ack := .requesting batch backoff } else none
  | .requesting batch backoff, .answered outcome, _ =>
    match verdict outcome with
    | .stop => some { s with ack := .receiving }
    | .retry => some { s with ack := .sleeping batch backoff }
  | .sleeping batch backoff, .slept, _ => some { s with ack := .starting batch (nextBackoff backoff) }
  | _, _, _ => none

def step (worker : Worker) (s : State) : Event → Option State
  | .main e => stepMain worker s e
  | .task i e => stepTask worker s i e
  | .ack e => stepAck s e

/-- The events `es`, from the start of the worker, lead to the state `s`. -/
def Execution (worker : Worker) (es : List Event) (s : State) : Prop :=
  ∃ s₀, start worker = some s₀ ∧ Transition.run (step worker) s₀ es = some s

theorem start_eq_some {worker : Worker} {s : State} (h : start worker = some s) :
    s = initial ∧ 0 < capacity worker := by
  unfold start at h
  split at h
  · next hcapacity => exact ⟨(Option.some.inj h).symm, hcapacity.1⟩
  · cases h

theorem Execution.run {worker : Worker} {es : List Event} {s : State} (h : Execution worker es s) :
    Transition.run (step worker) initial es = some s := by
  obtain ⟨s₀, hstart, hrun⟩ := h
  exact (start_eq_some hstart).1 ▸ hrun

/-- An execution that begins with `es` goes on from the state that `es` leads to. -/
theorem Execution.split {worker : Worker} {es later : List Event} {e : Event} {s t : State}
    (h : Execution worker (es ++ e :: later) t) (hs : Execution worker es s) :
    ∃ s', step worker s e = some s' ∧ Transition.run (step worker) s' later = some t := by
  obtain ⟨s₁, hrun, hrest⟩ := Transition.run_append_eq_some.mp h.run
  obtain rfl := Option.some.inj (hs.run.symm.trans hrun)
  exact Transition.run_cons_eq_some.mp hrest

theorem Execution.append {worker : Worker} {es later : List Event} {e : Event} {s s' t : State}
    (hs : Execution worker es s) (hstep : step worker s e = some s')
    (hrun : Transition.run (step worker) s' later = some t) : Execution worker (es ++ e :: later) t := by
  obtain ⟨s₀, hstart, hbefore⟩ := hs
  have hrest := Transition.run_cons_eq_some.mpr ⟨s', hstep, hrun⟩
  exact ⟨s₀, hstart, Transition.run_append_eq_some.mpr ⟨s, hbefore, hrest⟩⟩

/-- What holds at the start and is kept by every step that `rule` allows holds after every execution
of such steps. -/
theorem Execution.always {worker : Worker} {es : List Event} {s : State} {I : List Event → State → Prop}
    {rule : Event → Prop} (h : Execution worker es s) (hrule : ∀ e ∈ es, rule e) (hinitial : I [] initial)
    (hstep : ∀ h s e s', rule e → I h s → step worker s e = some s' → I (h ++ [e]) s') : I es s :=
  Transition.run_history (h := []) hstep h.run hrule hinitial

/-! ### What a step can do -/

theorem join_cases {s s' : State} {i : Nat} (h : join s i = some s') :
    ∃ task, s.tasks[i]? = some task ∧ task.phase = .finished ∧
      s' = { s with tasks := s.tasks.set i { task with phase := .joined } } := by
  unfold join at h
  split at h
  · next job polled htask => exact ⟨_, htask, rfl, (Option.some.inj h).symm⟩
  · cases h

theorem stepTask_eq_some {worker : Worker} {s s' : State} {i : Nat} {e : TaskEvent} :
    stepTask worker s i e = some s' ↔ ∃ task task', s.tasks[i]? = some task ∧
      permitted worker s e = true ∧ task.next e = some task' ∧
      s' = { s with tasks := s.tasks.set i task', channel := s.channel ++ outbox i task e } := by
  unfold stepTask
  cases htask : s.tasks[i]? with
  | none => simp
  | some task =>
    by_cases hp : permitted worker s e = true
    · cases hnext : task.next e <;> simp [hp, hnext, eq_comm]
    · simp [hp]

/-- Only a live task takes a step of `handle_job`. -/
theorem Phase.live_of_next {job : Job} {phase phase' : Phase} {e : TaskEvent}
    (h : phase.next job e = some phase') : phase.live = true := by
  cases phase with
  | finished | joined => cases e <;> cases h
  | _ => rfl

/-- A task is resumed or parked where it is, is cancelled, or takes a step of `handle_job`. -/
theorem Task.next_cases {task task' : Task} {e : TaskEvent} (h : task.next e = some task') :
    task'.job = task.job ∧
      ((e = .resumed ∨ e = .parked) ∧ task'.phase = task.phase ∨
        e = .cancelled ∧ task.phase.live = true ∧ task'.phase = .finished ∨
        task.polled = true ∧ task.phase.next task.job e = some task'.phase) := by
  unfold Task.next at h
  split at h
  · split at h <;> cases h
    exact ⟨rfl, .inl ⟨.inl rfl, rfl⟩⟩
  · split at h <;> cases h
    next hlive => exact ⟨rfl, .inr (.inl ⟨rfl, hlive.1, rfl⟩)⟩
  · split at h <;> cases h
    exact ⟨rfl, .inl ⟨.inr rfl, rfl⟩⟩
  · split at h
    · next hpolled =>
      obtain ⟨phase, hphase, rfl⟩ := Option.map_eq_some_iff.mp h
      exact ⟨rfl, .inr (.inr ⟨hpolled, hphase⟩)⟩
    · cases h

theorem Task.live_of_next {task task' : Task} {e : TaskEvent} (h : task.next e = some task')
    (hlive : task'.phase.live = true) : task.phase.live = true := by
  rcases (Task.next_cases h).2 with ⟨-, heq⟩ | ⟨-, hlive', -⟩ | ⟨-, hnext⟩
  · exact heq ▸ hlive
  · exact hlive'
  · exact Phase.live_of_next hnext

/-- The transitions of the dispatcher, with what each one needs. -/
inductive MainStep (worker : Worker) (s : State) : MainEvent → State → Prop where
  | connected (hmain : s.main = .connecting) :
    MainStep worker s .connected { s with main := .dispatching, stream := true, backoff := initialBackoff }
  | connectRefused {e : ZizqError} (hmain : s.main = .connecting)
    (hhard : e.isClientError ∨ ¬ worker.reconnect) :
    MainStep worker s (.connectFailed e) { s with main := .joining (.error e) }
  | connectFailed {e : ZizqError} (hmain : s.main = .connecting)
    (hsoft : ¬ (e.isClientError ∨ ¬ worker.reconnect)) :
    MainStep worker s (.connectFailed e) { s with main := .sleeping }
  | shutdown (hmain : s.main = .dispatching ∨ s.main = .sleeping) :
    MainStep worker s .shutdown { s with main := .joining (.ok ()) }
  | joined {i : Nat} {task : Task}
    (hmain : s.main = .dispatching ∧ worker.concurrency ≤ inflight s ∨ ∃ result, s.main = .joining result)
    (hi : s.tasks[i]? = some task) (hphase : task.phase = .finished) :
    MainStep worker s (.joined i) { s with tasks := s.tasks.set i { task with phase := .joined } }
  | pulled {job : Job} (hmain : s.main = .dispatching) (hslot : inflight s < worker.concurrency) :
    MainStep worker s (.pulled job) { s with main := .holding job }
  | streamEnded (hmain : s.main = .dispatching) (hslot : inflight s < worker.concurrency) :
    MainStep worker s .streamEnded
      { s with main := if worker.reconnect then .sleeping else .joining (.ok ()), stream := false }
  | streamFailed {e : ZizqError} (hmain : s.main = .dispatching) (hslot : inflight s < worker.concurrency) :
    MainStep worker s (.streamFailed e)
      { s with main := if worker.reconnect then .sleeping else .joining (.error e), stream := false }
  | spawned {job : Job} (hmain : s.main = .holding job) :
    MainStep worker s (.spawned job)
      { s with main := .dispatching, tasks := s.tasks ++ [⟨job, .handling, false⟩] }
  | slept (hmain : s.main = .sleeping) :
    MainStep worker s .slept { s with main := .connecting, backoff := nextBackoff s.backoff }
  | drained {result : Except ZizqError Unit} (hmain : s.main = .joining result) (hjoined : inflight s = 0) :
    MainStep worker s .drained { s with main := .flushing result, ackTx := false }
  | flushed {result : Except ZizqError Unit} (hmain : s.main = .flushing result) (hack : s.ack = .done) :
    MainStep worker s .flushed { s with main := .closing result }
  | deadline {result : Except ZizqError Unit} (hmain : s.main = .joining result ∨ s.main = .flushing result) :
    MainStep worker s .deadline { s with main := .aborting result, ackTx := false }
  | aborted {result : Except ZizqError Unit} (hmain : s.main = .aborting result) :
    MainStep worker s .aborted { s with main := .closing result, aborted := true }
  | dropped {result : Except ZizqError Unit} (hmain : s.main = .closing result) :
    MainStep worker s .dropped { s with main := .returning result, stream := false }
  | returned {result : Except ZizqError Unit} (hmain : s.main = .returning result) :
    MainStep worker s .returned { s with main := .returned result }

theorem stepMain_cases {worker : Worker} {s s' : State} {e : MainEvent} (h : stepMain worker s e = some s') :
    MainStep worker s e s' := by
  have hjoined {i : Nat} (hmain : s.main = .dispatching ∧ worker.concurrency ≤ inflight s ∨
      ∃ result, s.main = .joining result) (h : join s i = some s') : MainStep worker s (.joined i) s' := by
    obtain ⟨task, hi, hphase, rfl⟩ := join_cases h
    exact .joined hmain hi hphase
  unfold stepMain at h
  split at h
  · next hmain => exact Option.some.inj h ▸ .connected hmain
  · next e hmain =>
    split at h
    · next hhard => exact Option.some.inj h ▸ .connectRefused hmain hhard
    · next hsoft => exact Option.some.inj h ▸ .connectFailed hmain hsoft
  · next hmain => exact Option.some.inj h ▸ .shutdown (.inl hmain)
  · next i hmain =>
    split at h
    · next hfull => exact hjoined (.inl ⟨hmain, hfull⟩) h
    · cases h
  · next job hmain =>
    split at h
    · next hslot => exact Option.some.inj h ▸ .pulled hmain hslot
    · cases h
  · next hmain =>
    split at h
    · next hslot => exact Option.some.inj h ▸ .streamEnded hmain hslot
    · cases h
  · next e hmain =>
    split at h
    · next hslot => exact Option.some.inj h ▸ .streamFailed hmain hslot
    · cases h
  · next job job' hmain =>
    split at h
    · next heq =>
      subst heq
      exact Option.some.inj h ▸ .spawned hmain
    · cases h
  · next hmain => exact Option.some.inj h ▸ .shutdown (.inr hmain)
  · next hmain => exact Option.some.inj h ▸ .slept hmain
  · next result i hmain => exact hjoined (.inr ⟨result, hmain⟩) h
  · next result hmain =>
    split at h
    · next hzero => exact Option.some.inj h ▸ .drained hmain hzero
    · cases h
  · next result hmain =>
    split at h
    · next hack => exact Option.some.inj h ▸ .flushed hmain hack
    · cases h
  · next result hmain => exact Option.some.inj h ▸ .deadline (.inl hmain)
  · next result hmain => exact Option.some.inj h ▸ .deadline (.inr hmain)
  · next result hmain => exact Option.some.inj h ▸ .aborted hmain
  · next result hmain => exact Option.some.inj h ▸ .dropped hmain
  · next result hmain => exact Option.some.inj h ▸ .returned hmain
  · cases h

/-- The dispatcher leaves the channel and the ack processor alone, and only ever drops its sender. -/
theorem stepMain_shared {worker : Worker} {s s' : State} {e : MainEvent}
    (h : stepMain worker s e = some s') :
    s'.channel = s.channel ∧ s'.ack = s.ack ∧ (s'.ackTx = s.ackTx ∨ s'.ackTx = false) := by
  cases stepMain_cases h with
  | drained | deadline => exact ⟨rfl, rfl, .inr rfl⟩
  | _ => exact ⟨rfl, rfl, .inl rfl⟩

/-- It keeps the sender until it has joined every task. -/
theorem stepMain_sender {worker : Worker} {s s' : State} {e : MainEvent}
    (h : stepMain worker s e = some s') (hdrained : s'.main.drained = false) :
    s.main.drained = false ∧ s'.ackTx = s.ackTx := by
  cases stepMain_cases h with
  | drained | flushed | deadline | aborted | dropped | returned => cases hdrained
  | joined => exact ⟨hdrained, rfl⟩
  | shutdown hmain => rcases hmain with hmain | hmain <;> exact ⟨hmain ▸ rfl, rfl⟩
  | _ hmain => exact ⟨hmain ▸ rfl, rfl⟩

/-- It leaves the tasks alone, or joins one that has ended, or spawns one for the job in hand. -/
theorem stepMain_tasks {worker : Worker} {s s' : State} {e : MainEvent}
    (h : stepMain worker s e = some s') :
    s'.tasks = s.tasks ∨
    (∃ i task, s.tasks[i]? = some task ∧ task.phase = .finished ∧
      s'.tasks = s.tasks.set i { task with phase := .joined }) ∨
    ∃ job, s.main = .holding job ∧ s'.tasks = s.tasks ++ [⟨job, .handling, false⟩] := by
  cases stepMain_cases h with
  | joined _ hi hphase => exact .inr (.inl ⟨_, _, hi, hphase, rfl⟩)
  | spawned hmain => exact .inr (.inr ⟨_, hmain, rfl⟩)
  | _ => exact .inl rfl

/-- The transitions of the ack processor, with what each one needs. -/
inductive AckStep (s : State) : AckEvent → State → Prop where
  | received {a : Ack} {channel : List Ack} (hack : s.ack = .receiving) (hchannel : s.channel = a :: channel) :
    AckStep s .received { s with ack := .collecting [a], channel := channel }
  | closed (hack : s.ack = .receiving) (hchannel : s.channel = []) (hgone : sendersGone s = true) :
    AckStep s .closed { s with ack := .done }
  | collected {batch : List Ack} {a : Ack} {channel : List Ack} (hack : s.ack = .collecting batch)
    (hchannel : s.channel = a :: channel) :
    AckStep s .collected { s with ack := .collecting (batch ++ [a]), channel := channel }
  | emptied {batch : List Ack} (hack : s.ack = .collecting batch) (hchannel : s.channel = []) :
    AckStep s .emptied { s with ack := .starting batch initialBackoff }
  | started {batch : List Ack} {backoff : Nat} (hack : s.ack = .starting batch backoff) :
    AckStep s (.started batch) { s with ack := .requesting batch backoff }
  | settled {batch : List Ack} {backoff : Nat} {outcome : Except ZizqError Unit}
    (hack : s.ack = .requesting batch backoff) (hstop : verdict outcome = .stop) :
    AckStep s (.answered outcome) { s with ack := .receiving }
  | failed {batch : List Ack} {backoff : Nat} {outcome : Except ZizqError Unit}
    (hack : s.ack = .requesting batch backoff) (hretry : verdict outcome = .retry) :
    AckStep s (.answered outcome) { s with ack := .sleeping batch backoff }
  | slept {batch : List Ack} {backoff : Nat} (hack : s.ack = .sleeping batch backoff) :
    AckStep s .slept { s with ack := .starting batch (nextBackoff backoff) }

theorem stepAck_cases {s s' : State} {e : AckEvent} (h : stepAck s e = some s') : AckStep s e s' := by
  unfold stepAck at h
  split at h
  · next a channel hack hchannel => exact Option.some.inj h ▸ .received hack hchannel
  · next hack hchannel =>
    split at h
    · next hgone => exact Option.some.inj h ▸ .closed hack hchannel hgone
    · cases h
  · next batch a channel hack hchannel => exact Option.some.inj h ▸ .collected hack hchannel
  · next batch hack hchannel => exact Option.some.inj h ▸ .emptied hack hchannel
  · next batch backoff batch' hack =>
    split at h
    · next heq =>
      subst heq
      exact Option.some.inj h ▸ .started hack
    · cases h
  · next batch backoff outcome hack =>
    split at h
    · next hstop => exact Option.some.inj h ▸ .settled hack hstop
    · next hretry => exact Option.some.inj h ▸ .failed hack hretry
  · next batch backoff hack => exact Option.some.inj h ▸ .slept hack
  · cases h

/-- The ack processor touches the channel and itself. -/
theorem stepAck_frame {s s' : State} {e : AckEvent} (h : stepAck s e = some s') :
    s'.main = s.main ∧ s'.stream = s.stream ∧ s'.aborted = s.aborted ∧ s'.tasks = s.tasks ∧
      s'.ackTx = s.ackTx := by
  cases stepAck_cases h <;> exact ⟨rfl, rfl, rfl, rfl, rfl⟩

theorem stepAck_done {s s' : State} {e : AckEvent} (h : stepAck s e = some s') (hdone : s'.ack = .done) :
    s'.channel = [] ∧ sendersGone s = true := by
  cases stepAck_cases h with
  | closed _ hchannel hgone => exact ⟨hchannel, hgone⟩
  | _ => cases hdone

theorem stepAck_of_done {s : State} {e : AckEvent} (h : s.ack = .done) : stepAck s e = none := by
  unfold stepAck
  split <;> simp_all

theorem sendersGone_iff {s : State} :
    sendersGone s = true ↔ s.ackTx = false ∧ ∀ task ∈ s.tasks, task.phase.live = false := by
  simp [sendersGone]

theorem permitted_sent {worker : Worker} {s : State} :
    permitted worker s .sent = true ↔ s.channel.length < capacity worker ∧ s.ack ≠ .done := by
  simp [permitted]

theorem stepTask_tasks {worker : Worker} {s s' : State} {i : Nat} {e : TaskEvent}
    (h : stepTask worker s i e = some s') {task : Task} (hmem : task ∈ s'.tasks) : task ∈ s.tasks ∨
      ∃ task₀, s.tasks[i]? = some task₀ ∧ task₀.next e = some task := by
  obtain ⟨task₀, task', hi, -, hnext, rfl⟩ := stepTask_eq_some.mp h
  rcases List.mem_or_eq_of_mem_set hmem with hmem | rfl
  · exact .inl hmem
  · exact .inr ⟨task₀, hi, hnext⟩

end Zizq.Worker
