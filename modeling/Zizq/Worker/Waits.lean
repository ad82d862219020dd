import Zizq.Worker.Record

/-! How long a worker waits.

Three parties wait before they try again: the dispatcher before it opens a stream, a task
before it reports its failure, and the ack processor before it sends its batch. Whatever
the interleaving, each wait is twice as long as the one before it, up to the bound, and
the first one after a success is the initial one (`waits_doubled`). -/
namespace Zizq.Worker
open Client Data

variable {worker : Worker} {s s' : State} {es : List Event}

/-! ### Counting waits -/

/-- The wait that comes after `n` others. -/
def waitAfter (n : Nat) : Nat := min (initialBackoff * 2 ^ n) maxBackoff

theorem nextBackoff_waitAfter (n : Nat) : nextBackoff (waitAfter n) = waitAfter (n + 1) := by
  rw [nextBackoff, waitAfter, waitAfter, Nat.pow_succ, ← Nat.mul_assoc]
  omega

/-- What an event is to a party that waits. -/
inductive Mark where
  | fresh | waited

/-- The waits since the party started afresh. -/
def since {α : Type} (mark : α → Option Mark) (es : List α) : Nat :=
  es.foldl (fun n e =>
    match mark e with
    | some .fresh => 0
    | some .waited => n + 1
    | none => n) 0

theorem since_concat {α : Type} (mark : α → Option Mark) (es : List α) (e : α) :
    since mark (es ++ [e]) =
      match mark e with
      | some .fresh => 0
      | some .waited => since mark es + 1
      | none => since mark es := by
  rw [since, List.foldl_append]
  rfl

section Wait
variable {α : Type} {mark : α → Option Mark} {es : List α} {e : α} {wait : Nat}

theorem wait_fresh (h : mark e = some .fresh) : initialBackoff = waitAfter (since mark (es ++ [e])) := by
  rw [since_concat, h]
  rfl

theorem wait_waited (h : mark e = some .waited) (hwait : wait = waitAfter (since mark es)) :
    nextBackoff wait = waitAfter (since mark (es ++ [e])) := by
  rw [since_concat, h, hwait]
  exact nextBackoff_waitAfter _

theorem wait_silent (h : mark e = none) (hwait : wait = waitAfter (since mark es)) :
    wait = waitAfter (since mark (es ++ [e])) := by
  rwa [since_concat, h]

end Wait

/-- The dispatcher starts afresh with a stream. -/
def takeMark : Event → Option Mark
  | .main .connected => some .fresh
  | .main .slept => some .waited
  | _ => none

/-- The ack processor starts afresh with a batch. -/
def ackMark : Event → Option Mark
  | .ack .emptied => some .fresh
  | .ack .slept => some .waited
  | _ => none

/-- A task starts afresh with what its handler returned. -/
def reportMark : TaskEvent → Option Mark
  | .handled _ => some .fresh
  | .slept => some .waited
  | _ => none

/-! ### The three parties -/

def AckPhase.Paced (es : List Event) : AckPhase → Prop
  | .starting _ backoff | .requesting _ backoff | .sleeping _ backoff => backoff = waitAfter (since ackMark es)
  | _ => True

def Phase.Paced (_ : Job) (h : List TaskEvent) : Phase → Prop
  | .reporting _ backoff | .awaiting _ backoff | .sleeping _ backoff => backoff = waitAfter (since reportMark h)
  | _ => True

structure Paced (es : List Event) (s : State) : Prop where
  take : s.backoff = waitAfter (since takeMark es)
  ack : s.ack.Paced es
  tasks : Histories Phase.Paced es s

theorem Phase.Paced.silent {job : Job} {h : List TaskEvent} {phase : Phase} {e : TaskEvent}
    (hpaced : phase.Paced job h) (he : reportMark e = none) : phase.Paced job (h ++ [e]) := by
  cases phase with
  | reporting | awaiting | sleeping => exact wait_silent he hpaced
  | _ => trivial

theorem paced_phase {job : Job} {h : List TaskEvent} {phase phase' : Phase} {e : TaskEvent}
    (hpaced : phase.Paced job h) (hnext : phase.next job e = some phase') : phase'.Paced job (h ++ [e]) := by
  unfold Phase.next at hnext
  split at hnext
  · cases hnext
    trivial
  · -- the handler returned `Err`
    cases hnext
    exact wait_fresh rfl
  · cases hnext
    trivial
  · cases hnext
    trivial
  · cases hnext
    trivial
  · split at hnext <;> cases hnext
    exact wait_silent rfl hpaced
  · split at hnext <;> cases hnext
    · trivial
    · exact wait_silent rfl hpaced
  · -- the sleep is over
    cases hnext
    exact wait_waited rfl hpaced
  · cases hnext

theorem paced_task {task task' : Task} {h : List TaskEvent} {e : TaskEvent} (hpaced : task.phase.Paced task.job h)
    (hnext : task.next e = some task') : task'.phase.Paced task'.job (h ++ [e]) := by
  obtain ⟨hjob, hcases⟩ := Task.next_cases hnext
  rw [hjob]
  rcases hcases with ⟨he, heq⟩ | ⟨rfl, -, heq⟩ | ⟨-, hstep⟩
  · rw [heq]
    rcases he with rfl | rfl <;> exact hpaced.silent rfl
  · rw [heq]
    trivial
  · exact paced_phase hpaced hstep

theorem AckPhase.Paced.silent {phase : AckPhase} {e : Event} (hpaced : phase.Paced es) (he : ackMark e = none) :
    phase.Paced (es ++ [e]) := by
  cases phase with
  | starting | requesting | sleeping => exact wait_silent he hpaced
  | _ => trivial

theorem paced_ack {e : AckEvent} (hpaced : s.ack.Paced es) (h : stepAck s e = some s') :
    s'.ack.Paced (es ++ [.ack e]) := by
  cases stepAck_cases h with
  | emptied => exact wait_fresh rfl
  | slept hack =>
    rw [hack] at hpaced
    exact wait_waited rfl hpaced
  | started hack | failed hack =>
    rw [hack] at hpaced
    exact wait_silent rfl hpaced
  | _ => trivial

/-- The dispatcher's wait is doubled by a sleep, and is the initial one again after a connect. -/
theorem paced_main {e : MainEvent} (hpaced : s.backoff = waitAfter (since takeMark es))
    (h : stepMain worker s e = some s') : s'.backoff = waitAfter (since takeMark (es ++ [.main e])) := by
  cases stepMain_cases h with
  | connected => exact wait_fresh rfl
  | slept => exact wait_waited rfl hpaced
  | _ => exact wait_silent rfl hpaced

theorem paced_step {h : List Event} {e : Event} (hs : Paced h s) (hstep : step worker s e = some s') :
    Paced (h ++ [e]) s' := by
  cases e with
  | main e =>
    refine ⟨paced_main hs.take hstep, ?_, ?_⟩
    · rw [(stepMain_shared hstep).2.1]
      exact hs.ack.silent rfl
    · exact histories_stepMain (fun _ => trivial) (fun _ _ _ => trivial) hs.tasks hstep
  | task i e =>
    have htasks := histories_stepTask (fun _ _ _ hpaced hnext => paced_task hpaced hnext) hs.tasks hstep
    obtain ⟨_, _, _, _, _, rfl⟩ := stepTask_eq_some.mp hstep
    exact ⟨wait_silent rfl hs.take, hs.ack.silent rfl, htasks⟩
  | ack e =>
    refine ⟨?_, paced_ack hs.ack hstep, histories_stepAck hs.tasks hstep⟩
    have hbackoff : s'.backoff = s.backoff := by
      cases stepAck_cases hstep <;> rfl
    exact hbackoff ▸ wait_silent rfl hs.take

theorem Execution.paced (h : Execution worker es s) : Paced es s :=
  h.always (fun _ _ => trivial) ⟨rfl, trivial, histories_initial⟩ fun _ _ _ _ _ hs hstep => paced_step hs hstep

/-- **Main theorem.** Over every run, the wait of each party is the initial one doubled once for each wait since it
started afresh, up to the bound: the dispatcher's since a stream was opened, a task's since its handler returned, the
ack processor's since its batch was complete. -/
theorem waits_doubled (h : Execution worker es s) :
    s.backoff = min (500 * 2 ^ since takeMark es) 30000 ∧
      (∀ batch backoff, s.ack = .sleeping batch backoff → backoff = min (500 * 2 ^ since ackMark es) 30000) ∧
      ∀ i task err backoff, s.tasks[i]? = some task → task.phase = .sleeping err backoff →
        backoff = min (500 * 2 ^ since reportMark (taskEvents i es)) 30000 := by
  obtain ⟨htake, hack, htasks⟩ := h.paced
  refine ⟨htake, fun batch backoff hsleeping => ?_, fun i task err backoff hi hsleeping => ?_⟩
  · rw [hsleeping] at hack
    exact hack
  · have hpaced := htasks.fits i task hi
    rw [hsleeping] at hpaced
    exact hpaced

/-- The server is down: twice a stream could not be opened. -/
def down : List Event :=
  [.main (.connectFailed (.transport "refused")), .main .slept, .main (.connectFailed (.transport "refused"))]

theorem waits_doubled_down : ∃ s, Execution ⟨1, 1, true⟩ down s ∧ s.backoff = min (500 * 2 ^ 1) 30000 := by
  obtain ⟨s, hs⟩ : ∃ s, Execution ⟨1, 1, true⟩ down s := ⟨_, _, rfl, rfl⟩
  exact ⟨s, hs, (waits_doubled hs).1⟩

end Zizq.Worker
