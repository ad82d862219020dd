import Zizq.Data.Ranking
import Zizq.Worker.Capacity
import Zizq.Worker.Ownership
import Zizq.Worker.Reconnect
import Zizq.Worker.Shutdown

/-! How the drain comes to its end.

Once the dispatch loop is left, every event but the resuming and parking of a task brings
the worker closer to its return, unless it is the answer to a request that is then made
again. So the drain takes a number of events that the limits of the worker bound
(`drain_bounded`), and whatever the handlers return it can always be completed without
the deadline (`drain_completes`). -/
namespace Zizq.Worker
open Client Data

variable {worker : Worker} {s s' t : State} {es later : List Event}

/-! ### What is left to do -/

def Main.rank : Main → Nat
  | .closing _ => 2
  | .returning _ => 1
  | .returned _ => 0
  | .aborting _ => 3
  | .flushing _ => 4
  | _ => 5

def Phase.rank : Phase → Nat
  | .handling => 7
  | .sending => 6
  | .sleeping .. => 4
  | .reporting .. => 3
  | .awaiting .. => 2
  | .finished => 1
  | .joined => 0

def AckPhase.rank : AckPhase → Nat
  | .sleeping .. | .collecting _ => 4
  | .starting .. => 3
  | .requesting .. => 2
  | .receiving => 1
  | .done => 0

/-- An id on the channel has a receiving, a request and its answer ahead. -/
def rank (s : State) : Nat :=
  s.main.rank + (s.tasks.map fun task => task.phase.rank).sum + 4 * s.channel.length + s.ack.rank

/-- The event is none that only resumes or parks a task. -/
def Event.moves : Event → Bool
  | .task _ .resumed | .task _ .parked => false
  | _ => true

/-- The event is the answer to a request that is made again. -/
def Event.retries : Event → Bool
  | .task _ (.reportAnswered outcome) => verdict outcome = .retry
  | .ack (.answered outcome) => verdict outcome = .retry
  | _ => false

/-! ### One step -/

theorem sum_rank_set {tasks : List Task} {i : Nat} {task : Task} (task' : Task) (hi : tasks[i]? = some task) :
    ((tasks.set i task').map fun task => task.phase.rank).sum + task.phase.rank =
      (tasks.map fun task => task.phase.rank).sum + task'.phase.rank := by
  induction tasks generalizing i with
  | nil => cases hi
  | cons first tasks ih =>
    cases i with
    | zero =>
      obtain rfl := Option.some.inj hi
      simp only [List.set_cons_zero, List.map_cons, List.sum_cons]
      omega
    | succ i =>
      have := ih (i := i) hi
      simp only [List.set_cons_succ, List.map_cons, List.sum_cons]
      omega

def Event.cost (e : Event) : Nat := if e.moves then 1 else 0

def Event.gain (e : Event) : Nat := if e.retries then 3 else 0

theorem Phase.rank_next {task : Task} {phase : Phase} {e : TaskEvent} {i : Nat}
    (h : task.phase.next task.job e = some phase) :
    phase.rank + 4 * (outbox i task e).length + 1 ≤ task.phase.rank + (Event.task i e).gain := by
  unfold Phase.next at h
  split at h
  case h_6 | h_7 =>
    split at h
    all_goals
      cases h
      try simp_all [Phase.rank, outbox, Event.gain, Event.retries]
  case h_9 => cases h
  all_goals
    next hphase =>
    cases h
    simp only [hphase, Phase.rank, outbox, List.length_nil, List.length_cons]
    omega

theorem Phase.rank_live {phase : Phase} (h : phase.live = true) : 2 ≤ phase.rank := by
  cases phase with
  | finished | joined => cases h
  | _ => simp [Phase.rank]

theorem Task.rank_next {task task' : Task} {e : TaskEvent} {i : Nat} (h : task.next e = some task') :
    task'.phase.rank + 4 * (outbox i task e).length + (Event.task i e).cost ≤
      task.phase.rank + (Event.task i e).gain := by
  rcases (Task.next_cases h).2 with ⟨rfl | rfl, heq⟩ | ⟨rfl, hlive, heq⟩ | ⟨-, hnext⟩
  · simp [heq, outbox, Event.cost, Event.moves]
  · simp [heq, outbox, Event.cost, Event.moves]
  · have hrank := Phase.rank_live hlive
    have hfinished : task'.phase.rank = 1 := by rw [heq, Phase.rank]
    simp only [hfinished, outbox, List.length_nil, Event.cost, Event.moves, if_true]
    omega
  · have hrank := Phase.rank_next (i := i) hnext
    have hcost : (Event.task i e).cost ≤ 1 := by
      rw [Event.cost]
      split <;> omega
    omega

theorem rank_stepTask {i : Nat} {e : TaskEvent} (h : stepTask worker s i e = some s') :
    rank s' + (Event.task i e).cost ≤ rank s + (Event.task i e).gain := by
  obtain ⟨task, task', hi, -, hnext, rfl⟩ := stepTask_eq_some.mp h
  have htask := Task.rank_next (i := i) hnext
  have hsum := sum_rank_set task' hi
  simp only [rank, List.length_append]
  omega

theorem rank_stepAck {e : AckEvent} (h : stepAck s e = some s') :
    rank s' + (Event.ack e).cost ≤ rank s + (Event.ack e).gain := by
  cases stepAck_cases h with
  | received hack hchannel | collected hack hchannel =>
    simp only [rank, hack, hchannel, AckPhase.rank, List.length_cons, Event.cost, Event.moves, if_true]
    omega
  | failed hack hretry =>
    simp only [rank, hack, AckPhase.rank, Event.cost, Event.moves, Event.gain, Event.retries, hretry, decide_true,
      if_true]
    omega
  | closed hack | emptied hack | started hack | settled hack | slept hack =>
    simp only [rank, hack, AckPhase.rank, Event.cost, Event.moves, if_true]
    omega

theorem rank_stepMain {e : MainEvent} (h : stepMain worker s e = some s') (hleft : s.main.looping = false) :
    rank s' + (Event.main e).cost ≤ rank s + (Event.main e).gain := by
  cases stepMain_cases h with
  | @joined i task _ hi hphase =>
    have hsum := sum_rank_set { task with phase := .joined } hi
    rw [hphase] at hsum
    simp only [rank, Phase.rank, Event.cost, Event.moves, if_true] at hsum ⊢
    omega
  | drained hmain | flushed hmain | aborted hmain | dropped hmain | returned hmain =>
    simp only [rank, hmain, Main.rank, Event.cost, Event.moves, if_true]
    omega
  | deadline hmain =>
    rcases hmain with hmain | hmain
    all_goals
      simp only [rank, hmain, Main.rank, Event.cost, Event.moves, if_true]
      omega
  | shutdown hmain => rcases hmain with hmain | hmain <;> cases hmain ▸ hleft
  | _ hmain => cases hmain ▸ hleft

theorem rank_step {e : Event} (hleft : s.main.looping = false) (h : step worker s e = some s') :
    rank s' + e.cost ≤ rank s + e.gain := by
  cases e with
  | main e => exact rank_stepMain h hleft
  | task i e => exact rank_stepTask h
  | ack e => exact rank_stepAck h

theorem left_step_main {e : Event} (hleft : s.main.looping = false) (h : step worker s e = some s') :
    s'.main.looping = false := by
  cases e with
  | main e => exact (stepMain_left h hleft).1
  | task i e =>
    obtain ⟨_, _, _, _, _, rfl⟩ := stepTask_eq_some.mp h
    exact hleft
  | ack e => rwa [(stepAck_frame h).1]

/-! ### How much is left -/

theorem sum_rank_le (tasks : List Task) :
    (tasks.map fun task => task.phase.rank).sum ≤ 7 * tasks.countP fun task => task.phase ≠ .joined := by
  induction tasks with
  | nil => exact Nat.le_refl _
  | cons task tasks ih =>
    have hrank : task.phase.rank ≤ 7 := by cases task.phase <;> simp [Phase.rank]
    have hjoined (hphase : task.phase = .joined) : task.phase.rank = 0 := by rw [hphase, Phase.rank]
    rw [List.map_cons, List.sum_cons, List.countP_cons]
    by_cases hphase : task.phase = .joined
    · rw [if_neg (by simpa using hphase), hjoined hphase]
      omega
    · rw [if_pos (by simpa using hphase)]
      omega

theorem rank_le (s : State) : rank s ≤ 9 + 7 * inflight s + 4 * s.channel.length := by
  have hmain : s.main.rank ≤ 5 := by cases s.main <;> simp [Main.rank]
  have hack : s.ack.rank ≤ 4 := by cases s.ack <;> simp [AckPhase.rank]
  have htasks : _ ≤ 7 * inflight s := sum_rank_le s.tasks
  rw [rank]
  omega

theorem channel_step {e : Event} (hs : s.channel.length ≤ capacity worker) (h : step worker s e = some s') :
    s'.channel.length ≤ capacity worker := by
  cases e with
  | main e => rwa [(stepMain_shared h).1]
  | task i e =>
    obtain ⟨task, task', -, hpermitted, -, rfl⟩ := stepTask_eq_some.mp h
    rw [List.length_append]
    cases e with
    | sent => exact (permitted_sent.mp hpermitted).1
    | _ => exact hs
  | ack e =>
    cases stepAck_cases h with
    | received _ hchannel | collected _ hchannel =>
      rw [hchannel, List.length_cons] at hs
      exact Nat.le_of_succ_le hs
    | _ => exact hs

theorem Execution.channel_le (h : Execution worker es s) : s.channel.length ≤ capacity worker :=
  Transition.run_invariant (fun _ _ _ hs h => channel_step hs h) h.run (Nat.zero_le _)

/-- **Main theorem.** Once the dispatch loop is left, what can still happen is bounded by the concurrency and the
capacity of the ack channel, but for three events more with every answer after which a request is made again. -/
theorem drain_bounded (h : Execution worker es s) (hleft : s.main.looping = false)
    (hrun : Transition.run (step worker) s later = some t) :
    later.countP Event.moves ≤ 9 + 7 * worker.concurrency + 4 * capacity worker + 3 * later.countP Event.retries := by
  have hrank : rank t + (later.map Event.cost).sum ≤ rank s + (later.map Event.gain).sum := by
    refine Transition.run_rank (I := fun s => s.main.looping = false) ?_ ?_ hrun hleft
    · exact fun _ _ _ hs h => left_step_main hs h
    · exact fun _ _ _ hs h => rank_step hs h
  have hcost : (later.map Event.cost).sum = 1 * later.countP Event.moves := Transition.sum_map_if ..
  have hgain : (later.map Event.gain).sum = 3 * later.countP Event.retries := Transition.sum_map_if ..
  have hle := rank_le s
  have hbounded : inflight s ≤ worker.concurrency := (Nat.le_add_right _ _).trans h.bounded
  have hchannel := h.channel_le
  omega

/-- One job is being handled when the shutdown comes. -/
def oneJob : List Event :=
  [.main .connected, .main (.pulled ⟨"job-1"⟩), .main (.spawned ⟨"job-1"⟩), .task 0 .resumed, .main .shutdown]

/-- The ack is asked for twice. -/
def ackedTwice : List Event :=
  [.task 0 (.handled (.ok ())), .task 0 .sent, .main (.joined 0), .main .drained, .ack .received, .ack .emptied,
    .ack (.started [⟨0, "job-1"⟩]), .ack (.answered (.error (.transport "reset"))), .ack .slept,
    .ack (.started [⟨0, "job-1"⟩]), .ack (.answered (.ok ())), .ack .closed, .main .flushed]

theorem drain_bounded_oneJob :
    ∃ s t, Execution ⟨1, 1, true⟩ oneJob s ∧ Transition.run (step ⟨1, 1, true⟩) s ackedTwice = some t ∧
      ackedTwice.countP Event.moves ≤
        9 + 7 * 1 + 4 * capacity ⟨1, 1, true⟩ + 3 * ackedTwice.countP Event.retries := by
  obtain ⟨s, hs, hleft, t, ht⟩ : ∃ s, Execution ⟨1, 1, true⟩ oneJob s ∧ s.main.looping = false ∧
      ∃ t, Transition.run (step ⟨1, 1, true⟩) s ackedTwice = some t := ⟨_, ⟨_, rfl, rfl⟩, rfl, _, rfl⟩
  exact ⟨s, t, hs, ht, drain_bounded hs hleft ht⟩

/-! ### That it can go on -/

/-- The handler of each task returns what `outcome` says, and nothing is cut short. -/
def Event.obeys (outcome : Nat → Except HandlerError Unit) : Event → Prop
  | .main .deadline | .task _ .cancelled | .task _ .panicked => False
  | .task i (.handled result) => result = outcome i
  | _ => True

/-- Past joining its tasks, `run` holds no sender. -/
def Unheld (s : State) : Prop := s.main.drained = true → s.ackTx = false

theorem unheld_step {e : Event} (hs : Unheld s) (h : step worker s e = some s') : Unheld s' := by
  cases e with
  | main e =>
    intro hdrained
    cases stepMain_cases h with
    | drained | deadline => rfl
    | joined => exact hs hdrained
    | flushed hmain | aborted hmain | dropped hmain | returned hmain => exact hs (hmain ▸ rfl)
    | streamEnded | streamFailed =>
      cases hreconnect : worker.reconnect <;> simp [hreconnect, Main.drained] at hdrained
    | _ => cases hdrained
  | task i e =>
    obtain ⟨_, _, _, _, _, rfl⟩ := stepTask_eq_some.mp h
    exact hs
  | ack e =>
    obtain ⟨hmain, -, -, -, htx⟩ := stepAck_frame h
    rwa [Unheld, hmain, htx]

/-- The worker drains, and the deadline has not passed. -/
structure Draining (worker : Worker) (s : State) : Prop where
  left : s.main.looping = false
  owned : Owned s
  drained : Drained s
  unheld : Unheld s
  capacity : 0 < capacity worker

theorem Draining.step {e : Event} (hs : Draining worker s) (he : e ≠ .main .deadline)
    (h : step worker s e = some s') : Draining worker s' :=
  ⟨left_step_main hs.left h, owned_step hs.owned h, drained_step hs.drained he h, unheld_step hs.unheld h,
    hs.capacity⟩

/-- An event that is not answered by a retry, and that is possible now or as soon as its task is resumed. -/
def Advances (worker : Worker) (outcome : Nat → Except HandlerError Unit) (s : State) : Prop :=
  ∃ es t, (∀ e ∈ es, e.obeys outcome) ∧ Transition.run (step worker) s es = some t ∧ Draining worker t ∧
    rank t < rank s

variable {outcome : Nat → Except HandlerError Unit}

theorem advances_of_step {e : Event} (hs : Draining worker s) (h : (step worker s e).isSome)
    (hobeys : e.obeys outcome) (hmoves : e.moves = true) (hretries : e.retries = false) :
    Advances worker outcome s := by
  obtain ⟨s', h⟩ := Option.isSome_iff_exists.mp h
  have hdeadline : e ≠ .main .deadline := by
    intro heq
    rw [heq] at hobeys
    exact hobeys
  have hrank := rank_step hs.left h
  rw [Event.cost, Event.gain, if_pos hmoves, if_neg (Bool.eq_false_iff.mp hretries)] at hrank
  refine ⟨[e], s', fun e' he' => List.mem_singleton.mp he' ▸ hobeys, ?_, hs.step hdeadline h, hrank⟩
  exact Transition.run_cons_eq_some.mpr ⟨s', h, rfl⟩

/-- The ack processor advances unless it waits for an id or for the senders to go. -/
theorem advances_ack (hs : Draining worker s) (hdone : s.ack ≠ .done)
    (hreceiving : s.ack = .receiving → s.channel ≠ [] ∨ sendersGone s = true) : Advances worker outcome s := by
  have hadvance (e : AckEvent) (h : (stepAck s e).isSome) (hretries : (Event.ack e).retries = false) :
      Advances worker outcome s :=
    advances_of_step hs (show (step worker s (.ack e)).isSome from h) trivial rfl hretries
  cases hack : s.ack with
  | receiving =>
    cases hchannel : s.channel with
    | nil =>
      have hgone := (hreceiving hack).resolve_left fun hne => hne hchannel
      exact hadvance .closed (by simp [stepAck, hack, hchannel, hgone]) rfl
    | cons a channel => exact hadvance .received (by simp [stepAck, hack, hchannel]) rfl
  | collecting batch =>
    cases hchannel : s.channel with
    | nil => exact hadvance .emptied (by simp [stepAck, hack, hchannel]) rfl
    | cons a channel => exact hadvance .collected (by simp [stepAck, hack, hchannel]) rfl
  | starting batch backoff => exact hadvance (.started batch) (by simp [stepAck, hack]) rfl
  | requesting batch backoff => exact hadvance (.answered (.ok ())) (by simp [stepAck, hack, verdict]) rfl
  | sleeping batch backoff => exact hadvance .slept (by simp [stepAck, hack]) rfl
  | done => exact absurd hack hdone

theorem advances_polled (hs : Draining worker s) {i : Nat} {task : Task} (hi : s.tasks[i]? = some task)
    (hlive : task.phase.live = true) (hpolled : task.polled = true) : Advances worker outcome s := by
  have hdone : s.ack ≠ .done := by
    intro hack
    have hdead := (hs.owned.done hack).2.2 task (List.mem_of_getElem? hi)
    rw [hlive] at hdead
    cases hdead
  have hadvance (e : TaskEvent) (h : (task.next e).isSome) (hpermitted : permitted worker s e = true)
      (hobeys : (Event.task i e).obeys outcome) (hmoves : (Event.task i e).moves = true)
      (hretries : (Event.task i e).retries = false) : Advances worker outcome s := by
    refine advances_of_step hs ?_ hobeys hmoves hretries
    obtain ⟨task', hnext⟩ := Option.isSome_iff_exists.mp h
    exact Option.isSome_iff_exists.mpr ⟨_, stepTask_eq_some.mpr ⟨task, task', hi, hpermitted, hnext, rfl⟩⟩
  cases hphase : task.phase with
  | handling =>
    refine hadvance (.handled (outcome i)) ?_ rfl rfl rfl rfl
    cases outcome i <;> simp [Task.next, hpolled, hphase, Phase.next]
  | sending =>
    by_cases hroom : s.channel.length < capacity worker
    · exact hadvance .sent (by simp [Task.next, hpolled, hphase, Phase.next]) (permitted_sent.mpr ⟨hroom, hdone⟩)
        trivial rfl rfl
    · -- the channel is full, so the ack processor has something to receive
      refine advances_ack hs hdone fun _ => .inl fun hnil => hroom ?_
      rw [hnil]
      exact hs.capacity
  | reporting err backoff =>
    exact hadvance (.reportStarted (task.job.id, failureRequest err))
      (by simp [Task.next, hpolled, hphase, Phase.next]) rfl trivial rfl rfl
  | awaiting err backoff =>
    exact hadvance (.reportAnswered (.ok task.job)) (by simp [Task.next, hpolled, hphase, Phase.next, verdict])
      rfl trivial rfl rfl
  | sleeping err backoff =>
    exact hadvance .slept (by simp [Task.next, hpolled, hphase, Phase.next]) rfl trivial rfl rfl
  | finished | joined => cases hphase ▸ hlive

theorem advances_live (hs : Draining worker s) {i : Nat} {task : Task} (hi : s.tasks[i]? = some task)
    (hlive : task.phase.live = true) : Advances worker outcome s := by
  by_cases hpolled : task.polled = true
  · exact advances_polled hs hi hlive hpolled
  · let task' : Task := { task with polled := true }
    have hresumed : step worker s (.task i .resumed) =
        some { s with tasks := s.tasks.set i task', channel := s.channel ++ [] } := by
      refine stepTask_eq_some.mpr ⟨task, task', hi, ?_, if_pos ⟨hlive, hpolled⟩, rfl⟩
      simp [permitted, hs.drained.unaborted]
    have hrank := rank_step hs.left hresumed
    have hlt : i < s.tasks.length := (List.getElem?_eq_some_iff.mp hi).1
    have hs' : Draining worker _ := hs.step (fun h => by cases h) hresumed
    obtain ⟨es, t, hobeys, hrun, ht, hless⟩ : Advances worker outcome _ :=
      advances_polled hs' (List.getElem?_set_self hlt) hlive rfl
    refine ⟨.task i .resumed :: es, t, List.forall_mem_cons.mpr ⟨trivial, hobeys⟩, ?_, ht, ?_⟩
    · exact Transition.run_cons_eq_some.mpr ⟨_, hresumed, hrun⟩
    · exact hless.trans_le hrank

/-- Every part of the drain can go on. -/
theorem advances (hs : Draining worker s) (hreturned : ¬ ∃ result, s.main = .returned result) :
    Advances worker outcome s := by
  have hleft := hs.left
  have hadvance (e : MainEvent) (h : (stepMain worker s e).isSome) (hobeys : (Event.main e).obeys outcome) :
      Advances worker outcome s :=
    advances_of_step hs (show (step worker s (.main e)).isSome from h) hobeys rfl rfl
  cases hmain : s.main with
  | connecting | dispatching | holding | sleeping => cases hmain ▸ hleft
  | joining result =>
    by_cases hzero : inflight s = 0
    · exact hadvance .drained (by simp [stepMain, hmain, hzero]) trivial
    · obtain ⟨task, hmem, hphase⟩ := List.countP_pos_iff.mp (Nat.pos_of_ne_zero hzero)
      obtain ⟨i, hi⟩ := List.mem_iff_getElem?.mp hmem
      by_cases hlive : task.phase.live = true
      · exact advances_live hs hi hlive
      · have hfinished : task.phase = .finished := by
          cases hphase' : task.phase <;> simp_all [Phase.live]
        obtain ⟨job, phase, polled⟩ := task
        subst hfinished
        exact hadvance (.joined i) (by simp [stepMain, hmain, join, hi]) trivial
  | flushing result =>
    by_cases hdone : s.ack = .done
    · exact hadvance .flushed (by simp [stepMain, hmain, hdone]) trivial
    · have hdrained : s.main.drained = true := hmain ▸ rfl
      refine advances_ack hs hdone fun _ => .inr (sendersGone_iff.mpr ⟨hs.unheld hdrained, fun task hmem => ?_⟩)
      rw [hs.drained.joined hdrained task hmem]
      rfl
  | aborting result => exact absurd hmain (hs.drained.waiting result)
  | closing result => exact hadvance .dropped (by simp [stepMain, hmain]) trivial
  | returning result => exact hadvance .returned (by simp [stepMain, hmain]) trivial
  | returned result => exact absurd ⟨result, hmain⟩ hreturned

theorem result_step {result : Except ZizqError Unit} {e : Event} (hs : s.main.result = some result)
    (h : step worker s e = some s') : s'.main.result = some result := by
  cases e with
  | main e => exact (stepMain_result h hs).1
  | task i e =>
    obtain ⟨_, _, _, _, _, rfl⟩ := stepTask_eq_some.mp h
    exact hs
  | ack e => rwa [(stepAck_frame h).1]

theorem Execution.draining (h : Execution worker es s) (hdeadline : .main .deadline ∉ es)
    (hleft : s.main.looping = false) : Draining worker s := by
  have hrule : ∀ e ∈ es, e ≠ .main .deadline := fun e he heq => hdeadline (heq ▸ he)
  have hdrained : Drained s := h.always (I := fun _ => Drained) hrule drained_initial
    fun _ _ _ _ he hs h => drained_step hs he h
  have hunheld : Unheld s := Transition.run_invariant (fun _ _ _ hs h => unheld_step hs h) h.run nofun
  have howned := h.owned
  obtain ⟨_, hstart, -⟩ := h
  exact ⟨hleft, howned, hdrained, hunheld, (start_eq_some hstart).2⟩

/-- **Main theorem.** From every state of every run without the deadline in which the dispatch loop is left, whatever
the handlers that still run return, the worker can go on to return its result without the deadline, and has then
joined every task and acknowledged all that was on the channel. -/
theorem drain_completes (outcome : Nat → Except HandlerError Unit) (h : Execution worker es s)
    (hdeadline : .main .deadline ∉ es) {result : Except ZizqError Unit} (hresult : s.main.result = some result) :
    ∃ later t, (∀ e ∈ later, e.obeys outcome) ∧ Transition.run (step worker) s later = some t ∧
      t.main = .returned result ∧ inflight t = 0 ∧ t.channel = [] ∧ t.ack = .done := by
  have hleft : s.main.looping = false := by cases hmain : s.main <;> simp_all [Main.looping, Main.result]
  obtain ⟨later, t, hobeys, hrun, ht, result', hreturned⟩ := Transition.run_reaches
    (fun s (hs : Draining worker s) hgoal => (advances hs hgoal : Advances worker outcome s))
    (h.draining hdeadline hleft)
  have hkept := Transition.run_invariant (fun _ _ _ hs h => result_step hs h) hrun hresult
  have hended : t.main.ended = true := hreturned ▸ rfl
  have hdone := ht.drained.flushed hended
  refine ⟨later, t, hobeys, hrun, ?_, ?_, (ht.owned.done hdone).2.1, hdone⟩
  · rw [hreturned, Main.result, Option.some.injEq] at hkept
    rw [hreturned, hkept]
  · refine List.countP_eq_zero.mpr fun task hmem => ?_
    simpa using ht.drained.joined (hreturned ▸ rfl) task hmem

theorem drain_completes_oneJob :
    ∃ s, Execution ⟨1, 1, true⟩ oneJob s ∧
      ∃ later t, (∀ e ∈ later, e.obeys fun _ => .error ⟨"failed", "Error"⟩) ∧
        Transition.run (step ⟨1, 1, true⟩) s later = some t ∧ t.main = .returned (.ok ()) ∧ inflight t = 0 ∧
        t.channel = [] ∧ t.ack = .done := by
  obtain ⟨s, hs, hresult⟩ : ∃ s, Execution ⟨1, 1, true⟩ oneJob s ∧ s.main.result = some (.ok ()) :=
    ⟨_, ⟨_, rfl, rfl⟩, rfl⟩
  exact ⟨s, hs, drain_completes _ hs (by simp [oneJob]) hresult⟩

end Zizq.Worker
