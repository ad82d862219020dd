import Zizq.Worker.Machine

/-! How many tasks the worker holds.

`dispatch_session` pulls a job only below the concurrency limit, and a slot is freed
only by joining its task. The inflight set outlives every session, and so does the
bound on it: with the job that is off the stream and not yet spawned it never holds
more than `concurrency` (`Bounded`). -/
namespace Zizq.Worker
open Client Data

variable {worker : Worker} {s s' : State} {es : List Event}

/-- The tasks held, with the job in hand, are within the limit. -/
def Bounded (worker : Worker) (s : State) : Prop := inflight s + s.main.inHand.length ≤ worker.concurrency

/-- The handler invocations that have not come to their end. -/
def alive (s : State) : Nat := s.tasks.countP fun task => task.phase.live

/-! ### The inflight set -/

theorem inflight_set {i : Nat} {task : Task} (task' : Task) (hi : s.tasks[i]? = some task) :
    (s.tasks.set i task').countP (fun task => task.phase ≠ .joined) +
        (if task.phase ≠ .joined then 1 else 0) =
      inflight s + if task'.phase ≠ .joined then 1 else 0 := by
  obtain ⟨hlt, rfl⟩ := List.getElem?_eq_some_iff.mp hi
  have hmem : s.tasks[i].phase ≠ .joined → 0 < inflight s := fun hphase =>
    List.countP_pos_iff.mpr ⟨_, List.getElem_mem hlt, by simpa using hphase⟩
  rw [List.countP_set hlt]
  show inflight s - _ + _ + _ = _
  by_cases hphase : s.tasks[i].phase = .joined
  · simp [hphase]
  · have hpos := hmem hphase
    simp only [hphase, ne_eq, not_false_eq_true, decide_true, if_true]
    simp only [decide_eq_true_eq]
    omega

/-- No event of a task joins it. -/
theorem Task.joined_of_next {task task' : Task} {e : TaskEvent} (h : task.next e = some task') :
    task'.phase = .joined ↔ task.phase = .joined := by
  rcases (Task.next_cases h).2 with ⟨-, heq⟩ | ⟨-, hlive, heq⟩ | ⟨-, hphase⟩
  · rw [heq]
  · refine iff_of_false (by rw [heq]; exact nofun) fun hjoined => ?_
    rw [hjoined] at hlive
    cases hlive
  · have hlive := Phase.live_of_next hphase
    refine iff_of_false ?_ fun hjoined => ?_
    · unfold Phase.next at hphase
      intro hjoined
      rw [hjoined] at hphase
      repeat' split at hphase
      all_goals cases hphase
    · rw [hjoined] at hlive
      cases hlive

theorem inflight_join {i : Nat} {task : Task} (hi : s.tasks[i]? = some task) (hphase : task.phase = .finished) :
    inflight { s with tasks := s.tasks.set i { task with phase := .joined } } ≤ inflight s := by
  have := inflight_set { task with phase := .joined } hi
  simp only [hphase, ne_eq, reduceCtorEq, not_false_eq_true, if_true, not_true_eq_false, if_false] at this
  exact Nat.le_of_succ_le this.le

/-! ### The bound -/

theorem bounded_initial (worker : Worker) : Bounded worker initial := Nat.zero_le _

theorem bounded_stepMain {e : MainEvent} (hs : Bounded worker s) (h : stepMain worker s e = some s') :
    Bounded worker s' := by
  have hempty {main : Main} (hmain : main.inHand = []) : Bounded worker { s with main := main } := by
    rw [Bounded, hmain]
    exact (Nat.le_add_right _ _).trans hs
  cases stepMain_cases h with
  | joined _ hi hphase => exact (Nat.add_le_add_right (inflight_join hi hphase) _).trans hs
  | pulled _ hslot => exact hslot
  | @spawned job hmain =>
    -- the new task is the one that was in hand
    have hspawned : inflight { s with tasks := s.tasks ++ [⟨job, .handling, false⟩] } = inflight s + 1 :=
      List.countP_append
    rw [Bounded, hmain] at hs
    exact hspawned.le.trans hs
  | streamEnded | streamFailed =>
    apply hempty
    split <;> rfl
  | _ => exact hempty rfl

theorem bounded_step {e : Event} (hs : Bounded worker s) (h : step worker s e = some s') :
    Bounded worker s' := by
  cases e with
  | main e => exact bounded_stepMain hs h
  | task i e =>
    obtain ⟨task, task', hi, -, hnext, rfl⟩ := stepTask_eq_some.mp h
    have hset := inflight_set task' hi
    have hjoined := Task.joined_of_next hnext
    have hsame : (s.tasks.set i task').countP (fun task => task.phase ≠ .joined) = inflight s := by
      by_cases hphase : task.phase = .joined <;> simp_all
    exact (Nat.add_le_add_right hsame.le _).trans hs
  | ack e =>
    obtain ⟨hmain, -, -, htasks, -⟩ := stepAck_frame h
    rw [Bounded, inflight, htasks, hmain]
    exact hs

theorem Execution.bounded (h : Execution worker es s) : Bounded worker s :=
  Transition.run_invariant (fun _ _ _ hs h => bounded_step hs h) h.run (bounded_initial worker)

theorem alive_le_inflight (s : State) : alive s ≤ inflight s := by
  refine List.countP_mono_left fun task _ hlive => ?_
  have : task.phase ≠ .joined := fun hjoined => by simp [hjoined, Phase.live] at hlive
  simpa using this

theorem inflight_of_pulled {job : Job} (h : step worker s (.main (.pulled job)) = some s') :
    inflight s < worker.concurrency := by
  cases stepMain_cases h with
  | pulled _ hslot => exact hslot

/-- **Main theorem.** In every state of every run the worker holds at most `concurrency` tasks, so that
at most as many handlers are alive, and each job was pulled while it held fewer. -/
theorem inflight_le_concurrency (h : Execution worker es s) :
    inflight s ≤ worker.concurrency ∧ alive s ≤ worker.concurrency ∧
      ∀ before after job p, es = before ++ .main (.pulled job) :: after → Execution worker before p →
        inflight p < worker.concurrency := by
  have hle : inflight s ≤ worker.concurrency := (Nat.le_add_right _ _).trans h.bounded
  refine ⟨hle, (alive_le_inflight s).trans hle, ?_⟩
  rintro before after job p rfl hp
  obtain ⟨q, hpulled, -⟩ := h.split hp
  exact inflight_of_pulled hpulled

/-- One slot: the second session pulls a job after the task of the first has been joined. -/
def twoSessions : List Event :=
  [.main .connected, .main (.pulled ⟨"job-1"⟩), .main (.spawned ⟨"job-1"⟩), .task 0 .resumed,
    .task 0 (.handled (.ok ())), .task 0 .sent, .main (.joined 0), .main .streamEnded, .main .slept,
    .main .connected, .main (.pulled ⟨"job-2"⟩)]

theorem inflight_le_concurrency_twoSessions :
    let worker : Worker := ⟨1, 1, true⟩
    ∃ s, Execution worker twoSessions s ∧ inflight s ≤ worker.concurrency ∧ alive s ≤ worker.concurrency ∧
      ∀ before after job p, twoSessions = before ++ .main (.pulled job) :: after →
        Execution worker before p → inflight p < worker.concurrency := by
  intro worker
  have h : ∃ s, Execution worker twoSessions s := ⟨_, _, rfl, rfl⟩
  obtain ⟨s, hs⟩ := h
  exact ⟨s, hs, inflight_le_concurrency hs⟩

end Zizq.Worker
