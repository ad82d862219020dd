import Zizq.Worker.Ownership

/-! After the shutdown deadline.

The deadline drops the drain, and with it the handle of the ack processor: the
processor is detached, not cancelled, and goes on with what it holds. Whatever is on
the channel or in a batch by then, and whatever a handler still sends before it is
aborted, goes out after `run` has returned. `noAckAfterReturn_iff` says that nothing
else does. -/
namespace Zizq.Worker
open Client Data

variable {worker : Worker} {s s' : State} {es : List Event}

/-- No bulk-ack request is started after `run` has returned. -/
def NoAckAfterReturn (es : List Event) : Prop :=
  ∀ before after batch, es = before ++ .main .returned :: after → .ack (.started batch) ∉ after

/-- Nothing is on the channel, the ack processor waits for an id or is gone, and no task is in its handler
or about to send. -/
structure Idle (s : State) : Prop where
  channel : s.channel = []
  ack : s.ack = .receiving ∨ s.ack = .done
  tasks : ∀ task ∈ s.tasks, task.phase ≠ .handling ∧ task.phase ≠ .sending

/-! ### Idle at the deadline -/

theorem stepMain_ended {e : MainEvent} (h : stepMain worker s e = some s')
    (hended : s.main.ended = true) : s'.main.ended = true ∧ s'.tasks = s.tasks := by
  cases stepMain_cases h with
  | aborted | dropped | returned => exact ⟨rfl, rfl⟩
  | shutdown hmain | deadline hmain => rcases hmain with hmain | hmain <;> cases hmain ▸ hended
  | joined hmain => rcases hmain with ⟨hmain, -⟩ | ⟨result, hmain⟩ <;> cases hmain ▸ hended
  | _ hmain => cases hmain ▸ hended

/-- A task that does not send is not led to sending. -/
theorem Phase.next_silent {job : Job} {phase phase' : Phase} {e : TaskEvent}
    (h : phase.next job e = some phase') (hphase : phase ≠ .handling ∧ phase ≠ .sending) :
    (phase' ≠ .handling ∧ phase' ≠ .sending) ∧ e ≠ .sent := by
  unfold Phase.next at h
  repeat' split at h
  all_goals cases h <;> simp_all

/-- Idle past the deadline: the system stays so, and sends no bulk ack. -/
structure Quiet (s : State) : Prop extends Idle s where
  ended : s.main.ended = true

theorem quiet_stepTask {i : Nat} {e : TaskEvent} (hs : Quiet s)
    (h : stepTask worker s i e = some s') : Quiet s' := by
  obtain ⟨task, task', hi, -, hnext, rfl⟩ := stepTask_eq_some.mp h
  have hphase := hs.tasks task (List.mem_of_getElem? hi)
  have htask' : (task'.phase ≠ .handling ∧ task'.phase ≠ .sending) ∧ outbox i task e = [] := by
    rcases (Task.next_cases hnext).2 with ⟨rfl | rfl, heq⟩ | ⟨rfl, -, heq⟩ | ⟨-, hstep⟩
    · exact ⟨heq ▸ hphase, rfl⟩
    · exact ⟨heq ▸ hphase, rfl⟩
    · refine ⟨?_, rfl⟩
      rw [heq]
      simp
    · obtain ⟨hsilent, hsent⟩ := Phase.next_silent hstep hphase
      refine ⟨hsilent, ?_⟩
      cases e with
      | sent => exact absurd rfl hsent
      | _ => rfl
  refine ⟨⟨?_, hs.ack, fun t ht => ?_⟩, hs.ended⟩
  · show s.channel ++ outbox i task e = []
    rw [hs.channel, htask'.2, List.append_nil]
  · rcases List.mem_or_eq_of_mem_set ht with ht | rfl
    · exact hs.tasks t ht
    · exact htask'.1

theorem quiet_stepAck {e : AckEvent} (hs : Quiet s) (h : stepAck s e = some s') :
    Quiet s' ∧ ∀ batch, e ≠ .started batch := by
  have hidle {phase : AckPhase} (hack : s.ack = phase) : phase = .receiving ∨ phase = .done := hack ▸ hs.ack
  cases stepAck_cases h with
  | received _ hchannel => cases hs.channel.symm.trans hchannel
  | closed => exact ⟨⟨⟨hs.channel, .inr rfl, hs.tasks⟩, hs.ended⟩, nofun⟩
  | collected hack | emptied hack | started hack | settled hack | failed hack | slept hack =>
    rcases hidle hack with heq | heq <;> cases heq

theorem quiet_step {e : Event} (hs : Quiet s) (h : step worker s e = some s') :
    Quiet s' ∧ ∀ batch, e ≠ .ack (.started batch) := by
  cases e with
  | main e =>
    obtain ⟨hended, htasks⟩ := stepMain_ended h hs.ended
    obtain ⟨hchannel, hack, -⟩ := stepMain_shared h
    exact ⟨⟨⟨hchannel ▸ hs.channel, hack ▸ hs.ack, htasks ▸ hs.tasks⟩, hended⟩, nofun⟩
  | task i e => exact ⟨quiet_stepTask hs h, nofun⟩
  | ack e =>
    obtain ⟨hquiet, hnot⟩ := quiet_stepAck hs h
    exact ⟨hquiet, fun batch heq => hnot batch (Event.ack.inj heq)⟩

theorem quiet_run (hs : Quiet s) (h : Transition.run (step worker) s es = some s') (batch : List Ack) :
    .ack (.started batch) ∉ es := by
  refine Transition.run_never h hs (fun _ _ _ hs h => (quiet_step hs h).1) fun s hs => ?_
  rw [Option.eq_none_iff_forall_ne_some]
  exact fun s' hstep => (quiet_step hs hstep).2 batch rfl

/-! ### Not idle at the deadline -/

/-- Some continuation starts a bulk-ack request. -/
def CanStart (worker : Worker) (s : State) : Prop :=
  ∃ es t batch, Transition.run (step worker) s es = some t ∧ Event.ack (.started batch) ∈ es

theorem canStart_step {e : Event} (h : step worker s e = some s') (hs' : CanStart worker s') :
    CanStart worker s := by
  obtain ⟨es, t, batch, hrun, hmem⟩ := hs'
  exact ⟨e :: es, t, batch, Transition.run_cons_eq_some.mpr ⟨s', h, hrun⟩, List.mem_cons_of_mem _ hmem⟩

theorem canStart_starting {batch : List Ack} {backoff : Nat} (h : s.ack = .starting batch backoff) :
    CanStart worker s := by
  have hstep : step worker s (.ack (.started batch)) = some { s with ack := .requesting batch backoff } := by
    simp [step, stepAck, h]
  exact ⟨[.ack (.started batch)], _, batch, Transition.run_cons_eq_some.mpr ⟨_, hstep, rfl⟩,
    List.mem_singleton_self _⟩

theorem canStart_sleeping {batch : List Ack} {backoff : Nat} (h : s.ack = .sleeping batch backoff) :
    CanStart worker s := by
  have hstep : step worker s (.ack .slept) = some { s with ack := .starting batch (nextBackoff backoff) } := by
    simp [step, stepAck, h]
  exact canStart_step hstep (canStart_starting rfl)

/-- An answer that is to be retried keeps the batch in hand. -/
theorem canStart_requesting {batch : List Ack} {backoff : Nat} (h : s.ack = .requesting batch backoff) :
    CanStart worker s := by
  let outcome : Except ZizqError Unit := .error (.response 503 "")
  have hstep : step worker s (.ack (.answered outcome)) =
      some { s with ack := .sleeping batch backoff } := by
    have hretry : verdict outcome = .retry := rfl
    simp [step, stepAck, h, hretry]
  exact canStart_step hstep (canStart_sleeping rfl)

theorem canStart_collecting {batch channel : List Ack} (h : s.ack = .collecting batch)
    (hchannel : s.channel = channel) : CanStart worker s := by
  induction channel generalizing s batch with
  | nil =>
    have hstep : step worker s (.ack .emptied) = some { s with ack := .starting batch initialBackoff } := by
      simp [step, stepAck, h, hchannel]
    exact canStart_step hstep (canStart_starting rfl)
  | cons a channel ih =>
    have hstep : step worker s (.ack .collected) =
        some { s with ack := .collecting (batch ++ [a]), channel := channel } := by
      simp [step, stepAck, h, hchannel]
    exact canStart_step hstep (ih rfl rfl)

theorem canStart_channel {a : Ack} {channel : List Ack} (h : s.ack = .receiving)
    (hchannel : s.channel = a :: channel) : CanStart worker s := by
  have hstep : step worker s (.ack .received) =
      some { s with ack := .collecting [a], channel := channel } := by
    simp [step, stepAck, h, hchannel]
  exact canStart_step hstep (canStart_collecting rfl rfl)

theorem canStart_sending {i : Nat} {task : Task} (hcapacity : 0 < capacity worker)
    (h : s.ack = .receiving) (hchannel : s.channel = []) (hi : s.tasks[i]? = some task)
    (hpolled : task.polled = true) (hphase : task.phase = .sending) : CanStart worker s := by
  have hstep := stepTask_eq_some.mpr ⟨task, { task with phase := .finished, polled := false }, hi,
    permitted_sent.mpr ⟨by rw [hchannel]; exact hcapacity, by rw [h]; exact nofun⟩,
    by simp [Task.next, hpolled, hphase, Phase.next, Phase.live], rfl⟩
  exact canStart_step (e := .task i .sent) hstep (canStart_channel h (by rw [hchannel]; rfl))

theorem canStart_handling {i : Nat} {task : Task} (hcapacity : 0 < capacity worker)
    (h : s.ack = .receiving) (hchannel : s.channel = []) (hi : s.tasks[i]? = some task)
    (hpolled : task.polled = true) (hphase : task.phase = .handling) : CanStart worker s := by
  have hstep := stepTask_eq_some.mpr ⟨task, { task with phase := .sending }, hi,
    (rfl : permitted worker s (.handled (.ok ())) = true),
    by simp [Task.next, hpolled, hphase, Phase.next, Phase.live], rfl⟩
  have hlt := (List.getElem?_eq_some_iff.mp hi).1
  exact canStart_step (e := .task i (.handled (.ok ()))) hstep
    (canStart_sending hcapacity h (by rw [hchannel]; rfl) (List.getElem?_set_self hlt) hpolled rfl)

/-- Something is on its way to the server that no abort stops. -/
inductive Busy (s : State) : Prop where
  | channel (h : s.channel ≠ [])
  | ack (h : s.ack ≠ .receiving)
  | polled {i : Nat} {task : Task} (hi : s.tasks[i]? = some task) (hpolled : task.polled = true)
    (hphase : task.phase = .handling ∨ task.phase = .sending)

theorem canStart_of_busy (hcapacity : 0 < capacity worker) (hdone : s.ack ≠ .done) (hbusy : Busy s) :
    CanStart worker s := by
  cases hack : s.ack with
  | receiving =>
    cases hchannel : s.channel with
    | cons a channel => exact canStart_channel hack hchannel
    | nil =>
      cases hbusy with
      | channel hne => exact absurd hchannel hne
      | ack hne => exact absurd hack hne
      | polled hi hpolled hphase =>
        rcases hphase with hphase | hphase
        · exact canStart_handling hcapacity hack hchannel hi hpolled hphase
        · exact canStart_sending hcapacity hack hchannel hi hpolled hphase
  | collecting batch => exact canStart_collecting hack rfl
  | starting batch backoff => exact canStart_starting hack
  | requesting batch backoff => exact canStart_requesting hack
  | sleeping batch backoff => exact canStart_sleeping hack
  | done => exact absurd hack hdone

/-- A task that waits in its handler, or to send, may be polled once more before it is aborted. -/
theorem busy_of_not_idle (worker : Worker) {result : Except ZizqError Unit} (hmain : s.main = .aborting result)
    (haborted : s.aborted = false) (hidle : ¬ Idle s) :
    ∃ es t, Transition.run (step worker) s es = some t ∧ t.main = .aborting result ∧ t.ack = s.ack ∧ Busy t := by
  by_cases hchannel : s.channel = []
  · by_cases hack : s.ack = .receiving
    · obtain ⟨task, hmem, hphase⟩ : ∃ task ∈ s.tasks, task.phase = .handling ∨ task.phase = .sending := by
        by_contra hnone
        refine hidle ⟨hchannel, .inl hack, fun task hmem => ?_⟩
        exact ⟨fun hphase => hnone ⟨task, hmem, .inl hphase⟩, fun hphase => hnone ⟨task, hmem, .inr hphase⟩⟩
      obtain ⟨i, hi⟩ := List.mem_iff_getElem?.mp hmem
      by_cases hpolled : task.polled = true
      · exact ⟨[], s, rfl, hmain, rfl, .polled hi hpolled hphase⟩
      · have hlive : task.phase.live = true := by rcases hphase with hphase | hphase <;> rw [hphase] <;> rfl
        have hlt := (List.getElem?_eq_some_iff.mp hi).1
        have hresumed := stepTask_eq_some.mpr ⟨task, { task with polled := true }, hi,
          (show permitted worker s .resumed = true by simp [permitted, haborted]), if_pos ⟨hlive, hpolled⟩, rfl⟩
        exact ⟨[.task i .resumed], _, Transition.run_cons_eq_some.mpr ⟨_, hresumed, rfl⟩, hmain, rfl,
          .polled (List.getElem?_set_self hlt) rfl hphase⟩
    · exact ⟨[], s, rfl, hmain, rfl, .ack hack⟩
  · exact ⟨[], s, rfl, hmain, rfl, .channel hchannel⟩

/-! ### The main result -/

theorem step_deadline (h : step worker s (.main .deadline) = some s') :
    s.main.ended = false ∧ ∃ result, s' = { s with main := .aborting result, ackTx := false } := by
  cases stepMain_cases h with
  | deadline hmain =>
    refine ⟨?_, _, rfl⟩
    rcases hmain with hmain | hmain <;> rw [hmain] <;> rfl

/-- Tasks are aborted past the deadline only. -/
theorem Execution.unaborted (h : Execution worker es s) (hended : s.main.ended = false) : s.aborted = false := by
  have hpast : s.aborted = true → s.main.ended = true := by
    refine Transition.run_invariant (I := fun s => s.aborted = true → s.main.ended = true)
      (fun s e s' hs h haborted => ?_) h.run nofun
    cases e with
    | main e =>
      have hkept : s'.aborted = s.aborted ∨ s'.main.ended = true := by
        cases stepMain_cases h with
        | aborted => exact .inr rfl
        | _ => exact .inl rfl
      rcases hkept with heq | hended
      · exact (stepMain_ended h (hs (heq ▸ haborted))).1
      · exact hended
    | task i e =>
      obtain ⟨_, _, _, _, _, rfl⟩ := stepTask_eq_some.mp h
      exact hs haborted
    | ack e =>
      obtain ⟨hmain, -, heq, -⟩ := stepAck_frame h
      exact hmain ▸ hs (heq ▸ haborted)
  rw [Bool.eq_false_iff] at hended ⊢
  exact fun haborted => hended (hpast haborted)

theorem Execution.capacity_pos (h : Execution worker es s) : 0 < capacity worker := by
  obtain ⟨s₀, hstart, -⟩ := h
  exact (start_eq_some hstart).2

theorem stepMain_returned {e : MainEvent} (h : stepMain worker s e = some s') :
    (∀ result, s.main ≠ .returned result) ∧ (e = .returned → ∃ result, s'.main = .returned result) := by
  constructor
  · intro result hreturned
    cases stepMain_cases h with
    | shutdown hmain | deadline hmain => rcases hmain with hmain | hmain <;> cases hmain.symm.trans hreturned
    | joined hmain => rcases hmain with ⟨hmain, -⟩ | ⟨_, hmain⟩ <;> cases hmain.symm.trans hreturned
    | _ hmain => cases hmain.symm.trans hreturned
  · intro heq
    subst heq
    cases stepMain_cases h
    exact ⟨_, rfl⟩

theorem Execution.main_of_returned (h : Execution worker es s) (hmem : .main .returned ∈ es) :
    ∃ result, s.main = .returned result := by
  revert hmem
  refine h.always (I := fun es s => .main .returned ∈ es → ∃ result, s.main = .returned result)
    (fun _ _ => trivial) (fun hmem => absurd hmem List.not_mem_nil) fun h s e s' _ hs hstep hmem => ?_
  cases e with
  | main e =>
    obtain ⟨hnot, hreturned⟩ := stepMain_returned hstep
    rcases List.mem_append.mp hmem with hmem | hmem
    · obtain ⟨result, hmain⟩ := hs hmem
      exact absurd hmain (hnot result)
    · exact hreturned (Event.main.inj (List.mem_singleton.mp hmem)).symm
  | task i e =>
    obtain ⟨task, task', -, -, -, rfl⟩ := stepTask_eq_some.mp hstep
    exact hs ((List.mem_append.mp hmem).resolve_right (by simp))
  | ack e =>
    rw [(stepAck_frame hstep).1]
    exact hs ((List.mem_append.mp hmem).resolve_right (by simp))

/-- What comes after the return in a run past the deadline comes after the deadline. -/
theorem after_deadline {later before after : List Event} (hreturned : .main .returned ∉ es)
    (h : es ++ .main .deadline :: later = before ++ .main .returned :: after) :
    ∃ between, later = between ++ .main .returned :: after := by
  rcases List.append_eq_append_iff.mp h with ⟨between, rfl, heq⟩ | ⟨between, rfl, heq⟩
  · cases between with
    | nil => cases heq
    | cons e between =>
      obtain ⟨-, rfl⟩ := List.cons.inj heq
      exact ⟨between, rfl⟩
  · cases between with
    | nil => cases heq
    | cons e between =>
      obtain ⟨rfl, -⟩ := List.cons.inj heq
      exact absurd (List.mem_append_right _ (List.mem_cons_self ..)) hreturned

/-- From a deadline that finds the worker busy, some run returns and then starts a bulk ack. -/
theorem exists_late (h : Execution worker es s) (hdeadline : step worker s (.main .deadline) = some s')
    (hidle : ¬ Idle s) : ∃ later t, Execution worker (es ++ .main .deadline :: later) t ∧
      ¬ NoAckAfterReturn (es ++ .main .deadline :: later) := by
  obtain ⟨hended, result, rfl⟩ := step_deadline hdeadline
  have hdone : s.ack ≠ .done := by
    intro hdone
    obtain ⟨-, hempty, hdead⟩ := h.owned.done hdone
    refine hidle ⟨hempty, .inr hdone, fun task hmem => ?_⟩
    have := hdead task hmem
    constructor <;> intro hphase <;> rw [hphase] at this <;> cases this
  let aborting : State := { s with main := .aborting result, ackTx := false }
  have haborting : aborting.main = .aborting result := rfl
  obtain ⟨between, q, hbetween, hmain, hack, hbusy⟩ := busy_of_not_idle worker haborting (h.unaborted hended)
    fun hidle' => hidle ⟨hidle'.channel, hidle'.ack, hidle'.tasks⟩
  let returned : State := { q with main := .returned result, stream := false, aborted := true }
  have hreturn :
      Transition.run (step worker) q [.main .aborted, .main .dropped, .main .returned] = some returned := by
    simp [Transition.run, step, stepMain, hmain, returned]
  have hbusy' : Busy returned := by
    cases hbusy with
    | channel hne => exact .channel hne
    | ack hne => exact .ack hne
    | polled hi hpolled hphase => exact .polled hi hpolled hphase
  obtain ⟨after, t, batch, hrun, hmem⟩ : CanStart worker returned :=
    canStart_of_busy h.capacity_pos (fun hack' => hdone (hack ▸ hack')) hbusy'
  have hlater := h.append hdeadline (Transition.run_append_eq_some.mpr
    ⟨q, hbetween, Transition.run_append_eq_some.mpr ⟨returned, hreturn, hrun⟩⟩)
  refine ⟨_, t, hlater, fun hnone => ?_⟩
  refine hnone (es ++ .main .deadline :: between ++ [.main .aborted, .main .dropped]) after batch ?_ hmem
  simp only [List.append_assoc, List.cons_append, List.nil_append]

/-- **Main theorem.** In every run past the deadline no bulk ack is started after `run` has returned,
exactly when the worker is idle as the deadline fires. -/
theorem noAckAfterReturn_iff (h : Execution worker es s)
    (hdeadline : step worker s (.main .deadline) = some s') :
    (∀ later t, Execution worker (es ++ .main .deadline :: later) t →
      NoAckAfterReturn (es ++ .main .deadline :: later)) ↔ Idle s := by
  constructor
  · intro hnone
    by_contra hidle
    obtain ⟨later, t, hlater, hack⟩ := exists_late h hdeadline hidle
    exact hack (hnone later t hlater)
  · rintro hidle later t hlater before after batch heq hmem
    have hnot : .main .returned ∉ es := by
      intro hreturned
      obtain ⟨result, hmain⟩ := h.main_of_returned hreturned
      exact (stepMain_returned hdeadline).1 result hmain
    obtain ⟨between, rfl⟩ := after_deadline hnot heq
    obtain ⟨q, hq, hrest⟩ := hlater.split h
    obtain ⟨-, result, rfl⟩ := step_deadline hq
    have hquiet : Quiet { s with main := .aborting result, ackTx := false } :=
      ⟨⟨hidle.channel, hidle.ack, hidle.tasks⟩, rfl⟩
    exact quiet_run hquiet hrest batch (List.mem_append_right _ (List.mem_cons_of_mem _ hmem))

/-- One job, acked, whose bulk ack is answered with a `503` as the worker is shut down. -/
def lateRun : List Event :=
  [.main .connected, .main (.pulled ⟨"job-1"⟩), .main (.spawned ⟨"job-1"⟩), .task 0 .resumed,
    .task 0 (.handled (.ok ())), .task 0 .sent, .ack .received, .ack .emptied,
    .ack (.started [⟨0, "job-1"⟩]), .ack (.answered (.error (.response 503 ""))), .main .shutdown,
    .main (.joined 0), .main .drained]

/-- The worker is not idle at the end of that run, so that the deadline may be followed by a bulk ack. -/
theorem noAckAfterReturn_iff_lateRun : ∃ s s', Execution ⟨1, 1, true⟩ lateRun s ∧
    step ⟨1, 1, true⟩ s (.main .deadline) = some s' ∧
    ((∀ later t, Execution ⟨1, 1, true⟩ (lateRun ++ .main .deadline :: later) t →
      NoAckAfterReturn (lateRun ++ .main .deadline :: later)) ↔ Idle s) :=
  ⟨_, _, ⟨_, rfl, rfl⟩, rfl, noAckAfterReturn_iff ⟨_, rfl, rfl⟩ rfl⟩

/-- The batch is sent again after `run` has returned. -/
theorem not_noAckAfterReturn_lateRun : ¬ ∀ (worker : Worker) (es : List Event) (s : State),
    Execution worker es s → .main .deadline ∈ es → NoAckAfterReturn es := by
  intro h
  let before : List Event := lateRun ++ [.main .deadline, .main .aborted, .main .dropped]
  let after : List Event := [.ack .slept, .ack (.started [⟨0, "job-1"⟩])]
  have hnone := h ⟨1, 1, true⟩ (before ++ .main .returned :: after) _ ⟨_, rfl, rfl⟩ (by simp [before])
  exact hnone before after [⟨0, "job-1"⟩] rfl (by simp [after])

end Zizq.Worker
