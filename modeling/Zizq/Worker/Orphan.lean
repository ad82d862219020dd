import Zizq.Worker.Record

/-! Jobs whose task is gone.

A slot is freed by `join_next`, whose result nobody looks at, while the ack or the
failure report is made inside the task. A task that ends by a panic of its handler
frees its slot all the same, and nothing will ever release its job; every other task
has done one of the two by then (`noOrphan_iff`). -/
namespace Zizq.Worker
open Client Data

variable {worker : Worker} {s s' : State} {es : List Event}

/-- The task has put its id on the ack channel, or the loop of its failure report has ended. -/
def Released (h : List TaskEvent) : Prop :=
  .sent ∈ h ∨ ∃ outcome, .reportAnswered outcome ∈ h ∧ verdict outcome = .stop

/-- Every job whose task has left the inflight set has been released. -/
def NoOrphan (es : List Event) (s : State) : Prop :=
  ∀ (i : Nat) (task : Task), s.tasks[i]? = some task → task.phase = .joined → Released (taskEvents i es)

/-- No task that has left the inflight set has panicked. -/
def NoPanic (es : List Event) (s : State) : Prop :=
  ∀ (i : Nat) (task : Task), s.tasks[i]? = some task → task.phase = .joined → .panicked ∉ taskEvents i es

/-- A live task has released nothing, and one that has ended either released its job or panicked. -/
def Ends (_ : Job) (h : List TaskEvent) (phase : Phase) : Prop :=
  if phase.live then .panicked ∉ h ∧ ¬ Released h else Released h ↔ .panicked ∉ h

theorem released_concat {h : List TaskEvent} {e : TaskEvent} :
    Released (h ++ [e]) ↔
      Released h ∨ e = .sent ∨ ∃ outcome, e = .reportAnswered outcome ∧ verdict outcome = .stop := by
  simp only [Released, List.mem_append, List.mem_singleton]
  constructor
  · rintro ((hsent | rfl) | ⟨outcome, hmem | rfl, hstop⟩)
    · exact .inl (.inl hsent)
    · exact .inr (.inl rfl)
    · exact .inl (.inr ⟨outcome, hmem, hstop⟩)
    · exact .inr (.inr ⟨outcome, rfl, hstop⟩)
  · rintro ((hsent | ⟨outcome, hmem, hstop⟩) | rfl | ⟨outcome, rfl, hstop⟩)
    · exact .inl (.inl hsent)
    · exact .inr ⟨outcome, .inl hmem, hstop⟩
    · exact .inl (.inr rfl)
    · exact .inr ⟨outcome, .inr rfl, hstop⟩

/-- Being resumed or parked releases nothing. -/
theorem ends_silent {job : Job} {h : List TaskEvent} {phase : Phase} {e : TaskEvent}
    (hends : Ends job h phase) (he : e = .resumed ∨ e = .parked) : Ends job (h ++ [e]) phase := by
  have hreleased : Released (h ++ [e]) ↔ Released h := by
    rw [released_concat]
    rcases he with rfl | rfl <;> simp
  have hpanicked : .panicked ∈ h ++ [e] ↔ .panicked ∈ h := by
    rcases he with rfl | rfl <;> simp
  rwa [Ends, hreleased, hpanicked]

theorem ends_phase {job : Job} {h : List TaskEvent} {phase phase' : Phase} {e : TaskEvent}
    (hends : Ends job h phase) (hnext : phase.next job e = some phase') (hsend : e ≠ .sendFailed) :
    Ends job (h ++ [e]) phase' := by
  rw [Ends, if_pos (Phase.live_of_next hnext)] at hends
  obtain ⟨hpanicked, hreleased⟩ := hends
  unfold Ends
  rw [released_concat]
  unfold Phase.next at hnext
  repeat' split at hnext
  all_goals cases hnext <;> simp_all [Phase.live]

theorem ends_task {task task' : Task} {h : List TaskEvent} {e : TaskEvent}
    (hends : Ends task.job h task.phase) (hnext : task.next e = some task') (hsend : e ≠ .sendFailed)
    (hcancel : e ≠ .cancelled) : Ends task'.job (h ++ [e]) task'.phase := by
  obtain ⟨hjob, hcases⟩ := Task.next_cases hnext
  rw [hjob]
  rcases hcases with ⟨he, heq⟩ | ⟨he, -⟩ | ⟨-, hphase⟩
  · exact heq ▸ ends_silent hends he
  · exact absurd he hcancel
  · exact ends_phase hends hphase hsend

theorem Execution.ends (h : Execution worker es s) (hdeadline : .main .deadline ∉ es) :
    Histories Ends es s := by
  have hrule : ∀ e ∈ es, e ≠ .main .deadline := fun e he heq => hdeadline (heq ▸ he)
  refine (h.always (I := fun es s => Owned s ∧ Drained s ∧ Histories Ends es s) hrule
    ⟨owned_initial, drained_initial, histories_initial⟩ ?_).2.2
  intro h s e s' hrule hs hstep
  obtain ⟨howned, hdrained, hends⟩ := hs
  refine ⟨owned_step howned hstep, drained_step hdrained hrule hstep, ?_⟩
  cases e with
  | main e =>
    have hnew (job : Job) : Ends job [] .handling := ⟨List.not_mem_nil, by simp [Released]⟩
    exact histories_stepMain hnew (fun _ _ => id) hends hstep
  | task i e =>
    obtain ⟨hsend, hcancel⟩ := not_sendFailed_not_cancelled howned hdrained hstep
    exact histories_stepTask (fun _ _ _ hends hnext => ends_task hends hnext hsend hcancel) hends hstep
  | ack e => exact histories_stepAck hends hstep

/-- **Main theorem.** Before the deadline no job is orphaned exactly when no task that has left the
inflight set has panicked; in particular never in a run without panics. -/
theorem noOrphan_iff (h : Execution worker es s) (hdeadline : .main .deadline ∉ es) :
    NoOrphan es s ↔ NoPanic es s := by
  refine forall₄_congr fun i task hi hphase => ?_
  have hends := (h.ends hdeadline).fits i task hi
  rw [hphase] at hends
  exact hends

/-- A handler that panics, in a worker with one slot. -/
def panicRun : List Event :=
  [.main .connected, .main (.pulled ⟨"job-1"⟩), .main (.spawned ⟨"job-1"⟩), .task 0 .resumed,
    .task 0 .panicked, .main (.joined 0)]

theorem noOrphan_iff_panicRun :
    ∃ s, Execution ⟨1, 1, true⟩ panicRun s ∧ (NoOrphan panicRun s ↔ NoPanic panicRun s) := by
  have h : ∃ s, Execution ⟨1, 1, true⟩ panicRun s := ⟨_, _, rfl, rfl⟩
  obtain ⟨s, hs⟩ := h
  exact ⟨s, hs, noOrphan_iff hs (by simp [panicRun])⟩

/-- Its slot is free, and the job has been neither acked nor reported. -/
theorem not_noOrphan_panicRun : ¬ ∀ (worker : Worker) (es : List Event) (s : State),
    Execution worker es s → .main .deadline ∉ es → NoOrphan es s := by
  intro h
  have horphan := h ⟨1, 1, true⟩ panicRun _ ⟨_, rfl, rfl⟩ (by simp [panicRun]) 0 ⟨⟨"job-1"⟩, .joined, false⟩ rfl rfl
  have hevents : taskEvents 0 panicRun = [.resumed, .panicked] := rfl
  rw [hevents] at horphan
  simp [Released] at horphan

end Zizq.Worker
