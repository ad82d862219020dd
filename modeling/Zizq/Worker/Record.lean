import Zizq.Worker.Ownership

/-! What the history of a run says of its tasks.

The events of a run are its history. The account of a task is what `handle_job` has
done by then: what the handler returned, how often it sent the id, which reports went
out and how they were answered. It fits the phase that the task is in (`Fits`), and
the tasks are the jobs that came off the stream (`Recorded`). -/
namespace Zizq.Worker
open Client Data

variable {worker : Worker} {s s' : State} {es : List Event}

/-! ### Reading the history -/

def pulls (es : List Event) : List Job :=
  es.filterMap fun
    | .main (.pulled job) => some job
    | _ => none

def spawns (es : List Event) : List Job :=
  es.filterMap fun
    | .main (.spawned job) => some job
    | _ => none

/-- The tasks that have put their id on the ack channel, in that order. -/
def sentBy (es : List Event) : List Nat :=
  es.filterMap fun
    | .task i .sent => some i
    | _ => none

def requests (es : List Event) : List (Try (List Ack) Unit) :=
  es.filterMap fun
    | .ack (.started batch) => some (.start batch)
    | .ack (.answered outcome) => some (.answer outcome)
    | _ => none

/-- What task `i` has done. -/
def taskEvents (i : Nat) (es : List Event) : List TaskEvent :=
  es.filterMap fun
    | .task j e => if j = i then some e else none
    | _ => none

def handled (h : List TaskEvent) : List (Except HandlerError Unit) :=
  h.filterMap fun
    | .handled result => some result
    | _ => none

def sent (h : List TaskEvent) : Nat :=
  h.countP fun
    | .sent => true
    | _ => false

def reports (h : List TaskEvent) : List (Try (String × FailureRequest) Job) :=
  h.filterMap fun
    | .reportStarted request => some (.start request)
    | .reportAnswered outcome => some (.answer outcome)
    | _ => none

theorem pulls_append (h h' : List Event) : pulls (h ++ h') = pulls h ++ pulls h' := List.filterMap_append

theorem spawns_append (h h' : List Event) : spawns (h ++ h') = spawns h ++ spawns h' :=
  List.filterMap_append

theorem sentBy_append (h h' : List Event) : sentBy (h ++ h') = sentBy h ++ sentBy h' :=
  List.filterMap_append

theorem requests_append (h h' : List Event) : requests (h ++ h') = requests h ++ requests h' :=
  List.filterMap_append

theorem taskEvents_append (i : Nat) (h h' : List Event) :
    taskEvents i (h ++ h') = taskEvents i h ++ taskEvents i h' := List.filterMap_append

theorem taskEvents_task (i j : Nat) (e : TaskEvent) :
    taskEvents i [.task j e] = if j = i then [e] else [] := by
  by_cases h : j = i <;> simp [taskEvents, h]

/-- The channel's entries of a task are the times it sent. -/
theorem count_sentBy (i : Nat) (es : List Event) : (sentBy es).count i = sent (taskEvents i es) := by
  induction es with
  | nil => rfl
  | cons e es ih =>
    rw [← List.singleton_append, sentBy_append, taskEvents_append, List.count_append, ih, sent, sent,
      List.countP_append]
    congr 1
    cases e with
    | task j e =>
      rw [taskEvents_task]
      by_cases hij : j = i <;> cases e <;> simp [sentBy, hij]
    | _ => rfl

/-! ### The record of a task -/

/-- What `handle_job` has done for its job: what the handler returned, how often the id was sent,
and the traffic of failure reports. -/
structure Account where
  handled : List (Except HandlerError Unit)
  sent : Nat
  reports : List (Try (String × FailureRequest) Job)

def account (h : List TaskEvent) : Account where
  handled := handled h
  sent := sent h
  reports := reports h

theorem account_concat (h : List TaskEvent) (e : TaskEvent) :
    account (h ++ [e]) =
      { handled := (account h).handled ++ handled [e]
        sent := (account h).sent + sent [e]
        reports := (account h).reports ++ reports [e] } := by
  simp only [account, handled, sent, reports, List.filterMap_append, List.countP_append]

/-- What the account of a task comes to in a phase. -/
def Fits (job : Job) (a : Account) : Phase → Prop
  | .handling => a = ⟨[], 0, []⟩
  | .sending => a = ⟨[.ok ()], 0, []⟩
  | .reporting err _ | .sleeping err _ => ∃ outcomes, Retried outcomes ∧
    a = ⟨[.error err], 0, tries (job.id, failureRequest err) outcomes⟩
  | .awaiting err _ => ∃ outcomes, Retried outcomes ∧
    a = ⟨[.error err], 0, tries (job.id, failureRequest err) outcomes ++
      [.start (job.id, failureRequest err)]⟩
  | .finished | .joined => a = ⟨[.ok ()], 1, []⟩ ∨ ∃ err outcomes, Ended outcomes ∧
    a = ⟨[.error err], 0, tries (job.id, failureRequest err) outcomes⟩

/-- A step of `handle_job` that is no panic and no failed send keeps the account. -/
theorem fits_phase {job : Job} {h : List TaskEvent} {phase phase' : Phase} {e : TaskEvent}
    (hfits : Fits job (account h) phase) (hnext : phase.next job e = some phase')
    (hpanic : e ≠ .panicked) (hsend : e ≠ .sendFailed) : Fits job (account (h ++ [e])) phase' := by
  unfold Phase.next at hnext
  rw [account_concat]
  split at hnext
  · -- the handler returned `Ok`
    cases hnext
    rw [show account h = _ from hfits]
    rfl
  · -- the handler returned `Err`
    cases hnext
    rw [show account h = _ from hfits]
    exact ⟨[], nofun, rfl⟩
  · exact absurd rfl hpanic
  · -- the id was sent
    cases hnext
    rw [show account h = _ from hfits]
    exact .inl rfl
  · exact absurd rfl hsend
  · -- a report went out
    obtain ⟨outcomes, hretried, ha⟩ := hfits
    split at hnext <;> cases hnext
    next heq =>
    rw [ha, heq]
    exact ⟨outcomes, hretried, rfl⟩
  · -- a report was answered
    next err backoff outcome =>
    obtain ⟨outcomes, hretried, ha⟩ := hfits
    have htries := tries_concat (job.id, failureRequest err) outcomes outcome
    split at hnext <;> cases hnext
    · next hstop =>
      refine .inr ⟨err, _, ⟨outcomes, outcome, rfl, hretried, final_iff.mpr hstop⟩, ?_⟩
      rw [ha, htries, Account.mk.injEq]
      exact ⟨rfl, rfl, List.append_assoc ..⟩
    · next hretry =>
      refine ⟨_, retried_concat hretried hretry, ?_⟩
      rw [ha, htries, Account.mk.injEq]
      exact ⟨rfl, rfl, List.append_assoc ..⟩
  · -- the sleep is over
    cases hnext
    obtain ⟨outcomes, hretried, ha⟩ := hfits
    rw [ha]
    refine ⟨outcomes, hretried, ?_⟩
    rw [Account.mk.injEq]
    exact ⟨rfl, rfl, List.append_nil _⟩
  · cases hnext

/-- Neither does being resumed or parked touch it. -/
theorem fits_task {task task' : Task} {h : List TaskEvent} {e : TaskEvent}
    (hfits : Fits task.job (account h) task.phase) (hnext : task.next e = some task')
    (hpanic : e ≠ .panicked) (hsend : e ≠ .sendFailed) (hcancel : e ≠ .cancelled) :
    Fits task'.job (account (h ++ [e])) task'.phase := by
  obtain ⟨hjob, hcases⟩ := Task.next_cases hnext
  rw [hjob]
  rcases hcases with ⟨he, heq⟩ | ⟨he, -⟩ | ⟨-, hphase⟩
  · have hsame : account (h ++ [e]) = account h := by
      rw [account_concat]
      rcases he with rfl | rfl <;> simp [handled, sent, reports]
    rwa [heq, hsame]
  · exact absurd he hcancel
  · exact fits_phase hfits hphase hpanic hsend

section Fits
variable {job : Job} {a : Account} {phase : Phase}

theorem Fits.sent (h : Fits job a phase) : a.sent = 0 ∨ a.sent = 1 ∧ a.handled = [.ok ()] := by
  cases phase with
  | handling | sending => exact .inl (congrArg Account.sent h)
  | reporting err | sleeping err | awaiting err =>
    obtain ⟨outcomes, -, rfl⟩ := h
    exact .inl rfl
  | finished | joined =>
    rcases h with rfl | ⟨err, outcomes, -, rfl⟩
    · exact .inr ⟨rfl, rfl⟩
    · exact .inl rfl

theorem Fits.handled (h : Fits job a phase) : a.handled.length ≤ 1 := by
  cases phase with
  | handling | sending => exact (show a = _ from h) ▸ by decide
  | reporting err | sleeping err | awaiting err =>
    obtain ⟨outcomes, -, rfl⟩ := h
    exact Nat.le_refl 1
  | finished | joined =>
    rcases h with rfl | ⟨err, outcomes, -, rfl⟩
    · exact Nat.le_refl 1
    · exact Nat.le_refl 1

theorem Fits.reports {request : String × FailureRequest} (h : Fits job a phase)
    (hmem : .start request ∈ a.reports) :
    ∃ err, a.handled = [.error err] ∧ request = (job.id, failureRequest err) := by
  cases phase with
  | handling | sending =>
    rw [show a = _ from h] at hmem
    cases hmem
  | reporting err | sleeping err =>
    obtain ⟨outcomes, -, rfl⟩ := h
    exact ⟨err, rfl, start_mem_tries hmem⟩
  | awaiting err =>
    obtain ⟨outcomes, -, rfl⟩ := h
    rcases List.mem_append.mp hmem with hmem | hmem
    · exact ⟨err, rfl, start_mem_tries hmem⟩
    · exact ⟨err, rfl, by simpa using hmem⟩
  | finished | joined =>
    rcases h with rfl | ⟨err, outcomes, -, rfl⟩
    · cases hmem
    · exact ⟨err, rfl, start_mem_tries hmem⟩

end Fits

/-! ### The history of each task -/

/-- `P` holds of the history of every task, and a task that there is not yet has none. -/
structure Histories (P : Job → List TaskEvent → Phase → Prop) (es : List Event) (s : State) : Prop where
  fits : ∀ i task, s.tasks[i]? = some task → P task.job (taskEvents i es) task.phase
  fresh : ∀ i, s.tasks[i]? = none → taskEvents i es = []

section Histories
variable {P : Job → List TaskEvent → Phase → Prop}

theorem histories_initial : Histories P [] initial := ⟨fun _ _ hi => absurd hi nofun, fun _ _ => rfl⟩

/-- The dispatcher starts a history with every task, and ends one with a task that has ended. -/
theorem histories_stepMain (hnew : ∀ job, P job [] .handling)
    (hjoined : ∀ job h, P job h .finished → P job h .joined) {h : List Event} {e : MainEvent}
    (hs : Histories P h s) (hstep : stepMain worker s e = some s') : Histories P (h ++ [.main e]) s' := by
  have hevents (i : Nat) : taskEvents i (h ++ [.main e]) = taskEvents i h :=
    (taskEvents_append ..).trans (List.append_nil _)
  rcases stepMain_tasks hstep with heq | ⟨j, task₀, hj, hphase, heq⟩ | ⟨job, -, heq⟩
  · refine ⟨fun i task hi => ?_, fun i hi => (hevents i).trans (hs.fresh i (heq ▸ hi))⟩
    rw [hevents]
    exact hs.fits i task (heq ▸ hi)
  · refine ⟨fun i task hi => ?_, fun i hi => (hevents i).trans (hs.fresh i ?_)⟩
    · rw [hevents]
      rw [heq, List.getElem?_set] at hi
      split at hi
      · next hij =>
        obtain rfl : task = { task₀ with phase := .joined } := by simp_all
        have hfits := hs.fits j task₀ hj
        rw [hphase] at hfits
        exact hij ▸ hjoined _ _ hfits
      · exact hs.fits i task hi
    · rw [heq, List.getElem?_eq_none_iff, List.length_set] at hi
      exact List.getElem?_eq_none_iff.mpr hi
  · refine ⟨fun i task hi => ?_, fun i hi => (hevents i).trans (hs.fresh i ?_)⟩
    · rw [hevents]
      rw [heq] at hi
      by_cases hlt : i < s.tasks.length
      · rw [List.getElem?_append_left hlt] at hi
        exact hs.fits i task hi
      · have hnone := hs.fresh i (List.getElem?_eq_none_iff.mpr (by omega))
        rw [List.getElem?_append_right (by omega), List.getElem?_singleton] at hi
        split at hi <;> cases hi
        rw [hnone]
        exact hnew job
    · rw [heq, List.getElem?_eq_none_iff, List.length_append] at hi
      exact List.getElem?_eq_none_iff.mpr (by omega)

theorem histories_stepTask {h : List Event} {i : Nat} {e : TaskEvent}
    (hnext : ∀ (task task' : Task) (h : List TaskEvent), P task.job h task.phase →
      task.next e = some task' → P task'.job (h ++ [e]) task'.phase)
    (hs : Histories P h s) (hstep : stepTask worker s i e = some s') :
    Histories P (h ++ [.task i e]) s' := by
  obtain ⟨task, task', hi, -, htask, rfl⟩ := stepTask_eq_some.mp hstep
  refine ⟨fun j t hj => ?_, fun j hj => ?_⟩
  · rw [taskEvents_append, taskEvents_task]
    rw [List.getElem?_set] at hj
    split at hj
    · next hij =>
      subst hij
      obtain rfl : t = task' := by simp_all
      rw [if_pos rfl]
      exact hnext task t _ (hs.fits i task hi) htask
    · next hij =>
      rw [if_neg hij, List.append_nil]
      exact hs.fits j t hj
  · have hlt := (List.getElem?_eq_some_iff.mp hi).1
    rw [List.getElem?_eq_none_iff, List.length_set] at hj
    rw [taskEvents_append, taskEvents_task, if_neg (by omega), List.append_nil]
    exact hs.fresh j (List.getElem?_eq_none_iff.mpr hj)

theorem histories_stepAck {h : List Event} {e : AckEvent} (hs : Histories P h s)
    (hstep : stepAck s e = some s') : Histories P (h ++ [.ack e]) s' := by
  obtain ⟨-, -, -, htasks, -⟩ := stepAck_frame hstep
  have hevents (i : Nat) : taskEvents i (h ++ [.ack e]) = taskEvents i h :=
    (taskEvents_append ..).trans (List.append_nil _)
  refine ⟨fun i task hi => ?_, fun i hi => ?_⟩
  · rw [hevents]
    exact hs.fits i task (htasks ▸ hi)
  · rw [hevents]
    exact hs.fresh i (htasks ▸ hi)

end Histories

/-! ### The records of a run -/

theorem map_job_set {tasks : List Task} {i : Nat} {task task' : Task} (hi : tasks[i]? = some task)
    (hjob : task'.job = task.job) : (tasks.set i task').map (·.job) = tasks.map (·.job) := by
  obtain ⟨hlt, rfl⟩ := List.getElem?_eq_some_iff.mp hi
  have hself := List.set_getElem_self (show i < (tasks.map (·.job)).length by simpa using hlt)
  rw [List.getElem_map] at hself
  rw [List.map_set, hjob, hself]

theorem stepMain_jobs {e : MainEvent} (h : stepMain worker s e = some s') :
    s.main.inHand ++ pulls [.main e] = spawns [.main e] ++ s'.main.inHand ∧
      s'.tasks.map (·.job) = s.tasks.map (·.job) ++ spawns [.main e] := by
  have hnone : s.tasks.map (·.job) = s.tasks.map (·.job) ++ [] := (List.append_nil _).symm
  cases stepMain_cases h with
  | @joined i task _ hi =>
    have hset : (s.tasks.set i { task with phase := .joined }).map (·.job) = s.tasks.map (·.job) :=
      map_job_set hi rfl
    exact ⟨List.append_nil _, hset.trans hnone⟩
  | pulled hmain => exact ⟨by rw [hmain]; rfl, hnone⟩
  | spawned hmain => exact ⟨by rw [hmain]; rfl, List.map_append⟩
  | shutdown hmain | deadline hmain =>
    rcases hmain with hmain | hmain <;> exact ⟨by rw [hmain]; rfl, hnone⟩
  | streamEnded hmain | streamFailed hmain =>
    refine ⟨?_, hnone⟩
    rw [hmain]
    split <;> rfl
  | _ hmain => exact ⟨by rw [hmain]; rfl, hnone⟩

/-- Every job off the stream has been dispatched, but for one in hand, and every dispatched job has its
task. -/
def Dispatched (es : List Event) (s : State) : Prop :=
  pulls es = spawns es ++ s.main.inHand ∧ spawns es = s.tasks.map (·.job)

theorem dispatched_step {h : List Event} {e : Event} (hs : Dispatched h s)
    (hstep : step worker s e = some s') : Dispatched (h ++ [e]) s' := by
  have hother (hmain : s'.main = s.main) (hjobs : s'.tasks.map (·.job) = s.tasks.map (·.job))
      (hpulls : pulls [e] = []) (hspawns : spawns [e] = []) : Dispatched (h ++ [e]) s' := by
    rw [Dispatched, pulls_append, spawns_append, hpulls, hspawns, List.append_nil, List.append_nil,
      hmain, hjobs]
    exact hs
  cases e with
  | main e =>
    obtain ⟨hhand, hjobs⟩ := stepMain_jobs hstep
    constructor
    · rw [pulls_append, spawns_append, hs.1, List.append_assoc, List.append_assoc, hhand]
    · rw [spawns_append, hs.2, hjobs]
  | task i e =>
    obtain ⟨task, task', hi, -, hnext, rfl⟩ := stepTask_eq_some.mp hstep
    exact hother rfl (map_job_set hi (Task.next_cases hnext).1) rfl rfl
  | ack e =>
    obtain ⟨hmain, -, -, htasks, -⟩ := stepAck_frame hstep
    exact hother hmain (congrArg _ htasks) rfl rfl

theorem Execution.dispatched (h : Execution worker es s) : Dispatched es s :=
  h.always (fun _ _ => trivial) ⟨rfl, rfl⟩ fun _ _ _ _ _ hs hstep => dispatched_step hs hstep

/-- The jobs off the stream, the tasks, and what each task has done. -/
structure Recorded (es : List Event) (s : State) : Prop where
  pulled : pulls es = spawns es ++ s.main.inHand
  spawned : spawns es = s.tasks.map (·.job)
  fits : ∀ i task, s.tasks[i]? = some task → Fits task.job (account (taskEvents i es)) task.phase
  fresh : ∀ i, s.tasks[i]? = none → taskEvents i es = []

/-! ### Every run -/

theorem Execution.sendFailed_notMem (h : Execution worker es s) (i : Nat) :
    .task i .sendFailed ∉ es := by
  have hnone (s : State) (hs : Owned s) : step worker s (.task i .sendFailed) = none := hs.not_sendFailed
  exact Transition.run_never h.run owned_initial (fun _ _ _ hs h => owned_step hs h) hnone

/-- Without the deadline no task finds the ack channel closed, and none is cancelled. -/
theorem not_sendFailed_not_cancelled {i : Nat} {e : TaskEvent} (howned : Owned s) (hdrained : Drained s)
    (h : stepTask worker s i e = some s') : e ≠ .sendFailed ∧ e ≠ .cancelled := by
  constructor
  · rintro rfl
    exact absurd (howned.not_sendFailed.symm.trans h) nofun
  · rintro rfl
    obtain ⟨-, -, -, hpermitted, -, -⟩ := stepTask_eq_some.mp h
    exact absurd (hdrained.unaborted.symm.trans hpermitted) nofun

theorem histories_fits_step {h : List Event} {e : Event}
    (hs : Histories (fun job h phase => Fits job (account h) phase) h s) (howned : Owned s)
    (hdrained : Drained s) (hpanic : ∀ i, e ≠ .task i .panicked) (hstep : step worker s e = some s') :
    Histories (fun job h phase => Fits job (account h) phase) (h ++ [e]) s' := by
  cases e with
  | main e => exact histories_stepMain (fun _ => rfl) (fun _ _ => id) hs hstep
  | task i e =>
    obtain ⟨hsend, hcancel⟩ := not_sendFailed_not_cancelled howned hdrained hstep
    have hpanic : e ≠ .panicked := fun heq => hpanic i (heq ▸ rfl)
    exact histories_stepTask (fun _ _ _ hfits hnext => fits_task hfits hnext hpanic hsend hcancel) hs hstep
  | ack e => exact histories_stepAck hs hstep

/-- Without panics and without the deadline the records are kept. -/
theorem Execution.recorded (h : Execution worker es s) (hpanic : ∀ i, .task i .panicked ∉ es)
    (hdeadline : .main .deadline ∉ es) : Drained s ∧ Recorded es s := by
  have hrule : ∀ e ∈ es, e ≠ .main .deadline ∧ ∀ i, e ≠ .task i .panicked :=
    fun e he => ⟨fun heq => hdeadline (heq ▸ he), fun i heq => hpanic i (heq ▸ he)⟩
  obtain ⟨-, hdrained, hfits, hfresh⟩ := h.always
    (I := fun es s => Owned s ∧ Drained s ∧ Histories (fun job h phase => Fits job (account h) phase) es s)
    hrule ⟨owned_initial, drained_initial, histories_initial⟩ fun h s e s' hrule hs hstep => by
      obtain ⟨howned, hdrained, hfits⟩ := hs
      exact ⟨owned_step howned hstep, drained_step hdrained hrule.1 hstep,
        histories_fits_step hfits howned hdrained hrule.2 hstep⟩
  obtain ⟨hpulled, hspawned⟩ := h.dispatched
  exact ⟨hdrained, hpulled, hspawned, hfits, hfresh⟩

end Zizq.Worker
