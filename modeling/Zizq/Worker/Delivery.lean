import Mathlib.Data.List.Nodup
import Zizq.Worker.Ledger

/-! No job is lost and none is acked twice.

At the end of the drain every task has been joined and the ack processor has ended,
so the records of the tasks and the ledger of the ack processor leave no dispatched
job unsettled (`allSettled_of_ended`); the take stream that a shutdown found open is
held until then (`Held`). -/
namespace Zizq.Worker
open Client Data

variable {worker : Worker} {s s' : State} {es : List Event}

/-! ### Delivery -/

/-- The id of a task is in a batch whose loop has ended, or its failure report's loop has. -/
def Settled (es : List Event) (rounds : List Round) (i : Nat) (job : Job) : Prop :=
  (account (taskEvents i es) = ⟨[.ok ()], 1, []⟩ ∧ ∃ round ∈ rounds, ⟨i, job.id⟩ ∈ round.batch) ∨
    ∃ err outcomes, Ended outcomes ∧
      account (taskEvents i es) = ⟨[.error err], 0, tries (job.id, failureRequest err) outcomes⟩

def AllSettled (es : List Event) (rounds : List Round) : Prop :=
  pulls es = spawns es ∧ ∀ i job, (spawns es)[i]? = some job → Settled es rounds i job

/-- What a history `es` that leads to `s` says about the jobs of the run. Each is dispatched once, in
the order they came off the stream; its id is sent at most once, and only after `Ok`; reports are
about jobs whose handler returned `Err`; no send fails; the traffic of bulk acks is one batch after
another, each the same at every try, and every entry is in one batch; after the drain nothing is
left, and a stream that a shutdown found open is open until then. -/
structure Delivered (worker : Worker) (es : List Event) (s : State) : Prop where
  dispatched : pulls es = spawns es ++ s.main.inHand
  spawned : spawns es = s.tasks.map (·.job)
  handledOnce : ∀ i, (handled (taskEvents i es)).length ≤ 1
  acked : ∀ i, sent (taskEvents i es) ≤ 1 ∧
    (sent (taskEvents i es) = 1 → handled (taskEvents i es) = [.ok ()])
  reported : ∀ i request, .start request ∈ reports (taskEvents i es) →
    ∃ err job, handled (taskEvents i es) = [.error err] ∧ (spawns es)[i]? = some job ∧
      request = (job.id, failureRequest err)
  sendFailed : ∀ i, .task i .sendFailed ∉ es
  ledger : ∃ rounds retries, Ledger es s rounds retries ∧ (entries rounds s).Nodup ∧
    (s.main.ended = true → AllSettled es rounds) ∧
    ∀ before after p, es = before ++ .main .shutdown :: after → Execution worker before p →
      p.stream = true → s.stream = false → AllSettled es rounds

/-! ### The held stream -/

/-- The dispatch loop is over, and the stream is open unless the drain is over as well. -/
structure Held (s : State) : Prop where
  left : s.main.looping = false
  stream : s.stream = true ∨ s.main.ended = true

theorem held_stepMain {e : MainEvent} (hs : Held s) (h : stepMain worker s e = some s') : Held s' := by
  obtain ⟨hleft, hstream⟩ := hs
  cases stepMain_cases h with
  | joined => exact ⟨hleft, hstream⟩
  | drained hmain => exact ⟨rfl, hstream.imp_right fun hended => by cases hmain ▸ hended⟩
  | flushed | deadline | aborted | dropped | returned => exact ⟨rfl, .inr rfl⟩
  | shutdown hmain => rcases hmain with hmain | hmain <;> cases hmain ▸ hleft
  | _ hmain => cases hmain ▸ hleft

theorem held_step {e : Event} (hs : Held s) (h : step worker s e = some s') : Held s' := by
  cases e with
  | main e => exact held_stepMain hs h
  | task i e =>
    obtain ⟨task, task', -, -, -, rfl⟩ := stepTask_eq_some.mp h
    exact ⟨hs.left, hs.stream⟩
  | ack e =>
    obtain ⟨hmain, hstream, -⟩ := stepAck_frame h
    exact ⟨hmain ▸ hs.left, hmain ▸ hstream ▸ hs.stream⟩

theorem held_shutdown (hs : s.stream = true) (h : stepMain worker s .shutdown = some s') : Held s' := by
  cases stepMain_cases h
  exact ⟨rfl, .inl hs⟩

/-- After a shutdown that finds the stream open, it is open until the drain is over. -/
theorem Execution.ended_of_shutdown {before after : List Event} {p : State}
    (h : Execution worker (before ++ .main .shutdown :: after) s) (hp : Execution worker before p)
    (hopen : p.stream = true) (hclosed : s.stream = false) : s.main.ended = true := by
  obtain ⟨q, hshutdown, hrest⟩ := h.split hp
  have hheld : Held s :=
    Transition.run_invariant (fun _ _ _ hs h => held_step hs h) hrest (held_shutdown hopen hshutdown)
  exact hheld.stream.resolve_left (by rw [hclosed]; exact Bool.false_ne_true)

/-! ### The main result -/

theorem Recorded.fits_any (hs : Recorded es s) (i : Nat) :
    ∃ job phase, Fits job (account (taskEvents i es)) phase ∧
      (phase = .handling ∨ (spawns es)[i]? = some job) := by
  cases hi : s.tasks[i]? with
  | none =>
    rw [hs.fresh i hi]
    exact ⟨⟨""⟩, .handling, rfl, .inl rfl⟩
  | some task =>
    refine ⟨task.job, task.phase, hs.fits i task hi, .inr ?_⟩
    rw [hs.spawned, List.getElem?_map, hi]
    rfl

/-- Past the drain the channel and the ack processor are empty, and every task has ended. -/
theorem allSettled_of_ended {rounds : List Round} {retries : List (Except ZizqError Unit)}
    (howned : Owned s) (hdrained : Drained s) (hrecorded : Recorded es s)
    (hledger : Ledger es s rounds retries) (hended : s.main.ended = true) : AllSettled es rounds := by
  obtain ⟨-, hempty, -⟩ := howned.done (hdrained.flushed hended)
  have hpast : s.main.drained = true ∧ s.main.inHand = [] := by
    cases hmain : s.main <;> simp_all [Main.ended, Main.drained, Main.inHand]
  have hentries : entries rounds s = rounds.flatMap (·.batch) := by
    simp [entries, hempty, hdrained.flushed hended, AckPhase.batch]
  refine ⟨by rw [hrecorded.pulled, hpast.2, List.append_nil], fun i job hjob => ?_⟩
  rw [hrecorded.spawned, List.getElem?_map, Option.map_eq_some_iff] at hjob
  obtain ⟨task, hi, rfl⟩ := hjob
  have hfits := hrecorded.fits i task hi
  rw [hdrained.joined hpast.1 task (List.mem_of_getElem? hi)] at hfits
  rcases hfits with hacked | hreported
  · -- its entry came off the channel into a batch
    have hsent : i ∈ sentBy es := by
      have hone : sent (taskEvents i es) = 1 := congrArg Account.sent hacked
      rw [← List.count_pos_iff, count_sentBy, hone]
      exact Nat.one_pos
    rw [← hledger.order, List.mem_map] at hsent
    obtain ⟨a, ha, rfl⟩ := hsent
    have hid := hledger.ids a ha
    rw [List.getElem?_map, hi] at hid
    rw [hentries, List.mem_flatMap] at ha
    obtain ⟨round, hround, hbatch⟩ := ha
    refine .inl ⟨hacked, round, hround, ?_⟩
    rwa [show task.job.id = a.id from Option.some.inj hid]
  · exact .inr hreported

/-- **Main theorem.** In every run without a panic and without the deadline, every job that comes off
the stream is dispatched once and ends up, before the stream is let go and `run` returns, in one ack
batch or in a failure report, sent until the outcome is a success or a `4xx`. -/
theorem delivered (h : Execution worker es s) (hpanic : ∀ i, .task i .panicked ∉ es)
    (hdeadline : .main .deadline ∉ es) : Delivered worker es s := by
  obtain ⟨hdrained, hrecorded⟩ := h.recorded hpanic hdeadline
  obtain ⟨rounds, retries, hledger⟩ := h.ledger
  have hsettled := allSettled_of_ended h.owned hdrained hrecorded hledger
  have hacked (i : Nat) : sent (taskEvents i es) ≤ 1 ∧
      (sent (taskEvents i es) = 1 → handled (taskEvents i es) = [.ok ()]) := by
    obtain ⟨job, phase, hfits, -⟩ := hrecorded.fits_any i
    rcases hfits.sent with hzero | ⟨hone, hok⟩
    · exact ⟨hzero.le.trans (Nat.zero_le 1), fun hone => absurd (hzero.symm.trans hone) nofun⟩
    · exact ⟨hone.le, fun _ => hok⟩
  refine ⟨hrecorded.pulled, hrecorded.spawned, fun i => ?_, hacked, fun i request hmem => ?_,
    h.sendFailed_notMem, rounds, retries, hledger, ?_, hsettled, ?_⟩
  · obtain ⟨job, phase, hfits, -⟩ := hrecorded.fits_any i
    exact hfits.handled
  · obtain ⟨job, phase, hfits, hjob⟩ := hrecorded.fits_any i
    obtain ⟨err, herr, hrequest⟩ := hfits.reports hmem
    rcases hjob with rfl | hjob
    · rw [show account (taskEvents i es) = _ from hfits] at herr
      cases herr
    · exact ⟨err, job, herr, hjob, hrequest⟩
  · refine List.Nodup.of_map (·.task) ?_
    rw [hledger.order, List.nodup_iff_count_le_one]
    exact fun i => count_sentBy i es ▸ (hacked i).1
  · rintro before after p rfl hp hopen hclosed
    exact hsettled (h.ended_of_shutdown hp hopen hclosed)

/-- Two jobs at once: one is acked at the second try, the failure of the other is reported at the
second try, and a shutdown ends the run. -/
def twoJobs : List Event :=
  [.main .connected, .main (.pulled ⟨"job-1"⟩), .main (.spawned ⟨"job-1"⟩), .task 0 .resumed,
    .main (.pulled ⟨"job-2"⟩), .main (.spawned ⟨"job-2"⟩), .task 1 .resumed,
    .task 1 (.handled (.error ⟨"boom", "Error"⟩)),
    .task 1 (.reportStarted ("job-2", failureRequest ⟨"boom", "Error"⟩)),
    .task 1 (.reportAnswered (.error (.transport "reset"))), .task 0 (.handled (.ok ())),
    .task 0 .sent, .ack .received, .ack .emptied, .ack (.started [⟨0, "job-1"⟩]),
    .ack (.answered (.error (.response 503 ""))), .main .shutdown, .main (.joined 0), .ack .slept,
    .ack (.started [⟨0, "job-1"⟩]), .task 1 .slept,
    .task 1 (.reportStarted ("job-2", failureRequest ⟨"boom", "Error"⟩)),
    .task 1 (.reportAnswered (.ok ⟨"job-2"⟩)), .main (.joined 1), .main .drained,
    .ack (.answered (.ok ())), .ack .closed, .main .flushed, .main .dropped, .main .returned]

theorem delivered_twoJobs :
    ∃ s, s.main = .returned (.ok ()) ∧ Execution ⟨2, 2, true⟩ twoJobs s ∧ Delivered ⟨2, 2, true⟩ twoJobs s :=
  ⟨_, rfl, ⟨_, rfl, rfl⟩, delivered ⟨_, rfl, rfl⟩ (by simp [twoJobs]) (by simp [twoJobs])⟩

end Zizq.Worker
