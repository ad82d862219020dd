import Zizq.Worker.Record

/-! What the history of a run says of the ack processor.

The entries that have been on the channel are, in the order they were sent, batches
whose loop has ended, then the batch in hand, then what is on the channel still; the
traffic is that of those batches, each sent again unchanged until the outcome is a
success or a `4xx` (`Ledger`). -/
namespace Zizq.Worker
open Client Data

variable {worker : Worker} {s s' : State} {es : List Event}

/-- A batch, and the outcomes of the requests that carried it. -/
structure Round where
  batch : List Ack
  outcomes : List (Except ZizqError Unit)

def Round.tries (round : Round) : List (Try (List Ack) Unit) := Worker.tries round.batch round.outcomes

namespace AckPhase

/-- The batch in hand. -/
def batch : AckPhase → List Ack
  | .collecting batch | .starting batch _ | .requesting batch _ | .sleeping batch _ => batch
  | .receiving | .done => []

/-- The traffic of the batch in hand, after the outcomes so far. -/
def traffic (retries : List (Except ZizqError Unit)) : AckPhase → List (Try (List Ack) Unit)
  | .starting batch _ | .sleeping batch _ => tries batch retries
  | .requesting batch _ => tries batch retries ++ [.start batch]
  | .receiving | .collecting _ | .done => []

end AckPhase

/-- The entries that have been on the channel: batches whose loop has ended, the batch in hand, and
what is on it still. -/
def entries (rounds : List Round) (s : State) : List Ack :=
  rounds.flatMap (·.batch) ++ s.ack.batch ++ s.channel

structure Ledger (es : List Event) (s : State) (rounds : List Round)
    (retries : List (Except ZizqError Unit)) : Prop where
  ended : ∀ round ∈ rounds, Ended round.outcomes
  retried : Retried retries
  traffic : requests es = rounds.flatMap Round.tries ++ s.ack.traffic retries
  order : (entries rounds s).map (·.task) = sentBy es
  ids : ∀ a ∈ entries rounds s, (s.tasks.map (·.job.id))[a.task]? = some a.id

theorem ledger_initial : Ledger [] initial [] [] := ⟨nofun, nofun, rfl, rfl, nofun⟩

/-- Tasks are only added, and keep their jobs. -/
theorem step_jobs {e : Event} (h : step worker s e = some s') :
    ∃ jobs, s'.tasks.map (·.job) = s.tasks.map (·.job) ++ jobs := by
  cases e with
  | main e => exact ⟨_, (stepMain_jobs h).2⟩
  | task i e =>
    obtain ⟨task, task', hi, -, hnext, rfl⟩ := stepTask_eq_some.mp h
    exact ⟨[], (map_job_set hi (Task.next_cases hnext).1).trans (List.append_nil _).symm⟩
  | ack e =>
    obtain ⟨-, -, -, htasks, -⟩ := stepAck_frame h
    exact ⟨[], by rw [htasks, List.append_nil]⟩

theorem step_ids {e : Event} (h : step worker s e = some s') {i : Nat} {id : String}
    (hid : (s.tasks.map (·.job.id))[i]? = some id) : (s'.tasks.map (·.job.id))[i]? = some id := by
  obtain ⟨jobs, hjobs⟩ := step_jobs h
  have hids := congrArg (List.map (·.id)) hjobs
  simp only [List.map_append, List.map_map, Function.comp_def] at hids
  rw [hids, List.getElem?_append_left (List.getElem?_eq_some_iff.mp hid).1, hid]

section Ack
variable {h : List Event} {rounds rounds' : List Round} {retries retries' : List (Except ZizqError Unit)}

theorem ledger_moved {e : AckEvent} (hs : Ledger h s rounds retries) (htasks : s'.tasks = s.tasks)
    (hended : ∀ round ∈ rounds', Ended round.outcomes) (hretried : Retried retries')
    (hentries : entries rounds' s' = entries rounds s)
    (htraffic : rounds.flatMap Round.tries ++ s.ack.traffic retries ++ requests [.ack e] =
      rounds'.flatMap Round.tries ++ s'.ack.traffic retries') :
    Ledger (h ++ [.ack e]) s' rounds' retries' := by
  refine ⟨hended, hretried, ?_, ?_, fun a ha => ?_⟩
  · rw [requests_append, hs.traffic, htraffic]
  · rw [hentries, sentBy_append, hs.order]
    exact (List.append_nil _).symm
  · rw [htasks]
    exact hs.ids a (hentries ▸ ha)

/-- A step of the ack processor moves entries along, and writes down what it sends and hears. -/
theorem ledger_stepAck {e : AckEvent} (hs : Ledger h s rounds retries)
    (hstep : stepAck s e = some s') :
    ∃ rounds' retries', Ledger (h ++ [.ack e]) s' rounds' retries' := by
  obtain ⟨-, -, -, htasks, -⟩ := stepAck_frame hstep
  cases stepAck_cases hstep with
  | received hack hchannel | closed hack hchannel | collected hack hchannel =>
    refine ⟨rounds, retries, ledger_moved hs htasks hs.ended hs.retried ?_ ?_⟩
    · simp [entries, hack, hchannel, AckPhase.batch]
    · simp [hack, AckPhase.traffic, requests]
  | emptied hack hchannel =>
    -- nothing has been sent of the batch yet
    refine ⟨rounds, [], ledger_moved hs htasks hs.ended nofun ?_ ?_⟩
    · simp [entries, hack, hchannel, AckPhase.batch]
    · simp [hack, AckPhase.traffic, requests, tries]
  | started hack | slept hack =>
    refine ⟨rounds, retries, ledger_moved hs htasks hs.ended hs.retried ?_ ?_⟩
    · simp [entries, hack, AckPhase.batch]
    · simp [hack, AckPhase.traffic, requests]
  | @settled batch backoff outcome hack hstop =>
    have htries := tries_concat batch retries outcome
    refine ⟨rounds ++ [⟨batch, retries ++ [outcome]⟩], [], ledger_moved hs htasks ?_ nofun ?_ ?_⟩
    · intro round hmem
      rcases List.mem_append.mp hmem with hmem | hmem
      · exact hs.ended round hmem
      · rw [List.mem_singleton.mp hmem]
        exact ⟨retries, outcome, rfl, hs.retried, final_iff.mpr hstop⟩
    · simp [entries, hack, AckPhase.batch]
    · simp [hack, AckPhase.traffic, requests, Round.tries, htries]
  | @failed batch backoff outcome hack hretry =>
    have htries := tries_concat batch retries outcome
    refine ⟨rounds, retries ++ [outcome],
      ledger_moved hs htasks hs.ended (retried_concat hs.retried hretry) ?_ ?_⟩
    · simp [entries, hack, AckPhase.batch]
    · simp [hack, AckPhase.traffic, requests, htries]

end Ack

theorem ledger_step {h : List Event} {e : Event} {rounds : List Round}
    {retries : List (Except ZizqError Unit)} (hs : Ledger h s rounds retries)
    (hstep : step worker s e = some s') :
    ∃ rounds' retries', Ledger (h ++ [e]) s' rounds' retries' := by
  cases e with
  | main e =>
    obtain ⟨hchannel, hack, -⟩ := stepMain_shared hstep
    have hentries : entries rounds s' = entries rounds s := by rw [entries, entries, hack, hchannel]
    refine ⟨rounds, retries, hs.ended, hs.retried, ?_, ?_, fun a ha => ?_⟩
    · rw [requests_append, hack, hs.traffic]
      exact List.append_nil _
    · rw [hentries, sentBy_append, hs.order]
      exact (List.append_nil _).symm
    · exact step_ids hstep (hs.ids a (hentries ▸ ha))
  | task i e =>
    obtain ⟨task, task', hi, -, hnext, heq⟩ := stepTask_eq_some.mp hstep
    have hentries : entries rounds s' = entries rounds s ++ outbox i task e := by
      rw [entries, entries, heq, ← List.append_assoc]
    have hout : (outbox i task e).map (·.task) = sentBy [.task i e] := by cases e <;> rfl
    refine ⟨rounds, retries, hs.ended, hs.retried, ?_, ?_, fun a ha => ?_⟩
    · rw [requests_append, heq, hs.traffic]
      exact List.append_nil _
    · rw [hentries, sentBy_append, List.map_append, hs.order, hout]
    · rcases List.mem_append.mp (hentries ▸ ha) with ha | ha
      · exact step_ids hstep (hs.ids a ha)
      · have hid : (s.tasks.map (·.job.id))[i]? = some task.job.id := by
          rw [List.getElem?_map, hi]
          rfl
        obtain rfl : a = ⟨i, task.job.id⟩ := by cases e <;> simp_all [outbox]
        exact step_ids hstep hid
  | ack e => exact ledger_stepAck hs hstep

theorem Execution.ledger (h : Execution worker es s) :
    ∃ rounds retries, Ledger es s rounds retries := by
  refine h.always (I := fun es s => ∃ rounds retries, Ledger es s rounds retries) (fun _ _ => trivial)
    ⟨[], [], ledger_initial⟩ fun h s e s' _ hs hstep => ?_
  obtain ⟨rounds, retries, hledger⟩ := hs
  exact ledger_step hledger hstep

end Zizq.Worker
