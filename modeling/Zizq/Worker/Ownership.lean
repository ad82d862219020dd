import Zizq.Worker.Machine

/-! Who holds the ack channel.

`run` keeps a sender until it has joined its tasks, and a live task keeps one of its
own. The ack processor ends only when every sender is gone and the channel is empty,
so no task ever finds the channel closed (`not_sendFailed`). Without the deadline,
`run` goes on only when its tasks are joined and the ack processor has ended. -/
namespace Zizq.Worker
open Client Data

variable {worker : Worker} {s s' : State} {es : List Event}

/-! ### The senders -/

/-- The dispatcher's sender lives until its tasks are joined, and the ack processor outlives all. -/
structure Owned (s : State) : Prop where
  sender : s.main.drained = false → s.ackTx = true
  done : s.ack = .done → s.ackTx = false ∧ s.channel = [] ∧ ∀ task ∈ s.tasks, task.phase.live = false

theorem owned_initial : Owned initial := ⟨fun _ => rfl, nofun⟩

theorem owned_stepMain {e : MainEvent} (hs : Owned s) (h : stepMain worker s e = some s') :
    Owned s' := by
  obtain ⟨hchannel, hack, htx⟩ := stepMain_shared h
  refine ⟨fun hdrained => ?_, fun hdone => ?_⟩
  · obtain ⟨hdrained, heq⟩ := stepMain_sender h hdrained
    exact heq ▸ hs.sender hdrained
  · obtain ⟨hgone, hempty, hdead⟩ := hs.done (hack ▸ hdone)
    refine ⟨htx.elim (fun heq => heq ▸ hgone) id, hchannel ▸ hempty, fun task hmem => ?_⟩
    rcases stepMain_tasks h with heq | ⟨i, task₀, hi, -, heq⟩ | ⟨job, hmain, -⟩
    · exact hdead task (heq ▸ hmem)
    · rcases List.mem_or_eq_of_mem_set (heq ▸ hmem) with hmem | rfl
      · exact hdead task hmem
      · rfl
    · -- the dispatcher still holds its sender
      rw [hs.sender (by rw [hmain]; rfl)] at hgone
      cases hgone

theorem owned_stepTask {i : Nat} {e : TaskEvent} (hs : Owned s)
    (h : stepTask worker s i e = some s') : Owned s' := by
  obtain ⟨task, task', hi, hpermitted, hnext, rfl⟩ := stepTask_eq_some.mp h
  refine ⟨hs.sender, fun hdone => ?_⟩
  obtain ⟨hgone, hempty, hdead⟩ := hs.done hdone
  have hdead' : ∀ t ∈ s.tasks.set i task', t.phase.live = false := by
    intro t hmem
    rcases stepTask_tasks h hmem with hmem | ⟨task₀, hi₀, hnext₀⟩
    · exact hdead t hmem
    · rw [Bool.eq_false_iff]
      intro hlive
      have := hdead task₀ (List.mem_of_getElem? hi₀)
      rw [Task.live_of_next hnext₀ hlive] at this
      cases this
  refine ⟨hgone, ?_, hdead'⟩
  have hout : outbox i task e = [] := by
    cases e with
    | sent => exact absurd hdone (permitted_sent.mp hpermitted).2
    | _ => rfl
  show s.channel ++ outbox i task e = []
  rw [hempty, hout, List.append_nil]

theorem owned_stepAck {e : AckEvent} (hs : Owned s) (h : stepAck s e = some s') : Owned s' := by
  obtain ⟨hmain, -, -, htasks, htx⟩ := stepAck_frame h
  refine ⟨fun hdrained => htx ▸ hs.sender (hmain ▸ hdrained), fun hdone => ?_⟩
  obtain ⟨hempty, hgone⟩ := stepAck_done h hdone
  obtain ⟨hgone, hdead⟩ := sendersGone_iff.mp hgone
  exact ⟨htx ▸ hgone, hempty, htasks ▸ hdead⟩

theorem owned_step {e : Event} (hs : Owned s) (h : step worker s e = some s') : Owned s' := by
  cases e with
  | main e => exact owned_stepMain hs h
  | task i e => exact owned_stepTask hs h
  | ack e => exact owned_stepAck hs h

theorem Execution.owned (h : Execution worker es s) : Owned s := by
  exact Transition.run_invariant (fun _ _ _ hs h => owned_step hs h) h.run owned_initial

/-- A task that is about to send finds the ack processor there. -/
theorem Owned.not_sendFailed {i : Nat} (hs : Owned s) : stepTask worker s i .sendFailed = none := by
  rw [Option.eq_none_iff_forall_ne_some]
  intro s' h
  obtain ⟨task, task', hi, hpermitted, hnext, -⟩ := stepTask_eq_some.mp h
  have hdone : s.ack = .done := by simpa [permitted] using hpermitted
  have hdead := (hs.done hdone).2.2 task (List.mem_of_getElem? hi)
  rcases (Task.next_cases hnext).2 with ⟨heq | heq, -⟩ | ⟨heq, -⟩ | ⟨-, hphase⟩
  · cases heq
  · cases heq
  · cases heq
  · rw [Phase.live_of_next hphase] at hdead
    cases hdead

/-! ### The drain -/

/-- Past the drain, without the deadline, nothing is left to do. -/
structure Drained (s : State) : Prop where
  unaborted : s.aborted = false
  waiting : ∀ result, s.main ≠ .aborting result
  joined : s.main.drained = true → ∀ task ∈ s.tasks, task.phase = .joined
  flushed : s.main.ended = true → s.ack = .done

theorem drained_initial : Drained initial := ⟨rfl, nofun, nofun, nofun⟩

theorem stepMain_drained {e : MainEvent} (h : stepMain worker s e = some s') (he : e ≠ .deadline)
    (hwaiting : ∀ result, s.main ≠ .aborting result) :
    s'.aborted = s.aborted ∧ (∀ result, s'.main ≠ .aborting result) ∧
      (s'.main.drained = true → s'.tasks = s.tasks ∧ (s.main.drained = true ∨ inflight s = 0)) ∧
      (s'.main.ended = true → s.main.ended = true ∨ s.ack = .done) := by
  cases stepMain_cases h with
  | deadline => exact absurd rfl he
  | aborted hmain => exact absurd hmain (hwaiting _)
  | joined hmain =>
    have hdrained : s.main.drained = false := by
      rcases hmain with ⟨hmain, -⟩ | ⟨result, hmain⟩ <;> rw [hmain] <;> rfl
    exact ⟨rfl, hwaiting, fun h => (Bool.false_ne_true (hdrained.symm.trans h)).elim, .inl⟩
  | drained _ hjoined => exact ⟨rfl, nofun, fun _ => ⟨rfl, .inr hjoined⟩, nofun⟩
  | flushed hmain hack => exact ⟨rfl, nofun, fun _ => ⟨rfl, .inl (hmain ▸ rfl)⟩, fun _ => .inr hack⟩
  | dropped hmain | returned hmain =>
    exact ⟨rfl, nofun, fun _ => ⟨rfl, .inl (hmain ▸ rfl)⟩, fun _ => .inl (hmain ▸ rfl)⟩
  | streamEnded | streamFailed => cases worker.reconnect <;> exact ⟨rfl, nofun, nofun, nofun⟩
  | _ => exact ⟨rfl, nofun, nofun, nofun⟩

theorem drained_step {e : Event} (hs : Drained s) (he : e ≠ .main .deadline)
    (h : step worker s e = some s') : Drained s' := by
  cases e with
  | main e =>
    obtain ⟨habort, hwaiting, hdrained, hended⟩ := stepMain_drained h (fun heq => he (heq ▸ rfl)) hs.waiting
    refine ⟨habort ▸ hs.unaborted, hwaiting, fun hd => ?_, fun hd => ?_⟩
    · obtain ⟨heq, hd | hzero⟩ := hdrained hd
      · exact heq ▸ hs.joined hd
      · intro task hmem
        have := List.countP_eq_zero.mp hzero task (heq ▸ hmem)
        simpa using this
    · rw [(stepMain_shared h).2.1]
      exact (hended hd).elim hs.flushed id
  | task i e =>
    obtain ⟨task, task', hi, hpermitted, hnext, rfl⟩ := stepTask_eq_some.mp h
    refine ⟨hs.unaborted, hs.waiting, fun hd t hmem => ?_, hs.flushed⟩
    rcases stepTask_tasks h hmem with hmem | ⟨task₀, hi₀, hnext₀⟩
    · exact hs.joined hd t hmem
    · have hphase := hs.joined hd task₀ (List.mem_of_getElem? hi₀)
      rcases (Task.next_cases hnext₀).2 with ⟨-, heq⟩ | ⟨-, hlive, -⟩ | ⟨-, hstep⟩
      · exact heq.trans hphase
      · rw [hphase] at hlive
        cases hlive
      · have hlive := Phase.live_of_next hstep
        rw [hphase] at hlive
        cases hlive
  | ack e =>
    obtain ⟨hmain, -, habort, htasks, -⟩ := stepAck_frame h
    refine ⟨habort ▸ hs.unaborted, hmain ▸ hs.waiting, fun hd => htasks ▸ hs.joined (hmain ▸ hd), fun hd => ?_⟩
    have hnone := stepAck_of_done (e := e) (hs.flushed (hmain ▸ hd))
    exact absurd (hnone.symm.trans h) nofun

end Zizq.Worker
