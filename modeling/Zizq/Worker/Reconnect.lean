import Zizq.Worker.Machine

/-! When the dispatch loop gives up.

With reconnecting on, neither the end of a stream nor a stream error ends the loop,
and of the connect outcomes only a `4xx` does. The documentation allows that for the
initial connect; the code makes no difference between the first attempt and the
later ones (`documented_iff`). -/
namespace Zizq.Worker
open Client Data

variable {worker : Worker} {s s' : State} {es : List Event}

/-- The outcomes of the attempts to open a take stream. -/
def connects (es : List Event) : List (Except ZizqError Unit) :=
  es.filterMap fun
    | .main .connected => some (.ok ())
    | .main (.connectFailed e) => some (.error e)
    | _ => none

/-- The outcome that ends the loop although reconnecting is on. -/
def Hard (outcome : Except ZizqError Unit) : Prop := ∃ e, outcome = .error e ∧ e.isClientError = true

/-- The loop is left only for a `4xx` at the initial connect, and never once a session has been
established. -/
structure Documented (es : List Event) (s : State) : Prop where
  initial : s.main.looping = false → ∃ outcome, connects es = [outcome] ∧ Hard outcome
  established : .ok () ∈ connects es → s.main.looping = true

/-! ### One step of the dispatcher -/

theorem connects_append (h h' : List Event) : connects (h ++ h') = connects h ++ connects h' :=
  List.filterMap_append

/-- Outside the loop no stream is opened, and the loop is not entered again. -/
theorem stepMain_left {e : MainEvent} (h : stepMain worker s e = some s') (hleft : s.main.looping = false) :
    s'.main.looping = false ∧ connects [.main e] = [] := by
  cases stepMain_cases h with
  | joined => exact ⟨hleft, rfl⟩
  | drained | flushed | deadline | aborted | dropped | returned => exact ⟨rfl, rfl⟩
  | shutdown hmain => rcases hmain with hmain | hmain <;> cases hmain ▸ hleft
  | _ hmain => cases hmain ▸ hleft

/-- Without a shutdown only a hard connect outcome leaves the loop. -/
theorem stepMain_looping {e : MainEvent} (h : stepMain worker s e = some s')
    (hreconnect : worker.reconnect = true) (he : e ≠ .shutdown) (hlooping : s.main.looping = true) :
    s'.main.looping = true ∧ (∀ outcome ∈ connects [.main e], ¬ Hard outcome) ∨
      s'.main.looping = false ∧ ∃ outcome, connects [.main e] = [outcome] ∧ Hard outcome := by
  cases stepMain_cases h with
  | connected => exact .inl ⟨rfl, by simp [connects, Hard]⟩
  | connectRefused _ hhard =>
    have hclient : _ = true := hhard.resolve_right fun hnot => hnot hreconnect
    exact .inr ⟨rfl, _, rfl, _, rfl, hclient⟩
  | connectFailed _ hsoft => exact .inl ⟨rfl, by simpa [connects, Hard, hreconnect] using hsoft⟩
  | shutdown => exact absurd rfl he
  | joined => exact .inl ⟨hlooping, nofun⟩
  | pulled | spawned | slept => exact .inl ⟨rfl, nofun⟩
  | streamEnded | streamFailed => exact .inl ⟨by rw [if_pos hreconnect]; rfl, nofun⟩
  | deadline hmain => rcases hmain with hmain | hmain <;> cases hmain ▸ hlooping
  | _ hmain => cases hmain ▸ hlooping

/-! ### Every run -/

/-- As long as the loop goes on no outcome was hard; once it is left, the last one was. -/
structure Attempted (es : List Event) (s : State) : Prop where
  going : s.main.looping = true → ∀ outcome ∈ connects es, ¬ Hard outcome
  left : s.main.looping = false →
    ∃ earlier last, connects es = earlier ++ [last] ∧ Hard last ∧ ∀ outcome ∈ earlier, ¬ Hard outcome

theorem attempted_step {h : List Event} {e : Event} (hs : Attempted h s)
    (hreconnect : worker.reconnect = true) (he : e ≠ .main .shutdown) (hstep : step worker s e = some s') :
    Attempted (h ++ [e]) s' := by
  have hother (hmain : s'.main = s.main) (hnone : connects [e] = []) : Attempted (h ++ [e]) s' := by
    have heq : connects (h ++ [e]) = connects h := by rw [connects_append, hnone, List.append_nil]
    exact ⟨fun hgoing => heq ▸ hs.going (hmain ▸ hgoing), fun hleft => heq ▸ hs.left (hmain ▸ hleft)⟩
  cases e with
  | main e =>
    cases hlooping : s.main.looping with
    | true =>
      rcases stepMain_looping hstep hreconnect (fun heq => he (heq ▸ rfl)) hlooping with
        ⟨hgoing, hnone⟩ | ⟨hleft, outcome, heq, hhard⟩
      · refine ⟨fun _ outcome hmem => ?_, fun hleft => absurd (hgoing.symm.trans hleft) nofun⟩
        rw [connects_append] at hmem
        exact (List.mem_append.mp hmem).elim (hs.going hlooping outcome) (hnone outcome)
      · refine ⟨fun hgoing => absurd (hgoing.symm.trans hleft) nofun, fun _ => ?_⟩
        exact ⟨connects h, outcome, by rw [connects_append, heq], hhard, hs.going hlooping⟩
    | false =>
      obtain ⟨hleft, hnone⟩ := stepMain_left hstep hlooping
      refine ⟨fun hgoing => absurd (hgoing.symm.trans hleft) nofun, fun _ => ?_⟩
      rw [connects_append, hnone, List.append_nil]
      exact hs.left hlooping
  | task i e =>
    obtain ⟨task, task', -, -, -, rfl⟩ := stepTask_eq_some.mp hstep
    exact hother rfl rfl
  | ack e => exact hother (stepAck_frame hstep).1 rfl

theorem Execution.attempted (h : Execution worker es s) (hreconnect : worker.reconnect = true)
    (hshutdown : .main .shutdown ∉ es) : Attempted es s := by
  have hrule : ∀ e ∈ es, e ≠ .main .shutdown := fun e he heq => hshutdown (heq ▸ he)
  refine h.always hrule ⟨fun _ _ hmem => absurd hmem List.not_mem_nil, nofun⟩ fun h s e s' he hs hstep => ?_
  exact attempted_step hs hreconnect he hstep

/-- **Main theorem.** In a run before the shutdown, with reconnecting on, the loop keeps to the
documentation exactly when no connect attempt after the first is answered with a `4xx`. -/
theorem documented_iff (h : Execution worker es s) (hreconnect : worker.reconnect = true)
    (hshutdown : .main .shutdown ∉ es) :
    Documented es s ↔ ∀ outcome ∈ (connects es).tail, ¬ Hard outcome := by
  have hattempted := h.attempted hreconnect hshutdown
  cases hlooping : s.main.looping with
  | true =>
    refine iff_of_true ⟨fun hleft => absurd (hlooping.symm.trans hleft) nofun, fun _ => hlooping⟩ ?_
    exact fun outcome hmem => hattempted.going hlooping outcome (List.mem_of_mem_tail hmem)
  | false =>
    obtain ⟨earlier, last, heq, hhard, hearlier⟩ := hattempted.left hlooping
    constructor
    · intro hdoc outcome hmem
      obtain ⟨first, hfirst, -⟩ := hdoc.initial hlooping
      rw [hfirst] at hmem
      cases hmem
    · intro htail
      have hnil : earlier = [] := by
        cases earlier with
        | nil => rfl
        | cons outcome earlier =>
          refine absurd hhard (htail last ?_)
          rw [heq]
          exact List.mem_append_right _ (List.mem_singleton_self _)
      rw [hnil, List.nil_append] at heq
      refine ⟨fun _ => ⟨last, heq, hhard⟩, fun hmem => ?_⟩
      rw [heq, List.mem_singleton] at hmem
      obtain ⟨e, he, -⟩ := hhard
      cases hmem.trans he

/-- An initial connect that is forbidden ends the worker, as documented. -/
theorem documented_iff_forbidden :
    let es : List Event := [.main (.connectFailed (.response 403 "forbidden"))]
    ∃ s, Execution ⟨1, 1, true⟩ es s ∧ (Documented es s ↔ ∀ outcome ∈ (connects es).tail, ¬ Hard outcome) := by
  intro es
  have h : ∃ s, Execution ⟨1, 1, true⟩ es s := ⟨_, _, rfl, rfl⟩
  obtain ⟨s, hs⟩ := h
  exact ⟨s, hs, documented_iff hs rfl (by simp [es])⟩

/-- A worker whose stream has ended is turned away for once as it reconnects, and ends. -/
theorem not_documented_reconnect : ¬ ∀ (worker : Worker) (es : List Event) (s : State),
    worker.reconnect = true → Execution worker es s → .main .shutdown ∉ es → Documented es s := by
  intro h
  let es : List Event := [.main .connected, .main .streamEnded, .main .slept,
    .main (.connectFailed (.response 429 "too many requests"))]
  have hdoc := h ⟨1, 1, true⟩ es _ rfl ⟨_, rfl, rfl⟩ (by simp [es])
  exact absurd (hdoc.established (List.mem_cons_self ..)) (by decide)

end Zizq.Worker
