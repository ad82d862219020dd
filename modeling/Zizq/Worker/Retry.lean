import Zizq.Client.Response

/-! The retry loops of the worker.

The ack processor and a failing job's task send one request again and again until
an outcome ends the loop. Both loops end on a success and on a `4xx` and go on
after every other error. The published policy is to send again exactly after a
retryable error, a transport failure or a `5xx`; `followsPolicy_iff` says on which
outcomes the two agree. -/
namespace Zizq.Worker
open Client
variable {ρ α : Type}

/-! ### The loops -/

/-- Milliseconds. -/
def initialBackoff : Nat := 500

def maxBackoff : Nat := 30000

def nextBackoff (current : Nat) : Nat := min (current * 2) maxBackoff

inductive Verdict where
  | stop | retry
deriving DecidableEq

/-- The match on the outcome of a request in either loop. -/
def verdict : Except ZizqError α → Verdict
  | .ok _ => .stop
  | .error e => if e.isClientError then .stop else .retry

/-- What a retry loop does, one thing after another. -/
inductive Act (ρ : Type) where
  | send (request : ρ)
  | sleep (millis : Nat)
  | done
deriving DecidableEq

/-- A loop that has not seen an outcome yet is waiting for the answer to the request it sent. -/
def retryLoop (request : ρ) (backoff : Nat) : List (Except ZizqError α) → List (Act ρ)
  | [] => [.send request]
  | outcome :: outcomes =>
    .send request ::
      match verdict outcome with
      | .stop => [.done]
      | .retry => .sleep backoff :: retryLoop request (nextBackoff backoff) outcomes

/-- The bulk-ack loop of `ack_processor` over one batch. -/
def ackLoop (batch : List String) (outcomes : List (Except ZizqError Unit)) : List (Act (List String)) :=
  retryLoop batch initialBackoff outcomes

structure HandlerError where
  message : String
  typeName : String
deriving DecidableEq

/-- The request of `report_failure(..).error_type(..)`. -/
def failureRequest (err : HandlerError) : FailureRequest where
  message := err.message
  errorType := some err.typeName
  backtrace := none
  retryAt := none
  kill := false

/-- The failure-report loop of `handle_job`. -/
def failureLoop (jobId : String) (err : HandlerError) (outcomes : List (Except ZizqError α)) :
    List (Act (String × FailureRequest)) :=
  retryLoop (jobId, failureRequest err) initialBackoff outcomes

/-! ### The policy -/

def sends (acts : List (Act ρ)) : List ρ :=
  acts.filterMap fun
    | .send request => some request
    | _ => none

/-- An error for which the same request is worth sending again. -/
def Retryable (outcome : Except ZizqError α) : Prop := ∃ e, outcome = .error e ∧ e.isRetryable = true

/-- The same request goes out again after an outcome exactly when that is a retryable error, and
after any other the loop is over. -/
structure FollowsPolicy (request : ρ) (outcomes : List (Except ZizqError α)) (acts : List (Act ρ)) :
    Prop where
  same : ∀ r ∈ sends acts, r = request
  again : ∀ (i : Nat) (outcome : Except ZizqError α), outcomes[i]? = some outcome →
    i < (sends acts).length → (i + 1 < (sends acts).length ↔ Retryable outcome)
  ends : ∀ (i : Nat) (outcome : Except ZizqError α), outcomes[i]? = some outcome →
    i < (sends acts).length → ¬ Retryable outcome → acts.getLast? = some .done

/-- The first outcome that is not a retryable error, if there is one, is a success or a `4xx`. -/
def Settles (outcomes : List (Except ZizqError α)) : Prop :=
  ∀ (i : Nat) (outcome : Except ZizqError α), outcomes[i]? = some outcome →
    (∀ (j : Nat) (earlier : Except ZizqError α), j < i → outcomes[j]? = some earlier → Retryable earlier) →
    ¬ Retryable outcome →
    (∃ a, outcome = .ok a) ∨ ∃ e, outcome = .error e ∧ e.isClientError = true

theorem verdict_stop_iff {outcome : Except ZizqError α} :
    verdict outcome = .stop ↔ (∃ a, outcome = .ok a) ∨ ∃ e, outcome = .error e ∧ e.isClientError = true := by
  cases outcome with
  | ok a => simp [verdict]
  | error e => cases h : e.isClientError <;> simp [verdict, h]

theorem not_retryable_of_stop {outcome : Except ZizqError α} (h : verdict outcome = .stop) :
    ¬ Retryable outcome := by
  rintro ⟨e, rfl, he⟩
  rcases verdict_stop_iff.mp h with ⟨a, heq⟩ | ⟨e', heq, hclient⟩
  · cases heq
  · cases heq
    rw [ZizqError.not_isClientError_of_isRetryable he] at hclient
    cases hclient

theorem settles_nil : Settles ([] : List (Except ZizqError α)) := fun i outcome h => by simp at h

theorem settles_cons_iff {outcome : Except ZizqError α} {outcomes : List (Except ZizqError α)} :
    Settles (outcome :: outcomes) ↔
      (Retryable outcome → Settles outcomes) ∧ (¬ Retryable outcome → verdict outcome = .stop) := by
  constructor
  · intro h
    constructor
    · intro hretry i o hi hearlier hnot
      refine h (i + 1) o (by simpa using hi) (fun j earlier hj he => ?_) hnot
      cases j with
      | zero => exact Option.some.inj (by simpa using he) ▸ hretry
      | succ j => exact hearlier j earlier (by omega) (by simpa using he)
    · intro hnot
      exact verdict_stop_iff.mpr (h 0 outcome rfl (fun j _ hj => absurd hj (by omega)) hnot)
  · rintro ⟨hgo, hstop⟩ i o hi hearlier hnot
    cases i with
    | zero =>
      obtain rfl : outcome = o := Option.some.inj hi
      exact verdict_stop_iff.mp (hstop hnot)
    | succ i =>
      have hretry : Retryable outcome := hearlier 0 outcome (by omega) rfl
      refine hgo hretry i o (by simpa using hi) (fun j earlier hj he => ?_) hnot
      exact hearlier (j + 1) earlier (by omega) (by simpa using he)

/-! ### The loops against the policy -/

section Loop
variable (request : ρ) (backoff : Nat)

theorem retryLoop_stop {outcome : Except ZizqError α} (outcomes : List (Except ZizqError α))
    (h : verdict outcome = .stop) :
    retryLoop request backoff (outcome :: outcomes) = [.send request, .done] := by
  rw [retryLoop, h]

theorem retryLoop_retry {outcome : Except ZizqError α} (outcomes : List (Except ZizqError α))
    (h : verdict outcome = .retry) :
    retryLoop request backoff (outcome :: outcomes) =
      .send request :: .sleep backoff :: retryLoop request (nextBackoff backoff) outcomes := by
  rw [retryLoop, h]

theorem sends_pos (outcomes : List (Except ZizqError α)) :
    0 < (sends (retryLoop request backoff outcomes)).length := by
  cases outcomes <;> simp [retryLoop, sends]

theorem sends_retry {outcome : Except ZizqError α} (outcomes : List (Except ZizqError α))
    (h : verdict outcome = .retry) :
    sends (retryLoop request backoff (outcome :: outcomes)) =
      request :: sends (retryLoop request (nextBackoff backoff) outcomes) := by
  rw [retryLoop_retry request backoff outcomes h]
  rfl

theorem followsPolicy_stop {outcome : Except ZizqError α} (outcomes : List (Except ZizqError α))
    (h : verdict outcome = .stop) :
    FollowsPolicy request (outcome :: outcomes) (retryLoop request backoff (outcome :: outcomes)) := by
  have hfirst {i : Nat} {o : Except ZizqError α} (hi : (outcome :: outcomes)[i]? = some o) (hlt : i < 1) :
      o = outcome := by
    obtain rfl : i = 0 := by omega
    exact (Option.some.inj hi).symm
  rw [retryLoop_stop request backoff outcomes h]
  refine ⟨by simp [sends], fun i o hi hlt => ?_, fun i o hi hlt _ => rfl⟩
  rw [hfirst hi hlt]
  exact iff_of_false (by simp [sends]) (not_retryable_of_stop h)

theorem followsPolicy_cons_iff {outcome : Except ZizqError α} {outcomes : List (Except ZizqError α)}
    (h : verdict outcome = .retry) (hretry : Retryable outcome) :
    FollowsPolicy request (outcome :: outcomes) (retryLoop request backoff (outcome :: outcomes)) ↔
      FollowsPolicy request outcomes (retryLoop request (nextBackoff backoff) outcomes) := by
  have hsends := sends_retry request backoff outcomes h
  have hlast : (retryLoop request backoff (outcome :: outcomes)).getLast? =
      (retryLoop request (nextBackoff backoff) outcomes).getLast? := by
    have hne : retryLoop request (nextBackoff backoff) outcomes ≠ [] := by
      cases outcomes <;> simp [retryLoop]
    obtain ⟨act, acts, hacts⟩ := List.exists_cons_of_ne_nil hne
    rw [retryLoop_retry request backoff outcomes h, hacts, List.getLast?_cons_cons,
      List.getLast?_cons_cons]
  have hpos := sends_pos request (nextBackoff backoff) outcomes
  constructor
  · rintro ⟨hsame, hagain, hends⟩
    rw [hsends] at hsame hagain hends
    refine ⟨fun r hr => hsame r (List.mem_cons_of_mem _ hr), fun i o hi hlt => ?_, fun i o hi hlt hnot => ?_⟩
    · have := hagain (i + 1) o (by simpa using hi) (by simpa using hlt)
      simpa using this
    · rw [← hlast]
      exact hends (i + 1) o (by simpa using hi) (by simpa using hlt) hnot
  · rintro ⟨hsame, hagain, hends⟩
    refine ⟨?_, fun i o hi hlt => ?_, fun i o hi hlt hnot => ?_⟩
    · rw [hsends]
      exact List.forall_mem_cons.mpr ⟨rfl, hsame⟩
    · rw [hsends] at hlt ⊢
      cases i with
      | zero =>
        obtain rfl : outcome = o := Option.some.inj hi
        exact iff_of_true (by simpa using hpos) hretry
      | succ i => simpa using hagain i o (by simpa using hi) (by simpa using hlt)
    · rw [hlast]
      rw [hsends] at hlt
      cases i with
      | zero =>
        obtain rfl : outcome = o := Option.some.inj hi
        exact absurd hretry hnot
      | succ i => exact hends i o (by simpa using hi) (by simpa using hlt) hnot

theorem retryLoop_followsPolicy_iff (outcomes : List (Except ZizqError α)) :
    FollowsPolicy request outcomes (retryLoop request backoff outcomes) ↔ Settles outcomes := by
  induction outcomes generalizing backoff with
  | nil =>
    refine iff_of_true ⟨by simp [retryLoop, sends], fun i o hi => ?_, fun i o hi => ?_⟩ settles_nil
    · simp at hi
    · simp at hi
  | cons outcome outcomes ih =>
    rw [settles_cons_iff]
    cases h : verdict outcome with
    | stop =>
      exact iff_of_true (followsPolicy_stop request backoff outcomes h)
        ⟨fun hretry => absurd hretry (not_retryable_of_stop h), fun _ => rfl⟩
    | retry =>
      by_cases hretry : Retryable outcome
      · rw [followsPolicy_cons_iff request backoff h hretry, ih]
        simp [hretry]
      · refine iff_of_false (fun hpolicy => ?_) fun hsettles => nomatch hsettles.2 hretry
        -- the loop goes on after an error that the policy gives up on
        have hsends := sends_retry request backoff outcomes h
        have hpos := sends_pos request (nextBackoff backoff) outcomes
        exact hretry ((hpolicy.again 0 outcome rfl (by simp [hsends])).mp (by simpa [hsends] using hpos))

end Loop

/-- **Main theorem.** Either loop follows the policy exactly on the outcomes whose first one that is
not retryable, if any, is a success or a `4xx`. -/
theorem followsPolicy_iff (batch : List String) (acks : List (Except ZizqError Unit)) (jobId : String)
    (err : HandlerError) (reports : List (Except ZizqError α)) :
    (FollowsPolicy batch acks (ackLoop batch acks) ↔ Settles acks) ∧
    (FollowsPolicy (jobId, failureRequest err) reports (failureLoop jobId err reports) ↔
      Settles reports) :=
  ⟨retryLoop_followsPolicy_iff batch initialBackoff acks,
    retryLoop_followsPolicy_iff (jobId, failureRequest err) initialBackoff reports⟩

/-! ### The traffic of a loop -/

/-- A request that goes out, or the outcome of the one that went out last. -/
inductive Try (ρ α : Type) where
  | start (request : ρ)
  | answer (outcome : Except ZizqError α)

/-- One request sent once for each outcome. -/
def tries (request : ρ) (outcomes : List (Except ZizqError α)) : List (Try ρ α) :=
  outcomes.flatMap fun outcome => [.start request, .answer outcome]

/-- A success, or an answer with a `4xx`. -/
def Final (outcome : Except ZizqError α) : Prop :=
  (∃ a, outcome = .ok a) ∨
    ∃ status message, outcome = .error (.response status message) ∧ 400 ≤ status ∧ status ≤ 499

/-- No outcome is a success or a `4xx`. -/
def Retried (outcomes : List (Except ZizqError α)) : Prop := ∀ outcome ∈ outcomes, ¬ Final outcome

/-- The last outcome is a success or a `4xx`, and none before it is. -/
def Ended (outcomes : List (Except ZizqError α)) : Prop :=
  ∃ earlier last, outcomes = earlier ++ [last] ∧ Retried earlier ∧ Final last

theorem final_iff {outcome : Except ZizqError α} : Final outcome ↔ verdict outcome = .stop := by
  rw [verdict_stop_iff]
  refine or_congr Iff.rfl ⟨?_, ?_⟩
  · rintro ⟨status, message, rfl, hstatus⟩
    exact ⟨_, rfl, ZizqError.isClientError_iff.mpr ⟨status, message, rfl, hstatus⟩⟩
  · rintro ⟨e, rfl, hclient⟩
    obtain ⟨status, message, rfl, hstatus⟩ := ZizqError.isClientError_iff.mp hclient
    exact ⟨status, message, rfl, hstatus⟩

theorem tries_concat (request : ρ) (outcomes : List (Except ZizqError α)) (outcome : Except ZizqError α) :
    tries request (outcomes ++ [outcome]) = tries request outcomes ++ [.start request, .answer outcome] := by
  simp [tries]

theorem start_mem_tries {request request' : ρ} {outcomes : List (Except ZizqError α)}
    (h : Try.start request' ∈ tries request outcomes) : request' = request := by
  simp only [tries, List.mem_flatMap, List.mem_cons, List.not_mem_nil, reduceCtorEq, or_false,
    Try.start.injEq] at h
  exact h.choose_spec.2

theorem retried_concat {outcomes : List (Except ZizqError α)} {outcome : Except ZizqError α}
    (h : Retried outcomes) (hlast : verdict outcome = .retry) : Retried (outcomes ++ [outcome]) := by
  intro o ho
  rcases List.mem_append.mp ho with ho | ho
  · exact h o ho
  · rw [List.mem_singleton.mp ho, final_iff, hlast]
    exact nofun

/-- Codecs that accept everything. -/
def plainCodec : Codec Unit where
  encodeIds _ _ := .ok []
  encodeFailure _ _ := .ok []
  decodeApiError _ _ := none
  decodeJob _ _ := .ok ()
  lossy _ := ""

/-- A bulk ack answered with `200` is sent again, though its error is not retryable. -/
theorem not_followsPolicy_status_200 :
    let outcome := reportSuccessBulk plainCodec .json ["job-1"] (.ok ⟨200, none, .ok []⟩)
    ¬ FollowsPolicy ["job-1"] [outcome] (ackLoop ["job-1"] [outcome]) := by
  rintro outcome ⟨-, hagain, -⟩
  obtain ⟨e, he, hretry⟩ := (hagain 0 outcome rfl (by decide)).mp (by decide)
  have hstatus : outcome = .error (.response 200 "") := rfl
  obtain rfl := Except.error.inj (he.symm.trans hstatus)
  exact absurd hretry (by decide)

/-! ### The loops against the exchanges -/

/-- The ack loop goes on after an answered request exactly when the ids could not be encoded, or the
status is neither accepted nor a `4xx`, or its error body did not arrive. -/
theorem verdict_reportSuccessBulk_iff {J : Type} (codec : Codec J) (configured : Format)
    (ids : List String) (response : Response) :
    verdict (reportSuccessBulk codec configured ids (.ok response)) = .retry ↔
      (∃ message, codec.encodeIds configured ids = .error message) ∨
        response.status ≠ 204 ∧ response.status ≠ 422 ∧
          ((∃ source, response.body = .error source) ∨ response.status < 400 ∨ 499 < response.status) := by
  cases hids : codec.encodeIds configured ids with
  | error message => simp [reportSuccessBulk, hids, verdict, ZizqError.isClientError, ZizqError.status]
  | ok bytes =>
    by_cases hmem : response.status ∈ [204, 422]
    · have hstatus : ¬ (response.status ≠ 204 ∧ response.status ≠ 422) := by
        have : response.status = 204 ∨ response.status = 422 := by simpa using hmem
        omega
      simp [reportSuccessBulk, hids, expectStatus, hmem, verdict, ← and_assoc, hstatus]
    · have hstatus : response.status ≠ 204 ∧ response.status ≠ 422 := by simpa using hmem
      cases hbody : response.body with
      | error source =>
        simp [reportSuccessBulk, hids, expectStatus, hmem, hbody, hstatus, verdict,
          ZizqError.isClientError, ZizqError.status]
      | ok body =>
        simp only [reportSuccessBulk, hids, expectStatus, hmem, hbody, if_false, verdict,
          ZizqError.isClientError, ZizqError.status, Option.any_some, Bool.and_eq_true,
          decide_eq_true_eq, ne_eq, hstatus, not_false_eq_true, true_and, reduceCtorEq, exists_false,
          false_or]
        split
        · next hclient =>
          refine iff_of_false (by simp) ?_
          omega
        · next hclient =>
          refine iff_of_true rfl ?_
          omega

/-- The report loop goes on after an answered request exactly when the report could not be encoded, or
the body did not arrive, or it was a success whose job could not be decoded, or the status is neither a
success nor a `4xx`. -/
theorem verdict_reportFailureRaw_iff {J : Type} (codec : Codec J) (configured : Format)
    (req : FailureRequest) (response : Response) :
    verdict (reportFailureRaw codec configured req (.ok response)) = .retry ↔
      (∃ message, codec.encodeFailure configured req = .error message) ∨
        (∃ source, response.body = .error source) ∨
        ∃ body, response.body = .ok body ∧
          (response.isSuccess = true ∧ (∃ message, codec.decodeJob (responseFormat configured response) body =
            .error message) ∨
          response.isSuccess = false ∧ (response.status < 400 ∨ 499 < response.status)) := by
  cases hreq : codec.encodeFailure configured req with
  | error message => simp [reportFailureRaw, hreq, verdict, ZizqError.isClientError, ZizqError.status]
  | ok bytes =>
    cases hbody : response.body with
    | error source =>
      simp [reportFailureRaw, hreq, parseJobResponse, hbody, verdict, ZizqError.isClientError,
        ZizqError.status]
    | ok body =>
      cases hsuccess : response.isSuccess with
      | true =>
        cases hjob : codec.decodeJob (responseFormat configured response) body <;>
          simp [reportFailureRaw, hreq, parseJobResponse, hbody, hsuccess, hjob, Except.mapError, verdict,
            ZizqError.isClientError, ZizqError.status]
      | false =>
        simp [reportFailureRaw, hreq, parseJobResponse, hbody, hsuccess, verdict, ZizqError.isClientError,
          ZizqError.status]
        omega

end Zizq.Worker
