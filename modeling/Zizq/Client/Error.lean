import Mathlib.Data.String.Basic

/-! Errors of the client, and how they are classified.

Every answer of the server that is not a success is one `response` error that
carries its status; the predicates read the status back. -/
namespace Zizq.Client

inductive ZizqError where
  | missingUrl
  | invalidUrl (source : String)
  | transport (source : String)
  | response (status : Nat) (message : String)
  | encode (message : String)
  | decode (message : String)
  | missingClient
  | missingHandler
  | missingPatch
  | tls (message : String)
deriving DecidableEq

namespace ZizqError

def status : ZizqError → Option Nat
  | .response status _ => some status
  | _ => none

def isNotFound (e : ZizqError) : Bool := e.status = some 404

def isConflict (e : ZizqError) : Bool := e.status = some 409

def isForbidden (e : ZizqError) : Bool := e.status = some 403

def isInvalidRequest (e : ZizqError) : Bool := e.status = some 400 || e.status = some 422

def isUnsupportedFormat (e : ZizqError) : Bool := e.status = some 406 || e.status = some 415

/-- Any `4xx`. -/
def isClientError (e : ZizqError) : Bool := e.status.any fun s => 400 ≤ s && s ≤ 499

/-- Any `5xx`. -/
def isServerError (e : ZizqError) : Bool := e.status.any fun s => 500 ≤ s && s ≤ 599

def isTransport : ZizqError → Bool
  | .transport _ => true
  | _ => false

/-- Whether the same request is worth sending again. -/
def isRetryable (e : ZizqError) : Bool := e.isTransport || e.isServerError

theorem isRetryable_iff {e : ZizqError} :
    e.isRetryable = true ↔
      (∃ source, e = .transport source) ∨ ∃ status message, e = .response status message ∧
        500 ≤ status ∧ status ≤ 599 := by
  cases e <;> simp [isRetryable, isTransport, isServerError, status]

theorem isClientError_iff {e : ZizqError} :
    e.isClientError = true ↔
      ∃ status message, e = .response status message ∧ 400 ≤ status ∧ status ≤ 499 := by
  cases e <;> simp [isClientError, status]

/-- Every status with a predicate of its own is a client error. -/
theorem isClientError_of_named {e : ZizqError} (h : e.isNotFound = true ∨ e.isConflict = true ∨
    e.isForbidden = true ∨ e.isInvalidRequest = true ∨ e.isUnsupportedFormat = true) :
    e.isClientError = true := by
  cases e with
  | response status message =>
    refine isClientError_iff.mpr ⟨status, message, rfl, ?_⟩
    simp only [isNotFound, isConflict, isForbidden, isInvalidRequest, isUnsupportedFormat,
      ZizqError.status, Option.some.injEq, Bool.or_eq_true, decide_eq_true_eq] at h
    omega
  | _ => simp [isNotFound, isConflict, isForbidden, isInvalidRequest, isUnsupportedFormat, status] at h

/-- No error is both worth another try and the client's own fault. -/
theorem not_isClientError_of_isRetryable {e : ZizqError} (h : e.isRetryable = true) :
    e.isClientError = false := by
  rw [Bool.eq_false_iff]
  intro hclient
  obtain ⟨status, message, rfl, hlow, hhigh⟩ := isClientError_iff.mp hclient
  rcases isRetryable_iff.mp h with ⟨source, heq⟩ | ⟨status', message', heq, hlow', -⟩
  · cases heq
  · cases heq
    omega

end ZizqError

end Zizq.Client
