import Mathlib.Data.List.Induction
import Zizq.Client.Builder
import Zizq.Worker.Machine

/-! The worker builder.

One optional field holds the prefetch limit, whether it was given or taken over from
a `concurrency` call; the first such call fills it, and later ones leave it. So it
ends as the last explicit limit, else as the first concurrency, else as the default
(`assemble_prefetch`). The two main results read this back: when the limit follows the
concurrency (`follows_iff`), and when `run` can create its ack channel
(`channel_iff`), for no call checks the limit. -/
namespace Zizq.Worker
open Client Patch
variable {κ η : Type}

structure WorkerBuilder (κ η : Type) where
  client : Option κ := none
  handler : Option η := none
  concurrency : UInt64 := 1
  queues : List String := []
  prefetch : Option UInt64 := none
  reconnect : Bool := true
  shutdownTimeout : Duration := seconds 60

/-- A worker with what its parts are given. -/
structure Configured (κ η : Type) extends Worker where
  client : κ
  handler : η
  queues : List String
  shutdownTimeout : Duration

/-- A call of a setter; the numbers are 64-bit `usize`s. -/
inductive BuilderCall (κ η : Type) where
  | client (client : κ)
  | handler (handler : η)
  | concurrency (n : UInt64)
  | queues (queues : List String)
  | prefetch (n : UInt64)
  | reconnect (enabled : Bool)
  | shutdownTimeout (d : Duration)

namespace WorkerBuilder

def setConcurrency (n : UInt64) (builder : WorkerBuilder κ η) : WorkerBuilder κ η :=
  let builder := { builder with concurrency := max n 1 }
  if builder.prefetch.isNone then { builder with prefetch := some builder.concurrency } else builder

@[simp] theorem setConcurrency_concurrency (n : UInt64) (builder : WorkerBuilder κ η) :
    (builder.setConcurrency n).concurrency = max n 1 := by
  unfold setConcurrency
  cases builder.prefetch <;> rfl

@[simp] theorem setConcurrency_prefetch (n : UInt64) (builder : WorkerBuilder κ η) :
    (builder.setConcurrency n).prefetch = builder.prefetch.or (some (max n 1)) := by
  unfold setConcurrency
  cases builder.prefetch <;> rfl

def apply (builder : WorkerBuilder κ η) : BuilderCall κ η → WorkerBuilder κ η
  | .client client => { builder with client := some client }
  | .handler handler => { builder with handler := some handler }
  | .concurrency n => builder.setConcurrency n
  | .queues queues => { builder with queues := queues }
  | .prefetch n => { builder with prefetch := some n }
  | .reconnect enabled => { builder with reconnect := enabled }
  | .shutdownTimeout d => { builder with shutdownTimeout := d }

/-- The builder after a chain of setters. -/
def assemble (calls : List (BuilderCall κ η)) : WorkerBuilder κ η := calls.foldl apply {}

def build (builder : WorkerBuilder κ η) : Except ZizqError (Configured κ η) :=
  match builder.client, builder.handler with
  | none, _ => .error .missingClient
  | some _, none => .error .missingHandler
  | some client, some handler =>
    .ok
      { client := client
        handler := handler
        concurrency := builder.concurrency.toNat
        queues := builder.queues
        prefetch := (builder.prefetch.getD builder.concurrency).toNat
        reconnect := builder.reconnect
        shutdownTimeout := builder.shutdownTimeout }

end WorkerBuilder

/-! ### What the setters leave -/

/-- The explicit limits. -/
def prefetches (calls : List (BuilderCall κ η)) : List UInt64 :=
  calls.filterMap fun
    | .prefetch n => some n
    | _ => none

/-- The concurrencies, with a zero raised to one. -/
def concurrencies (calls : List (BuilderCall κ η)) : List UInt64 :=
  calls.filterMap fun
    | .concurrency n => some (max n 1)
    | _ => none

theorem assemble_concat (calls : List (BuilderCall κ η)) (call : BuilderCall κ η) :
    WorkerBuilder.assemble (calls ++ [call]) = (WorkerBuilder.assemble calls).apply call := by
  simp [WorkerBuilder.assemble]

theorem assemble_concurrency (calls : List (BuilderCall κ η)) :
    (WorkerBuilder.assemble calls).concurrency = (concurrencies calls).getLast?.getD 1 := by
  induction calls using List.reverseRecOn with
  | nil => rfl
  | append_singleton calls call ih =>
    rw [assemble_concat, concurrencies, List.filterMap_append]
    cases call with
    | concurrency n => simp [WorkerBuilder.apply]
    | _ => simpa [WorkerBuilder.apply, concurrencies] using ih

theorem assemble_prefetch (calls : List (BuilderCall κ η)) :
    (WorkerBuilder.assemble calls).prefetch =
      (prefetches calls).getLast?.or (concurrencies calls).head? := by
  induction calls using List.reverseRecOn with
  | nil => rfl
  | append_singleton calls call ih =>
    rw [assemble_concat, prefetches, concurrencies, List.filterMap_append, List.filterMap_append]
    cases call with
    | concurrency n =>
      rw [WorkerBuilder.apply, WorkerBuilder.setConcurrency_prefetch, ih, List.head?_append, Option.or_assoc]
      simp [prefetches, concurrencies]
    | prefetch n => simp [WorkerBuilder.apply]
    | _ => simpa [WorkerBuilder.apply, concurrencies, prefetches] using ih

/-- The argument that becomes the limit: the last explicit one, else the first concurrency. -/
def deciding (calls : List (BuilderCall κ η)) : UInt64 :=
  ((prefetches calls).getLast?.or (concurrencies calls).head?).getD 1

/-- The worker's two limits, by the calls. -/
theorem build_limits {calls : List (BuilderCall κ η)} {worker : Configured κ η}
    (h : (WorkerBuilder.assemble calls).build = .ok worker) :
    worker.concurrency = ((concurrencies calls).getLast?.getD 1).toNat ∧
      worker.prefetch = (deciding calls).toNat := by
  have hconcurrency := assemble_concurrency calls
  have hprefetch := assemble_prefetch calls
  generalize WorkerBuilder.assemble calls = builder at h hconcurrency hprefetch
  unfold WorkerBuilder.build at h
  split at h
  · cases h
  · cases h
  · obtain rfl := Except.ok.inj h
    refine ⟨congrArg UInt64.toNat hconcurrency, congrArg UInt64.toNat ?_⟩
    rw [hprefetch, hconcurrency, deciding]
    -- without a first concurrency there is no last one
    cases hcalls : concurrencies calls <;> cases (prefetches calls).getLast? <;> rfl

/-! ### The two results -/

/-- **Main theorem.** The limit of a worker is its last explicit one, or else its concurrency, exactly
when there is an explicit one or the first concurrency is also the last. -/
theorem follows_iff (calls : List (BuilderCall κ η)) {worker : Configured κ η}
    (h : (WorkerBuilder.assemble calls).build = .ok worker) :
    (worker.prefetch = ((prefetches calls).getLast?.map UInt64.toNat).getD worker.concurrency ∧
        (prefetches calls = [] → worker.concurrency ≤ worker.prefetch)) ↔
      prefetches calls ≠ [] ∨ (concurrencies calls).head? = (concurrencies calls).getLast? := by
  obtain ⟨hconcurrency, hprefetch⟩ := build_limits h
  rw [hconcurrency, hprefetch, deciding]
  cases hlast : (prefetches calls).getLast? with
  | some n =>
    have hne : prefetches calls ≠ [] := fun hnil => by simp [hnil] at hlast
    simp [hne]
  | none =>
    have hnil : prefetches calls = [] := List.getLast?_eq_none_iff.mp hlast
    cases hcalls : concurrencies calls with
    | nil => simp [hnil]
    | cons c cs =>
      obtain ⟨last, hlast⟩ := Option.isSome_iff_exists.mp (List.getLast?_isSome.mpr (List.cons_ne_nil c cs))
      simp only [hnil, hlast, List.head?_cons, Option.none_or, Option.getD_some, Option.map_none,
        Option.getD_none, ne_eq, not_true_eq_false, false_or, Option.some.injEq, true_implies,
        UInt64.toNat_inj]
      exact and_iff_left_of_imp fun heq => heq ▸ le_rfl

theorem follows_iff_queues :
    let calls : List (BuilderCall Unit Unit) := [.client (), .handler (), .concurrency 4, .queues ["mail"]]
    ∃ worker, (WorkerBuilder.assemble calls).build = .ok worker ∧
      ((worker.prefetch = ((prefetches calls).getLast?.map UInt64.toNat).getD worker.concurrency ∧
          (prefetches calls = [] → worker.concurrency ≤ worker.prefetch)) ↔
        prefetches calls ≠ [] ∨ (concurrencies calls).head? = (concurrencies calls).getLast?) :=
  ⟨_, rfl, follows_iff _ rfl⟩

/-- Of two concurrencies the first stays the limit. -/
theorem not_follows_twice : ¬ ∀ (calls : List (BuilderCall Unit Unit)) (worker : Configured Unit Unit),
    (WorkerBuilder.assemble calls).build = .ok worker →
      worker.prefetch = ((prefetches calls).getLast?.map UInt64.toNat).getD worker.concurrency ∧
        (prefetches calls = [] → worker.concurrency ≤ worker.prefetch) := by
  intro h
  have hlimits := h [.client (), .handler (), .concurrency 1, .concurrency 10] _ rfl
  exact absurd (hlimits.2 rfl) (by decide)

/-- **Main theorem.** The capacity of the ack channel fits a `usize` and is one that a channel takes
exactly when the deciding argument is between one and half the most permits. -/
theorem channel_iff (calls : List (BuilderCall κ η)) {worker : Configured κ η}
    (h : (WorkerBuilder.assemble calls).build = .ok worker) :
    (worker.prefetch * 2 < 2 ^ 64 ∧ start worker.toWorker = some initial) ↔
      1 ≤ (deciding calls).toNat ∧ (deciding calls).toNat ≤ maxPermits / 2 := by
  obtain ⟨-, hprefetch⟩ := build_limits h
  have hstart : start worker.toWorker = some initial ↔
      1 ≤ worker.prefetch * 2 % 2 ^ 64 ∧ worker.prefetch * 2 % 2 ^ 64 ≤ maxPermits := by
    rw [start, capacity]
    split
    · next hfits => exact iff_of_true rfl hfits
    · next hfits => exact iff_of_false nofun hfits
  rw [hstart, hprefetch]
  simp only [maxPermits]
  omega

theorem channel_iff_default :
    let calls : List (BuilderCall Unit Unit) := [.client (), .handler ()]
    ∃ worker, (WorkerBuilder.assemble calls).build = .ok worker ∧
      ((worker.prefetch * 2 < 2 ^ 64 ∧ start worker.toWorker = some initial) ↔
        1 ≤ (deciding calls).toNat ∧ (deciding calls).toNat ≤ maxPermits / 2) :=
  ⟨_, rfl, channel_iff _ rfl⟩

/-- A limit of zero makes a channel of no capacity. -/
theorem not_channel_zero : ¬ ∀ (calls : List (BuilderCall Unit Unit)) (worker : Configured Unit Unit),
    (WorkerBuilder.assemble calls).build = .ok worker →
      worker.prefetch * 2 < 2 ^ 64 ∧ start worker.toWorker = some initial := by
  intro h
  have hstart := (h [.client (), .handler (), .prefetch 0] _ rfl).2
  exact absurd (congrArg Option.isSome hstart) (by decide)

end Zizq.Worker
