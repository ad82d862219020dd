import Zizq.Patch.Budget

/-! The wire form of a strategy.

Encoder and decoder are two `From` impls. The encoder narrows the milliseconds of a
duration to 64 bits, as two setters of the patch do, so that a strategy comes back as
it was exactly if its milliseconds fit (`millis_iff`). The decoder reads a concurrency
limit off its name alone, so that a recognised strategy is encoded as it came exactly
if no field of a rate limit stood beside that name (`surplus_iff`). -/
namespace Zizq.Patch

structure StrategyWire where
  kind : String
  durationMs : Option UInt64
  burst : Option UInt32
deriving DecidableEq

/-- `Duration::from_millis`. -/
def Duration.fromMillis (ms : UInt64) : Duration where
  secs := ms / 1000
  nanos := UInt32.ofNat (ms.toNat % 1000 * 1000000)
  nanos_lt := by
    rw [UInt32.lt_iff_toNat_lt, UInt32.toNat_ofNat_of_lt' (by simp only [UInt32.size]; omega)]
    have := Nat.mod_lt ms.toNat (show 1000 > 0 by decide)
    simp only [UInt32.toNat_ofNat]
    omega

namespace BudgetStrategy

def ofWire (wire : StrategyWire) : BudgetStrategy :=
  if wire.kind = "time_based" then
    match wire.durationMs with
    | some ms => .timeBased (.fromMillis ms) wire.burst
    -- a rate without a period is not defaulted
    | none => .unknown wire.kind
  else if wire.kind = "while_in_flight" then .whileInFlight
  else .unknown wire.kind

def toWire : BudgetStrategy → StrategyWire
  | .timeBased duration burst => ⟨"time_based", some (UInt64.ofNat duration.asMillis), burst⟩
  | .whileInFlight => ⟨"while_in_flight", none, none⟩
  | .unknown kind => ⟨kind, none, none⟩

end BudgetStrategy

/-! ### Milliseconds -/

namespace Duration

/-- A whole number of milliseconds. -/
def Whole (d : Duration) : Prop := d.nanos.toNat % 1000000 = 0

theorem nanos_toNat_lt (d : Duration) : d.nanos.toNat < 1000000000 := UInt32.lt_iff_toNat_lt.mp d.nanos_lt

theorem ext_toNat {d d' : Duration} (hsecs : d.secs.toNat = d'.secs.toNat)
    (hnanos : d.nanos.toNat = d'.nanos.toNat) : d = d' := by
  cases d
  cases d'
  rw [mk.injEq]
  exact ⟨UInt64.toNat_inj.mp hsecs, UInt32.toNat_inj.mp hnanos⟩

theorem fromMillis_secs (ms : UInt64) : (fromMillis ms).secs.toNat = ms.toNat / 1000 := UInt64.toNat_div ms 1000

theorem fromMillis_nanos (ms : UInt64) : (fromMillis ms).nanos.toNat = ms.toNat % 1000 * 1000000 :=
  UInt32.toNat_ofNat_of_lt' (by simp only [UInt32.size]; omega)

theorem asMillis_fromMillis (ms : UInt64) : (fromMillis ms).asMillis = ms.toNat := by
  rw [asMillis, fromMillis_secs, fromMillis_nanos]
  omega

/-- The milliseconds of a whole duration determine it, if they have not been reduced. -/
theorem fromMillis_asMillis {d : Duration} (hwhole : d.Whole) (hfits : d.asMillis < 2 ^ 64) :
    fromMillis (UInt64.ofNat d.asMillis) = d := by
  have hlt := d.nanos_toNat_lt
  have hms : (UInt64.ofNat d.asMillis).toNat = d.asMillis := UInt64.toNat_ofNat_of_lt' hfits
  rw [Whole] at hwhole
  apply ext_toNat
  · rw [fromMillis_secs, hms, asMillis]
    omega
  · rw [fromMillis_nanos, hms, asMillis]
    omega

/-- The count that is written is the true one exactly if it fits. -/
theorem written_iff (d : Duration) : (UInt64.ofNat d.asMillis).toNat = d.asMillis ↔ d.asMillis < 2 ^ 64 := by
  rw [UInt64.toNat_ofNat']
  exact Nat.mod_eq_iff_lt (by decide)

end Duration

/-! ### From a strategy to its wire form and back -/

namespace BudgetStrategy

/-- A duration is a whole number of milliseconds, and an unknown name is not a known one. -/
def Plain : BudgetStrategy → Prop
  | .timeBased duration _ => duration.Whole
  | .whileInFlight => True
  | .unknown kind => kind ≠ "time_based" ∧ kind ≠ "while_in_flight"

/-- The milliseconds of the duration fit 64 bits. -/
def Fits : BudgetStrategy → Prop
  | .timeBased duration _ => duration.asMillis < 2 ^ 64
  | _ => True

/-- A strategy that the client knows. -/
def recognised : BudgetStrategy → Bool
  | .unknown _ => false
  | _ => true

theorem ofWire_toWire_iff {s : BudgetStrategy} (h : s.Plain) : ofWire s.toWire = s ↔ s.Fits := by
  cases s with
  | timeBased duration burst =>
    change timeBased (.fromMillis (UInt64.ofNat duration.asMillis)) burst = timeBased duration burst ↔ _
    rw [timeBased.injEq, and_iff_left rfl]
    constructor
    · intro heq
      rw [Fits, ← heq, Duration.asMillis_fromMillis]
      exact UInt64.toNat_lt _
    · exact Duration.fromMillis_asMillis h
  | whileInFlight => exact iff_of_true rfl trivial
  | unknown kind => exact iff_of_true (by simp [toWire, ofWire, h.1, h.2]) trivial

end BudgetStrategy

/-- The milliseconds that a chain of setters writes. -/
def durationWritten (calls : List PatchCall) : Option Nat := do
  let patch ← assemble calls
  let strategy ← patch.strategyMut
  match strategy.durationMs with
  | .set ms => some ms.toNat
  | _ => none

theorem durationWritten_strategy (calls : List PatchCall) (d : Duration) (burst : Option UInt32) :
    durationWritten (calls ++ [.strategy (.timeBased d burst)]) = some (UInt64.ofNat d.asMillis).toNat := by
  obtain ⟨patch, hpatch, -⟩ := assemble_built calls
  rw [durationWritten, assemble_concat hpatch]
  rfl

theorem durationWritten_duration (calls : List PatchCall) (d : Duration) :
    durationWritten (calls ++ [.duration d]) = some (UInt64.ofNat d.asMillis).toNat := by
  obtain ⟨patch, hpatch, strategy, hmut, -⟩ := assemble_built calls
  rw [durationWritten, assemble_concat hpatch, BudgetPatch.apply, BudgetPatch.setDuration, hmut]
  rfl

/-- **Main theorem.** A strategy comes back from its wire form as it was, and each of the three places
writes the true milliseconds of a duration, exactly if these fit 64 bits. -/
theorem millis_iff {s : BudgetStrategy} (h : s.Plain) (d : Duration) (burst : Option UInt32)
    (calls : List PatchCall) :
    (.ofWire s.toWire = s ↔ s.Fits) ∧
    ((BudgetStrategy.timeBased d burst).toWire.durationMs.map UInt64.toNat = some d.asMillis ↔
      d.asMillis < 2 ^ 64) ∧
    (durationWritten (calls ++ [.strategy (.timeBased d burst)]) = some d.asMillis ↔ d.asMillis < 2 ^ 64) ∧
    (durationWritten (calls ++ [.duration d]) = some d.asMillis ↔ d.asMillis < 2 ^ 64) := by
  refine ⟨BudgetStrategy.ofWire_toWire_iff h, ?_, ?_, ?_⟩
  · rw [← d.written_iff]
    exact Option.some_inj
  · rw [durationWritten_strategy, Option.some_inj, d.written_iff]
  · rw [durationWritten_duration, Option.some_inj, d.written_iff]

theorem millis_iff_minute :
    let minute : Duration := ⟨60, 0, by decide⟩
    let s : BudgetStrategy := .timeBased minute (some 5)
    .ofWire s.toWire = s ∧
      durationWritten [.strategy .whileInFlight, .duration minute] = some minute.asMillis := by
  intro minute s
  have hfits : minute.asMillis < 2 ^ 64 := by decide
  have hplain : s.Plain := rfl
  obtain ⟨hround, -, -, hduration⟩ := millis_iff hplain minute (some 5) [.strategy .whileInFlight]
  exact ⟨hround.mpr hfits, hduration.mpr hfits⟩

/-- A period of some 585 million years comes back as less than half a second. -/
theorem not_millis_longest : ¬ ((∀ s : BudgetStrategy, s.Plain → .ofWire s.toWire = s) ∧
    ∀ (d : Duration) (burst : Option UInt32) (calls : List PatchCall),
      (BudgetStrategy.timeBased d burst).toWire.durationMs.map UInt64.toNat = some d.asMillis ∧
      durationWritten (calls ++ [.strategy (.timeBased d burst)]) = some d.asMillis ∧
      durationWritten (calls ++ [.duration d]) = some d.asMillis) := by
  rintro ⟨hround, -⟩
  let d : Duration := ⟨18446744073709552, 0, by decide⟩
  have hfits : d.asMillis < 2 ^ 64 :=
    (BudgetStrategy.ofWire_toWire_iff (s := .timeBased d none) rfl).mp (hround _ rfl)
  exact absurd hfits (by decide)

/-! ### From the wire and back -/

/-- **Main theorem.** A recognised strategy is encoded as it was on the wire, exactly if no field of a rate
limit stood beside the name of a concurrency limit. -/
theorem surplus_iff (w : StrategyWire) :
    ((BudgetStrategy.ofWire w).recognised = true → (BudgetStrategy.ofWire w).toWire = w) ↔
      ¬ (w.kind = "while_in_flight" ∧ (w.durationMs.isSome ∨ w.burst.isSome)) := by
  obtain ⟨kind, durationMs, burst⟩ := w
  by_cases htimed : kind = "time_based"
  · subst htimed
    refine iff_of_true (fun hrecognised => ?_) (by simp)
    cases durationMs with
    | none => cases hrecognised
    | some ms =>
      change StrategyWire.mk "time_based" (some (UInt64.ofNat (Duration.fromMillis ms).asMillis)) burst = _
      rw [Duration.asMillis_fromMillis, UInt64.ofNat_toNat]
  · by_cases hheld : kind = "while_in_flight"
    · subst hheld
      change (true = true → StrategyWire.mk "while_in_flight" none none = _) ↔ _
      cases durationMs <;> cases burst <;> simp
    · have hunknown : BudgetStrategy.ofWire ⟨kind, durationMs, burst⟩ = .unknown kind := by
        simp [BudgetStrategy.ofWire, htimed, hheld]
      rw [hunknown]
      exact iff_of_true nofun (by simp [hheld])

/-- A period beside the name of a concurrency limit is dropped. -/
theorem not_surplus_duration : ¬ ∀ w : StrategyWire, (BudgetStrategy.ofWire w).recognised = true →
    (BudgetStrategy.ofWire w).toWire = w := by
  intro h
  exact absurd (h ⟨"while_in_flight", some 60000, none⟩ rfl) (by decide)

end Zizq.Patch
