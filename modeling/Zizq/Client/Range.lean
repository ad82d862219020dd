import Mathlib.Data.List.TakeWhile
import Zizq.Client.Enqueue
import Zizq.Client.JobFilter

/-! Ranges, and the instants in them.

`readRange` is how the server reads the text of a range: inclusive bounds, either of
which may be left out. Numbers come through as they are (`readRange_encode`). An
instant is sent as milliseconds in an unsigned number, and one that lies a whole
millisecond before the epoch wraps around to the far future; `range_iff` says which
ranges this spoils, and for which pairs of instants it turns the order round. -/
namespace Zizq.Client
variable {α : Type}

/-! ### What a filter denotes -/

/-- The values that a filter stands for, given where each bound lies. -/
def RangeFilter.Denotes (position : α → Int) (x : Int) : RangeFilter α → Prop
  | .exact v => x = position v
  | .bounded a b => position a ≤ x ∧ x ≤ position b
  | .atLeast a => position a ≤ x
  | .atMost b => x ≤ position b
  | .unbounded => True

/-! ### What the server reads -/

/-- Inclusive bounds; `none` leaves an end open. -/
structure Interval where
  lo : Option Nat
  hi : Option Nat
deriving DecidableEq

def Interval.Selects (interval : Interval) (n : Nat) : Prop :=
  (∀ lo ∈ interval.lo, lo ≤ n) ∧ ∀ hi ∈ interval.hi, n ≤ hi

def readNumber (text : List Char) : Option Nat :=
  if text ≠ [] ∧ text.all Char.isDigit then some (Nat.ofDigitChars 10 text 0) else none

def readBound (text : List Char) : Option (Option Nat) :=
  if text = [] then some none else (readNumber text).map some

/-- `n`, `lo..hi`, `lo..`, `..hi` or `..`. -/
def readRange (text : List Char) : Option Interval :=
  let lo := text.takeWhile (· ≠ '.')
  match text.dropWhile (· ≠ '.') with
  | [] => (readNumber lo).map fun n => ⟨some n, some n⟩
  | '.' :: '.' :: hi => do return ⟨← readBound lo, ← readBound hi⟩
  | _ => none

/-- The interval of a filter whose bounds are sent as numbers. -/
def RangeFilter.interval (number : α → Nat) : RangeFilter α → Interval
  | .exact v => ⟨some (number v), some (number v)⟩
  | .bounded a b => ⟨some (number a), some (number b)⟩
  | .atLeast a => ⟨some (number a), none⟩
  | .atMost b => ⟨none, some (number b)⟩
  | .unbounded => ⟨none, none⟩

theorem toList_toString (n : Nat) : (toString n).toList = Nat.toDigits 10 n := by
  rw [Nat.toString_eq_ofList_toDigits, String.toList_ofList]

theorem readNumber_digits (n : Nat) : readNumber (Nat.toDigits 10 n) = some n := by
  have hdigits : (Nat.toDigits 10 n).all Char.isDigit = true :=
    List.all_eq_true.mpr fun c hc => Nat.isDigit_of_mem_toDigits (by decide) (by decide) hc
  rw [readNumber, if_pos ⟨Nat.toDigits_ne_nil, hdigits⟩, Nat.ofDigitChars_ten_toDigits]

theorem readBound_digits (n : Nat) : readBound (Nat.toDigits 10 n) = some (some n) := by
  rw [readBound, if_neg Nat.toDigits_ne_nil, readNumber_digits]
  rfl

theorem ne_dot_of_mem_digits {n : Nat} {c : Char} (hc : c ∈ Nat.toDigits 10 n) : decide (c ≠ '.') = true := by
  apply decide_eq_true
  intro hdot
  have hdigit := Nat.isDigit_of_mem_toDigits (by decide) (by decide) hc
  rw [hdot] at hdigit
  cases hdigit

/-- The digits in front of the dots are the whole of the first bound. -/
theorem readRange_digits (n : Nat) (hi : List Char) :
    readRange (Nat.toDigits 10 n ++ '.' :: '.' :: hi) = (readBound hi).map fun hi => ⟨some n, hi⟩ := by
  rw [readRange, List.takeWhile_append_of_pos fun c hc => ne_dot_of_mem_digits hc,
    List.dropWhile_append_of_pos fun c hc => ne_dot_of_mem_digits hc]
  simp only [ne_eq, not_true_eq_false, decide_false, Bool.false_eq_true, not_false_eq_true,
    List.takeWhile_cons_of_neg, List.dropWhile_cons_of_neg, List.append_nil, readBound_digits]
  cases readBound hi <;> rfl

theorem readRange_open (hi : List Char) :
    readRange ('.' :: '.' :: hi) = (readBound hi).map fun hi => ⟨none, hi⟩ := by
  simp only [readRange, ne_eq, not_true_eq_false, decide_false, Bool.false_eq_true, not_false_eq_true,
    List.takeWhile_cons_of_neg, List.dropWhile_cons_of_neg]
  cases readBound hi <;> rfl

theorem toList_dots : "..".toList = ['.', '.'] := rfl

theorem readRange_number (n : Nat) : readRange (Nat.toDigits 10 n) = some ⟨some n, some n⟩ := by
  have hall : ∀ c ∈ Nat.toDigits 10 n, decide (c ≠ '.') = true := fun c hc => ne_dot_of_mem_digits hc
  rw [readRange, List.takeWhile_eq_self_iff.mpr hall, List.dropWhile_eq_nil_iff.mpr hall]
  simp [readNumber_digits]

/-- The text of a filter is read back as its interval. -/
theorem readRange_encode (r : RangeFilter α) (number : α → Nat) :
    readRange (r.encode fun v => toString (number v)).toList = some (r.interval number) := by
  cases r with
  | exact v => rw [RangeFilter.encode, toList_toString, readRange_number]; rfl
  | bounded a b =>
    rw [RangeFilter.encode, String.toList_append, String.toList_append, toList_toString, toList_toString,
      toList_dots, List.append_assoc]
    apply Eq.trans (readRange_digits _ (Nat.toDigits 10 (number b)))
    rw [readBound_digits]
    rfl
  | atLeast a =>
    rw [RangeFilter.encode, String.toList_append, toList_toString, toList_dots]
    exact readRange_digits _ []
  | atMost b =>
    rw [RangeFilter.encode, String.toList_append, toList_toString, toList_dots]
    apply Eq.trans (readRange_open (Nat.toDigits 10 (number b)))
    rw [readBound_digits]
    rfl
  | unbounded =>
    rw [RangeFilter.encode, toList_dots]
    exact readRange_open []

/-- The interval of a filter selects the numbers that the filter denotes. -/
theorem interval_selects_iff (r : RangeFilter α) (number : α → Nat) (n : Nat) :
    (r.interval number).Selects n ↔ r.Denotes (fun v => number v) n := by
  cases r with
  | exact v =>
    simp only [Interval.Selects, RangeFilter.interval, RangeFilter.Denotes, Option.mem_some_iff, forall_eq',
      Int.natCast_inj]
    omega
  | _ => simp [Interval.Selects, RangeFilter.interval, RangeFilter.Denotes]

/-! ### Instants -/

namespace OffsetDateTime

/-- The crate admits years of at most six digits, with its feature `large-dates`, and fewer without. -/
def Admitted (t : OffsetDateTime) : Prop := t.unixTimestampNanos.natAbs < 1002000 * 366 * 86400 * 10 ^ 9

/-- A whole millisecond or more before the epoch. -/
def Early (t : OffsetDateTime) : Prop := t.unixTimestampNanos ≤ -1000000

end OffsetDateTime

theorem toNat_toMsEpoch (t : OffsetDateTime) :
    (toMsEpoch t).toNat = (t.unixTimestampNanos.tdiv 1000000 % (2 ^ 64 : Nat)).toNat := by
  have hlt := Int.emod_lt_of_pos (t.unixTimestampNanos.tdiv 1000000) (show (0 : Int) < (2 ^ 64 : Nat) by decide)
  exact UInt64.toNat_ofNat_of_lt' (by simp only [UInt64.size]; omega)

theorem toMsEpoch_early {t : OffsetDateTime} (ht : t.Admitted) (h : t.Early) :
    (toMsEpoch t).toNat = 2 ^ 64 - (-t.unixTimestampNanos).toNat / 1000000 := by
  have htdiv : t.unixTimestampNanos.tdiv 1000000 = -(-t.unixTimestampNanos / 1000000) := by
    rw [← Int.tdiv_eq_ediv_of_nonneg (by rw [OffsetDateTime.Early] at h; omega), Int.neg_tdiv, Int.neg_neg]
  rw [OffsetDateTime.Admitted] at ht
  rw [OffsetDateTime.Early] at h
  rw [toNat_toMsEpoch, htdiv]
  omega

theorem toMsEpoch_late {t : OffsetDateTime} (ht : t.Admitted) (h : ¬ t.Early) :
    (toMsEpoch t).toNat = t.unixTimestampNanos.toNat / 1000000 := by
  rw [OffsetDateTime.Admitted] at ht
  rw [OffsetDateTime.Early] at h
  rw [toNat_toMsEpoch]
  by_cases hneg : t.unixTimestampNanos < 0
  · have htdiv : t.unixTimestampNanos.tdiv 1000000 = 0 := by
      rw [← Int.neg_neg t.unixTimestampNanos, Int.neg_tdiv, Int.tdiv_eq_ediv_of_nonneg (by omega)]
      omega
    rw [htdiv]
    omega
  · rw [Int.tdiv_eq_ediv_of_nonneg (by omega)]
    omega

/-- The order of two instants is kept exactly if none but the later one is on this side of the wrap. -/
theorem toMsEpoch_le_iff {a b : OffsetDateTime} (ha : a.Admitted) (hb : b.Admitted)
    (hle : a.unixTimestampNanos ≤ b.unixTimestampNanos) :
    toMsEpoch a ≤ toMsEpoch b ↔ (a.Early → b.Early) := by
  rw [UInt64.le_iff_toNat_le]
  by_cases ha' : a.Early
  · by_cases hb' : b.Early
    · rw [toMsEpoch_early ha ha', toMsEpoch_early hb hb']
      refine iff_of_true ?_ fun _ => hb'
      omega
    · rw [toMsEpoch_early ha ha', toMsEpoch_late hb hb']
      rw [OffsetDateTime.Admitted] at ha hb
      refine iff_of_false ?_ fun h => hb' (h ha')
      omega
  · have hb' : ¬ b.Early := fun h => ha' (hle.trans h)
    rw [toMsEpoch_late ha ha', toMsEpoch_late hb hb']
    refine iff_of_true ?_ fun h => absurd h ha'
    omega

namespace RangeFilter

def bounds : RangeFilter α → List α
  | .exact v => [v]
  | .bounded a b => [a, b]
  | .atLeast a => [a]
  | .atMost b => [b]
  | .unbounded => []

/-- The lower bound is early, and instants on this side of the epoch are in the range. -/
def Wraps : RangeFilter OffsetDateTime → Prop
  | .atLeast a => a.Early
  | .bounded a b => a.Early ∧ 0 ≤ b.unixTimestampNanos
  | _ => False

end RangeFilter

theorem toMsEpoch_le {a : OffsetDateTime} (ha : a.Admitted) (hlate : ¬ a.Early) {ms : UInt64}
    (h : a.unixTimestampNanos ≤ ms.toNat * 1000000) : (toMsEpoch a).toNat ≤ ms.toNat := by
  rw [toMsEpoch_late ha hlate]
  omega

/-- An upper bound that is above some milliseconds is not early. -/
theorem le_toMsEpoch {b : OffsetDateTime} (hb : b.Admitted) {ms : UInt64}
    (h : ms.toNat * 1000000 ≤ b.unixTimestampNanos) : ms.toNat ≤ (toMsEpoch b).toNat := by
  rw [toMsEpoch_late hb (by rw [OffsetDateTime.Early]; omega)]
  omega

/-- The epoch itself is in front of an early lower bound. -/
theorem toMsEpoch_pos {a : OffsetDateTime} (ha : a.Admitted) (h : a.Early) : ¬ (toMsEpoch a).toNat ≤ 0 := by
  rw [toMsEpoch_early ha h]
  rw [OffsetDateTime.Admitted] at ha
  omega

/-- The milliseconds of a range's instants are all selected exactly if the range does not wrap. -/
theorem instants_selected_iff (r : RangeFilter OffsetDateTime) (hr : ∀ t ∈ r.bounds, t.Admitted) :
    (∀ ms : UInt64, r.Denotes OffsetDateTime.unixTimestampNanos (ms.toNat * 1000000) →
        (r.interval fun t => (toMsEpoch t).toNat).Selects ms.toNat) ↔ ¬ r.Wraps := by
  cases r with
  | exact v =>
    have hv : v.Admitted := hr v List.mem_cons_self
    refine iff_of_true (fun ms hms => ?_) not_false
    have hlate : ¬ v.Early := by
      rw [OffsetDateTime.Early, show v.unixTimestampNanos = _ from hms.symm]
      omega
    simp only [Interval.Selects, RangeFilter.interval, Option.mem_some_iff, forall_eq']
    exact ⟨toMsEpoch_le hv hlate hms.ge, le_toMsEpoch hv hms.le⟩
  | bounded a b =>
    have ha : a.Admitted := hr a List.mem_cons_self
    have hb : b.Admitted := hr b (List.mem_cons_of_mem a List.mem_cons_self)
    simp only [Interval.Selects, RangeFilter.interval, RangeFilter.Denotes, RangeFilter.Wraps,
      Option.mem_some_iff, forall_eq']
    constructor
    · rintro h ⟨hearly, hnonneg⟩
      rw [OffsetDateTime.Early] at hearly
      exact toMsEpoch_pos ha hearly (h 0 ⟨by simp; omega, by simpa using hnonneg⟩).1
    · rintro h ms ⟨hlo, hhi⟩
      exact ⟨toMsEpoch_le ha (fun hearly => h ⟨hearly, by omega⟩) hlo, le_toMsEpoch hb hhi⟩
  | atLeast a =>
    have ha : a.Admitted := hr a List.mem_cons_self
    simp only [Interval.Selects, RangeFilter.interval, RangeFilter.Denotes, RangeFilter.Wraps,
      Option.mem_some_iff, forall_eq', Option.not_mem_none, false_implies, implies_true, and_true]
    constructor
    · intro h hearly
      rw [OffsetDateTime.Early] at hearly
      exact toMsEpoch_pos ha hearly (h 0 (by simp; omega))
    · exact fun h ms hlo => toMsEpoch_le ha h hlo
  | atMost b =>
    have hb : b.Admitted := hr b List.mem_cons_self
    refine iff_of_true (fun ms hms => ?_) not_false
    simp only [Interval.Selects, RangeFilter.interval, Option.mem_some_iff, forall_eq',
      Option.not_mem_none, false_implies, implies_true, true_and]
    exact le_toMsEpoch hb hms
  | unbounded => exact iff_of_true (fun ms _ => by simp [Interval.Selects, RangeFilter.interval]) not_false

/-! ### Requests -/

section Requests
variable {Backoff Retention Batch Budget : Type} {ν : Type}

/-- `EnqueueBuilder::ready_at`. -/
def EnqueueBuilder.setReadyAt (when : OffsetDateTime)
    (builder : EnqueueBuilder Backoff Retention Batch Budget ν) :
    EnqueueBuilder Backoff Retention Batch Budget ν :=
  { builder with readyAtMs := some (toMsEpoch when) }

structure FailureBuilder where
  jobId : String
  message : String
  errorType : Option String := none
  backtrace : Option String := none
  retryAtMs : Option UInt64 := none
  kill : Bool := false

/-- `FailureBuilder::retry_at`. -/
def FailureBuilder.setRetryAt (when : OffsetDateTime) (builder : FailureBuilder) : FailureBuilder :=
  { builder with retryAtMs := some (toMsEpoch when) }

/-- The body that awaiting the builder sends. -/
def FailureBuilder.request (builder : FailureBuilder) : FailureRequest where
  message := builder.message
  errorType := builder.errorType
  backtrace := builder.backtrace
  retryAt := builder.retryAtMs
  kill := builder.kill

/-- Two instants are sent, the first as no later than the second. -/
def SentInOrder (send : OffsetDateTime → Option UInt64) (a b : OffsetDateTime) : Prop :=
  ∃ x y, send a = some x ∧ send b = some y ∧ x ≤ y

theorem sentInOrder_iff {send : OffsetDateTime → Option UInt64} (hsend : ∀ t, send t = some (toMsEpoch t))
    {a b : OffsetDateTime} (ha : a.Admitted) (hb : b.Admitted)
    (hle : a.unixTimestampNanos ≤ b.unixTimestampNanos) : SentInOrder send a b ↔ (a.Early → b.Early) := by
  simp [SentInOrder, hsend, toMsEpoch_le_iff ha hb hle]

/-- **Main theorem.** The server reads a range of numbers as it was meant, and selects all instants of a
range of instants exactly if that does not wrap; and two instants are sent in their order exactly if the
later one is early where the earlier one is. -/
theorem range_iff :
    (∀ r : RangeFilter UInt16, ∃ interval, readRange (FilterCall.priority r).value.toList = some interval ∧
      ∀ n : Nat, interval.Selects n ↔ r.Denotes (fun v => v.toNat) n) ∧
    (∀ r : RangeFilter UInt32, ∃ interval, readRange (FilterCall.attempts r).value.toList = some interval ∧
      ∀ n : Nat, interval.Selects n ↔ r.Denotes (fun v => v.toNat) n) ∧
    (∀ r : RangeFilter OffsetDateTime, (∀ t ∈ r.bounds, t.Admitted) →
      ∃ interval, readRange (FilterCall.readyAt r).value.toList = some interval ∧
        ((∀ ms : UInt64, r.Denotes OffsetDateTime.unixTimestampNanos (ms.toNat * 1000000) →
          interval.Selects ms.toNat) ↔ ¬ r.Wraps)) ∧
    ∀ a b : OffsetDateTime, a.Admitted → b.Admitted → a.unixTimestampNanos ≤ b.unixTimestampNanos →
      (toMsEpoch a ≤ toMsEpoch b ↔ (a.Early → b.Early)) ∧
      (∀ (kind : JobKind Backoff Retention Budget) (builder : EnqueueBuilder Backoff Retention Batch Budget ν),
        SentInOrder (fun t => (intoRequest kind (builder.setReadyAt t)).readyAt) a b ↔ (a.Early → b.Early)) ∧
      ∀ builder : FailureBuilder,
        SentInOrder (fun t => (builder.setRetryAt t).request.retryAt) a b ↔ (a.Early → b.Early) := by
  refine ⟨fun r => ⟨_, readRange_encode r _, interval_selects_iff r _⟩,
    fun r => ⟨_, readRange_encode r _, interval_selects_iff r _⟩,
    fun r hr => ⟨_, readRange_encode r _, instants_selected_iff r hr⟩, ?_⟩
  intro a b ha hb hle
  exact ⟨toMsEpoch_le_iff ha hb hle, fun kind builder => sentInOrder_iff (fun _ => rfl) ha hb hle,
    fun builder => sentInOrder_iff (fun _ => rfl) ha hb hle⟩

end Requests

theorem range_iff_epoch :
    let r : RangeFilter OffsetDateTime := .atLeast ⟨0⟩
    ∃ interval, readRange (FilterCall.readyAt r).value.toList = some interval ∧
      ((∀ ms : UInt64, r.Denotes OffsetDateTime.unixTimestampNanos (ms.toNat * 1000000) →
        interval.Selects ms.toNat) ↔ ¬ r.Wraps) := by
  refine (@range_iff Unit Unit Unit Unit Unit).2.2.1 _ ?_
  intro t ht
  obtain rfl := List.mem_singleton.mp ht
  exact show (0 : Int).natAbs < _ by decide

/-- From a day before the epoch on: the epoch itself is not selected. -/
theorem not_range_day : ¬ ∀ r : RangeFilter OffsetDateTime, (∀ t ∈ r.bounds, t.Admitted) →
    ∃ interval, readRange (FilterCall.readyAt r).value.toList = some interval ∧
      ∀ ms : UInt64, r.Denotes OffsetDateTime.unixTimestampNanos (ms.toNat * 1000000) →
        interval.Selects ms.toNat := by
  intro h
  let day : OffsetDateTime := ⟨-86400000000000⟩
  have hday : ∀ t ∈ (RangeFilter.atLeast day).bounds, t.Admitted := by
    intro t ht
    obtain rfl := List.mem_singleton.mp ht
    exact show (-86400000000000 : Int).natAbs < _ by decide
  obtain ⟨interval, hread, hselects⟩ := h _ hday
  obtain rfl := Option.some.inj (hread.symm.trans (readRange_encode _ _))
  have hearly : day.Early := show (-86400000000000 : Int) ≤ -1000000 by decide
  exact (instants_selected_iff _ hday).mp hselects hearly

end Zizq.Client
