/-
  EzBakeCommon.Library.PosixTime — points and spans of time as 64-bit counts.

  The date-time library a program links against is a PARAMETER here:
  `PosixTime` lists the functions, `Counts` says what its documentation
  promises of them.  Time points and spans are signed 64-bit counts of
  microseconds, every conversion and every sum of them wraps, and a
  comparison compares counts.

  Main results:
    * `secondsSinceEpoch_toInt` — the whole seconds of a reading of the clock.
    * `deadlineReached_wrapped` — the deadline is a sum of integers, wrapped once.
-/
import Mathlib.Data.Nat.Notation

namespace Library

/-- A reading of a microsecond clock, from 1970 to the end of year 9999. -/
structure Instant where
  micros : ℕ
  before10000 : micros < 253402300800000000

/-- The functions of the library. -/
structure PosixTime where
  PTime : Type
  TimeDuration : Type
  /-- `microsec_clock::universal_time()`, at this instant. -/
  universalTime : Instant → PTime
  /-- `from_time_t(n)`. -/
  fromTimeT : Int64 → PTime
  /-- `seconds(n)`. -/
  seconds : Int64 → TimeDuration
  /-- `p + d`. -/
  add : PTime → TimeDuration → PTime
  /-- `p - q`. -/
  sub : PTime → PTime → TimeDuration
  /-- `p >= q`. -/
  ge : PTime → PTime → Bool
  totalSeconds : TimeDuration → Int64
  /-- The counts behind the two types. -/
  ticks : PTime → Int64
  micros : TimeDuration → Int64

namespace PosixTime

/-- The count of 1970-01-01, day number 2440588. -/
def epochTicks : Int64 := 2440588 * 86400 * 1000000

/-- What the documentation says of the counts. -/
structure Counts (T : PosixTime) : Prop where
  universalTime : ∀ now : Instant, T.ticks (T.universalTime now)
    = epochTicks + Int64.ofNat now.micros
  fromTimeT : ∀ n, T.ticks (T.fromTimeT n) = epochTicks + n * 1000000
  seconds : ∀ n, T.micros (T.seconds n) = n * 1000000
  add : ∀ p d, T.ticks (T.add p d) = T.ticks p + T.micros d
  sub : ∀ p q, T.micros (T.sub p q) = T.ticks p - T.ticks q
  ge : ∀ p q, T.ge p q = decide (T.ticks q ≤ T.ticks p)
  totalSeconds : ∀ d, T.totalSeconds d = T.micros d / 1000000

/-- The library whose time points and spans are nothing but their counts. -/
def counting : PosixTime where
  PTime := Int64
  TimeDuration := Int64
  universalTime := fun now => epochTicks + Int64.ofNat now.micros
  fromTimeT := fun n => epochTicks + n * 1000000
  seconds := fun n => n * 1000000
  add := fun p d => p + d
  sub := fun p q => p - q
  ge := fun p q => decide (q ≤ p)
  totalSeconds := fun d => d / 1000000
  ticks := id
  micros := id

theorem counting_counts : counting.Counts :=
  ⟨fun _ => rfl, fun _ => rfl, fun _ => rfl, fun _ _ => rfl, fun _ _ => rfl, fun _ _ => rfl,
    fun _ => rfl⟩

/-! ## §1. Counts that do not wrap. -/

theorem epochTicks_toInt : epochTicks.toInt = 210866803200000000 := by decide

/-- A count in range is its integer. -/
theorem bmod_of_range {x : Int} (hlo : -9223372036854775808 ≤ x)
    (hhi : x < 9223372036854775808) : x.bmod 18446744073709551616 = x :=
  Int.bmod_eq_of_le (by omega) (by omega)

variable {T : PosixTime} (hT : T.Counts)
include hT

theorem universalTime_toInt (now : Instant) :
    (T.ticks (T.universalTime now)).toInt = 210866803200000000 + now.micros := by
  have hnow := now.before10000
  rw [hT.universalTime, Int64.toInt_add, epochTicks_toInt, Int64.toInt_ofNat_of_lt (by omega)]
  exact bmod_of_range (by omega) (by omega)

/-! ## §2. Seconds since the epoch. -/

omit hT in
/-- `(universal_time() - from_time_t(0)).total_seconds()`. -/
def secondsSinceEpoch (T : PosixTime) (now : Instant) : Int64 :=
  T.totalSeconds (T.sub (T.universalTime now) (T.fromTimeT 0))

/-- **The fraction of the second is cut off.** -/
theorem secondsSinceEpoch_toInt (now : Instant) :
    (T.secondsSinceEpoch now).toInt = ((now.micros / 1000000 : ℕ) : Int) := by
  have hnow := now.before10000
  -- the epoch cancels, and what is left is in range
  have hspan : (T.micros (T.sub (T.universalTime now) (T.fromTimeT 0))).toInt = now.micros := by
    rw [hT.sub, hT.fromTimeT, Int64.toInt_sub, universalTime_toInt hT]
    show (_ - (epochTicks + 0 * 1000000).toInt).bmod _ = _
    rw [show epochTicks + 0 * 1000000 = epochTicks from by decide, epochTicks_toInt,
      bmod_of_range (by omega) (by omega)]
    omega
  unfold secondsSinceEpoch
  rw [hT.totalSeconds, Int64.toInt_div_of_ne_right _ _ (by decide), hspan]
  show ((now.micros : Int)).tdiv ((1000000 : ℕ) : Int) = _
  -- the count is not negative, so cutting off is rounding down
  rw [Int.tdiv_eq_ediv_of_nonneg (by omega)]
  omega

/-! ## §3. Deadlines. -/

omit hT in
/-- `universal_time() >= from_time_t(start) + seconds(length)`. -/
def deadlineReached (T : PosixTime) (start length : Int64) (now : Instant) : Bool :=
  T.ge (T.universalTime now) (T.add (T.fromTimeT start) (T.seconds length))

/-- **The deadline is the sum of integers, wrapped once.** -/
theorem deadlineReached_wrapped (start length : Int64) (now : Instant) :
    T.deadlineReached start length now = true ↔
      (210866803200000000 + (start.toInt + length.toInt) * 1000000).bmod 18446744073709551616
        ≤ 210866803200000000 + now.micros := by
  -- wrapping on the way makes no difference to what the last step wraps
  have hdeadline : (T.ticks (T.add (T.fromTimeT start) (T.seconds length))).toInt
      = (210866803200000000 + (start.toInt + length.toInt) * 1000000).bmod
          18446744073709551616 := by
    rw [hT.add, hT.fromTimeT, hT.seconds, Int64.toInt_add, Int64.toInt_add, epochTicks_toInt,
      Int64.toInt_mul, Int64.toInt_mul]
    show Int.bmod (Int.bmod (_ + Int.bmod (_ * 1000000) 18446744073709551616) 18446744073709551616
      + Int.bmod (_ * 1000000) 18446744073709551616) 18446744073709551616 = _
    rw [Int.add_bmod_bmod, Int.add_bmod_bmod, Int.bmod_add_bmod, Int.add_assoc, ← Int.add_mul]
  unfold deadlineReached
  rw [hT.ge, decide_eq_true_eq, Int64.le_iff_toInt_le, hdeadline, universalTime_toInt hT]

/-- A deadline is never unreached again: it does not depend on what wraps. -/
theorem deadlineReached_mono {start length : Int64} {now later : Instant}
    (hle : now.micros ≤ later.micros) (h : T.deadlineReached start length now = true) :
    T.deadlineReached start length later = true := by
  unfold deadlineReached at *
  rw [hT.ge, decide_eq_true_eq, Int64.le_iff_toInt_le, universalTime_toInt hT] at *
  omega

end PosixTime

/-- A library, and the readings its clock gives, in the order they are taken:
the clock is never set back. -/
structure Clock extends PosixTime where
  reading : ℕ → Instant
  steady : ∀ {m n}, m ≤ n → (reading m).micros ≤ (reading n).micros

/-- The clock that stands still. -/
def Clock.still (T : PosixTime) (now : Instant) : Clock :=
  ⟨T, fun _ => now, fun _ => Nat.le_refl _⟩

/-- The time that has passed at the `n`th reading, if these are the gaps before
the first reading, between the first and the second, and so on. -/
def elapsed : List ℕ → ℕ → ℕ
  | [], _ => 0
  | gap :: _, 0 => gap
  | gap :: gaps, n + 1 => gap + elapsed gaps n

theorem elapsed_mono : ∀ (gaps : List ℕ) {m n : ℕ}, m ≤ n → elapsed gaps m ≤ elapsed gaps n
  | [], _, _, _ => Nat.le_refl 0
  | _ :: _, 0, 0, _ => Nat.le_refl _
  | gap :: _, 0, _ + 1, _ => Nat.le_add_right gap _
  | gap :: gaps, _ + 1, _ + 1, h =>
      Nat.add_le_add_left (elapsed_mono gaps (Nat.le_of_succ_le_succ h)) gap

/-- Once the gaps are used up no more time passes. -/
theorem elapsed_le : ∀ (gaps : List ℕ) (n : ℕ), elapsed gaps n ≤ elapsed gaps gaps.length
  | [], _ => Nat.le_refl 0
  | gap :: _, 0 => Nat.le_add_right gap _
  | gap :: gaps, n + 1 => Nat.add_le_add_left (elapsed_le gaps n) gap

/-- The clock that moves on by these gaps, from the epoch to its first reading
and from each reading to the next, and then stands still. -/
def Clock.ofGaps (T : PosixTime) (gaps : List ℕ)
    (h : elapsed gaps gaps.length < 253402300800000000) : Clock where
  toPosixTime := T
  reading := fun n => ⟨elapsed gaps n, Nat.lt_of_le_of_lt (elapsed_le gaps n) h⟩
  steady := elapsed_mono gaps

end Library
