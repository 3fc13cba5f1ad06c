/-
  EzBakeCommon.Timed.Overflow — expirations that the deadline cannot count.

  The deadline of an entry is its timestamp plus the expiration, in
  microseconds, wrapped to a signed 64-bit count.  So the test agrees with
  integers exactly if the sum does not wrap, or happens to wrap to a point of
  time that is still ahead (`expired_exact_iff`).  An expiration meant as "never"
  may wrap to a point of time that is past.
-/
import EzBakeCommon.Timed.Expiry

namespace EzBakeCommon.Timed

open Library

variable {K V : Type*}

/-- The test finds a timestamp expired exactly if the expiration has passed
since, in integers. -/
def ExpiresExactly (clock : Clock) (c : LRUTimedCache K V) (timestamp : UInt64) : Prop :=
  (c.expired clock timestamp).1 = true ↔
    (timestamp.toNat + c.expiration.toNat) * 1000000 ≤ (c.now clock).micros

/-- The count of the deadline before it is wrapped. -/
def unwrapped (expiration timestamp : UInt64) : ℕ :=
  210866803200000000 + (timestamp.toNat + expiration.toNat) * 1000000

/-- The deadline does not wrap, or wraps to a count that a signed type leaves as
it is and that `now` has not reached. -/
def DeadlineKept (expiration timestamp : UInt64) (now : Instant) : Prop :=
  unwrapped expiration timestamp < 9223372036854775808 ∨
    (unwrapped expiration timestamp % 18446744073709551616 < 9223372036854775808 ∧
      210866803200000000 + now.micros < unwrapped expiration timestamp % 18446744073709551616)

/-- How a count wraps, in natural numbers. -/
theorem bmod_le_iff {n m : ℕ} :
    (n : Int).bmod 18446744073709551616 ≤ m ↔
      9223372036854775808 ≤ n % 18446744073709551616 ∨ n % 18446744073709551616 ≤ m := by
  rw [Int.bmod_def]
  omega

/-- **The test is exact if and only if the deadline is kept.** -/
theorem expired_exact_iff (clock : Clock) (hT : clock.Counts) (c : LRUTimedCache K V)
    (h0 : c.expiration ≠ 0) (timestamp : UInt64) :
    ExpiresExactly clock c timestamp ↔ DeadlineKept c.expiration timestamp (c.now clock) := by
  have hnow := (c.now clock).before10000
  have htest : (c.expired clock timestamp).1 = true ↔ _ := expiredAt_wrapped hT h0 (c.now clock)
  have hsum : 210866803200000000 + ((timestamp.toNat : Int) + c.expiration.toNat) * 1000000
      = (unwrapped c.expiration timestamp : Int) := by
    unfold unwrapped
    omega
  have hread : 210866803200000000 + ((c.now clock).micros : Int)
      = ((210866803200000000 + (c.now clock).micros : ℕ) : Int) := by omega
  rw [hsum, hread, bmod_le_iff] at htest
  have hdeadline : (timestamp.toNat + c.expiration.toNat) * 1000000 ≤ (c.now clock).micros ↔
      unwrapped c.expiration timestamp ≤ 210866803200000000 + (c.now clock).micros := by
    unfold unwrapped
    omega
  unfold ExpiresExactly DeadlineKept
  rw [hdeadline, htest]
  generalize unwrapped c.expiration timestamp = deadline
  by_cases hfit : deadline < 9223372036854775808
  · rw [Nat.mod_eq_of_lt (by omega)]
    omega
  · -- a deadline that wraps is later than every reading
    omega

/-- The 10th second after the epoch. -/
def tenSeconds : Instant := ⟨10000000, by decide⟩

/-- A year is counted as it is. -/
theorem year_expires_exactly :
    ExpiresExactly (Clock.still PosixTime.counting tenSeconds)
      (LRUTimedCache.new 0 31536000 : LRUTimedCache ℕ ℕ) 10 :=
  (expired_exact_iff (Clock.still PosixTime.counting tenSeconds) PosixTime.counting_counts
    (LRUTimedCache.new 0 31536000 : LRUTimedCache ℕ ℕ) (by decide) 10).mpr (Or.inl (by decide))

/-- The longest expiration counts as one second less than nothing: an entry of
this very second is expired, which it is not under an expiration of one second. -/
theorem longest_expires_at_once :
    ¬ ExpiresExactly (Clock.still PosixTime.counting tenSeconds)
        (LRUTimedCache.new 0 18446744073709551615 : LRUTimedCache ℕ ℕ) 10 ∧
      ((LRUTimedCache.new 0 18446744073709551615 : LRUTimedCache ℕ ℕ).expired
        (Clock.still PosixTime.counting tenSeconds) 10).1 = true ∧
      ((LRUTimedCache.new 0 1 : LRUTimedCache ℕ ℕ).expired
        (Clock.still PosixTime.counting tenSeconds) 10).1 = false := by
  have hexpired : ((LRUTimedCache.new 0 18446744073709551615 : LRUTimedCache ℕ ℕ).expired
      (Clock.still PosixTime.counting tenSeconds) 10).1 = true := by decide
  refine ⟨?_, hexpired, by decide⟩
  intro h
  have hpassed := h.mp hexpired
  exact absurd hpassed (by decide)

end EzBakeCommon.Timed
