/-
  EzBakeCommon.Timed.Expiry — the expiry test in integers.

  `expired` adds an unsigned expiration to an unsigned timestamp through signed
  64-bit counts.  An expiration `Fits` if no such sum wraps, whatever reading
  of the clock the timestamp is from; the test is then a comparison of integers
  (`expiredAt_iff`), and a value is expired from the expiration after the whole
  second in which it was built (`expiredAt_new`).
-/
import EzBakeCommon.Timed.Cache

namespace EzBakeCommon.Timed

open Library

variable {V : Type*} {T : PosixTime} {expiration timestamp : UInt64}

/-- The expiration can be added to every second before year 10000: the count of
that year and the expiration make no more than a count can hold. -/
def Fits (expiration : UInt64) : Prop :=
  464269104000000000 + expiration.toNat * 1000000 ≤ 9223372036854775808

/-! ## §1. Conversions. -/

/-- An unsigned count, as a signed one of the same width. -/
theorem toInt64_toInt (n : UInt64) :
    n.toInt64.toInt = (n.toNat : Int).bmod 18446744073709551616 := by
  rw [← UInt64.ofNat_toNat (x := n), UInt64.toInt64_ofNat', Int64.toInt_ofNat', UInt64.ofNat_toNat]

/-- The timestamp is the whole second of the reading. -/
theorem new_timestamp_toNat (hT : T.Counts) (built : Instant) (v : V) :
    (CacheValue.new T built v).timestamp.toNat = built.micros / 1000000 := by
  have hbuilt := built.before10000
  have hsec := PosixTime.secondsSinceEpoch_toInt hT built
  show (T.secondsSinceEpoch built).toUInt64.toNat = _
  have hnonneg : (0 : Int64) ≤ T.secondsSinceEpoch built := by
    rw [Int64.le_iff_toInt_le, hsec]
    exact Int.natCast_nonneg _
  rw [Int64.toNat_toUInt64_of_le hnonneg]
  show (T.secondsSinceEpoch built).toInt.toNat = _
  rw [hsec, Int.toNat_natCast]

/-! ## §2. The test. -/

/-- The deadline is the sum of integers, wrapped to a signed 64-bit count. -/
theorem expiredAt_wrapped (hT : T.Counts) (h0 : expiration ≠ 0) (now : Instant) :
    LRUTimedCache.expiredAt T expiration timestamp now = true ↔
      (210866803200000000 + ((timestamp.toNat : Int) + expiration.toNat) * 1000000).bmod
          18446744073709551616 ≤ 210866803200000000 + now.micros := by
  have hsum : (timestamp.toInt64.toInt + expiration.toInt64.toInt).bmod 18446744073709551616
      = ((timestamp.toNat : Int) + expiration.toNat).bmod 18446744073709551616 := by
    rw [toInt64_toInt, toInt64_toInt, Int.bmod_add_bmod, Int.add_bmod_bmod]
  have hdeadline : (210866803200000000 + (timestamp.toInt64.toInt + expiration.toInt64.toInt)
        * 1000000).bmod 18446744073709551616
      = (210866803200000000 + ((timestamp.toNat : Int) + expiration.toNat) * 1000000).bmod
          18446744073709551616 := by
    rw [← Int.add_bmod_bmod, ← Int.bmod_mul_bmod, hsum, Int.bmod_mul_bmod, Int.add_bmod_bmod]
  unfold LRUTimedCache.expiredAt
  rw [if_neg h0, PosixTime.deadlineReached_wrapped hT, hdeadline]

theorem expiredAt_iff (hT : T.Counts) (h0 : expiration ≠ 0)
    (hfit : 210866803200000000 + (timestamp.toNat + expiration.toNat) * 1000000
      < 9223372036854775808)
    (now : Instant) :
    LRUTimedCache.expiredAt T expiration timestamp now = true ↔
      (timestamp.toNat + expiration.toNat) * 1000000 ≤ now.micros := by
  rw [expiredAt_wrapped hT h0, PosixTime.bmod_of_range (by omega) (by omega)]
  omega

/-- **A value is expired from the expiration after its second of building.** -/
theorem expiredAt_new (hT : T.Counts) (h0 : expiration ≠ 0) (hfit : Fits expiration)
    (built now : Instant) (v : V) :
    LRUTimedCache.expiredAt T expiration (CacheValue.new T built v).timestamp now = true ↔
      (built.micros / 1000000 + expiration.toNat) * 1000000 ≤ now.micros := by
  have hbuilt := built.before10000
  have hts := new_timestamp_toNat hT built v
  generalize (CacheValue.new T built v).timestamp = timestamp at hts ⊢
  have hsum : 210866803200000000 + (timestamp.toNat + expiration.toNat) * 1000000
      < 9223372036854775808 := by
    unfold Fits at hfit
    omega
  rw [expiredAt_iff hT h0 hsum, hts]

/-- What is expired stays expired. -/
theorem expiredAt_mono (hT : T.Counts) {now later : Instant} (hle : now.micros ≤ later.micros)
    (h : LRUTimedCache.expiredAt T expiration timestamp now = true) :
    LRUTimedCache.expiredAt T expiration timestamp later = true := by
  unfold LRUTimedCache.expiredAt at *
  split at h
  · exact absurd h (by simp)
  next h0 =>
    rw [if_neg h0]
    exact PosixTime.deadlineReached_mono hT hle h

end EzBakeCommon.Timed
