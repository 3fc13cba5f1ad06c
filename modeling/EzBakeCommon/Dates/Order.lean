/-
  EzBakeCommon.Dates.Order — dates and times in order.

  From 1583 on, as long as the year fits in a `short`, `getCurrentDate` returns a date
  that there is in the Gregorian calendar, leap years included, and the dates of two
  readings compare by year, month and day as their local days do.  The fields of
  `getCurrentTime` are always those of a time of day, and compare as the
  milliseconds since midnight (`dates_and_times_ordered`).

  The offset of the zone comes back cut to whole minutes, towards UTC
  (`timeZone_truncated`).
-/
import EzBakeCommon.Dates.Moment

namespace EzBakeCommon.Dates

open Library

/-! ## §1. Dates. -/

/-- The date, as one of the calendar. -/
def Date.toCivil (date : Date) : Civil.Date := ⟨date.year.toInt, date.month.toInt, date.day.toInt⟩

/-- The year of the local day is one of the Gregorian calendar, which `java.util.Calendar`
changes to in October 1582, and fits in a `short`. -/
def ShortYear (calendar : Calendar) : Prop :=
  1583 ≤ (Civil.civil calendar.localDay).year ∧ (Civil.civil calendar.localDay).year ≤ 32767

theorem getCurrentDate_toCivil (clock : SystemClock) (offset : Int32) (readings : ℕ)
    (hyear : ShortYear ⟨clock.reading readings, offset⟩) :
    (DateUtils.getCurrentDate clock offset readings).1.toCivil
      = Civil.civil (Calendar.mk (clock.reading readings) offset).localDay := by
  obtain ⟨hlow, hhigh⟩ := hyear
  generalize hcalendar : Calendar.mk (clock.reading readings) offset = calendar at *
  obtain ⟨hmonth, hday⟩ := Civil.civil_bounds calendar.localDay
  have hnext : calendar.get .month + 1 = Int32.ofInt (Civil.civil calendar.localDay).month := by
    show Int32.ofInt ((Civil.civil calendar.localDay).month - 1) + Int32.ofInt 1 = _
    rw [← Int32.ofInt_add, Int.sub_add_cancel]
  unfold DateUtils.getCurrentDate DateUtils.getInstance Date.toCivil
  dsimp only
  rw [hcalendar, hnext]
  unfold Calendar.get
  dsimp only
  rw [toInt_short_of_le (by omega) hhigh, toInt_short_of_le (by omega) (by omega),
    toInt_short_of_le (by omega) (by omega)]

/-! ## §2. Times. -/

/-- The fields are those of a time of day. -/
structure Time.Valid (time : Time) : Prop where
  hour : 0 ≤ time.hour.toInt ∧ time.hour.toInt ≤ 23
  minute : 0 ≤ time.minute.toInt ∧ time.minute.toInt ≤ 59
  second : 0 ≤ time.second.toInt ∧ time.second.toInt ≤ 59
  millisecond : 0 ≤ time.millisecond.toInt ∧ time.millisecond.toInt ≤ 999

/-- Compared field by field, the hour first. -/
def Time.Before (time time' : Time) : Prop :=
  time.hour.toInt < time'.hour.toInt ∨ (time.hour.toInt = time'.hour.toInt ∧
    (time.minute.toInt < time'.minute.toInt ∨ (time.minute.toInt = time'.minute.toInt ∧
      (time.second.toInt < time'.second.toInt ∨ (time.second.toInt = time'.second.toInt ∧
        time.millisecond.toInt < time'.millisecond.toInt)))))

theorem getCurrentTime_valid (clock : SystemClock) (offset : Int32) (readings : ℕ) :
    (DateUtils.getCurrentTime clock offset readings).1.Valid := by
  generalize hcalendar : Calendar.mk (clock.reading readings) offset = calendar
  have hbounds := calendar.millisOfDay_bounds
  unfold DateUtils.getCurrentTime DateUtils.getInstance
  dsimp only
  rw [hcalendar]
  unfold Calendar.get
  refine ⟨?_, ?_, ?_, ?_⟩
  · dsimp only
    rw [toInt_short_of_le (by omega) (by omega)]
    omega
  · dsimp only
    rw [toInt_short_of_le (by omega) (by omega)]
    omega
  · dsimp only
    rw [toInt_short_of_le (by omega) (by omega)]
    omega
  · dsimp only
    rw [toInt_short_of_le (by omega) (by omega)]
    omega

/-- **Valid times compare as the milliseconds since midnight.** -/
theorem time_before_iff {time time' : Time} (h : time.Valid) (h' : time'.Valid) :
    time.Before time' ↔ time.millis < time'.millis := by
  obtain ⟨hhour, hminute, hsecond, hmillisecond⟩ := h
  obtain ⟨hhour', hminute', hsecond', hmillisecond'⟩ := h'
  unfold Time.Before Time.millis
  omega

/-! ## §3. Zones. -/

/-- **What is lost of the offset** is less than a minute, and towards UTC. -/
theorem timeZone_truncated (calendar : Calendar) :
    (DateUtils.timeZone calendar).millis = calendar.offset.toInt.tdiv 60000 * 60000 ∧
    (60000 ∣ calendar.offset.toInt ↔
      (DateUtils.timeZone calendar).millis = calendar.offset.toInt) := by
  have hlow : -2147483648 ≤ calendar.offset.toInt := calendar.offset.le_toInt
  have hhigh : calendar.offset.toInt < 2147483648 := calendar.offset.toInt_lt
  have hminutes : (calendar.offset / (1000 * 60)).toInt = calendar.offset.toInt.tdiv 60000 :=
    Int32.toInt_div_of_ne_right _ _ (by decide)
  have hbounds : -35792 ≤ calendar.offset.toInt.tdiv 60000 ∧
      calendar.offset.toInt.tdiv 60000 ≤ 35792 := by
    have hdiv := Int.mul_tdiv_add_tmod calendar.offset.toInt 60000
    have habove := Int.tmod_lt_of_pos calendar.offset.toInt (by decide : (0 : ℤ) < 60000)
    have hbelow := Int.lt_tmod_of_pos calendar.offset.toInt (by decide : (0 : ℤ) < 60000)
    omega
  have hsplit := @split_minutes (calendar.offset / (1000 * 60)) (by omega) (by omega)
  rw [hminutes] at hsplit
  have htruncated : (DateUtils.timeZone calendar).millis
      = calendar.offset.toInt.tdiv 60000 * 60000 := hsplit
  refine ⟨htruncated, ?_⟩
  rw [htruncated]
  exact ⟨Int.tdiv_mul_cancel, fun h => ⟨_, (Int.mul_comm _ _).symm.trans h |>.symm⟩⟩

/-! ## §4. In order. -/

/-- **Dates and times are valid, and in the order of the readings they come from**: the
dates in that of the local days, the times in that of the milliseconds since midnight.
A later reading never has an earlier date. -/
theorem dates_and_times_ordered (clock : SystemClock) (offset : Int32) {m n : ℕ}
    (hm : ShortYear ⟨clock.reading m, offset⟩) (hn : ShortYear ⟨clock.reading n, offset⟩) :
    (DateUtils.getCurrentDate clock offset m).1.toCivil.Valid ∧
    (DateUtils.getCurrentTime clock offset m).1.Valid ∧
    ((DateUtils.getCurrentDate clock offset m).1.toCivil.Before
        (DateUtils.getCurrentDate clock offset n).1.toCivil ↔
      (Calendar.mk (clock.reading m) offset).localDay
        < (Calendar.mk (clock.reading n) offset).localDay) ∧
    ((DateUtils.getCurrentTime clock offset m).1.Before
        (DateUtils.getCurrentTime clock offset n).1 ↔
      (Calendar.mk (clock.reading m) offset).millisOfDay
        < (Calendar.mk (clock.reading n) offset).millisOfDay) ∧
    (m ≤ n → ¬ (DateUtils.getCurrentDate clock offset n).1.toCivil.Before
      (DateUtils.getCurrentDate clock offset m).1.toCivil) := by
  have hdate := getCurrentDate_toCivil clock offset m hm
  have hdate' := getCurrentDate_toCivil clock offset n hn
  have hvalid := Civil.valid_civil (Calendar.mk (clock.reading m) offset).localDay
  have hvalid' := Civil.valid_civil (Calendar.mk (clock.reading n) offset).localDay
  have htime := getCurrentTime_valid clock offset m
  have htime' := getCurrentTime_valid clock offset n
  refine ⟨by rw [hdate]; exact hvalid, htime, ?_, ?_, ?_⟩
  · rw [hdate, hdate', ← Civil.dayNumber_lt_iff hvalid hvalid', Civil.dayNumber_civil,
      Civil.dayNumber_civil]
  · rw [time_before_iff htime htime', getCurrentTime_millis, getCurrentTime_millis]
  · intro hle hback
    have hsteady := clock.steady hle
    rw [hdate, hdate', ← Civil.dayNumber_lt_iff hvalid' hvalid, Civil.dayNumber_civil,
      Civil.dayNumber_civil] at hback
    unfold Calendar.localDay Calendar.localMillis at hback
    dsimp only at hback
    omega

/-- The last day of a leap February, and the day after it. -/
theorem leap_day_ordered :
    (DateUtils.getCurrentDate (tickingFrom 951868799999) 0 0).1.toCivil.Valid ∧
    (DateUtils.getCurrentTime (tickingFrom 951868799999) 0 0).1.Valid ∧
    ((DateUtils.getCurrentDate (tickingFrom 951868799999) 0 0).1.toCivil.Before
        (DateUtils.getCurrentDate (tickingFrom 951868799999) 0 1).1.toCivil ↔
      (Calendar.mk ((tickingFrom 951868799999).reading 0) 0).localDay
        < (Calendar.mk ((tickingFrom 951868799999).reading 1) 0).localDay) ∧
    ((DateUtils.getCurrentTime (tickingFrom 951868799999) 0 0).1.Before
        (DateUtils.getCurrentTime (tickingFrom 951868799999) 0 1).1 ↔
      (Calendar.mk ((tickingFrom 951868799999).reading 0) 0).millisOfDay
        < (Calendar.mk ((tickingFrom 951868799999).reading 1) 0).millisOfDay) ∧
    (0 ≤ 1 → ¬ (DateUtils.getCurrentDate (tickingFrom 951868799999) 0 1).1.toCivil.Before
      (DateUtils.getCurrentDate (tickingFrom 951868799999) 0 0).1.toCivil) := by
  have hfirst : ShortYear ⟨(tickingFrom 951868799999).reading 0, 0⟩ := ⟨by decide, by decide⟩
  have hsecond : ShortYear ⟨(tickingFrom 951868799999).reading 1, 0⟩ := ⟨by decide, by decide⟩
  exact dates_and_times_ordered (tickingFrom 951868799999) 0 hfirst hsecond

end EzBakeCommon.Dates
