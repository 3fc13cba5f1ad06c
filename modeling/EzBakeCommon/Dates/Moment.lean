/-
  EzBakeCommon.Dates.Moment — which moment getCurrentDateTime denotes.

  The date and the time come from two readings of the clock.  Each is split right,
  and the offset of the zone comes back from its sign, hours and minutes; but the
  time of a later day on the date of the first reading is up to a day too
  early.  So the value denotes a moment of the call exactly if the second reading is
  not earlier in its day than the first, on a date whose year fits in a `short`
  (`denotes_moment_iff`).
-/
import EzBakeCommon.Dates.DateUtils

namespace EzBakeCommon.Dates

open Library

/-! ## §1. What is denoted. -/

/-- The offset that the sign, the hours and the minutes say. -/
def TimeZone.millis (tz : TimeZone) : ℤ :=
  if tz.afterUTC then (60 * tz.hour.toInt + tz.minute.toInt) * 60000
  else -((60 * tz.hour.toInt + tz.minute.toInt) * 60000)

def Time.millis (time : Time) : ℤ :=
  ((60 * time.hour.toInt + time.minute.toInt) * 60 + time.second.toInt) * 1000
    + time.millisecond.toInt

def Date.dayNumber (date : Date) : ℤ :=
  Civil.dayNumber ⟨date.year.toInt, date.month.toInt, date.day.toInt⟩

/-- Local date and time, minus the offset. -/
def DateTime.instant (value : DateTime) : ℤ :=
  value.date.dayNumber * 86400000 + value.time.millis - value.time.tz.millis

/-- The value denotes an instant between the first and the last reading of the call. -/
def DenotesMoment (clock : SystemClock) (offset : Int32) (readings : ℕ) : Prop :=
  clock.reading readings ≤ (DateUtils.getCurrentDateTime clock offset readings).1.instant ∧
    (DateUtils.getCurrentDateTime clock offset readings).1.instant
      ≤ clock.reading ((DateUtils.getCurrentDateTime clock offset readings).2 - 1)

/-! ## §2. Fields. -/

/-- What the conversions to `int` and to `short` leave of a number. -/
theorem toInt_short (value : ℤ) : (Int32.ofInt value).toInt16.toInt = value.bmod 65536 := by
  rw [Int32.toInt_toInt16, Int32.toInt_ofInt]
  exact Int.bmod_bmod_of_dvd (by decide)

theorem toInt_short_of_le {value : ℤ} (hlow : -32768 ≤ value) (hhigh : value ≤ 32767) :
    (Int32.ofInt value).toInt16.toInt = value := by
  rw [toInt_short]
  exact Int.bmod_eq_of_le (by omega) (by omega)

theorem toInt_toInt16_of_le {n : Int32} (hlow : -32768 ≤ n.toInt) (hhigh : n.toInt ≤ 32767) :
    n.toInt16.toInt = n.toInt := by
  rw [Int32.toInt_toInt16]
  exact Int.bmod_eq_of_le (by omega) (by omega)

theorem toInt_abs {n : Int32} (h : -2147483648 < n.toInt) :
    (abs n).toInt = if n.toInt < 0 then -n.toInt else n.toInt := by
  have hhigh : n.toInt < 2147483648 := n.toInt_lt
  have hneg : n < 0 ↔ n.toInt < 0 := Int32.lt_iff_toInt_lt
  unfold abs
  by_cases hn : n.toInt < 0
  · rw [if_pos (hneg.mpr hn), if_pos hn, Int32.toInt_neg]
    exact Int.bmod_eq_of_le (by omega) (by omega)
  · rw [if_neg (fun h => hn (hneg.mp h)), if_neg hn]

/-- Hours and minutes make up the minutes that are split. -/
theorem split_minutes {minutes : Int32} (hlow : -35792 ≤ minutes.toInt)
    (hhigh : minutes.toInt ≤ 35792) :
    (TimeZone.mk (abs minutes / 60).toInt16 (abs minutes % 60).toInt16
      (decide (0 < minutes))).millis = minutes.toInt * 60000 := by
  have hpos : 0 < minutes ↔ 0 < minutes.toInt := Int32.lt_iff_toInt_lt
  have habs := @toInt_abs minutes (by omega)
  have hhour : (abs minutes / 60).toInt = (abs minutes).toInt / 60 := by
    rw [Int32.toInt_div_of_ne_right _ _ (by decide)]
    exact Int.tdiv_eq_ediv_of_nonneg (by omega)
  have hminute : (abs minutes % 60).toInt = (abs minutes).toInt % 60 := by
    rw [Int32.toInt_mod]
    exact Int.tmod_eq_emod_of_nonneg (by omega)
  have hshortHour := @toInt_toInt16_of_le (abs minutes / 60) (by omega) (by omega)
  have hshortMinute := @toInt_toInt16_of_le (abs minutes % 60) (by omega) (by omega)
  unfold TimeZone.millis
  dsimp only
  rw [hshortHour, hshortMinute, hhour, hminute]
  by_cases hafter : 0 < minutes.toInt
  · rw [if_pos (decide_eq_true (hpos.mpr hafter))]
    omega
  · rw [if_neg (fun h => hafter (hpos.mp (of_decide_eq_true h)))]
    omega

/-- **The offset comes back** if it is of whole minutes. -/
theorem timeZone_millis {calendar : Calendar} (hwhole : 60000 ∣ calendar.offset.toInt) :
    (DateUtils.timeZone calendar).millis = calendar.offset.toInt := by
  have hlow : -2147483648 ≤ calendar.offset.toInt := calendar.offset.le_toInt
  have hhigh : calendar.offset.toInt < 2147483648 := calendar.offset.toInt_lt
  -- the division has no remainder to truncate
  have hminutes : (calendar.offset / (1000 * 60)).toInt = calendar.offset.toInt / 60000 := by
    rw [Int32.toInt_div_of_ne_right _ _ (by decide)]
    exact Int.tdiv_eq_ediv_of_dvd hwhole
  have hsplit := @split_minutes (calendar.offset / (1000 * 60)) (by omega) (by omega)
  refine hsplit.trans ?_
  omega

/-- A day and a time of the day make up local time. -/
theorem Calendar.localMillis_eq (calendar : Calendar) :
    calendar.localMillis = calendar.localDay * 86400000 + calendar.millisOfDay := by
  unfold localDay millisOfDay
  omega

theorem Calendar.millisOfDay_bounds (calendar : Calendar) :
    0 ≤ calendar.millisOfDay ∧ calendar.millisOfDay < 86400000 := by
  unfold millisOfDay
  omega

theorem getCurrentTime_millis (clock : SystemClock) (offset : Int32) (readings : ℕ) :
    (DateUtils.getCurrentTime clock offset readings).1.millis
      = (Calendar.mk (clock.reading readings) offset).millisOfDay := by
  generalize hcalendar : Calendar.mk (clock.reading readings) offset = calendar
  have hbounds := calendar.millisOfDay_bounds
  unfold DateUtils.getCurrentTime DateUtils.getInstance Time.millis
  dsimp only
  rw [hcalendar]
  unfold Calendar.get
  dsimp only
  rw [toInt_short_of_le (by omega) (by omega), toInt_short_of_le (by omega) (by omega),
    toInt_short_of_le (by omega) (by omega), toInt_short_of_le (by omega) (by omega)]
  omega

/-- The date of a day, its year cut to a `short`. -/
def shortDate (day : ℤ) : Civil.Date :=
  ⟨(Civil.civil day).year.bmod 65536, (Civil.civil day).month, (Civil.civil day).day⟩

theorem getCurrentDate_dayNumber (clock : SystemClock) (offset : Int32) (readings : ℕ) :
    (DateUtils.getCurrentDate clock offset readings).1.dayNumber
      = Civil.dayNumber (shortDate (Calendar.mk (clock.reading readings) offset).localDay) := by
  generalize hcalendar : Calendar.mk (clock.reading readings) offset = calendar
  obtain ⟨hmonth, hday⟩ := Civil.civil_bounds calendar.localDay
  have hnext : calendar.get .month + 1 = Int32.ofInt (Civil.civil calendar.localDay).month := by
    show Int32.ofInt ((Civil.civil calendar.localDay).month - 1) + Int32.ofInt 1 = _
    rw [← Int32.ofInt_add, Int.sub_add_cancel]
  unfold DateUtils.getCurrentDate DateUtils.getInstance Date.dayNumber
  dsimp only
  rw [hcalendar, hnext]
  unfold Calendar.get
  dsimp only
  rw [toInt_short, toInt_short_of_le (by omega) (by omega), toInt_short_of_le (by omega) (by omega)]
  rfl

/-! ## §3. The date of the first reading and the time of the second. -/

/-- What is denoted, from the two readings. -/
theorem getCurrentDateTime_instant (clock : SystemClock) (offset : Int32) (readings : ℕ)
    (hwhole : 60000 ∣ offset.toInt) :
    (DateUtils.getCurrentDateTime clock offset readings).1.instant
      = Civil.dayNumber (shortDate (Calendar.mk (clock.reading readings) offset).localDay)
          * 86400000
        + (Calendar.mk (clock.reading (readings + 1)) offset).millisOfDay - offset.toInt := by
  have hdate := getCurrentDate_dayNumber clock offset readings
  have htime := getCurrentTime_millis clock offset (readings + 1)
  have htz := @timeZone_millis (Calendar.mk (clock.reading (readings + 1)) offset) hwhole
  show (DateUtils.getCurrentDate clock offset readings).1.dayNumber * 86400000
      + (DateUtils.getCurrentTime clock offset (readings + 1)).1.millis
      - (DateUtils.timeZone (Calendar.mk (clock.reading (readings + 1)) offset)).millis = _
  rw [hdate, htime, htz]

/-- A moment of the call: not before the first reading, on a day that is not after
the second. -/
theorem denotesMoment_iff_day (clock : SystemClock) (offset : Int32) (readings : ℕ)
    (hwhole : 60000 ∣ offset.toInt) :
    DenotesMoment clock offset readings ↔
      (Calendar.mk (clock.reading readings) offset).localMillis
        ≤ Civil.dayNumber (shortDate (Calendar.mk (clock.reading readings) offset).localDay)
            * 86400000 + (Calendar.mk (clock.reading (readings + 1)) offset).millisOfDay ∧
      Civil.dayNumber (shortDate (Calendar.mk (clock.reading readings) offset).localDay)
        ≤ (Calendar.mk (clock.reading (readings + 1)) offset).localDay := by
  have hinstant := getCurrentDateTime_instant clock offset readings hwhole
  have hlast : (DateUtils.getCurrentDateTime clock offset readings).2 - 1 = readings + 1 := rfl
  unfold DenotesMoment
  rw [hinstant, hlast]
  generalize Civil.dayNumber (shortDate _) = day
  unfold Calendar.localDay Calendar.millisOfDay Calendar.localMillis
  dsimp only
  omega

/-- A year that a `short` holds is kept. -/
theorem dayNumber_shortDate {day : ℤ} (hlow : -32768 ≤ (Civil.civil day).year)
    (hhigh : (Civil.civil day).year ≤ 32767) : Civil.dayNumber (shortDate day) = day := by
  have hyear : (Civil.civil day).year.bmod 65536 = (Civil.civil day).year :=
    Int.bmod_eq_of_le (by omega) (by omega)
  unfold shortDate
  rw [hyear]
  exact Civil.dayNumber_civil day

/-- A year above a `short` comes back as an earlier one. -/
theorem dayNumber_shortDate_lt {day : ℤ} (hyear : 32767 < (Civil.civil day).year) :
    Civil.dayNumber (shortDate day) < day := by
  have hbmod : (Civil.civil day).year.bmod 65536 < (Civil.civil day).year := by
    have hlt := @Int.bmod_lt (Civil.civil day).year 65536 (by decide)
    omega
  calc Civil.dayNumber (shortDate day)
      < Civil.dayNumber (Civil.civil day) := Civil.dayNumber_lt _ _ hbmod
    _ = day := Civil.dayNumber_civil day

/-- A year below a `short` comes back as a later one. -/
theorem lt_dayNumber_shortDate {day : ℤ} (hyear : (Civil.civil day).year < -32768) :
    day < Civil.dayNumber (shortDate day) := by
  have hbmod : (Civil.civil day).year < (Civil.civil day).year.bmod 65536 := by
    have hle := @Int.le_bmod (Civil.civil day).year 65536 (by decide)
    omega
  calc day
      = Civil.dayNumber (Civil.civil day) := (Civil.dayNumber_civil day).symm
    _ < Civil.dayNumber (shortDate day) := Civil.dayNumber_lt _ _ hbmod

/-! ## §4. When a moment of the call is denoted. -/

/-- The time of the second reading is not earlier than that of the first, in a year that a
`short` holds; or the year is so early that it comes back as a later one, and the
second reading is after that date too.  The years are those of `Calendar.get`. -/
def Fitting (first second : Calendar) : Prop :=
  (-32768 ≤ (Civil.civil first.localDay).year ∧ (Civil.civil first.localDay).year ≤ 32767 ∧
      first.millisOfDay ≤ second.millisOfDay) ∨
    ((Civil.civil first.localDay).year < -32768 ∧
      Civil.dayNumber (shortDate first.localDay) ≤ second.localDay)

/-- **A moment of the call is denoted exactly if the readings fit.** -/
theorem denotes_moment_iff (clock : SystemClock) (offset : Int32) (readings : ℕ)
    (hwhole : 60000 ∣ offset.toInt) :
    DenotesMoment clock offset readings ↔
      Fitting ⟨clock.reading readings, offset⟩ ⟨clock.reading (readings + 1), offset⟩ := by
  have hsteady := clock.steady (Nat.le_succ readings)
  rw [denotesMoment_iff_day clock offset readings hwhole]
  generalize hfirst : Calendar.mk (clock.reading readings) offset = first
  generalize hsecond : Calendar.mk (clock.reading (readings + 1)) offset = second
  have horder : first.localMillis ≤ second.localMillis := by
    rw [← hfirst, ← hsecond]
    exact Int.add_le_add_right hsteady offset.toInt
  have hsplit := first.localMillis_eq
  have hsplit' := second.localMillis_eq
  have hbounds := first.millisOfDay_bounds
  have hbounds' := second.millisOfDay_bounds
  unfold Fitting
  by_cases hlow : (Civil.civil first.localDay).year < -32768
  · -- a later date: not before the first reading
    have hlater := lt_dayNumber_shortDate hlow
    omega
  by_cases hhigh : 32767 < (Civil.civil first.localDay).year
  · -- an earlier date: before the first reading, at any time of the day
    have hearlier := dayNumber_shortDate_lt hhigh
    omega
  · -- the date of the first reading
    have hkept := @dayNumber_shortDate first.localDay (by omega) (by omega)
    rw [hkept]
    omega

/-- A clock that is read once in each millisecond. -/
def tickingFrom (start : ℤ) : SystemClock := ⟨fun n => start + n, fun h => by omega⟩

/-- Within one day the time moves on. -/
theorem same_day_denoted : DenotesMoment (tickingFrom 1405555200000) (-18000000) 0 := by
  refine (denotes_moment_iff _ _ _ (by decide)).mpr (Or.inl ⟨?_, ?_, ?_⟩)
  · decide
  · decide
  · decide

/-- **Midnight between the two readings.**  The date of the last millisecond of
1970-01-01 and the time of the first of 1970-01-02 denote the first of 1970-01-01. -/
theorem midnight_straddled :
    (DateUtils.getCurrentDateTime (tickingFrom 86399999) 0 0).1.instant = 0 ∧
      ¬ DenotesMoment (tickingFrom 86399999) 0 0 := by
  refine ⟨by decide, ?_⟩
  rintro ⟨hfirst, -⟩
  exact absurd hfirst (by decide)

end EzBakeCommon.Dates
