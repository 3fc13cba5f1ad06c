/-
  EzBakeCommon.Library.Civil — days and dates of the Gregorian calendar.

  Years are counted from March, so that a leap day is the last of its year, and
  on before the year 1: the year 0 is the one before it.  `dayNumber` counts the
  days from 1970-01-01 to a date; `civil` finds the date of a day by taking
  off whole cycles of 400, 100 and 4 years and 1 year.

  Main results:
    * `dayNumber_civil` — the date of a day is that many days from 1970-01-01.
    * `dayNumber_lt` — the same date in a later year is a later day.
    * `valid_civil` — the date of a day is a valid one.
    * `dayNumber_lt_iff` — valid dates compare by year, month and day as the days.
-/
import Mathlib.Data.Int.Notation
import Mathlib.Data.Nat.Notation

namespace Library.Civil

/-- A day of a month of a year; the first month is January, number 1. -/
structure Date where
  year : ℤ
  month : ℤ
  day : ℤ
  deriving DecidableEq

/-! ## §1. Years from March. -/

/-- The days from March 1 of the year 0 to March 1 of this year. -/
def daysBefore (year : ℤ) : ℤ := 365 * year + year / 4 - year / 100 + year / 400

/-- The year of a day, counted from March 1 of the year 0. -/
def yearOf (day : ℤ) : ℤ :=
  let quadricentennial := day / 146097
  let rest := day % 146097
  -- the last century is a day longer, and so is the last year
  let century := min 3 (rest / 36524)
  let rest := rest - 36524 * century
  let quadrennial := rest / 1461
  let rest := rest % 1461
  400 * quadricentennial + 100 * century + 4 * quadrennial + min 3 (rest / 365)

/-- What the cycles of a year have before it. -/
theorem daysBefore_cycles {q c r s : ℤ} (hc : 0 ≤ c ∧ c ≤ 3) (hr : 0 ≤ r ∧ r ≤ 24)
    (hs : 0 ≤ s ∧ s ≤ 3) :
    daysBefore (400 * q + 100 * c + 4 * r + s) = 146097 * q + 36524 * c + 1461 * r + 365 * s := by
  unfold daysBefore
  omega

/-- **A day is in its year**, which has at most 366 days. -/
theorem yearOf_spec (day : ℤ) :
    daysBefore (yearOf day) ≤ day ∧ day ≤ daysBefore (yearOf day) + 365 := by
  have hrest : 0 ≤ day % 146097 ∧ day % 146097 < 146097 := by omega
  have hday := Int.mul_ediv_add_emod day 146097
  unfold yearOf
  dsimp only
  generalize day / 146097 = q at *
  generalize day % 146097 = rest at *
  have hcentury : 0 ≤ min 3 (rest / 36524) ∧ min 3 (rest / 36524) ≤ 3 ∧
      0 ≤ rest - 36524 * min 3 (rest / 36524) ∧
      rest - 36524 * min 3 (rest / 36524) ≤ 36524 := by omega
  generalize min 3 (rest / 36524) = c at *
  generalize hd : rest - 36524 * c = d at *
  rw [daysBefore_cycles ⟨hcentury.1, hcentury.2.1⟩ (by omega) (by omega)]
  omega

/-- A later year begins at least 365 days later. -/
theorem daysBefore_lt {year year' : ℤ} (h : year < year') :
    daysBefore year + 365 ≤ daysBefore year' := by
  unfold daysBefore
  omega

/-! ## §2. Dates. -/

/-- The days from March 1 to the first day of a month, March being number 0. -/
def daysBeforeMonth (month : ℤ) : ℤ := (153 * month + 2) / 5

/-- The month of a day, both counted from March. -/
def monthOf (day : ℤ) : ℤ := (5 * day + 2) / 153

/-- The days from 1970-01-01 to a date. -/
def dayNumber (date : Date) : ℤ :=
  -- January and February belong to the year from the March before
  if date.month ≤ 2 then
    daysBefore (date.year - 1) + daysBeforeMonth (date.month + 9) + date.day - 719469
  else daysBefore date.year + daysBeforeMonth (date.month - 3) + date.day - 719469

/-- The date of a day, counted from 1970-01-01. -/
def civil (day : ℤ) : Date :=
  let year := yearOf (day + 719468)
  let dayOfYear := day + 719468 - daysBefore year
  let month := monthOf dayOfYear
  if month ≤ 9 then ⟨year, month + 3, dayOfYear - daysBeforeMonth month + 1⟩
  else ⟨year + 1, month - 9, dayOfYear - daysBeforeMonth month + 1⟩

/-- A month has at most 31 days. -/
theorem monthOf_spec {day : ℤ} (hlow : 0 ≤ day) (hhigh : day ≤ 365) :
    0 ≤ monthOf day ∧ monthOf day ≤ 11 ∧ daysBeforeMonth (monthOf day) ≤ day ∧
      day ≤ daysBeforeMonth (monthOf day) + 30 := by
  unfold daysBeforeMonth monthOf
  omega

/-- What the date of a day is: in the months from March on of its year, or in the two of
the next. -/
theorem civil_cases (day : ℤ) : ∃ year month rest,
    day + 719468 = daysBefore year + daysBeforeMonth month + rest ∧ 0 ≤ rest ∧ rest ≤ 30 ∧
    ((0 ≤ month ∧ month ≤ 9 ∧ civil day = ⟨year, month + 3, rest + 1⟩) ∨
      (10 ≤ month ∧ month ≤ 11 ∧ civil day = ⟨year + 1, month - 9, rest + 1⟩)) := by
  obtain ⟨hlow, hhigh⟩ := yearOf_spec (day + 719468)
  have hmonth := @monthOf_spec (day + 719468 - daysBefore (yearOf (day + 719468))) (by omega)
    (by omega)
  refine ⟨yearOf (day + 719468), monthOf (day + 719468 - daysBefore (yearOf (day + 719468))),
    day + 719468 - daysBefore (yearOf (day + 719468))
      - daysBeforeMonth (monthOf (day + 719468 - daysBefore (yearOf (day + 719468)))),
    by omega, by omega, by omega, ?_⟩
  unfold civil
  dsimp only
  split
  next h => exact Or.inl ⟨hmonth.1, h, rfl⟩
  next h => exact Or.inr ⟨by omega, hmonth.2.1, rfl⟩

theorem civil_bounds (day : ℤ) :
    (1 ≤ (civil day).month ∧ (civil day).month ≤ 12) ∧
      1 ≤ (civil day).day ∧ (civil day).day ≤ 31 := by
  obtain ⟨year, month, rest, -, hlow, hhigh, ⟨hfirst, hlast, heq⟩ | ⟨hfirst, hlast, heq⟩⟩ :=
    civil_cases day
  · rw [heq]
    dsimp only
    omega
  · rw [heq]
    dsimp only
    omega

/-- **The date of a day is that many days from 1970-01-01.** -/
theorem dayNumber_civil (day : ℤ) : dayNumber (civil day) = day := by
  obtain ⟨year, month, rest, hday, hlow, hhigh, ⟨hfirst, hlast, heq⟩ | ⟨hfirst, hlast, heq⟩⟩ :=
    civil_cases day
  · have hmonth : ¬ month + 3 ≤ 2 := by omega
    rw [heq]
    show (if month + 3 ≤ 2 then _ else
      daysBefore year + daysBeforeMonth (month + 3 - 3) + (rest + 1) - 719469) = day
    rw [if_neg hmonth, Int.add_sub_cancel]
    omega
  · have hmonth : month - 9 ≤ 2 := by omega
    rw [heq]
    show (if month - 9 ≤ 2 then
      daysBefore (year + 1 - 1) + daysBeforeMonth (month - 9 + 9) + (rest + 1) - 719469
      else _) = day
    rw [if_pos hmonth, Int.add_sub_cancel, Int.sub_add_cancel]
    omega

/-- **The same day of the same month in a later year is a later day.** -/
theorem dayNumber_lt {year year' : ℤ} (month day : ℤ) (h : year < year') :
    dayNumber ⟨year, month, day⟩ < dayNumber ⟨year', month, day⟩ := by
  have hyears := daysBefore_lt h
  have hbefore := @daysBefore_lt (year - 1) (year' - 1) (by omega)
  unfold dayNumber
  dsimp only
  split
  next => omega
  next => omega

example : civil 11016 = ⟨2000, 2, 29⟩ := by decide

/-! ## §3. Valid dates. -/

/-- Every fourth year is a leap year, but of the hundredth ones only every fourth. -/
def isLeap (year : ℤ) : Bool := year % 4 = 0 && (year % 100 ≠ 0 || year % 400 = 0)

def daysInMonth (year month : ℤ) : ℤ :=
  if month = 2 then
    if isLeap year then 29 else 28
  else if month = 4 ∨ month = 6 ∨ month = 9 ∨ month = 11 then 30
  else 31

/-- There is such a day. -/
structure Date.Valid (date : Date) : Prop where
  month : 1 ≤ date.month ∧ date.month ≤ 12
  day : 1 ≤ date.day ∧ date.day ≤ daysInMonth date.year date.month

/-- An earlier year, or an earlier month of the same year, or an earlier day of the same
month. -/
def Date.Before (date date' : Date) : Prop :=
  date.year < date'.year ∨ (date.year = date'.year ∧
    (date.month < date'.month ∨ (date.month = date'.month ∧ date.day < date'.day)))

theorem daysInMonth_pos (year month : ℤ) : 28 ≤ daysInMonth year month := by
  unfold daysInMonth
  split
  next => split <;> omega
  next => split <;> omega

/-- A leap year has a day more before the next March. -/
theorem daysBefore_succ (year : ℤ) :
    daysBefore year = daysBefore (year - 1) + 365 + if isLeap year then 1 else 0 := by
  unfold daysBefore isLeap
  simp only [Bool.and_eq_true, Bool.or_eq_true, decide_eq_true_eq]
  split
  next => omega
  next => omega

/-- The days from 1970-01-01 to the first day of a month. -/
theorem dayNumber_eq (year month day : ℤ) :
    dayNumber ⟨year, month, day⟩ = dayNumber ⟨year, month, 1⟩ + (day - 1) := by
  unfold dayNumber
  dsimp only
  split
  next => omega
  next => omega

/-- **The next month begins after the last day of a month.** -/
theorem dayNumber_next_month {year month : ℤ} (hmonth : 1 ≤ month ∧ month ≤ 11) :
    dayNumber ⟨year, month + 1, 1⟩ = dayNumber ⟨year, month, 1⟩ + daysInMonth year month := by
  have hsucc := daysBefore_succ year
  have hcases : month = 1 ∨ month = 2 ∨ month = 3 ∨ month = 4 ∨ month = 5 ∨ month = 6 ∨ month = 7 ∨
      month = 8 ∨ month = 9 ∨ month = 10 ∨ month = 11 := by omega
  rcases hcases with rfl | rfl | rfl | rfl | rfl | rfl | rfl | rfl | rfl | rfl | rfl
  case inr.inl =>
    -- February, whose next month belongs to the next year from March
    unfold dayNumber daysInMonth daysBeforeMonth
    simp only [Int.reduceAdd, Int.reduceLE, Int.reduceSub, reduceIte]
    split at hsucc
    next hleap =>
      rw [if_pos hleap]
      omega
    next hleap =>
      rw [if_neg hleap]
      omega
  all_goals
    unfold dayNumber daysInMonth daysBeforeMonth
    simp
    omega

theorem dayNumber_next_year (year : ℤ) :
    dayNumber ⟨year + 1, 1, 1⟩ = dayNumber ⟨year, 12, 1⟩ + 31 := by
  unfold dayNumber daysBeforeMonth
  simp only [Int.reduceAdd, Int.reduceLE, Int.reduceSub, reduceIte, Int.add_sub_cancel]
  omega

/-- A later month of a year begins after the last day of an earlier one. -/
theorem dayNumber_later_month {year month : ℤ} (hlow : 1 ≤ month) (k : ℕ) :
    month + k + 1 ≤ 12 →
      dayNumber ⟨year, month, 1⟩ + daysInMonth year month
        ≤ dayNumber ⟨year, month + k + 1, 1⟩ := by
  induction k with
  | zero =>
      intro hhigh
      have hnext := @dayNumber_next_month year month (by omega)
      have hmonth : month + ((0 : ℕ) : ℤ) + 1 = month + 1 := by omega
      rw [hmonth]
      exact Int.le_of_eq hnext.symm
  | succ k ih =>
      intro hhigh
      have hnext := @dayNumber_next_month year (month + k + 1) (by omega)
      have hpos := daysInMonth_pos year (month + k + 1)
      have hprevious := ih (by omega)
      have hmonth : month + ((k + 1 : ℕ) : ℤ) + 1 = month + k + 1 + 1 := by omega
      rw [hmonth, hnext]
      omega

/-- A month is within its year. -/
theorem dayNumber_in_year {year month : ℤ} (hmonth : 1 ≤ month ∧ month ≤ 12) :
    dayNumber ⟨year, 1, 1⟩ ≤ dayNumber ⟨year, month, 1⟩ ∧
      dayNumber ⟨year, month, 1⟩ + daysInMonth year month ≤ dayNumber ⟨year + 1, 1, 1⟩ := by
  have hnext := dayNumber_next_year year
  constructor
  · by_cases hfirst : month = 1
    · exact Int.le_of_eq (congrArg (fun m => dayNumber ⟨year, m, 1⟩) hfirst.symm)
    · obtain ⟨k, hk⟩ := Int.le.dest (by omega : 1 + 1 ≤ month)
      have hlater := @dayNumber_later_month year 1 (by omega) k (by omega)
      have hpos := daysInMonth_pos year 1
      have heq : 1 + (k : ℤ) + 1 = month := by omega
      rw [heq] at hlater
      omega
  · by_cases hlast : month = 12
    · subst hlast
      exact Int.le_of_eq hnext.symm
    · obtain ⟨k, hk⟩ := Int.le.dest (by omega : month + 1 ≤ 12)
      have hlater := @dayNumber_later_month year month hmonth.1 k (by omega)
      have heq : month + (k : ℤ) + 1 = 12 := by omega
      rw [heq] at hlater
      omega

/-- Dates are in one order. -/
theorem before_or_eq_or_before (date date' : Date) :
    date.Before date' ∨ date = date' ∨ date'.Before date := by
  obtain ⟨year, month, day⟩ := date
  obtain ⟨year', month', day'⟩ := date'
  unfold Date.Before
  rw [Date.mk.injEq]
  dsimp only
  omega

section Valid

variable {date date' : Date} (h : date.Valid) (h' : date'.Valid)
include h

/-- A valid date is before the next month begins. -/
theorem dayNumber_in_month :
    dayNumber ⟨date.year, date.month, 1⟩ ≤ dayNumber date ∧
      dayNumber date < dayNumber ⟨date.year, date.month, 1⟩ + daysInMonth date.year date.month := by
  have heq := dayNumber_eq date.year date.month date.day
  have hday := h.day
  obtain ⟨year, month, day⟩ := date
  dsimp only at *
  omega

include h'

/-- **Earlier dates are earlier days.** -/
theorem dayNumber_lt_of_before (hbefore : date.Before date') :
    dayNumber date < dayNumber date' := by
  obtain ⟨hfirst, hlast⟩ := dayNumber_in_month h
  obtain ⟨hfirst', hlast'⟩ := dayNumber_in_month h'
  have hmonth := h.month
  have hmonth' := h'.month
  rcases hbefore with hyear | ⟨hyear, hlt | ⟨heq, hlt⟩⟩
  · -- the end of the year is between them
    have hend := (@dayNumber_in_year date.year date.month hmonth).2
    have hbegin := (@dayNumber_in_year date'.year date'.month hmonth').1
    have hyears : dayNumber ⟨date.year + 1, 1, 1⟩ ≤ dayNumber ⟨date'.year, 1, 1⟩ := by
      by_cases hsucc : date.year + 1 = date'.year
      · exact Int.le_of_eq (congrArg (fun y => dayNumber ⟨y, 1, 1⟩) hsucc)
      · exact Int.le_of_lt (dayNumber_lt 1 1 (by omega))
    omega
  · -- the end of the month is
    obtain ⟨k, hk⟩ := Int.le.dest (Int.add_one_le_of_lt hlt)
    have hlater := @dayNumber_later_month date.year date.month hmonth.1 k (by omega)
    have heq : date.month + (k : ℤ) + 1 = date'.month := by omega
    rw [heq, hyear] at hlater
    rw [hyear] at hlast
    omega
  · have hday := dayNumber_eq date.year date.month date.day
    have hday' := dayNumber_eq date'.year date'.month date'.day
    rw [hyear, heq] at hday
    obtain ⟨year, month, day⟩ := date
    obtain ⟨year', month', day'⟩ := date'
    dsimp only at *
    subst hyear
    subst heq
    omega

/-- **Valid dates compare as the days**, by year, month and day. -/
theorem dayNumber_lt_iff : dayNumber date < dayNumber date' ↔ date.Before date' := by
  refine ⟨fun hlt => ?_, dayNumber_lt_of_before h h'⟩
  rcases before_or_eq_or_before date date' with hbefore | rfl | hbefore
  · exact hbefore
  · exact absurd hlt (Int.lt_irrefl _)
  · exact absurd (dayNumber_lt_of_before h' h hbefore) (Int.not_lt.mpr (Int.le_of_lt hlt))

end Valid

/-! ## §4. Days are valid dates. -/

/-- A day is before the next year from March begins. -/
theorem lt_next_yearOf (day : ℤ) : day < daysBefore (yearOf day + 1) := by
  have hrest : 0 ≤ day % 146097 ∧ day % 146097 < 146097 := by omega
  have hday := Int.mul_ediv_add_emod day 146097
  unfold yearOf
  dsimp only
  generalize day / 146097 = q at *
  generalize day % 146097 = rest at *
  have hcentury : 0 ≤ min 3 (rest / 36524) ∧ min 3 (rest / 36524) ≤ 3 ∧
      0 ≤ rest - 36524 * min 3 (rest / 36524) ∧
      rest - 36524 * min 3 (rest / 36524) ≤ 36524 ∧
      (min 3 (rest / 36524) < 3 → rest - 36524 * min 3 (rest / 36524) < 36524) := by omega
  generalize min 3 (rest / 36524) = c at *
  generalize hd : rest - 36524 * c = d at *
  have hquad : 0 ≤ d / 1461 ∧ d / 1461 ≤ 24 ∧ d = 1461 * (d / 1461) + d % 1461 ∧ 0 ≤ d % 1461 ∧
      d % 1461 ≤ 1460 := by omega
  generalize d / 1461 = r at *
  generalize d % 1461 = f at *
  have hyear : 0 ≤ min 3 (f / 365) ∧ min 3 (f / 365) ≤ 3 ∧ f ≤ 365 * min 3 (f / 365) + 365 ∧
      (min 3 (f / 365) < 3 → f < 365 * min 3 (f / 365) + 365) := by omega
  generalize min 3 (f / 365) = s at *
  -- the last year of four, of a hundred and of four hundred end larger cycles
  by_cases hs : s < 3
  · have hcycles := @daysBefore_cycles q c r (s + 1) (by omega) (by omega) (by omega)
    rw [← Int.add_assoc] at hcycles
    omega
  by_cases hr : r < 24
  · have hcycles := @daysBefore_cycles q c (r + 1) 0 (by omega) (by omega) (by omega)
    have heq : 400 * q + 100 * c + 4 * r + s + 1 = 400 * q + 100 * c + 4 * (r + 1) + 0 := by omega
    rw [heq]
    omega
  by_cases hc : c < 3
  · have hcycles := @daysBefore_cycles q (c + 1) 0 0 (by omega) (by omega) (by omega)
    have heq : 400 * q + 100 * c + 4 * r + s + 1 = 400 * q + 100 * (c + 1) + 4 * 0 + 0 := by omega
    rw [heq]
    omega
  · have hcycles := @daysBefore_cycles (q + 1) 0 0 0 (by omega) (by omega) (by omega)
    have heq : 400 * q + 100 * c + 4 * r + s + 1 = 400 * (q + 1) + 100 * 0 + 4 * 0 + 0 := by omega
    rw [heq]
    omega

/-- From March on the months are as long as in a year of their own. -/
theorem daysInMonth_from_march (year : ℤ) {month : ℤ} (hmonth : 0 ≤ month ∧ month ≤ 9) :
    daysInMonth year (month + 3) = daysBeforeMonth (month + 1) - daysBeforeMonth month := by
  have hcases : month = 0 ∨ month = 1 ∨ month = 2 ∨ month = 3 ∨ month = 4 ∨ month = 5 ∨ month = 6 ∨
      month = 7 ∨ month = 8 ∨ month = 9 := by omega
  rcases hcases with rfl | rfl | rfl | rfl | rfl | rfl | rfl | rfl | rfl | rfl <;> rfl

/-- **The date of a day is a valid one.** -/
theorem valid_civil (day : ℤ) : (civil day).Valid := by
  obtain ⟨hlow, hhigh⟩ := yearOf_spec (day + 719468)
  have hnext := lt_next_yearOf (day + 719468)
  unfold civil
  dsimp only
  generalize yearOf (day + 719468) = year at *
  generalize hdoy : day + 719468 - daysBefore year = doy at *
  have hmonth : 0 ≤ monthOf doy ∧ monthOf doy ≤ 11 ∧ daysBeforeMonth (monthOf doy) ≤ doy ∧
      doy < daysBeforeMonth (monthOf doy + 1) := by
    unfold daysBeforeMonth monthOf
    omega
  generalize monthOf doy = month at *
  by_cases hmarch : month ≤ 9
  · have hlength := daysInMonth_from_march year ⟨hmonth.1, hmarch⟩
    rw [if_pos hmarch]
    exact ⟨by dsimp only; omega, by dsimp only; omega⟩
  · rw [if_neg hmarch]
    by_cases hjanuary : month = 10
    · subst hjanuary
      have hlength : daysInMonth (year + 1) (10 - 9) = 31 := rfl
      have hbefore : daysBeforeMonth (10 + 1) = daysBeforeMonth 10 + 31 := rfl
      exact ⟨by dsimp only; omega, by dsimp only; omega⟩
    · -- the end of February is the end of the year
      obtain rfl : month = 11 := by omega
      have hlength : daysInMonth (year + 1) (11 - 9)
          = if isLeap (year + 1) then 29 else 28 := rfl
      have hbefore : daysBeforeMonth 11 = 337 := rfl
      have hsucc := daysBefore_succ (year + 1)
      rw [Int.add_sub_cancel] at hsucc
      refine ⟨by dsimp only; omega, ?_⟩
      dsimp only
      rw [hlength]
      split
      next hleap =>
        rw [if_pos hleap] at hsucc
        omega
      next hleap =>
        rw [if_neg hleap] at hsucc
        omega

end Library.Civil
