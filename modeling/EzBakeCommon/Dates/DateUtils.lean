/-
  EzBakeCommon.Dates.DateUtils — the class DateUtils, function by function.

  `java.util.Calendar` splits a reading of the clock and the offset of the time zone
  into fields, which the functions cut to `short`.  The fields are taken to be those of
  the Gregorian calendar, also before its introduction.  Every `Calendar.getInstance()`
  takes the next reading, so each function answers with the number of readings
  that have been taken after it.
-/
import EzBakeCommon.Library.Civil
import Mathlib.Data.Nat.Notation

namespace EzBakeCommon.Dates

open Library

/-! ## §1. The clock and the calendar. -/

/-- The readings of `System.currentTimeMillis()`, in the order they are taken: the clock
is never set back. -/
structure SystemClock where
  reading : ℕ → ℤ
  steady : ∀ {m n}, m ≤ n → reading m ≤ reading n

inductive Field where
  | year
  | month
  | dayOfMonth
  | hourOfDay
  | minute
  | second
  | millisecond

/-- A reading, and the offset of the time zone in milliseconds. -/
structure Calendar where
  timeInMillis : ℤ
  offset : Int32

namespace Calendar

variable (calendar : Calendar)

/-- The milliseconds of local time. -/
def localMillis : ℤ := calendar.timeInMillis + calendar.offset.toInt

def localDay : ℤ := calendar.localMillis / 86400000

def millisOfDay : ℤ := calendar.localMillis % 86400000

/-- `get`; the first month is number 0.  Assumed: every reading is split right, by the Gregorian
calendar, its years numbered on below 1.  That is what `java.util.Calendar` does from
October 1582 on; earlier days it dates by the Julian calendar, and the years before 1 by
their era. -/
def get : Field → Int32
  | .year => Int32.ofInt (Civil.civil calendar.localDay).year
  | .month => Int32.ofInt ((Civil.civil calendar.localDay).month - 1)
  | .dayOfMonth => Int32.ofInt (Civil.civil calendar.localDay).day
  | .hourOfDay => Int32.ofInt (calendar.millisOfDay / 3600000)
  | .minute => Int32.ofInt (calendar.millisOfDay / 60000 % 60)
  | .second => Int32.ofInt (calendar.millisOfDay / 1000 % 60)
  | .millisecond => Int32.ofInt (calendar.millisOfDay % 1000)

end Calendar

/-- `Math.abs` -/
def abs (a : Int32) : Int32 := if a < 0 then -a else a

/-! ## §2. The values. -/

structure TimeZone where
  hour : Int16
  minute : Int16
  afterUTC : Bool

structure Time where
  hour : Int16
  minute : Int16
  second : Int16
  millisecond : Int16
  tz : TimeZone

structure Date where
  month : Int16
  day : Int16
  year : Int16

structure DateTime where
  date : Date
  time : Time

/-! ## §3. The class. -/

namespace DateUtils

variable (clock : SystemClock) (offset : Int32) (readings : ℕ)

/-- `Calendar.getInstance()` -/
def getInstance : Calendar × ℕ := (⟨clock.reading readings, offset⟩, readings + 1)

/-- The time zone that `getCurrentTime` sets. -/
def timeZone (calendar : Calendar) : TimeZone :=
  let offsetMinutes := calendar.offset / (1000 * 60)
  { hour := (abs offsetMinutes / 60).toInt16
    minute := (abs offsetMinutes % 60).toInt16
    afterUTC := decide (0 < offsetMinutes) }

def getCurrentTime : Time × ℕ :=
  let (calendar, readings) := getInstance clock offset readings
  ({ millisecond := (calendar.get .millisecond).toInt16
     second := (calendar.get .second).toInt16
     minute := (calendar.get .minute).toInt16
     hour := (calendar.get .hourOfDay).toInt16
     tz := timeZone calendar }, readings)

def getCurrentDate : Date × ℕ :=
  let (calendar, readings) := getInstance clock offset readings
  ({ day := (calendar.get .dayOfMonth).toInt16
     month := (calendar.get .month + 1).toInt16
     year := (calendar.get .year).toInt16 }, readings)

def getCurrentDateTime : DateTime × ℕ :=
  let (date, readings) := getCurrentDate clock offset readings
  let (time, readings) := getCurrentTime clock offset readings
  ({ date := date, time := time }, readings)

end DateUtils

end EzBakeCommon.Dates
