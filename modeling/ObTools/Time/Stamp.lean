import Mathlib.Algebra.Order.Ring.Rat
import Mathlib.Data.Rat.Floor

/-!
This module contains the model of the conversion between timestamps and split times of `Time::Stamp`, and of
`Time::Split::normalise`. The numbers of type `double` are rational numbers here.
-/

namespace ObTools
namespace Time

-- Multiples of seconds
def MINUTE : UInt32 := 60
def HOUR : UInt32 := 3600
def DAY : UInt32 := 24 * HOUR

-- Fixed point seconds from 1-1-1900 with 20 bits of fraction
def INTERNAL_SHIFT : UInt64 := 20
def INTERNAL_MULTIPLIER : UInt64 := 1048576

structure Split where
  year : Int
  month : Int
  day : Int
  hour : Int
  min : Int
  sec : ℚ
deriving DecidableEq

-- Cumulative days at start of each month (non leap-years)
def monthdays : List Int := [0, 31, 59, 90, 120, 151, 181, 212, 243, 273, 304, 334]

-- `static_cast` of a `double`
def truncate (q : ℚ) : Int := if 0 ≤ q then ⌊q⌋ else ⌈q⌉

namespace Stamp

def combine (split : Split) : UInt64 :=
  -- If the month is Jan or Feb, put us back a year so we don't include the leap day
  let ldyear := if split.month < 3 then split.year - 1 else split.year
  let leapdays := ldyear.tdiv 4 - ldyear.tdiv 100 + ldyear.tdiv 400 - 460
  let seconds := UInt64.ofInt ((split.year - 1900) * 365 + leapdays) * DAY.toUInt64
  if split.month < 1 ∨ 12 < split.month then
    0
  else
    let monthday := monthdays[(split.month - 1).toNat]?.getD 0
    let seconds := seconds + (UInt32.ofInt monthday * DAY).toUInt64
    -- Day 1 is zero offset
    let seconds := seconds + (UInt32.ofInt (split.day - 1) * DAY).toUInt64
    let seconds := seconds + (UInt32.ofInt split.hour * HOUR).toUInt64
    let seconds := seconds + (UInt32.ofInt split.min * MINUTE).toUInt64
    (seconds <<< INTERNAL_SHIFT)
      + UInt64.ofInt (truncate (split.sec * (1 <<< INTERNAL_SHIFT : UInt64).toNat))

-- Estimate of years
def estimateYears (seconds : UInt64) : UInt64 :=
  UInt64.ofInt (truncate ((seconds.toNat - 0.24 * DAY.toNat) / (365.24 * DAY.toNat)))

def isLeapYear (year : Int) : Bool := year % 4 = 0 && (year % 100 ≠ 0 || year % 400 = 0)

-- The loop that finds the month of a day of a year
def findMonth (yday : UInt64) : Nat :=
  ((List.range' 1 11).find? fun i => (yday.toNat : Int) < monthdays[i]?.getD 0).getD 12

/-
What is done when leap days have been deleted from the seconds.
-/
def splitSeconds (seconds : UInt64) (early : Bool) (fraction : UInt64) : Split :=
  let years := seconds / (365 * DAY).toUInt64
  let seconds := seconds - years * (365 * DAY).toUInt64
  let year : Int := years.toNat + 1900
  -- Year day (0-365)
  let yday := seconds / DAY.toUInt64
  let month := findMonth yday
  -- Remove months up to here
  let seconds := seconds - (UInt32.ofInt (monthdays[month - 1]?.getD 0) * DAY).toUInt64
  let day := seconds / DAY.toUInt64
  let seconds := seconds - day * DAY.toUInt64
  let hour := seconds / HOUR.toUInt64
  let rest := seconds - hour * HOUR.toUInt64
  let min := rest / MINUTE.toUInt64
  let rest := rest - min * MINUTE.toUInt64
  -- Fix up leapday itself
  let isLeapDay := isLeapYear year && !early && yday = 58
  { year := year
    month := if isLeapDay then 2 else month
    day := if isLeapDay then 29 else day.toNat + 1
    hour := hour.toNat
    min := min.toNat
    sec := rest.toNat + fraction.toNat / INTERNAL_MULTIPLIER.toNat }

def split (ts : UInt64) : Split :=
  let seconds := ts >>> INTERNAL_SHIFT
  let years := estimateYears seconds
  -- Allowing for 1900 start
  let leapdays := years / 4 - years / 100 + (years + 300) / 400
  -- At the beginning of a leap year, we will have wrongly included the leapday for this year
  let early := years % 4 = 0 && (years % 100 ≠ 0 || (years + 300) % 400 = 0)
    && seconds - (years * 365 + leapdays - 1) * DAY.toUInt64 < (DAY * 59).toUInt64
  let leapdays := if early then leapdays - 1 else leapdays
  splitSeconds (seconds - leapdays * DAY.toUInt64) early (ts &&& (INTERNAL_MULTIPLIER - 1))

end Stamp

/-
The fields of a split time are of type `int`, an overflow of one of them has no result, and neither has the cast of
a negative number to an unsigned one.
-/

def IsInt (y : Int) : Prop := -2 ^ 31 ≤ y ∧ y < 2 ^ 31

instance (y : Int) : Decidable (IsInt y) := inferInstanceAs (Decidable (_ ∧ _))

section

variable {α : Type} [Add α] [Sub α] [LT α] [DecidableLT α]

-- `while (x < low) { y--; x += n; }`
def borrow (low n : α) (y : Int) (x : α) : Option (Int × α) :=
  if x < low then
    if -2 ^ 31 < y then borrow low n (y - 1) (x + n) else none
  else
    some (y, x)
termination_by (y + 2 ^ 31).toNat

-- `while (x > high) { y++; x -= n; }`
def carry (high n : α) (y : Int) (x : α) : Option (Int × α) :=
  if high < x then
    if y < 2 ^ 31 - 1 then carry high n (y + 1) (x - n) else none
  else
    some (y, x)
termination_by (2 ^ 31 - y).toNat

-- The two loops of a field, which is between the bounds then
def settle (low high n : α) (y : Int) (x : α) : Option (Int × α) := do
  let (y, x) ← borrow low n y x
  carry high n y x

end

structure Duration where
  t : ℚ
deriving DecidableEq

namespace Stamp

def secondsToInternal (s : ℚ) : Int := truncate (s * (1 <<< INTERNAL_SHIFT : UInt64).toNat)

def add (ts : UInt64) (d : Duration) : UInt64 := ts + UInt64.ofInt (secondsToInternal d.t)

def sub (ts : UInt64) (d : Duration) : UInt64 := ts - UInt64.ofInt (secondsToInternal d.t)

-- `Stamp(const Split&)`
def ofSplit (sp : Split) : Option UInt64 :=
  if truncate (sp.sec * (1 <<< INTERNAL_SHIFT : UInt64).toNat) < 0 then none else some (combine sp)

end Stamp

namespace Split

-- Days we have to do the full works, because months are variable length
def fixDay (sp : Split) : Option Split :=
  if sp.day < 1 then do
    let diff : Duration := { t := (UInt32.ofInt (1 - sp.day) * DAY).toNat }
    let stamp ← Stamp.ofSplit { sp with day := 1 }
    some (Stamp.split (Stamp.sub stamp diff))
  else if 28 < sp.day then do
    let diff : Duration := { t := (UInt32.ofInt (sp.day - 1) * DAY).toNat }
    let stamp ← Stamp.ofSplit { sp with day := 1 }
    some (Stamp.split (Stamp.add stamp diff))
  else
    some sp

def normalise (sp : Split) : Option Split := do
  let (min, sec) ← settle 0 59 60 sp.min sp.sec
  let (hour, min) ← settle 0 59 60 sp.hour min
  let (day, hour) ← settle 0 23 24 sp.day hour
  -- We do months first so we have a valid month to shift days with
  let (year, month) ← settle 1 12 12 sp.year sp.month
  fixDay { year, month, day, hour, min, sec }

end Split

end Time
end ObTools
