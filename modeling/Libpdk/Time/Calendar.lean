import Libpdk.Core.FloorLine

/-!
# Dates and Julian days

`julian_day_from_date`, `get_date_from_julian_day` and what `Date` says of years, months and
days. Every value has its C++ type: `int` and `int64` are `none` for a number that does not fit,
so a result says that nothing on the way to it overflows.
-/
namespace Libpdk.Time

/-- A value of type `int`. -/
def int (n : Int) : Option Int := if -2147483648 ≤ n ∧ n < 2147483648 then some n else none

/-- A value of type `pint64`. -/
def int64 (n : Int) : Option Int :=
  if -9223372036854775808 ≤ n ∧ n < 9223372036854775808 then some n else none

theorem int_of {n : Int} (h : -2147483648 ≤ n) (h' : n < 2147483648) : int n = some n :=
  if_pos ⟨h, h'⟩

theorem int_none {n : Int} (h : ¬(-2147483648 ≤ n ∧ n < 2147483648)) : int n = none := if_neg h

theorem int_iff {n : Int} : int n = some n ↔ -2147483648 ≤ n ∧ n < 2147483648 := by
  constructor
  · intro h
    refine Decidable.of_not_not fun hout => ?_
    rw [int_none hout] at h
    cases h
  · exact fun h => int_of h.1 h.2

theorem int64_of {n : Int} (h : -9223372036854775808 ≤ n) (h' : n < 9223372036854775808) :
    int64 n = some n := if_pos ⟨h, h'⟩

theorem int_bind {n : Int} {α : Type} {f : Int → Option α} (h : -2147483648 ≤ n)
    (h' : n < 2147483648) : (int n >>= f) = f n := by
  rw [int_of h h']
  rfl

theorem int64_bind {n : Int} {α : Type} {f : Int → Option α} (h : -9223372036854775808 ≤ n)
    (h' : n < 9223372036854775808) : (int64 n >>= f) = f n := by
  rw [int64_of h h']
  rfl

/-- "Division, rounding down (rather than towards zero)", for both types.
mirrors time/DateTime.cpp:85-101 -/
def floordiv (type : Int → Option Int) (a b : Int) : Option Int := do
  let n ← type (a - (if a < 0 then b - 1 else 0))
  type (n.tdiv b)

/-- "Adjust for no year 0" -/
def adjusted (year : Int) : Option Int := if year < 0 then int (year + 1) else some year

/-- mirrors time/DateTime.cpp:103-117 -/
def julianDayFromDate (year month day : Int) : Option Int := do
  let year ← adjusted year
  let a ← int (14 - month)
  let a ← floordiv int a 12
  let y ← int64 (year + 4800)
  let y ← int64 (y - a)
  let m ← int (12 * a)
  let m ← int (month + m)
  let m ← int (m - 3)
  let n ← int (153 * m)
  let n ← int (n + 2)
  let n ← floordiv int n 5
  let n ← int (day + n)
  let days ← int64 (365 * y)
  let n ← int64 (n + days)
  let leap ← floordiv int64 y 4
  let n ← int64 (n + leap)
  let leap ← floordiv int64 y 100
  let n ← int64 (n - leap)
  let leap ← floordiv int64 y 400
  let n ← int64 (n + leap)
  int64 (n - 32045)

structure ParsedDate where
  year : Int
  month : Int
  day : Int
  deriving DecidableEq

/-- "Adjust for no year 0" -/
def unadjusted (year : Int) : Option Int := if year ≤ 0 then int (year - 1) else some year

/-- mirrors time/DateTime.cpp:126-147 -/
def getDateFromJulianDay (julianDay : Int) : Option ParsedDate := do
  let a ← int64 (julianDay + 32044)
  let n ← int64 (4 * a)
  let n ← int64 (n + 3)
  let b ← floordiv int64 n 146097
  let n ← int64 (146097 * b)
  let n ← floordiv int64 n 4
  let n ← int64 (a - n)
  let c ← int n
  let n ← int (4 * c)
  let n ← int (n + 3)
  let d ← floordiv int n 1461
  let n ← int (1461 * d)
  let n ← floordiv int n 4
  let e ← int (c - n)
  let n ← int (5 * e)
  let n ← int (n + 2)
  let m ← floordiv int n 153
  let n ← int (153 * m)
  let n ← int (n + 2)
  let n ← floordiv int n 5
  let n ← int (e - n)
  let day ← int (n + 1)
  let tens ← floordiv int m 10
  let n ← int (m + 3)
  let twelve ← int (12 * tens)
  let month ← int (n - twelve)
  let n ← int64 (100 * b)
  let n ← int64 (n + d)
  let n ← int64 (n - 4800)
  let n ← int64 (n + tens)
  let year ← int n
  let year ← unadjusted year
  some ⟨year, month, day⟩

/-! ## `Date` -/

/-- mirrors time/Date.h:170-178 -/
def minJd : Int := -784350574879

def maxJd : Int := 784354017364

/-- `sg_monthDays` -/
def monthDays : List Int := [0, 31, 28, 31, 30, 31, 30, 31, 31, 30, 31, 30, 31]

/-- mirrors time/DateTime.cpp:659-666 -/
def isLeapYear (y : Int) : Bool :=
  let y := if y < 1 then y + 1 else y
  (y.tmod 4 = 0 && y.tmod 100 != 0) || y.tmod 400 = 0

/-- mirrors time/DateTime.cpp:648-657 -/
def isValid (year month day : Int) : Bool :=
  if year = 0 then false
  else (day > 0 && month > 0 && month ≤ 12) &&
    (day ≤ monthDays.getD month.toNat 0 || (day = 29 && month = 2 && isLeapYear year))

/-- `Date::isValid()`; no value is `nullJd()`. -/
def isValidJd (jd : Int) : Bool := jd ≥ minJd && jd ≤ maxJd

/-- The Julian day that is set, `none` for `nullJd()`; the outer `none` is an overflow.
mirrors time/DateTime.cpp:458-466 -/
def setDate (year month day : Int) : Option (Option Int) :=
  if isValid year month day then (julianDayFromDate year month day).map some else some none

end Libpdk.Time
