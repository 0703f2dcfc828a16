import Mathlib
import DiscoBSD.Lib.Calendar

/-!
# timegm

`lib/libc/gen/mktime.c` as far as it needs no zone, with `gmtime` and `offtime` of `lib/libc/gen/ctime.c`. An `int`, a
`long` and a `time_t` have 32 bits; **a sum that does not fit in them is taken modulo `2 ^ 32`**, once at its end. The
divisions are those of C, towards zero.
-/

set_option autoImplicit false

namespace DiscoBSD.Ctime

/-- What an `int` keeps. -/
def i32 (n : ℤ) : ℤ := (n + 2147483648) % 4294967296 - 2147483648

def INT_MAX : ℤ := 2147483647

def INT_MIN : ℤ := -2147483648

def SECSPERDAY : ℤ := 86400

def EPOCH_YEAR : ℤ := 1970

def EPOCH_WDAY : ℤ := 4

def TM_YEAR_BASE : ℤ := 1900

/-- `struct tm` -/
structure Tm where
  tm_sec : ℤ
  tm_min : ℤ
  tm_hour : ℤ
  tm_mday : ℤ
  tm_mon : ℤ
  tm_year : ℤ
  tm_wday : ℤ
  tm_yday : ℤ
  tm_isdst : ℤ
  tm_gmtoff : ℤ
  tm_zone : String
  deriving DecidableEq, Repr

/-- `isleap` -/
def isleap (y : ℤ) : Bool := y.tmod 4 = 0 ∧ (y.tmod 100 ≠ 0 ∨ y.tmod 400 = 0)

/-- `mon_lengths[leap]` -/
def monLengths (leap : Bool) : List ℤ :=
  if leap then [31, 29, 31, 30, 31, 30, 31, 31, 30, 31, 30, 31] else [31, 28, 31, 30, 31, 30, 31, 31, 30, 31, 30, 31]

/-- `year_lengths[leap]` -/
def yearLengths (leap : Bool) : ℤ := if leap then 366 else 365

theorem yearLengths_pos (leap : Bool) : 0 < yearLengths leap := by
  cases leap <;> decide

/-! ## normalize -/

/-- `carry`: the field `*lo` and the field above it. -/
def carry (lo hi base : ℤ) : ℤ × ℤ :=
  let q := lo.tdiv base
  let r := lo.tmod base
  if r < 0 then (r + base, i32 (hi + (q - 1))) else (r, i32 (hi + q))

/-- `normalize` -/
def normalize (tm : Tm) : Tm :=
  let (sec, min) := carry tm.tm_sec tm.tm_min 60
  let (min, hour) := carry min tm.tm_hour 60
  let (hour, mday) := carry hour tm.tm_mday 24
  let (mon, year) := carry tm.tm_mon tm.tm_year 12
  { tm with tm_sec := sec, tm_min := min, tm_hour := hour, tm_mday := mday, tm_mon := mon, tm_year := year }

/-! ## timegm -/

/-- `days_before_year` -/
def daysBeforeYear (year : ℤ) : ℤ :=
  let y := i32 (year - 1)
  let e := EPOCH_YEAR - 1
  i32 (y * 365 + y.tdiv 4 - y.tdiv 100 + y.tdiv 400 - (e * 365 + e.tdiv 4 - e.tdiv 100 + e.tdiv 400))

/-- `while (yday < 0)`: the year before, as long as the day lies before the year. -/
def yearDown (year yday : ℤ) : ℤ × ℤ :=
  if yday < 0 then yearDown (i32 (year - 1)) (yday + yearLengths (isleap (i32 (year - 1)))) else (year, yday)
termination_by (-yday).toNat
decreasing_by
  have := yearLengths_pos (isleap (i32 (year - 1)))
  omega

/-- `while (yday >= year_lengths[isleap(year)])`: the year after, as long as the day lies behind the year. -/
def yearUp (year yday : ℤ) : ℤ × ℤ :=
  if yday ≥ yearLengths (isleap year) then yearUp (i32 (year + 1)) (yday - yearLengths (isleap year)) else (year, yday)
termination_by yday.toNat
decreasing_by
  have := yearLengths_pos (isleap year)
  omega

/-- `for (i = 0; yday >= mon_lengths[leap][i]; i++)`: the month, and the day of it. -/
def monthUp : List ℤ → ℤ → ℤ → ℤ × ℤ
  | [], i, yday => (i, yday)
  | l :: ls, i, yday => if yday ≥ l then monthUp ls (i + 1) (yday - l) else (i, yday)

/-- A day of the week, for a day that may be negative. -/
def wdayOf (days : ℤ) : ℤ :=
  let wday := (i32 (days + EPOCH_WDAY)).tmod 7
  if wday < 0 then wday + 7 else wday

/-- `timegm`: what it leaves in `*tm`, and what it returns. -/
def timegm (tm : Tm) : Tm × ℤ :=
  let tm := normalize tm
  let year := i32 (tm.tm_year + TM_YEAR_BASE)
  let yday := i32 (((monLengths (isleap year)).take tm.tm_mon.toNat).sum + i32 (tm.tm_mday - 1))
  let days := i32 (daysBeforeYear year + yday)
  let (year, yday) := yearDown year yday
  let (year, yday) := yearUp year yday
  -- Between two numbers of type `int` this never holds.
  if i32 (year - TM_YEAR_BASE) < INT_MIN ∨ i32 (year - TM_YEAR_BASE) > INT_MAX then (tm, -1)
  else
    let (mon, mday) := monthUp (monLengths (isleap year)) 0 yday
    let tm :=
      { tm with
        tm_year := i32 (year - TM_YEAR_BASE), tm_yday := yday, tm_mon := mon, tm_mday := mday + 1,
        tm_wday := wdayOf days, tm_isdst := 0 }
    if days > INT_MAX.tdiv SECSPERDAY + 1 ∨ days < INT_MIN.tdiv SECSPERDAY - 1 then (tm, -1)
    else (tm, i32 (days * SECSPERDAY + tm.tm_hour * 3600 + tm.tm_min * 60 + tm.tm_sec))

/-! ## gmtime -/

/-- `while (remainder < 0)` -/
def dayDown (days remainder : ℤ) : ℤ × ℤ :=
  if remainder < 0 then dayDown (i32 (days - 1)) (remainder + SECSPERDAY) else (days, remainder)
termination_by (-remainder).toNat
decreasing_by
  unfold SECSPERDAY
  omega

/-- `while (remainder >= SECS_PER_DAY)` -/
def dayUp (days remainder : ℤ) : ℤ × ℤ :=
  if remainder ≥ SECSPERDAY then dayUp (i32 (days + 1)) (remainder - SECSPERDAY) else (days, remainder)
termination_by remainder.toNat
decreasing_by
  unfold SECSPERDAY at *
  omega

/-- `offtime`; its loops over years and months do what those of `timegm` do. -/
def offtime (timestamp offset : ℤ) : Tm :=
  let (days, remainder) := dayDown (timestamp.tdiv SECSPERDAY) (i32 (timestamp.tmod SECSPERDAY + offset))
  let (days, remainder) := dayUp days remainder
  let (year, yday) := if days ≥ 0 then yearUp EPOCH_YEAR days else yearDown EPOCH_YEAR days
  let (mon, mday) := monthUp (monLengths (isleap year)) 0 yday
  { tm_hour := remainder.tdiv 3600, tm_min := (remainder.tmod 3600).tdiv 60, tm_sec := (remainder.tmod 3600).tmod 60
    tm_wday := wdayOf days, tm_year := i32 (year - TM_YEAR_BASE), tm_yday := yday, tm_mon := mon, tm_mday := mday + 1
    tm_isdst := 0, tm_zone := "", tm_gmtoff := offset }

/-- `gmtime` -/
def gmtime (timestamp : ℤ) : Tm := { offtime timestamp 0 with tm_zone := "GMT" }

end DiscoBSD.Ctime
