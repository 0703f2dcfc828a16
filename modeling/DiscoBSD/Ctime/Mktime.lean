import DiscoBSD.Ctime.Exact

/-!
# mktime

`localtime` of `lib/libc/gen/ctime.c`, and `mktime` of `lib/libc/gen/mktime.c`. A zone is what `tzload`, `tzsetkernel`
or `tzsetgmt` leave in `struct state`: **a table of transitions, or none for a fixed offset**. A library without zone
files has the latter only, with one type.
-/

set_option autoImplicit false

namespace DiscoBSD.Ctime

/-- `struct ttinfo`, with the abbreviation in place of its index. -/
structure Ttinfo where
  tt_gmtoff : ℤ
  tt_isdst : ℤ
  tt_abbr : String
  deriving DecidableEq, Repr

/-- `struct state`: the transitions, the type after each of them, and the types. A type of local time leaves room in a
`long` for the second of a day. -/
structure State where
  ats : List ℤ
  types : List ℕ
  ttis : List Ttinfo
  timecnt : types.length = ats.length
  types_lt : ∀ i ∈ types, i < ttis.length
  typecnt : 0 < ttis.length
  gmtoff : ∀ tti ∈ ttis, -2147397248 ≤ tti.tt_gmtoff ∧ tti.tt_gmtoff ≤ 2147397247

/-- The first type of standard time, or type 0. -/
def firstStandard : List Ttinfo → ℕ → ℕ
  | [], _ => 0
  | tti :: rest, index => if tti.tt_isdst ≠ 0 then firstStandard rest (index + 1) else index

/-- The transitions up to a time, as far as they come one after the other. -/
def passed (timestamp : ℤ) : List ℤ → ℕ
  | [] => 0
  | t :: rest => if timestamp < t then 0 else passed timestamp rest + 1

namespace State

variable (s : State)

/-- The index of the type in force. -/
def typeIndex (timestamp : ℤ) : ℕ :=
  match s.ats with
  | [] => firstStandard s.ttis 0
  | t :: rest =>
    if timestamp < t then firstStandard s.ttis 0
    else s.types.getD (passed timestamp rest) 0

def typeAt (timestamp : ℤ) : Ttinfo := s.ttis.getD (s.typeIndex timestamp) ⟨0, 0, ""⟩

/-- `localtime` -/
def localtime (timestamp : ℤ) : Tm :=
  let time_type := s.typeAt timestamp
  { offtime timestamp time_type.tt_gmtoff with tm_isdst := time_type.tt_isdst, tm_zone := time_type.tt_abbr }

/-- A turn of the search. -/
def pass (tm : Tm) (guess : ℤ) : Option ℤ :=
  let back := s.localtime guess
  let offset := i32 ((timegm back).2 - guess)
  let guess := (timegm { tm with tm_isdst := back.tm_isdst }).2
  if guess = -1 then none else some (i32 (guess - offset))

end State

end DiscoBSD.Ctime

/-!
# Where the search of mktime ends

A turn of the search asks which offset is in force and takes it from the local time. **Three turns settle it wherever
the transitions are further apart than the offsets differ**, but a local time of one second before the epoch is taken
for an error before the first turn.
-/

namespace DiscoBSD.Ctime

open Lib.Calendar

variable {tm : Tm} {t : ℤ}

/-! ## Fields that name an instant near the range -/

theorem Names.reckoned (h : Names t tm) (ht : -4294967296 ≤ t ∧ t ≤ 4294967296) : i32 (reckoned tm) = t / 86400 := by
  obtain ⟨-, -, hcmday, hcyear, hcmon⟩ := h.carried
  have hsum := h.date.sum
  have hpos := h.date.pos
  have hlen := monthLength_le (tm.tm_year + 1900) tm.tm_mon.toNat h.date.month
  have hle := h.date.le
  have hstart := monthStart_bounds (tm.tm_year + 1900) tm.tm_mon
  rw [hcmon] at hstart
  have hyear : -1800 ≤ tm.tm_year ∧ tm.tm_year ≤ 1000000 := by
    unfold yearStart at hsum
    omega
  have hthis : i32 (tm.tm_year + 1900) = tm.tm_year + 1900 := i32_self ((isInt_iff _).mpr (by omega))
  have hlast : i32 (tm.tm_year + 1899) = tm.tm_year + 1899 := i32_self ((isInt_iff _).mpr (by omega))
  have hmissed : missed (tm.tm_year + 1899) = 0 := if_pos (.inl (by omega))
  rw [Ctime.reckoned, hcyear, hcmday, hcmon, hthis, hlast, hmissed, show tm.tm_year + 1899 + 1 = tm.tm_year + 1900 by omega,
    Int.add_zero, hsum, i32_self]
  rw [isInt_iff]
  omega

/-- What `timegm` makes of an instant near the range. -/
def counted (t : ℤ) : ℤ := if t / 86400 > 24856 ∨ t / 86400 < -24856 then -1 else i32 t

theorem Names.normalize (h : Names t tm) (ht : -4294967296 ≤ t ∧ t ≤ 4294967296) : normalize tm = tm := by
  obtain ⟨hcmin, hchour, hcmday, hcyear, hcmon⟩ := h.carried
  have hsec := h.sec
  have hmin := h.min
  have hhour := h.hour
  have hmon := h.mon
  have hmonth := h.date.month
  rw [normalize_eq (h.carriesFit ht), Ctime.carried, hcmin, hchour, hcmday, hcyear, show tm.tm_sec % 60 = tm.tm_sec by omega,
    show tm.tm_min % 60 = tm.tm_min by omega, show tm.tm_hour % 24 = tm.tm_hour by omega,
    show tm.tm_mon % 12 = tm.tm_mon by omega]

/-! ## Fields alike -/

/-- Two readings of the clock and the calendar are the same. -/
structure Alike (a b : Tm) : Prop where
  sec : a.tm_sec = b.tm_sec
  min : a.tm_min = b.tm_min
  hour : a.tm_hour = b.tm_hour
  mday : a.tm_mday = b.tm_mday
  mon : a.tm_mon = b.tm_mon
  year : a.tm_year = b.tm_year
  wday : a.tm_wday = b.tm_wday
  yday : a.tm_yday = b.tm_yday

namespace State

variable {s : State}

/-! ## Local time -/

/-- The offset in force. -/
def offset (s : State) (t : ℤ) : ℤ := (s.typeAt t).tt_gmtoff

/-- The local time, in seconds. -/
def clock (s : State) (t : ℤ) : ℤ := t + s.offset t

/-- The offset that a turn finds: what is in force, as long as the local time is not refused. -/
def seen (s : State) (guess : ℤ) : ℤ := i32 (counted (s.clock guess) - guess)

/-- The next guess for the instant of the local time `l`. -/
def next (s : State) (l guess : ℤ) : ℤ := i32 (l - s.seen guess)

/-- The guess after all turns. -/
def last (s : State) (l : ℤ) : ℤ := s.next l (s.next l (s.next l l))

/-- Any two transitions are further apart than any two offsets differ. -/
def Apart (s : State) : Prop :=
  s.ats.Pairwise fun a b => ∀ x ∈ s.ttis, ∀ y ∈ s.ttis, x.tt_gmtoff - y.tt_gmtoff < b - a

end State

end DiscoBSD.Ctime
