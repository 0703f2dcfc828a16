import DiscoBSD.Ctime.Instants

/-!
# Where timegm is exact

The days are checked against bounds that lie a day outside the range of `time_t`, and the closed form for the leap days
divides towards zero. **So it fails for the instants between the range and the bounds**, whose number of seconds wraps,
and for dates that `tm_mday` brings back from a year before the first.
-/

set_option autoImplicit false

namespace DiscoBSD.Ctime

open Lib.Calendar

variable {tm : Tm} {t : ℤ}

/-- The day that is left out when leap days before the year `y + 1` are counted towards zero. -/
def missed (y : ℤ) : ℤ := if 0 ≤ y ∨ IsLeap y then 0 else 1

theorem truncated (y : ℤ) : y.tdiv 4 - y.tdiv 100 + y.tdiv 400 = y / 4 - y / 100 + y / 400 + missed y := by
  unfold missed
  rcases lt_or_ge y 0 with hneg | hnonneg
  · rw [tdiv_of_neg hneg, tdiv_of_neg hneg, tdiv_of_neg hneg]
    by_cases hleap : IsLeap y
    · rw [if_pos (.inr hleap)]
      unfold IsLeap at hleap
      lia
    · rw [if_neg (not_or.mpr ⟨not_le.mpr hneg, hleap⟩)]
      unfold IsLeap at hleap
      lia
  · rw [if_pos (.inl hnonneg), Int.tdiv_eq_ediv_of_nonneg hnonneg, Int.tdiv_eq_ediv_of_nonneg hnonneg,
      Int.tdiv_eq_ediv_of_nonneg hnonneg, Int.add_zero]

theorem daysBeforeYear_eq (year : ℤ) :
    daysBeforeYear year = i32 (yearStart (i32 (year - 1) + 1) + missed (i32 (year - 1))) := by
  have htrunc := truncated (i32 (year - 1))
  have hepoch : (EPOCH_YEAR - 1) * 365 + (EPOCH_YEAR - 1).tdiv 4 - (EPOCH_YEAR - 1).tdiv 100 + (EPOCH_YEAR - 1).tdiv 400 =
      719162 := rfl
  unfold daysBeforeYear yearStart
  dsimp only
  rw [hepoch, Int.add_sub_cancel]
  congr 1
  lia

/-- The day number that the years, the months and the days add up to, before it is brought into 32 bits. -/
def reckoned (tm : Tm) : ℤ :=
  yearStart (i32 (carriedYear tm + 1899) + 1) + missed (i32 (carriedYear tm + 1899)) +
    monthStart (i32 (carriedYear tm + 1900)) (tm.tm_mon % 12).toNat + carriedMday tm - 1

/-- The day of the year that `tm_mday` may carry past. -/
def yearDay (tm : Tm) : ℤ := monthStart (i32 (carriedYear tm + 1900)) (tm.tm_mon % 12).toNat + carriedMday tm - 1

/-- The fields after a call that has come to the year and the day of it, and to the day number. -/
def rewritten (tm : Tm) (w : ℤ × ℤ) (days : ℤ) : Tm :=
  { carried tm with
    tm_year := i32 (w.1 - 1900), tm_yday := w.2, tm_mon := (monthUp (monLengths (isleap w.1)) 0 w.2).1,
    tm_mday := (monthUp (monLengths (isleap w.1)) 0 w.2).2 + 1, tm_wday := wdayOf days, tm_isdst := 0 }

/-- **What a call does**, for every `struct tm`. -/
theorem timegm_run (h : CarriesFit tm) :
    timegm tm =
      (rewritten tm (yearWalk (i32 (carriedYear tm + 1900)) (i32 (yearDay tm))) (i32 (reckoned tm)),
        if i32 (reckoned tm) > 24856 ∨ i32 (reckoned tm) < -24856 then -1
        else i32 (i32 (reckoned tm) * 86400 + secondNamed tm)) := by
  have hpred : i32 (i32 (carriedYear tm + 1900) - 1) = i32 (carriedYear tm + 1899) := by
    unfold i32
    lia
  have hyday : i32 (((monthLengths (i32 (carriedYear tm + 1900))).take (tm.tm_mon % 12).toNat).sum +
      i32 (carriedMday tm - 1)) = i32 (yearDay tm) := by
    rw [i32_add_right]
    unfold yearDay monthStart
    congr 1
    lia
  have hdays : i32 (daysBeforeYear (i32 (carriedYear tm + 1900)) + i32 (yearDay tm)) = i32 (reckoned tm) := by
    rw [daysBeforeYear_eq, hpred, i32_add_right, i32_add_left]
    unfold yearDay reckoned
    congr 1
    lia
  have hcheck : ∀ n, ¬(i32 n < INT_MIN ∨ i32 n > INT_MAX) := by
    intro n
    have := isInt_i32 n
    unfold IsInt at this
    lia
  have hsum : i32 (reckoned tm) * 86400 + carriedHour tm % 24 * 3600 + carriedMin tm % 60 * 60 + tm.tm_sec % 60 =
      i32 (reckoned tm) * 86400 + secondNamed tm := by
    unfold secondNamed
    lia
  have hmax : INT_MAX.tdiv 86400 + 1 = 24856 := rfl
  have hmin : INT_MIN.tdiv 86400 - 1 = -24856 := rfl
  have hday : SECSPERDAY = 86400 := rfl
  unfold timegm
  rw [normalize_eq h]
  dsimp only [carried, TM_YEAR_BASE]
  rw [monLengths_eq]
  simp only [hyday, hdays, hcheck, if_false, hmax, hmin, hday, hsum]
  by_cases hout : i32 (reckoned tm) > 24856 ∨ i32 (reckoned tm) < -24856
  · rw [if_pos hout, if_pos hout]
    rfl
  · rw [if_neg hout, if_neg hout]
    rfl

/-! ## Instants that fit -/

theorem missed_cases (y : ℤ) : missed y = 0 ∨ missed y = 1 := by
  unfold missed
  split
  · exact .inl rfl
  · exact .inr rfl

theorem monthStart_bounds (y : ℤ) (n : ℤ) : 0 ≤ monthStart y (n % 12).toNat ∧ monthStart y (n % 12).toNat ≤ 366 := by
  have hstart := monthStart_mono y (n % 12).toNat (by lia) 0 (Nat.zero_le _)
  have hend := monthStart_mono y 12 (le_refl 12) (n % 12).toNat (by lia)
  have hlen := yearLength_bounds y
  rw [monthStart_end] at hend
  rw [monthStart_zero] at hstart
  lia

/-- What is known of the fields of an instant that fits. -/
structure Near (tm : Tm) : Prop where
  day : -24856 ≤ dayNamed tm ∧ dayNamed tm ≤ 24855
  year : -6000000 ≤ carriedYear tm ∧ carriedYear tm ≤ 6000000
  this : i32 (carriedYear tm + 1900) = carriedYear tm + 1900
  last : i32 (carriedYear tm + 1899) = carriedYear tm + 1899
  reckoned : reckoned tm = dayNamed tm + missed (carriedYear tm + 1899)
  yearDay : yearStart (carriedYear tm + 1900) + yearDay tm = dayNamed tm

theorem near (h : CarriesFit tm) (hfit : IsInt (instant tm)) : Near tm := by
  have hday := instant_day tm
  have hmonth := monthStart_bounds (carriedYear tm + 1900) tm.tm_mon
  have hmday := h.mday
  rw [isInt_iff] at hfit hmday
  have hyear : -6000000 ≤ carriedYear tm ∧ carriedYear tm ≤ 6000000 := by
    unfold dayNamed yearStart at hday
    lia
  have hthis : i32 (carriedYear tm + 1900) = carriedYear tm + 1900 := i32_self ((isInt_iff _).mpr (by lia))
  have hlast : i32 (carriedYear tm + 1899) = carriedYear tm + 1899 := i32_self ((isInt_iff _).mpr (by lia))
  refine ⟨by lia, hyear, hthis, hlast, ?_, ?_⟩
  · rw [reckoned, hthis, hlast, dayNamed, show carriedYear tm + 1899 + 1 = carriedYear tm + 1900 by lia]
    lia
  · rw [yearDay, hthis, dayNamed]
    lia

/-- The year the walks end in. -/
theorem walk_near (hn : Near tm) : ∃ y k, yearWalk (carriedYear tm + 1900) (i32 (yearDay tm)) = (y, k) ∧
    InYear (yearStart (carriedYear tm + 1900) + i32 (yearDay tm)) y k ∧ i32 (y - 1900) + 1900 = y := by
  have hyear := hn.year
  have hint := isInt_i32 (yearDay tm)
  rw [isInt_iff] at hint
  obtain ⟨hin, -⟩ := yearWalk_ok ((isInt_iff (carriedYear tm + 1900)).mpr (by lia))
    (by unfold INT_MIN; lia : INT_MIN ≤ carriedYear tm + 1900 + i32 (yearDay tm) / 365) (by unfold INT_MAX; lia)
  obtain ⟨y, k, hwalk⟩ : ∃ y k, yearWalk (carriedYear tm + 1900) (i32 (yearDay tm)) = (y, k) := ⟨_, _, rfl⟩
  rw [hwalk] at hin
  refine ⟨y, k, hwalk, hin, ?_⟩
  have hsum : yearStart y + k = _ := hin.sum
  have hnonneg : 0 ≤ k := hin.nonneg
  have hlt : k < yearLength y := hin.lt
  have hlen := yearLength_bounds y
  rw [i32_self, Int.sub_add_cancel]
  rw [isInt_iff]
  unfold yearStart at hsum
  lia

/-- **An instant that fits is found** when no day is missed and the day of the year is an `int`. -/
theorem timegm_fits (h : CarriesFit tm) (hfit : IsInt (instant tm)) :
    (timegm tm).2 = instant tm ∧ Names (instant tm) (timegm tm).1 ↔
      missed (carriedYear tm + 1899) = 0 ∧ IsInt (yearDay tm) := by
  have hn := near h hfit
  have hday := hn.day
  have hsec := secondNamed_bounds tm
  have hinst := instant_eq tm
  have hreck : i32 (reckoned tm) = dayNamed tm + missed (carriedYear tm + 1899) := by
    have := missed_cases (carriedYear tm + 1899)
    rw [hn.reckoned, i32_self]
    rw [isInt_iff]
    lia
  obtain ⟨y, k, hwalk, hin, hback⟩ := walk_near hn
  rw [timegm_run h, hreck, hn.this, hwalk]
  dsimp only
  constructor
  · rintro ⟨hret, hnames⟩
    have hmissed : missed (carriedYear tm + 1899) = 0 := by
      rcases missed_cases (carriedYear tm + 1899) with hzero | hone
      · exact hzero
      · rw [hone] at hret
        unfold i32 at hret
        split at hret <;> lia
    have hyday : InYear (instant tm / 86400) (i32 (y - 1900) + 1900) k := hnames.yday
    have hsum := hyday.sum
    have hsum' := hin.sum
    have hyear := hn.yearDay
    rw [hback, instant_day] at hsum
    have hkept : i32 (yearDay tm) = yearDay tm := by lia
    rw [← hkept]
    exact ⟨hmissed, isInt_i32 _⟩
  · rintro ⟨hmissed, hyday⟩
    rw [i32_self hyday, hn.yearDay, ← instant_day] at hin
    obtain ⟨hmon, hdate⟩ := month_ok hin
    rw [hmissed, Int.add_zero]
    constructor
    · rw [if_neg (by lia), i32_self]
      · exact hinst.symm
      · rwa [← hinst]
    · unfold secondNamed at hinst
      constructor
      · dsimp only [rewritten, carried]
        lia
      · dsimp only [rewritten, carried]
        lia
      · dsimp only [rewritten, carried]
        lia
      · exact hmon
      · dsimp only [rewritten]
        rwa [hback]
      · dsimp only [rewritten]
        rwa [hback]
      · dsimp only [rewritten]
        rw [wdayOf_eq, instant_day]
        rw [isInt_iff]
        lia

/-! ## Instants that do not fit -/

/-- **An instant that does not fit is refused** when the days are out of bounds. -/
theorem timegm_beyond (h : CarriesFit tm) :
    (timegm tm).2 = -1 ↔ i32 (reckoned tm) > 24856 ∨ i32 (reckoned tm) < -24856 ∨
      i32 (reckoned tm) = -1 ∧ instant tm % 86400 = 86399 := by
  have hsec := secondNamed_bounds tm
  have hint := isInt_i32 (reckoned tm)
  rw [isInt_iff] at hint
  rw [timegm_run h, instant_second]
  dsimp only
  generalize i32 (reckoned tm) = days at hint
  by_cases hout : days > 24856 ∨ days < -24856
  · rw [if_pos hout]
    lia
  · rw [if_neg hout]
    obtain ⟨n, hn⟩ : ∃ n, n = days * 86400 + secondNamed tm := ⟨_, rfl⟩
    -- The sum is not so far out that it wraps to `-1`.
    have hwrap : i32 n = -1 ↔ n = -1 := by
      unfold i32
      lia
    rw [← hn, hwrap]
    lia

/-! ## gmtime -/

theorem dayDown_ok {days remainder : ℤ} (hlo : -2147483648 ≤ days + remainder / 86400) (hhi : days ≤ 2147483647) :
    (dayDown days remainder).1 * 86400 + (dayDown days remainder).2 = days * 86400 + remainder ∧
      (remainder < 0 → 0 ≤ (dayDown days remainder).2 ∧ (dayDown days remainder).2 < 86400) ∧
      (0 ≤ remainder → dayDown days remainder = (days, remainder)) := by
  induction days, remainder using dayDown.induct with
  | case1 days remainder hneg ih =>
    have hpred : i32 (days - 1) = days - 1 := i32_self ((isInt_iff _).mpr (by lia))
    rw [hpred, SECSPERDAY] at ih
    obtain ⟨hsum, hbefore, hhere⟩ := ih (by lia) (by lia)
    rw [dayDown, if_pos hneg, hpred, SECSPERDAY]
    refine ⟨by lia, fun _ => ?_, fun hnonneg => absurd hneg (not_lt.mpr hnonneg)⟩
    by_cases hmore : remainder + 86400 < 0
    · exact hbefore hmore
    · rw [hhere (not_lt.mp hmore)]
      dsimp only
      lia
  | case2 days remainder hnonneg =>
    rw [dayDown, if_neg hnonneg]
    exact ⟨rfl, fun hneg => absurd hneg hnonneg, fun _ => rfl⟩

theorem dayUp_ok {days remainder : ℤ} (hlo : -2147483648 ≤ days) (hhi : days + remainder / 86400 ≤ 2147483647)
    (hpos : 0 ≤ remainder) :
    (dayUp days remainder).1 * 86400 + (dayUp days remainder).2 = days * 86400 + remainder ∧
      0 ≤ (dayUp days remainder).2 ∧ (dayUp days remainder).2 < 86400 := by
  induction days, remainder using dayUp.induct with
  | case1 days remainder hge ih =>
    unfold SECSPERDAY at hge
    have hsucc : i32 (days + 1) = days + 1 := i32_self ((isInt_iff _).mpr (by lia))
    rw [hsucc, SECSPERDAY] at ih
    have hnext := ih (by lia) (by lia) (by lia)
    rw [dayUp, SECSPERDAY, if_pos hge, hsucc]
    lia
  | case2 days remainder hlt =>
    unfold SECSPERDAY at hlt
    rw [dayUp, SECSPERDAY, if_neg hlt]
    lia

/-- The day and the second of the day of a local time. -/
theorem dayWalk_ok {offset : ℤ} (ht : IsInt t) (hoff : -2147397248 ≤ offset ∧ offset ≤ 2147397247) :
    ∃ d₁ r₁ d r, dayDown (t.tdiv SECSPERDAY) (i32 (t.tmod SECSPERDAY + offset)) = (d₁, r₁) ∧ dayUp d₁ r₁ = (d, r) ∧
      d * 86400 + r = t + offset ∧ 0 ≤ r ∧ r < 86400 := by
  rw [isInt_iff] at ht
  have hsplit := Int.mul_tdiv_add_tmod t 86400
  have hlo := Int.lt_tmod_of_pos t (by decide : (0 : ℤ) < 86400)
  have hhi := Int.tmod_lt_of_pos t (by decide : (0 : ℤ) < 86400)
  have hrem : i32 (t.tmod 86400 + offset) = t.tmod 86400 + offset := i32_self ((isInt_iff _).mpr (by lia))
  obtain ⟨hsum, hbefore, hhere⟩ := dayDown_ok (by lia : -2147483648 ≤ t.tdiv 86400 + (t.tmod 86400 + offset) / 86400)
    (by lia)
  unfold SECSPERDAY
  rw [hrem]
  obtain ⟨d₁, r₁, hdown⟩ : ∃ d₁ r₁, dayDown (t.tdiv 86400) (t.tmod 86400 + offset) = (d₁, r₁) := ⟨_, _, rfl⟩
  rw [hdown] at hsum hbefore hhere
  dsimp only at hsum hbefore
  have hbounds : 0 ≤ r₁ ∧ r₁ ≤ 2147483647 := by
    rcases lt_or_ge (t.tmod 86400 + offset) 0 with hneg | hge
    · have := hbefore hneg
      lia
    · have := congrArg Prod.snd (hhere hge)
      dsimp only at this
      lia
  have hup := dayUp_ok (by lia : -2147483648 ≤ d₁) (by lia) hbounds.1
  exact ⟨d₁, r₁, _, _, hdown, rfl, by lia, hup.2.1, hup.2.2⟩

/-- The fields of an instant in a zone, with an offset that does not overflow the second of the day. -/
theorem offtime_ok {offset : ℤ} (ht : IsInt t) (hoff : -2147397248 ≤ offset ∧ offset ≤ 2147397247) :
    Names (t + offset) (offtime t offset) := by
  obtain ⟨d₁, r₁, d, r, hdown, hup, hsum, hr, hr'⟩ := dayWalk_ok ht hoff
  rw [isInt_iff] at ht
  have hday : (t + offset) / 86400 = d := by lia
  have hyear : ∃ y k, (if d ≥ 0 then yearUp EPOCH_YEAR d else yearDown EPOCH_YEAR d) = (y, k) ∧ InYear d y k := by
    have hepoch : yearStart EPOCH_YEAR + d = d := by
      rw [EPOCH_YEAR, yearStart_epoch, Int.zero_add]
    have hint : IsInt EPOCH_YEAR := by decide
    by_cases hd : d ≥ 0
    · have hin := (yearUp_ok hint (by unfold EPOCH_YEAR INT_MAX; lia) hd).1
      rw [hepoch] at hin
      rw [if_pos hd]
      exact ⟨_, _, rfl, hin⟩
    · have hin :=
        (yearDown_ok hint (by unfold EPOCH_YEAR INT_MIN; lia : INT_MIN ≤ EPOCH_YEAR + d / 365)).2.2.1 (by lia)
      rw [hepoch] at hin
      rw [if_neg hd]
      exact ⟨_, _, rfl, hin⟩
  obtain ⟨y, k, hwalk, hin⟩ := hyear
  obtain ⟨hmon, hdate⟩ := month_ok hin
  have hback : i32 (y - 1900) + 1900 = y := by
    have hsum' := hin.sum
    have hnonneg := hin.nonneg
    have hlt := hin.lt
    have hlen := yearLength_bounds y
    rw [i32_self, Int.sub_add_cancel]
    rw [isInt_iff]
    unfold yearStart at hsum'
    lia
  have hshape : offtime t offset =
      { tm_hour := r.tdiv 3600, tm_min := (r.tmod 3600).tdiv 60, tm_sec := (r.tmod 3600).tmod 60, tm_wday := wdayOf d,
        tm_year := i32 (y - 1900), tm_yday := k, tm_mon := (monthUp (monLengths (isleap y)) 0 k).1,
        tm_mday := (monthUp (monLengths (isleap y)) 0 k).2 + 1, tm_isdst := 0, tm_zone := "", tm_gmtoff := offset } := by
    unfold offtime
    rw [hdown]
    dsimp only
    rw [hup]
    dsimp only
    rw [hwalk]
    rfl
  have hmod : r.tmod 3600 = r % 3600 := Int.tmod_eq_emod_of_nonneg hr
  rw [hshape, hmod, Int.tdiv_eq_ediv_of_nonneg hr, Int.tdiv_eq_ediv_of_nonneg (by lia),
    Int.tmod_eq_emod_of_nonneg (by lia)]
  constructor
  · dsimp only
    lia
  · dsimp only
    lia
  · dsimp only
    lia
  · exact hmon
  · dsimp only
    rwa [hback, hday]
  · dsimp only
    rwa [hback, hday]
  · dsimp only
    rw [hday, wdayOf_eq]
    rw [isInt_iff]
    lia

/-- Fields in range are not carried. -/
theorem Names.carried (h : Names t tm) :
    carriedMin tm = tm.tm_min ∧ carriedHour tm = tm.tm_hour ∧ carriedMday tm = tm.tm_mday ∧
      carriedYear tm = tm.tm_year ∧ (tm.tm_mon % 12).toNat = tm.tm_mon.toNat := by
  have hmon := h.date.month
  have hnonneg := h.mon
  have hsec := h.sec
  have hmin := h.min
  have hhour := h.hour
  have hcmin : carriedMin tm = tm.tm_min := by
    unfold carriedMin
    lia
  have hchour : carriedHour tm = tm.tm_hour := by
    unfold carriedHour
    lia
  refine ⟨hcmin, hchour, ?_, ?_, by lia⟩
  · unfold carriedMday
    lia
  · unfold carriedYear
    lia

/-- Fields in range name their instant. -/
theorem Names.instant_eq (h : Names t tm) : instant tm = t := by
  obtain ⟨hcmin, hchour, hcmday, hcyear, hcmon⟩ := h.carried
  have hday : dayNamed tm = t / 86400 := by
    rw [dayNamed, hcyear, hcmday, hcmon, h.date.sum]
  have hsec := h.sec
  have hmin := h.min
  have hhour := h.hour
  rw [Ctime.instant_eq, hday, secondNamed, hcmin, hchour]
  omega

theorem Names.carriesFit (h : Names t tm) (ht : -4294967296 ≤ t ∧ t ≤ 4294967296) : CarriesFit tm := by
  obtain ⟨hcmin, hchour, hcmday, hcyear, hcmon⟩ := h.carried
  have hsum := h.date.sum
  have hpos := h.date.pos
  have hlen := monthLength_le (tm.tm_year + 1900) tm.tm_mon.toNat h.date.month
  have hle := h.date.le
  have hstart := monthStart_bounds (tm.tm_year + 1900) tm.tm_mon
  have hmin := h.min
  have hhour := h.hour
  rw [hcmon] at hstart
  constructor
  · rw [hcmin, isInt_iff]
    lia
  · rw [hchour, isInt_iff]
    lia
  · rw [hcmday, isInt_iff]
    lia
  · rw [hcyear, isInt_iff]
    unfold yearStart at hsum
    lia

/-- Fields in range that name a time are found. -/
theorem timegm_named (h : Names t tm) (ht : IsInt t) : (timegm tm).2 = t ∧ Names t (timegm tm).1 := by
  have hinst := h.instant_eq
  have hfit := h.carriesFit (by rw [isInt_iff] at ht; lia)
  have hn := near hfit (hinst.symm ▸ ht)
  obtain ⟨-, -, hcmday, hcyear, hcmon⟩ := h.carried
  have hpos := h.date.pos
  have hlen := monthLength_le (tm.tm_year + 1900) tm.tm_mon.toNat h.date.month
  have hle := h.date.le
  have hstart := monthStart_bounds (tm.tm_year + 1900) tm.tm_mon
  have hyday : yearDay tm = monthStart (tm.tm_year + 1900) tm.tm_mon.toNat + tm.tm_mday - 1 := by
    rw [yearDay, hn.this, hcyear, hcmday, hcmon]
  have hmissed : missed (carriedYear tm + 1899) = 0 := by
    refine if_pos (.inl ?_)
    have hsum := h.date.sum
    rw [hcmon] at hstart
    rw [isInt_iff] at ht
    rw [hcyear]
    unfold yearStart at hsum
    lia
  have hspec := (timegm_fits hfit (hinst.symm ▸ ht)).mpr ⟨hmissed, by rw [hyday, isInt_iff]; rw [hcmon] at hstart; lia⟩
  rwa [hinst] at hspec

/-- **Back and forth**: the fields of a time name it to `timegm`. -/
theorem timegm_gmtime (ht : IsInt t) : (timegm (gmtime t)).2 = t := by
  have hoff := offtime_ok ht (by decide : -2147397248 ≤ (0 : ℤ) ∧ (0 : ℤ) ≤ 2147397247)
  rw [Int.add_zero] at hoff
  have hnames : Names t (gmtime t) := ⟨hoff.sec, hoff.min, hoff.hour, hoff.mon, hoff.date, hoff.yday, hoff.wday⟩
  exact (timegm_named hnames ht).1

/-! ## The whole -/

/-- What a call is to do: find the time the fields name and put it into them, or refuse. -/
def Meets (tm : Tm) : Prop :=
  (IsInt (instant tm) → (timegm tm).2 = instant tm ∧ Names (instant tm) (timegm tm).1) ∧
    (¬IsInt (instant tm) → (timegm tm).2 = -1)

/-- For a time: no leap day is missed, and the day of the year is an `int`. For an instant out of range: the days are out
of bounds, or make the second before the epoch. -/
def Suits (tm : Tm) : Prop :=
  if IsInt (instant tm) then (0 ≤ carriedYear tm + 1899 ∨ IsLeap (carriedYear tm + 1899)) ∧ IsInt (yearDay tm)
  else i32 (reckoned tm) > 24856 ∨ i32 (reckoned tm) < -24856 ∨
    i32 (reckoned tm) = -1 ∧ instant tm % 86400 = 86399

/-- **`timegm` inverts `gmtime`, and is exact just for the fields that suit it.** -/
theorem timegm_exact (tm : Tm) (h : CarriesFit tm) :
    (∀ t, IsInt t → (timegm (gmtime t)).2 = t) ∧ (Meets tm ↔ Suits tm) := by
  refine ⟨fun t ht => timegm_gmtime ht, ?_⟩
  unfold Meets Suits
  by_cases hfit : IsInt (instant tm)
  · have hmissed : missed (carriedYear tm + 1899) = 0 ↔ 0 ≤ carriedYear tm + 1899 ∨ IsLeap (carriedYear tm + 1899) := by
      unfold missed
      split <;> simp [*]
    rw [if_pos hfit, ← hmissed, ← timegm_fits h hfit]
    exact ⟨fun hm => hm.1 hfit, fun hm => ⟨fun _ => hm, fun hnot => absurd hfit hnot⟩⟩
  · rw [if_neg hfit, ← timegm_beyond h]
    exact ⟨fun hm => hm.2 hfit, fun hm => ⟨fun hyes => absurd hyes hfit, fun _ => hm⟩⟩

/-- The second after the last one that a `time_t` counts. -/
def afterLast : Tm :=
  { tm_sec := 8, tm_min := 14, tm_hour := 3, tm_mday := 19, tm_mon := 0, tm_year := 138, tm_wday := 0, tm_yday := 0,
    tm_isdst := 0, tm_gmtoff := 0, tm_zone := "" }

theorem afterLast_carries : CarriesFit afterLast := ⟨by decide, by decide, by decide, by decide⟩

theorem timegm_exact_afterLast :
    (timegm (gmtime 2147483647)).2 = 2147483647 ∧ (Meets afterLast ↔ Suits afterLast) :=
  (timegm_exact afterLast afterLast_carries).imp_left (· 2147483647 (by decide))

/-- It is answered with the first time of all. -/
theorem timegm_afterLast :
    CarriesFit afterLast ∧ instant afterLast = 2147483648 ∧ (timegm afterLast).2 = -2147483648 ∧ ¬Meets afterLast := by
  have hret : (timegm afterLast).2 = -2147483648 := by
    rw [timegm_run afterLast_carries]
    decide
  refine ⟨afterLast_carries, by decide, hret, fun hm => ?_⟩
  have hrefused := hm.2 (by decide)
  rw [hret] at hrefused
  exact absurd hrefused (by decide)

end DiscoBSD.Ctime
