import Mathlib
import DiscoBSD.Ctime.Timegm

/-!
# The instants that fields name

What the calendar says a `struct tm` names, and the steps of the two functions against it: **a carry keeps the instant,
and the walks over years and months keep the day**.
-/

set_option autoImplicit false

namespace DiscoBSD.Ctime

open Lib.Calendar

/-! ## Numbers of 32 bits -/

/-- The values of an `int`. -/
def IsInt (n : ℤ) : Prop := INT_MIN ≤ n ∧ n ≤ INT_MAX

instance (n : ℤ) : Decidable (IsInt n) := inferInstanceAs (Decidable (_ ∧ _))

theorem isInt_iff (n : ℤ) : IsInt n ↔ -2147483648 ≤ n ∧ n ≤ 2147483647 := Iff.rfl

theorem i32_self {n : ℤ} (h : IsInt n) : i32 n = n := by
  rw [isInt_iff] at h
  unfold i32
  omega

theorem isInt_i32 (n : ℤ) : IsInt (i32 n) := by
  rw [isInt_iff]
  unfold i32
  omega

theorem i32_add_right (a b : ℤ) : i32 (a + i32 b) = i32 (a + b) := by
  unfold i32
  omega

theorem i32_add_left (a b : ℤ) : i32 (i32 a + b) = i32 (a + b) := by
  unfold i32
  omega

theorem tdiv_of_neg {n c : ℤ} (h : n < 0) : n.tdiv c = -(-n / c) := by
  rw [← Int.tdiv_eq_ediv_of_nonneg (by omega : 0 ≤ -n), Int.neg_tdiv, Int.neg_neg]

theorem tmod_of_neg {n c : ℤ} (h : n < 0) : n.tmod c = -(-n % c) := by
  rw [← Int.tmod_eq_emod_of_nonneg (by omega : 0 ≤ -n), Int.neg_tmod, Int.neg_neg]

/-! ## Carries -/

/-- A carry divides with a floor. -/
theorem carry_eq (lo hi : ℤ) {base : ℤ} (hbase : 0 < base) : carry lo hi base = (lo % base, i32 (hi + lo / base)) := by
  have hdiv := Int.mul_tdiv_add_tmod lo base
  unfold carry
  dsimp only
  have hfloor : ∀ q r : ℤ, base * q + r = lo → 0 ≤ r → r < base → lo / base = q ∧ lo % base = r := by
    intro q r heq hr hlt
    rw [Int.ediv_emod_unique hbase]
    exact ⟨by omega, hr, hlt⟩
  by_cases hr : lo.tmod base < 0
  · have hlt : -lo.tmod base < base := by
      have := Int.lt_tmod_of_pos lo hbase
      omega
    obtain ⟨hq, hm⟩ := hfloor (lo.tdiv base - 1) (lo.tmod base + base) (by rw [Int.mul_sub]; omega) (by omega) (by omega)
    rw [if_pos hr, hq, hm]
  · obtain ⟨hq, hm⟩ := hfloor (lo.tdiv base) (lo.tmod base) hdiv (by omega) (Int.tmod_lt_of_pos lo hbase)
    rw [if_neg hr, hq, hm]

/-- The fields above the seconds, the minutes, the hours and the months when these have been carried into them. -/
def carriedMin (tm : Tm) : ℤ := tm.tm_min + tm.tm_sec / 60

def carriedHour (tm : Tm) : ℤ := tm.tm_hour + carriedMin tm / 60

def carriedMday (tm : Tm) : ℤ := tm.tm_mday + carriedHour tm / 24

def carriedYear (tm : Tm) : ℤ := tm.tm_year + tm.tm_mon / 12

/-- The carries stay within `int`. -/
structure CarriesFit (tm : Tm) : Prop where
  min : IsInt (carriedMin tm)
  hour : IsInt (carriedHour tm)
  mday : IsInt (carriedMday tm)
  year : IsInt (carriedYear tm)

/-- The fields carried. -/
def carried (tm : Tm) : Tm :=
  { tm with
    tm_sec := tm.tm_sec % 60, tm_min := carriedMin tm % 60, tm_hour := carriedHour tm % 24,
    tm_mday := carriedMday tm, tm_mon := tm.tm_mon % 12, tm_year := carriedYear tm }

theorem normalize_eq {tm : Tm} (h : CarriesFit tm) : normalize tm = carried tm := by
  have hmin : i32 (tm.tm_min + tm.tm_sec / 60) = carriedMin tm := i32_self h.min
  have hhour : i32 (tm.tm_hour + carriedMin tm / 60) = carriedHour tm := i32_self h.hour
  have hmday : i32 (tm.tm_mday + carriedHour tm / 24) = carriedMday tm := i32_self h.mday
  have hyear : i32 (tm.tm_year + tm.tm_mon / 12) = carriedYear tm := i32_self h.year
  unfold normalize
  simp only [carry_eq _ _ (by decide : (0 : ℤ) < 60), carry_eq _ _ (by decide : (0 : ℤ) < 24),
    carry_eq _ _ (by decide : (0 : ℤ) < 12), hmin, hhour, hmday, hyear]
  rfl

/-! ## What the fields name -/

/-- The day the fields name. -/
def dayNamed (tm : Tm) : ℤ :=
  yearStart (carriedYear tm + 1900) + monthStart (carriedYear tm + 1900) (tm.tm_mon % 12).toNat + carriedMday tm - 1

/-- The second of the day. -/
def secondNamed (tm : Tm) : ℤ := carriedHour tm % 24 * 3600 + carriedMin tm % 60 * 60 + tm.tm_sec % 60

/-- The seconds from the epoch to the instant the fields name. -/
def instant (tm : Tm) : ℤ :=
  (yearStart (tm.tm_year + tm.tm_mon / 12 + 1900) +
    monthStart (tm.tm_year + tm.tm_mon / 12 + 1900) (tm.tm_mon % 12).toNat + tm.tm_mday - 1) * 86400 +
    tm.tm_hour * 3600 + tm.tm_min * 60 + tm.tm_sec

theorem secondNamed_bounds (tm : Tm) : 0 ≤ secondNamed tm ∧ secondNamed tm < 86400 := by
  unfold secondNamed
  omega

/-- The carries keep the instant. -/
theorem instant_eq (tm : Tm) : instant tm = dayNamed tm * 86400 + secondNamed tm := by
  unfold instant dayNamed secondNamed carriedMday carriedHour carriedMin carriedYear
  omega

theorem instant_day (tm : Tm) : instant tm / 86400 = dayNamed tm := by
  have := instant_eq tm
  have := secondNamed_bounds tm
  omega

theorem instant_second (tm : Tm) : instant tm % 86400 = secondNamed tm := by
  have := instant_eq tm
  have := secondNamed_bounds tm
  omega

/-- The fields are those of the instant `t`, all of them in range. -/
structure Names (t : ℤ) (tm : Tm) : Prop where
  sec : tm.tm_sec = t % 60
  min : tm.tm_min = t / 60 % 60
  hour : tm.tm_hour = t / 3600 % 24
  mon : 0 ≤ tm.tm_mon
  date : InMonth (t / 86400) (tm.tm_year + 1900) tm.tm_mon.toNat tm.tm_mday
  yday : InYear (t / 86400) (tm.tm_year + 1900) tm.tm_yday
  wday : tm.tm_wday = weekday (t / 86400)

/-! ## The walks -/

theorem isleap_iff (y : ℤ) : isleap y = true ↔ IsLeap y := by
  have hzero : ∀ c : ℤ, y.tmod c = 0 ↔ y % c = 0 := by
    intro c
    rw [← Int.dvd_iff_tmod_eq_zero, Int.dvd_iff_emod_eq_zero]
  unfold isleap IsLeap
  rw [decide_eq_true_iff, hzero, hzero, ne_eq, hzero]

theorem yearLengths_eq (y : ℤ) : yearLengths (isleap y) = yearLength y := by
  unfold yearLengths yearLength
  simp only [isleap_iff]

theorem monLengths_eq (y : ℤ) : monLengths (isleap y) = monthLengths y := by
  unfold monLengths monthLengths
  by_cases hleap : IsLeap y
  · rw [if_pos ((isleap_iff y).mpr hleap), if_pos hleap]
  · rw [if_neg (mt (isleap_iff y).mp hleap), if_neg hleap]

theorem yearLength_bounds (y : ℤ) : 365 ≤ yearLength y ∧ yearLength y ≤ 366 := by
  unfold yearLength
  split <;> decide

/-- Years back, until the day is not before the year. -/
theorem yearDown_ok {year yday : ℤ} (hyear : IsInt year) (hroom : INT_MIN ≤ year + yday / 365) :
    yearStart (yearDown year yday).1 + (yearDown year yday).2 = yearStart year + yday ∧ IsInt (yearDown year yday).1 ∧
      (yday < 0 → InYear (yearStart year + yday) (yearDown year yday).1 (yearDown year yday).2) ∧
      (0 ≤ yday → yearDown year yday = (year, yday)) := by
  induction year, yday using yearDown.induct with
  | case1 year yday hneg ih =>
    unfold INT_MIN at hroom
    rw [isInt_iff] at hyear
    have hpred : i32 (year - 1) = year - 1 := i32_self ((isInt_iff _).mpr (by omega))
    have hlen := yearLength_bounds (year - 1)
    have hstart := yearStart_pred year
    rw [hpred, yearLengths_eq] at ih
    obtain ⟨hsum, hint, hbefore, hhere⟩ := ih ((isInt_iff _).mpr (by omega)) (by unfold INT_MIN; omega)
    have hsame : yearStart (year - 1) + (yday + yearLength (year - 1)) = yearStart year + yday := by omega
    rw [hsame] at hsum hbefore
    rw [yearDown, if_pos hneg, hpred, yearLengths_eq]
    refine ⟨hsum, hint, fun _ => ?_, fun hnonneg => absurd hneg (not_lt.mpr hnonneg)⟩
    by_cases hmore : yday + yearLength (year - 1) < 0
    · exact hbefore hmore
    · rw [hhere (not_lt.mp hmore)]
      exact ⟨hsame, not_lt.mp hmore, by dsimp only; omega⟩
  | case2 year yday hnonneg =>
    rw [yearDown, if_neg hnonneg]
    exact ⟨rfl, hyear, fun hneg => absurd hneg hnonneg, fun _ => rfl⟩

/-- Years on, until the day is not behind the year. -/
theorem yearUp_ok {year yday : ℤ} (hyear : IsInt year) (hroom : year + yday / 365 ≤ INT_MAX) (hpos : 0 ≤ yday) :
    InYear (yearStart year + yday) (yearUp year yday).1 (yearUp year yday).2 ∧ IsInt (yearUp year yday).1 := by
  induction year, yday using yearUp.induct with
  | case1 year yday hge ih =>
    rw [yearLengths_eq] at hge
    have hlen := yearLength_bounds year
    unfold INT_MAX at hroom
    rw [isInt_iff] at hyear
    have hsucc : i32 (year + 1) = year + 1 := i32_self ((isInt_iff _).mpr (by omega))
    rw [hsucc, yearLengths_eq] at ih
    obtain ⟨hin, hint⟩ := ih ((isInt_iff _).mpr (by omega)) (by unfold INT_MAX; omega) (by omega)
    have hsame : yearStart (year + 1) + (yday - yearLength year) = yearStart year + yday := by
      rw [yearStart_succ]
      omega
    rw [yearUp, yearLengths_eq, if_pos hge, hsucc]
    exact ⟨hsame ▸ hin, hint⟩
  | case2 year yday hlt =>
    rw [yearUp, if_neg hlt]
    rw [yearLengths_eq] at hlt
    exact ⟨⟨rfl, hpos, not_le.mp hlt⟩, hyear⟩

/-- Both walks, as `timegm` makes them. -/
def yearWalk (year yday : ℤ) : ℤ × ℤ := yearUp (yearDown year yday).1 (yearDown year yday).2

theorem yearWalk_ok {year yday : ℤ} (hyear : IsInt year) (hlo : INT_MIN ≤ year + yday / 365)
    (hhi : year + yday / 365 ≤ INT_MAX) :
    InYear (yearStart year + yday) (yearWalk year yday).1 (yearWalk year yday).2 ∧ IsInt (yearWalk year yday).1 := by
  obtain ⟨hsum, hint, hbefore, hhere⟩ := yearDown_ok hyear hlo
  unfold yearWalk
  rcases lt_or_ge yday 0 with hneg | hnonneg
  · have hin := hbefore hneg
    have hshort : yearUp (yearDown year yday).1 (yearDown year yday).2 = yearDown year yday := by
      rw [yearUp, if_neg]
      rw [yearLengths_eq]
      exact not_le.mpr hin.lt
    rw [hshort]
    exact ⟨hin, hint⟩
  · rw [hhere hnonneg]
    exact yearUp_ok hyear hhi hnonneg

/-- The month and the day of it. -/
theorem monthUp_ok (ls : List ℤ) (i yday : ℤ) (hpos : 0 ≤ yday) (hlt : yday < ls.sum) :
    ∃ m < ls.length, monthUp ls i yday = (i + m, yday - (ls.take m).sum) ∧ 0 ≤ yday - (ls.take m).sum ∧
      yday - (ls.take m).sum < ls[m]?.getD 0 := by
  induction ls generalizing i yday with
  | nil => exact absurd hlt (not_lt.mpr hpos)
  | cons l ls ih =>
    rw [List.sum_cons] at hlt
    by_cases hge : yday ≥ l
    · obtain ⟨m, hm, hrun, hnonneg, hless⟩ := ih (i + 1) (yday - l) (by omega) (by omega)
      have hsum : yday - ((l :: ls).take (m + 1)).sum = yday - l - (ls.take m).sum := by
        rw [List.take_succ_cons, List.sum_cons]
        omega
      refine ⟨m + 1, Nat.succ_lt_succ hm, ?_, ?_, ?_⟩
      · rw [monthUp, if_pos hge, hrun, hsum]
        refine Prod.ext ?_ rfl
        push_cast
        omega
      · rwa [hsum]
      · rwa [hsum, List.getElem?_cons_succ]
    · refine ⟨0, Nat.succ_pos _, ?_, ?_, ?_⟩
      · rw [monthUp, if_neg hge, List.take_zero, List.sum_nil]
        refine Prod.ext ?_ ?_ <;> simp
      · rwa [List.take_zero, List.sum_nil, Int.sub_zero]
      · rw [List.take_zero, List.sum_nil, Int.sub_zero, List.getElem?_cons_zero, Option.getD_some]
        exact not_le.mp hge

/-- The month of a day of a year. -/
theorem month_ok {d y k : ℤ} (h : InYear d y k) :
    0 ≤ (monthUp (monLengths (isleap y)) 0 k).1 ∧
      InMonth d y (monthUp (monLengths (isleap y)) 0 k).1.toNat ((monthUp (monLengths (isleap y)) 0 k).2 + 1) := by
  rw [monLengths_eq]
  have hsum : (monthLengths y).sum = yearLength y := monthStart_end y
  obtain ⟨m, hm, hrun, hnonneg, hless⟩ := monthUp_ok (monthLengths y) 0 k h.nonneg (by rw [hsum]; exact h.lt)
  have := h.sum
  rw [hrun, Int.zero_add]
  refine ⟨Int.natCast_nonneg m, ?_, hm, ?_, ?_⟩
  · rw [Int.toNat_natCast, monthStart]
    omega
  · omega
  · rw [Int.toNat_natCast, monthLength]
    omega

theorem wdayOf_eq {days : ℤ} (h : IsInt (days + 4)) : wdayOf days = weekday days := by
  unfold wdayOf weekday EPOCH_WDAY
  dsimp only
  rw [i32_self h]
  rcases lt_or_ge (days + 4) 0 with hneg | hnonneg
  · rw [tmod_of_neg hneg]
    split <;> omega
  · rw [Int.tmod_eq_emod_of_nonneg hnonneg, if_neg (by omega)]

end DiscoBSD.Ctime
