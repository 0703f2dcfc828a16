import Mathlib

/-!
# The proleptic Gregorian calendar

The days are numbered from the first of January 1970. **A year and a day of it, or a year, a month and a day of the
month, name one day**, and the number of the first day of a year has a closed form.
-/

set_option autoImplicit false

namespace DiscoBSD.Lib.Calendar

/-! ## Years -/

def IsLeap (y : ℤ) : Prop := y % 4 = 0 ∧ (y % 100 ≠ 0 ∨ y % 400 = 0)

instance (y : ℤ) : Decidable (IsLeap y) := inferInstanceAs (Decidable (_ ∧ _))

def yearLength (y : ℤ) : ℤ := if IsLeap y then 366 else 365

/-- The first day of a year. -/
def yearStart (y : ℤ) : ℤ := (y - 1) * 365 + (y - 1) / 4 - (y - 1) / 100 + (y - 1) / 400 - 719162

@[simp] theorem yearStart_epoch : yearStart 1970 = 0 := rfl

theorem yearStart_succ (y : ℤ) : yearStart (y + 1) = yearStart y + yearLength y := by
  unfold yearStart yearLength
  by_cases hleap : IsLeap y
  · rw [if_pos hleap]
    unfold IsLeap at hleap
    omega
  · rw [if_neg hleap]
    unfold IsLeap at hleap
    omega

theorem yearStart_pred (y : ℤ) : yearStart (y - 1) = yearStart y - yearLength (y - 1) := by
  have hstep := yearStart_succ (y - 1)
  rw [Int.sub_add_cancel] at hstep
  omega

theorem yearStart_mono {y z : ℤ} (h : y ≤ z) : yearStart y + (z - y) * 365 ≤ yearStart z := by
  unfold yearStart
  omega

/-- The day `d` is the day `k` of the year `y`. -/
structure InYear (d y k : ℤ) : Prop where
  sum : yearStart y + k = d
  nonneg : 0 ≤ k
  lt : k < yearLength y

theorem InYear.unique {d y y' k k' : ℤ} (h : InYear d y k) (h' : InYear d y' k') : y = y' ∧ k = k' := by
  have hle : ∀ {y y' k k' : ℤ}, InYear d y k → InYear d y' k' → ¬y < y' := by
    intro y y' k k' h h' hlt
    have hmono := yearStart_mono (by omega : y + 1 ≤ y')
    have hsucc := yearStart_succ y
    have := h.sum
    have := h'.sum
    have := h.lt
    have := h'.nonneg
    omega
  have hyear : y = y' := le_antisymm (not_lt.mp (hle h' h)) (not_lt.mp (hle h h'))
  refine ⟨hyear, ?_⟩
  have := h.sum
  have := h'.sum
  rw [hyear] at *
  omega

/-! ## Months -/

def monthLengths (y : ℤ) : List ℤ := [31, if IsLeap y then 29 else 28, 31, 30, 31, 30, 31, 31, 30, 31, 30, 31]

/-- The days of a year before a month. -/
def monthStart (y : ℤ) (m : ℕ) : ℤ := ((monthLengths y).take m).sum

def monthLength (y : ℤ) (m : ℕ) : ℤ := (monthLengths y)[m]?.getD 0

theorem monthLengths_cases {P : List ℤ → Prop} (y : ℤ) (h : P [31, 29, 31, 30, 31, 30, 31, 31, 30, 31, 30, 31])
    (h' : P [31, 28, 31, 30, 31, 30, 31, 31, 30, 31, 30, 31]) : P (monthLengths y) := by
  unfold monthLengths
  split
  · exact h
  · exact h'

theorem monthStart_succ (y : ℤ) {m : ℕ} (hm : m < 12) : monthStart y (m + 1) = monthStart y m + monthLength y m := by
  have hlen : m < (monthLengths y).length := hm
  rw [monthStart, monthStart, monthLength, List.take_succ_eq_append_getElem hlen, List.sum_append, List.sum_singleton,
    List.getElem?_eq_getElem hlen, Option.getD_some]

theorem monthStart_zero (y : ℤ) : monthStart y 0 = 0 := rfl

theorem monthStart_end (y : ℤ) : monthStart y 12 = yearLength y := by
  unfold monthStart monthLengths yearLength
  split <;> rfl

theorem monthStart_mono (y : ℤ) : ∀ n ≤ 12, ∀ m ≤ n, monthStart y m ≤ monthStart y n :=
  monthLengths_cases (P := fun l => ∀ n ≤ 12, ∀ m ≤ n, (l.take m).sum ≤ (l.take n).sum) y (by decide) (by decide)

theorem monthLength_le (y : ℤ) : ∀ m < 12, monthLength y m ≤ 31 :=
  monthLengths_cases (P := fun l => ∀ m < 12, l[m]?.getD 0 ≤ 31) y (by decide) (by decide)

/-- The day `d` is the day `k` of the month `m` of the year `y`, with the first month called 0. -/
structure InMonth (d y : ℤ) (m : ℕ) (k : ℤ) : Prop where
  sum : yearStart y + monthStart y m + k - 1 = d
  month : m < 12
  pos : 1 ≤ k
  le : k ≤ monthLength y m

theorem InMonth.inYear {d y k : ℤ} {m : ℕ} (h : InMonth d y m k) : InYear d y (monthStart y m + k - 1) := by
  have hsucc := monthStart_succ y h.month
  have hstart := monthStart_mono y m h.month.le 0 (Nat.zero_le m)
  have hend := monthStart_mono y 12 (le_refl 12) (m + 1) h.month
  rw [monthStart_end] at hend
  rw [monthStart_zero] at hstart
  have := h.pos
  have := h.le
  have := h.sum
  exact ⟨by omega, by omega, by omega⟩

theorem InMonth.unique {d y y' k k' : ℤ} {m m' : ℕ} (h : InMonth d y m k) (h' : InMonth d y' m' k') :
    y = y' ∧ m = m' ∧ k = k' := by
  obtain ⟨rfl, hday⟩ := h.inYear.unique h'.inYear
  have hle : ∀ {m m' : ℕ} {k k' : ℤ}, InMonth d y m k → InMonth d y m' k' →
      monthStart y m + k - 1 = monthStart y m' + k' - 1 → ¬m < m' := by
    intro m m' k k' h h' hday hlt
    have hsucc := monthStart_succ y h.month
    have hmono := monthStart_mono y m' h'.month.le (m + 1) hlt
    have := h.le
    have := h'.pos
    omega
  have hmonth : m = m' := le_antisymm (not_lt.mp (hle h' h hday.symm)) (not_lt.mp (hle h h' hday))
  subst hmonth
  exact ⟨rfl, rfl, by omega⟩

/-! ## The day of the week -/

/-- The first day of all was a Thursday. -/
def weekday (d : ℤ) : ℤ := (d + 4) % 7

end DiscoBSD.Lib.Calendar
