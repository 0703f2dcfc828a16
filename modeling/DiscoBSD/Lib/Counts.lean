import Mathlib.Algebra.BigOperators.Fin
import Mathlib.Algebra.Order.BigOperators.Group.Finset
import Mathlib.Data.List.Range
import Mathlib.Data.List.Count

/-!
# Counting references

How often a table names a value, and how the number changes with one entry. **Each fact is an equation between
sums, with what went on the left and what came on the right**, so that changes add up.
-/

set_option autoImplicit false

namespace DiscoBSD.Lib

open Function (update)

variable {ν : Type} [DecidableEq ν]

/-- One if they are the same, and else zero. -/
def same (x : Option ν) (v : ν) : ℕ := if x = some v then 1 else 0

@[simp] theorem same_none (v : ν) : same none v = 0 := rfl

@[simp] theorem same_self (v : ν) : same (some v) v = 1 := if_pos rfl

theorem same_of_ne {v w : ν} (h : v ≠ w) : same (some v) w = 0 := if_neg fun he => h (Option.some.inj he)

theorem same_pos {x : Option ν} {v : ν} : 0 < same x v ↔ x = some v := by
  unfold same
  split_ifs with h <;> simp [h]

/-- How many of the first `n` entries name `v`. -/
def names (g : ℕ → Option ν) (v : ν) : ℕ → ℕ
  | 0 => 0
  | n + 1 => names g v n + same (g n) v

variable {g g' : ℕ → Option ν} {v : ν} {n i : ℕ}

theorem names_congr (h : ∀ i < n, g i = g' i) : names g v n = names g' v n := by
  induction n with
  | zero => rfl
  | succ n ih =>
    unfold names
    rw [ih fun i hi => h i (Nat.lt_succ_of_lt hi), h n n.lt_succ_self]

/-- One entry is changed. -/
theorem names_update (hi : i < n) (x : Option ν) : names (update g i x) v n + same (g i) v = names g v n + same x v := by
  induction n with
  | zero => exact absurd hi (Nat.not_lt_zero i)
  | succ n ih =>
    unfold names
    by_cases heq : i = n
    · subst heq
      have hbelow : names (update g i x) v i = names g v i :=
        names_congr fun j hj => Function.update_of_ne (Nat.ne_of_lt hj) x g
      rw [Function.update_self, hbelow]
      omega
    · have hih := ih (by omega)
      rw [Function.update_of_ne (Ne.symm heq)]
      omega

theorem names_pos : 0 < names g v n ↔ ∃ i < n, g i = some v := by
  induction n with
  | zero => simp [names]
  | succ n ih =>
    unfold names
    constructor
    · intro h
      by_cases hn : g n = some v
      · exact ⟨n, n.lt_succ_self, hn⟩
      · have hzero : same (g n) v = 0 := if_neg hn
        obtain ⟨i, hi, hgi⟩ := ih.mp (by omega)
        exact ⟨i, Nat.lt_succ_of_lt hi, hgi⟩
    · rintro ⟨i, hi, hgi⟩
      rcases Nat.lt_succ_iff_lt_or_eq.mp hi with hlt | rfl
      · have hpos := ih.mpr ⟨i, hlt, hgi⟩
        omega
      · have hpos := same_pos.mpr hgi
        omega

/-- Two entries that name it. -/
theorem two_le_names {j : ℕ} (hi : i < n) (hj : j < n) (hne : i ≠ j) (hgi : g i = some v) (hgj : g j = some v) :
    2 ≤ names g v n := by
  have hupd := names_update (g := g) (v := v) hi none
  have hpos : 0 < names (update g i none) v n := names_pos.mpr ⟨j, hj, by rwa [Function.update_of_ne hne.symm]⟩
  rw [hgi, same_self, same_none] at hupd
  omega

/-- The entries from some place on name nothing. -/
theorem names_of_le {m : ℕ} (hle : m ≤ n) (h : ∀ i, m ≤ i → i < n → g i = none) : names g v n = names g v m := by
  induction n with
  | zero => rw [Nat.le_zero.mp hle]
  | succ n ih =>
    rcases Nat.eq_or_lt_of_le hle with heq | hlt
    · rw [heq]
    · have hlast : same (g n) v = 0 := by
        rw [h n (Nat.lt_succ_iff.mp hlt) n.lt_succ_self]
        rfl
      have hih := ih (Nat.lt_succ_iff.mp hlt) fun i hm hi => h i hm (Nat.lt_succ_of_lt hi)
      rw [← hih]
      exact congrArg (names g v n + ·) hlast

variable {π : Type} [Fintype π] [DecidableEq π]

/-- One summand is changed. -/
theorem sum_update {α : Type} (F : α → ℕ) (s : π → α) (p : π) (x : α) :
    ∑ q, F (update s p x q) + F (s p) = ∑ q, F (s q) + F x := by
  have hrest : ∑ q ∈ Finset.univ.erase p, F (update s p x q) = ∑ q ∈ Finset.univ.erase p, F (s q) :=
    Finset.sum_congr rfl fun q hq => by rw [Function.update_of_ne (Finset.ne_of_mem_erase hq)]
  have hold := Finset.add_sum_erase Finset.univ (fun q => F (s q)) (Finset.mem_univ p)
  have hnew := Finset.add_sum_erase Finset.univ (fun q => F (update s p x q)) (Finset.mem_univ p)
  rw [Function.update_self] at hnew
  omega

/-- Two different summands. -/
theorem add_le_sum {F : π → ℕ} {p q : π} (h : p ≠ q) : F p + F q ≤ ∑ r, F r := by
  rw [← Finset.add_sum_erase _ F (Finset.mem_univ p)]
  exact Nat.add_le_add_left
    (Finset.single_le_sum (f := F) (fun _ _ => Nat.zero_le _) (Finset.mem_erase.mpr ⟨h.symm, Finset.mem_univ q⟩)) _

omit [DecidableEq π] in
theorem le_sum (F : π → ℕ) (p : π) : F p ≤ ∑ r, F r :=
  Finset.single_le_sum (f := F) (fun _ _ => Nat.zero_le _) (Finset.mem_univ p)

end DiscoBSD.Lib
