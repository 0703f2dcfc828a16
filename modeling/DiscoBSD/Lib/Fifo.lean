import Mathlib.Logic.Function.Basic
import Mathlib.Data.List.Basic
import Mathlib.Algebra.Order.Group.Nat

/-!
# A ring with counters that run freely

`size` cells, and a counter for each end that is kept modulo `word`, a multiple of `size`. **The cells between the two
counters are a queue**, however often the counters have gone around.
-/

set_option autoImplicit false

namespace DiscoBSD.Lib

open Function (update)

variable {α : Type}

/-- The `n` cells from `tail` on. -/
def ringCells (size : ℕ) (cell : ℕ → α) (tail : ℕ) : ℕ → List α
  | 0 => []
  | n + 1 => cell (tail % size) :: ringCells size cell (tail + 1) n

/-- How far `head` is in front of `tail`. -/
def ahead (word head tail : ℕ) : ℕ := (head + word - tail) % word

variable {size word : ℕ} {cell : ℕ → α} {head tail n : ℕ}

@[simp] theorem ringCells_length : (ringCells size cell tail n).length = n := by
  induction n generalizing tail with
  | zero => rfl
  | succ n ih => rw [ringCells, List.length_cons, ih]

theorem ringCells_congr {tail' : ℕ} {cell' : ℕ → α}
    (h : ∀ i < n, cell ((tail + i) % size) = cell' ((tail' + i) % size)) :
    ringCells size cell tail n = ringCells size cell' tail' n := by
  induction n generalizing tail tail' with
  | zero => rfl
  | succ n ih =>
    have hfirst := h 0 (Nat.succ_pos n)
    rw [ringCells, ringCells, ih]
    · exact congrArg (· :: _) hfirst
    · intro i hi
      have hnext := h (i + 1) (Nat.succ_lt_succ hi)
      rwa [Nat.add_right_comm tail, Nat.add_assoc tail, Nat.add_right_comm tail', Nat.add_assoc tail']

/-- The counter may be taken modulo a multiple of the size. -/
theorem ringCells_mod (hdvd : size ∣ word) : ringCells size cell (tail % word) n = ringCells size cell tail n := by
  refine ringCells_congr fun i _ => congrArg cell ?_
  rw [Nat.add_mod (tail % word), Nat.mod_mod_of_dvd _ hdvd, ← Nat.add_mod]

/-- One cell more at the end. -/
theorem ringCells_succ : ringCells size cell tail (n + 1) = ringCells size cell tail n ++ [cell ((tail + n) % size)] := by
  induction n generalizing tail with
  | zero => rfl
  | succ n ih =>
    rw [ringCells, ih, ringCells, List.cons_append, Nat.add_right_comm tail, Nat.add_assoc tail]

/-- A cell is written in front of the queue. -/
theorem ringCells_put (hroom : n < size) (x : α) :
    ringCells size (update cell ((tail + n) % size) x) tail (n + 1) = ringCells size cell tail n ++ [x] := by
  rw [ringCells_succ, Function.update_self]
  refine congrArg (· ++ [x]) (ringCells_congr fun i hi => Function.update_of_ne ?_ _ _)
  intro heq
  have hmod : (tail + i) % size = (tail + n) % size := heq
  have hzero : (n - i) % size = 0 := by
    have hsub := Nat.sub_mod_eq_zero_of_mod_eq hmod.symm
    rwa [Nat.add_sub_add_left] at hsub
  rw [Nat.mod_eq_of_lt (by omega)] at hzero
  omega

/-- The first cells are taken. -/
theorem ringCells_drop {k : ℕ} (hk : k ≤ n) :
    (ringCells size cell tail n).drop k = ringCells size cell (tail + k) (n - k) := by
  induction k generalizing tail n with
  | zero => rfl
  | succ k ih =>
    cases n with
    | zero => omega
    | succ n =>
      rw [ringCells, List.drop_succ_cons, ih (Nat.le_of_succ_le_succ hk), Nat.succ_sub_succ, Nat.add_assoc,
        Nat.add_comm 1 k]

theorem ringCells_take {k : ℕ} (hk : k ≤ n) :
    (ringCells size cell tail n).take k = ringCells size cell tail k := by
  induction k generalizing tail n with
  | zero => rfl
  | succ k ih =>
    cases n with
    | zero => omega
    | succ n => rw [ringCells, List.take_succ_cons, ih (Nat.le_of_succ_le_succ hk), ringCells]

/-! ## The counters -/

theorem ahead_lt (hword : 0 < word) (head tail : ℕ) : ahead word head tail < word := Nat.mod_lt _ hword

/-- The front counter from the one behind. -/
theorem add_ahead (hhead : head < word) (htail : tail < word) : (tail + ahead word head tail) % word = head := by
  unfold ahead
  rw [Nat.add_mod_mod]
  have hsum : tail + (head + word - tail) = head + word := by omega
  rw [hsum, Nat.add_mod_right, Nat.mod_eq_of_lt hhead]

theorem ahead_add (htail : tail < word) (hn : n < word) : ahead word ((tail + n) % word) tail = n := by
  unfold ahead
  by_cases hwrap : tail + n < word
  · rw [Nat.mod_eq_of_lt hwrap]
    have hsub : tail + n + word - tail = n + word := by omega
    rw [hsub, Nat.add_mod_right, Nat.mod_eq_of_lt hn]
  · have hmod : (tail + n) % word = tail + n - word := by
      rw [Nat.mod_eq_sub_mod (by omega), Nat.mod_eq_of_lt (by omega)]
    rw [hmod]
    have hsub : tail + n - word + word - tail = n := by omega
    rw [hsub, Nat.mod_eq_of_lt hn]

theorem ahead_eq_zero (hhead : head < word) (htail : tail < word) : ahead word head tail = 0 ↔ tail = head := by
  have hadd := add_ahead hhead htail
  constructor
  · intro hzero
    rwa [hzero, Nat.add_zero, Nat.mod_eq_of_lt htail] at hadd
  · rintro rfl
    unfold ahead
    rw [Nat.add_sub_cancel_left, Nat.mod_self]

/-- The counter in front goes on. -/
theorem ahead_put (hhead : head < word) (htail : tail < word) {k : ℕ} (hroom : ahead word head tail + k < word) :
    ahead word ((head + k) % word) tail = ahead word head tail + k := by
  have hadd := add_ahead hhead htail
  rw [← ahead_add htail hroom, ← Nat.add_assoc, Nat.add_mod (tail + _), hadd, Nat.add_mod head k, Nat.mod_eq_of_lt hhead]

/-- The counter behind goes on. -/
theorem ahead_drop (hhead : head < word) (htail : tail < word) {k : ℕ} (hk : k ≤ ahead word head tail) :
    ahead word head ((tail + k) % word) = ahead word head tail - k := by
  have hadd := add_ahead hhead htail
  have hword : 0 < word := Nat.lt_of_le_of_lt (Nat.zero_le _) hhead
  have hlt : ahead word head tail - k < word := Nat.lt_of_le_of_lt (Nat.sub_le _ _) (ahead_lt hword head tail)
  have hfront : ((tail + k) % word + (ahead word head tail - k)) % word = head := by
    rw [Nat.mod_add_mod, Nat.add_assoc, Nat.add_sub_cancel' hk, hadd]
  have hback := ahead_add (Nat.mod_lt (tail + k) hword) hlt
  rwa [hfront] at hback

end DiscoBSD.Lib
