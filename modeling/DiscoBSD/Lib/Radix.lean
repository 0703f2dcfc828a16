import Mathlib.Tactic.Linarith
import Mathlib.Tactic.Ring

/-!
# Numbers by their digits

`value B l n` is the number with the digits `l 0`, `l 1` up to `l (n - 1)` to the base `B`, the lowest first. **A digit
sequence that is shifted by less than a digit, and what falls out of it at one end, is the number multiplied or
divided.**
-/

set_option autoImplicit false

namespace DiscoBSD.Lib

def value (B : ℕ) (l : ℕ → ℕ) : ℕ → ℕ
  | 0 => 0
  | n + 1 => value B l n + l n * B ^ n

section

variable {B n m : ℕ} {l l' : ℕ → ℕ}

@[simp] theorem value_zero : value B l 0 = 0 := rfl

theorem value_succ : value B l (n + 1) = value B l n + l n * B ^ n := rfl

theorem value_congr (h : ∀ i < n, l i = l' i) : value B l n = value B l' n := by
  induction n with
  | zero => rfl
  | succ n ih => rw [value_succ, value_succ, ih fun i hi => h i (by omega), h n (by omega)]

theorem value_eq_zero (h : ∀ i < n, l i = 0) : value B l n = 0 := by
  induction n with
  | zero => rfl
  | succ n ih => rw [value_succ, ih fun i hi => h i (by omega), h n (by omega), Nat.zero_mul]

theorem value_lt (h : ∀ i < n, l i < B) : value B l n < B ^ n := by
  induction n with
  | zero => exact Nat.one_pos
  | succ n ih =>
    have hrest := ih fun i hi => h i (by omega)
    have htop : (l n + 1) * B ^ n ≤ B * B ^ n := Nat.mul_le_mul_right _ (h n (by omega))
    rw [value_succ, Nat.pow_succ, Nat.mul_comm _ B]
    linarith

/-- The low digits and the rest. -/
theorem value_add : value B l (m + n) = value B l m + B ^ m * value B (fun i => l (m + i)) n := by
  induction n with
  | zero => rfl
  | succ n ih =>
    rw [← Nat.add_assoc, value_succ, ih, value_succ, Nat.pow_add]
    ring

/-- A digit that is not zero. -/
theorem pow_le_value (h : l n ≠ 0) : B ^ n ≤ value B l (n + 1) := by
  rw [value_succ]
  have : 1 * B ^ n ≤ l n * B ^ n := Nat.mul_le_mul_right _ (Nat.pos_of_ne_zero h)
  omega

/-- The highest digit in which they differ decides. -/
theorem value_lt_value (hl : ∀ i < n, l i < B) (hlt : l n < l' n) : value B l (n + 1) < value B l' (n + 1) := by
  have hrest := value_lt hl
  have htop : (l n + 1) * B ^ n ≤ l' n * B ^ n := Nat.mul_le_mul_right _ hlt
  rw [value_succ, value_succ]
  linarith

end

/-! ## Shifts by less than a digit -/

section

variable {B p q n x y : ℕ} {l l' : ℕ → ℕ}

/-- A digit that is shifted up, with what came out of the digit below. -/
theorem shl_digit (hB : B = p * q) (hx : x < B) (hy : y < B) :
    (x * p + y / q) % B + x / q * B = x * p + y / q := by
  have hpq : 0 < p ∧ 0 < q := by
    constructor
    · exact Nat.pos_of_ne_zero fun h => by simp [hB, h] at hx
    · exact Nat.pos_of_ne_zero fun h => by simp [hB, h] at hx
  have hhi : y / q < p := (Nat.div_lt_iff_lt_mul hpq.2).mpr (hB ▸ hy)
  have hlo : x % q < q := Nat.mod_lt _ hpq.2
  have hsplit : x * p + y / q = (x % q * p + y / q) + x / q * B := by
    have := Nat.mod_add_div x q
    calc x * p + y / q = (x % q + q * (x / q)) * p + y / q := by rw [this]
      _ = (x % q * p + y / q) + x / q * B := by rw [hB]; ring
  have hsmall : x % q * p + y / q < B := by
    have : (x % q + 1) * p ≤ q * p := Nat.mul_le_mul_right _ hlo
    rw [hB]
    linarith [Nat.mul_comm p q]
  rw [hsplit, Nat.add_mul_mod_self_right, Nat.mod_eq_of_lt hsmall]

/-- The whole number shifted up. What comes out at the top is `l n / q`. -/
theorem value_shl (hB : B = p * q) (hl : ∀ i, l i < B) (h0 : l' 0 = l 0 * p % B)
    (hsucc : ∀ i < n, l' (i + 1) = (l (i + 1) * p + l i / q) % B) :
    value B l' (n + 1) + l n / q * B ^ (n + 1) = value B l (n + 1) * p := by
  induction n with
  | zero =>
    have hdigit := shl_digit hB (hl 0) (y := 0) (lt_of_le_of_lt (Nat.zero_le _) (hl 0))
    rw [Nat.zero_div, Nat.add_zero] at hdigit
    simp only [value_succ, value_zero, h0]
    simpa using hdigit
  | succ n ih =>
    have hrest := ih fun i hi => hsucc i (by omega)
    have hdigit := shl_digit hB (hl (n + 1)) (hl n)
    rw [← hsucc n (by omega)] at hdigit
    have hmul := congrArg (· * B ^ (n + 1)) hdigit
    rw [value_succ, value_succ (l := l), Nat.pow_succ _ (n + 1)]
    linarith [hrest, hmul, Nat.add_mul (l' (n + 1)) (l (n + 1) / q * B) (B ^ (n + 1)),
      Nat.add_mul (l (n + 1) * p) (l n / q) (B ^ (n + 1))]

/-- A digit that is shifted down, with what comes in from the digit above. -/
theorem shr_digit (hB : B = p * q) (hx : x < B) (hp : 0 < p) :
    (x + y * B) / p % B * p + x % p = x + y % p * B := by
  have hx' : x / p < q := (Nat.div_lt_iff_lt_mul hp).mpr (by rw [Nat.mul_comm]; exact hB ▸ hx)
  have hsplit : (x + y * B) / p = x / p + y * q := by
    rw [hB, show y * (p * q) = p * (y * q) by ring, Nat.add_mul_div_left _ _ hp]
  have hmod : (x / p + y * q) % B = x / p + y % p * q := by
    have hy := Nat.mod_add_div y p
    have hlt : y % p < p := Nat.mod_lt _ hp
    have hsmall : x / p + y % p * q < B := by
      have : (y % p + 1) * q ≤ p * q := Nat.mul_le_mul_right _ hlt
      rw [hB]
      linarith
    calc (x / p + y * q) % B = (x / p + (y % p + p * (y / p)) * q) % B := by rw [hy]
      _ = (x / p + y % p * q + B * (y / p)) % B := by rw [hB]; ring_nf
      _ = x / p + y % p * q := by rw [Nat.add_mul_mod_self_left, Nat.mod_eq_of_lt hsmall]
  have hx'' := Nat.mod_add_div x p
  rw [hsplit, hmod, hB]
  calc (x / p + y % p * q) * p + x % p = (x % p + p * (x / p)) + y % p * (p * q) := by ring
    _ = x + y % p * (p * q) := by rw [hx'']

/-- The whole number shifted down; what falls out at the bottom is `l 0 % p`, and what comes in at the top `l n % p`. -/
theorem value_shr (hB : B = p * q) (hp : 0 < p) (hl : ∀ i < n, l i < B)
    (hshift : ∀ i < n, l' i = (l i + l (i + 1) * B) / p % B) :
    value B l' n * p + l 0 % p = value B l n + l n % p * B ^ n := by
  induction n with
  | zero => simp
  | succ n ih =>
    have hrest := ih (fun i hi => hl i (by omega)) fun i hi => hshift i (by omega)
    have hdigit := shr_digit (y := l (n + 1)) hB (hl n (by omega)) hp
    rw [← hshift n (by omega)] at hdigit
    have hmul := congrArg (· * B ^ n) hdigit
    rw [value_succ, value_succ (l := l), Nat.pow_succ]
    linarith [hrest, hmul, Nat.add_mul (l' n * p) (l n % p) (B ^ n), Nat.add_mul (l n) (l (n + 1) % p * B) (B ^ n)]

/-- The quotient, if nothing comes in. -/
theorem value_shr_div (hB : B = p * q) (hp : 0 < p) (hl : ∀ i < n, l i < B)
    (hshift : ∀ i < n, l' i = (l i + l (i + 1) * B) / p % B) (htop : l n = 0) :
    value B l' n = value B l n / p := by
  have hspec := value_shr hB hp hl hshift
  rw [htop, Nat.zero_mod, Nat.zero_mul, Nat.add_zero] at hspec
  rw [← hspec, Nat.mul_comm, Nat.mul_add_div hp, Nat.div_eq_of_lt (Nat.mod_lt _ hp), Nat.add_zero]

end

end DiscoBSD.Lib
