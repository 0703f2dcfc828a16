import DiscoBSD.Bn.Divide
import DiscoBSD.Bn.Store

/-!
# Comparison and bits

**In canonical form, more limbs are a larger magnitude**, so the comparison needs the limbs only where the lengths are
the same.
-/

set_option autoImplicit false

namespace DiscoBSD.Bn

open Lib

theorem sign_of_lt {x y : ℕ} (h : x < y) : Int.sign ((y : ℤ) - x) = 1 := Int.sign_eq_one_of_pos (by omega)

theorem sign_of_gt {x y : ℕ} (h : x < y) : Int.sign ((x : ℤ) - y) = -1 := Int.sign_eq_neg_one_of_neg (by omega)

theorem mcmpLimbs_spec (m : Mem) (a b : Ptr) (n : ℕ) : mcmpLimbs m a b n = Int.sign ((val m a n : ℤ) - val m b n) := by
  induction n with
  | zero => rfl
  | succ n ih =>
    rw [mcmpLimbs]
    by_cases hne : m (a + n) ≠ m (b + n)
    · rw [if_pos hne]
      by_cases hgt : m (a + n) > m (b + n)
      · rw [if_pos hgt]
        exact (sign_of_lt (value_lt_value (fun i _ => limb_lt m _) hgt)).symm
      · have hlt : (m (a + n) : ℕ) < m (b + n) := by
          have hle : ¬(m (b + n) : ℕ) < m (a + n) := hgt
          have hval : (m (a + n) : ℕ) ≠ m (b + n) := fun h => hne (Fin.ext h)
          omega
        rw [if_neg hgt]
        exact (sign_of_gt (value_lt_value (fun i _ => limb_lt m _) hlt)).symm
    · rw [if_neg hne, ih, val_succ, val_succ, not_not.mp hne]
      congr 1
      push_cast
      ring

/-- A number with more limbs, of which the first is not zero. -/
theorem val_lt_of_length {m : Mem} {a b : Ptr} {na nb : ℕ} (hlead : (m (a + (na - 1)) : ℕ) ≠ 0) (hlt : nb < na) :
    val m b nb < val m a na := by
  obtain ⟨l, rfl⟩ : ∃ l, na = l + 1 := ⟨na - 1, by omega⟩
  calc val m b nb < radix ^ nb := val_lt m b nb
    _ ≤ radix ^ l := Nat.pow_le_pow_right radix_pos (by omega)
    _ ≤ val m a (l + 1) := pow_le_value hlead

theorem mcmp_spec {m : Mem} {a b : Ptr} {na nb : ℕ} (ha : na ≠ 0 → (m (a + (na - 1)) : ℕ) ≠ 0)
    (hb : nb ≠ 0 → (m (b + (nb - 1)) : ℕ) ≠ 0) : mcmp m a na b nb = Int.sign ((val m a na : ℤ) - val m b nb) := by
  unfold mcmp
  by_cases hne : na ≠ nb
  · rw [if_pos hne]
    by_cases hgt : na > nb
    · rw [if_pos hgt]
      exact (sign_of_lt (val_lt_of_length (ha (by omega)) hgt)).symm
    · rw [if_neg hgt]
      exact (sign_of_gt (val_lt_of_length (hb (by omega)) (by omega))).symm
  · have heq : na = nb := not_not.mp hne
    rw [if_neg hne, mcmpLimbs_spec, heq]

variable {s : St} {a b : Name}

theorem Valid.mcmp (hv : Valid s) (a b : Name) :
    Bn.mcmp s.mem (s.num a).limbs (s.num a).top (s.num b).limbs (s.num b).top =
      Int.sign ((mag s a : ℤ) - mag s b) := mcmp_spec (hv.num a).lead (hv.num b).lead

theorem signed_pos (n : ℕ) : signed false n = n := rfl

theorem signed_neg (n : ℕ) : signed true n = -n := rfl

/-- A number that has a sign is not zero. -/
theorem Valid.neg_pos (hv : Valid s) (ha : (s.num a).neg = true) : 0 < mag s a :=
  Nat.pos_of_ne_zero fun h => (hv.num a).sign ha ((hv.num a).mag_eq_zero.mp h)

theorem bnUcmp_spec (hv : Valid s) (a b : Name) : bnUcmp s a b = Int.sign (|int s a| - |int s b|) := by
  have habs : ∀ k, |int s k| = mag s k := by
    intro k
    rw [int]
    cases (s.num k).neg with
    | false => rw [signed_pos, abs_of_nonneg (by omega)]
    | true => rw [signed_neg, abs_neg, abs_of_nonneg (by omega)]
  rw [habs, habs]
  exact hv.mcmp a b

theorem bnCmp_spec (hv : Valid s) (a b : Name) : bnCmp s a b = Int.sign (int s a - int s b) := by
  have hcmp := hv.mcmp a b
  unfold bnCmp
  rw [hcmp, int, int]
  cases ha : (s.num a).neg with
  | false =>
    cases hb : (s.num b).neg with
    | false => simp [signed_pos]
    | true =>
      have := hv.neg_pos hb
      rw [signed_pos, signed_neg]
      exact (Int.sign_eq_one_of_pos (by omega)).symm
  | true =>
    have := hv.neg_pos ha
    cases hb : (s.num b).neg with
    | false =>
      rw [signed_pos, signed_neg]
      exact (Int.sign_eq_neg_one_of_neg (by omega)).symm
    | true =>
      have hswap : -(mag s a : ℤ) - -(mag s b : ℤ) = -((mag s a : ℤ) - mag s b) := by omega
      rw [signed_neg, signed_neg, hswap, Int.sign_neg]
      rfl

/-! ## Bits -/

theorem bnNumBits_spec (hv : Valid s) (a : Name) :
    mag s a < 2 ^ bnNumBits s a ∧ (mag s a ≠ 0 → 2 ^ (bnNumBits s a - 1) ≤ mag s a) := by
  unfold bnNumBits
  dsimp only
  by_cases htop : (s.num a).top = 0
  · rw [if_pos htop, (hv.num a).mag_eq_zero.mpr htop]
    exact ⟨by decide, fun h => absurd rfl h⟩
  · rw [if_neg htop]
    have hlead := (hv.num a).lead htop
    rw [mag]
    obtain ⟨l, hl⟩ := Nat.exists_eq_succ_of_ne_zero htop
    rw [hl, Nat.succ_eq_add_one, Nat.add_sub_cancel] at hlead ⊢
    have hlow := val_lt s.mem (s.num a).limbs l
    obtain ⟨hlt, hle⟩ := bitlen_spec (s.mem ((s.num a).limbs + l))
    have hle' := hle hlead
    have hbits : bitlen (s.mem ((s.num a).limbs + l)) ≠ 0 := fun h => by
      rw [h] at hlt
      omega
    rw [val_succ]
    generalize (s.mem ((s.num a).limbs + l) : ℕ) = x at *
    have hpow : radix ^ l = 2 ^ (l * limbBits) := by
      rw [Nat.mul_comm, Nat.pow_mul]
      rfl
    rw [hpow] at hlow ⊢
    constructor
    · have : (x + 1) * 2 ^ (l * limbBits) ≤ 2 ^ bitlen x * 2 ^ (l * limbBits) := Nat.mul_le_mul_right _ hlt
      rw [Nat.pow_add, Nat.mul_comm (2 ^ (l * limbBits)) (2 ^ bitlen x)]
      linarith
    · intro _
      have : 2 ^ (bitlen x - 1) * 2 ^ (l * limbBits) ≤ x * 2 ^ (l * limbBits) := Nat.mul_le_mul_right _ hle'
      rw [Nat.add_sub_assoc (by omega), Nat.pow_add, Nat.mul_comm (2 ^ (l * limbBits))]
      omega

/-- The limb at some place, and the bits of it. -/
theorem val_div {m : Mem} {p : Ptr} {n w : ℕ} (b : ℕ) (hw : w < n) :
    val m p n / 2 ^ (limbBits * w + b) = (m (p + w) + radix * val m (p + (w + 1)) (n - (w + 1))) / 2 ^ b := by
  have hn : n = w + (n - (w + 1) + 1) := by omega
  have hlow := val_lt m p w
  have hpow : 2 ^ (limbBits * w) = radix ^ w := by
    rw [Nat.pow_mul]
    rfl
  rw [Nat.pow_add, hpow, ← Nat.div_div_eq_div_mul]
  congr 1
  conv_lhs => rw [hn]
  rw [val_add, Nat.add_mul_div_left _ _ (Nat.pow_pos radix_pos), Nat.div_eq_of_lt hlow, Nat.zero_add, val_cons]

theorem bnIsBitSet_spec (a : Name) (n : ℕ) :
    bnIsBitSet s a n = decide (mag s a / 2 ^ n % 2 = 1) := by
  unfold bnIsBitSet
  dsimp only
  have hdiv := Nat.div_add_mod n limbBits
  have hmod : n % limbBits < limbBits := Nat.mod_lt _ (by decide)
  by_cases hw : n / limbBits ≥ (s.num a).top
  · rw [if_pos hw]
    have hsmall : mag s a < 2 ^ n := by
      calc mag s a < radix ^ (s.num a).top := val_lt ..
        _ = 2 ^ (limbBits * (s.num a).top) := by rw [Nat.pow_mul]; rfl
        _ ≤ 2 ^ n := Nat.pow_le_pow_right (by decide) (by
          have := Nat.mul_le_mul_left limbBits hw
          omega)
    rw [Nat.div_eq_of_lt hsmall]
    rfl
  · rw [if_neg hw, mag]
    have hval := val_div (m := s.mem) (p := (s.num a).limbs) (n % limbBits) (Nat.lt_of_not_le hw)
    rw [hdiv] at hval
    generalize n % limbBits = b at hmod hval ⊢
    generalize (s.mem ((s.num a).limbs + n / limbBits) : ℕ) = x at hval ⊢
    generalize val s.mem ((s.num a).limbs + (n / limbBits + 1)) ((s.num a).top - (n / limbBits + 1)) = y at hval
    have hradix : radix * y = 2 ^ b * (2 * (2 ^ (limbBits - b - 1) * y)) := by
      have hpow : radix = 2 ^ b * (2 * 2 ^ (limbBits - b - 1)) := by
        rw [← Nat.pow_succ', ← Nat.pow_add, show b + (limbBits - b - 1).succ = limbBits by omega]
        rfl
      rw [hpow]
      ring
    rw [hval, hradix, Nat.add_mul_div_left _ _ (Nat.two_pow_pos b), Nat.add_mul_mod_self_left, Nat.shiftRight_eq_div_pow,
      Nat.and_one_is_mod]
    have := Nat.mod_two_eq_zero_or_one (x / 2 ^ b)
    rcases this with h | h
    · rw [h]
      rfl
    · rw [h]
      rfl

end DiscoBSD.Bn
