import DiscoBSD.Bn.Arith

/-!
# One limb of a quotient

**The estimate from two limbs of the divisor is the quotient limb or one more**, and what the subtraction leaves tells
which of the two.
-/

set_option autoImplicit false

namespace DiscoBSD.Bn

open Lib

section

variable {m : Mem} {n k : ℕ}

theorem val_cons (m : Mem) (p : Ptr) (k n : ℕ) :
    val m (p + k) (n + 1) = m (p + k) + radix * val m (p + (k + 1)) n := by
  have hone : val m (p + k) 1 = m (p + k) := by
    rw [val_succ, val_zero, Nat.pow_zero, Nat.zero_add, Nat.mul_one]
    rfl
  rw [Nat.add_comm n 1, val_add, hone, Nat.pow_one, add_add]

theorem shiftLeft_or {x y : ℕ} (hy : y < radix) : x <<< limbBits ||| y = x * radix + y := by
  rw [limbBits, ← Nat.shiftLeft_add_eq_or_of_lt (i := 16) hy, Nat.shiftLeft_eq]
  rfl

theorem u32_shiftLeft {x : ℕ} (hx : x < radix) : u32 (x <<< limbBits) = x <<< limbBits := by
  refine u32_of_lt ?_
  rw [limbBits, Nat.shiftLeft_eq]
  unfold radix at hx
  omega

theorem and_limbMask (x : ℕ) : x &&& limbMask = x % radix := Nat.and_two_pow_sub_one_eq_mod x 16

/-! ## Division by one limb -/

/-- The quotient may take the place of the dividend. -/
theorem mdiv1_aligned {q a : Ptr} {na w : ℕ} (hw : 0 < w) (hwlt : w < radix) (hq : q = a ∨ Apart q na a na) :
    val m a na = val (mdiv1 m q a na w).1 q na * w + (mdiv1 m q a na w).2 ∧ (mdiv1 m q a na w).2 < w ∧
      Only q na m (mdiv1 m q a na w).1 := by
  have hspec : val m (a + 0) (na - 0) = val (mdiv1 m q a na w).1 (q + 0) (na - 0) * w + (mdiv1 m q a na w).2 ∧
      (mdiv1 m q a na w).2 < w ∧ Only q na m (mdiv1 m q a na w).1 ∧
      ∀ i < 0, (mdiv1 m q a na w).1 (a + i) = m (a + i) := by
    -- The limbs that are still to be divided have not been written.
    refine countDown_inv (P := fun k (x : Mem × ℕ) => val m (a + k) (na - k) = val x.1 (q + k) (na - k) * w + x.2 ∧ x.2 < w ∧
      Only q na m x.1 ∧ ∀ i < k, x.1 (a + i) = m (a + i)) ?_ ?_
    · rw [Nat.sub_self]
      exact ⟨by simp [val_zero], hw, .refl q na m, fun _ _ => rfl⟩
    · rintro k hk ⟨x, rem⟩ ⟨hval, hrem, honly, hleft⟩
      have hread : x (a + k) = m (a + k) := hleft k (Nat.lt_succ_self k)
      have hlimb := limb_lt m (a + k)
      dsimp only at hval hrem
      obtain ⟨cur, hcur⟩ : ∃ cur, cur = rem * radix + m (a + k) := ⟨_, rfl⟩
      have hturn : mdiv1Turn q a w (0 + k) (x, rem) = (put x (q + k) (cur / w), cur % w) := by
        rw [Nat.zero_add, mdiv1Turn, hread, u32_shiftLeft (by omega), shiftLeft_or hlimb, hcur]
      have hquot : cur / w < radix := by
        refine Nat.div_lt_of_lt_mul ?_
        have : (rem + 1) * radix ≤ w * radix := Nat.mul_le_mul_right _ hrem
        rw [hcur]
        linarith
      have hother : ∀ i < k, a + i ≠ q + k := by
        intro i hi
        rcases hq with rfl | hapart
        · rw [Ne, add_inj]
          omega
        · exact hapart.ne hk (by omega)
      rw [hturn, show na - k = na - (k + 1) + 1 by omega]
      refine ⟨?_, Nat.mod_lt _ hw, honly.trans (.put hk), fun i hi => ?_⟩
      · have habove : val (put x (q + k) (cur / w)) (q + (k + 1)) (na - (k + 1)) = val x (q + (k + 1)) (na - (k + 1)) :=
          val_congr fun i _ => put_of_ne (by rw [add_add, Ne, add_inj]; omega)
        have hdiv := Nat.div_add_mod cur w
        dsimp only
        rw [val_cons, val_cons, habove, put_same, Nat.mod_eq_of_lt hquot, hval]
        calc m (a + k) + radix * (val x (q + (k + 1)) (na - (k + 1)) * w + rem)
            = cur + radix * val x (q + (k + 1)) (na - (k + 1)) * w := by rw [hcur]; ring
          _ = (w * (cur / w) + cur % w) + radix * val x (q + (k + 1)) (na - (k + 1)) * w := by rw [hdiv]
          _ = (cur / w + radix * val x (q + (k + 1)) (na - (k + 1))) * w + cur % w := by ring
      · dsimp only
        rw [put_of_ne (hother i hi)]
        exact hleft i (Nat.lt_succ_of_lt hi)
  exact ⟨hspec.1, hspec.2.1, hspec.2.2.1⟩

theorem mdiv1_spec {q a : Ptr} {na w : ℕ} (hw : 0 < w) (hwlt : w < radix) (hapart : Apart q na a na) :
    val m a na = val (mdiv1 m q a na w).1 q na * w + (mdiv1 m q a na w).2 ∧ (mdiv1 m q a na w).2 < w ∧
      Only q na m (mdiv1 m q a na w).1 := mdiv1_aligned hw hwlt (.inr hapart)

/-! ## The estimate -/

/-- The limb that the `while` ends with is the largest one that the leading limbs allow. -/
theorem tighten_spec {v1 v2 u2 num : ℕ} (hv2 : v2 < radix) (hu2 : u2 < radix)
    (hnum : num < v1 * radix + radix) {qh rh : ℕ} (hdiv : qh * v1 + rh = num) (hrh : rh < radix)
    (hmax : ∀ t < radix, t * (v1 * radix + v2) ≤ num * radix + u2 → t ≤ qh) :
    tighten v1 v2 u2 qh rh < radix ∧ tighten v1 v2 u2 qh rh * (v1 * radix + v2) ≤ num * radix + u2 ∧
      ∀ t < radix, t * (v1 * radix + v2) ≤ num * radix + u2 → t ≤ tighten v1 v2 u2 qh rh := by
  induction qh generalizing rh with
  | zero =>
    rw [tighten]
    exact ⟨by unfold radix; omega, by simp, hmax⟩
  | succ qh ih =>
    have htest : u32 (rh <<< limbBits) ||| u2 = rh * radix + u2 := by rw [u32_shiftLeft hrh, shiftLeft_or hu2]
    have hmask : limbMask + 1 = radix := rfl
    have hexpand : (qh + 1) * (v1 * radix + v2) + rh * radix = num * radix + (qh + 1) * v2 := by
      rw [← hdiv]
      ring
    rw [tighten, htest]
    by_cases hover : qh + 1 > limbMask ∨ u32 ((qh + 1) * v2) > rh * radix + u2
    · rw [if_pos hover]
      -- The estimate is too large.
      have hless : ∀ t < radix, t * (v1 * radix + v2) ≤ num * radix + u2 → t ≤ qh := by
        intro t ht hle
        have hq := hmax t ht hle
        refine Nat.le_of_lt_succ (lt_of_le_of_ne hq fun heq => ?_)
        rcases hover with hlarge | hsecond
        · omega
        · have hsmall : (qh + 1) * v2 ≤ (radix - 1) * (radix - 1) := Nat.mul_le_mul (by omega) (by omega)
          rw [u32_of_lt (by unfold radix at hsmall; omega)] at hsecond
          rw [heq, Nat.succ_eq_add_one] at hle
          omega
      have hdiv' : qh * v1 + (rh + v1) = num := by
        rw [← hdiv]
        ring
      by_cases hbreak : rh + v1 > limbMask
      · rw [if_pos hbreak]
        have hqh : qh < radix := by
          by_contra hge
          have : radix * v1 ≤ qh * v1 := Nat.mul_le_mul_right _ (by omega)
          rw [Nat.mul_comm] at this
          omega
        refine ⟨hqh, ?_, hless⟩
        have hprod : qh * v2 ≤ radix * radix := Nat.mul_le_mul (by omega) (by omega)
        have hrem : radix * radix ≤ (rh + v1) * radix := Nat.mul_le_mul_right _ (by omega)
        have hexpand' : qh * (v1 * radix + v2) + (rh + v1) * radix = num * radix + qh * v2 := by
          rw [← hdiv']
          ring
        omega
      · rw [if_neg hbreak]
        exact ih hdiv' (by omega) hless
    · rw [if_neg hover]
      have hqh : qh + 1 < radix := by omega
      have hsmall : (qh + 1) * v2 ≤ (radix - 1) * (radix - 1) := Nat.mul_le_mul (by omega) (by omega)
      have hsecond : (qh + 1) * v2 ≤ rh * radix + u2 := by
        rw [u32_of_lt (by unfold radix at hsmall; omega)] at hover
        omega
      exact ⟨hqh, by omega, hmax⟩

/-- **The estimate is the quotient or one more.** -/
theorem estimate {v w b lead low vlow wlow p : ℕ} (hv : v = lead * p + vlow) (hw : w = low * p + wlow)
    (hvlow : vlow < p) (hwlow : wlow < p) (hb : b ≤ lead) (hquot : w < v * b) {t : ℕ} (ht : t < b)
    (hle : t * lead ≤ low) (hmax : ∀ t' < b, t' * lead ≤ low → t' ≤ t) : w / v ≤ t ∧ t ≤ w / v + 1 := by
  have hvpos : 0 < v := Nat.pos_of_ne_zero fun h => by simp [h] at hquot
  constructor
  · refine hmax (w / v) (Nat.div_lt_of_lt_mul hquot) ?_
    have hmul : w / v * v ≤ w := Nat.div_mul_le_self w v
    have hlead : w / v * (lead * p) ≤ w / v * v := Nat.mul_le_mul_left _ (by omega)
    have hlt : w / v * lead * p < (low + 1) * p := by
      rw [Nat.mul_assoc]
      linarith
    exact Nat.le_of_lt_succ (Nat.lt_of_mul_lt_mul_right hlt)
  · rw [← Nat.sub_le_iff_le_add, Nat.le_div_iff_mul_le hvpos, Nat.sub_mul, Nat.one_mul, Nat.sub_le_iff_le_add]
    have hlow : t * lead * p ≤ low * p := Nat.mul_le_mul_right _ hle
    have hrest : t * vlow ≤ lead * p := Nat.mul_le_mul (by omega) (by omega)
    calc t * v = t * lead * p + t * vlow := by rw [hv]; ring
      _ ≤ w + v := by omega

/-! ## One turn of the division -/

/-- `qh` times the divisor is subtracted up to the limb `k`. -/
structure Subtracted (m : Mem) (p v : Ptr) (qh k : ℕ) (x : Mem × ℕ × ℕ) : Prop where
  diff : val x.1 p k + qh * val m v k = val m p k + (x.2.1 + x.2.2) * radix ^ k
  mulc : x.2.1 < radix
  brw : x.2.2 ≤ 1
  only : Only p k m x.1

theorem sub32_borrow {ui sub : ℕ} (hui : ui < radix) (hsub : sub ≤ radix) :
    sub32 ui sub % radix + sub = ui + (if ui < sub then 1 else 0) * radix := by
  unfold sub32 u32 radix at *
  split <;> omega

theorem mulSubTurn_spec {u v : Ptr} {nd qh j : ℕ} (hqh : qh < radix) (hapart : Apart (u + j) (nd + 1) v nd) :
    Subtracted m (u + j) v qh nd (countUp (mulSubTurn u v qh j) 0 nd (m, 0, 0)) := by
  refine countUp_inv (P := fun k x => Subtracted m (u + j) v qh k x)
    ⟨by simp [val_zero], radix_pos, Nat.zero_le 1, .refl _ 0 m⟩ ?_
  rintro k hk ⟨x, mulc, brw⟩ h
  have hreadv : x (v + k) = m (v + k) := hapart.read (h.only.mono (by omega)) hk
  have hreadu : x (u + (k + j)) = m (u + (k + j)) := by
    rw [Nat.add_comm k j, ← add_add]
    exact Aligned.read (.inl rfl) h.only (le_refl k)
  have hmulc := h.mulc
  have hbrw := h.brw
  have hv := limb_lt m (v + k)
  have hu := limb_lt m (u + (k + j))
  dsimp only at hmulc hbrw
  obtain ⟨num, hnum⟩ : ∃ num, num = qh * m (v + k) + mulc := ⟨_, rfl⟩
  have hprod : qh * m (v + k) ≤ (radix - 1) * (radix - 1) := Nat.mul_le_mul (by omega) (by omega)
  have hsmall : num < radix * radix := by
    unfold radix at *
    omega
  have hturn : mulSubTurn u v qh j (0 + k) (x, mulc, brw) = (put x (u + j + k) (sub32 (m (u + (k + j))) (num % radix + brw)),
      num / radix, if (m (u + (k + j)) : ℕ) < num % radix + brw then 1 else 0) := by
    have hinner : u32 (qh * m (v + k)) = qh * m (v + k) := u32_of_lt (by unfold radix at hprod; omega)
    have houter : u32 num = num := u32_of_lt (by unfold radix at hsmall; omega)
    rw [Nat.zero_add, mulSubTurn, hreadv, hreadu, hinner, ← hnum, houter, and_limbMask, shiftRight_limbBits, add_add,
      Nat.add_comm j k]
  have hlow : num % radix < radix := Nat.mod_lt _ (by unfold radix; omega)
  have hborrow := sub32_borrow hu (by omega : num % radix + brw ≤ radix)
  rw [hturn]
  refine ⟨?_, Nat.div_lt_of_lt_mul hsmall, by dsimp only; split <;> omega, h.only.step _⟩
  have hdiff := h.diff
  have hsplit := Nat.mod_add_div num radix
  have hmul := congrArg (· * radix ^ k) hborrow
  dsimp only at hdiff hmul ⊢
  generalize (if (m (u + (k + j)) : ℕ) < num % radix + brw then 1 else 0) = brw' at hmul ⊢
  rw [val_put, val_succ m v, val_succ m (u + j), add_add, Nat.add_comm j k]
  generalize sub32 (m (u + (k + j))) (num % radix + brw) % radix = limb' at hmul ⊢
  have hexpand : qh * (m (v + k) * radix ^ k) + mulc * radix ^ k =
      (num % radix) * radix ^ k + num / radix * radix ^ (k + 1) := by
    calc qh * (m (v + k) * radix ^ k) + mulc * radix ^ k = num * radix ^ k := by rw [hnum]; ring
      _ = (num % radix + radix * (num / radix)) * radix ^ k := by rw [hsplit]
      _ = (num % radix) * radix ^ k + num / radix * radix ^ (k + 1) := by ring
  have hpow : radix ^ (k + 1) = radix ^ k * radix := Nat.pow_succ ..
  calc val x (u + j) k + limb' * radix ^ k + qh * (val m v k + m (v + k) * radix ^ k)
      = (val x (u + j) k + qh * val m v k) + limb' * radix ^ k + qh * (m (v + k) * radix ^ k) := by ring
    _ = val m (u + j) k + brw * radix ^ k + limb' * radix ^ k + (qh * (m (v + k) * radix ^ k) + mulc * radix ^ k) := by
        rw [hdiff]; ring
    _ = val m (u + j) k + (limb' + (num % radix + brw)) * radix ^ k + num / radix * radix ^ (k + 1) := by
        rw [hexpand]; ring
    _ = val m (u + j) k + (m (u + (k + j)) + brw' * radix) * radix ^ k + num / radix * radix ^ (k + 1) := by
        rw [← hmul]
    _ = val m (u + j) k + m (u + (k + j)) * radix ^ k + (num / radix + brw') * radix ^ (k + 1) := by
        rw [hpow]; ring

/-- The estimate from the leading limbs. -/
theorem quotientLimb_spec {u v : Ptr} {j : ℕ} (hv1 : (m (v + (k + 1)) : ℕ) ≠ 0)
    (hquot : val m (u + j) (k + 3) < val m v (k + 2) * radix) {qh : ℕ} (hqh : qh = quotientLimb u v (k + 2) j m) :
    qh < radix ∧ val m (u + j) (k + 3) / val m v (k + 2) ≤ qh ∧ qh ≤ val m (u + j) (k + 3) / val m v (k + 2) + 1 := by
  obtain ⟨num, hnum⟩ : ∃ num, num = (m (u + (j + (k + 2))) : ℕ) * radix + m (u + (j + (k + 1))) := ⟨_, rfl⟩
  replace hqh : qh = tighten (m (v + (k + 1))) (m (v + k)) (m (u + (j + k))) (num / m (v + (k + 1)))
      (num % m (v + (k + 1))) := by
    have hnum' : u32 ((m (u + (j + (k + 2))) : ℕ) <<< limbBits) ||| m (u + (j + (k + 2) - 1)) = num := by
      rw [u32_shiftLeft (limb_lt m _), shiftLeft_or (limb_lt m _), hnum]
      rfl
    rw [hqh, quotientLimb, hnum']
    rfl
  have hv : val m v (k + 2) = (m (v + (k + 1)) * radix + m (v + k)) * radix ^ k + val m v k := by
    rw [val_succ, val_succ, Nat.pow_succ]
    ring
  have hw : val m (u + j) (k + 3) = (num * radix + m (u + (j + k))) * radix ^ k + val m (u + j) k := by
    rw [val_succ, val_succ, val_succ, add_add, add_add, add_add, hnum, Nat.pow_succ, Nat.pow_succ]
    ring
  have hvlow := val_lt m v k
  have hwlow := val_lt m (u + j) k
  have hv1lt := limb_lt m (v + (k + 1))
  have hv2 := limb_lt m (v + k)
  have hu1 := limb_lt m (u + (j + (k + 1)))
  have hu2 := limb_lt m (u + (j + k))
  generalize (m (v + (k + 1)) : ℕ) = v1 at *
  generalize (m (v + k) : ℕ) = v2 at *
  generalize (m (u + (j + (k + 1))) : ℕ) = u1 at *
  generalize (m (u + (j + k)) : ℕ) = u2 at *
  generalize (m (u + (j + (k + 2))) : ℕ) = utop at *
  have hpos : 0 < radix ^ k := Nat.pow_pos radix_pos
  have hbound : num < v1 * radix + radix := by
    have hlt : num * radix * radix ^ k < (v1 + 1) * radix * radix * radix ^ k := by
      have hlead : v1 * radix + v2 + 1 ≤ (v1 + 1) * radix := by
        rw [Nat.add_mul]
        omega
      have hmul : (v1 * radix + v2 + 1) * radix ^ k ≤ (v1 + 1) * radix * radix ^ k := Nat.mul_le_mul_right _ hlead
      have hvbound : val m v (k + 2) * radix ≤ (v1 + 1) * radix * radix ^ k * radix := by
        refine Nat.mul_le_mul_right _ ?_
        rw [hv]
        linarith
      calc num * radix * radix ^ k ≤ val m (u + j) (k + 3) := by rw [hw]; nlinarith [Nat.zero_le (u2 * radix ^ k)]
        _ < val m v (k + 2) * radix := hquot
        _ ≤ (v1 + 1) * radix * radix ^ k * radix := hvbound
        _ = (v1 + 1) * radix * radix * radix ^ k := by ring
    have := Nat.lt_of_mul_lt_mul_right (Nat.lt_of_mul_lt_mul_right hlt)
    rw [Nat.add_mul, Nat.one_mul] at this
    exact this
  have hv1pos : 0 < v1 := Nat.pos_of_ne_zero hv1
  have hrem : num % v1 < radix := lt_trans (Nat.mod_lt _ hv1pos) hv1lt
  have hdiv : num / v1 * v1 + num % v1 = num := by
    rw [Nat.mul_comm]
    exact Nat.div_add_mod num v1
  have hmax : ∀ t < radix, t * (v1 * radix + v2) ≤ num * radix + u2 → t ≤ num / v1 := by
    intro t _ hle
    rw [Nat.le_div_iff_mul_le hv1pos]
    have hlt : t * v1 * radix < (num + 1) * radix := by
      calc t * v1 * radix ≤ t * (v1 * radix + v2) := by rw [Nat.mul_add, Nat.mul_assoc]; exact Nat.le_add_right ..
        _ ≤ num * radix + u2 := hle
        _ < (num + 1) * radix := by rw [Nat.add_mul]; omega
    exact Nat.le_of_lt_succ (Nat.lt_of_mul_lt_mul_right hlt)
  obtain ⟨hlt, hle, hmost⟩ := tighten_spec hv2 hu2 hbound hdiv hrem hmax
  rw [← hqh] at hlt hle hmost
  have hlead : radix ≤ v1 * radix + v2 := by
    have : 1 * radix ≤ v1 * radix := Nat.mul_le_mul_right _ hv1pos
    omega
  exact ⟨hlt, estimate hv hw hvlow hwlow hlead hquot hlt hle hmost⟩

/-- What the subtraction leaves in all the limbs. -/
theorem mulSub_spec {u v : Ptr} {nd qh j : ℕ} (hqh : qh < radix) (hapart : Apart (u + j) (nd + 1) v nd) {x : Mem}
    {brw : Bool} (hx : mulSub u v nd qh j m = (x, brw)) :
    val x (u + j) (nd + 1) + qh * val m v nd = val m (u + j) (nd + 1) + (if brw then 1 else 0) * radix ^ (nd + 1) ∧
      Only (u + j) (nd + 1) m x := by
  have h := mulSubTurn_spec (m := m) hqh hapart
  rw [mulSub] at hx
  generalize countUp (mulSubTurn u v qh j) 0 nd (m, 0, 0) = y at h hx
  have hmulc := h.mulc
  have hbrw := h.brw
  have hdiff := h.diff
  have hread : y.1 (u + (j + nd)) = m (u + j + nd) := by
    rw [← add_add]
    exact Aligned.read (.inl rfl) h.only (le_refl nd)
  rw [hread, ← add_add] at hx
  obtain ⟨sub, hsub⟩ : ∃ sub, sub = y.2.1 + y.2.2 := ⟨_, rfl⟩
  obtain ⟨ui, hui⟩ : ∃ ui, ui = (m (u + j + nd) : ℕ) := ⟨_, rfl⟩
  have hborrow := sub32_borrow (hui ▸ limb_lt m _ : ui < radix) (by omega : sub ≤ radix)
  rw [← hsub, ← hui] at hx
  rw [← hsub] at hdiff
  cases hx
  refine ⟨?_, h.only.step _⟩
  have hmul := congrArg (· * radix ^ nd) hborrow
  simp only [decide_eq_true_eq]
  generalize (if ui < sub then 1 else 0) = brw' at hmul ⊢
  rw [val_put, val_succ m (u + j), ← hui]
  calc val y.1 (u + j) nd + sub32 ui sub % radix * radix ^ nd + qh * val m v nd
      = val m (u + j) nd + (sub32 ui sub % radix + sub) * radix ^ nd := by linarith
    _ = val m (u + j) nd + (ui + brw' * radix) * radix ^ nd := by rw [← hmul]
    _ = val m (u + j) nd + ui * radix ^ nd + brw' * radix ^ (nd + 1) := by rw [Nat.pow_succ]; ring

/-- The divisor is added back. The carry out of the top is dropped. -/
theorem addBack_spec {u v : Ptr} {nd j : ℕ} (hapart : Apart (u + j) (nd + 1) v nd) {r : ℕ} (hr : r < radix ^ nd)
    (hsum : val m (u + j) (nd + 1) + val m v nd = r + radix ^ (nd + 1)) :
    val (addBack u v nd j m) (u + j) (nd + 1) = r ∧ Only (u + j) (nd + 1) m (addBack u v nd j m) := by
  have hturn : addBackTurn u v j = maddTurn (u + j) (u + j) v := by
    funext i ⟨x, c⟩
    rw [addBackTurn, maddTurn, add_add, Nat.add_comm i j]
  rw [addBack, hturn]
  have hsums : Sums m (u + j) (u + j) v nd nd (countUp (maddTurn (u + j) (u + j) v) 0 nd (m, 0)) :=
    maddTurn_sums nd (.inl rfl) fun k x h hk => hapart.read (h.only.mono (by omega)) hk
  generalize countUp (maddTurn (u + j) (u + j) v) 0 nd (m, 0) = y at hsums
  have hread : y.1 (u + (j + nd)) = m (u + (j + nd)) := by
    rw [← add_add]
    exact Aligned.read (.inl rfl) hsums.only (le_refl nd)
  rw [hread, ← add_add]
  refine ⟨?_, hsums.only.step _⟩
  have hlow := val_lt y.1 (u + j) nd
  have hsum' := hsums.sum
  rw [val_succ] at hsum
  rw [val_put]
  generalize (m (u + j + nd) : ℕ) = top at hsum ⊢
  generalize val y.1 (u + j) nd = low at hlow hsum' ⊢
  have hpow : radix ^ (nd + 1) = radix * radix ^ nd := by rw [Nat.pow_succ, Nat.mul_comm]
  have htotal : low + (top + y.2) * radix ^ nd = r + radix * radix ^ nd := by
    rw [hpow] at hsum
    rw [Nat.add_mul]
    omega
  -- Both rests are below the weight of the top limb.
  have htop : top + y.2 = radix := by
    rcases Nat.lt_trichotomy (top + y.2) radix with hlt | heq | hgt
    · have : (top + y.2 + 1) * radix ^ nd ≤ radix * radix ^ nd := Nat.mul_le_mul_right _ hlt
      linarith
    · exact heq
    · have : (radix + 1) * radix ^ nd ≤ (top + y.2) * radix ^ nd := Nat.mul_le_mul_right _ hgt
      linarith
  rw [htop] at htotal
  rw [htop, Nat.mod_self]
  omega

/-- The quotient limb is stored beside the limbs that are divided. -/
theorem put_quotient {q u : Ptr} {j t : ℕ} {y : Mem} (hq : ¬Within (u + j) n (q + j)) (hy : Only (u + j) n m y) :
    val (put y (q + j) t) (u + j) n = val y (u + j) n ∧
      ∀ z, ¬Within (u + j) n z → z ≠ q + j → put y (q + j) t z = m z := by
  refine ⟨val_congr fun i hi => put_of_ne fun h => hq ?_, fun z hz hzq => (put_of_ne hzq).trans (hy z hz)⟩
  rw [← h]
  exact ⟨rfl, by simp, by simpa using hi⟩

theorem sub32_one {t : ℕ} (ht : t + 1 < radix) : sub32 (t + 1) 1 % radix = t := by
  unfold sub32 u32 radix at *
  omega

/-- **One turn of the division.** -/
theorem divTurn_spec {q u v : Ptr} {j : ℕ} (hv1 : (m (v + (k + 1)) : ℕ) ≠ 0)
    (hquot : val m (u + j) (k + 3) < val m v (k + 2) * radix) (hapart : Apart (u + j) (k + 3) v (k + 2))
    (hq : ¬Within (u + j) (k + 3) (q + j)) {m' : Mem} (hm' : m' = divTurn q u v (k + 2) j m) :
    (m' (q + j) : ℕ) = val m (u + j) (k + 3) / val m v (k + 2) ∧
      val m' (u + j) (k + 3) = val m (u + j) (k + 3) % val m v (k + 2) ∧
      ∀ x, ¬Within (u + j) (k + 3) x → x ≠ q + j → m' x = m x := by
  have hVlt := val_lt m v (k + 2)
  have hVpos : 0 < val m v (k + 2) := Nat.pos_of_ne_zero fun h => by simp [h] at hquot
  obtain ⟨qh, hqh⟩ : ∃ qh, qh = quotientLimb u v (k + 2) j m := ⟨_, rfl⟩
  obtain ⟨hqhlt, hge, hle⟩ := quotientLimb_spec hv1 hquot hqh
  have hmod := Nat.div_add_mod (val m (u + j) (k + 3)) (val m v (k + 2))
  have hmodlt := Nat.mod_lt (val m (u + j) (k + 3)) hVpos
  rw [divTurn, ← hqh] at hm'
  match hx : mulSub u v (k + 2) qh j m with
  | (x, true) =>
    obtain ⟨hleft, honly⟩ := mulSub_spec hqhlt hapart hx
    rw [hx] at hm'
    dsimp only at hm'
    rw [if_pos rfl, Nat.one_mul] at hleft
    change val x (u + j) (k + 3) + qh * val m v (k + 2) = val m (u + j) (k + 3) + radix ^ (k + 3) at hleft
    have hxlt := val_lt x (u + j) (k + 3)
    have hv : val x v (k + 2) = val m v (k + 2) := hapart.val honly
    -- More than there was has been subtracted, so the estimate is the larger one of the two.
    have hone : qh = val m (u + j) (k + 3) / val m v (k + 2) + 1 := by
      refine le_antisymm hle (Nat.lt_of_not_le fun hle' => ?_)
      have : qh * val m v (k + 2) ≤ val m (u + j) (k + 3) / val m v (k + 2) * val m v (k + 2) :=
        Nat.mul_le_mul_right _ hle'
      rw [Nat.mul_comm (val m (u + j) (k + 3) / val m v (k + 2))] at this
      omega
    have hback : val x (u + j) (k + 3) + val x v (k + 2) =
        val m (u + j) (k + 3) % val m v (k + 2) + radix ^ (k + 3) := by
      rw [hone, Nat.add_mul, Nat.one_mul, Nat.mul_comm (val m (u + j) (k + 3) / val m v (k + 2))] at hleft
      omega
    obtain ⟨hrest, honly'⟩ := addBack_spec hapart (by omega) hback
    obtain ⟨hval, hsame⟩ := put_quotient (t := sub32 qh 1) hq (honly.trans honly')
    rw [hm']
    refine ⟨?_, hval.trans hrest, hsame⟩
    rw [put_same, hone]
    exact sub32_one (hone ▸ hqhlt)
  | (x, false) =>
    obtain ⟨hleft, honly⟩ := mulSub_spec hqhlt hapart hx
    rw [hx] at hm'
    dsimp only at hm'
    replace hleft : val x (u + j) (k + 3) + qh * val m v (k + 2) = val m (u + j) (k + 3) := by simpa using hleft
    have hone : qh = val m (u + j) (k + 3) / val m v (k + 2) := by
      refine le_antisymm ?_ hge
      rw [Nat.le_div_iff_mul_le hVpos]
      omega
    obtain ⟨hval, hsame⟩ := put_quotient (t := qh) hq honly
    rw [hm']
    refine ⟨?_, hval.trans ?_, hsame⟩
    · rw [put_same, Nat.mod_eq_of_lt hqhlt]
      exact hone
    · rw [hone, Nat.mul_comm] at hleft
      omega

end

end DiscoBSD.Bn
