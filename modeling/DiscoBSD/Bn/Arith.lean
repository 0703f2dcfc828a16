import DiscoBSD.Bn.Limbs

/-!
# What the loops compute

**Each loop computes on the numbers that the limbs are the digits of**, and writes only where its result lies; a result
of a sum or a difference may begin where an operand begins.
-/

set_option autoImplicit false

namespace DiscoBSD.Bn

open Lib

/-- The radix. -/
def radix : ℕ := 65536

theorem radix_pos : 0 < radix := by decide

/-- The number that the limbs from `p` on make. -/
def val (m : Mem) (p : Ptr) (n : ℕ) : ℕ := value radix (fun i => (m (p + i) : ℕ)) n

/-- One of the limbs from `p` on. -/
def Within (p : Ptr) (n : ℕ) (x : Ptr) : Prop := x.region = p.region ∧ p.off ≤ x.off ∧ x.off < p.off + n

/-- Only the limbs from `p` on differ. -/
def Only (p : Ptr) (n : ℕ) (m m' : Mem) : Prop := ∀ x, ¬Within p n x → m' x = m x

/-- The result lies where the operand does, or elsewhere altogether. -/
def Aligned (r x : Ptr) : Prop := r = x ∨ r.region ≠ x.region

section

variable {m m' m'' : Mem} {p r x : Ptr} {n k i t : ℕ}

@[simp] theorem add_region (p : Ptr) (i : ℕ) : (p + i).region = p.region := rfl
@[simp] theorem add_off (p : Ptr) (i : ℕ) : (p + i).off = p.off + i := rfl

theorem add_add (p : Ptr) (i j : ℕ) : p + i + j = p + (i + j) :=
  congrArg (Ptr.mk p.region) (Nat.add_assoc p.off i j)

theorem add_inj {i j : ℕ} : p + i = p + j ↔ i = j := by
  constructor
  · intro h
    have := congrArg Ptr.off h
    simpa using this
  · rintro rfl
    rfl

theorem limb_lt (m : Mem) (p : Ptr) : (m p : ℕ) < radix := (m p).isLt

@[simp] theorem coe_limb (t : ℕ) : ((limb t : Limb) : ℕ) = t % radix := rfl

theorem put_same : (put m p t p : ℕ) = t % radix := by
  rw [put, Function.update_self, coe_limb]

theorem put_of_ne (h : x ≠ p) : put m p t x = m x := Function.update_of_ne h ..

theorem u32_of_lt (h : t < 2 ^ 32) : u32 t = t := Nat.mod_eq_of_lt h

theorem val_zero (m : Mem) (p : Ptr) : val m p 0 = 0 := rfl

theorem val_succ (m : Mem) (p : Ptr) (n : ℕ) : val m p (n + 1) = val m p n + m (p + n) * radix ^ n := rfl

theorem val_lt (m : Mem) (p : Ptr) (n : ℕ) : val m p n < radix ^ n := value_lt fun _ _ => limb_lt m _

theorem val_congr (h : ∀ i < n, m' (p + i) = m (p + i)) : val m' p n = val m p n :=
  value_congr fun i hi => congrArg Fin.val (h i hi)

theorem val_add (m : Mem) (p : Ptr) (k n : ℕ) : val m p (k + n) = val m p k + radix ^ k * val m (p + k) n := by
  have hadd := value_add (B := radix) (l := fun i => (m (p + i) : ℕ)) (m := k) (n := n)
  have htail : value radix (fun i => (m (p + (k + i)) : ℕ)) n = val m (p + k) n :=
    value_congr fun i _ => by rw [add_add]
  rw [val, hadd, htail]
  rfl

/-- The limb after the ones that are there. -/
theorem val_put (m : Mem) (p : Ptr) (n t : ℕ) : val (put m (p + n) t) p (n + 1) = val m p n + t % radix * radix ^ n := by
  rw [val_succ, put_same]
  congr 1
  refine val_congr fun i hi => put_of_ne fun h => ?_
  rw [add_inj] at h
  omega

theorem Only.refl (p : Ptr) (n : ℕ) (m : Mem) : Only p n m m := fun _ _ => rfl

theorem Only.trans (h₁ : Only p n m m') (h₂ : Only p n m' m'') : Only p n m m'' :=
  fun x hx => (h₂ x hx).trans (h₁ x hx)

theorem Only.mono (h : Only p k m m') (hle : k ≤ n) : Only p n m m' :=
  fun x hx => h x fun hw => hx ⟨hw.1, hw.2.1, by have := hw.2.2; omega⟩

/-- A piece of the stretch. -/
theorem Only.part {j : ℕ} (h : Only (p + j) k m m') (hle : j + k ≤ n) : Only p n m m' :=
  fun x hx => h x fun hw => hx ⟨hw.1, by have := hw.2.1; simp at this; omega, by have := hw.2.2; simp at this; omega⟩

theorem Only.put (hk : k < n) : Only p n m (put m (p + k) t) :=
  fun x hx => put_of_ne fun h => hx ⟨by rw [h]; rfl, by rw [h]; simp, by rw [h]; simpa using hk⟩

theorem Only.step (h : Only p k m m') (t : ℕ) : Only p (k + 1) m (Bn.put m' (p + k) t) :=
  (h.mono (Nat.le_succ k)).trans (.put (Nat.lt_succ_self k))

theorem Only.val {q : Ptr} {j : ℕ} (h : Only p n m m') (hoff : ∀ i < j, ¬Within p n (q + i)) : val m' q j = val m q j :=
  val_congr fun i hi => h _ (hoff i hi)

/-- An operand's limb that has not been reached. -/
theorem Aligned.read (ha : Aligned r x) (h : Only r k m m') (hle : k ≤ i) : m' (x + i) = m (x + i) := by
  refine h _ fun hw => ?_
  rcases ha with rfl | hne
  · have := hw.2.2
    simp at this
    omega
  · exact hne hw.1.symm

theorem carry_split (t k : ℕ) : t % radix * radix ^ k + t / radix * radix ^ (k + 1) = t * radix ^ k := by
  have := Nat.mod_add_div t radix
  calc t % radix * radix ^ k + t / radix * radix ^ (k + 1) = (t % radix + radix * (t / radix)) * radix ^ k := by ring
    _ = t * radix ^ k := by rw [this]

theorem shiftRight_limbBits (t : ℕ) : t >>> limbBits = t / radix := Nat.shiftRight_eq_div_pow t 16

end

/-! ## Addition -/

section

variable {m : Mem} {r a b : Ptr} {na nb : ℕ}

/-- A sum up to the limb `k`, and what is carried. -/
structure Sums (m : Mem) (r a b : Ptr) (nb k : ℕ) (x : Mem × ℕ) : Prop where
  sum : val x.1 r k + x.2 * radix ^ k = val m a k + val m b nb
  carry : x.2 ≤ 1
  only : Only r k m x.1

theorem Sums.step {k y : ℕ} {x : Mem × ℕ} (h : Sums m r a b nb k x) {t nb' : ℕ} (ht : t = m (a + k) + y + x.2)
    (hy : y < radix) (hval : val m b nb' = val m b nb + y * radix ^ k) :
    Sums m r a b nb' (k + 1) (put x.1 (r + k) (u32 t), u32 t >>> limbBits) := by
  have hcarry := h.carry
  have hsum := h.sum
  have hlt := limb_lt m (a + k)
  have hsmall : t < 2 * radix := by omega
  rw [u32_of_lt (by unfold radix at hsmall; omega), shiftRight_limbBits]
  refine ⟨?_, by dsimp only; have := Nat.div_lt_of_lt_mul (by rwa [Nat.mul_comm] at hsmall); omega, h.only.step t⟩
  dsimp only
  rw [val_put, val_succ m a, hval]
  have hsplit := carry_split t k
  have hexpand : t * radix ^ k = m (a + k) * radix ^ k + y * radix ^ k + x.2 * radix ^ k := by rw [ht]; ring
  omega

/-- The limbs that both operands have. -/
theorem maddTurn_sums (n : ℕ) (ha : Aligned r a)
    (hb : ∀ k (x : Mem × ℕ), Sums m r a b k k x → k < n → x.1 (b + k) = m (b + k)) :
    Sums m r a b n n (countUp (maddTurn r a b) 0 n (m, 0)) := by
  refine countUp_inv (P := fun k x => Sums m r a b k k x) ⟨by simp [val_zero], Nat.zero_le 1, .refl r 0 m⟩ ?_
  intro k hk x h
  have hreada := ha.read h.only (le_refl k)
  have hreadb := hb k x h hk
  rw [Nat.zero_add]
  exact h.step (y := m (b + k)) (by rw [hreada, hreadb]) (limb_lt m _) (val_succ m b k)

theorem madd_spec (hab : nb ≤ na) (ha : Aligned r a) (hb : Aligned r b) :
    val (madd m r a na b nb).1 r (na + 1) = val m a na + val m b nb ∧ Only r (na + 1) m (madd m r a na b nb).1 := by
  have hfirst := maddTurn_sums (m := m) nb ha fun k x h _ => hb.read h.only (le_refl k)
  have hsecond : Sums m r a b nb (nb + (na - nb))
      (countUp (maddCarry r a) nb (na - nb) (countUp (maddTurn r a b) 0 nb (m, 0))) := by
    refine countUp_inv (P := fun k x => Sums m r a b nb (nb + k) x) hfirst ?_
    intro k _ x h
    have hreada := ha.read h.only (le_refl (nb + k))
    exact h.step (y := 0) (by rw [hreada, Nat.add_zero]) (by unfold radix; omega) (by simp)
  rw [Nat.add_sub_cancel' hab] at hsecond
  unfold madd
  dsimp only
  refine ⟨?_, hsecond.only.step _⟩
  have hcarry := hsecond.carry
  rw [val_put, Nat.mod_eq_of_lt (by unfold radix; omega)]
  exact hsecond.sum

end

/-! ## Subtraction -/

section

variable {m : Mem} {r a b : Ptr} {na nb : ℕ}

theorem sub32_limb {x y z : ℕ} (hx : x < radix) (hy : y < radix) (hz : z ≤ 1) :
    sub32 (sub32 x y) z % radix + y + z = x + sub32 (sub32 x y) z >>> 31 * radix ∧ sub32 (sub32 x y) z >>> 31 ≤ 1 := by
  rw [Nat.shiftRight_eq_div_pow]
  unfold sub32 u32 radix at *
  omega

/-- A difference up to the limb `k`, and what is borrowed. -/
structure Diffs (m : Mem) (r a b : Ptr) (nb k : ℕ) (x : Mem × ℕ) : Prop where
  diff : val x.1 r k + val m b nb = val m a k + x.2 * radix ^ k
  borrow : x.2 ≤ 1
  only : Only r k m x.1

theorem Diffs.step {k y : ℕ} {x : Mem × ℕ} (h : Diffs m r a b nb k x) {t nb' : ℕ}
    (ht : t = sub32 (sub32 (m (a + k)) y) x.2) (hy : y < radix) (hval : val m b nb' = val m b nb + y * radix ^ k) :
    Diffs m r a b nb' (k + 1) (put x.1 (r + k) t, t >>> 31) := by
  obtain ⟨hlimb, hborrow⟩ := sub32_limb (limb_lt m (a + k)) hy h.borrow
  rw [← ht] at hlimb hborrow
  refine ⟨?_, hborrow, h.only.step t⟩
  have hdiff := h.diff
  have hmul := congrArg (· * radix ^ k) hlimb
  dsimp only at hmul ⊢
  rw [val_put, val_succ m a, hval, Nat.pow_succ]
  linarith [Nat.add_mul (t % radix + y) x.2 (radix ^ k), Nat.add_mul (t % radix) y (radix ^ k),
    Nat.add_mul (m (a + k) : ℕ) (t >>> 31 * radix) (radix ^ k)]

theorem msub_spec (hab : nb ≤ na) (ha : Aligned r a) (hb : Aligned r b) (hle : val m b nb ≤ val m a na) :
    val (msub m r a na b nb).1 r na + val m b nb = val m a na ∧ Only r na m (msub m r a na b nb).1 := by
  have hfirst : Diffs m r a b nb nb (countUp (msubTurn r a b) 0 nb (m, 0)) := by
    refine countUp_inv (P := fun k x => Diffs m r a b k k x) ⟨by simp [val_zero], Nat.zero_le 1, .refl r 0 m⟩ ?_
    intro k _ x h
    have hreada := ha.read h.only (le_refl k)
    have hreadb := hb.read h.only (le_refl k)
    rw [Nat.zero_add]
    exact h.step (y := m (b + k)) (by rw [hreada, hreadb]) (limb_lt m _) (val_succ m b k)
  have hsecond : Diffs m r a b nb (nb + (na - nb))
      (countUp (msubBorrow r a) nb (na - nb) (countUp (msubTurn r a b) 0 nb (m, 0))) := by
    refine countUp_inv (P := fun k x => Diffs m r a b nb (nb + k) x) hfirst ?_
    intro k _ x h
    have hreada := ha.read h.only (le_refl (nb + k))
    have hzero : sub32 (m (a + (nb + k))) 0 = m (a + (nb + k)) := by
      have := limb_lt m (a + (nb + k))
      unfold sub32 u32 radix at *
      omega
    exact h.step (y := 0) (by rw [hreada, hzero]) (by unfold radix; omega) (by simp)
  rw [Nat.add_sub_cancel' hab] at hsecond
  refine ⟨?_, hsecond.only⟩
  have hdiff := hsecond.diff
  have hborrow := hsecond.borrow
  have hlt := val_lt (msub m r a na b nb).1 r na
  -- A borrow out of the top would make the result too large.
  rcases Nat.le_one_iff_eq_zero_or_eq_one.mp hborrow with hzero | hone
  · rw [hzero, Nat.zero_mul, Nat.add_zero] at hdiff
    exact hdiff
  · rw [hone] at hdiff
    unfold msub at hlt
    dsimp only at hlt
    omega

end

/-! ## Multiplication -/

section

variable {m : Mem} {r a b : Ptr} {na nb n : ℕ}

/-- The two stretches have no limb in common. -/
def Apart (p : Ptr) (n : ℕ) (q : Ptr) (k : ℕ) : Prop := p.region ≠ q.region ∨ p.off + n ≤ q.off ∨ q.off + k ≤ p.off

theorem Apart.not_within {p q : Ptr} {k i : ℕ} (h : Apart p n q k) (hi : i < k) : ¬Within p n (q + i) := by
  rintro ⟨hregion, hge, hlt⟩
  simp only [add_region, add_off] at hregion hge hlt
  rcases h with hne | hbefore | hafter
  · exact hne hregion.symm
  · omega
  · omega

theorem Apart.symm {p q : Ptr} {k : ℕ} (h : Apart p n q k) : Apart q k p n := by
  rcases h with hne | hbefore | hafter
  · exact .inl hne.symm
  · exact .inr (.inr hbefore)
  · exact .inr (.inl hafter)

/-- A piece of the first one. -/
theorem Apart.part {p q : Ptr} {k j l : ℕ} (h : Apart p n q k) (hle : j + l ≤ n) : Apart (p + j) l q k := by
  rcases h with hne | hbefore | hafter
  · exact .inl hne
  · exact .inr (.inl (by rw [add_off]; omega))
  · exact .inr (.inr (by rw [add_off]; omega))

theorem Apart.ne {p q : Ptr} {k i j : ℕ} (h : Apart p n q k) (hi : i < n) (hj : j < k) : q + j ≠ p + i := by
  intro heq
  refine h.not_within hj ⟨by rw [heq]; rfl, ?_, ?_⟩
  · rw [heq, add_off]
    omega
  · rw [heq, add_off]
    omega

theorem Apart.read {m' : Mem} {p q : Ptr} {k i : ℕ} (h : Apart p n q k) (ho : Only p n m m') (hi : i < k) :
    m' (q + i) = m (q + i) := ho _ (h.not_within hi)

theorem Apart.val {m' : Mem} {p q : Ptr} {k : ℕ} (h : Apart p n q k) (ho : Only p n m m') : val m' q k = val m q k :=
  val_congr fun _ hi => h.read ho hi

theorem clear_spec (m : Mem) (r : Ptr) (n : ℕ) : (∀ i < n, (clear m r n (r + i) : ℕ) = 0) ∧ Only r n m (clear m r n) := by
  refine countUp_inv (P := fun k x => (∀ i < k, (x (r + i) : ℕ) = 0) ∧ Only r k m x)
    ⟨fun i hi => by omega, .refl r 0 m⟩ ?_
  rintro k _ x ⟨hzero, honly⟩
  rw [Nat.zero_add]
  refine ⟨fun i hi => ?_, honly.step 0⟩
  by_cases hik : i = k
  · rw [hik, put_same, Nat.zero_mod]
  · rw [put_of_ne (by rwa [Ne, add_inj])]
    exact hzero i (by omega)

theorem mul_small {x y z w : ℕ} (hx : x < radix) (hy : y < radix) (hz : z < radix) (hw : w < radix) :
    x * y + z + w < radix * radix := by
  have hprod : x * y ≤ (radix - 1) * (radix - 1) := Nat.mul_le_mul (by omega) (by omega)
  unfold radix at *
  omega

/-- A row up to the limb `k`. -/
structure Rows (m : Mem) (r a : Ptr) (bi i k : ℕ) (x : Mem × ℕ) : Prop where
  row : val x.1 (r + i) k + x.2 * radix ^ k = val m (r + i) k + bi * val m a k
  carry : x.2 < radix
  only : Only (r + i) k m x.1

theorem mmulTurn_rows {bi i : ℕ} (hbi : bi < radix) (hapart : Apart r n a na) (hn : i + na ≤ n) :
    Rows m r a bi i na (countUp (mmulTurn r a bi i) 0 na (m, 0)) := by
  refine countUp_inv (P := fun k x => Rows m r a bi i k x) ⟨by simp [val_zero], by unfold radix; omega, .refl _ 0 m⟩ ?_
  intro k hk x h
  have hreada : x.1 (a + k) = m (a + k) := hapart.read (h.only.part (n := n) (by omega)) hk
  have hreadr : x.1 (r + (i + k)) = m (r + (i + k)) := by
    rw [← add_add]
    exact Aligned.read (.inl rfl) h.only (le_refl k)
  obtain ⟨t, ht⟩ : ∃ t, t = m (a + k) * bi + m (r + (i + k)) + x.2 := ⟨_, rfl⟩
  have hsmall : t < radix * radix := ht ▸ mul_small (limb_lt m _) hbi (limb_lt m _) h.carry
  have hturn : mmulTurn r a bi i (0 + k) x = (put x.1 (r + (i + k)) t, t >>> limbBits) := by
    have hprod : (m (a + k) : ℕ) * bi < 2 ^ 32 := by
      unfold radix at hsmall
      omega
    rw [Nat.zero_add, mmulTurn, hreada, hreadr, u32_of_lt hprod, ← ht, u32_of_lt (by unfold radix at hsmall; omega)]
  rw [hturn, shiftRight_limbBits, ← add_add]
  refine ⟨?_, Nat.div_lt_of_lt_mul hsmall, h.only.step t⟩
  have hrow := h.row
  have hsplit := carry_split t k
  have hexpand : t * radix ^ k = bi * (m (a + k) * radix ^ k) + m (r + (i + k)) * radix ^ k + x.2 * radix ^ k := by
    rw [ht]
    ring
  dsimp only
  rw [val_put, val_succ m (r + i), val_succ m a, add_add, Nat.mul_add]
  omega

/-- The product with the limbs of `b` up to the limb `i`. -/
structure Products (m : Mem) (r a : Ptr) (na : ℕ) (b : Ptr) (nb i : ℕ) (x : Mem) : Prop where
  product : val x r (na + i) = val m a na * val m b i
  above : ∀ k, na + i ≤ k → k < na + nb → (x (r + k) : ℕ) = 0
  only : Only r (na + nb) m x

theorem mmulRow_products {i : ℕ} {x : Mem} (ha : Apart r (na + nb) a na) (hb : Apart r (na + nb) b nb) (hi : i < nb)
    (h : Products m r a na b nb i x) : Products m r a na b nb (i + 1) (mmulRow r a na b i x) := by
  have hreadb := hb.read h.only hi
  have hvala := ha.val h.only
  have htop := h.above (na + i) (le_refl _) (by omega)
  unfold mmulRow
  rw [hreadb]
  dsimp only
  by_cases hzero : (m (b + i) : ℕ) = 0
  · rw [if_pos hzero]
    refine ⟨?_, fun k hk => h.above k (by omega), h.only⟩
    rw [← Nat.add_assoc, val_succ, h.product, htop, val_succ m b, hzero]
    simp
  · rw [if_neg hzero]
    have hrows := mmulTurn_rows (m := x) (i := i) (limb_lt m (b + i)) ha (by omega)
    obtain ⟨y, hy⟩ : ∃ y, y = countUp (mmulTurn r a (m (b + i)) i) 0 na (x, 0) := ⟨_, rfl⟩
    rw [← hy] at hrows ⊢
    have honly : Only (r + i) (na + 1) x (put y.1 (r + i + na) y.2) := hrows.only.step y.2
    rw [add_add] at honly
    refine ⟨?_, fun k hk hk' => ?_, h.only.trans (honly.part (by omega))⟩
    · have hlow : val (put y.1 (r + (i + na)) y.2) r i = val x r i := honly.val fun j hj hw => by
        have := hw.2.1
        simp at this
        omega
      have hhigh : val (put y.1 (r + (i + na)) y.2) (r + i) (na + 1) = val x (r + i) na + m (b + i) * val x a na := by
        rw [← add_add, val_put, Nat.mod_eq_of_lt hrows.carry]
        exact hrows.row
      have hbefore := h.product
      rw [Nat.add_comm na i, val_add] at hbefore
      rw [show na + (i + 1) = i + (na + 1) by omega, val_add, hlow, hhigh, hvala, val_succ m b, Nat.mul_add,
        ← Nat.add_assoc, hbefore]
      ring
    · have hsame : put y.1 (r + (i + na)) y.2 (r + k) = x (r + k) := honly _ fun hw => by
        have := hw.2.2
        simp at this
        omega
      rw [hsame]
      exact h.above k (by omega) hk'

theorem mmul_spec (ha : Apart r (na + nb) a na) (hb : Apart r (na + nb) b nb) :
    val (mmul m r a na b nb) r (na + nb) = val m a na * val m b nb ∧ Only r (na + nb) m (mmul m r a na b nb) := by
  obtain ⟨hzero, honly⟩ := clear_spec m r (na + nb)
  have hstart : Products m r a na b nb 0 (clear m r (na + nb)) := by
    refine ⟨?_, fun k _ hk => hzero k hk, honly⟩
    rw [val_zero, Nat.mul_zero]
    exact value_eq_zero fun i hi => hzero i (by omega)
  have hspec : Products m r a na b nb nb (mmul m r a na b nb) :=
    countUp_inv (P := fun i x => Products m r a na b nb i x) hstart fun i hi x h => by
      rw [Nat.zero_add]
      exact mmulRow_products ha hb hi h
  exact ⟨hspec.product, hspec.only⟩

end

end DiscoBSD.Bn
