import DiscoBSD.Bn.Quotient

/-!
# Long division

Dividend and divisor are shifted up until the top bit of the divisor is set, the quotient is found limb by limb from
the top, and the rest is shifted down again. **What comes out is the quotient and the remainder.**
-/

set_option autoImplicit false

namespace DiscoBSD.Bn

open Lib

section

variable {m : Mem} {n k s : ℕ}

theorem bitlen_spec (x : ℕ) : x < 2 ^ bitlen x ∧ (x ≠ 0 → 2 ^ (bitlen x - 1) ≤ x) := by
  induction x using bitlen.induct with
  | case1 =>
    rw [bitlen, if_pos rfl]
    exact ⟨by decide, fun h => absurd rfl h⟩
  | case2 x hx ih =>
    rw [Nat.shiftRight_eq_div_pow, Nat.pow_one] at ih
    rw [bitlen, if_neg hx, Nat.shiftRight_eq_div_pow, Nat.pow_one, Nat.add_sub_cancel]
    obtain ⟨hlt, hle⟩ := ih
    constructor
    · rw [Nat.pow_succ]
      lia
    · intro _
      by_cases hhalf : x / 2 = 0
      · rw [hhalf, bitlen, if_pos rfl]
        lia
      · have hpos : bitlen (x / 2) ≠ 0 := fun h => by
          rw [h] at hlt
          lia
        obtain ⟨l, hl⟩ := Nat.exists_eq_succ_of_ne_zero hpos
        have := hle hhalf
        rw [hl, Nat.succ_sub_one] at this
        rw [hl, Nat.pow_succ]
        lia

theorem bitlen_limb {x : ℕ} (hx : x < radix) : bitlen x ≤ limbBits := by
  by_cases hzero : x = 0
  · rw [hzero, bitlen, if_pos rfl]
    exact Nat.zero_le _
  · by_contra hgt
    have hle := (bitlen_spec x).2 hzero
    have hpow : 2 ^ limbBits ≤ 2 ^ (bitlen x - 1) := Nat.pow_le_pow_right (by decide) (by lia)
    have hradix : radix = 2 ^ limbBits := rfl
    lia

theorem radix_split (hs : s ≤ limbBits) : radix = 2 ^ s * 2 ^ (limbBits - s) := by
  rw [← Nat.pow_add, Nat.add_sub_cancel' hs]
  rfl

/-! ## Shifting the limbs up -/

/-- The limb that a turn writes. -/
def shlLimb (x y s : ℕ) : ℕ := (x * 2 ^ s + y / 2 ^ (limbBits - s)) % radix

theorem shl_or {x y : ℕ} (hs : s ≤ limbBits) (hx : x < radix) (hy : y < radix) :
    (u32 (x <<< s) ||| y >>> (limbBits - s)) &&& limbMask = shlLimb x y s := by
  have hpow : 2 ^ s ≤ radix := by
    have : 2 ^ s ≤ 2 ^ limbBits := Nat.pow_le_pow_right (by decide) hs
    exact this
  have hhigh : y / 2 ^ (limbBits - s) < 2 ^ s := by
    refine Nat.div_lt_of_lt_mul ?_
    rw [Nat.mul_comm, ← radix_split hs]
    exact hy
  have hsmall : x * 2 ^ s < 2 ^ 32 := by
    have : x * 2 ^ s ≤ (radix - 1) * radix := Nat.mul_le_mul (by lia) hpow
    unfold radix at this
    lia
  rw [u32_of_lt (by rwa [Nat.shiftLeft_eq]), Nat.shiftRight_eq_div_pow, ← Nat.shiftLeft_add_eq_or_of_lt hhigh,
    Nat.shiftLeft_eq, and_limbMask]
  rfl

theorem shlLimb_lt (x y s : ℕ) : shlLimb x y s < radix := Nat.mod_lt _ radix_pos

theorem shlTurn_put {dst src : Ptr} (hs : s ≤ limbBits) (i : ℕ) :
    shlTurn dst src s i m = put m (dst + i) (shlLimb (m (src + i)) (m (src + (i - 1))) s) := by
  rw [shlTurn, shl_or hs (limb_lt m _) (limb_lt m _)]

theorem shlLimbs_spec {dst src : Ptr} (hs : s ≤ limbBits) (hapart : Apart dst (n + 1) src (n + 1)) :
    (shlLimbs m dst src s (n + 1) (dst + 0) : ℕ) = m (src + 0) * 2 ^ s % radix ∧
      (∀ i < n, (shlLimbs m dst src s (n + 1) (dst + (i + 1)) : ℕ) = shlLimb (m (src + (i + 1))) (m (src + i)) s) ∧
      Only dst (n + 1) m (shlLimbs m dst src s (n + 1)) := by
  have hupper : (∀ i < n, 0 ≤ i → (countDown (shlTurn dst src s) 1 n m (dst + (i + 1)) : ℕ) =
      shlLimb (m (src + (i + 1))) (m (src + i)) s) ∧ Only dst (n + 1) m (countDown (shlTurn dst src s) 1 n m) := by
    refine countDown_inv (P := fun k (x : Mem) => (∀ i < n, k ≤ i → (x (dst + (i + 1)) : ℕ) =
      shlLimb (m (src + (i + 1))) (m (src + i)) s) ∧ Only dst (n + 1) m x) ⟨fun i hi hle => by lia, .refl _ _ m⟩ ?_
    rintro k hk x ⟨hdone, honly⟩
    rw [shlTurn_put hs, hapart.read honly (by lia), hapart.read honly (by lia), Nat.add_comm 1 k, Nat.add_sub_cancel]
    refine ⟨fun i hi hle => ?_, honly.trans (.put (by lia))⟩
    by_cases hik : i = k
    · rw [hik, put_same, Nat.mod_eq_of_lt (shlLimb_lt ..)]
    · rw [put_of_ne (by rw [Ne, add_inj]; lia)]
      exact hdone i hi (by lia)
  obtain ⟨hdone, honly⟩ := hupper
  rw [shlLimbs, Nat.add_sub_cancel]
  have hpow : 2 ^ s ≤ radix := by
    have : 2 ^ s ≤ 2 ^ limbBits := Nat.pow_le_pow_right (by decide) hs
    exact this
  have hsmall : (m (src + 0) : ℕ) * 2 ^ s < 2 ^ 32 := by
    have hlt := limb_lt m (src + 0)
    have : (m (src + 0) : ℕ) * 2 ^ s ≤ (radix - 1) * radix := Nat.mul_le_mul (by lia) hpow
    unfold radix at this
    lia
  rw [hapart.read honly (by lia), and_limbMask, Nat.shiftLeft_eq, u32_of_lt hsmall]
  refine ⟨by rw [put_same, Nat.mod_mod], fun i hi => ?_, honly.trans (.put (by lia))⟩
  rw [put_of_ne (by rw [Ne, add_inj]; lia)]
  exact hdone i hi (Nat.zero_le i)

/-- The number that is shifted up, with what comes out at the top. -/
theorem shlLimbs_val {dst src : Ptr} (hs : s ≤ limbBits) (hapart : Apart dst (n + 1) src (n + 1)) :
    val (shlLimbs m dst src s (n + 1)) dst (n + 1) + m (src + n) / 2 ^ (limbBits - s) * radix ^ (n + 1) =
      val m src (n + 1) * 2 ^ s := by
  obtain ⟨hzero, hsucc, -⟩ := shlLimbs_spec (m := m) hs hapart
  exact value_shl (l := fun i => (m (src + i) : ℕ)) (radix_split hs) (fun i => limb_lt m _) hzero hsucc

/-! ## The quotient, limb by limb -/

/-- The quotient down to the limb `k`, with `turns` limbs in all and a divisor of `d + 2` limbs. -/
structure Dividing (m : Mem) (q u v : Ptr) (d turns k : ℕ) (x : Mem) : Prop where
  divisor : val x v (d + 2) = val m v (d + 2)
  dividend : val m u (turns + (d + 2)) =
    val x (q + k) (turns - k) * radix ^ k * val m v (d + 2) + val x u (k + (d + 2))
  rest : val x (u + k) (d + 2) < val m v (d + 2)
  top : k < turns → (x (u + (k + (d + 2))) : ℕ) = 0
  frame : ∀ z, ¬Within u (turns + (d + 2)) z → ¬Within q turns z → x z = m z

theorem Dividing.turn {q u v : Ptr} {d turns : ℕ} {x : Mem} (hv1 : (m (v + (d + 1)) : ℕ) ≠ 0)
    (huv : Apart u (turns + (d + 2)) v (d + 2)) (huq : Apart u (turns + (d + 2)) q turns) (hqv : Apart q turns v (d + 2))
    (hk : k < turns) (h : Dividing m q u v d turns (k + 1) x) : Dividing m q u v d turns k (divTurn q u v (d + 2) k x) := by
  obtain ⟨y, hy⟩ : ∃ y, y = divTurn q u v (d + 2) k x := ⟨_, rfl⟩
  rw [← hy]
  have hsame : ∀ i < d + 2, x (v + i) = m (v + i) := fun i hi => h.frame _ (huv.not_within hi) (hqv.not_within hi)
  have hwindow : Apart (u + k) (d + 3) v (d + 2) := huv.part (by lia)
  have hquotient : ¬Within (u + k) (d + 3) (q + k) := (huq.part (j := k) (l := d + 3) (by lia)).not_within hk
  have hbefore : val x (u + k) (d + 3) = x (u + k) + radix * val x (u + (k + 1)) (d + 2) := val_cons x u k (d + 2)
  have hrest := h.rest
  rw [← h.divisor] at hrest
  have hlarge : val x (u + k) (d + 3) < val x v (d + 2) * radix := by
    have hlimb := limb_lt x (u + k)
    have : (val x (u + (k + 1)) (d + 2) + 1) * radix ≤ val x v (d + 2) * radix := Nat.mul_le_mul_right _ hrest
    rw [hbefore]
    linarith
  obtain ⟨hq, hmod, hframe⟩ := divTurn_spec (hsame (d + 1) (by lia) ▸ hv1) hlarge hwindow hquotient hy
  have hV : val y v (d + 2) = val x v (d + 2) :=
    val_congr fun i hi => hframe _ (hwindow.not_within hi) (hqv.ne hk hi)
  have hVpos : 0 < val x v (d + 2) := lt_of_le_of_lt (Nat.zero_le _) hrest
  have hmodlt := Nat.mod_lt (val x (u + k) (d + 3)) hVpos
  have hVlt := val_lt x v (d + 2)
  -- The rest is less than the divisor, so nothing is left in the top limb.
  have hsplit : val y (u + k) (d + 3) = val y (u + k) (d + 2) + y (u + (k + (d + 2))) * radix ^ (d + 2) := by
    rw [val_succ, add_add]
  have htop : (y (u + (k + (d + 2))) : ℕ) = 0 := by
    by_contra hne
    have : 1 * radix ^ (d + 2) ≤ y (u + (k + (d + 2))) * radix ^ (d + 2) :=
      Nat.mul_le_mul_right _ (Nat.pos_of_ne_zero hne)
    lia
  have hleft : val y (u + k) (d + 2) = val x (u + k) (d + 3) % val x v (d + 2) := by
    rw [htop, Nat.zero_mul] at hsplit
    lia
  refine ⟨hV.trans h.divisor, ?_, by rw [hleft, ← h.divisor]; exact hmodlt, fun _ => htop, fun z hzu hzq => ?_⟩
  · have hlow : val y u k = val x u k := val_congr fun i hi => hframe _ (fun hw => by
      have := hw.2.1
      simp only [add_off] at this
      lia) (huq.symm.ne hk (by lia))
    have hhigh : val y (q + (k + 1)) (turns - (k + 1)) = val x (q + (k + 1)) (turns - (k + 1)) :=
      val_congr fun i hi => by
        rw [add_add]
        exact hframe _ ((huq.part (j := k) (l := d + 3) (by lia)).not_within (by lia)) (by rw [Ne, add_inj]; lia)
    have hdividend := h.dividend
    have hdiv := Nat.div_add_mod (val x (u + k) (d + 3)) (val x v (d + 2))
    rw [show k + 1 + (d + 2) = k + (d + 3) by lia, val_add x u k, ← h.divisor] at hdividend
    rw [hdividend, show turns - k = turns - (k + 1) + 1 by lia, val_cons y q k, hhigh, hq, val_add y u k, hlow, hleft,
      ← h.divisor]
    generalize val x (q + (k + 1)) (turns - (k + 1)) = Q
    generalize val x v (d + 2) = V at hdiv ⊢
    generalize val x (u + k) (d + 3) = W at hdiv ⊢
    generalize W / V = t at hdiv ⊢
    generalize W % V = w at hdiv ⊢
    rw [← hdiv, Nat.pow_succ]
    ring
  · have hz : x z = m z := h.frame z hzu hzq
    rw [← hz]
    refine hframe z (fun hw => hzu ⟨hw.1, ?_, ?_⟩) fun heq => hzq ⟨?_, ?_, ?_⟩
    · have := hw.2.1
      simp only [add_off] at this
      lia
    · have := hw.2.2
      simp only [add_off] at this
      lia
    · rw [heq]
      rfl
    · rw [heq, add_off]
      lia
    · rw [heq, add_off]
      lia

theorem divLoop_spec {q u v : Ptr} {d turns : ℕ} (hv1 : (m (v + (d + 1)) : ℕ) ≠ 0)
    (huv : Apart u (turns + (d + 2)) v (d + 2)) (huq : Apart u (turns + (d + 2)) q turns) (hqv : Apart q turns v (d + 2))
    (hrest : val m (u + turns) (d + 2) < val m v (d + 2)) :
    Dividing m q u v d turns 0 (countDown (divTurn q u v (d + 2)) 0 turns m) := by
  refine countDown_inv (P := fun k x => Dividing m q u v d turns k x) ⟨rfl, ?_, hrest, fun h => absurd h (lt_irrefl _),
    fun _ _ _ => rfl⟩ fun k hk x h => ?_
  · rw [Nat.sub_self, val_zero, Nat.zero_mul, Nat.zero_mul, Nat.zero_add]
  · rw [Nat.zero_add]
    exact h.turn hv1 huv huq hqv hk

/-! ## Shifting the rest down -/

theorem shr_or {x y : ℕ} (hs : s ≤ limbBits) (hx : x < radix) (hy : y < radix) :
    (x >>> s ||| u32 (y <<< (limbBits - s))) &&& limbMask = (x + y * radix) / 2 ^ s % radix := by
  have hpos : 0 < 2 ^ s := Nat.two_pow_pos s
  have hlow : x / 2 ^ s < 2 ^ (limbBits - s) := by
    refine Nat.div_lt_of_lt_mul ?_
    rw [← radix_split hs]
    exact hx
  have hpow : 2 ^ (limbBits - s) ≤ radix := by
    have : 2 ^ (limbBits - s) ≤ 2 ^ limbBits := Nat.pow_le_pow_right (by decide) (Nat.sub_le ..)
    exact this
  have hsmall : y * 2 ^ (limbBits - s) < 2 ^ 32 := by
    have : y * 2 ^ (limbBits - s) ≤ (radix - 1) * radix := Nat.mul_le_mul (by lia) hpow
    unfold radix at this
    lia
  have hsplit : (x + y * radix) / 2 ^ s = y * 2 ^ (limbBits - s) + x / 2 ^ s := by
    rw [radix_split hs, show y * (2 ^ s * 2 ^ (limbBits - s)) = 2 ^ s * (y * 2 ^ (limbBits - s)) by ring,
      Nat.add_mul_div_left _ _ hpos, Nat.add_comm]
  rw [u32_of_lt (by rwa [Nat.shiftLeft_eq]), Nat.shiftRight_eq_div_pow, Nat.or_comm,
    ← Nat.shiftLeft_add_eq_or_of_lt hlow, Nat.shiftLeft_eq, and_limbMask, hsplit]

theorem shrTurns_spec {rem u : Ptr} (hs : s ≤ limbBits) (hapart : Apart rem n u (n + 1)) :
    (∀ i < n, (countUp (shrTurn rem u s) 0 n m (rem + i) : ℕ) =
      (m (u + i) + m (u + (i + 1)) * radix) / 2 ^ s % radix) ∧ Only rem n m (countUp (shrTurn rem u s) 0 n m) := by
  refine countUp_inv (P := fun k (x : Mem) => (∀ i < k, (x (rem + i) : ℕ) =
    (m (u + i) + m (u + (i + 1)) * radix) / 2 ^ s % radix) ∧ Only rem k m x) ⟨fun i hi => by lia, .refl _ 0 m⟩ ?_
  rintro k hk x ⟨hdone, honly⟩
  have honly' : Only rem n m x := honly.mono (by lia)
  rw [Nat.zero_add, shrTurn, hapart.read honly' (by lia), hapart.read honly' (by lia),
    shr_or hs (limb_lt m _) (limb_lt m _)]
  refine ⟨fun i hi => ?_, honly.step _⟩
  by_cases hik : i = k
  · rw [hik, put_same, Nat.mod_mod]
  · rw [put_of_ne (by rw [Ne, add_inj]; lia)]
    exact hdone i (by lia)

/-! ## Algorithm D -/

/-- The pieces of working storage and the operands have no limb in common. -/
structure Workspace (q rem u v a : Ptr) (na : ℕ) (d : Ptr) (nd turns : ℕ) : Prop where
  vd : Apart v nd d nd
  va : Apart v nd a na
  ua : Apart u (na + 1) a na
  uv : Apart u (na + 1) v nd
  uq : Apart u (na + 1) q turns
  qv : Apart q turns v nd
  remu : Apart rem nd u (na + 1)
  remq : Apart rem nd q turns

/-- What lies outside the working storage. -/
def Outside (q rem u v : Ptr) (na nd turns : ℕ) (x : Ptr) : Prop :=
  ¬Within u (na + 1) x ∧ ¬Within v nd x ∧ ¬Within q turns x ∧ ¬Within rem nd x

/-- Divisor and dividend, shifted up. -/
structure Normalized (m : Mem) (u v a : Ptr) (na : ℕ) (d : Ptr) (k s : ℕ) (x : Mem) : Prop where
  divisor : val x v (k + 2) = val m d (k + 2) * 2 ^ s
  lead : (x (v + (k + 1)) : ℕ) ≠ 0
  dividend : val x u (na + 1) = val m a na * 2 ^ s
  frame : ∀ z, ¬Within u (na + 1) z → ¬Within v (k + 2) z → x z = m z

theorem normalize_spec {u v a d : Ptr} (hs : s = limbBits - bitlen (m (d + (k + 1)))) (hd : (m (d + (k + 1)) : ℕ) ≠ 0)
    (hvd : Apart v (k + 2) d (k + 2)) (hva : Apart v (k + 2) a (n + 1)) (hua : Apart u (n + 2) a (n + 1))
    (huv : Apart u (n + 2) v (k + 2)) {x y : Mem} (hx : x = shlLimbs m v d s (k + 2))
    (hy : y = shlLimbs (put x (u + (n + 1)) ((x (a + n) : ℕ) >>> (limbBits - s))) u a s (n + 1)) :
    Normalized m u v a (n + 1) d k s y := by
  have hle : s ≤ limbBits := hs ▸ Nat.sub_le ..
  have hbits : limbBits - s = bitlen (m (d + (k + 1))) := by
    have := bitlen_limb (limb_lt m (d + (k + 1)))
    lia
  have hnone : (m (d + (k + 1)) : ℕ) / 2 ^ (limbBits - s) = 0 := by
    rw [hbits]
    exact Nat.div_eq_of_lt (bitlen_spec _).1
  obtain ⟨-, hlimbs, honlyx⟩ := shlLimbs_spec (m := m) hle hvd
  have hvalx := shlLimbs_val (m := m) hle hvd
  rw [← hx] at hlimbs honlyx hvalx
  rw [hnone, Nat.zero_mul, Nat.add_zero] at hvalx
  have hxa : ∀ i < n + 1, x (a + i) = m (a + i) := fun i hi => hva.read honlyx hi
  obtain ⟨w, hw⟩ : ∃ w, w = put x (u + (n + 1)) ((x (a + n) : ℕ) >>> (limbBits - s)) := ⟨_, rfl⟩
  have honlyw : Only u (n + 2) x w := by
    rw [hw]
    exact .put (by lia)
  have hwa : ∀ i < n + 1, w (a + i) = m (a + i) := fun i hi => (hua.read honlyw hi).trans (hxa i hi)
  have hua' : Apart u (n + 1) a (n + 1) := hua.part (j := 0) (by lia)
  obtain ⟨-, -, honlyy⟩ := shlLimbs_spec (m := w) hle hua'
  have hvaly := shlLimbs_val (m := w) hle hua'
  rw [← hw] at hy
  rw [← hy] at honlyy hvaly
  have honly : Only u (n + 2) x y := honlyw.trans (honlyy.mono (by lia))
  have htopw : (w (u + (n + 1)) : ℕ) = m (a + n) / 2 ^ (limbBits - s) := by
    have hlt : (m (a + n) : ℕ) / 2 ^ (limbBits - s) < radix := lt_of_le_of_lt (Nat.div_le_self ..) (limb_lt m _)
    rw [hw, put_same, hxa n (by lia), Nat.shiftRight_eq_div_pow, Nat.mod_eq_of_lt hlt]
  have htopy : y (u + (n + 1)) = w (u + (n + 1)) := honlyy _ fun hw => by
    have := hw.2.2
    simp only [add_off] at this
    lia
  have hv : ∀ i < k + 2, y (v + i) = x (v + i) := fun i hi => huv.read honly hi
  refine ⟨(val_congr hv).trans hvalx, ?_, ?_, fun z hzu hzv => (honly z hzu).trans (honlyx z hzv)⟩
  · rw [hv (k + 1) (by lia), hlimbs k (by lia)]
    have hdigit := shl_digit (radix_split hle) (limb_lt m (d + (k + 1))) (limb_lt m (d + k))
    rw [hnone, Nat.zero_mul, Nat.add_zero] at hdigit
    have : 0 < (m (d + (k + 1)) : ℕ) * 2 ^ s := Nat.mul_pos (Nat.pos_of_ne_zero hd) (Nat.two_pow_pos s)
    rw [shlLimb, hdigit]
    exact Nat.ne_of_gt (Nat.add_pos_left this _)
  · have hvala : val w a (n + 1) = val m a (n + 1) := val_congr hwa
    rw [val_succ y u (n + 1), htopy, htopw, ← hvala, ← hvaly, hwa n (by lia)]

/-- The leading limbs of the dividend are less than the divisor. -/
theorem Normalized.lead_lt {u v a d : Ptr} {x : Mem} {turns : ℕ} (h : Normalized m u v a n d k s x)
    (hd : (m (d + (k + 1)) : ℕ) ≠ 0) (hn : n + 1 = turns + (k + 2)) : val x (u + turns) (k + 2) < val x v (k + 2) := by
  have hA := val_lt m a n
  have hD : radix ^ (k + 1) ≤ val m d (k + 2) := pow_le_value hd
  have hdividend := h.dividend
  rw [hn, val_add] at hdividend
  have hlt : val x (u + turns) (k + 2) * radix ^ turns < radix ^ (k + 1) * 2 ^ s * radix ^ turns := by
    have hpow : radix ^ n = radix ^ (k + 1) * radix ^ turns := by
      rw [← Nat.pow_add]
      congr 1
      lia
    calc val x (u + turns) (k + 2) * radix ^ turns ≤ val m a n * 2 ^ s := by
          rw [← hdividend, Nat.mul_comm]
          exact Nat.le_add_left ..
      _ < radix ^ n * 2 ^ s := Nat.mul_lt_mul_of_pos_right hA (Nat.two_pow_pos s)
      _ = radix ^ (k + 1) * 2 ^ s * radix ^ turns := by rw [hpow]; ring
  calc val x (u + turns) (k + 2) < radix ^ (k + 1) * 2 ^ s := Nat.lt_of_mul_lt_mul_right hlt
    _ ≤ val x v (k + 2) := by
      rw [h.divisor]
      exact Nat.mul_le_mul_right _ hD

/-- **Algorithm D computes quotient and remainder.** -/
theorem mdivrem_spec {q rem u v a d : Ptr} {turns : ℕ} (hn : n + 2 = turns + (k + 2)) (hturns : 0 < turns)
    (hd : (m (d + (k + 1)) : ℕ) ≠ 0) (hws : Workspace q rem u v a (n + 1) d (k + 2) turns) {m' : Mem}
    (hm' : m' = mdivrem m q rem u v a (n + 1) d (k + 2)) :
    val m' q turns = val m a (n + 1) / val m d (k + 2) ∧ val m' rem (k + 2) = val m a (n + 1) % val m d (k + 2) ∧
      ∀ z, Outside q rem u v (n + 1) (k + 2) turns z → m' z = m z := by
  obtain ⟨s, hs⟩ : ∃ s, s = limbBits - bitlen (m (d + (k + 1))) := ⟨_, rfl⟩
  have hle : s ≤ limbBits := hs ▸ Nat.sub_le ..
  obtain ⟨x, hx⟩ : ∃ x, x = shlLimbs m v d s (k + 2) := ⟨_, rfl⟩
  obtain ⟨y, hy⟩ : ∃ y, y = shlLimbs (put x (u + (n + 1)) ((x (a + n) : ℕ) >>> (limbBits - s))) u a s (n + 1) := ⟨_, rfl⟩
  have hnorm := normalize_spec hs hd hws.vd hws.va hws.ua hws.uv hx hy
  have hlead := hnorm.lead_lt hd hn
  have huv : Apart u (turns + (k + 2)) v (k + 2) := hn ▸ hws.uv
  have huq : Apart u (turns + (k + 2)) q turns := hn ▸ hws.uq
  obtain ⟨w, hw⟩ : ∃ w, w = countDown (divTurn q u v (k + 2)) 0 turns y := ⟨_, rfl⟩
  have hdividing := divLoop_spec hnorm.lead huv huq hws.qv hlead
  rw [← hw] at hdividing
  have hm'' : m' = countUp (shrTurn rem u s) 0 (k + 2) w := by
    rw [hm', mdivrem, show n + 1 - (k + 2) + 1 = turns by lia, hw, hy, hx, hs]
    rfl
  have hremu : Apart rem (k + 2) u (k + 2 + 1) := (hws.remu.symm.part (j := 0) (l := k + 2 + 1) (by lia)).symm
  obtain ⟨hrem, honly⟩ := shrTurns_spec (m := w) hle hremu
  rw [← hm''] at hrem honly
  have htop : (w (u + (k + 2)) : ℕ) = 0 := by
    have := hdividing.top hturns
    rwa [Nat.zero_add] at this
  have hrest := hdividing.rest
  have hdividend := hdividing.dividend
  rw [← hn, hnorm.dividend, Nat.sub_zero, Nat.pow_zero, Nat.mul_one, Nat.zero_add] at hdividend
  change _ = val w q turns * _ + _ at hdividend
  change val w u (k + 2) < _ at hrest
  rw [hnorm.divisor] at hdividend hrest
  have hpos : 0 < 2 ^ s := Nat.two_pow_pos s
  have hVpos : 0 < val m d (k + 2) * 2 ^ s := lt_of_le_of_lt (Nat.zero_le _) hrest
  refine ⟨?_, ?_, fun z hz => ?_⟩
  · rw [hws.remq.val honly, ← Nat.mul_div_mul_right _ _ hpos, hdividend, Nat.mul_comm,
      Nat.mul_add_div hVpos, Nat.div_eq_of_lt hrest, Nat.add_zero]
  · have hshift : val m' rem (k + 2) = val w u (k + 2) / 2 ^ s :=
      value_shr_div (l := fun i => (w (u + i) : ℕ)) (radix_split hle) hpos (fun i _ => limb_lt w _) hrem htop
    have hmod : val w u (k + 2) = val m a (n + 1) % val m d (k + 2) * 2 ^ s := by
      rw [← Nat.mul_mod_mul_right, hdividend, Nat.mul_comm, Nat.mul_add_mod, Nat.mod_eq_of_lt hrest]
    rw [hshift, hmod, Nat.mul_div_cancel _ hpos]
  · obtain ⟨hu, hv, hq, hr⟩ := hz
    rw [honly z hr, hdividing.frame z (by rwa [← hn]) hq, hnorm.frame z hu hv]

end

end DiscoBSD.Bn
