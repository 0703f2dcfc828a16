import DiscoBSD.Bn.Calls
import Mathlib.Data.Nat.Size

/-!
# Shifts, masks and copies

**A shift divides the magnitude by a power of two, and a mask takes the remainder**; both keep the sign.
-/

set_option autoImplicit false

namespace DiscoBSD.Bn

open Lib
open Function (update)

section

variable {al : Allocator} {s s' : St} {r a : Name} {m : Mem} {n : ℕ}

theorem pow_limbs (l : ℕ) : 2 ^ (limbBits * l) = radix ^ l := Nat.pow_mul ..

theorem signed_tdiv (i j : Bool) (x y : ℕ) : signed (i != j) (x / y) = Int.tdiv (signed i x) (signed j y) := by
  cases i <;> cases j <;> simp [signed, Int.neg_tdiv, Int.tdiv_neg]

theorem signed_tmod (i j : Bool) (x y : ℕ) : signed i (x % y) = Int.tmod (signed i x) (signed j y) := by
  cases i <;> cases j <;> simp [signed, Int.neg_tmod, Int.tmod_neg] <;> rfl

/-- The divisor of a shift has no sign. -/
theorem signed_shift (neg : Bool) (x y : ℕ) : signed neg (x / y) = Int.tdiv (signed neg x) y := by
  have h := signed_tdiv neg false x y
  rwa [Bool.bne_false] at h

/-! ## Shifts -/

/-- The limbs of the operand from some place on, and nothing above them. -/
def upper (m : Mem) (a : Ptr) (top ls i : ℕ) : ℕ := if i + ls < top then m (a + (i + ls)) else 0

theorem upper_lt (m : Mem) (a : Ptr) (top ls i : ℕ) : upper m a top ls i < radix := by
  unfold upper
  split
  · exact limb_lt m _
  · exact radix_pos

/-- The limbs of the operand from some place on are those of a quotient. -/
theorem value_upper {a : Ptr} {top ls : ℕ} (hls : ls ≤ top) :
    value radix (upper m a top ls) (top - ls) = val m a top / radix ^ ls := by
  have hval : val m a top = val m a ls + radix ^ ls * val m (a + ls) (top - ls) := by
    rw [← val_add, Nat.add_sub_cancel' hls]
  rw [hval, Nat.add_mul_div_left _ _ (Nat.pow_pos radix_pos), Nat.div_eq_of_lt (val_lt m a ls), Nat.zero_add]
  refine value_congr fun i hi => ?_
  rw [upper, if_pos (by omega), add_add, Nat.add_comm]

theorem rshiftTurn_put {r a : Ptr} {top ls bs i : ℕ} (hi : i + ls < top) (m : Mem) :
    rshiftTurn r a top ls bs i m =
      put m (r + i) ((upper m a top ls i + upper m a top ls (i + 1) * radix) / 2 ^ bs) := by
  have hhi : (if i + ls + 1 < top then (m (a + (i + ls + 1)) : ℕ) else 0) = upper m a top ls (i + 1) := by
    rw [upper, Nat.add_right_comm]
  have hlo : (m (a + (i + ls)) : ℕ) = upper m a top ls i := by rw [upper, if_pos hi]
  unfold rshiftTurn
  dsimp only
  rw [hhi, hlo, u32_shiftLeft (upper_lt ..), shiftLeft_or (upper_lt ..), Nat.shiftRight_eq_div_pow, Nat.add_comm]

/-- The result may lie where the operand does: what is read has not been written yet. -/
theorem rshiftTurns_spec {r a : Ptr} {top ls bs : ℕ} (ha : Aligned r a) (hls : ls ≤ top) (hbs : bs < limbBits) {m' : Mem}
    (hm' : m' = countUp (rshiftTurn r a top ls bs) 0 (top - ls) m) :
    val m' r (top - ls) = val m a top / 2 ^ (limbBits * ls + bs) ∧ Only r (top - ls) m m' := by
  have hturns : (∀ i < top - ls, (m' (r + i) : ℕ) =
      (upper m a top ls i + upper m a top ls (i + 1) * radix) / 2 ^ bs % radix) ∧ Only r (top - ls) m m' := by
    rw [hm']
    refine countUp_inv (P := fun k (y : Mem) => (∀ i < k, (y (r + i) : ℕ) =
      (upper m a top ls i + upper m a top ls (i + 1) * radix) / 2 ^ bs % radix) ∧ Only r k m y)
      ⟨fun i hi => by omega, .refl _ 0 m⟩ ?_
    rintro k hk y ⟨hdone, honly⟩
    have hread : ∀ i, k ≤ i → upper y a top ls i = upper m a top ls i := by
      intro i hi
      rw [upper, upper, ha.read honly (by omega)]
    rw [Nat.zero_add, rshiftTurn_put (by omega), hread k (le_refl k), hread (k + 1) (Nat.le_succ k)]
    refine ⟨fun i hi => ?_, honly.step _⟩
    by_cases hik : i = k
    · rw [hik, put_same]
    · rw [put_of_ne (by rw [Ne, add_inj]; omega)]
      exact hdone i (by omega)
  refine ⟨?_, hturns.2⟩
  have htop : upper m a top ls (top - ls) = 0 := by rw [upper, if_neg (by omega)]
  have hshift : val m' r (top - ls) = value radix (upper m a top ls) (top - ls) / 2 ^ bs :=
    value_shr_div (radix_split (Nat.le_of_lt hbs)) (Nat.two_pow_pos bs) (fun i _ => upper_lt m a top ls i) hturns.1 htop
  rw [value_upper hls] at hshift
  rw [Nat.pow_add, pow_limbs, ← Nat.div_div_eq_div_mul]
  exact hshift

/-- `BN_rshift` divides by a power of two, towards zero. -/
theorem bnRshift_spec (al : Allocator) (hv : Valid s) (r a : Name) (n : ℤ) :
    ∃ ok s', bnRshift al s r a n = (ok, s') ∧ Ends al s r (Int.tdiv (int s a) ((2 ^ n.toNat : ℕ) : ℤ)) (n < 0) ok s' ∧
      (n < 0 → ok = false) := by
  unfold bnRshift
  dsimp only
  by_cases hneg : n < 0
  · rw [if_pos hneg]
    exact ⟨false, s, rfl, (Keeps.refl hv).ends (.inr hneg), fun _ => rfl⟩
  · rw [if_neg hneg]
    obtain ⟨ls, hls⟩ : ∃ ls, ls = n.toNat / limbBits := ⟨_, rfl⟩
    obtain ⟨bs, hbs⟩ : ∃ bs, bs = n.toNat % limbBits := ⟨_, rfl⟩
    have hbits : n.toNat = limbBits * ls + bs := by rw [hls, hbs, Nat.div_add_mod]
    have hbslt : bs < limbBits := hbs ▸ Nat.mod_lt _ (by decide)
    rw [← hls, ← hbs, hbits, int, ← signed_shift]
    by_cases hge : ls ≥ (s.num a).top
    · rw [if_pos hge]
      have hlt : mag s a < 2 ^ (limbBits * ls + bs) := by
        calc mag s a < radix ^ (s.num a).top := val_lt ..
          _ ≤ radix ^ ls := Nat.pow_le_pow_right radix_pos hge
          _ = 2 ^ (limbBits * ls) := (pow_limbs ls).symm
          _ ≤ 2 ^ (limbBits * ls + bs) := Nat.pow_le_pow_right (by decide) (Nat.le_add_right ..)
      refine ⟨true, _, rfl, Sets.ends ?_, fun h => absurd h hneg⟩
      rw [Nat.div_eq_of_lt hlt, signed_zero]
      exact hv.setzero r
    · rw [if_neg hge]
      obtain ⟨ok, t, hrun, hexp⟩ := expand_spec al hv r ((s.num a).top - ls)
      have hmax : bnMaxlimbs < (s.num a).top - ls → n < 0 := fun h => by
        have := hv.top_le a
        omega
      rw [hrun]
      cases ok with
      | false =>
        exact ⟨false, t, rfl, hexp.stops hmax, fun h => absurd h hneg⟩
      | true =>
        refine ⟨true, _, rfl, hexp.goes ?_, fun h => absurd h hneg⟩
        have hroom := hexp.room rfl
        have ha := hexp.keeps.same a
        rw [← ha.top] at hroom hge ⊢
        have hpos : 0 < (t.num r).dmax := by omega
        obtain ⟨hval, honly⟩ := rshiftTurns_spec (m := t.mem) (hexp.keeps.valid.aligned hpos a)
          (Nat.le_of_not_le hge) hbslt rfl
        have hsets := hexp.keeps.valid.settop (honly.mono hroom) hroom (s.num a).neg
        rw [hval] at hsets
        rw [← ha.mag]
        exact hsets

/-! ## Masks -/

theorem bnNumBits_eq (hv : Valid s) (a : Name) : bnNumBits s a = Nat.size (mag s a) := by
  obtain ⟨hlt, hle⟩ := bnNumBits_spec hv a
  by_cases hzero : mag s a = 0
  · have htop := (hv.num a).mag_eq_zero.mp hzero
    rw [hzero, Nat.size_zero, bnNumBits, if_pos htop]
  · refine le_antisymm ?_ (Nat.size_le.mpr hlt)
    have hsize := Nat.lt_size.mpr (hle hzero)
    omega

/-- There are no more bits than those of the limbs in use. -/
theorem Valid.bits_le (hv : Valid s) (a : Name) : bnNumBits s a ≤ limbBits * (s.num a).top := by
  rw [bnNumBits_eq hv, Nat.size_le, pow_limbs]
  exact val_lt ..

/-- The low limbs. -/
theorem val_mod {p : Ptr} {w n : ℕ} (hw : w ≤ n) : val m p n % radix ^ w = val m p w := by
  obtain ⟨k, rfl⟩ := Nat.exists_eq_add_of_le hw
  rw [val_add, Nat.add_mul_mod_self_left, Nat.mod_eq_of_lt (val_lt m p w)]

/-- The low limbs, and the low bits of the next one. -/
theorem val_put_mask {p : Ptr} {w n b : ℕ} (hw : w < n) (hb : b < limbBits) :
    val (put m (p + w) ((m (p + w) : ℕ) &&& (1 <<< b - 1))) p (w + 1) = val m p n % 2 ^ (limbBits * w + b) := by
  have hdiv := val_div (m := m) (p := p) 0 hw
  rw [Nat.add_zero, pow_limbs, Nat.pow_zero, Nat.div_one] at hdiv
  have hpow : radix = 2 ^ b * 2 ^ (limbBits - b) := radix_split (Nat.le_of_lt hb)
  have hlimb : (m (p + w) : ℕ) % 2 ^ b < radix := lt_of_le_of_lt (Nat.mod_le ..) (limb_lt m _)
  have hmod : val m p n / radix ^ w % 2 ^ b = m (p + w) % 2 ^ b := by
    rw [hdiv, hpow, Nat.mul_assoc, Nat.add_mul_mod_self_left]
  rw [val_put, Nat.one_shiftLeft, Nat.and_two_pow_sub_one_eq_mod, Nat.mod_eq_of_lt hlimb, Nat.pow_add, pow_limbs, Nat.mod_mul,
    val_mod (Nat.le_of_lt hw), hmod, Nat.mul_comm]

/-- `BN_mask_bits` keeps the low bits, of a number that has as many. -/
theorem bnMaskBits_spec (al : Allocator) (hv : Valid s) (a : Name) (n : ℤ) :
    ∃ ok s', bnMaskBits s a n = (ok, s') ∧
      Ends al s a (Int.tmod (int s a) ((2 ^ n.toNat : ℕ) : ℤ)) (n < 0 ∨ Nat.size (mag s a) < n) ok s' ∧
      (n < 0 ∨ Nat.size (mag s a) < n → ok = false) := by
  unfold bnMaskBits
  dsimp only
  rw [bnNumBits_eq hv]
  by_cases hrefused : n < 0 ∨ (Nat.size (mag s a) : ℤ) < n
  · rw [if_pos hrefused]
    exact ⟨false, s, rfl, (Keeps.refl hv).ends (.inr hrefused), fun _ => rfl⟩
  · rw [if_neg hrefused]
    obtain ⟨w, hw⟩ : ∃ w, w = n.toNat / limbBits := ⟨_, rfl⟩
    obtain ⟨b, hb⟩ : ∃ b, b = n.toNat % limbBits := ⟨_, rfl⟩
    have hbits : n.toNat = limbBits * w + b := by rw [hw, hb, Nat.div_add_mod]
    have hblt : b < limbBits := hb ▸ Nat.mod_lt _ (by decide)
    have hle : limbBits * w + b ≤ limbBits * (s.num a).top := by
      have := hv.bits_le a
      rw [bnNumBits_eq hv] at this
      omega
    have hfits := (hv.num a).fits
    rw [← hw, ← hb, hbits, int, ← signed_pos (_ ^ _), ← signed_tmod]
    by_cases hzero : b = 0
    · rw [if_neg (not_not.mpr hzero)]
      rw [hzero, Nat.add_zero] at hle ⊢
      have hwtop : w ≤ (s.num a).top := Nat.le_of_mul_le_mul_left hle (by decide)
      refine ⟨true, _, rfl, Sets.ends ?_, fun h => absurd h hrefused⟩
      rw [pow_limbs, mag, val_mod hwtop]
      exact hv.settop (.refl _ _ _) (hwtop.trans hfits) _
    · rw [if_pos hzero]
      have hwtop : w < (s.num a).top := by
        by_contra h
        have := Nat.mul_le_mul_left limbBits (Nat.le_of_not_lt h)
        omega
      refine ⟨true, _, rfl, Sets.ends ?_, fun h => absurd h hrefused⟩
      rw [mag, ← val_put_mask hwtop hblt]
      exact hv.settop (.put (by omega)) (by omega) _

/-! ## Copies -/

theorem trim_eq {d : Ptr} (h : n ≠ 0 → (m (d + (n - 1)) : ℕ) ≠ 0) : trim m d n = n := by
  cases n with
  | zero => rfl
  | succ n =>
    have hlead := h (Nat.succ_ne_zero n)
    rw [Nat.succ_sub_one] at hlead
    rw [trim, if_neg fun hzero => hlead (by rw [hzero]; rfl)]

/-- The limbs of one number become those of another, in canonical form as they are. -/
theorem copied_eq (hv : Valid s) {src dst : Name} {m' : Mem}
    (hm : ∀ i < (s.num src).top, (m' ((s.num dst).limbs + i) : ℕ) = s.mem ((s.num src).limbs + i)) :
    ({ s with mem := m', num := update s.num dst { s.num dst with top := (s.num src).top, neg := (s.num src).neg } } : St) =
      settop { s with mem := m' } dst (s.num src).top (s.num src).neg := by
  have hsrc := hv.num src
  have htrim : trim m' (s.num dst).limbs (s.num src).top = (s.num src).top := trim_eq fun htop => by
    rw [hm _ (by omega)]
    exact hsrc.lead htop
  have hneg : (decide ((s.num src).top ≠ 0) && (s.num src).neg) = (s.num src).neg := by
    by_cases htop : (s.num src).top = 0
    · have : (s.num src).neg ≠ true := fun h => hsrc.sign h htop
      simp [htop, this]
    · simp [htop]
  unfold settop
  dsimp only
  rw [htrim, hneg]

theorem bnCopy_spec (al : Allocator) (hv : Valid s) (dst src : Name) :
    ∃ ok s', bnCopy al s dst src = (ok, s') ∧ Ends al s dst (int s src) False ok s' := by
  unfold bnCopy
  by_cases hself : dst = src
  · rw [if_pos hself]
    exact ⟨true, s, rfl, Sets.ends ⟨hv, by rw [hself], fun k _ => .refl s k, le_refl _⟩⟩
  · rw [if_neg hself]
    obtain ⟨ok, t, hrun, hexp⟩ := expand_spec al hv dst (s.num src).top
    have hmax : bnMaxlimbs < (s.num src).top → False := fun h => by
      have := hv.top_le src
      omega
    rw [hrun]
    cases ok with
    | false => exact ⟨false, t, rfl, hexp.stops hmax⟩
    | true =>
      refine ⟨true, _, rfl, hexp.goes ?_⟩
      have hroom := hexp.room rfl
      have hsrc := hexp.keeps.same src
      have hvt := hexp.keeps.valid
      rw [← hsrc.top] at hroom
      have hapart : Apart (t.num dst).limbs (t.num src).top (t.num src).limbs (t.num src).top := by
        by_cases hzero : (t.num src).top = 0
        · rw [hzero]
          exact .inr (.inl (le_refl _))
        · refine .inl (hvt.apart dst src hself fun hnull => ?_)
          have := (hvt.num dst).none hnull
          omega
      obtain ⟨hlimbs, honly⟩ := copyLimbs_limbs (m := t.mem) hapart
      have hsets := hvt.settop (honly.mono hroom) hroom (t.num src).neg
      rw [(copyLimbs_spec hapart).1, ← copied_eq hvt hlimbs] at hsets
      rw [← hsrc.int]
      exact hsets

theorem bnSetWord_spec (al : Allocator) (hv : Valid s) (a : Name) {w : ℕ} (hw : w < 2 ^ 32) :
    ∃ ok s', bnSetWord al s a w = (ok, s') ∧ Ends al s a w False ok s' := by
  unfold bnSetWord
  obtain ⟨ok, t, hrun, hexp⟩ := expand_spec al hv a 2
  have hmax : bnMaxlimbs < 2 → False := by decide
  rw [hrun]
  cases ok with
  | false => exact ⟨false, t, rfl, hexp.stops hmax⟩
  | true =>
    refine ⟨true, _, rfl, hexp.goes ?_⟩
    have hroom := hexp.room rfl
    have honly : Only (t.num a).limbs 2 t.mem
        (put (put t.mem ((t.num a).limbs + 0) (w &&& limbMask)) ((t.num a).limbs + 1) (w >>> limbBits)) :=
      (Only.put (by omega)).trans (.put (by omega))
    have hsets := hexp.keeps.valid.settop (honly.mono hroom) hroom false
    have hval : val (put (put t.mem ((t.num a).limbs + 0) (w &&& limbMask)) ((t.num a).limbs + 1) (w >>> limbBits))
        (t.num a).limbs 2 = w := by
      have hhigh : w / radix < radix := by
        unfold radix
        omega
      rw [val_put, val_put, val_zero, and_limbMask, shiftRight_limbBits, Nat.mod_mod, Nat.mod_eq_of_lt hhigh, Nat.pow_zero,
        Nat.pow_one, Nat.mul_one, Nat.zero_add, Nat.mod_add_div']
    rw [hval] at hsets
    exact hsets

end

end DiscoBSD.Bn
