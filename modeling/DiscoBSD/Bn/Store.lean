import DiscoBSD.Bn.Storage
import Mathlib.Data.Int.Order.Basic

/-!
# Storing a result

**What has been computed into the storage of a number becomes its value**, in canonical form, and no other number
changes.
-/

set_option autoImplicit false

namespace DiscoBSD.Bn

open Lib
open Function (update)

/-- The number `r` stands for `x` now, and no other number has changed. -/
structure Sets (s s' : St) (r : Name) (x : ℤ) : Prop where
  valid : Valid s'
  result : int s' r = x
  others : ∀ k, k ≠ r → SameNum s s' k
  asked : s.asked ≤ s'.asked

section

variable {s s' s'' : St} {k r : Name} {n p : ℕ} {x : ℤ} {m' : Mem}

theorem Keeps.sets (h₁ : Keeps s s') (h₂ : Sets s' s'' r x) : Sets s s'' r x :=
  ⟨h₂.valid, h₂.result, fun k hk => (h₁.same k).trans (h₂.others k hk), le_trans h₁.asked h₂.asked⟩

theorem trim_spec (m : Mem) (d : Ptr) (n : ℕ) :
    trim m d n ≤ n ∧ val m d (trim m d n) = val m d n ∧
      (trim m d n ≠ 0 → (m (d + (trim m d n - 1)) : ℕ) ≠ 0) := by
  induction n with
  | zero => exact ⟨le_refl _, rfl, fun h => absurd rfl h⟩
  | succ n ih =>
    obtain ⟨hle, hval, hlead⟩ := ih
    rw [trim]
    by_cases hzero : m (d + n) = 0
    · rw [if_pos hzero]
      refine ⟨Nat.le_succ_of_le hle, ?_, hlead⟩
      rw [hval, val_succ, hzero]
      simp
    · rw [if_neg hzero]
      exact ⟨le_refl _, rfl, fun _ h => hzero (Fin.ext h)⟩

/-- A magnitude is zero where no limb is in use. -/
theorem Proper.mag_eq_zero (h : Proper s k) : mag s k = 0 ↔ (s.num k).top = 0 := by
  constructor
  · intro hzero
    by_contra htop
    have hlead := h.lead htop
    obtain ⟨l, hl⟩ := Nat.exists_eq_succ_of_ne_zero htop
    rw [hl, Nat.succ_sub_one] at hlead
    have hle : radix ^ l ≤ mag s k := by
      rw [mag, hl]
      exact pow_le_value hlead
    have : 0 < radix ^ l := Nat.pow_pos radix_pos
    omega
  · intro htop
    rw [mag, htop, val_zero]

theorem signed_and {neg : Bool} {n : ℕ} {b : Bool} (hb : b = decide (n ≠ 0)) : signed (b && neg) n = signed neg n := by
  cases neg with
  | false => rw [Bool.and_false]
  | true =>
    rw [Bool.and_true, hb]
    by_cases hn : n = 0
    · rw [hn]
      rfl
    · rw [decide_eq_true hn]

/-- Nothing but one number's storage has been written. -/
theorem Valid.settop (hv : Valid s) (hm : Only (s.num r).limbs (s.num r).dmax s.mem m') (hn : n ≤ (s.num r).dmax)
    (neg : Bool) :
    Sets s (settop { s with mem := m' } r n neg) r (signed neg (val m' (s.num r).limbs n)) := by
  obtain ⟨s', hs'⟩ : ∃ s', s' = Bn.settop { s with mem := m' } r n neg := ⟨_, rfl⟩
  obtain ⟨hle, hval, hlead⟩ := trim_spec m' (s.num r).limbs n
  obtain ⟨top, htop⟩ : ∃ top, top = trim m' (s.num r).limbs n := ⟨_, rfl⟩
  rw [← htop] at hle hval hlead
  rw [← hs']
  have hmem : s'.mem = m' := by rw [hs']; rfl
  have hctx : s'.ctx = s.ctx := by rw [hs']; rfl
  have hfresh : s'.fresh = s.fresh := by rw [hs']; rfl
  have hasked : s'.asked = s.asked := by rw [hs']; rfl
  have hr : s'.num r = { s.num r with top := top, neg := decide (top ≠ 0) && neg } := by
    rw [hs', htop]
    exact Function.update_self ..
  have hothers : ∀ k, k ≠ r → s'.num k = s.num k := by
    intro k hk
    rw [hs']
    exact Function.update_of_ne hk ..
  have hd : ∀ k, (s'.num k).d = (s.num k).d := by
    intro k
    by_cases hk : k = r
    · rw [hk, hr]
    · rw [hothers k hk]
  have hdmax : ∀ k, (s'.num k).dmax = (s.num k).dmax := by
    intro k
    by_cases hk : k = r
    · rw [hk, hr]
    · rw [hothers k hk]
  have hlimbs : ∀ k, k ≠ r → ∀ i : ℕ, m' ((s.num k).limbs + i) = s.mem ((s.num k).limbs + i) := by
    intro k hk i
    refine hm _ fun hw => ?_
    have hnull : (s.num r).d ≠ NULL := fun h => by
      have := (hv.num r).none h
      have := hw.2.2
      have := hw.2.1
      omega
    exact hv.apart r k (Ne.symm hk) hnull hw.1.symm
  have hsame : ∀ k, k ≠ r → SameNum s s' k := by
    intro k hk
    refine ⟨by rw [hothers k hk], by rw [hothers k hk], fun i _ => ?_⟩
    rw [hmem, hothers k hk]
    exact hlimbs k hk i
  have hmag : mag s' r = val m' (s.num r).limbs n := by
    rw [mag, hmem, hr, ← hval]
    rfl
  have hproper : ∀ k, Proper s' k := by
    intro k
    have hk := hv.num k
    by_cases hkr : k = r
    · subst hkr
      refine ⟨?_, hdmax k ▸ hk.limit, ?_, ?_, ?_, ?_⟩
      · rw [hr]
        exact hle.trans hn
      · rw [hr, hmem]
        exact hlead
      · rw [hr]
        intro h
        simpa using (Bool.and_eq_true_iff.mp h).1
      · rw [hd, hdmax]
        exact hk.none
      · rw [hd, hfresh]
        exact hk.owned
    · have ho := hothers k hkr
      refine ⟨ho ▸ hk.fits, ho ▸ hk.limit, ?_, ho ▸ hk.sign, ho ▸ hk.none, by rw [ho, hfresh]; exact hk.owned⟩
      rw [ho, hmem, hlimbs k hkr]
      exact hk.lead
  have hloose : ∀ q, Loose s q → Loose s' q := fun q hq => ⟨hfresh ▸ hq.fresh, hq.notNull, fun k => by
    rw [hd]
    exact hq.apart k⟩
  have hvalid : Valid s' := by
    refine ⟨hproper, fun k l hne hnull => ?_, fun c hc => ?_, fun c hc => ?_, hfresh ▸ hv.fresh⟩
    · rw [hd] at hnull
      rw [hd, hd]
      exact hv.apart k l hne hnull
    · rw [hctx] at hc ⊢
      exact hloose _ (hv.ctx c hc)
    · rw [hctx] at hc ⊢
      exact hv.empty c hc
  refine ⟨hvalid, ?_, hsame, by rw [hasked]⟩
  have hzero := (hproper r).mag_eq_zero
  have hneg : (s'.num r).neg = (decide (mag s' r ≠ 0) && neg) := by
    rw [hr]
    dsimp only
    congr 1
    have htop' : (s'.num r).top = top := by rw [hr]
    rw [htop'] at hzero
    simp only [ne_eq, hzero]
  rw [int, hneg, signed_and rfl, hmag]

/-- To become zero is to keep none of the limbs. -/
theorem setzero_eq (s : St) (r : Name) : setzero s r = settop { s with mem := s.mem } r 0 false := rfl

theorem Valid.setzero (hv : Valid s) (r : Name) : Sets s (setzero s r) r 0 := by
  rw [setzero_eq]
  exact hv.settop (.refl _ _ _) (Nat.zero_le _) false

/-- The limbs of a destination with room lie where those of an operand do, or elsewhere. -/
theorem Valid.aligned (hv : Valid s) (hr : 0 < (s.num r).dmax) (k : Name) : Aligned (s.num r).limbs (s.num k).limbs := by
  by_cases hk : r = k
  · exact .inl (by rw [hk])
  · refine .inr (hv.apart r k hk fun hnull => ?_)
    have := (hv.num r).none hnull
    omega

theorem copyLimbs_limbs {m : Mem} {dst src : Ptr} (hapart : Apart dst n src n) :
    (∀ i < n, (copyLimbs m dst src n (dst + i) : ℕ) = m (src + i)) ∧ Only dst n m (copyLimbs m dst src n) := by
  refine countUp_inv (P := fun k (y : Mem) => (∀ i < k, (y (dst + i) : ℕ) = m (src + i)) ∧ Only dst k m y)
    ⟨fun i hi => by omega, .refl _ 0 m⟩ ?_
  rintro k hk y ⟨hdone, honly⟩
  rw [Nat.zero_add, hapart.read (honly.mono (by omega)) hk]
  refine ⟨fun i hi => ?_, honly.step _⟩
  by_cases hik : i = k
  · rw [hik, put_same, Nat.mod_eq_of_lt (limb_lt m _)]
  · rw [put_of_ne (by rw [Ne, add_inj]; omega)]
    exact hdone i (by omega)

theorem copyLimbs_spec {m : Mem} {dst src : Ptr} (hapart : Apart dst n src n) :
    val (copyLimbs m dst src n) dst n = val m src n ∧ Only dst n m (copyLimbs m dst src n) := by
  obtain ⟨hlimbs, honly⟩ := copyLimbs_limbs (m := m) hapart
  exact ⟨value_congr hlimbs, honly⟩

/-! ## Scratch -/

/-- What nobody's storage has in it may be written at will. -/
theorem Valid.scratchWrite (hv : Valid s) (hp : Loose s p) (hm : ∀ x : Ptr, x.region ≠ p → m' x = s.mem x) :
    Keeps s { s with mem := m' } ∧ Loose { s with mem := m' } p := by
  have hlimbs : ∀ k, ∀ i : ℕ, m' ((s.num k).limbs + i) = s.mem ((s.num k).limbs + i) := fun k i => hm _ (hp.apart k)
  have hproper : ∀ k, Proper { s with mem := m' } k := by
    intro k
    have hk := hv.num k
    have hlead := hk.lead
    rw [← hlimbs] at hlead
    exact ⟨hk.fits, hk.limit, hlead, hk.sign, hk.none, hk.owned⟩
  have hloose : ∀ q, Loose s q → Loose { s with mem := m' } q := fun q hq => ⟨hq.fresh, hq.notNull, hq.apart⟩
  have hvalid : Valid { s with mem := m' } :=
    ⟨hproper, hv.apart, fun c hc => hloose _ (hv.ctx c hc), hv.empty, hv.fresh⟩
  exact ⟨⟨hvalid, fun k => ⟨rfl, rfl, fun i _ => hlimbs k i⟩, le_refl _⟩, hloose p hp⟩

/-- To store a result is to leave scratch alone. -/
theorem Loose.settop (hp : Loose s p) (hm : Only (s.num r).limbs (s.num r).dmax s.mem m') (n : ℕ) (neg : Bool) :
    Loose (Bn.settop { s with mem := m' } r n neg) p ∧
      ∀ i, (Bn.settop { s with mem := m' } r n neg).mem ⟨p, i⟩ = s.mem ⟨p, i⟩ := by
  refine ⟨⟨hp.fresh, hp.notNull, fun k => ?_⟩, fun i => hm _ fun hw => hp.apart r hw.1.symm⟩
  by_cases hk : k = r
  · have hr : (Bn.settop { s with mem := m' } r n neg).num r =
        { s.num r with
          top := trim m' (s.num r).limbs n
          neg := decide (trim m' (s.num r).limbs n ≠ 0) && neg } := Function.update_self ..
    rw [hk, hr]
    exact hp.apart r
  · have ho : (Bn.settop { s with mem := m' } r n neg).num k = s.num k := Function.update_of_ne hk ..
    rw [ho]
    exact hp.apart k

theorem Loose.copyLimbs (hp : Loose s p) (r : Name) (o : ℕ) (hn : n ≤ (s.num r).dmax) :
    val (Bn.copyLimbs s.mem (s.num r).limbs ⟨p, o⟩ n) (s.num r).limbs n = val s.mem ⟨p, o⟩ n ∧
      Only (s.num r).limbs (s.num r).dmax s.mem (Bn.copyLimbs s.mem (s.num r).limbs ⟨p, o⟩ n) := by
  have hapart : Apart (s.num r).limbs n ⟨p, o⟩ n := .inl (hp.apart r)
  obtain ⟨hval, honly⟩ := copyLimbs_spec (m := s.mem) hapart
  exact ⟨hval, honly.mono hn⟩

/-- A result that lies in scratch becomes the value of a number. -/
theorem Valid.copied (hv : Valid s) (hp : Loose s p) (o : ℕ) (hn : n ≤ (s.num r).dmax) (neg : Bool) :
    Sets s (Bn.settop { s with mem := Bn.copyLimbs s.mem (s.num r).limbs ⟨p, o⟩ n } r n neg) r
      (signed neg (val s.mem ⟨p, o⟩ n)) := by
  obtain ⟨hval, honly⟩ := hp.copyLimbs r o hn
  exact hval ▸ hv.settop honly hn neg

end

end DiscoBSD.Bn
