import DiscoBSD.Bn.Compare

/-!
# What the calls compute

**A call that succeeds sets its destination to the result**; one that fails changes no number, and fails because an
allocation was refused or because the result might pass the limit.
-/

set_option autoImplicit false

namespace DiscoBSD.Bn

open Lib
open Function (update)

/-- Magnitudes from here on may be too large. -/
def large : ℕ := radix ^ (bnMaxlimbs - 1)

/-- How a call with one destination ends. -/
structure Ends (al : Allocator) (s : St) (r : Name) (x : ℤ) (tooLarge : Prop) (ok : Bool) (s' : St) : Prop where
  done : ok = true → Sets s s' r x
  kept : ok = false → Keeps s s'
  why : ok = false → Denied al s s' ∨ tooLarge

section

variable {al : Allocator} {s s' s'' : St} {r a b : Name} {x : ℤ} {n : ℕ} {tooLarge : Prop}

theorem Sets.ends (h : Sets s s' r x) : Ends al s r x tooLarge true s' :=
  ⟨fun _ => h, fun h => absurd h (by decide), fun h => absurd h (by decide)⟩

theorem Keeps.ends (h : Keeps s s') (hwhy : Denied al s s' ∨ tooLarge) : Ends al s r x tooLarge false s' :=
  ⟨fun h => absurd h (by decide), fun _ => h, fun _ => hwhy⟩

/-- What came before has changed no number. -/
theorem Ends.after {t : St} {ok : Bool} (h : Ends al t r x tooLarge ok s') (hbefore : Keeps s t) : Ends al s r x tooLarge ok s' :=
  ⟨fun hok => hbefore.sets (h.done hok), fun hok => hbefore.trans (h.kept hok),
    fun hok => (h.why hok).imp_left fun hd => hd.mono hbefore.asked (le_refl _)⟩

theorem Valid.top_le (hv : Valid s) (a : Name) : (s.num a).top ≤ bnMaxlimbs := (hv.num a).fits.trans (hv.num a).limit

/-- A number of so many limbs is at least this large. -/
theorem Valid.pow_le_mag (hv : Valid s) (ha : (s.num a).top ≠ 0) : radix ^ ((s.num a).top - 1) ≤ mag s a := by
  have hlead := (hv.num a).lead ha
  obtain ⟨l, hl⟩ := Nat.exists_eq_succ_of_ne_zero ha
  rw [mag, hl]
  rw [hl, Nat.succ_sub_one] at hlead
  exact pow_le_value hlead

/-- A number that fills what there can be is large. -/
theorem Valid.large_le (hv : Valid s) (ha : bnMaxlimbs ≤ (s.num a).top) : large ≤ mag s a := by
  have hmax : bnMaxlimbs ≠ 0 := by decide
  calc large ≤ radix ^ ((s.num a).top - 1) := Nat.pow_le_pow_right radix_pos (by omega)
    _ ≤ mag s a := hv.pow_le_mag (by omega)

theorem natAbs_int (s : St) (k : Name) : (int s k).natAbs = mag s k := by
  rw [int]
  cases (s.num k).neg with
  | false => exact Int.natAbs_natCast _
  | true =>
    rw [signed_neg, Int.natAbs_neg]
    exact Int.natAbs_natCast _

theorem signed_zero (neg : Bool) : signed neg 0 = 0 := by cases neg <;> rfl

/-- A number that is not larger has no more limbs. -/
theorem Valid.top_le_top (hv : Valid s) (h : mag s a ≤ mag s b) : (s.num a).top ≤ (s.num b).top := by
  by_contra hlt
  have hlead := (hv.num a).lead (by omega)
  have := val_lt_of_length (b := (s.num b).limbs) hlead (Nat.lt_of_not_le hlt)
  exact Nat.not_le.mpr this h

/-! ## Addition and subtraction -/

theorem signed_sub_left {i j : Bool} {m n : ℕ} (hne : i ≠ j) (hle : m ≤ n) : signed j (n - m) = signed i m + signed j n := by
  cases i with
  | false =>
    cases j with
    | false => exact absurd rfl hne
    | true =>
      rw [signed_neg, signed_neg, signed_pos]
      omega
  | true =>
    cases j with
    | false =>
      rw [signed_pos, signed_pos, signed_neg]
      omega
    | true => exact absurd rfl hne

/-- The sum, with the sign that the caller gives to the second operand. -/
theorem addsub_spec (hv : Valid s) (r a b : Name) (bneg : Bool) (ha : (s.num a).top + 1 ≤ (s.num r).dmax)
    (hb : (s.num b).top + 1 ≤ (s.num r).dmax) :
    Sets s (addsub s r (s.num a).limbs (s.num a).top (s.num a).neg (s.num b).limbs (s.num b).top bneg) r
      (int s a + signed bneg (mag s b)) := by
  have hala := hv.aligned (by omega : 0 < (s.num r).dmax) a
  have halb := hv.aligned (by omega : 0 < (s.num r).dmax) b
  have hcmp := hv.mcmp a b
  unfold addsub
  dsimp only
  by_cases hneg : (s.num a).neg = bneg
  · rw [if_pos hneg]
    by_cases hge : (s.num a).top ≥ (s.num b).top
    · obtain ⟨hval, honly⟩ := madd_spec (m := s.mem) hge hala halb
      rw [if_pos hge]
      have hsets := hv.settop (honly.mono ha) ha (s.num a).neg
      rw [hval] at hsets
      have hresult : signed (s.num a).neg (mag s a + mag s b) = int s a + signed bneg (mag s b) := by
        rw [int, hneg]
        cases bneg with
        | false => rfl
        | true =>
          simp only [signed_neg]
          omega
      exact hresult ▸ hsets
    · obtain ⟨hval, honly⟩ := madd_spec (m := s.mem) (Nat.le_of_not_le hge) halb hala
      rw [if_neg hge]
      have hsets := hv.settop (honly.mono hb) hb (s.num a).neg
      rw [hval] at hsets
      have hresult : signed (s.num a).neg (mag s b + mag s a) = int s a + signed bneg (mag s b) := by
        rw [int, hneg]
        cases bneg with
        | false =>
          simp only [signed_pos]
          omega
        | true =>
          simp only [signed_neg]
          omega
      exact hresult ▸ hsets
  · rw [if_neg hneg, hcmp]
    rcases Nat.lt_trichotomy (mag s a) (mag s b) with hlt | heq | hgt
    · obtain ⟨hval, honly⟩ := msub_spec (m := s.mem) (hv.top_le_top (Nat.le_of_lt hlt)) halb hala (Nat.le_of_lt hlt)
      rw [sign_of_gt hlt, if_neg (by decide), if_neg (by decide)]
      have hsets := hv.settop (honly.mono (by omega)) (by omega : (s.num b).top ≤ (s.num r).dmax) bneg
      rw [Nat.eq_sub_of_add_eq hval] at hsets
      have hresult : signed bneg (mag s b - mag s a) = int s a + signed bneg (mag s b) := by
        rw [int]
        exact signed_sub_left hneg (Nat.le_of_lt hlt)
      exact hresult ▸ hsets
    · rw [heq, sub_self, Int.sign_zero, if_pos rfl]
      have hresult : int s a + signed bneg (mag s b) = 0 := by
        rw [int, ← signed_sub_left hneg (Nat.le_of_eq heq), heq, Nat.sub_self, signed_zero]
      exact hresult ▸ hv.setzero r
    · obtain ⟨hval, honly⟩ := msub_spec (m := s.mem) (hv.top_le_top (Nat.le_of_lt hgt)) hala halb (Nat.le_of_lt hgt)
      rw [sign_of_lt hgt, if_neg (by decide), if_pos (by decide)]
      have hsets := hv.settop (honly.mono (by omega)) (by omega : (s.num a).top ≤ (s.num r).dmax) (s.num a).neg
      rw [Nat.eq_sub_of_add_eq hval] at hsets
      have hresult : signed (s.num a).neg (mag s a - mag s b) = int s a + signed bneg (mag s b) := by
        rw [int, add_comm]
        exact signed_sub_left (Ne.symm hneg) (Nat.le_of_lt hgt)
      exact hresult ▸ hsets

theorem Expanded.stops {t : St} (h : Expanded al s r n false t) (hlarge : bnMaxlimbs < n → tooLarge) :
    Ends al s r x tooLarge false t := h.keeps.ends ((h.failed rfl).imp_right hlarge)

theorem Expanded.goes {t : St} (h : Expanded al s r n true t) (hdone : Sets t s' r x) : Ends al s r x tooLarge true s' :=
  (h.keeps.sets hdone).ends

/-- Room for a sum is refused only where an operand fills what there can be. -/
theorem Valid.large_of_room (hv : Valid s) (a b : Name)
    (h : bnMaxlimbs < (if (s.num a).top > (s.num b).top then (s.num a).top else (s.num b).top) + 1) :
    large ≤ mag s a ∨ large ≤ mag s b := by
  by_cases hgt : (s.num a).top > (s.num b).top
  · rw [if_pos hgt] at h
    exact .inl (hv.large_le (by omega))
  · rw [if_neg hgt] at h
    exact .inr (hv.large_le (by omega))

/-- The limbs that a sum may need. -/
theorem addsub_expanded {t : St} (r a b : Name) (bneg : Bool)
    (h : Expanded al s r ((if (s.num a).top > (s.num b).top then (s.num a).top else (s.num b).top) + 1) true t) :
    Sets t (addsub t r (t.num a).limbs (t.num a).top (t.num a).neg (t.num b).limbs (t.num b).top bneg) r
      (int s a + signed bneg (mag s b)) := by
  have hroom := h.room rfl
  have ha := h.keeps.same a
  have hb := h.keeps.same b
  rw [← ha.int, ← hb.mag]
  refine addsub_spec h.keeps.valid r a b bneg ?_ ?_
  · rw [ha.top]
    split at hroom <;> omega
  · rw [hb.top]
    split at hroom <;> omega

/-- `BN_add` computes the sum. -/
theorem bnAdd_spec (al : Allocator) (hv : Valid s) (r a b : Name) :
    ∃ ok s', bnAdd al s r a b = (ok, s') ∧
      Ends al s r (int s a + int s b) (large ≤ mag s a ∨ large ≤ mag s b) ok s' := by
  unfold bnAdd
  obtain ⟨ok, t, hrun, hexp⟩ :=
    expand_spec al hv r ((if (s.num a).top > (s.num b).top then (s.num a).top else (s.num b).top) + 1)
  dsimp only
  rw [hrun]
  cases ok with
  | false => exact ⟨false, t, rfl, hexp.stops (hv.large_of_room a b)⟩
  | true =>
    refine ⟨true, _, rfl, hexp.goes ?_⟩
    have hsets := addsub_expanded r a b (t.num b).neg hexp
    rwa [(hexp.keeps.same b).neg] at hsets ⊢

theorem signed_not (neg : Bool) (n : ℕ) : signed (!neg) n = -signed neg n := by
  cases neg with
  | false => rfl
  | true => exact (Int.neg_neg _).symm

/-- `BN_sub` computes the difference. -/
theorem bnSub_spec (al : Allocator) (hv : Valid s) (r a b : Name) :
    ∃ ok s', bnSub al s r a b = (ok, s') ∧
      Ends al s r (int s a - int s b) (large ≤ mag s a ∨ large ≤ mag s b) ok s' := by
  unfold bnSub
  obtain ⟨ok, t, hrun, hexp⟩ :=
    expand_spec al hv r ((if (s.num a).top > (s.num b).top then (s.num a).top else (s.num b).top) + 1)
  dsimp only
  rw [hrun]
  cases ok with
  | false => exact ⟨false, t, rfl, hexp.stops (hv.large_of_room a b)⟩
  | true =>
    refine ⟨true, _, rfl, hexp.goes ?_⟩
    have hsets := addsub_expanded r a b (!(t.num b).neg) hexp
    have hneg : signed (!(t.num b).neg) (mag s b) = -int s b := by
      rw [signed_not, (hexp.keeps.same b).neg, int]
    rwa [hneg, ← sub_eq_add_neg] at hsets

/-! ## Multiplication -/

/-- Words enough for two limit numbers are asked for only where the product is large. -/
theorem Valid.large_le_mul (hv : Valid s) (ha : (s.num a).top ≠ 0) (hb : (s.num b).top ≠ 0)
    (h : bnMaxlimbs < (s.num a).top + (s.num b).top) : large ≤ mag s a * mag s b := by
  calc large ≤ radix ^ ((s.num a).top - 1 + ((s.num b).top - 1)) := Nat.pow_le_pow_right radix_pos (by omega)
    _ = radix ^ ((s.num a).top - 1) * radix ^ ((s.num b).top - 1) := Nat.pow_add ..
    _ ≤ mag s a * mag s b := Nat.mul_le_mul (hv.pow_le_mag ha) (hv.pow_le_mag hb)

theorem mulSorted_spec (al : Allocator) (hv : Valid s) (r a b : Name) (neg : Bool) (ctx : Option ℕ) (ha : (s.num a).top ≠ 0)
    (hb : (s.num b).top ≠ 0) :
    ∃ ok s', mulSorted al s r (s.num a).limbs (s.num a).top (s.num b).limbs (s.num b).top neg ctx = (ok, s') ∧
      Ends al s r (signed neg (mag s a * mag s b)) (large ≤ mag s a * mag s b) ok s' := by
  have hlarge := hv.large_le_mul ha hb
  unfold mulSorted
  dsimp only
  obtain ⟨n, hn⟩ : ∃ n, n = (s.num a).top + (s.num b).top := ⟨_, rfl⟩
  rw [← hn] at hlarge ⊢
  by_cases hmax : n > bnMaxlimbs
  · rw [if_pos hmax]
    exact ⟨false, s, rfl, (Keeps.refl hv).ends (.inr (hlarge hmax))⟩
  · rw [if_neg hmax]
    by_cases halias : (s.num r).d ≠ NULL ∧ ((s.num r).limbs = (s.num a).limbs ∨ (s.num r).limbs = (s.num b).limbs)
    · rw [if_pos halias]
      rcases scratchGet_spec al (n := n) hv ctx (by omega) with ⟨t, hrun, hkeeps, hdenied⟩ | ⟨p, t, hrun, hkeeps, hp, hnum⟩
      · rw [hrun]
        exact ⟨false, t, rfl, hkeeps.ends (.inl hdenied)⟩
      · rw [hrun]
        dsimp only
        have hpa : Apart ⟨p, 0⟩ ((s.num a).top + (s.num b).top) (s.num a).limbs (s.num a).top :=
          .inl (hnum ▸ hp.apart a).symm
        have hpb : Apart ⟨p, 0⟩ ((s.num a).top + (s.num b).top) (s.num b).limbs (s.num b).top :=
          .inl (hnum ▸ hp.apart b).symm
        obtain ⟨hval, honly⟩ := mmul_spec (m := t.mem) hpa hpb
        rw [← hn] at hval honly
        generalize mmul t.mem ⟨p, 0⟩ (s.num a).limbs (s.num a).top (s.num b).limbs (s.num b).top = m' at hval honly ⊢
        obtain ⟨hkeeps', hp'⟩ := hkeeps.valid.scratchWrite hp fun x hx => honly x fun hw => hx hw.1
        have hmul : val m' ⟨p, 0⟩ n = mag s a * mag s b := by
          have hma := (hkeeps.same a).mag
          have hmb := (hkeeps.same b).mag
          rw [mag, hnum] at hma hmb
          rw [hval, hma, hmb]
        obtain ⟨ok, t', hrun', hexp⟩ := expand_spec al hkeeps'.valid r n
        rw [hrun']
        cases ok with
        | false => exact ⟨false, t', rfl, ((hexp.stops hlarge).after (hkeeps.trans hkeeps'))⟩
        | true =>
          obtain ⟨hp'', hsame⟩ := hexp.loose p hp'
          refine ⟨true, _, rfl, (hexp.goes ?_).after (hkeeps.trans hkeeps')⟩
          have hsets := hexp.keeps.valid.copied hp'' 0 (hexp.room rfl) neg
          have hval' : val t'.mem ⟨p, 0⟩ n = val m' ⟨p, 0⟩ n := val_congr fun i _ => hsame _
          rwa [hval', hmul] at hsets
    · rw [if_neg halias]
      have hapart : ∀ k, (s.num k).top ≠ 0 → (s.num k).limbs = (s.num a).limbs ∨ (s.num k).limbs = (s.num b).limbs → r ≠ k := by
        rintro k hk hlimbs rfl
        refine halias ⟨fun hnull => ?_, hlimbs⟩
        have := (hv.num r).none hnull
        have := (hv.num r).fits
        omega
      have hra := hapart a ha (.inl rfl)
      have hrb := hapart b hb (.inr rfl)
      obtain ⟨ok, t, hrun, hexp⟩ := expand_spec al hv r n
      rw [hrun]
      cases ok with
      | false => exact ⟨false, t, rfl, hexp.stops hlarge⟩
      | true =>
        refine ⟨true, _, rfl, hexp.goes ?_⟩
        have hroom := hexp.room rfl
        have hregion : ∀ k, r ≠ k → (t.num r).limbs.region ≠ (t.num k).limbs.region := fun k hk =>
          hexp.keeps.valid.apart r k hk fun hnull => by
            have := (hexp.keeps.valid.num r).none hnull
            omega
        have happart : Apart (t.num r).limbs ((t.num a).top + (t.num b).top) (t.num a).limbs (t.num a).top :=
          .inl (hregion a hra)
        have happart' : Apart (t.num r).limbs ((t.num a).top + (t.num b).top) (t.num b).limbs (t.num b).top :=
          .inl (hregion b hrb)
        obtain ⟨hval, honly⟩ := mmul_spec (m := t.mem) happart happart'
        rw [(hexp.keeps.same a).top, (hexp.keeps.same b).top, ← hn, hexp.others a hra.symm, hexp.others b hrb.symm] at hval honly
        have hsets := hexp.keeps.valid.settop (honly.mono hroom) hroom neg
        have hma := (hexp.keeps.same a).mag
        have hmb := (hexp.keeps.same b).mag
        rw [mag, hexp.others a hra.symm] at hma
        rw [mag, hexp.others b hrb.symm] at hmb
        rwa [hval, hma, hmb] at hsets

theorem signed_mul (i j : Bool) (m n : ℕ) : signed (i != j) (m * n) = signed i m * signed j n := by
  cases i <;> cases j <;> simp [signed]

/-- `BN_mul` computes the product. -/
theorem bnMul_spec (al : Allocator) (hv : Valid s) (r a b : Name) (ctx : Option ℕ) :
    ∃ ok s', bnMul al s r a b ctx = (ok, s') ∧
      Ends al s r (int s a * int s b) (large ≤ (int s a * int s b).natAbs) ok s' := by
  unfold bnMul mulraw
  dsimp only
  have hmul : (int s a * int s b).natAbs = mag s a * mag s b := by rw [Int.natAbs_mul, natAbs_int, natAbs_int]
  have hsigned : signed ((s.num a).neg != (s.num b).neg) (mag s a * mag s b) = int s a * int s b := signed_mul ..
  rw [hmul]
  by_cases hzero : (s.num a).top = 0 ∨ (s.num b).top = 0
  · rw [if_pos hzero]
    have hmag : mag s a * mag s b = 0 := by
      rcases hzero with h | h
      · rw [(hv.num a).mag_eq_zero.mpr h, Nat.zero_mul]
      · rw [(hv.num b).mag_eq_zero.mpr h, Nat.mul_zero]
    refine ⟨true, _, rfl, Sets.ends ?_⟩
    rw [← hsigned, hmag, signed_zero]
    exact hv.setzero r
  · rw [if_neg hzero]
    have ha : (s.num a).top ≠ 0 := fun h => hzero (.inl h)
    have hb : (s.num b).top ≠ 0 := fun h => hzero (.inr h)
    by_cases hlt : (s.num a).top < (s.num b).top
    · rw [if_pos hlt]
      have hspec := mulSorted_spec al hv r b a ((s.num a).neg != (s.num b).neg) ctx hb ha
      rwa [Nat.mul_comm, hsigned] at hspec
    · rw [if_neg hlt]
      have hspec := mulSorted_spec al hv r a b ((s.num a).neg != (s.num b).neg) ctx ha hb
      rwa [hsigned] at hspec

end

end DiscoBSD.Bn
