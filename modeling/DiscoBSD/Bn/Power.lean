import DiscoBSD.Bn.Shifts
import Mathlib.Algebra.Order.Ring.Int
import Mathlib.Logic.Equiv.Basic

/-!
# Exponentiation

The power is formed in a number of its own, from the top bit of the exponent down, and **only the finished power gets to
the destination**, which may be the base or the exponent.
-/

set_option autoImplicit false

namespace DiscoBSD.Bn

open Lib
open Function (update)

section

variable {al : Allocator} {s s' : St} {r a p : Name} {n : ℕ}

/-! ## The loop -/

/-- A number that is large already does not get small again. -/
theorem large_pow {x : ℤ} {i j : ℕ} (hle : i ≤ j) (h : large ≤ (x ^ i).natAbs) : large ≤ (x ^ j).natAbs := by
  have hlarge : 1 < large := Nat.one_lt_pow (by decide) (by decide)
  rw [Int.natAbs_pow] at h ⊢
  rcases Nat.eq_zero_or_pos x.natAbs with hzero | hpos
  · have hone : x.natAbs ^ i ≤ 1 := by
      rw [hzero]
      exact pow_le_one₀ (Nat.zero_le 0) (Nat.zero_le 1)
    omega
  · exact h.trans (Nat.pow_le_pow_right hpos hle)

/-- How the loop ends, or a part of it. -/
structure Raised (al : Allocator) (s : St) (x : ℤ) (ok : Bool) (s' : St) : Prop where
  valid : Valid s'
  others : ∀ k, k ≠ .tmp → SameNum s s' k
  asked : s.asked ≤ s'.asked
  done : ok = true → int s' .tmp = x
  why : ok = false → Denied al s s' ∨ large ≤ x.natAbs

theorem Ends.raised {x y : ℤ} {ok : Bool} (h : Ends al s .tmp x (large ≤ x.natAbs) ok s')
    (hdone : ok = true → x = y) (hlarge : ok = false → large ≤ x.natAbs → large ≤ y.natAbs) : Raised al s y ok s' := by
  cases ok with
  | false =>
    have hkeeps := h.kept rfl
    exact ⟨hkeeps.valid, fun k _ => hkeeps.same k, hkeeps.asked, fun h => absurd h (by decide),
      fun _ => (h.why rfl).imp_right (hlarge rfl)⟩
  | true =>
    have hsets := h.done rfl
    exact ⟨hsets.valid, fun k hk => hsets.others k hk, hsets.asked, fun _ => hsets.result.trans (hdone rfl),
      fun h => absurd h (by decide)⟩

theorem Raised.trans {x y : ℤ} {ok : Bool} {t : St} (h₁ : Raised al s x true t) (h₂ : Raised al t y ok s') :
    Raised al s y ok s' :=
  ⟨h₂.valid, fun k hk => (h₁.others k hk).trans (h₂.others k hk), h₁.asked.trans h₂.asked, h₂.done,
    fun hok => (h₂.why hok).imp_left fun hd => hd.mono h₁.asked (le_refl _)⟩

/-- The power so far is that of the upper bits of the exponent. -/
theorem expLoop_spec (al : Allocator) (hv : Valid s) (ha : a ≠ .tmp) (hp : p ≠ .tmp) (ctx : Option ℕ)
    (htmp : int s .tmp = int s a ^ (mag s p / 2 ^ n)) :
    ∃ ok s', expLoop al a p ctx n s = (ok, s') ∧ Raised al s (int s a ^ mag s p) ok s' := by
  induction n generalizing s with
  | zero =>
    rw [Nat.pow_zero, Nat.div_one] at htmp
    exact ⟨true, s, rfl, hv, fun k _ => .refl s k, le_refl _, fun _ => htmp, fun h => absurd h (by decide)⟩
  | succ n ih =>
    have hhalf : mag s p / 2 ^ (n + 1) = mag s p / 2 ^ n / 2 := by rw [Nat.pow_succ, Nat.div_div_eq_div_mul]
    have hupper : mag s p / 2 ^ n ≤ mag s p := Nat.div_le_self ..
    obtain ⟨x, hx⟩ : ∃ x, x = mag s p / 2 ^ n := ⟨_, rfl⟩
    rw [hhalf, ← hx] at htmp
    rw [← hx] at hupper
    have hsquare : int s .tmp * int s .tmp = int s a ^ (2 * (x / 2)) := by
      rw [htmp, ← pow_add, ← two_mul]
    obtain ⟨ok, t, hrun, hends⟩ := bnMul_spec al hv .tmp .tmp .tmp ctx
    rw [hsquare] at hends
    unfold expLoop
    rw [hrun]
    cases ok with
    | false =>
      exact ⟨false, t, rfl, hends.raised (fun h => absurd h (by decide)) fun _ => large_pow (by omega)⟩
    | true =>
      have hfirst : Raised al s (int s a ^ (2 * (x / 2))) true t := hends.raised (fun _ => rfl) fun _ h => h
      have hat := (hfirst.others a ha).int
      have hpt := (hfirst.others p hp).mag
      dsimp only
      rw [bnIsBitSet_spec, hpt, ← hx]
      by_cases hbit : x % 2 = 1
      · rw [decide_eq_true hbit, if_pos rfl]
        have hmul : int t .tmp * int t a = int s a ^ x := by
          rw [hfirst.done rfl, hat, ← pow_succ]
          congr 1
          omega
        obtain ⟨ok, t', hrun, hends⟩ := bnMul_spec al hfirst.valid .tmp .tmp a ctx
        rw [hmul] at hends
        rw [hrun]
        cases ok with
        | false =>
          exact ⟨false, t', rfl, hfirst.trans (hends.raised (fun h => absurd h (by decide)) fun _ => large_pow hupper)⟩
        | true =>
          have hsecond : Raised al s (int s a ^ x) true t' := hfirst.trans (hends.raised (fun _ => rfl) fun _ h => h)
          have hat' := (hsecond.others a ha).int
          have hpt' := (hsecond.others p hp).mag
          obtain ⟨ok, s', hrun, hraised⟩ := ih hsecond.valid (by rw [hsecond.done rfl, hat', hpt', hx])
          rw [hat', hpt'] at hraised
          exact ⟨ok, s', hrun, hsecond.trans hraised⟩
      · rw [decide_eq_false hbit, if_neg (by decide)]
        have heven : 2 * (x / 2) = x := by omega
        obtain ⟨ok, s', hrun, hraised⟩ := ih hfirst.valid (by rw [hfirst.done rfl, hat, hpt, heven, hx])
        rw [hat, hpt] at hraised
        exact ⟨ok, s', hrun, hfirst.trans hraised⟩

/-! ## The number that holds the power -/

/-- A number that has no storage yet. -/
theorem Keeps.setNew (h : Keeps s s') : Sets s { s' with num := update s'.num .tmp ⟨NULL, 0, 0, false⟩ } .tmp 0 := by
  obtain ⟨t, ht⟩ : ∃ t : St, t = { s' with num := update s'.num .tmp ⟨NULL, 0, 0, false⟩ } := ⟨_, rfl⟩
  rw [← ht]
  have hmem : t.mem = s'.mem := by rw [ht]
  have hctx : t.ctx = s'.ctx := by rw [ht]
  have hfresh : t.fresh = s'.fresh := by rw [ht]
  have hasked : t.asked = s'.asked := by rw [ht]
  have htmp : t.num .tmp = ⟨NULL, 0, 0, false⟩ := by
    rw [ht]
    exact Function.update_self Name.tmp _ s'.num
  have hothers : ∀ k, k ≠ .tmp → t.num k = s'.num k := by
    intro k hk
    rw [ht]
    exact Function.update_of_ne hk ..
  have hv := h.valid
  have hproper : ∀ k, Proper t k := by
    intro k
    by_cases hk : k = .tmp
    · rw [hk]
      have htop : (t.num .tmp).top = 0 := by rw [htmp]
      have hneg : (t.num .tmp).neg ≠ true := by
        rw [htmp]
        exact Bool.false_ne_true
      have hdmax : (t.num .tmp).dmax = 0 := by rw [htmp]
      have hd : (t.num .tmp).d = NULL := by rw [htmp]
      refine ⟨by omega, by omega, fun h => absurd htop h, fun h => absurd h hneg, fun _ => hdmax, ?_⟩
      rw [hd, hfresh]
      exact hv.fresh
    · have hk' := hv.num k
      have ho := hothers k hk
      exact ⟨ho ▸ hk'.fits, ho ▸ hk'.limit, by rw [ho, hmem]; exact hk'.lead, ho ▸ hk'.sign, ho ▸ hk'.none,
        by rw [ho, hfresh]; exact hk'.owned⟩
  have hvalid : Valid t := by
    refine ⟨hproper, fun k l hne hnull => ?_, fun c hc => ?_, fun c hc => ?_, by rw [hfresh]; exact hv.fresh⟩
    · have hk : k ≠ .tmp := fun hk => hnull (by rw [hk, htmp])
      rw [hothers k hk] at hnull ⊢
      by_cases hl : l = .tmp
      · rw [hl, htmp]
        exact hnull
      · rw [hothers l hl]
        exact hv.apart k l hne hnull
    · rw [hctx] at hc ⊢
      have hl := hv.ctx c hc
      refine ⟨by rw [hfresh]; exact hl.fresh, hc, fun k => ?_⟩
      by_cases hk : k = .tmp
      · rw [hk, htmp]
        exact hc.symm
      · rw [hothers k hk]
        exact hl.apart k
    · rw [hctx] at hc ⊢
      exact hv.empty c hc
  refine ⟨hvalid, ?_, fun k hk => (h.same k).trans ⟨by rw [hothers k hk], by rw [hothers k hk], fun i _ => ?_⟩, ?_⟩
  · rw [int, mag, htmp]
    rfl
  · rw [hmem, hothers k hk]
  · rw [hasked]
    exact h.asked

theorem bnNew_spec (al : Allocator) (hv : Valid s) : ∃ ok s', bnNew al s = (ok, s') ∧ Ends al s .tmp 0 False ok s' := by
  unfold bnNew
  rcases malloc_spec al hv.fresh with ⟨t, hrun, hnot⟩ | ⟨t, hrun, -, hmoved⟩
  · obtain ⟨hkeeps, -, hdenied⟩ := hnot.keeps al hv
    rw [hrun]
    exact ⟨false, t, rfl, hkeeps.ends (.inl hdenied)⟩
  · have hctx : ∀ c, t.ctx c = s.ctx c ∨ (t.ctx c).buf = s.fresh := fun c => .inl (by rw [hmoved.ctx])
    obtain ⟨hkeeps, -, -⟩ := hmoved.scratch hv (.inl rfl) hctx
    rw [hrun]
    exact ⟨true, _, rfl, hkeeps.setNew.ends⟩

/-- `BN_dup` makes a copy. -/
theorem bnDup_spec (al : Allocator) (hv : Valid s) (ha : a ≠ .tmp) :
    ∃ ok s', bnDup al s a = (ok, s') ∧ Raised al s (int s a) ok s' ∧ (ok = false → Denied al s s') := by
  unfold bnDup
  obtain ⟨ok, t, hrun, hnew⟩ := bnNew_spec al hv
  rw [hrun]
  cases ok with
  | false =>
    have hkeeps := hnew.kept rfl
    have hdenied := (hnew.why rfl).resolve_right id
    exact ⟨false, t, rfl, ⟨hkeeps.valid, fun k _ => hkeeps.same k, hkeeps.asked, fun h => absurd h (by decide),
      fun _ => .inl hdenied⟩, fun _ => hdenied⟩
  | true =>
    have hsets := hnew.done rfl
    obtain ⟨ok, s', hrun, hcopy⟩ := bnCopy_spec al hsets.valid .tmp a
    rw [(hsets.others a ha).int] at hcopy
    cases ok with
    | false =>
      have hkeeps := hcopy.kept rfl
      have hdenied := ((hcopy.why rfl).resolve_right id).mono hsets.asked (le_refl _)
      exact ⟨false, s', hrun, ⟨hkeeps.valid, fun k hk => (hsets.others k hk).trans (hkeeps.same k), hsets.asked.trans hkeeps.asked,
        fun h => absurd h (by decide), fun _ => .inl hdenied⟩, fun _ => hdenied⟩
    | true =>
      have hdone := hcopy.done rfl
      exact ⟨true, s', hrun, ⟨hdone.valid, fun k hk => (hsets.others k hk).trans (hdone.others k hk),
        hsets.asked.trans hdone.asked, fun _ => hdone.result, fun h => absurd h (by decide)⟩, fun h => absurd h (by decide)⟩

/-! ## The destination -/

/-- Names after the exchange, as they were before. -/
theorem swap_num (hr : r ≠ .tmp) (k : Name) : (swap s r .tmp).num k = s.num (Equiv.swap r .tmp k) := by
  rw [Equiv.swap_apply_def, swap]
  dsimp only
  by_cases htmp : k = .tmp
  · rw [htmp, Function.update_self, if_neg hr.symm, if_pos rfl]
  · rw [Function.update_of_ne htmp, if_neg htmp]
    by_cases hk : k = r
    · rw [hk, Function.update_self, if_pos rfl]
    · rw [Function.update_of_ne hk, if_neg hk]

/-- The storage of the one is that of the other now. -/
theorem Valid.swap (hv : Valid s) (hr : r ≠ .tmp) : Valid (Bn.swap s r .tmp) := by
  have hnum := fun k => swap_num (s := s) hr k
  refine ⟨fun k => ?_, fun k l hne hnull => ?_, fun c hc => ?_, hv.empty, hv.fresh⟩
  · have hk := hv.num (Equiv.swap r .tmp k)
    exact ⟨hnum k ▸ hk.fits, hnum k ▸ hk.limit, hnum k ▸ hk.lead, hnum k ▸ hk.sign, hnum k ▸ hk.none, hnum k ▸ hk.owned⟩
  · rw [hnum] at hnull ⊢
    rw [hnum]
    exact hv.apart _ _ (fun h => hne ((Equiv.swap r .tmp).injective h)) hnull
  · have hl := hv.ctx c hc
    exact ⟨hl.fresh, hc, fun k => hnum k ▸ hl.apart _⟩

theorem swap_int (hr : r ≠ .tmp) : int (swap s r .tmp) r = int s .tmp := by
  rw [int, int, mag, mag, swap_num hr, Equiv.swap_apply_left]
  rfl

theorem swap_same (hr : r ≠ .tmp) {k : Name} (hk : k ≠ r) (htmp : k ≠ .tmp) : SameNum s (swap s r .tmp) k := by
  have hnum := swap_num (s := s) hr k
  rw [Equiv.swap_apply_of_ne_of_ne hk htmp] at hnum
  exact ⟨by rw [hnum], by rw [hnum], fun i _ => by rw [hnum]; rfl⟩

/-- How `BN_exp` ends: no number of the caller but the destination has changed, and it only if the call succeeds. -/
structure Powered (al : Allocator) (s : St) (r : Name) (x : ℤ) (refused : Prop) (ok : Bool) (s' : St) : Prop where
  valid : Valid s'
  done : ok = true → int s' r = x
  others : ∀ k, k ≠ .tmp → ok = true → k ≠ r → SameNum s s' k
  kept : ∀ k, k ≠ .tmp → ok = false → SameNum s s' k
  asked : s.asked ≤ s'.asked
  why : ok = false → Denied al s s' ∨ refused ∨ large ≤ x.natAbs
  refuses : refused → ok = false

/-- `BN_exp` computes the power. -/
theorem bnExp_spec (al : Allocator) (hv : Valid s) (r a p : Name) (hr : r ≠ .tmp) (ha : a ≠ .tmp) (hp : p ≠ .tmp) (ctx : Option ℕ) :
    ∃ ok s', bnExp al s r a p ctx = (ok, s') ∧
      Powered al s r (int s a ^ (int s p).toNat) (int s p < 0) ok s' := by
  unfold bnExp
  cases hneg : (s.num p).neg with
  | true =>
    have hrefused : int s p < 0 := by
      have := hv.neg_pos hneg
      rw [int, hneg, signed_neg]
      omega
    rw [if_pos rfl]
    exact ⟨false, s, rfl, hv, fun h => absurd h (by decide), fun _ _ h => absurd h (by decide), fun k _ _ => .refl s k, le_refl _,
      fun _ => .inr (.inl hrefused), fun _ => rfl⟩
  | false =>
    have hint : int s p = mag s p := by rw [int, hneg, signed_pos]
    have hnot : ¬(mag s p : ℤ) < 0 := by omega
    rw [if_neg (by decide), hint, Int.toNat_natCast]
    by_cases hzero : (s.num p).top = 0
    · rw [if_pos hzero, (hv.num p).mag_eq_zero.mpr hzero, pow_zero]
      obtain ⟨ok, s', hrun, hone⟩ := bnSetWord_spec al hv r (by decide : 1 < 2 ^ 32)
      refine ⟨ok, s', hrun, ?_⟩
      rw [(hv.num p).mag_eq_zero.mpr hzero] at hnot
      cases ok with
      | false =>
        have hkeeps := hone.kept rfl
        exact ⟨hkeeps.valid, fun h => absurd h (by decide), fun _ _ h => absurd h (by decide), fun k _ _ => hkeeps.same k,
          hkeeps.asked, fun _ => (hone.why rfl).imp_right fun h => h.elim, fun _ => rfl⟩
      | true =>
        have hsets := hone.done rfl
        exact ⟨hsets.valid, fun _ => hsets.result, fun k _ _ hk => hsets.others k hk, fun _ _ h => absurd h (by decide), hsets.asked,
          fun h => absurd h (by decide), fun h => absurd h hnot⟩
    · rw [if_neg hzero]
      obtain ⟨ok, t, hrun, hdup, hdenied⟩ := bnDup_spec al hv ha
      rw [hrun]
      cases ok with
      | false =>
        exact ⟨false, t, rfl, hdup.valid, fun h => absurd h (by decide), fun _ _ h => absurd h (by decide),
          fun k hk _ => hdup.others k hk, hdup.asked, fun _ => .inl (hdenied rfl), fun _ => rfl⟩
      | true =>
        have hat := (hdup.others a ha).int
        have hpt := hdup.others p hp
        have hmag : mag t p ≠ 0 := by
          rw [hpt.mag]
          exact fun h => hzero ((hv.num p).mag_eq_zero.mp h)
        obtain ⟨hlt, hle⟩ := bnNumBits_spec hdup.valid p
        have hone : mag t p / 2 ^ (bnNumBits t p - 1) = 1 := by
          refine Nat.div_eq_of_lt_le (by rw [Nat.one_mul]; exact hle hmag) ?_
          calc mag t p < 2 ^ bnNumBits t p := hlt
            _ ≤ 2 ^ (bnNumBits t p - 1 + 1) := Nat.pow_le_pow_right (by decide) (by omega)
            _ = (1 + 1) * 2 ^ (bnNumBits t p - 1) := by rw [Nat.pow_succ, Nat.mul_comm]
        obtain ⟨ok, s', hrun, hloop⟩ := expLoop_spec al hdup.valid ha hp ctx
          (by rw [hdup.done rfl, hat, hone, pow_one])
        rw [hat, hpt.mag] at hloop
        have hraised := hdup.trans hloop
        dsimp only
        rw [hrun]
        cases ok with
        | false =>
          exact ⟨false, s', rfl, hraised.valid, fun h => absurd h (by decide), fun _ _ h => absurd h (by decide),
            fun k hk _ => hraised.others k hk, hraised.asked, fun hok => (hraised.why hok).imp_right .inr, fun _ => rfl⟩
        | true =>
          refine ⟨true, _, rfl, hraised.valid.swap hr, fun _ => ?_, fun k hk _ hkr => ?_, fun _ _ h => absurd h (by decide),
            hraised.asked, fun h => absurd h (by decide), fun h => absurd h hnot⟩
          · rw [swap_int hr]
            exact hraised.done rfl
          · exact (hraised.others k hk).trans (swap_same hr hkr hk)

end

end DiscoBSD.Bn
