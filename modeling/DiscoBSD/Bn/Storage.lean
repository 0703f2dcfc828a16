import DiscoBSD.Bn.Arith
import DiscoBSD.Bn.Number

/-!
# Numbers in their storage

**Every number has storage of its own**, large enough for it, and is in canonical form: no leading zero limb, and no
negative zero. To extend the storage of a number, or that of a context, changes no number.
-/

set_option autoImplicit false

namespace DiscoBSD.Bn

open Lib
open Function (update)

/-- One number in its storage. -/
structure Proper (s : St) (k : Name) : Prop where
  fits : (s.num k).top ≤ (s.num k).dmax
  limit : (s.num k).dmax ≤ bnMaxlimbs
  lead : (s.num k).top ≠ 0 → (s.mem ((s.num k).limbs + ((s.num k).top - 1)) : ℕ) ≠ 0
  sign : (s.num k).neg = true → (s.num k).top ≠ 0
  none : (s.num k).d = NULL → (s.num k).dmax = 0
  owned : (s.num k).d < s.fresh

/-- Storage that no number has. -/
structure Loose (s : St) (p : ℕ) : Prop where
  fresh : p < s.fresh
  notNull : p ≠ NULL
  apart : ∀ k, (s.num k).d ≠ p

structure Valid (s : St) : Prop where
  num : ∀ k, Proper s k
  apart : ∀ k l, k ≠ l → (s.num k).d ≠ NULL → (s.num k).d ≠ (s.num l).d
  ctx : ∀ c, (s.ctx c).buf ≠ NULL → Loose s (s.ctx c).buf
  empty : ∀ c, (s.ctx c).buf = NULL → (s.ctx c).cap = 0
  fresh : 0 < s.fresh

theorem limbs_add (a : Bignum) (i : ℕ) : a.limbs + i = ⟨a.d, i⟩ := congrArg (Ptr.mk a.d) (Nat.zero_add i)

/-- The magnitude of a number. -/
def mag (s : St) (k : Name) : ℕ := val s.mem (s.num k).limbs (s.num k).top

def signed (neg : Bool) (n : ℕ) : ℤ := if neg then -n else n

/-- The integer that a number stands for. -/
def int (s : St) (k : Name) : ℤ := signed (s.num k).neg (mag s k)

/-- The number is as it was, wherever its limbs may lie now. -/
structure SameNum (s s' : St) (k : Name) : Prop where
  top : (s'.num k).top = (s.num k).top
  neg : (s'.num k).neg = (s.num k).neg
  limbs : ∀ i < (s.num k).top, s'.mem ((s'.num k).limbs + i) = s.mem ((s.num k).limbs + i)

/-- No number has changed. -/
structure Keeps (s s' : St) : Prop where
  valid : Valid s'
  same : ∀ k, SameNum s s' k
  asked : s.asked ≤ s'.asked

section

variable {s s' s'' : St} {k r : Name} {n p : ℕ}

theorem SameNum.mag (h : SameNum s s' k) : mag s' k = mag s k := by
  rw [Bn.mag, h.top]
  exact value_congr fun i hi => congrArg Fin.val (h.limbs i hi)

theorem SameNum.int (h : SameNum s s' k) : int s' k = int s k := by
  rw [Bn.int, h.neg, h.mag]
  rfl

theorem SameNum.trans (h₁ : SameNum s s' k) (h₂ : SameNum s' s'' k) : SameNum s s'' k :=
  ⟨h₂.top.trans h₁.top, h₂.neg.trans h₁.neg, fun i hi => (h₂.limbs i (by rwa [h₁.top])).trans (h₁.limbs i hi)⟩

theorem SameNum.refl (s : St) (k : Name) : SameNum s s k := ⟨rfl, rfl, fun _ _ => rfl⟩

theorem Keeps.refl (h : Valid s) : Keeps s s := ⟨h, fun k => .refl s k, le_refl _⟩

theorem Keeps.trans (h₁ : Keeps s s') (h₂ : Keeps s' s'') : Keeps s s'' :=
  ⟨h₂.valid, fun k => (h₁.same k).trans (h₂.same k), le_trans h₁.asked h₂.asked⟩

/-! ## The allocator -/

/-- An allocation has been refused. -/
def Denied (al : Allocator) (s s' : St) : Prop := ∃ i, s.asked ≤ i ∧ i < s'.asked ∧ al.answer i = .refused

theorem Denied.mono {al : Allocator} {t t' : St} (h : Denied al s s') (hs : t.asked ≤ s.asked)
    (hs' : s'.asked ≤ t'.asked) : Denied al t t' := by
  obtain ⟨i, hle, hlt, hi⟩ := h
  exact ⟨i, by omega, by omega, hi⟩

variable (al : Allocator)

/-- What storage is after an extension, at `p`, of what was at `old`. -/
structure Moved (s : St) (old n : ℕ) (p : ℕ) (s' : St) : Prop where
  num : s'.num = s.num
  ctx : s'.ctx = s.ctx
  fresh : s.fresh ≤ s'.fresh
  asked : s'.asked = s.asked + 1
  below : p < s'.fresh
  notNull : p ≠ NULL
  place : p = old ∨ s.fresh ≤ p
  limbs : old ≠ NULL → ∀ i < n, s'.mem ⟨p, i⟩ = s.mem ⟨old, i⟩
  frame : ∀ x : Ptr, x.region ≠ old ∨ old = NULL → x.region < s.fresh → s'.mem x = s.mem x

/-- No storage has been given. -/
structure NotGiven (al : Allocator) (s s' : St) : Prop where
  state : s' = { s with asked := s.asked + 1 }
  refused : al.answer s.asked = .refused

theorem malloc_spec (hf : 0 < s.fresh) :
    (∃ s', malloc al s = (none, s') ∧ NotGiven al s s') ∨ ∃ s', malloc al s = (some s.fresh, s') ∧ s'.mem = s.mem ∧
      Moved s NULL 0 s.fresh s' := by
  unfold malloc
  cases hans : al.answer s.asked with
  | refused => exact .inl ⟨_, rfl, rfl, hans⟩
  | inPlace =>
    exact .inr ⟨_, rfl, rfl, rfl, rfl, Nat.le_succ _, rfl, Nat.lt_succ_self _, hf.ne', .inr (le_refl _),
      fun h => absurd rfl h, fun _ _ _ => rfl⟩
  | moved =>
    exact .inr ⟨_, rfl, rfl, rfl, rfl, Nat.le_succ _, rfl, Nat.lt_succ_self _, hf.ne', .inr (le_refl _),
      fun h => absurd rfl h, fun _ _ _ => rfl⟩

theorem realloc_spec {old : ℕ} (hf : 0 < s.fresh) (hold : old < s.fresh) :
    (∃ s', realloc al s old n = (none, s') ∧ NotGiven al s s') ∨
    ∃ p s', realloc al s old n = (some p, s') ∧ Moved s old n p s' := by
  unfold realloc
  by_cases hnull : old = NULL
  · rw [if_pos hnull]
    rcases malloc_spec al hf with ⟨s', hrun, h⟩ | ⟨s', hrun, -, h⟩
    · exact .inl ⟨s', hrun, h⟩
    · refine .inr ⟨s.fresh, s', hrun, h.num, h.ctx, h.fresh, h.asked, h.below, h.notNull, .inr (le_refl _),
        fun h => absurd hnull h, fun x _ hx => h.frame x (.inr rfl) hx⟩
  · rw [if_neg hnull]
    cases hans : al.answer s.asked with
    | refused => exact .inl ⟨_, rfl, rfl, hans⟩
    | inPlace =>
      exact .inr ⟨old, _, rfl, rfl, rfl, le_refl _, rfl, hold, hnull, .inl rfl, fun _ _ _ => rfl, fun _ _ _ => rfl⟩
    | moved =>
      refine .inr ⟨s.fresh, _, rfl, rfl, rfl, Nat.le_succ _, rfl, Nat.lt_succ_self _, hf.ne', .inr (le_refl _),
        fun _ i hi => ?_, fun x hx hlt => ?_⟩
      · dsimp only
        rw [moveLimbs, if_pos rfl, if_pos hi]
      · dsimp only
        rw [moveLimbs, if_neg (by omega), if_neg (by rcases hx with h | h; exacts [h, absurd h hnull])]

/-! ## Room for a number -/

/-- Storage that no number has is left alone. -/
def KeepsLoose (s s' : St) : Prop := ∀ p, Loose s p → Loose s' p ∧ ∀ i, s'.mem ⟨p, i⟩ = s.mem ⟨p, i⟩

theorem KeepsLoose.trans (h₁ : KeepsLoose s s') (h₂ : KeepsLoose s' s'') : KeepsLoose s s'' := by
  intro p hp
  obtain ⟨hp', hmem⟩ := h₁ p hp
  obtain ⟨hp'', hmem'⟩ := h₂ p hp'
  exact ⟨hp'', fun i => (hmem' i).trans (hmem i)⟩

theorem KeepsLoose.refl (s : St) : KeepsLoose s s := fun _ hp => ⟨hp, fun _ => rfl⟩

structure Expanded (s : St) (r : Name) (n : ℕ) (ok : Bool) (s' : St) : Prop where
  keeps : Keeps s s'
  others : ∀ k, k ≠ r → s'.num k = s.num k
  loose : KeepsLoose s s'
  room : ok = true → n ≤ (s'.num r).dmax
  grows : (s.num r).dmax ≤ (s'.num r).dmax
  failed : ok = false → Denied al s s' ∨ bnMaxlimbs < n

theorem NotGiven.keeps (h : NotGiven al s s') (hv : Valid s) : Keeps s s' ∧ KeepsLoose s s' ∧ Denied al s s' := by
  rw [h.state]
  have hloose : ∀ p, Loose s p → Loose { s with asked := s.asked + 1 } p := fun p hp => ⟨hp.fresh, hp.notNull, hp.apart⟩
  refine ⟨⟨⟨fun k => ?_, hv.apart, fun c hc => hloose _ (hv.ctx c hc), hv.empty, hv.fresh⟩, fun k => ⟨rfl, rfl, fun _ _ => rfl⟩,
    Nat.le_succ _⟩, fun p hp => ⟨hloose p hp, fun _ => rfl⟩, ⟨s.asked, le_refl _, Nat.lt_succ_self _, h.refused⟩⟩
  have hk := hv.num k
  exact ⟨hk.fits, hk.limit, hk.lead, hk.sign, hk.none, hk.owned⟩

/-- The storage of a number is extended. -/
theorem Moved.expanded {m : ℕ} (hv : Valid s) {s₁ : St} (h : Moved s (s.num r).d (s.num r).dmax p s₁)
    (hn : (s.num r).dmax < n) (hm : n ≤ m) (hmax : m ≤ bnMaxlimbs) :
    Expanded al s r n true { s₁ with num := update s₁.num r { s₁.num r with d := p, dmax := m } } := by
  obtain ⟨s', hs'⟩ : ∃ s' : St, s' = { s₁ with num := update s₁.num r { s₁.num r with d := p, dmax := m } } := ⟨_, rfl⟩
  rw [← hs']
  have hmem : s'.mem = s₁.mem := by rw [hs']
  have hfresh : s'.fresh = s₁.fresh := by rw [hs']
  have hctx : s'.ctx = s.ctx := by rw [hs', ← h.ctx]
  have hasked : s'.asked = s₁.asked := by rw [hs']
  have hr : s'.num r = { s.num r with d := p, dmax := m } := by
    rw [hs', ← h.num]
    exact Function.update_self ..
  have hothers : ∀ k, k ≠ r → s'.num k = s.num k := by
    intro k hk
    rw [hs', ← h.num]
    exact Function.update_of_ne hk ..
  have hproper := hv.num r
  have hfits := hproper.fits
  have hold := hproper.owned
  have hrlimbs : ∀ i < (s.num r).top, s'.mem ((s'.num r).limbs + i) = s.mem ((s.num r).limbs + i) := by
    intro i hi
    have hne : (s.num r).d ≠ NULL := fun hnull => by
      have := hproper.none hnull
      omega
    have hlimb := h.limbs hne i (by omega)
    rw [hmem, hr, limbs_add, limbs_add]
    exact hlimb
  have hframe : ∀ x : Ptr, x.region ≠ (s.num r).d ∨ (s.num r).d = NULL → x.region < s.fresh → s'.mem x = s.mem x := by
    intro x hx hlt
    rw [hmem]
    exact h.frame x hx hlt
  have happart : ∀ q, q < s.fresh → q ≠ (s.num r).d → q ≠ p := by
    intro q hq hne
    rcases h.place with heq | hge
    · rw [heq]
      exact hne
    · omega
  have hotherlimbs : ∀ k, k ≠ r → ∀ i : ℕ, s'.mem ((s'.num k).limbs + i) = s.mem ((s.num k).limbs + i) := by
    intro k hk i
    rw [hothers k hk]
    refine hframe _ ?_ (hv.num k).owned
    by_cases hnull : (s.num r).d = NULL
    · exact .inr hnull
    · exact .inl (hv.apart r k (Ne.symm hk) hnull).symm
  have hsame : ∀ k, SameNum s s' k := by
    intro k
    by_cases hk : k = r
    · subst hk
      exact ⟨by rw [hr], by rw [hr], hrlimbs⟩
    · exact ⟨by rw [hothers k hk], by rw [hothers k hk], fun i _ => hotherlimbs k hk i⟩
  have hloose : KeepsLoose s s' := by
    intro q hq
    refine ⟨⟨by have := hq.fresh; have := h.fresh; omega, hq.notNull, fun k => ?_⟩, fun i => ?_⟩
    · by_cases hk : k = r
      · rw [hk, hr]
        exact (happart q hq.fresh (hq.apart r).symm).symm
      · rw [hothers k hk]
        exact hq.apart k
    · exact hframe _ (.inl (hq.apart r).symm) hq.fresh
  have hvalid : Valid s' := by
    refine ⟨fun k => ?_, fun k l hne hnull => ?_, fun c hc => ?_, fun c hc => ?_, ?_⟩
    · have hlead : (s'.num k).top ≠ 0 → (s'.mem ((s'.num k).limbs + ((s'.num k).top - 1)) : ℕ) ≠ 0 := by
        intro htop
        rw [(hsame k).top] at htop ⊢
        rw [(hsame k).limbs _ (by omega)]
        exact (hv.num k).lead htop
      have hsign : (s'.num k).neg = true → (s'.num k).top ≠ 0 := by
        rw [(hsame k).top, (hsame k).neg]
        exact (hv.num k).sign
      by_cases hk : k = r
      · subst hk
        have hd : (s'.num k).d = p := by rw [hr]
        have hdmax : (s'.num k).dmax = m := by rw [hr]
        have htop := (hsame k).top
        exact ⟨by omega, by omega, hlead, hsign, fun hnull => absurd (hd.symm.trans hnull) h.notNull, by
          rw [hd, hfresh]
          exact h.below⟩
      · have hproper' := hv.num k
        have hk' := hothers k hk
        exact ⟨hk' ▸ hproper'.fits, hk' ▸ hproper'.limit, hlead, hsign, hk' ▸ hproper'.none, by
          have := hproper'.owned
          have := h.fresh
          rw [hk']
          omega⟩
    · by_cases hk : k = r
      · have hl : l ≠ r := fun hl => hne (hk.trans hl.symm)
        rw [hk, hr, hothers l hl]
        dsimp only
        by_cases hnull' : (s.num l).d = NULL
        · rw [hnull']
          exact h.notNull
        · exact (happart _ (hv.num l).owned (hv.apart l r hl hnull')).symm
      · rw [hothers k hk] at hnull ⊢
        by_cases hl : l = r
        · rw [hl, hr]
          exact happart _ (hv.num k).owned (hv.apart k r hk hnull)
        · rw [hothers l hl]
          exact hv.apart k l hne hnull
    · rw [hctx] at hc ⊢
      exact (hloose _ (hv.ctx c hc)).1
    · rw [hctx] at hc ⊢
      exact hv.empty c hc
    · have := hv.fresh
      have := h.fresh
      omega
  refine ⟨⟨hvalid, hsame, by rw [hasked, h.asked]; exact Nat.le_succ _⟩, hothers, hloose, fun _ => ?_, ?_,
    fun h => absurd h (by decide)⟩
  · rw [hr]
    exact hm
  · rw [hr]
    exact le_trans (Nat.le_of_lt hn) hm

theorem expand_spec (hv : Valid s) (r : Name) (n : ℕ) :
    ∃ ok s', expand al s r n = (ok, s') ∧ Expanded al s r n ok s' := by
  unfold expand
  by_cases hroom : n ≤ (s.num r).dmax
  · rw [if_pos hroom]
    exact ⟨true, s, rfl, .refl hv, fun _ _ => rfl, .refl s, fun _ => hroom, le_refl _, fun h => absurd h (by decide)⟩
  · rw [if_neg hroom]
    by_cases hlarge : n > bnMaxlimbs
    · rw [if_pos hlarge]
      exact ⟨false, s, rfl, .refl hv, fun _ _ => rfl, .refl s, fun h => absurd h (by decide), le_refl _, fun _ => .inr hlarge⟩
    · rw [if_neg hlarge]
      rcases realloc_spec al (n := (s.num r).dmax) hv.fresh (hv.num r).owned with ⟨s₁, hrun, hnot⟩ | ⟨p, s₁, hrun, hmoved⟩
      · rw [hrun]
        obtain ⟨hkeeps, hloose, hdenied⟩ := hnot.keeps al hv
        have hnum : s₁.num = s.num := by rw [hnot.state]
        exact ⟨false, s₁, rfl, hkeeps, fun k _ => by rw [hnum], hloose, fun h => absurd h (by decide),
          by rw [hnum], fun _ => .inl hdenied⟩
      · rw [hrun]
        refine ⟨true, _, rfl, hmoved.expanded al hv (by omega) ?_ ?_⟩
        · split <;> omega
        · split <;> omega

/-! ## Scratch -/

/-- Scratch is got, or it is not. -/
theorem Moved.scratch {old : ℕ} (hv : Valid s) {s₁ : St} (h : Moved s old n p s₁) (hold : old = NULL ∨ Loose s old)
    {ctx : ℕ → BnCtx} (hctx : ∀ c, ctx c = s.ctx c ∨ (ctx c).buf = p) :
    Keeps s { s₁ with ctx := ctx } ∧ Loose { s₁ with ctx := ctx } p ∧ s₁.num = s.num := by
  have hmem : ∀ k, ∀ i : ℕ, s₁.mem ((s.num k).limbs + i) = s.mem ((s.num k).limbs + i) := by
    intro k i
    refine h.frame _ ?_ (hv.num k).owned
    rcases hold with hnull | hloose
    · exact .inr hnull
    · exact .inl (hloose.apart k)
  have hloose : Loose { s₁ with ctx := ctx } p := by
    refine ⟨h.below, h.notNull, fun k => ?_⟩
    dsimp only
    rw [h.num]
    rcases h.place with heq | hge
    · rcases hold with hnull | hl
      · exact absurd (heq.trans hnull) h.notNull
      · rw [heq]
        exact hl.apart k
    · have := (hv.num k).owned
      omega
  have hfresh := h.fresh
  have hvalid : Valid { s₁ with ctx := ctx } := by
    refine ⟨fun k => ?_, ?_, fun c hc => ?_, fun c hc => ?_, by have := hv.fresh; dsimp only; omega⟩
    · have hk := hv.num k
      have hlead := hk.lead
      have howned := hk.owned
      rw [← hmem] at hlead
      have hnum : ({ s₁ with ctx := ctx } : St).num k = s.num k := congrFun h.num k
      exact ⟨hnum ▸ hk.fits, hnum ▸ hk.limit, hnum ▸ hlead, hnum ▸ hk.sign, hnum ▸ hk.none, by
        rw [hnum]
        exact lt_of_lt_of_le howned hfresh⟩
    · dsimp only
      rw [h.num]
      exact hv.apart
    · rcases hctx c with heq | heq
      · dsimp only at hc ⊢
        rw [heq] at hc ⊢
        have hl := hv.ctx c hc
        refine ⟨by have := hl.fresh; dsimp only; omega, hl.notNull, ?_⟩
        dsimp only
        rw [h.num]
        exact hl.apart
      · dsimp only at hc ⊢
        rw [heq]
        exact hloose
    · rcases hctx c with heq | heq
      · dsimp only at hc ⊢
        rw [heq] at hc ⊢
        exact hv.empty c hc
      · dsimp only at hc
        rw [heq] at hc
        exact absurd hc h.notNull
  refine ⟨⟨hvalid, fun k => ?_, by dsimp only; rw [h.asked]; exact Nat.le_succ _⟩, hloose, h.num⟩
  refine ⟨by dsimp only; rw [h.num], by dsimp only; rw [h.num], fun i _ => ?_⟩
  dsimp only
  rw [h.num]
  exact hmem k i

theorem scratchGet_spec (hv : Valid s) (ctx : Option ℕ) (hn : 0 < n) :
    (∃ s', scratchGet al s ctx n = (none, s') ∧ Keeps s s' ∧ Denied al s s') ∨
    ∃ p s', scratchGet al s ctx n = (some p, s') ∧ Keeps s s' ∧ Loose s' p ∧ s'.num = s.num := by
  match ctx with
  | none =>
    rcases malloc_spec al hv.fresh with ⟨s₁, hrun, hnot⟩ | ⟨s₁, hrun, -, hmoved⟩
    · obtain ⟨hkeeps, -, hdenied⟩ := hnot.keeps al hv
      exact .inl ⟨s₁, hrun, hkeeps, hdenied⟩
    · exact .inr ⟨s.fresh, s₁, hrun, hmoved.scratch hv (.inl rfl) fun c => .inl (by rw [hmoved.ctx])⟩
  | some c =>
    unfold scratchGet
    by_cases hlarge : n > (s.ctx c).cap
    · have hbuf : (s.ctx c).buf = NULL ∨ Loose s (s.ctx c).buf := by
        by_cases hnull : (s.ctx c).buf = NULL
        · exact .inl hnull
        · exact .inr (hv.ctx c hnull)
      have hbelow : (s.ctx c).buf < s.fresh := by
        rcases hbuf with hnull | hloose
        · rw [hnull]
          exact hv.fresh
        · exact hloose.fresh
      rcases realloc_spec al (n := (s.ctx c).cap) hv.fresh hbelow with ⟨s₁, hrun, hnot⟩ | ⟨p, s₁, hrun, hmoved⟩
      · obtain ⟨hkeeps, -, hdenied⟩ := hnot.keeps al hv
        refine .inl ⟨s₁, ?_, hkeeps, hdenied⟩
        dsimp only
        rw [if_pos hlarge, hrun]
      · refine .inr ⟨p, { s₁ with ctx := update s₁.ctx c ⟨p, n⟩ }, ?_, hmoved.scratch hv hbuf fun c' => ?_⟩
        · dsimp only
          rw [if_pos hlarge, hrun]
        · by_cases hc : c' = c
          · rw [hc, Function.update_self]
            exact .inr rfl
          · rw [Function.update_of_ne hc, hmoved.ctx]
            exact .inl rfl
    · have hnull : (s.ctx c).buf ≠ NULL := fun h => by
        have := hv.empty c h
        omega
      refine .inr ⟨(s.ctx c).buf, s, ?_, .refl hv, hv.ctx c hnull, rfl⟩
      dsimp only
      rw [if_neg hlarge]

end

end DiscoBSD.Bn
