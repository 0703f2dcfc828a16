import DiscoBSD.Lcdterm.Term
import Mathlib.Tactic.SplitIfs

/-!
# Places and counts

What the terminal keeps besides its cells. **A place is clamped where it is computed**, whatever the parameters, and a
parameter stops growing before it leaves an `int`.
-/

set_option autoImplicit false

namespace DiscoBSD.Lcdterm

open DiscoBSD.Lib

theorem rows_pos : 0 < ltRows := by decide
theorem cols_pos : 0 < ltCols := by decide
theorem rows_last : ltRows - 1 < ltRows := by decide

namespace Ctl

/-! ## Places -/

/-- What of the terminal are places on the screen. -/
def place (t : Ctl) : (ℕ × ℕ) × (ℕ × ℕ) × ℕ × ℕ := ((t.crow, t.ccol), (t.mtop, t.mbot), t.saved.row, t.saved.col)

/-- The parameters, and what is left of the replies. -/
def counts (t : Ctl) : ℕ × (ℕ → ℕ) × Bool × List (List Char) := (t.nparam, t.params, t.bounds, t.replies)

/-- The cursors and the region are on the screen. -/
structure Placed (t : Ctl) : Prop where
  crow : t.crow < ltRows
  ccol : t.ccol < ltCols
  region : t.mtop < t.mbot
  mbot : t.mbot < ltRows
  row : t.saved.row < ltRows
  col : t.saved.col < ltCols

/-- The parameters fit the array and an `int`, the replies their buffer. -/
structure Counted (t : Ctl) : Prop where
  nparam : t.nparam ≤ ltNparam
  params : ∀ i, t.params i < 10 * (ltParamMax + 1)
  bounds : t.bounds = true
  replies : ∀ s ∈ t.replies, s.length ≤ 16

variable {t t' : Ctl}

theorem Placed.of_place (h : t.Placed) (hp : t'.place = t.place) : t'.Placed := by
  simp only [place, Prod.mk.injEq] at hp
  obtain ⟨⟨hcrow, hccol⟩, ⟨hmtop, hmbot⟩, hrow, hcol⟩ := hp
  constructor
  · exact hcrow ▸ h.crow
  · exact hccol ▸ h.ccol
  · exact hmtop ▸ hmbot ▸ h.region
  · exact hmbot ▸ h.mbot
  · exact hrow ▸ h.row
  · exact hcol ▸ h.col

theorem Placed.goto (h : t.Placed) {r c : ℕ} (hr : r < ltRows) (hc : c < ltCols) :
    ({ t with crow := r, ccol := c } : Ctl).Placed :=
  ⟨hr, hc, h.region, h.mbot, h.row, h.col⟩

theorem Counted.of_counts (h : t.Counted) (hc : t'.counts = t.counts) : t'.Counted := by
  simp only [counts, Prod.mk.injEq] at hc
  obtain ⟨hnparam, hparams, hbounds, hreplies⟩ := hc
  constructor
  · exact hnparam ▸ h.nparam
  · exact hparams ▸ h.params
  · exact hbounds ▸ h.bounds
  · exact hreplies ▸ h.replies

theorem touch_eq {i : ℕ} (hi : i < ltNparam) (t : Ctl) : t.touch i = t := by
  unfold touch
  rw [decide_eq_true hi, Bool.and_true]

/-! ## Modes and renditions -/

theorem reset_modes_placed (hcrow : t.crow < ltRows) (hccol : t.ccol < ltCols) : t.reset_modes.Placed :=
  ⟨hcrow, hccol, by show 0 < ltRows - 1; decide, rows_last, rows_pos, cols_pos⟩

theorem Placed.save_cursor (h : t.Placed) : t.save_cursor.Placed :=
  ⟨h.crow, h.ccol, h.region, h.mbot, h.crow, h.ccol⟩

theorem Placed.restore_cursor (h : t.Placed) : t.restore_cursor.Placed :=
  ⟨h.row, h.col, h.region, h.mbot, h.row, h.col⟩

theorem do_sgr_place (t : Ctl) : t.do_sgr.place = t.place := by
  have hloop : ∀ n x, (countUp sgr_param 0 n x).place = x.place := fun n x =>
    countUp_inv (fun _ (y : Ctl) => y.place = x.place) rfl fun _ _ _ hy => hy
  unfold do_sgr
  by_cases hnone : t.nparam = 0
  · rw [if_pos hnone]
    exact hloop _ _
  · rw [if_neg hnone]
    exact hloop _ _

theorem mode_place (on : Bool) (v : ℕ) (t : Ctl) : (t.mode on v).place = t.place := by
  unfold mode
  by_cases hpriv : t.priv ≠ 0
  · rw [if_pos hpriv]
    split <;> rfl
  · rw [if_neg hpriv]
    split_ifs <;> rfl

theorem mode_counts (on : Bool) (v : ℕ) (t : Ctl) : (t.mode on v).counts = t.counts := by
  unfold mode
  by_cases hpriv : t.priv ≠ 0
  · rw [if_pos hpriv]
    split <;> rfl
  · rw [if_neg hpriv]
    split_ifs <;> rfl

theorem set_mode_place (on : Bool) (t : Ctl) : (t.set_mode on).place = t.place := by
  unfold set_mode
  exact countUp_inv (fun _ (x : Ctl) => x.place = t.place) rfl fun _ _ _ hx => (mode_place on _ _).trans hx

theorem Counted.set_mode (h : t.Counted) (on : Bool) : (t.set_mode on).Counted := by
  unfold Ctl.set_mode
  refine h.of_counts (countUp_inv (fun _ (x : Ctl) => x.counts = t.counts) rfl ?_)
  intro k hk x hx
  have hrange := h.nparam
  rw [mode_param, mode_counts, touch_eq (show 0 + k < ltNparam by omega)]
  exact hx

theorem Counted.sgr_params (h : t.Counted) : (countUp sgr_param 0 t.nparam t).resolve_attr.Counted := by
  have hloop : (countUp sgr_param 0 t.nparam t).counts = t.counts := by
    refine countUp_inv (fun _ (x : Ctl) => x.counts = t.counts) rfl ?_
    intro k hk x hx
    have hrange := h.nparam
    rw [sgr_param, touch_eq (show 0 + k < ltNparam by omega)]
    exact hx
  exact h.of_counts hloop

/-- A parameter is set. -/
theorem Counted.set_param (h : t.Counted) {n i v : ℕ} (hn : n ≤ ltNparam) (hv : v < 10 * (ltParamMax + 1)) :
    ({ t with nparam := n, params := Function.update t.params i v } : Ctl).Counted := by
  refine ⟨hn, ?_, h.bounds, h.replies⟩
  intro j
  dsimp only
  by_cases hj : j = i
  · rw [hj, Function.update_self]
    exact hv
  · rw [Function.update_of_ne hj]
    exact h.params j

/-- At least one parameter, and no more than there were. -/
theorem Counted.some_param (h : t.Counted) :
    0 < (if t.nparam = 0 then 1 else t.nparam) ∧ (if t.nparam = 0 then 1 else t.nparam) ≤ ltNparam := by
  have hn := h.nparam
  by_cases hnone : t.nparam = 0
  · rw [if_pos hnone]
    exact ⟨Nat.one_pos, by decide⟩
  · rw [if_neg hnone]
    exact ⟨Nat.pos_of_ne_zero hnone, hn⟩

theorem Counted.digit (h : t.Counted) {d : ℕ} (hd : d < 10) : (t.digit d).Counted := by
  obtain ⟨hpos, hle⟩ := h.some_param
  unfold Ctl.digit
  dsimp only
  generalize (if t.nparam = 0 then 1 else t.nparam) = n at hpos hle ⊢
  rw [touch_eq (show n - 1 < ltNparam by omega)]
  by_cases hmore : t.params (n - 1) < ltParamMax
  · rw [if_pos hmore]
    exact h.set_param hle (by omega)
  · rw [if_neg hmore]
    exact ⟨hle, h.params, h.bounds, h.replies⟩

theorem Counted.separator (h : t.Counted) : t.separator.Counted := by
  obtain ⟨-, hle⟩ := h.some_param
  unfold Ctl.separator
  dsimp only
  generalize (if t.nparam = 0 then 1 else t.nparam) = n at hle ⊢
  by_cases hmore : n < ltNparam
  · rw [if_pos hmore, touch_eq hmore]
    exact h.set_param hmore (by decide)
  · rw [if_neg hmore]
    exact ⟨hle, h.params, h.bounds, h.replies⟩

theorem separator_place (t : Ctl) : t.separator.place = t.place := by
  unfold separator
  dsimp only
  split_ifs <;> rfl

theorem Counted.do_sgr (h : t.Counted) : t.do_sgr.Counted := by
  unfold Ctl.do_sgr
  by_cases hnone : t.nparam = 0
  · rw [if_pos hnone]
    exact (h.set_param (by decide) (by decide)).sgr_params
  · rw [if_neg hnone]
    exact h.sgr_params

/-! ## Reports -/

theorem Counted.lcdterm_reply (h : t.Counted) {s : List Char} (hs : s.length ≤ 16) : (t.lcdterm_reply s).Counted := by
  refine ⟨h.nparam, h.params, h.bounds, ?_⟩
  intro s' hs'
  rcases List.mem_append.mp hs' with hold | hnew
  · exact h.replies s' hold
  · rw [List.mem_singleton.mp hnew]
    exact hs

theorem replyNumber_length (len v : ℕ) : (replyNumber len v).length ≤ len := by
  induction len generalizing v with
  | zero => exact Nat.le_refl 0
  | succ len ih =>
    rw [replyNumber, List.length_append, List.length_singleton]
    by_cases hmore : v / 10 > 0
    · rw [if_pos hmore]
      exact Nat.succ_le_succ (ih _)
    · rw [if_neg hmore]
      exact Nat.succ_le_succ (Nat.zero_le len)

theorem Counted.report_cursor (h : t.Counted) : t.report_cursor.Counted := by
  refine h.lcdterm_reply ?_
  have hrow := replyNumber_length 6 (t.crow + 1)
  have hcol := replyNumber_length 6 (t.ccol + 1)
  simp only [List.length_append, List.length_cons, List.length_nil]
  omega

end Ctl

/-! ## Clamped values -/

theorem clamp_bounds {v lo hi : ℤ} (h : lo ≤ hi) : lo ≤ clamp v lo hi ∧ clamp v lo hi ≤ hi := by
  unfold clamp
  by_cases hlow : v < lo
  · rw [if_pos hlow]
    omega
  · rw [if_neg hlow]
    by_cases hhigh : v > hi
    · rw [if_pos hhigh]
      omega
    · rw [if_neg hhigh]
      omega

/-- A place that is clamped is on the screen. -/
theorem clamp_lt {v : ℤ} {l u n : ℕ} (h : l ≤ u) (hn : u < n) : (clamp v l u).toNat < n := by
  have hbounds := clamp_bounds (v := v) (show (l : ℤ) ≤ u by omega)
  omega

theorem clamp_col_lt (v : ℤ) : (clamp v 0 ((ltCols : ℤ) - 1)).toNat < ltCols :=
  clamp_lt (l := 0) (u := ltCols - 1) (Nat.zero_le _) (by decide)

theorem clamp_row_lt (v : ℤ) : (clamp v 0 ((ltRows : ℤ) - 1)).toNat < ltRows :=
  clamp_lt (l := 0) (u := ltRows - 1) (Nat.zero_le _) (by decide)

theorem Ctl.Placed.csi {t : Ctl} (h : t.Placed) (final : Char) : (t.csi final).Placed := by
  have hmove : ∀ row : ℤ, (clamp row (if t.crow ≥ t.mtop ∧ t.crow ≤ t.mbot then t.mtop else 0 : ℕ)
      (if t.crow ≥ t.mtop ∧ t.crow ≤ t.mbot then t.mbot else ltRows - 1 : ℕ)).toNat < ltRows := by
    intro row
    by_cases hregion : t.crow ≥ t.mtop ∧ t.crow ≤ t.mbot
    · simp only [if_pos hregion]
      exact clamp_lt (Nat.le_of_lt h.region) h.mbot
    · simp only [if_neg hregion]
      exact clamp_lt (Nat.zero_le _) (by decide)
  unfold Ctl.csi
  split
  · exact (h.goto (hmove _) h.ccol).of_place rfl
  · exact (h.goto (hmove _) h.ccol).of_place rfl
  · exact (h.goto h.crow (clamp_col_lt _)).of_place rfl
  · exact (h.goto h.crow (clamp_col_lt _)).of_place rfl
  · exact (h.goto h.crow (clamp_col_lt _)).of_place rfl
  · exact (h.goto (clamp_row_lt _) h.ccol).of_place rfl
  · exact (h.goto (clamp_row_lt _) (clamp_col_lt _)).of_place rfl
  · exact (h.goto (clamp_row_lt _) (clamp_col_lt _)).of_place rfl
  · dsimp only
    split_ifs with hregion
    · exact ⟨rows_pos, cols_pos, hregion.1, hregion.2, h.row, h.col⟩
    · exact h
  · exact h.of_place (do_sgr_place t)
  · exact h.of_place (set_mode_place true t)
  · exact h.of_place (set_mode_place false t)
  · split_ifs <;> exact h.of_place rfl
  · split_ifs <;> exact h.of_place rfl
  · exact h

theorem Ctl.Counted.csi {t : Ctl} (h : t.Counted) (final : Char) : (t.csi final).Counted := by
  unfold Ctl.csi
  split
  · exact h.of_counts rfl
  · exact h.of_counts rfl
  · exact h.of_counts rfl
  · exact h.of_counts rfl
  · exact h.of_counts rfl
  · exact h.of_counts rfl
  · exact h.of_counts rfl
  · exact h.of_counts rfl
  · dsimp only
    split_ifs
    · exact h.of_counts rfl
    · exact h
  · exact h.do_sgr
  · exact h.set_mode true
  · exact h.set_mode false
  · split_ifs
    · exact h
    · exact h.report_cursor
    · exact h.lcdterm_reply (by decide)
    · exact h
  · split_ifs
    · exact h.lcdterm_reply (by decide)
    · exact h
  · exact h

end DiscoBSD.Lcdterm
