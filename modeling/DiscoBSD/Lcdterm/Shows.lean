import DiscoBSD.Lcdterm.Screen

/-!
# The ring shows the array

Where the cursor is not drawn, the rows of the ring from `top` on are those of a plain array and the panel shows the
store. **Every operation on the ring is the same operation on the array**, whatever the ring's offset.
-/

set_option autoImplicit false

namespace DiscoBSD.Lcdterm

open DiscoBSD.Lib
open Function (update)

/-- The ring holds the rows `g`, the panel shows them, and no cursor is drawn. -/
structure Shows (s : Ring) (g : Cells) : Prop where
  hidden : s.drawn = none
  top_lt : s.top < ltRows
  panel_top : s.panel.top = s.top
  bounds : s.bounds = true
  cells : ∀ r < ltRows, ∀ c < ltCols, s.cells (s.phys r) c = g r c
  panel : ∀ p < ltRows, ∀ c < ltCols, s.panel.cell p c = s.cells p c

variable {s : Ring} {g g' : Cells}

theorem Shows.congr (h : Shows s g) (hg : ∀ r < ltRows, ∀ c < ltCols, g r c = g' r c) : Shows s g' where
  hidden := h.hidden
  top_lt := h.top_lt
  panel_top := h.panel_top
  bounds := h.bounds
  cells r hr c hc := (h.cells r hr c hc).trans (hg r hr c hc)
  panel := h.panel

/-! ## Physical rows -/

theorem phys_inj {r r' : ℕ} (hr : r < ltRows) (hr' : r' < ltRows) :
    s.phys r = s.phys r' ↔ r = r' := by
  unfold Ring.phys ltRows at *
  lia

/-! ## One change -/

/-- Some cells are stored and drawn. -/
theorem Shows.change (h : Shows s g) {m d : Cells}
    (hm : ∀ r < ltRows, ∀ c < ltCols, m (s.phys r) c = g' r c)
    (hd : ∀ p < ltRows, ∀ c < ltCols, d p c = m p c) : Shows ((s.withCells m).withPanel d) g' where
  hidden := h.hidden
  top_lt := h.top_lt
  panel_top := h.panel_top
  bounds := h.bounds
  cells := hm
  panel := hd

theorem Shows.erase_cells (h : Shows s g) (a : UInt8) {r : ℕ} (hr : r < ltRows) (c n : ℤ) :
    Shows (s.erase_cells a r c n) (Plain.erase_cells a r c n ⟨g⟩).row := by
  rw [Ring.erase_cells_eq]
  refine h.change ?_ ?_
  · intro i hi j hj
    simp only [Ring.erased, Plain.erase_cells, phys_inj hi hr, h.cells i hi j hj]
    refine if_congr ?_ rfl rfl
    lia
  · intro p hp c hc
    simp only [Ring.erased, h.panel p hp c hc]

/-- A row is written over another one and drawn. -/
theorem Shows.move_row (h : Shows s g) {dst src : ℕ} (hdst : dst < ltRows) (hsrc : src < ltRows) :
    Shows (s.move_row dst src) (update g dst (g src)) := by
  rw [Ring.move_row, Ring.redraw_span_eq _ _ (by lia), Ring.copy_row_eq]
  refine h.change ?_ ?_
  · intro i hi j hj
    by_cases hrow : i = dst
    · subst hrow
      rw [if_pos ⟨rfl, hj⟩, h.cells src hsrc j hj, Function.update_self]
    · rw [if_neg (fun hp => hrow ((phys_inj hi hdst).mp hp.1)), h.cells i hi j hj, Function.update_of_ne hrow]
  · intro p hp c hc
    by_cases hrow : p = s.phys dst
    · refine if_pos ⟨hrow, Nat.zero_le c, ?_⟩
      unfold ltCols at *
      lia
    · simp only [Ring.withCells_phys, Ring.withCells_panel, Ring.withCells_cells, hrow, false_and, if_false]
      exact h.panel p hp c hc

/-! ## Rows -/

/-- A row of blanks. -/
def blanks (a : UInt8) : ℕ → Cell := fun _ => blank a

theorem Shows.erase_row (h : Shows s g) (a : UInt8) {r : ℕ} (hr : r < ltRows) :
    Shows (s.erase_cells a r 0 ltCols) (update g r (blanks a)) := by
  refine (h.erase_cells a hr 0 ltCols).congr ?_
  intro i _ j hj
  by_cases hrow : i = r
  · subst hrow
    rw [Function.update_self]
    exact if_pos ⟨rfl, by lia, by lia⟩
  · rw [Function.update_of_ne hrow]
    exact if_neg fun hi => hrow hi.1

theorem Shows.erase_rows (h : Shows s g) (a : UInt8) {r0 r1 : ℕ} (hlast : r1 < ltRows) :
    Shows (s.erase_rows a r0 r1) (fun r => if r0 ≤ r ∧ r ≤ r1 then blanks a else g r) := by
  have hloop := countUp_inv (f := fun r => Ring.erase_cells a r 0 ltCols) (l := r0) (n := r1 + 1 - r0) (s := s)
    (fun k x => Shows x fun r => if r0 ≤ r ∧ r < r0 + k then blanks a else g r) ?_ ?_
  · refine hloop.congr ?_
    intro i _ j _
    refine congrFun (if_congr ?_ rfl rfl) j
    lia
  · refine h.congr ?_
    intro i _ j _
    rw [if_neg (by lia)]
  · intro k hk x hx
    refine (hx.erase_row a (show r0 + k < ltRows by lia)).congr ?_
    intro i _ j _
    by_cases hrow : i = r0 + k
    · subst hrow
      rw [Function.update_self, if_pos (by lia)]
    · rw [Function.update_of_ne hrow]
      refine congrFun (if_congr ?_ rfl rfl) j
      lia

/-- The panel and the ring begin at another row. -/
theorem Shows.set_top (h : Shows s g) {top : ℕ} (htop : top < ltRows)
    (hg : ∀ r < ltRows, ∃ r' < ltRows, (top + r) % ltRows = s.phys r' ∧ ∀ c < ltCols, g r' c = g' r c) :
    Shows (s.set_top top) g' where
  hidden := h.hidden
  top_lt := htop
  panel_top := rfl
  bounds := h.bounds
  cells r hr c hc := by
    obtain ⟨r', hr', hphys, hrow⟩ := hg r hr
    rw [← hrow c hc, ← h.cells r' hr' c hc, ← hphys]
    rfl
  panel := h.panel

/-! ## Scrolling -/

theorem Shows.rotate_up (h : Shows s g) (a : UInt8) :
    Shows (s.rotate_up a) (fun r => if r + 1 < ltRows then g (r + 1) else blanks a) := by
  have herased := h.erase_row a (show 0 < ltRows by decide)
  refine herased.set_top (Nat.mod_lt _ (by decide)) ?_
  intro r hr
  have htop := herased.top_lt
  by_cases hnext : r + 1 < ltRows
  · refine ⟨r + 1, hnext, ?_, fun c _ => ?_⟩
    · unfold Ring.phys ltRows
      lia
    · rw [Function.update_of_ne (Nat.succ_ne_zero r), if_pos hnext]
  · refine ⟨0, by decide, ?_, fun c _ => ?_⟩
    · unfold Ring.phys ltRows at *
      lia
    · rw [Function.update_self, if_neg hnext]

theorem Shows.rotate_down (h : Shows s g) (a : UInt8) :
    Shows (s.rotate_down a) (fun r => if 1 ≤ r then g (r - 1) else blanks a) := by
  have herased := h.erase_row a (show ltRows - 1 < ltRows by decide)
  refine herased.set_top (Nat.mod_lt _ (by decide)) ?_
  intro r hr
  have htop := herased.top_lt
  by_cases hfirst : 1 ≤ r
  · refine ⟨r - 1, by lia, ?_, fun c _ => ?_⟩
    · unfold Ring.phys ltRows
      lia
    · rw [Function.update_of_ne (by lia), if_pos hfirst]
  · refine ⟨ltRows - 1, by decide, ?_, fun c _ => ?_⟩
    · unfold Ring.phys ltRows at *
      lia
    · rw [Function.update_self, if_neg hfirst]

theorem Shows.rotate_ups (h : Shows s g) (a : UInt8) (n : ℕ) :
    Shows (countUp (fun _ => Ring.rotate_up a) 0 n s) (fun r => if r + n < ltRows then g (r + n) else blanks a) := by
  refine countUp_inv (fun k x => Shows x fun r => if r + k < ltRows then g (r + k) else blanks a) ?_ ?_
  · refine h.congr ?_
    intro r hr c _
    rw [if_pos (show r + 0 < ltRows from hr)]
    rfl
  · intro k _ x hx
    refine (hx.rotate_up a).congr ?_
    intro r _ c _
    by_cases hnext : r + 1 < ltRows
    · rw [if_pos hnext, Nat.add_right_comm, Nat.add_assoc]
    · rw [if_neg hnext, if_neg (by lia)]

theorem Shows.rotate_downs (h : Shows s g) (a : UInt8) (n : ℕ) :
    Shows (countUp (fun _ => Ring.rotate_down a) 0 n s) (fun r => if n ≤ r then g (r - n) else blanks a) := by
  refine countUp_inv (fun k x => Shows x fun r => if k ≤ r then g (r - k) else blanks a) ?_ ?_
  · refine h.congr ?_
    intro r _ c _
    rw [if_pos (Nat.zero_le r)]
    rfl
  · intro k _ x hx
    refine (hx.rotate_down a).congr ?_
    intro r _ c _
    by_cases hfirst : 1 ≤ r
    · rw [if_pos hfirst, Nat.sub_sub, Nat.add_comm 1 k]
      refine congrFun (if_congr ?_ rfl rfl) c
      lia
    · rw [if_neg hfirst, if_neg (by lia)]

/-- Scrolling by more than the region is scrolling by the region. -/
theorem Plain.scroll_up_clip (a : UInt8) (t b n : ℕ) (g : Plain) :
    g.scroll_up a t b (if n > b + 1 - t then b + 1 - t else n) = g.scroll_up a t b n := by
  by_cases hfar : n > b + 1 - t
  · rw [if_pos hfar]
    refine congrArg Plain.mk (funext fun i => if_ctx_congr Iff.rfl (fun hin => ?_) fun _ => rfl)
    rw [if_neg (by lia), if_neg (by lia)]
  · rw [if_neg hfar]

theorem Plain.scroll_down_clip (a : UInt8) (t b n : ℕ) (g : Plain) :
    g.scroll_down a t b (if n > b + 1 - t then b + 1 - t else n) = g.scroll_down a t b n := by
  by_cases hfar : n > b + 1 - t
  · rw [if_pos hfar]
    refine congrArg Plain.mk (funext fun i => if_ctx_congr Iff.rfl (fun hin => ?_) fun _ => rfl)
    rw [if_neg (by lia), if_neg (by lia)]
  · rw [if_neg hfar]

theorem clip_le (n m : ℕ) : (if n > m then m else n) ≤ m := by
  by_cases hfar : n > m
  · exact Nat.le_of_eq (if_pos hfar)
  · rw [if_neg hfar]
    lia

theorem Shows.move_rows_up (h : Shows s g) {t b n : ℕ} (hb : b < ltRows) (hn : 0 < n) :
    Shows (countUp (fun r => Ring.move_row r (r + n)) t (b + 1 - n - t) s)
      (fun r => if t ≤ r ∧ r + n ≤ b then g (r + n) else g r) := by
  have hloop := countUp_inv (f := fun r => Ring.move_row r (r + n)) (l := t) (n := b + 1 - n - t) (s := s)
    (fun k x => Shows x fun r => if t ≤ r ∧ r < t + k then g (r + n) else g r) ?_ ?_
  · refine hloop.congr ?_
    intro r _ c _
    refine congrFun (if_congr ?_ rfl rfl) c
    lia
  · refine h.congr ?_
    intro r _ c _
    rw [if_neg (by lia)]
  · intro k hk x hx
    refine (hx.move_row (show t + k < ltRows by lia) (show t + k + n < ltRows by lia)).congr ?_
    intro r _ c _
    by_cases hrow : r = t + k
    · subst hrow
      rw [Function.update_self, if_neg (by lia), if_pos (by lia)]
    · rw [Function.update_of_ne hrow]
      refine congrFun (if_congr ?_ rfl rfl) c
      lia

theorem Shows.move_rows_down (h : Shows s g) {t b n : ℕ} (hb : b < ltRows) (hn : 0 < n) :
    Shows (countDown (fun r => Ring.move_row r (r - n)) (t + n) (b + 1 - (t + n)) s)
      (fun r => if t + n ≤ r ∧ r ≤ b then g (r - n) else g r) := by
  have hloop := countDown_inv (f := fun r => Ring.move_row r (r - n)) (l := t + n) (n := b + 1 - (t + n)) (s := s)
    (fun k x => Shows x fun r => if t + n + k ≤ r ∧ r ≤ b then g (r - n) else g r) ?_ ?_
  · exact hloop
  · refine h.congr ?_
    intro r _ c _
    rw [if_neg (by lia)]
  · intro k hk x hx
    refine (hx.move_row (show t + n + k < ltRows by lia) (show t + n + k - n < ltRows by lia)).congr ?_
    intro r _ c _
    by_cases hrow : r = t + n + k
    · subst hrow
      rw [Function.update_self, if_neg (by lia), if_pos (by lia)]
    · rw [Function.update_of_ne hrow]
      refine congrFun (if_congr ?_ rfl rfl) c
      lia

theorem Shows.scroll_up (h : Shows s g) (a : UInt8) {t b : ℕ} (hb : b < ltRows) (n : ℕ) :
    Shows (s.scroll_up a t b n) (Plain.scroll_up a t b n ⟨g⟩).row := by
  rw [← Plain.scroll_up_clip]
  unfold Ring.scroll_up
  dsimp only
  have hclip := clip_le n (b + 1 - t)
  generalize (if n > b + 1 - t then b + 1 - t else n) = n at hclip ⊢
  by_cases hzero : n = 0
  · subst hzero
    rw [if_pos rfl]
    refine h.congr ?_
    intro r _ c _
    simp only [Plain.scroll_up, Nat.add_zero]
    by_cases hin : t ≤ r ∧ r ≤ b
    · rw [if_pos hin, if_pos hin.2]
    · rw [if_neg hin]
  · rw [if_neg hzero]
    by_cases hfull : t = 0 ∧ b = ltRows - 1
    · rw [if_pos hfull]
      refine (h.rotate_ups a n).congr ?_
      intro r hr c _
      have hin : t ≤ r ∧ r ≤ b := by lia
      have hnext : r + n < ltRows ↔ r + n ≤ b := by lia
      simp only [Plain.scroll_up, if_pos hin, hnext]
      rfl
    · rw [if_neg hfull]
      refine ((h.move_rows_up hb (Nat.pos_of_ne_zero hzero)).erase_rows a hb).congr ?_
      intro r _ c _
      simp only [Plain.scroll_up]
      by_cases hin : t ≤ r ∧ r ≤ b
      · rw [if_pos hin]
        by_cases hkept : r + n ≤ b
        · rw [if_neg (by lia), if_pos ⟨hin.1, hkept⟩, if_pos hkept]
        · rw [if_pos (by lia), if_neg hkept]
          rfl
      · rw [if_neg (by lia), if_neg (by lia), if_neg hin]

theorem Shows.scroll_down (h : Shows s g) (a : UInt8) {t b : ℕ} (hb : b < ltRows) (n : ℕ) :
    Shows (s.scroll_down a t b n) (Plain.scroll_down a t b n ⟨g⟩).row := by
  rw [← Plain.scroll_down_clip]
  unfold Ring.scroll_down
  dsimp only
  have hclip := clip_le n (b + 1 - t)
  generalize (if n > b + 1 - t then b + 1 - t else n) = n at hclip ⊢
  by_cases hzero : n = 0
  · subst hzero
    rw [if_pos rfl]
    refine h.congr ?_
    intro r _ c _
    simp only [Plain.scroll_down, Nat.add_zero, Nat.sub_zero]
    by_cases hin : t ≤ r ∧ r ≤ b
    · rw [if_pos hin, if_pos hin.1]
    · rw [if_neg hin]
  · rw [if_neg hzero]
    by_cases hfull : t = 0 ∧ b = ltRows - 1
    · rw [if_pos hfull]
      refine (h.rotate_downs a n).congr ?_
      intro r hr c _
      have hin : t ≤ r ∧ r ≤ b := by lia
      have hfirst : n ≤ r ↔ t + n ≤ r := by lia
      simp only [Plain.scroll_down, if_pos hin, hfirst]
      rfl
    · rw [if_neg hfull]
      refine ((h.move_rows_down hb (Nat.pos_of_ne_zero hzero)).erase_rows a (show t + n - 1 < ltRows by lia)).congr ?_
      intro r _ c _
      simp only [Plain.scroll_down]
      by_cases hin : t ≤ r ∧ r ≤ b
      · rw [if_pos hin]
        by_cases hkept : t + n ≤ r
        · rw [if_neg (by lia), if_pos ⟨hkept, hin.2⟩, if_pos hkept]
        · rw [if_pos (by lia), if_neg hkept]
          rfl
      · rw [if_neg (by lia), if_neg (by lia), if_neg hin]

/-! ## Within a row -/

/-- Cells of one row are stored, and a span of the row with all of them is drawn. -/
theorem Shows.change_row (h : Shows s g) {r c0 : ℕ} {c1 : ℤ} (hc1 : c1 < ltCols) {m : Cells}
    (hm : ∀ i < ltRows, ∀ j < ltCols, m (s.phys i) j = g' i j)
    (hsame : ∀ p j, ¬(p = s.phys r ∧ c0 ≤ j ∧ (j : ℤ) ≤ c1) → j < ltCols → m p j = s.cells p j) :
    Shows ((s.withCells m).redraw_span r c0 c1) g' := by
  rw [Ring.redraw_span_eq _ _ hc1]
  refine h.change hm ?_
  intro p hp j hj
  by_cases hdrawn : p = s.phys r ∧ c0 ≤ j ∧ (j : ℤ) ≤ c1
  · exact if_pos hdrawn
  · refine (if_neg hdrawn).trans ?_
    rw [hsame p j hdrawn hj]
    exact h.panel p hp j hj

theorem Shows.put_cell (h : Shows s g) (insertmode : Bool) {r c : ℕ} (hr : r < ltRows) (hc : c < ltCols) (x : Cell) :
    Shows (s.put_cell insertmode r c x) (Plain.put_cell insertmode r c x ⟨g⟩).row := by
  unfold Ring.put_cell
  dsimp only
  have hphys := Ring.phys_lt s r
  cases insertmode with
  | false =>
    have hdraw : Shows ((s.withCells (s.cells.set (s.phys r) c x)).redraw_span r c c)
        (Plain.put_cell false r c x ⟨g⟩).row := by
      refine h.change_row (by lia) ?_ ?_
      · intro i hi j hj
        simp only [Cells.set_apply, phys_inj hi hr, h.cells i hi j hj, Plain.put_cell]
        refine if_congr Iff.rfl rfl ?_
        exact (if_neg fun hin => Bool.false_ne_true hin.1).symm
      · intro p j hout _
        rw [Cells.set_apply, if_neg]
        rintro ⟨hp, rfl⟩
        exact hout ⟨hp, Nat.le_refl j, Int.le_refl j⟩
    have hone : ((c : ℤ) + 1 - c).toNat = 1 := by lia
    rw [Ring.redraw_span, hone] at hdraw
    rw [Ring.store_eq hphys hc]
    exact hdraw
  | true =>
    simp only [if_true]
    rw [Ring.store_eq hphys hc, Ring.shift_right_eq hphys]
    refine h.change_row (by lia) ?_ ?_
    · intro i hi j hj
      simp only [Cells.set_apply, Ring.withCells_cells, phys_inj hi hr, Plain.put_cell]
      refine if_congr Iff.rfl rfl ?_
      by_cases hin : i = r ∧ c < j
      · rw [if_pos ⟨hin.1, hin.2, hj⟩, if_pos ⟨trivial, hin.1, hin.2⟩, h.cells r hr (j - 1) (by lia), hin.1]
      · rw [if_neg (fun hin' => hin ⟨hin'.1, hin'.2.1⟩), if_neg (fun hin' => hin hin'.2), h.cells i hi j hj]
    · intro p j hout hj
      have hlast : (j : ℤ) ≤ (ltCols : ℤ) - 1 := by lia
      simp only [Cells.set_apply, Ring.withCells_cells]
      rw [if_neg (fun hin => hout ⟨hin.1, Nat.le_of_eq hin.2.symm, hlast⟩),
        if_neg (fun hin => hout ⟨hin.1, Nat.le_of_succ_le hin.2.1, hlast⟩)]

theorem Shows.insert_cells (h : Shows s g) (a : UInt8) {r c n : ℕ} (hr : r < ltRows) :
    Shows (s.insert_cells a r c n) (Plain.insert_cells a r c n ⟨g⟩).row := by
  unfold Ring.insert_cells
  rw [Ring.redraw_span_eq _ _ (by lia), Ring.erase_cells_eq, Ring.shift_right_eq (Ring.phys_lt s r)]
  refine h.change ?_ ?_
  · intro i hi j hj
    simp only [Ring.erased, Ring.withCells_cells, Ring.withCells_phys, Plain.insert_cells, phys_inj hi hr]
    by_cases hin : i = r ∧ c ≤ j
    · obtain ⟨rfl, hcol⟩ := hin
      rw [if_pos (show i = i ∧ c ≤ j from ⟨rfl, hcol⟩)]
      by_cases hmoved : c + n ≤ j
      · rw [if_neg (by lia), if_pos ⟨rfl, hmoved, hj⟩, if_pos hmoved, h.cells i hi (j - n) (by lia)]
      · rw [if_pos ⟨rfl, hj, by lia, by lia⟩, if_neg hmoved]
    · rw [if_neg (by lia), if_neg (by lia), if_neg hin, h.cells i hi j hj]
  · intro p hp j hj
    by_cases hdrawn : p = s.phys r ∧ c + n ≤ j ∧ (j : ℤ) ≤ (ltCols : ℤ) - 1
    · exact if_pos hdrawn
    · refine (if_neg hdrawn).trans ?_
      simp only [Ring.erased, Ring.withCells_cells, Ring.withCells_phys, Ring.withPanel_cell, Ring.withCells_panel]
      refine if_congr Iff.rfl rfl ?_
      rw [if_neg (by lia)]
      exact h.panel p hp j hj

theorem Shows.delete_cells (h : Shows s g) (a : UInt8) {r c n : ℕ} (hr : r < ltRows) (hn : c + n ≤ ltCols) :
    Shows (s.delete_cells a r c n) (Plain.delete_cells a r c n ⟨g⟩).row := by
  unfold Ring.delete_cells
  rw [Ring.erase_cells_eq, Ring.redraw_span_eq _ _ (by lia), Ring.shift_left_eq (Ring.phys_lt s r)]
  refine h.change ?_ ?_
  · intro i hi j hj
    simp only [Ring.erased, Ring.withCells_cells, Ring.withCells_phys, Ring.withPanel_cells, Ring.withPanel_phys,
      Plain.delete_cells, phys_inj hi hr]
    by_cases hin : i = r ∧ c ≤ j
    · obtain ⟨rfl, hcol⟩ := hin
      rw [if_pos (show i = i ∧ c ≤ j from ⟨rfl, hcol⟩)]
      by_cases hmoved : j + n < ltCols
      · rw [if_neg (by lia), if_pos ⟨rfl, hcol, hmoved⟩, if_pos hmoved, h.cells i hi (j + n) hmoved]
      · rw [if_pos ⟨rfl, hj, by lia, by lia⟩, if_neg hmoved]
    · rw [if_neg (by lia), if_neg (by lia), if_neg hin, h.cells i hi j hj]
  · intro p hp j hj
    simp only [Ring.erased, Ring.withCells_cells, Ring.withCells_phys, Ring.withPanel_cells, Ring.withPanel_cell,
      Ring.withPanel_phys]
    refine if_congr Iff.rfl rfl ?_
    by_cases hdrawn : p = s.phys r ∧ c ≤ j ∧ (j : ℤ) ≤ (ltCols : ℤ) - n - 1
    · exact if_pos hdrawn
    · refine (if_neg hdrawn).trans ?_
      rw [if_neg (by lia)]
      exact h.panel p hp j hj

/-! ## Clearing, and the cursor -/

/-- The rows before `k` of a ring that begins at row 0 are blank, in the store and on the panel. -/
structure Cleared (a : UInt8) (k : ℕ) (s : Ring) : Prop where
  hidden : s.drawn = none
  top : s.top = 0
  panel_top : s.panel.top = 0
  bounds : s.bounds = true
  blank : ∀ p < k, ∀ c < ltCols, s.cells p c = blank a ∧ s.panel.cell p c = blank a

theorem Cleared.erase_row {a : UInt8} {k : ℕ} (h : Cleared a k s) (hk : k < ltRows) :
    Cleared a (k + 1) (s.erase_cells a k 0 ltCols) := by
  have hphys : s.phys k = k := by
    rw [Ring.phys, h.top, Nat.zero_add, Nat.mod_eq_of_lt hk]
  rw [Ring.erase_cells_eq, hphys]
  refine ⟨h.hidden, h.top, h.panel_top, h.bounds, ?_⟩
  intro p hp c hc
  by_cases hrow : p = k
  · have hin : p = k ∧ c < ltCols ∧ (0 : ℤ) ≤ c ∧ (c : ℤ) < 0 + ltCols := ⟨hrow, hc, by lia, by lia⟩
    exact ⟨if_pos hin, if_pos hin⟩
  · obtain ⟨hcell, hpanel⟩ := h.blank p (by lia) c hc
    exact ⟨(if_neg fun hin => hrow hin.1).trans hcell, (if_neg fun hin => hrow hin.1).trans hpanel⟩

/-- Whatever the cells and the panel were before. -/
theorem shows_clear (hhidden : s.drawn = none) (hbounds : s.bounds = true) (a : UInt8) (g : Plain) :
    Shows (s.clear a) (g.clear a).row := by
  have hturns : ltRows - 1 + 1 - 0 = ltRows := by decide
  have hloop : Cleared a ltRows (s.clear a) := by
    unfold Ring.clear Ring.erase_rows
    rw [hturns]
    refine countUp_inv (Cleared a) ⟨hhidden, rfl, rfl, hbounds, nofun⟩ ?_
    intro k hk x hx
    rw [Nat.zero_add]
    exact hx.erase_row hk
  refine ⟨hloop.hidden, ?_, hloop.panel_top.trans hloop.top.symm, hloop.bounds, ?_, ?_⟩
  · rw [hloop.top]
    decide
  · intro r _ c hc
    exact (hloop.blank _ (Ring.phys_lt _ r) c hc).1
  · intro p hp c hc
    obtain ⟨hcell, hpanel⟩ := hloop.blank p hp c hc
    exact hpanel.trans hcell.symm

theorem Shows.cursor_hide (h : Shows s g) : s.cursor_hide = s := by
  unfold Ring.cursor_hide
  rw [h.hidden]

/-- The panel with the cursor over it. -/
theorem Shows.cursor_show_eq (h : Shows s g) (r : ℕ) {c : ℕ} (hc : c < ltCols) :
    s.cursor_show r c =
      { s.withPanel (s.panel.cell.set (s.phys r) c (s.cells (s.phys r) c).inverse) with drawn := some (s.phys r, c) } := by
  unfold Ring.cursor_show
  rw [h.hidden, Ring.touch_eq (Ring.phys_lt s r) hc]
  rfl

/-- The cursor that is drawn is undone. -/
theorem Shows.show_hide (h : Shows s g) (r : ℕ) {c : ℕ} (hc : c < ltCols) : Shows (s.cursor_show r c).cursor_hide g := by
  rw [h.cursor_show_eq r hc]
  unfold Ring.cursor_hide
  dsimp only
  rw [Ring.drawPhys_eq (Ring.phys_lt s r) hc]
  refine ⟨rfl, h.top_lt, h.panel_top, h.bounds, h.cells, ?_⟩
  intro p hp j hj
  simp only [Ring.withPanel_cell, Cells.set_apply, Ring.withPanel_cells]
  by_cases hat : p = s.phys r ∧ j = c
  · rw [if_pos hat, hat.1, hat.2]
  · rw [if_neg hat, if_neg hat]
    exact h.panel p hp j hj

end DiscoBSD.Lcdterm
