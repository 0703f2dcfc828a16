import Mathlib
import DiscoBSD.Lcdterm.Bounds
import DiscoBSD.Lcdterm.Shows

/-!
# The panel terminal refines a plain one

The same bytes go to the terminal over the ring and to the terminal over an array. **After each of them the two
differ in nothing but the way the cells are kept**, and the panel shows the cells.
-/

set_option autoImplicit false

namespace DiscoBSD.Lcdterm

open DiscoBSD.Lib
open Function (update)

/-- The two terminals while no cursor is drawn. -/
inductive Rel : Term Ring → Term Plain → Prop
  | intro {x : Ctl} {s : Ring} {g : Plain} (placed : x.Placed) (counted : x.Counted) (shows : Shows s g.row) :
      Rel ⟨x, s⟩ ⟨x, g⟩

variable {t : Term Ring} {t' : Term Plain}

namespace Rel

/-- The two cursors are at the same place, which is on the screen. -/
theorem crow_lt (h : Rel t t') : t'.toCtl = t.toCtl ∧ t.crow < ltRows := by
  obtain ⟨hplaced, -, -⟩ := h
  exact ⟨rfl, hplaced.crow⟩

/-! ## What changes the cells -/

theorem screen (h : Rel t t') {f : Ring → Ring} {f' : Plain → Plain}
    (hf : ∀ s (g : Plain), Shows s g.row → Shows (f s) (f' g).row) : Rel (t.onScreen f) (t'.onScreen f') := by
  obtain ⟨hplaced, hcounted, hshows⟩ := h
  exact ⟨hplaced, hcounted, hf _ _ hshows⟩

theorem erase_cells (h : Rel t t') {r : ℕ} (hr : r < ltRows) (c n : ℤ) :
    Rel (t.erase_cells r c n) (t'.erase_cells r c n) := by
  obtain ⟨hplaced, hcounted, hshows⟩ := h
  exact ⟨hplaced, hcounted, hshows.erase_cells _ hr c n⟩

theorem erase_rows (h : Rel t t') (r0 : ℕ) {r1 : ℕ} (hlast : r1 < ltRows) : Rel (t.erase_rows r0 r1) (t'.erase_rows r0 r1) :=
  countUp_rel Rel h fun k hk _ _ hx => hx.erase_cells (show r0 + k < ltRows by omega) 0 ltCols

theorem scroll_up (h : Rel t t') (top : ℕ) {b : ℕ} (hb : b < ltRows) (n : ℕ) :
    Rel (t.scroll_up top b n) (t'.scroll_up top b n) := by
  obtain ⟨hplaced, hcounted, hshows⟩ := h
  exact ⟨hplaced, hcounted, hshows.scroll_up _ hb n⟩

theorem scroll_down (h : Rel t t') (top : ℕ) {b : ℕ} (hb : b < ltRows) (n : ℕ) :
    Rel (t.scroll_down top b n) (t'.scroll_down top b n) := by
  obtain ⟨hplaced, hcounted, hshows⟩ := h
  exact ⟨hplaced, hcounted, hshows.scroll_down _ hb n⟩

/-! ## What does not -/

theorem ctl (h : Rel t t') {f : Ctl → Ctl} (hp : ∀ x : Ctl, x.Placed → (f x).Placed)
    (hc : ∀ x : Ctl, x.Counted → (f x).Counted) : Rel (t.onCtl f) (t'.onCtl f) := by
  obtain ⟨hplaced, hcounted, hshows⟩ := h
  exact ⟨hp _ hplaced, hc _ hcounted, hshows⟩

/-- No place and no parameter changes. -/
theorem plain (h : Rel t t') {f : Ctl → Ctl} (hp : ∀ x, (f x).place = x.place) (hc : ∀ x, (f x).counts = x.counts) :
    Rel (t.onCtl f) (t'.onCtl f) :=
  h.ctl (fun x hx => hx.of_place (hp x)) fun x hx => hx.of_counts (hc x)

/-- The cursor goes to the first column. -/
theorem first_col (h : Rel t t') :
    Rel { t with ccol := 0, wrapnext := false } { t' with ccol := 0, wrapnext := false } :=
  h.ctl (f := fun x => { x with ccol := 0, wrapnext := false }) (fun _ hx => (hx.goto hx.crow cols_pos).of_place rfl)
    fun _ hx => hx.of_counts rfl

/-- A wrap is no longer pending. -/
theorem no_wrap (h : Rel t t') : Rel { t with wrapnext := false } { t' with wrapnext := false } :=
  h.plain (f := fun x => { x with wrapnext := false }) (fun _ => rfl) fun _ => rfl

theorem state (h : Rel t t') (s : St) : Rel { t with state := s } { t' with state := s } :=
  h.plain (f := fun x => { x with state := s }) (fun _ => rfl) fun _ => rfl

/-! ## The functions of the terminal -/

theorem index_down (h : Rel t t') : Rel t.index_down t'.index_down := by
  have hscroll := fun hb : t.mbot < ltRows => h.scroll_up t.mtop hb 1
  obtain ⟨hplaced, hcounted, hshows⟩ := h
  rename_i x s g
  simp only [Term.index_down]
  by_cases hbot : x.crow = x.mbot
  · rw [if_pos hbot, if_pos hbot]
    exact hscroll hplaced.mbot
  · rw [if_neg hbot, if_neg hbot]
    by_cases hrow : x.crow < ltRows - 1
    · rw [if_pos hrow, if_pos hrow]
      have hnext : x.crow + 1 < ltRows := by omega
      exact ⟨(hplaced.goto hnext hplaced.ccol).of_place rfl, hcounted.of_counts rfl, hshows⟩
    · rw [if_neg hrow, if_neg hrow]
      exact ⟨hplaced, hcounted, hshows⟩

theorem index_up (h : Rel t t') : Rel t.index_up t'.index_up := by
  have hscroll := fun hb : t.mbot < ltRows => h.scroll_down t.mtop hb 1
  obtain ⟨hplaced, hcounted, hshows⟩ := h
  rename_i x s g
  simp only [Term.index_up]
  by_cases htop : x.crow = x.mtop
  · rw [if_pos htop, if_pos htop]
    exact hscroll hplaced.mbot
  · rw [if_neg htop, if_neg htop]
    by_cases hrow : x.crow > 0
    · rw [if_pos hrow, if_pos hrow]
      have hcrow := hplaced.crow
      have hnext : x.crow - 1 < ltRows := by omega
      exact ⟨(hplaced.goto hnext hplaced.ccol).of_place rfl, hcounted.of_counts rfl, hshows⟩
    · rw [if_neg hrow, if_neg hrow]
      exact ⟨hplaced, hcounted, hshows⟩

theorem advance (h : Rel t t') : Rel t.advance t'.advance := by
  obtain ⟨hplaced, hcounted, hshows⟩ := h
  rename_i x s g
  simp only [Term.advance]
  by_cases hlast : x.ccol = ltCols - 1
  · rw [if_pos hlast, if_pos hlast]
    by_cases hauto : x.autowrap = true
    · rw [if_pos hauto, if_pos hauto]
      exact ⟨hplaced.of_place rfl, hcounted.of_counts rfl, hshows⟩
    · rw [if_neg hauto, if_neg hauto]
      exact ⟨hplaced, hcounted, hshows⟩
  · rw [if_neg hlast, if_neg hlast]
    have hcol := hplaced.ccol
    have hnext : x.ccol + 1 < ltCols := by omega
    exact ⟨(hplaced.goto hplaced.crow hnext).of_place rfl, hcounted.of_counts rfl, hshows⟩

theorem put_cell (h : Rel t t') (ch : UInt8) :
    Rel (t.onScreen (Screen.put_cell t.insertmode t.crow t.ccol ⟨ch, t.cattr⟩))
      (t'.onScreen (Screen.put_cell t'.insertmode t'.crow t'.ccol ⟨ch, t'.cattr⟩)) := by
  obtain ⟨hplaced, hcounted, hshows⟩ := h
  exact ⟨hplaced, hcounted, hshows.put_cell _ hplaced.crow hplaced.ccol _⟩

theorem put_glyph (h : Rel t t') (ch : Char) : Rel (t.put_glyph ch) (t'.put_glyph ch) := by
  obtain ⟨hctl, -⟩ := h.crow_lt
  have hwrap' : t'.wrapnext = t.wrapnext := congrArg Ctl.wrapnext hctl
  unfold Term.put_glyph
  by_cases hwrap : t.wrapnext = true
  · rw [if_pos hwrap, if_pos (hwrap'.trans hwrap)]
    exact (h.first_col.index_down.put_cell _).advance
  · rw [if_neg hwrap, if_neg (hwrap' ▸ hwrap)]
    exact (h.put_cell _).advance

theorem erase_display (h : Rel t t') : Rel t.erase_display t'.erase_display := by
  obtain ⟨hctl, hrow⟩ := h.crow_lt
  unfold Term.erase_display
  rw [hctl]
  generalize (if t.nparam > 0 then t.params 0 else 0) = v
  match v with
  | 0 =>
    have herased := h.erase_cells hrow t.ccol (ltCols - t.ccol)
    obtain ⟨hctl', -⟩ := herased.crow_lt
    dsimp only
    rw [hctl']
    by_cases hbelow : (t.erase_cells t.crow t.ccol (ltCols - t.ccol)).crow < ltRows - 1
    · rw [if_pos hbelow, if_pos hbelow]
      exact herased.erase_rows _ rows_last
    · rw [if_neg hbelow, if_neg hbelow]
      exact herased
  | 1 =>
    dsimp only
    by_cases habove : t.crow > 0
    · rw [if_pos habove, if_pos habove]
      have herased := h.erase_rows 0 (show t.crow - 1 < ltRows by omega)
      obtain ⟨hctl', hrow'⟩ := herased.crow_lt
      rw [hctl']
      exact herased.erase_cells hrow' _ _
    · rw [if_neg habove, if_neg habove, hctl]
      exact h.erase_cells hrow _ _
  | 2 => exact h.erase_rows _ rows_last
  | n + 3 => exact h

theorem erase_line (h : Rel t t') : Rel t.erase_line t'.erase_line := by
  obtain ⟨hctl, hrow⟩ := h.crow_lt
  unfold Term.erase_line
  rw [hctl]
  generalize (if t.nparam > 0 then t.params 0 else 0) = v
  match v with
  | 0 => exact h.erase_cells hrow _ _
  | 1 => exact h.erase_cells hrow _ _
  | 2 => exact h.erase_cells hrow _ _
  | n + 3 => exact h

/-- The cells that are inserted or deleted are in the row. -/
theorem clamp_cells {c : ℕ} (hc : c < ltCols) (v : ℤ) : c + (clamp v 1 ((ltCols : ℤ) - c)).toNat ≤ ltCols := by
  have hbounds := clamp_bounds (v := v) (show (1 : ℤ) ≤ (ltCols : ℤ) - c by omega)
  omega

theorem insert_lines (h : Rel t t') (n : ℕ) (hb : t.mbot < ltRows) :
    Rel (if t.crow ≥ t.mtop ∧ t.crow ≤ t.mbot then t.scroll_down t.crow t.mbot n else t)
      (if t'.crow ≥ t'.mtop ∧ t'.crow ≤ t'.mbot then t'.scroll_down t'.crow t'.mbot n else t') := by
  obtain ⟨hctl, -⟩ := h.crow_lt
  rw [hctl]
  by_cases hregion : t.crow ≥ t.mtop ∧ t.crow ≤ t.mbot
  · rw [if_pos hregion, if_pos hregion]
    exact h.scroll_down _ hb n
  · rw [if_neg hregion, if_neg hregion]
    exact h

theorem delete_lines (h : Rel t t') (n : ℕ) (hb : t.mbot < ltRows) :
    Rel (if t.crow ≥ t.mtop ∧ t.crow ≤ t.mbot then t.scroll_up t.crow t.mbot n else t)
      (if t'.crow ≥ t'.mtop ∧ t'.crow ≤ t'.mbot then t'.scroll_up t'.crow t'.mbot n else t') := by
  obtain ⟨hctl, -⟩ := h.crow_lt
  rw [hctl]
  by_cases hregion : t.crow ≥ t.mtop ∧ t.crow ≤ t.mbot
  · rw [if_pos hregion, if_pos hregion]
    exact h.scroll_up _ hb n
  · rw [if_neg hregion, if_neg hregion]
    exact h

theorem reset_modes (h : Rel t t') : Rel (t.onCtl Ctl.reset_modes) (t'.onCtl Ctl.reset_modes) :=
  h.ctl (fun _ hx => Ctl.reset_modes_placed hx.crow hx.ccol) fun _ hx => hx.of_counts rfl

theorem do_csi (h : Rel t t') (final : Char) : Rel (t.do_csi final) (t'.do_csi final) := by
  obtain ⟨hctl, hrow⟩ := h.crow_lt
  unfold Term.do_csi
  rw [hctl]
  by_cases hinter : t.inter ≠ 0
  · rw [if_pos hinter, if_pos hinter]
    by_cases hreset : t.inter = '!'.toNat ∧ final = 'p'
    · rw [if_pos hreset, if_pos hreset]
      exact h.reset_modes
    · rw [if_neg hreset, if_neg hreset]
      exact h
  · rw [if_neg hinter, if_neg hinter]
    have hcells := h
    obtain ⟨hplaced, hcounted, hshows⟩ := hcells
    rename_i x s g
    split
    · exact h.erase_display
    · exact h.erase_line
    · exact (h.insert_lines _ hplaced.mbot).first_col
    · exact (h.delete_lines _ hplaced.mbot).first_col
    · exact (h.screen fun _ _ hs => hs.insert_cells _ hrow).no_wrap
    · exact (h.screen fun _ _ hs => hs.delete_cells _ hrow (clamp_cells hplaced.ccol _)).no_wrap
    · exact h.erase_cells hrow _ _
    · exact h.ctl (fun _ hx => hx.csi final) fun _ hx => hx.csi final

/-- Whatever was drawn. -/
theorem full_reset {x : Ctl} {s : Ring} {g : Plain} (hcounted : x.Counted) (hhidden : s.drawn = none)
    (hbounds : s.bounds = true) : Rel (Term.full_reset ⟨x, s⟩) (Term.full_reset ⟨x, g⟩) := by
  refine ⟨?_, hcounted.of_counts rfl, shows_clear hhidden hbounds _ g⟩
  exact ⟨rows_pos, cols_pos, by show 0 < ltRows - 1; decide, rows_last, rows_pos, cols_pos⟩

theorem esc_final (h : Rel t t') (c : Char) : Rel (t.esc_final c) (t'.esc_final c) := by
  have hground := h.state .ground
  unfold Term.esc_final
  dsimp only
  split
  · exact hground.ctl
      (f := fun x => { x with state := .csi, nparam := 0, params := update x.params 0 0, priv := 0, inter := 0 })
      (fun _ hx => hx.of_place rfl) fun _ hx => (hx.set_param (Nat.zero_le _) (by decide)).of_counts rfl
  · exact hground.plain (f := fun x => { x with state := .charset, inter := 0 }) (fun _ => rfl) fun _ => rfl
  · exact hground.plain (f := fun x => { x with state := .charset, inter := ')'.toNat }) (fun _ => rfl) fun _ => rfl
  · exact hground.plain (f := fun x => { x with state := .charset, inter := '*'.toNat }) (fun _ => rfl) fun _ => rfl
  · exact hground.plain (f := fun x => { x with state := .charset, inter := '+'.toNat }) (fun _ => rfl) fun _ => rfl
  · exact hground.ctl (fun _ hx => hx.save_cursor) fun _ hx => hx.of_counts rfl
  · exact hground.ctl (fun _ hx => hx.restore_cursor) fun _ hx => hx.of_counts rfl
  · exact hground.no_wrap.index_down
  · exact hground.first_col.index_down
  · exact hground.no_wrap.index_up
  · obtain ⟨-, hcounted, hshows⟩ := h
    exact full_reset (hcounted.of_counts rfl) hshows.hidden hshows.bounds
  · exact hground

theorem csi_byte (h : Rel t t') (c : ℕ) : Rel (t.csi_byte c) (t'.csi_byte c) := by
  unfold Term.csi_byte
  by_cases hdigit : c ≥ '0'.toNat ∧ c ≤ '9'.toNat
  · rw [if_pos hdigit, if_pos hdigit]
    have hd : c - '0'.toNat < 10 := by
      change c ≥ 48 ∧ c ≤ 57 at hdigit
      show c - 48 < 10
      omega
    exact h.ctl (fun _ hx => hx.of_place rfl) fun _ hx => hx.digit hd
  · rw [if_neg hdigit, if_neg hdigit]
    by_cases hsep : c = ';'.toNat
    · rw [if_pos hsep, if_pos hsep]
      exact h.ctl (fun x hx => hx.of_place x.separator_place) fun _ hx => hx.separator
    · rw [if_neg hsep, if_neg hsep]
      by_cases hpriv : c = '?'.toNat ∨ c = '>'.toNat
      · rw [if_pos hpriv, if_pos hpriv]
        exact h.plain (f := fun x => { x with priv := c }) (fun _ => rfl) fun _ => rfl
      · rw [if_neg hpriv, if_neg hpriv]
        by_cases hinter : c ≥ 0x20 ∧ c ≤ 0x2f
        · rw [if_pos hinter, if_pos hinter]
          exact h.plain (f := fun x => { x with inter := c }) (fun _ => rfl) fun _ => rfl
        · rw [if_neg hinter, if_neg hinter]
          by_cases hfinal : c ≥ 0x40 ∧ c ≤ 0x7e
          · rw [if_pos hfinal, if_pos hfinal]
            exact (h.state .ground).do_csi _
          · rw [if_neg hfinal, if_neg hfinal]
            by_cases habort : c = 0x18 ∨ c = 0x1a
            · rw [if_pos habort, if_pos habort]
              exact h.state .ground
            · rw [if_neg habort, if_neg habort]
              exact h

theorem control (h : Rel t t') (c : ℕ) : Rel (t.control c) (t'.control c) := by
  obtain ⟨hplaced, hcounted, hshows⟩ := id h
  rename_i x s g
  unfold Term.control
  split
  · dsimp only
    by_cases hwrap : x.wrapnext = true
    · rw [if_pos hwrap, if_pos hwrap]
      exact h.no_wrap
    · rw [if_neg hwrap, if_neg hwrap]
      by_cases hcol : x.ccol > 0
      · rw [if_pos hcol, if_pos hcol]
        have hprev : x.ccol - 1 < ltCols := Nat.lt_of_le_of_lt (Nat.sub_le _ _) hplaced.ccol
        exact ⟨(hplaced.goto hplaced.crow hprev).of_place rfl, hcounted.of_counts rfl, hshows⟩
      · rw [if_neg hcol, if_neg hcol]
        exact h
  · exact ⟨(hplaced.goto hplaced.crow (clamp_col_lt _)).of_place rfl, hcounted.of_counts rfl, hshows⟩
  · exact h.no_wrap.index_down
  · exact h.no_wrap.index_down
  · exact h.no_wrap.index_down
  · exact h.first_col
  · exact h.state .esc
  · exact h.plain (f := fun x => { x with bells := x.bells + 1 }) (fun _ => rfl) fun _ => rfl
  · exact h

/-- A byte, where the cursor has been hidden. -/
theorem take (h : Rel t t') (c : ℕ) : Rel (t.take c) (t'.take c) := by
  obtain ⟨hctl, -⟩ := h.crow_lt
  have hstate : t'.state = t.state := congrArg Ctl.state hctl
  have hgfx : t'.gfx = t.gfx := congrArg Ctl.gfx hctl
  unfold Term.take
  rw [hstate]
  generalize c &&& 0xff = c
  cases t.state with
  | esc =>
    dsimp only
    by_cases hesc : c = 0x1b
    · rw [if_pos hesc, if_pos hesc]
      exact h
    · rw [if_neg hesc, if_neg hesc]
      by_cases hlow : c < 0x20
      · rw [if_pos hlow, if_pos hlow]
        exact (h.state .ground).control c
      · rw [if_neg hlow, if_neg hlow]
        exact h.esc_final _
  | csi =>
    dsimp only
    by_cases hlow : c < 0x20 ∧ c ≠ 0x18 ∧ c ≠ 0x1a
    · rw [if_pos hlow, if_pos hlow]
      by_cases hesc : c = 0x1b
      · rw [if_pos hesc, if_pos hesc]
        exact h.state .esc
      · rw [if_neg hesc, if_neg hesc]
        exact h.control c
    · rw [if_neg hlow, if_neg hlow]
      exact h.csi_byte c
  | charset =>
    exact h.plain (f := fun x => { x with gfx := if x.inter = 0 then c = '0'.toNat else x.gfx, inter := 0, state := .ground })
      (fun _ => rfl) fun _ => rfl
  | ground =>
    dsimp only
    by_cases hlow : c < 0x20
    · rw [if_pos hlow, if_pos hlow]
      exact h.control c
    · rw [if_neg hlow, if_neg hlow]
      by_cases hdel : c = 0x7f
      · rw [if_pos hdel, if_pos hdel]
        exact h
      · rw [if_neg hdel, if_neg hdel, hgfx]
        exact h.put_glyph _

end Rel

/-! ## Between the calls -/

/-- The two terminals, where a cursor may be drawn over the panel. -/
inductive Matches : Term Ring → Term Plain → Prop
  | hidden {t : Term Ring} {t' : Term Plain} (h : Rel t t') : Matches t t'
  | drawn {x : Ctl} {s : Ring} {g : Plain} (h : Rel ⟨x, s⟩ ⟨x, g⟩) : Matches ⟨x, s.cursor_show x.crow x.ccol⟩ ⟨x, g⟩

/-- The cursor is undone, whether it was drawn or not. -/
theorem Matches.hide (h : Matches t t') : Rel (t.onScreen Screen.cursor_hide) (t'.onScreen Screen.cursor_hide) := by
  cases h with
  | hidden h =>
    obtain ⟨hplaced, hcounted, hshows⟩ := h
    refine ⟨hplaced, hcounted, ?_⟩
    show Shows (Ring.cursor_hide _) _
    rw [hshows.cursor_hide]
    exact hshows
  | drawn h =>
    cases h with
    | intro hplaced hcounted hshows => exact ⟨hplaced, hcounted, hshows.show_hide _ hplaced.ccol⟩

theorem Matches.show (h : Matches t t') : Matches t.lcdterm_cursor_show t'.lcdterm_cursor_show := by
  cases h with
  | hidden h =>
    obtain ⟨hplaced, hcounted, hshows⟩ := h
    rename_i x s g
    unfold Term.lcdterm_cursor_show
    dsimp only
    by_cases hon : x.cursor_on = true
    · rw [if_pos hon, if_pos hon]
      exact .drawn ⟨hplaced, hcounted, hshows⟩
    · rw [if_neg hon, if_neg hon]
      exact .hidden ⟨hplaced, hcounted, hshows⟩
  | @drawn x s g h =>
    have hsame : Ring.cursor_show x.crow x.ccol (Ring.cursor_show x.crow x.ccol s) = s.cursor_show x.crow x.ccol := by
      cases h with
      | intro hplaced _ hshows =>
        rw [hshows.cursor_show_eq _ hplaced.ccol]
        rfl
    unfold Term.lcdterm_cursor_show
    dsimp only
    by_cases hon : x.cursor_on = true
    · rw [if_pos hon, if_pos hon]
      simp only [Term.onScreen, Screen.cursor_show, hsame]
      exact .drawn h
    · rw [if_neg hon, if_neg hon]
      exact .drawn h

theorem Matches.init (h : Matches t t') : Matches t.lcdterm_init t'.lcdterm_init := by
  cases h with
  | hidden h =>
    obtain ⟨hplaced, hcounted, hshows⟩ := h
    exact .hidden (Rel.full_reset hcounted rfl hshows.bounds)
  | @drawn x s g h =>
    cases h with
    | intro hplaced hcounted hshows =>
      refine .hidden (Rel.full_reset hcounted rfl ?_)
      show (s.cursor_show x.crow x.ccol).bounds = true
      rw [hshows.cursor_show_eq _ hplaced.ccol]
      exact hshows.bounds

theorem Matches.step (h : Matches t t') (e : Term.Event) : Matches (t.step e) (t'.step e) := by
  cases e with
  | init => exact h.init
  | putc c => exact .hidden (h.hide.take c)
  | «show» => exact h.show
  | hide => exact .hidden h.hide

/-- The variables at boot, with what the cells and the panel hold. -/
def Term.boot (cells : Cells) (panel : Panel) : Term Ring := ⟨.boot, ⟨cells, 0, none, panel, true⟩⟩

/-- The plain terminal at boot. -/
def Term.bootPlain (row : Cells) : Term Plain := ⟨.boot, ⟨row⟩⟩

theorem matches_run (cells : Cells) (panel : Panel) (row : Cells) (events : List Term.Event) :
    Matches ((Term.boot cells panel).lcdterm_init.run events) ((Term.bootPlain row).lcdterm_init.run events) := by
  have hboot : Ctl.boot.Counted := ⟨by decide, fun _ => by show 0 < 10 * (ltParamMax + 1); decide, rfl, nofun⟩
  have hinit : Rel (Term.boot cells panel).lcdterm_init (Term.bootPlain row).lcdterm_init :=
    Rel.full_reset (s := ⟨cells, 0, none, panel, true⟩) (g := ⟨row⟩) hboot rfl rfl
  exact List.foldl_rel (.hidden hinit) fun e _ _ _ h => h.step e

/-! ## What a run keeps -/

/-- The terminal over the ring looks as the plain one, and the panel shows its cells. -/
structure Refines (t : Term Ring) (t' : Term Plain) : Prop where
  ctl : t.toCtl = t'.toCtl
  cells : ∀ r < ltRows, ∀ c < ltCols, t.lcdterm_cell r c = t'.screen.row r c
  panel_top : t.screen.panel.top = t.screen.top
  panel : ∀ p < ltRows, ∀ c < ltCols, t.screen.drawn ≠ some (p, c) → t.screen.panel.cell p c = t.screen.cells p c
  /-- The cursor that is drawn is the cursor of the terminal, over the cell that is there. -/
  cursor : ∀ p c, t.screen.drawn = some (p, c) →
    p = t.screen.phys t.crow ∧ c = t.ccol ∧ t.screen.panel.cell p c = (t.screen.cells p c).inverse

theorem Matches.refines (h : Matches t t') : Refines t t' := by
  cases h with
  | hidden h =>
    obtain ⟨-, -, hshows⟩ := h
    refine ⟨rfl, hshows.cells, hshows.panel_top, fun p hp c hc _ => hshows.panel p hp c hc, fun p c hd => ?_⟩
    cases hshows.hidden.symm.trans hd
  | @drawn x s g h =>
    cases h with
    | intro hplaced _ hshows =>
      rw [hshows.cursor_show_eq _ hplaced.ccol]
      refine ⟨rfl, hshows.cells, hshows.panel_top, fun p hp c hc hd => ?_, fun p c hd => ?_⟩
      · have hout : ¬(p = s.phys x.crow ∧ c = x.ccol) := by
          rintro ⟨rfl, rfl⟩
          exact hd rfl
        exact (Cells.set_apply ..).trans ((if_neg hout).trans (hshows.panel p hp c hc))
      · obtain ⟨rfl, rfl⟩ := Prod.mk.inj (Option.some.inj hd)
        exact ⟨rfl, rfl, (Cells.set_apply ..).trans (if_pos ⟨rfl, rfl⟩)⟩

/-- **The panel terminal refines a plain terminal**, and the panel shows the cells except where the cursor is drawn. -/
theorem panel_refines_plain (cells : Cells) (panel : Panel) (row : Cells) (events : List Term.Event) :
    Refines ((Term.boot cells panel).lcdterm_init.run events) ((Term.bootPlain row).lcdterm_init.run events) :=
  (matches_run cells panel row events).refines

/-- Everything that is an index, a place or a size is in range. -/
structure InBounds (t : Term Ring) : Prop where
  cursor : t.crow < ltRows ∧ t.ccol < ltCols
  saved : t.saved.row < ltRows ∧ t.saved.col < ltCols
  region : 0 ≤ t.mtop ∧ t.mtop < t.mbot ∧ t.mbot < ltRows
  top : t.screen.top < ltRows
  nparam : t.nparam ≤ ltNparam
  params : ∀ i, t.params i < 2 ^ 31
  replies : ∀ s ∈ t.replies, s.length ≤ 16
  indices : t.bounds = true ∧ t.screen.bounds = true

theorem Rel.inBounds (h : Rel t t') : InBounds t := by
  obtain ⟨hplaced, hcounted, hshows⟩ := h
  have hint : 10 * (ltParamMax + 1) ≤ 2 ^ 31 := by decide
  exact ⟨⟨hplaced.crow, hplaced.ccol⟩, ⟨hplaced.row, hplaced.col⟩, ⟨Nat.zero_le _, hplaced.region, hplaced.mbot⟩,
    hshows.top_lt, hcounted.nparam, fun i => Nat.lt_of_lt_of_le (hcounted.params i) hint, hcounted.replies,
    hcounted.bounds, hshows.bounds⟩

theorem Matches.inBounds (h : Matches t t') : InBounds t := by
  cases h with
  | hidden h => exact h.inBounds
  | @drawn x s g h =>
    obtain ⟨hcursor, hsaved, hregion, htop, hnparam, hparams, hreplies, hindices⟩ := h.inBounds
    cases h with
    | intro hplaced _ hshows =>
      rw [hshows.cursor_show_eq _ hplaced.ccol]
      exact ⟨hcursor, hsaved, hregion, htop, hnparam, hparams, hreplies, hindices⟩

/-- **The terminal stays in bounds on any input.** -/
theorem stays_in_bounds (cells : Cells) (panel : Panel) (events : List Term.Event) :
    InBounds ((Term.boot cells panel).lcdterm_init.run events) :=
  (matches_run cells panel cells events).inBounds

end DiscoBSD.Lcdterm
