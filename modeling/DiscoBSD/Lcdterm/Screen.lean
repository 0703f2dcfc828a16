import Mathlib.Data.Int.Notation
import Mathlib.Logic.Function.Basic
import Mathlib.Tactic.Set
import DiscoBSD.Lib.Loops

/-!
# Cells, and what a terminal does with them

The sizes and the attribute byte of `sys/arch/rp2040/dev/lcdterm.h`, the ring of rows of `lcdterm.c` with the panel
that it draws on, and the array of rows that a plain terminal keeps. **Each way to keep the cells has its own
operations**; the terminal above them is the same one.
-/

set_option autoImplicit false

namespace DiscoBSD.Lcdterm

open DiscoBSD.Lib
open Function (update)

def ltCols : ℕ := 53
def ltRows : ℕ := 32

/-! ## Cells -/

def ltAttrUl : ℕ := 0x80

/-- `LT_ATTR`, as it is stored in a byte. -/
def ltAttr (fg bg : ℕ) (ul : Bool) : UInt8 :=
  UInt8.ofNat ((fg &&& 0x0f) ||| ((bg &&& 0x07) <<< 4) ||| (if ul then ltAttrUl else 0))

def ltAttrFg (a : UInt8) : ℕ := a.toNat &&& 0x0f
def ltAttrBg (a : UInt8) : ℕ := (a.toNat >>> 4) &&& 0x07

/-- What `cells` and `attrs` hold at one place. -/
structure Cell where
  ch : UInt8
  attr : UInt8
  deriving DecidableEq

def blank (a : UInt8) : Cell := ⟨' '.toUInt8, a⟩

/-- How the cursor is drawn over a cell. -/
def Cell.inverse (x : Cell) : Cell where
  ch := x.ch
  attr := ltAttr (ltAttrBg x.attr) (ltAttrFg x.attr &&& 7) (x.attr.toNat &&& ltAttrUl ≠ 0)

/-- An array of `LT_ROWS` rows of `LT_COLS` cells. -/
abbrev Cells := ℕ → ℕ → Cell

/-- One cell is stored. -/
def Cells.set (m : Cells) (r c : ℕ) (x : Cell) : Cells := update m r (update (m r) c x)

/-- The operations that the terminal uses; rows and columns are those of the screen. -/
class Screen (σ : Type) where
  /-- `cursor_drawn = 0`. -/
  cursor_forget : σ → σ
  cursor_hide : σ → σ
  cursor_show (crow ccol : ℕ) : σ → σ
  erase_cells (a : UInt8) (r : ℕ) (c n : ℤ) : σ → σ
  scroll_up (a : UInt8) (t b n : ℕ) : σ → σ
  scroll_down (a : UInt8) (t b n : ℕ) : σ → σ
  /-- The cells from `c` on move right where `insertmode` is set, and a cell is written. -/
  put_cell (insertmode : Bool) (r c : ℕ) (x : Cell) : σ → σ
  /-- The cells from `c` on move right by `n`. -/
  insert_cells (a : UInt8) (r c n : ℕ) : σ → σ
  /-- The cells after `c` move left by `n`. -/
  delete_cells (a : UInt8) (r c n : ℕ) : σ → σ
  /-- All rows are blank, from the first row of the panel on. -/
  clear (a : UInt8) : σ → σ

/-! ## The panel -/

/-- What the panel shows at each physical row, and the physical row on its first line. -/
structure Panel where
  cell : Cells
  top : ℕ

def Panel.lcd_draw_cell (prow col : ℕ) (x : Cell) (m : Panel) : Panel := { m with cell := m.cell.set prow col x }

def Panel.lcd_fill_cells (prow col n : ℕ) (a : UInt8) (m : Panel) : Panel :=
  { m with cell := fun p c => if p = prow ∧ col ≤ c ∧ c < col + n then blank a else m.cell p c }

def Panel.lcd_set_top (prow : ℕ) (m : Panel) : Panel := { m with top := prow }

/-! ## The ring of rows -/

structure Ring where
  cells : Cells
  top : ℕ
  /-- `cd_prow` and `cd_col` where `cursor_drawn` is set. -/
  drawn : Option (ℕ × ℕ)
  panel : Panel
  /-- Each row and column that was used as an index was in range. -/
  bounds : Bool

namespace Ring

def phys (s : Ring) (r : ℕ) : ℕ := (s.top + r) % ltRows

/-- The arrays and the panel are indexed with `p` and `c`. -/
def touch (p c : ℕ) (s : Ring) : Ring := { s with bounds := s.bounds && decide (p < ltRows ∧ c < ltCols) }

/-- `lcd_draw_cell` of a cell of the store. -/
def drawPhys (p c : ℕ) (s : Ring) : Ring := { s.touch p c with panel := s.panel.lcd_draw_cell p c (s.cells p c) }

def draw (r c : ℕ) (s : Ring) : Ring := s.drawPhys (s.phys r) c

def redraw_span (r c0 : ℕ) (c1 : ℤ) (s : Ring) : Ring := countUp (draw r) c0 (c1 + 1 - c0).toNat s

def cursor_hide (s : Ring) : Ring :=
  match s.drawn with
  | some (p, c) => { s.drawPhys p c with drawn := none }
  | none => s

/-- `lcdterm_cursor_show` where `cursor_on` is set. -/
def cursor_show (crow ccol : ℕ) (s : Ring) : Ring :=
  match s.drawn with
  | some _ => s
  | none =>
    { s.touch (s.phys crow) ccol with
      panel := s.panel.lcd_draw_cell (s.phys crow) ccol (s.cells (s.phys crow) ccol).inverse
      drawn := some (s.phys crow, ccol) }

def store (p c : ℕ) (x : Cell) (s : Ring) : Ring := { s.touch p c with cells := s.cells.set p c x }

/-- A cell is stored in another place. -/
def copy_cell (p c q d : ℕ) (s : Ring) : Ring := (s.touch q d).store p c (s.cells q d)

def erase_cells (a : UInt8) (r : ℕ) (c n : ℤ) (s : Ring) : Ring :=
  let p := s.phys r
  let n := if c < 0 then n + c else n
  let c := if c < 0 then 0 else c
  let n := if c + n > ltCols then ltCols - c else n
  if n ≤ 0 then s
  else
    let s := countUp (fun i => store p i (blank a)) c.toNat n.toNat s
    { s.touch p (c.toNat + n.toNat - 1) with panel := s.panel.lcd_fill_cells p c.toNat n.toNat a }

def erase_rows (a : UInt8) (r0 r1 : ℕ) (s : Ring) : Ring :=
  countUp (fun r => erase_cells a r 0 ltCols) r0 (r1 + 1 - r0) s

def copy_row (dst src : ℕ) (s : Ring) : Ring :=
  let pd := s.phys dst
  let ps := s.phys src
  countUp (fun c => copy_cell pd c ps c) 0 ltCols s

/-- A turn of the loop that moves rows. -/
def move_row (dst src : ℕ) (s : Ring) : Ring := (s.copy_row dst src).redraw_span dst 0 (ltCols - 1)

def set_top (top : ℕ) (s : Ring) : Ring := { s with top, panel := s.panel.lcd_set_top top }

/-- A turn of the loop that scrolls the whole screen up. -/
def rotate_up (a : UInt8) (s : Ring) : Ring :=
  let s := s.erase_cells a 0 0 ltCols
  s.set_top ((s.top + 1) % ltRows)

/-- A turn of the loop that scrolls the whole screen down. -/
def rotate_down (a : UInt8) (s : Ring) : Ring :=
  let s := s.erase_cells a (ltRows - 1) 0 ltCols
  s.set_top ((s.top + ltRows - 1) % ltRows)

def scroll_up (a : UInt8) (t b n : ℕ) (s : Ring) : Ring :=
  let n := if n > b + 1 - t then b + 1 - t else n
  if n = 0 then s
  else if t = 0 ∧ b = ltRows - 1 then countUp (fun _ => rotate_up a) 0 n s
  else (countUp (fun r => move_row r (r + n)) t (b + 1 - n - t) s).erase_rows a (b + 1 - n) b

def scroll_down (a : UInt8) (t b n : ℕ) (s : Ring) : Ring :=
  let n := if n > b + 1 - t then b + 1 - t else n
  if n = 0 then s
  else if t = 0 ∧ b = ltRows - 1 then countUp (fun _ => rotate_down a) 0 n s
  else (countDown (fun r => move_row r (r - n)) (t + n) (b + 1 - (t + n)) s).erase_rows a t (t + n - 1)

/-- The cells of a physical row from `c` on move right by `n`, the last first. -/
def shift_right (p c n : ℕ) (s : Ring) : Ring :=
  countDown (fun i => copy_cell p i p (i - n)) (c + n) (ltCols - (c + n)) s

/-- The cells of a physical row after `c` move left by `n`, the first first. -/
def shift_left (p c n : ℕ) (s : Ring) : Ring :=
  countUp (fun i => copy_cell p i p (i + n)) c (ltCols - (c + n)) s

/-- `put_glyph` from where the row is known. -/
def put_cell (insertmode : Bool) (r c : ℕ) (x : Cell) (s : Ring) : Ring :=
  let p := s.phys r
  let s := if insertmode then s.shift_right p c 1 else s
  let s := s.store p c x
  if insertmode then s.redraw_span r c (ltCols - 1) else s.draw r c

def insert_cells (a : UInt8) (r c n : ℕ) (s : Ring) : Ring :=
  ((s.shift_right (s.phys r) c n).erase_cells a r c n).redraw_span r (c + n) (ltCols - 1)

def delete_cells (a : UInt8) (r c n : ℕ) (s : Ring) : Ring :=
  ((s.shift_left (s.phys r) c n).redraw_span r c (ltCols - n - 1)).erase_cells a r (ltCols - n) n

def clear (a : UInt8) (s : Ring) : Ring := (s.set_top 0).erase_rows a 0 (ltRows - 1)

end Ring

instance : Screen Ring where
  cursor_forget s := { s with drawn := none }
  cursor_hide := Ring.cursor_hide
  cursor_show := Ring.cursor_show
  erase_cells := Ring.erase_cells
  scroll_up := Ring.scroll_up
  scroll_down := Ring.scroll_down
  put_cell := Ring.put_cell
  insert_cells := Ring.insert_cells
  delete_cells := Ring.delete_cells
  clear := Ring.clear

/-! ## The plain array -/

/-- The rows of the screen in order. -/
structure Plain where
  row : Cells

namespace Plain

def erase_cells (a : UInt8) (r : ℕ) (c n : ℤ) (g : Plain) : Plain where
  row i j := if i = r ∧ c ≤ j ∧ (j : ℤ) < c + n then blank a else g.row i j

def scroll_up (a : UInt8) (t b n : ℕ) (g : Plain) : Plain where
  row i := if t ≤ i ∧ i ≤ b then (if i + n ≤ b then g.row (i + n) else fun _ => blank a) else g.row i

def scroll_down (a : UInt8) (t b n : ℕ) (g : Plain) : Plain where
  row i := if t ≤ i ∧ i ≤ b then (if t + n ≤ i then g.row (i - n) else fun _ => blank a) else g.row i

def insert_cells (a : UInt8) (r c n : ℕ) (g : Plain) : Plain where
  row i j := if i = r ∧ c ≤ j then (if c + n ≤ j then g.row i (j - n) else blank a) else g.row i j

def delete_cells (a : UInt8) (r c n : ℕ) (g : Plain) : Plain where
  row i j := if i = r ∧ c ≤ j then (if j + n < ltCols then g.row i (j + n) else blank a) else g.row i j

def put_cell (insertmode : Bool) (r c : ℕ) (x : Cell) (g : Plain) : Plain where
  row i j :=
    if i = r ∧ j = c then x else if insertmode ∧ i = r ∧ c < j then g.row i (j - 1) else g.row i j

def clear (a : UInt8) (_ : Plain) : Plain := ⟨fun _ _ => blank a⟩

end Plain

/-- A cursor is not drawn over a plain array. -/
instance : Screen Plain where
  cursor_forget g := g
  cursor_hide g := g
  cursor_show _ _ g := g
  erase_cells := Plain.erase_cells
  scroll_up := Plain.scroll_up
  scroll_down := Plain.scroll_down
  put_cell := Plain.put_cell
  insert_cells := Plain.insert_cells
  delete_cells := Plain.delete_cells
  clear := Plain.clear

end DiscoBSD.Lcdterm

/-!
# What the loops over a row do

Each loop of the ring as one change of the cell store or of the panel. **A cell that moves is read before it is
written**: the cells that move right are taken from the last one on, the cells that move left from the first.
-/

namespace DiscoBSD.Lcdterm

open DiscoBSD.Lib

@[simp] theorem Cells.set_apply (m : Cells) (r c : ℕ) (x : Cell) (p q : ℕ) :
    m.set r c x p q = if p = r ∧ q = c then x else m p q := by
  unfold Cells.set
  by_cases hp : p = r
  · subst hp
    by_cases hq : q = c
    · subst hq
      simp
    · simp [hq]
  · simp [hp]

/-- One more cell of a span has been set. -/
theorem Cells.set_span {m new : Cells} {r l k : ℕ} {x : Cell} (hx : x = new r (l + k)) :
    Cells.set (fun p c => if p = r ∧ l ≤ c ∧ c < l + k then new p c else m p c) r (l + k) x =
      fun p c => if p = r ∧ l ≤ c ∧ c < l + (k + 1) then new p c else m p c := by
  funext p c
  rw [Cells.set_apply]
  by_cases hnew : p = r ∧ c = l + k
  · rw [if_pos hnew, if_pos ⟨hnew.1, by omega, by omega⟩, hx, hnew.1, hnew.2]
  · rw [if_neg hnew]
    refine if_congr ?_ rfl rfl
    omega

/-- The same, where the span grows from its end. -/
theorem Cells.set_span_left {m new : Cells} {r l hi : ℕ} {x : Cell} (hlo : l < hi) (hx : x = new r l) :
    Cells.set (fun p c => if p = r ∧ l + 1 ≤ c ∧ c < hi then new p c else m p c) r l x =
      fun p c => if p = r ∧ l ≤ c ∧ c < hi then new p c else m p c := by
  funext p c
  rw [Cells.set_apply]
  by_cases hnew : p = r ∧ c = l
  · rw [if_pos hnew, if_pos ⟨hnew.1, by omega, by omega⟩, hx, hnew.1, hnew.2]
  · rw [if_neg hnew]
    refine if_congr ?_ rfl rfl
    omega

theorem Cells.span_zero (m new : Cells) (r l : ℕ) :
    (fun p c => if p = r ∧ l ≤ c ∧ c < l then new p c else m p c) = m := by
  funext p c
  refine if_neg ?_
  omega

namespace Ring

def withCells (m : Cells) (s : Ring) : Ring := { s with cells := m }
def withPanel (m : Cells) (s : Ring) : Ring := { s with panel := { s.panel with cell := m } }

variable {s : Ring}

@[simp] theorem withCells_phys (m : Cells) (r : ℕ) : (s.withCells m).phys r = s.phys r := rfl
@[simp] theorem withCells_cells (m : Cells) : (s.withCells m).cells = m := rfl
@[simp] theorem withCells_panel (m : Cells) : (s.withCells m).panel = s.panel := rfl
@[simp] theorem withPanel_phys (m : Cells) (r : ℕ) : (s.withPanel m).phys r = s.phys r := rfl
@[simp] theorem withPanel_cells (m : Cells) : (s.withPanel m).cells = s.cells := rfl
@[simp] theorem withPanel_cell (m : Cells) : (s.withPanel m).panel.cell = m := rfl
@[simp] theorem withPanel_top (m : Cells) : (s.withPanel m).panel.top = s.panel.top := rfl

theorem phys_lt (s : Ring) (r : ℕ) : s.phys r < ltRows := Nat.mod_lt _ (by decide)

theorem touch_eq {p c : ℕ} (hp : p < ltRows) (hc : c < ltCols) (s : Ring) : s.touch p c = s := by
  unfold touch
  rw [decide_eq_true ⟨hp, hc⟩, Bool.and_true]

theorem drawPhys_eq {p c : ℕ} (hp : p < ltRows) (hc : c < ltCols) (s : Ring) :
    s.drawPhys p c = s.withPanel (s.panel.cell.set p c (s.cells p c)) := by
  unfold drawPhys
  rw [touch_eq hp hc]
  rfl

theorem store_eq {p c : ℕ} (hp : p < ltRows) (hc : c < ltCols) (x : Cell) (s : Ring) :
    s.store p c x = s.withCells (s.cells.set p c x) := by
  unfold store
  rw [touch_eq hp hc]
  rfl

theorem copy_cell_eq {p c q d : ℕ} (hp : p < ltRows) (hc : c < ltCols) (hq : q < ltRows) (hd : d < ltCols) (s : Ring) :
    s.copy_cell p c q d = s.withCells (s.cells.set p c (s.cells q d)) := by
  unfold copy_cell
  rw [touch_eq hq hd, store_eq hp hc]

/-- The part of a row that is drawn again shows the store. -/
theorem redraw_span_eq (r c0 : ℕ) {c1 : ℤ} (hc1 : c1 < ltCols) (s : Ring) :
    s.redraw_span r c0 c1 = s.withPanel fun p c =>
      if p = s.phys r ∧ c0 ≤ c ∧ (c : ℤ) ≤ c1 then s.cells p c else s.panel.cell p c := by
  have hloop := countUp_inv (f := draw r) (l := c0) (n := (c1 + 1 - c0).toNat) (s := s) (fun k x =>
    x = s.withPanel fun p c =>
      if p = s.phys r ∧ c0 ≤ c ∧ c < c0 + k then s.cells p c else s.panel.cell p c) ?_ ?_
  · refine hloop.trans (congrArg s.withPanel ?_)
    funext p c
    refine if_congr ?_ rfl rfl
    omega
  · exact (congrArg s.withPanel (Cells.span_zero ..)).symm
  · rintro k hk x rfl
    refine (drawPhys_eq (phys_lt _ r) (show c0 + k < ltCols by omega) _).trans ?_
    exact congrArg s.withPanel (Cells.set_span rfl)

/-- Cells of a row that are stored one after the other, each from the store as it was. -/
theorem stores_eq {p l n : ℕ} {f : ℕ → Ring → Ring} {y : Cells}
    (hturn : ∀ k < n, ∀ m : Cells, m = (fun q c => if q = p ∧ l ≤ c ∧ c < l + k then y q c else s.cells q c) →
      f (l + k) (s.withCells m) = s.withCells (m.set p (l + k) (y p (l + k)))) :
    countUp f l n s =
      s.withCells fun q c => if q = p ∧ l ≤ c ∧ c < l + n then y q c else s.cells q c := by
  refine countUp_inv (fun k x =>
    x = s.withCells fun q c => if q = p ∧ l ≤ c ∧ c < l + k then y q c else s.cells q c) ?_ ?_
  · exact (congrArg s.withCells (Cells.span_zero ..)).symm
  · rintro k hk x rfl
    rw [hturn k hk _ rfl, Cells.set_span rfl]

/-- The same, the last first. -/
theorem stores_down_eq {p l n : ℕ} {f : ℕ → Ring → Ring} {y : Cells}
    (hturn : ∀ k < n, ∀ m : Cells,
      m = (fun q c => if q = p ∧ l + k + 1 ≤ c ∧ c < l + n then y q c else s.cells q c) →
      f (l + k) (s.withCells m) = s.withCells (m.set p (l + k) (y p (l + k)))) :
    countDown f l n s =
      s.withCells fun q c => if q = p ∧ l ≤ c ∧ c < l + n then y q c else s.cells q c := by
  refine countDown_inv (fun k x =>
    x = s.withCells fun q c => if q = p ∧ l + k ≤ c ∧ c < l + n then y q c else s.cells q c) ?_ ?_
  · exact (congrArg s.withCells (Cells.span_zero ..)).symm
  · rintro k hk x rfl
    rw [← Nat.add_assoc, hturn k hk _ rfl, Cells.set_span_left (Nat.add_lt_add_left hk l) rfl]

theorem copy_row_eq (dst src : ℕ) (s : Ring) :
    s.copy_row dst src = s.withCells fun p c =>
      if p = s.phys dst ∧ c < ltCols then s.cells (s.phys src) c else s.cells p c := by
  have hloop := stores_eq (s := s) (p := s.phys dst) (l := 0) (n := ltCols)
    (f := fun i => copy_cell (s.phys dst) i (s.phys src) i) (y := fun _ => s.cells (s.phys src)) ?_
  · refine hloop.trans (congrArg s.withCells ?_)
    funext p c
    refine if_congr ?_ rfl rfl
    omega
  · rintro k hk m rfl
    have hcol : 0 + k < ltCols := by omega
    rw [copy_cell_eq (phys_lt s dst) hcol (phys_lt s src) hcol, withCells_cells, if_neg (by omega)]
    rfl

theorem shift_right_eq {p : ℕ} (hp : p < ltRows) (c n : ℕ) (s : Ring) :
    s.shift_right p c n = s.withCells fun q i =>
      if q = p ∧ c + n ≤ i ∧ i < ltCols then s.cells p (i - n) else s.cells q i := by
  have hloop := stores_down_eq (s := s) (p := p) (l := c + n) (n := ltCols - (c + n))
    (f := fun i => copy_cell p i p (i - n)) (y := fun _ i => s.cells p (i - n)) ?_
  · refine hloop.trans (congrArg s.withCells ?_)
    funext q i
    refine if_congr ?_ rfl rfl
    omega
  · rintro k hk m rfl
    rw [copy_cell_eq hp (by omega) hp (by omega), withCells_cells, if_neg (by omega)]
    rfl

theorem shift_left_eq {p : ℕ} (hp : p < ltRows) (c n : ℕ) (s : Ring) :
    s.shift_left p c n = s.withCells fun q i =>
      if q = p ∧ c ≤ i ∧ i + n < ltCols then s.cells p (i + n) else s.cells q i := by
  have hloop := stores_eq (s := s) (p := p) (l := c) (n := ltCols - (c + n))
    (f := fun i => copy_cell p i p (i + n)) (y := fun _ i => s.cells p (i + n)) ?_
  · refine hloop.trans (congrArg s.withCells ?_)
    funext q i
    refine if_congr ?_ rfl rfl
    omega
  · rintro k hk m rfl
    rw [copy_cell_eq hp (by omega) hp (by omega), withCells_cells]
    refine congrArg s.withCells (congrArg (Cells.set _ p (c + k)) (if_neg ?_))
    omega

/-- `m` with the part from `c` of row `p` blank. -/
def erased (a : UInt8) (p : ℕ) (c n : ℤ) (m : Cells) : Cells := fun q i =>
  if q = p ∧ i < ltCols ∧ c ≤ i ∧ (i : ℤ) < c + n then blank a else m q i

/-- The cells that are erased, in the store and on the panel. -/
theorem erase_cells_eq (a : UInt8) (r : ℕ) (c n : ℤ) (s : Ring) :
    s.erase_cells a r c n =
      (s.withCells (erased a (s.phys r) c n s.cells)).withPanel (erased a (s.phys r) c n s.panel.cell) := by
  unfold erase_cells
  dsimp only
  set c' := if c < 0 then 0 else c with hc'
  set n' := if c < 0 then n + c else n with hn'
  set n'' := if c' + n' > ltCols then ltCols - c' else n' with hn''
  -- The part that is left is the part on the screen.
  have hpart : ∀ i : ℕ, (i < ltCols ∧ c ≤ i ∧ (i : ℤ) < c + n) ↔ (c' ≤ i ∧ (i : ℤ) < c' + n'') := by
    intro i
    grind
  have hc0 : 0 ≤ c' := by grind
  have hspan : ∀ m : Cells, (fun q i => if q = s.phys r ∧ c'.toNat ≤ i ∧ i < c'.toNat + n''.toNat
      then blank a else m q i) = erased a (s.phys r) c n m := by
    intro m
    funext q i
    refine if_congr ?_ rfl rfl
    rw [hpart]
    omega
  by_cases hnone : n'' ≤ 0
  · have hempty : ∀ m, erased a (s.phys r) c n m = m := by
      intro m
      funext q i
      refine if_neg ?_
      rw [hpart]
      omega
    rw [if_pos hnone, hempty, hempty]
    rfl
  · have hfit : c'.toNat + n''.toNat ≤ ltCols := by grind
    rw [if_neg hnone, ← hspan, ← hspan, stores_eq (p := s.phys r) (y := fun _ _ => blank a)]
    · rw [touch_eq (phys_lt s r) (by omega)]
      rfl
    · rintro k hk m -
      exact store_eq (phys_lt s r) (by omega) _ _

end Ring

end DiscoBSD.Lcdterm
