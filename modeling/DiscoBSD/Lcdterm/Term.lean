import DiscoBSD.Lcdterm.Screen

/-!
# The terminal

The escape sequences, modes and cursor of `sys/arch/rp2040/dev/lcdterm.c`, over any way to keep the cells.
**The bytes, with the cursor shown and hidden between them, come in any order.**
-/

set_option autoImplicit false

namespace DiscoBSD.Lcdterm

open DiscoBSD.Lib
open Function (update)

def ltNparam : ℕ := 8
def ltParamMax : ℕ := 9999

/-- `ST_GROUND`, `ST_ESC`, `ST_CSI` and `ST_CHARSET`. -/
inductive St where
  | ground | esc | csi | charset
  deriving DecidableEq

/-- `sgr_fg`, `sgr_bg`, `sgr_bold`, `sgr_ul` and `sgr_rev`. -/
structure Sgr where
  fg : ℕ
  bg : ℕ
  bold : Bool
  ul : Bool
  rev : Bool

def Sgr.default : Sgr := ⟨7, 0, false, false, false⟩

/-- `s_row`, `s_col`, the five of the rendition and `s_gfx`. -/
structure Saved where
  row : ℕ
  col : ℕ
  sgr : Sgr
  gfx : Bool

/-- All that the terminal has but its cells, with the bells and the replies it has sent. -/
structure Ctl where
  crow : ℕ
  ccol : ℕ
  wrapnext : Bool
  mtop : ℕ
  mbot : ℕ
  sgr : Sgr
  cattr : UInt8
  autowrap : Bool
  insertmode : Bool
  cursor_on : Bool
  appcursor : Bool
  gfx : Bool
  saved : Saved
  state : St
  params : ℕ → ℕ
  nparam : ℕ
  priv : ℕ
  inter : ℕ
  bells : ℕ
  replies : List (List Char)
  /-- Each index into `params` was in range. -/
  bounds : Bool

/-- `acs_map`. -/
def acsMap : List Char :=
  [' ', '*', '#', 'H', 'F', 'C', 'L', Char.ofNat 0x27,
   '#', 'N', 'V', '+', '+', '+', '+', '+',
   '-', '-', '-', '-', '-', '+', '+', '+',
   '+', '|', '<', '>', '*', '!', 'f', 'o']

def clamp (v lo hi : ℤ) : ℤ := if v < lo then lo else if v > hi then hi else v

/-- The digits of `reply_number`, at most `len`. -/
def replyNumber : ℕ → ℕ → List Char
  | 0, _ => []
  | len + 1, v => (if v / 10 > 0 then replyNumber len (v / 10) else []) ++ [Char.ofNat ('0'.toNat + v % 10)]

/-- One parameter of `do_sgr`. -/
def Sgr.code (v : ℕ) (x : Sgr) : Sgr :=
  if v ≥ 90 then
    if v ≤ 97 then { x with fg := v - 90 + 8 }
    else if v ≥ 100 ∧ v ≤ 107 then { x with bg := v - 100 }
    else x
  else if v = 0 then .default
  else if v = 1 then { x with bold := true }
  else if v = 4 then { x with ul := true }
  else if v = 7 then { x with rev := true }
  else if v = 22 then { x with bold := false }
  else if v = 24 then { x with ul := false }
  else if v = 27 then { x with rev := false }
  else if v ≥ 30 ∧ v ≤ 37 then { x with fg := v - 30 }
  else if v = 39 then { x with fg := 7 }
  else if v ≥ 40 ∧ v ≤ 47 then { x with bg := v - 40 }
  else if v = 49 then { x with bg := 0 }
  else x

namespace Ctl

def resolve_attr (t : Ctl) : Ctl :=
  let fg := if t.sgr.rev then t.sgr.bg else t.sgr.fg
  let bg := if t.sgr.rev then t.sgr.fg else t.sgr.bg
  let fg := if t.sgr.bold then fg ||| 8 else fg
  { t with cattr := ltAttr fg bg t.sgr.ul }

def erase_attr (t : Ctl) : UInt8 := ltAttr 7 (if t.sgr.rev then t.sgr.fg else t.sgr.bg) false

def param (t : Ctl) (i dflt : ℕ) : ℕ := if i ≥ t.nparam ∨ t.params i = 0 then dflt else t.params i

/-- `params` is indexed with `i`. -/
def touch (i : ℕ) (t : Ctl) : Ctl := { t with bounds := t.bounds && decide (i < ltNparam) }

def lcdterm_reply (s : List Char) (t : Ctl) : Ctl := { t with replies := t.replies ++ [s] }

/-- A digit of `csi_byte`. -/
def digit (d : ℕ) (t : Ctl) : Ctl :=
  let nparam := if t.nparam = 0 then 1 else t.nparam
  let v := t.params (nparam - 1)
  { t.touch (nparam - 1) with
    nparam
    params := if v < ltParamMax then update t.params (nparam - 1) (v * 10 + d) else t.params }

/-- A semicolon of `csi_byte`. -/
def separator (t : Ctl) : Ctl :=
  let nparam := if t.nparam = 0 then 1 else t.nparam
  if nparam < ltNparam then { t.touch nparam with nparam := nparam + 1, params := update t.params nparam 0 }
  else { t with nparam }

def report_cursor (t : Ctl) : Ctl :=
  t.lcdterm_reply (['\x1b', '['] ++ replyNumber 6 (t.crow + 1) ++ [';'] ++ replyNumber 6 (t.ccol + 1) ++ ['R'])

def reset_modes (t : Ctl) : Ctl :=
  let t := resolve_attr { t with sgr := .default }
  { t with
    mtop := 0, mbot := ltRows - 1
    autowrap := true, insertmode := false, cursor_on := true, appcursor := false, gfx := false, wrapnext := false
    saved := ⟨0, 0, .default, false⟩ }

/-- A turn of the loop of `do_sgr`. -/
def sgr_param (i : ℕ) (t : Ctl) : Ctl := { t.touch i with sgr := t.sgr.code (t.params i) }

def do_sgr (t : Ctl) : Ctl :=
  let t := if t.nparam = 0 then { t with nparam := 1, params := update t.params 0 0 } else t
  (countUp sgr_param 0 t.nparam t).resolve_attr

/-- One parameter of `set_mode`. -/
def mode (on : Bool) (v : ℕ) (t : Ctl) : Ctl :=
  if t.priv ≠ 0 then
    match v with
    | 1 => { t with appcursor := on }
    | 7 => { t with autowrap := on, wrapnext := if on then t.wrapnext else false }
    | 25 => { t with cursor_on := on }
    | _ => t
  else if v = 4 then { t with insertmode := on }
  else t

/-- A turn of the loop of `set_mode`. -/
def mode_param (on : Bool) (i : ℕ) (t : Ctl) : Ctl := (t.touch i).mode on (t.params i)

def set_mode (on : Bool) (t : Ctl) : Ctl := countUp (mode_param on) 0 t.nparam t

def save_cursor (t : Ctl) : Ctl := { t with saved := ⟨t.crow, t.ccol, t.sgr, t.gfx⟩ }

def restore_cursor (t : Ctl) : Ctl :=
  resolve_attr { t with
    crow := t.saved.row, ccol := t.saved.col, sgr := t.saved.sgr, gfx := t.saved.gfx, wrapnext := false }

/-- The cases of `do_csi` that move the cursor only, or are about modes and reports. -/
def csi (final : Char) (t : Ctl) : Ctl :=
  match final with
  | 'A' | 'B' =>
    let lo := if t.crow ≥ t.mtop ∧ t.crow ≤ t.mbot then t.mtop else 0
    let hi := if t.crow ≥ t.mtop ∧ t.crow ≤ t.mbot then t.mbot else ltRows - 1
    let row : ℤ := if final = 'A' then t.crow - t.param 0 1 else t.crow + t.param 0 1
    { t with crow := (clamp row lo hi).toNat, wrapnext := false }
  | 'C' => { t with ccol := (clamp (t.ccol + t.param 0 1) 0 (ltCols - 1)).toNat, wrapnext := false }
  | 'D' => { t with ccol := (clamp (t.ccol - t.param 0 1) 0 (ltCols - 1)).toNat, wrapnext := false }
  | 'G' => { t with ccol := (clamp (t.param 0 1 - 1) 0 (ltCols - 1)).toNat, wrapnext := false }
  | 'd' => { t with crow := (clamp (t.param 0 1 - 1) 0 (ltRows - 1)).toNat, wrapnext := false }
  | 'H' | 'f' =>
    { t with
      crow := (clamp (t.param 0 1 - 1) 0 (ltRows - 1)).toNat
      ccol := (clamp (t.param 1 1 - 1) 0 (ltCols - 1)).toNat
      wrapnext := false }
  | 'r' =>
    let lo := t.param 0 1 - 1
    let hi := t.param 1 ltRows - 1
    if lo < hi ∧ hi < ltRows then { t with mtop := lo, mbot := hi, crow := 0, ccol := 0, wrapnext := false } else t
  | 'm' => t.do_sgr
  | 'h' => t.set_mode true
  | 'l' => t.set_mode false
  | 'n' =>
    if t.priv ≠ 0 then t
    else if t.nparam > 0 ∧ t.params 0 = 6 then t.report_cursor
    else if t.nparam > 0 ∧ t.params 0 = 5 then t.lcdterm_reply ['\x1b', '[', '0', 'n']
    else t
  | 'c' => if t.priv = 0 ∧ t.param 0 0 = 0 then t.lcdterm_reply ['\x1b', '[', '?', '6', 'c'] else t
  | _ => t

end Ctl

/-- The variables before the first `lcdterm_init`. -/
def Ctl.boot : Ctl where
  crow := 0
  ccol := 0
  wrapnext := false
  mtop := 0
  mbot := 0
  sgr := ⟨0, 0, false, false, false⟩
  cattr := 0
  autowrap := false
  insertmode := false
  cursor_on := false
  appcursor := false
  gfx := false
  saved := ⟨0, 0, ⟨0, 0, false, false, false⟩, false⟩
  state := .ground
  params := fun _ => 0
  nparam := 0
  priv := 0
  inter := 0
  bells := 0
  replies := []
  bounds := true

structure Term (σ : Type) extends Ctl where
  screen : σ

namespace Term

variable {σ : Type} [Screen σ]

def onCtl (f : Ctl → Ctl) (t : Term σ) : Term σ := { t with toCtl := f t.toCtl }

def onScreen (f : σ → σ) (t : Term σ) : Term σ := { t with screen := f t.screen }

def erase_cells (r : ℕ) (c n : ℤ) (t : Term σ) : Term σ := t.onScreen (Screen.erase_cells t.erase_attr r c n)

def erase_rows (r0 r1 : ℕ) (t : Term σ) : Term σ := countUp (fun r => erase_cells r 0 ltCols) r0 (r1 + 1 - r0) t

def scroll_up (top b n : ℕ) (t : Term σ) : Term σ := t.onScreen (Screen.scroll_up t.erase_attr top b n)

def scroll_down (top b n : ℕ) (t : Term σ) : Term σ := t.onScreen (Screen.scroll_down t.erase_attr top b n)

def index_down (t : Term σ) : Term σ :=
  if t.crow = t.mbot then t.scroll_up t.mtop t.mbot 1
  else if t.crow < ltRows - 1 then { t with crow := t.crow + 1 }
  else t

def index_up (t : Term σ) : Term σ :=
  if t.crow = t.mtop then t.scroll_down t.mtop t.mbot 1
  else if t.crow > 0 then { t with crow := t.crow - 1 }
  else t

/-- The cursor moves on after a glyph. -/
def advance (t : Term σ) : Term σ :=
  if t.ccol = ltCols - 1 then (if t.autowrap then { t with wrapnext := true } else t)
  else { t with ccol := t.ccol + 1 }

def put_glyph (ch : Char) (t : Term σ) : Term σ :=
  let t := if t.wrapnext then index_down { t with wrapnext := false, ccol := 0 } else t
  (t.onScreen (Screen.put_cell t.insertmode t.crow t.ccol ⟨ch.toUInt8, t.cattr⟩)).advance

/-- Case `J` of `do_csi`. -/
def erase_display (t : Term σ) : Term σ :=
  match if t.nparam > 0 then t.params 0 else 0 with
  | 0 =>
    let t := t.erase_cells t.crow t.ccol (ltCols - t.ccol)
    if t.crow < ltRows - 1 then t.erase_rows (t.crow + 1) (ltRows - 1) else t
  | 1 =>
    let t := if t.crow > 0 then t.erase_rows 0 (t.crow - 1) else t
    t.erase_cells t.crow 0 (t.ccol + 1)
  | 2 => t.erase_rows 0 (ltRows - 1)
  | _ => t

/-- Case `K` of `do_csi`. -/
def erase_line (t : Term σ) : Term σ :=
  match if t.nparam > 0 then t.params 0 else 0 with
  | 0 => t.erase_cells t.crow t.ccol (ltCols - t.ccol)
  | 1 => t.erase_cells t.crow 0 (t.ccol + 1)
  | 2 => t.erase_cells t.crow 0 ltCols
  | _ => t

def do_csi (final : Char) (t : Term σ) : Term σ :=
  if t.inter ≠ 0 then (if t.inter = '!'.toNat ∧ final = 'p' then t.onCtl Ctl.reset_modes else t)
  else
    match final with
    | 'J' => t.erase_display
    | 'K' => t.erase_line
    | 'L' =>
      let t := if t.crow ≥ t.mtop ∧ t.crow ≤ t.mbot then t.scroll_down t.crow t.mbot (t.param 0 1) else t
      { t with ccol := 0, wrapnext := false }
    | 'M' =>
      let t := if t.crow ≥ t.mtop ∧ t.crow ≤ t.mbot then t.scroll_up t.crow t.mbot (t.param 0 1) else t
      { t with ccol := 0, wrapnext := false }
    | '@' =>
      let n := (clamp (t.param 0 1) 1 (ltCols - t.ccol)).toNat
      let t := t.onScreen (Screen.insert_cells t.erase_attr t.crow t.ccol n)
      { t with wrapnext := false }
    | 'P' =>
      let n := (clamp (t.param 0 1) 1 (ltCols - t.ccol)).toNat
      let t := t.onScreen (Screen.delete_cells t.erase_attr t.crow t.ccol n)
      { t with wrapnext := false }
    | 'X' => t.erase_cells t.crow t.ccol (clamp (t.param 0 1) 1 (ltCols - t.ccol))
    | _ => t.onCtl (Ctl.csi final)

def full_reset (t : Term σ) : Term σ :=
  let t := t.onCtl Ctl.reset_modes
  let t := t.onScreen (Screen.clear t.erase_attr)
  { t with crow := 0, ccol := 0, state := .ground }

def lcdterm_init (t : Term σ) : Term σ := (t.onScreen Screen.cursor_forget).full_reset

def esc_final (c : Char) (t : Term σ) : Term σ :=
  let t := { t with state := .ground }
  match c with
  | '[' => { t with state := .csi, nparam := 0, params := update t.params 0 0, priv := 0, inter := 0 }
  | '(' => { t with state := .charset, inter := 0 }
  | ')' | '*' | '+' => { t with state := .charset, inter := c.toNat }
  | '7' => t.onCtl Ctl.save_cursor
  | '8' => t.onCtl Ctl.restore_cursor
  | 'D' => index_down { t with wrapnext := false }
  | 'E' => index_down { t with ccol := 0, wrapnext := false }
  | 'M' => index_up { t with wrapnext := false }
  | 'c' => t.full_reset
  | _ => t

def csi_byte (c : ℕ) (t : Term σ) : Term σ :=
  if c ≥ '0'.toNat ∧ c ≤ '9'.toNat then t.onCtl (Ctl.digit (c - '0'.toNat))
  else if c = ';'.toNat then t.onCtl Ctl.separator
  else if c = '?'.toNat ∨ c = '>'.toNat then { t with priv := c }
  else if c ≥ 0x20 ∧ c ≤ 0x2f then { t with inter := c }
  else if c ≥ 0x40 ∧ c ≤ 0x7e then do_csi (Char.ofNat c) { t with state := .ground }
  else if c = 0x18 ∨ c = 0x1a then { t with state := .ground }
  else t

def control (c : ℕ) (t : Term σ) : Term σ :=
  match c with
  | 0x08 => if t.wrapnext then { t with wrapnext := false } else if t.ccol > 0 then { t with ccol := t.ccol - 1 } else t
  | 0x09 => { t with wrapnext := false, ccol := (clamp ((t.ccol / 8 + 1) * 8 : ℕ) 0 (ltCols - 1)).toNat }
  | 0x0a | 0x0b | 0x0c => index_down { t with wrapnext := false }
  | 0x0d => { t with ccol := 0, wrapnext := false }
  | 0x1b => { t with state := .esc }
  | 0x07 => { t with bells := t.bells + 1 }
  | _ => t

/-- The glyph of a byte in the ground state. -/
def glyph (gfx : Bool) (c : ℕ) : Char :=
  if c > 0x7e then '?' else if gfx ∧ c ≥ 0x5f then acsMap.getD (c - 0x5f) ' ' else Char.ofNat c

/-- `lcdterm_putc` where the cursor has been hidden. -/
def take (c : ℕ) (t : Term σ) : Term σ :=
  let c := c &&& 0xff
  match t.state with
  | .esc =>
    if c = 0x1b then t
    else if c < 0x20 then control c { t with state := .ground }
    else esc_final (Char.ofNat c) t
  | .csi =>
    if c < 0x20 ∧ c ≠ 0x18 ∧ c ≠ 0x1a then (if c = 0x1b then { t with state := .esc } else control c t)
    else csi_byte c t
  | .charset => { t with gfx := if t.inter = 0 then c = '0'.toNat else t.gfx, inter := 0, state := .ground }
  | .ground =>
    if c < 0x20 then control c t
    else if c = 0x7f then t
    else put_glyph (glyph t.gfx c) t

def lcdterm_putc (c : ℕ) (t : Term σ) : Term σ := (t.onScreen Screen.cursor_hide).take c

def lcdterm_cursor_show (t : Term σ) : Term σ :=
  if t.cursor_on then t.onScreen (Screen.cursor_show t.crow t.ccol) else t

/-- `lcdterm_cell` and `lcdterm_attr`. -/
def lcdterm_cell (t : Term Ring) (row col : ℕ) : Cell := t.screen.cells (t.screen.phys row) col

/-- A byte comes, the cursor is shown or hidden, or the terminal is set up once more. -/
inductive Event where
  | init
  | putc (c : ℕ)
  | show
  | hide

def step (t : Term σ) : Event → Term σ
  | .init => t.lcdterm_init
  | .putc c => t.lcdterm_putc c
  | .show => t.lcdterm_cursor_show
  | .hide => t.onScreen Screen.cursor_hide

def run (t : Term σ) (events : List Event) : Term σ := events.foldl step t

end Term

end DiscoBSD.Lcdterm
