import DiscoBSD.Lib.Fifo

/-!
# The owner of the panel

`lcdrender` and `lcdputc` of `sys/arch/rp2040/dev/lcdcons.c`, with the ring of deferred bytes and the output queue of
the terminal, up to a panic. `spltty` masks every interrupt, so **what is done at `spltty` is one step, and between
two steps anything may come in**: a kernel message, the renderer, an echo, the clock.

The activations are a stack. An interrupt goes on top, and what it interrupted goes on when it has returned.
-/

set_option autoImplicit false

namespace DiscoBSD.Lcdcons

open DiscoBSD.Lib
open Function (update)

def deferRing : ℕ := 128

/-- The range of an `u_int`. -/
@[irreducible] def word : ℕ := 2 ^ 32

theorem word_pos : 0 < word := by
  unfold word
  decide

theorem deferRing_succ_lt : deferRing + 1 < word := by
  unfold word
  decide

theorem deferRing_dvd : deferRing ∣ word := by
  unfold word
  decide

/-- `lost_marker`. -/
def lostMarker : List Char := "\r\n[console output lost]\r\n".toList

/-- Who runs `lcd_release`, and the renderer's `sliced`. -/
inductive Who where
  | putc
  | render (sliced : Bool)
  deriving DecidableEq

/-- Where an activation is. -/
inductive Act where
  /-- `lcdputc`, before `defer_put`. -/
  | putc (c : Char)
  /-- `lcdputc`, before `lcd_acquire`. -/
  | acquire
  /-- `lcdrender`, before `lcd_acquire`. -/
  | renderAcquire
  /-- `lcdrender`, which has found the flag held. -/
  | renderWant
  /-- `lcdrender`, at the head of its loop. -/
  | render
  /-- `lcdrender`, in `lcdterm_putc`. -/
  | renderDraw (c : Char)
  /-- `lcd_release`, at the head of its loop. -/
  | release (who : Who) (cursor_drawn : Bool)
  /-- `lcd_release`, in `lcdterm_putc` of the first of these. -/
  | releaseDraw (who : Who) (c : Char) (rest : List Char)
  /-- `lcd_release`, in `lcdterm_cursor_show`. -/
  | releaseShow (who : Who)
  /-- After `lcd_release`, before `reply_flush`. -/
  | flush (who : Who)
  /-- The last masked part of `lcdrender` or `lcdputc`. -/
  | last (who : Who)
  /-- A process or an echo that puts characters on the output queue, before `ttstart`. -/
  | write (bs : List Char)
  deriving DecidableEq

namespace Act

/-- It is inside `lcdterm.c`. -/
def drives : Act → Bool
  | renderDraw _ | releaseDraw .. | releaseShow _ => true
  | _ => false

/-- It has taken the flag. -/
def holds : Act → Bool
  | render | renderDraw _ | release .. | releaseDraw .. | releaseShow _ => true
  | _ => false

/-- It is an activation of `lcdrender`. -/
def renders : Act → Bool
  | renderAcquire | renderWant | render | renderDraw _ => true
  | release (.render _) _ | releaseDraw (.render _) .. | releaseShow (.render _) => true
  | flush (.render _) | last (.render _) => true
  | _ => false

/-- It is about to start the output. -/
def writes : Act → Bool
  | write _ => true
  | _ => false

/-- The deferred bytes, or the rest of a marker, that it is drawing. -/
def hand : Act → List Char
  | releaseDraw _ c rest => c :: rest
  | _ => []

end Act

structure Cons where
  lcd_owned : Bool
  render_wanted : Bool
  defer : ℕ → Char
  defer_head : ℕ
  defer_tail : ℕ
  defer_lost : ℕ
  t_outq : List Char
  /-- `TS_BUSY`, `TS_TTSTOP` and `TS_ISOPEN`. -/
  busy : Bool
  ttstop : Bool
  isopen : Bool
  /-- `LCD_RENDER_IRQ` is pending. -/
  pended : Bool
  /-- Callouts of `render_resume`. -/
  timeouts : ℕ
  /-- The activations, the one that runs first. -/
  stack : List Act
  /-- The bytes given to `defer_put`, and the bytes drawn by `lcd_release` and by the loop of `lcdrender`. -/
  puts : List Char
  drawn : List Char
  shown : List Char
  /-- `defer_lost` has come round to 0. -/
  wrapped : Bool

/-- After `lcdcons_init`. -/
def Cons.init : Cons where
  lcd_owned := false
  render_wanted := false
  defer := fun _ => Char.ofNat 0
  defer_head := 0
  defer_tail := 0
  defer_lost := 0
  t_outq := []
  busy := false
  ttstop := false
  isopen := false
  pended := false
  timeouts := 0
  stack := []
  puts := []
  drawn := []
  shown := []
  wrapped := false

/-- What happens. -/
inductive Event where
  /-- The activation on top makes its next step. `timeUp` is whether the slice is over, and `echo` what `reply_flush`
  echoes. -/
  | run (timeUp : Bool) (echo : List Char)
  /-- The kernel prints. -/
  | lcdputc (c : Char)
  /-- The pending interrupt is taken. -/
  | irq
  /-- The callout runs `render_resume`. -/
  | render_resume
  /-- A process writes, or something is echoed. -/
  | write (bs : List Char)
  /-- Output is stopped, or started again. -/
  | stop
  | start
  /-- `ttyflush`. -/
  | ttyflush
  | lcdopen
  | lcdclose

namespace Cons

def lcdstart (s : Cons) : Cons :=
  if s.busy || s.ttstop then s
  else if s.t_outq = [] then s
  else { s with busy := true, pended := true }

def defer_put (c : Char) (s : Cons) : Cons :=
  let s := { s with puts := s.puts ++ [c] }
  if s.defer_lost = 0 ∧ ahead word s.defer_head s.defer_tail < deferRing then
    { s with defer := update s.defer (s.defer_head % deferRing) c, defer_head := (s.defer_head + 1) % word }
  else
    { s with defer_lost := (s.defer_lost + 1) % word, wrapped := s.wrapped || (s.defer_lost + 1) % word = 0 }

/-- A turn of the loop of `lcd_release`. -/
def release (who : Who) (cursor_drawn : Bool) (below : List Act) (s : Cons) : Cons :=
  if s.defer_tail ≠ s.defer_head then
    { s with
      defer_tail := (s.defer_tail + 1) % word
      stack := .releaseDraw who (s.defer (s.defer_tail % deferRing)) [] :: below }
  else if s.defer_lost ≠ 0 then
    { s with defer_lost := 0, stack := .releaseDraw who (lostMarker.headD ' ') lostMarker.tail :: below }
  else if !cursor_drawn then { s with stack := .releaseShow who :: below }
  else
    { s with
      lcd_owned := false, pended := s.pended || s.render_wanted, render_wanted := false
      stack := .flush who :: below }

/-- A turn of the loop of `lcdrender`. -/
def render (timeUp : Bool) (below : List Act) (s : Cons) : Cons :=
  match s.t_outq with
  | [] => { s with stack := .release (.render false) false :: below }
  | c :: q =>
    if s.ttstop then { s with stack := .release (.render false) false :: below }
    else if timeUp then { s with stack := .release (.render true) false :: below }
    else { s with t_outq := q, stack := .renderDraw c :: below }

/-- The next step of an activation, with those below it. -/
def act (timeUp : Bool) (echo : List Char) (below : List Act) (s : Cons) : Act → Cons
  | .putc c => { s.defer_put c with stack := .acquire :: below }
  | .acquire =>
    if s.lcd_owned then { s with stack := below }
    else { s with lcd_owned := true, stack := .release .putc false :: below }
  | .renderAcquire =>
    if s.lcd_owned then { s with stack := .renderWant :: below }
    else { s with lcd_owned := true, stack := .render :: below }
  | .renderWant => { s with render_wanted := true, stack := below }
  | .render => s.render timeUp below
  | .renderDraw c => { s with shown := s.shown ++ [c], stack := .render :: below }
  | .release who cursor_drawn => s.release who cursor_drawn below
  | .releaseDraw who c [] => { s with drawn := s.drawn ++ [c], stack := .release who false :: below }
  | .releaseDraw who c (c' :: rest) => { s with drawn := s.drawn ++ [c], stack := .releaseDraw who c' rest :: below }
  | .releaseShow who => { s with stack := .release who true :: below }
  | .flush who =>
    let s := { s with stack := .last who :: below }
    if s.isopen then lcdstart { s with t_outq := s.t_outq ++ echo } else s
  | .last .putc =>
    let s := { s with stack := below }
    if s.t_outq ≠ [] ∧ s.isopen then s.lcdstart else s
  | .last (.render true) => { s with timeouts := s.timeouts + 1, stack := below }
  | .last (.render false) => lcdstart { s with busy := false, stack := below }
  | .write [] => lcdstart { s with stack := below }
  | .write (b :: bs) => { s with t_outq := s.t_outq ++ [b], stack := .write bs :: below }

def step (s : Cons) : Event → Option Cons
  | .run timeUp echo =>
    match s.stack with
    | [] => none
    | a :: below => some (s.act timeUp echo below a)
  | .lcdputc c => some { s with stack := .putc c :: s.stack }
  | .irq =>
    if s.pended ∧ s.stack.all (fun a => !a.renders) then
      some { s with pended := false, stack := .renderAcquire :: s.stack }
    else none
  | .render_resume => if 0 < s.timeouts then some { s with timeouts := s.timeouts - 1, pended := true } else none
  | .write bs => if s.isopen then some { s with stack := .write bs :: s.stack } else none
  | .stop => some { s with ttstop := true }
  | .start => some (lcdstart { s with ttstop := false })
  | .ttyflush => some { s with t_outq := [], ttstop := false }
  | .lcdopen => some (if s.isopen then s else { s with isopen := true, busy := false, ttstop := false })
  -- the last close, when no process writes
  | .lcdclose =>
    if s.stack.all (fun a => !a.writes) then
      some { s with t_outq := [], isopen := false, busy := false, ttstop := false }
    else none

/-- The bytes in the ring. -/
def queued (s : Cons) : List Char :=
  ringCells deferRing s.defer s.defer_tail (ahead word s.defer_head s.defer_tail)

/-- The renderer is pending, in a callout, or wanted by the owner. -/
def scheduled (s : Cons) : Prop := s.pended = true ∨ 0 < s.timeouts ∨ (s.render_wanted = true ∧ s.lcd_owned = true)

end Cons

/-- What is drawn for the bytes that were deferred: each of them in order, and a marker in place of a gap. -/
inductive Covers : List Char → List Char → Prop
  | nil : Covers [] []
  | byte {bs out : List Char} (c : Char) (h : Covers bs out) : Covers (bs ++ [c]) (out ++ [c])
  | lost {bs out : List Char} (ds : List Char) (h : Covers bs out) (hd : ds ≠ []) :
      Covers (bs ++ ds) (out ++ lostMarker)

end DiscoBSD.Lcdcons
