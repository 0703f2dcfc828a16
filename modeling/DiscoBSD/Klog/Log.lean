import DiscoBSD.Lib.Store

/-!
# The kernel message log

`logwrt`, `logread` and `loginit` of `sys/kern/subr_log.c`, for one log. **The positions of the reader and the
writer are all that says how much is unread**: where they are equal, the log is empty.

The process that reads waits while the log is empty, so a read there is one that gives nothing. `logwrt` and
`logread` run with the interrupts masked, each is one step.
-/

set_option autoImplicit false

namespace DiscoBSD.Klog

open DiscoBSD.Lib

def msgMagic : ℕ := 0x063061
def msgBsize : ℕ := 2048

/-- A `struct msgbuf`, with `sc_overrun` of its `struct logsoftc`. -/
structure Msgbuf where
  msg_magic : ℕ
  msg_bufx : ℕ
  msg_bufr : ℕ
  msg_bufc : ℕ → UInt8
  sc_overrun : BitVec 32

/-- `loginit`, over memory that was there before. -/
def loginit (msg_bufc : ℕ → UInt8) : Msgbuf where
  msg_magic := msgMagic
  msg_bufx := 0
  msg_bufr := 0
  msg_bufc := msg_bufc
  sc_overrun := 0

namespace Msgbuf

/-! ## Writing -/

/-- The loop of `logwrt` from `again` on: the position, and the room `infront` of it. -/
def wrap (m : Msgbuf) : Msgbuf × ℕ :=
  if msgBsize - m.msg_bufx = 0 then ({ m with msg_bufx := 0 }, msgBsize - m.msg_bufr)
  else (m, msgBsize - m.msg_bufx)

/-- The room there is for the writer. -/
def writer (m : Msgbuf) : ℕ :=
  if m.msg_bufr < m.msg_bufx then msgBsize - m.msg_bufx + m.msg_bufr
  else if m.msg_bufr = m.msg_bufx then msgBsize
  else m.msg_bufr - m.msg_bufx

/-- One round of the loop of `logwrt`, with what it leaves to write. -/
def round (m : Msgbuf) (buf : List UInt8) : Msgbuf × List UInt8 :=
  let (m, infront) := m.wrap
  let infront := if m.msg_bufx < m.msg_bufr then m.msg_bufr - m.msg_bufx else infront
  if m.writer < buf.length then ({ m with sc_overrun := m.sc_overrun + 1, msg_bufx := m.msg_bufr }, buf)
  else
    let infront := min infront buf.length
    ({ m with
        msg_bufc := writeAt m.msg_bufc m.msg_bufx (buf.take infront)
        msg_bufx := m.msg_bufx + infront },
      buf.drop infront)

/-- The loop, if it ends within so many rounds. -/
def rounds : ℕ → Msgbuf → List UInt8 → Option Msgbuf
  | 0, m, buf => if buf = [] then some m else none
  | fuel + 1, m, buf =>
    if buf = [] then some m
    else
      let (m, buf) := m.round buf
      rounds fuel m buf

def logwrt (m : Msgbuf) (buf : List UInt8) : Option Msgbuf :=
  if m.msg_magic ≠ msgMagic ∨ msgBsize < buf.length then some m else m.rounds (buf.length + 2) buf

/-! ## Reading -/

/-- The second loop of `logread`, if it ends within so many rounds, with the bytes it moves. -/
def moves : ℕ → Msgbuf → ℕ → Option (Msgbuf × List UInt8)
  | 0, _, _ => none
  | fuel + 1, m, resid =>
    if resid = 0 ∨ m.msg_bufx = m.msg_bufr then some (m, [])
    else if m.msg_bufx < m.msg_bufr ∧ msgBsize - m.msg_bufr = 0 then moves fuel { m with msg_bufr := 0 } resid
    else
      let l := if m.msg_bufx < m.msg_bufr then msgBsize - m.msg_bufr else m.msg_bufx - m.msg_bufr
      let l := min (min l resid) 128
      (moves fuel { m with msg_bufr := m.msg_bufr + l } (resid - l)).map fun (m', got) =>
        (m', readAt m.msg_bufc m.msg_bufr l ++ got)

def logread (m : Msgbuf) (resid : ℕ) : Option (Msgbuf × List UInt8) :=
  if m.msg_bufr = m.msg_bufx then some (m, []) else m.moves (resid + 2) resid

/-- The bytes that are unread, as far as the positions say. -/
def unread (m : Msgbuf) : List UInt8 :=
  if m.msg_bufr ≤ m.msg_bufx then readAt m.msg_bufc m.msg_bufr (m.msg_bufx - m.msg_bufr)
  else readAt m.msg_bufc m.msg_bufr (msgBsize - m.msg_bufr) ++ readAt m.msg_bufc 0 m.msg_bufx

end Msgbuf

/-! ## The purpose -/

/-- A queue of bytes with a bound, and how often it has been emptied for a write that did not fit. -/
structure Fifo where
  unread : List UInt8
  overrun : BitVec 32

def Fifo.init : Fifo := ⟨[], 0⟩

def Fifo.write (f : Fifo) (buf : List UInt8) : Fifo :=
  if msgBsize < buf.length then f
  else if f.unread.length + buf.length ≤ msgBsize then ⟨f.unread ++ buf, f.overrun⟩
  else ⟨buf, f.overrun + 1⟩

def Fifo.read (f : Fifo) (resid : ℕ) : Fifo × List UInt8 :=
  (⟨f.unread.drop resid, f.overrun⟩, f.unread.take resid)

/-! ## Runs -/

inductive Call where
  | write (buf : List UInt8)
  | read (resid : ℕ)

/-- A call, with the bytes it reads. -/
def Msgbuf.call (m : Msgbuf) : Call → Option (Msgbuf × List UInt8)
  | .write buf => (m.logwrt buf).map fun m => (m, [])
  | .read resid => m.logread resid

def Fifo.call (f : Fifo) : Call → Fifo × List UInt8
  | .write buf => (f.write buf, [])
  | .read resid => f.read resid

/-- The calls end, and what they read. -/
def Msgbuf.run (m : Msgbuf) : List Call → Option (Msgbuf × List UInt8)
  | [] => some (m, [])
  | k :: ks => do
    let (m, got) ← m.call k
    let (m, rest) ← m.run ks
    pure (m, got ++ rest)

/-- The log holds what the queue holds, and has counted as many overruns. -/
def Agrees (m : Msgbuf) (f : Fifo) : Prop := m.unread = f.unread ∧ m.sc_overrun = f.overrun

/-- They agree now and after each of the calls, and each of them reads the same bytes. -/
def Tracks (m : Msgbuf) (f : Fifo) : List Call → Prop
  | [] => Agrees m f
  | k :: ks => Agrees m f ∧ ∃ m' got, m.call k = some (m', got) ∧ got = (f.call k).2 ∧ Tracks m' (f.call k).1 ks

end DiscoBSD.Klog
