import Mathlib.Data.Int.Notation
import Mathlib.Data.UInt
import Mathlib.Logic.Function.Basic

/-!
# Character lists

`sys/kern/tty_subr.c`. A `cblock` is 32 bytes at a multiple of 32, a link and 28 characters, and a `clist` has
pointers to its first character and past its last one. **A block is found by masking a pointer**, so a pointer
to the end of a block has to be told from one into the next.

Each call runs with the terminals' interrupts off, except between the two halves of `catq`. What the calls say
to `wakeup` and to the capacity counters is not modelled; a null pointer is 0.
-/

set_option autoImplicit false

namespace DiscoBSD.Tty

open Function (update)

/-- `CBLOCK`. -/
def cblock : ℕ := 32

/-- `sizeof(struct cblock *)`. -/
def linkSize : ℕ := 4

/-- `CBSIZE`. -/
def cbsize : ℕ := 28

/-- The memory of the blocks, and the free list. `c_next` is the link of the block at an address. -/
structure Mem where
  c_next : ℕ → ℕ
  byte : ℕ → UInt8
  cfreelist : ℕ
  cfreecount : ℤ
  cwaiting : Bool

/-- `struct clist`. -/
structure Clist where
  c_cc : ℤ
  c_cf : ℕ
  c_cl : ℕ
  deriving DecidableEq, Repr

/-- A clist with nothing in it. -/
def Clist.empty : Clist := ⟨0, 0, 0⟩

/-- `a & ~CROUND`. -/
def blockOf (a : ℕ) : ℕ := a / cblock * cblock

/-- `a & CROUND`. -/
def offset (a : ℕ) : ℕ := a % cblock

/-- `bp->c_info`. -/
def info (bp : ℕ) : ℕ := bp + linkSize

namespace Mem

/-- `cinit`, for the `n` blocks from `ccp` on. -/
def cinit (ccp : ℕ) : ℕ → Mem → Mem
  | 0, σ => σ
  | n + 1, σ =>
    cinit (ccp + cblock) n
      { σ with
        c_next := update σ.c_next ccp σ.cfreelist, cfreelist := ccp, cfreecount := σ.cfreecount + cbsize }

/-- A block goes to the free list. -/
def push (σ : Mem) (bp : ℕ) : Mem :=
  { σ with c_next := update σ.c_next bp σ.cfreelist, cfreelist := bp, cfreecount := σ.cfreecount + cbsize }

/-- A block goes to the free list, and whoever waits for one is woken up. -/
def release (σ : Mem) (bp : ℕ) : Mem := { σ.push bp with cwaiting := false }

/-- A block comes from the free list, and its link is cleared. -/
def pop (σ : Mem) : Option (ℕ × Mem) :=
  if σ.cfreelist = 0 then none
  else
    let bp := σ.cfreelist
    some (bp, { σ with
      c_next := update σ.c_next bp 0, cfreelist := σ.c_next bp, cfreecount := σ.cfreecount - cbsize })

/-- `bp->c_next = cfreelist`, before the block behind `bp` is taken. -/
def linkFree (σ : Mem) (bp : ℕ) : Mem := { σ with c_next := update σ.c_next bp σ.cfreelist }

/-- `bcopy` to the blocks. -/
def store (σ : Mem) (a : ℕ) (cs : List UInt8) : Mem :=
  { σ with byte := fun i => if a ≤ i ∧ i < a + cs.length then cs.getD (i - a) 0 else σ.byte i }

/-- `bcopy` from the blocks. -/
def load (σ : Mem) (a n : ℕ) : List UInt8 := (List.range' a n).map σ.byte

/-- How `getc` and `q_to_b` leave the `n` characters they took: at the end of the clist or of the block, the
    block is freed. -/
def advance (σ : Mem) (q : Clist) (n : ℕ) : Mem × Clist :=
  let cf := q.c_cf + n
  let cc := q.c_cc - n
  if cc ≤ 0 then (σ.release (blockOf (cf - 1)), ⟨cc, 0, 0⟩)
  else if offset cf = 0 then
    let bp := cf - cblock
    (σ.release bp, ⟨cc, info (σ.c_next bp), q.c_cl⟩)
  else (σ, ⟨cc, cf, q.c_cl⟩)

/-- `getc`. -/
def getc (σ : Mem) (p : Clist) : ℤ × Mem × Clist :=
  if p.c_cc ≤ 0 then (-1, σ, .empty) else ((σ.byte p.c_cf).toNat, σ.advance p 1)

/-- The loop of `q_to_b`. Every turn takes a character. -/
def qToBLoop : ℕ → Mem → Clist → ℕ → Option (List UInt8 × Mem × Clist)
  | _, σ, q, 0 => some ([], σ, q)
  | 0, _, _, _ + 1 => none
  | turns + 1, σ, q, cc + 1 =>
    let nc := min (min (cblock - offset q.c_cf) (cc + 1)) q.c_cc.toNat
    let (σ', q') := σ.advance q nc
    if q'.c_cc ≤ 0 then some (σ.load q.c_cf nc, σ', q')
    else (qToBLoop turns σ' q' (cc + 1 - nc)).map fun r => (σ.load q.c_cf nc ++ r.1, r.2)

/-- `q_to_b`. The answer is the bytes that were moved. -/
def qToB (σ : Mem) (q : Clist) (cc : ℤ) : Option (List UInt8 × Mem × Clist) :=
  if cc ≤ 0 then some ([], σ, q)
  else if q.c_cc ≤ 0 then some ([], σ, .empty)
  else qToBLoop cc.toNat σ q cc.toNat

/-- `ndqb`. -/
def ndqb (σ : Mem) (q : Clist) (flag : ℕ) : ℤ :=
  if q.c_cc ≤ 0 then -q.c_cc
  else
    let cc := blockOf (q.c_cf + cbsize) - q.c_cf
    let cc := if q.c_cc < cc then q.c_cc.toNat else cc
    if flag = 0 then cc
    else ((List.range cc).findIdx fun i => decide ((σ.byte (q.c_cf + i)).toNat &&& flag ≠ 0) : ℕ)

/-- The loop of `ndflush`. Every turn that goes on takes a character. -/
def ndflushLoop : ℕ → Mem → Clist → ℕ → Option (Mem × Clist)
  | _, σ, q, 0 => some (σ, q)
  | turns, σ, q, cc + 1 =>
    if q.c_cc = 0 then some (σ, q)
    else
      let bp := blockOf q.c_cf
      let e := if bp = blockOf (q.c_cl - 1) then q.c_cl else bp + cblock
      let rem := e - q.c_cf
      if rem ≤ cc + 1 then
        match turns with
        | 0 => none
        | turns + 1 =>
          ndflushLoop turns (σ.release bp) ⟨q.c_cc - rem, info (σ.c_next bp), q.c_cl⟩ (cc + 1 - rem)
      else
        let q' : Clist := ⟨q.c_cc - (cc + 1), q.c_cf + (cc + 1), q.c_cl⟩
        some (if q'.c_cc ≤ 0 then σ.release bp else σ, q')

/-- `ndflush`. -/
def ndflush (σ : Mem) (q : Clist) (cc : ℤ) : Option (Mem × Clist) :=
  if q.c_cc ≤ 0 then some (σ, q)
  else (ndflushLoop cc.toNat σ q cc.toNat).map fun r => (r.1, if r.2.c_cc ≤ 0 then .empty else r.2)

/-- The end of `putc`. -/
def putcStore (σ : Mem) (cc : ℤ) (cf cp c : ℕ) : ℤ × Mem × Clist :=
  (0, σ.store cp [UInt8.ofNat c], ⟨cc + 1, cf, cp + 1⟩)

/-- `putc`. -/
def putc (σ : Mem) (p : Clist) (c : ℕ) : ℤ × Mem × Clist :=
  if p.c_cl = 0 ∨ p.c_cc < 0 then
    match σ.pop with
    | none => (-1, σ, p)
    | some (bp, σ) => σ.putcStore p.c_cc (info bp) (info bp) c
  else if offset p.c_cl = 0 then
    match (σ.linkFree (p.c_cl - cblock)).pop with
    | none => (-1, σ.linkFree (p.c_cl - cblock), p)
    | some (bp, σ) => σ.putcStore p.c_cc p.c_cf (info bp) c
  else σ.putcStore p.c_cc p.c_cf p.c_cl c

/-- The loop of `b_to_q`, with the bytes that are left and the place for them. Every turn queues a byte. -/
def bToQLoop : ℕ → Mem → ℕ → List UInt8 → Option (List UInt8 × Mem × ℕ)
  | _, σ, cq, [] => some ([], σ, cq)
  | 0, _, _, _ :: _ => none
  | turns + 1, σ, cq, cp =>
    if offset cq = 0 then
      match (σ.linkFree (cq - cblock)).pop with
      | none => some (cp, σ.linkFree (cq - cblock), cq)
      | some (bp, σ) =>
        let nc := min cp.length (cblock - offset (info bp))
        bToQLoop turns (σ.store (info bp) (cp.take nc)) (info bp + nc) (cp.drop nc)
    else
      let nc := min cp.length (cblock - offset cq)
      bToQLoop turns (σ.store cq (cp.take nc)) (cq + nc) (cp.drop nc)

/-- `b_to_q` of the bytes `cp`. The answer is how many of them are left; a count that is not positive is that
    of no bytes. -/
def bToQ (σ : Mem) (q : Clist) (cp : List UInt8) : Option (ℕ × Mem × Clist) :=
  if cp = [] then some (0, σ, q)
  else if q.c_cl = 0 ∨ q.c_cc < 0 then
    match σ.pop with
    | none => some (cp.length, σ, q)
    | some (bp, σ) =>
      (bToQLoop cp.length σ (info bp) cp).map fun (left, σ, cq) =>
        (left.length, σ, ⟨q.c_cc + (cp.length - left.length : ℕ), info bp, cq⟩)
  else
    (bToQLoop cp.length σ q.c_cl cp).map fun (left, σ, cq) =>
      (left.length, σ, ⟨q.c_cc + (cp.length - left.length : ℕ), q.c_cf, cq⟩)

/-- `nextc`. -/
def nextc (σ : Mem) (p : Clist) (cp : ℕ) : ℕ :=
  if p.c_cc ≠ 0 ∧ cp + 1 ≠ p.c_cl then
    if offset (cp + 1) = 0 then info (σ.c_next (cp + 1 - cblock)) else cp + 1
  else 0

/-- The block before the one at `cl`, from `bp` on. -/
def before (σ : Mem) (cl : ℕ) : ℕ → ℕ → Option ℕ
  | 0, _ => none
  | turns + 1, bp => if σ.c_next bp = cl then some bp else before σ cl turns (σ.c_next bp)

/-- `unputc`. -/
def unputc (σ : Mem) (p : Clist) : Option (ℤ × Mem × Clist) :=
  if p.c_cc ≤ 0 then some (-1, σ, p)
  else
    let cl := p.c_cl - 1
    let c : ℤ := (σ.byte cl).toNat
    let cc := p.c_cc - 1
    if cc ≤ 0 then some (c, σ.push (blockOf cl), ⟨cc, 0, 0⟩)
    else if offset cl = linkSize then
      (σ.before (blockOf cl) p.c_cc.toNat (blockOf p.c_cf)).map fun bp =>
        let σ' := σ.push (σ.c_next bp)
        (c, { σ' with c_next := update σ'.c_next bp 0 }, ⟨cc, p.c_cf, bp + cblock⟩)
    else some (c, σ, ⟨cc, p.c_cf, cl⟩)

end Mem

/-- The blocks and the clists. -/
structure World where
  mem : Mem
  q : ℕ → Clist

namespace World

def setq (w : World) (i : ℕ) (r : Mem × Clist) : World := ⟨r.1, update w.q i r.2⟩

/-- The loop of `catq`: `q_to_b` to a buffer of four blocks' characters, and `b_to_q` from it. -/
def catqLoop (i j : ℕ) : ℕ → World → Option World
  | turns, w =>
    if (w.q i).c_cc ≤ 0 then some w
    else
      match turns with
      | 0 => none
      | turns + 1 =>
        match w.mem.qToB (w.q i) (cbsize * 4) with
        | none => none
        | some (cs, r) =>
          let w := w.setq i r
          match w.mem.bToQ (w.q j) cs with
          | none => none
          | some (_, r) => catqLoop i j turns (w.setq j r)

/-- `catq`. -/
def catq (w : World) (i j : ℕ) : Option World :=
  if (w.q j).c_cc = 0 then
    let w := { w with q := update w.q j (w.q i) }
    some { w with q := update w.q i .empty }
  else catqLoop i j (w.q i).c_cc.toNat w

end World

/-- A call. The clists have numbers. -/
inductive Call where
  | putc (i c : ℕ)
  | unputc (i : ℕ)
  | getc (i : ℕ)
  | bToQ (i : ℕ) (cp : List UInt8)
  | qToB (i : ℕ) (cc : ℤ)
  | ndqb (i flag : ℕ)
  | ndflush (i : ℕ) (cc : ℤ)
  | nextc (i cp : ℕ)
  | catq (i j : ℕ)
  deriving DecidableEq, Repr

/-- What a call returns, and the bytes that `q_to_b` moved. -/
inductive Answer where
  | int (n : ℤ)
  | bytes (cs : List UInt8)
  | ptr (a : ℕ)
  | void
  deriving DecidableEq, Repr

/-- The clist that a call is about, and the second one of `catq`. -/
def Call.on : Call → List ℕ
  | .putc i _ | .unputc i | .getc i | .bToQ i _ | .qToB i _ | .ndqb i _ | .ndflush i _ | .nextc i _ => [i]
  | .catq i j => [i, j]

/-- One call. It answers nothing when it does not return. -/
def World.step (w : World) : Call → Option (Answer × World)
  | .putc i c => let r := w.mem.putc (w.q i) c; some (.int r.1, w.setq i r.2)
  | .unputc i => (w.mem.unputc (w.q i)).map fun r => (.int r.1, w.setq i r.2)
  | .getc i => let r := w.mem.getc (w.q i); some (.int r.1, w.setq i r.2)
  | .bToQ i cp => (w.mem.bToQ (w.q i) cp).map fun r => (.int r.1, w.setq i r.2)
  | .qToB i cc => (w.mem.qToB (w.q i) cc).map fun r => (.bytes r.1, w.setq i r.2)
  | .ndqb i flag => some (.int (w.mem.ndqb (w.q i) flag), w)
  | .ndflush i cc => (w.mem.ndflush (w.q i) cc).map fun r => (.void, w.setq i r)
  | .nextc i cp => some (.ptr (w.mem.nextc (w.q i) cp), w)
  | .catq i j => (w.catq i j).map fun w => (.void, w)

end DiscoBSD.Tty
