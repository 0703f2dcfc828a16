import DiscoBSD.Lib.Store
import DiscoBSD.Swap.Vm
import DiscoBSD.Swapram.PoolTable

/-!
# The exec spool

The first part of `sys/kern/exec_subr.c`. An exec reads its argument strings while the old image is
still there and writes them into the new one when it is gone; in between they are in a spool, which is
a range of the SwapRAM pool or a run of blocks on flash. The flash spool goes through one buffer: a
write fills it and **flushes it at every block boundary**, a read loads the block it needs when that is
not the one in the buffer.

The system's side of a spool, who holds which range and when, is the swap system's. Here it is the
bytes: a spool stands for the list of what was written to it, wherever it lives.
-/

set_option autoImplicit false

namespace DiscoBSD.Exec

open DiscoBSD.Lib DiscoBSD.Rmap DiscoBSD.Swapram
open DiscoBSD.Swap (Kernel Conf btod devBsize swapramSpoolAlloc swapramSpoolWrite swapramSpoolRead
  swapramSpoolFree)

/-- `MAXBSIZE`. -/
def maxbsize : Nat := 1024

/-- `EXEC_SPOOL_BLOCK_NONE`. -/
def blockNone : Nat := 0xffff

/-- `EXEC_SPOOL_NONE`, `EXEC_SPOOL_SWAPRAM`, `EXEC_SPOOL_FLASH`. -/
inductive Backing where
  | none
  | swapram
  | flash
  deriving DecidableEq, Repr

/-- The `spool` of `struct exec_params`. `bp` is what is in the buffer. -/
structure ExecSpool where
  backing : Backing
  size : Nat
  pos : Nat
  ramoff : Nat
  blkno : Nat
  span : Nat
  bp : Nat → UInt8
  fill : Nat
  readblock : Nat

/-- The spool on flash, in the run of blocks it was given, with a buffer that holds nothing of it. -/
def ExecSpool.onFlash (sp : ExecSpool) (blkno span : Nat) : ExecSpool :=
  { sp with backing := .flash, blkno := blkno, span := span, fill := 0, readblock := blockNone }

/-- `exec_spool_reserve_flash`: the spool, or `none` for `ENOMEM`. -/
def execSpoolReserveFlash (σ : Kernel) (sp : ExecSpool) : Except Fault (Option ExecSpool × Kernel) := do
  let (run, σ) ← Swap.execSpoolReserveFlash σ sp.size
  match run with
  | none => pure (none, σ)
  | some (blkno, span) => pure (some (sp.onFlash blkno span), σ)

def execSpoolFlush (σ : Kernel) (sp : ExecSpool) : Kernel × ExecSpool :=
  if sp.backing ≠ .flash ∨ sp.fill = 0 then (σ, sp)
  else
    let base := sp.pos - sp.fill
    ({ σ with flash := writeAt σ.flash ((sp.blkno + btod base) * devBsize) (readAt sp.bp 0 sp.fill) },
      { sp with fill := 0 })

/-- The loop of `exec_spool_write`. Every turn takes at least a byte. -/
def spoolWriteLoop : Nat → Kernel → ExecSpool → List UInt8 → Kernel × ExecSpool
  | 0, σ, sp, _ => (σ, sp)
  | turns + 1, σ, sp, input =>
    if input.length = 0 then (σ, sp)
    else
      let chunk := min input.length (maxbsize - sp.fill)
      let sp := { sp with
        bp := writeAt sp.bp sp.fill (input.take chunk), fill := sp.fill + chunk, pos := sp.pos + chunk }
      let (σ, sp) := if sp.fill = maxbsize then execSpoolFlush σ sp else (σ, sp)
      spoolWriteLoop turns σ sp (input.drop chunk)

def execSpoolWrite (cfg : Conf) (σ : Kernel) (sp : ExecSpool) (source : List UInt8) :
    Except Fault (Kernel × ExecSpool) :=
  if sp.size - sp.pos < source.length then .error (.panic "exec spool write")
  else if sp.backing = .swapram then
    (swapramSpoolWrite cfg σ sp.ramoff sp.pos source).map fun σ =>
      (σ, { sp with pos := sp.pos + source.length })
  else .ok (spoolWriteLoop source.length σ sp source)

/-- The buffer with the block of the position in it. -/
def spoolLoad (σ : Kernel) (sp : ExecSpool) : ExecSpool :=
  let block := sp.pos / maxbsize
  let blockbase := block * maxbsize
  if sp.readblock = block then sp
  else
    let blocklen := min maxbsize (sp.size - blockbase)
    { sp with
      bp := writeAt sp.bp 0 (readAt σ.flash ((sp.blkno + btod blockbase) * devBsize) blocklen)
      readblock := wrap 16 block }

/-- The loop of `exec_spool_read`. -/
def spoolReadLoop (σ : Kernel) : Nat → ExecSpool → Nat → List UInt8 × ExecSpool
  | 0, sp, _ => ([], sp)
  | turns + 1, sp, len =>
    if len = 0 then ([], sp)
    else
      let sp := spoolLoad σ sp
      let offset := sp.pos - sp.pos / maxbsize * maxbsize
      let chunk := min len (maxbsize - offset)
      let (output, sp') := spoolReadLoop σ turns { sp with pos := sp.pos + chunk } (len - chunk)
      (readAt sp.bp offset chunk ++ output, sp')

def execSpoolRead (cfg : Conf) (σ : Kernel) (sp : ExecSpool) (len : Nat) :
    Except Fault (List UInt8 × ExecSpool) :=
  if sp.size - sp.pos < len then .error (.panic "exec spool read")
  else if sp.backing = .swapram then
    (swapramSpoolRead cfg σ sp.ramoff sp.pos len).map fun bytes => (bytes, { sp with pos := sp.pos + len })
  else .ok (spoolReadLoop σ len sp len)

/-- `exec_spool_alloc`: the spool, or `none` for `ENOMEM`. -/
def execSpoolAlloc (σ : Kernel) (sp : ExecSpool) (size : Nat) :
    Except Fault (Option ExecSpool × Kernel) :=
  let sp := { sp with size := size, pos := 0 }
  if size = 0 then .ok (some sp, σ)
  else
    match swapramSpoolAlloc σ size with
    | (some off, σ) => .ok (some { sp with ramoff := off, backing := .swapram }, σ)
    | (none, σ) => execSpoolReserveFlash σ sp

/-- The copy loop of `exec_spool_to_flash`, over the bytes that are left. -/
def spoolCopyLoop (cfg : Conf) (oldoff : Nat) : Nat → Kernel → ExecSpool → Nat →
    Except Fault (Kernel × ExecSpool)
  | 0, σ, sp, _ => .ok (σ, sp)
  | turns + 1, σ, sp, position =>
    if position < sp.size then do
      let chunk := min maxbsize (sp.size - position)
      let bytes ← swapramSpoolRead cfg σ oldoff position chunk
      spoolCopyLoop cfg oldoff turns
        { σ with flash := writeAt σ.flash ((sp.blkno + btod position) * devBsize) bytes }
        { sp with bp := writeAt sp.bp 0 bytes } (position + chunk)
    else .ok (σ, sp)

/-- `exec_spool_to_flash` after its reservation, for which it may have slept: `sp` is on flash now, and
    its bytes are still in the pool at `oldoff`. -/
def execSpoolMove (cfg : Conf) (σ : Kernel) (sp : ExecSpool) (oldoff : Nat) :
    Except Fault (Kernel × ExecSpool) := do
  let (σ, sp) ← spoolCopyLoop cfg oldoff sp.size σ sp 0
  let σ ← swapramSpoolFree σ oldoff sp.size
  pure (σ, { sp with pos := 0 })

/-- `exec_spool_discard`. -/
def execSpoolDiscard (σ : Kernel) (sp : ExecSpool) : Except Fault Kernel :=
  match sp.backing with
  | .none => .ok σ
  | .swapram => swapramSpoolFree σ sp.ramoff sp.size
  | .flash => (mfree σ.swapmap sp.span sp.blkno).map fun r => { σ with swapmap := r.2 }

end DiscoBSD.Exec
