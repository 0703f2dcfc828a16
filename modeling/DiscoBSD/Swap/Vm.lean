import Mathlib
import DiscoBSD.Swap.Tier

/-!
# Swapping processes, and who else holds swap space

`sys/kern/vm_swap.c` with `SWAPRAM` and `SWAP_IMAGE_ALIGN`, the spool routines of `sys/kern/exec_subr.c`,
and what `newproc`, `exit` and `wait1` do to a process slot. The flash halves of `swapout` and `swapin`
sleep in every `swap`, so they go segment by segment; the RAM halves never sleep and are one piece.

Under LARGE the bytes of the pool are the top of the user window. A large process that runs, or whose
stack is read back, writes there: `clobber` lets it leave anything.
-/

set_option autoImplicit false

namespace DiscoBSD.Swap

open DiscoBSD.Lib DiscoBSD.Rmap DiscoBSD.Hsx DiscoBSD.Swapram

/-- `swaptext`: the clean text, which is not swapped. -/
def swaptext (r : Proc) : Nat :=
  if r.p_tip = false ∨ r.p_dsize < r.p_tsize then 0 else r.p_tsize

/-- The bytes of each segment that go to swap. -/
def Proc.len (r : Proc) : Seg → Nat := ![r.p_dsize - swaptext r, r.p_ssize, usize]

/-- The segments that are transferred: those that are not empty. -/
def Proc.toMove (r : Proc) : List Seg := segs.filter fun seg => decide (r.len seg ≠ 0)

/-- `swapimagespan`. -/
def swapimagespan (r : Proc) : Nat :=
  roundUp swapImageAlign (btod (r.len srData) + btod (r.len srStack) + btod (r.len srU))

/-- What a large process leaves in the pool's bytes. -/
def clobber (σ : Kernel) (p : Slot) (pool : Nat → UInt8) : Kernel :=
  if (σ.proc p).p_large then { σ with sr_pool := pool } else σ

/-! ## swapout -/

/-- The end of `swapout`. -/
def swapoutEnd (σ : Kernel) (p : Slot) (a : Seg → Nat) : Kernel :=
  σ.setProc p { σ.proc p with p_at := a, sload := false, slock := false }

/-- `swapout` once the tier has taken the image. `u` is the u area when it is captured: the clock and
    `ru_nswap` change it after the counting pass. -/
def swapoutRam (cfg : Conf) (σ : Kernel) (p : Slot) (u : List UInt8) : Except Fault Kernel := do
  let r := σ.proc p
  let put (σ : Kernel) (seg : Seg) : Except Fault Kernel :=
    if r.len seg ≠ 0 then swapramPut cfg σ p seg (r.core seg) else .ok σ
  let σ ← put σ srData
  let σ ← put σ srStack
  let σ ← swapramPut cfg σ p srU u
  let σ ← swapramCommit σ p
  pure (swapoutEnd (σ.setSaved p ![r.core srData, r.core srStack, u]) p fun _ => 0)

/-- `swapout` when the tier has not: the run is reserved and the process locked. -/
def swapoutFlash (σ : Kernel) (p : Slot) : Except Fault Kernel := do
  let r := σ.proc p
  let (span, next, a, mp) ← malloc3ContiguousNext σ.swapmap (btod (r.len srData))
    (btod (r.len srStack)) (btod (r.len srU)) swapImageAlign (some σ.swapnext) 0
  if span = 0 then .error (.panic "out of swap space")
  else
    pure (({ σ with swapmap := mp, swapnext := next }.setProc p { r with slock := true }).setJob p
      (some ⟨a, span, r.toMove⟩))

/-- `swapout`, up to its end on the RAM tier or to its first sleep. -/
def swapoutBegin (cfg : Conf) (σ : Kernel) (p : Slot) (u : List UInt8) : Except Fault Kernel := do
  let r := σ.proc p
  let (ram, σ) ← swapramOut cfg σ p (r.core srData) (r.core srStack) usize
  if ram then swapoutRam cfg σ p u else swapoutFlash σ p

/-- From one `swap` of `swapout` to the next, or to its end. -/
def swapoutResume (σ : Kernel) (p : Slot) (u : List UInt8) (j : OutJob) : Kernel :=
  match j.todo with
  | [] => (swapoutEnd σ p j.a).setJob p none
  | seg :: todo =>
    let bytes := if seg = srU then u else (σ.proc p).core seg
    ({ σ with flash := writeAt σ.flash (j.a seg * devBsize) bytes }.setSaved p
      (Function.update (σ.saved p) seg bytes)).setJob p (some { j with todo := todo })

/-! ## swapin -/

/-- `USER_TOP`. -/
def userTop (cfg : Conf) (r : Proc) : Nat :=
  0x20000000 + maxmem + if r.p_large then cfg.pool else 0

/-- The end of `swapin`: the image is in core. -/
def swapinEnd (cfg : Conf) (σ : Kernel) (p : Slot) (got : Seg → List UInt8) : Kernel :=
  let r := σ.proc p
  { σ with swapper := .idle }.setProc p
    { r with
      p_at := ![0x20000000, userTop cfg r - r.p_ssize, cfg.u0]
      sload := true
      core := got }

/-- `swapin` after the text. -/
def swapinLoad (cfg : Conf) (σ : Kernel) (p : Slot) : Except Fault Kernel :=
  if swapramPresent σ p then do
    let (got, σ) ← swapramIn σ p
    pure (swapinEnd cfg σ p got)
  else .ok { σ with swapper := .reading p (σ.proc p).toMove fun _ => [] }

/-- `swapin`, up to its end or to its first sleep. -/
def swapinBegin (cfg : Conf) (σ : Kernel) (p : Slot) : Except Fault Kernel :=
  if swaptext (σ.proc p) ≠ 0 then .ok { σ with swapper := .text p } else swapinLoad cfg σ p

/-- `exec_text_restore` after its header: `exec_hsaout_text` for a packed executable whose headers are
    in order, and otherwise nothing that involves the workspace. -/
def textRestore (cfg : Conf) (σ : Kernel) (p : Slot) (isPacked : Bool) : Except Fault Kernel :=
  if isPacked then
    (swapramCodecAcquire σ .packedText).map fun σ => { σ with swapper := .packed p }
  else swapinLoad cfg σ p

/-- `exec_hsaout_text` after `hsx_load`. -/
def packedEnd (cfg : Conf) (σ : Kernel) (p : Slot) : Except Fault Kernel := do
  let σ ← swapramCodecRelease σ .packedText
  swapinLoad cfg σ p

/-- From one `swap` of `swapin` to the next, or to its end. -/
def swapinResume (cfg : Conf) (σ : Kernel) (p : Slot) (pool : Nat → UInt8) (got : Seg → List UInt8) :
    List Seg → Except Fault Kernel
  | [] => do
    let r := σ.proc p
    let (_, mp) ← mfree σ.swapmap (swapimagespan r) (r.p_at srData)
    pure (swapinEnd cfg { σ with swapmap := mp } p got)
  | seg :: todo =>
    let r := σ.proc p
    let bytes := readAt σ.flash (r.p_at seg * devBsize) (r.len seg)
    .ok { clobber σ p pool with swapper := .reading p todo (Function.update got seg bytes) }

/-! ## Exec spools -/

/-- `exec_spool_reserve_flash`: the run, or `none` for `ENOMEM`. -/
def execSpoolReserveFlash (σ : Kernel) (size : Nat) : Except Fault (Option (Nat × Nat) × Kernel) := do
  let (span, next, a, mp) ← malloc3ContiguousNext σ.swapmap (btod size) 0 0 swapImageAlign
    (some σ.swapnext) 0
  if span = 0 then pure (none, { σ with swapmap := mp })
  else pure (some (a 0, span), { σ with swapmap := mp, swapnext := next })

/-- `exec_spool_alloc`. A spool that finds room on neither tier is an error of the exec. -/
def execSpoolAlloc (σ : Kernel) (p : Slot) (size : Nat) : Except Fault Kernel :=
  match swapramSpoolAlloc σ size with
  | (some off, σ) => .ok (σ.setSpool p (.swapram off size))
  | (none, σ) => do
    let (run, σ) ← execSpoolReserveFlash σ size
    match run with
    | none => pure σ
    | some (blkno, span) => pure (σ.setSpool p (.flash blkno span))

/-- `exec_spool_write`, and its flushes on flash. -/
def execSpoolWrite (cfg : Conf) (σ : Kernel) (p : Slot) (pos : Nat) (src : List UInt8) :
    Except Fault Kernel :=
  match σ.spool p with
  | .none => .ok σ
  | .swapram off size =>
    if size - pos < src.length then .error (.panic "exec spool write")
    else swapramSpoolWrite cfg σ off pos src
  | .flash blkno _ => .ok { σ with flash := writeAt σ.flash (blkno * devBsize + pos) src }

/-- `exec_spool_to_flash`, up to its first sleep or to its failure. -/
def execSpoolToFlash (σ : Kernel) (p : Slot) (size : Nat) : Except Fault Kernel := do
  let (run, σ) ← execSpoolReserveFlash σ size
  match run with
  | none => pure σ
  | some (blkno, span) => pure (σ.setLoc p (.moving blkno span 0))

/-- The copy loop of `exec_spool_to_flash`, from one `swap_with_buf` to the next, and its end. -/
def execSpoolMove (cfg : Conf) (σ : Kernel) (p : Slot) (off size blkno span position : Nat) :
    Except Fault Kernel :=
  if position < size then do
    let chunk := min devBsize (size - position)
    let bytes ← swapramSpoolRead cfg σ off position chunk
    pure ({ σ with flash := writeAt σ.flash ((blkno + btod position) * devBsize) bytes }.setLoc p
      (.moving blkno span (position + chunk)))
  else do
    let σ ← swapramSpoolFree σ off size
    pure ((σ.setSpool p (.flash blkno span)).setLoc p .user)

/-- `exec_spool_discard`. -/
def execSpoolDiscard (σ : Kernel) (p : Slot) : Except Fault Kernel :=
  match σ.spool p with
  | .none => .ok σ
  | .swapram off size => (swapramSpoolFree σ off size).map fun σ => σ.setSpool p .none
  | .flash blkno span => (mfree σ.swapmap span blkno).map fun r =>
      { σ with swapmap := r.2 }.setSpool p .none

/-! ## Processes -/

/-- The memory of a process and the sizes that go with it. -/
structure Image where
  dsize : Nat
  ssize : Nat
  tsize : Nat
  tip : Bool
  core : Seg → List UInt8

/-- The process with another image. -/
def Proc.become (r : Proc) (img : Image) : Proc :=
  { r with
    p_dsize := img.dsize, p_ssize := img.ssize, p_tsize := img.tsize, p_tip := img.tip
    core := img.core }

/-- The sizes describe the memory. -/
def Image.WF (img : Image) (r : Proc) : Prop := ∀ seg, (img.core seg).length = (r.become img).len seg

instance (img : Image) (r : Proc) : Decidable (img.WF r) := inferInstanceAs (Decidable (∀ _, _))

/-- `newproc`: the child's slot, its share of the epoch, and its swapout. -/
def newproc (cfg : Conf) (σ : Kernel) (parent child : Slot) (u : List UInt8) :
    Except Fault Kernel := do
  let r := σ.proc parent
  let σ := σ.setProc child { r with p_stat := .run, sload := true, slock := false, p_large := false }
  let σ ← swapoutBegin cfg (swapramInherit σ child parent) child u
  pure (if (σ.job child).isSome then σ.setLoc parent (.forking child) else σ)

/-- `newproc` from one sleep of the child's swapout to the next, or to its end. -/
def newprocResume (σ : Kernel) (parent child : Slot) (u : List UInt8) (j : OutJob) : Kernel :=
  let σ := swapoutResume σ child u j
  if (σ.job child).isSome then σ else σ.setLoc parent .user

/-- `exit`. -/
def exit (σ : Kernel) (p : Slot) : Kernel :=
  let σ := swapramLeaveLarge σ p
  σ.setProc p { σ.proc p with p_stat := .zomb }

/-- `wait1` on a zombie: the slot goes back to `freeproc` with `p_flag` zero. -/
def reap (σ : Kernel) (p : Slot) : Kernel :=
  σ.setProc p { σ.proc p with p_stat := .free, sload := false, slock := false, p_large := false }

end DiscoBSD.Swap
