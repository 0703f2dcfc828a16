import Mathlib
import DiscoBSD.Lib.Store
import DiscoBSD.Hsx.Session
import DiscoBSD.Rmap.Swapmap
import DiscoBSD.Swapram.Pool

/-!
# The state of the swap system

What `swapram.c`, `vm_swap.c`, `vm_sched.c` and their callers in exec, fork, exit and sysctl share: the
file-scope variables under the source's names, one record per process slot, and **where each thread of
the kernel is asleep**. The kernel is not preempted: a thread runs until it sleeps, so between two
sleep points the C code is one function of the state, and a sleeping thread is the record of its
locals.

Two fields are not the kernel's. `saved` is what `swapout` last read of a process's memory, and `log`
is the history of requests and answers; nothing reads either.
-/

set_option autoImplicit false

namespace DiscoBSD.Swap

open DiscoBSD.Lib DiscoBSD.Rmap DiscoBSD.Hsx DiscoBSD.Swapram

/-- `NPROC`. -/
def nproc : Nat := 25

instance : NeZero nproc := ⟨by decide⟩

/-- An index into `proc` and into `sr_tab`. -/
abbrev Slot := Fin nproc

/-- `SR_DATA`, `SR_STACK`, `SR_U`. -/
abbrev Seg := Fin 3

def srData : Seg := 0
def srStack : Seg := 1
def srU : Seg := 2

/-- The order in which every loop over the segments runs. -/
def segs : List Seg := [srData, srStack, srU]

/-- `DEV_BSIZE`. -/
def devBsize : Nat := 1024

/-- `USIZE`. -/
def usize : Nat := 3072

/-- `HEATSHRINK_STATIC_LOOKAHEAD_BITS`. -/
def lookaheadBits : Nat := 8

/-- `MAXMEM`, the user window. -/
def maxmem : Nat := 144 * 1024

/-- `btod`: bytes to disk blocks, rounding up. -/
def btod (n : Nat) : Nat := (n + devBsize - 1) / devBsize

/-- `SR_WORST`. -/
def srWorst (n : Nat) : Nat := n + n / 8 + 4

/-- The RP2040's SRAM, in bytes. -/
def sram : Nat := 264 * 1024

/-- What a configuration fixes: the pool's bytes (`SWAPRAM_KB * 1024`), the swap device, the address
    of `u0`, and the vendored encoder, which answers with a stream or with an error. A stream decodes
    to what was encoded and is no longer than the encoder's worst case. -/
structure Conf where
  pool : Nat
  pool_pos : 0 < pool
  pool_le : pool ≤ sram
  dev : SwapDev
  u0 : Nat
  encode : List UInt8 → Option (List UInt8)
  decodes : ∀ src bytes, encode src = some bytes → refDecode lookaheadBits (bytesBits bytes) [] = src
  worst : ∀ src bytes, encode src = some bytes → bytes.length ≤ srWorst src.length

/-- `SWAPRAM_CODEC_ENCODER`, `_DECODER`, `_PACKED_TEXT`. -/
inductive Codec where
  | encoder
  | decoder
  | packedText
  deriving DecidableEq, Repr

/-- `SWAPRAM_EVAC_IDLE`, `_PENDING`, `_DONE`, `_NOFLASH`. -/
inductive Evac where
  | idle
  | pending
  | done
  | noflash
  deriving DecidableEq, Repr

/-- `SWAPRAM_SMALL`, `SWAPRAM_LARGE`. -/
inductive Epoch where
  | small
  | large
  deriving DecidableEq, Repr

/-- `struct sr_ent`. The offsets and lengths fit their type because the pool does. -/
structure SrEnt where
  e_rlen : Seg → Nat
  e_off : Nat
  e_res : Nat
  e_clen : Seg → Nat
  e_live : Bool

/-- A slot is on `freeproc`, on `allproc` or on `zombproc`. -/
inductive Stat where
  | free
  | run
  | zomb
  deriving DecidableEq, Repr

/-- The fields of `struct proc` the swap code reads. `p_at` is `p_daddr`, `p_saddr` and `p_addr`, by
    segment. `core` is the memory they name while the process is loaded: the data past the clean
    text, the stack, and the u area. -/
structure Proc where
  p_stat : Stat
  sload : Bool
  slock : Bool
  p_large : Bool
  p_dsize : Nat
  p_ssize : Nat
  p_tsize : Nat
  p_tip : Bool
  p_at : Seg → Nat
  core : Seg → List UInt8

/-- The spool of `struct exec_params`: `backing` with the fields that backing uses. -/
inductive Spool where
  | none
  | swapram (off size : Nat)
  | flash (blkno span : Nat)
  deriving DecidableEq, Repr

/-- Where a process is asleep in the kernel, as far as the swap code can tell: nowhere that matters,
    in `swapram_enter_large`, in the copy loop of `exec_spool_to_flash` with its spool on both sides,
    or in `newproc`'s swapout of its child. -/
inductive Where where
  | user
  | waiting (seq : Nat)
  | moving (blkno span position : Nat)
  | forking (child : Slot)
  deriving DecidableEq, Repr

/-- A flash `swapout` in progress: the run it reserved, and the segments still to write. -/
structure OutJob where
  a : Seg → Nat
  span : Nat
  todo : List Seg

/-- The locals of `sr_expand` and of the loops around it while `swap_with_buf` sleeps. `todo` are the
    later segments of the image and `rest` the later slots. -/
structure ExpandAt where
  slot : Slot
  seg : Seg
  off : Nat
  blk : Nat
  out : Nat
  dec : HsxDec
  win : Nat → UInt8
  todo : List Seg
  rest : List Slot

/-- The branch of `swapram_service` that called `swapram_evacuate`. -/
inductive Purpose where
  | evac
  | large
  deriving DecidableEq, Repr

/-- Where the swapper is asleep: at the top of its loop, in `geteblk` or in `swap_with_buf` under
    `swapram_evacuate`, in `swapout`, or in `swapin`, first under `exec_text_restore` (with the header
    or the raw text, then perhaps with the packed text) and then reading flash. -/
inductive Swapper where
  | idle
  | geteblk (why : Purpose)
  | expanding (why : Purpose) (loc : ExpandAt)
  | swapout (p : Slot)
  | text (p : Slot)
  | packed (p : Slot)
  | reading (p : Slot) (todo : List Seg) (got : Seg → List UInt8)

/-- What was asked and answered: a process asks for LARGE, `swapram_evacuate` returns, and
    `swapram_enter_large` returns. -/
inductive Note where
  | request (p : Slot)
  | evacuated (ok : Bool)
  | entered (p : Slot)
  | refused (p : Slot)
  deriving DecidableEq, Repr

/-- The kernel. -/
structure Kernel where
  sr_pool : Nat → UInt8
  sr_map : SwapramPool
  sr_spools : Nat
  sr_tab : Slot → SrEnt
  sr_admit : Bool
  swapram_evac : Evac
  swapram_epoch : Epoch
  sr_nlarge : Int
  sr_large_want : Bool
  sr_small_want : Bool
  sr_large_seq : Nat
  sr_codec_owner : Option Codec
  proc : Slot → Proc
  swapmap : Map
  swapnext : Nat
  flash : Nat → UInt8
  swapper : Swapper
  spool : Slot → Spool
  loc : Slot → Where
  job : Slot → Option OutJob
  saved : Slot → Seg → List UInt8
  log : List Note

/-! ## Updates -/

def Kernel.setEnt (σ : Kernel) (p : Slot) (e : SrEnt) : Kernel :=
  { σ with sr_tab := Function.update σ.sr_tab p e }

def Kernel.setProc (σ : Kernel) (p : Slot) (r : Proc) : Kernel :=
  { σ with proc := Function.update σ.proc p r }

def Kernel.setSpool (σ : Kernel) (p : Slot) (s : Spool) : Kernel :=
  { σ with spool := Function.update σ.spool p s }

def Kernel.setLoc (σ : Kernel) (p : Slot) (l : Where) : Kernel :=
  { σ with loc := Function.update σ.loc p l }

def Kernel.setJob (σ : Kernel) (p : Slot) (j : Option OutJob) : Kernel :=
  { σ with job := Function.update σ.job p j }

def Kernel.setSaved (σ : Kernel) (p : Slot) (img : Seg → List UInt8) : Kernel :=
  { σ with saved := Function.update σ.saved p img }

def Kernel.note (σ : Kernel) (n : Note) : Kernel := { σ with log := n :: σ.log }

end DiscoBSD.Swap
