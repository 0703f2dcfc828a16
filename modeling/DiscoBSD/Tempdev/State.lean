import Mathlib
import DiscoBSD.Tempdev.Device
import DiscoBSD.Lib.Runs

/-!
# Temporary swap devices

`sys/dev/swap.c`: three devices, each with an extent of the swap space that `TFALLOC` gets and gives back, read and
written through a character interface in bytes and through a block interface in blocks. Beside them processes take
extents of the same space, write there and give them back.

**What was written to a device since it got its extent is kept beside it**, each write with whether it carried
`B_SWAPIMAGE`, and so is the extent that `malloc3_contiguous_next` found. The code never looks at either.

A call runs to its end before the next begins. A panic is an answer like another here; nothing good is ever said of
a call that ends in one. Minor device 64 is the whole swap device and not one of these.
-/

set_option autoImplicit false

namespace DiscoBSD.Tempdev

open DiscoBSD.Lib DiscoBSD.Rmap DiscoBSD.Flash
open DiscoBSD.Swap (devBsize)
open Function (update)

/-! ## One device -/

/-- `NTMP`. -/
def ntmp : Nat := 3

/-- `TD_APPEND_DISABLED`. -/
def tdAppendDisabled : Nat := 0xffff

/-- `struct swtemp`. -/
structure Swtemp where
  t_start : Nat
  t_size : Nat
  t_next : Nat
  deriving DecidableEq, Repr

/-- `swtemp_write_flags`, with whether there is a `B_SWAPIMAGE` in the flags. -/
def swtempWriteFlags (temp : Swtemp) (block blocks : Nat) : Bool × Swtemp :=
  if blocks = 0 ∨ temp.t_next = tdAppendDisabled ∨ block ≠ temp.t_next ∨ temp.t_size < block ∨
      temp.t_size - block < blocks then
    (false, { temp with t_next := tdAppendDisabled })
  else (true, { temp with t_next := wrap 16 (temp.t_next + blocks) })

/-- A write to a device: where in it, and what. -/
structure Write where
  off : Nat
  bytes : List UInt8
  image : Bool
  deriving DecidableEq, Repr

/-- The last value written to a byte. -/
def value (writes : List Write) (i : Nat) : Option UInt8 :=
  writes.foldl (fun v w => if w.off ≤ i then (w.bytes[i - w.off]?).or v else v) none

/-- The writes are of whole blocks, each where the one before ended. -/
def InOrder : Nat → List Write → Nat → Prop
  | off, [], stop => off = stop
  | off, w :: ws, stop => w.off = off ∧ devBsize ∣ w.bytes.length ∧ InOrder (off + w.bytes.length) ws stop

/-- What carried `B_SWAPIMAGE` came in strict order from the start. -/
def Ordered (writes : List Write) : Prop :=
  ∀ pre w post, writes = pre ++ w :: post → w.image = true → ∃ stop, InOrder 0 (pre ++ [w]) stop

/-- A device, the memory it is in, and what was written to it. -/
structure Temp where
  t : Swtemp
  disk : Mem
  writes : List Write

/-- A call of `swap`: the block and the bytes. -/
abbrev Io := Int × Nat

/-- The loop of `swcread`. It takes no more turns than the device has blocks. -/
def readLoop (dev : SwapDev) (x : Temp) : Nat → Nat → Nat → Nat → Option (List UInt8 × List Io)
  | 0, _, _, _ => some ([], [])
  | turns + 1, block, boff, rlen =>
    if 0 < rlen ∧ block < x.t.t_size then do
      let rsize := min (devBsize - boff) rlen
      let buf ← swapRead dev x.disk (x.t.t_start + block : Nat) devBsize
      let (data, io) ← readLoop dev x turns (block + 1) 0 (rlen - rsize)
      some ((buf.drop boff).take rsize ++ data, (((x.t.t_start + block : Nat) : Int), devBsize) :: io)
    else some ([], [])

/-- A turn of `swcwrite`'s loop: a whole block goes as it is, a part of one into what the block has now. -/
def writeTurn (dev : SwapDev) (x : Temp) (block boff : Nat) (chunk : List UInt8) : Option (Temp × List Io) :=
  let blk : Int := (x.t.t_start + block : Nat)
  if boff ≠ 0 ∨ chunk.length ≠ devBsize then do
    let buf ← swapRead dev x.disk blk devBsize
    let disk ← swapWrite dev x.disk blk (buf.take boff ++ chunk ++ buf.drop (boff + chunk.length)) false
    some (⟨{ x.t with t_next := tdAppendDisabled }, disk, x.writes ++ [⟨block * devBsize + boff, chunk, false⟩]⟩,
      [(blk, devBsize), (blk, devBsize)])
  else do
    let (image, t) := swtempWriteFlags x.t block 1
    let disk ← swapWrite dev x.disk blk chunk image
    some (⟨t, disk, x.writes ++ [⟨block * devBsize, chunk, image⟩]⟩, [(blk, devBsize)])

def writeLoop (dev : SwapDev) : Nat → Temp → Nat → Nat → List UInt8 → Option (Temp × List Io)
  | 0, x, _, _, _ => some (x, [])
  | turns + 1, x, block, boff, bytes =>
    if 0 < bytes.length ∧ block < x.t.t_size then do
      let rsize := min (devBsize - boff) bytes.length
      let (x, io) ← writeTurn dev x block boff (bytes.take rsize)
      let (x, io') ← writeLoop dev turns x (block + 1) 0 (bytes.drop rsize)
      some (x, io ++ io')
    else some (x, [])

/-! ## The system -/

/-- All devices and the swap space. `given` is the extent a device was given, `held` are the processes'. -/
structure State where
  mp : Map
  swapnext : Nat
  td : Nat → Swtemp
  disk : Mem
  held : List Extent
  given : Nat → Option Extent
  writes : Nat → List Write

inductive Errno where
  | enodev
  | eio
  | einval
  deriving DecidableEq, Repr

/-- What a call returns and does. `offtval` is what `TFALLOC` stores, `done` is `biodone`. -/
structure Out where
  error : Option Errno
  offtval : Int
  data : List UInt8
  io : List Io
  freed : Option Extent
  lost : Option Lost
  done : Bool
  panic : Bool

/-- Nothing at all. -/
def Out.nothing : Out := ⟨none, 0, [], [], none, none, false, false⟩

def Out.fails (error : Errno) : Out := { Out.nothing with error := some error }

def Out.panics : Out := { Out.nothing with panic := true }

inductive Request where
  | read (count : Nat)
  | write (bytes : List UInt8)
  deriving DecidableEq, Repr

def Request.b_bcount : Request → Nat
  | .read count => count
  | .write bytes => bytes.length

inductive Call where
  | tfalloc (unit : Nat) (requested : Int)
  | read (unit : Nat) (offset : Int) (len : Nat)
  | write (unit : Nat) (offset : Int) (bytes : List UInt8)
  | strategy (unit : Nat) (b_blkno : Int) (request : Request)
  | alloc (d_size s_size u_size next : Nat)
  | free (r : Extent)
  | store (r : Extent) (bytes : Mem)

def State.temp (s : State) (unit : Nat) : Temp := ⟨s.td unit, s.disk, s.writes unit⟩

def State.setTemp (s : State) (unit : Nat) (x : Temp) : State :=
  { s with td := update s.td unit x.t, disk := x.disk, writes := update s.writes unit x.writes }

/-- `uio_offset >> 10`, as a `u_int`. -/
def blockOf (offset : Int) : Nat := (offset / devBsize % 2 ^ 32).toNat

/-- `uio_offset - (block << 10)`, as a `u_int`. -/
def boffOf (offset : Int) : Nat := ((offset - blockOf offset * devBsize) % 2 ^ 32).toNat

/-- `swcread`. -/
def State.swcread (s : State) (dev : SwapDev) (unit : Nat) (offset : Int) (len : Nat) : Out :=
  if ntmp ≤ unit then .fails .enodev
  else if (s.td unit).t_start = 0 then .fails .eio
  else if ((s.td unit).t_size * devBsize : Nat) ≤ offset then .fails .eio
  else
    match readLoop dev (s.temp unit) (s.td unit).t_size (blockOf offset) (boffOf offset) len with
    | none => .panics
    | some (data, io) => { Out.nothing with data := data, io := io }

/-- `swcwrite`. -/
def State.swcwrite (s : State) (dev : SwapDev) (unit : Nat) (offset : Int) (bytes : List UInt8) : Out × State :=
  if ntmp ≤ unit then (.fails .enodev, s)
  else if (s.td unit).t_start = 0 then (.fails .eio, s)
  else if ((s.td unit).t_size * devBsize : Nat) ≤ offset then (.fails .eio, s)
  else
    match writeLoop dev (s.td unit).t_size (s.temp unit) (blockOf offset) (boffOf offset) bytes with
    | none => (.panics, s)
    | some (x, io) => ({ Out.nothing with io := io }, s.setTemp unit x)

/-- `btod` of a `u_int`. -/
def btod32 (n : Nat) : Nat := wrap 32 (n + devBsize - 1) / devBsize

/-- The write of `swstrategy`. -/
def strategyWrite (dev : SwapDev) (x : Temp) (b_blkno : Int) (bytes : List UInt8) : Option Temp := do
  let (image, t) :=
    if bytes.length % devBsize = 0 then
      swtempWriteFlags x.t (b_blkno % 2 ^ 32).toNat (btod32 bytes.length)
    else (false, { x.t with t_next := tdAppendDisabled })
  let disk ← swapWrite dev x.disk (x.t.t_start + b_blkno) bytes image
  some ⟨t, disk, x.writes ++ [⟨(b_blkno * devBsize).toNat, bytes, image⟩]⟩

/-- What `swstrategy` does for a request that has passed its checks. -/
def State.transfer (s : State) (dev : SwapDev) (unit : Nat) (b_blkno : Int) (request : Request) : Out × State :=
  let blk : Int := (s.td unit).t_start + b_blkno
  let io : List Io := if request.b_bcount = 0 then [] else [(blk, request.b_bcount)]
  match request with
  | .read count =>
    match swapRead dev s.disk blk count with
    | none => (.panics, s)
    | some data => ({ Out.nothing with data := data, io := io, done := true }, s)
  | .write bytes =>
    match strategyWrite dev (s.temp unit) b_blkno bytes with
    | none => (.panics, s)
    | some x => ({ Out.nothing with io := io, done := true }, s.setTemp unit x)

/-- `swstrategy`, for a temporary device. -/
def State.swstrategy (s : State) (dev : SwapDev) (unit : Nat) (b_blkno : Int) (request : Request) : Out × State :=
  let t := s.td unit
  if ntmp ≤ unit then (.nothing, s)
  else if t.t_start = 0 then (.nothing, s)
  else if (t.t_size : Int) ≤ b_blkno ∨ (t.t_size : Int) - b_blkno < btod32 request.b_bcount then (.nothing, s)
  else s.transfer dev unit b_blkno request

/-- `TFALLOC` gives back what the device has. The extent is computed from the device's fields. -/
def State.giveBack (s : State) (unit : Nat) : Except Fault (Option Extent × Option Lost × State) :=
  let t := s.td unit
  if 0 < t.t_start then
    (mfree s.mp (alignUp swapImageAlign t.t_size) t.t_start).map fun (lost, mp) =>
      (some ⟨t.t_start, alignUp swapImageAlign t.t_size⟩, lost,
        { s with
          mp := mp
          td := update s.td unit ⟨0, 0, tdAppendDisabled⟩
          given := update s.given unit none
          writes := update s.writes unit [] })
  else .ok (none, none, s)

/-- `TFALLOC` gets a new extent, if one is asked for. -/
def State.getNew (s : State) (unit : Nat) (requested : Int) : Except Fault (Int × State) :=
  (malloc3ContiguousNext s.mp requested.toNat 0 0 swapImageAlign (some s.swapnext) fun _ => 0).map
    fun (span, next, a, mp) =>
      let t_start := if span = 0 then (s.td unit).t_start else wrap 16 (a 0)
      if 0 < t_start then
        (requested,
          { s with
            mp := mp
            swapnext := next
            td := update s.td unit ⟨t_start, wrap 16 requested.toNat, 0⟩
            given := update s.given unit (some ⟨a 0, span⟩)
            writes := update s.writes unit [] })
      else
        (0, { s with mp := mp, td := update s.td unit { s.td unit with t_start := 0, t_next := tdAppendDisabled } })

/-- `swcioctl` with `TFALLOC`. -/
def State.tfalloc (s : State) (unit : Nat) (requested : Int) : Out × State :=
  if ntmp ≤ unit then (.fails .enodev, s)
  else
    match s.giveBack unit with
    | .error _ => (.panics, s)
    | .ok (freed, lost, s') =>
      let out : Out := { Out.nothing with offtval := requested, freed := freed, lost := lost }
      if 0 < requested then
        match s'.getNew unit requested with
        | .error _ => (.panics, s)
        | .ok (offtval, s'') => ({ out with offtval := offtval }, s'')
      else if requested = 0 then (out, s')
      else ({ out with error := some .einval }, s')

/-- The most extents that processes have at a time. -/
def heldMost : Nat := smapExtents - ntmp

/-- An `off_t` or a `daddr_t`. -/
def Long (n : Int) : Prop := -2 ^ 31 ≤ n ∧ n < 2 ^ 31

instance (n : Int) : Decidable (Long n) := inferInstanceAs (Decidable (_ ∧ _))

/-- The bytes of an extent, and the first sector, which nobody has. -/
def InBytes (dev : SwapDev) (r : Extent) (x : Nat) : Prop :=
  addr dev r.off ≤ x ∧ x < addr dev (r.off + r.size) ∨ x < addr dev swapImageAlign

instance (dev : SwapDev) (r : Extent) (x : Nat) : Decidable (InBytes dev r x) := inferInstanceAs (Decidable (_ ∨ _))

/-- A call, if its arguments are of their types, and a process's moves, if they can be made. -/
def State.call (dev : SwapDev) (s : State) : Call → Option (Out × State)
  | .tfalloc unit requested => if Long requested then some (s.tfalloc unit requested) else none
  | .read unit offset len => if Long offset then some (s.swcread dev unit offset len, s) else none
  | .write unit offset bytes => if Long offset then some (s.swcwrite dev unit offset bytes) else none
  | .strategy unit b_blkno request =>
    if Long b_blkno ∧ request.b_bcount < 2 ^ 32 ∧ unit ≠ 64 then some (s.swstrategy dev unit b_blkno request) else none
  | .alloc d_size s_size u_size next =>
    if s.held.length < heldMost then
      match malloc3ContiguousNext s.mp d_size s_size u_size swapImageAlign (some next) fun _ => 0 with
      | .error _ => none
      | .ok (span, next, a, mp) =>
        some (.nothing,
          { s with mp := mp, swapnext := next, held := if span = 0 then s.held else ⟨a 0, span⟩ :: s.held })
    else none
  | .free r =>
    if r ∈ s.held then
      match mfree s.mp r.size r.off with
      | .error _ => none
      | .ok (_, mp) => some (.nothing, { s with mp := mp, held := s.held.erase r })
    else none
  | .store r bytes =>
    if r ∈ s.held then
      some (.nothing, { s with disk := fun x => if InBytes dev r x then bytes x else s.disk x })
    else none

def State.step (dev : SwapDev) (s : State) (c : Call) : Option State := (s.call dev c).map Prod.snd

/-- The resource map that `init_main` makes, which does not panic. -/
def bootMap (dev : SwapDev) : Map :=
  match initSwapmap dev with
  | .ok (_, mp) => mp
  | .error _ => swapmap

/-- After `init_main`: no device has an extent and no process is swapped out. -/
def State.start (dev : SwapDev) (swapnext : Nat) (disk : Mem) : State where
  mp := bootMap dev
  swapnext := swapnext
  td := fun _ => ⟨0, 0, 0⟩
  disk := disk
  held := []
  given := fun _ => none
  writes := fun _ => []

/-! ## The purpose -/

def Call.unit : Call → Nat
  | .tfalloc unit _ | .read unit _ _ | .write unit _ _ | .strategy unit _ _ => unit
  | _ => 0

/-- What the caller of a read may take for granted. -/
def Reads (writes : List Write) (offset len : Nat) (data : List UInt8) : Prop :=
  ∀ i v, i < len → value writes (offset + i) = some v → data[i]? = some v

/-- The bytes are now the last ones written, as far as they are in the device. -/
def Wrote (writes : List Write) (offset : Nat) (bytes : List UInt8) (size : Nat) : Prop :=
  ∀ i b, bytes[i]? = some b → offset + i < size → value writes (offset + i) = some b

/-- What is to hold of a call. -/
structure Proper (s : State) (c : Call) (out : Out) (s' : State) : Prop where
  alive : out.panic = false
  inside : ∀ a ∈ out.io, ∃ e ∈ s.given c.unit, (e.off : Int) ≤ a.1 ∧
    a.1 * devBsize + a.2 ≤ (e.off + (s.td c.unit).t_size) * devBsize
  reads : ∀ unit offset len, c = .read unit offset len → 0 ≤ offset →
    Reads (s.writes unit) offset.toNat len out.data
  wrote : ∀ unit offset bytes, c = .write unit offset bytes → 0 ≤ offset → out.error = none →
    Wrote (s'.writes unit) offset.toNat bytes ((s.td unit).t_size * devBsize)
  blockReads : ∀ unit b_blkno count, c = .strategy unit b_blkno (.read count) → 0 ≤ b_blkno →
    Reads (s.writes unit) (b_blkno * devBsize).toNat count out.data
  blockWrote : ∀ unit b_blkno bytes, c = .strategy unit b_blkno (.write bytes) → 0 ≤ b_blkno →
    Wrote (s'.writes unit) (b_blkno * devBsize).toNat bytes ((s.td unit).t_size * devBsize)
  returned : ∀ unit requested, c = .tfalloc unit requested → unit < ntmp →
    out.freed = s.given unit ∧ out.lost = none
  ordered : ∀ unit, Ordered (s'.writes unit)
  completed : ∀ unit b_blkno request, c = .strategy unit b_blkno request → out.done = true

/-- The call does what it should where it is made. -/
def State.Fine (dev : SwapDev) (s : State) (c : Call) : Prop :=
  ∀ out s', s.call dev c = some (out, s') → Proper s c out s'

/-- A block request that is not refused, starts in the device, and can be written: the flash is programmed in
    pages. -/
def State.Safe (dev : SwapDev) (s : State) : Call → Prop
  | .strategy unit b_blkno request =>
    unit < ntmp ∧ (s.td unit).t_start ≠ 0 ∧ b_blkno < (s.td unit).t_size ∧ (0 ≤ b_blkno ∨ request.b_bcount = 0) ∧
      request.b_bcount ≤ ((s.td unit).t_size - b_blkno) * devBsize ∧
      ∀ bytes, request = .write bytes → dev = .fl1 → flashProgBytes ∣ bytes.length
  | _ => True

end DiscoBSD.Tempdev
