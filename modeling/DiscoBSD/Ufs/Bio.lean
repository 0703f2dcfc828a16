import Mathlib.Data.List.Basic
import Mathlib.Logic.Function.Basic

/-!
# The buffer cache

`getblk`, `getnewbuf`, `geteblk`, `bread`, `bwrite`, `bdwrite`, `brelse` and `biodone` of
`sys/kern/ufs_bio.c`. A process runs until it sleeps: on a busy buffer and for a free one in `getblk`, and
for the end of a transfer in `biowait`. **A process that slept on a busy buffer searches again. One that
slept for a free buffer does not**: `getnewbuf` goes back to its own beginning, and what it finds in the
end is given the block that was missing before the sleep.

A transfer is with the driver from `d_strategy` to `biodone`. It succeeds, or fails and leaves something
in the block. Nothing sets `B_LOCKED`, and no device here is a tape.
-/

set_option autoImplicit false

namespace DiscoBSD.Bio

/-- `struct buf`, with the flags of the block layer, what its memory holds, and whether the driver has
    it. `NODEV` is no device. -/
structure Buf (D : Type) where
  b_dev : Option Nat
  b_blkno : Nat
  busy : Bool
  done : Bool
  delwri : Bool
  inval : Bool
  error : Bool
  read : Bool
  async : Bool
  age : Bool
  io : Bool
  data : D

/-- Whether the block is to be read when `getblk` has it. -/
inductive Call where
  | getblk
  | bread
  deriving DecidableEq, Repr

/-- Where a process is: in its own code, asleep on a busy buffer, asleep for a free buffer, or in
    `biowait` for a buffer of its own. -/
inductive Pc where
  | user
  | getblk (dev blkno : Nat) (k : Call)
  | getnewbuf (dev blkno : Nat) (k : Call)
  | geteblk
  | bread (dev blkno i : Nat)
  | bwrite (i : Nat)
  deriving DecidableEq, Repr

/-- The `nbuf` buffers, the two free lists, the devices, and the processes with the buffers they have. -/
structure Cache (D : Type) where
  nbuf : Nat
  buf : Nat → Buf D
  age : List Nat
  lru : List Nat
  disk : Nat → Nat → D
  pc : Nat → Pc
  owner : Nat → Option Nat

variable {D : Type}

/-- The buffer is hashed under the block and not invalid. -/
def Buf.At (bp : Buf D) (dev blkno : Nat) : Prop :=
  bp.b_blkno = blkno ∧ bp.b_dev = some dev ∧ bp.inval = false

instance (bp : Buf D) (dev blkno : Nat) : Decidable (bp.At dev blkno) :=
  inferInstanceAs (Decidable (_ ∧ _ ∧ _))

/-- `bp->b_flags = B_BUSY`. -/
def Buf.claimed (bp : Buf D) : Buf D :=
  { bp with
    busy := true, done := false, delwri := false, inval := false, error := false, read := false
    async := false, age := false }

namespace Cache

def setBuf (s : Cache D) (i : Nat) (bp : Buf D) : Cache D := { s with buf := Function.update s.buf i bp }

def setPc (s : Cache D) (p : Nat) (pc : Pc) : Cache D := { s with pc := Function.update s.pc p pc }

def setOwner (s : Cache D) (i : Nat) (p : Option Nat) : Cache D :=
  { s with owner := Function.update s.owner i p }

/-- The search of `getblk`, which is `incore`. -/
def incore (s : Cache D) (dev blkno : Nat) : Option Nat :=
  (List.range s.nbuf).find? fun i => (s.buf i).At dev blkno

/-- `notavail`. -/
def notavail (s : Cache D) (i : Nat) : Cache D :=
  { s.setBuf i { s.buf i with busy := true } with age := s.age.erase i, lru := s.lru.erase i }

/-- `brelse`. -/
def brelse (s : Cache D) (i : Nat) : Cache D :=
  let bp := s.buf i
  let s :=
    if bp.error ∨ bp.inval then { s with age := i :: s.age }
    else if bp.age then { s with age := s.age ++ [i] }
    else { s with lru := s.lru ++ [i] }
  (s.setBuf i { bp with
    b_dev := if bp.error then none else bp.b_dev, busy := false, async := false, age := false }).setOwner i none

/-- `bwrite` up to the call of the driver. -/
def strategy (s : Cache D) (i : Nat) (async : Bool) : Cache D :=
  let bp := s.buf i
  s.setBuf i { bp with
    read := false, done := false, error := false, delwri := false, async := async
    age := if async && bp.delwri then true else bp.age, io := true }

/-- The loop of `getnewbuf` over the free buffers, those of the age list first: a buffer with a delayed
    write is written and left alone. Without any, the process sleeps. -/
def takeBuf : List Nat → Cache D → Option Nat × Cache D
  | [], s => (none, s)
  | i :: rest, s =>
    let s := s.notavail i
    if (s.buf i).delwri then takeBuf rest (s.strategy i true)
    else (some i, s.setBuf i (s.buf i).claimed)

/-- `getnewbuf`. -/
def getnewbuf (s : Cache D) : Option Nat × Cache D := takeBuf (s.age ++ s.lru) s

/-- What `bread` makes of the buffer `getblk` returned; the first component is the buffer `bread` returns
    at once, with the block it was asked for. -/
def finish (s : Cache D) (p dev blkno i : Nat) : Call → Option (Nat × Nat × Nat) × Cache D
  | .getblk => (none, (s.setOwner i (some p)).setPc p .user)
  | .bread =>
    if (s.buf i).done ∨ (s.buf i).delwri then
      (some (dev, blkno, i), (s.setOwner i (some p)).setPc p .user)
    else
      (none, ((s.setOwner i (some p)).setBuf i { s.buf i with read := true, io := true }).setPc p
        (.bread dev blkno i))

/-- `getblk` from the call of `getnewbuf` on. -/
def newblk (s : Cache D) (p dev blkno : Nat) (k : Call) : Option (Nat × Nat × Nat) × Cache D :=
  match s.getnewbuf with
  | (none, s) => (none, s.setPc p (.getnewbuf dev blkno k))
  | (some i, s) =>
    finish (s.setBuf i { s.buf i with b_dev := some dev, b_blkno := blkno }) p dev blkno i k

/-- `getblk`, from its label `loop` on. -/
def getblk (s : Cache D) (p dev blkno : Nat) (k : Call) : Option (Nat × Nat × Nat) × Cache D :=
  match s.incore dev blkno with
  | some i =>
    if (s.buf i).busy then (none, s.setPc p (.getblk dev blkno k))
    else finish (s.notavail i) p dev blkno i k
  | none => s.newblk p dev blkno k

/-- `geteblk`. -/
def geteblk (s : Cache D) (p : Nat) : Cache D :=
  match s.getnewbuf with
  | (none, s) => s.setPc p .geteblk
  | (some i, s) =>
    ((s.setBuf i { s.buf i with inval := true, b_dev := none }).setOwner i (some p)).setPc p .user

/-- `biodone`: the transfer was made, or it failed and left `x`. -/
def biodone (s : Cache D) (i : Nat) (x : Option D) : Cache D :=
  let bp := s.buf i
  match bp.b_dev with
  | none => s
  | some dev =>
    let moved : Cache D :=
      if bp.read then
        s.setBuf i { bp with
          data := x.getD (s.disk dev bp.b_blkno), error := x.isSome, done := true, io := false }
      else
        { s.setBuf i { bp with error := x.isSome, done := true, io := false } with
          disk := Function.update s.disk dev (Function.update (s.disk dev) bp.b_blkno (x.getD bp.data)) }
    if bp.async then moved.brelse i else moved

end Cache

/-- What happens next: a process calls, or goes on after a sleep, or a transfer ends. A process hands what
    it put into the buffer to the call that writes it. -/
inductive Event (D : Type) where
  | getblk (p dev blkno : Nat)
  | bread (p dev blkno : Nat)
  | geteblk (p : Nat)
  | resume (p : Nat)
  | bwrite (p i : Nat) (x : D)
  | bawrite (p i : Nat) (x : D)
  | bdwrite (p i : Nat) (x : D)
  | brelse (p i : Nat)
  | biodone (i : Nat) (x : Option D)

namespace Cache

/-- A process that goes on after a sleep. -/
def resume (s : Cache D) (p : Nat) : Option (Nat × Nat × Nat) × Cache D :=
  match s.pc p with
  | .user => (none, s)
  | .getblk dev blkno k => s.getblk p dev blkno k
  | .getnewbuf dev blkno k => s.newblk p dev blkno k
  | .geteblk => (none, s.geteblk p)
  | .bread dev blkno i => if (s.buf i).done then (some (dev, blkno, i), s.setPc p .user) else (none, s)
  | .bwrite i => if (s.buf i).done then (none, (s.brelse i).setPc p .user) else (none, s)

/-- A step, with the buffer a `bread` returned in it. -/
def step (s : Cache D) : Event D → Option (Nat × Nat × Nat) × Cache D
  | .getblk p dev blkno => s.getblk p dev blkno .getblk
  | .bread p dev blkno => s.getblk p dev blkno .bread
  | .geteblk p => (none, s.geteblk p)
  | .resume p => s.resume p
  | .bwrite p i x => (none, ((s.setBuf i { s.buf i with data := x }).strategy i false).setPc p (.bwrite i))
  | .bawrite _ i x => (none, ((s.setBuf i { s.buf i with data := x }).strategy i true).setOwner i none)
  | .bdwrite _ i x => (none, (s.setBuf i { s.buf i with data := x, delwri := true, done := true }).brelse i)
  | .brelse _ i => (none, s.brelse i)
  | .biodone i x => (none, s.biodone i x)

/-- A process has the buffer and runs. -/
def Has (s : Cache D) (p i : Nat) : Prop := s.pc p = .user ∧ s.owner i = some p

/-- A process calls when it runs, and writes or releases a buffer of its own; it writes no buffer that
    belongs to no block, and does not delay the write of one whose transfer failed. -/
def Legal (s : Cache D) : Event D → Prop
  | .getblk p _ _ => s.pc p = .user
  | .bread p _ _ => s.pc p = .user
  | .geteblk p => s.pc p = .user
  | .resume _ => True
  | .bwrite p i _ => s.Has p i ∧ (s.buf i).inval = false
  | .bawrite p i _ => s.Has p i ∧ (s.buf i).inval = false
  | .bdwrite p i _ => s.Has p i ∧ (s.buf i).inval = false ∧ (s.buf i).error = false
  | .brelse p i => s.Has p i
  | .biodone i _ => i < s.nbuf ∧ (s.buf i).io = true

/-- A process that slept for a free buffer goes on only while its block is still missing. -/
def StillMissing (s : Cache D) : Event D → Prop
  | .resume p => ∀ dev blkno k, s.pc p = .getnewbuf dev blkno k → s.incore dev blkno = none
  | _ => True

/-- The block contents as their writers see them: what was written last, unless its transfer failed. -/
def written (s : Cache D) (c : Nat → Nat → D) : Event D → Nat → Nat → D
  | .bwrite _ i x | .bawrite _ i x | .bdwrite _ i x => put (s.buf i) c x
  | .biodone i (some x) => if (s.buf i).read then c else put (s.buf i) c x
  | _ => c
where
  put (bp : Buf D) (c : Nat → Nat → D) (x : D) : Nat → Nat → D := fun d b =>
    if bp.b_dev = some d ∧ bp.b_blkno = b then x else c d b

/-- `binit`: every buffer is invalid and on the age list, each in front of those before it. -/
def boot (nbuf : Nat) (disk : Nat → Nat → D) (x : D) : Cache D where
  nbuf := nbuf
  buf := fun _ =>
    { b_dev := none, b_blkno := 0, busy := false, done := false, delwri := false, inval := true
      error := false, read := false, async := false, age := false, io := false, data := x }
  age := (List.range nbuf).reverse
  lru := []
  disk := disk
  pc := fun _ => .user
  owner := fun _ => none

end Cache

/-- The runs from `s₀` whose steps all meet `P`, with the contents written. -/
inductive Run (P : Cache D → Event D → Prop) (s₀ : Cache D) (c₀ : Nat → Nat → D) :
    Cache D → (Nat → Nat → D) → Prop where
  | refl : Run P s₀ c₀ s₀ c₀
  | step {s : Cache D} {c : Nat → Nat → D} {e : Event D} (h : Run P s₀ c₀ s c) (hl : s.Legal e)
      (hp : P s e) : Run P s₀ c₀ (s.step e).2 (s.written c e)

end DiscoBSD.Bio
