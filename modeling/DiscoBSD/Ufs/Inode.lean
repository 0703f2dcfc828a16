import DiscoBSD.Ufs.Alloc

/-!
# Inodes in core and on the disk

`ialloc` and `ifree` of `sys/kern/ufs_alloc.c`, and `ifind`, `iget`, `irele` and `iupdat` of
`sys/kern/ufs_inode.c`. The inode table keeps an inode **after its last reference is gone**, at the end
of the list of unused slots, until the slot is wanted for another one; `ifind` finds it there.

Every mounted device has its superblock and its inodes on the disk, as the buffer cache has them. What an
inode holds besides its mode and its links is not here: `irele` truncates the file, and that is a matter
of blocks.
-/

set_option autoImplicit false

namespace DiscoBSD.Ufs

open DiscoBSD.Lib

/-- `ROOTINO`. -/
def rootino : Nat := 2

/-- `INOPB`. -/
def inopb : Nat := 16

/-- `itod`: the block that holds an inode. -/
def itod (ino : Nat) : Nat := (ino + inopb - 1) / inopb

/-- The inode at place `i` of block `adr`. -/
def inodeAt (adr i : Nat) : Nat := (adr - 1) * inopb + 1 + i

/-- `struct dinode`. -/
structure Dinode where
  di_mode : Nat
  di_nlink : Nat
  deriving DecidableEq, Repr

/-- `struct inode`. The flag stands for `IUPD|IACC|ICHG|IMOD`. -/
structure Inode where
  i_dev : Nat
  i_number : Nat
  i_count : Nat
  i_mode : Nat
  i_nlink : Nat
  dirty : Bool
  deriving DecidableEq, Repr

/-- The inode table of `ninode` slots with the list of unused ones, and the mounted devices. -/
structure Core where
  ninode : Nat
  inode : Nat → Inode
  ifreeh : List Nat
  fs : Nat → Fs
  dino : Nat → Nat → Dinode

namespace Core

def setInode (s : Core) (i : Nat) (ip : Inode) : Core :=
  { s with inode := Function.update s.inode i ip }

def setFs (s : Core) (dev : Nat) (fs : Fs) : Core := { s with fs := Function.update s.fs dev fs }

def setDino (s : Core) (dev ino : Nat) (dp : Dinode) : Core :=
  { s with dino := Function.update s.dino dev (Function.update (s.dino dev) ino dp) }

/-- `ifind`. -/
def ifind (s : Core) (dev ino : Nat) : Option Nat :=
  (List.range s.ninode).find? fun i => ino = (s.inode i).i_number ∧ dev = (s.inode i).i_dev

/-- `iget`. No slot is `ENFILE`. -/
def iget (s : Core) (dev ino : Nat) : Option Nat × Core :=
  match s.ifind dev ino with
  | some i =>
    let s := if (s.inode i).i_count = 0 then { s with ifreeh := s.ifreeh.erase i } else s
    (some i, s.setInode i { s.inode i with i_count := (s.inode i).i_count + 1 })
  | none =>
    match s.ifreeh with
    | [] => (none, s)
    | i :: rest =>
      let dp := s.dino dev ino
      let ip : Inode :=
        { i_dev := dev, i_number := ino, i_count := (s.inode i).i_count + 1
          i_mode := dp.di_mode, i_nlink := dp.di_nlink, dirty := false }
      (some i, setInode { s with ifreeh := rest } i ip)

/-- `iupdat`. -/
def iupdat (s : Core) (i : Nat) : Core :=
  let ip := s.inode i
  if ip.dirty = false then s
  else if (s.fs ip.i_dev).fs_ronly then s
  else
    setDino (s.setInode i { ip with dirty := false }) ip.i_dev ip.i_number ⟨ip.i_mode, ip.i_nlink⟩

end Core

/-- `ifree`, on the superblock. -/
def Fs.ifree (fs : Fs) (ino : Nat) : Fs :=
  let fs := { fs with fs_tinode := wrap 32 (fs.fs_tinode + 1) }
  if nicinod ≤ fs.fs_ninode then
    if ino < fs.fs_lasti then { fs with fs_nbehind := wrap 32 (fs.fs_nbehind + 1) } else fs
  else
    { fs with
      fs_inode := Function.update fs.fs_inode fs.fs_ninode ino
      fs_ninode := fs.fs_ninode + 1
      fs_fmod := true }

namespace Core

/-- What `irele` does with the last reference to a file without links. -/
def deallocate (s : Core) (i : Nat) : Core :=
  let ip := s.inode i
  setFs (s.setInode i { ip with i_mode := 0, dirty := true }) ip.i_dev
    ((s.fs ip.i_dev).ifree ip.i_number)

/-- `irele`, and `iput`, which only unlocks the inode before. -/
def irele (s : Core) (i : Nat) : Core :=
  if (s.inode i).i_count = 1 then
    let s := if (s.inode i).i_nlink = 0 ∧ (s.fs (s.inode i).i_dev).fs_ronly = false then s.deallocate i
      else s
    let s := s.iupdat i
    { s.setInode i { s.inode i with dirty := false, i_count := 0 } with ifreeh := s.ifreeh ++ [i] }
  else s.setInode i { s.inode i with i_count := (s.inode i).i_count - 1 }

end Core

/-! ## ialloc -/

section

-- What the search asks of an inode: the mode at its place on the disk, and whether it is in core.
variable (mode : Nat → Nat) (incore : Nat → Bool)

/-- The search through one block of inodes, from place `i` on, `k` of them left. -/
def searchBlock (adr : Nat) : Nat → Nat → Nat → Fs → Nat × Fs
  | 0, _, ino, fs => (ino, fs)
  | k + 1, i, ino, fs =>
    if mode (inodeAt adr i) ≠ 0 then searchBlock adr k (i + 1) (ino + 1) fs
    else if incore ino then searchBlock adr k (i + 1) (ino + 1) fs
    else
      let fs := { fs with
        fs_inode := Function.update fs.fs_inode fs.fs_ninode ino
        fs_ninode := fs.fs_ninode + 1 }
      if nicinod ≤ fs.fs_ninode then (ino, fs) else searchBlock adr k (i + 1) (ino + 1) fs

/-- The search through `n` blocks from `adr` on, with the first inode of the block it ended in. -/
def searchBlocks : Nat → Nat → Nat → Nat → Fs → Nat × Fs
  | 0, _, _, inobas, fs => (inobas, fs)
  | n + 1, adr, ino, _, fs =>
    let r := searchBlock mode incore adr inopb 0 ino fs
    if nicinod ≤ r.2.fs_ninode then (ino, r.2) else searchBlocks n (adr + 1) r.1 ino r.2

/-- The search from the label `fromtop`. -/
def fromtop (fs : Fs) : Nat × Fs :=
  searchBlocks mode incore (fs.fs_isize - 1) 1 1 0 { fs with fs_nbehind := 0 }

/-- The search of `ialloc` for `NICINOD` free inodes. -/
def refill (fs : Fs) : Fs :=
  let r :=
    if fs.fs_nbehind < 4 * nicinod then
      let r := searchBlocks mode incore (fs.fs_isize - itod fs.fs_lasti) (itod fs.fs_lasti) fs.fs_lasti 0 fs
      if r.2.fs_ninode < nicinod then fromtop mode incore { r.2 with fs_ninode := 0 } else r
    else fromtop mode incore fs
  { r.2 with fs_lasti := r.1 }

end

/-- What `ialloc` returns: the slot of the inode, or no inode with the error. -/
inductive Ialloc where
  | inode (i : Nat)
  | enfile
  | enospc
  deriving DecidableEq, Repr

namespace Core

/-- `ialloc`. The argument counts the turns of its loop: a turn takes an inode out of the cache, or fills
    the cache. -/
def ialloc (dev : Nat) : Nat → Core → Option (Ialloc × Core)
  | 0, _ => none
  | turns + 1, s =>
    let fs := s.fs dev
    if 0 < fs.fs_ninode then
      let ino := fs.fs_inode (fs.fs_ninode - 1)
      let s := s.setFs dev { fs with fs_ninode := fs.fs_ninode - 1 }
      if ino ≤ rootino then ialloc dev turns s
      else
        match s.iget dev ino with
        | (none, s) => some (.enfile, s)
        | (some i, s) =>
          if (s.inode i).i_mode = 0 then
            let fs := s.fs dev
            some (.inode i,
              s.setFs dev { fs with fs_fmod := true, fs_tinode := wrap 32 (fs.fs_tinode + (2 ^ 32 - 1)) })
          -- The inode was allocated after all.
          else ialloc dev turns (s.irele i)
    else
      let s := s.setFs dev
        (refill (fun ino => (s.dino dev ino).di_mode) (fun ino => (s.ifind dev ino).isSome) fs)
      if 0 < (s.fs dev).fs_ninode then ialloc dev turns s else some (.enospc, s)

end Core

/-! ## Steps -/

/-- What is done to inodes: they are allocated, looked up and released, and whoever holds one gives it a
    mode and links, takes a link away, or has it written. -/
inductive Step where
  | ialloc (dev turns : Nat)
  | iget (dev ino : Nat)
  | iput (i : Nat)
  | set (i mode nlink : Nat)
  | unlink (i : Nat)
  | iupdat (i : Nat)
  deriving DecidableEq, Repr

/-- The inodes of the file system. -/
def Fs.InRange (fs : Fs) (ino : Nat) : Prop := 1 ≤ ino ∧ ino ≤ (fs.fs_isize - 1) * inopb

namespace Core

/-- Some process has the inode. -/
def Referenced (s : Core) (dev ino : Nat) : Prop :=
  ∃ i < s.ninode, (s.inode i).i_number = ino ∧ (s.inode i).i_dev = dev ∧ 0 < (s.inode i).i_count

/-- The inode is a file, or is being made one. -/
def Allocated (s : Core) (dev ino : Nat) : Prop := (s.dino dev ino).di_mode ≠ 0 ∨ s.Referenced dev ino

/-- A slot somebody has a reference to. -/
def Held (s : Core) (i : Nat) : Prop := i < s.ninode ∧ 0 < (s.inode i).i_count

/-- A directory entry names an allocated inode of its volume, and only the holder of an inode acts on it: he gives it a
    mode that is not zero, on a volume he may write. -/
def Legal (s : Core) : Step → Prop
  | .ialloc _ _ => True
  | .iget dev ino => (s.fs dev).InRange ino ∧ s.Allocated dev ino
  | .iput i => s.Held i
  | .set i mode _ => s.Held i ∧ mode ≠ 0 ∧ (s.fs (s.inode i).i_dev).fs_ronly = false
  | .unlink i => s.Held i ∧ 0 < (s.inode i).i_nlink ∧ (s.fs (s.inode i).i_dev).fs_ronly = false
  | .iupdat i => s.Held i

/-- A step. There is no next state of a call that does not return. -/
def step (s : Core) : Step → Option Core
  | .ialloc dev turns => (ialloc dev turns s).map Prod.snd
  | .iget dev ino => some (s.iget dev ino).2
  | .iput i => some (s.irele i)
  | .set i mode nlink => some (s.setInode i { s.inode i with i_mode := mode, i_nlink := nlink, dirty := true })
  | .unlink i => some (s.setInode i { s.inode i with i_nlink := (s.inode i).i_nlink - 1, dirty := true })
  | .iupdat i => some (s.iupdat i)

/-- The states legal steps lead to. -/
inductive Reach (s₀ : Core) : Core → Prop where
  | refl : Reach s₀ s₀
  | step {s s' : Core} {a : Step} (h : Reach s₀ s) (hl : s.Legal a) (hs : s.step a = some s') : Reach s₀ s'

end Core

end DiscoBSD.Ufs
