import Mathlib.Order.Interval.Finset.Nat
import Mathlib.Data.Finset.Option
import DiscoBSD.Ufs.Alloc

/-!
# The block allocator of `fsutil`

`tools/fsutil/block.c`: the free list of a file system image, kept on the host as the kernel keeps it on the
machine. The superblock is in `fs_t` while `fsutil` runs, and blocks are read and written where they lie in the
image. **That place is computed in 32 bits**, so from block `2 ^ 22` on it is another block's.
-/

set_option autoImplicit false

namespace DiscoBSD.Fsutil

open DiscoBSD.Lib
open DiscoBSD.Ufs (nicfree Volume)

def bsdfsBsize : Nat := 1024

/-- `fs_t`, as far as its blocks go, and the image behind it: its length and its contents in blocks. -/
structure Fs where
  isize : Nat
  isize_pos : 0 < isize
  fsize : Nat
  nfree : Nat
  free : Nat → Nat
  tfree : Nat
  writable : Bool
  len : Nat
  disk : Nat → Nat → Nat

/-- The block of the image that `fs_seek (fs, bnum * BSDFS_BSIZE)` goes to. The product is an `unsigned`. -/
def position (bnum : Nat) : Nat := wrap 32 (bnum * bsdfsBsize) / bsdfsBsize

namespace Fs

def fs_read_block (fs : Fs) (bnum : Nat) : Option (Nat → Nat) :=
  if bnum < fs.isize then none
  else if fs.len ≤ position bnum then none
  else some (fs.disk (position bnum))

def fs_write_block (fs : Fs) (bnum : Nat) (data : Nat → Nat) : Option Fs :=
  if fs.writable = false ∨ bnum < fs.isize then none
  else some { fs with
    disk := Function.update fs.disk (position bnum) data
    len := max fs.len (position bnum + 1) }

/-- The buffer that a full list goes into. The words after the entries are never set. -/
def spilled (fs : Fs) (junk : Nat → Nat) : Nat → Nat := fun w =>
  if w = 0 then fs.nfree else if w ≤ nicfree then fs.free (w - 1) else junk w

/-- The end of `fs_block_free`. -/
def put (fs : Fs) (bno : Nat) : Fs :=
  { fs with
    free := Function.update fs.free fs.nfree bno
    nfree := fs.nfree + 1
    tfree := if bno ≠ 0 then wrap 32 (fs.tfree + 1) else fs.tfree }

def fs_block_free (fs : Fs) (bno : Nat) (junk : Nat → Nat) : Bool × Fs :=
  if nicfree ≤ fs.nfree then
    match fs.fs_write_block bno (fs.spilled junk) with
    | none => (false, fs)
    | some fs => (true, put { fs with nfree := 0 } bno)
  else (true, fs.put bno)

/-- `fs_block_alloc` from the label `again` on, which it goes back to over entries that are zero. -/
def again : Nat → Fs → Option Nat × Fs
  | 0, fs => (none, fs)
  | n + 1, fs =>
    let bno := fs.free n
    let fs := { fs with
      nfree := n
      tfree := wrap 32 (fs.tfree + (2 ^ 32 - 1))
      free := Function.update fs.free n 0 }
    if n = 0 then
      -- Block 0 is not read, so here the entry is not zero.
      match fs.fs_read_block bno with
      | none => (none, fs)
      | some buf =>
        (some bno, { fs with nfree := buf 0, free := fun i => if i < nicfree then buf (i + 1) else fs.free i })
    else if bno = 0 then again n fs
    else (some bno, fs)

def fs_block_alloc (fs : Fs) : Option Nat × Fs := again fs.nfree fs

theorem fs_read_block_zero (fs : Fs) : fs.fs_read_block 0 = none := if_pos fs.isize_pos

/-- What the kernel finds once `fs_sync` has written the superblock. The inodes' part of it is `rest`. -/
def mounted (fs : Fs) (rest : Ufs.Fs) : Volume :=
  let superb := { rest with
    fs_isize := fs.isize, fs_fsize := fs.fsize, fs_nfree := fs.nfree, fs_free := fs.free, fs_tfree := fs.tfree }
  { fs := superb, superb := superb, blk := fs.disk }

/-- The data area. -/
def area (fs : Fs) : Finset Nat := Finset.Ico fs.isize fs.fsize

end Fs

/-! ## Who uses the blocks -/

/-- A file system with the blocks that have been handed out. -/
structure Using where
  fs : Fs
  used : Finset Nat

inductive Call where
  | alloc
  | free (bno : Nat) (junk : Nat → Nat)
  /-- The owner of a block writes it. -/
  | write (bno : Nat) (data : Nat → Nat)

/-- Only blocks that have been handed out are freed and written. -/
def Using.step (s : Using) : Call → Option Using
  | .alloc => some ⟨s.fs.fs_block_alloc.2, s.used ∪ s.fs.fs_block_alloc.1.toFinset⟩
  | .free bno junk =>
    if bno ∈ s.used then
      some ⟨(s.fs.fs_block_free bno junk).2, if (s.fs.fs_block_free bno junk).1 then s.used.erase bno else s.used⟩
    else none
  | .write bno data => if bno ∈ s.used then (s.fs.fs_write_block bno data).map (⟨·, s.used⟩) else none

end DiscoBSD.Fsutil
