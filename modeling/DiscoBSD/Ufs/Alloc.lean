import DiscoBSD.Lib.Word

/-!
# The free block list

`balloc` and `free` of `sys/kern/ufs_alloc.c`, with `badblock` of `sys/kern/ufs_subr.c`. The superblock
remembers up to `NICFREE` free blocks. A full memory is **written into the block being freed**, which then
stands alone in it; taking that block reads the memory back. An entry of zero ends the list.

A block is the sequence of its words, as the buffer cache hands it out. Words are kept unsigned, so a
`daddr_t` or an `int` is negative from `2 ^ 31` on.
-/

set_option autoImplicit false

namespace DiscoBSD.Ufs

open DiscoBSD.Lib

/-- `NICFREE`. -/
def nicfree : Nat := 200

/-- `NICINOD`. -/
def nicinod : Nat := 32

/-- `struct fs`, less the locks, the mount's name and flags, and the magic words. -/
structure Fs where
  fs_isize : Nat
  fs_fsize : Nat
  fs_nfree : Nat
  fs_free : Nat → Nat
  fs_ninode : Nat
  fs_inode : Nat → Nat
  fs_fmod : Bool
  fs_ronly : Bool
  fs_tfree : Nat
  fs_tinode : Nat
  fs_lasti : Nat
  fs_nbehind : Nat

/-- A mounted volume: its superblock in core and on the disk, and the words of its blocks. -/
structure Volume where
  fs : Fs
  superb : Fs
  blk : Nat → Nat → Nat

/-- `badblock`: not a block of the data area. -/
def Fs.badblock (fs : Fs) (bn : Nat) : Prop :=
  2 ^ 31 ≤ bn ∨ bn < fs.fs_isize ∨ fs.fs_fsize ≤ bn

instance (fs : Fs) (bn : Nat) : Decidable (fs.badblock bn) :=
  inferInstanceAs (Decidable (_ ∨ _ ∨ _))

/-- An `int` that is not positive. -/
def nonpos (n : Nat) : Prop := n = 0 ∨ 2 ^ 31 ≤ n

instance (n : Nat) : Decidable (nonpos n) := inferInstanceAs (Decidable (_ ∨ _))

/-- The `do … while (badblock(fs, bno))` of `balloc`, over a count that `NICFREE` bounds: entries that
    are no blocks are dropped. Nothing is left of the list when it runs dry. -/
def takeFree (fs : Fs) : Nat → Option (Nat × Fs)
  | 0 => none
  | n + 1 =>
    let bno := fs.fs_free n
    if bno = 0 then none
    else if fs.badblock bno then takeFree fs n
    else some (bno, { fs with fs_nfree := n })

/-- The label `nospace`. -/
def Volume.nospace (v : Volume) : Volume :=
  { v with fs := { v.fs with fs_nfree := 0, fs_tfree := 0, fs_fmod := true } }

/-- `*((FBLKP)&fs->fs_nfree) = *fbp`. -/
def Fs.load (fs : Fs) (b : Nat → Nat) : Fs :=
  { fs with fs_nfree := b 0, fs_free := fun i => b (i + 1) }

/-- `*fbp = *((FBLKP)&fs->fs_nfree)`. The rest of the buffer stays. -/
def Fs.spill (fs : Fs) (b : Nat → Nat) : Nat → Nat := fun w =>
  if w = 0 then fs.fs_nfree else if w ≤ nicfree then fs.fs_free (w - 1) else b w

/-- Block `bno` made to hold the words `b`. -/
def Volume.setBlk (v : Volume) (bno : Nat) (b : Nat → Nat) : Volume :=
  { v with blk := Function.update v.blk bno b }

/-- The end of `balloc`: the buffer is claimed, and cleared with `B_CLRBUF`. -/
def Volume.claim (v : Volume) (clrbuf : Bool) (bno : Nat) : Volume :=
  let v := if clrbuf then v.setBlk bno fun _ => 0 else v
  { v with fs := { v.fs with fs_fmod := true, fs_tfree := wrap 32 (v.fs.fs_tfree + (2 ^ 32 - 1)) } }

/-- `balloc`. No block is `ENOSPC`. -/
def Volume.balloc (v : Volume) (clrbuf : Bool) : Option Nat × Volume :=
  if nonpos v.fs.fs_nfree ∨ nicfree < v.fs.fs_nfree then (none, v.nospace)
  else
    match takeFree v.fs v.fs.fs_nfree with
    | none => (none, v.nospace)
    | some (bno, fs) =>
      if nonpos fs.fs_nfree then
        -- The emptied list is read back from the block, and the superblock written with it.
        let fs := fs.load (v.blk bno)
        let v := { v with fs := fs, superb := { fs with fs_fmod := false } }
        if nonpos fs.fs_nfree then (none, v.nospace) else (some bno, v.claim clrbuf bno)
      else (some bno, Volume.claim { v with fs := fs } clrbuf bno)

/-- `free`. -/
def Volume.free (v : Volume) (bno : Nat) : Volume :=
  if v.fs.badblock bno then v
  else
    let fs : Fs :=
      if nonpos v.fs.fs_nfree then
        { v.fs with fs_nfree := 1, fs_free := Function.update v.fs.fs_free 0 0 }
      else v.fs
    let v : Volume := { v with fs := fs }
    let v :=
      if nicfree ≤ fs.fs_nfree then
        { v.setBlk bno (fs.spill (v.blk bno)) with fs := { fs with fs_nfree := 0 } }
      else v
    { v with
      fs := { v.fs with
        fs_free := Function.update v.fs.fs_free v.fs.fs_nfree bno
        fs_nfree := v.fs.fs_nfree + 1
        fs_tfree := wrap 32 (v.fs.fs_tfree + 1)
        fs_fmod := true } }

end DiscoBSD.Ufs
