import Mathlib.Logic.Function.Basic
import DiscoBSD.Ufs.Alloc

/-!
# Files and their blocks

`bmap` of `sys/kern/ufs_bmap.c`, `indirtrunc` and `itrunc` with the end of `irele` of
`sys/kern/ufs_inode.c`, and the writing half of `rwip` of `sys/kern/sys_inode.c`, for the files that have
blocks. A file has four direct blocks and a tree of depth one, two and three. `bmap` hangs every block it
allocates into the tree **at once**, before it knows whether the next one is to be had; `itrunc` does
nothing at all for a file that has the wanted size already, and little after a failed copy.

Transfers succeed. What a process writes is whatever it likes, and copying it in may fail at any block.
-/

set_option autoImplicit false

namespace DiscoBSD.Ufs

open DiscoBSD.Lib

/-- `NDADDR`. -/
def ndaddr : Nat := 4

/-- `NADDR`. -/
def naddr : Nat := 7

/-- `NINDIR`. -/
def nindir : Nat := 256

/-- `DEV_BSIZE`. -/
def devBsize : Nat := 1024

/-- `MAXPIPSIZ`. -/
def maxpipsiz : Int := ndaddr * devBsize

/-- What an `off_t` keeps. -/
def offT (n : Int) : Int := n.bmod (2 ^ 32)

/-- `lblkno`, through an unsigned word. -/
def lblkno (loc : Int) : Nat := (loc % 2 ^ 32).toNat / devBsize

/-- `blkoff`. -/
def blkoff (loc : Int) : Nat := (loc % devBsize).toNat

/-- The types of file that have blocks. -/
inductive Kind where
  | reg
  | dir
  | lnk
  deriving DecidableEq, Repr

/-- `struct inode` of such a file, or of none: no type is a mode of zero. The first four addresses are
    blocks, and each of the others is a tree one deeper than the last. -/
structure File where
  kind : Option Kind
  i_nlink : Nat
  i_size : Int
  i_addr : Nat → Nat
  pipe : Bool
  append : Bool

/-- The file with an address set. -/
def File.setAddr (ip : File) (i nb : Nat) : File := { ip with i_addr := Function.update ip.i_addr i nb }

/-! ## bmap -/

/-- What `bmap` returns. No block is `ENOSPC` when it writes, and a hole when it reads. -/
inductive Bmap where
  | blk (nb : Nat)
  | none
  | efbig
  deriving DecidableEq, Repr

/-- `for(;j <= 3;j++)`, from an indirect block with `k` levels of pointers on. -/
def fetch (write : Bool) : Nat → Nat → Nat → Volume → Bmap × Volume
  | 0, nb, _, v => (.blk nb, v)
  | k + 1, nb, bn, v =>
    let i := bn / nindir ^ k % nindir
    if v.blk nb i = 0 then
      if write then
        match v.balloc true with
        | (none, v) => (.none, v)
        | (some b, v) => fetch write k b bn (v.setBlk nb (Function.update (v.blk nb) i b))
      else (.none, v)
    else fetch write k (v.blk nb i) bn v

/-- How many levels of indirection lead to a block, and its number below them. -/
def indirection (bn : Nat) : Option (Nat × Nat) :=
  if bn < nindir then some (1, bn)
  else if bn - nindir < nindir ^ 2 then some (2, bn - nindir)
  else if bn - nindir - nindir ^ 2 < nindir ^ 3 then some (3, bn - nindir - nindir ^ 2)
  else none

/-- `bmap`. -/
def bmap (v : Volume) (ip : File) (bn : Nat) (write clrbuf : Bool) : Bmap × File × Volume :=
  if bn < ndaddr then
    if ip.i_addr bn = 0 then
      if write then
        match v.balloc clrbuf with
        | (none, v) => (.none, ip, v)
        | (some nb, v) => (.blk nb, ip.setAddr bn nb, v)
      else (.none, ip, v)
    else (.blk (ip.i_addr bn), ip, v)
  else
    match indirection (bn - ndaddr) with
    | none => (.efbig, ip, v)
    | some (k, bn) =>
      let top := ndaddr - 1 + k
      if ip.i_addr top = 0 then
        if write then
          match v.balloc true with
          | (none, v) => (.none, ip, v)
          | (some nb, v) =>
            let r := fetch write k nb bn v
            (r.1, ip.setAddr top nb, r.2)
        else (.none, ip, v)
      else
        let r := fetch write k (ip.i_addr top) bn v
        (r.1, ip, r.2)

/-! ## itrunc -/

/-- The indices of a block of pointers above `last`, from the end down. -/
def above (last : Int) : List Nat := (List.range nindir).reverse.filter fun i : Nat => last < i

/-- `indirtrunc` for a block with `k` levels of pointers. The copy `cpy` keeps what the block loses. There
    are no pointers in a data block. -/
def indirtrunc : Nat → Nat → Int → Volume → Volume
  | 0, _, _, v => v
  | k + 1, bn, lastbn, v =>
    let last := if 0 < lastbn then lastbn / (nindir ^ k : Nat) else lastbn
    let cpy := v.blk bn
    let v := v.setBlk bn fun i => if i < nindir ∧ last < i then 0 else cpy i
    let v := (above last).foldl
      (fun v i => if cpy i = 0 then v else (indirtrunc k (cpy i) (-1) v).free (cpy i)) v
    if 0 ≤ lastbn ∧ cpy last.toNat ≠ 0 then
      indirtrunc k (cpy last.toNat) (lastbn % (nindir ^ k : Nat)) v
    else v

/-- One of the trees of a file that is cut after block `last` of it; a negative one is `-1`. -/
def trunctree (k bn : Nat) (last : Int) (v : Volume) : Volume :=
  if bn = 0 then v
  else if last < 0 then (indirtrunc k bn (-1) v).free bn
  else indirtrunc k bn last v

/-- The direct blocks of a file above `lastblock`, from the end down. -/
def truncdirect (addr : Nat → Nat) (lastblock : Int) (v : Volume) : Volume :=
  ((List.range ndaddr).reverse.filter fun i : Nat => lastblock < i).foldl
    (fun v i => if addr i = 0 then v else v.free (addr i)) v

/-- The part of `itrunc` after the partial block: the addresses go, and then the blocks. -/
def shrink (v : Volume) (ip : File) (length : Int) : File × Volume :=
  let lastblock : Int := ((lblkno (length + devBsize - 1) : Nat) : Int) - 1
  let single := lastblock - ndaddr
  let double := single - nindir
  let triple := double - nindir * nindir
  let last : Nat → Int := fun i =>
    if i = 4 then single else if i = 5 then double else if i = 6 then triple else lastblock - i
  let kept : File := { ip with
    i_size := length
    i_addr := fun i => if i < naddr ∧ last i < 0 then 0 else ip.i_addr i }
  let v := trunctree 3 (ip.i_addr 6) triple v
  if 0 ≤ triple then (kept, v)
  else
    let v := trunctree 2 (ip.i_addr 5) double v
    if 0 ≤ double then (kept, v)
    else
      let v := trunctree 1 (ip.i_addr 4) single v
      if 0 ≤ single then (kept, v) else (kept, truncdirect ip.i_addr lastblock v)

/-- `bzero (bp->b_addr + offset, …)`, a byte being a quarter of a word. -/
def clearFrom (offset : Nat) (b : Nat → Nat) : Nat → Nat := fun w =>
  if 4 * w + 4 ≤ offset then b w else b w % 2 ^ (8 * (offset - 4 * w))

/-- `itrunc`. An error that the process has already ends it where it looks for one of `bmap`. -/
def itrunc (u_error : Bool) (v : Volume) (ip : File) (length : Int) : File × Volume :=
  if length < 0 then (ip, v)
  else if ip.pipe = false ∧ ip.i_size = length then (ip, v)
  else
    let ip := if ip.pipe then { ip with i_size := maxpipsiz } else ip
    if ip.i_size < length then
      match bmap v ip (lblkno (length - 1)) true true with
      | (.blk _, ip, v) => if u_error then (ip, v) else ({ ip with i_size := length }, v)
      | (_, ip, v) => (ip, v)
    else if blkoff length ≠ 0 then
      match bmap v ip (lblkno length) true true with
      | (.blk bn, ip, v) =>
        if u_error then (ip, v) else shrink (v.setBlk bn (clearFrom (blkoff length) (v.blk bn))) ip length
      | (_, ip, v) => (ip, v)
    else shrink v ip length

/-! ## rwip -/

/-- How the loop of `rwip` ends: it is through, `bmap` found no block and the call returned, or the copy
    from the process failed. -/
inductive Wrote where
  | all
  | nospace
  | fault
  deriving DecidableEq, Repr

/-- The loop of `rwip` for a write. Turn `t` leaves `(chunk t).1` in the block, and its copy succeeds if
    `(chunk t).2` says so. -/
def rwipLoop (chunk : Nat → (Nat → Nat) × Bool) : Nat → Nat → Volume → File → Int → Nat → Wrote × File × Volume
  | 0, _, v, ip, _, _ => (.all, ip, v)
  | turns + 1, t, v, ip, offset, resid =>
    let n := min (devBsize - blkoff offset) resid
    match bmap v ip (lblkno offset) true (n ≠ devBsize) with
    | (.blk bn, ip, v) =>
      let ip := if ip.i_size < offT (offset + n) then { ip with i_size := offT (offset + n) } else ip
      let v := v.setBlk bn (chunk t).1
      if (chunk t).2 = false then (.fault, ip, v)
      else if resid - n = 0 then (.all, ip, v)
      else rwipLoop chunk turns (t + 1) v ip (offT (offset + n)) (resid - n)
    | (_, ip, v) => (.nospace, ip, v)

/-- A write as `rwip` gets it. -/
structure Write where
  offset : Int
  resid : Nat
  ioAppend : Bool
  ioUnit : Bool
  rlim : Nat
  chunk : Nat → (Nat → Nat) × Bool

/-- `rwip` for a write. -/
def rwip (v : Volume) (ip : File) (w : Write) : File × Volume :=
  let offset := if ip.kind = some .reg ∧ w.ioAppend then ip.i_size else w.offset
  if ip.kind = some .reg ∧ ip.append ∧ offset ≠ ip.i_size then (ip, v)
  else if w.resid = 0 then (ip, v)
  else if ip.kind = some .reg ∧ (w.rlim : Int) < (offset + w.resid) % 2 ^ 32 then (ip, v)
  else
    match rwipLoop w.chunk w.resid 0 v ip offset w.resid with
    | (.fault, ip', v) => if w.ioUnit then itrunc true v ip' ip.i_size else (ip', v)
    | (_, ip', v) => (ip', v)

/-- The last `irele` of a file: one without links goes with its blocks, on a volume that may be written. -/
def ireleLast (v : Volume) (ip : File) : File × Volume :=
  if ip.i_nlink = 0 ∧ v.fs.fs_ronly = false then
    let r := itrunc false v ip 0
    -- `i_rdev` is the second address.
    ({ r.1 with kind := none, i_addr := Function.update r.1.i_addr 1 0, pipe := false }, r.2)
  else ({ ip with pipe := false }, v)

/-! ## Steps -/

/-- The files of a volume, by inode. -/
structure Files where
  vol : Volume
  file : Nat → File

/-- What happens to files: one is made in an inode `ialloc` cleared, written, cut or grown, loses a link,
    or is released for the last time. -/
inductive Op where
  | create (i : Nat) (kind : Kind) (nlink : Nat) (pipe : Bool)
  | write (i : Nat) (w : Write)
  | truncate (i : Nat) (length : Int)
  | unlink (i : Nat)
  | release (i : Nat)

namespace Files

/-- What a call made of a file and the volume. -/
def put (s : Files) (i : Nat) (r : File × Volume) : Files := ⟨r.2, Function.update s.file i r.1⟩

def op (s : Files) : Op → Files
  | .create i kind nlink pipe =>
    s.put i ({ s.file i with
      kind := some kind, i_nlink := nlink, i_addr := fun _ => 0, pipe := pipe, append := false }, s.vol)
  | .write i w => s.put i (rwip s.vol (s.file i) w)
  | .truncate i length => s.put i (itrunc false s.vol (s.file i) length)
  | .unlink i => s.put i ({ s.file i with i_nlink := (s.file i).i_nlink - 1 }, s.vol)
  | .release i => s.put i (ireleLast s.vol (s.file i))

/-- A file is made where there is none, and everything else is done to a file. -/
def Legal (s : Files) (n : Nat) : Op → Prop
  | .create i _ _ _ => i < n ∧ (s.file i).kind = none
  | .write i _ | .truncate i _ | .unlink i | .release i => i < n ∧ (s.file i).kind ≠ none

end Files

end DiscoBSD.Ufs
