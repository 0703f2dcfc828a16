import DiscoBSD.Lib.Store
import DiscoBSD.Ufs.Bmap

/-!
# A directory and its records

The part of `sys/kern/ufs_namei.c` that works on the blocks of one directory: the scan of `namei_at` for the last
component of a path that is to be created or deleted, `direnter` and `dirremove`.

**A directory is its size and its bytes**; a record is read off the bytes at its address. Beyond the size stands what
the block there comes with when the directory grows, and a file system block is one directory block. What the two
`rdwri` calls do with a block of the file is a write of its bytes (`Ufs.Bmap` has the block); `dirchk` is 0.
-/

set_option autoImplicit false

namespace DiscoBSD.Dir

open DiscoBSD.Lib
open DiscoBSD.Ufs (offT)

def dirblksiz : Nat := 1024
def maxnamlen : Nat := 63

/-- `DIRSIZ` of a record with a name of this length. -/
def dirsiz (namlen : Nat) : Nat := roundUp 4 (8 + namlen + 1)

/-- `roundup(x, DIRBLKSIZ)` of an `off_t`. -/
def roundup (x : Int) : Int := (offT (x + (dirblksiz - 1))).tdiv dirblksiz * dirblksiz

/-- `struct direct`, with the array of the name. -/
structure Direct where
  d_ino : Nat
  d_reclen : Nat
  d_namlen : Nat
  d_name : Nat → UInt8

/-- The component. -/
def Direct.name (ep : Direct) : List UInt8 := readAt ep.d_name 0 ep.d_namlen

/-- The structure as it lies in memory. -/
def Direct.bytes (ep : Direct) : List UInt8 :=
  leBytes 4 ep.d_ino ++ leBytes 2 ep.d_reclen ++ leBytes 2 ep.d_namlen ++ readAt ep.d_name 0 (maxnamlen + 1)

/-! ## The fields of the record at an address -/

def dIno (m : Nat → UInt8) (ep : Nat) : Nat := leNat (readAt m ep 4)
def dReclen (m : Nat → UInt8) (ep : Nat) : Nat := leNat (readAt m (ep + 4) 2)
def dNamlen (m : Nat → UInt8) (ep : Nat) : Nat := leNat (readAt m (ep + 6) 2)
def dName (m : Nat → UInt8) (ep : Nat) : List UInt8 := readAt m (ep + 8) (dNamlen m ep)

/-- `ep->d_reclen = n` -/
def setReclen (m : Nat → UInt8) (ep n : Nat) : Nat → UInt8 := writeAt m (ep + 4) (leBytes 2 n)

/-- What the functions use of the inode of a directory. -/
structure Directory where
  i_size : Int
  i_nlink : Nat
  data : Nat → UInt8

/-- Which blocks can be read, and which can be written. -/
structure Io where
  reads : Nat → Bool
  writes : Nat → Bool

/-- The device that does not fail. -/
def Io.fine : Io := ⟨fun _ => true, fun _ => true⟩

/-- What `namei_at` leaves for the functions. -/
structure Nameidata where
  ni_endoff : Int
  ni_offset : Int
  ni_count : Nat
  ni_dent : Direct

/-! ## The scan -/

inductive SlotStatus where
  | none | compact | found
  deriving DecidableEq, Repr

/-- The variables of the scan: `bp` is the block in the buffer. -/
structure Scan where
  ni_offset : Nat
  bp : Nat
  entryoffsetinblock : Nat
  slotstatus : SlotStatus
  slotoffset : Int
  slotsize : Int
  slotfreespace : Int
  prevoff : Nat
  enduseful : Nat

/-- The record the scan stands at. -/
def Scan.ep (s : Scan) : Nat := s.bp * dirblksiz + s.entryoffsetinblock

/-- The head of the loop: the next block is read at its boundary, and the search for free space starts again there. -/
def Scan.enter (s : Scan) : Scan :=
  let s := if s.ni_offset % dirblksiz = 0 then { s with bp := s.ni_offset / dirblksiz, entryoffsetinblock := 0 } else s
  if s.slotstatus = .none ∧ s.entryoffsetinblock % dirblksiz = 0 then { s with slotoffset := -1, slotfreespace := 0 }
  else s

/-- The record has room for the new entry, or adds to the room before it. -/
def Scan.watch (s : Scan) (m : Nat → UInt8) (slotneeded : Nat) : Scan :=
  if s.slotstatus = .found then s else
    let size : Int := dReclen m s.ep - if dIno m s.ep ≠ 0 then (dirsiz (dNamlen m s.ep) : Int) else 0
    if size > 0 then
      if size ≥ slotneeded then
        { s with slotstatus := .found, slotoffset := s.ni_offset, slotsize := dReclen m s.ep }
      else if s.slotstatus = .none then
        let slotfreespace := s.slotfreespace + size
        let slotoffset := if s.slotoffset = -1 then (s.ni_offset : Int) else s.slotoffset
        if slotfreespace ≥ slotneeded then
          { s with
            slotstatus := .compact, slotoffset, slotfreespace,
            slotsize := s.ni_offset + dReclen m s.ep - slotoffset }
        else { s with slotoffset, slotfreespace }
      else s
    else s

/-- On to the next record. -/
def Scan.advance (s : Scan) (m : Nat → UInt8) : Scan :=
  { s with
    prevoff := s.ni_offset
    ni_offset := s.ni_offset + dReclen m s.ep
    entryoffsetinblock := s.entryoffsetinblock + dReclen m s.ep
    enduseful := if dIno m s.ep ≠ 0 then s.ni_offset + dReclen m s.ep else s.enduseful }

/-- Past a mangled entry, to the end of its block. -/
def Scan.skip (s : Scan) : Scan :=
  let i := dirblksiz - s.entryoffsetinblock % dirblksiz
  { s with ni_offset := s.ni_offset + i, entryoffsetinblock := s.entryoffsetinblock + i }

inductive Scanned where
  | bad
  | found (s : Scan)
  | notfound (s : Scan)

/-- `searchloop`, with at most so many turns. -/
def searchloop (io : Io) (m : Nat → UInt8) (name : List UInt8) (slotneeded : Nat) (endsearch : Int) : Nat → Scan → Scanned
  | 0, s => .notfound s
  | n + 1, s =>
    if s.ni_offset < endsearch then
      if s.ni_offset % dirblksiz = 0 ∧ io.reads (s.ni_offset / dirblksiz) = false then .bad
      else
        let s := s.enter
        if dReclen m s.ep = 0 then searchloop io m name slotneeded endsearch n s.skip
        else
          let s := s.watch m slotneeded
          if dIno m s.ep ≠ 0 ∧ dNamlen m s.ep = name.length ∧ dName m s.ep = name then .found s
          else searchloop io m name slotneeded endsearch n (s.advance m)
    else .notfound s

inductive Flag where
  | create | delete
  deriving DecidableEq, Repr

/-- What the lookup of the last component comes to: `slot`, the name is not there and can be created, `exists`, it
    cannot for it is there, and `entry`, it is there and can be deleted. -/
inductive Lookup where
  | slot (ndp : Nameidata)
  | exists
  | entry (ndp : Nameidata) (dp : Directory)
  | eio | eacces | enoent

/-- The size where a found record is beyond it. -/
def Directory.reaches (dp : Directory) (stop : Nat) : Directory :=
  if (stop : Int) > dp.i_size then { dp with i_size := stop } else dp

/-- `namei_at` from the scan of the directory of the last component on; `write` says whether the caller has `IWRITE`. -/
def nameiAt (flag : Flag) (io : Io) (write : Bool) (dp : Directory) (dent : Direct) : Lookup :=
  let slotstatus := if flag = .create then SlotStatus.none else .found
  let endsearch := roundup dp.i_size
  match searchloop io dp.data dent.name (dirsiz dent.d_namlen) endsearch endsearch.toNat
    ⟨0, 0, 0, slotstatus, -1, 0, 0, 0, 0⟩ with
  | .bad => .eio
  | .found s =>
    let dp := dp.reaches (s.entryoffsetinblock + dirsiz (dNamlen dp.data s.ep))
    if flag = .create then .exists
    else if write = false then .eacces
    else
      let ni_count := if s.ni_offset % dirblksiz = 0 then 0 else wrap 16 (s.ni_offset - s.prevoff)
      .entry ⟨0, s.ni_offset, ni_count, { dent with d_ino := dIno dp.data s.ep, d_reclen := dReclen dp.data s.ep }⟩ dp
  | .notfound s =>
    if flag = .create ∧ dp.i_nlink ≠ 0 then
      if write = false then .eacces
      else if s.slotstatus = .none then
        .slot ⟨roundup (roundup dp.i_size), roundup dp.i_size, 0, dent⟩
      else
        .slot ⟨roundup (max s.enduseful (s.slotoffset + s.slotsize)), s.slotoffset, wrap 16 s.slotsize.toNat, dent⟩
    else .enoent

/-! ## `direnter` and `dirremove` -/

inductive Failure where
  | panic (text : String)
  | hung
  | error
  deriving DecidableEq, Repr

/-- `rdwri` of the first `len` bytes of the structure, inside one block: it fails or writes them all. -/
def Directory.rdwri (dp : Directory) (io : Io) (dent : Direct) (len : Nat) (offset : Int) : Except Failure Directory :=
  if offset < 0 ∨ io.writes (offset.toNat / dirblksiz) = false then .error .error
  else .ok { dp with
    i_size := if dp.i_size < offT (offset + len) then offT (offset + len) else dp.i_size
    data := writeAt dp.data offset.toNat (dent.bytes.take len) }

/-- The variables of the compaction. -/
structure Compaction where
  m : Nat → UInt8
  ep : Nat
  dsize : Nat
  spacefree : Int
  loc : Nat

/-- One record moves down. -/
def Compaction.move (c : Compaction) (dirbuf : Nat) : Compaction :=
  let nep := dirbuf + c.loc
  let (m, ep, spacefree) :=
    if dIno c.m c.ep ≠ 0 then (setReclen c.m c.ep c.dsize, c.ep + c.dsize, c.spacefree)
    else (c.m, c.ep, c.spacefree + c.dsize)
  let dsize := dirsiz (dNamlen m nep)
  ⟨writeAt m ep (readAt m nep dsize), ep, dsize, spacefree + (dReclen m nep - dsize), c.loc + dReclen m nep⟩

/-- The loop, with at most so many turns. -/
def compactLoop (dirbuf ni_count : Nat) : Nat → Compaction → Option Compaction
  | 0, _ => none
  | n + 1, c => if c.loc < ni_count then compactLoop dirbuf ni_count n (c.move dirbuf) else some c

/-- The new entry goes behind the last record, or in its place. -/
def Compaction.place (c : Compaction) (dent : Direct) : Except Failure (Nat → UInt8) :=
  let newentrysize := dirsiz dent.d_namlen
  if dIno c.m c.ep = 0 then
    if (c.spacefree + c.dsize) % 2 ^ 32 < newentrysize then .error (.panic "wdir: compact1")
    else
      let dent := { dent with d_reclen := wrap 16 (c.spacefree + c.dsize).toNat }
      .ok (writeAt c.m c.ep (dent.bytes.take newentrysize))
  else if c.spacefree < newentrysize then .error (.panic "wdir: compact2")
  else
    let dent := { dent with d_reclen := wrap 16 c.spacefree.toNat }
    .ok (writeAt (setReclen c.m c.ep c.dsize) (c.ep + c.dsize) (dent.bytes.take newentrysize))

/-- `direnter`, for the inode of this number. -/
def direnter (io : Io) (i_number : Nat) (ndp : Nameidata) (dp : Directory) : Except Failure Directory :=
  let dent := { ndp.ni_dent with d_ino := i_number }
  if ndp.ni_count = 0 then
    if ndp.ni_offset % dirblksiz ≠ 0 then .error (.panic "wdir: newblk")
    else
      match dp.rdwri io { dent with d_reclen := dirblksiz } (dirsiz dent.d_namlen) ndp.ni_offset with
      | .error e => .error e
      | .ok dp => .ok { dp with i_size := roundup dp.i_size }
  else
    let dp := if ndp.ni_offset + ndp.ni_count > dp.i_size then { dp with i_size := ndp.ni_offset + ndp.ni_count } else dp
    let dirbuf := ndp.ni_offset.toNat
    if io.reads (dirbuf / dirblksiz) = false then .error .error
    else
      let dsize := dirsiz (dNamlen dp.data dirbuf)
      let reclen := dReclen dp.data dirbuf
      match compactLoop dirbuf ndp.ni_count (ndp.ni_count + 1) ⟨dp.data, dirbuf, dsize, reclen - dsize, reclen⟩ with
      | none => .error .hung
      | some c =>
        match c.place dent with
        | .error e => .error e
        | .ok m =>
          if io.writes (dirbuf / dirblksiz) = false then .error .error
          else
            let dp := { dp with data := m }
            .ok (if ndp.ni_endoff ≠ 0 ∧ ndp.ni_endoff < dp.i_size then { dp with i_size := ndp.ni_endoff } else dp)

/-- `dirremove`. -/
def dirremove (io : Io) (ndp : Nameidata) (dp : Directory) : Except Failure Directory :=
  if ndp.ni_count = 0 then
    dp.rdwri io { ndp.ni_dent with d_ino := 0 } (dirsiz ndp.ni_dent.d_namlen) ndp.ni_offset
  else
    let ep := (ndp.ni_offset - ndp.ni_count).toNat
    if io.reads (ep / dirblksiz) = false ∨ io.writes (ep / dirblksiz) = false then .error .error
    else .ok { dp with data := setReclen dp.data ep (wrap 16 (dReclen dp.data ep + ndp.ni_dent.d_reclen)) }

end DiscoBSD.Dir
