import Mathlib.Data.Fintype.Basic
import Mathlib.Data.List.Range
import Mathlib.Logic.Function.Basic
import DiscoBSD.Lib.Counts

/-!
# Descriptors and the file table

The descriptor calls of `sys/kern/kern_descrip.c`, `copen` of `sys/kern/ufs_syscalls.c`, and the loops of
`sys/kern/kern_fork.c` and `sys/kern/kern_exit.c`. Processes take turns where a call can sleep: in `vn_open_at`,
in `ino_lock`, and in `fo_close` when the last reference to an entry goes.

**`close` and `exit` take the entry out of the descriptor before they sleep in `fo_close`**, so an entry that is
being closed is counted once more than it is named.

What `vn_open_at` does to files, and the entries' other fields, are whatever they are: an open ends with an inode,
with an error, or in `fdopen`, which wants another descriptor instead.
-/

set_option autoImplicit false

namespace DiscoBSD.Fdesc

open DiscoBSD.Lib
open Function (update)

abbrev Word := BitVec 32

/-! ## Flags -/

def oAccmode : Word := 0x3
def oShlock : Word := 0x10
def oExlock : Word := 0x20
def oCreat : Word := 0x200
def oTrunc : Word := 0x400
def oExcl : Word := 0x800
def oSearch : Word := 0x40000

/-- `FREAD|FWRITE`. -/
def fReadWrite : Word := 0x3

/-- `FMASK`. -/
def fMask : Word := 0x400cf

/-- `FFLAGS`. -/
def fflags (oflags : Word) : Word := if oflags &&& oSearch ≠ 0 then oflags &&& ~~~oAccmode else oflags + 1

def ufExclose : BitVec 8 := 1

/-! ## The tables -/

def nofile : ℕ := 30

inductive Errno where
  | ebadf
  | emfile
  | enfile
  | einval
  | eacces
  | enodev
  | enxio
  | other (error : ℕ)
  deriving DecidableEq, Repr

inductive Dtype where
  | inode
  | pipe
  deriving DecidableEq, Repr

/-- `struct file`, with the inode `f_data` points to. -/
structure File where
  f_flag : Word
  f_type : Dtype
  f_count : ℕ
  f_data : Option ℕ

/-- The file table, and `lastf`. -/
structure Table where
  file : ℕ → File
  lastf : ℕ

/-- Who waits for `closef`. -/
inductive After where
  | close
  | copen (indx : ℕ) (error : Errno)
  | dup2 (fp : ℕ) (i j : ℕ)
  | exit (i : ℕ)
  deriving DecidableEq, Repr

/-- Where a process is: in its own code or in another call, in its own code after an open, or asleep in a call. -/
inductive Phase where
  | user
  | opened
  | opening (indx fp : ℕ) (flags : Word)
  | locking (indx fp : ℕ)
  | closing (fp : ℕ) (after : After)
  deriving DecidableEq, Repr

/-- The part of `struct user` that descriptors are about. -/
structure User where
  u_ofile : ℕ → Option ℕ
  u_pofile : ℕ → BitVec 8
  u_lastfile : ℤ
  u_rval : ℕ
  u_error : Option Errno
  u_dupfd : ℤ
  phase : Phase

def Table.set (t : Table) (f : ℕ) (file : File) : Table := { t with file := update t.file f file }

def User.slot (u : User) (i : ℕ) (x : Option ℕ) : User := { u with u_ofile := update u.u_ofile i x }

/-! ## Allocation -/

/-- `ufalloc`. -/
def User.ufalloc (u : User) (i : ℕ) : Option ℕ × User :=
  match (List.range' i (nofile - i)).find? fun i => (u.u_ofile i).isNone with
  | some i => (some i, { u with u_rval := i, u_pofile := update u.u_pofile i 0, u_lastfile := max u.u_lastfile i })
  | none => (none, { u with u_error := some .emfile })

/-- The first free entry from `lastf` on, and then from the start. -/
def Table.free (t : Table) (nfile : ℕ) : Option ℕ :=
  (List.range' t.lastf (nfile - t.lastf) ++ List.range t.lastf).find? fun f => (t.file f).f_count = 0

/-- `falloc`. -/
def falloc (nfile : ℕ) (t : Table) (u : User) : Option ℕ × Table × User :=
  match u.ufalloc 0 with
  | (none, u) => (none, t, u)
  | (some i, u) =>
    match t.free nfile with
    | none => (none, t, { u with u_error := some .enfile })
    | some f =>
      (some f, { t.set f { t.file f with f_count := 1, f_data := none } with lastf := f + 1 }, u.slot i (some f))

/-- `dupit`. -/
def dupit (t : Table) (u : User) (fd fp : ℕ) (flags : BitVec 8) : Table × User :=
  (t.set fp { t.file fp with f_count := (t.file fp).f_count + 1 },
    { u.slot fd (some fp) with u_pofile := update u.u_pofile fd flags, u_lastfile := max u.u_lastfile fd })

/-! ## Closing -/

/-- `closef` as far as `fo_close`, and whether it sleeps there. `vn_closefile` takes the inode out of the entry and
    needs one. -/
def Table.closef (t : Table) (f : ℕ) : Option (Table × Bool) :=
  let file := t.file f
  if 1 < file.f_count then some (t.set f { file with f_count := file.f_count - 1 }, false)
  else
    match file.f_data with
    | none => none
    | some _ =>
      match file.f_type with
      | .inode => some (t.set f { file with f_flag := file.f_flag &&& ~~~(oShlock ||| oExlock), f_data := none }, true)
      | .pipe => some (t, true)

/-- The end of `closef`. -/
def Table.closed (t : Table) (f : ℕ) : Table := t.set f { t.file f with f_count := 0 }

/-- The loop of `close` that lowers `u_lastfile`. -/
def lastfile (ofile : ℕ → Option ℕ) : ℕ → ℤ
  | 0 => -1
  | n + 1 => if (ofile n).isNone then lastfile ofile n else n

/-- The loop of `exit`, for so many descriptors from `i` on. The process is gone when it has ended. -/
def exitLoop : ℕ → Table → User → ℕ → Option (Table × Option User)
  | 0, t, _, _ => some (t, none)
  | n + 1, t, u, i =>
    let f := u.u_ofile i
    let u := { u.slot i none with u_pofile := update u.u_pofile i 0 }
    match f with
    | none => exitLoop n t u (i + 1)
    | some f =>
      match t.closef f with
      | none => none
      | some (t, false) => exitLoop n t u (i + 1)
      | some (t, true) => some (t, some { u with phase := .closing f (.exit (i + 1)) })

/-- `exit`, from descriptor `i` on. -/
def exitFrom (t : Table) (u : User) (i : ℕ) : Option (Table × Option User) :=
  exitLoop (u.u_lastfile + 1 - i).toNat t u i

/-! ## The calls -/

def User.fail (u : User) (error : Errno) : User := { u with u_error := some error }

/-- An open returns. -/
def User.opens (u : User) (error : Option Errno) : User := { u with u_error := error, phase := .opened }

/-- `copen` up to `vn_open_at`. `entered` is the error of `ufs_namespace_enter`. -/
def copen (nfile : ℕ) (t : Table) (u : User) (mode : Word) (entered : Option Errno) : Table × User :=
  if mode &&& oSearch ≠ 0 ∧ (mode &&& oAccmode ≠ 0 ∨ mode &&& (oCreat ||| oTrunc ||| oExcl) ≠ 0) then
    (t, u.opens (some .einval))
  else
    match entered with
    | some error => (t, u.opens (some error))
    | none =>
      match falloc nfile t u with
      | (none, t, u) => (t, u.opens u.u_error)
      | (some fp, t, u) =>
        let flags := fflags mode
        let indx := u.u_rval
        (t.set fp { t.file fp with f_flag := flags &&& fMask, f_type := .inode },
          { u with u_dupfd := -indx - 1, phase := .opening indx fp flags })

/-- How `vn_open_at` ends. `fdopen` leaves the minor device number in `u_dupfd`. -/
inductive Opened where
  | inode (ip : ℕ)
  | failed (error : Errno)
  | fdopen (dev : Word)
  deriving DecidableEq, Repr

/-- `dupfdopen`. -/
def dupfdopen (t : Table) (u : User) (indx : ℕ) (dfd : ℤ) (mode : Word) (error : Errno) : Option Errno × Table × User :=
  let fp := u.u_ofile indx
  if nofile ≤ dfd then (some .ebadf, t, u)
  else
    match u.u_ofile dfd.toNat with
    | none => (some .ebadf, t, u)
    | some wfp =>
      if fp = some wfp then (some .ebadf, t, u)
      else if error = .enodev then
        if (mode &&& fReadWrite) ||| (t.file wfp).f_flag ≠ (t.file wfp).f_flag then (some .eacces, t, u)
        else
          (none, t.set wfp { t.file wfp with f_count := (t.file wfp).f_count + 1 },
            { u.slot indx (some wfp) with
              u_pofile := update u.u_pofile indx (u.u_pofile dfd.toNat)
              u_lastfile := max u.u_lastfile indx })
      else (some error, t, u)

/-- `copen` when `vn_open_at` has failed. What `dupfdopen` returns is compared with 0 before it is assigned. -/
def copenFailed (t : Table) (u : User) (indx fp : ℕ) (flags : Word) (error : Errno) : Table × User :=
  let t := t.set fp { t.file fp with f_count := 0 }
  if (error = .enodev ∨ error = .enxio) ∧ 0 ≤ u.u_dupfd then
    match dupfdopen t u indx u.u_dupfd flags error with
    | (none, t, u) => (t, { u with u_rval := indx }.opens none)
    | (some _, t, u) => (t, (u.slot indx none).opens none)
  else (t, (u.slot indx none).opens (some error))

/-- `copen` after `vn_open_at`. -/
def vnOpened (t : Table) (u : User) (indx fp : ℕ) (flags : Word) : Opened → Table × User
  | .inode ip =>
    let t := t.set fp { t.file fp with f_data := some ip }
    let u := { u with u_dupfd := 0 }
    if flags &&& (oExlock ||| oShlock) ≠ 0 then (t, { u with phase := .locking indx fp }) else (t, u.opens none)
  | .failed error => copenFailed t u indx fp flags error
  | .fdopen dev => copenFailed t { u with u_dupfd := (dev &&& 0xff).toNat } indx fp flags .enodev

/-- `copen` after `ino_lock`. -/
def inoLocked (t : Table) (u : User) (indx fp : ℕ) : Option Errno → Option (Table × User)
  | none => some (t, u.opens none)
  | some error =>
    (t.closef fp).map fun (t, sleeps) =>
      if sleeps then (t, { u with phase := .closing fp (.copen indx error) })
      else (t, (u.slot indx none).opens (some error))

/-- `dup2`. -/
def dup2 (t : Table) (u : User) (i j : Word) : Option (Table × User) :=
  if nofile ≤ i.toNat then some (t, u.fail .ebadf)
  else
    match u.u_ofile i.toNat with
    | none => some (t, u.fail .ebadf)
    | some fp =>
      if nofile ≤ j.toNat then some (t, u.fail .ebadf)
      else
        let u := { u with u_rval := j.toNat }
        if i = j then some (t, u)
        else
          match u.u_ofile j.toNat with
          | none => some (dupit t u j.toNat fp (u.u_pofile i.toNat &&& ~~~ufExclose))
          | some old =>
            (t.closef old).map fun (t, sleeps) =>
              if sleeps then (t, { u with phase := .closing old (.dup2 fp i.toNat j.toNat) })
              else dupit t u j.toNat fp (u.u_pofile i.toNat &&& ~~~ufExclose)

/-- `dup`. `j` is what the second argument register has. -/
def dup (t : Table) (u : User) (i j : Word) : Option (Table × User) :=
  if i &&& ~~~0o77 ≠ 0 then dup2 t u (i &&& 0o77) j
  else if nofile ≤ i.toNat then some (t, u.fail .ebadf)
  else
    match u.u_ofile i.toNat with
    | none => some (t, u.fail .ebadf)
    | some fp =>
      match u.ufalloc 0 with
      | (none, u) => some (t, u)
      | (some j, u) => some (dupit t u j fp (u.u_pofile i.toNat &&& ~~~ufExclose))

/-- `fcntl` with `F_DUPFD`. -/
def dupfd (t : Table) (u : User) (fdes arg : Word) : Table × User :=
  if nofile ≤ fdes.toNat then (t, u.fail .ebadf)
  else
    match u.u_ofile fdes.toNat with
    | none => (t, u.fail .ebadf)
    | some fp =>
      if nofile ≤ arg.toNat then (t, u.fail .einval)
      else
        match u.ufalloc arg.toNat with
        | (none, u) => (t, u)
        | (some i, u) => dupit t u i fp (u.u_pofile fdes.toNat &&& ~~~ufExclose)

/-- `close`. -/
def close (t : Table) (u : User) (i : Word) : Option (Table × User) :=
  if nofile ≤ i.toNat then some (t, u.fail .ebadf)
  else
    match u.u_ofile i.toNat with
    | none => some (t, u.fail .ebadf)
    | some fp =>
      let u := u.slot i.toNat none
      let u := { u with u_lastfile := lastfile u.u_ofile (u.u_lastfile + 1).toNat }
      (t.closef fp).map fun (t, sleeps) => if sleeps then (t, { u with phase := .closing fp .close }) else (t, u)

/-- `pipe`. `ip` is what `ialloc` gives. -/
def pipe (nfile : ℕ) (t : Table) (u : User) (ip : Errno ⊕ ℕ) : Table × User :=
  match ip with
  | .inl error => (t, u.fail error)
  | .inr ip =>
    match falloc nfile t u with
    | (none, t, u) => (t, u)
    | (some rf, t, u) =>
      let r := u.u_rval
      match falloc nfile t u with
      | (none, t, u) => (t.closed rf, u.slot r none)
      | (some wf, t, u) =>
        let t := t.set wf { t.file wf with f_flag := 2, f_type := .pipe, f_data := some ip }
        (t.set rf { t.file rf with f_flag := 1, f_type := .pipe, f_data := some ip }, { u with u_rval := r })

/-- The end of `closef`, and what its caller does then. -/
def foClosed (t : Table) (u : User) (fp : ℕ) (error : Option Errno) : After → Option (Table × Option User)
  | .close => some (t.closed fp, some { u with u_error := error, phase := .user })
  | .copen indx error => some (t.closed fp, some ((u.slot indx none).opens (some error)))
  | .dup2 fp' i j =>
    let (t, u) := dupit (t.closed fp) { u with phase := .user } j fp' (u.u_pofile i &&& ~~~ufExclose)
    some (t, some u)
  | .exit i => exitFrom (t.closed fp) u i

/-- A child's copy of its parent's descriptors. -/
def Table.shares (t : Table) (u : User) : Table :=
  (List.range (u.u_lastfile + 1).toNat).foldl
    (fun t n => match u.u_ofile n with
      | none => t
      | some fp => t.set fp { t.file fp with f_count := (t.file fp).f_count + 1 }) t

/-! ## The system -/

/-- The processes there are, and the file table. -/
structure System (π : Type) where
  table : Table
  proc : π → Option User

inductive Call where
  | copen (mode : Word) (entered : Option Errno)
  | dup (i j : Word)
  | dup2 (i j : Word)
  | dupfd (fdes arg : Word)
  | close (i : Word)
  | pipe (ip : Errno ⊕ ℕ)
  | exit
  | other
  deriving DecidableEq, Repr

/-- A call of a process that was in its own code, as far as its first sleep. -/
def runCall (nfile : ℕ) (t : Table) (u : User) : Call → Option (Table × Option User)
  | .copen mode entered => some ((copen nfile t u mode entered).map id some)
  | .dup i j => (dup t u i j).map (Prod.map id some)
  | .dup2 i j => (dup2 t u i j).map (Prod.map id some)
  | .dupfd fdes arg => some ((dupfd t u fdes arg).map id some)
  | .close i => (close t u i).map (Prod.map id some)
  | .pipe ip => some ((pipe nfile t u ip).map id some)
  | .exit => exitFrom t u 0
  | .other => some (t, some u)

/-- What goes on when a process goes on. A process that sleeps so that a signal wakes it can be made to exit there
    by the one that traces it. -/
inductive Act where
  | call (c : Call)
  | vnOpen (opened : Opened)
  | inoLock (error : Option Errno)
  | foClose (error : Option Errno)
  | kill
  deriving DecidableEq, Repr

def User.act (nfile : ℕ) (t : Table) (u : User) : Act → Option (Table × Option User)
  | .call c =>
    match u.phase with
    | .user | .opened => runCall nfile t { u with u_rval := 0, u_error := none, phase := .user } c
    | _ => none
  | .vnOpen opened =>
    match u.phase with
    | .opening indx fp flags => some ((vnOpened t u indx fp flags opened).map id some)
    | _ => none
  | .inoLock error =>
    match u.phase with
    | .locking indx fp => (inoLocked t u indx fp error).map (Prod.map id some)
    | _ => none
  | .foClose error =>
    match u.phase with
    | .closing fp after => foClosed t u fp error after
    | _ => none
  | .kill =>
    match u.phase with
    | .opening .. | .locking .. => exitFrom t u 0
    | .closing fp after =>
      match after, (t.file fp).f_type with
      | .exit _, _ | _, .pipe => none
      | _, .inode => exitFrom t u 0
    | _ => none

/-- What goes on in the system. Other calls change the flags of an entry. -/
inductive Event (π : Type) where
  | act (p : π) (act : Act)
  | fork (p child : π)
  | flags (f : ℕ) (flags : Word)

variable {π : Type} [DecidableEq π]

def System.step (nfile : ℕ) (s : System π) : Event π → Option (System π)
  | .act p act => do
    let u ← s.proc p
    let (t, u') ← u.act nfile s.table act
    pure ⟨t, update s.proc p u'⟩
  | .fork p child => do
    let u ← s.proc p
    if (u.phase = .user ∨ u.phase = .opened) ∧ (s.proc child).isNone then
      let u := { u with u_rval := 0, u_error := none, phase := .user }
      pure ⟨s.table.shares u, update (update s.proc p (some u)) child (some u)⟩
    else none
  | .flags f flags => some { s with table := s.table.set f { s.table.file f with f_flag := flags } }

/-- No entry is open, and one process is there. -/
def System.init (p : π) (flags : ℕ → Word) : System π where
  table := ⟨fun f => ⟨flags f, .inode, 0, none⟩, 0⟩
  proc q := if q = p then some ⟨fun _ => none, fun _ => 0, -1, 0, none, 0, .user⟩ else none

end DiscoBSD.Fdesc
