import Mathlib.Data.Nat.Notation
import Mathlib.Logic.Function.Basic
import DiscoBSD.Lib.Word

/-!
# Advisory file locks

`ino_lock` and `ino_unlock` of `sys/kern/sys_inode.c`, for the open files of one inode. The inode counts the
locks, 16 bits each, and says in its flags whether there are any; every open file has the flags of its own.

`ino_lock` takes the caller's old lock away before it waits for the new one. A process runs until it sleeps or
returns, and one that is woken up looks at the flags again. Two processes may share an open file, and both
may be in `ino_lock` for it.
-/

set_option autoImplicit false

namespace DiscoBSD.Flock

open DiscoBSD.Lib
open Function (update)

/-- `FSHLOCK` and `FEXLOCK` of an open file. -/
structure File where
  fshlock : Bool
  fexlock : Bool
  deriving DecidableEq, Repr

/-- `LOCK_SH`, `LOCK_EX` and `LOCK_NB` of a request. -/
structure Cmd where
  sh : Bool
  ex : Bool
  nb : Bool
  deriving DecidableEq, Repr

/-- Where a process is: in its own code, asleep in `ino_lock` for an open file, or woken up there. -/
inductive Pc where
  | user
  | asleep (fp : ℕ) (cmd : Cmd)
  | woken (fp : ℕ) (cmd : Cmd)
  deriving DecidableEq, Repr

/-- The inode, its open files and the processes. The code does not have `holder`: the process whose call for
    the open file reported the lock that the file has. -/
structure World where
  i_shlockc : ℕ
  i_exlockc : ℕ
  ishlock : Bool
  iexlock : Bool
  ilwait : Bool
  file : ℕ → File
  proc : ℕ → Pc
  holder : ℕ → Option ℕ

namespace World

def setFile (w : World) (fp : ℕ) (f : File) : World := { w with file := update w.file fp f }

def setProc (w : World) (p : ℕ) (pc : Pc) : World := { w with proc := update w.proc p pc }

@[simp] theorem setProc_self (w : World) (p : ℕ) (pc : Pc) : (w.setProc p pc).proc p = pc :=
  Function.update_self ..

theorem setProc_ne (w : World) {p q : ℕ} (h : q ≠ p) (pc : Pc) : (w.setProc p pc).proc q = w.proc q :=
  Function.update_of_ne h ..

/-- `wakeup` on the address all sleepers of the inode use. -/
def wakeup (w : World) : World :=
  { w with proc := fun p =>
      match w.proc p with
      | .asleep fp cmd => .woken fp cmd
      | pc => pc }

/-- `ino_unlock` of the shared lock. `waiting` is `ILWAIT` at the entry. -/
def unlockShared (w : World) (fp : ℕ) (waiting : Bool) : World :=
  let n := wrap 16 (w.i_shlockc + (2 ^ 16 - 1))
  let w := { w with i_shlockc := n }
  let w := if n = 0 then (if waiting then { w with ishlock := false }.wakeup else { w with ishlock := false }) else w
  w.setFile fp { w.file fp with fshlock := false }

/-- `ino_unlock` of the exclusive lock. -/
def unlockExclusive (w : World) (fp : ℕ) (waiting : Bool) : World :=
  let n := wrap 16 (w.i_exlockc + (2 ^ 16 - 1))
  let w := { w with i_exlockc := n }
  let w := if n = 0 then
      (if waiting then { w with iexlock := false, ilwait := false }.wakeup
        else { w with iexlock := false, ilwait := false })
    else w
  w.setFile fp { w.file fp with fexlock := false }

/-- `ino_unlock`, of the kinds the file has. -/
def ino_unlock (w : World) (fp : ℕ) (sh ex : Bool) : World :=
  let sh := sh && (w.file fp).fshlock
  let ex := ex && (w.file fp).fexlock
  let waiting := w.ilwait
  let w := if sh then w.unlockShared fp waiting else w
  if ex then w.unlockExclusive fp waiting else w

/-- How a stretch of `ino_lock` ends. -/
inductive Result where
  | granted
  | refused
  | sleeps
  deriving DecidableEq, Repr

/-- The end of `ino_lock`. -/
def grant (w : World) (fp : ℕ) (cmd : Cmd) : World :=
  if cmd.ex then
    { w with i_exlockc := wrap 16 (w.i_exlockc + 1), iexlock := true }.setFile fp
      { w.file fp with fexlock := true }
  else if cmd.sh && !(w.file fp).fshlock then
    { w with i_shlockc := wrap 16 (w.i_shlockc + 1), ishlock := true }.setFile fp
      { w.file fp with fshlock := true }
  else w

/-- `ino_lock` from the label `again`. Every turn but the last takes a lock from the file, which has two. -/
def again : ℕ → World → ℕ → Cmd → Option (Result × World)
  | 0, _, _, _ => none
  | turns + 1, w, fp, cmd =>
    if w.iexlock then
      if (w.file fp).fexlock then again turns (w.ino_unlock fp false true) fp cmd
      else if cmd.nb then some (.refused, w)
      else some (.sleeps, { w with ilwait := true })
    else if cmd.ex && w.ishlock then
      if (w.file fp).fshlock then again turns (w.ino_unlock fp true false) fp cmd
      else if cmd.nb then some (.refused, w)
      else some (.sleeps, { w with ilwait := true })
    else some (.granted, w.grant fp cmd)

/-- `ino_lock`, from its entry or from where it slept. -/
def ino_lock (w : World) (fp : ℕ) (cmd : Cmd) : Option (Result × World) := again 3 w fp cmd

end World

/-- What a process does: it calls `ino_lock` or `ino_unlock`, or goes on in `ino_lock` after a wakeup, or a
    signal ends its sleep. -/
inductive Event where
  | lock (p fp : ℕ) (cmd : Cmd)
  | unlock (p fp : ℕ) (sh ex : Bool)
  | resume (p : ℕ)
  | interrupt (p : ℕ)
  deriving DecidableEq, Repr

/-- What the step says to its caller: `ino_lock` returned no error, or one, for an open file; or nothing. -/
inductive Answer where
  | none
  | ok (p fp : ℕ)
  | ewouldblock (p fp : ℕ)
  | eintr (p fp : ℕ)
  deriving DecidableEq, Repr

/-- A file without a lock has nobody who holds it. -/
def World.dropped (w : World) : World :=
  { w with holder := fun fp =>
      if (w.file fp).fshlock || (w.file fp).fexlock then w.holder fp else Option.none }

/-- The end of a stretch of `ino_lock`. -/
def World.answered (p fp : ℕ) (cmd : Cmd) : World.Result × World → Answer × World
  | (.granted, w) => (.ok p fp, World.dropped { w.setProc p .user with holder := update w.holder fp (some p) })
  | (.refused, w) => (.ewouldblock p fp, (w.setProc p .user).dropped)
  | (.sleeps, w) => (.none, (w.setProc p (.asleep fp cmd)).dropped)

/-- One step, among `nfile` open files. -/
def World.step (nfile : ℕ) (w : World) : Event → Option (Answer × World)
  | .lock p fp cmd =>
    if w.proc p = .user ∧ fp < nfile then (w.ino_lock fp cmd).map (World.answered p fp cmd) else Option.none
  | .unlock p fp sh ex =>
    if w.proc p = .user ∧ fp < nfile then some (.none, (w.ino_unlock fp sh ex).dropped) else Option.none
  | .resume p =>
    match w.proc p with
    | .woken fp cmd => (w.ino_lock fp cmd).map (World.answered p fp cmd)
    | _ => Option.none
  | .interrupt p =>
    match w.proc p with
    | .asleep fp _ => some (.eintr p fp, w.setProc p .user)
    | .woken fp _ => some (.eintr p fp, w.setProc p .user)
    | .user => Option.none

/-- The inode when nobody has locked it. -/
def World.fresh : World := ⟨0, 0, false, false, false, fun _ => ⟨false, false⟩, fun _ => .user, fun _ => .none⟩

/-- The states of the runs of `nfile` open files. -/
inductive Reach (nfile : ℕ) : World → Prop
  | fresh : Reach nfile World.fresh
  | step {w w' : World} {a : Answer} (e : Event) : Reach nfile w → w.step nfile e = some (a, w') → Reach nfile w'

end DiscoBSD.Flock
