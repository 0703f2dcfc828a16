import DiscoBSD.Lib.Store
import Mathlib.Data.Nat.Notation
import Mathlib.Logic.Function.Basic

/-!
# Pipes

`readp`, `writep` and `pipe_close` of `sys/kern/sys_pipe.c`, with the loop of `rwip` that moves the bytes and
what `rwuio` makes of the result. The pipe is a file without a name: its bytes are those from the offset of
the read end up to `i_size`, and a reader that has caught up sets both to zero.

A process runs until it waits for the inode, sleeps, or waits for a block in `rwip`; the inode is locked in
the last case and not in the others. An end is closed when its last descriptor goes, and a call has a
descriptor: nobody is in a call on an end that is closed.
-/

set_option autoImplicit false

namespace DiscoBSD.Pipe

open DiscoBSD.Lib
open Function (update)

def ndaddr : ℕ := 4
def maxbsize : ℕ := 1024
def devBsize : ℕ := 1024

/-- `MAXPIPSIZ`. -/
def maxpipsiz : ℕ := ndaddr * maxbsize

inductive Errno where
  | eintr
  | eio
  | efbig
  | enospc
  | ewouldblock
  | epipe
  deriving DecidableEq, Repr

/-- A call of `writep`: its number, the count of bytes asked for, `FNONBLOCK`, and what it has left. `iov` are
    the bytes the vector still points at, `c` the count that no chunk has taken yet, `resid` is `uio_resid`.
    `unit` is `IO_UNIT` of a flag that `rwuio` does not pass and that is whatever it is. -/
structure Write where
  call : ℕ
  total : ℕ
  nb : Bool
  unit : Bool
  iov : List UInt8
  c : ℕ
  resid : ℕ
  error : Option Errno
  deriving DecidableEq, Repr

/-- Where a process is: in its own code, at `ILOCK`, asleep for the other side, or in `rwip` with the inode
    locked. `woken` says that the sleep is over. In `rwip` a read knows its offset and what it has got, a write
    the size before, the count, the offset and what it has sent. -/
inductive Pc where
  | user
  | rlock (want : ℕ) (nb : Bool)
  | rsleep (want : ℕ) (nb woken : Bool)
  | rmove (want resid off : ℕ) (got : List UInt8)
  | wlock (k : Write) (first : Bool)
  | wsleep (k : Write) (woken : Bool)
  | wmove (k : Write) (osize resid off : ℕ) (sent : List UInt8)
  deriving DecidableEq, Repr

/-- The call is on the write end, or on the read end. -/
def Pc.inside (wend : Bool) : Pc → Bool
  | .user => false
  | .rlock .. | .rsleep .. | .rmove .. => !wend
  | .wlock .. | .wsleep .. | .wmove .. => wend

/-- `wakeup` of a reader. -/
def Pc.wakeReader : Pc → Pc
  | .rsleep want nb _ => .rsleep want nb true
  | pc => pc

/-- `wakeup` of a writer. -/
def Pc.wakeWriter : Pc → Pc
  | .wsleep k _ => .wsleep k true
  | pc => pc

/-- Who has the inode locked. `sync` is `syncinodes`, which also counts itself in `i_count`. -/
inductive Lock where
  | free
  | held (p : ℕ)
  | sync
  deriving DecidableEq, Repr

/-- What one turn of the loop in `writep` put into the pipe. -/
structure Chunk where
  call : ℕ
  bytes : List UInt8
  deriving DecidableEq, Repr

/-- The inode, its bytes, the offset of the read end and the processes. The last four are not in the code: the
    data of every call of `writep`, the calls in which a transfer failed, the chunks, and the bytes of every
    call of `readp` that came to `rwip`. -/
structure World where
  i_size : ℕ
  f_offset : ℕ
  file : ℕ → UInt8
  iread : Bool
  iwrite : Bool
  ilocked : Lock
  i_count : ℕ
  ropen : Bool
  wopen : Bool
  proc : ℕ → Pc
  calls : List (List UInt8)
  failed : ℕ → Bool
  chunks : List Chunk
  reads : List (List UInt8)

/-- What a step tells the caller: a read has moved these bytes and reports an error or not; a write reports a
    count, or an error; or a signal has ended the sleep of either. -/
inductive Answer where
  | none
  | read (p want : ℕ) (got : List UInt8) (error : Option Errno)
  | wrote (p call count : ℕ) (error : Option Errno)
  | interrupted (p : ℕ)
  | cut (p call count : ℕ)
  deriving DecidableEq, Repr

namespace World

def setProc (w : World) (p : ℕ) (pc : Pc) : World := { w with proc := update w.proc p pc }

/-- An end is open. -/
def isopen (w : World) (wend : Bool) : Bool := if wend then w.wopen else w.ropen

/-- `wakeup` of the readers, with `IREAD` cleared. -/
def wakeReaders (w : World) : World := { w with iread := false, proc := fun p => (w.proc p).wakeReader }

/-- `wakeup` of the writers, with `IWRITE` cleared. -/
def wakeWriters (w : World) : World := { w with iwrite := false, proc := fun p => (w.proc p).wakeWriter }

/-! ## readp -/

/-- `readp` from where it has the inode locked to `rwip`. -/
def readp (w : World) (p want : ℕ) (nb : Bool) : Answer × World :=
  if w.i_size = 0 then
    if w.i_count ≠ 2 then (.read p want [] none, w.setProc p .user)
    else if nb then (.read p want [] (some .ewouldblock), w.setProc p .user)
    else (.none, { w with iread := true }.setProc p (.rsleep want nb false))
  else (.none, { w with ilocked := .held p }.setProc p (.rmove want want w.f_offset []))

/-- A block in the loop of `rwip`, for a read. -/
def readBlock (w : World) (p want resid off : ℕ) (got : List UInt8) : World :=
  let n := min (min (devBsize - off % devBsize) resid) (w.i_size - off)
  w.setProc p (.rmove want (resid - n) (off + n) (got ++ readAt w.file off n))

/-- The reader has caught up with the writer. -/
def caughtUp (w : World) : World :=
  let w := { w with f_offset := 0, i_size := 0 }
  if w.iwrite then w.wakeWriters else w

/-- `readp` after `rwip`. -/
def readDone (w : World) (p want off : ℕ) (got : List UInt8) (error : Option Errno) : Answer × World :=
  let w := { w with f_offset := off }
  let w := if w.f_offset = w.i_size then w.caughtUp else w
  (.read p want got error, { w with ilocked := .free, reads := w.reads ++ [got] }.setProc p .user)

/-! ## writep -/

/-- `writep` from its label `loop`, with the inode locked. -/
def loop (w : World) (p : ℕ) (k : Write) : Answer × World :=
  if k.c = 0 then (.wrote p k.call k.total k.error, { w with ilocked := .free }.setProc p .user)
  else if w.i_count ≠ 2 then
    (.wrote p k.call (k.total - k.resid) (some .epipe), { w with ilocked := .free }.setProc p .user)
  else if maxpipsiz ≤ w.i_size then
    (.none, { w with iwrite := true, ilocked := .free }.setProc p (.wsleep k false))
  else
    let n := min k.c maxpipsiz
    (.none, { w with ilocked := .held p }.setProc p
      (.wmove { k with c := k.c - n, resid := n } w.i_size n w.i_size []))

/-- `writep` from where it has the inode locked, for the first time or again after a sleep. -/
def writep (w : World) (p : ℕ) (k : Write) (first : Bool) : Answer × World :=
  if first && k.nb && decide (maxpipsiz ≤ w.i_size + k.c) then
    (.wrote p k.call (k.total - k.resid) (some .ewouldblock), w.setProc p .user)
  else w.loop p k

/-- A block in the loop of `rwip`, for a write. -/
def writeBlock (w : World) (p : ℕ) (k : Write) (osize resid off : ℕ) (sent : List UInt8) : World :=
  let n := min (devBsize - off % devBsize) k.resid
  { w with file := writeAt w.file off (k.iov.take n), i_size := max w.i_size (off + n) }.setProc p
    (.wmove { k with iov := k.iov.drop n, resid := k.resid - n } osize resid (off + n)
      (sent ++ k.iov.take n))

/-- `writep` after `rwip`. -/
def writeDone (w : World) (p : ℕ) (k : Write) (osize : ℕ) (error : Option Errno) : Answer × World :=
  let w := { w with chunks := w.chunks ++ [Chunk.mk k.call (readAt w.file osize (w.i_size - osize))] }
  let w := if w.iread then w.wakeReaders else w
  w.loop p { k with error := error }

/-- A transfer of the call fails. -/
def fails (w : World) (k : Write) : World := { w with failed := update w.failed k.call true }

/-- A block cannot be read or written. `i_size` has gone up before, and stays unless the write is a unit; what
    the block has there is `junk`. Of a unit the file is truncated by `itrunc`, which may itself fail and then
    leaves the size of a full pipe. -/
def blockError (w : World) (p : ℕ) (k : Write) (osize resid off : ℕ) (trunc : Bool) (junk : ℕ → UInt8) :
    Answer × World :=
  let n := min (devBsize - off % devBsize) k.resid
  let w := { w.fails k with file := fun x => if x < off then w.file x else junk x }
  if k.unit then
    { w with i_size := if trunc then osize else maxpipsiz }.writeDone p { k with resid := resid } osize (some .eio)
  else { w with i_size := max w.i_size (off + n) }.writeDone p k osize (some .eio)

/-! ## pipe_close and sync -/

/-- `pipe_close`, with `iput`. -/
def pipe_close (w : World) (wend : Bool) : World :=
  let w := w.wakeWriters.wakeReaders
  { w with i_count := w.i_count - 1, ropen := w.ropen && wend, wopen := w.wopen && !wend }

end World

/-- What happens next: a process calls `read` or `write`, gets the inode, moves a block, comes to the end of
    `rwip`, gets an error there, goes on after a sleep or is ended there by a signal; an end is closed; `sync`
    takes the inode and puts it back. -/
inductive Event where
  | read (p want : ℕ) (nb : Bool)
  | write (p : ℕ) (data : List UInt8) (nb unit : Bool)
  | lock (p : ℕ)
  | block (p : ℕ)
  | done (p : ℕ)
  | fail (p : ℕ) (error : Errno)
  | eio (p : ℕ) (trunc : Bool) (junk : ℕ → UInt8)
  | resume (p : ℕ)
  | signal (p : ℕ)
  | close (wend : Bool)
  | sync
  | synced

/-- One step, among `nproc` processes. -/
def World.step (nproc : ℕ) (w : World) : Event → Option (Answer × World)
  | .read p want nb =>
    if w.proc p = .user ∧ p < nproc ∧ w.ropen = true then some (.none, w.setProc p (.rlock want nb)) else none
  | .write p data nb unit =>
    if w.proc p = .user ∧ p < nproc ∧ w.wopen = true then
      let k : Write := ⟨w.calls.length, data.length, nb, unit, data, data.length, data.length, none⟩
      some (.none, { w with calls := w.calls ++ [data] }.setProc p (.wlock k true))
    else none
  | .lock p =>
    match w.ilocked, w.proc p with
    | .free, .rlock want nb => some (w.readp p want nb)
    | .free, .wlock k first => some (w.writep p k first)
    | _, _ => none
  | .block p =>
    match w.proc p with
    | .rmove want resid off got =>
      if resid ≠ 0 ∧ off < w.i_size then some (.none, w.readBlock p want resid off got) else none
    | .wmove k osize resid off sent =>
      if k.resid ≠ 0 then some (.none, w.writeBlock p k osize resid off sent) else none
    | _ => none
  | .done p =>
    match w.proc p with
    | .rmove want resid off got =>
      if resid = 0 ∨ w.i_size ≤ off then some (w.readDone p want off got none) else none
    | .wmove k osize _ _ _ => if k.resid = 0 then some (w.writeDone p k osize none) else none
    | _ => none
  | .fail p error =>
    match w.proc p with
    | .rmove want resid off got =>
      if resid ≠ 0 ∧ off < w.i_size then some (w.readDone p want off got (some error)) else none
    | .wmove k osize _ _ _ => some ((w.fails k).writeDone p k osize (some error))
    | _ => none
  | .eio p trunc junk =>
    match w.proc p with
    | .wmove k osize resid off _ => some (w.blockError p k osize resid off trunc junk)
    | _ => none
  | .resume p =>
    match w.proc p with
    | .rsleep want nb true => some (.none, w.setProc p (.rlock want nb))
    | .wsleep k true => some (.none, w.setProc p (.wlock k false))
    | _ => none
  | .signal p =>
    match w.proc p with
    | .rsleep .. => some (.interrupted p, w.setProc p .user)
    | .wsleep k _ =>
      if k.resid = k.total then some (.interrupted p, w.setProc p .user)
      else some (.cut p k.call (k.total - k.resid), w.setProc p .user)
    | _ => none
  | .close wend =>
    if w.ilocked = .free ∧ w.isopen wend = true ∧ ∀ p < nproc, (w.proc p).inside wend = false then
      some (.none, w.pipe_close wend)
    else none
  | .sync =>
    if w.ilocked = .free ∧ w.i_count ≠ 0 then
      some (.none, { w with ilocked := .sync, i_count := w.i_count + 1 })
    else none
  | .synced =>
    if w.ilocked = .sync then some (.none, { w with ilocked := .free, i_count := w.i_count - 1 }) else none

/-- A new pipe, whose inode has `file` in its blocks. -/
def World.pipe (file : ℕ → UInt8) : World where
  i_size := 0
  f_offset := 0
  file := file
  iread := false
  iwrite := false
  ilocked := .free
  i_count := 2
  ropen := true
  wopen := true
  proc := fun _ => .user
  calls := []
  failed := fun _ => false
  chunks := []
  reads := []

/-- The states of the runs of `nproc` processes on a new pipe. -/
inductive Reach (nproc : ℕ) (file : ℕ → UInt8) : World → Prop
  | pipe : Reach nproc file (World.pipe file)
  | step {w w' : World} {a : Answer} (e : Event) :
    Reach nproc file w → w.step nproc e = some (a, w') → Reach nproc file w'

end DiscoBSD.Pipe
