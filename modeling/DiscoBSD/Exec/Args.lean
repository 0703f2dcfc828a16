import DiscoBSD.Exec.SpoolBytes

/-!
# Saving the arguments

`exec_save_args` of `sys/kern/exec_subr.c` with its iterators. It goes over the argument strings twice:
the first pass counts them, the second writes each as a record, **a 16-bit length and the string with its
NUL**, into a spool of exactly the counted size. A script's strings are the interpreter's name, its
argument if it has one, and the script's name in the place of `argv[0]`.

Strings are read from the user window in chunks of 32 bytes; a chunk that reaches out of the window is
read again byte by byte, so that a string may end at its last byte. The process sleeps in here, but
nothing else runs in its window.
-/

set_option autoImplicit false

namespace DiscoBSD.Exec

open DiscoBSD.Lib DiscoBSD.Rmap DiscoBSD.Swapram
open DiscoBSD.Swap (Kernel Conf)

/-- `NCARGS`. -/
def ncargs : Nat := 5120

inductive Errno where
  | efault
  | e2big
  | enomem
  deriving DecidableEq, Repr

/-! ## User memory -/

/-- The window of the process, and the memory it is in. -/
structure UserMem where
  lower : Nat
  upper : Nat
  mem : Nat → UInt8

/-- `rp2040_user_span_contains`. -/
def UserMem.spanContains (u : UserMem) (start length : Nat) : Bool :=
  if u.upper < u.lower ∨ start < u.lower ∨ u.upper < start then false
  else decide (length ≤ u.upper - start)

def copyin (u : UserMem) (src nbytes : Nat) : Except Errno (List UInt8) :=
  if nbytes = 0 then .ok []
  else if u.spanContains src nbytes = false then .error .efault
  else .ok (readAt u.mem src nbytes)

/-- `copyin` of a pointer. -/
def copyinPtr (u : UserMem) (src : Nat) : Except Errno Nat := (copyin u src 4).map leNat

/-! ## The iterators -/

/-- What `exec_save_args` reads of `struct exec_params`. The two strings are the kernel's own. -/
structure ExecParams where
  userfname : Nat
  userargp : Nat
  userenvp : Nat
  interpreted : Bool
  interpname : List UInt8
  interparg : List UInt8

/-- A character of a string in the kernel. -/
def charAt (s : List UInt8) (i : Nat) : UInt8 := (s[i]?).getD 0

/-- A string to be saved: `user_string` says where it is. -/
inductive Source where
  | user (string : Nat)
  | kernel (string : List UInt8)

/-- `struct exec_arg_iter`. -/
structure ExecArgIter where
  next : Nat
  index : Nat
  prefix_count : Nat
  skip_first : Bool

def execArgIterInit (x : ExecParams) : ExecArgIter where
  next := x.userargp
  index := 0
  prefix_count := if x.interpreted then 2 + (if charAt x.interparg 0 ≠ 0 then 1 else 0) else 0
  skip_first := x.interpreted

/-- The end of `exec_arg_iter_next`: a null pointer ends the vector. -/
def execArgIterTake (it : ExecArgIter) (argument : Nat) : Option Source × ExecArgIter :=
  if argument = 0 then (none, it) else (some (.user argument), { it with index := it.index + 1 })

/-- `exec_arg_iter_next`, with `none` for `*donep`. -/
def execArgIterNext (u : UserMem) (x : ExecParams) (it : ExecArgIter) :
    Except Errno (Option Source × ExecArgIter) :=
  if it.index < it.prefix_count then
    if it.index = 0 then .ok (some (.kernel x.interpname), { it with index := it.index + 1 })
    else if charAt x.interparg 0 ≠ 0 ∧ it.index = 1 then
      .ok (some (.kernel x.interparg), { it with index := it.index + 1 })
    else .ok (execArgIterTake it x.userfname)
  else if it.next = 0 then .ok (none, it)
  else if it.skip_first then do
    let first ← copyinPtr u it.next
    let it := { it with next := it.next + 4, skip_first := false }
    if first = 0 then pure (none, it)
    else do
      let argument ← copyinPtr u it.next
      pure (execArgIterTake { it with next := it.next + 4 } argument)
  else do
    let argument ← copyinPtr u it.next
    pure (execArgIterTake { it with next := it.next + 4 } argument)

def execEnvIterNext (u : UserMem) (vector : Nat) : Except Errno (Option Source × Nat) :=
  if vector = 0 then .ok (none, vector)
  else do
    let string ← copyinPtr u vector
    pure (if string = 0 then none else some (.user string), vector + 4)

/-! ## Lengths -/

/-- The size of the callers' buffers. -/
def bufferSize : Nat := 32

/-- A chunk that is not in the window whole, byte by byte. -/
def scanBytes (u : UserMem) (string : Nat) (chunkError : Errno) : Nat → Nat → Except Errno Nat
  | 0, _ => .error chunkError
  | left + 1, offset => do
    let byte ← copyin u (string + offset) 1
    if byte = [0] then pure (offset + 1) else scanBytes u string chunkError left (offset + 1)

/-- `exec_string_length` for a user string. Every turn takes a chunk of at least a byte, so `limit + 1`
    turns are enough. -/
def userLength (u : UserMem) (string limit : Nat) : Nat → Nat → Except Errno Nat
  | 0, _ => .error .e2big
  | turns + 1, length =>
    if length < limit then
      let chunk := min bufferSize (limit - length)
      match copyin u (string + length) chunk with
      | .error chunkError => (scanBytes u (string + length) chunkError chunk 0).map (length + ·)
      | .ok buffer =>
        match buffer.findIdx? (· == 0) with
        | some offset => .ok (length + (offset + 1))
        | none => userLength u string limit turns (length + chunk)
    else .error .e2big

/-- `exec_string_length` for a string of the kernel. -/
def kernelLength (string : List UInt8) (limit : Nat) : Nat → Nat → Except Errno Nat
  | 0, _ => .error .e2big
  | turns + 1, length =>
    if length < limit then
      if charAt string length = 0 then .ok (length + 1) else kernelLength string limit turns (length + 1)
    else .error .e2big

/-- `exec_string_length`. The length is a `u_short`. -/
def execStringLength (u : UserMem) (src : Source) (limit : Nat) : Except Errno Nat :=
  (match src with
    | .user string => userLength u string limit (limit + 1) 0
    | .kernel string => kernelLength string limit (limit + 1) 0).map (wrap 16)

/-! ## Counting -/

/-- `byte_count`, `record_bytes`, `string_count`. -/
structure Counts where
  bytes : Nat
  records : Nat
  strings : Nat

def execCountString (u : UserMem) (src : Source) (c : Counts) : Except Errno Counts :=
  if c.strings = 2 ^ 16 - 1 then .error .e2big
  else do
    let length ← execStringLength u src (ncargs - c.bytes)
    pure ⟨c.bytes + length, c.records + (2 + length), c.strings + 1⟩

/-- A counting loop of `exec_save_args`. -/
def countLoop {ι : Type} (u : UserMem) (next : ι → Except Errno (Option Source × ι)) :
    Nat → ι → Counts → Except Errno Counts
  | 0, _, _ => .error .e2big
  | turns + 1, it, c => do
    let (src, it) ← next it
    match src with
    | none => pure c
    | some src => do
      let c ← execCountString u src c
      countLoop u next turns it c

/-- More turns than a loop can take: every string has a byte. -/
def loopTurns : Nat := ncargs + 2

/-! ## Writing -/

/-- The `for` of `exec_write_string`. -/
def writeChunks (cfg : Conf) (u : UserMem) (string length : Nat) : Nat → Kernel → ExecSpool → Nat →
    Except Fault (Option Errno × Kernel × ExecSpool)
  | 0, σ, sp, _ => .ok (none, σ, sp)
  | turns + 1, σ, sp, offset =>
    if offset < length then
      let chunk := min bufferSize (length - offset)
      match copyin u (string + offset) chunk with
      | .error error => .ok (some error, σ, sp)
      | .ok buffer => do
        let (σ, sp) ← execSpoolWrite cfg σ sp buffer
        writeChunks cfg u string length turns σ sp (offset + chunk)
    else .ok (none, σ, sp)

/-- `exec_write_string`: the error, if there is one, and `*byte_count`. -/
def execWriteString (cfg : Conf) (u : UserMem) (σ : Kernel) (sp : ExecSpool) (src : Source) (bytes : Nat) :
    Except Fault (Option Errno × Kernel × ExecSpool × Nat) :=
  match execStringLength u src (ncargs - bytes) with
  | .error error => .ok (some error, σ, sp, bytes)
  | .ok length => do
    let (σ, sp) ← execSpoolWrite cfg σ sp (leBytes 2 length)
    match src with
    | .user string => do
      let (error, σ, sp) ← writeChunks cfg u string length length σ sp 0
      match error with
      | some error => pure (some error, σ, sp, bytes)
      | none => pure (none, σ, sp, bytes + length)
    | .kernel string => do
      let (σ, sp) ← execSpoolWrite cfg σ sp ((List.range length).map (charAt string))
      pure (none, σ, sp, bytes + length)

/-- A writing loop of `exec_save_args`. -/
def writeLoop {ι : Type} (cfg : Conf) (u : UserMem) (next : ι → Except Errno (Option Source × ι)) :
    Nat → ι → Kernel → ExecSpool → Nat → Except Fault (Option Errno × Kernel × ExecSpool × Nat)
  | 0, _, σ, sp, bytes => .ok (some .e2big, σ, sp, bytes)
  | turns + 1, it, σ, sp, bytes =>
    match next it with
    | .error error => .ok (some error, σ, sp, bytes)
    | .ok (none, _) => .ok (none, σ, sp, bytes)
    | .ok (some src, it) => do
      let (error, σ, sp, bytes) ← execWriteString cfg u σ sp src bytes
      match error with
      | some error => pure (some error, σ, sp, bytes)
      | none => writeLoop cfg u next turns it σ sp bytes

/-! ## exec_save_args -/

/-- What `exec_save_args` leaves in `struct exec_params`. -/
structure ExecArgs where
  argc : Nat
  envc : Nat
  argbc : Nat
  envbc : Nat
  spool : ExecSpool

/-- The label `fail`. -/
def saveFail (σ : Kernel) (sp : ExecSpool) (error : Errno) :
    Except Fault (Except Errno (ExecArgs × Kernel)) :=
  (execSpoolDiscard σ sp).map fun _ => .error error

/-- The second half of `exec_save_args`, with the spool reserved. -/
def saveWrite (cfg : Conf) (u : UserMem) (x : ExecParams) (a e : Counts) (σ : Kernel) (sp : ExecSpool) :
    Except Fault (Except Errno (ExecArgs × Kernel)) := do
  let (error, σ, sp, written_arg_bytes) ←
    writeLoop cfg u (execArgIterNext u x) loopTurns (execArgIterInit x) σ sp 0
  match error with
  | some error => saveFail σ sp error
  | none => do
    let (error, σ, sp, written_env_bytes) ←
      writeLoop cfg u (execEnvIterNext u) loopTurns x.userenvp σ sp 0
    match error with
    | some error => saveFail σ sp error
    | none =>
      if written_arg_bytes ≠ a.bytes ∨ written_env_bytes ≠ e.bytes ∨ sp.pos ≠ sp.size then
        saveFail σ sp .efault
      else
        let (σ, sp) := execSpoolFlush σ sp
        pure (.ok (⟨wrap 16 a.strings, wrap 16 e.strings, wrap 16 a.bytes, wrap 16 e.bytes,
          { sp with pos := 0 }⟩, σ))

/-- `exec_save_args`. -/
def execSaveArgs (cfg : Conf) (σ : Kernel) (u : UserMem) (x : ExecParams) (sp : ExecSpool) :
    Except Fault (Except Errno (ExecArgs × Kernel)) :=
  match countLoop u (execArgIterNext u x) loopTurns (execArgIterInit x) ⟨0, 0, 0⟩ with
  | .error error => .ok (.error error)
  | .ok a =>
    match countLoop u (execEnvIterNext u) loopTurns x.userenvp ⟨0, a.records, 0⟩ with
    | .error error => .ok (.error error)
    | .ok e =>
      if ncargs < a.bytes + e.bytes then .ok (.error .e2big)
      else do
        let (sp, σ) ← execSpoolAlloc σ sp e.records
        match sp with
        | none => pure (.error .enomem)
        | some sp => saveWrite cfg u x a e σ sp

end DiscoBSD.Exec
