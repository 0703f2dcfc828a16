import Mathlib.Data.Fintype.Basic
import Mathlib.Logic.Function.Basic
import DiscoBSD.Lib.Counts
import DiscoBSD.Lib.Runs

/-!
# Running text

`exec_text_hold`, `exec_text_unhold` and `exec_text_release` of `sys/kern/exec_aout.c`, the three loaders as far as
they call these, `newproc` and `exit`, and what opens, writes or truncates a file. Processes take turns where a call
can sleep. `execve` keeps the inode of the file locked from the lookup to its end; to let go of the text it ran
before it waits for that inode's lock as well, and so does `exit`.

**The flag is set before `execve` is committed, and only who has the inode locked looks at it, sets it or takes it
away.** An open, a write or a truncation is one step: it has the inode locked all the while, and between the unlock
of a file that was opened and the entry in the file table nothing sleeps.

The inodes are those in core: an inode that nothing refers to loses its flags and becomes another file's. All other
references and locks are those of the rest of the kernel, which takes and drops them at any time.
-/

set_option autoImplicit false

namespace DiscoBSD.Text

open DiscoBSD.Lib
open Function (update)

variable {π φ ι γ : Type} [DecidableEq π] [DecidableEq φ] [DecidableEq ι] [Fintype π] [Fintype φ]

/-! ## The tables -/

/-- `struct file`, if the entry is in use. -/
structure File (ι : Type) where
  f_data : ι
  fwrite : Bool
  f_count : ℕ

/-- How far an `execve` has come. `text` is `false` for an ELF file, of which nothing is restored at swap-in. -/
inductive Stage (ι : Type) where
  | checking
  | held
  | releasing (old : ι) (text : Bool)
  | loading (text : Bool)
  | failed
  | loaded
  | lost
  deriving DecidableEq, Repr

/-- Where a process is. One that is dying has lost its image and must go. -/
inductive Phase (ι : Type) where
  | dead
  | user
  | exec (ip : ι) (stage : Stage ι)
  | exiting (old : ι)
  | dying
  deriving DecidableEq, Repr

/-- A process, with the file that its text was read from. -/
structure Proc (ι γ : Type) where
  p_tip : Option ι
  mapped : Option γ
  phase : Phase ι

/-- `ILOCKED`, and who has the lock. -/
inductive Lock (π : Type) where
  | free
  | other
  | held (p : π)
  deriving DecidableEq, Repr

/-- The inodes' fields, the file table and the processes. `others` counts the references of the rest of the
    kernel. -/
structure Kernel (π φ ι γ : Type) where
  i_count : ι → ℕ
  itext : ι → Bool
  lock : ι → Lock π
  data : ι → γ
  others : ι → ℕ
  file : φ → Option (File ι)
  proc : π → Proc ι γ

/-! ## Inodes -/

/-- `irele`. -/
def Kernel.irele (k : Kernel π φ ι γ) (ip : ι) : Kernel π φ ι γ :=
  { k with
    i_count := update k.i_count ip (k.i_count ip - 1)
    itext := if k.i_count ip = 1 then update k.itext ip false else k.itext }

def Kernel.unlock (k : Kernel π φ ι γ) (ip : ι) : Kernel π φ ι γ := { k with lock := update k.lock ip .free }

/-- `iput`. -/
def Kernel.iput (k : Kernel π φ ι γ) (ip : ι) : Kernel π φ ι γ := (k.unlock ip).irele ip

/-- One reference more. -/
def Kernel.ref (k : Kernel π φ ι γ) (ip : ι) : Kernel π φ ι γ :=
  { k with i_count := update k.i_count ip (k.i_count ip + 1) }

/-- `access` for writing. `other` is whether the checks that are not about the text let it pass. -/
def Kernel.access (k : Kernel π φ ι γ) (ip : ι) (other : Bool) : Bool := !k.itext ip && other

/-! ## Text -/

/-- Somebody has the file open for writing. -/
def Kernel.Writing (k : Kernel π φ ι γ) (ip : ι) : Prop :=
  ∃ f, ∃ file ∈ k.file f, file.f_data = ip ∧ file.fwrite = true

instance (k : Kernel π φ ι γ) (ip : ι) : Decidable (k.Writing ip) :=
  inferInstanceAs (Decidable (∃ f, ∃ file ∈ k.file f, file.f_data = ip ∧ file.fwrite = true))

/-- Some process runs the file. -/
def Kernel.Running (k : Kernel π φ ι γ) (ip : ι) : Prop := ∃ p, (k.proc p).p_tip = some ip

instance (k : Kernel π φ ι γ) (ip : ι) : Decidable (k.Running ip) :=
  inferInstanceAs (Decidable (∃ p, (k.proc p).p_tip = some ip))

/-- `exec_text_hold`, if it does not return `ETXTBSY`. -/
def Kernel.execTextHold (k : Kernel π φ ι γ) (ip : ι) : Option (Kernel π φ ι γ) :=
  if k.Writing ip then none else some { k with itext := update k.itext ip true }

/-- `exec_text_unhold`. -/
def Kernel.execTextUnhold (k : Kernel π φ ι γ) (ip : ι) : Kernel π φ ι γ :=
  if k.Running ip then k else { k with itext := update k.itext ip false }

def Kernel.set (k : Kernel π φ ι γ) (p : π) (x : Proc ι γ) : Kernel π φ ι γ := { k with proc := update k.proc p x }

/-- The new text's reference, after `exec_text_release`. -/
def Kernel.tip (k : Kernel π φ ι γ) (p : π) (ip : ι) (text : Bool) : Kernel π φ ι γ :=
  if text then (k.ref ip).set p ⟨some ip, none, .exec ip (.loading true)⟩
  else k.set p ⟨none, none, .exec ip (.loading false)⟩

/-- The image is committed: `exec_text_release` up to the lock of the old text, if there is one. -/
def Kernel.commit (k : Kernel π φ ι γ) (p : π) (ip : ι) (text : Bool) : Kernel π φ ι γ :=
  match (k.proc p).p_tip with
  | none => k.tip p ip text
  | some old =>
    if text = true ∧ old = ip then ((k.set p ⟨none, none, .exec ip .held⟩).irele old).tip p ip text
    else k.set p ⟨none, none, .exec ip (.releasing old text)⟩

/-- The rest of `exec_text_release`. -/
def Kernel.release (k : Kernel π φ ι γ) (old : ι) : Kernel π φ ι γ := (k.execTextUnhold old).iput old

/-! ## Steps -/

inductive Move (π φ ι γ : Type) where
  | exec (p : π) (ip : ι)
  | fail (p : π)
  | hold (p : π)
  | refuse (p : π)
  | commit (p : π)
  | commitElf (p : π)
  | released (p : π)
  | load (p : π) (ok : Bool)
  | finish (p : π)
  | fork (p q : π)
  | exit (p : π)
  | exited (p : π)
  | open (f : φ) (ip : ι) (other fwrite trunc : Bool) (d : γ)
  | truncate (ip : ι) (other : Bool) (d : γ)
  | write (f : φ) (d : γ)
  | dup (f : φ)
  | close (f : φ)
  | iget (ip : ι) (d : γ)
  | ref (ip : ι)
  | irele (ip : ι)
  | ilock (ip : ι)
  | iunlock (ip : ι)

/-- A process goes on. -/
def Kernel.goes (k : Kernel π φ ι γ) (p : π) (phase : Phase ι) : Kernel π φ ι γ :=
  k.set p { k.proc p with phase := phase }

/-- One step. A lookup leaves the inode locked by the rest of the kernel, and the call it is for takes over. -/
def Kernel.step (k : Kernel π φ ι γ) : Move π φ ι γ → Option (Kernel π φ ι γ)
  | .exec p ip =>
    if (k.proc p).phase = .user ∧ k.lock ip = .other then
      some ({ k with lock := update k.lock ip (.held p), others := update k.others ip (k.others ip - 1) }.goes p
        (.exec ip .checking))
    else none
  | .fail p =>
    match (k.proc p).phase with
    | .exec ip .checking => some (k.goes p (.exec ip .failed))
    | _ => none
  | .hold p =>
    match (k.proc p).phase with
    | .exec ip .checking =>
      match k.execTextHold ip with
      | some k => some (k.goes p (.exec ip .held))
      | none => some (k.goes p (.exec ip .failed))
    | _ => none
  | .refuse p =>
    match (k.proc p).phase with
    | .exec ip .held => some ((k.execTextUnhold ip).goes p (.exec ip .failed))
    | _ => none
  | .commit p =>
    match (k.proc p).phase with
    | .exec ip .held => some (k.commit p ip true)
    | _ => none
  | .commitElf p =>
    match (k.proc p).phase with
    | .exec ip .checking => some (k.commit p ip false)
    | _ => none
  | .released p =>
    match (k.proc p).phase with
    | .exec ip (.releasing old text) => if k.lock old = .free then some ((k.release old).tip p ip text) else none
    | _ => none
  | .load p ok =>
    match (k.proc p).phase with
    | .exec ip (.loading text) =>
      some (k.set p
        { k.proc p with
          mapped := if ok && text then some (k.data ip) else none
          phase := .exec ip (if ok then .loaded else .lost) })
    | _ => none
  | .finish p =>
    match (k.proc p).phase with
    | .exec ip .failed | .exec ip .loaded => some ((k.iput ip).goes p .user)
    | .exec ip .lost => some ((k.iput ip).goes p .dying)
    | _ => none
  | .fork p q =>
    if (k.proc p).phase = .user ∧ (k.proc q).phase = .dead then
      match (k.proc p).p_tip with
      | none => some (k.set q ⟨none, none, .user⟩)
      | some ip => some ((k.ref ip).set q ⟨some ip, (k.proc p).mapped, .user⟩)
    else none
  | .exit p =>
    if (k.proc p).phase = .user ∨ (k.proc p).phase = .dying then
      match (k.proc p).p_tip with
      | none => some (k.set p ⟨none, none, .dead⟩)
      | some old => some (k.set p ⟨none, none, .exiting old⟩)
    else none
  | .exited p =>
    match (k.proc p).phase with
    | .exiting old => if k.lock old = .free then some ((k.release old).set p ⟨none, none, .dead⟩) else none
    | _ => none
  | .open f ip other fwrite trunc d =>
    if k.lock ip = .other ∧ (k.file f).isNone = true then
      if (fwrite || trunc) && !k.access ip other then
        some ({ k with others := update k.others ip (k.others ip - 1) }.iput ip)
      else
        some { k.unlock ip with
          others := update k.others ip (k.others ip - 1)
          data := if trunc then update k.data ip d else k.data
          file := update k.file f (some ⟨ip, fwrite, 1⟩) }
    else none
  | .truncate ip other d =>
    if k.lock ip = .other then
      if k.access ip other then some { k with data := update k.data ip d } else some k
    else none
  | .write f d =>
    match k.file f with
    | some file =>
      if file.fwrite = true ∧ k.lock file.f_data = .free then some { k with data := update k.data file.f_data d }
      else none
    | none => none
  | .dup f =>
    match k.file f with
    | some file => some { k with file := update k.file f (some { file with f_count := file.f_count + 1 }) }
    | none => none
  | .close f =>
    match k.file f with
    | some file =>
      if 1 < file.f_count then
        some { k with file := update k.file f (some { file with f_count := file.f_count - 1 }) }
      else some
        { k with
          file := update k.file f none
          others := update k.others file.f_data (k.others file.f_data + 1) }
    | none => none
  | .iget ip d =>
    if k.i_count ip = 0 then some
      { k with
        i_count := update k.i_count ip 1
        itext := update k.itext ip false
        lock := update k.lock ip .other
        data := update k.data ip d
        others := update k.others ip 1 }
    else none
  | .ref ip =>
    if k.i_count ip ≠ 0 then some { k.ref ip with others := update k.others ip (k.others ip + 1) } else none
  | .irele ip =>
    if (if k.lock ip = .other then 2 else 1) ≤ k.others ip then
      some { k.irele ip with others := update k.others ip (k.others ip - 1) }
    else none
  | .ilock ip =>
    if k.lock ip = .free ∧ 1 ≤ k.others ip then some { k with lock := update k.lock ip .other } else none
  | .iunlock ip => if k.lock ip = .other then some (k.unlock ip) else none

/-- One process, which has come from nowhere, and no file that anything refers to. -/
def Kernel.start (init : π) (data : ι → γ) : Kernel π φ ι γ where
  i_count := fun _ => 0
  itext := fun _ => false
  lock := fun _ => .free
  data := data
  others := fun _ => 0
  file := fun _ => none
  proc := fun p => ⟨none, none, if p = init then .user else .dead⟩

/-! ## The purpose -/

/-- The process has the text, is about to have it, or has not given it back yet. -/
def Proc.Uses (x : Proc ι γ) (ip : ι) : Prop :=
  x.p_tip = some ip ∨ x.phase = .exec ip .held ∨ (∃ old, x.phase = .exec ip (.releasing old true)) ∨
    (∃ new text, x.phase = .exec new (.releasing ip text)) ∨ x.phase = .exiting ip

/-- What is running has the flag, what has it is not open for writing, and it goes with the last process that uses
    the text. What a process has mapped is what the file has now, for swap-in to restore. -/
structure Kernel.Guarded (k : Kernel π φ ι γ) : Prop where
  running : ∀ ip, k.Running ip → k.itext ip = true
  unwritten : ∀ ip, k.itext ip = true → ¬ k.Writing ip
  cleared : ∀ ip, k.itext ip = true → ∃ p, (k.proc p).Uses ip
  restored : ∀ p ip d, (k.proc p).p_tip = some ip → (k.proc p).mapped = some d → k.data ip = d

/-- No step opens a file for writing or changes it while it has the flag. -/
def Kernel.Frozen (k k' : Kernel π φ ι γ) : Prop :=
  ∀ ip, k.itext ip = true → k'.data ip = k.data ip ∧ ¬ k'.Writing ip

/-- What holds at every moment. -/
def Kernel.Safe (k : Kernel π φ ι γ) : Prop := k.Guarded ∧ ∀ m k', k.step m = some k' → k.Frozen k'

end DiscoBSD.Text
