import DiscoBSD.Lib.Runs
import DiscoBSD.Signal.Masks

/-!
# In and out of the handlers

A process with its memory, from a trap to the return to its own code, and the handlers it is in. `syscall` looks at
the stack pointer and makes the call, `userret` posts signals, `sendsig` stores a context below the stack and
`sigreturn` reads one back. Memory is by the word: the contexts are aligned, and the hardware aligns the stack
pointer of an exception.

**A trap presents an even program counter, and `sendsig` sets one that need not be**: the handler's address, with
the bit that says Thumb. What is stored next, before the process has run, has that one in it.

The handlers here leave their contexts alone. One that is left by other means than `sigreturn` is `left`, and its
context is its own memory again. Faults are not among the traps.
-/

set_option autoImplicit false

namespace DiscoBSD.Signal

open DiscoBSD.Lib
open DiscoBSD.Exec (userTop)
open DiscoBSD.Swap (Conf)

/-! ## Memory -/

abbrev Memory := Word → Word

def Memory.store (mem : Memory) (st : Store) : Memory := Function.update mem st.addr st.value

@[irreducible] def Memory.stores (mem : Memory) (stored : List Store) : Memory := stored.foldl Memory.store mem

/-- The words at `sf_sc`, one after the other. -/
def contextAt (sf_sc : Word) (words : List Word) : List Store :=
  words.mapIdx fun i v => ⟨sf_sc + BitVec.ofNat 32 (4 * i), v⟩

/-- What `copyin` puts into `context`. -/
def Memory.context (mem : Memory) (user_context : Word) : Sigcontext :=
  let word (i : ℕ) := mem (user_context + BitVec.ofNat 32 (4 * i))
  { sc_onstack := word 0
    sc_mask := word 1
    regs :=
      { tf_r0 := word 2, tf_r1 := word 3, tf_r2 := word 4, tf_r3 := word 5, tf_sp := word 6, tf_lr := word 7
        tf_pc := word 8, tf_psr := word 9, tf_r4 := word 10, tf_r5 := word 11, tf_r6 := word 12, tf_r7 := word 13
        tf_r8 := word 14, tf_r9 := word 15, tf_r10 := word 16, tf_r11 := word 17 } }

/-! ## Traps -/

def psrThumb : Word := 0x01000000

/-- The bits of the status register that user code may set. -/
def psrAllowed : Word := 0xf0000000 ||| psrThumb ||| xpsrStkalign

def psrC : Word := 0x20000000

/-- The hardware stacks a status register of Thumb code with nothing but flags, and the frame is aligned. -/
def Trapframe.fromUser (regs : Trapframe) : Bool :=
  has regs.tf_psr psrThumb && !has regs.tf_psr (~~~psrAllowed) && decide (regs.tf_sp % 8 = 0)

/-- What the hardware can present. -/
def Trapframe.presented (regs : Trapframe) : Bool := regs.fromUser && decide (regs.tf_pc % 2 = 0)

/-- The beginning of `syscall`. -/
def Proc.entered (s : Proc) (regs : Trapframe) : Proc :=
  { s with u_error := .none, u_frame := regs, u_code := regs.tf_pc - 2 }

/-- The stack pointer is below the end of the data. -/
def Proc.trashed (s : Proc) (regs : Trapframe) : Bool := decide (regs.tf_sp < s.p_daddr + s.u_dsize)

/-- `syscall`, before the call. -/
def Proc.trapped (cfg : Conf) (s : Proc) (regs : Trapframe) : Proc := (s.entered regs).growStack cfg regs.tf_sp

/-- `syscall`, after the call. `r0` is the result, or the number of the error. -/
def Proc.result (s : Proc) (r0 : Word) : Proc :=
  match s.u_error with
  | .none => { s with u_frame := { s.u_frame with tf_psr := s.u_frame.tf_psr &&& ~~~psrC, tf_r0 := r0 } }
  | .erestart => { s with u_frame := { s.u_frame with tf_pc := s.u_frame.tf_pc - 2 } }
  | .ejustreturn => s
  | _ => { s with u_frame := { s.u_frame with tf_psr := s.u_frame.tf_psr ||| psrC, tf_r0 := r0 } }

/-! ## Handlers -/

/-- A handler that has not returned: where its frame is, and what was interrupted. -/
structure Handler where
  sfp : Word
  regs : Trapframe
  mask : Word
  onstack : Word
  deriving DecidableEq, Repr

/-- The words of the context. -/
def Handler.words (F : Handler) : List Word :=
  [F.onstack, F.mask, F.regs.tf_r0, F.regs.tf_r1, F.regs.tf_r2, F.regs.tf_r3, F.regs.tf_sp, F.regs.tf_lr,
    F.regs.tf_pc, F.regs.tf_psr, F.regs.tf_r4, F.regs.tf_r5, F.regs.tf_r6, F.regs.tf_r7, F.regs.tf_r8, F.regs.tf_r9,
    F.regs.tf_r10, F.regs.tf_r11]

/-- The context in memory. -/
def Handler.sf_sc (F : Handler) : List Store := contextAt (F.sfp + 32) F.words

/-- The mask that `postsig` has a handler restore. -/
def Proc.returnmask (s : Proc) : Word := if s.sas_oldmask then s.u_oldmask else s.p_sigmask

/-- The handler of a signal that is posted now. -/
def Proc.handler (s : Proc) (sig : ℕ) : Handler :=
  ⟨(s.top sig &&& ~~~7#32) - sigframeSize, s.u_frame, s.returnmask, s.u_sigstk.ss_flags &&& saOnstack⟩

/-- The frame is on the signal stack, or it does not reach below the end of the data. -/
def Proc.fits (s : Proc) (sig : ℕ) : Prop :=
  ¬ (s.onstack sig = false ∧ (s.top sig &&& ~~~7#32) - sigframeSize < s.p_daddr + s.u_dsize)

/-! ## Steps -/

/-- A process, its memory, the handlers it is in, the innermost first, and the one whose `sigreturn` was the last
    step. -/
structure Thread where
  proc : Proc
  mem : Memory
  kernel : Bool
  handlers : List Handler
  returned : Option Handler

inductive Move where
  | call (regs : Trapframe) (mem : Memory) (c : Call) (r0 : Word)
  | execve (regs : Trapframe) (mem : Memory) (large : Bool) (tsize dsize ssize : Word) (frame : Trapframe)
  | sigreturn (regs : Trapframe) (mem : Memory) (r0 : Word)
  | left (n : ℕ)
  | pending (sigs : Word)
  | postsig (sig : ℕ)
  | ret

/-- The memory that a trap finds: the contexts are as they were. -/
def Thread.Leaves (t : Thread) (mem : Memory) : Prop :=
  ∀ F ∈ t.handlers, ∀ st ∈ F.sf_sc, mem st.addr = t.mem st.addr

instance (t : Thread) (mem : Memory) : Decidable (t.Leaves mem) :=
  inferInstanceAs (Decidable (∀ F ∈ t.handlers, ∀ st ∈ F.sf_sc, mem st.addr = t.mem st.addr))

/-- A trap out of the process's own code. -/
def Thread.Traps (t : Thread) (regs : Trapframe) (mem : Memory) : Prop :=
  t.kernel = false ∧ regs.presented = true ∧ t.Leaves mem

instance (t : Thread) (regs : Trapframe) (mem : Memory) : Decidable (t.Traps regs mem) :=
  inferInstanceAs (Decidable (t.kernel = false ∧ regs.presented = true ∧ t.Leaves mem))

/-- The handler that makes this call as its last: its stack pointer is where it was at first. -/
def Thread.returning (t : Thread) (regs : Trapframe) : Option Handler :=
  t.handlers.head?.filter fun F => F.sfp = regs.tf_sp

/-- One step. A process that has trashed its stack makes no call. -/
def Thread.step (cfg : Conf) (t : Thread) : Move → Option Thread
  | .call regs mem c r0 =>
    if t.Traps regs mem then
      if t.proc.trashed regs then some ⟨t.proc.entered regs, mem, true, t.handlers, none⟩
      else ((t.proc.trapped cfg regs).call cfg c).map fun s => ⟨s.result r0, mem, true, t.handlers, none⟩
    else none
  | .execve regs mem large tsize dsize ssize frame =>
    if t.Traps regs mem ∧ t.proc.trashed regs = false ∧ frame.fromUser = true then
      some ⟨{ (t.proc.trapped cfg regs).execve cfg large tsize dsize ssize with u_frame := frame }, mem, true, [], none⟩
    else none
  | .sigreturn regs mem r0 =>
    if t.Traps regs mem then
      let handlers := if (t.returning regs).isSome then t.handlers.tail else t.handlers
      if t.proc.trashed regs then some ⟨t.proc.entered regs, mem, true, handlers, t.returning regs⟩
      else some
        ⟨((t.proc.trapped cfg regs).sigreturn cfg (mem.context (regs.tf_sp + 32))).result r0, mem, true, handlers,
          t.returning regs⟩
    else none
  | .left n => if t.kernel then none else some { t with handlers := t.handlers.drop n, returned := none }
  | .pending sigs => some { t with proc := { t.proc with p_sig := sigs }, returned := none }
  | .postsig sig =>
    if t.kernel = true ∧ t.proc.delivers sig then
      match t.proc.postsig cfg sig with
      | ([], s) => some { t with proc := s, returned := none }
      | (stored, s) => some
          { t with
            proc := s
            mem := t.mem.stores stored
            handlers :=
              ⟨s.u_frame.tf_sp, t.proc.u_frame, t.proc.returnmask, t.proc.u_sigstk.ss_flags &&& saOnstack⟩ :: t.handlers
            returned := none }
    else none
  | .ret => if t.kernel then some { t with kernel := false, returned := none } else none

/-- A process in its own code, and in no handler. -/
def Thread.start (s : Proc) (mem : Memory) : Thread := ⟨s, mem, false, [], none⟩

/-! ## The purpose -/

/-- The context is in memory. -/
def Handler.Kept (F : Handler) (mem : Memory) : Prop := ∀ st ∈ F.sf_sc, mem st.addr = st.value

/-- `sigreturn` has been accepted, and all is as it was. -/
structure Handler.Undone (F : Handler) (s : Proc) : Prop where
  accepted : s.u_error = .ejustreturn
  regs : s.u_frame = F.regs
  mask : s.p_sigmask = F.mask &&& ~~~sigcantmask
  onstack : s.u_sigstk.ss_flags &&& saOnstack = F.onstack

/-- The contexts saved are in memory, and a handler that has just returned has undone its delivery. -/
structure Thread.Restores (t : Thread) : Prop where
  kept : ∀ F ∈ t.handlers, F.Kept t.mem
  undone : ∀ F, t.returned = some F → F.Undone t.proc

/-- A handler can return: its frame is not below the end of the data, its context lies in the window, and what it
    interrupted was at an even address in the boot ROM or the window, with room in the window for the frame that
    the exception return reads, pad word and all. -/
structure Handler.Returnable (cfg : Conf) (s : Proc) (F : Handler) : Prop where
  clear : ¬ F.sfp < s.p_daddr + s.u_dsize
  context : userDataStart.toNat ≤ F.sfp.toNat + 32 ∧ F.sfp.toNat + 104 ≤ userTop cfg s.p_large
  even : F.regs.tf_pc.toNat % 2 = 0
  code : F.regs.tf_pc.toNat + 2 ≤ 0x4000 ∨
    (userDataStart.toNat ≤ F.regs.tf_pc.toNat ∧ F.regs.tf_pc.toNat + 2 ≤ userTop cfg s.p_large)
  stack : userDataStart.toNat ≤ F.regs.tf_sp.toNat ∧
    F.regs.tf_sp.toNat + (if has F.regs.tf_psr xpsrStkalign then 36 else 32) ≤ userTop cfg s.p_large

/-- A delivery stores over no context that is still to be read, and a handler that returns can. -/
def Thread.SafeMove (cfg : Conf) (t : Thread) : Move → Prop
  | .postsig sig => t.proc.fits sig → ∀ F ∈ t.handlers, ∀ st ∈ F.sf_sc, ∀ st' ∈ (t.proc.handler sig).sf_sc,
      st.addr = st'.addr → st.value = st'.value
  | .sigreturn regs _ _ => ∀ F, t.returning regs = some F → F.Returnable cfg t.proc
  | _ => True

end DiscoBSD.Signal
