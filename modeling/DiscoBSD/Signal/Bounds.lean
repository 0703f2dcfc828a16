import DiscoBSD.Signal.Identity

/-!
# Where the stack ends

`syscall` and `sendsig` grow the stack down to the stack pointer they find, `brk` moves the end of the data up to
it, and `execve` and `swapin` lay both out anew. Swapping, `fork` and `core` copy the data and the stack as these
leave them. A `vfork` lends the memory to the child: the parent takes the sizes back that the child has left.

**`syscall` compares the stack pointer with the end of the data and never with the top.** The distance from a stack
pointer above it wraps, and looks like a stack that has grown. `sendsig` and `sigreturn` look at what they find in
ways of their own.

What a process has in its registers when it traps, and what it gives `sigreturn`, is anything at all.
-/

set_option autoImplicit false

namespace DiscoBSD.Signal

open DiscoBSD.Lib
open DiscoBSD.Exec (userTop)
open DiscoBSD.Swap (Conf maxmem)

/-! ## Steps -/

/-- An image that the checks of `exec_aout_check` and `exec_elf_check` and then `exec_estab` let through, and the
    registers that `exec_setupstack` sets: data and stack fit into the window together, and the stack pointer is in
    the stack. -/
structure Layout (cfg : Conf) where
  large : Bool
  tsize : Word
  dsize : Word
  ssize : Word
  frame : Trapframe
  fits : dsize.toNat + ssize.toNat ≤ maxmem + if large then cfg.pool else 0
  sp : userTop cfg large ≤ frame.tf_sp.toNat + ssize.toNat ∧ frame.tf_sp.toNat ≤ userTop cfg large

/-- The process after an `execve`. -/
def Proc.exec {cfg : Conf} (s : Proc) (l : Layout cfg) : Proc :=
  { s.execve cfg l.large l.tsize l.dsize l.ssize with u_frame := l.frame }

/-- `swapout` and `swapin`. -/
def Proc.swapped (cfg : Conf) (s : Proc) : Proc :=
  { s with p_daddr := userDataStart, p_saddr := BitVec.ofNat 32 (userTop cfg s.p_large) - s.p_ssize }

/-- The sizes of the child, at the end of `newproc`. -/
def Proc.takeBack (parent child : Proc) : Proc :=
  { parent with
    p_dsize := child.p_dsize
    u_dsize := child.p_dsize
    p_daddr := child.p_daddr
    p_ssize := child.p_ssize
    u_ssize := child.p_ssize
    p_saddr := child.p_saddr }

/-- The process that has the memory, and those that have lent it. -/
structure Holder where
  proc : Proc
  kernel : Bool
  lent : List Proc

inductive Turn (cfg : Conf) where
  | call (regs : Trapframe) (c : Call) (r0 : Word)
  | execve (regs : Trapframe) (l : Layout cfg)
  | sigreturn (regs : Trapframe) (context : Sigcontext) (r0 : Word)
  | pending (sigs : Word)
  | postsig (sig : ℕ)
  | ret
  | swapped
  | vfork
  | endvfork

/-- One step. -/
def Holder.step (cfg : Conf) (x : Holder) : Turn cfg → Option Holder
  | .call regs c r0 =>
    if x.kernel = false then
      if x.proc.trashed regs then some { x with proc := x.proc.entered regs, kernel := true }
      else ((x.proc.trapped cfg regs).call cfg c).map fun s => { x with proc := s.result r0, kernel := true }
    else none
  | .execve regs l =>
    if x.kernel = false ∧ x.proc.trashed regs = false ∧ x.lent = [] then
      some ⟨(x.proc.trapped cfg regs).exec l, true, []⟩
    else none
  | .sigreturn regs context r0 =>
    if x.kernel = false then
      if x.proc.trashed regs then some { x with proc := x.proc.entered regs, kernel := true }
      else some { x with proc := ((x.proc.trapped cfg regs).sigreturn cfg context).result r0, kernel := true }
    else none
  | .pending sigs => some { x with proc := { x.proc with p_sig := sigs } }
  | .postsig sig =>
    if x.kernel = true ∧ x.proc.delivers sig then some { x with proc := (x.proc.postsig cfg sig).2 } else none
  | .ret => if x.kernel then some { x with kernel := false } else none
  | .swapped => if x.kernel then some { x with proc := x.proc.swapped cfg } else none
  | .vfork =>
    if x.kernel = true ∧ x.proc.trashed x.proc.u_frame = false then some { x with lent := x.proc :: x.lent } else none
  | .endvfork =>
    match x.kernel, x.lent with
    | true, parent :: lent => some ⟨parent.takeBack x.proc, true, lent⟩
    | _, _ => none

/-- A process that has just called `execve`. -/
def Holder.start {cfg : Conf} (s : Proc) (l : Layout cfg) : Holder := ⟨s.exec l, true, []⟩

/-! ## The purpose -/

/-- The data is at the bottom of the window and the stack at its top, with the same sizes in the u area. -/
structure Proc.Sized (cfg : Conf) (s : Proc) : Prop where
  top : s.p_saddr.toNat + s.p_ssize.toNat = userTop cfg s.p_large
  apart : s.p_daddr.toNat + s.p_dsize.toNat ≤ s.p_saddr.toNat
  bottom : userDataStart.toNat ≤ s.p_daddr.toNat
  data : s.u_dsize = s.p_dsize
  stack : s.u_ssize = s.p_ssize

/-- The stack pointer is in the stack. -/
def Proc.InStack (cfg : Conf) (s : Proc) : Prop :=
  s.p_saddr.toNat ≤ s.u_frame.tf_sp.toNat ∧ s.u_frame.tf_sp.toNat ≤ userTop cfg s.p_large

/-- The process is on its signal stack. -/
def Proc.onSigstack (s : Proc) : Bool := has s.u_sigstk.ss_flags saOnstack

/-- Data and stack are what they should be. When the process goes on in its own code, not on a signal stack, its
    stack pointer is in the stack; before that it may be below the end of the data too. -/
structure Holder.Bounded (cfg : Conf) (x : Holder) : Prop where
  sized : x.proc.Sized cfg
  user : x.kernel = false → x.proc.onSigstack = false → x.proc.InStack cfg
  kernel : x.proc.onSigstack = false → x.proc.trashed x.proc.u_frame = false → x.proc.InStack cfg

/-- `sigreturn` takes the context. -/
def Proc.takes (cfg : Conf) (s : Proc) (regs : Trapframe) (context : Sigcontext) : Prop :=
  ¬ ~~~0#32 - 32 < regs.tf_sp ∧ baduaddrSpan cfg s.p_large (regs.tf_sp + 32) 72 = false ∧
    sigreturnContextValid cfg s.p_large context = true

/-- No trap but an `execve` comes with a stack pointer above the top. A context that `sigreturn` takes has its stack
    pointer in the stack, on the signal stack, or below the end of the data. A signal off the signal stack finds
    room above address 0. And the process does not go on with a stack pointer below the end of the data. -/
def Holder.SafeTurn {cfg : Conf} (x : Holder) : Turn cfg → Prop
  | .call regs _ _ => regs.tf_sp.toNat ≤ userTop cfg x.proc.p_large
  | .sigreturn regs context _ => regs.tf_sp.toNat ≤ userTop cfg x.proc.p_large ∧
      (x.proc.trashed regs = false → x.proc.takes cfg regs context → has context.sc_onstack saOnstack = false →
        x.proc.trashed context.regs = false →
          x.proc.p_saddr ≤ context.regs.tf_sp ∨ regs.tf_sp ≤ context.regs.tf_sp)
  | .postsig sig => x.proc.onstack sig = false → 104 ≤ x.proc.u_frame.tf_sp.toNat / 8 * 8
  | .ret => x.proc.onSigstack = false → x.proc.trashed x.proc.u_frame = false
  | _ => True

end DiscoBSD.Signal
