import DiscoBSD.Signal.Identity

/-!
# A fault that is caught

`arm_fault` of `sys/arch/rp2040/rp2040/fault.c`. The hardware has pushed eight registers onto the process's stack
and the exception return pops them from there. `postsig` and `sendsig` work on `u_frame`, which `syscall` sets, to
the frame that its own entry code builds on the kernel's stack and copies back. **`arm_fault` builds no such frame
and leaves `u_frame` alone**, so `sendsig` saves and changes what the kernel's stack has where the frame of the last
system call was, and the process returns to the instruction that faulted.

The kernel's stack is not modelled: `stale` is what `u_frame` points to by then, and what `sendsig` stores there
is taken to do no harm.
-/

set_option autoImplicit false

namespace DiscoBSD.Signal

open DiscoBSD.Exec (userTop)
open DiscoBSD.Swap (Conf)

/-! ## The exception -/

/-- What the exception return pops from the process's stack, beside the registers that it leaves alone. -/
def Memory.popped (mem : Memory) (regs : Trapframe) : Trapframe :=
  let word (i : ℕ) := mem (regs.tf_sp + BitVec.ofNat 32 (4 * i))
  { regs with
    tf_r0 := word 0, tf_r1 := word 1, tf_r2 := word 2, tf_r3 := word 3
    tf_lr := word 5, tf_pc := word 6, tf_psr := word 7 }

/-- The hardware has pushed these registers. -/
def Pushed (mem : Memory) (regs : Trapframe) : Prop := mem.popped regs = regs

/-- `SIGSEGV`. -/
def sigsegv : ℕ := 11

/-! ## arm_fault -/

/-- The signal for a fault with its frame there. -/
def faultSignal (cfg : Conf) (large : Bool) (frame : Word) : ℕ :=
  if frame < userDataStart ∨ BitVec.ofNat 32 (userTop cfg large) ≤ frame then sigkill else sigsegv

/-- The signal made deliverable, and sent. -/
def Proc.forced (s : Proc) (psig : ℕ) : Proc :=
  { s with
    p_sigmask := s.p_sigmask &&& ~~~sigmask psig
    p_sigignore := s.p_sigignore &&& ~~~sigmask psig
    u_signal := if s.u_signal psig = sigIgn then Function.update s.u_signal psig sigDfl else s.u_signal
    p_sig := s.p_sig ||| sigmask psig }

/-- A process that returns from an exception: what was stored on the way, the memory, and the registers it goes on
    with. -/
structure Resumed where
  proc : Proc
  stored : List Store
  mem : Memory
  regs : Trapframe

/-- `arm_fault` from user mode and the exception return, for a process that is not traced, where the fault's signal
    is the one signal that `userret` has to post and it has a handler. -/
def Proc.armFault (cfg : Conf) (s : Proc) (mem : Memory) (regs stale : Trapframe) : Option Resumed :=
  let psig := faultSignal cfg s.p_large regs.tf_sp
  let s := { s with u_frame := stale }.forced psig
  if s.p_sig &&& ~~~s.p_sigmask = sigmask psig ∧ s.u_signal psig ≠ sigDfl then
    let (stored, s) := s.postsig cfg psig
    some ⟨s, stored, mem.stores stored, (mem.stores stored).popped regs⟩
  else none

/-! ## What it is for -/

/-- The state in which the handler of a signal begins. -/
structure Handler.Entered (F : Handler) (s : Proc) (sig : ℕ) (regs : Trapframe) : Prop where
  sp : regs.tf_sp = F.sfp
  signal : regs.tf_r0 = BitVec.ofNat 32 sig
  context : regs.tf_r2 = F.sfp + 32
  tramp : regs.tf_lr = s.u_sigtramp
  pc : regs.tf_pc >>> 1 = s.u_signal sig >>> 1

/-- The handler is entered with a context that holds the registers of the fault, and `sigreturn` takes the process
    back to them. It is not entered where the process goes on as it was: then the same instruction faults again. -/
structure FaultReported (cfg : Conf) (s : Proc) (regs : Trapframe) (after : Resumed) : Prop where
  left : after.regs ≠ regs
  handler : ∃ F : Handler, F.regs = regs ∧ after.stored = F.sf_sc ∧ F.Kept after.mem ∧
    F.Entered s sigsegv after.regs ∧
    ({ after.proc with u_frame := after.regs }.sigreturn cfg (after.mem.context (F.sfp + 32))).u_frame = regs

section
variable {cfg : Conf} {s : Proc} {mem : Memory} {regs stale : Trapframe} {stored : List Store} {after : Resumed}

@[simp] theorem popped_tf_sp : (mem.popped regs).tf_sp = regs.tf_sp := rfl

/-- Stores that are not to the hardware's frame leave it. -/
theorem popped_stores (h : ∀ st ∈ stored, ∀ i < 8, st.addr ≠ regs.tf_sp + BitVec.ofNat 32 (4 * i)) :
    (mem.stores stored).popped regs = mem.popped regs := by
  have hword : ∀ i < 8, mem.stores stored (regs.tf_sp + BitVec.ofNat 32 (4 * i)) =
      mem (regs.tf_sp + BitVec.ofNat 32 (4 * i)) := fun i hi => stores_other fun st hst => h st hst i hi
  unfold Memory.popped
  simp only [hword, Nat.reduceLT]

/-- A context lies above the frame at its bottom. -/
theorem sf_sc_above (F : Handler) {st : Store} (hst : st ∈ F.sf_sc) {i : ℕ} (hi : i < 8) :
    st.addr ≠ F.sfp + BitVec.ofNat 32 (4 * i) := by
  obtain ⟨j, hj, rfl⟩ := List.mem_mapIdx.mp hst
  have hlen : F.words.length = 18 := rfl
  intro heq
  simp only [BitVec.add_assoc] at heq
  have hoffset := congrArg BitVec.toNat ((BitVec.add_right_inj F.sfp).mp heq)
  rw [BitVec.toNat_add, BitVec.toNat_ofNat, BitVec.toNat_ofNat] at hoffset
  have h32 : (32 : Word).toNat = 32 := rfl
  omega

/-- The exception returns from the hardware's frame, into which nothing was written but what `sendsig` stored. -/
theorem armFault_regs (h : s.armFault cfg mem regs stale = some after) :
    after.mem = mem.stores after.stored ∧ after.regs = (mem.stores after.stored).popped regs := by
  unfold Proc.armFault at h
  simp only at h
  split at h
  · cases h
    exact ⟨rfl, rfl⟩
  · cases h

/-- **A process whose stack pointer is at its handler's frame is still where it faulted.** -/
theorem armFault_repeats (hpushed : Pushed mem regs) (h : s.armFault cfg mem regs stale = some after) {F : Handler}
    (hstored : after.stored = F.sf_sc) (hsp : after.regs.tf_sp = F.sfp) : after.regs = regs := by
  obtain ⟨_, hregs⟩ := armFault_regs h
  rw [hregs, popped_tf_sp] at hsp
  rw [hregs, popped_stores fun st hst i hi => ?_]
  · exact hpushed
  · rw [hsp]
    exact sf_sc_above F (hstored ▸ hst) hi

end

/-- **No fault is reported to a handler**, whatever `u_frame` points to. -/
theorem fault_unreported (cfg : Conf) (s : Proc) (mem : Memory) (regs stale : Trapframe) (after : Resumed)
    (hpushed : Pushed mem regs) (h : s.armFault cfg mem regs stale = some after) :
    ¬FaultReported cfg s regs after := by
  rintro ⟨hleft, F, _, hstored, _, hentered, _⟩
  exact hleft (armFault_repeats hpushed h hstored hentered.sp)

/-! ## A program -/

/-- The registers at a system call, and those of a load from address 0 after it. -/
def callRegs : Trapframe := ⟨1, 2, 3, 4, 0x20020000, 5, 0x20000102, psrThumb, 6, 7, 8, 9, 10, 11, 12, 13⟩
def loadRegs : Trapframe := ⟨0, 2, 3, 4, 0x20020000, 5, 0x20000110, psrThumb, 6, 7, 8, 9, 10, 11, 12, 13⟩

/-- The process has a handler for `SIGSEGV`. -/
def segvCatcher : Proc :=
  { Proc.fresh with
    u_signal := Function.update (fun _ => sigDfl) sigsegv 0x20000201
    u_sigtramp := 0x20000301 }

/-- The memory with the frame of the fault. -/
def faultMemory : Memory :=
  Memory.stores (fun _ => 0) [⟨0x20020000, 0⟩, ⟨0x20020004, 2⟩, ⟨0x20020008, 3⟩, ⟨0x2002000c, 4⟩, ⟨0x20020014, 5⟩,
    ⟨0x20020018, 0x20000110⟩, ⟨0x2002001c, psrThumb⟩]

theorem pushed_load : Pushed faultMemory loadRegs := by
  have hpopped : faultMemory.popped loadRegs = loadRegs := by decide +kernel
  exact hpopped

/-- The context has the registers of the system call, and the process goes on with the load. -/
theorem armFault_load : ∃ after, segvCatcher.armFault Swap.pico faultMemory loadRegs callRegs = some after ∧
    after.regs = loadRegs ∧ after.stored.map Store.value =
      [0, 0, 1, 2, 3, 4, 0x20020000, 5, 0x20000102, psrThumb, 6, 7, 8, 9, 10, 11, 12, 13] := by
  have hany : (segvCatcher.armFault Swap.pico faultMemory loadRegs callRegs).any (fun after =>
      decide (after.regs = loadRegs ∧ after.stored.map Store.value =
        [0, 0, 1, 2, 3, 4, 0x20020000, 5, 0x20000102, psrThumb, 6, 7, 8, 9, 10, 11, 12, 13])) = true := by
    decide +kernel
  obtain ⟨after, hsome, hafter⟩ := (Option.any_eq_true _ _).mp hany
  exact ⟨after, hsome, of_decide_eq_true hafter⟩

/-- The load faults again. -/
theorem fault_repeated : ∃ after, segvCatcher.armFault Swap.pico faultMemory loadRegs callRegs = some after ∧
    ¬FaultReported Swap.pico segvCatcher loadRegs after := by
  obtain ⟨after, hsome, hregs, _⟩ := armFault_load
  exact ⟨after, hsome, fun h => h.left hregs⟩

theorem fault_unreported_load : ∃ after,
    segvCatcher.armFault Swap.pico faultMemory loadRegs callRegs = some after ∧
      ¬FaultReported Swap.pico segvCatcher loadRegs after := by
  obtain ⟨after, hsome, _⟩ := armFault_load
  exact ⟨after, hsome, fault_unreported _ _ _ _ _ _ pushed_load hsome⟩

end DiscoBSD.Signal
