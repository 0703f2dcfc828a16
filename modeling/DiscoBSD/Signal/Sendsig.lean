import DiscoBSD.Lib.Word
import DiscoBSD.Signal.State
import DiscoBSD.Swap.System

/-!
# Where a signal's context goes

`sendsig` stores the context of the interrupted program below the top of a stack: the stack it runs on, or the
signal stack that `sigaltstack` or `sigstack` gave. It compares the frame with the end of the data when the
frame is not on the signal stack, and **nothing compares it with anything else**. The top of a signal stack
is what the program said, so the context can go anywhere.

`sendsig_safe_iff` says when it stays inside the window all the same, for each delivery of each run.
-/

set_option autoImplicit false

namespace DiscoBSD.Signal

open DiscoBSD.Lib
open DiscoBSD.Exec (userTop userDataEnd)
open DiscoBSD.Swap (Conf)

/-- A word and the address it is stored at. -/
structure Store where
  addr : Word
  value : Word
  deriving DecidableEq, Repr

/-- The bytes of a store. -/
def Store.bytes (st : Store) : List Word := (List.range 4).map fun i => st.addr + BitVec.ofNat 32 i

/-- `sizeof(struct sigframe)`. -/
def sigframeSize : Word := 104

/-- `XPSR_STKALIGN`. -/
def xpsrStkalign : Word := 0x200

/-- The signal is to be taken on the signal stack, and the process is not on it yet. -/
def Proc.switches (s : Proc) (sig : ℕ) : Bool :=
  s.sas_altstack && !has s.u_sigstk.ss_flags saOnstack && has s.u_sigonstack (sigmask sig)

/-- The top of the stack that `sendsig` extends, before it is rounded. -/
def Proc.top (s : Proc) (sig : ℕ) : Word :=
  if s.switches sig then s.u_sigstk.ss_base + s.u_sigstk.ss_size else s.u_frame.tf_sp

/-- The frame is on the signal stack. -/
def Proc.onstack (s : Proc) (sig : ℕ) : Bool := s.switches sig || has s.u_sigstk.ss_flags saOnstack

/-- The words of `sf_sc`. -/
def Proc.sigcontext (s : Proc) (oonstack mask : Word) : List Word :=
  let regs := s.u_frame
  [oonstack, mask, regs.tf_r0, regs.tf_r1, regs.tf_r2, regs.tf_r3, regs.tf_sp, regs.tf_lr, regs.tf_pc, regs.tf_psr,
    regs.tf_r4, regs.tf_r5, regs.tf_r6, regs.tf_r7, regs.tf_r8, regs.tf_r9, regs.tf_r10, regs.tf_r11]

/-- The stack has grown to `sfp`. -/
def Proc.growStack (cfg : Conf) (s : Proc) (sfp : Word) : Proc :=
  let size := BitVec.ofNat 32 (userTop cfg s.p_large) - sfp
  if s.p_ssize < size then { s with p_ssize := size, p_saddr := sfp, u_ssize := size } else s

/-- `sendsig`. -/
def Proc.sendsig (cfg : Conf) (s : Proc) (p : Word) (sig : ℕ) (mask : Word) : List Store × Proc :=
  let oonstack := s.u_sigstk.ss_flags &&& saOnstack
  let sfp := (s.top sig &&& ~~~7#32) - sigframeSize
  let s := if s.switches sig then
      { s with u_sigstk := { s.u_sigstk with ss_flags := s.u_sigstk.ss_flags ||| saOnstack } }
    else s
  if has s.u_sigstk.ss_flags saOnstack = false ∧ sfp < s.p_daddr + s.u_dsize then ([], s.fatalsig sigill)
  else
    let s := if has s.u_sigstk.ss_flags saOnstack then s else s.growStack cfg sfp
    let sf_sc := sfp + 32
    ((s.sigcontext oonstack mask).mapIdx fun i v => ⟨sf_sc + BitVec.ofNat 32 (4 * i), v⟩,
      { s with u_frame := { s.u_frame with
          tf_r0 := BitVec.ofNat 32 sig
          tf_r1 := s.u_code
          tf_r2 := sf_sc
          tf_lr := s.u_sigtramp
          tf_sp := sfp
          tf_pc := p
          tf_psr := s.u_frame.tf_psr &&& ~~~xpsrStkalign } })

/-- `postsig` for a signal with a handler. -/
def Proc.postsig (cfg : Conf) (s : Proc) (sig : ℕ) : List Store × Proc :=
  let mask := sigmask sig
  let action := s.u_signal sig
  let returnmask := if s.sas_oldmask then s.u_oldmask else s.p_sigmask
  Proc.sendsig cfg
    { s with
      p_sig := s.p_sig &&& ~~~mask
      u_error := .none
      sas_oldmask := false
      p_sigmask := s.p_sigmask ||| (s.u_sigmask sig ||| mask) }
    action sig returnmask

/-- `struct sigcontext`, as `sigreturn` reads it. -/
structure Sigcontext where
  sc_onstack : Word
  sc_mask : Word
  regs : Trapframe
  deriving DecidableEq, Repr

/-- `machine_user_pc_valid`. -/
def machineUserPcValid (cfg : Conf) (large : Bool) (pc : Word) : Bool :=
  if pc % 2 ≠ 0 then false
  else if pc ≤ 0x4000 ∧ 2 ≤ 0x4000 - pc then true
  else !baduaddrSpan cfg large pc 2

/-- `machine_user_stack_valid`. -/
def machineUserStackValid (cfg : Conf) (large : Bool) (sp size : Word) : Bool :=
  if sp % 8 ≠ 0 then false else !baduaddrSpan cfg large sp size

/-- `sigreturn_context_valid`. -/
def sigreturnContextValid (cfg : Conf) (large : Bool) (context : Sigcontext) : Bool :=
  let psr := context.regs.tf_psr
  let thumb : Word := 0x01000000
  let allowed : Word := 0xf0000000 ||| thumb ||| xpsrStkalign
  has psr thumb && !has psr (~~~allowed) && machineUserPcValid cfg large context.regs.tf_pc &&
    machineUserStackValid cfg large context.regs.tf_sp (if has psr xpsrStkalign then 36 else 32)

/-- `sigreturn`. `context` is what the user's memory has above the frame. -/
def Proc.sigreturn (cfg : Conf) (s : Proc) (context : Sigcontext) : Proc :=
  if ~~~0#32 - 32 < s.u_frame.tf_sp then { s with u_error := .efault }
  else if baduaddrSpan cfg s.p_large (s.u_frame.tf_sp + 32) 72 then { s with u_error := .efault }
  else if !sigreturnContextValid cfg s.p_large context then { s with u_error := .einval }
  else { s with
    u_error := .ejustreturn
    u_sigstk := { s.u_sigstk with
      ss_flags := if has context.sc_onstack saOnstack then s.u_sigstk.ss_flags ||| saOnstack
        else s.u_sigstk.ss_flags &&& ~~~saOnstack }
    p_sigmask := context.sc_mask &&& ~~~sigcantmask
    u_frame := context.regs }

/-! ## Runs -/

/-- What happens to a process. In its own code it sets its registers as it likes, and what it is sent, and the
    masks of calls not written out here, are whatever they are. -/
inductive Event where
  | trap (regs : Trapframe) (code : Word)
  | pending (sigs mask oldmask : Word) (restore : Bool)
  | execve (large : Bool) (tsize dsize ssize : Word)
  | brk (naddr : Word)
  | sigaltstack (nss oss : Word) (ss : Sigaltstack)
  | sigstack (nss oss : Word) (ss : Sigstack)
  | sigaction (signum nsa osa sigtramp : Word) (sa : Sigaction)
  | sigreturn (context : Sigcontext)
  | postsig (sig : ℕ)
  deriving DecidableEq, Repr

/-- A signal that was delivered to a handler: the process before, what `sendsig` stored, the process after. -/
structure Delivery where
  before : Proc
  sig : ℕ
  stored : List Store
  after : Proc

/-- One event. A signal is delivered when it is pending, not held, and has a handler. -/
def Proc.step (cfg : Conf) (s : Proc) : Event → Option (List Delivery × Proc)
  | .trap regs code => some ([], { s with u_frame := regs, u_code := code })
  | .pending sigs mask oldmask restore => some ([],
      { s with p_sig := sigs, p_sigmask := mask &&& ~~~sigcantmask, u_oldmask := oldmask, sas_oldmask := restore })
  | .execve large tsize dsize ssize => some ([], s.execve cfg large tsize dsize ssize)
  | .brk naddr => some ([], s.brk cfg naddr)
  | .sigaltstack nss oss ss => some ([], s.sigaltstack cfg nss oss ss)
  | .sigstack nss oss ss => some ([], s.sigstack cfg nss oss ss)
  | .sigaction signum nsa osa sigtramp sa => some ([], s.sigaction cfg signum nsa osa sigtramp sa)
  | .sigreturn context => some ([], s.sigreturn cfg context)
  | .postsig sig =>
    if 1 ≤ sig ∧ sig < nsig ∧ has (s.p_sig &&& ~~~s.p_sigmask) (sigmask sig) = true ∧
        s.u_signal sig ≠ sigDfl ∧ s.u_signal sig ≠ sigIgn then
      let (stored, s') := s.postsig cfg sig
      some ([⟨s, sig, stored, s'⟩], s')
    else none

/-- A process before its first `execve`. -/
def Proc.fresh : Proc :=
  { p_large := false, p_nocldstop := false, p_daddr := userDataStart, p_dsize := 0, p_saddr := userDataStart
    p_ssize := 0, p_sig := 0, p_sigmask := 0, p_sigignore := 0, p_sigcatch := 0
    u_frame := ⟨0, 0, 0, 0, 0, 0, 0, 0, 0, 0, 0, 0, 0, 0, 0, 0⟩, u_code := 0, u_error := .none, u_tsize := 0
    u_dsize := 0, u_ssize := 0, u_signal := fun _ => sigDfl, u_sigmask := fun _ => 0, u_sigintr := 0
    u_sigonstack := 0, u_sigtramp := 0, u_sigstk := ⟨0, 0, saDisable⟩, u_oldmask := 0, sas_oldmask := false
    sas_altstack := false }

/-- A run, and the signals delivered in it. -/
inductive Run (cfg : Conf) : List Delivery → Proc → Prop
  | fresh : Run cfg [] Proc.fresh
  | step {ds d : List Delivery} {s s' : Proc} (e : Event) :
      Run cfg ds s → s.step cfg e = some (d, s') → Run cfg (ds ++ d) s'

/-- The events of a list, one after the other. -/
def Proc.steps (cfg : Conf) (s : Proc) : List Event → Option (List Delivery × Proc)
  | [] => some ([], s)
  | e :: es =>
    match s.step cfg e with
    | some (d, s') => (s'.steps cfg es).map fun r => (d ++ r.1, r.2)
    | none => none

/-- What `fatalsig` leaves: the signal is pending, and nothing keeps it from killing the process. -/
structure Killed (s : Proc) : Prop where
  pending : has s.p_sig (sigmask sigill) = true
  held : has s.p_sigmask (sigmask sigill) = false
  ignored : has s.p_sigignore (sigmask sigill) = false
  caught : has s.p_sigcatch (sigmask sigill) = false
  action : s.u_signal sigill = sigDfl

/-- A delivery stores to the process's own memory, or kills it and stores nothing. -/
def Delivery.Safe (cfg : Conf) (d : Delivery) : Prop :=
  (∀ st ∈ d.stored, ∀ a ∈ st.bytes, baduaddr cfg d.before.p_large a = false) ∧ (d.stored = [] → Killed d.after)

/-- When a delivery is safe: the context fits into the window below the rounded top, or the rounded top is off
    the signal stack and lower than a frame above the end of the data. -/
def Proc.Fits (cfg : Conf) (s : Proc) (sig : ℕ) : Prop :=
  (userDataStart.toNat + 72 ≤ (s.top sig).toNat / 8 * 8 ∧ (s.top sig).toNat / 8 * 8 ≤ userTop cfg s.p_large) ∨
    (s.onstack sig = false ∧ (s.top sig &&& ~~~7#32) - sigframeSize < s.p_daddr + s.u_dsize)

/-! ## The window and the frame -/

section

variable {cfg : Conf} {s : Proc} {sig : ℕ}

/-- The window ends long before the addresses do. -/
theorem userTop_le (cfg : Conf) (large : Bool) : userTop cfg large ≤ 2 ^ 32 - 72 := by
  have hpool := cfg.pool_le
  unfold Swap.sram at hpool
  unfold userTop userDataEnd
  split_ifs <;> omega

theorem baduaddrSpan_false (large : Bool) (a n : Word) :
    baduaddrSpan cfg large a n = false ↔
      userDataStart.toNat ≤ a.toNat ∧ a.toNat + n.toNat ≤ userTop cfg large := by
  have htop := userTop_le cfg large
  have hwrap : (BitVec.ofNat 32 (userTop cfg large)).toNat = userTop cfg large := by
    rw [BitVec.toNat_ofNat]
    exact Nat.mod_eq_of_lt (by omega)
  have hstart : userDataStart.toNat ≤ userTop cfg large := by
    unfold userTop userDataEnd
    exact Nat.le_trans (by decide) (Nat.le_add_right _ _)
  unfold baduaddrSpan userSpanContains
  simp only [BitVec.lt_def, BitVec.le_def, hwrap, Bool.not_eq_false']
  by_cases hout : userTop cfg large < userDataStart.toNat ∨ a.toNat < userDataStart.toNat ∨ userTop cfg large < a.toNat
  · rw [if_pos hout]
    refine ⟨nofun, ?_⟩
    omega
  · rw [if_neg hout, decide_eq_true_iff, BitVec.toNat_sub_of_le (by rw [BitVec.le_def, hwrap]; omega), hwrap]
    omega

theorem baduaddr_false (large : Bool) (a : Word) :
    baduaddr cfg large a = false ↔ userDataStart.toNat ≤ a.toNat ∧ a.toNat < userTop cfg large :=
  baduaddrSpan_false large a 1

/-- `& ~7U` rounds down. -/
theorem toNat_roundDown (x : Word) : (x &&& ~~~7#32).toNat = x.toNat / 8 * 8 :=
  maskDown_eq (w := 32) (k := 3) (by decide) x.isLt

/-- The bytes of the context lie in the window when the rounded top does, and 72 bytes below it. -/
theorem context_inside (large : Bool) (t : Word) :
    (∀ j < 72, baduaddr cfg large ((t &&& ~~~7#32) - sigframeSize + 32 + BitVec.ofNat 32 j) = false) ↔
      userDataStart.toNat + 72 ≤ t.toNat / 8 * 8 ∧ t.toNat / 8 * 8 ≤ userTop cfg large := by
  have htop := userTop_le cfg large
  have ht := t.isLt
  have haddr : ∀ j < 72, ((t &&& ~~~7#32) - sigframeSize + 32 + BitVec.ofNat 32 j).toNat =
      (t.toNat / 8 * 8 + (2 ^ 32 - 72) + j) % 2 ^ 32 := by
    intro j hj
    have hframe : sigframeSize.toNat = 104 := rfl
    have hgap : (32 : Word).toNat = 32 := rfl
    rw [BitVec.toNat_add, BitVec.toNat_add, BitVec.toNat_sub, toNat_roundDown, hframe, hgap, BitVec.toNat_ofNat]
    omega
  have hstart : userDataStart.toNat = 0x20000000 := rfl
  rw [hstart]
  constructor
  · intro h
    have hfirst := (baduaddr_false large _).mp (h 0 (by omega))
    have hlast := (baduaddr_false large _).mp (h 71 (by omega))
    rw [haddr 0 (by omega), hstart] at hfirst
    rw [haddr 71 (by omega), hstart] at hlast
    omega
  · intro h j hj
    rw [baduaddr_false, haddr j hj, hstart]
    omega

/-! ## sendsig -/

/-- The bytes that `sendsig` stores are those of the context. -/
theorem context_bytes (oonstack mask base : Word) (P : Word → Prop) :
    (∀ st ∈ (s.sigcontext oonstack mask).mapIdx fun i v => Store.mk (base + BitVec.ofNat 32 (4 * i)) v,
      ∀ a ∈ st.bytes, P a) ↔ ∀ j < 72, P (base + BitVec.ofNat 32 j) := by
  have hlen : (s.sigcontext oonstack mask).length = 18 := rfl
  have hadd : ∀ i k : ℕ, base + BitVec.ofNat 32 (4 * i) + BitVec.ofNat 32 k = base + BitVec.ofNat 32 (4 * i + k) := by
    intro i k
    rw [BitVec.add_assoc, BitVec.ofNat_add]
  simp only [List.mem_mapIdx, Store.bytes, List.mem_map, List.mem_range]
  constructor
  · intro h j hj
    have hi : j / 4 < (s.sigcontext oonstack mask).length := by omega
    have hb := h _ ⟨j / 4, hi, rfl⟩ _ ⟨j % 4, Nat.mod_lt _ (by decide), rfl⟩
    rwa [hadd, Nat.div_add_mod] at hb
  · rintro h _ ⟨i, hi, rfl⟩ _ ⟨k, hk, rfl⟩
    rw [hadd]
    exact h _ (by omega)

theorem has_or (w bit : Word) (h : bit ≠ 0) : has (w ||| bit) bit = true := by
  have heq : (w ||| bit) &&& bit = bit := by
    apply BitVec.eq_of_getLsbD_eq
    intro i _
    simp only [BitVec.getLsbD_and, BitVec.getLsbD_or]
    cases w.getLsbD i <;> cases bit.getLsbD i <;> rfl
  unfold has
  rw [heq]
  exact decide_eq_true h

theorem has_andNot (w bit : Word) : has (w &&& ~~~bit) bit = false := by
  have heq : w &&& ~~~bit &&& bit = 0 := by
    apply BitVec.eq_of_getLsbD_eq
    intro i hi
    simp only [BitVec.getLsbD_and, BitVec.getLsbD_not, hi, decide_true, Bool.true_and]
    cases w.getLsbD i <;> cases bit.getLsbD i <;> simp
  exact decide_eq_false (not_not.mpr heq)

theorem killed_fatalsig (s : Proc) : Killed (s.fatalsig sigill) where
  pending := has_or _ _ (by decide)
  held := has_andNot _ _
  ignored := has_andNot _ _
  caught := has_andNot _ _
  action := by simp [Proc.fatalsig]

/-- The frame is on the signal stack when the flag says so after the switch. -/
theorem has_onstack (s : Proc) (sig : ℕ) :
    has (if s.switches sig then
      { s with u_sigstk := { s.u_sigstk with ss_flags := s.u_sigstk.ss_flags ||| saOnstack } }
      else s).u_sigstk.ss_flags saOnstack = s.onstack sig := by
  unfold Proc.onstack
  cases s.switches sig with
  | true => exact has_or _ _ (by decide)
  | false => rfl

/-- A delivery that is not killed stores the context below the rounded top. -/
theorem sendsig_stored (p mask : Word)
    (h : ¬ (s.onstack sig = false ∧ (s.top sig &&& ~~~7#32) - sigframeSize < s.p_daddr + s.u_dsize)) :
    ∃ s' oonstack, (s.sendsig cfg p sig mask).1 = (Proc.sigcontext s' oonstack mask).mapIdx fun i v =>
      Store.mk ((s.top sig &&& ~~~7#32) - sigframeSize + 32 + BitVec.ofNat 32 (4 * i)) v := by
  rw [← has_onstack] at h
  cases hsw : s.switches sig with
  | true =>
    simp only [hsw, if_true] at h
    simp only [Proc.sendsig, hsw, if_true, if_neg h]
    exact ⟨_, _, rfl⟩
  | false =>
    simp only [hsw, Bool.false_eq_true, if_false] at h
    simp only [Proc.sendsig, hsw, Bool.false_eq_true, if_false, if_neg h]
    exact ⟨_, _, rfl⟩

/-- A delivery below the end of the data kills. -/
theorem sendsig_killed (p mask : Word)
    (h : s.onstack sig = false ∧ (s.top sig &&& ~~~7#32) - sigframeSize < s.p_daddr + s.u_dsize) :
    (s.sendsig cfg p sig mask).1 = [] ∧ Killed (s.sendsig cfg p sig mask).2 := by
  have hsw : s.switches sig = false := ((Bool.or_eq_false_iff).mp h.1).1
  rw [← has_onstack] at h
  simp only [hsw, Bool.false_eq_true, if_false] at h
  simp only [Proc.sendsig, hsw, Bool.false_eq_true, if_false, if_pos h]
  exact ⟨trivial, killed_fatalsig s⟩

/-- One delivery. -/
theorem sendsig_safe (p mask : Word) :
    ((∀ st ∈ (s.sendsig cfg p sig mask).1, ∀ a ∈ st.bytes, baduaddr cfg s.p_large a = false) ∧
      ((s.sendsig cfg p sig mask).1 = [] → Killed (s.sendsig cfg p sig mask).2)) ↔ s.Fits cfg sig := by
  by_cases hk : s.onstack sig = false ∧ (s.top sig &&& ~~~7#32) - sigframeSize < s.p_daddr + s.u_dsize
  · obtain ⟨hnil, hkilled⟩ : (s.sendsig cfg p sig mask).1 = [] ∧ Killed (s.sendsig cfg p sig mask).2 :=
      sendsig_killed p mask hk
    rw [hnil]
    exact ⟨fun _ => .inr hk, fun _ => ⟨nofun, fun _ => hkilled⟩⟩
  · obtain ⟨s', oonstack, hst⟩ := @sendsig_stored cfg _ _ p mask hk
    rw [hst, context_bytes, context_inside]
    refine ⟨fun h => .inl h.1, fun h => ⟨h.resolve_right hk, fun hnil => ?_⟩⟩
    have hlen := congrArg List.length hnil
    rw [List.length_mapIdx] at hlen
    cases hlen

/-- The deliveries of a run are calls of `postsig`. -/
theorem Run.postsig {ds : List Delivery} (h : Run cfg ds s) {d : Delivery} (hd : d ∈ ds) :
    d.before.postsig cfg d.sig = (d.stored, d.after) := by
  induction h with
  | fresh => cases hd
  | step e _ he ih =>
    rcases List.mem_append.mp hd with hd | hd
    · exact ih hd
    · cases e with
      | postsig sig =>
        dsimp only [Proc.step] at he
        split_ifs at he
        cases he
        rw [List.mem_singleton.mp hd]
      | _ =>
        cases he
        cases hd

theorem Run.steps {ds : List Delivery} (h : Run cfg ds s) {es : List Event} {r : List Delivery × Proc}
    (he : s.steps cfg es = some r) : Run cfg (ds ++ r.1) r.2 := by
  induction es generalizing ds s r with
  | nil =>
    cases he
    rwa [List.append_nil]
  | cons e es ih =>
    unfold Proc.steps at he
    cases hstep : s.step cfg e with
    | none =>
      rw [hstep] at he
      cases he
    | some x =>
      rw [hstep] at he
      obtain ⟨r', hr, rfl⟩ := Option.map_eq_some_iff.mp he
      rw [← List.append_assoc]
      exact ih (.step e h hstep) hr

end

/-- **A signal's context stays in the user's memory, or the process is killed, exactly when the context fits
    below the top of its stack.** In every run, of every delivery: no other check stands between what
    `sigaltstack`, `sigstack` and the stack pointer say and the memory of the kernel. -/
theorem sendsig_safe_iff {cfg : Conf} {ds : List Delivery} {s : Proc} (h : Run cfg ds s) :
    (∀ d ∈ ds, (d.Safe cfg ↔ d.before.Fits cfg d.sig)) ∧
      ((∀ d ∈ ds, d.Safe cfg) ↔ ∀ d ∈ ds, d.before.Fits cfg d.sig) := by
  have hone : ∀ d ∈ ds, (d.Safe cfg ↔ d.before.Fits cfg d.sig) := by
    intro d hd
    have hpost := h.postsig hd
    have hst : (d.before.postsig cfg d.sig).1 = d.stored := by rw [hpost]
    have haf : (d.before.postsig cfg d.sig).2 = d.after := by rw [hpost]
    unfold Delivery.Safe
    rw [← hst, ← haf]
    exact sendsig_safe _ _
  exact ⟨hone, ⟨fun hs d hd => (hone d hd).mp (hs d hd), fun hf d hd => (hone d hd).mpr (hf d hd)⟩⟩

/-- A program whose handler of `SIGUSR1` runs on its own stack. -/
theorem sendsig_safe_iff_user : ∃ ds s, Run Swap.pico ds s ∧ ds.length = 1 ∧ ∀ d ∈ ds, d.Safe Swap.pico := by
  have htops : (Proc.fresh.steps Swap.pico
      [.execve false 0 0x1000 0x800, .trap { Proc.fresh.u_frame with tf_sp := 0x20023c04 } 0,
        .sigaction 30 0x20000100 0 0x20000201 ⟨0x20000301, 0, 0⟩, .pending (sigmask 30) 0 0 false, .postsig 30]).map
      (fun r => r.1.map fun d => (d.before.p_large, d.before.top d.sig)) = some [(false, 0x20023c04)] := by
    decide +kernel
  obtain ⟨⟨ds, s⟩, hsteps, htops⟩ := Option.map_eq_some_iff.mp htops
  have hrun : Run Swap.pico ds s := Run.fresh.steps hsteps
  refine ⟨ds, s, hrun, ?_, (sendsig_safe_iff hrun).2.mpr fun d hd => .inl ?_⟩
  · simpa using congrArg List.length htops
  · have hmem := List.mem_map_of_mem (f := fun d : Delivery => (d.before.p_large, d.before.top d.sig)) hd
    rw [htops] at hmem
    obtain ⟨hl, ht⟩ := Prod.mk.inj (List.mem_singleton.mp hmem)
    rw [hl, ht]
    decide

/-- A program that has `SIGUSR1` taken on a signal stack in the kernel's memory. -/
theorem sendsig_reaches_kernel : ∃ ds s, Run Swap.pico ds s ∧ ∃ d ∈ ds, ¬ d.Safe Swap.pico := by
  have hfirst : (Proc.fresh.steps Swap.pico
      [.execve false 0 0x1000 0x800, .trap { Proc.fresh.u_frame with tf_sp := 0x20023c00 } 0,
        .sigaction 30 0x20000100 0 0x20000201 ⟨0x20000301, 0, saOnstack⟩,
        .sigaltstack 0x20000110 0 ⟨0x2003f000, 0x200, 0⟩, .pending (sigmask 30) 0 0 false, .postsig 30]).map
      (fun r => r.1.map fun d => (d.before.p_large, (d.stored.map Store.addr).head?)) =
        some [(false, some 0x2003f1b8)] := by
    decide +kernel
  obtain ⟨⟨ds, s⟩, hsteps, hfirst⟩ := Option.map_eq_some_iff.mp hfirst
  obtain ⟨d, hds, hd⟩ := List.map_eq_singleton_iff.mp hfirst
  obtain ⟨hl, hhead⟩ := Prod.mk.inj hd
  refine ⟨ds, s, Run.fresh.steps hsteps, d, by simp [show ds = [d] from hds], fun hsafe => ?_⟩
  obtain ⟨st, hst, haddr⟩ := List.mem_map.mp (List.mem_of_head? hhead)
  have hbyte := hsafe.1 st hst (st.addr + 0) (List.mem_map.mpr ⟨0, by decide, rfl⟩)
  rw [hl, haddr] at hbyte
  revert hbyte
  decide

end DiscoBSD.Signal
