import DiscoBSD.Signal.Bounds

/-!
# Data and stack stay apart

One lemma for each place that moves a boundary, and the run. **A stack that grows to a stack pointer between the
end of the data and the top ends there, and a stack pointer above the top puts it out of the window for good.**
-/

set_option autoImplicit false

namespace DiscoBSD.Signal

open DiscoBSD.Lib
open DiscoBSD.Exec (userTop userDataEnd)
open DiscoBSD.Swap (Conf maxmem)

section

variable {cfg : Conf} {s s' : Proc} {sig : ℕ} {x x' : Holder}

/-! ## The stack grows -/

/-- The window is in the lower half of all addresses. -/
theorem userTop_half (cfg : Conf) (large : Bool) : userTop cfg large < 2 ^ 31 := by
  have hpool := cfg.pool_le
  unfold Swap.sram at hpool
  unfold userTop userDataEnd
  split_ifs <;> omega

theorem toNat_top (cfg : Conf) (large : Bool) : (BitVec.ofNat 32 (userTop cfg large)).toNat = userTop cfg large := by
  have htop := userTop_le cfg large
  rw [BitVec.toNat_ofNat]
  exact Nat.mod_eq_of_lt (by omega)

/-- The end of the data, as `syscall` and `sendsig` compute it. -/
theorem toNat_dataEnd (h : s.Sized cfg) : (s.p_daddr + s.u_dsize).toNat = s.p_daddr.toNat + s.p_dsize.toNat := by
  have hapart := h.apart
  have hlt := s.p_saddr.isLt
  rw [h.data, BitVec.toNat_add]
  exact Nat.mod_eq_of_lt (by omega)

theorem trashed_iff (h : s.Sized cfg) (regs : Trapframe) :
    s.trashed regs = true ↔ regs.tf_sp.toNat < s.p_daddr.toNat + s.p_dsize.toNat := by
  unfold Proc.trashed
  rw [decide_eq_true_iff, BitVec.lt_def, toNat_dataEnd h]

theorem not_trashed_iff (h : s.Sized cfg) (regs : Trapframe) :
    s.trashed regs = false ↔ s.p_daddr.toNat + s.p_dsize.toNat ≤ regs.tf_sp.toNat := by
  rw [Bool.eq_false_iff, Ne, trashed_iff h, not_lt]

/-- The sizes and all that bounds them. -/
structure SameSizes (s s' : Proc) : Prop where
  p_large : s'.p_large = s.p_large
  p_daddr : s'.p_daddr = s.p_daddr
  p_dsize : s'.p_dsize = s.p_dsize
  p_saddr : s'.p_saddr = s.p_saddr
  p_ssize : s'.p_ssize = s.p_ssize
  u_dsize : s'.u_dsize = s.u_dsize
  u_ssize : s'.u_ssize = s.u_ssize

theorem SameSizes.sized (h : SameSizes s s') : s'.Sized cfg ↔ s.Sized cfg := by
  constructor
  · rintro ⟨htop, hapart, hbottom, hdata, hstack⟩
    rw [h.p_saddr, h.p_ssize, h.p_large] at htop
    rw [h.p_daddr, h.p_dsize, h.p_saddr] at hapart
    rw [h.p_daddr] at hbottom
    rw [h.u_dsize, h.p_dsize] at hdata
    rw [h.u_ssize, h.p_ssize] at hstack
    exact ⟨htop, hapart, hbottom, hdata, hstack⟩
  · rintro ⟨htop, hapart, hbottom, hdata, hstack⟩
    refine ⟨?_, ?_, ?_, ?_, ?_⟩
    · rwa [h.p_saddr, h.p_ssize, h.p_large]
    · rwa [h.p_daddr, h.p_dsize, h.p_saddr]
    · rwa [h.p_daddr]
    · rwa [h.u_dsize, h.p_dsize]
    · rwa [h.u_ssize, h.p_ssize]

theorem SameSizes.trans {s₁ : Proc} (h : SameSizes s s₁) (h' : SameSizes s₁ s') : SameSizes s s' :=
  ⟨h'.p_large.trans h.p_large, h'.p_daddr.trans h.p_daddr, h'.p_dsize.trans h.p_dsize, h'.p_saddr.trans h.p_saddr,
    h'.p_ssize.trans h.p_ssize, h'.u_dsize.trans h.u_dsize, h'.u_ssize.trans h.u_ssize⟩

/-- The boundary of the stack has come down, or is where it was. -/
structure Grown (cfg : Conf) (s : Proc) (sfp : Word) (s' : Proc) : Prop where
  sized : s'.Sized cfg
  p_large : s'.p_large = s.p_large
  p_daddr : s'.p_daddr = s.p_daddr
  p_dsize : s'.p_dsize = s.p_dsize
  reaches : s'.p_saddr.toNat ≤ sfp.toNat
  lower : s'.p_saddr.toNat ≤ s.p_saddr.toNat
  least : s'.p_saddr = s.p_saddr ∨ s'.p_saddr = sfp

/-- The stack grows to a stack pointer between the end of the data and the top. -/
theorem growStack_sized (h : s.Sized cfg) {sfp : Word} (hlow : s.p_daddr.toNat + s.p_dsize.toNat ≤ sfp.toNat)
    (hhigh : sfp.toNat ≤ userTop cfg s.p_large) : Grown cfg s sfp (s.growStack cfg sfp) := by
  have htop := h.top
  have hsize : (BitVec.ofNat 32 (userTop cfg s.p_large) - sfp).toNat = userTop cfg s.p_large - sfp.toNat := by
    rw [BitVec.toNat_sub_of_le (by rwa [BitVec.le_def, toNat_top]), toNat_top]
  unfold Proc.growStack
  dsimp only
  by_cases hgrow : s.p_ssize < BitVec.ofNat 32 (userTop cfg s.p_large) - sfp
  · rw [if_pos hgrow]
    rw [BitVec.lt_def, hsize] at hgrow
    refine ⟨⟨?_, hlow, h.bottom, h.data, rfl⟩, rfl, rfl, rfl, le_rfl, ?_, .inr rfl⟩
    · dsimp only
      rw [hsize]
      omega
    · dsimp only
      omega
  · rw [if_neg hgrow]
    rw [BitVec.lt_def, hsize] at hgrow
    exact ⟨h, rfl, rfl, rfl, by omega, le_rfl, .inl rfl⟩

theorem growStack_large (cfg : Conf) (s : Proc) (sfp : Word) : (s.growStack cfg sfp).p_large = s.p_large := by
  unfold Proc.growStack
  dsimp only
  split_ifs <;> rfl

/-- A stack pointer above the top wraps, and the stack is out of the window. -/
theorem growStack_over (h : s.Sized cfg) {sfp : Word} (hover : userTop cfg s.p_large < sfp.toNat) :
    (s.growStack cfg sfp).p_saddr.toNat + (s.growStack cfg sfp).p_ssize.toNat ≠ userTop cfg s.p_large := by
  have htop := h.top
  have hlt := sfp.isLt
  have hbound := userTop_le cfg s.p_large
  have hsize : (BitVec.ofNat 32 (userTop cfg s.p_large) - sfp).toNat = 2 ^ 32 + userTop cfg s.p_large - sfp.toNat := by
    rw [BitVec.toNat_sub, toNat_top]
    omega
  have hgrow : s.p_ssize < BitVec.ofNat 32 (userTop cfg s.p_large) - sfp := by
    rw [BitVec.lt_def, hsize]
    omega
  unfold Proc.growStack
  dsimp only
  rw [if_pos hgrow]
  dsimp only
  rw [hsize]
  omega

/-! ## Traps and calls -/

theorem entered_same (s : Proc) (regs : Trapframe) : SameSizes s (s.entered regs) := ⟨rfl, rfl, rfl, rfl, rfl, rfl, rfl⟩

theorem result_same (s : Proc) (r0 : Word) : SameSizes s (s.result r0) := by
  unfold Proc.result
  cases s.u_error <;> exact ⟨rfl, rfl, rfl, rfl, rfl, rfl, rfl⟩

theorem result_sp (s : Proc) (r0 : Word) : (s.result r0).u_frame.tf_sp = s.u_frame.tf_sp := by
  unfold Proc.result
  cases s.u_error <;> rfl

/-- What a call may do to the sizes: the end of the data moves, not past the stack. -/
structure Moved (cfg : Conf) (s s' : Proc) : Prop where
  sized : s.Sized cfg → s.p_daddr = userDataStart → s'.Sized cfg
  p_large : s'.p_large = s.p_large
  p_daddr : s'.p_daddr = s.p_daddr
  p_saddr : s'.p_saddr = s.p_saddr
  p_ssize : s'.p_ssize = s.p_ssize

theorem SameSizes.moved (h : SameSizes s s') : Moved cfg s s' :=
  ⟨fun hs _ => h.sized.mpr hs, h.p_large, h.p_daddr, h.p_saddr, h.p_ssize⟩

/-- The size that `brk` asks for is at most half of all addresses. -/
theorem newsize_lt (x : Word) : (if x.slt 0 then 0 else x).toNat < 2 ^ 31 := by
  by_cases hneg : x.slt 0 = true
  · rw [if_pos hneg]
    decide
  · rw [if_neg hneg]
    have hpos : ¬ x.toInt < 0 := by
      intro h
      exact hneg (by rwa [BitVec.slt_eq_decide, decide_eq_true_iff])
    rw [BitVec.toInt_eq_toNat_cond] at hpos
    have hlt := x.isLt
    split_ifs at hpos <;> omega

theorem brk_moved (cfg : Conf) (s : Proc) (naddr : Word) : Moved cfg s (s.brk cfg naddr) := by
  obtain ⟨newsize, hnew⟩ : ∃ newsize, newsize = if (naddr - s.p_daddr).slt 0 then 0 else naddr - s.p_daddr := ⟨_, rfl⟩
  have hsmall : newsize.toNat < 2 ^ 31 := by
    rw [hnew]
    exact newsize_lt _
  unfold Proc.brk
  dsimp only
  rw [← hnew]
  have hleave : Moved cfg s { s with u_error := .enomem } := by
    apply SameSizes.moved
    exact ⟨rfl, rfl, rfl, rfl, rfl, rfl, rfl⟩
  by_cases hceiling : BitVec.ofNat 32 (maxmem + if s.p_large then cfg.pool else 0) < s.u_tsize + newsize + s.u_ssize
  · rw [if_pos hceiling]
    exact hleave
  rw [if_neg hceiling]
  by_cases hreach : s.p_saddr < s.p_daddr + newsize
  · rw [if_pos hreach]
    exact hleave
  · rw [if_neg hreach]
    refine ⟨fun h hstart => ⟨h.top, ?_, h.bottom, rfl, h.stack⟩, rfl, rfl, rfl, rfl⟩
    have hbottom : userDataStart.toNat = 0x20000000 := rfl
    rw [BitVec.lt_def, BitVec.toNat_add, hstart, hbottom, Nat.mod_eq_of_lt (by omega)] at hreach
    dsimp only
    rw [hstart, hbottom]
    omega

theorem putOldmask_sizes (oset : Word) : SameSizes s (s.putOldmask cfg oset) := by
  unfold Proc.putOldmask
  split_ifs <;> exact ⟨rfl, rfl, rfl, rfl, rfl, rfl, rfl⟩

theorem setsigvec_sizes (signum : ℕ) (sa : Sigaction) : SameSizes s (s.setsigvec signum sa) := by
  unfold Proc.setsigvec
  dsimp only
  split_ifs <;> exact ⟨rfl, rfl, rfl, rfl, rfl, rfl, rfl⟩

theorem sleeps_sizes (args : PselectArgs) : SameSizes s ((s.holdMask args).restoreMask args) := by
  unfold Proc.restoreMask Proc.holdMask
  split_ifs <;> exact ⟨rfl, rfl, rfl, rfl, rfl, rfl, rfl⟩

theorem selRounds_sizes (args : PselectArgs) {rounds : List Round} {error : Errno}
    (h : s.selRounds args rounds = some (s', error)) : SameSizes s s' := by
  induction rounds generalizing s with
  | nil => cases h
  | cons round rounds ih =>
    cases round with
    | scanned => cases h; exact ⟨rfl, rfl, rfl, rfl, rfl, rfl, rfl⟩
    | expired => cases h; exact ⟨rfl, rfl, rfl, rfl, rfl, rfl, rfl⟩
    | again => exact ih h
    | slept wakeup =>
      have hsame := sleeps_sizes (s := s) args
      cases wakeup with
      | woken => exact hsame.trans (ih h)
      | timeout => cases h; exact hsame
      | signal => cases h; exact hsame

theorem call_moved {c : Call} (h : s.call cfg c = some s') : Moved cfg s s' := by
  cases c with
  | sigprocmask how set oset newmask =>
    cases h
    unfold Proc.sigprocmask
    apply SameSizes.moved
    have hset : ∀ mask, SameSizes s ({ s with p_sigmask := mask }.putOldmask cfg oset) := by
      intro mask
      refine SameSizes.trans ?_ (putOldmask_sizes oset)
      exact ⟨rfl, rfl, rfl, rfl, rfl, rfl, rfl⟩
    split_ifs <;> first | exact ⟨rfl, rfl, rfl, rfl, rfl, rfl, rfl⟩ | exact putOldmask_sizes _ | exact hset _
  | sigsuspend =>
    cases h
    apply SameSizes.moved
    exact ⟨rfl, rfl, rfl, rfl, rfl, rfl, rfl⟩
  | pselect args rounds stored =>
    apply SameSizes.moved
    change s.select1 cfg args rounds stored = some s' at h
    unfold Proc.select1 at h
    split_ifs at h
    · cases h; exact ⟨rfl, rfl, rfl, rfl, rfl, rfl, rfl⟩
    · cases h; exact ⟨rfl, rfl, rfl, rfl, rfl, rfl, rfl⟩
    · obtain ⟨⟨s₁, error⟩, hs₁, heq⟩ := Option.map_eq_some_iff.mp h
      have hsame := selRounds_sizes _ hs₁
      dsimp only at heq
      rw [← heq]
      split_ifs <;> exact hsame.trans ⟨rfl, rfl, rfl, rfl, rfl, rfl, rfl⟩
  | sigaction signum nsa osa sigtramp sa =>
    cases h
    unfold Proc.sigaction
    dsimp only
    apply SameSizes.moved
    have hset : SameSizes s ({ s with u_sigtramp := sigtramp }.setsigvec signum.toNat sa) := by
      refine SameSizes.trans ?_ (setsigvec_sizes _ _)
      exact ⟨rfl, rfl, rfl, rfl, rfl, rfl, rfl⟩
    split_ifs <;> first | exact ⟨rfl, rfl, rfl, rfl, rfl, rfl, rfl⟩ | exact hset.trans ⟨rfl, rfl, rfl, rfl, rfl, rfl, rfl⟩
  | sigaltstack nss oss ss =>
    cases h
    unfold Proc.sigaltstack
    dsimp only
    apply SameSizes.moved
    split_ifs <;> exact ⟨rfl, rfl, rfl, rfl, rfl, rfl, rfl⟩
  | sigstack nss oss ss =>
    cases h
    unfold Proc.sigstack
    apply SameSizes.moved
    split_ifs <;> exact ⟨rfl, rfl, rfl, rfl, rfl, rfl, rfl⟩
  | brk naddr =>
    cases h
    exact brk_moved cfg s naddr
  | other error =>
    cases h
    apply SameSizes.moved
    exact ⟨rfl, rfl, rfl, rfl, rfl, rfl, rfl⟩

/-- What a trap finds and what the stack is then. -/
theorem trapped_grown (h : s.Sized cfg) {regs : Trapframe} (htr : s.trashed regs = false)
    (hhigh : regs.tf_sp.toNat ≤ userTop cfg s.p_large) : Grown cfg s regs.tf_sp (s.trapped cfg regs) := by
  have hlow := (not_trashed_iff h regs).mp htr
  have hsized : (s.entered regs).Sized cfg := (entered_same s regs).sized.mpr h
  obtain ⟨hsz, hlarge, hdaddr, hdsize, hreach, hlower, hleast⟩ := growStack_sized hsized hlow hhigh
  exact ⟨hsz, hlarge, hdaddr, hdsize, hreach, hlower, hleast⟩

theorem trapped_over (h : s.Sized cfg) {regs : Trapframe} (hover : userTop cfg s.p_large < regs.tf_sp.toNat) :
    (s.trapped cfg regs).p_saddr.toNat + (s.trapped cfg regs).p_ssize.toNat ≠ userTop cfg s.p_large :=
  growStack_over ((entered_same s regs).sized.mpr h) hover

/-! ## Steps -/

/-- A parent can go on with the sizes that the holder of its memory has. -/
structure Lent (cfg : Conf) (s parent : Proc) : Prop where
  p_large : parent.p_large = s.p_large
  sp : parent.onSigstack = false →
    s.p_saddr.toNat ≤ parent.u_frame.tf_sp.toNat ∧ parent.u_frame.tf_sp.toNat ≤ userTop cfg s.p_large

/-- What holds between the steps. -/
structure Holder.Kept (cfg : Conf) (x : Holder) : Prop where
  bounded : x.Bounded cfg
  daddr : x.proc.p_daddr = userDataStart
  lent : ∀ parent ∈ x.lent, Lent cfg x.proc parent

theorem Lent.lower {parent : Proc} (h : Lent cfg s parent) (hlarge : s'.p_large = s.p_large)
    (hlower : s'.p_saddr.toNat ≤ s.p_saddr.toNat) : Lent cfg s' parent := by
  refine ⟨h.p_large.trans hlarge.symm, fun hoff => ?_⟩
  obtain ⟨hlow, hhigh⟩ := h.sp hoff
  rw [hlarge]
  exact ⟨hlower.trans hlow, hhigh⟩

/-- A trap for which no call is made. -/
theorem Holder.Kept.entered (h : x.Kept cfg) {regs : Trapframe} (htr : x.proc.trashed regs = true) :
    Holder.Kept cfg { x with proc := x.proc.entered regs, kernel := true } := by
  refine ⟨⟨(entered_same x.proc regs).sized.mpr h.bounded.sized, nofun, fun _ hnot => ?_⟩, h.daddr, fun parent hp => ?_⟩
  · cases htr.symm.trans hnot
  · exact (h.lent parent hp).lower rfl le_rfl

/-- A trap, and a call that leaves the stack where the trap has put it. -/
theorem Holder.Kept.trapped (h : x.Kept cfg) {regs : Trapframe} (htr : x.proc.trashed regs = false)
    (hhigh : regs.tf_sp.toNat ≤ userTop cfg x.proc.p_large) (hmoved : Moved cfg (x.proc.trapped cfg regs) s)
    (hin : s.onSigstack = false → s.trashed s.u_frame = false → s.InStack cfg) :
    Holder.Kept cfg { x with proc := s, kernel := true } := by
  have hgrown := trapped_grown h.bounded.sized htr hhigh
  have hdaddr := hgrown.p_daddr.trans h.daddr
  refine ⟨⟨hmoved.sized hgrown.sized hdaddr, nofun, hin⟩, hmoved.p_daddr.trans hdaddr, fun parent hp => ?_⟩
  refine (h.lent parent hp).lower (hmoved.p_large.trans hgrown.p_large) ?_
  dsimp only
  rw [hmoved.p_saddr]
  exact hgrown.lower

/-- The stack pointer of the trap is in the stack. -/
theorem inStack_of_trap (h : s.Sized cfg) {regs : Trapframe} (htr : s.trashed regs = false)
    (hhigh : regs.tf_sp.toNat ≤ userTop cfg s.p_large) (hmoved : Moved cfg (s.trapped cfg regs) s')
    (hsp : s'.u_frame.tf_sp = regs.tf_sp) : s'.InStack cfg := by
  have hgrown := trapped_grown h htr hhigh
  unfold Proc.InStack
  rw [hsp, hmoved.p_saddr, hmoved.p_large, hgrown.p_large]
  exact ⟨hgrown.reaches, hhigh⟩

/-- A stack pointer above the top stays with the sizes. -/
theorem high_of_sized (h : s.Sized cfg) {regs : Trapframe} (hmoved : Moved cfg (s.trapped cfg regs) s')
    (h' : s'.Sized cfg) : regs.tf_sp.toNat ≤ userTop cfg s.p_large := by
  by_contra hover
  have htop := h'.top
  have hlarge : (s.trapped cfg regs).p_large = s.p_large := (trapped_sizes cfg s regs).1
  rw [hmoved.p_saddr, hmoved.p_ssize, hmoved.p_large, hlarge] at htop
  exact trapped_over h (not_le.mp hover) htop

theorem high_of_trashed (h : s.Sized cfg) {regs : Trapframe} (htr : s.trashed regs = true) :
    regs.tf_sp.toNat ≤ userTop cfg s.p_large := by
  have hlow := (trashed_iff h regs).mp htr
  have hapart := h.apart
  have htop := h.top
  omega

theorem Holder.Kept.call (h : x.Kept cfg) {regs : Trapframe} {c : Call} {r0 : Word}
    (hs : x.step cfg (.call regs c r0) = some x') :
    (x'.Bounded cfg → x.SafeTurn (.call regs c r0 : Turn cfg)) ∧
      (x.SafeTurn (.call regs c r0 : Turn cfg) → x'.Kept cfg) := by
  dsimp only [Holder.step] at hs
  split_ifs at hs with hgo htr
  · cases hs
    exact ⟨fun _ => high_of_trashed h.bounded.sized htr, fun _ => h.entered htr⟩
  · obtain ⟨s, hcall, rfl⟩ := Option.map_eq_some_iff.mp hs
    have htr := Bool.eq_false_iff.mpr htr
    have hcalled := call_moved hcall
    have hmoved : Moved cfg (x.proc.trapped cfg regs) (s.result r0) := by
      have hres := result_same s r0
      refine ⟨fun hsized hstart => hres.sized.mpr (hcalled.sized hsized hstart), hres.p_large.trans hcalled.p_large,
        hres.p_daddr.trans hcalled.p_daddr, hres.p_saddr.trans hcalled.p_saddr, hres.p_ssize.trans hcalled.p_ssize⟩
    have hsp : (s.result r0).u_frame.tf_sp = regs.tf_sp := by
      rw [result_sp, call_u_frame hcall, trapped_u_frame]
    constructor
    · intro hbounded
      exact high_of_sized h.bounded.sized hmoved hbounded.sized
    · intro hhigh
      exact h.trapped htr hhigh hmoved fun _ _ => inStack_of_trap h.bounded.sized htr hhigh hmoved hsp

/-- `sigreturn` takes the context when all its checks are met, and otherwise leaves all but the error. -/
theorem sigreturn_takes {regs : Trapframe} (context : Sigcontext) (hregs : s.u_frame = regs) :
    (s.takes cfg regs context ∧ s.sigreturn cfg context = s.taken context) ∨
      (¬ s.takes cfg regs context ∧ ∃ error, s.sigreturn cfg context = { s with u_error := error }) := by
  unfold Proc.takes Proc.sigreturn
  rw [hregs]
  by_cases hwrap : ~~~0#32 - 32 < regs.tf_sp
  · rw [if_pos hwrap]
    exact .inr ⟨fun h => h.1 hwrap, _, rfl⟩
  rw [if_neg hwrap]
  cases hspan : baduaddrSpan cfg s.p_large (regs.tf_sp + 32) 72 with
  | true => exact .inr ⟨fun h => Bool.noConfusion h.2.1, _, rfl⟩
  | false =>
    cases hvalid : sigreturnContextValid cfg s.p_large context with
    | false => exact .inr ⟨fun h => Bool.noConfusion h.2.2, _, rfl⟩
    | true => exact .inl ⟨⟨hwrap, rfl, rfl⟩, rfl⟩

theorem taken_onSigstack (s : Proc) (context : Sigcontext) :
    (s.taken context).onSigstack = has context.sc_onstack saOnstack := by
  unfold Proc.onSigstack Proc.taken
  dsimp only
  cases has context.sc_onstack saOnstack with
  | true => exact has_or _ _ (by decide)
  | false => exact has_andNot _ _

/-- The stack pointer of a context that is taken is not above the top. -/
theorem high_of_valid {large : Bool} {context : Sigcontext} (h : sigreturnContextValid cfg large context = true) :
    context.regs.tf_sp.toNat ≤ userTop cfg large := by
  obtain ⟨-, -, hhigh⟩ := (sigreturnContextValid_iff large (fromUser_of_valid h)).mp h
  omega

theorem Holder.Kept.sigreturn (h : x.Kept cfg) {regs : Trapframe} {context : Sigcontext} {r0 : Word}
    (hs : x.step cfg (.sigreturn regs context r0) = some x') :
    (x'.Bounded cfg → x.SafeTurn (.sigreturn regs context r0 : Turn cfg)) ∧
      (x.SafeTurn (.sigreturn regs context r0 : Turn cfg) → x'.Kept cfg) := by
  dsimp only [Holder.step] at hs
  split_ifs at hs with hgo htr
  · cases hs
    refine ⟨fun _ => ⟨high_of_trashed h.bounded.sized htr, fun hnot => ?_⟩, fun _ => h.entered htr⟩
    cases htr.symm.trans hnot
  cases hs
  have htr := Bool.eq_false_iff.mpr htr
  have hsized := h.bounded.sized
  have hregs := trapped_u_frame cfg x.proc regs
  obtain ⟨hlarge, hdaddr, hdsize⟩ := trapped_sizes cfg x.proc regs
  have htakes : (x.proc.trapped cfg regs).takes cfg regs context ↔ x.proc.takes cfg regs context := by
    unfold Proc.takes
    rw [hlarge]
  rcases sigreturn_takes context hregs with ⟨htake, heq⟩ | ⟨hnot, error, heq⟩
  · -- The registers are those of the context, and a result changes none of them.
    rw [heq, result_ejustreturn rfl]
    have hmoved : Moved cfg (x.proc.trapped cfg regs) ((x.proc.trapped cfg regs).taken context) := by
      apply SameSizes.moved
      exact ⟨rfl, rfl, rfl, rfl, rfl, rfl, rfl⟩
    have hflag := taken_onSigstack (x.proc.trapped cfg regs) context
    have htrashed : ((x.proc.trapped cfg regs).taken context).trashed context.regs = x.proc.trashed context.regs := by
      unfold Proc.trashed Proc.taken
      rw [hdaddr, hdsize]
    have hvalid := htake.2.2
    rw [hlarge] at hvalid
    constructor
    · intro hbounded
      have hhigh := high_of_sized hsized hmoved hbounded.sized
      refine ⟨hhigh, fun _ _ hoff hclear => ?_⟩
      have hgrown := trapped_grown hsized htr hhigh
      obtain ⟨hlow, -⟩ := hbounded.kernel (hflag.trans hoff) (htrashed.trans hclear)
      have hlow : (x.proc.trapped cfg regs).p_saddr ≤ context.regs.tf_sp := BitVec.le_def.mpr hlow
      rcases hgrown.least with hsame | hsp
      · exact .inl (by rwa [hsame] at hlow)
      · exact .inr (by rwa [hsp] at hlow)
    · rintro ⟨hhigh, hsafe⟩
      refine h.trapped htr hhigh hmoved fun hoff hclear => ?_
      have hgrown := trapped_grown hsized htr hhigh
      rw [hflag] at hoff
      have hclear := htrashed.symm.trans hclear
      refine ⟨?_, ?_⟩
      · have hreach : (x.proc.trapped cfg regs).p_saddr.toNat ≤ context.regs.tf_sp.toNat := by
          rcases hsafe htr (htakes.mp htake) hoff hclear with hle | hle
          · exact hgrown.lower.trans (BitVec.le_def.mp hle)
          · exact hgrown.reaches.trans (BitVec.le_def.mp hle)
        exact hreach
      · have hle := high_of_valid hvalid
        rw [← hlarge] at hle
        exact hle
  · rw [heq]
    have hmoved : Moved cfg (x.proc.trapped cfg regs)
        (({ x.proc.trapped cfg regs with u_error := error } : Proc).result r0) := by
      apply SameSizes.moved
      refine SameSizes.trans ?_ (result_same _ r0)
      exact ⟨rfl, rfl, rfl, rfl, rfl, rfl, rfl⟩
    have hsp : (({ x.proc.trapped cfg regs with u_error := error } : Proc).result r0).u_frame.tf_sp = regs.tf_sp := by
      rw [result_sp]
      exact congrArg Trapframe.tf_sp hregs
    constructor
    · intro hbounded
      exact ⟨high_of_sized hsized hmoved hbounded.sized, fun _ htake => absurd (htakes.mpr htake) hnot⟩
    · rintro ⟨hhigh, -⟩
      exact h.trapped htr hhigh hmoved fun _ _ => inStack_of_trap hsized htr hhigh hmoved hsp

/-! ## Deliveries -/

theorem toNat_sfp (y : Word) : ((y &&& ~~~7#32) - sigframeSize).toNat =
    if 104 ≤ y.toNat / 8 * 8 then y.toNat / 8 * 8 - 104 else 2 ^ 32 - 104 + y.toNat / 8 * 8 := by
  have hframe : sigframeSize.toNat = 104 := rfl
  have hlt := y.isLt
  rw [BitVec.toNat_sub, toNat_roundDown, hframe]
  split_ifs <;> omega

theorem posting_same (s : Proc) (sig : ℕ) : SameSizes s (s.posting sig) := ⟨rfl, rfl, rfl, rfl, rfl, rfl, rfl⟩

theorem switched_same (s : Proc) (sig : ℕ) : SameSizes s (s.switched sig) := by
  unfold Proc.switched
  split_ifs <;> exact ⟨rfl, rfl, rfl, rfl, rfl, rfl, rfl⟩

/-- On the signal stack a delivery moves no boundary. -/
theorem postsig_onstack (h : s.onstack sig = true) :
    SameSizes s (s.postsig cfg sig).2 ∧ (s.postsig cfg sig).2.onSigstack = true := by
  have hfits : (s.posting sig).fits sig := fun hk => Bool.noConfusion (h.symm.trans hk.1)
  have hon : (s.posting sig).onstack sig = true := h
  rw [postsig_eq, sendsig_fits hfits, hon, if_pos rfl]
  constructor
  · refine ((posting_same s sig).trans (switched_same _ sig)).trans ?_
    exact ⟨rfl, rfl, rfl, rfl, rfl, rfl, rfl⟩
  · exact (has_onstack (s.posting sig) sig).trans hon

/-- Off the signal stack it grows the stack to the frame. -/
theorem postsig_grows (hoff : s.onstack sig = false) (hfits : s.fits sig) :
    SameSizes ((s.posting sig).growStack cfg (s.handler sig).sfp) (s.postsig cfg sig).2 ∧
      (s.postsig cfg sig).2.u_frame.tf_sp = (s.handler sig).sfp := by
  have hoff' : (s.posting sig).onstack sig = false := hoff
  rw [postsig_eq, sendsig_fits (posting_fits.mpr hfits), hoff', if_neg Bool.false_ne_true, posting_sfp]
  exact ⟨⟨rfl, rfl, rfl, rfl, rfl, rfl, rfl⟩, rfl⟩

/-- And if there is no room, it leaves all that counts here. -/
theorem postsig_killed (hfits : ¬ s.fits sig) :
    SameSizes s (s.postsig cfg sig).2 ∧ (s.postsig cfg sig).2.u_frame = s.u_frame ∧
      (s.postsig cfg sig).2.onSigstack = s.onSigstack := by
  rw [postsig_eq, sendsig_not_fits (mt posting_fits.mp hfits)]
  exact ⟨⟨rfl, rfl, rfl, rfl, rfl, rfl, rfl⟩, rfl, rfl⟩

theorem top_of_off (hoff : s.onstack sig = false) : s.top sig = s.u_frame.tf_sp := by
  unfold Proc.onstack at hoff
  unfold Proc.top
  rw [((Bool.or_eq_false_iff).mp hoff).1]
  rfl

theorem onSigstack_of_off (hoff : s.onstack sig = false) : s.onSigstack = false :=
  ((Bool.or_eq_false_iff).mp hoff).2

/-- The same process as far as the stack goes. -/
theorem Holder.Kept.same (h : x.Kept cfg) (hsame : SameSizes x.proc s) (hframe : s.u_frame = x.proc.u_frame)
    (hsig : s.onSigstack = x.proc.onSigstack) : Holder.Kept cfg { x with proc := s } := by
  have htrashed : s.trashed s.u_frame = x.proc.trashed x.proc.u_frame := by
    unfold Proc.trashed
    rw [hframe, hsame.p_daddr, hsame.u_dsize]
  have hin : x.proc.InStack cfg → s.InStack cfg := by
    intro hin
    unfold Proc.InStack
    rwa [hframe, hsame.p_saddr, hsame.p_large]
  refine ⟨⟨hsame.sized.mpr h.bounded.sized, fun hk hoff => ?_, fun hoff hclear => ?_⟩, ?_, fun parent hp => ?_⟩
  · exact hin (h.bounded.user hk (hsig.symm.trans hoff))
  · exact hin (h.bounded.kernel (hsig.symm.trans hoff) (htrashed.symm.trans hclear))
  · exact hsame.p_daddr.trans h.daddr
  · refine (h.lent parent hp).lower hsame.p_large ?_
    dsimp only
    rw [hsame.p_saddr]

theorem Holder.Kept.postsig (h : x.Kept cfg) (hs : x.step cfg (.postsig sig) = some x') :
    (x'.Bounded cfg → x.SafeTurn (.postsig sig : Turn cfg)) ∧ (x.SafeTurn (.postsig sig : Turn cfg) → x'.Kept cfg) := by
  dsimp only [Holder.step] at hs
  split_ifs at hs with hgo
  cases hs
  have hsized := h.bounded.sized
  have hkernel := hgo.1
  cases hoff : x.proc.onstack sig with
  | true =>
    obtain ⟨hsame, hon⟩ := @postsig_onstack cfg _ _ hoff
    refine ⟨fun _ hno => Bool.noConfusion (hoff.symm.trans hno), fun _ => ?_⟩
    refine ⟨⟨hsame.sized.mpr hsized, fun hk => ?_, fun hno => ?_⟩, hsame.p_daddr.trans h.daddr, fun parent hp => ?_⟩
    · cases hkernel.symm.trans hk
    · cases hon.symm.trans hno
    · refine (h.lent parent hp).lower hsame.p_large ?_
      dsimp only
      rw [hsame.p_saddr]
  | false =>
    have htop := top_of_off hoff
    have hnat : (x.proc.handler sig).sfp.toNat = _ := toNat_sfp (x.proc.top sig)
    rw [htop] at hnat
    by_cases hfits : x.proc.fits sig
    case neg =>
      -- A frame that wraps does not end below the data.
      obtain ⟨hsame, hframe, hsig⟩ := @postsig_killed cfg _ _ hfits
      refine ⟨fun _ _ => ?_, fun _ => h.same hsame hframe hsig⟩
      have hlow : (x.proc.handler sig).sfp < x.proc.p_daddr + x.proc.u_dsize := (not_not.mp hfits).2
      rw [BitVec.lt_def, toNat_dataEnd hsized, hnat] at hlow
      by_contra hwrap
      rw [if_neg hwrap] at hlow
      have hapart := hsized.apart
      have hsum := hsized.top
      have hbound := userTop_half cfg x.proc.p_large
      omega
    obtain ⟨hsame, hsp⟩ := @postsig_grows cfg _ _ hoff hfits
    have hposted : (x.proc.posting sig).Sized cfg := (posting_same x.proc sig).sized.mpr hsized
    constructor
    · intro hbounded _
      by_contra hwrap
      rw [if_neg hwrap] at hnat
      have hbound := userTop_half cfg x.proc.p_large
      have hover : userTop cfg (x.proc.posting sig).p_large < (x.proc.handler sig).sfp.toNat := by
        change userTop cfg x.proc.p_large < _
        omega
      refine growStack_over hposted hover ?_
      have hgrown := (hsame.sized.mp hbounded.sized).top
      rw [hgrown]
      exact congrArg _ (growStack_large cfg _ _)
    · intro hroom
      have hroom : 104 ≤ x.proc.u_frame.tf_sp.toNat / 8 * 8 := hroom hoff
      rw [if_pos hroom] at hnat
      have hlow : x.proc.p_daddr.toNat + x.proc.p_dsize.toNat ≤ (x.proc.handler sig).sfp.toNat := by
        have hnot : ¬ (x.proc.handler sig).sfp < x.proc.p_daddr + x.proc.u_dsize := fun hlt => hfits ⟨hoff, hlt⟩
        rwa [BitVec.lt_def, toNat_dataEnd hsized, not_lt] at hnot
      have hclear : x.proc.trashed x.proc.u_frame = false := by
        rw [not_trashed_iff hsized]
        omega
      have hin := h.bounded.kernel (onSigstack_of_off hoff) hclear
      have hhigh : (x.proc.handler sig).sfp.toNat ≤ userTop cfg x.proc.p_large := by
        have := hin.2
        omega
      have hgrown := growStack_sized hposted hlow hhigh
      refine ⟨⟨hsame.sized.mpr hgrown.sized, fun hk => ?_, fun _ _ => ⟨?_, ?_⟩⟩, ?_, fun parent hp => ?_⟩
      · cases hkernel.symm.trans hk
      · dsimp only
        rw [hsp, hsame.p_saddr]
        exact hgrown.reaches
      · dsimp only
        rw [hsp, hsame.p_large, hgrown.p_large]
        exact hhigh
      · exact (hsame.p_daddr.trans hgrown.p_daddr).trans h.daddr
      · refine (h.lent parent hp).lower (hsame.p_large.trans hgrown.p_large) ?_
        dsimp only
        rw [hsame.p_saddr]
        exact hgrown.lower

/-! ## Runs -/

/-- An image that fits is laid out. -/
theorem exec_kept (s : Proc) (l : Layout cfg) : (Holder.start s l).Kept cfg := by
  have hfits := l.fits
  have hhalf := userTop_half cfg l.large
  have htop : userTop cfg l.large = 0x20000000 + maxmem + if l.large then cfg.pool else 0 := rfl
  have hstart : userDataStart.toNat = 0x20000000 := rfl
  have hsize : l.ssize.toNat ≤ userTop cfg l.large := by omega
  have hsaddr : (BitVec.ofNat 32 (userTop cfg l.large) - l.ssize).toNat = userTop cfg l.large - l.ssize.toNat := by
    rw [BitVec.toNat_sub_of_le (by rwa [BitVec.le_def, toNat_top]), toNat_top]
  have hkernel : (Holder.start s l).kernel ≠ false := Bool.false_ne_true.symm
  refine ⟨⟨⟨?_, ?_, le_rfl, rfl, rfl⟩, fun h => absurd h hkernel, fun _ _ => ⟨?_, l.sp.2⟩⟩, rfl,
    fun parent h => absurd h List.not_mem_nil⟩
  · change (BitVec.ofNat 32 (userTop cfg l.large) - l.ssize).toNat + l.ssize.toNat = userTop cfg l.large
    omega
  · change userDataStart.toNat + l.dsize.toNat ≤ (BitVec.ofNat 32 (userTop cfg l.large) - l.ssize).toNat
    omega
  · change (BitVec.ofNat 32 (userTop cfg l.large) - l.ssize).toNat ≤ l.frame.tf_sp.toNat
    have := l.sp.1
    omega

theorem swapped_same (h : s.Sized cfg) (hstart : s.p_daddr = userDataStart) : SameSizes s (s.swapped cfg) := by
  refine ⟨rfl, hstart.symm, rfl, ?_, rfl, rfl, rfl⟩
  apply BitVec.eq_of_toNat_eq
  have htop := h.top
  change (BitVec.ofNat 32 (userTop cfg s.p_large) - s.p_ssize).toNat = s.p_saddr.toNat
  rw [BitVec.toNat_sub_of_le (by rw [BitVec.le_def, toNat_top]; omega), toNat_top]
  omega

/-- A parent goes on with what its child has left. -/
theorem Holder.Kept.takeBack {parent : Proc} {lent : List Proc} (h : Holder.Kept cfg ⟨s, true, parent :: lent⟩) :
    Holder.Kept cfg ⟨parent.takeBack s, true, lent⟩ := by
  have hsized := h.bounded.sized
  obtain ⟨hlarge, hsp⟩ := h.lent parent List.mem_cons_self
  refine ⟨⟨⟨?_, hsized.apart, hsized.bottom, rfl, rfl⟩, nofun, fun hoff _ => ?_⟩, h.daddr, fun q hq => ?_⟩
  · change s.p_saddr.toNat + s.p_ssize.toNat = userTop cfg parent.p_large
    rw [hlarge]
    exact hsized.top
  · change s.p_saddr.toNat ≤ parent.u_frame.tf_sp.toNat ∧ parent.u_frame.tf_sp.toNat ≤ userTop cfg parent.p_large
    rw [hlarge]
    exact hsp hoff
  · exact (h.lent q (List.mem_cons_of_mem _ hq)).lower hlarge le_rfl

/-- One step. -/
theorem Holder.Kept.step (h : x.Kept cfg) {turn : Turn cfg} (hs : x.step cfg turn = some x') :
    (x'.Bounded cfg → x.SafeTurn turn) ∧ (x.SafeTurn turn → x'.Kept cfg) := by
  cases turn with
  | call regs c r0 => exact h.call hs
  | execve regs l =>
    dsimp only [Holder.step] at hs
    split_ifs at hs
    cases hs
    exact ⟨fun _ => trivial, fun _ => exec_kept _ l⟩
  | sigreturn regs context r0 => exact h.sigreturn hs
  | pending sigs =>
    cases hs
    exact ⟨fun _ => trivial, fun _ => h.same ⟨rfl, rfl, rfl, rfl, rfl, rfl, rfl⟩ rfl rfl⟩
  | postsig sig => exact h.postsig hs
  | ret =>
    dsimp only [Holder.step] at hs
    split_ifs at hs with hk
    cases hs
    have hsized := h.bounded.sized
    constructor
    · intro hbounded hoff
      have hin := (hbounded.user rfl hoff).1
      rw [not_trashed_iff hsized]
      exact hsized.apart.trans hin
    · intro hsafe
      exact ⟨⟨hsized, fun _ hoff => h.bounded.kernel hoff (hsafe hoff), h.bounded.kernel⟩, h.daddr, h.lent⟩
  | swapped =>
    dsimp only [Holder.step] at hs
    split_ifs at hs
    cases hs
    exact ⟨fun _ => trivial, fun _ => h.same (swapped_same h.bounded.sized h.daddr) rfl rfl⟩
  | vfork =>
    dsimp only [Holder.step] at hs
    split_ifs at hs with hk
    cases hs
    refine ⟨fun _ => trivial, fun _ => ⟨⟨h.bounded.sized, h.bounded.user, h.bounded.kernel⟩, h.daddr, ?_⟩⟩
    intro parent hp
    rcases List.mem_cons.mp hp with rfl | hp
    · exact ⟨rfl, fun hoff => h.bounded.kernel hoff hk.2⟩
    · exact h.lent parent hp
  | endvfork =>
    obtain ⟨s, kernel, lent⟩ := x
    cases kernel with
    | false => cases hs
    | true =>
      cases lent with
      | nil => cases hs
      | cons parent lent =>
        cases hs
        exact ⟨fun _ => trivial, fun _ => h.takeBack⟩

end

/-- **The boundaries of data and stack are right, and every stack pointer off a signal stack is in the stack, exactly
    in the runs whose steps are all safe.** -/
theorem stack_bounded {cfg : Conf} (s : Proc) (l : Layout cfg) (turns : List (Turn cfg)) :
    Always (Holder.step cfg) (Holder.Bounded cfg) (Holder.start s l) turns ↔
      Each (Holder.step cfg) Holder.SafeTurn (Holder.start s l) turns :=
  always_iff_each (fun _ h => h.bounded) (fun _ _ _ h hs => h.step hs) (exec_kept s l) turns

/-- A small program. -/
def smallLayout : Layout Swap.pico where
  large := false
  tsize := 0
  dsize := 0x1000
  ssize := 0x810
  frame := svcRegs 0x20023f00
  fits := by decide
  sp := by decide

/-- A program that calls with its stack pointer in the registers of the divider, which it may touch. The stack then
    starts there, and is larger than all memory. -/
theorem stack_leaves_window :
    ∃ s turns, ¬ Always (Holder.step Swap.pico) (Holder.Bounded Swap.pico) (Holder.start s smallLayout) turns := by
  obtain ⟨turns, hrun⟩ : ∃ turns, (runOn (Holder.step Swap.pico) (Holder.start Proc.fresh smallLayout) turns).map
      (fun x => (x.proc.p_saddr, x.proc.p_ssize, x.proc.p_large)) = some (0xd0000060, 0x50023fa0, false) := by
    refine ⟨[.ret, .call { Proc.fresh.u_frame with tf_sp := 0xd0000060 } (.other .none) 0, .ret], ?_⟩
    decide +kernel
  obtain ⟨x, hx, heq⟩ := Option.map_eq_some_iff.mp hrun
  obtain ⟨hsaddr, hrest⟩ := Prod.mk.inj heq
  obtain ⟨hssize, hlarge⟩ := Prod.mk.inj hrest
  refine ⟨Proc.fresh, turns, fun halways => ?_⟩
  have htop := (halways.runOn hx).sized.top
  rw [hsaddr, hssize, hlarge] at htop
  revert htop
  decide

end DiscoBSD.Signal
