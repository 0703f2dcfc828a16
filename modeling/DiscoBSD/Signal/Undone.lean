import DiscoBSD.Signal.Masks

/-!
# Whether temporary masks are undone

**The masks of a run are those it should have exactly as long as the flag of `sigsuspend` and `pselect` does no
harm.** `pselect` puts the mask back itself, so what its flag does comes out at the next handler: where the program
has changed its mask in between, the handler's return undoes that.
-/

set_option autoImplicit false

namespace DiscoBSD.Signal

open DiscoBSD.Lib
open DiscoBSD.Swap (Conf)

/-! ## Masks without the signals that cannot be held -/

def Clean (w : Word) : Prop := w &&& sigcantmask = 0

/-- The masks of a process hold neither `SIGKILL` nor `SIGSTOP`, and these have no handlers. -/
structure Settled (s : Proc) : Prop where
  mask : Clean s.p_sigmask
  old : s.sas_oldmask = true → Clean s.u_oldmask
  sets : ∀ sig, Clean (s.u_sigmask sig)
  kill : s.u_signal sigkill = sigDfl
  stop : s.u_signal sigstop = sigDfl

section

variable {cfg : Conf} {s s' : Proc} {sig : ℕ}

theorem clean_iff {w : Word} : Clean w ↔ ∀ i < 32, w.getLsbD i = true → sigcantmask.getLsbD i = false := by
  unfold Clean
  constructor
  · intro h i _ hw
    have hbit := congrArg (fun v : Word => v.getLsbD i) h
    simpa [BitVec.getLsbD_and, hw] using hbit
  · intro h
    apply BitVec.eq_of_getLsbD_eq
    intro i hi
    rw [BitVec.getLsbD_and]
    cases hw : w.getLsbD i with
    | false => simp
    | true => simp [h i hi hw]

theorem clean_andNot (w : Word) : Clean (w &&& ~~~sigcantmask) := by
  refine clean_iff.mpr fun i hi hw => ?_
  rw [BitVec.getLsbD_and, BitVec.getLsbD_not, decide_eq_true hi, Bool.true_and] at hw
  simpa using (Bool.and_eq_true_iff.mp hw).2

theorem Clean.or {w v : Word} (hw : Clean w) (hv : Clean v) : Clean (w ||| v) := by
  refine clean_iff.mpr fun i hi h => ?_
  rw [BitVec.getLsbD_or, Bool.or_eq_true] at h
  exact h.elim (clean_iff.mp hw i hi) (clean_iff.mp hv i hi)

theorem Clean.and {w : Word} (hw : Clean w) (v : Word) : Clean (w &&& v) := by
  refine clean_iff.mpr fun i hi h => ?_
  rw [BitVec.getLsbD_and, Bool.and_eq_true] at h
  exact clean_iff.mp hw i hi h.1

/-- Clearing the bits that are clear does nothing. -/
theorem Clean.andNot {w : Word} (hw : Clean w) : w &&& ~~~sigcantmask = w := by
  apply BitVec.eq_of_getLsbD_eq
  intro i hi
  rw [BitVec.getLsbD_and, BitVec.getLsbD_not, decide_eq_true hi, Bool.true_and]
  cases h : w.getLsbD i with
  | false => rfl
  | true => simp [clean_iff.mp hw i hi h]

theorem clean_zero : Clean 0 := rfl

/-- A signal that has a handler can be held. -/
theorem Settled.clean_sigmask (h : Settled s) (hsig : s.delivers sig) : Clean (sigmask sig) := by
  obtain ⟨hpos, hlt, -, haction, -⟩ := hsig
  have hkill : sig ≠ sigkill := by
    rintro rfl
    exact haction h.kill
  have hstop : sig ≠ sigstop := by
    rintro rfl
    exact haction h.stop
  have hall : ∀ n < nsig, 1 ≤ n → n ≠ sigkill → n ≠ sigstop → sigmask n &&& sigcantmask = 0 := by decide
  exact hall sig hlt hpos hkill hstop

/-! ## The calls -/

/-- What the masks of a process are made of is the same. -/
structure SameMasks (s s' : Proc) : Prop where
  p_sigmask : s'.p_sigmask = s.p_sigmask
  u_oldmask : s'.u_oldmask = s.u_oldmask
  sas_oldmask : s'.sas_oldmask = s.sas_oldmask
  u_sigmask : s'.u_sigmask = s.u_sigmask
  u_signal : s'.u_signal = s.u_signal

theorem SameMasks.trans {s₁ : Proc} (h : SameMasks s s₁) (h' : SameMasks s₁ s') : SameMasks s s' :=
  ⟨h'.p_sigmask.trans h.p_sigmask, h'.u_oldmask.trans h.u_oldmask, h'.sas_oldmask.trans h.sas_oldmask,
    h'.u_sigmask.trans h.u_sigmask, h'.u_signal.trans h.u_signal⟩

theorem SameMasks.settled (hsame : SameMasks s s') (h : Settled s) : Settled s' where
  mask := by rw [hsame.p_sigmask]; exact h.mask
  old := by rw [hsame.u_oldmask, hsame.sas_oldmask]; exact h.old
  sets := by rw [hsame.u_sigmask]; exact h.sets
  kill := by rw [hsame.u_signal]; exact h.kill
  stop := by rw [hsame.u_signal]; exact h.stop

theorem sigaltstack_same (nss oss : Word) (ss : Sigaltstack) : SameMasks s (s.sigaltstack cfg nss oss ss) := by
  unfold Proc.sigaltstack
  dsimp only
  split_ifs <;> exact ⟨rfl, rfl, rfl, rfl, rfl⟩

theorem sigstack_same (nss oss : Word) (ss : Sigstack) : SameMasks s (s.sigstack cfg nss oss ss) := by
  unfold Proc.sigstack
  split_ifs <;> exact ⟨rfl, rfl, rfl, rfl, rfl⟩

theorem brk_same (naddr : Word) : SameMasks s (s.brk cfg naddr) := by
  unfold Proc.brk
  dsimp only
  split_ifs <;> exact ⟨rfl, rfl, rfl, rfl, rfl⟩

theorem putOldmask_same (oset : Word) : SameMasks s (s.putOldmask cfg oset) := by
  unfold Proc.putOldmask
  split_ifs <;> exact ⟨rfl, rfl, rfl, rfl, rfl⟩

theorem setsigvec_mask (signum : ℕ) (sa : Sigaction) : (s.setsigvec signum sa).p_sigmask = s.p_sigmask := by
  unfold Proc.setsigvec
  dsimp only
  split_ifs <;> rfl

theorem setsigvec_settled (h : Settled s) {signum : ℕ} (hkill : signum ≠ sigkill) (hstop : signum ≠ sigstop)
    (sa : Sigaction) : Settled (s.setsigvec signum sa) := by
  have hmask := h.mask
  have hold := h.old
  have hsets : ∀ sig, Clean (Function.update s.u_sigmask signum (sa.sa_mask &&& ~~~sigcantmask) sig) := by
    intro sig
    rw [Function.update_apply]
    split_ifs
    · exact clean_andNot _
    · exact h.sets sig
  have hk : Function.update s.u_signal signum sa.sa_handler sigkill = sigDfl := by
    rw [Function.update_of_ne hkill.symm]
    exact h.kill
  have hs : Function.update s.u_signal signum sa.sa_handler sigstop = sigDfl := by
    rw [Function.update_of_ne hstop.symm]
    exact h.stop
  unfold Proc.setsigvec
  dsimp only
  split_ifs <;> exact ⟨hmask, hold, hsets, hk, hs⟩

theorem sigaction_mask (signum nsa osa sigtramp : Word) (sa : Sigaction) :
    (s.sigaction cfg signum nsa osa sigtramp sa).p_sigmask = s.p_sigmask := by
  unfold Proc.sigaction
  dsimp only
  split_ifs
  · rfl
  · rfl
  · rfl
  · rfl
  · rfl
  · exact setsigvec_mask _ sa

theorem sigaction_settled (h : Settled s) (signum nsa osa sigtramp : Word) (sa : Sigaction) :
    Settled (s.sigaction cfg signum nsa osa sigtramp sa) := by
  have hsame : ∀ (tramp : Word) (error : Errno), Settled { s with u_sigtramp := tramp, u_error := error } :=
    fun _ _ => ⟨h.mask, h.old, h.sets, h.kill, h.stop⟩
  unfold Proc.sigaction
  dsimp only
  split_ifs with _ hcant _ hnsa
  · exact hsame _ _
  · exact hsame _ _
  · exact hsame _ _
  · exact hsame _ _
  · exact hsame _ _
  · have hset : Settled (Proc.setsigvec { s with u_sigtramp := sigtramp } signum.toNat sa) :=
      setsigvec_settled (hsame sigtramp s.u_error) (fun hk => hcant ⟨hnsa, .inl hk⟩) (fun hs => hcant ⟨hnsa, .inr hs⟩) sa
    exact ⟨hset.mask, hset.old, hset.sets, hset.kill, hset.stop⟩

/-! ### sigprocmask -/

theorem clean_asked (how newmask : Word) {mask : Word} (h : Clean mask) : Clean (asked how newmask mask) := by
  unfold asked
  split_ifs
  · exact h.or (clean_andNot _)
  · exact h.and _
  · exact clean_andNot _
  · exact h

/-- `sigprocmask` sets the mask that is asked for, and nothing else that masks are made of. -/
theorem sigprocmask_same (how set oset newmask : Word) :
    SameMasks
      (if set = 0 ∨ baduaddrSpan cfg s.p_large set 4 = true then s
        else { s with p_sigmask := asked how newmask s.p_sigmask })
      (s.sigprocmask cfg how set oset newmask) := by
  unfold Proc.sigprocmask asked
  by_cases hset : set = 0
  · rw [if_pos hset, if_pos (.inl hset)]
    exact putOldmask_same oset
  by_cases hbad : baduaddrSpan cfg s.p_large set 4 = true
  · rw [if_neg hset, if_pos hbad, if_pos (.inr hbad)]
    exact ⟨rfl, rfl, rfl, rfl, rfl⟩
  rw [if_neg hset, if_neg hbad, if_neg (not_or.mpr ⟨hset, hbad⟩)]
  split_ifs
  · exact putOldmask_same oset
  · exact putOldmask_same oset
  · exact putOldmask_same oset
  · exact ⟨rfl, rfl, rfl, rfl, rfl⟩

/-! ### pselect -/

/-- While `select1` sleeps it has its own mask, and afterwards the one from before. -/
theorem sleeps_settled (h : Settled s) (args : PselectArgs) :
    Settled ((s.holdMask args).restoreMask args) ∧ ((s.holdMask args).restoreMask args).p_sigmask = s.p_sigmask := by
  unfold Proc.restoreMask Proc.holdMask
  by_cases hmaskp : args.maskp = 0
  · rw [if_pos hmaskp, if_pos hmaskp]
    exact ⟨h, rfl⟩
  · rw [if_neg hmaskp, if_neg hmaskp]
    exact ⟨⟨h.mask, fun _ => h.mask, h.sets, h.kill, h.stop⟩, rfl⟩

theorem selRounds_settled (h : Settled s) (args : PselectArgs) {rounds : List Round} {error : Errno}
    (hok : s.selRounds args rounds = some (s', error)) : Settled s' ∧ s'.p_sigmask = s.p_sigmask := by
  induction rounds generalizing s with
  | nil => cases hok
  | cons round rounds ih =>
    cases round with
    | scanned e =>
      cases hok
      exact ⟨h, rfl⟩
    | expired =>
      cases hok
      exact ⟨h, rfl⟩
    | again => exact ih h hok
    | slept wakeup =>
      obtain ⟨hset, hmask⟩ := sleeps_settled h args
      cases wakeup with
      | woken =>
        obtain ⟨hset', hmask'⟩ := ih hset hok
        exact ⟨hset', hmask'.trans hmask⟩
      | timeout =>
        cases hok
        exact ⟨hset, hmask⟩
      | signal =>
        cases hok
        exact ⟨hset, hmask⟩

theorem select1_settled (h : Settled s) {args : PselectArgs} {rounds : List Round} {stored : Errno}
    (hok : s.select1 cfg args rounds stored = some s') : Settled s' ∧ s'.p_sigmask = s.p_sigmask := by
  unfold Proc.select1 at hok
  split_ifs at hok
  · cases hok
    exact ⟨⟨h.mask, h.old, h.sets, h.kill, h.stop⟩, rfl⟩
  · cases hok
    exact ⟨⟨h.mask, h.old, h.sets, h.kill, h.stop⟩, rfl⟩
  · obtain ⟨⟨s₁, error⟩, hrounds, hs⟩ := Option.map_eq_some_iff.mp hok
    obtain ⟨hset, hmask⟩ := selRounds_settled h args hrounds
    dsimp only at hs
    split_ifs at hs
    · rw [← hs]
      exact ⟨⟨hset.mask, hset.old, hset.sets, hset.kill, hset.stop⟩, hmask⟩
    · rw [← hs]
      exact ⟨⟨hset.mask, hset.old, hset.sets, hset.kill, hset.stop⟩, hmask⟩

theorem clean_suspendMask (set nmask : Word) : Clean (s.suspendMask cfg set nmask) := by
  unfold Proc.suspendMask
  split_ifs
  · exact clean_zero
  · exact clean_andNot _

/-! ### Any of them -/

/-- A call keeps the masks clean. -/
theorem call_settled (h : Settled s) {c : Call} (hok : s.call cfg c = some s') : Settled s' := by
  cases c with
  | sigprocmask how set oset newmask =>
    cases hok
    refine (sigprocmask_same how set oset newmask).settled ?_
    split_ifs
    · exact h
    · exact ⟨clean_asked how newmask h.mask, h.old, h.sets, h.kill, h.stop⟩
  | sigsuspend set nmask =>
    cases hok
    exact ⟨clean_suspendMask set nmask, fun _ => h.mask, h.sets, h.kill, h.stop⟩
  | pselect args rounds stored => exact (select1_settled h hok).1
  | sigaction signum nsa osa sigtramp sa =>
    cases hok
    exact sigaction_settled h signum nsa osa sigtramp sa
  | sigaltstack nss oss ss =>
    cases hok
    exact (sigaltstack_same nss oss ss).settled h
  | sigstack nss oss ss =>
    cases hok
    exact (sigstack_same nss oss ss).settled h
  | brk naddr =>
    cases hok
    exact (brk_same naddr).settled h
  | other error =>
    cases hok
    exact ⟨h.mask, h.old, h.sets, h.kill, h.stop⟩

/-! ## The handlers -/

theorem growStack_same (sfp : Word) : SameMasks s (s.growStack cfg sfp) := by
  unfold Proc.growStack
  dsimp only
  split_ifs <;> exact ⟨rfl, rfl, rfl, rfl, rfl⟩

/-- `sendsig` stores the mask behind the flag, and changes none itself; or it stores nothing. -/
theorem sendsig_mask (p mask : Word) {flag sc_mask : Store} {rest : List Store}
    (hok : s.sendsig cfg p sig mask = (flag :: sc_mask :: rest, s')) : sc_mask.value = mask ∧ SameMasks s s' := by
  unfold Proc.sendsig at hok
  dsimp only at hok
  generalize hs₁ : (if s.switches sig then
    { s with u_sigstk := { s.u_sigstk with ss_flags := s.u_sigstk.ss_flags ||| saOnstack } } else s) = s₁ at hok
  have hsame₁ : SameMasks s s₁ := by
    rw [← hs₁]
    split_ifs <;> exact ⟨rfl, rfl, rfl, rfl, rfl⟩
  by_cases hkill : has s₁.u_sigstk.ss_flags saOnstack = false ∧
      (s.top sig &&& ~~~7#32) - sigframeSize < s₁.p_daddr + s₁.u_dsize
  · rw [if_pos hkill] at hok
    cases hok
  rw [if_neg hkill] at hok
  generalize hs₂ : (if has s₁.u_sigstk.ss_flags saOnstack = true then s₁
    else s₁.growStack cfg ((s.top sig &&& ~~~7#32) - sigframeSize)) = s₂ at hok
  have hsame₂ : SameMasks s s₂ := by
    rw [← hs₂]
    split_ifs
    · exact hsame₁
    · exact hsame₁.trans (growStack_same _)
  obtain ⟨hstored, rfl⟩ := Prod.mk.inj hok
  unfold Proc.sigcontext at hstored
  simp only [List.mapIdx_cons, List.cons.injEq] at hstored
  refine ⟨?_, hsame₂.p_sigmask, hsame₂.u_oldmask, hsame₂.sas_oldmask, hsame₂.u_sigmask, hsame₂.u_signal⟩
  rw [← hstored.2.1]

/-- A handler gets the mask from before as the one to restore if the flag is set, and takes the flag away. -/
theorem postsig_mask (h : Settled s) (hsig : s.delivers sig) {flag sc_mask : Store} {rest : List Store}
    (hok : s.postsig cfg sig = (flag :: sc_mask :: rest, s')) :
    sc_mask.value = (if s.sas_oldmask then s.u_oldmask else s.p_sigmask) ∧
      s'.p_sigmask = s.p_sigmask ||| (s.u_sigmask sig ||| sigmask sig) ∧ Settled s' := by
  unfold Proc.postsig at hok
  obtain ⟨hvalue, hsame⟩ := sendsig_mask _ _ hok
  refine ⟨hvalue, hsame.p_sigmask, hsame.settled ?_⟩
  exact ⟨h.mask.or ((h.sets sig).or (h.clean_sigmask hsig)), nofun, h.sets, h.kill, h.stop⟩

theorem sigreturn_mask (h : Settled s) {context : Sigcontext}
    (hok : (s.sigreturn cfg context).u_error = .ejustreturn) :
    (s.sigreturn cfg context).p_sigmask = context.sc_mask &&& ~~~sigcantmask ∧ Settled (s.sigreturn cfg context) := by
  unfold Proc.sigreturn at hok ⊢
  split_ifs at hok ⊢ <;> exact ⟨rfl, clean_andNot _, h.old, h.sets, h.kill, h.stop⟩

theorem execve_settled (h : Settled s) (large : Bool) (tsize dsize ssize : Word) :
    Settled (s.execve cfg large tsize dsize ssize) ∧
      (s.execve cfg large tsize dsize ssize).p_sigmask = s.p_sigmask := by
  refine ⟨⟨h.mask, nofun, h.sets, ?_, ?_⟩, rfl⟩
  · unfold Proc.execve Proc.execsigs
    dsimp only
    split_ifs
    · rfl
    · exact h.kill
  · unfold Proc.execve Proc.execsigs
    dsimp only
    split_ifs
    · rfl
    · exact h.stop

end

/-! ## Runs -/

/-- The invariant. Between calls the mask in force is the one it should be; on the way out of `sigsuspend` it is
    the temporary one, and the one from before is where `postsig` looks for it. -/
structure Kept (x : Task × Masks) : Prop where
  settled : Settled x.1.proc
  saved : x.1.sc_masks = x.2.saved
  contexts : ∀ m ∈ x.1.sc_masks, Clean m
  mask : x.1.proc.p_sigmask = x.2.temp.getD x.2.cur
  outside : x.1.phase ≠ .suspended → x.2.temp = none
  suspended : x.1.phase = .suspended → x.2.temp ≠ none ∧ x.1.proc.sas_oldmask = true ∧ x.1.proc.u_oldmask = x.2.cur

section

variable {cfg : Conf} {t t' : Task} {a : Masks}

theorem Kept.undone {x : Task × Masks} (h : Kept x) : Undone x := by
  refine ⟨h.saved, fun huser => ?_⟩
  rw [h.mask, h.outside (by rw [huser]; decide)]
  rfl

theorem Kept.call (h : Kept (t, a)) {regs : Trapframe} {code : Word} {c : Call}
    (hok : t.step cfg (.call regs code c) = some t') : Kept (t', a.change (t.change cfg (.call regs code c))) := by
  unfold Task.step at hok
  dsimp only at hok
  split_ifs at hok with huser
  obtain ⟨s, hs, rfl⟩ := Option.map_eq_some_iff.mp hok
  have hset : Settled { t.proc with u_frame := regs, u_code := code } :=
    ⟨h.settled.mask, h.settled.old, h.settled.sets, h.settled.kill, h.settled.stop⟩
  have htemp : a.temp = none := h.outside (by rw [huser]; decide)
  have hmask : t.proc.p_sigmask = a.cur := by
    rw [h.mask, htemp]
    rfl
  have hset' := call_settled hset hs
  have hquiet : s.p_sigmask = t.proc.p_sigmask → Kept ({ t with proc := s, phase := .kernel }, a) := fun hsame =>
    ⟨hset', h.saved, h.contexts, by rw [hsame, h.mask], fun _ => htemp, nofun⟩
  cases c with
  | sigprocmask how set oset newmask =>
    cases hs
    have hsame := (@sigprocmask_same cfg { t.proc with u_frame := regs, u_code := code }
      how set oset newmask).p_sigmask
    unfold Task.change
    dsimp only at hsame ⊢
    split_ifs at hsame ⊢
    · exact hquiet hsame
    · refine ⟨hset', h.saved, h.contexts, ?_, fun _ => htemp, nofun⟩
      dsimp only [Masks.change]
      rw [hsame, htemp, hmask]
      rfl
  | sigsuspend set nmask =>
    cases hs
    exact ⟨hset', h.saved, h.contexts, rfl, fun hne => absurd rfl hne, fun _ => ⟨nofun, rfl, hmask⟩⟩
  | pselect args rounds stored => exact hquiet (select1_settled hset hs).2
  | sigaction signum nsa osa sigtramp sa =>
    cases hs
    exact hquiet (sigaction_mask signum nsa osa sigtramp sa)
  | sigaltstack nss oss ss =>
    cases hs
    exact hquiet (sigaltstack_same nss oss ss).p_sigmask
  | sigstack nss oss ss =>
    cases hs
    exact hquiet (sigstack_same nss oss ss).p_sigmask
  | brk naddr =>
    cases hs
    exact hquiet (brk_same naddr).p_sigmask
  | other error =>
    cases hs
    exact hquiet rfl

/-- A handler goes in. -/
theorem Kept.postsig (h : Kept (t, a)) {sig : ℕ} (hok : t.step cfg (.postsig sig) = some t') :
    (Undone (t', a.change (t.change cfg (.postsig sig))) → SafeAct (t, a) (.postsig sig)) ∧
      (SafeAct (t, a) (.postsig sig) → Kept (t', a.change (t.change cfg (.postsig sig)))) := by
  unfold Task.step at hok
  dsimp only at hok
  split_ifs at hok with hgo
  obtain ⟨flag, sc_mask, rest, s, hpost, rfl⟩ : ∃ flag sc_mask rest s,
      t.proc.postsig cfg sig = (flag :: sc_mask :: rest, s) ∧ ⟨s, .kernel, sc_mask.value :: t.sc_masks⟩ = t' := by
    split at hok
    · rename_i flag sc_mask rest s hpost
      exact ⟨flag, sc_mask, rest, s, hpost, Option.some.inj hok⟩
    · cases hok
  obtain ⟨hvalue, hmask, hset⟩ := postsig_mask h.settled hgo.2 hpost
  have hsaves : sc_mask.value = a.cur → Kept (⟨s, .kernel, sc_mask.value :: t.sc_masks⟩,
      a.change (.deliver (t.proc.u_sigmask sig ||| sigmask sig))) := by
    intro hcur
    refine ⟨hset, ?_, ?_, ?_, fun _ => rfl, nofun⟩
    · dsimp only [Masks.change]
      rw [hcur, h.saved]
    · intro m hm
      rcases List.mem_cons.mp hm with rfl | hm
      · rw [hvalue]
        split_ifs with hflag
        · exact h.settled.old hflag
        · exact h.settled.mask
      · exact h.contexts m hm
    · exact hmask.trans (by rw [h.mask]; rfl)
  constructor
  · rintro ⟨hhead, -⟩ hkernel hflag
    have hcur : sc_mask.value = a.cur := (List.cons.inj hhead).1
    rw [hvalue, if_pos hflag] at hcur
    rw [hcur, h.mask, h.outside (by rw [hkernel]; decide)]
    rfl
  · intro hsafe
    refine hsaves ?_
    rw [hvalue]
    by_cases hsus : t.phase = .suspended
    · obtain ⟨-, hflag, hold⟩ := h.suspended hsus
      rw [if_pos hflag, hold]
    · have hkernel : t.phase = .kernel := by
        cases hp : t.phase with
        | user => exact absurd hp hgo.1
        | kernel => rfl
        | suspended => exact absurd hp hsus
      have hcur : t.proc.p_sigmask = a.cur := by
        rw [h.mask, h.outside hsus]
        rfl
      split_ifs with hflag
      · exact (hsafe hkernel hflag).trans hcur
      · exact hcur

/-- The process goes back to its own code. -/
theorem Kept.ret (h : Kept (t, a)) (hok : t.step cfg .ret = some t') :
    (Undone (t', a.change (t.change cfg .ret)) → SafeAct (t, a) .ret) ∧
      (SafeAct (t, a) .ret → Kept (t', a.change (t.change cfg .ret))) := by
  unfold Task.step at hok
  dsimp only at hok
  split_ifs at hok
  cases hok
  constructor
  · rintro ⟨-, hmask⟩ hsus
    obtain ⟨-, -, hold⟩ := h.suspended hsus
    exact (hmask rfl).trans hold.symm
  · intro hsafe
    have hcur : t.proc.p_sigmask = a.cur := by
      by_cases hsus : t.phase = .suspended
      · exact (hsafe hsus).trans (h.suspended hsus).2.2
      · rw [h.mask, h.outside hsus]
        rfl
    exact ⟨h.settled, h.saved, h.contexts, hcur, fun _ => rfl, nofun⟩

theorem Kept.step {x x' : Task × Masks} (h : Kept x) {act : Act} (hok : bothStep cfg x act = some x') :
    (Undone x' → SafeAct x act) ∧ (SafeAct x act → Kept x') := by
  obtain ⟨t, a⟩ := x
  obtain ⟨t', ht, rfl⟩ := Option.map_eq_some_iff.mp hok
  cases act with
  | call regs code c => exact ⟨fun _ => trivial, fun _ => h.call ht⟩
  | execve regs code large tsize dsize ssize =>
    refine ⟨fun _ => trivial, fun _ => ?_⟩
    unfold Task.step at ht
    dsimp only at ht
    split_ifs at ht with huser
    cases ht
    have hset : Settled { t.proc with u_frame := regs, u_code := code } :=
      ⟨h.settled.mask, h.settled.old, h.settled.sets, h.settled.kill, h.settled.stop⟩
    obtain ⟨hset', hmask⟩ := @execve_settled cfg _ hset large tsize dsize ssize
    exact ⟨hset', rfl, nofun, hmask.trans h.mask, fun _ => h.outside (by rw [huser]; decide), nofun⟩
  | sigreturn regs code context =>
    refine ⟨fun _ => trivial, fun _ => ?_⟩
    unfold Task.step at ht
    dsimp only at ht
    split_ifs at ht with hgo
    obtain ⟨huser, hhead, hjust⟩ := hgo
    cases ht
    have hset : Settled { t.proc with u_frame := regs, u_code := code } :=
      ⟨h.settled.mask, h.settled.old, h.settled.sets, h.settled.kill, h.settled.stop⟩
    obtain ⟨hmask, hset'⟩ := sigreturn_mask hset hjust
    have hclean : Clean context.sc_mask := h.contexts _ (List.mem_of_head? hhead)
    have htemp : a.temp = none := h.outside (by rw [huser]; decide)
    have hsaved : a.saved.headD a.cur = context.sc_mask := by
      rw [← h.saved, List.headD_eq_head?_getD, hhead]
      rfl
    refine ⟨hset', ?_, fun m hm => h.contexts m (List.mem_of_mem_tail hm), ?_, fun _ => htemp, nofun⟩
    · exact congrArg List.tail h.saved
    · refine hmask.trans (hclean.andNot.trans ?_)
      show context.sc_mask = a.temp.getD (a.saved.headD a.cur)
      rw [htemp, hsaved]
      rfl
  | pending sigs =>
    refine ⟨fun _ => trivial, fun _ => ?_⟩
    cases ht
    exact ⟨⟨h.settled.mask, h.settled.old, h.settled.sets, h.settled.kill, h.settled.stop⟩, h.saved, h.contexts, h.mask,
      h.outside, h.suspended⟩
  | postsig sig => exact h.postsig ht
  | ret => exact h.ret ht

end

theorem kept_fresh : Kept (Task.fresh, ⟨0, none, []⟩) :=
  ⟨⟨rfl, nofun, fun _ => clean_zero, rfl, rfl⟩, rfl, nofun, rfl, fun _ => rfl, nofun⟩

/-- **The masks of a process are those it should have, all along a run, exactly when no step of the run finds the
    flag where it does harm.** -/
theorem masks_undone (cfg : Conf) (acts : List Act) :
    Always (bothStep cfg) Undone (Task.fresh, ⟨0, none, []⟩) acts ↔
      Each (bothStep cfg) SafeAct (Task.fresh, ⟨0, none, []⟩) acts :=
  always_iff_each (fun _ h => h.undone) (fun _ _ _ h hok => h.step hok) kept_fresh acts

/-- The registers of a program in the middle of its window. -/
def userRegs : Trapframe := { Proc.fresh.u_frame with tf_sp := 0x20010000, tf_pc := 0x20000200, tf_psr := 0x01000000 }

/-- A `pselect` whose time is over, then `SIGUSR2` is held, then a handler of `SIGUSR1` comes and returns. -/
def pselectRun : List Act :=
  [.execve userRegs 0 false 0 0x1000 0x800, .ret,
    .call userRegs 0 (.sigaction 30 0x20000100 0 0x20000201 ⟨0x20000301, 0, 0⟩), .ret,
    .call userRegs 0 (.pselect ⟨.none, 0x20000100, 0⟩ [.slept .timeout] .none), .ret,
    .call userRegs 0 (.sigprocmask sigBlock 0x20000100 0 (sigmask 31)), .pending (sigmask 30), .postsig 30, .ret,
    .sigreturn userRegs 0 ⟨0, 0, userRegs⟩, .ret]

/-- After it `SIGUSR2` is not held any more. -/
theorem pselect_mask_returns :
    ¬ Always (bothStep Swap.pico) Undone (Task.fresh, ⟨0, none, []⟩) pselectRun := by
  intro halways
  have hrun : (runOn (bothStep Swap.pico) (Task.fresh, ⟨0, none, []⟩) pselectRun).map
      (fun x => (x.1.phase, x.1.proc.p_sigmask, x.2.cur)) = some (.user, 0, sigmask 31) := by
    decide +kernel
  obtain ⟨x, hx, heq⟩ := Option.map_eq_some_iff.mp hrun
  obtain ⟨hphase, hmask, hcur⟩ : x.1.phase = .user ∧ x.1.proc.p_sigmask = 0 ∧ x.2.cur = sigmask 31 := by
    simpa using heq
  have hundone := (halways.runOn hx).2 hphase
  rw [hmask, hcur] at hundone
  exact absurd hundone (by decide)

end DiscoBSD.Signal
