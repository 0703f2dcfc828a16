import DiscoBSD.Signal.Return

/-!
# `sendsig`, then `sigreturn`

Where `sendsig` stores a word, `sigreturn` reads it. **So a handler undoes its delivery exactly when `sigreturn`
takes the context**, and what it takes is not all that `sendsig` saves: `Handler.Returnable` says which.
-/

set_option autoImplicit false

namespace DiscoBSD.Signal

open DiscoBSD.Lib
open DiscoBSD.Exec (userTop)
open DiscoBSD.Swap (Conf)

section

variable {cfg : Conf} {s s' : Proc} {sig : ℕ} {mem : Memory} {F : Handler} {t t' : Thread}

/-! ## Memory -/

theorem stores_cons (mem : Memory) (st : Store) (stored : List Store) :
    mem.stores (st :: stored) = (mem.store st).stores stored := by
  unfold Memory.stores
  rfl

theorem stores_nil (mem : Memory) : mem.stores [] = mem := by
  unfold Memory.stores
  rfl

theorem store_same (mem : Memory) (st : Store) : mem.store st st.addr = st.value := Function.update_self _ _ _

theorem store_other {st : Store} {a : Word} (h : st.addr ≠ a) : mem.store st a = mem a :=
  Function.update_of_ne (Ne.symm h) _ _

/-- Stores leave the other words. -/
theorem stores_other {stored : List Store} {a : Word} (h : ∀ st ∈ stored, st.addr ≠ a) :
    mem.stores stored a = mem a := by
  induction stored generalizing mem with
  | nil => rw [stores_nil]
  | cons st stored ih =>
    rw [stores_cons, ih fun st' hst' => h st' (List.mem_cons_of_mem _ hst')]
    exact store_other (h st List.mem_cons_self)

/-- What is stored at different addresses can be read back. -/
theorem stores_same {stored : List Store} (hapart : stored.Pairwise fun a b => a.addr ≠ b.addr) {st : Store}
    (hst : st ∈ stored) : mem.stores stored st.addr = st.value := by
  induction stored generalizing mem with
  | nil => cases hst
  | cons st' stored ih =>
    obtain ⟨hfirst, hrest⟩ := List.pairwise_cons.mp hapart
    rw [stores_cons]
    rcases List.mem_cons.mp hst with rfl | hst
    · rw [stores_other fun st' hst' => (hfirst st' hst').symm]
      exact store_same _ _
    · exact ih hrest hst

theorem word_offset_inj (base : Word) {i j : ℕ} (hi : i < 18) (hj : j < 18)
    (h : base + BitVec.ofNat 32 (4 * i) = base + BitVec.ofNat 32 (4 * j)) : i = j := by
  have heq := congrArg BitVec.toNat ((BitVec.add_right_inj base).mp h)
  rw [BitVec.toNat_ofNat, BitVec.toNat_ofNat] at heq
  omega

/-- The words of a context have an address each. -/
theorem sf_sc_apart (F : Handler) : F.sf_sc.Pairwise fun a b => a.addr ≠ b.addr := by
  rw [List.pairwise_iff_getElem]
  intro i j hi hj hij heq
  have hlen : F.sf_sc.length = 18 := List.length_mapIdx
  rw [hlen] at hi hj
  simp only [Handler.sf_sc, contextAt, List.getElem_mapIdx] at heq
  have := word_offset_inj _ hi hj heq
  omega

theorem sf_sc_ne_nil (F : Handler) : F.sf_sc ≠ [] := by
  intro hnil
  have hlen : F.sf_sc.length = 18 := List.length_mapIdx
  rw [hnil] at hlen
  cases hlen

theorem kept_word (h : F.Kept mem) (i : ℕ) (hi : i < F.words.length) :
    mem (F.sfp + 32 + BitVec.ofNat 32 (4 * i)) = F.words[i] := by
  refine h ⟨_, F.words[i]⟩ ?_
  exact List.mem_mapIdx.mpr ⟨i, hi, rfl⟩

/-- **`sigreturn` reads what `sendsig` stored.** -/
theorem context_of_kept (h : F.Kept mem) : mem.context (F.sfp + 32) = ⟨F.onstack, F.mask, F.regs⟩ := by
  have hword : ∀ i (hi : i < 18), mem (F.sfp + 32 + BitVec.ofNat 32 (4 * i)) = F.words[i] := kept_word h
  unfold Memory.context
  simp only [hword, Nat.reduceLT]
  rfl

theorem kept_self (mem : Memory) (F : Handler) : F.Kept (mem.stores F.sf_sc) :=
  fun _ hst => stores_same (sf_sc_apart F) hst

/-- A delivery stores its own context, and the others stay where it does not store over them. -/
theorem kept_stores (h : F.Kept mem) {G : Handler}
    (hspare : ∀ st ∈ F.sf_sc, ∀ st' ∈ G.sf_sc, st.addr = st'.addr → st.value = st'.value) :
    F.Kept (mem.stores G.sf_sc) := by
  intro st hst
  by_cases hover : ∃ st' ∈ G.sf_sc, st.addr = st'.addr
  · obtain ⟨st', hst', haddr⟩ := hover
    rw [hspare st hst st' hst' haddr, haddr]
    exact kept_self mem G st' hst'
  · rw [stores_other fun st' hst' heq => hover ⟨st', hst', heq.symm⟩]
    exact h st hst

/-- A context that is still there has not been stored over. -/
theorem spare_of_kept {G : Handler} (h : F.Kept (mem.stores G.sf_sc)) {st st' : Store} (hst : st ∈ F.sf_sc)
    (hst' : st' ∈ G.sf_sc) (haddr : st.addr = st'.addr) : st.value = st'.value := by
  rw [← h st hst, haddr]
  exact kept_self mem G st' hst'

/-! ## The status register -/

theorem has_clear (w : Word) {bit m : Word} (h : ~~~bit &&& m = m) : has (w &&& ~~~bit) m = has w m := by
  unfold has
  rw [BitVec.and_assoc, h]

theorem has_set (w : Word) {bit m : Word} (h : bit &&& m = 0) : has (w ||| bit) m = has w m := by
  have hand : (w ||| bit) &&& m = w &&& m := by
    have hbit : bit &&& m = 0#32 := h
    rw [BitVec.and_comm, BitVec.and_or_distrib_left, BitVec.and_comm m bit, hbit, BitVec.or_zero, BitVec.and_comm]
  unfold has
  rw [hand]

theorem fromUser_iff {regs : Trapframe} :
    regs.fromUser = true ↔
      has regs.tf_psr psrThumb = true ∧ has regs.tf_psr (~~~psrAllowed) = false ∧ regs.tf_sp % 8 = 0 := by
  unfold Trapframe.fromUser
  rw [Bool.and_eq_true, Bool.and_eq_true, Bool.not_eq_true', decide_eq_true_iff, and_assoc]

theorem result_fromUser (h : s.u_frame.fromUser = true) (r0 : Word) : (s.result r0).u_frame.fromUser = true := by
  obtain ⟨hthumb, hflags, hsp⟩ := fromUser_iff.mp h
  have hset : ∀ m, psrC &&& m = 0 → has (s.u_frame.tf_psr ||| psrC) m = has s.u_frame.tf_psr m :=
    fun m => has_set s.u_frame.tf_psr
  rw [fromUser_iff]
  unfold Proc.result
  cases s.u_error with
  | none =>
    refine ⟨?_, ?_, hsp⟩
    · exact (has_clear _ (by decide)).trans hthumb
    · exact (has_clear _ (by decide)).trans hflags
  | erestart => exact ⟨hthumb, hflags, hsp⟩
  | ejustreturn => exact ⟨hthumb, hflags, hsp⟩
  | _ => exact ⟨(hset _ (by decide)).trans hthumb, (hset _ (by decide)).trans hflags, hsp⟩

theorem result_u_error (s : Proc) (r0 : Word) : (s.result r0).u_error = s.u_error := by
  unfold Proc.result
  cases h : s.u_error with
  | ejustreturn => exact h
  | _ => rfl

theorem result_ejustreturn (h : s.u_error = .ejustreturn) (r0 : Word) : s.result r0 = s := by
  unfold Proc.result
  rw [h]

/-! ## `sendsig` -/

theorem toNat_sfp_mod (x : Word) : ((x &&& ~~~7#32) - sigframeSize).toNat % 8 = 0 := by
  have hframe : sigframeSize.toNat = 104 := rfl
  rw [BitVec.toNat_sub, toNat_roundDown, hframe]
  omega

theorem sfp_aligned (x : Word) : ((x &&& ~~~7#32) - sigframeSize) % 8 = 0 := by
  apply BitVec.eq_of_toNat_eq
  rw [BitVec.toNat_umod]
  exact toNat_sfp_mod x

/-- The process when it has switched to its signal stack, or need not. -/
def Proc.switched (s : Proc) (sig : ℕ) : Proc :=
  if s.switches sig then { s with u_sigstk := { s.u_sigstk with ss_flags := s.u_sigstk.ss_flags ||| saOnstack } }
  else s

/-- The registers that a handler starts with. -/
def Proc.entry (s : Proc) (p sfp : Word) (sig : ℕ) : Trapframe :=
  { s.u_frame with
    tf_r0 := BitVec.ofNat 32 sig
    tf_r1 := s.u_code
    tf_r2 := sfp + 32
    tf_lr := s.u_sigtramp
    tf_sp := sfp
    tf_pc := p
    tf_psr := s.u_frame.tf_psr &&& ~~~xpsrStkalign }

theorem switched_of_not (h : s.onstack sig = false) : s.switched sig = s := by
  unfold Proc.onstack at h
  unfold Proc.switched
  rw [((Bool.or_eq_false_iff).mp h).1]
  rfl

/-- A frame that fits. -/
theorem sendsig_fits (h : s.fits sig) (p mask : Word) :
    s.sendsig cfg p sig mask =
      (contextAt ((s.top sig &&& ~~~7#32) - sigframeSize + 32) (s.sigcontext (s.u_sigstk.ss_flags &&& saOnstack) mask),
        { (if s.onstack sig then s.switched sig
            else s.growStack cfg ((s.top sig &&& ~~~7#32) - sigframeSize)) with
          u_frame := s.entry p ((s.top sig &&& ~~~7#32) - sigframeSize) sig }) := by
  have hflag : has (s.switched sig).u_sigstk.ss_flags saOnstack = s.onstack sig := has_onstack s sig
  unfold Proc.fits at h
  unfold Proc.sendsig
  dsimp only
  rw [← Proc.switched, hflag]
  cases hon : s.onstack sig with
  | true =>
    rw [if_neg (fun hk => Bool.noConfusion hk.1), if_pos rfl, if_pos rfl]
    unfold Proc.switched
    cases s.switches sig <;> rfl
  | false =>
    rw [switched_of_not hon, if_neg (by rwa [hon] at h), if_neg Bool.false_ne_true]
    unfold Proc.growStack
    dsimp only
    split_ifs <;> rfl

/-- A frame that does not. -/
theorem sendsig_not_fits (h : ¬ s.fits sig) (p mask : Word) :
    s.sendsig cfg p sig mask = ([], s.fatalsig sigill) := by
  obtain ⟨hon, hlow⟩ := not_not.mp h
  have hflag : has (s.switched sig).u_sigstk.ss_flags saOnstack = s.onstack sig := has_onstack s sig
  unfold Proc.sendsig
  dsimp only
  rw [← Proc.switched, hflag, switched_of_not hon, if_pos ⟨hon, hlow⟩]

/-- The process that `sendsig` finds. -/
def Proc.posting (s : Proc) (sig : ℕ) : Proc :=
  { s with
    p_sig := s.p_sig &&& ~~~sigmask sig
    u_error := .none
    sas_oldmask := false
    p_sigmask := s.p_sigmask ||| (s.u_sigmask sig ||| sigmask sig) }

theorem postsig_eq (cfg : Conf) (s : Proc) (sig : ℕ) :
    s.postsig cfg sig = (s.posting sig).sendsig cfg (s.u_signal sig) sig s.returnmask := rfl

theorem posting_fits : (s.posting sig).fits sig ↔ s.fits sig := Iff.rfl

theorem posting_words :
    (s.posting sig).sigcontext ((s.posting sig).u_sigstk.ss_flags &&& saOnstack) s.returnmask =
      (s.handler sig).words := rfl

theorem posting_sfp : ((s.posting sig).top sig &&& ~~~7#32) - sigframeSize = (s.handler sig).sfp := rfl

theorem posting_entry (p sfp : Word) : (s.posting sig).entry p sfp sig = s.entry p sfp sig := rfl

theorem postsig_fits (h : s.fits sig) :
    (s.postsig cfg sig).1 = (s.handler sig).sf_sc ∧
      (s.postsig cfg sig).2.u_frame = s.entry (s.u_signal sig) (s.handler sig).sfp sig := by
  rw [postsig_eq, sendsig_fits (posting_fits.mpr h), posting_words, posting_sfp, posting_entry, Handler.sf_sc]
  dsimp only
  exact ⟨rfl, rfl⟩

theorem postsig_not_fits (h : ¬ s.fits sig) :
    (s.postsig cfg sig).1 = [] ∧ (s.postsig cfg sig).2.u_frame = s.u_frame := by
  rw [postsig_eq, sendsig_not_fits (mt posting_fits.mp h)]
  exact ⟨rfl, rfl⟩

theorem entry_fromUser (h : s.u_frame.fromUser = true) (p : Word) (sig : ℕ) :
    (s.entry p (s.handler sig).sfp sig).fromUser = true := by
  obtain ⟨hthumb, hflags, -⟩ := fromUser_iff.mp h
  rw [fromUser_iff]
  refine ⟨?_, ?_, sfp_aligned _⟩
  · exact (has_clear _ (by decide)).trans hthumb
  · exact (has_clear _ (by decide)).trans hflags

/-! ## `sigreturn` -/

theorem machineUserPcValid_iff (large : Bool) (pc : Word) :
    machineUserPcValid cfg large pc = true ↔ pc.toNat % 2 = 0 ∧ (pc.toNat + 2 ≤ 0x4000 ∨
      (userDataStart.toNat ≤ pc.toNat ∧ pc.toNat + 2 ≤ userTop cfg large)) := by
  have heven : pc % 2 = 0 ↔ pc.toNat % 2 = 0 := by
    rw [← BitVec.toNat_inj, BitVec.toNat_umod]
    rfl
  have hrom : pc ≤ 0x4000 ∧ 2 ≤ 0x4000 - pc ↔ pc.toNat + 2 ≤ 0x4000 := by
    have hend : (0x4000 : Word).toNat = 0x4000 := rfl
    have htwo : (2 : Word).toNat = 2 := rfl
    rw [BitVec.le_def, BitVec.le_def, hend, htwo]
    constructor
    · rintro ⟨hle, hsub⟩
      rw [BitVec.toNat_sub_of_le (BitVec.le_def.mpr hle), hend] at hsub
      omega
    · intro h
      have hle : pc.toNat ≤ 0x4000 := by omega
      refine ⟨hle, ?_⟩
      rw [BitVec.toNat_sub_of_le (BitVec.le_def.mpr hle), hend]
      omega
  have hspan := @baduaddrSpan_false cfg large pc 2
  unfold machineUserPcValid
  by_cases hodd : pc % 2 ≠ 0
  · rw [if_pos hodd]
    exact ⟨nofun, fun h => absurd (heven.mpr h.1) hodd⟩
  rw [if_neg hodd, ← heven, ← hrom]
  by_cases hin : pc ≤ 0x4000 ∧ 2 ≤ 0x4000 - pc
  · rw [if_pos hin]
    exact ⟨fun _ => ⟨not_not.mp hodd, .inl hin⟩, fun _ => rfl⟩
  rw [if_neg hin, Bool.not_eq_true', hspan]
  exact ⟨fun h => ⟨not_not.mp hodd, .inr h⟩, fun h => h.2.resolve_left hin⟩

/-- What `sigreturn_context_valid` looks at, when the registers came from user code. -/
theorem sigreturnContextValid_iff (large : Bool) {context : Sigcontext} (h : context.regs.fromUser = true) :
    sigreturnContextValid cfg large context = true ↔
      machineUserPcValid cfg large context.regs.tf_pc = true ∧
        userDataStart.toNat ≤ context.regs.tf_sp.toNat ∧ context.regs.tf_sp.toNat +
          (if has context.regs.tf_psr xpsrStkalign then 36 else 32) ≤ userTop cfg large := by
  obtain ⟨hthumb, hflags, hsp⟩ := fromUser_iff.mp h
  have hflags' : has context.regs.tf_psr (~~~(0xf0000000 ||| 0x01000000 ||| xpsrStkalign)) = false := hflags
  have hthumb' : has context.regs.tf_psr 0x01000000 = true := hthumb
  have hsize : ((if has context.regs.tf_psr xpsrStkalign then 36 else 32 : Word)).toNat =
      if has context.regs.tf_psr xpsrStkalign then 36 else 32 := by
    split_ifs <;> rfl
  unfold sigreturnContextValid machineUserStackValid
  dsimp only
  rw [hthumb', hflags', if_neg (not_not.mpr hsp), ← hsize, ← baduaddrSpan_false]
  simp only [Bool.not_false, Bool.true_and, Bool.and_eq_true, Bool.not_eq_true']

theorem fromUser_of_valid {large : Bool} {context : Sigcontext}
    (h : sigreturnContextValid cfg large context = true) : context.regs.fromUser = true := by
  unfold sigreturnContextValid machineUserStackValid at h
  simp only [Bool.and_eq_true, Bool.not_eq_true'] at h
  obtain ⟨⟨⟨hthumb, hflags⟩, -⟩, hstack⟩ := h
  rw [fromUser_iff]
  refine ⟨hthumb, hflags, ?_⟩
  by_contra hsp
  rw [if_pos hsp] at hstack
  cases hstack

/-- What a context that is taken leaves. -/
def Proc.taken (s : Proc) (context : Sigcontext) : Proc :=
  { s with
    u_error := .ejustreturn
    u_sigstk := { s.u_sigstk with
      ss_flags := if has context.sc_onstack saOnstack then s.u_sigstk.ss_flags ||| saOnstack
        else s.u_sigstk.ss_flags &&& ~~~saOnstack }
    p_sigmask := context.sc_mask &&& ~~~sigcantmask
    u_frame := context.regs }

/-- `sigreturn` takes the context, or it changes nothing but the error. -/
theorem sigreturn_cases (cfg : Conf) (s : Proc) (context : Sigcontext) :
    (sigreturnContextValid cfg s.p_large context = true ∧ s.sigreturn cfg context = s.taken context) ∨
      ∃ error, error ≠ .ejustreturn ∧ s.sigreturn cfg context = { s with u_error := error } := by
  unfold Proc.sigreturn
  by_cases hwrap : ~~~0#32 - 32 < s.u_frame.tf_sp
  · rw [if_pos hwrap]
    exact .inr ⟨.efault, nofun, rfl⟩
  rw [if_neg hwrap]
  by_cases hspan : baduaddrSpan cfg s.p_large (s.u_frame.tf_sp + 32) 72 = true
  · rw [if_pos hspan]
    exact .inr ⟨.efault, nofun, rfl⟩
  rw [if_neg hspan]
  cases hvalid : sigreturnContextValid cfg s.p_large context with
  | false => exact .inr ⟨.einval, nofun, rfl⟩
  | true => exact .inl ⟨rfl, rfl⟩

/-- What a handler's registers and flag are like. -/
structure Handler.Sound (F : Handler) : Prop where
  regs : F.regs.fromUser = true
  onstack : F.onstack &&& saOnstack = F.onstack

/-- When the context of a handler is taken. -/
theorem sigreturn_taken (hF : F.Sound) (hsp : s.u_frame.tf_sp = F.sfp)
    (hclear : ¬ F.sfp < s.p_daddr + s.u_dsize) :
    (s.sigreturn cfg ⟨F.onstack, F.mask, F.regs⟩).u_error = .ejustreturn ↔ F.Returnable cfg s := by
  have hwrap : (~~~0#32 - 32 : Word).toNat = 2 ^ 32 - 33 := rfl
  have h32 : (32 : Word).toNat = 32 := rfl
  have h72 : (72 : Word).toNat = 72 := rfl
  have hlt := F.sfp.isLt
  have htop := userTop_le cfg s.p_large
  have hvalid := @sigreturnContextValid_iff cfg s.p_large ⟨F.onstack, F.mask, F.regs⟩ hF.regs
  rw [machineUserPcValid_iff] at hvalid
  unfold Proc.sigreturn
  rw [hsp]
  by_cases hfar : ~~~0#32 - 32 < F.sfp
  · rw [if_pos hfar]
    refine ⟨nofun, fun h => ?_⟩
    have hctx := h.context
    rw [BitVec.lt_def, hwrap] at hfar
    omega
  rw [if_neg hfar]
  have hspan := @baduaddrSpan_false cfg s.p_large (F.sfp + 32) 72
  rw [BitVec.lt_def, hwrap] at hfar
  rw [BitVec.toNat_add, h32, h72, Nat.mod_eq_of_lt (by omega)] at hspan
  by_cases hbad : baduaddrSpan cfg s.p_large (F.sfp + 32) 72 = true
  · rw [if_pos hbad]
    refine ⟨nofun, fun h => ?_⟩
    rw [hspan.mpr h.context] at hbad
    cases hbad
  rw [if_neg hbad]
  have hctx := hspan.mp (Bool.eq_false_iff.mpr hbad)
  by_cases hok : sigreturnContextValid cfg s.p_large ⟨F.onstack, F.mask, F.regs⟩ = true
  · rw [hok, if_neg (by decide)]
    obtain ⟨⟨heven, hcode⟩, hstack⟩ := hvalid.mp hok
    exact ⟨fun _ => ⟨hclear, hctx, heven, hcode, hstack⟩, fun _ => rfl⟩
  · rw [Bool.eq_false_iff.mpr hok, if_pos (by decide)]
    exact ⟨nofun, fun h => absurd (hvalid.mpr ⟨⟨h.even, h.code⟩, h.stack⟩) hok⟩

theorem onstack_bit (w : Word) : w &&& saOnstack = 0 ∨ w &&& saOnstack = saOnstack := by
  have hone : saOnstack.toNat = 1 := rfl
  have hmod : (w &&& saOnstack).toNat = w.toNat % 2 := by
    rw [BitVec.toNat_and, hone, Nat.and_one_is_mod]
  rcases Nat.mod_two_eq_zero_or_one w.toNat with h | h
  · exact .inl (BitVec.eq_of_toNat_eq (hmod.trans h))
  · exact .inr (BitVec.eq_of_toNat_eq (hmod.trans h))

/-- The flag that `sigreturn` restores. -/
theorem onstack_restored {onstack : Word} (h : onstack &&& saOnstack = onstack) (flags : Word) :
    (if has onstack saOnstack then flags ||| saOnstack else flags &&& ~~~saOnstack) &&& saOnstack = onstack := by
  have hclear : ~~~saOnstack &&& saOnstack = 0 := by decide
  rcases onstack_bit onstack with hbit | hbit
  · have hzero : onstack = 0 := h.symm.trans hbit
    rw [hzero, if_neg (by decide), BitVec.and_assoc, hclear]
    exact BitVec.and_zero
  · have hset : onstack = saOnstack := h.symm.trans hbit
    rw [hset, if_pos (by decide)]
    rcases onstack_bit flags with hf | hf
    · rw [BitVec.and_comm, BitVec.and_or_distrib_left, BitVec.and_comm _ flags, hf]
      decide
    · rw [BitVec.and_comm, BitVec.and_or_distrib_left, BitVec.and_comm _ flags, hf]
      decide

/-- A context that is taken brings back what was there at delivery. -/
theorem undone_of_taken (hF : F.Sound)
    (h : (s.sigreturn cfg ⟨F.onstack, F.mask, F.regs⟩).u_error = .ejustreturn) :
    F.Undone (s.sigreturn cfg ⟨F.onstack, F.mask, F.regs⟩) := by
  rcases sigreturn_cases cfg s ⟨F.onstack, F.mask, F.regs⟩ with ⟨-, htaken⟩ | ⟨error, hne, herror⟩
  · rw [htaken]
    exact ⟨rfl, rfl, rfl, onstack_restored hF.onstack _⟩
  · rw [herror] at h
    exact absurd h hne

/-! ## The calls -/

theorem trapped_u_frame (cfg : Conf) (s : Proc) (regs : Trapframe) : (s.trapped cfg regs).u_frame = regs := by
  unfold Proc.trapped Proc.growStack
  dsimp only
  split_ifs <;> rfl

theorem trapped_sizes (cfg : Conf) (s : Proc) (regs : Trapframe) :
    (s.trapped cfg regs).p_large = s.p_large ∧ (s.trapped cfg regs).p_daddr = s.p_daddr ∧
      (s.trapped cfg regs).u_dsize = s.u_dsize := by
  unfold Proc.trapped Proc.growStack
  dsimp only
  split_ifs <;> exact ⟨rfl, rfl, rfl⟩

theorem putOldmask_u_frame (oset : Word) : (s.putOldmask cfg oset).u_frame = s.u_frame := by
  unfold Proc.putOldmask
  split_ifs <;> rfl

theorem setsigvec_u_frame (signum : ℕ) (sa : Sigaction) : (s.setsigvec signum sa).u_frame = s.u_frame := by
  unfold Proc.setsigvec
  dsimp only
  split_ifs <;> rfl

theorem sleeps_u_frame (args : PselectArgs) : ((s.holdMask args).restoreMask args).u_frame = s.u_frame := by
  unfold Proc.restoreMask Proc.holdMask
  split_ifs <;> rfl

theorem selRounds_u_frame (args : PselectArgs) {rounds : List Round} {error : Errno}
    (h : s.selRounds args rounds = some (s', error)) : s'.u_frame = s.u_frame := by
  induction rounds generalizing s with
  | nil => cases h
  | cons round rounds ih =>
    cases round with
    | scanned => cases h; rfl
    | expired => cases h; rfl
    | again => exact ih h
    | slept wakeup =>
      have hsame := sleeps_u_frame (s := s) args
      cases wakeup with
      | woken => exact (ih h).trans hsame
      | timeout => cases h; exact hsame
      | signal => cases h; exact hsame

/-- No call but `sigreturn` and `execve` touches the registers. -/
theorem call_u_frame {c : Call} (h : s.call cfg c = some s') : s'.u_frame = s.u_frame := by
  cases c with
  | sigprocmask how set oset newmask =>
    cases h
    unfold Proc.sigprocmask
    split_ifs <;> first | rfl | exact putOldmask_u_frame _
  | sigsuspend => cases h; rfl
  | pselect args rounds stored =>
    change s.select1 cfg args rounds stored = some s' at h
    unfold Proc.select1 at h
    split_ifs at h
    · cases h; rfl
    · cases h; rfl
    · obtain ⟨⟨s₁, error⟩, hs₁, heq⟩ := Option.map_eq_some_iff.mp h
      have hsame := selRounds_u_frame _ hs₁
      dsimp only at heq
      rw [← heq, ← hsame]
      split_ifs <;> rfl
  | sigaction signum nsa osa sigtramp sa =>
    cases h
    unfold Proc.sigaction
    dsimp only
    split_ifs <;> first | rfl | exact setsigvec_u_frame _ _
  | sigaltstack nss oss ss =>
    cases h
    unfold Proc.sigaltstack
    dsimp only
    split_ifs <;> rfl
  | sigstack nss oss ss =>
    cases h
    unfold Proc.sigstack
    split_ifs <;> rfl
  | brk naddr =>
    cases h
    unfold Proc.brk
    dsimp only
    split_ifs <;> rfl
  | other error => cases h; rfl

/-! ## Steps -/

/-- What holds between the steps. -/
structure Thread.Whole (t : Thread) : Prop where
  restores : t.Restores
  sound : ∀ F ∈ t.handlers, F.Sound
  frame : t.kernel = true → t.proc.u_frame.fromUser = true

/-- A trap finds the contexts as they were. -/
theorem Thread.Leaves.kept (h : t.Leaves mem) (hkept : ∀ F ∈ t.handlers, F.Kept t.mem) :
    ∀ F ∈ t.handlers, F.Kept mem := by
  intro F hF st hst
  rw [h F hF st hst]
  exact hkept F hF st hst

theorem fromUser_of_presented {regs : Trapframe} (h : regs.presented = true) : regs.fromUser = true :=
  ((Bool.and_eq_true _ _).mp h).1

theorem returning_some {regs : Trapframe} (h : t.returning regs = some F) :
    F ∈ t.handlers ∧ F.sfp = regs.tf_sp := by
  obtain ⟨hhead, hsfp⟩ := Option.filter_eq_some_iff.mp h
  exact ⟨List.mem_of_mem_head? hhead, of_decide_eq_true hsfp⟩

/-- `sigreturn` leaves registers that user code could have had. -/
theorem sigreturn_fromUser (h : s.u_frame.fromUser = true) (context : Sigcontext) :
    (s.sigreturn cfg context).u_frame.fromUser = true := by
  rcases sigreturn_cases cfg s context with ⟨hvalid, htaken⟩ | ⟨error, -, herror⟩
  · rw [htaken]
    exact fromUser_of_valid hvalid
  · rw [herror]
    exact h

theorem Thread.Whole.call (h : t.Whole) {regs : Trapframe} {c : Call} {r0 : Word}
    (hs : t.step cfg (.call regs mem c r0) = some t') : t'.Whole := by
  dsimp only [Thread.step] at hs
  by_cases htrap : t.Traps regs mem
  case neg =>
    rw [if_neg htrap] at hs
    cases hs
  rw [if_pos htrap] at hs
  obtain ⟨-, hpres, hleaves⟩ := htrap
  have hkept := hleaves.kept h.restores.kept
  have huser := fromUser_of_presented hpres
  cases htr : t.proc.trashed regs with
  | true =>
    rw [htr, if_pos rfl] at hs
    cases hs
    exact ⟨⟨hkept, nofun⟩, h.sound, fun _ => huser⟩
  | false =>
    rw [htr, if_neg Bool.false_ne_true] at hs
    obtain ⟨s, hcall, heq⟩ := Option.map_eq_some_iff.mp hs
    rw [← heq]
    have hregs : s.u_frame = regs := (call_u_frame hcall).trans (trapped_u_frame cfg t.proc regs)
    exact ⟨⟨hkept, nofun⟩, h.sound, fun _ => result_fromUser (by rwa [hregs]) r0⟩

/-- A handler's `sigreturn` undoes its delivery when it can, and only then. -/
theorem Thread.Whole.sigreturn (h : t.Whole) {regs : Trapframe} {r0 : Word}
    (hs : t.step cfg (.sigreturn regs mem r0) = some t') :
    (t'.Restores → t.SafeMove cfg (.sigreturn regs mem r0)) ∧
      (t.SafeMove cfg (.sigreturn regs mem r0) → t'.Whole) := by
  dsimp only [Thread.step] at hs
  by_cases htrap : t.Traps regs mem
  case neg =>
    rw [if_neg htrap] at hs
    cases hs
  rw [if_pos htrap] at hs
  obtain ⟨-, hpres, hleaves⟩ := htrap
  have huser := fromUser_of_presented hpres
  have hsub : ∀ F ∈ (if (t.returning regs).isSome then t.handlers.tail else t.handlers), F ∈ t.handlers := by
    intro F hF
    split_ifs at hF
    · exact List.mem_of_mem_tail hF
    · exact hF
  have hkept : ∀ F ∈ (if (t.returning regs).isSome then t.handlers.tail else t.handlers), F.Kept mem :=
    fun F hF => hleaves.kept h.restores.kept F (hsub F hF)
  have hsound : ∀ F ∈ (if (t.returning regs).isSome then t.handlers.tail else t.handlers), F.Sound :=
    fun F hF => h.sound F (hsub F hF)
  cases htr : t.proc.trashed regs with
  | true =>
    -- No call is made, so the handler has not returned.
    rw [htr, if_pos rfl] at hs
    cases hs
    have hlow : regs.tf_sp < t.proc.p_daddr + t.proc.u_dsize := of_decide_eq_true htr
    constructor
    · intro hres F hF
      cases (hres.undone F hF).accepted
    · intro hsafe
      refine ⟨⟨hkept, fun F hF => ?_⟩, hsound, fun _ => huser⟩
      refine absurd ?_ (hsafe F hF).clear
      rwa [(returning_some hF).2]
  | false =>
    rw [htr, if_neg Bool.false_ne_true] at hs
    cases hs
    have hhigh : ¬ regs.tf_sp < t.proc.p_daddr + t.proc.u_dsize := of_decide_eq_false htr
    have htrapped := trapped_u_frame cfg t.proc regs
    obtain ⟨hlarge, hdaddr, hdsize⟩ := trapped_sizes cfg t.proc regs
    -- What the call reads is what the delivery stored.
    have hret : ∀ F, t.returning regs = some F → F.Sound ∧ mem.context (regs.tf_sp + 32) = ⟨F.onstack, F.mask, F.regs⟩ ∧
        ((Proc.sigreturn cfg (t.proc.trapped cfg regs) ⟨F.onstack, F.mask, F.regs⟩).u_error = .ejustreturn ↔
          F.Returnable cfg t.proc) := by
      intro F hF
      obtain ⟨hmem, hsfp⟩ := returning_some hF
      have hread := context_of_kept (hleaves.kept h.restores.kept F hmem)
      rw [hsfp] at hread
      refine ⟨h.sound F hmem, hread, ?_⟩
      have hiff := @sigreturn_taken cfg (t.proc.trapped cfg regs) F (h.sound F hmem) (by rw [htrapped, hsfp])
        (by rwa [hsfp, hdaddr, hdsize])
      rw [hiff]
      constructor
      · rintro ⟨hc, hx, he, hp, hk⟩
        rw [hlarge] at hx hp hk
        rw [hdaddr, hdsize] at hc
        exact ⟨hc, hx, he, hp, hk⟩
      · rintro ⟨hc, hx, he, hp, hk⟩
        refine ⟨?_, ?_, he, ?_, ?_⟩
        · rwa [hdaddr, hdsize]
        · rwa [hlarge]
        · rwa [hlarge]
        · rwa [hlarge]
    constructor
    · intro hres F hF
      obtain ⟨-, hread, htaken⟩ := hret F hF
      have haccepted := (hres.undone F hF).accepted
      rw [result_u_error, hread] at haccepted
      exact htaken.mp haccepted
    · intro hsafe
      refine ⟨⟨hkept, fun F hF => ?_⟩, hsound, fun _ => result_fromUser (sigreturn_fromUser (by rwa [htrapped]) _) r0⟩
      obtain ⟨hFsound, hread, htaken⟩ := hret F hF
      have haccepted := htaken.mpr (hsafe F hF)
      rw [hread, result_ejustreturn haccepted]
      exact undone_of_taken hFsound haccepted

/-- A context more, next to the others or over them. -/
theorem Thread.Whole.deliver (h : t.Whole) {G : Handler} (hG : G.Sound) (hframe : s.u_frame.fromUser = true) :
    (Thread.Restores ⟨s, t.mem.stores G.sf_sc, t.kernel, G :: t.handlers, none⟩ → ∀ F ∈ t.handlers, ∀ st ∈ F.sf_sc,
        ∀ st' ∈ G.sf_sc, st.addr = st'.addr → st.value = st'.value) ∧
      ((∀ F ∈ t.handlers, ∀ st ∈ F.sf_sc, ∀ st' ∈ G.sf_sc, st.addr = st'.addr → st.value = st'.value) →
        Thread.Whole ⟨s, t.mem.stores G.sf_sc, t.kernel, G :: t.handlers, none⟩) := by
  constructor
  · intro hres F hF st hst st' hst' haddr
    exact spare_of_kept (hres.kept F (List.mem_cons_of_mem _ hF)) hst hst' haddr
  · intro hspare
    refine ⟨⟨?_, nofun⟩, ?_, fun _ => hframe⟩
    · intro F hF
      rcases List.mem_cons.mp hF with rfl | hF
      · exact kept_self _ _
      · exact kept_stores (h.restores.kept F hF) (hspare F hF)
    · intro F hF
      rcases List.mem_cons.mp hF with rfl | hF
      · exact hG
      · exact h.sound F hF

theorem handler_sound (h : s.u_frame.fromUser = true) : (s.handler sig).Sound where
  regs := h
  onstack := (BitVec.and_assoc _ _ _).trans (congrArg _ BitVec.and_self)

/-- A delivery adds a context, and the others stay when it spares them, and only then. -/
theorem Thread.Whole.postsig (h : t.Whole) (hs : t.step cfg (.postsig sig) = some t') :
    (t'.Restores → t.SafeMove cfg (.postsig sig)) ∧ (t.SafeMove cfg (.postsig sig) → t'.Whole) := by
  dsimp only [Thread.step] at hs
  by_cases hgo : t.kernel = true ∧ t.proc.delivers sig
  case neg =>
    rw [if_neg hgo] at hs
    cases hs
  rw [if_pos hgo] at hs
  have huser := h.frame hgo.1
  by_cases hfits : t.proc.fits sig
  · obtain ⟨hstored, hframe⟩ := @postsig_fits cfg _ _ hfits
    obtain ⟨stored, s, hpost⟩ : ∃ stored s, t.proc.postsig cfg sig = (stored, s) := ⟨_, _, rfl⟩
    rw [hpost] at hs hstored hframe
    dsimp only at hstored hframe
    have hsame : Handler.mk s.u_frame.tf_sp t.proc.u_frame t.proc.returnmask
        (t.proc.u_sigstk.ss_flags &&& saOnstack) = t.proc.handler sig := by
      rw [hframe]
      rfl
    have hne := sf_sc_ne_nil (t.proc.handler sig)
    obtain ⟨st, rest, hcons⟩ := List.exists_cons_of_ne_nil hne
    rw [hstored, hcons] at hs
    dsimp only at hs
    rw [← hcons, hsame] at hs
    cases hs
    have hstart : s.u_frame.fromUser = true := by
      rw [hframe]
      exact entry_fromUser huser _ _
    obtain ⟨hneeds, hkeeps⟩ := h.deliver (handler_sound huser) hstart
    exact ⟨fun hres _ => hneeds hres, fun hsafe => hkeeps (hsafe hfits)⟩
  · obtain ⟨hstored, hframe⟩ := @postsig_not_fits cfg _ _ hfits
    obtain ⟨stored, s, hpost⟩ : ∃ stored s, t.proc.postsig cfg sig = (stored, s) := ⟨_, _, rfl⟩
    rw [hpost] at hs hstored hframe
    dsimp only at hstored hframe
    rw [hstored] at hs
    cases hs
    refine ⟨fun _ hf => absurd hf hfits, fun _ => ⟨⟨h.restores.kept, nofun⟩, h.sound, fun _ => ?_⟩⟩
    rw [hframe]
    exact huser

/-- One step. -/
theorem Thread.Whole.step (h : t.Whole) {m : Move} (hs : t.step cfg m = some t') :
    (t'.Restores → t.SafeMove cfg m) ∧ (t.SafeMove cfg m → t'.Whole) := by
  cases m with
  | call regs mem c r0 => exact ⟨fun _ => trivial, fun _ => h.call hs⟩
  | execve regs mem large tsize dsize ssize frame =>
    dsimp only [Thread.step] at hs
    by_cases hok : t.Traps regs mem ∧ t.proc.trashed regs = false ∧ frame.fromUser = true
    · rw [if_pos hok] at hs
      cases hs
      exact ⟨fun _ => trivial, fun _ => ⟨⟨nofun, nofun⟩, nofun, fun _ => hok.2.2⟩⟩
    · rw [if_neg hok] at hs
      cases hs
  | sigreturn regs mem r0 => exact h.sigreturn hs
  | left n =>
    dsimp only [Thread.step] at hs
    cases hkernel : t.kernel with
    | true =>
      rw [hkernel, if_pos rfl] at hs
      cases hs
    | false =>
      rw [hkernel, if_neg Bool.false_ne_true] at hs
      cases hs
      refine ⟨fun _ => trivial, fun _ => ⟨⟨fun F hF => ?_, nofun⟩, fun F hF => ?_, fun hk => ?_⟩⟩
      · exact h.restores.kept F (List.mem_of_mem_drop hF)
      · exact h.sound F (List.mem_of_mem_drop hF)
      · cases hk
  | pending sigs =>
    cases hs
    exact ⟨fun _ => trivial, fun _ => ⟨⟨h.restores.kept, nofun⟩, h.sound, h.frame⟩⟩
  | postsig sig => exact h.postsig hs
  | ret =>
    dsimp only [Thread.step] at hs
    split_ifs at hs
    cases hs
    exact ⟨fun _ => trivial, fun _ => ⟨⟨h.restores.kept, nofun⟩, h.sound, nofun⟩⟩

theorem whole_start (s : Proc) (mem : Memory) : (Thread.start s mem).Whole :=
  ⟨⟨nofun, nofun⟩, nofun, nofun⟩

end

/-- **The handlers of a run undo their deliveries exactly when they can return and no delivery stores over the
    context of another.** -/
theorem handlers_undo (cfg : Conf) (s : Proc) (mem : Memory) (moves : List Move) :
    Always (Thread.step cfg) Thread.Restores (Thread.start s mem) moves ↔
      Each (Thread.step cfg) (Thread.SafeMove cfg) (Thread.start s mem) moves :=
  always_iff_each (fun _ h => h.restores) (fun _ _ _ h hs => h.step hs) (whole_start s mem) moves

/-- The registers of a program at `svc`. -/
def svcRegs (sp : Word) : Trapframe :=
  { Proc.fresh.u_frame with tf_sp := sp, tf_pc := 0x20000402, tf_psr := psrThumb }

/-- Both signals of a program with two handlers are posted on the way out of one call. The handler that is
    entered, the one of the second, is to go back to the first instruction of the other, whose address is odd. -/
theorem second_handler_stuck :
    ∃ s mem moves, ¬ Always (Thread.step Swap.pico) Thread.Restores (Thread.start s mem) moves := by
  obtain ⟨moves, hrun⟩ : ∃ moves, ((runOn (Thread.step Swap.pico) (Thread.start Proc.fresh fun _ => 0) moves).bind
      fun t => (t.step Swap.pico (.sigreturn (svcRegs 0x20023a30) t.mem 22)).map
        fun t => (t.returned.map fun F => F.regs.tf_pc, t.proc.u_error)) = some (some 0x20000301, .einval) := by
    refine ⟨[.execve (svcRegs 0x20023c00) (fun _ => 0) false 0 0x1000 0x800 (svcRegs 0x20023b00), .ret,
      .call (svcRegs 0x20023b00) (fun _ => 0) (.sigaction 30 0x20000100 0 0x20000201 ⟨0x20000301, 0, 0⟩) 0, .ret,
      .call (svcRegs 0x20023b00) (fun _ => 0) (.sigaction 31 0x20000100 0 0x20000201 ⟨0x20000381, 0, 0⟩) 0, .ret,
      .call (svcRegs 0x20023b00) (fun _ => 0) (.other .none) 0, .pending (sigmask 30 ||| sigmask 31), .postsig 30,
      .postsig 31, .ret], ?_⟩
    decide +kernel
  obtain ⟨t, ht, hstep⟩ := Option.bind_eq_some_iff.mp hrun
  obtain ⟨t', ht', heq⟩ := Option.map_eq_some_iff.mp hstep
  obtain ⟨hret, herror⟩ := Prod.mk.inj heq
  obtain ⟨F, hF, -⟩ := Option.map_eq_some_iff.mp hret
  refine ⟨Proc.fresh, fun _ => 0, moves ++ [.sigreturn (svcRegs 0x20023a30) t.mem 22], fun halways => ?_⟩
  have hend := halways.runOn (runOn_snoc ht ht')
  cases herror.symm.trans (hend.undone F hF).accepted

end DiscoBSD.Signal
