import DiscoBSD.Exec.Stack
import DiscoBSD.Swap.TableRoom

/-!
# Arguments from the old image to the new

From `exec_save_args` to the end of an exec. In between the process sleeps, in `geteblk` and on its
executable, and the rest of the kernel runs; what it has to leave alone is `Intact`. An image that fits the
window leaves the spool where it is. A larger one has it moved to flash first and is then given the
larger window.

The strings always arrive. What can go wrong is the end: **a spool in the pool has to be given back, and
the pool can refuse**, for its segment table is one entry larger than the process table and not than what
the processes can hold.
-/

set_option autoImplicit false

namespace DiscoBSD.Exec

open DiscoBSD.Lib DiscoBSD.Rmap DiscoBSD.Swapram
open DiscoBSD.Swap (Kernel Conf Reachable Event Slot nproc wide others evens zeroU)

/-- The exec from `exec_setupstack` on: the stack carries the arguments, and the spool can be discarded. -/
def Completes (cfg : Conf) (large : Bool) (σ : Kernel) (epp : ExecArgs) (args envs : List (List UInt8)) :
    Prop :=
  (∀ mem entry, ∃ img,
    execSetupstack cfg σ epp (userTop cfg large - stackLen epp) mem entry = .ok img ∧
      Carries img (userTop cfg large - stackLen epp) (userTop cfg large) args envs) ∧
    Avoids spoolPanics (execSpoolDiscard σ epp.spool)

/-- The move to flash, with whatever run was reserved, and the exec from there on. -/
def MovesAndCompletes (cfg : Conf) (σ : Kernel) (epp : ExecArgs) (blkno span : Nat)
    (args envs : List (List UInt8)) : Prop :=
  ∃ σ' sp, execSpoolMove cfg σ (epp.spool.onFlash blkno span) epp.spool.ramoff = .ok (σ', sp) ∧
    Intact cfg σ' sp (records (args ++ envs)) ∧
    ∀ τ, Intact cfg τ sp (records (args ++ envs)) →
      Completes cfg true τ { epp with spool := sp } args envs

section
variable {cfg : Conf} {σ : Kernel} {epp : ExecArgs} {args envs : List (List UInt8)}

/-- The stack fits under the top of the window. -/
theorem Saved.stackLen_le (h : Saved cfg σ epp args envs) (large : Bool) :
    stackLen epp ≤ userTop cfg large := by
  have h1 := length_le_stringBytes args
  have h2 := length_le_stringBytes envs
  have hle := h.le
  have hlt := roundUp_lt (show 0 < nbpw by decide) (epp.argbc + epp.envbc)
  have htop : userDataEnd ≤ userTop cfg large := Nat.le_add_right _ _
  rw [stackLen]
  rw [h.argbc, h.envbc] at hlt ⊢
  rw [h.argc, h.envc]
  unfold ncargs at hle
  unfold userDataEnd at htop
  unfold nbpw ssize at *
  omega

theorem userTop_aligned (hkb : 1024 ∣ cfg.pool) (large : Bool) : stackalign ∣ userTop cfg large := by
  have hpool : stackalign ∣ cfg.pool := Nat.dvd_trans (by decide) hkb
  refine Nat.dvd_add (by decide) ?_
  cases large with
  | false => exact Nat.dvd_zero _
  | true => exact hpool

theorem userTop_lt (cfg : Conf) (large : Bool) : userTop cfg large < 2 ^ 32 := by
  have hle := cfg.pool_le
  unfold Swap.sram at hle
  unfold userTop userDataEnd
  split
  · omega
  · omega

/-- With a whole spool an exec completes exactly when the pool takes the spool back. -/
theorem Saved.completes_iff (h : Saved cfg σ epp args envs) (hkb : 1024 ∣ cfg.pool) (large : Bool) :
    Completes cfg large σ epp args envs ↔ GivesBack σ epp.spool := by
  constructor
  · intro hc
    exact (execSpoolDiscard_avoids_iff h.intact).mp hc.2
  · intro hg
    refine ⟨fun mem entry => ?_, (execSpoolDiscard_avoids_iff h.intact).mpr hg⟩
    exact execSetupstack_carries mem h (Nat.sub_add_cancel (h.stackLen_le large)) (userTop_aligned hkb large)
      (userTop_lt cfg large)

/-- And it can be moved and completes then exactly when the pool takes the spool back at the move. -/
theorem Saved.moves_iff (h : Saved cfg σ epp args envs) (hkb : 1024 ∣ cfg.pool)
    (hram : epp.spool.backing = .swapram) (blkno span : Nat) :
    MovesAndCompletes cfg σ epp blkno span args envs ↔ GivesBack σ epp.spool := by
  constructor
  · rintro ⟨σ', sp, hmove, _⟩
    by_contra hg
    rw [execSpoolMove_refused h.intact hram blkno span hg] at hmove
    cases hmove
  · intro hg
    obtain ⟨σ', sp, hmove, hintact, hback, _⟩ := execSpoolMove_moved h.intact hram blkno span hg
    refine ⟨σ', sp, hmove, hintact, fun τ hτ => ?_⟩
    have hsaved : Saved cfg τ { epp with spool := sp } args envs :=
      ⟨h.argc, h.envc, h.argbc, h.envbc, h.le, hτ⟩
    exact (hsaved.completes_iff hkb true).mpr fun hn => absurd (hback.symm.trans hn) (nomatch ·)

end

/-- **Arguments arrive.** `exec_save_args` meets none of the panics; what it accepts are the strings that
    the caller's vectors and the script lead to, and it leaves them whole. From any kernel that has left
    the spool whole, the exec completes if and only if the pool takes the spool back when it comes to
    that: at the end for an image that fits the window, or at the move to flash for a larger one; and
    always when the spool is not in the pool. -/
theorem exec_args_round_trip {cfg : Conf} {σ : Kernel} {u : UserMem} {x : ExecParams} {sp : ExecSpool}
    (hσ : Reachable cfg σ) (hkb : 1024 ∣ cfg.pool) (hnone : sp.backing = .none) :
    Avoids spoolPanics (execSaveArgs cfg σ u x sp) ∧
      ∀ epp σ₁, execSaveArgs cfg σ u x sp = .ok (.ok (epp, σ₁)) →
        ∃ args envs, SuppliedArgs u x args ∧ Pointers u x.userenvp envs ∧
          Intact cfg σ₁ epp.spool (records (args ++ envs)) ∧
          (∀ σ₂, Intact cfg σ₂ epp.spool (records (args ++ envs)) →
            (Completes cfg false σ₂ epp args envs ↔ GivesBack σ₂ epp.spool)) ∧
          (epp.spool.backing ≠ .swapram → ∀ σ₂, Intact cfg σ₂ epp.spool (records (args ++ envs)) →
            Completes cfg true σ₂ epp args envs) ∧
          (epp.spool.backing = .swapram → ∀ σ₂, Intact cfg σ₂ epp.spool (records (args ++ envs)) →
            ∀ blkno span, MovesAndCompletes cfg σ₂ epp blkno span args envs ↔ GivesBack σ₂ epp.spool) := by
  have htier := Swap.Runs.tierInv hσ
  have hpool : σ.sr_map.p_size ≤ cfg.pool := by
    rw [htier.table.1]
    exact Nat.div_mul_le_self _ _
  obtain ⟨havoid, hsaved⟩ := @execSaveArgs_saved cfg σ u x sp _ htier.pool hpool hnone
  refine ⟨havoid, fun epp σ₁ hcall => ?_⟩
  obtain ⟨args, envs, hargs, henvs, hs⟩ := hsaved epp σ₁ hcall
  -- The counts do not depend on the kernel, so whatever leaves the spool whole leaves it saved.
  have hlater : ∀ τ, Intact cfg τ epp.spool (records (args ++ envs)) → Saved cfg τ epp args envs :=
    fun τ hτ => ⟨hs.argc, hs.envc, hs.argbc, hs.envbc, hs.le, hτ⟩
  refine ⟨args, envs, hargs, henvs, hs.intact, fun σ₂ h₂ => ?_, fun hno σ₂ h₂ => ?_,
    fun hram σ₂ h₂ blkno span => ?_⟩
  · exact (hlater σ₂ h₂).completes_iff hkb false
  · exact ((hlater σ₂ h₂).completes_iff hkb true).mpr fun hram => absurd hram hno
  · exact (hlater σ₂ h₂).moves_iff hkb hram blkno span

/-! ## Two execs -/

/-- The parameters of an exec start out zeroed. -/
def zeroSpool : ExecSpool := ⟨.none, 0, 0, 0, 0, 0, fun _ => 0, 0, 0⟩

/-- A window with a vector of one string at its start. -/
def oneArg (s : List UInt8) : UserMem where
  lower := 0x20000000
  upper := userDataEnd
  mem := fun a => ((leBytes 4 0x20000008 ++ leBytes 4 0 ++ terminated s)[a - 0x20000000]?).getD 0

/-- An exec with that vector and no environment. -/
def oneArgExec : ExecParams := ⟨0, 0x20000000, 0, false, [], []⟩

/-- Twenty-nine characters: the record has 32 bytes. -/
def longName : List UInt8 := List.replicate 29 97

/-- What a check finds when `exec_save_args` accepts. -/
def accepted (check : ExecArgs → Kernel → Bool) (r : Except Fault (Except Errno (ExecArgs × Kernel))) : Bool :=
  match r with
  | .ok (.ok (epp, σ)) => check epp σ
  | _ => false

theorem accepted_spec {check : ExecArgs → Kernel → Bool}
    {r : Except Fault (Except Errno (ExecArgs × Kernel))} (h : accepted check r = true) :
    ∃ epp σ, r = .ok (.ok (epp, σ)) ∧ check epp σ = true := by
  unfold accepted at h
  split at h
  · exact ⟨_, _, rfl, h⟩
  · cases h

/-- The exec of a program with a long name, on a kernel that has just booted. -/
theorem exec_args_round_trip_boot : ∃ σ epp σ₁ args envs, Reachable wide σ ∧
    execSaveArgs wide σ (oneArg longName) oneArgExec zeroSpool = .ok (.ok (epp, σ₁)) ∧
    SuppliedArgs (oneArg longName) oneArgExec args ∧ Completes wide false σ₁ epp args envs := by
  obtain ⟨σ, hrun, hσ⟩ := Swap.Runs.given wide (fun _ _ => true) []
    (fun σ => accepted (fun _ τ => decide (τ.sr_map.p_seg.length ≠ τ.sr_map.p_nseg))
      (execSaveArgs wide σ (oneArg longName) oneArgExec zeroSpool)) rfl (by decide +kernel)
  obtain ⟨epp, σ₁, hcall, hroom⟩ := accepted_spec hσ
  obtain ⟨args, envs, hargs, _, hintact, hsmall, _⟩ :=
    (exec_args_round_trip hrun.reachable (by decide) rfl).2 epp σ₁ hcall
  refine ⟨σ, epp, σ₁, args, envs, hrun.reachable, hcall, hargs, (hsmall σ₁ hintact).mpr ?_⟩
  intro _ _
  exact of_decide_eq_true hroom

/-- Process 2 saves its arguments where its image has been, between the pool's start and the image of
    process 3. -/
def beforeSpool : List Event := others.map (fun p => .fork 1 p zeroU) ++ [.swapout 1 zeroU, .swapin 2]

/-- It sleeps on its executable, and the others fill the segment table: some with spools of their own,
    and all with images that come and go. Then it is swapped in. -/
def afterSpool : List Event :=
  [.spoolAlloc 2 32, .spoolWrite 2 0 (record longName), .swapout 2 zeroU] ++
    evens.flatMap (fun p => [.swapin p, .spoolAlloc p 740, .swapout p zeroU]) ++
    evens.dropLast.flatMap (fun p => [.swapin p, .swapout p zeroU]) ++
    [1, 6, 10, 14, 18].flatMap (fun p => [.swapin p, .swapout p zeroU]) ++ [.swapin 2]

/-- The image is complete and its exec panics. -/
theorem exec_args_spool_refused : ∃ σ epp σ₁ σ₂, Reachable wide σ ∧
    execSaveArgs wide σ (oneArg longName) oneArgExec zeroSpool = .ok (.ok (epp, σ₁)) ∧
    Reachable wide σ₂ ∧ σ₂.spool 2 = .swapram epp.spool.ramoff epp.spool.size ∧
    Intact wide σ₂ epp.spool (records [longName]) ∧
    execSpoolDiscard σ₂ epp.spool = .error (.panic "swapram: spool free") := by
  obtain ⟨σ, hrun, hσ⟩ := Swap.Runs.givenZero wide (fun _ _ => true) beforeSpool
    (fun σ => accepted (fun epp _ => decide (epp.spool.backing = .swapram ∧ epp.spool.ramoff = 0 ∧
      epp.spool.size = 32)) (execSaveArgs wide σ (oneArg longName) oneArgExec zeroSpool)) rfl
    (by decide +kernel)
  obtain ⟨epp, σ₁, hcall, hplace⟩ := accepted_spec hσ
  obtain ⟨hback, hoff, hsize⟩ := of_decide_eq_true hplace
  obtain ⟨σ₂, hrun₂, hσ₂⟩ := Swap.Runs.givenZero wide (fun _ _ => true) (beforeSpool ++ afterSpool)
    (fun σ => decide (σ.spool 2 = .swapram 0 32) && decide (readAt σ.sr_pool 0 32 = records [longName]) &&
      decide (σ.sr_spools ≠ 0) && decide ((swapramPoolFree σ.sr_map 0 32).1 = false)) rfl (by decide +kernel)
  simp only [Bool.and_eq_true, decide_eq_true_eq] at hσ₂
  obtain ⟨⟨⟨hspool, hbytes⟩, hcount⟩, hfalse⟩ := hσ₂
  have htier := hrun₂.tierInv
  refine ⟨σ, epp, σ₁, σ₂, hrun.reachable, hcall, hrun₂.reachable, by rw [hoff, hsize]; exact hspool,
    ⟨⟨?_, fun hn => absurd (hback.symm.trans hn) (nomatch ·), fun _ => ?_,
      fun hn => absurd (hback.symm.trans hn) (nomatch ·)⟩, fun _ => ⟨hcount, σ₂.held, htier.pool, ?_⟩⟩, ?_⟩
  · rw [hsize]
    rfl
  · rw [hoff, hsize]
    exact ⟨by decide, hbytes⟩
  · rw [hoff, hsize]
    refine (Swap.held_spool σ₂ 2).mem_iff.mpr (List.mem_append_left _ ?_)
    rw [hspool]
    exact List.mem_singleton.mpr rfl
  · simp only [execSpoolDiscard, hback, hoff, hsize, Swap.swapramSpoolFree, if_neg hcount]
    split
    · rfl
    · rename_i hcallfree
      rw [hcallfree] at hfalse
      cases hfalse

end DiscoBSD.Exec
