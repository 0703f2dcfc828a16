import DiscoBSD.Lib.Slots
import DiscoBSD.Flock.Lock

/-!
# Locks exclude each other

The counts of the inode are the locks of its open files, and its flags say which counts are not zero. **At
most one file is locked exclusively, and then none is shared**: a lock is only given out past both waits,
with the flags as they stand.

A process that waits has no lock: it gave its own away before. When its call fails, a lock that its open file
has all the same is one that was reported to another process with the same open file. And no process is left
asleep when the inode has become free, since every release of a last lock wakes all of them up.
-/

set_option autoImplicit false

namespace DiscoBSD.Flock

open DiscoBSD.Lib
open Function (update)

/-- The files with a shared lock. -/
def nshared (nfile : ℕ) (file : ℕ → File) : ℕ := (List.range nfile).countP fun fp => (file fp).fshlock

/-- The files with an exclusive lock. -/
def nexclusive (nfile : ℕ) (file : ℕ → File) : ℕ := (List.range nfile).countP fun fp => (file fp).fexlock

/-- What the inode, the files and the sleepers agree on between two steps, and inside one. -/
structure Locks (nfile : ℕ) (w : World) : Prop where
  shared : w.i_shlockc = nshared nfile w.file
  exclusive : w.i_exlockc = nexclusive nfile w.file
  ishlock : w.ishlock = decide (0 < w.i_shlockc)
  iexlock : w.iexlock = decide (0 < w.i_exlockc)
  one : w.i_exlockc ≤ 1
  excluded : 0 < w.i_exlockc → w.i_shlockc = 0
  asleep : ∀ p fp cmd, w.proc p = .asleep fp cmd → w.ilwait = true ∧ (w.ishlock = true ∨ w.iexlock = true)
  waiting : ∀ p fp cmd, w.proc p = .asleep fp cmd ∨ w.proc p = .woken fp cmd → fp < nfile

/-- The processes are where they were, some of them woken up. -/
def Woke (w w' : World) : Prop :=
  ∀ p, w'.proc p = w.proc p ∨ ∃ fp cmd, w.proc p = .asleep fp cmd ∧ w'.proc p = .woken fp cmd

section

variable {nfile fp : ℕ} {w w' : World}

theorem Woke.refl (w : World) : Woke w w := fun _ => .inl rfl

theorem Woke.trans {w'' : World} (h : Woke w w') (h' : Woke w' w'') : Woke w w'' := by
  intro p
  rcases h' p with h₂ | ⟨fp, cmd, h₂, h₃⟩
  · rw [h₂]
    exact h p
  · rcases h p with h₁ | ⟨fp', cmd', h₁, h₄⟩
    · exact .inr ⟨fp, cmd, h₁ ▸ h₂, h₃⟩
    · rw [h₄] at h₂
      cases h₂

/-- A process that waits after the step waited before it. -/
theorem Woke.waited (h : Woke w w') {p : ℕ} {cmd : Cmd}
    (hp : w'.proc p = .asleep fp cmd ∨ w'.proc p = .woken fp cmd) :
    w.proc p = .asleep fp cmd ∨ w.proc p = .woken fp cmd := by
  rcases h p with h₁ | ⟨fp', cmd', h₁, h₂⟩
  · rwa [h₁] at hp
  · rw [h₂] at hp
    rcases hp with hp | hp
    · cases hp
    · cases hp
      exact .inl h₁

theorem woke_wakeup (w : World) : Woke w w.wakeup := by
  intro p
  unfold World.wakeup
  dsimp only
  split
  · next fp cmd hp => exact .inr ⟨fp, cmd, hp, rfl⟩
  · exact .inl rfl

theorem wakeup_not_asleep (w : World) (p : ℕ) (cmd : Cmd) : w.wakeup.proc p ≠ .asleep fp cmd := by
  unfold World.wakeup
  dsimp only
  split
  · exact nofun
  · next hp => exact hp fp cmd

theorem nshared_update (hfp : fp < nfile) (file : ℕ → File) (f : File) :
    nshared nfile (update file fp f) + (file fp).fshlock.toNat = nshared nfile file + f.fshlock.toNat := by
  have hmem := List.mem_range.mpr hfp
  have hup := countP_update (fun i => (file i).fshlock) f.fshlock (@List.nodup_range nfile) hmem
  have hsplit := countP_split (fun i => (file i).fshlock) (@List.nodup_range nfile) hmem
  have hcomp : (fun i => (update file fp f i).fshlock) = update (fun i => (file i).fshlock) fp f.fshlock :=
    funext fun i => Function.apply_update (fun _ => File.fshlock) file fp f i
  unfold nshared
  rw [hcomp, hup, hsplit]
  omega

theorem nexclusive_update (hfp : fp < nfile) (file : ℕ → File) (f : File) :
    nexclusive nfile (update file fp f) + (file fp).fexlock.toNat = nexclusive nfile file + f.fexlock.toNat := by
  have hmem := List.mem_range.mpr hfp
  have hup := countP_update (fun i => (file i).fexlock) f.fexlock (@List.nodup_range nfile) hmem
  have hsplit := countP_split (fun i => (file i).fexlock) (@List.nodup_range nfile) hmem
  have hcomp : (fun i => (update file fp f i).fexlock) = update (fun i => (file i).fexlock) fp f.fexlock :=
    funext fun i => Function.apply_update (fun _ => File.fexlock) file fp f i
  unfold nexclusive
  rw [hcomp, hup, hsplit]
  omega

theorem nshared_le (nfile : ℕ) (file : ℕ → File) : nshared nfile file ≤ nfile := by
  unfold nshared
  simpa using @List.countP_le_length _ (fun fp => (file fp).fshlock) (List.range nfile)

theorem wrap_pred {n : ℕ} (h₀ : 0 < n) (h : n ≤ 2 ^ 16) : wrap 16 (n + (2 ^ 16 - 1)) = n - 1 := by
  unfold wrap
  omega

/-! ## ino_unlock -/

/-- The shared lock of a file is taken back. -/
theorem Locks.unlockShared (h : Locks nfile w) (hn : nfile < 2 ^ 16) (hfp : fp < nfile)
    (hf : (w.file fp).fshlock = true) :
    Locks nfile (w.unlockShared fp w.ilwait) ∧ Woke w (w.unlockShared fp w.ilwait) ∧
      (w.unlockShared fp w.ilwait).file = update w.file fp ⟨false, (w.file fp).fexlock⟩ := by
  have hle := nshared_le nfile w.file
  have hsh := h.shared
  have hone := h.one
  have hs : nshared nfile (update w.file fp ⟨false, (w.file fp).fexlock⟩) + 1 = w.i_shlockc := by
    have hcount := nshared_update hfp w.file ⟨false, (w.file fp).fexlock⟩
    rwa [hf, ← hsh] at hcount
  have he : w.i_exlockc = nexclusive nfile (update w.file fp ⟨false, (w.file fp).fexlock⟩) := by
    have hcount := nexclusive_update hfp w.file ⟨false, (w.file fp).fexlock⟩
    rw [h.exclusive]
    exact (Nat.add_right_cancel hcount).symm
  have hwrap : wrap 16 (w.i_shlockc + (2 ^ 16 - 1)) = w.i_shlockc - 1 := wrap_pred (by omega) (by omega)
  have hex : w.i_exlockc = 0 := by
    have := h.excluded
    omega
  -- When the last lock goes everybody is woken up, or nobody was asleep.
  by_cases hlast : w.i_shlockc - 1 = 0
  · have hzero : 0 = nshared nfile (update w.file fp ⟨false, (w.file fp).fexlock⟩) := by omega
    cases hw : w.ilwait with
    | true =>
      simp only [World.unlockShared, hwrap, hlast, if_true]
      refine ⟨⟨hzero, he, rfl, h.iexlock, hone, fun _ => rfl, ?_, ?_⟩, woke_wakeup w, rfl⟩
      · exact fun p f cmd hp => absurd hp (wakeup_not_asleep w p cmd)
      · exact fun p f cmd hp => h.waiting p f cmd ((woke_wakeup w).waited hp)
    | false =>
      simp only [World.unlockShared, hwrap, hlast, if_true, Bool.false_eq_true, if_false]
      refine ⟨⟨hzero, he, rfl, h.iexlock, hone, fun _ => rfl, ?_, h.waiting⟩, Woke.refl w, rfl⟩
      intro p f cmd hp
      have := (h.asleep p f cmd hp).1
      rw [hw] at this
      cases this
  · have hpred : w.i_shlockc - 1 = nshared nfile (update w.file fp ⟨false, (w.file fp).fexlock⟩) := by omega
    simp only [World.unlockShared, hwrap, if_neg hlast]
    refine ⟨⟨hpred, he, ?_, h.iexlock, hone, ?_, h.asleep, h.waiting⟩, Woke.refl w, rfl⟩
    · show w.ishlock = decide (0 < w.i_shlockc - 1)
      rw [h.ishlock]
      exact decide_eq_decide.mpr (by omega)
    · intro hpos
      exact absurd hex (Nat.ne_of_gt hpos)

/-- The exclusive lock of a file is taken back: it was the only one. -/
theorem Locks.unlockExclusive (h : Locks nfile w) (hfp : fp < nfile)
    (hf : (w.file fp).fexlock = true) :
    Locks nfile (w.unlockExclusive fp w.ilwait) ∧ Woke w (w.unlockExclusive fp w.ilwait) ∧
      (w.unlockExclusive fp w.ilwait).file = update w.file fp ⟨(w.file fp).fshlock, false⟩ := by
  have hone := h.one
  have he : nexclusive nfile (update w.file fp ⟨(w.file fp).fshlock, false⟩) + 1 = w.i_exlockc := by
    have hcount := nexclusive_update hfp w.file ⟨(w.file fp).fshlock, false⟩
    rwa [hf, ← h.exclusive] at hcount
  have hs : w.i_shlockc = nshared nfile (update w.file fp ⟨(w.file fp).fshlock, false⟩) := by
    have hcount := nshared_update hfp w.file ⟨(w.file fp).fshlock, false⟩
    rw [h.shared]
    exact (Nat.add_right_cancel hcount).symm
  have hwrap : wrap 16 (w.i_exlockc + (2 ^ 16 - 1)) = w.i_exlockc - 1 := wrap_pred (by omega) (by omega)
  have hlast : w.i_exlockc - 1 = 0 := by omega
  have hnone : 0 = nexclusive nfile (update w.file fp ⟨(w.file fp).fshlock, false⟩) := by omega
  have hzero : w.i_shlockc = 0 := h.excluded (by omega)
  cases hw : w.ilwait with
  | true =>
    simp only [World.unlockExclusive, hwrap, hlast, if_true]
    refine ⟨⟨hs, hnone, h.ishlock, rfl, Nat.zero_le 1, fun _ => hzero, ?_, ?_⟩, woke_wakeup w, rfl⟩
    · exact fun p f cmd hp => absurd hp (wakeup_not_asleep w p cmd)
    · exact fun p f cmd hp => h.waiting p f cmd ((woke_wakeup w).waited hp)
  | false =>
    simp only [World.unlockExclusive, hwrap, hlast, if_true, Bool.false_eq_true, if_false]
    refine ⟨⟨hs, hnone, h.ishlock, rfl, Nat.zero_le 1, fun _ => hzero, ?_, h.waiting⟩, Woke.refl w, rfl⟩
    intro p f cmd hp
    have := (h.asleep p f cmd hp).1
    rw [hw] at this
    cases this

/-- A file has no two locks. -/
theorem Locks.not_both (h : Locks nfile w) (hfp : fp < nfile) (hex : (w.file fp).fexlock = true) (g : ℕ)
    (hg : g < nfile) : (w.file g).fshlock = false := by
  have hpos : 0 < nexclusive nfile w.file := List.countP_pos_iff.mpr ⟨fp, List.mem_range.mpr hfp, hex⟩
  have hzero := h.excluded (by rw [h.exclusive]; exact hpos)
  rw [h.shared] at hzero
  have := List.countP_eq_zero.mp hzero g (List.mem_range.mpr hg)
  simpa using this

/-- `ino_unlock` takes back what it is asked for. -/
theorem Locks.ino_unlock (h : Locks nfile w) (hn : nfile < 2 ^ 16) (hfp : fp < nfile) (sh ex : Bool) :
    Locks nfile (w.ino_unlock fp sh ex) ∧ Woke w (w.ino_unlock fp sh ex) ∧
      (w.ino_unlock fp sh ex).file =
        update w.file fp ⟨(w.file fp).fshlock && !sh, (w.file fp).fexlock && !ex⟩ := by
  have hsame : ∀ b₁ b₂ : Bool, (w.file fp).fshlock = b₁ → (w.file fp).fexlock = b₂ →
      w.file = update w.file fp ⟨b₁, b₂⟩ := by
    rintro b₁ b₂ rfl rfl
    exact (Function.update_eq_self fp w.file).symm
  by_cases hsh : (sh && (w.file fp).fshlock) = true
  · obtain ⟨hs, hf⟩ := (Bool.and_eq_true _ _).mp hsh
    have hex : (w.file fp).fexlock = false := by
      by_contra hne
      rw [h.not_both hfp (by simpa using hne) fp hfp] at hf
      cases hf
    have hu := h.unlockShared hn hfp hf
    simpa only [World.ino_unlock, hs, hf, hex, Bool.and_false, Bool.and_true, if_true, Bool.false_eq_true,
      if_false, Bool.not_true, Bool.false_and] using hu
  · by_cases hex : (ex && (w.file fp).fexlock) = true
    · obtain ⟨he, hf⟩ := (Bool.and_eq_true _ _).mp hex
      have hu := h.unlockExclusive hfp hf
      have hnone := h.not_both hfp hf fp hfp
      simpa only [World.ino_unlock, he, hf, hnone, Bool.and_false, Bool.and_true, if_true, Bool.false_eq_true,
        if_false, Bool.not_true, Bool.false_and] using hu
    · have heq : w.ino_unlock fp sh ex = w := by
        simp only [World.ino_unlock, hsh, hex, Bool.false_eq_true, if_false]
      rw [heq]
      refine ⟨h, Woke.refl w, hsame _ _ ?_ ?_⟩
      · revert hsh
        cases (w.file fp).fshlock <;> cases sh <;> decide
      · revert hex
        cases (w.file fp).fexlock <;> cases ex <;> decide

theorem unlockShared_holder (w : World) (fp : ℕ) (waiting : Bool) :
    (w.unlockShared fp waiting).holder = w.holder := by
  unfold World.unlockShared
  generalize wrap 16 (w.i_shlockc + (2 ^ 16 - 1)) = n
  by_cases hn : n = 0 <;> cases waiting <;> simp [hn, World.setFile, World.wakeup]

theorem unlockExclusive_holder (w : World) (fp : ℕ) (waiting : Bool) :
    (w.unlockExclusive fp waiting).holder = w.holder := by
  unfold World.unlockExclusive
  generalize wrap 16 (w.i_exlockc + (2 ^ 16 - 1)) = n
  by_cases hn : n = 0 <;> cases waiting <;> simp [hn, World.setFile, World.wakeup]

/-- No process is told anything by `ino_unlock`. -/
theorem ino_unlock_holder (w : World) (fp : ℕ) (sh ex : Bool) : (w.ino_unlock fp sh ex).holder = w.holder := by
  unfold World.ino_unlock
  dsimp only
  split_ifs <;> simp only [unlockShared_holder, unlockExclusive_holder]

/-! ## ino_lock -/

/-- Past both waits the lock is nobody else's. -/
theorem Locks.grant (h : Locks nfile w) (hn : nfile < 2 ^ 16) (hfp : fp < nfile) (cmd : Cmd)
    (hfree : w.iexlock = false) (hshared : cmd.ex = true → w.ishlock = false) :
    Locks nfile (w.grant fp cmd) ∧ Woke w (w.grant fp cmd) ∧
      (∀ g ≠ fp, (w.grant fp cmd).file g = w.file g) ∧ (w.grant fp cmd).holder = w.holder := by
  have hex : w.i_exlockc = 0 := by
    have := h.iexlock
    rw [hfree] at this
    have := of_decide_eq_false this.symm
    omega
  cases hc : cmd.ex with
  | true =>
    have hsh : w.i_shlockc = 0 := by
      have := h.ishlock
      rw [hshared hc] at this
      have := of_decide_eq_false this.symm
      omega
    have hf : (w.file fp).fexlock = false := by
      have hnone : nexclusive nfile w.file = 0 := by rw [← h.exclusive, hex]
      simpa using List.countP_eq_zero.mp hnone fp (List.mem_range.mpr hfp)
    have he : 1 = nexclusive nfile (update w.file fp ⟨(w.file fp).fshlock, true⟩) := by
      have hcount := nexclusive_update hfp w.file ⟨(w.file fp).fshlock, true⟩
      rw [hf, ← h.exclusive, hex] at hcount
      exact hcount.symm
    have hs : w.i_shlockc = nshared nfile (update w.file fp ⟨(w.file fp).fshlock, true⟩) := by
      have hcount := nshared_update hfp w.file ⟨(w.file fp).fshlock, true⟩
      rw [h.shared]
      exact (Nat.add_right_cancel hcount).symm
    have hone : wrap 16 (0 + 1) = 1 := rfl
    simp only [World.grant, hc, if_true, hex, hone]
    refine ⟨⟨hs, he, h.ishlock, rfl, le_rfl, fun _ => hsh, ?_, h.waiting⟩, Woke.refl w, ?_, rfl⟩
    · exact fun p f c hp => ⟨(h.asleep p f c hp).1, .inr rfl⟩
    · exact fun g hg => Function.update_of_ne hg _ _
  | false =>
    by_cases hnew : (cmd.sh && !(w.file fp).fshlock) = true
    · have hf : (w.file fp).fshlock = false := by
        revert hnew
        cases (w.file fp).fshlock <;> simp
      have hle := nshared_le nfile (update w.file fp ⟨true, (w.file fp).fexlock⟩)
      have hs : w.i_shlockc + 1 = nshared nfile (update w.file fp ⟨true, (w.file fp).fexlock⟩) := by
        have hcount := nshared_update hfp w.file ⟨true, (w.file fp).fexlock⟩
        rw [hf, ← h.shared] at hcount
        exact hcount.symm
      have he : w.i_exlockc = nexclusive nfile (update w.file fp ⟨true, (w.file fp).fexlock⟩) := by
        have hcount := nexclusive_update hfp w.file ⟨true, (w.file fp).fexlock⟩
        rw [h.exclusive]
        exact (Nat.add_right_cancel hcount).symm
      have hwrap : wrap 16 (w.i_shlockc + 1) = w.i_shlockc + 1 := Nat.mod_eq_of_lt (by omega)
      simp only [World.grant, hc, Bool.false_eq_true, if_false, hnew, if_true, hwrap]
      refine ⟨⟨hs, he, ?_, h.iexlock, h.one, ?_, ?_, h.waiting⟩, Woke.refl w, ?_, rfl⟩
      · exact (decide_eq_true (Nat.succ_pos _)).symm
      · intro hpos
        exact absurd hex (Nat.ne_of_gt hpos)
      · exact fun p f c hp => ⟨(h.asleep p f c hp).1, .inl rfl⟩
      · exact fun g hg => Function.update_of_ne hg _ _
    · have heq : w.grant fp cmd = w := by simp only [World.grant, hc, Bool.false_eq_true, if_false, hnew]
      rw [heq]
      exact ⟨h, Woke.refl w, fun _ _ => rfl, rfl⟩

/-- What a stretch of `ino_lock` leaves. -/
structure Ended (nfile fp : ℕ) (w : World) (r : World.Result) (w' : World) : Prop where
  locks : Locks nfile w'
  woke : Woke w w'
  others : ∀ g ≠ fp, w'.file g = w.file g
  holder : w'.holder = w.holder
  none : r ≠ .granted → w'.file fp = ⟨false, false⟩
  waits : r = .sleeps → w'.ilwait = true ∧ (w'.ishlock = true ∨ w'.iexlock = true)

/-- A stretch after a lock of the file's own has been taken back. -/
theorem Ended.after {r : World.Result} {w'' : World} (hl : Woke w w') (hf : ∀ g ≠ fp, w'.file g = w.file g)
    (hh : w'.holder = w.holder) (h : Ended nfile fp w' r w'') : Ended nfile fp w r w'' :=
  ⟨h.locks, hl.trans h.woke, fun g hg => (h.others g hg).trans (hf g hg), h.holder.trans hh, h.none, h.waits⟩

theorem file_unlocked {f : File} (hsh : f.fshlock = false) (hex : f.fexlock = false) : f = ⟨false, false⟩ := by
  obtain ⟨a, b⟩ := f
  rw [show a = false from hsh, show b = false from hex]

/-- A call that has to wait finds the file without a lock. -/
theorem Locks.waits (h : Locks nfile w) (hfile : w.file fp = ⟨false, false⟩)
    (hheld : w.ishlock = true ∨ w.iexlock = true) :
    Ended nfile fp w .refused w ∧ Ended nfile fp w .sleeps { w with ilwait := true } := by
  have hlocks : Locks nfile { w with ilwait := true } :=
    ⟨h.shared, h.exclusive, h.ishlock, h.iexlock, h.one, h.excluded,
      fun p f c hp => ⟨rfl, (h.asleep p f c hp).2⟩, h.waiting⟩
  exact ⟨⟨h, Woke.refl w, fun _ _ => rfl, rfl, fun _ => hfile, nofun⟩,
    ⟨hlocks, Woke.refl w, fun _ _ => rfl, rfl, fun _ => hfile, fun _ => ⟨rfl, hheld⟩⟩⟩

/-- The turns of `again`. Each one before the last takes a lock from the file. -/
theorem Locks.again (hn : nfile < 2 ^ 16) (hfp : fp < nfile) (cmd : Cmd) (turns : ℕ) :
    ∀ {w : World}, Locks nfile w → (w.file fp).fshlock.toNat + (w.file fp).fexlock.toNat < turns →
      ∃ r w', World.again turns w fp cmd = some (r, w') ∧ Ended nfile fp w r w' := by
  induction turns with
  | zero => exact fun _ hlt => absurd hlt (Nat.not_lt_zero _)
  | succ turns ih =>
    intro w h hlt
    unfold World.again
    by_cases hex : w.iexlock = true
    · -- Somebody has the exclusive lock, so no file is shared.
      have hpos : 0 < w.i_exlockc := of_decide_eq_true (h.iexlock ▸ hex)
      have hshared : (w.file fp).fshlock = false := by
        have hnone : nshared nfile w.file = 0 := by rw [← h.shared, h.excluded hpos]
        simpa using List.countP_eq_zero.mp hnone fp (List.mem_range.mpr hfp)
      rw [if_pos hex]
      by_cases hown : (w.file fp).fexlock = true
      · obtain ⟨hl, hw, hf⟩ := h.ino_unlock hn hfp false true
        rw [if_pos hown]
        obtain ⟨r, w', heq, hend⟩ := ih hl (by
          rw [hshared, hown] at hlt
          rw [hf, Function.update_self, hshared, hown]
          exact Nat.lt_of_succ_lt_succ hlt)
        refine ⟨r, w', heq, hend.after hw (fun g hg => ?_) (ino_unlock_holder w fp false true)⟩
        rw [hf, Function.update_of_ne hg]
      · have hfile : w.file fp = ⟨false, false⟩ := file_unlocked hshared (by simpa using hown)
        obtain ⟨hrefused, hsleeps⟩ := h.waits hfile (.inr hex)
        rw [if_neg hown]
        by_cases hnb : cmd.nb = true
        · exact ⟨.refused, w, if_pos hnb, hrefused⟩
        · exact ⟨.sleeps, _, if_neg hnb, hsleeps⟩
    · have hfree : w.iexlock = false := by simpa using hex
      have hown : (w.file fp).fexlock = false := by
        have hzero : w.i_exlockc = 0 := by
          have := of_decide_eq_false (h.iexlock.symm.trans hfree)
          omega
        have hnone : nexclusive nfile w.file = 0 := by rw [← h.exclusive, hzero]
        simpa using List.countP_eq_zero.mp hnone fp (List.mem_range.mpr hfp)
      rw [if_neg hex]
      by_cases hwait : (cmd.ex && w.ishlock) = true
      · have hheld : w.ishlock = true := ((Bool.and_eq_true _ _).mp hwait).2
        rw [if_pos hwait]
        by_cases hshared : (w.file fp).fshlock = true
        · obtain ⟨hl, hw, hf⟩ := h.ino_unlock hn hfp true false
          rw [if_pos hshared]
          obtain ⟨r, w', heq, hend⟩ := ih hl (by
            rw [hshared, hown] at hlt
            rw [hf, Function.update_self, hshared, hown]
            exact Nat.lt_of_succ_lt_succ hlt)
          refine ⟨r, w', heq, hend.after hw (fun g hg => ?_) (ino_unlock_holder w fp true false)⟩
          rw [hf, Function.update_of_ne hg]
        · have hfile : w.file fp = ⟨false, false⟩ := file_unlocked (by simpa using hshared) hown
          obtain ⟨hrefused, hsleeps⟩ := h.waits hfile (.inl hheld)
          rw [if_neg hshared]
          by_cases hnb : cmd.nb = true
          · exact ⟨.refused, w, if_pos hnb, hrefused⟩
          · exact ⟨.sleeps, _, if_neg hnb, hsleeps⟩
      · rw [if_neg hwait]
        obtain ⟨hl, hw, hf, hh⟩ := h.grant hn hfp cmd hfree (fun hc => by simpa [hc] using hwait)
        exact ⟨.granted, _, rfl, hl, hw, hf, hh, nofun, nofun⟩

/-- A call always ends or sleeps. -/
theorem Locks.ino_lock (h : Locks nfile w) (hn : nfile < 2 ^ 16) (hfp : fp < nfile) (cmd : Cmd) :
    ∃ r w', w.ino_lock fp cmd = some (r, w') ∧ Ended nfile fp w r w' :=
  Locks.again hn hfp cmd 3 h (by
    have hsh := Bool.toNat_le (w.file fp).fshlock
    have hex := Bool.toNat_le (w.file fp).fexlock
    omega)

/-! ## Runs -/

/-- Between two steps also the reports are right: a lock was reported to somebody, and not to a process that
    waits for one. -/
structure Inv (nfile : ℕ) (w : World) : Prop extends Locks nfile w where
  reported : ∀ g, (w.file g).fshlock = true ∨ (w.file g).fexlock = true → w.holder g ≠ none
  waiter : ∀ p g cmd, w.proc p = .asleep g cmd ∨ w.proc p = .woken g cmd → w.holder g ≠ some p

/-- What `dropped` leaves to show. -/
theorem Locks.dropped (h : Locks nfile w)
    (hr : ∀ g, (w.file g).fshlock = true ∨ (w.file g).fexlock = true → w.holder g ≠ none)
    (hw : ∀ p g cmd, w.proc p = .asleep g cmd ∨ w.proc p = .woken g cmd → w.holder g = some p →
      w.file g = ⟨false, false⟩) : Inv nfile w.dropped := by
  refine ⟨⟨h.shared, h.exclusive, h.ishlock, h.iexlock, h.one, h.excluded, h.asleep, h.waiting⟩, ?_, ?_⟩
  · intro g hg
    have hg : (w.file g).fshlock = true ∨ (w.file g).fexlock = true := hg
    have hkept : w.dropped.holder g = w.holder g := if_pos (by simpa using hg)
    rw [hkept]
    exact hr g hg
  · intro p g cmd hp hg
    unfold World.dropped at hg
    dsimp only at hg
    split_ifs at hg with hl
    rw [hw p g cmd hp hg] at hl
    simp at hl

theorem inv_fresh (nfile : ℕ) : Inv nfile World.fresh where
  shared := by simp [World.fresh, nshared]
  exclusive := by simp [World.fresh, nexclusive]
  ishlock := rfl
  iexlock := rfl
  one := Nat.zero_le 1
  excluded := fun _ => rfl
  asleep := nofun
  waiting := by simp [World.fresh]
  reported := by simp [World.fresh]
  waiter := by simp [World.fresh]

/-- Where the other processes wait after `p` has gone to `pc`. -/
theorem Woke.setProc (hw : Woke w w') {p q g : ℕ} {pc : Pc} {cmd : Cmd} (hq : q ≠ p)
    (h : (w'.setProc p pc).proc q = .asleep g cmd ∨ (w'.setProc p pc).proc q = .woken g cmd) :
    w.proc q = .asleep g cmd ∨ w.proc q = .woken g cmd := by
  rw [w'.setProc_ne hq] at h
  exact hw.waited h

/-- `p` comes out of `ino_lock` with an answer. -/
theorem Locks.setProc_user (h : Locks nfile w) (p : ℕ) : Locks nfile (w.setProc p .user) := by
  refine ⟨h.shared, h.exclusive, h.ishlock, h.iexlock, h.one, h.excluded, ?_, ?_⟩
  · intro q g cmd hq
    by_cases hqp : q = p
    · rw [hqp, World.setProc_self] at hq
      cases hq
    · rw [World.setProc_ne w hqp] at hq
      exact h.asleep q g cmd hq
  · intro q g cmd hq
    by_cases hqp : q = p
    · rw [hqp, World.setProc_self] at hq
      rcases hq with hq | hq <;> cases hq
    · exact h.waiting q g cmd ((Woke.refl w).setProc hqp hq)

/-- `p` goes to sleep in `ino_lock`. -/
theorem Locks.setProc_asleep (h : Locks nfile w) (hfp : fp < nfile) (p : ℕ) (cmd : Cmd)
    (hw : w.ilwait = true ∧ (w.ishlock = true ∨ w.iexlock = true)) :
    Locks nfile (w.setProc p (.asleep fp cmd)) := by
  refine ⟨h.shared, h.exclusive, h.ishlock, h.iexlock, h.one, h.excluded, fun _ _ _ _ => hw, ?_⟩
  intro q g c hq
  by_cases hqp : q = p
  · rw [hqp, World.setProc_self] at hq
    rcases hq with hq | hq <;> cases hq
    exact hfp
  · exact h.waiting q g c ((Woke.refl w).setProc hqp hq)

/-- A stretch of `ino_lock` and its answer. -/
theorem Inv.answered (h : Inv nfile w) (hfp : fp < nfile) (p : ℕ) (cmd : Cmd) {r : World.Result}
    (hend : Ended nfile fp w r w') : Inv nfile (World.answered p fp cmd (r, w')).2 := by
  -- The holders of the other files are as they were, and nobody but `p` is told anything.
  have hothers : ∀ g ≠ fp, (w'.file g).fshlock = true ∨ (w'.file g).fexlock = true → w'.holder g ≠ none := by
    intro g hg hl
    rw [hend.others g hg] at hl
    rw [hend.holder]
    exact h.reported g hl
  have hwaiter : ∀ q g c pc, q ≠ p →
      (w'.setProc p pc).proc q = .asleep g c ∨ (w'.setProc p pc).proc q = .woken g c → w'.holder g ≠ some q := by
    intro q g c pc hq hpc
    rw [hend.holder]
    exact h.waiter q g c (hend.woke.setProc hq hpc)
  have huser : ∀ g c, ¬ ((w'.setProc p .user).proc p = .asleep g c ∨ (w'.setProc p .user).proc p = .woken g c) := by
    simp
  cases r with
  | granted =>
    have hl := hend.locks.setProc_user p
    refine Locks.dropped ⟨hl.shared, hl.exclusive, hl.ishlock, hl.iexlock, hl.one, hl.excluded, hl.asleep,
      hl.waiting⟩ ?_ ?_
    · intro g hg
      by_cases hgf : g = fp
      · exact fun hnone => by simp [hgf] at hnone
      · exact fun hnone => hothers g hgf hg (by simpa [hgf] using hnone)
    · intro q g c hq hholder
      by_cases hqp : q = p
      · exact absurd (hqp ▸ hq) (huser g c)
      · by_cases hgf : g = fp
        · exact absurd (by simpa [hgf] using hholder) (Ne.symm hqp)
        · exact absurd (by simpa [hgf] using hholder) (hwaiter q g c .user hqp hq)
  | refused =>
    have hfile := hend.none nofun
    refine (hend.locks.setProc_user p).dropped ?_ ?_
    · intro g hg
      by_cases hgf : g = fp
      · have hg : (w'.file g).fshlock = true ∨ (w'.file g).fexlock = true := hg
        simp [hgf, hfile] at hg
      · exact hothers g hgf hg
    · intro q g c hq hholder
      by_cases hqp : q = p
      · exact absurd (hqp ▸ hq) (huser g c)
      · exact absurd hholder (hwaiter q g c .user hqp hq)
  | sleeps =>
    have hfile := hend.none nofun
    refine (hend.locks.setProc_asleep hfp p cmd (hend.waits rfl)).dropped ?_ ?_
    · intro g hg
      by_cases hgf : g = fp
      · have hg : (w'.file g).fshlock = true ∨ (w'.file g).fexlock = true := hg
        simp [hgf, hfile] at hg
      · exact hothers g hgf hg
    · intro q g c hq hholder
      by_cases hqp : q = p
      · -- What `p` waits for has no lock.
        rw [hqp, World.setProc_self] at hq
        rcases hq with hq | hq <;> cases hq
        exact hfile
      · exact absurd hholder (hwaiter q g c _ hqp hq)

/-- One step, and what it tells its process. -/
theorem Inv.step (h : Inv nfile w) (hn : nfile < 2 ^ 16) {e : Event} {a : Answer}
    (he : w.step nfile e = some (a, w')) :
    Inv nfile w' ∧ (∀ p g, a = .ewouldblock p g → w'.file g = ⟨false, false⟩) ∧
      (∀ p g, a = .eintr p g → w'.file = w.file ∧ w'.holder g ≠ some p) := by
  -- A stretch of `ino_lock`, called now or gone on with.
  have hcall : ∀ p fp cmd, fp < nfile → (w.ino_lock fp cmd).map (World.answered p fp cmd) = some (a, w') →
      Inv nfile w' ∧ (∀ p g, a = .ewouldblock p g → w'.file g = ⟨false, false⟩) ∧
        (∀ p g, a = .eintr p g → w'.file = w.file ∧ w'.holder g ≠ some p) := by
    intro p fp cmd hfp hmap
    obtain ⟨r, w₁, heq, hend⟩ := h.toLocks.ino_lock hn hfp cmd
    rw [heq, Option.map_some] at hmap
    have hans := Option.some.inj hmap
    have hinv := h.answered hfp p cmd hend
    rw [hans] at hinv
    cases r with
    | granted =>
      cases hans
      exact ⟨hinv, nofun, nofun⟩
    | refused =>
      cases hans
      refine ⟨hinv, ?_, nofun⟩
      rintro q g ⟨⟩
      exact hend.none nofun
    | sleeps =>
      cases hans
      exact ⟨hinv, nofun, nofun⟩
  -- A sleep that a signal ends.
  have hintr : ∀ p fp cmd, w.proc p = .asleep fp cmd ∨ w.proc p = .woken fp cmd →
      (Answer.eintr p fp, w.setProc p .user) = (a, w') →
      Inv nfile w' ∧ (∀ p g, a = .ewouldblock p g → w'.file g = ⟨false, false⟩) ∧
        (∀ p g, a = .eintr p g → w'.file = w.file ∧ w'.holder g ≠ some p) := by
    rintro p fp cmd hp ⟨⟩
    refine ⟨⟨h.toLocks.setProc_user p, h.reported, ?_⟩, nofun, ?_⟩
    · intro q g c hq
      by_cases hqp : q = p
      · simp [hqp] at hq
      · exact h.waiter q g c ((Woke.refl w).setProc hqp hq)
    · rintro q g ⟨⟩
      exact ⟨rfl, h.waiter p fp cmd hp⟩
  cases e with
  | lock p fp cmd =>
    dsimp only [World.step] at he
    split_ifs at he with hp
    exact hcall p fp cmd hp.2 he
  | unlock p fp sh ex =>
    dsimp only [World.step] at he
    split_ifs at he with hp
    cases he
    obtain ⟨hl, hwoke, hf⟩ := h.toLocks.ino_unlock hn hp.2 sh ex
    refine ⟨hl.dropped ?_ ?_, nofun, nofun⟩
    · intro g hg
      rw [ino_unlock_holder]
      refine h.reported g ?_
      rw [hf] at hg
      by_cases hgf : g = fp
      · subst hgf
        rw [Function.update_self] at hg
        exact hg.imp (fun hs => ((Bool.and_eq_true _ _).mp hs).1) (fun hs => ((Bool.and_eq_true _ _).mp hs).1)
      · rwa [Function.update_of_ne hgf] at hg
    · intro q g cmd hq hholder
      rw [ino_unlock_holder] at hholder
      exact absurd hholder (h.waiter q g cmd (hwoke.waited hq))
  | resume p =>
    dsimp only [World.step] at he
    cases hp : w.proc p with
    | woken fp cmd =>
      rw [hp] at he
      exact hcall p fp cmd (h.waiting p fp cmd (.inr hp)) he
    | user => simp [hp] at he
    | asleep fp cmd => simp [hp] at he
  | interrupt p =>
    dsimp only [World.step] at he
    cases hp : w.proc p with
    | user => simp [hp] at he
    | asleep fp cmd =>
      rw [hp] at he
      exact hintr p fp cmd (.inl hp) (Option.some.inj he)
    | woken fp cmd =>
      rw [hp] at he
      exact hintr p fp cmd (.inr hp) (Option.some.inj he)

theorem Reach.inv (hn : nfile < 2 ^ 16) (h : Reach nfile w) : Inv nfile w := by
  induction h with
  | fresh => exact inv_fresh nfile
  | step e _ he ih => exact (ih.step hn he).1

/-- No two files have the exclusive lock. -/
theorem Locks.exclusive_unique (h : Locks nfile w) (hfp : fp < nfile) (hf : (w.file fp).fexlock = true) {g : ℕ}
    (hg : g < nfile) (hgx : (w.file g).fexlock = true) : g = fp := by
  by_contra hne
  have hcount := nexclusive_update hfp w.file ⟨(w.file fp).fshlock, false⟩
  have hone := h.one
  rw [hf, ← h.exclusive] at hcount
  have hzero : nexclusive nfile (update w.file fp ⟨(w.file fp).fshlock, false⟩) = 0 := by
    simp only [Bool.toNat_true, Bool.toNat_false] at hcount
    omega
  have := List.countP_eq_zero.mp hzero g (List.mem_range.mpr hg)
  rw [Function.update_of_ne hne] at this
  exact this hgx

end

/-- **Locks of the open files of an inode exclude each other, in every state of every run.** The counts and
    flags of the inode are those of its files. No call goes on for ever without a sleep, a call that is
    refused leaves its file without a lock, and one that a signal ends leaves the files as they are: a lock
    its file has was reported to another process with the same open file. -/
theorem ino_lock_excludes {nfile : ℕ} (hn : nfile < 2 ^ 16) {w : World} (h : Reach nfile w) :
    (∀ fp < nfile, (w.file fp).fexlock = true →
      ∀ g < nfile, (w.file g).fshlock = false ∧ ((w.file g).fexlock = true → g = fp)) ∧
    (w.i_shlockc = nshared nfile w.file ∧ w.i_exlockc = nexclusive nfile w.file) ∧
    ((w.ishlock = true ↔ ∃ fp < nfile, (w.file fp).fshlock = true) ∧
      (w.iexlock = true ↔ ∃ fp < nfile, (w.file fp).fexlock = true)) ∧
    (∀ p fp cmd, (w.proc p = .user → fp < nfile → (w.step nfile (.lock p fp cmd)).isSome) ∧
      (w.proc p = .woken fp cmd → (w.step nfile (.resume p)).isSome)) ∧
    ∀ e a w', w.step nfile e = some (a, w') →
      (∀ p g, a = .ewouldblock p g → w'.file g = ⟨false, false⟩) ∧
      (∀ p g, a = .eintr p g → w'.file = w.file ∧
        ((w'.file g).fshlock = true ∨ (w'.file g).fexlock = true → ∃ q ≠ p, w'.holder g = some q)) := by
  have hinv := h.inv hn
  refine ⟨?_, ⟨hinv.shared, hinv.exclusive⟩, ⟨?_, ?_⟩, ?_, ?_⟩
  · exact fun fp hfp hf g hg => ⟨hinv.not_both hfp hf g hg, hinv.exclusive_unique hfp hf hg⟩
  · rw [hinv.ishlock, decide_eq_true_iff, hinv.shared, nshared, List.countP_pos_iff]
    simp only [List.mem_range]
  · rw [hinv.iexlock, decide_eq_true_iff, hinv.exclusive, nexclusive, List.countP_pos_iff]
    simp only [List.mem_range]
  · intro p fp cmd
    refine ⟨fun hp hfp => ?_, fun hp => ?_⟩
    · obtain ⟨r, w', heq, -⟩ := hinv.toLocks.ino_lock hn hfp cmd
      simp [World.step, hp, hfp, heq]
    · obtain ⟨r, w', heq, -⟩ := hinv.toLocks.ino_lock hn (hinv.waiting p fp cmd (.inr hp)) cmd
      simp [World.step, hp, heq]
  · intro e a w' he
    obtain ⟨hinv', hrefused, hended⟩ := hinv.step hn he
    refine ⟨hrefused, fun p g ha => ⟨(hended p g ha).1, fun hl => ?_⟩⟩
    obtain ⟨q, hq⟩ := Option.ne_none_iff_exists'.mp (hinv'.reported g hl)
    exact ⟨q, fun hqp => (hended p g ha).2 (hqp ▸ hq), hq⟩

/-- Two files of an inode, the first of which is locked exclusively. -/
theorem ino_lock_excludes_two :
    ∃ w, World.fresh.step 2 (.lock 7 0 ⟨false, true, false⟩) = some (.ok 7 0, w) ∧
      (w.file 0).fexlock = true ∧ (w.file 1).fshlock = false ∧ ((w.file 1).fexlock = true → 1 = 0) := by
  refine ⟨_, rfl, rfl, ?_⟩
  have hreach : Reach 2 _ := .step (.lock 7 0 ⟨false, true, false⟩) .fresh rfl
  exact (ino_lock_excludes (by decide) hreach).1 0 (by decide) rfl 1 (by decide)

end DiscoBSD.Flock
