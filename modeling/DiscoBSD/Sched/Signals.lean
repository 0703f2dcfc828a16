import Mathlib
import DiscoBSD.Sched.Wakeup

/-!
# Signals and timeouts

**What `psignal` does to a process is a write to its signals and then at most one of four things**: it makes the
process run, takes it off its sleep queue, puts it back to sleep, or stops it and tells its parent. None of these
panics while the process that has the processor has no channel.

`SIGCHLD` is also sent by a process that may have one. Then it panics when it makes a parent run that is swapped
out, the swapper waits, and the two channels have the same queue.
-/

set_option autoImplicit false

namespace DiscoBSD.Sched

open DiscoBSD.Lib
open Function (update)

/-- `SIGCHLD` makes the process run. -/
def Stirs (s : Proc) : Prop :=
  s.p_stat = .ssleep ∧ s.sintr = true ∧
    (s.traced = true ∨ s.p_sigignore &&& sigmask sigchld = 0 ∧ s.p_sigmask &&& sigmask sigchld = 0)

/-- What everybody can rely on: nobody is the parent of itself, the swapper does not sleep interruptibly and is not
    swapped out, nobody else waits for `runout`, and the processes to swap are not loaded. -/
structure Facts (c : Cfg) (w : World) : Prop where
  p_pptr : ∀ p, (w.proc p).p_pptr ≠ p
  sintr : (w.proc 0).sintr = false
  ssys : (w.proc 0).ssys = true
  runout : ∀ p, (w.proc p).p_wchan = c.runout → p = 0
  swapped_out : ∀ p, w.swapped_out = some p → (w.proc p).sload = false
  in_core : ∀ p, w.in_core = some p → (w.proc p).sload = false

/-- What an operation on the process `p` leaves. -/
structure Moved (c : Cfg) (p : ℕ) (w w' : World) : Prop where
  kept : Kept w w'
  others : ∀ q, q ≠ p → (w.proc q).p_wchan ≠ c.runout → w'.proc q = w.proc q

/-- How an operation on the process `p` may end. -/
structure Ends (c : Cfg) (p : ℕ) (x : Option ℕ) (safe : Prop) (w : World) (r : Except Panic World) : Prop where
  ok : safe → ∃ w' Q', r = .ok w' ∧ Sorted c w' x Q' ∧ Moved c p w w'
  panic : ¬ safe → r = .error .wakeup

section

variable {c : Cfg} {w w' : World} {Q Q' : Qid → List ℕ} {x : Option ℕ} {p q sig : ℕ}

theorem Facts.kept (hf : Facts c w) (h : Kept w w') : Facts c w' where
  p_pptr p := by
    rw [h.p_pptr]
    exact hf.p_pptr p
  sintr := (h.sintr 0).trans hf.sintr
  ssys := (h.ssys 0).trans hf.ssys
  runout p hp := by
    have hsame := h.wchan p (by rw [hp]; exact c.runout_ne)
    exact hf.runout p (hsame ▸ hp)
  swapped_out p hp := by
    rw [h.sload]
    exact hf.swapped_out p (h.swapped_out ▸ hp)
  in_core p hp := by
    rw [h.sload]
    exact hf.in_core p (h.in_core ▸ hp)

theorem Facts.congr (hf : Facts c w) (hproc : w'.proc = w.proc) (hout : w'.swapped_out = w.swapped_out)
    (hin : w'.in_core = w.in_core) : Facts c w' where
  p_pptr := hproc ▸ hf.p_pptr
  sintr := hproc ▸ hf.sintr
  ssys := hproc ▸ hf.ssys
  runout := hproc ▸ hf.runout
  swapped_out := hproc ▸ hout ▸ hf.swapped_out
  in_core := hproc ▸ hin ▸ hf.in_core

theorem Facts.modify {f : Proc → Proc} (hf : Facts c w) (hsload : (f (w.proc p)).sload = (w.proc p).sload)
    (hssys : (f (w.proc p)).ssys = (w.proc p).ssys) (hpptr : (f (w.proc p)).p_pptr ≠ p)
    (hsintr : (f (w.proc p)).sintr = true → (w.proc p).sintr = true ∨ p ≠ 0)
    (hwchan : (f (w.proc p)).p_wchan = c.runout → (w.proc p).p_wchan = c.runout ∨ p = 0) :
    Facts c (w.modify p f) where
  p_pptr q := by
    by_cases hq : q = p
    · subst hq
      rwa [modify_proc_self]
    · rw [modify_proc_ne _ _ hq]
      exact hf.p_pptr q
  sintr := by
    by_cases hp : 0 = p
    · subst hp
      rw [modify_proc_self]
      by_contra hne
      rcases hsintr (by simpa using hne) with ht | hn
      · rw [hf.sintr] at ht
        cases ht
      · exact hn rfl
    · rw [modify_proc_ne _ _ hp]
      exact hf.sintr
  ssys := (modify_field Proc.ssys w p f hssys 0).trans hf.ssys
  runout q hq := by
    by_cases hqp : q = p
    · subst hqp
      rw [modify_proc_self] at hq
      exact (hwchan hq).elim (hf.runout q) id
    · rw [modify_proc_ne _ _ hqp] at hq
      exact hf.runout q hq
  swapped_out q hq := (modify_field Proc.sload w p f hsload q).trans (hf.swapped_out q hq)
  in_core q hq := (modify_field Proc.sload w p f hsload q).trans (hf.in_core q hq)

/-- A process that can be interrupted does not wait for `runout`. -/
theorem Facts.sintr_runout (hf : Facts c w) (hp : (w.proc p).sintr = true) : (w.proc p).p_wchan ≠ c.runout := by
  intro he
  rw [hf.runout p he, hf.sintr] at hp
  cases hp

/-- A write to what neither the queues nor the states depend on. -/
theorem Sorted.modify {f : Proc → Proc} (h : Sorted c w x Q)
    (hstat : (f (w.proc p)).p_stat = (w.proc p).p_stat) (hwchan : (f (w.proc p)).p_wchan = (w.proc p).p_wchan)
    (hsload : (f (w.proc p)).sload = (w.proc p).sload) : Sorted c (w.modify p f) x Q where
  toQueues := h.congr rfl (modify_field Proc.p_wchan w p f hwchan)
  settled q hq := by
    have hs := h.settled q hq
    constructor
    · rw [modify_field Proc.p_stat w p f hstat, modify_field Proc.sload w p f hsload]
      exact hs.run
    · rw [modify_field Proc.p_stat w p f hstat, modify_field Proc.sload w p f hsload,
        modify_field Proc.p_wchan w p f hwchan]
      exact hs.srun
    · rw [modify_field Proc.p_stat w p f hstat, modify_field Proc.p_wchan w p f hwchan]
      exact hs.ssleep
    · rw [modify_field Proc.p_stat w p f hstat, modify_field Proc.p_wchan w p f hwchan]
      exact hs.wchan
    · rw [modify_field Proc.p_stat w p f hstat]
      exact hs.lt
  running q hq := by
    have hs := h.running q hq
    refine ⟨hs.run, ?_, ?_, hs.lt⟩
    · rw [modify_field Proc.p_stat w p f hstat]
      exact hs.srun
    · rw [modify_field Proc.sload w p f hsload]
      exact hs.sload

theorem Moved.refl (w : World) (p : ℕ) : Moved c p w w := ⟨.refl w, fun _ _ _ => rfl⟩

theorem Moved.trans {w'' : World} (h : Moved c p w w') (h' : Moved c p w' w'') : Moved c p w w'' where
  kept := h.kept.trans h'.kept
  others q hq hw := by
    have he := h.others q hq hw
    rw [h'.others q hq (he ▸ hw), he]

theorem Freed.moved (h : Freed w w' p) : Moved c p w w' := ⟨h.kept, fun q hq _ => h.others q hq⟩

theorem Moved.setSig (w : World) (p : ℕ) (sg : BitVec 32) : Moved c p w (w.setSig p sg) where
  kept := Kept.modify (fun h => ⟨h, rfl⟩) rfl rfl rfl rfl fun _ => rfl
  others _ hq _ := modify_proc_ne _ _ hq

theorem Sorted.setSig (h : Sorted c w x Q) (p : ℕ) (sg : BitVec 32) : Sorted c (w.setSig p sg) x Q :=
  h.modify rfl rfl rfl

theorem Ends.after {safe safe' : Prop} {r : Except Panic World} (h : Moved c p w w') (hsafe : safe' ↔ safe)
    (hr : Ends c p x safe' w' r) : Ends c p x safe w r where
  ok hs := by
    obtain ⟨w'', Q', hok, hsorted, hmoved⟩ := hr.ok (hsafe.mpr hs)
    exact ⟨w'', Q', hok, hsorted, h.trans hmoved⟩
  panic hs := hr.panic (mt hsafe.mp hs)

/-! ## setrun -/

theorem Sorted.unsleep (h : Sorted c w x Q) (hp : (w.proc p).p_stat = .sstop) :
    ∃ w' Q', w.unsleep c p = .ok w' ∧ Sorted c w' x Q' ∧ Freed w w' p := by
  obtain ⟨w', Q', hok, hq, hrun, hw'⟩ := h.toQueues.unsleep (p := p)
  rw [hw'] at hok hq
  refine ⟨_, Q', hok, h.free hq hrun (by rw [hp]; rintro ⟨⟩), ?_, rfl, by simp [World.setWchan],
    fun q hq => modify_proc_ne _ _ hq⟩
  exact Kept.modify (n := w.runout) (by rw [hp]; rintro ⟨⟩) rfl rfl rfl rfl fun hne => absurd rfl hne

theorem Sorted.setrunHead (h : Sorted c w x Q) (hp : (w.proc p).p_stat = .ssleep ∨ (w.proc p).p_stat = .sstop) :
    ∃ w' Q', w.setrunHead c p = .ok w' ∧ Sorted c w' x Q' ∧ Freed w w' p := by
  obtain ⟨w', Q', hok, hq, hrun, hw'⟩ := h.toQueues.unsleep (p := p)
  rw [hw'] at hok hq
  obtain ⟨w₂, Q₂, hready, hsorted, hfree⟩ := h.awaken hq hrun hp
  refine ⟨w₂, Q₂, ?_, hsorted, hfree⟩
  unfold World.setrunHead
  rcases hp with hp | hp
  all_goals
    simp only [hp, hok]
    exact hready

/-- The swapper waits, and the process that has the processor is on the same queue. -/
def Jams (c : Cfg) (w : World) (x : Option ℕ) (p : ℕ) : Prop :=
  (w.proc p).sload = false ∧ w.runout ≠ 0 ∧ ¬ Clear w x (hash c.runout)

theorem Sorted.setrunTail (h : Sorted c w x Q) : Ends c p x (¬ Jams c w x p) w (w.setrunTail c p) := by
  unfold World.setrunTail
  split_ifs with hswap
  · have hsorted : Sorted c { w with runout := 0 } x Q := ⟨⟨h.threads, h.slp, h.lt⟩, h.settled, h.running⟩
    have hring := hsorted.wakeup (fun hne => absurd rfl hne) c.runout
    refine ⟨fun hsafe => ?_, fun hjam => ?_⟩
    · have hclear : Clear w x (hash c.runout) := by
        by_contra hn
        exact hsafe ⟨hswap.1, hswap.2, hn⟩
      obtain ⟨w', Q', hok, hs, hwoken⟩ := hring.ok hclear
      exact ⟨w', Q', hok, hs, (Kept.links w w.links 0).trans hwoken.kept, fun q _ hq => hwoken.others q hq hq⟩
    · exact hring.panic (not_not.mp hjam).2.2
  · exact ⟨fun _ => ⟨w, Q, rfl, h, .refl w p⟩, fun hjam => absurd ⟨(not_not.mp hjam).1, (not_not.mp hjam).2.1⟩ hswap⟩

theorem Jams.freed (h : Freed w w' q) (hx : ∀ p, x = some p → (w.proc p).p_stat = .srun) :
    Jams c w' x p ↔ Jams c w x p := by
  unfold Jams
  rw [h.kept.sload, h.runout, h.kept.clear hx]

/-- **How `setrun` ends.** -/
theorem Sorted.setrun (h : Sorted c w x Q) (hp : (w.proc p).p_stat = .ssleep ∨ (w.proc p).p_stat = .sstop) :
    Ends c p x (¬ Jams c w x p) w (w.setrun c p) := by
  obtain ⟨w', Q', hok, hsorted, hfree⟩ := h.setrunHead hp
  unfold World.setrun
  rw [hok]
  exact .after hfree.moved (not_congr (Jams.freed hfree h.srun_of_running)) hsorted.setrunTail

/-! ## endtsleep -/

/-- The process that has the processor has no channel. -/
def Free (w : World) (x : Option ℕ) : Prop := ∀ p, x = some p → (w.proc p).p_wchan = 0

theorem Free.clear (h : Free w x) (k : ℕ) : Clear w x k := fun p hp hw => hw.1 (h p hp)

theorem Free.safe (h : Free w x) : ¬ Jams c w x p := fun hj => hj.2.2 (h.clear _)

theorem Free.kept (h : Free w x) (hk : Kept w w') : Free w' x := by
  intro p hp
  by_contra hne
  exact hne ((hk.wchan p hne).trans (h p hp))

theorem Sorted.cutSleep (h : Sorted c w x Q) (hfree : Free w x) (hp : (w.proc p).p_wchan ≠ 0) :
    ∃ w' Q', w.cutSleep c p = .ok w' ∧ Sorted c w' x Q' ∧ Moved c p w w' := by
  have hx : x ≠ some p := fun hx => hp (hfree p hx)
  unfold World.cutSleep
  rcases (h.settled p hx).wchan hp with hstat | hstat
  · rw [if_pos hstat]
    exact (h.setrun (.inl hstat)).ok hfree.safe
  · rw [if_neg (by rw [hstat]; nofun)]
    obtain ⟨w', Q', hok, hsorted, hfreed⟩ := h.unsleep hstat
    exact ⟨w', Q', hok, hsorted, hfreed.moved⟩

theorem Sorted.endtsleep (h : Sorted c w x Q) (hfree : Free w x) (p : ℕ) :
    ∃ w' Q', w.endtsleep c p = .ok w' ∧ Sorted c w' x Q' ∧ Moved c p w w' := by
  unfold World.endtsleep
  split_ifs with hp
  · obtain ⟨w', Q', hok, hsorted, hmoved⟩ := h.cutSleep hfree hp
    rw [hok]
    refine ⟨_, Q', rfl, hsorted.modify rfl rfl rfl, hmoved.trans ⟨?_, fun q hq _ => modify_proc_ne _ _ hq⟩⟩
    exact Kept.modify (fun hs => ⟨hs, rfl⟩) rfl rfl rfl rfl fun _ => rfl
  · exact ⟨w, Q, rfl, h, .refl w p⟩

theorem Sorted.selwakeup (h : Sorted c w x Q) (hfree : Free w x) (p : ℕ) :
    ∃ w' Q', w.selwakeup c p = .ok w' ∧ Sorted c w' x Q' ∧ Moved c p w w' := by
  unfold World.selwakeup
  split_ifs with hp
  · exact h.cutSleep hfree (by rw [hp]; exact c.selwait_ne)
  · exact ⟨w, Q, rfl, h, .refl w p⟩

/-! ## stop -/

/-- A process that is asleep, or has the processor, is marked stopped. -/
theorem Sorted.stopHead {x' : Option ℕ} (h : Sorted c w x Q) (hx : x' ≠ some p)
    (hothers : ∀ q, q ≠ p → (x' = some q ↔ x = some q))
    (hp : (w.proc p).p_stat = .ssleep ∨ x = some p) : Sorted c (w.stopHead p) x' Q := by
  have hrun : p ∉ Q .run := by
    intro hmem
    rcases hp with hp | hp
    · have hs := (h.settled p fun hx => by rw [h.srun_of_running p hx] at hp; cases hp).run hmem
      rw [hp] at hs
      cases hs.1
    · exact (h.running p hp).run hmem
  have hlt : p < c.nproc := by
    rcases hp with hp | hp
    · exact h.alive (by rw [hp]; nofun)
    · exact (h.running p hp).lt
  refine h.change (p := p) (h.congr rfl (modify_field Proc.p_wchan w p _ rfl))
    (fun q hq => ⟨modify_proc_ne _ _ hq, Iff.rfl⟩) hothers ?_
  rw [if_neg hx]
  unfold World.stopHead
  rw [modify_proc_self]
  exact ⟨fun hmem => absurd hmem hrun, nofun, nofun, fun _ => .inr rfl, fun _ => hlt⟩

theorem Sorted.stop (h : Sorted c w x Q) (hfree : Free w x) (hp : (w.proc p).p_stat = .ssleep) :
    ∃ w' Q', w.stop c p = .ok w' ∧ Sorted c w' x Q' ∧ Kept w w' := by
  have hx : x ≠ some p := fun hx => by rw [h.srun_of_running p hx] at hp; cases hp
  have hkept : Kept w (w.stopHead p) := Kept.modify (by rw [hp]; nofun) rfl rfl rfl rfl fun _ => rfl
  have hring := (h.stopHead hx (fun _ _ => Iff.rfl) (.inl hp)).wakeup
    (fun _ => (hfree.kept hkept).clear _) (c.proc (w.proc p).p_pptr)
  obtain ⟨w', Q', hok, hsorted, hwoken⟩ := hring.ok ((hfree.kept hkept).clear _)
  exact ⟨w', Q', hok, hsorted, hkept.trans hwoken.kept⟩

/-! ## psignal -/

/-- What `psignal` may do to a process. -/
inductive Posts (c : Cfg) (notify : World → ℕ → Except Panic World) (w : World) (p : ℕ) :
    Except Panic World → Prop
  | note (sg : BitVec 32) : Posts c notify w p (.ok (w.setSig p sg))
  | setrun (sg : BitVec 32) : (w.proc p).p_stat = .ssleep ∨ (w.proc p).p_stat = .sstop →
      Posts c notify w p ((w.setSig p sg).setrun c p)
  | unsleep (sg : BitVec 32) : (w.proc p).p_stat = .sstop → Posts c notify w p ((w.setSig p sg).unsleep c p)
  | sleep (sg : BitVec 32) : (w.proc p).p_stat = .sstop → (w.proc p).p_wchan ≠ 0 →
      Posts c notify w p (.ok ((w.setSig p sg).setStat p .ssleep))
  | stop (sg : BitVec 32) (sig : ℕ) (w' : World) : (w.proc p).p_stat = .ssleep → (w.proc p).sintr = true →
      w' = w.modify p (fun y => { y with p_sig := sg, p_ptracesig := sig }) →
      Posts c notify w p (do
        let w'' ← (if (w'.proc (w.proc p).p_pptr).nocldstop then .ok w' else notify w' (w.proc p).p_pptr)
        w''.stop c p)

theorem setSig_setSig (w : World) (p : ℕ) (sg sg' : BitVec 32) : (w.setSig p sg).setSig p sg' = w.setSig p sg' := by
  unfold World.setSig World.modify
  simp only [Function.update_self, Function.update_idem]

theorem setSig_same (w : World) (p : ℕ) : w.setSig p (w.proc p).p_sig = w := modify_self rfl

theorem posts_asleep (notify : World → ℕ → Except Panic World) (hp : (w.proc p).p_stat = .ssleep) (sg : BitVec 32)
    (sig : ℕ) (act : Action) : Posts c notify w p ((w.setSig p sg).postAsleep c notify p sig act) := by
  have hproc : (w.setSig p sg).proc p = { w.proc p with p_sig := sg } := modify_proc_self ..
  unfold World.postAsleep
  rw [hproc]
  dsimp only
  by_cases hintr : (w.proc p).sintr = false
  · rw [if_pos hintr]
    exact .note sg
  rw [if_neg hintr]
  by_cases htraced : (w.proc p).traced = true
  · rw [if_pos htraced]
    exact .setrun sg (.inl hp)
  rw [if_neg htraced]
  by_cases hcont : (sigprop sig).cont = true ∧ act = .dfl
  · rw [if_pos hcont, setSig_setSig]
    exact .note _
  rw [if_neg hcont]
  by_cases hstop : (sigprop sig).stop = false ∨ act ≠ .dfl
  · rw [if_pos hstop]
    exact .setrun sg (.inl hp)
  rw [if_neg hstop]
  by_cases hvfork : (w.proc p).svfork = true
  · rw [if_pos hvfork]
    exact .note sg
  rw [if_neg hvfork]
  refine .stop (sg &&& ~~~sigmask sig) sig _ hp (by simpa using hintr) ?_
  unfold World.setSig World.modify
  simp only [Function.update_self, Function.update_idem]

theorem posts_stopped (notify : World → ℕ → Except Panic World) (hp : (w.proc p).p_stat = .sstop) (sg : BitVec 32)
    (sig : ℕ) (act : Action) : Posts c notify w p ((w.setSig p sg).postStopped c p sig act) := by
  have hproc : (w.setSig p sg).proc p = { w.proc p with p_sig := sg } := modify_proc_self ..
  have htaken : ∃ sg', (if act = .dfl then (w.setSig p sg).setSig p (sg &&& ~~~sigmask sig) else w.setSig p sg) =
      w.setSig p sg' := by
    split_ifs
    · exact ⟨_, setSig_setSig ..⟩
    · exact ⟨sg, rfl⟩
  obtain ⟨sg', htaken⟩ := htaken
  unfold World.postStopped
  rw [hproc]
  dsimp only
  rw [htaken]
  split_ifs with htraced hkill hcont hrun hstop hwchan
  · exact .note sg
  · exact .setrun sg (.inr hp)
  · exact .setrun sg' (.inr hp)
  · exact .sleep sg' hp (fun hw => hrun (.inr hw))
  · rw [setSig_setSig]
    exact .note _
  · exact .unsleep sg hp
  · exact .note sg

theorem posts (c : Cfg) (notify : World → ℕ → Except Panic World) (w : World) (p sig : ℕ) :
    Posts c notify w p (w.post c notify p sig) := by
  unfold World.post
  dsimp only
  generalize (if (sigprop sig).cont = true then (w.proc p).p_sig &&& ~~~stopsigmask else (w.proc p).p_sig) = sg
  generalize ((if (sigprop sig).stop = true then sg &&& ~~~contsigmask else sg) ||| sigmask sig) = sg'
  split_ifs with hignored horphan hheld
  · have h : Posts c notify w p (.ok (w.setSig p (w.proc p).p_sig)) := .note _
    rwa [setSig_same] at h
  · exact .note sg
  · exact .note sg'
  · cases hstat : (w.proc p).p_stat with
    | ssleep => exact posts_asleep notify hstat sg' sig _
    | sstop => exact posts_stopped notify hstat sg' sig _
    | _ => exact .note sg'

theorem sigprop_sigchld : sigprop sigchld = ⟨false, false, false, true⟩ := rfl

theorem action_eq_hold (s : Proc) (mask : BitVec 32) :
    World.action s mask = .hold ↔ s.traced = false ∧ s.p_sigmask &&& mask ≠ 0 := by
  unfold World.action
  cases s.traced with
  | true => exact ⟨nofun, nofun⟩
  | false =>
    by_cases hmask : s.p_sigmask &&& mask ≠ 0
    · rw [if_neg Bool.false_ne_true, if_pos hmask]
      exact ⟨fun _ => ⟨rfl, hmask⟩, fun _ => rfl⟩
    · rw [if_neg Bool.false_ne_true, if_neg hmask]
      refine ⟨fun h => ?_, fun h => absurd h.2 hmask⟩
      split_ifs at h

/-- `SIGCHLD` makes a process run that sleeps interruptibly. -/
theorem postAsleep_sigchld (notify : World → ℕ → Except Panic World) (w : World) (p : ℕ) (act : Action) :
    w.postAsleep c notify p sigchld act = if (w.proc p).sintr = false then .ok w else w.setrun c p := by
  unfold World.postAsleep
  rw [sigprop_sigchld]
  dsimp only
  by_cases hintr : (w.proc p).sintr = false
  · rw [if_pos hintr, if_pos hintr]
  rw [if_neg hintr, if_neg hintr]
  by_cases htraced : (w.proc p).traced = true
  · rw [if_pos htraced]
  · rw [if_neg htraced, if_neg (fun h => Bool.false_ne_true h.1), if_pos (.inl rfl)]

theorem postStopped_sigchld (w : World) (p : ℕ) (act : Action) :
    w.postStopped c p sigchld act = .ok w ∨ w.postStopped c p sigchld act = w.unsleep c p := by
  unfold World.postStopped
  rw [sigprop_sigchld]
  dsimp only
  rw [if_neg (show sigchld ≠ sigkill by decide), if_neg Bool.false_ne_true, if_neg Bool.false_ne_true]
  split_ifs
  · exact .inl rfl
  · exact .inr rfl
  · exact .inl rfl

/-- What `SIGCHLD` does. -/
theorem post_sigchld (c : Cfg) (notify : World → ℕ → Except Panic World) (w : World) (p : ℕ) :
    (Stirs (w.proc p) → ∃ sg, w.post c notify p sigchld = (w.setSig p sg).setrun c p) ∧
      (¬ Stirs (w.proc p) → ∃ sg, w.post c notify p sigchld = .ok (w.setSig p sg) ∨
        (w.proc p).p_stat = .sstop ∧ w.post c notify p sigchld = (w.setSig p sg).unsleep c p) := by
  unfold World.post
  dsimp only
  rw [sigprop_sigchld]
  generalize hsg : (w.proc p).p_sig ||| sigmask sigchld = sg
  have hproc : (w.setSig p sg).proc p = { w.proc p with p_sig := sg } := modify_proc_self ..
  simp only [Bool.false_eq_true, if_false, Bool.and_false, false_and, hsg, true_or, and_true, action_eq_hold]
  by_cases hignored : (w.proc p).traced = false ∧ (w.proc p).p_sigignore &&& sigmask sigchld ≠ 0
  · rw [if_pos hignored]
    refine ⟨?_, fun _ => ⟨(w.proc p).p_sig, .inl (by rw [setSig_same])⟩⟩
    rintro ⟨-, -, htraced | ⟨hign, -⟩⟩
    · rw [hignored.1] at htraced
      cases htraced
    · exact absurd hign hignored.2
  rw [if_neg hignored]
  by_cases hheld : (w.proc p).traced = false ∧ (w.proc p).p_sigmask &&& sigmask sigchld ≠ 0
  · rw [if_pos hheld]
    refine ⟨?_, fun _ => ⟨sg, .inl rfl⟩⟩
    rintro ⟨-, -, htraced | ⟨-, hmask⟩⟩
    · rw [hheld.1] at htraced
      cases htraced
    · exact absurd hmask hheld.2
  rw [if_neg hheld]
  cases hstat : (w.proc p).p_stat with
  | ssleep =>
    simp only [postAsleep_sigchld, hproc]
    by_cases hintr : (w.proc p).sintr = false
    · rw [if_pos hintr]
      refine ⟨fun hs => ?_, fun _ => ⟨sg, .inl rfl⟩⟩
      rw [hs.2.1] at hintr
      cases hintr
    · rw [if_neg hintr]
      refine ⟨fun _ => ⟨sg, rfl⟩, fun hs => absurd ⟨hstat, by simpa using hintr, ?_⟩ hs⟩
      by_cases htraced : (w.proc p).traced = true
      · exact .inl htraced
      · rw [Bool.not_eq_true] at htraced
        exact .inr ⟨not_not.mp fun hne => hignored ⟨htraced, hne⟩, not_not.mp fun hne => hheld ⟨htraced, hne⟩⟩
  | sstop =>
    refine ⟨fun hs => ?_, fun _ => ⟨sg, ?_⟩⟩
    · rw [hs.1] at hstat
      cases hstat
    · exact (postStopped_sigchld (w.setSig p sg) p _).imp_right fun h => ⟨rfl, h⟩
  | _ =>
    refine ⟨fun hs => ?_, fun _ => ⟨sg, .inl rfl⟩⟩
    rw [hs.1] at hstat
    cases hstat

/-- **How `SIGCHLD` ends.** -/
theorem Sorted.sigchld (h : Sorted c w x Q) (notify : World → ℕ → Except Panic World) (p : ℕ) :
    Ends c p x (¬ (Stirs (w.proc p) ∧ Jams c w x p)) w (w.post c notify p sigchld) := by
  obtain ⟨hstirs, hrest⟩ := post_sigchld c notify w p
  by_cases hs : Stirs (w.proc p)
  · obtain ⟨sg, hr⟩ := hstirs hs
    have hstat : ((w.setSig p sg).proc p).p_stat = (w.proc p).p_stat := modify_field Proc.p_stat w p _ rfl p
    have hjams : Jams c (w.setSig p sg) x p ↔ Jams c w x p := by
      unfold Jams
      rw [(Moved.setSig (c := c) w p sg).kept.sload, (Moved.setSig (c := c) w p sg).kept.clear h.srun_of_running]
      rfl
    rw [hr]
    refine .after (.setSig w p sg) (not_congr (hjams.trans (and_iff_right hs).symm)) ((h.setSig p sg).setrun ?_)
    rw [hstat]
    exact .inl hs.1
  · obtain ⟨sg, hr | ⟨hstop, hr⟩⟩ := hrest hs
    all_goals
      refine ⟨fun _ => ?_, fun hn => absurd (not_not.mp hn).1 hs⟩
      rw [hr]
    · exact ⟨_, Q, rfl, h.setSig p sg, .setSig w p sg⟩
    · have hstat : ((w.setSig p sg).proc p).p_stat = .sstop := (modify_field Proc.p_stat w p _ rfl p).trans hstop
      obtain ⟨w', Q', hok, hsorted, hfree⟩ := (h.setSig p sg).unsleep hstat
      exact ⟨w', Q', hok, hsorted, (Moved.setSig w p sg).trans hfree.moved⟩

/-- **`psignal` does not panic while the process that has the processor has no channel.** -/
theorem Sorted.psignal (h : Sorted c w x Q) (hf : Facts c w) (hfree : Free w x) (p sig : ℕ) :
    ∃ w' Q', w.psignal c p sig = .ok w' ∧ Sorted c w' x Q' ∧ Kept w w' := by
  have hnote : ∀ sg, Kept w (w.setSig p sg) := fun sg => (Moved.setSig (c := c) w p sg).kept
  have hstat : ∀ sg, ((w.setSig p sg).proc p).p_stat = (w.proc p).p_stat :=
    fun sg => modify_field Proc.p_stat w p _ rfl p
  have hposts := posts c (World.psignalChld c) w p sig
  unfold World.psignal
  generalize w.post c (World.psignalChld c) p sig = r at hposts
  cases hposts with
  | note sg => exact ⟨_, Q, rfl, h.setSig p sg, hnote sg⟩
  | setrun sg hp =>
    rw [← hstat sg] at hp
    obtain ⟨w', Q', hok, hsorted, hmoved⟩ := ((h.setSig p sg).setrun hp).ok (hfree.kept (hnote sg)).safe
    exact ⟨w', Q', hok, hsorted, (hnote sg).trans hmoved.kept⟩
  | unsleep sg hp =>
    rw [← hstat sg] at hp
    obtain ⟨w', Q', hok, hsorted, hfreed⟩ := (h.setSig p sg).unsleep hp
    exact ⟨w', Q', hok, hsorted, (hnote sg).trans hfreed.kept⟩
  | sleep sg hp hw =>
    have hx : x ≠ some p := fun hx => hw (hfree p hx)
    have hproc : ((w.setSig p sg).setStat p .ssleep).proc p = { w.proc p with p_sig := sg, p_stat := .ssleep } := by
      simp [World.setStat, World.setSig]
    have hs := h.settled p hx
    refine ⟨_, Q, rfl, h.change (p := p) (h.congr rfl fun q => ?_) (fun q hq => ⟨?_, Iff.rfl⟩) (fun _ _ => Iff.rfl) ?_,
      (hnote sg).trans (Kept.modify (by rw [hstat, hp]; rintro ⟨⟩) rfl rfl rfl rfl fun _ => rfl)⟩
    · exact (modify_field Proc.p_wchan _ p _ rfl q).trans (modify_field Proc.p_wchan w p _ rfl q)
    · exact (modify_proc_ne _ _ hq).trans (modify_proc_ne _ _ hq)
    · rw [if_neg hx, hproc]
      refine ⟨fun hrun => ?_, by rintro ⟨⟩, fun _ => hw, fun _ => .inl rfl, fun _ => hs.lt (by rw [hp]; rintro ⟨⟩)⟩
      have hsrun := (hs.run hrun).1
      rw [hp] at hsrun
      cases hsrun
  | stop sg sig w₁ hp hintr hw₁ =>
    have h₁ : Sorted c w₁ x Q := by
      rw [hw₁]
      exact h.modify rfl rfl rfl
    have hkept : Kept w w₁ := by
      rw [hw₁]
      exact Kept.modify (by rw [hp]; rintro ⟨⟩) rfl rfl rfl rfl fun _ => rfl
    have hp₁ : (w₁.proc p).p_stat = .ssleep := by
      rw [hw₁, modify_proc_self]
      exact hp
    have hout : (w₁.proc p).p_wchan ≠ c.runout := by
      rw [hw₁, modify_proc_self]
      exact hf.sintr_runout hintr
    -- The parent is somebody else, and whom the swapper wakes up is not asleep here.
    have htold : ∃ w₂ Q₂, (if (w₁.proc (w.proc p).p_pptr).nocldstop then .ok w₁
        else w₁.psignalChld c (w.proc p).p_pptr) = .ok w₂ ∧ Sorted c w₂ x Q₂ ∧ Moved c (w.proc p).p_pptr w₁ w₂ := by
      split_ifs
      · exact ⟨w₁, Q, rfl, h₁, .refl w₁ _⟩
      · exact (h₁.sigchld _ _).ok fun hj => (hfree.kept hkept).safe hj.2
    obtain ⟨w₂, Q₂, hok, h₂, hmoved⟩ := htold
    have hsame := hmoved.others p (hf.p_pptr p).symm hout
    obtain ⟨w₃, Q₃, hok₃, h₃, hkept₃⟩ := h₂.stop (p := p) (hfree.kept (hkept.trans hmoved.kept)) (by rw [hsame, hp₁])
    refine ⟨w₃, Q₃, ?_, h₃, hkept.trans (hmoved.kept.trans hkept₃)⟩
    rw [hok]
    exact hok₃

end

end DiscoBSD.Sched
