import DiscoBSD.Sched.Signals

/-!
# What holds between two steps

**A process that has the processor has a channel only in `tsleep`, before it is marked asleep, and the interrupts
are masked then.** `Here` is what holds within a step of such a process, before its place is written.
-/

set_option autoImplicit false

namespace DiscoBSD.Sched

open DiscoBSD.Lib
open Function (update)

/-- The process runs: it is not stopped, and it has not gone to sleep or back to the run queue. -/
def Pc.active : Pc → Bool
  | .told .. | .leave _ | .away _ => false
  | _ => true

/-- The interrupts may be masked: the process has come from `tsleep`, or is about to go to `swtch`. -/
def Pc.first : Pc → Bool
  | .head .first | .act .first _ | .notify .first .. | .stop .first .. | .told .first .. | .leave _ => true
  | _ => false

/-- The process that has the processor, if it runs. -/
def World.active (w : World) : Option ℕ := w.current.filter fun p => (w.pc p).active

/-- What holds between two steps. -/
structure Inv (c : Cfg) (w : World) : Prop where
  facts : Facts c w
  sorted : ∃ Q, Sorted c w w.active Q
  away : ∀ p, w.current ≠ some p → ∃ k, w.pc p = .away k
  wchan : ∀ p, w.active = some p → (w.proc p).p_wchan ≠ 0 → w.masked = true ∧ (w.pc p).first = true
  masked : w.masked = true → ∃ p, w.current = some p ∧ (w.pc p).first = true

/-- The process `p` has the processor, and `x` is the process that runs. -/
structure Here (c : Cfg) (w : World) (p : ℕ) (x : Option ℕ) : Prop where
  facts : Facts c w
  sorted : ∃ Q, Sorted c w x Q
  current : w.current = some p
  away : ∀ q, q ≠ p → ∃ k, w.pc q = .away k

/-- The computation leads to a state where all is well. -/
def Leads (c : Cfg) (r : Except Panic World) : Prop := ∃ w, r = .ok w ∧ Inv c w

section

variable {c : Cfg} {w w' : World} {Q : Qid → List ℕ} {x : Option ℕ} {p q : ℕ} {pc : Pc}

theorem active_eq (hp : w.current = some p) : w.active = if (w.pc p).active then some p else none := by
  unfold World.active
  rw [hp, Option.filter_some]

theorem Inv.here (h : Inv c w) (hp : w.current = some p) : Here c w p (if (w.pc p).active then some p else none) where
  facts := h.facts
  sorted := active_eq hp ▸ h.sorted
  current := hp
  away q hq := h.away q (by rw [hp]; rintro ⟨⟩; exact hq rfl)

theorem Here.kept {x' : Option ℕ} (h : Here c w p x) (hk : Kept w w') (hs : Sorted c w' x' Q) :
    Here c w' p x' where
  facts := h.facts.kept hk
  sorted := ⟨Q, hs⟩
  current := hk.current.trans h.current
  away q hq := by
    rw [hk.pc]
    exact h.away q hq

/-- The process goes to another place. -/
theorem Here.setPc (h : Here c w p x) (hx : x = if pc.active then some p else none)
    (hwchan : pc.active = true → (w.proc p).p_wchan ≠ 0 → w.masked = true) (hmasked : w.masked = true → pc.first = true) :
    Inv c (w.setPc p pc) := by
  have hpc : (w.setPc p pc).pc p = pc := Function.update_self ..
  have hcur : (w.setPc p pc).current = some p := h.current
  have hactive : (w.setPc p pc).active = x := by rw [active_eq hcur, hpc, hx]
  constructor
  · exact h.facts.congr rfl rfl rfl
  · obtain ⟨Q, hs⟩ := h.sorted
    rw [hactive]
    exact ⟨Q, ⟨⟨hs.threads, hs.slp, hs.lt⟩, hs.settled, hs.running⟩⟩
  · intro q hq
    rw [hcur] at hq
    have hne : q ≠ p := fun he => hq (he ▸ rfl)
    obtain ⟨k, hk⟩ := h.away q hne
    exact ⟨k, (Function.update_of_ne hne ..).trans hk⟩
  · intro q hq hw
    rw [hactive, hx] at hq
    split_ifs at hq with ha
    cases hq
    have hm := hwchan ha hw
    exact ⟨hm, by rw [hpc]; exact hmasked hm⟩
  · intro hm
    exact ⟨p, hcur, by rw [hpc]; exact hmasked hm⟩

/-- What happens to others does not matter to the process that has the processor. -/
theorem Inv.kept (h : Inv c w) (hk : Kept w w') (hs : Sorted c w' w.active Q) : Inv c w' := by
  have hactive : w'.active = w.active := by
    unfold World.active
    rw [hk.current, hk.pc]
  constructor
  · exact h.facts.kept hk
  · exact ⟨Q, hactive ▸ hs⟩
  · rw [hk.current, hk.pc]
    exact h.away
  · intro p hp hw
    rw [hactive] at hp
    rw [hk.masked, hk.pc]
    exact h.wchan p hp (by rw [← hk.wchan p hw]; exact hw)
  · rw [hk.masked, hk.current, hk.pc]
    exact h.masked

/-- While the interrupts are not masked, the process that runs has no channel. -/
theorem Inv.free (h : Inv c w) (hm : w.masked = false) : Free w w.active := by
  intro p hp
  by_contra hne
  have hmasked := (h.wchan p hp hne).1
  rw [hm] at hmasked
  cases hmasked

theorem Inv.free_of_not_first (h : Inv c w) (hp : w.current = some p) (hpc : (w.pc p).first = false) :
    w.masked = false := by
  by_contra hm
  obtain ⟨q, hq, hfirst⟩ := h.masked (by simpa using hm)
  rw [hp] at hq
  cases hq
  rw [hpc] at hfirst
  cases hfirst

/-- A process between two calls. -/
theorem Inv.calling (h : Inv c w) (hp : w.calling = some p) :
    w.masked = false ∧ w.pc p = .user ∧ (w.proc p).p_wchan = 0 ∧ Here c w p (some p) := by
  unfold World.calling at hp
  cases hcur : w.current with
  | none =>
    rw [hcur] at hp
    cases hp
  | some q =>
    rw [hcur] at hp
    simp only [] at hp
    split_ifs at hp with hpc
    cases hp
    have hm := h.free_of_not_first hcur (by rw [hpc]; rfl)
    have hactive : w.active = some p := by rw [active_eq hcur, hpc]; rfl
    refine ⟨hm, hpc, h.free hm p hactive, ?_⟩
    have hhere := h.here hcur
    rwa [hpc] at hhere

end

end DiscoBSD.Sched

/-!
# The steps of a process

What `tsleep`, `CURSIG` and `issignal` do is followed from place to place. **Only one of these steps can panic: that
in which a process with a channel tells its parent that it stops.**
-/

namespace DiscoBSD.Sched

open DiscoBSD.Lib
open Function (update)

section

variable {c : Cfg} {w w' : World} {Q : Qid → List ℕ} {x : Option ℕ} {p q sig ident : ℕ} {ctx : Ctx}

/-! ## Writes -/

theorem Here.masked (h : Here c w p x) (b : Bool) : Here c { w with masked := b } p x where
  facts := h.facts.congr rfl rfl rfl
  sorted := by
    obtain ⟨Q, hs⟩ := h.sorted
    exact ⟨Q, ⟨⟨hs.threads, hs.slp, hs.lt⟩, hs.settled, hs.running⟩⟩
  current := h.current
  away := h.away

/-- A write to what the queues and the states do not depend on. -/
theorem Here.modify {f : Proc → Proc} (h : Here c w p x)
    (hstat : (f (w.proc p)).p_stat = (w.proc p).p_stat) (hwchan : (f (w.proc p)).p_wchan = (w.proc p).p_wchan)
    (hsload : (f (w.proc p)).sload = (w.proc p).sload) (hssys : (f (w.proc p)).ssys = (w.proc p).ssys)
    (hpptr : (f (w.proc p)).p_pptr = (w.proc p).p_pptr)
    (hsintr : (f (w.proc p)).sintr = true → (w.proc p).sintr = true ∨ p ≠ 0) : Here c (w.modify p f) p x where
  facts := h.facts.modify hsload hssys (by rw [hpptr]; exact h.facts.p_pptr p) hsintr fun he => .inl (hwchan ▸ he)
  sorted := by
    obtain ⟨Q, hs⟩ := h.sorted
    exact ⟨Q, hs.modify hstat hwchan hsload⟩
  current := h.current
  away := h.away

theorem Here.setSig (h : Here c w p x) (sg : BitVec 32) : Here c (w.setSig p sg) p x :=
  h.modify rfl rfl rfl rfl rfl .inl

/-! ## tsleep -/

/-- A process that has the processor is put on a sleep queue. -/
theorem Here.push (h : Here c w p (some p)) (hw : (w.proc p).p_wchan = 0) (hident : ident ≠ 0)
    (hout : ident = c.runout → p = 0) :
    Here c ({ w with links := w.links.push (.slp (hash ident)) p, masked := true }.setWchan p ident) p (some p) := by
  obtain ⟨Q, hs⟩ := h.sorted
  have hrun := hs.running p rfl
  have hproc : ∀ q, q ≠ p → ({ w with links := w.links.push (.slp (hash ident)) p, masked := true }.setWchan p
      ident).proc q = w.proc q := fun q hq => modify_proc_ne _ _ hq
  have hself : ({ w with links := w.links.push (.slp (hash ident)) p, masked := true }.setWchan p ident).proc p =
      { w.proc p with p_wchan := ident } := modify_proc_self ..
  have hqueues : Queues c ({ w with links := w.links.push (.slp (hash ident)) p, masked := true }.setWchan p ident)
      (update Q (.slp (hash ident)) (p :: Q (.slp (hash ident)))) := by
    have hnone := hs.none hw hrun.run
    refine ⟨hs.threads.push hnone _, fun q k => ?_, fun k q hq => ?_⟩
    · by_cases hqp : q = p
      · subst hqp
        rw [hself]
        by_cases hk : k = hash ident
        · subst hk
          rw [Function.update_self]
          exact ⟨fun _ => ⟨hident, rfl⟩, fun _ => List.mem_cons_self ..⟩
        · rw [Function.update_of_ne (by rintro ⟨⟩; exact hk rfl)]
          exact ⟨fun hq => absurd hq (hnone _), fun hq => absurd hq.2.symm hk⟩
      · rw [hproc q hqp, ← hs.slp]
        by_cases hk : k = hash ident
        · subst hk
          rw [Function.update_self, List.mem_cons]
          exact or_iff_right hqp
        · rw [Function.update_of_ne (by rintro ⟨⟩; exact hk rfl)]
    · by_cases hk : k = .slp (hash ident)
      · subst hk
        rw [Function.update_self, List.mem_cons] at hq
        rcases hq with rfl | hq
        · exact hrun.lt
        · exact hs.lt _ q hq
      · rw [Function.update_of_ne hk] at hq
        exact hs.lt _ q hq
  have hne : update Q (.slp (hash ident)) (p :: Q (.slp (hash ident))) .run = Q .run :=
    Function.update_of_ne (by rintro ⟨⟩) ..
  have hfacts : Facts c { w with links := w.links.push (.slp (hash ident)) p, masked := true } :=
    h.facts.congr rfl rfl rfl
  constructor
  · exact hfacts.modify rfl rfl (h.facts.p_pptr p) .inl fun he => .inr (hout he)
  · refine ⟨_, hs.change (p := p) hqueues (fun q hq => ⟨hproc q hq, ?_⟩) (fun _ _ => Iff.rfl) ?_⟩
    · rw [hne]
    · rw [if_pos rfl, hself, hne]
      exact ⟨hrun.run, hrun.srun, hrun.sload, hrun.lt⟩
  · exact h.current
  · exact h.away

/-- A process on a sleep queue is marked asleep. -/
theorem Here.sleeping (h : Here c w p (some p)) (hw : (w.proc p).p_wchan ≠ 0) (pcatch : Bool) :
    Leads c (w.sleeping c p pcatch) := by
  obtain ⟨Q, hs⟩ := h.sorted
  have hrun := hs.running p rfl
  have hself : (w.setStat p .ssleep).proc p = { w.proc p with p_stat := .ssleep } := modify_proc_self ..
  have hs' : Sorted c (w.setStat p .ssleep) none Q := by
    refine hs.change (p := p) (hs.congr rfl (modify_field Proc.p_wchan w p _ rfl))
      (fun q hq => ⟨modify_proc_ne _ _ hq, Iff.rfl⟩) (fun q hq => ⟨nofun, fun he => absurd (Option.some.inj he).symm hq⟩) ?_
    rw [if_neg nofun, hself]
    exact ⟨fun hmem => absurd hmem hrun.run, nofun, fun _ => hw, fun _ => .inl rfl, fun _ => hrun.lt⟩
  have hf : Facts c (w.setStat p .ssleep) := h.facts.modify rfl rfl (h.facts.p_pptr p) .inl .inl
  have hhere : Here c (w.setStat p .ssleep) p none := ⟨hf, ⟨Q, hs'⟩, h.current, h.away⟩
  have hclear : ∀ k, Clear (w.setStat p .ssleep) none k := fun _ _ hp => by cases hp
  have hwake : ∃ w' Q', (if p ≠ 0 then (w.setStat p .ssleep).wakeup c c.runin else .ok (w.setStat p .ssleep)) = .ok w' ∧
      Sorted c w' none Q' ∧ Kept (w.setStat p .ssleep) w' := by
    split_ifs
    · obtain ⟨w', Q', hok, hsorted, hwoken⟩ := (hs'.wakeup (fun _ => hclear _) c.runin).ok (hclear _)
      exact ⟨w', Q', hok, hsorted, hwoken.kept⟩
    · exact ⟨_, Q, rfl, hs', .refl _⟩
  obtain ⟨w', Q', hok, hsorted, hk⟩ := hwake
  refine ⟨w'.setPc p (.leave (.slept pcatch)), ?_, ?_⟩
  · unfold World.sleeping
    dsimp only
    rw [hok]
    rfl
  · exact (hhere.kept hk hsorted).setPc rfl nofun fun _ => rfl

theorem Here.resume (h : Here c w p (some p)) (hw : (w.proc p).p_wchan = 0) (sig : ℕ) (pcatch : Bool) :
    Inv c (w.resume p sig pcatch) := by
  have hhere : Here c ({ w with masked := false }.modify p fun y => { y with sintr := false, timeout := false }) p
      (some p) := (h.masked false).modify rfl rfl rfl rfl rfl nofun
  have hw' : (({ w with masked := false }.modify p fun y => { y with sintr := false, timeout := false }).proc
      p).p_wchan = 0 := (modify_field Proc.p_wchan _ p _ rfl p).trans hw
  unfold World.resume
  dsimp only
  split_ifs
  all_goals exact hhere.setPc rfl (fun _ hne => absurd hw' hne) nofun

theorem Here.tsleep (h : Here c w p (some p)) (hw : (w.proc p).p_wchan = 0) (hident : ident ≠ 0)
    (hout : ident = c.runout → p = 0) {pcatch : Bool} (hcatch : p = 0 → pcatch = false) :
    Leads c (w.tsleep c p ident pcatch) := by
  obtain ⟨Q, hs⟩ := h.sorted
  have hhere := h.push hw hident hout
  unfold World.tsleep
  rw [if_neg (not_not.mpr (hs.srun_of_running p rfl))]
  dsimp only
  split_ifs with hpc
  · refine ⟨_, rfl, Here.setPc (hhere.modify rfl rfl rfl rfl rfl fun _ => .inr ?_) rfl (fun _ _ => rfl) fun _ => rfl⟩
    intro hp
    rw [hcatch hp] at hpc
    cases hpc
  · refine hhere.sleeping ?_ false
    unfold World.setWchan
    rw [modify_proc_self]
    exact hident

/-! ## CURSIG -/

/-- The process has a channel only while the interrupts are masked, and they are only in `tsleep`. -/
structure Bound (w : World) (p : ℕ) (ctx : Ctx) : Prop where
  wchan : (w.proc p).p_wchan ≠ 0 → w.masked = true
  masked : w.masked = true → ctx = .first

theorem Bound.modify {f : Proc → Proc} (h : Bound w p ctx)
    (hwchan : (f (w.proc p)).p_wchan = (w.proc p).p_wchan) : Bound (w.modify p f) p ctx where
  wchan hw := h.wchan (by rwa [← modify_field Proc.p_wchan w p f hwchan p])
  masked := h.masked

theorem Bound.setSig (h : Bound w p ctx) (sg : BitVec 32) : Bound (w.setSig p sg) p ctx := h.modify rfl

theorem Here.place (h : Here c w p (some p)) (hb : Bound w p ctx) {pc : Pc} (hpc : pc.active = true)
    (hfirst : ctx = .first → pc.first = true) : Inv c (w.setPc p pc) :=
  h.setPc (by rw [hpc]; rfl) (fun _ hw => hb.wchan hw) fun hm => hfirst (hb.masked hm)

theorem Here.dropSig (h : Here c w p (some p)) (hb : Bound w p ctx) (sig : ℕ) : Inv c (w.dropSig p ctx sig) :=
  (h.setSig _).place (hb.setSig _) rfl fun he => by rw [he]; rfl

theorem Here.cursig (h : Here c w p (some p)) (hb : Bound w p ctx) (sig : ℕ) : Leads c (w.cursig c p ctx sig) := by
  obtain ⟨Q, hs⟩ := h.sorted
  have hsrun := hs.srun_of_running p rfl
  unfold World.cursig
  cases ctx with
  | first =>
    simp only []
    split_ifs with hsig hw
    · obtain ⟨w', Q', hok, hq, hrun, hw'⟩ := hs.toQueues.unsleep (p := p)
      rw [hw'] at hok hq
      have hself : ({ w with links := w'.links }.setWchan p 0).proc p = { w.proc p with p_wchan := 0 } :=
        modify_proc_self ..
      have hfacts : Facts c { w with links := w'.links } := h.facts.congr rfl rfl rfl
      have hhere : Here c ({ w with links := w'.links }.setWchan p 0) p (some p) :=
        ⟨hfacts.modify rfl rfl (h.facts.p_pptr p) .inl fun he => absurd he.symm c.runout_ne, ⟨Q', hs.free hq hrun (by rw [hsrun]; nofun)⟩, h.current, h.away⟩
      rw [hok]
      refine ⟨_, rfl, Here.resume (hhere.modify (by rw [hself]; exact hsrun.symm) rfl rfl rfl rfl .inl) ?_ sig true⟩
      exact (modify_field Proc.p_wchan _ p _ rfl p).trans (by rw [hself])
    · exact ⟨_, rfl, h.resume hw 0 false⟩
    · exact h.sleeping hw true
  | second => exact ⟨_, rfl, h.place hb rfl nofun⟩
  | user => exact ⟨_, rfl, (h.setSig _).place (hb.setSig _) rfl nofun⟩

/-! ## issignal -/

theorem Here.head (h : Here c w p (some p)) (hb : Bound w p ctx) : Leads c (w.head c p ctx) := by
  unfold World.head
  dsimp only
  generalize (if (w.proc p).svfork = true then (w.proc p).p_sig &&& ~~~(w.proc p).p_sigmask &&& ~~~stopsigmask
    else (w.proc p).p_sig &&& ~~~(w.proc p).p_sigmask) = mask
  split_ifs
  · exact h.cursig hb 0
  · exact ⟨_, rfl, h.dropSig hb _⟩
  · exact ⟨_, rfl, (h.modify rfl rfl rfl rfl rfl .inl).place (hb.modify rfl) rfl fun he => by rw [he]; rfl⟩
  · exact ⟨_, rfl, h.place hb rfl fun he => by rw [he]; rfl⟩

theorem Here.act (h : Here c w p (some p)) (hb : Bound w p ctx) (sig : ℕ) : Leads c (w.act c p ctx sig) := by
  unfold World.act
  dsimp only
  cases (w.proc p).u_signal sig with
  | dfl =>
    simp only []
    split_ifs
    · exact ⟨_, rfl, h.dropSig hb sig⟩
    · exact ⟨_, rfl, h.dropSig hb sig⟩
    · exact ⟨_, rfl, (h.modify rfl rfl rfl rfl rfl .inl).place (hb.modify rfl) rfl fun he => by rw [he]; rfl⟩
    · exact ⟨_, rfl, h.dropSig hb sig⟩
    · exact h.cursig hb sig
  | ign => exact ⟨_, rfl, h.dropSig hb sig⟩
  | hold => exact h.cursig hb sig
  | caught => exact h.cursig hb sig

theorem Here.procxmt (h : Here c w p (some p)) (hb : Bound w p ctx) (sig : ℕ) (released : Bool) (data : ℕ) :
    Inv c (w.procxmt p ctx sig released data) := by
  have hhere : Here c (w.modify p fun y => { y with p_ptracesig := data }) p (some p) :=
    h.modify rfl rfl rfl rfl rfl .inl
  have hbound : Bound (w.modify p fun y => { y with p_ptracesig := data }) p ctx := hb.modify rfl
  unfold World.procxmt
  dsimp only
  split_ifs
  · exact hhere.place hbound rfl fun he => by rw [he]; rfl
  · exact hhere.place hbound rfl fun he => by rw [he]; rfl
  · exact (hhere.setSig _).place (hbound.setSig _) rfl fun he => by rw [he]; rfl
  · exact (hhere.setSig _).place (hbound.setSig _) rfl fun he => by rw [he]; rfl

/-- The process is marked stopped. -/
theorem Here.stopHead (h : Here c w p (some p)) (hb : Bound w p ctx) (traced : Bool) (sig : ℕ) :
    Inv c ((w.stopHead p).setPc p (.told ctx traced sig)) := by
  obtain ⟨Q, hs⟩ := h.sorted
  have hhere : Here c (w.stopHead p) p none := by
    refine ⟨h.facts.modify rfl rfl (h.facts.p_pptr p) .inl .inl, ⟨Q, hs.stopHead nofun (fun q hq => ?_) (.inr rfl)⟩,
      h.current, h.away⟩
    exact ⟨nofun, fun he => absurd (Option.some.inj he).symm hq⟩
  exact hhere.setPc rfl nofun fun hm => by rw [hb.masked hm]; rfl

/-- The parent of a stopped process is woken up. -/
theorem Here.told (h : Here c w p none) (chan : ℕ) (k : Cont) :
    Leads c (do
      let w ← w.wakeup c chan
      pure (w.setPc p (.leave k))) := by
  obtain ⟨Q, hs⟩ := h.sorted
  have hclear : ∀ k, Clear w none k := fun _ _ hp => by cases hp
  obtain ⟨w', Q', hok, hsorted, hwoken⟩ := (hs.wakeup (fun _ => hclear _) chan).ok (hclear _)
  rw [hok]
  exact ⟨_, rfl, (h.kept hwoken.kept hsorted).setPc rfl nofun fun _ => rfl⟩

/-! ## The notice to the parent -/

/-- The process has a channel whose queue is that of `runout`, the swapper waits, and the parent, which hears of
    the stop, runs for it but is swapped out. -/
def Risky (c : Cfg) (w : World) (p : ℕ) (traced : Bool) : Prop :=
  let parent := w.proc (w.proc p).p_pptr
  (traced = true ∨ parent.nocldstop = false) ∧ Stirs parent ∧ parent.sload = false ∧ w.runout ≠ 0 ∧
    (w.proc p).p_wchan ≠ 0 ∧ hash (w.proc p).p_wchan = hash c.runout

theorem Here.notify (h : Here c w p (some p)) (hb : Bound w p ctx) (traced : Bool) (sig : ℕ) :
    (¬ Risky c w p traced → Leads c (do
      let w ← w.notify c p traced
      pure (w.setPc p (.stop ctx traced sig)))) ∧
    (Risky c w p traced → (do
      let w ← w.notify c p traced
      pure (w.setPc p (.stop ctx traced sig))) = .error .wakeup) := by
  obtain ⟨Q, hs⟩ := h.sorted
  have hwchan : ∀ {w' : World}, Kept w w' → (w'.proc p).p_wchan = (w.proc p).p_wchan :=
    fun hk => (hk.awake p (hs.srun_of_running p rfl)).2
  have hclear : ¬ Clear w (some p) (hash c.runout) ↔
      (w.proc p).p_wchan ≠ 0 ∧ hash (w.proc p).p_wchan = hash c.runout := by
    refine ⟨fun hn => ?_, fun hn hc => hc p rfl hn⟩
    by_contra hne
    refine hn fun q hq => ?_
    cases hq
    exact hne
  unfold World.notify
  by_cases htell : traced = true ∨ (w.proc (w.proc p).p_pptr).nocldstop = false
  · rw [if_pos htell]
    have hends := hs.sigchld (World.psignalChld c) (w.proc p).p_pptr
    have hrisky : Risky c w p traced ↔
        Stirs (w.proc (w.proc p).p_pptr) ∧ Jams c w (some p) (w.proc p).p_pptr := by
      unfold Risky Jams
      rw [hclear]
      exact and_iff_right htell
    constructor
    · intro hsafe
      obtain ⟨w', Q', hok, hsorted, hmoved⟩ := hends.ok (mt hrisky.mpr hsafe)
      rw [show w.psignal c (w.proc p).p_pptr sigchld = .ok w' from hok]
      refine ⟨_, rfl, (h.kept hmoved.kept hsorted).setPc rfl (fun _ hw => ?_) fun hm => ?_⟩
      · rw [hwchan hmoved.kept] at hw
        exact hmoved.kept.masked.trans (hb.wchan hw)
      · rw [hb.masked (hmoved.kept.masked ▸ hm)]
        rfl
    · intro hr
      rw [show w.psignal c (w.proc p).p_pptr sigchld = .error .wakeup from hends.panic (not_not.mpr (hrisky.mp hr))]
      rfl
  · rw [if_neg htell]
    refine ⟨fun _ => ⟨_, rfl, h.place hb rfl fun he => by rw [he]; rfl⟩, fun hr => absurd hr.1 htell⟩

end

end DiscoBSD.Sched
