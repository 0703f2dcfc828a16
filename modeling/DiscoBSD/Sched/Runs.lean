import DiscoBSD.Sched.Steps

/-!
# Runs

**In every run in which no process tells its parent that it stops while the two are in each other's way, as `Risky`
says, the queues hold what they should and nothing panics**; a step that is not safe ends in the panic of `wakeup`.

A process comes to such a step with a default stop signal pending, or traced, when it calls `tsleep` with `PCATCH`.
Its channel has the queue of `runout`, its parent is swapped out and sleeps interruptibly, and the swapper waits
for work. The process is on the sleep queue and still `SRUN`, and the wakeup of the swapper comes across it.
-/

set_option autoImplicit false

namespace DiscoBSD.Sched

open DiscoBSD.Lib
open Function (update)

/-- Every process with a channel is on the sleep queue of the channel and once, every process on the run queue is
    runnable and loaded and is on it once, and no process is on two queues. -/
def Sound (w : World) : Prop :=
  ∃ Q : Qid → List ℕ, (∀ k, Linked w.links.next (w.links.head k) (Q k) ∧ (Q k).Nodup) ∧
    (∀ k k' p, p ∈ Q k → p ∈ Q k' → k = k') ∧
    (∀ p h, p ∈ Q (.slp h) ↔ (w.proc p).p_wchan ≠ 0 ∧ hash (w.proc p).p_wchan = h) ∧
    ∀ p ∈ Q .run, (w.proc p).p_stat = .srun ∧ (w.proc p).sload = true

/-- The step is not a notice that meets the process on its queue. -/
def Safe (c : Cfg) (w : World) : Event → Prop
  | .go => ∀ p ctx traced sig, w.current = some p → w.pc p = .notify ctx traced sig → ¬ Risky c w p traced
  | _ => True

/-- A run, up to the first panic. -/
def World.run (c : Cfg) : World → List Event → Option (Except Panic World)
  | w, [] => some (.ok w)
  | w, e :: es =>
    match w.step c e with
    | none => none
    | some (.error k) => some (.error k)
    | some (.ok w) => run c w es

/-- All the steps of a run are safe. -/
def SafeRun (c : Cfg) : World → List Event → Prop
  | _, [] => True
  | w, e :: es => Safe c w e ∧ ∀ w', w.step c e = some (.ok w') → SafeRun c w' es

section

variable {c : Cfg} {w w' : World} {Q : Qid → List ℕ} {x : Option ℕ} {p q : ℕ} {ctx : Ctx} {e : Event}
  {r : Except Panic World}

theorem Inv.sound (h : Inv c w) : Sound w := by
  obtain ⟨Q, hs⟩ := h.sorted
  refine ⟨Q, fun k => ⟨hs.threads.linked k, hs.threads.nodup k⟩, hs.threads.apart, hs.slp, fun p hp => ?_⟩
  by_cases hx : w.active = some p
  · exact absurd hp (hs.running p hx).run
  · exact (hs.settled p hx).run hp

/-! ## The process that has the processor -/

theorem Inv.bound (h : Inv c w) (ctx : Ctx) (hp : w.current = some p) (ha : (w.pc p).active = true)
    (hctx : (w.pc p).first = true → ctx = .first) : Here c w p (some p) ∧ Bound w p ctx := by
  have hhere := h.here hp
  rw [if_pos ha] at hhere
  have hactive : w.active = some p := by rw [active_eq hp, if_pos ha]
  refine ⟨hhere, fun hw => (h.wchan p hactive hw).1, fun hm => ?_⟩
  obtain ⟨q, hq, hfirst⟩ := h.masked hm
  rw [hp] at hq
  cases hq
  exact hctx hfirst

theorem Bound.free (h : Bound w p ctx) (hne : ctx ≠ .first) : (w.proc p).p_wchan = 0 := by
  by_contra hw
  exact hne (h.masked (h.wchan hw))

/-- A step of a process that has the processor. -/
theorem Inv.go (h : Inv c w) (hp : w.current = some p) (hr : w.go c p = some r) :
    (Safe c w .go → Leads c r) ∧ (¬ Safe c w .go → r = .error .wakeup) := by
  -- Everything but a notice is safe.
  have hsafe : (∀ ctx traced sig, w.pc p ≠ .notify ctx traced sig) → Leads c r →
      (Safe c w .go → Leads c r) ∧ (¬ Safe c w .go → r = .error .wakeup) := by
    refine fun hpc hlead => ⟨fun _ => hlead, fun hn => absurd (fun q ctx traced sig hq hpcq => ?_) hn⟩
    rw [hp] at hq
    cases hq
    exact absurd hpcq (hpc ctx traced sig)
  unfold World.go at hr
  cases hpc : w.pc p with
  | user =>
    rw [hpc] at hr
    cases hr
  | away k =>
    rw [hpc] at hr
    cases hr
  | head ctx =>
    rw [hpc] at hr
    cases hr
    obtain ⟨hhere, hb⟩ := h.bound ctx hp (by rw [hpc]; rfl) (by rw [hpc]; cases ctx <;> simp [Pc.first])
    exact hsafe (by rw [hpc]; nofun) (hhere.head hb)
  | act ctx sig =>
    rw [hpc] at hr
    cases hr
    obtain ⟨hhere, hb⟩ := h.bound ctx hp (by rw [hpc]; rfl) (by rw [hpc]; cases ctx <;> simp [Pc.first])
    exact hsafe (by rw [hpc]; nofun) (hhere.act hb sig)
  | notify ctx traced sig =>
    rw [hpc] at hr
    cases hr
    obtain ⟨hhere, hb⟩ := h.bound ctx hp (by rw [hpc]; rfl) (by rw [hpc]; cases ctx <;> simp [Pc.first])
    have hiff : Safe c w .go ↔ ¬ Risky c w p traced := by
      refine ⟨fun hs => hs p ctx traced sig hp hpc, fun hn q ctx' traced' sig' hq hpcq => ?_⟩
      rw [hp] at hq
      cases hq
      rw [hpc] at hpcq
      cases hpcq
      exact hn
    rw [hiff, not_not]
    exact hhere.notify hb traced sig
  | stop ctx traced sig =>
    rw [hpc] at hr
    cases hr
    obtain ⟨hhere, hb⟩ := h.bound ctx hp (by rw [hpc]; rfl) (by rw [hpc]; cases ctx <;> simp [Pc.first])
    exact hsafe (by rw [hpc]; nofun) ⟨_, rfl, hhere.stopHead hb traced sig⟩
  | told ctx traced sig =>
    rw [hpc] at hr
    cases hr
    have hhere := h.here hp
    rw [hpc] at hhere
    exact hsafe (by rw [hpc]; nofun) (hhere.told _ _)
  | leave k =>
    rw [hpc] at hr
    cases hr
    have hhere := h.here hp
    rw [hpc] at hhere
    obtain ⟨Q, hs⟩ := hhere.sorted
    refine hsafe (by rw [hpc]; nofun) ⟨_, rfl, ⟨h.facts.congr rfl rfl rfl, ⟨Q, ?_⟩, fun q _ => ?_, nofun, nofun⟩⟩
    · exact ⟨⟨hs.threads, hs.slp, hs.lt⟩, hs.settled, hs.running⟩
    · by_cases hq : q = p
      · subst hq
        exact ⟨k, Function.update_self ..⟩
      · obtain ⟨k', hk'⟩ := hhere.away q hq
        exact ⟨k', (Function.update_of_ne hq ..).trans hk'⟩
  | back k =>
    obtain ⟨hhere, hb⟩ := h.bound .user hp (by rw [hpc]; rfl) (by rw [hpc]; nofun)
    cases k with
    | stopped ctx traced sig =>
      rw [hpc] at hr
      cases traced with
      | true => cases hr
      | false =>
        cases hr
        refine hsafe (by rw [hpc]; nofun) ⟨_, rfl, hhere.dropSig ⟨hb.wchan, fun hm => ?_⟩ sig⟩
        exact absurd (hb.masked hm) nofun
    | slept pcatch =>
      rw [hpc] at hr
      cases hr
      exact hsafe (by rw [hpc]; nofun) ⟨_, rfl, hhere.resume (hb.free nofun) 0 pcatch⟩
    | user =>
      rw [hpc] at hr
      cases hr
      exact hsafe (by rw [hpc]; nofun) ⟨_, rfl, hhere.place hb rfl nofun⟩
  | tail q =>
    rw [hpc] at hr
    cases hr
    obtain ⟨hhere, hb⟩ := h.bound .user hp (by rw [hpc]; rfl) (by rw [hpc]; nofun)
    obtain ⟨Q, hs⟩ := hhere.sorted
    have hfree : Free w (some p) := by
      rintro p' ⟨⟩
      exact hb.free nofun
    obtain ⟨w', Q', hok, hsorted, hmoved⟩ := (hs.setrunTail (p := q)).ok hfree.safe
    refine hsafe (by rw [hpc]; nofun) ?_
    rw [hok]
    refine ⟨_, rfl, (hhere.kept hmoved.kept hsorted).setPc rfl (fun _ hw => ?_) fun hm => ?_⟩
    · exact absurd (hfree.kept hmoved.kept p rfl) hw
    · exact absurd (hb.masked (hmoved.kept.masked ▸ hm)) nofun

/-- It lets others run. -/
theorem Here.preempt (h : Here c w p (some p)) (hm : w.masked = false) (hw : (w.proc p).p_wchan = 0) :
    Leads c (do
      let w ← w.setrq c p
      pure (w.setPc p (.leave .user))) := by
  obtain ⟨Q, hs⟩ := h.sorted
  have hrun := hs.running p rfl
  obtain ⟨hset, hq⟩ := hs.setrq (hs.none hw hrun.run) hrun.lt
  have hs' : Sorted c { w with links := w.links.push .run p } none (update Q .run (p :: Q .run)) := by
    refine hs.change (p := p) hq (fun q hq => ⟨rfl, ?_⟩) (fun q hq => ⟨nofun, fun he => ?_⟩) ?_
    · rw [Function.update_self, List.mem_cons]
      exact or_iff_right hq
    · exact absurd (Option.some.inj he).symm hq
    · rw [if_neg nofun, Function.update_self]
      refine ⟨fun _ => ⟨hrun.srun, hrun.sload⟩, fun _ => ⟨hw, fun _ => List.mem_cons_self ..⟩, fun he => ?_,
        fun hne => absurd hw hne, fun _ => hrun.lt⟩
      rw [hrun.srun] at he
      cases he
  rw [hset]
  refine ⟨_, rfl, (h.kept (.links w _ w.runout) hs').setPc rfl nofun fun hm' => ?_⟩
  rw [show w.masked = true from hm'] at hm
  cases hm

/-- It lets a stopped process run. -/
theorem Here.setrun (h : Here c w p (some p)) (hm : w.masked = false) (hw : (w.proc p).p_wchan = 0)
    (hq : (w.proc q).p_stat = .sstop) :
    Leads c (do
      let w ← w.setrunHead c q
      pure (w.setPc p (.tail q))) := by
  obtain ⟨Q, hs⟩ := h.sorted
  obtain ⟨w', Q', hok, hsorted, hfreed⟩ := hs.setrunHead (.inr hq)
  rw [hok]
  refine ⟨_, rfl, (h.kept hfreed.kept hsorted).setPc rfl (fun _ hne => ?_) fun hm' => ?_⟩
  · exact absurd ((hfreed.kept.wchan p hne).trans hw) hne
  · rw [hfreed.kept.masked, hm] at hm'
    cases hm'

/-! ## swtch -/

/-- A process of the run queue gets the processor. -/
theorem Inv.pick (h : Inv c w) (hcur : w.current = none) {k : Cont} (hpc : w.pc q = .away k)
    (hr : w.pick c q k = some r) : Leads c r := by
  obtain ⟨Q, hs⟩ := h.sorted
  have hactive : w.active = none := by
    unfold World.active
    rw [hcur]
    rfl
  rw [hactive] at hs
  have hm : w.masked = false := by
    by_contra hm
    obtain ⟨p, hp, -⟩ := h.masked (by simpa using hm)
    rw [hcur] at hp
    cases hp
  unfold World.pick at hr
  dsimp only at hr
  rw [hs.nodes, if_neg (by rintro ⟨p, hp, hne⟩; exact hne ((hs.settled p nofun).run hp).1)] at hr
  split_ifs at hr with hq
  obtain ⟨a, b, hk⟩ := List.append_of_mem hq.1
  rw [hs.find hk] at hr
  cases hr
  have hset := hs.settled q nofun
  have hstat := hset.run hq.1
  have hqueues : Queues c { w with links := w.links.skip (.after .run a) q } (update Q .run (a ++ b)) := by
    refine ⟨hs.threads.skip hk, fun p k => ?_, fun k p hp => hs.lt k p ((hs.mem_skip hk k).mp hp).1⟩
    rw [hs.mem_skip hk, hs.slp]
    refine and_iff_left_of_imp ?_
    rintro hw rfl
    exact hw.1 (hs.apart hq.1)
  have hsorted : Sorted c { w with links := w.links.skip (.after .run a) q } (some q) (update Q .run (a ++ b)) := by
    refine hs.change (p := q) hqueues (fun p hp => ⟨rfl, ?_⟩) (fun p hp => ⟨fun he => ?_, nofun⟩) ?_
    · rw [hs.mem_skip hk]
      exact and_iff_left hp
    · exact absurd (Option.some.inj he).symm hp
    · rw [if_pos rfl]
      exact ⟨fun hmem => ((hs.mem_skip hk .run).mp hmem).2 rfl, hstat.1, hstat.2, hset.lt (by rw [hstat.1]; nofun)⟩
  have hhere : Here c { w with links := w.links.skip (.after .run a) q, current := some q } q (some q) :=
    ⟨h.facts.congr rfl rfl rfl, ⟨_, ⟨⟨hsorted.threads, hsorted.slp, hsorted.lt⟩, hsorted.settled, hsorted.running⟩⟩,
      rfl, fun p _ => h.away p (by rw [hcur]; nofun)⟩
  have hinv : Inv c (World.setPc { w with links := w.links.skip (.after .run a) q, current := some q } q (.back k)) := by
    refine hhere.setPc rfl (fun _ hne => absurd (hset.srun hstat.1).1 hne) fun hm' => ?_
    rw [show w.masked = true from hm'] at hm
    cases hm
  exact ⟨_, rfl, hinv⟩

/-! ## sched -/

/-- Changes to others that leave the process that has the processor, its place and the mask. -/
theorem Inv.other (h : Inv c w) (hf : Facts c w') (hcur : w'.current = w.current) (hpc : w'.pc = w.pc)
    (hm : w.masked = false) (hm' : w'.masked = false) (hs : Sorted c w' w.active Q)
    (hself : ∀ p, w.active = some p → (w'.proc p).p_wchan = (w.proc p).p_wchan) : Inv c w' := by
  have hactive : w'.active = w.active := by
    unfold World.active
    rw [hcur, hpc]
  refine ⟨hf, ⟨Q, hactive ▸ hs⟩, by rw [hcur, hpc]; exact h.away, fun p hp hw => ?_, fun hmask => ?_⟩
  · rw [hactive] at hp
    exact absurd (h.free hm p hp) (hself p hp ▸ hw)
  · rw [hm'] at hmask
    cases hmask

/-- What a process may do to the signals of one, and the end of a parent, do not matter to the queues. -/
theorem Inv.settings (h : Inv c w) (hm : w.masked = false) {f : Proc → Proc}
    (hstat : (f (w.proc q)).p_stat = (w.proc q).p_stat) (hwchan : (f (w.proc q)).p_wchan = (w.proc q).p_wchan)
    (hsload : (f (w.proc q)).sload = (w.proc q).sload) (hssys : (f (w.proc q)).ssys = (w.proc q).ssys)
    (hsintr : (f (w.proc q)).sintr = (w.proc q).sintr) (hpptr : (f (w.proc q)).p_pptr ≠ q) :
    Inv c (w.modify q f) := by
  obtain ⟨Q, hs⟩ := h.sorted
  exact h.other (h.facts.modify hsload hssys hpptr (fun he => .inl (hsintr ▸ he)) fun he => .inl (hwchan ▸ he))
    rfl rfl hm hm (hs.modify hstat hwchan hsload) fun p _ => modify_field Proc.p_wchan w q f hwchan p

/-- A process that is not loaded is not on the run queue; it may be on a sleep queue. -/
theorem Inv.select (h : Inv c w) {rp : ℕ} {oq : Option ℕ} (hp : w.calling = some 0)
    (hrp : (w.proc rp).sload = false)
    (hoq : ∀ q, oq = some q → (w.proc q).sload = true ∧ (w.proc q).ssys = false ∧
      ((w.proc q).p_stat = .sstop ∨ (w.proc q).p_stat = .ssleep ∨ (w.proc q).p_stat = .srun)) :
    Leads c (w.select c rp oq) := by
  obtain ⟨hm, hpc, hw, hhere⟩ := h.calling hp
  have hactive : w.active = some 0 := by rw [active_eq hhere.current, hpc]; rfl
  obtain ⟨Q, hs⟩ := h.sorted
  unfold World.select
  cases oq with
  | none =>
    refine ⟨_, rfl, h.other ⟨h.facts.p_pptr, h.facts.sintr, h.facts.ssys, h.facts.runout, ?_, h.facts.in_core⟩
      rfl rfl hm hm (Q := Q) ⟨⟨hs.threads, hs.slp, hs.lt⟩, hs.settled, hs.running⟩ fun _ _ => rfl⟩
    rintro p ⟨⟩
    exact hrp
  | some q =>
    obtain ⟨hload, hsys, hstat⟩ := hoq q rfl
    have hq0 : q ≠ 0 := by
      rintro rfl
      rw [h.facts.ssys] at hsys
      cases hsys
    have hx : w.active ≠ some q := by
      rw [hactive]
      exact fun he => hq0 (Option.some.inj he).symm
    have hset := hs.settled q hx
    dsimp only
    generalize hw₁ : ({ w with swapped_out := some rp, in_core := some q }.modify q fun y => { y with sload := false }) =
      w₁
    have hself : w₁.proc q = { w.proc q with sload := false } := by rw [← hw₁, modify_proc_self]
    have hproc : ∀ p, p ≠ q → w₁.proc p = w.proc p := by
      intro p hne
      rw [← hw₁, modify_proc_ne _ _ hne]
    have hwchan : ∀ p, (w₁.proc p).p_wchan = (w.proc p).p_wchan := by
      intro p
      rw [← hw₁]
      exact modify_field Proc.p_wchan _ q _ rfl p
    have hqueues : Queues c w₁ Q := hs.congr (by rw [← hw₁]; rfl) hwchan
    have hfacts : Facts c w₁ := by
      refine ⟨fun p => ?_, ?_, ?_, fun p he => ?_, ?_, ?_⟩
      · rw [← hw₁, modify_field Proc.p_pptr _ q _ rfl p]
        exact h.facts.p_pptr p
      · rw [hproc 0 hq0.symm]
        exact h.facts.sintr
      · rw [hproc 0 hq0.symm]
        exact h.facts.ssys
      · exact h.facts.runout p ((hwchan p).symm.trans he)
      · rw [← hw₁]
        rintro p ⟨⟩
        rw [hw₁, hproc rp (by rintro rfl; rw [hload] at hrp; cases hrp)]
        exact hrp
      · rw [← hw₁]
        rintro p ⟨⟩
        rw [hw₁, hself]
    have hcur : w₁.current = w.current := by rw [← hw₁]; rfl
    have hpcs : w₁.pc = w.pc := by rw [← hw₁]; rfl
    have hm₁ : w₁.masked = false := by rw [← hw₁]; exact hm
    split_ifs with hsrun
    · obtain ⟨a, b, hk, hrem, hq'⟩ := hqueues.remrq ((hset.srun hsrun).2 hload)
      rw [hrem]
      refine ⟨_, rfl, h.other (hfacts.congr rfl rfl rfl) hcur hpcs hm hm₁
        (hs.change (p := q) hq' (fun p hne => ⟨hproc p hne, ?_⟩) (fun _ _ => Iff.rfl) ?_) fun p _ => hwchan p⟩
      · rw [hs.mem_skip hk]
        exact and_iff_left hne
      · rw [if_neg hx]
        dsimp only
        rw [hself]
        exact ⟨fun hmem => absurd rfl ((hs.mem_skip hk .run).mp hmem).2, fun _ => ⟨(hset.srun hsrun).1, nofun⟩,
          hset.ssleep, hset.wchan, hset.lt⟩
    · refine ⟨_, rfl, h.other hfacts hcur hpcs hm hm₁
        (hs.change (p := q) hqueues (fun p hne => ⟨hproc p hne, Iff.rfl⟩) (fun _ _ => Iff.rfl) ?_) fun p _ => hwchan p⟩
      rw [if_neg hx, hself]
      exact ⟨fun hmem => absurd (hset.run hmem).1 hsrun, fun he => absurd he hsrun, hset.ssleep, hset.wchan, hset.lt⟩

theorem Inv.swapout (h : Inv c w) (hp : w.calling = some 0) (hq : w.in_core = some q) : Leads c (w.swapout c q) := by
  obtain ⟨hm, -⟩ := h.calling hp
  have hload := h.facts.in_core q hq
  obtain ⟨Q, hs⟩ := h.sorted
  -- The flag was off already.
  have hsame : { w with in_core := none }.modify q (fun y => { y with sload := false }) = { w with in_core := none } :=
    modify_self (by rw [← hload])
  have h₁ : Inv c { w with in_core := none } :=
    h.other ⟨h.facts.p_pptr, h.facts.sintr, h.facts.ssys, h.facts.runout, h.facts.swapped_out, nofun⟩ rfl rfl hm hm
      (Q := Q) ⟨⟨hs.threads, hs.slp, hs.lt⟩, hs.settled, hs.running⟩ fun _ _ => rfl
  unfold World.swapout
  dsimp only
  rw [hsame]
  split_ifs
  · have h₂ : Sorted c { w with in_core := none, runout := 0 } w.active Q :=
      ⟨⟨hs.threads, hs.slp, hs.lt⟩, hs.settled, hs.running⟩
    obtain ⟨w', Q', hok, hsorted, hwoken⟩ := (h₂.wakeup (fun hne => absurd rfl hne) c.runout).ok
      ((h₁.free hm).clear _)
    exact ⟨w', hok, h₁.kept ((Kept.links { w with in_core := none } w.links 0).trans hwoken.kept) hsorted⟩
  · exact ⟨_, rfl, h₁⟩

theorem Inv.swapin (h : Inv c w) (hp : w.calling = some 0) (hq : w.swapped_out = some p) (hin : w.in_core = none) :
    Leads c (w.swapin c p) := by
  obtain ⟨hm, hpc, hw, hhere⟩ := h.calling hp
  have hactive : w.active = some 0 := by rw [active_eq hhere.current, hpc]; rfl
  have hload := h.facts.swapped_out p hq
  obtain ⟨Q, hs⟩ := h.sorted
  have hx : w.active ≠ some p := by
    intro he
    have hl := (hs.running p he).sload
    rw [hload] at hl
    cases hl
  have hset := hs.settled p hx
  have hnrun : p ∉ Q .run := by
    intro hmem
    have hl := (hset.run hmem).2
    rw [hload] at hl
    cases hl
  have hp0 : (0 : ℕ) ≠ p := fun he => hx (hactive.trans (congrArg some he))
  -- It goes to the run queue if it can run, and is loaded.
  have hset' : ∃ L Q', (if (w.proc p).p_stat = .srun then w.setrq c p else .ok w) = .ok { w with links := L } ∧
      Queues c { w with links := L } Q' ∧ ∀ q, q ∈ Q' .run ↔ q ∈ Q .run ∨ q = p ∧ (w.proc p).p_stat = .srun := by
    split_ifs with hsrun
    · obtain ⟨hok, hq'⟩ := hs.setrq (hs.none (hset.srun hsrun).1 hnrun) (hset.lt (by rw [hsrun]; nofun))
      refine ⟨_, _, hok, hq', fun q => ?_⟩
      rw [Function.update_self, List.mem_cons, or_comm, and_iff_left hsrun]
    · exact ⟨w.links, Q, rfl, hs.toQueues, fun q => by simp [hsrun]⟩
  obtain ⟨L, Q', hok, hqueues, hrun⟩ := hset'
  unfold World.swapin
  rw [hok]
  refine ⟨_, rfl, ?_⟩
  generalize hw₁ : ({ w with links := L, swapped_out := none }.modify p fun y => { y with sload := true }) = w₁
  have hself : w₁.proc p = { w.proc p with sload := true } := by rw [← hw₁, modify_proc_self]
  have hproc : ∀ q, q ≠ p → w₁.proc q = w.proc q := by
    intro q hne
    rw [← hw₁, modify_proc_ne _ _ hne]
  have hwchan : ∀ q, (w₁.proc q).p_wchan = (w.proc q).p_wchan := by
    intro q
    rw [← hw₁]
    exact modify_field Proc.p_wchan _ p _ rfl q
  refine h.other ?_ (by rw [← hw₁]; rfl) (by rw [← hw₁]; rfl) hm (by rw [← hw₁]; exact hm)
    (hs.change (p := p) (hqueues.congr (by rw [← hw₁]; rfl) hwchan) (fun q hne => ⟨hproc q hne, ?_⟩)
      (fun _ _ => Iff.rfl) ?_) fun q _ => hwchan q
  · refine ⟨fun q => ?_, ?_, ?_, fun q he => h.facts.runout q ((hwchan q).symm.trans he), ?_, ?_⟩
    · rw [← hw₁, modify_field Proc.p_pptr _ p _ rfl q]
      exact h.facts.p_pptr q
    · rw [hproc 0 hp0]
      exact h.facts.sintr
    · rw [hproc 0 hp0]
      exact h.facts.ssys
    · rw [← hw₁]
      nofun
    · intro q he
      rw [← hw₁] at he
      rw [show w.in_core = some q from he] at hin
      cases hin
  · rw [hrun]
    exact or_iff_left fun he => hne he.1
  · rw [if_neg hx, hself, hrun]
    refine ⟨fun hmem => ⟨?_, rfl⟩, fun hsrun => ⟨(hset.srun hsrun).1, fun _ => .inr ⟨rfl, hsrun⟩⟩, hset.ssleep,
      hset.wchan, hset.lt⟩
    exact hmem.elim (fun hq => absurd hq hnrun) And.right

/-- The swapper has nothing to do. -/
theorem Inv.idle (h : Inv c w) (hp : w.calling = some 0) :
    Leads c ({ w with runout := w.runout + 1 }.tsleep c 0 c.runout false) := by
  obtain ⟨hm, hpc, hw, hhere⟩ := h.calling hp
  obtain ⟨Q, hs⟩ := hhere.sorted
  have hs' : Sorted c { w with runout := w.runout + 1 } (some 0) Q :=
    ⟨⟨hs.threads, hs.slp, hs.lt⟩, hs.settled, hs.running⟩
  exact (hhere.kept (.links w w.links _) hs').tsleep hw c.runout_ne (fun _ => rfl) fun _ => rfl

/-! ## One step -/

/-- **A safe step keeps the invariant, and any other ends in the panic of `wakeup`.** -/
theorem Inv.step (h : Inv c w) (hr : w.step c e = some r) :
    (Safe c w e → Leads c r) ∧ (¬ Safe c w e → r = .error .wakeup) := by
  have hany : ∀ {w' : World} {Q' : Qid → List ℕ}, r = .ok w' → Sorted c w' w.active Q' → Kept w w' → Leads c r :=
    fun hok hs hk => ⟨_, hok, h.kept hk hs⟩
  have hsafe : (Safe c w e ↔ True) → Leads c r → (Safe c w e → Leads c r) ∧ (¬ Safe c w e → r = .error .wakeup) :=
    fun hs hl => ⟨fun _ => hl, fun hn => absurd (hs.mpr trivial) hn⟩
  obtain ⟨Q, hs⟩ := h.sorted
  cases e
  all_goals simp only [World.step] at hr
  case go =>
    split at hr <;> try cases hr
    rename_i p hp
    exact h.go hp hr
  all_goals refine hsafe Iff.rfl ?_
  case tsleep ident pcatch =>
    split at hr <;> try cases hr
    rename_i p hp
    split_ifs at hr with hc
    cases hr
    obtain ⟨-, -, hw, hhere⟩ := h.calling hp
    exact hhere.tsleep hw hc.1 (fun he => absurd he hc.2.1) hc.2.2
  case cursig =>
    split at hr <;> try cases hr
    rename_i p hp
    split_ifs at hr
    cases hr
    obtain ⟨hm, -, hw, hhere⟩ := h.calling hp
    exact ⟨_, rfl, hhere.setPc rfl (fun _ hne => absurd hw hne) fun hm' => by rw [hm] at hm'; cases hm'⟩
  case preempt =>
    split at hr <;> try cases hr
    rename_i p hp
    split_ifs at hr
    cases hr
    obtain ⟨hm, -, hw, hhere⟩ := h.calling hp
    exact hhere.preempt hm hw
  case setrun q =>
    split at hr <;> try cases hr
    rename_i p hp
    split_ifs at hr with hq
    cases hr
    obtain ⟨hm, -, hw, hhere⟩ := h.calling hp
    exact hhere.setrun hm hw hq
  case procxmt released data =>
    split at hr <;> try cases hr
    rename_i p hp
    split at hr <;> try cases hr
    rename_i ctx sig hpc
    obtain ⟨hhere, hb⟩ := h.bound .user hp (by rw [hpc]; rfl) (by rw [hpc]; nofun)
    exact ⟨_, rfl, hhere.procxmt ⟨hb.wchan, fun hm => absurd (hb.masked hm) nofun⟩ sig released data⟩
  case pick q =>
    split at hr <;> try cases hr
    rename_i k hcur hpc
    exact h.pick hcur hpc hr
  case wakeup chan =>
    split_ifs at hr with hm
    cases hr
    obtain ⟨w', Q', hok, hsorted, hwoken⟩ := (hs.wakeup (fun _ => (h.free hm).clear _) chan).ok ((h.free hm).clear _)
    exact hany hok hsorted hwoken.kept
  case psignal q sig =>
    split_ifs at hr with hm
    cases hr
    obtain ⟨w', Q', hok, hsorted, hk⟩ := hs.psignal h.facts (h.free hm.1) q sig
    exact hany hok hsorted hk
  case endtsleep q =>
    split_ifs at hr with hm
    cases hr
    obtain ⟨w', Q', hok, hsorted, hmoved⟩ := hs.endtsleep (h.free hm) q
    exact hany hok hsorted hmoved.kept
  case selwakeup q =>
    split_ifs at hr with hm
    cases hr
    obtain ⟨w', Q', hok, hsorted, hmoved⟩ := hs.selwakeup (h.free hm) q
    exact hany hok hsorted hmoved.kept
  case settings q s =>
    split_ifs at hr with hm
    cases hr
    exact ⟨_, rfl, h.settings hm.1 rfl rfl rfl rfl rfl hm.2⟩
  case select rp oq =>
    split_ifs at hr with hc
    cases hr
    exact h.select hc.1 hc.2.2.2.2.1 hc.2.2.2.2.2
  case swapout =>
    split at hr <;> try cases hr
    rename_i q hq
    split_ifs at hr with hp
    cases hr
    exact h.swapout hp hq
  case swapin =>
    split at hr <;> try cases hr
    rename_i p hq
    split_ifs at hr with hp
    cases hr
    exact h.swapin hp.1 hq hp.2
  case idle =>
    split_ifs at hr with hc
    cases hr
    exact h.idle hc.1

/-! ## The start -/

/-- Some nodes are put on the run queue, the last of them first. -/
theorem threads_start {l : List ℕ} (hl : l.Nodup) :
    Threads (l.foldr (fun p L => L.push .run p) (⟨fun _ => none, fun _ => none⟩ : Links Qid ℕ))
      (update (fun _ => []) .run l) := by
  induction l with
  | nil =>
    rw [Function.update_eq_self_iff.mpr rfl]
    exact ⟨fun _ => rfl, fun _ => List.nodup_nil, nofun⟩
  | cons p l ih =>
    have hl' := List.nodup_cons.mp hl
    have hpush := (ih hl'.2).push (v := p) (fun k hk => ?_) .run
    · rwa [Function.update_self, Function.update_idem] at hpush
    · by_cases hrun : k = .run
      · subst hrun
        rw [Function.update_self] at hk
        exact hl'.1 hk
      · rw [Function.update_of_ne hrun] at hk
        cases hk

theorem inv_start (c : Cfg) (loaded : ℕ → Bool) : Inv c (World.start c loaded) := by
  have hactive : (World.start c loaded).active = some 0 := rfl
  have hproc : ∀ p, (World.start c loaded).proc p = .fresh p (p < c.nproc) (p == 0 || loaded p) := fun _ => rfl
  have hmem : ∀ p, p ∈ (List.range c.nproc).filter (fun p => p != 0 && loaded p) ↔
      p < c.nproc ∧ p ≠ 0 ∧ loaded p = true := by
    intro p
    simp
  refine ⟨⟨fun p => ?_, rfl, rfl, fun p he => absurd he.symm c.runout_ne, nofun, nofun⟩,
    ⟨_, ⟨threads_start (List.nodup_range.filter _), fun p h => ?_, fun k p hp => ?_⟩, fun p hx => ?_, fun p hx => ?_⟩,
    fun p hp => ⟨.user, ?_⟩, fun p _ hw => absurd rfl hw, nofun⟩
  · rw [hproc]
    unfold Proc.fresh
    dsimp only
    split_ifs with hp
    · rw [hp]
      nofun
    · exact Ne.symm hp
  · rw [Function.update_of_ne (by rintro ⟨⟩)]
    exact ⟨nofun, fun hw => absurd rfl hw.1⟩
  · by_cases hk : k = .run
    · subst hk
      rw [Function.update_self] at hp
      exact ((hmem p).mp hp).1
    · rw [Function.update_of_ne hk] at hp
      cases hp
  · rw [Function.update_self, hmem, hproc]
    have hp0 : p ≠ 0 := fun he => hx (hactive.trans (congrArg some he.symm))
    by_cases hp : p < c.nproc
    · have hstat : (Proc.fresh p (p < c.nproc) (p == 0 || loaded p)).p_stat = .srun := by simp [Proc.fresh, hp]
      refine ⟨fun hm => ⟨hstat, by simp [Proc.fresh, hm.2.2]⟩, fun _ => ⟨rfl, fun hl => ⟨hp, hp0, ?_⟩⟩, fun hs => ?_,
        fun hw => absurd rfl hw, fun _ => hp⟩
      · simpa [Proc.fresh, hp0] using hl
      · rw [hstat] at hs
        cases hs
    · have hstat : (Proc.fresh p (p < c.nproc) (p == 0 || loaded p)).p_stat = .none := by simp [Proc.fresh, hp]
      refine ⟨fun hm => absurd hm.1 hp, fun hs => ?_, fun hs => ?_, fun hw => absurd rfl hw, fun hn => absurd hstat hn⟩
      all_goals
        rw [hstat] at hs
        cases hs
  · rw [hactive] at hx
    cases hx
    rw [Function.update_self, hmem, hproc]
    exact ⟨fun hn => hn.2.1 rfl, by simp [Proc.fresh, c.swapper], rfl, c.swapper⟩
  · have hp0 : p ≠ 0 := fun he => hp (congrArg some he.symm)
    exact if_neg hp0

/-! ## Runs -/

theorem Inv.run {es : List Event} (h : Inv c w) (hr : w.run c es = some r) :
    ((∃ w', r = .ok w') ↔ SafeRun c w es) ∧ (∀ w', r = .ok w' → Inv c w') ∧ ∀ k, r = .error k → k = .wakeup := by
  induction es generalizing w with
  | nil =>
    cases hr
    refine ⟨⟨fun _ => trivial, fun _ => ⟨w, rfl⟩⟩, ?_, nofun⟩
    rintro w' ⟨⟩
    exact h
  | cons e es ih =>
    unfold World.run at hr
    cases hstep : w.step c e with
    | none =>
      rw [hstep] at hr
      cases hr
    | some r' =>
      rw [hstep] at hr
      obtain ⟨hsafe, hpanic⟩ := h.step hstep
      cases r' with
      | error k =>
        cases hr
        -- It was not safe.
        have hn : ¬ Safe c w e := by
          intro hs
          obtain ⟨w', hok, -⟩ := hsafe hs
          cases hok
        refine ⟨⟨?_, fun hs => absurd hs.1 hn⟩, nofun, ?_⟩
        · rintro ⟨w', ⟨⟩⟩
        · rintro k' ⟨⟩
          exact Except.error.inj (hpanic hn)
      | ok w' =>
        have hs : Safe c w e := by
          by_contra hn
          cases hpanic hn
        obtain ⟨w'', hok, hinv⟩ := hsafe hs
        cases hok
        obtain ⟨hiff, hrest⟩ := ih hinv hr
        refine ⟨hiff.trans ⟨fun hrun => ⟨hs, ?_⟩, fun hrun => hrun.2 w' hstep⟩, hrest⟩
        intro w₁ hw₁
        rw [hstep] at hw₁
        cases hw₁
        exact hrun

end

/-- **A run panics exactly when one of its steps is not safe, and only in `wakeup`; in every state that is reached the
    queues hold what they should.** -/
theorem sched_queues (c : Cfg) (loaded : ℕ → Bool) (es : List Event) (r : Except Panic World)
    (hr : (World.start c loaded).run c es = some r) :
    ((∃ w, r = .ok w) ↔ SafeRun c (World.start c loaded) es) ∧ (∀ w, r = .ok w → Sound w) ∧
      ∀ k, r = .error k → k = .wakeup := by
  obtain ⟨hiff, hinv, hpanic⟩ := (inv_start c loaded).run hr
  exact ⟨hiff, fun w hw => (hinv w hw).sound, hpanic⟩

/-! ## The panic -/

/-- Four processes, with the addresses of an RP2040. -/
def fourProcs : Cfg where
  nproc := 4
  runout := 0x20000000
  runin := 0x20000001
  selwait := 0x20000004
  proc p := 0x20001000 + 128 * p
  swapper := by decide
  runout_ne := by decide
  selwait_ne := by decide

/-- The process `p` comes into the core in the place of `q`, and `p` gets the processor. -/
def swapEvents (p q : ℕ) : List Event :=
  [.wakeup 0x20000020, .pick 0, .go, .select p (some q), .swapout, .swapin]

/-- The swapper waits for the disk, and `p` gets the processor and waits for its children. -/
def waitEvents (p : ℕ) : List Event :=
  [.tsleep 0x20000020 false, .go, .pick p, .go, .tsleep (fourProcs.proc p) true, .go, .go]

/-- The process 2, which catches `SIGCHLD`, waits for its child 3 and is swapped out for it. The swapper has nothing to
    do. Then `SIGTSTP` comes from the terminal, and the child sleeps on a channel with the queue of `runout`. -/
def stopEvents : List Event :=
  [.settings 3 { Proc.fresh 3 true true with p_pptr := 2 },
    .settings 2 { Proc.fresh 2 true true with p_sigcatch := sigmask sigchld }] ++
  waitEvents 1 ++ swapEvents 2 1 ++ waitEvents 2 ++ swapEvents 3 2 ++
  [.idle, .go, .pick 3, .go, .psignal 3 18, .tsleep 0x20000200 true, .go, .go]

theorem sched_queues_stop :
    ∃ r, (World.start fourProcs (· == 1)).run fourProcs stopEvents = some r ∧
      SafeRun fourProcs (.start fourProcs (· == 1)) stopEvents ∧ ∀ w, r = .ok w → Sound w :=
  ⟨_, rfl, (sched_queues fourProcs (· == 1) stopEvents _ rfl).1.mp ⟨_, rfl⟩,
    (sched_queues fourProcs (· == 1) stopEvents _ rfl).2.1⟩

/-- The child tells its parent, the parent wakes up the swapper, and `wakeup` meets the child. -/
theorem wakeup_panic : (World.start fourProcs (· == 1)).run fourProcs (stopEvents ++ [.go]) = some (.error .wakeup) := by
  rfl

end DiscoBSD.Sched
