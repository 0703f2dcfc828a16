import Mathlib
import DiscoBSD.Sched.Queues

/-!
# `wakeup` and `setrun`

**`wakeup` panics exactly when the process that has the processor is on the sleep queue it goes through**: all the
others there are asleep or stopped. It goes through a second queue, that of `runout`, when it comes to a process
that is swapped out and the swapper waits.

The loop ends: it begins again only after it has taken a process off, and what it calls takes off others.
-/

set_option autoImplicit false

namespace DiscoBSD.Sched

open DiscoBSD.Lib
open Function (update)

/-- The process that has the processor is not on the sleep queue. -/
def Clear (w : World) (x : Option ℕ) (h : ℕ) : Prop :=
  ∀ p, x = some p → ¬ ((w.proc p).p_wchan ≠ 0 ∧ hash (w.proc p).p_wchan = h)

/-- One process has given up its channel. -/
structure Freed (w w' : World) (p : ℕ) : Prop where
  kept : Kept w w'
  runout : w'.runout = w.runout
  wchan : (w'.proc p).p_wchan = 0
  others : ∀ q, q ≠ p → w'.proc q = w.proc q

/-- Those that waited for the channel, or for `runout`, may have given it up. -/
structure Woken (c : Cfg) (chan : ℕ) (w w' : World) : Prop where
  kept : Kept w w'
  runout : w'.runout = w.runout ∨ w'.runout = 0
  others : ∀ q, (w.proc q).p_wchan ≠ chan → (w.proc q).p_wchan ≠ c.runout → w'.proc q = w.proc q

/-- How `wakeup` may end. -/
structure Rings (c : Cfg) (chan : ℕ) (x : Option ℕ) (w : World) (r : Except Panic World) : Prop where
  ok : Clear w x (hash chan) → ∃ w' Q', r = .ok w' ∧ Sorted c w' x Q' ∧ Woken c chan w w'
  panic : ¬ Clear w x (hash chan) → r = .error .wakeup

/-- How many processes have a channel. -/
def queued (c : Cfg) (w : World) : ℕ := ((Finset.range c.nproc).filter fun p => (w.proc p).p_wchan ≠ 0).card

section

variable {c : Cfg} {w w' w'' : World} {Q Q' : Qid → List ℕ} {x : Option ℕ} {p q chan chan' fuel : ℕ}
  {a b : List ℕ} {pl : Place Qid ℕ} {r : Except Panic World}

/-! ## What the changes leave -/

theorem Kept.links (w : World) (L : Links Qid ℕ) (n : BitVec 8) : Kept w { w with links := L, runout := n } where
  pc := rfl
  current := rfl
  masked := rfl
  swapped_out := rfl
  in_core := rfl
  sload _ := rfl
  ssys _ := rfl
  sintr _ := rfl
  p_pptr _ := rfl
  awake _ h := ⟨h, rfl⟩
  wchan _ _ := rfl

theorem Kept.modify {L : Links Qid ℕ} {n : BitVec 8} {f : Proc → Proc}
    (hp : (w.proc p).p_stat = .srun →
      (f (w.proc p)).p_stat = .srun ∧ (f (w.proc p)).p_wchan = (w.proc p).p_wchan)
    (hsload : (f (w.proc p)).sload = (w.proc p).sload) (hssys : (f (w.proc p)).ssys = (w.proc p).ssys)
    (hsintr : (f (w.proc p)).sintr = (w.proc p).sintr) (hpptr : (f (w.proc p)).p_pptr = (w.proc p).p_pptr)
    (hwchan : (f (w.proc p)).p_wchan ≠ 0 → (f (w.proc p)).p_wchan = (w.proc p).p_wchan) :
    Kept w ({ w with links := L, runout := n }.modify p f) where
  pc := rfl
  current := rfl
  masked := rfl
  swapped_out := rfl
  in_core := rfl
  sload := modify_field Proc.sload _ p f hsload
  ssys := modify_field Proc.ssys _ p f hssys
  sintr := modify_field Proc.sintr _ p f hsintr
  p_pptr := modify_field Proc.p_pptr _ p f hpptr
  awake q hq := by
    by_cases hqp : q = p
    · subst hqp
      rw [modify_proc_self]
      exact hp hq
    · rw [modify_proc_ne _ _ hqp]
      exact ⟨hq, rfl⟩
  wchan q hq := by
    by_cases hqp : q = p
    · subst hqp
      rw [modify_proc_self] at hq ⊢
      exact hwchan hq
    · rw [modify_proc_ne _ _ hqp]

theorem Kept.clear (h : Kept w w') (hx : ∀ p, x = some p → (w.proc p).p_stat = .srun) {k : ℕ} :
    Clear w' x k ↔ Clear w x k := by
  refine forall_congr' fun p => imp_congr_right fun hp => ?_
  rw [(h.awake p (hx p hp)).2]

theorem Freed.woken (h : Freed w w' p) (hp : (w.proc p).p_wchan = chan) : Woken c chan w w' where
  kept := h.kept
  runout := .inl h.runout
  others q hq _ := h.others q (by rintro rfl; exact hq hp)

theorem Woken.trans (h : Woken c chan w w') (h' : Woken c chan w' w'') : Woken c chan w w'' where
  kept := h.kept.trans h'.kept
  runout := by
    rcases h'.runout with he | he
    · rw [he]
      exact h.runout
    · exact .inr he
  others q hq hq' := by
    have hw := h.others q hq hq'
    rw [h'.others q (hw ▸ hq) (hw ▸ hq'), hw]

/-- A wakeup of the swapper on the way. -/
theorem Woken.trans_runout (h : Woken c chan w w') (h' : Woken c c.runout { w' with runout := 0 } w'') :
    Woken c chan w w'' where
  kept := h.kept.trans ((Kept.links w' w'.links 0).trans h'.kept)
  runout := .inr (by rcases h'.runout with he | he <;> exact he)
  others q hq hq' := by
    have hw := h.others q hq hq'
    rw [h'.others q (hw ▸ hq') (hw ▸ hq'), hw]

theorem Kept.queued_le (h : Kept w w') : queued c w' ≤ queued c w := by
  refine Finset.card_le_card fun p hp => ?_
  rw [Finset.mem_filter] at hp ⊢
  refine ⟨hp.1, ?_⟩
  rw [← h.wchan p hp.2]
  exact hp.2

theorem Freed.queued_lt (h : Freed w w' p) (hlt : p < c.nproc) (hp : (w.proc p).p_wchan ≠ 0) :
    queued c w' < queued c w := by
  refine Finset.card_lt_card ⟨fun q hq => ?_, fun hsub => ?_⟩
  · rw [Finset.mem_filter] at hq ⊢
    refine ⟨hq.1, ?_⟩
    rw [← h.kept.wchan q hq.2]
    exact hq.2
  · have hmem := hsub (Finset.mem_filter.mpr ⟨Finset.mem_range.mpr hlt, hp⟩)
    exact (Finset.mem_filter.mp hmem).2 h.wchan

theorem queued_le_nproc (c : Cfg) (w : World) : queued c w ≤ c.nproc := by
  have hle := Finset.card_filter_le (Finset.range c.nproc) fun p => (w.proc p).p_wchan ≠ 0
  rwa [Finset.card_range] at hle

/-! ## One process -/

theorem Sorted.srun_of_running (h : Sorted c w x Q) (p : ℕ) (hp : x = some p) : (w.proc p).p_stat = .srun :=
  (h.running p hp).srun

/-- A process that is not asleep gives up its channel. -/
theorem Sorted.free {L : Links Qid ℕ} (h : Sorted c w x Q) (hq : Queues c ({ w with links := L }.setWchan p 0) Q')
    (hrun : Q' .run = Q .run) (hp : (w.proc p).p_stat ≠ .ssleep) :
    Sorted c ({ w with links := L }.setWchan p 0) x Q' := by
  refine h.change (p := p) hq (fun q hqp => ⟨modify_proc_ne _ _ hqp, by rw [hrun]⟩) (fun _ _ => Iff.rfl) ?_
  rw [hrun]
  split_ifs with hx
  · obtain ⟨hrun, hsrun, hsload, hlt⟩ := h.running p hx
    constructor <;> simpa [World.setWchan]
  · obtain ⟨hrun, hsrun, hsleep, hwchan, hlt⟩ := h.settled p hx
    constructor
    · simpa [World.setWchan] using hrun
    · intro hs
      simp only [World.setWchan, modify_proc_self] at hs ⊢
      exact ⟨trivial, (hsrun hs).2⟩
    · intro hs
      simp only [World.setWchan, modify_proc_self] at hs
      exact absurd hs hp
    · simp [World.setWchan]
    · simpa [World.setWchan] using hlt

/-- A process that was asleep or stopped, and has given up its channel, is made runnable. -/
theorem Sorted.awaken {L : Links Qid ℕ} (h : Sorted c w x Q)
    (hq : Queues c ({ w with links := L }.setWchan p 0) Q') (hrun : Q' .run = Q .run)
    (hp : (w.proc p).p_stat = .ssleep ∨ (w.proc p).p_stat = .sstop) :
    ∃ w' Q'', (({ w with links := L }.setWchan p 0).setStat p .srun).ready c p = .ok w' ∧
      Sorted c w' x Q'' ∧ Freed w w' p := by
  have hne : (w.proc p).p_stat ≠ .srun := by rcases hp with hp | hp <;> rw [hp] <;> rintro ⟨⟩
  have hx : x ≠ some p := fun hx => hne (h.srun_of_running p hx)
  have hlt : p < c.nproc := h.alive (by rcases hp with hp | hp <;> rw [hp] <;> rintro ⟨⟩)
  have hnrun : p ∉ Q' .run := by
    rw [hrun]
    exact fun hr => hne ((h.settled p hx).run hr).1
  -- The state and the channel are written in one go.
  generalize hw₂ : ({ w with links := L }.setWchan p 0).setStat p .srun = w₂
  have hproc : ∀ q, q ≠ p → w₂.proc q = w.proc q := by
    intro q hqp
    rw [← hw₂]
    unfold World.setStat World.setWchan
    rw [modify_proc_ne _ _ hqp, modify_proc_ne _ _ hqp]
  have hself : w₂.proc p = { w.proc p with p_wchan := 0, p_stat := .srun } := by
    rw [← hw₂]
    simp [World.setStat, World.setWchan]
  have hq₂ : Queues c w₂ Q' := by
    refine hq.congr (by rw [← hw₂]; rfl) fun q => ?_
    rw [← hw₂]
    exact modify_field Proc.p_wchan _ p _ rfl q
  have hkept : Kept w w₂ := by
    rw [← hw₂]
    have hwchan : Kept w ({ w with links := L }.setWchan p 0) :=
      Kept.modify (n := w.runout) (fun hs => absurd hs hne) rfl rfl rfl rfl fun hw => absurd rfl hw
    exact hwchan.trans (Kept.modify (fun _ => ⟨rfl, rfl⟩) rfl rfl rfl rfl fun _ => rfl)
  have hrunout : w₂.runout = w.runout := by rw [← hw₂]; rfl
  unfold World.ready
  rw [hself]
  split_ifs with hload
  · obtain ⟨hset, hq₃⟩ := hq₂.setrq (hq₂.none (by rw [hself]) hnrun) hlt
    refine ⟨_, _, hset, h.change (p := p) hq₃ (fun q hqp => ⟨hproc q hqp, ?_⟩) (fun _ _ => Iff.rfl) ?_,
      hkept.trans (.links w₂ _ w₂.runout), hrunout, by rw [hself], hproc⟩
    · rw [Function.update_self, hrun]
      simp [hqp]
    · rw [if_neg hx, hself, Function.update_self]
      exact ⟨fun _ => ⟨rfl, hload⟩, fun _ => ⟨rfl, fun _ => List.mem_cons_self ..⟩, by rintro ⟨⟩, fun hw => absurd rfl hw,
        fun _ => hlt⟩
  · refine ⟨_, _, rfl, h.change (p := p) hq₂ (fun q hqp => ⟨hproc q hqp, by rw [hrun]⟩) (fun _ _ => Iff.rfl) ?_,
      hkept, hrunout, by rw [hself], hproc⟩
    rw [if_neg hx, hself]
    exact ⟨fun hr => absurd hr hnrun, fun _ => ⟨rfl, fun hl => absurd hl hload⟩, by rintro ⟨⟩, fun hw => absurd rfl hw,
      fun _ => hlt⟩

/-! ## The loop -/

theorem Rings.after (h : Woken c chan w w') (hx : ∀ p, x = some p → (w.proc p).p_stat = .srun)
    (hr : Rings c chan x w' r) : Rings c chan x w r where
  ok hclear := by
    obtain ⟨w'', Q', hok, hsorted, hwoken⟩ := hr.ok ((h.kept.clear hx).mpr hclear)
    exact ⟨w'', Q', hok, hsorted, h.trans hwoken⟩
  panic hclear := hr.panic (mt (h.kept.clear hx).mp hclear)

/-- How the loop goes on from a process that waits for the channel. -/
theorem wakeupFrom_asleep (hget : w.links.get pl = some p) (hstat : (w.proc p).p_stat = .ssleep)
    (hchan : (w.proc p).p_wchan = chan) :
    w.wakeupFrom c (fuel + 1) chan pl = (do
      let w' ← (({ w with links := w.links.skip pl p }.setWchan p 0).setStat p .srun).ready c p
      if (w.proc p).sload = false ∧ w'.runout ≠ 0 then do
        let w'' ← World.wakeupFrom c fuel { w' with runout := 0 } c.runout (.head (.slp (hash c.runout)))
        w''.wakeupFrom c fuel chan (.head (.slp (hash chan)))
      else w'.wakeupFrom c fuel chan (.head (.slp (hash chan)))) := by
  conv_lhs => unfold World.wakeupFrom
  simp only [hget]
  rw [if_neg (fun hne => hne.1 hstat), if_pos hchan, if_pos hstat]

theorem wakeupFrom_stopped (hget : w.links.get pl = some p) (hstat : (w.proc p).p_stat = .sstop)
    (hchan : (w.proc p).p_wchan = chan) :
    w.wakeupFrom c (fuel + 1) chan pl =
      ({ w with links := w.links.skip pl p }.setWchan p 0).wakeupFrom c fuel chan pl := by
  conv_lhs => unfold World.wakeupFrom
  simp only [hget]
  rw [if_neg (fun hne => hne.2 hstat), if_pos hchan, if_neg (by rw [hstat]; nofun)]

theorem wakeupFrom_pass (hget : w.links.get pl = some p)
    (hstat : (w.proc p).p_stat = .ssleep ∨ (w.proc p).p_stat = .sstop) (hchan : (w.proc p).p_wchan ≠ chan) :
    w.wakeupFrom c (fuel + 1) chan pl = w.wakeupFrom c fuel chan (.next p) := by
  conv_lhs => unfold World.wakeupFrom
  simp only [hget]
  rw [if_neg (fun hne => hstat.elim hne.1 hne.2), if_neg hchan]

/-- The loop of `wakeup`, behind the processes of `a`. -/
theorem Sorted.wakeupFrom (fuel : ℕ) : ∀ {w : World} {Q : Qid → List ℕ} {chan : ℕ} {a b : List ℕ},
    Sorted c w x Q → Q (.slp (hash chan)) = a ++ b → queued c w * (c.nproc + 1) + b.length < fuel →
    (∀ p, x = some p → p ∉ a) → (w.runout ≠ 0 → Clear w x (hash c.runout)) →
    Rings c chan x w (w.wakeupFrom c fuel chan (.after (.slp (hash chan)) a)) := by
  induction fuel with
  | zero => exact fun _ _ hfuel => absurd hfuel (Nat.not_lt_zero _)
  | succ fuel ih =>
    intro w Q chan a b h hk hfuel ha hout
    have hget := h.threads.get hk
    cases b with
    | nil =>
      have hclear : Clear w x (hash chan) := by
        intro p hp hw
        have hmem := (h.slp p _).mpr hw
        rw [hk, List.append_nil] at hmem
        exact ha p hp hmem
      refine ⟨fun _ => ⟨w, Q, ?_, h, .refl w, .inl rfl, fun _ _ _ => rfl⟩, fun hn => absurd hclear hn⟩
      unfold World.wakeupFrom
      simp only [hget, List.head?_nil]
    | cons p b =>
      have hp : p ∈ Q (.slp (hash chan)) := by
        rw [hk]
        exact List.mem_append_right a (List.mem_cons_self ..)
      have hw := (h.slp p _).mp hp
      rw [List.head?_cons] at hget
      by_cases hx : x = some p
      · -- It has the processor.
        refine ⟨fun hclear => absurd hw (hclear p hx), fun _ => ?_⟩
        unfold World.wakeupFrom
        simp only [hget]
        rw [if_pos (by rw [h.srun_of_running p hx]; exact ⟨by rintro ⟨⟩, by rintro ⟨⟩⟩)]
      have hstat := h.asleep hp hx
      have hlt := h.lt _ p hp
      rw [List.length_cons] at hfuel
      by_cases hchan : (w.proc p).p_wchan = chan
      · rcases hstat with hsleep | hstop
        · -- The loop begins again when the process is runnable.
          rw [wakeupFrom_asleep hget hsleep hchan]
          obtain ⟨w₁, Q₁, hok, h₁, hfree⟩ := h.awaken (h.skip hk)
            (Function.update_of_ne (by rintro ⟨⟩) ..) (.inl hsleep)
          have hless := hfree.queued_lt hlt hw.1
          have hroom : ∀ {w' : World}, queued c w' ≤ queued c w₁ → ∀ k (Q' : Qid → List ℕ), Queues c w' Q' →
              queued c w' * (c.nproc + 1) + (Q' k).length < fuel := by
            intro w' hle k Q' hq'
            have hlen := hq'.length_le k
            have hmul := Nat.mul_le_mul_right (c.nproc + 1) (Nat.lt_of_le_of_lt hle hless)
            rw [Nat.succ_mul] at hmul
            omega
          have hclear₁ : w₁.runout ≠ 0 → Clear w₁ x (hash c.runout) := by
            rw [hfree.runout]
            exact fun hne => (hfree.kept.clear h.srun_of_running).mpr (hout hne)
          rw [hok]
          show Rings c chan x w (if _ then _ else _)
          split_ifs with hswap
          · have hsorted : Sorted c { w₁ with runout := 0 } x Q₁ := ⟨⟨h₁.threads, h₁.slp, h₁.lt⟩, h₁.settled, h₁.running⟩
            have hring := ih (a := []) hsorted (List.nil_append _).symm
              (hroom le_rfl (.slp (hash c.runout)) Q₁ h₁.toQueues) (fun _ _ => List.not_mem_nil)
              fun hne => absurd rfl hne
            obtain ⟨w₂, Q₂, hok₂, h₂, hwoken⟩ := hring.ok (hclear₁ hswap.2)
            have hall := (hfree.woken hchan).trans_runout hwoken
            rw [show World.wakeupFrom c fuel { w₁ with runout := 0 } c.runout (.head (.slp (hash c.runout))) = .ok w₂
              from hok₂]
            refine .after hall h.srun_of_running (ih (a := []) h₂ (List.nil_append _).symm
              (hroom hwoken.kept.queued_le _ Q₂ h₂.toQueues) (fun _ _ => List.not_mem_nil) fun hne => ?_)
            exact (hall.kept.clear h.srun_of_running).mpr
              ((hfree.kept.clear h.srun_of_running).mp (hclear₁ hswap.2))
          · exact .after (hfree.woken hchan) h.srun_of_running (ih (a := []) h₁ (List.nil_append _).symm
              (hroom le_rfl _ Q₁ h₁.toQueues) (fun _ _ => List.not_mem_nil) hclear₁)
        · -- It stays stopped, and the place points to the one behind it.
          rw [wakeupFrom_stopped hget hstop hchan]
          have hfree : Freed w ({ w with links := w.links.skip (.after (.slp (hash chan)) a) p }.setWchan p 0) p :=
            ⟨Kept.modify (n := w.runout) (by rw [hstop]; rintro ⟨⟩) rfl rfl rfl rfl fun hne => absurd rfl hne, rfl,
              by simp [World.setWchan], fun q hq => modify_proc_ne _ _ hq⟩
          have hless := hfree.queued_lt hlt hw.1
          have hmul := Nat.mul_le_mul_right (c.nproc + 1) hless
          rw [Nat.succ_mul] at hmul
          refine .after (hfree.woken hchan) h.srun_of_running (ih (b := b)
            (h.free (h.skip hk) (Function.update_of_ne (by rintro ⟨⟩) ..) (by rw [hstop]; rintro ⟨⟩))
            (Function.update_self ..) (by omega) ha fun hne => ?_)
          exact (hfree.kept.clear h.srun_of_running).mpr (hout hne)
      · -- It waits for something else.
        rw [wakeupFrom_pass hget hstat hchan, ← Place.after_concat (.slp (hash chan)) a p]
        refine ih h (by rw [hk, List.append_assoc]; rfl) (by omega) (fun q hq hmem => ?_) hout
        rcases List.mem_append.mp hmem with hmem | hmem
        · exact ha q hq hmem
        · rw [List.mem_singleton] at hmem
          exact hx (hmem ▸ hq)

/-- **How `wakeup` ends.** -/
theorem Sorted.wakeup (h : Sorted c w x Q) (hout : w.runout ≠ 0 → Clear w x (hash c.runout)) (chan : ℕ) :
    Rings c chan x w (w.wakeup c chan) := by
  refine h.wakeupFrom _ (a := []) (List.nil_append _).symm ?_ (fun _ _ => List.not_mem_nil) hout
  have hle := Nat.mul_le_mul_right (c.nproc + 1) (queued_le_nproc c w)
  have hlen := h.length_le (.slp (hash chan))
  rw [Nat.succ_mul]
  omega

end

end DiscoBSD.Sched
