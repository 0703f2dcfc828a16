import Mathlib.Data.List.Perm.Subperm
import DiscoBSD.Lib.Except
import DiscoBSD.Sched.State

/-!
# What the queues hold

**A process is on the sleep queue of its channel as long as it has one, and on the run queue while it is
runnable and loaded and does not have the processor.** The process that has the processor is on no queue, or, in
`tsleep` before it is marked asleep, on a sleep queue. `Kept` is what all the operations here leave as it is.
-/

set_option autoImplicit false

namespace DiscoBSD.Sched

open DiscoBSD.Lib
open Function (update)

/-- The queues are these lists. -/
structure Queues (c : Cfg) (w : World) (Q : Qid → List ℕ) : Prop where
  threads : Threads w.links Q
  slp : ∀ p h, p ∈ Q (.slp h) ↔ (w.proc p).p_wchan ≠ 0 ∧ hash (w.proc p).p_wchan = h
  lt : ∀ k p, p ∈ Q k → p < c.nproc

/-- A process that does not have the processor, where `queued` says whether it is on the run queue. -/
structure Settled (c : Cfg) (s : Proc) (queued : Prop) (p : ℕ) : Prop where
  run : queued → s.p_stat = .srun ∧ s.sload = true
  srun : s.p_stat = .srun → s.p_wchan = 0 ∧ (s.sload = true → queued)
  ssleep : s.p_stat = .ssleep → s.p_wchan ≠ 0
  wchan : s.p_wchan ≠ 0 → s.p_stat = .ssleep ∨ s.p_stat = .sstop
  lt : s.p_stat ≠ .none → p < c.nproc

/-- The process that has the processor. -/
structure Running (c : Cfg) (s : Proc) (queued : Prop) (p : ℕ) : Prop where
  run : ¬ queued
  srun : s.p_stat = .srun
  sload : s.sload = true
  lt : p < c.nproc

/-- The queues and the states of the processes, of which `x` has the processor. -/
structure Sorted (c : Cfg) (w : World) (x : Option ℕ) (Q : Qid → List ℕ) : Prop extends Queues c w Q where
  settled : ∀ p, x ≠ some p → Settled c (w.proc p) (p ∈ Q .run) p
  running : ∀ p, x = some p → Running c (w.proc p) (p ∈ Q .run) p

/-- What stays: all but the queues, the states and what signals are pending. A process that runs goes on, and a
    channel can only be given up. -/
structure Kept (w w' : World) : Prop where
  pc : w'.pc = w.pc
  current : w'.current = w.current
  masked : w'.masked = w.masked
  swapped_out : w'.swapped_out = w.swapped_out
  in_core : w'.in_core = w.in_core
  sload : ∀ p, (w'.proc p).sload = (w.proc p).sload
  ssys : ∀ p, (w'.proc p).ssys = (w.proc p).ssys
  sintr : ∀ p, (w'.proc p).sintr = (w.proc p).sintr
  p_pptr : ∀ p, (w'.proc p).p_pptr = (w.proc p).p_pptr
  awake : ∀ p, (w.proc p).p_stat = .srun →
    (w'.proc p).p_stat = .srun ∧ (w'.proc p).p_wchan = (w.proc p).p_wchan
  wchan : ∀ p, (w'.proc p).p_wchan ≠ 0 → (w'.proc p).p_wchan = (w.proc p).p_wchan

section

variable {c : Cfg} {w w' w'' : World} {Q Q' : Qid → List ℕ} {x : Option ℕ} {p q : ℕ}

theorem Kept.refl (w : World) : Kept w w where
  pc := rfl
  current := rfl
  masked := rfl
  swapped_out := rfl
  in_core := rfl
  sload _ := rfl
  ssys _ := rfl
  sintr _ := rfl
  p_pptr _ := rfl
  awake _ h := ⟨h, rfl⟩
  wchan _ _ := rfl

theorem Kept.trans (h : Kept w w') (h' : Kept w' w'') : Kept w w'' where
  pc := h'.pc.trans h.pc
  current := h'.current.trans h.current
  masked := h'.masked.trans h.masked
  swapped_out := h'.swapped_out.trans h.swapped_out
  in_core := h'.in_core.trans h.in_core
  sload p := (h'.sload p).trans (h.sload p)
  ssys p := (h'.ssys p).trans (h.ssys p)
  sintr p := (h'.sintr p).trans (h.sintr p)
  p_pptr p := (h'.p_pptr p).trans (h.p_pptr p)
  awake p hp := by
    obtain ⟨hstat, hwchan⟩ := h.awake p hp
    obtain ⟨hstat', hwchan'⟩ := h'.awake p hstat
    exact ⟨hstat', hwchan'.trans hwchan⟩
  wchan p hp := by
    have hp' := h'.wchan p hp
    rw [hp']
    exact h.wchan p (hp' ▸ hp)

/-! ## Fields -/

@[simp] theorem modify_proc_self (w : World) (p : ℕ) (f : Proc → Proc) : (w.modify p f).proc p = f (w.proc p) :=
  Function.update_self ..

theorem modify_proc_ne (w : World) (f : Proc → Proc) (h : q ≠ p) : (w.modify p f).proc q = w.proc q :=
  Function.update_of_ne h ..

@[simp] theorem modify_links (w : World) (p : ℕ) (f : Proc → Proc) : (w.modify p f).links = w.links := rfl

@[simp] theorem modify_pc (w : World) (p : ℕ) (f : Proc → Proc) : (w.modify p f).pc = w.pc := rfl

@[simp] theorem modify_runout (w : World) (p : ℕ) (f : Proc → Proc) : (w.modify p f).runout = w.runout := rfl

theorem modify_self {f : Proc → Proc} (h : f (w.proc p) = w.proc p) : w.modify p f = w := by
  unfold World.modify
  rw [h, Function.update_eq_self]

/-- A write to one process that leaves a field alone leaves it alone in all of them. -/
theorem modify_field {α : Type} (g : Proc → α) (w : World) (p : ℕ) (f : Proc → Proc)
    (hf : g (f (w.proc p)) = g (w.proc p)) (q : ℕ) : g ((w.modify p f).proc q) = g (w.proc q) := by
  by_cases hq : q = p
  · subst hq
    rw [modify_proc_self, hf]
  · rw [modify_proc_ne w f hq]

/-! ## One queue -/

theorem Queues.length_le (h : Queues c w Q) (k : Qid) : (Q k).length ≤ c.nproc := by
  have hsub : Q k ⊆ List.range c.nproc := fun p hp => List.mem_range.mpr (h.lt k p hp)
  have hle := ((h.threads.nodup k).subperm hsub).length_le
  rwa [List.length_range] at hle

theorem Queues.nodes (h : Queues c w Q) (k : Qid) : w.links.nodes (c.nproc + 1) (w.links.head k) = Q k :=
  h.threads.nodes (Nat.le_succ_of_le (h.length_le k))

/-- The walk along a queue ends at the process. -/
theorem Queues.find (h : Queues c w Q) {k : Qid} {a b : List ℕ} (hk : Q k = a ++ p :: b) :
    w.links.find p (c.nproc + 1) (.head k) = some (.after k a) := by
  have hlen := h.length_le k
  rw [hk, List.length_append, List.length_cons] at hlen
  exact h.threads.find (l := []) hk (by omega)

theorem Queues.congr (h : Queues c w Q) (hlinks : w'.links = w.links)
    (hwchan : ∀ p, (w'.proc p).p_wchan = (w.proc p).p_wchan) : Queues c w' Q where
  threads := hlinks ▸ h.threads
  slp p k := by
    rw [hwchan]
    exact h.slp p k
  lt := h.lt

/-- A process on the run queue is not on a sleep queue. -/
theorem Queues.apart (h : Queues c w Q) (hp : p ∈ Q .run) : (w.proc p).p_wchan = 0 := by
  by_contra hne
  have hslp := (h.slp p _).mpr ⟨hne, rfl⟩
  cases h.threads.apart _ _ p hp hslp

theorem Queues.none (h : Queues c w Q) (hp : (w.proc p).p_wchan = 0) (hrun : p ∉ Q .run) (k : Qid) : p ∉ Q k := by
  cases k with
  | run => exact hrun
  | slp k => exact fun hk => ((h.slp p k).mp hk).1 hp

/-! ## The operations -/

/-- What is left of the queues when a process is taken off. -/
theorem Queues.mem_skip (h : Queues c w Q) {k : Qid} {a b : List ℕ} (hk : Q k = a ++ p :: b) (k' : Qid) :
    q ∈ update Q k (a ++ b) k' ↔ q ∈ Q k' ∧ q ≠ p := by
  have hnodup := h.threads.nodup k
  rw [hk] at hnodup
  have hp : p ∉ a ++ b := (List.nodup_middle.mp hnodup).notMem
  by_cases hk' : k' = k
  · subst hk'
    rw [Function.update_self, hk]
    simp only [List.mem_append, List.mem_cons]
    constructor
    · intro hq
      refine ⟨hq.imp_right .inr, ?_⟩
      rintro rfl
      exact hp (List.mem_append.mpr hq)
    · rintro ⟨hq | rfl | hq, hne⟩
      · exact .inl hq
      · exact absurd rfl hne
      · exact .inr hq
  · rw [Function.update_of_ne hk']
    refine ⟨fun hq => ⟨hq, ?_⟩, And.left⟩
    rintro rfl
    refine hk' (h.threads.apart k' k q hq ?_)
    rw [hk]
    exact List.mem_append_right a (List.mem_cons_self ..)

/-- A process is taken off the sleep queue of its channel, where it is behind `a`. -/
theorem Queues.skip (h : Queues c w Q) {k : ℕ} {a b : List ℕ} (hk : Q (.slp k) = a ++ p :: b) :
    Queues c ({ w with links := w.links.skip (.after (.slp k) a) p }.setWchan p 0)
      (update Q (.slp k) (a ++ b)) where
  threads := h.threads.skip hk
  slp q k' := by
    rw [h.mem_skip hk, h.slp]
    by_cases hq : q = p
    · subst hq
      simp [World.setWchan]
    · unfold World.setWchan
      rw [modify_proc_ne _ _ hq]
      exact and_iff_left hq
  lt k' q hq := h.lt k' q ((h.mem_skip hk k').mp hq).1

theorem Queues.setrq (h : Queues c w Q) (hp : ∀ k, p ∉ Q k) (hlt : p < c.nproc) :
    w.setrq c p = .ok { w with links := w.links.push .run p } ∧
      Queues c { w with links := w.links.push .run p } (update Q .run (p :: Q .run)) := by
  constructor
  · unfold World.setrq
    rw [h.nodes, if_neg (hp .run)]
  · refine ⟨h.threads.push hp .run, h.slp, fun k q hq => ?_⟩
    by_cases hk : k = .run
    · subst hk
      rw [Function.update_self] at hq
      rcases List.mem_cons.mp hq with rfl | hq
      · exact hlt
      · exact h.lt _ _ hq
    · rw [Function.update_of_ne hk] at hq
      exact h.lt _ _ hq

theorem Queues.remrq (h : Queues c w Q) (hp : p ∈ Q .run) :
    ∃ a b, Q .run = a ++ p :: b ∧ w.remrq c p = .ok { w with links := w.links.skip (.after .run a) p } ∧
      Queues c { w with links := w.links.skip (.after .run a) p } (update Q .run (a ++ b)) := by
  obtain ⟨a, b, hk⟩ := List.append_of_mem hp
  refine ⟨a, b, hk, ?_, h.threads.skip hk, fun q k => ?_, fun k q hq => h.lt k q ((h.mem_skip hk k).mp hq).1⟩
  · unfold World.remrq
    rw [h.find hk]
  · rw [h.mem_skip hk, h.slp]
    -- What is on the run queue has no channel.
    refine and_iff_left_of_imp ?_
    rintro hq rfl
    exact hq.1 (h.apart hp)

theorem Queues.unsleep (h : Queues c w Q) :
    ∃ w' Q', w.unsleep c p = .ok w' ∧ Queues c w' Q' ∧ Q' .run = Q .run ∧
      w' = { w with links := w'.links }.setWchan p 0 := by
  by_cases hp : (w.proc p).p_wchan = 0
  · refine ⟨w, Q, ?_, h, rfl, ?_⟩
    · unfold World.unsleep
      rw [if_neg (not_not.mpr hp)]
    · exact (modify_self (f := fun x => { x with p_wchan := 0 }) (by rw [← hp])).symm
  · obtain ⟨a, b, hk⟩ := List.append_of_mem ((h.slp p _).mpr ⟨hp, rfl⟩)
    refine ⟨_, _, ?_, h.skip hk, Function.update_of_ne (by rintro ⟨⟩) .., rfl⟩
    unfold World.unsleep
    rw [if_pos hp, h.find hk]

/-- One process changes. -/
theorem Sorted.change {x' : Option ℕ} (h : Sorted c w x Q) (hq : Queues c w' Q')
    (hothers : ∀ q, q ≠ p → w'.proc q = w.proc q ∧ (q ∈ Q' .run ↔ q ∈ Q .run))
    (hx : ∀ q, q ≠ p → (x' = some q ↔ x = some q))
    (hself : if x' = some p then Running c (w'.proc p) (p ∈ Q' .run) p
      else Settled c (w'.proc p) (p ∈ Q' .run) p) : Sorted c w' x' Q' where
  toQueues := hq
  settled q hqx := by
    by_cases hqp : q = p
    · subst hqp
      rwa [if_neg hqx] at hself
    · obtain ⟨hproc, hrun⟩ := hothers q hqp
      rw [hproc, propext hrun]
      exact h.settled q (mt (hx q hqp).mpr hqx)
  running q hqx := by
    by_cases hqp : q = p
    · subst hqp
      rwa [if_pos hqx] at hself
    · obtain ⟨hproc, hrun⟩ := hothers q hqp
      rw [hproc, propext hrun]
      exact h.running q ((hx q hqp).mp hqx)

/-- A process on a sleep queue that does not have the processor is asleep or stopped. -/
theorem Sorted.asleep (h : Sorted c w x Q) {k : ℕ} (hp : p ∈ Q (.slp k)) (hx : x ≠ some p) :
    (w.proc p).p_stat = .ssleep ∨ (w.proc p).p_stat = .sstop :=
  (h.settled p hx).wchan ((h.slp p k).mp hp).1

theorem Sorted.alive (h : Sorted c w x Q) (hp : (w.proc p).p_stat ≠ .none) : p < c.nproc := by
  by_cases hx : x = some p
  · exact (h.running p hx).lt
  · exact (h.settled p hx).lt hp

end

end DiscoBSD.Sched
