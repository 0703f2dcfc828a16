import Mathlib
import DiscoBSD.Lib.Delta
import DiscoBSD.Clock.Callout

/-!
# The callout queue is a list of deadlines

Every entry of the queue stands for a call of `timeout`, and the tick at which its deltas run out is **the
tick of that call plus its delay**, however many entries came and went in front of it. `timeout` takes a
delay of at least one tick and puts a new entry in front of those with the same deadline: among equal
deadlines the youngest goes first.

A run is any order of the four functions, with one turn of the loop of `softclock` as a step, so that the
functions it calls, and the clock, may come in between.
-/

set_option autoImplicit false

namespace DiscoBSD.Clock

open DiscoBSD.Lib
open Function (update)

/-- What an entry is for, wherever it stands in the queue. -/
structure Ident where
  addr : Nat
  c_arg : Nat
  c_func : Nat
  deriving DecidableEq, Repr

def Callout.ident (p : Callout) : Ident := ⟨p.addr, p.c_arg, p.c_func⟩

/-- The queue with the ticks at which its sums of deltas reach zero, counted from now. -/
abbrev queue (ahead : Int) (l : List Callout) : List (Int × Ident) :=
  dues Callout.c_time Callout.ident ahead l

theorem queue_cons (ahead : Int) (p : Callout) (rest : List Callout) :
    queue ahead (p :: rest) = (ahead + p.c_time, p.ident) :: queue (ahead + max p.c_time 0) rest := rfl

/-! ## The functions on the deadlines -/

/-- A tick brings every deadline nearer by one. -/
theorem hardclockTodo_queue {l l' : List Callout} {soft : Bool} (h : hardclockTodo l = .ok (soft, l')) :
    queue 0 l' = shift (-1) (queue 0 l) := by
  induction l generalizing soft l' with
  | nil =>
    cases h
    rfl
  | cons p1 rest ih =>
    by_cases hfit : IsInt (p1.c_time - 1)
    · by_cases hfar : 1 < p1.c_time
      · rw [hardclockTodo_far rest hfit hfar] at h
        cases h
        rw [queue_cons, queue_cons, shift_cons, ← dues_shift]
        have hnext : 0 + max (p1.c_time - 1) 0 = 0 + max p1.c_time 0 + -1 := by omega
        have hfirst : 0 + (p1.c_time - 1) = 0 + p1.c_time + -1 := by omega
        dsimp only
        rw [hnext, hfirst]
        rfl
      · by_cases hnow : p1.c_time = 1
        · rw [hardclockTodo_now rest hnow] at h
          cases h
          rw [queue_cons, queue_cons, shift_cons, ← dues_shift, hnow]
          rfl
        · -- The entry is overdue, and the tick goes on to the next one.
          rw [hardclockTodo_late rest hfit (by omega)] at h
          obtain ⟨⟨soft₁, rest'⟩, hrest, h⟩ := exists_of_map_eq_ok h
          cases h
          have hnext : 0 + max (p1.c_time - 1) 0 = 0 := by omega
          have hnext' : 0 + max p1.c_time 0 = 0 := by omega
          have hfirst : 0 + (p1.c_time - 1) = 0 + p1.c_time + -1 := by omega
          rw [queue_cons, queue_cons, shift_cons]
          dsimp only
          rw [hnext, hnext', hfirst]
          exact congrArg _ (ih hrest)
    · rw [hardclockTodo_overflow rest hfit] at h
      cases h

/-- `timeout` enters a deadline and leaves the others. -/
theorem timeoutTodo_queue {pnew : Callout} {l l' : List Callout} {t : Int} (ahead : Int) (ht : 0 < t)
    (h : timeoutTodo pnew t l = .ok l') :
    queue ahead l' = enter (ahead + t, pnew.ident) (queue ahead l) := by
  induction l generalizing t ahead l' with
  | nil =>
    cases h
    rfl
  | cons p2 rest ih =>
    unfold timeoutTodo at h
    by_cases hlt : p2.c_time < t
    · rw [if_pos hlt] at h
      obtain ⟨t', ht', h⟩ := bind_ok h
      obtain ⟨l₁, hrest, h⟩ := exists_of_map_eq_ok h
      cases h
      have hleft : t' = t - max p2.c_time 0 := by
        split at ht'
        · unfold cint at ht'
          split at ht'
          · cases ht'
            omega
          · cases ht'
        · cases ht'
          omega
      have hsum : ahead + max p2.c_time 0 + t' = ahead + t := by omega
      have hnext := ih (ahead + max p2.c_time 0) (by omega) hrest
      rw [hsum] at hnext
      rw [queue_cons, hnext, queue_cons, enter_cons_of_lt (show ahead + p2.c_time < ahead + t by omega)]
    · rw [if_neg hlt] at h
      obtain ⟨left, hleft, h⟩ := bind_ok h
      unfold cint at hleft
      split at hleft
      · cases hleft
        cases h
        rw [queue_cons ahead p2, enter_cons_of_le (show ahead + t ≤ ahead + p2.c_time by omega), ← queue_cons]
        have hle : t ≤ p2.c_time := Int.not_lt.mp hlt
        exact @dues_insert _ _ Callout.c_time Callout.ident ahead { pnew with c_time := t } p2 { p2 with c_time := p2.c_time - t } rest
          ht hle rfl rfl
      · cases hleft

/-- `untimeout` takes one deadline out and leaves the others. -/
theorem untimeoutTodo_queue {f arg : Nat} {l l' : List Callout} {r : Option Callout} (ahead : Int)
    (ho : Ordered (queue ahead l)) (h : untimeoutTodo f arg l = .ok (r, l')) :
    (r = none ∧ l' = l) ∨ ∃ p pre post d, r = some p ∧ queue ahead l = pre ++ (d, p.ident) :: post ∧
      queue ahead l' = pre ++ post := by
  induction l generalizing ahead r l' with
  | nil =>
    cases h
    exact .inl ⟨rfl, rfl⟩
  | cons p2 rest ih =>
    unfold untimeoutTodo at h
    split at h
    · refine .inr ?_
      cases rest with
      | nil =>
        cases h
        exact ⟨p2, [], [], ahead + p2.c_time, rfl, rfl, rfl⟩
      | cons next rest =>
        dsimp only at h
        split at h
        · obtain ⟨t, ht, h⟩ := bind_ok h
          cases h
          have hsum : t = next.c_time + max p2.c_time 0 := by
            unfold cint at ht
            split at ht
            · cases ht
              omega
            · cases ht
          exact ⟨p2, [], _, _, rfl, rfl,
            @dues_remove _ _ Callout.c_time Callout.ident ahead p2 next { next with c_time := t } rest ho hsum rfl⟩
        · cases h
          have hzero : next.c_time = next.c_time + max p2.c_time 0 := by omega
          exact ⟨p2, [], _, _, rfl, rfl, dues_remove ho hzero rfl⟩
    · obtain ⟨⟨r₁, rest'⟩, hrest, h⟩ := exists_of_map_eq_ok h
      cases h
      rcases ih _ (List.pairwise_cons.mp ho).2 hrest with ⟨hr, hl⟩ | ⟨p, pre, post, d, hr, hl, hl'⟩
      · exact .inl ⟨hr, congrArg (p2 :: ·) hl⟩
      · refine .inr ⟨p, (ahead + p2.c_time, p2.ident) :: pre, post, d, hr, ?_, ?_⟩
        · rw [queue_cons, hl]
          rfl
        · rw [queue_cons, hl']
          rfl

/-! ## Runs -/

/-- A call of `timeout`: its number, the tick it was made at, and the delay it asked for. -/
structure Call where
  seq : Nat
  made : Nat
  delay : Int
  deriving DecidableEq, Repr

/-- The deadline of a call. A delay is at least one tick. -/
def Call.deadline (c : Call) : Int := c.made + max c.delay 1

/-- The order in which the functions of two calls are called. -/
def Call.Before (c c' : Call) : Prop :=
  c.deadline < c'.deadline ∨ (c.deadline = c'.deadline ∧ c'.seq < c.seq)

/-- The clock, the ticks since the boot, the calls of `timeout`, the call an entry in use stands for, and the
    calls whose function has been called, newest first, with the tick at which it was. -/
structure Timers where
  clock : Clock
  ticks : Nat
  calls : Nat
  call : Nat → Call
  ran : List (Call × Nat)

inductive Op where
  | timeout (f arg : Nat) (t : Int)
  | untimeout (f arg : Nat)
  | hardclock
  | softclock
  deriving DecidableEq, Repr

/-- One step. -/
def Timers.step (hz : Int) (s : Timers) : Op → Except Fault Timers
  | .timeout f arg t =>
    (timeout s.clock f arg t).map fun clock =>
      { s with
        clock, calls := s.calls + 1
        call := update s.call (s.clock.callfree.headD 0) ⟨s.calls, s.ticks, t⟩ }
  | .untimeout f arg => (untimeout s.clock f arg).map fun clock => { s with clock }
  | .hardclock => (hardclock hz s.clock).map fun r => { s with clock := r.2, ticks := s.ticks + 1 }
  | .softclock =>
    match softclock s.clock with
    | none => .ok s
    | some (p1, clock) => .ok { s with clock, ran := (s.call p1.addr, s.ticks) :: s.ran }

/-- The delay is an `int`. -/
def Op.Typed : Op → Prop
  | .timeout _ _ t => IsInt t
  | _ => True

instance (op : Op) : Decidable op.Typed := by
  cases op <;> unfold Op.Typed <;> infer_instance

/-- The states of the runs from `coutinit`. -/
inductive Reach (hz : Int) (ncall : Nat) : Timers → Prop
  | boot (lbolt tv_sec adjdelta : Int) :
      Reach hz ncall ⟨coutinit ncall lbolt tv_sec adjdelta, 0, 0, fun _ => ⟨0, 0, 0⟩, []⟩
  | step {s s' : Timers} (op : Op) : Reach hz ncall s → op.Typed → s.step hz op = .ok s' → Reach hz ncall s'

/-- The deadline of the pending entry at an address: the tick at which the sum of the deltas up to it is
    zero. -/
def Timers.deadline (s : Timers) (addr : Nat) : Option Int :=
  ((queue 0 s.clock.calltodo).find? (·.2.addr = addr)).map (s.ticks + ·.1)

/-- What is known of a run whose queue has the deadlines `q`. -/
structure TimersInv (s : Timers) (q : List (Int × Ident)) : Prop where
  queue_eq : queue 0 s.clock.calltodo = q
  addrs : (q.map (·.2.addr) ++ s.clock.callfree).Nodup
  due : ∀ d ∈ q, d.1 + s.ticks = (s.call d.2.addr).deadline
  made : ∀ d ∈ q, (s.call d.2.addr).made ≤ s.ticks ∧ (s.call d.2.addr).seq < s.calls ∧
    (s.call d.2.addr).delay < 2 ^ 31
  order : q.Pairwise fun d e => (s.call d.2.addr).Before (s.call e.2.addr)
  ran : ∀ r ∈ s.ran, r.1.deadline ≤ r.2 ∧ r.2 ≤ s.ticks
  ran_order : s.ran.Pairwise fun r r' => r'.1.Before r.1
  ran_first : ∀ r ∈ s.ran, ∀ d ∈ q, r.1.Before (s.call d.2.addr)

section

variable {hz : Int} {ncall : Nat} {s s' : Timers} {q : List (Int × Ident)}

theorem Call.Before.le {c c' : Call} (h : c.Before c') : c.deadline ≤ c'.deadline := by
  rcases h with h | h
  · exact Int.le_of_lt h
  · exact Int.le_of_eq h.1

theorem TimersInv.ordered (h : TimersInv s q) : Ordered q := by
  refine List.Pairwise.imp_of_mem (fun hd he hb => ?_) h.order
  have h₁ := h.due _ hd
  have h₂ := h.due _ he
  have := hb.le
  omega

/-- Some entries leave the queue. -/
theorem TimersInv.sub (h : TimersInv s q) {q' : List (Int × Ident)} {clock : Clock} (hs : q'.Sublist q)
    (hq : queue 0 clock.calltodo = q') (ha : (q'.map (·.2.addr) ++ clock.callfree).Nodup) :
    TimersInv { s with clock } q' :=
  ⟨hq, ha, fun d hd => h.due d (hs.subset hd), fun d hd => h.made d (hs.subset hd), h.order.sublist hs,
    h.ran, h.ran_order, fun r hr d hd => h.ran_first r hr d (hs.subset hd)⟩

theorem TimersInv.timeout (h : TimersInv s q) {f arg : Nat} {t : Int}
    (ht : IsInt t) (hstep : s.step hz (.timeout f arg t) = .ok s') : ∃ q', TimersInv s' q' := by
  obtain ⟨clock, hcall, rfl⟩ := exists_of_map_eq_ok hstep
  have haddrs := h.addrs
  unfold Clock.timeout at hcall
  cases hfree : s.clock.callfree with
  | nil =>
    rw [hfree] at hcall
    cases hcall
  | cons addr callfree =>
    rw [hfree] at hcall haddrs
    obtain ⟨calltodo, htodo, rfl⟩ := exists_of_map_eq_ok hcall
    rw [List.headD_cons]
    have hpos : 0 < (if t ≤ 0 then 1 else t) := by split <;> omega
    have hmax : max t 1 = if t ≤ 0 then 1 else t := by split <;> omega
    have hqueue := timeoutTodo_queue 0 hpos htodo
    rw [h.queue_eq, Int.zero_add, ← hmax] at hqueue
    have hperm := enter_perm (max t 1, (⟨addr, arg, f⟩ : Ident)) q
    have hnew : ∀ d ∈ q, update s.call addr ⟨s.calls, s.ticks, t⟩ d.2.addr = s.call d.2.addr := by
      intro d hd
      refine Function.update_of_ne (fun he => ?_) _ _
      have hdis := (List.nodup_append.mp haddrs).2.2
      exact hdis _ (List.mem_map_of_mem (f := (·.2.addr)) hd) addr (List.mem_cons_self ..) he
    refine ⟨_, hqueue, ?_, ?_, ?_, ?_, h.ran, h.ran_order, ?_⟩
    · refine ((hperm.map (·.2.addr)).append_right callfree).nodup_iff.mpr ?_
      exact (List.perm_middle.nodup_iff.mp haddrs)
    · intro d hd
      rcases List.mem_cons.mp (hperm.mem_iff.mp hd) with rfl | hd
      · simp only [Function.update_self, Call.deadline]
        omega
      · dsimp only
        rw [hnew d hd]
        exact h.due d hd
    · intro d hd
      rcases List.mem_cons.mp (hperm.mem_iff.mp hd) with rfl | hd
      · simp only [Function.update_self]
        exact ⟨Nat.le_refl _, Nat.lt_succ_self _, ht.2⟩
      · dsimp only
        rw [hnew d hd]
        exact ⟨(h.made d hd).1, Nat.lt_succ_of_lt (h.made d hd).2.1, (h.made d hd).2.2⟩
    · refine pairwise_enter (h.order.imp_of_mem fun hd he hb => ?_) (fun e he hlt => ?_)
        (fun e he hle => ?_) h.ordered
      · dsimp only
        rw [hnew _ hd, hnew _ he]
        exact hb
      · have hdue := h.due e he
        dsimp only at hlt ⊢
        rw [hnew e he]
        refine .inl ?_
        simp only [Callout.ident, Function.update_self, Call.deadline] at hdue ⊢
        omega
      · have hdue := h.due e he
        have hseq := (h.made e he).2.1
        dsimp only at hle ⊢
        rw [hnew e he]
        simp only [Call.Before, Callout.ident, Function.update_self, Call.deadline] at hdue ⊢
        omega
    · intro r hr d hd
      have hran := h.ran r hr
      rcases List.mem_cons.mp (hperm.mem_iff.mp hd) with rfl | hd
      · refine .inl ?_
        simp only [Function.update_self, Call.deadline] at hran ⊢
        omega
      · dsimp only
        rw [hnew d hd]
        exact h.ran_first r hr d hd

theorem TimersInv.untimeout (h : TimersInv s q) {f arg : Nat}
    (hstep : s.step hz (.untimeout f arg) = .ok s') : ∃ q', TimersInv s' q' := by
  obtain ⟨clock, hcall, rfl⟩ := exists_of_map_eq_ok hstep
  obtain ⟨⟨r, calltodo⟩, htodo, hclock⟩ := exists_of_map_eq_ok hcall
  have hord : Ordered (queue 0 s.clock.calltodo) := h.queue_eq ▸ h.ordered
  rcases untimeoutTodo_queue 0 hord htodo with ⟨rfl, rfl⟩ | ⟨p, pre, post, d, rfl, hq, hq'⟩
  · subst hclock
    exact ⟨q, h.sub (List.Sublist.refl q) h.queue_eq h.addrs⟩
  · subst hclock
    have haddrs := h.addrs
    rw [h.queue_eq] at hq
    subst hq
    refine ⟨pre ++ post, h.sub ?_ hq' ?_⟩
    · exact (List.Sublist.refl pre).append (List.sublist_cons_self _ _)
    · rw [List.map_append, List.map_cons, List.append_assoc, List.cons_append] at haddrs
      rw [List.map_append, List.append_assoc]
      refine (List.Perm.nodup_iff ?_).mp haddrs
      refine List.Perm.append_left _ ?_
      exact List.perm_middle.symm

theorem TimersInv.hardclock (h : TimersInv s q) (hstep : s.step hz .hardclock = .ok s') :
    ∃ q', TimersInv s' q' := by
  obtain ⟨⟨soft, clock⟩, hcall, rfl⟩ := exists_of_map_eq_ok hstep
  obtain ⟨⟨soft₁, calltodo⟩, htodo, hcall⟩ := bind_ok hcall
  obtain ⟨⟨lbolt, tv_sec, adjdelta⟩, -, hcall⟩ := bind_ok hcall
  cases hcall
  have hq := hardclockTodo_queue htodo
  rw [h.queue_eq] at hq
  have hmem : ∀ d ∈ shift (-1) q, ∃ e ∈ q, d = (e.1 + -1, e.2) := by
    intro d hd
    obtain ⟨e, he, rfl⟩ := List.mem_map.mp hd
    exact ⟨e, he, rfl⟩
  refine ⟨shift (-1) q, hq, ?_, ?_, ?_, ?_, ?_, h.ran_order, ?_⟩
  · have : (shift (-1) q).map (·.2.addr) = q.map (·.2.addr) := by
      simp only [shift, List.map_map]
      rfl
    rw [this]
    exact h.addrs
  · intro d hd
    obtain ⟨e, he, rfl⟩ := hmem d hd
    have := h.due e he
    simp only
    omega
  · intro d hd
    obtain ⟨e, he, rfl⟩ := hmem d hd
    exact ⟨Nat.le_succ_of_le (h.made e he).1, (h.made e he).2⟩
  · exact List.pairwise_map.mpr h.order
  · exact fun r hr => ⟨(h.ran r hr).1, Nat.le_succ_of_le (h.ran r hr).2⟩
  · intro r hr d hd
    obtain ⟨e, he, rfl⟩ := hmem d hd
    exact h.ran_first r hr e he

theorem TimersInv.softclock (h : TimersInv s q) (hstep : s.step hz .softclock = .ok s') :
    ∃ q', TimersInv s' q' := by
  simp only [Timers.step] at hstep
  cases hcall : Clock.softclock s.clock with
  | none =>
    rw [hcall] at hstep
    cases hstep
    exact ⟨q, h⟩
  | some r =>
    obtain ⟨p1, clock⟩ := r
    rw [hcall] at hstep
    cases hstep
    unfold Clock.softclock at hcall
    split at hcall
    · cases hcall
    · next p rest htodo =>
      by_cases hlate : 0 < p.c_time
      · rw [if_pos hlate] at hcall
        cases hcall
      · rw [if_neg hlate] at hcall
        cases hcall
        have hq := h.queue_eq
        have hzero : 0 + max p1.c_time 0 = 0 := by omega
        rw [htodo, queue_cons, hzero] at hq
        subst hq
        have hfirst := h.due _ (List.mem_cons_self ..)
        simp only [Callout.ident] at hfirst
        obtain ⟨hbefore, -⟩ := List.pairwise_cons.mp h.order
        have hsub : TimersInv { s with
            clock := { s.clock with calltodo := rest, callfree := p1.addr :: s.clock.callfree } } (queue 0 rest) :=
          h.sub (List.sublist_cons_self _ _) rfl (List.perm_middle.nodup_iff.mpr h.addrs)
        refine ⟨_, hsub.queue_eq, hsub.addrs, hsub.due, hsub.made, hsub.order, ?_, ?_, ?_⟩
        · intro r hr
          rcases List.mem_cons.mp hr with rfl | hr
          · refine ⟨?_, Nat.le_refl _⟩
            simp only
            omega
          · exact h.ran r hr
        · exact List.pairwise_cons.mpr
            ⟨fun r hr => h.ran_first r hr _ (List.mem_cons_self ..), h.ran_order⟩
        · intro r hr d hd
          rcases List.mem_cons.mp hr with rfl | hr
          · exact hbefore d hd
          · exact hsub.ran_first r hr d hd

theorem Reach.inv (h : Reach hz ncall s) : ∃ q, TimersInv s q := by
  induction h with
  | boot lbolt tv_sec adjdelta =>
    refine ⟨[], rfl, ?_, by simp, by simp, List.Pairwise.nil, by simp, List.Pairwise.nil, by simp⟩
    simpa [coutinit] using List.nodup_range
  | step op _ ht hstep ih =>
    obtain ⟨q, hinv⟩ := ih
    cases op with
    | timeout f arg t => exact hinv.timeout ht hstep
    | untimeout f arg => exact hinv.untimeout hstep
    | hardclock => exact hinv.hardclock hstep
    | softclock => exact hinv.softclock hstep

end

/-- The deadline that the deltas give an entry is that of its call. -/
theorem TimersInv.deadline {s : Timers} {q : List (Int × Ident)} (h : TimersInv s q) {addr : Nat} {t : Int}
    (hd : s.deadline addr = some t) : t = (s.call addr).deadline := by
  obtain ⟨d, hfind, rfl⟩ := Option.map_eq_some_iff.mp hd
  rw [h.queue_eq] at hfind
  have haddr : d.2.addr = addr := by simpa using List.find?_some hfind
  rw [← haddr, ← h.due d (List.mem_of_find?_eq_some hfind), Int.add_comm]

/-- Only `timeout` gives an address to another call, and the address was free. -/
theorem TimersInv.call_kept {hz : Int} {s s' : Timers} {q : List (Int × Ident)} (h : TimersInv s q) {op : Op}
    (hstep : s.step hz op = .ok s') {addr : Nat} {t : Int} (hd : s.deadline addr = some t) :
    s'.call addr = s.call addr := by
  cases op with
  | timeout f arg t =>
    obtain ⟨clock, hcall, rfl⟩ := exists_of_map_eq_ok hstep
    obtain ⟨d, hfind, -⟩ := Option.map_eq_some_iff.mp hd
    rw [h.queue_eq] at hfind
    have haddr : d.2.addr = addr := by simpa using List.find?_some hfind
    refine Function.update_of_ne (fun he => ?_) _ _
    unfold Clock.timeout at hcall
    cases hfree : s.clock.callfree with
    | nil =>
      rw [hfree] at hcall
      cases hcall
    | cons a callfree =>
      rw [hfree, List.headD_cons] at he
      have hdis := (List.nodup_append.mp h.addrs).2.2
      rw [hfree] at hdis
      exact hdis addr (haddr ▸ List.mem_map_of_mem (List.mem_of_find?_eq_some hfind)) a (List.mem_cons_self ..) he
  | untimeout f arg =>
    obtain ⟨clock, -, rfl⟩ := exists_of_map_eq_ok hstep
    rfl
  | hardclock =>
    obtain ⟨r, -, rfl⟩ := exists_of_map_eq_ok hstep
    rfl
  | softclock =>
    simp only [Timers.step] at hstep
    split at hstep
    · cases hstep
      rfl
    · cases hstep
      rfl

/-- **The callout queue is a list of deadlines, over every run.** The deltas of a pending entry give the tick
    of its call plus its delay, of at least one tick; no step moves the deadline of an entry that is pending
    before and after it; no function is called before its deadline; and they are called in the order of their
    deadlines, and the youngest first among equal ones. -/
theorem callouts_keep_deadlines {hz : Int} {ncall : Nat} {s : Timers} (h : Reach hz ncall s) :
    (∀ addr t, s.deadline addr = some t → t = (s.call addr).made + max (s.call addr).delay 1) ∧
    (∀ op s', op.Typed → s.step hz op = .ok s' → ∀ addr t t', s.deadline addr = some t →
      s'.deadline addr = some t' → t' = t) ∧
    (∀ r ∈ s.ran, r.1.deadline ≤ r.2) ∧
    s.ran.Pairwise (fun r r' => r'.1.Before r.1) := by
  obtain ⟨q, hinv⟩ := h.inv
  refine ⟨fun addr t hd => hinv.deadline hd, ?_, fun r hr => (hinv.ran r hr).1, hinv.ran_order⟩
  intro op s' ht hstep addr t t' hd hd'
  obtain ⟨q', hinv'⟩ := (Reach.step op h ht hstep).inv
  rw [hinv'.deadline hd', hinv.call_kept hstep hd, hinv.deadline hd]

theorem reach_foldlM {hz : Int} {ncall : Nat} {s s' : Timers} (ops : List Op) (h : Reach hz ncall s)
    (ht : ∀ op ∈ ops, op.Typed) (hops : ops.foldlM (Timers.step hz) s = .ok s') : Reach hz ncall s' := by
  induction ops generalizing s with
  | nil =>
    cases hops
    exact h
  | cons op ops ih =>
    obtain ⟨s₁, hstep, hops⟩ := bind_ok hops
    exact ih (Reach.step op h (ht op (List.mem_cons_self ..)) hstep)
      (fun o ho => ht o (List.mem_cons_of_mem _ ho)) hops

/-- The entry in the middle is taken out and the first one runs out; the last keeps its deadline. -/
theorem callouts_keep_deadlines_three :
    ∃ s, Reach 1000 3 s ∧ s.ran = [(⟨0, 0, 3⟩, 3)] ∧ s.deadline 1 = some 7 ∧
      (7 : Int) = (s.call 1).made + max (s.call 1).delay 1 := by
  have h : ∃ s, [Op.timeout 1 0 3, .timeout 2 0 7, .timeout 3 0 5, .hardclock, .untimeout 3 0, .hardclock,
      .hardclock, .softclock].foldlM (Timers.step 1000) ⟨coutinit 3 0 0 0, 0, 0, fun _ => ⟨0, 0, 0⟩, []⟩ =
        .ok s ∧ s.ran = [(⟨0, 0, 3⟩, 3)] ∧ s.deadline 1 = some 7 := ⟨_, rfl, by decide, by decide⟩
  obtain ⟨s, hs, hran, hd⟩ := h
  have hreach := reach_foldlM _ (Reach.boot 0 0 0) (by decide) hs
  exact ⟨s, hreach, hran, hd, (callouts_keep_deadlines hreach).1 1 7 hd⟩

/-- Of two calls with one deadline the second is first, and no delay is a delay of one tick. -/
theorem callouts_last_first :
    (∃ s, Reach 1000 2 s ∧ s.ran = [(⟨0, 0, 2⟩, 2), (⟨1, 0, 2⟩, 2)]) ∧
    ∃ s, Reach 1000 2 s ∧ s.deadline 0 = some 1 ∧ s.call 0 = ⟨0, 0, 0⟩ := by
  refine ⟨?_, ?_⟩
  · have h : ∃ s, [Op.timeout 1 0 2, .timeout 2 0 2, .hardclock, .hardclock, .softclock, .softclock].foldlM
        (Timers.step 1000) ⟨coutinit 2 0 0 0, 0, 0, fun _ => ⟨0, 0, 0⟩, []⟩ = .ok s ∧
          s.ran = [(⟨0, 0, 2⟩, 2), (⟨1, 0, 2⟩, 2)] := ⟨_, rfl, by decide⟩
    obtain ⟨s, hs, hran⟩ := h
    exact ⟨s, reach_foldlM _ (Reach.boot 0 0 0) (by decide) hs, hran⟩
  · have h : ∃ s, [Op.timeout 1 0 0].foldlM (Timers.step 1000)
        ⟨coutinit 2 0 0 0, 0, 0, fun _ => ⟨0, 0, 0⟩, []⟩ = .ok s ∧ s.deadline 0 = some 1 ∧
          s.call 0 = ⟨0, 0, 0⟩ := ⟨_, rfl, by decide, by decide⟩
    obtain ⟨s, hs, hd, hc⟩ := h
    exact ⟨s, reach_foldlM _ (Reach.boot 0 0 0) (by decide) hs, hd, hc⟩

/-! ## The arithmetic of the deltas -/

theorem timeoutTodo_returns (pnew : Callout) {l : List Callout} {t : Int} (ht : 0 < t) (htm : t < 2 ^ 31)
    (hl : ∀ p ∈ l, p.c_time < 2 ^ 31) : ∃ l', timeoutTodo pnew t l = .ok l' := by
  induction l generalizing t with
  | nil => exact ⟨_, rfl⟩
  | cons p2 rest ih =>
    have hp := hl p2 (List.mem_cons_self ..)
    have hrest : ∀ p ∈ rest, p.c_time < 2 ^ 31 := fun p hp => hl p (List.mem_cons_of_mem _ hp)
    unfold timeoutTodo
    by_cases hlt : p2.c_time < t
    · rw [if_pos hlt]
      by_cases hpos : 0 < p2.c_time
      · obtain ⟨l', hl'⟩ := @ih (t - p2.c_time) (by omega) (by omega) hrest
        rw [if_pos hpos, cint_of ⟨by omega, by omega⟩]
        simp only [bind, Except.bind, hl']
        exact ⟨_, rfl⟩
      · obtain ⟨l', hl'⟩ := ih ht htm hrest
        rw [if_neg hpos]
        simp only [bind, Except.bind, hl']
        exact ⟨_, rfl⟩
    · rw [if_neg hlt, cint_of ⟨by omega, by omega⟩]
      exact ⟨_, rfl⟩

theorem untimeoutTodo_returns (f arg : Nat) {ahead : Int} {l : List Callout} (ha : 0 ≤ ahead)
    (ho : Ordered (queue ahead l)) (hl : ∀ d ∈ queue ahead l, d.1 < 2 ^ 31) :
    ∃ r, untimeoutTodo f arg l = .ok r := by
  induction l generalizing ahead with
  | nil => exact ⟨_, rfl⟩
  | cons p2 rest ih =>
    unfold untimeoutTodo
    split
    · cases rest with
      | nil => exact ⟨_, rfl⟩
      | cons next rest =>
        dsimp only
        by_cases hpos : 0 < p2.c_time
        · have hnext := ho.nonneg hpos
          have hdue := hl _ (List.mem_cons_of_mem _ (List.mem_cons_self ..))
          dsimp only at hdue
          rw [if_pos hpos, cint_of ⟨by omega, by omega⟩]
          exact ⟨_, rfl⟩
        · rw [if_neg hpos]
          exact ⟨_, rfl⟩
    · obtain ⟨r, hr⟩ := @ih (ahead + max p2.c_time 0) (by omega) (List.pairwise_cons.mp ho).2
        fun d hd => hl d (List.mem_cons_of_mem _ hd)
      rw [hr]
      exact ⟨_, rfl⟩

theorem le_of_mem_queue {ahead : Int} (ha : 0 ≤ ahead) {l : List Callout} {p : Callout} (hp : p ∈ l) :
    ∃ d ∈ queue ahead l, p.c_time ≤ d.1 := by
  induction l generalizing ahead with
  | nil => cases hp
  | cons p2 rest ih =>
    rcases List.mem_cons.mp hp with rfl | hp
    · exact ⟨_, List.mem_cons_self .., by dsimp only; omega⟩
    · obtain ⟨d, hd, hle⟩ := @ih (ahead + max p2.c_time 0) (by omega) hp
      exact ⟨d, List.mem_cons_of_mem _ hd, hle⟩

/-- **The deltas never overflow when the queue is changed.** `untimeout` returns, and `timeout` does when an
    entry is free. -/
theorem callouts_return {hz : Int} {ncall : Nat} {s : Timers} (h : Reach hz ncall s) (f arg : Nat) :
    (∃ c, untimeout s.clock f arg = .ok c) ∧
    ∀ t, IsInt t → s.clock.callfree ≠ [] → ∃ c, timeout s.clock f arg t = .ok c := by
  obtain ⟨q, hinv⟩ := h.inv
  have hsmall : ∀ d ∈ queue 0 s.clock.calltodo, d.1 < 2 ^ 31 := by
    intro d hd
    rw [hinv.queue_eq] at hd
    have hdue := hinv.due d hd
    have hmade := hinv.made d hd
    unfold Call.deadline at hdue
    omega
  refine ⟨?_, fun t ht hfree => ?_⟩
  · obtain ⟨r, hr⟩ := untimeoutTodo_returns f arg (Int.le_refl 0) (hinv.queue_eq ▸ hinv.ordered) hsmall
    exact ⟨_, congrArg (Except.map _) hr⟩
  · unfold timeout
    cases hf : s.clock.callfree with
    | nil => exact absurd hf hfree
    | cons addr callfree =>
      have ht₀ : 0 < (if t ≤ 0 then 1 else t) := by split <;> omega
      have htm : (if t ≤ 0 then 1 else t) < 2 ^ 31 := by
        have := ht.2
        split <;> omega
      obtain ⟨l', hl'⟩ := timeoutTodo_returns ⟨addr, if t ≤ 0 then 1 else t, arg, f⟩ ht₀ htm
        (fun p hp => by
          obtain ⟨d, hd, hle⟩ := le_of_mem_queue (Int.le_refl 0) hp
          exact Int.lt_of_le_of_lt hle (hsmall d hd))
      exact ⟨_, congrArg (Except.map _) hl'⟩

end DiscoBSD.Clock
