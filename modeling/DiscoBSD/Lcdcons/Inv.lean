import DiscoBSD.Lcdcons.State
import Mathlib.Tactic.SplitIfs

/-!
# What every step of the panel's protocol keeps

One activation at most has the flag, and it is below any renderer that found the flag held. **While nobody has it, the
ring is empty or an activation is about to ask for it**; and output that is queued has a renderer, or somebody who is
about to start one.
-/

set_option autoImplicit false

namespace DiscoBSD.Lcdcons

open DiscoBSD.Lib
open Function (update)

/-- A renderer that found the flag held is above its owner. -/
def Wants : List Act → Prop
  | [] => True
  | a :: below => (a = .renderWant → ∃ b ∈ below, b.holds = true) ∧ Wants below

namespace Cons

structure Owner (s : Cons) : Prop where
  one : s.stack.countP Act.holds = if s.lcd_owned then 1 else 0
  wants : Wants s.stack

structure Deferred (s : Cons) : Prop where
  head : s.defer_head < word
  tail : s.defer_tail < word
  lost : s.defer_lost < word
  room : ahead word s.defer_head s.defer_tail ≤ deferRing
  /-- What was put is what has been drawn, what is being drawn, the ring, and what has been dropped since. -/
  logs : s.wrapped = false → ∃ pre ds, s.puts = pre ++ s.queued ++ ds ∧ s.defer_lost = ds.length ∧
    Covers pre (s.drawn ++ s.stack.flatMap Act.hand)
  unowned : s.lcd_owned = false → s.queued = [] ∧ s.defer_lost = 0 ∨ .acquire ∈ s.stack

/-- A renderer is scheduled or runs. -/
def Rendering (s : Cons) : Prop := s.scheduled ∨ ∃ a ∈ s.stack, a.renders = true

structure Output (s : Cons) : Prop where
  busy : s.busy = true → s.Rendering
  queue : s.t_outq ≠ [] → s.ttstop = true ∨ s.Rendering ∨ ∃ a ∈ s.stack, a.writes = true
  closed : s.isopen = false → s.t_outq = [] ∧ ∀ a ∈ s.stack, a.writes = false

structure Inv (s : Cons) : Prop where
  owner : s.Owner
  deferred : s.Deferred
  output : s.Output

variable {s s' : Cons} {a : Act} {below : List Act}

/-! ## The flag -/

/-- The flag is with the activation on top, or with one below it. -/
theorem Owner.count (h : s.Owner) (hs : s.stack = a :: below) :
    below.countP Act.holds + (if a.holds then 1 else 0) = if s.lcd_owned then 1 else 0 := by
  rw [← h.one, hs, List.countP_cons]

/-- The activation on top goes on without taking the flag or giving it up. -/
theorem Owner.goes (h : s.Owner) (hs : s.stack = a :: below) {a' : Act} (hs' : s'.stack = a' :: below)
    (hholds : a'.holds = a.holds) (hwant : a' ≠ .renderWant) (howned : s'.lcd_owned = s.lcd_owned) : s'.Owner := by
  have hwants := h.wants
  rw [hs] at hwants
  constructor
  · rw [hs', List.countP_cons, hholds, howned]
    exact h.count hs
  · rw [hs']
    exact ⟨fun hw => absurd hw hwant, hwants.2⟩

/-- It returns, and did not have the flag. -/
theorem Owner.returns (h : s.Owner) (hs : s.stack = a :: below) (hholds : a.holds = false)
    (hs' : s'.stack = below) (howned : s'.lcd_owned = s.lcd_owned) : s'.Owner := by
  have hwants := h.wants
  have hone := h.count hs
  rw [hs] at hwants
  rw [hholds, if_neg Bool.false_ne_true, Nat.add_zero] at hone
  constructor
  · rw [hs', howned]
    exact hone
  · rw [hs']
    exact hwants.2

/-- It takes the flag. -/
theorem Owner.takes (h : s.Owner) (hs : s.stack = a :: below) (hholds : a.holds = false) (hfree : s.lcd_owned = false)
    {a' : Act} (hs' : s'.stack = a' :: below) (hholds' : a'.holds = true) (hwant : a' ≠ .renderWant)
    (howned : s'.lcd_owned = true) : s'.Owner := by
  have hwants := h.wants
  have hone := h.count hs
  rw [hs] at hwants
  rw [hholds, if_neg Bool.false_ne_true, Nat.add_zero, hfree] at hone
  constructor
  · rw [hs', List.countP_cons, hone, hholds', howned]
    rfl
  · rw [hs']
    exact ⟨fun hw => absurd hw hwant, hwants.2⟩

/-- It gives the flag up. -/
theorem Owner.gives (h : s.Owner) (hs : s.stack = a :: below) (hholds : a.holds = true)
    {a' : Act} (hs' : s'.stack = a' :: below) (hholds' : a'.holds = false) (hwant : a' ≠ .renderWant)
    (howned : s'.lcd_owned = false) : s'.Owner := by
  have hwants := h.wants
  have hone := h.count hs
  rw [hs] at hwants
  rw [hholds, if_pos rfl] at hone
  constructor
  · rw [hs', List.countP_cons, hholds', howned]
    by_cases howner : s.lcd_owned = true
    · rw [if_pos howner] at hone
      simp only [Bool.false_eq_true, if_false]
      omega
    · rw [if_neg howner] at hone
      omega
  · rw [hs']
    exact ⟨fun hw => absurd hw hwant, hwants.2⟩

/-- A new activation comes in on top. -/
theorem Owner.comes (h : s.Owner) (hholds : a.holds = false) (hwant : a ≠ .renderWant) (hs' : s'.stack = a :: s.stack)
    (howned : s'.lcd_owned = s.lcd_owned) : s'.Owner := by
  constructor
  · rw [hs', List.countP_cons, hholds, howned]
    exact h.one
  · rw [hs']
    exact ⟨fun hw => absurd hw hwant, h.wants⟩

theorem Owner.same (h : s.Owner) (hs' : s'.stack = s.stack) (howned : s'.lcd_owned = s.lcd_owned) : s'.Owner :=
  ⟨by rw [hs', howned]; exact h.one, by rw [hs']; exact h.wants⟩

/-- The flag is held by somebody below. -/
theorem Owner.held (h : s.Owner) (hs : s.stack = a :: below) (hholds : a.holds = false) (howned : s.lcd_owned = true) :
    ∃ b ∈ below, b.holds = true := by
  have hone := h.count hs
  rw [hholds, howned, if_neg Bool.false_ne_true, if_pos rfl, Nat.add_zero] at hone
  exact List.countP_pos_iff.mp (hone ▸ Nat.one_pos)

/-- Somebody below holds the flag. -/
theorem Owner.owned (h : s.Owner) {b : Act} (hb : b ∈ s.stack) (hholds : b.holds = true) : s.lcd_owned = true := by
  have hpos : 0 < s.stack.countP Act.holds := List.countP_pos_iff.mpr ⟨b, hb, hholds⟩
  rw [h.one] at hpos
  by_cases howned : s.lcd_owned = true
  · exact howned
  · rw [if_neg howned] at hpos
    exact absurd hpos (Nat.lt_irrefl 0)

/-! ## The ring -/

/-- All that is about the deferred bytes. -/
def ring (s : Cons) : (ℕ → Char) × (ℕ × ℕ × ℕ) × (List Char × List Char) × Bool :=
  (s.defer, (s.defer_head, s.defer_tail, s.defer_lost), (s.puts, s.drawn), s.wrapped)

theorem Deferred.keeps (h : s.Deferred) (hring : s'.ring = s.ring)
    (hhand : s'.stack.flatMap Act.hand = s.stack.flatMap Act.hand)
    (hfree : s'.lcd_owned = false → s.lcd_owned = false ∧ (.acquire ∈ s.stack → .acquire ∈ s'.stack) ∨
      s.queued = [] ∧ s.defer_lost = 0) : s'.Deferred := by
  simp only [ring, Prod.mk.injEq] at hring
  obtain ⟨hdefer, ⟨hhead, htail, hlost⟩, ⟨hputs, hdrawn⟩, hwrapped⟩ := hring
  have hqueued : s'.queued = s.queued := by
    unfold queued
    rw [hdefer, hhead, htail]
  refine ⟨hhead ▸ h.head, htail ▸ h.tail, hlost ▸ h.lost, by rw [hhead, htail]; exact h.room, ?_, ?_⟩
  · rw [hputs, hdrawn, hwrapped, hqueued, hlost, hhand]
    exact h.logs
  · intro howned
    rw [hqueued, hlost]
    rcases hfree howned with ⟨hfree, hacquire⟩ | hempty
    · exact (h.unowned hfree).imp_right hacquire
    · exact .inl hempty

theorem defer_put_frame (s : Cons) (c : Char) :
    (s.defer_put c).stack = s.stack ∧ (s.defer_put c).lcd_owned = s.lcd_owned ∧ (s.defer_put c).drawn = s.drawn ∧
      (s.defer_put c).puts = s.puts ++ [c] := by
  unfold defer_put
  dsimp only
  split <;> exact ⟨rfl, rfl, rfl, rfl⟩

/-- A byte goes into the ring, or is dropped. -/
theorem Deferred.put (h : s.Deferred) (c : Char) (hs : s.stack = .putc c :: below) :
    Deferred { s.defer_put c with stack := .acquire :: below } := by
  have hhand : (Act.acquire :: below).flatMap Act.hand = s.stack.flatMap Act.hand := by
    rw [hs]
    rfl
  unfold defer_put
  dsimp only
  by_cases hroom : s.defer_lost = 0 ∧ ahead word s.defer_head s.defer_tail < deferRing
  · rw [if_pos hroom]
    have hlt : ahead word s.defer_head s.defer_tail + 1 < word := Nat.lt_trans (Nat.succ_lt_succ hroom.2) deferRing_succ_lt
    have hahead := ahead_put h.head h.tail hlt
    have hmod : s.defer_head % deferRing = (s.defer_tail + ahead word s.defer_head s.defer_tail) % deferRing := by
      rw [← Nat.mod_mod_of_dvd (s.defer_tail + _) deferRing_dvd, add_ahead h.head h.tail]
    refine ⟨Nat.mod_lt _ word_pos, h.tail, h.lost, ?_, ?_, fun _ => .inr (List.mem_cons_self ..)⟩
    · dsimp only
      rw [hahead]
      exact hroom.2
    · intro hwrapped
      obtain ⟨pre, ds, hputs, hlost, hcovers⟩ := h.logs hwrapped
      have hds : ds = [] := List.length_eq_zero_iff.mp (hlost.symm.trans hroom.1)
      subst hds
      refine ⟨pre, [], ?_, hlost, by rw [hhand]; exact hcovers⟩
      unfold queued
      dsimp only
      rw [hputs, hahead, hmod, ringCells_put hroom.2, List.append_nil, List.append_nil, List.append_assoc]
      rfl
  · rw [if_neg hroom]
    refine ⟨h.head, h.tail, Nat.mod_lt _ word_pos, h.room, ?_, fun _ => .inr (List.mem_cons_self ..)⟩
    intro hwrapped
    simp only [Bool.or_eq_false_iff, decide_eq_false_iff_not] at hwrapped
    obtain ⟨pre, ds, hputs, hlost, hcovers⟩ := h.logs hwrapped.1
    refine ⟨pre, ds ++ [c], ?_, ?_, by rw [hhand]; exact hcovers⟩
    · show s.puts ++ [c] = pre ++ s.queued ++ (ds ++ [c])
      rw [hputs, List.append_assoc]
    · have hnext : s.defer_lost + 1 < word := by
        refine Nat.lt_of_le_of_ne h.lost fun heq => hwrapped.2 ?_
        rw [heq, Nat.mod_self]
      dsimp only
      rw [Nat.mod_eq_of_lt hnext, hlost, List.length_append, List.length_singleton]

/-- What is in hand is with the owner. -/
theorem Owner.hand (h : s.Owner) (hs : s.stack = a :: below) (hholds : a.holds = true) :
    below.flatMap Act.hand = [] := by
  have hone := h.count hs
  rw [hholds, if_pos rfl] at hone
  have hzero : below.countP Act.holds = 0 := by
    by_cases howned : s.lcd_owned = true
    · rw [if_pos howned] at hone
      omega
    · rw [if_neg howned] at hone
      omega
  refine List.flatMap_eq_nil_iff.mpr fun b hb => ?_
  have hb' := List.countP_eq_zero.mp hzero b hb
  cases b with
  | releaseDraw => exact absurd rfl hb'
  | _ => rfl

/-- The first byte of the ring is taken. -/
theorem Deferred.take (h : s.Deferred) {who : Who} {cursor_drawn : Bool} (hs : s.stack = .release who cursor_drawn :: below)
    (hbelow : below.flatMap Act.hand = []) (howned : s.lcd_owned = true) (hmore : s.defer_tail ≠ s.defer_head) :
    Deferred { s with
      defer_tail := (s.defer_tail + 1) % word
      stack := .releaseDraw who (s.defer (s.defer_tail % deferRing)) [] :: below } := by
  have hpos : 1 ≤ ahead word s.defer_head s.defer_tail :=
    Nat.one_le_iff_ne_zero.mpr (mt (ahead_eq_zero h.head h.tail).mp hmore)
  have hahead := ahead_drop h.head h.tail hpos
  have hqueued : s.queued = s.defer (s.defer_tail % deferRing) ::
      ringCells deferRing s.defer ((s.defer_tail + 1) % word) (ahead word s.defer_head s.defer_tail - 1) := by
    unfold queued
    obtain ⟨n, hn⟩ := Nat.exists_eq_add_of_le' hpos
    rw [hn, ringCells_mod deferRing_dvd, ringCells, Nat.add_sub_cancel]
  have hlt : (s.defer_tail + 1) % word < word := Nat.mod_lt _ word_pos
  generalize (s.defer_tail + 1) % word = next at hahead hqueued hlt ⊢
  refine ⟨h.head, hlt, h.lost, ?_, ?_, fun hfree => absurd howned (by rw [hfree]; decide)⟩
  · dsimp only
    rw [hahead]
    exact Nat.le_trans (Nat.sub_le _ _) h.room
  · intro hwrapped
    obtain ⟨pre, ds, hputs, hlost, hcovers⟩ := h.logs hwrapped
    refine ⟨pre ++ [s.defer (s.defer_tail % deferRing)], ds, ?_, hlost, ?_⟩
    · unfold queued
      dsimp only
      rw [hahead, hputs, hqueued]
      exact congrArg (· ++ ds) (List.append_cons ..)
    · rw [hs, List.flatMap_cons, hbelow] at hcovers
      rw [List.flatMap_cons, hbelow]
      simp only [Act.hand, List.append_nil] at hcovers ⊢
      exact hcovers.byte _

/-- The ring is empty where the counters meet. -/
theorem queued_eq_nil (hhead : s.defer_head < word) (htail : s.defer_tail < word) (hmeet : s.defer_tail = s.defer_head) :
    s.queued = [] := by
  unfold queued
  rw [(ahead_eq_zero hhead htail).mpr hmeet]
  rfl

/-- The marker stands for what has been dropped. -/
theorem Deferred.mark (h : s.Deferred) {who : Who} {cursor_drawn : Bool} (hs : s.stack = .release who cursor_drawn :: below)
    (hbelow : below.flatMap Act.hand = []) (howned : s.lcd_owned = true) (hempty : s.defer_tail = s.defer_head)
    (hlost : s.defer_lost ≠ 0) :
    Deferred { s with
      defer_lost := 0, stack := .releaseDraw who (lostMarker.headD ' ') lostMarker.tail :: below } := by
  have hqueued : s.queued = [] := queued_eq_nil h.head h.tail hempty
  refine ⟨h.head, h.tail, word_pos, h.room, ?_, fun hfree => absurd howned (by rw [hfree]; decide)⟩
  intro hwrapped
  obtain ⟨pre, ds, hputs, hds, hcovers⟩ := h.logs hwrapped
  refine ⟨pre ++ ds, [], ?_, rfl, ?_⟩
  · show s.puts = pre ++ ds ++ s.queued ++ []
    rw [hputs, hqueued, List.append_nil, List.append_nil, List.append_nil]
  · have hsome : ds ≠ [] := fun hnil => hlost (by rw [hds, hnil]; rfl)
    rw [hs, List.flatMap_cons, hbelow] at hcovers
    rw [List.flatMap_cons, hbelow]
    simp only [Act.hand, List.append_nil] at hcovers ⊢
    exact hcovers.lost ds hsome

/-- A character has been drawn. -/
theorem Deferred.drew (h : s.Deferred) {who : Who} {c : Char} {rest : List Char}
    (hs : s.stack = .releaseDraw who c rest :: below) (howned : s.lcd_owned = true) {a' : Act} (hhand : a'.hand = rest) :
    Deferred { s with drawn := s.drawn ++ [c], stack := a' :: below } := by
  refine ⟨h.head, h.tail, h.lost, h.room, ?_, fun hfree => absurd howned (by rw [hfree]; decide)⟩
  intro hwrapped
  obtain ⟨pre, ds, hputs, hlost, hcovers⟩ := h.logs hwrapped
  refine ⟨pre, ds, hputs, hlost, ?_⟩
  rw [hs] at hcovers
  rw [List.flatMap_cons, hhand, List.append_assoc]
  exact hcovers

/-! ## The output queue -/

/-- All that is about the output. -/
def outputs (s : Cons) : List Char × (Bool × Bool × Bool) := (s.t_outq, s.busy, s.ttstop, s.isopen)

theorem Rendering.mono (h : s.Rendering) (hsched : s.scheduled → s'.Rendering)
    (hstack : ∀ a ∈ s.stack, a.renders = true → s'.Rendering) : s'.Rendering := by
  rcases h with h | ⟨a, ha, hrenders⟩
  · exact hsched h
  · exact hstack a ha hrenders

theorem Output.keeps (h : s.Output) (hqueue : s'.outputs = s.outputs) (hrendering : s.Rendering → s'.Rendering)
    (hwriters : ∀ a ∈ s.stack, a.writes = true → a ∈ s'.stack) (hnew : ∀ a ∈ s'.stack, a.writes = true → a ∈ s.stack ∨ s.isopen = true) :
    s'.Output := by
  simp only [outputs, Prod.mk.injEq] at hqueue
  obtain ⟨houtq, hbusy, hstop, hopen⟩ := hqueue
  refine ⟨?_, ?_, ?_⟩
  · rw [hbusy]
    exact fun hb => hrendering (h.busy hb)
  · rw [houtq, hstop]
    intro hne
    rcases h.queue hne with hst | hr | ⟨a, ha, hw⟩
    · exact .inl hst
    · exact .inr (.inl (hrendering hr))
    · exact .inr (.inr ⟨a, hwriters a ha hw, hw⟩)
  · rw [hopen, houtq]
    intro hclosed
    obtain ⟨hempty, hnone⟩ := h.closed hclosed
    refine ⟨hempty, fun a ha => ?_⟩
    cases hw : a.writes with
    | false => rfl
    | true =>
      rcases hnew a ha hw with hold | hop
      · exact hw.symm.trans (hnone a hold)
      · exact absurd hop (by rw [hclosed]; decide)

/-- `lcdstart` leaves output with a renderer, unless it is stopped. -/
theorem lcdstart_output (hbusy : s.busy = true → s.Rendering)
    (hclosed : s.isopen = false → s.t_outq = [] ∧ ∀ a ∈ s.stack, a.writes = false) : s.lcdstart.Output := by
  unfold lcdstart
  by_cases hskip : (s.busy || s.ttstop) = true
  · rw [if_pos hskip]
    refine ⟨hbusy, fun _ => ?_, hclosed⟩
    rcases Bool.or_eq_true_iff.mp hskip with hb | hst
    · exact .inr (.inl (hbusy hb))
    · exact .inl hst
  · rw [if_neg hskip]
    by_cases hempty : s.t_outq = []
    · rw [if_pos hempty]
      exact ⟨hbusy, fun hne => absurd hempty hne, hclosed⟩
    · rw [if_neg hempty]
      have hpended : Rendering { s with busy := true, pended := true } := .inl (.inl rfl)
      exact ⟨fun _ => hpended, fun _ => .inr (.inl hpended), hclosed⟩

theorem lcdstart_frame (s : Cons) :
    s.lcdstart.stack = s.stack ∧ s.lcdstart.lcd_owned = s.lcd_owned ∧ s.lcdstart.ring = s.ring := by
  unfold lcdstart
  split_ifs <;> exact ⟨rfl, rfl, rfl⟩

end Cons

end DiscoBSD.Lcdcons
