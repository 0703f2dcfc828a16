import DiscoBSD.Clock.Catchup

/-!
# Ticks handed back are ticks that were lost

SysTick and the timer as the header of `clock_catchup.h` and its test describe them: every `tick_us`
microseconds SysTick becomes pending, where it stays until the handler runs, and a handler that runs late
sets the record late. Real time is a number here and the timer shows its low 32 bits.

The bound over a run is carried by **the time of the record**: what was delivered and handed back so far
fits between the start and the record, so the periods after the record are still to be counted, and the
pending tick is one of those.
-/

set_option autoImplicit false

namespace DiscoBSD.Clock

open DiscoBSD.Lib

/-- A run of the clock: the time since `clkstart`, SysTick's pending bit, the record, the ticks delivered and
    handed back, and the spans of time that the catch-ups have counted, newest first. -/
structure Tally where
  elapsed : Nat
  pending : Bool
  cc : Catchup
  delivered : Nat
  owed : Nat
  counted : List (Nat × Nat)
  deriving DecidableEq, Repr

/-- What happens: time passes, the handler runs and sets the record `latency` later, or `clock_catchup` runs,
    with `gap` between its two readings. -/
inductive Event where
  | wait (usec : Nat)
  | tick (latency : Nat)
  | catchup (gap : Nat)
  deriving DecidableEq, Repr

/-- The timer, with `timer` at `clkstart`. -/
def Tally.now (timer : Nat) (s : Tally) : Nat := wrap 32 (timer + s.elapsed)

/-- `clkstart`. -/
def clkstart (timer : Nat) : Tally := ⟨0, false, ⟨wrap 32 timer, true⟩, 0, 0, []⟩

/-- Time passes, and SysTick becomes pending at the end of a period. -/
def Tally.wait (tick_us : Nat) (s : Tally) (usec : Nat) : Tally :=
  { s with
    elapsed := s.elapsed + usec
    pending := s.pending || decide (s.elapsed / tick_us < (s.elapsed + usec) / tick_us) }

/-- `clock_catchup_sample`. The span it counts is reckoned back from its reading of the timer. -/
def Tally.catchup (timer tick_us : Nat) (s : Tally) (gap : Nat) : Tally :=
  let now := s.now timer
  let s' := s.wait tick_us gap
  let (owed, cc) := clock_catchup_owed s.cc now s'.pending tick_us
  let start := s.elapsed - since now s.cc.stamp_us
  { s' with cc, owed := s.owed + owed, counted := (start, start + owed * tick_us) :: s.counted }

/-- The handler, if SysTick is pending. -/
def Tally.tick (timer tick_us : Nat) (s : Tally) (latency : Nat) : Tally :=
  if s.pending then
    let s := Tally.wait tick_us { s with pending := false, delivered := s.delivered + 1 } latency
    { s with cc := clock_catchup_tick s.cc (s.now timer) }
  else s

def Tally.step (timer tick_us : Nat) (s : Tally) : Event → Tally
  | .wait usec => s.wait tick_us usec
  | .tick latency => s.tick timer tick_us latency
  | .catchup gap => s.catchup timer tick_us gap

/-- The run of a list of events. -/
def Tally.run (timer tick_us : Nat) (events : List Event) : Tally :=
  events.foldl (Tally.step timer tick_us) (clkstart timer)

/-- What is known of a run, `stamp` being the real time of the record. -/
structure TallyInv (timer tick_us : Nat) (s : Tally) (stamp : Nat) : Prop where
  armed : s.cc.armed = true
  stamp_us : s.cc.stamp_us = wrap 32 (timer + stamp)
  stamp_le : stamp ≤ s.elapsed
  used : tick_us * (s.delivered + s.owed) ≤ stamp
  total : s.delivered + s.owed + s.pending.toNat ≤ s.elapsed / tick_us
  before : ∀ p ∈ s.counted, p.1 ≤ p.2 ∧ p.2 ≤ stamp
  apart : s.counted.Pairwise fun p q => q.2 ≤ p.1
  length : (s.counted.map fun p => p.2 - p.1).sum = s.owed * tick_us

section

variable {timer tick_us stamp : Nat} {s : Tally}

/-- The difference of two readings, from the times they were taken at. -/
theorem since_eq (timer : Nat) {stamp elapsed : Nat} (h : stamp ≤ elapsed) :
    since (wrap 32 (timer + elapsed)) (wrap 32 (timer + stamp)) = (elapsed - stamp) % 2 ^ 32 := by
  unfold since wrap
  omega

/-- The record the timer shows is a reading at the time the difference goes back to, and moves on as that does. -/
theorem reading_back (timer : Nat) {stamp elapsed d : Nat} (h : stamp ≤ elapsed)
    (hd : (elapsed - stamp) % 2 ^ 32 = d) (k : Nat) :
    wrap 32 (wrap 32 (timer + stamp) + k) = wrap 32 (timer + (elapsed - d + k)) := by
  unfold wrap
  lia

theorem TallyInv.wait (h : TallyInv timer tick_us s stamp) (usec : Nat) :
    TallyInv timer tick_us (s.wait tick_us usec) stamp := by
  have hmono : s.elapsed / tick_us ≤ (s.elapsed + usec) / tick_us := Nat.div_le_div_right (by lia)
  have htotal := h.total
  refine ⟨h.armed, h.stamp_us, ?_, h.used, ?_, h.before, h.apart, h.length⟩
  · exact Nat.le_trans h.stamp_le (Nat.le_add_right _ _)
  · show s.delivered + s.owed +
      (s.pending || decide (s.elapsed / tick_us < (s.elapsed + usec) / tick_us)).toNat ≤
        (s.elapsed + usec) / tick_us
    cases hp : s.pending with
    | true =>
      rw [hp] at htotal
      exact Nat.le_trans htotal hmono
    | false =>
      rw [hp] at htotal
      simp only [Bool.toNat_false, Bool.false_or] at htotal ⊢
      by_cases hlt : s.elapsed / tick_us < (s.elapsed + usec) / tick_us
      · rw [decide_eq_true hlt, Bool.toNat_true]
        lia
      · rw [decide_eq_false hlt, Bool.toNat_false]
        lia

theorem TallyInv.tick (h : TallyInv timer tick_us s stamp) (latency : Nat) :
    ∃ stamp', TallyInv timer tick_us (s.tick timer tick_us latency) stamp' := by
  unfold Tally.tick
  cases hp : s.pending with
  | false =>
    simp only [Bool.false_eq_true, if_false]
    exact ⟨stamp, h⟩
  | true =>
    simp only [if_true]
    have htotal := h.total
    rw [hp, Bool.toNat_true] at htotal
    -- The pending tick becomes a delivered one, and then the record is set.
    have hused : tick_us * (s.delivered + 1 + s.owed) ≤ s.elapsed := by
      refine Nat.le_trans ?_ (Nat.mul_div_le s.elapsed tick_us)
      exact Nat.mul_le_mul_left _ (by lia)
    have h₁ : TallyInv timer tick_us { s with
        pending := false, delivered := s.delivered + 1
        cc := clock_catchup_tick s.cc (s.now timer) } s.elapsed :=
      ⟨h.armed, rfl, Nat.le_refl _, hused, by simp only [Bool.toNat_false]; lia,
        fun p hm => ⟨(h.before p hm).1, Nat.le_trans (h.before p hm).2 h.stamp_le⟩, h.apart,
        h.length⟩
    have h₂ := h₁.wait latency
    exact ⟨s.elapsed + latency, h₂.armed, rfl, Nat.le_refl _,
      Nat.le_trans h₂.used (Nat.le_add_right _ _), h₂.total,
      fun p hm => ⟨(h₂.before p hm).1, Nat.le_trans (h₂.before p hm).2 (Nat.le_add_right _ _)⟩, h₂.apart,
      h₂.length⟩

/-- What `clock_catchup_owed` hands back, and the record it leaves. -/
theorem owed_eq {c : Catchup} (ha : c.armed = true) (now_us : Nat) (held : Bool) (tick_us : Nat) :
    clock_catchup_owed c now_us held tick_us =
      (since now_us c.stamp_us / tick_us - held.toNat,
        { c with stamp_us := wrap 32 (c.stamp_us +
            (since now_us c.stamp_us / tick_us - held.toNat) * tick_us) }) := by
  have hlt : since now_us c.stamp_us < 2 ^ 32 := wrap_lt 32 _
  have hsub : ∀ due : Nat, (if (if held = true then 1 else 0) < due then
      due - (if held = true then 1 else 0) else 0) = due - held.toNat := by
    intro due
    cases held <;> simp only [if_true, Bool.false_eq_true, if_false, Bool.toNat_true, Bool.toNat_false] <;>
      split <;> lia
  have hfit : (since now_us c.stamp_us / tick_us - held.toNat) * tick_us < 2 ^ 32 := by
    refine Nat.lt_of_le_of_lt ?_ hlt
    exact Nat.le_trans (Nat.mul_le_mul_right _ (Nat.sub_le _ _)) (Nat.div_mul_le_self _ _)
  unfold clock_catchup_owed
  rw [if_neg (by rw [ha]; decide)]
  simp only [hsub, wrap_of_lt hfit]

theorem TallyInv.catchup (h : TallyInv timer tick_us s stamp) (gap : Nat) :
    ∃ stamp', TallyInv timer tick_us (s.catchup timer tick_us gap) stamp' := by
  have hle := h.stamp_le
  have hw := h.wait gap
  have hdiff : since (s.now timer) s.cc.stamp_us = (s.elapsed - stamp) % 2 ^ 32 := by
    rw [h.stamp_us]
    exact since_eq timer hle
  have hdle : (s.elapsed - stamp) % 2 ^ 32 ≤ s.elapsed - stamp := Nat.mod_le _ _
  -- The record the timer shows may be a multiple of its period too late, which loses time.
  generalize hd : (s.elapsed - stamp) % 2 ^ 32 = d at hdiff hdle
  have hback : ∀ k, wrap 32 (s.cc.stamp_us + k) = wrap 32 (timer + (s.elapsed - d + k)) := by
    rw [h.stamp_us]
    exact reading_back timer hle hd
  have hdue : d / tick_us * tick_us ≤ d := Nat.div_mul_le_self _ _
  generalize hheld : (s.wait tick_us gap).pending = held
  generalize hq : d / tick_us = due at hdue
  generalize hk : due - held.toNat = k
  have hkd : k * tick_us ≤ d := by
    refine Nat.le_trans (Nat.mul_le_mul_right _ ?_) hdue
    lia
  have hstep : s.catchup timer tick_us gap =
      { s.wait tick_us gap with
        cc := { s.cc with stamp_us := wrap 32 (s.cc.stamp_us + k * tick_us) }
        owed := s.owed + k
        counted := (s.elapsed - d, s.elapsed - d + k * tick_us) :: s.counted } := by
    simp only [Tally.catchup, owed_eq h.armed, hdiff, hheld, hq, hk]
  rw [hstep]
  have hused := h.used
  refine ⟨s.elapsed - d + k * tick_us, h.armed, ?_, ?_, ?_, ?_, ?_, ?_, ?_⟩
  · exact hback _
  · show s.elapsed - d + k * tick_us ≤ s.elapsed + gap
    lia
  · show tick_us * (s.delivered + (s.owed + k)) ≤ _
    rw [← Nat.add_assoc, Nat.mul_add, Nat.mul_comm tick_us k]
    lia
  · show s.delivered + (s.owed + k) + (s.wait tick_us gap).pending.toNat ≤ (s.elapsed + gap) / tick_us
    rw [hheld]
    have htotal := hw.total
    rw [hheld] at htotal
    by_cases hzero : k = 0
    · subst hzero
      exact htotal
    · -- The pending tick is one of the periods after the record.
      have hsum : s.delivered + (s.owed + k) + held.toNat = s.delivered + s.owed + due := by lia
      rw [hsum]
      have hpos : 0 < tick_us := by
        rcases Nat.eq_zero_or_pos tick_us with h0 | h0
        · rw [h0, Nat.div_zero] at hq
          lia
        · exact h0
      rw [Nat.le_div_iff_mul_le hpos, Nat.add_mul, Nat.mul_comm _ tick_us]
      lia
  · intro p hp
    rcases List.mem_cons.mp hp with rfl | hp
    · exact ⟨Nat.le_add_right _ _, Nat.le_refl _⟩
    · obtain ⟨h₁, h₂⟩ := h.before p hp
      exact ⟨h₁, by lia⟩
  · refine List.pairwise_cons.mpr ⟨fun p hp => ?_, h.apart⟩
    have h₂ := (h.before p hp).2
    show p.2 ≤ s.elapsed - d
    lia
  · simp only [List.map_cons, List.sum_cons, h.length, Nat.add_sub_cancel_left, Nat.add_mul]
    lia

theorem TallyInv.step (h : TallyInv timer tick_us s stamp) (e : Event) :
    ∃ stamp', TallyInv timer tick_us (s.step timer tick_us e) stamp' := by
  cases e with
  | wait usec => exact ⟨stamp, h.wait usec⟩
  | tick latency => exact h.tick latency
  | catchup gap => exact h.catchup gap

end

theorem run_inv (timer tick_us : Nat) (events : List Event) :
    ∃ stamp, TallyInv timer tick_us (Tally.run timer tick_us events) stamp := by
  have hstart : TallyInv timer tick_us (clkstart timer) 0 :=
    ⟨rfl, rfl, Nat.le_refl 0, Nat.le_refl _, Nat.zero_le _, fun _ h => absurd h (by simp [clkstart]),
      List.Pairwise.nil, (Nat.zero_mul _).symm⟩
  have hfold : ∀ (s : Tally) (stamp : Nat), TallyInv timer tick_us s stamp →
      ∃ stamp', TallyInv timer tick_us (events.foldl (Tally.step timer tick_us) s) stamp' := by
    induction events with
    | nil => exact fun s stamp h => ⟨stamp, h⟩
    | cons e events ih =>
      intro s stamp h
      obtain ⟨stamp', h'⟩ := h.step e
      exact ih _ _ h'
  exact hfold _ _ hstart

/-- A call that hands back ticks moves the record by as many periods. What is left of a period stays between
    the record and the timer, and so does the pending tick. -/
theorem catchup_carries {timer tick_us stamp : Nat} {s : Tally} (h : TallyInv timer tick_us s stamp)
    (htick : 0 < tick_us) (gap : Nat) {s' : Tally} (hs : s.catchup timer tick_us gap = s') :
    since (s.now timer) s.cc.stamp_us =
      (s'.owed - s.owed) * tick_us + since (s.now timer) s'.cc.stamp_us ∧
    since (s.now timer) s'.cc.stamp_us < tick_us * (1 + s'.pending.toNat) := by
  subst hs
  have hdiff : since (s.now timer) s.cc.stamp_us = (s.elapsed - stamp) % 2 ^ 32 := by
    rw [h.stamp_us]
    exact since_eq timer h.stamp_le
  have hlt : (s.elapsed - stamp) % 2 ^ 32 < 2 ^ 32 := Nat.mod_lt _ (by decide)
  have hdle : (s.elapsed - stamp) % 2 ^ 32 ≤ s.elapsed - stamp := Nat.mod_le _ _
  generalize hd : (s.elapsed - stamp) % 2 ^ 32 = d at hdiff hdle hlt
  generalize hheld : (s.wait tick_us gap).pending = held
  have hk : (s.catchup timer tick_us gap).owed - s.owed = d / tick_us - held.toNat ∧
      (s.catchup timer tick_us gap).cc.stamp_us =
        wrap 32 (timer + (s.elapsed - d + (d / tick_us - held.toNat) * tick_us)) ∧
      (s.catchup timer tick_us gap).pending = held := by
    have hback : wrap 32 (s.cc.stamp_us + (d / tick_us - held.toNat) * tick_us) =
        wrap 32 (timer + (s.elapsed - d + (d / tick_us - held.toNat) * tick_us)) := by
      rw [h.stamp_us]
      exact reading_back timer h.stamp_le hd _
    simp only [Tally.catchup, owed_eq h.armed, hdiff, hheld, hback, Nat.add_sub_cancel_left, and_self]
  obtain ⟨hk, hstamp, hpending⟩ := hk
  clear hd
  have hdiv := Nat.div_add_mod d tick_us
  have hmod := Nat.mod_lt d htick
  rw [Nat.mul_comm] at hdiv
  generalize d / tick_us = due at hdiv hk hstamp
  have hkd : (due - held.toNat) * tick_us ≤ due * tick_us := Nat.mul_le_mul_right _ (Nat.sub_le _ _)
  have hafter : since (s.now timer) (s.catchup timer tick_us gap).cc.stamp_us =
      d - (due - held.toNat) * tick_us := by
    have hle : s.elapsed - d + (due - held.toNat) * tick_us ≤ s.elapsed := by lia
    rw [hstamp]
    refine (since_eq timer hle).trans ?_
    rw [Nat.mod_eq_of_lt (by lia)]
    lia
  rw [hk, hpending, hdiff, hafter]
  clear hk hstamp hafter hdiff
  refine ⟨(Nat.add_sub_cancel' (by lia)).symm, ?_⟩
  cases held with
  | false =>
    simp only [Bool.toNat_false, Nat.sub_zero, Nat.add_zero, Nat.mul_one]
    lia
  | true =>
    simp only [Bool.toNat_true, Nat.mul_add, Nat.mul_one]
    cases due with
    | zero => lia
    | succ due =>
      rw [Nat.add_sub_cancel]
      rw [Nat.add_mul, Nat.one_mul] at hdiv
      lia

/-- **No tick is counted twice, and no time below a period is lost.** Over every run from `clkstart`, what was
    delivered and handed back is at most the periods that have gone by; the spans that the catch-ups counted
    lie apart in the past and are as many periods as were handed back; and each call leaves the rest of its
    last period, and the period of a pending tick, to the calls after it. -/
theorem catchup_never_invents (timer : Nat) {tick_us : Nat} (htick : 0 < tick_us) (events : List Event) :
    let s := Tally.run timer tick_us events
    s.delivered + s.owed ≤ s.elapsed / tick_us ∧
    (s.counted.Pairwise (fun p q => q.2 ≤ p.1) ∧ (∀ p ∈ s.counted, p.1 ≤ p.2 ∧ p.2 ≤ s.elapsed) ∧
      (s.counted.map fun p => p.2 - p.1).sum = s.owed * tick_us) ∧
    ∀ gap, let s' := s.catchup timer tick_us gap
      since (s.now timer) s.cc.stamp_us =
        (s'.owed - s.owed) * tick_us + since (s.now timer) s'.cc.stamp_us ∧
      since (s.now timer) s'.cc.stamp_us < tick_us * (1 + s'.pending.toNat) := by
  obtain ⟨stamp, h⟩ := run_inv timer tick_us events
  have htotal := h.total
  refine ⟨by lia, ⟨h.apart, fun p hp => ?_, h.length⟩, fun gap => catchup_carries h htick gap rfl⟩
  exact ⟨(h.before p hp).1, Nat.le_trans (h.before p hp).2 h.stamp_le⟩

/-- A late handler, two catch-ups in a row over the wrap of the timer, and the pending tick: 45 periods. -/
theorem catchup_never_invents_wrap :
    (Tally.run (2 ^ 32 - 5000) 1000 [.wait 1000, .tick 300, .wait 43000, .catchup 0, .wait 900, .catchup 0,
      .tick 0]).owed + 2 ≤ 45 := by
  have h := (@catchup_never_invents (2 ^ 32 - 5000) 1000 (by decide)
    [.wait 1000, .tick 300, .wait 43000, .catchup 0, .wait 900, .catchup 0, .tick 0]).1
  have hd : (Tally.run (2 ^ 32 - 5000) 1000 [.wait 1000, .tick 300, .wait 43000, .catchup 0, .wait 900,
      .catchup 0, .tick 0]).delivered = 2 := by decide
  have he : (Tally.run (2 ^ 32 - 5000) 1000 [.wait 1000, .tick 300, .wait 43000, .catchup 0, .wait 900,
      .catchup 0, .tick 0]).elapsed / 1000 = 45 := by decide
  lia

end DiscoBSD.Clock
