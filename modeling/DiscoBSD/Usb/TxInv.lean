import DiscoBSD.Usb.Tx

/-!
# Every byte once

The bulk IN endpoint is idle, or its packet is held back, armed, or gone. **The toggle says which side has the packet**:
it is on its way exactly while the host expects the toggle that it carries.
-/

set_option autoImplicit false

namespace DiscoBSD.Usb

open DiscoBSD.Lib
open Function (update)

namespace Tx

/-- The ring and its counters. -/
structure Counters (s : Tx) : Prop where
  head : s.tx_head < word
  tail : s.tx_tail < word
  room : ahead word s.tx_head s.tx_tail ≤ usbTxring

/-- What has become of the last packet. -/
inductive Phase (s : Tx) : Prop
  | idle (busy : s.tx_busy = false) (pending : s.tx_pending = false) (avail : s.ctrl.avail = false)
      (status : s.buff_status = false) (pid : s.host.data1 = s.data_in_pid) (pc : s.pc.frees = false)
  | held (busy : s.tx_busy = true) (pending : s.tx_pending = true) (avail : s.ctrl.avail = false)
      (status : s.buff_status = false) (data1 : s.tx_pending_ctrl.data1 = s.host.data1)
      (pid : s.data_in_pid = !s.tx_pending_ctrl.data1) (pc : s.pc.frees = false)
  | armed (busy : s.tx_busy = true) (pending : s.tx_pending = false) (avail : s.ctrl.avail = true)
      (status : s.buff_status = false) (pid : s.data_in_pid = !s.ctrl.data1) (pc : s.pc.frees = false)
  | gone (busy : s.tx_busy = true) (pending : s.tx_pending = false) (avail : s.ctrl.avail = false)
      (pid : s.host.data1 = s.data_in_pid) (pc : s.pc = .done → s.buff_status = false)

structure Inv (s : Tx) : Prop where
  counters : s.Counters
  line : Line usbTxring s.puts (s.host.received ++ s.flight) s.queued
  owned : s.clobbered = false
  deferred : s.deferred = if s.tx_pending then 1 else 0
  phase : s.Phase

variable {s s' : Tx}

/-- All that is about the last packet. -/
def last (s : Tx) : (Bool × Bool × BufCtrl) × (Bool × BufCtrl × Bool) × Bool × Pc :=
  ((s.tx_busy, s.tx_pending, s.tx_pending_ctrl), (s.data_in_pid, s.ctrl, s.buff_status), s.host.data1, s.pc)

theorem Phase.congr (h : s.Phase) (hlast : s'.last = s.last) : s'.Phase := by
  simp only [last, Prod.mk.injEq] at hlast
  obtain ⟨⟨hb, hp, hpc⟩, ⟨hd, hc, hs⟩, ht, hpos⟩ := hlast
  cases h with
  | idle busy pending avail status pid pc =>
    exact .idle (hb.trans busy) (hp.trans pending) (by rw [hc, avail]) (hs.trans status) (by rw [ht, hd, pid])
      (by rw [hpos, pc])
  | held busy pending avail status data1 pid pc =>
    exact .held (hb.trans busy) (hp.trans pending) (by rw [hc, avail]) (hs.trans status) (by rw [hpc, ht, data1])
      (by rw [hd, hpc, pid]) (by rw [hpos, pc])
  | armed busy pending avail status pid pc =>
    exact .armed (hb.trans busy) (hp.trans pending) (by rw [hc, avail]) (hs.trans status) (by rw [hd, hc, pid])
      (by rw [hpos, pc])
  | gone busy pending avail pid pc =>
    exact .gone (hb.trans busy) (hp.trans pending) (by rw [hc, avail]) (by rw [ht, hd, pid])
      (by rw [hpos, hs]; exact pc)

/-- The service goes on to a place where it does not free the buffer. -/
theorem Phase.moves (h : s.Phase) (pc : Pc) (hpc : pc.frees = false) : Phase { s with pc := pc } := by
  cases h with
  | idle busy pending avail status pid _ => exact .idle busy pending avail status pid hpc
  | held busy pending avail status data1 pid _ => exact .held busy pending avail status data1 pid hpc
  | armed busy pending avail status pid _ => exact .armed busy pending avail status pid hpc
  | gone busy pending avail pid _ =>
    refine .gone busy pending avail pid fun hdone => ?_
    have hdone' : pc = .done := hdone
    rw [hdone'] at hpc
    contradiction

/-! ## The ring -/

/-- The oldest byte is dropped. -/
theorem Counters.drop (h : s.Counters) (hsome : 1 ≤ ahead word s.tx_head s.tx_tail) :
    Counters { s with tx_tail := (s.tx_tail + 1) % word } ∧
      s.queued = s.usb_tx_ring (s.tx_tail % usbTxring) :: queued { s with tx_tail := (s.tx_tail + 1) % word } ∧
      ahead word s.tx_head ((s.tx_tail + 1) % word) = ahead word s.tx_head s.tx_tail - 1 := by
  have hahead := ahead_drop h.head h.tail hsome
  refine ⟨⟨h.head, Nat.mod_lt _ word_pos, ?_⟩, ?_, hahead⟩
  · show ahead word s.tx_head ((s.tx_tail + 1) % word) ≤ usbTxring
    rw [hahead]
    exact Nat.le_trans (Nat.sub_le _ _) h.room
  · unfold queued
    show _ = _ :: ringCells usbTxring s.usb_tx_ring ((s.tx_tail + 1) % word)
      (ahead word s.tx_head ((s.tx_tail + 1) % word))
    rw [hahead, ringCells_mod usbTxring_dvd]
    obtain ⟨n, hn⟩ := Nat.exists_eq_add_of_le' hsome
    rw [hn, ringCells, Nat.add_sub_cancel]

/-- A byte is put behind the others. -/
theorem Counters.put (h : s.Counters) (hroom : ahead word s.tx_head s.tx_tail < usbTxring) (c : UInt8) :
    Counters { s with
      usb_tx_ring := update s.usb_tx_ring (s.tx_head % usbTxring) c
      tx_head := (s.tx_head + 1) % word
      puts := s.puts ++ [c] } ∧
    queued { s with
      usb_tx_ring := update s.usb_tx_ring (s.tx_head % usbTxring) c
      tx_head := (s.tx_head + 1) % word
      puts := s.puts ++ [c] } = s.queued ++ [c] := by
  have hlt : ahead word s.tx_head s.tx_tail + 1 < word :=
    Nat.lt_of_le_of_lt (Nat.succ_le_of_lt hroom) usbTxring_lt
  have hahead := ahead_put h.head h.tail hlt
  have hmod : s.tx_head % usbTxring = (s.tx_tail + ahead word s.tx_head s.tx_tail) % usbTxring := by
    rw [← Nat.mod_mod_of_dvd (s.tx_tail + _) usbTxring_dvd, add_ahead h.head h.tail]
  refine ⟨⟨Nat.mod_lt _ word_pos, h.tail, ?_⟩, ?_⟩
  · show ahead word ((s.tx_head + 1) % word) s.tx_tail ≤ usbTxring
    rw [hahead]
    exact hroom
  · unfold queued
    show ringCells usbTxring (update s.usb_tx_ring (s.tx_head % usbTxring) c) s.tx_tail
      (ahead word ((s.tx_head + 1) % word) s.tx_tail) = _
    rw [hahead, hmod, ringCells_put hroom]

@[simp] theorem queued_length (s : Tx) : s.queued.length = ahead word s.tx_head s.tx_tail := ringCells_length

theorem put_inv (h : s.Inv) (c : UInt8) : (s.usb_tx_put c).Inv := by
  obtain ⟨hcounters, hline, howned, hdeferred, hphase⟩ := h
  unfold usb_tx_put
  by_cases hfull : ahead word s.tx_head s.tx_tail ≥ usbTxring
  · rw [if_pos hfull]
    have hlen : ahead word s.tx_head s.tx_tail = usbTxring := Nat.le_antisymm hcounters.room hfull
    have hpos : 1 ≤ ahead word s.tx_head s.tx_tail := by
      rw [hlen]
      decide
    obtain ⟨hcounters', hqueued, hahead⟩ := hcounters.drop hpos
    have hroom : ahead word s.tx_head ((s.tx_tail + 1) % word) < usbTxring := by
      rw [hahead, hlen]
      decide
    obtain ⟨hcounters'', hput⟩ := hcounters'.put hroom c
    refine ⟨hcounters'', ?_, howned, hdeferred, hphase.congr rfl⟩
    rw [hqueued] at hline
    have hdrop := hline.drop c (by rw [← hqueued, queued_length, hlen])
    rw [← hput] at hdrop
    exact hdrop
  · rw [if_neg hfull]
    obtain ⟨hcounters', hput⟩ := hcounters.put (Nat.lt_of_not_le hfull) c
    refine ⟨hcounters', ?_, howned, hdeferred, hphase.congr rfl⟩
    have hline' := hline.put c (by rw [queued_length]; exact Nat.lt_of_not_le hfull)
    rw [← hput] at hline'
    exact hline'

/-! ## A packet is started -/

/-- The buffer holds the first bytes of the ring, and the ring the others. -/
theorem Counters.next (h : s.Counters) {n : ℕ} (hn : n ≤ ahead word s.tx_head s.tx_tail) :
    Counters { s with tx_tail := (s.tx_tail + n) % word } ∧
      s.queued = (List.range n).map (fun i => s.usb_tx_ring ((s.tx_tail + i) % word % usbTxring)) ++
        queued { s with tx_tail := (s.tx_tail + n) % word } := by
  have hahead := ahead_drop h.head h.tail hn
  refine ⟨⟨h.head, Nat.mod_lt _ word_pos, ?_⟩, ?_⟩
  · show ahead word s.tx_head ((s.tx_tail + n) % word) ≤ usbTxring
    rw [hahead]
    exact Nat.le_trans (Nat.sub_le _ _) h.room
  · have hcells : ∀ m, ringCells usbTxring s.usb_tx_ring s.tx_tail m =
        (List.range m).map fun i => s.usb_tx_ring ((s.tx_tail + i) % word % usbTxring) := by
      intro m
      induction m with
      | zero => rfl
      | succ m ih =>
        rw [ringCells_succ, List.range_succ, List.map_append, ih, List.map_singleton,
          Nat.mod_mod_of_dvd _ usbTxring_dvd]
    have hsplit := List.take_append_drop n s.queued
    unfold queued at hsplit ⊢
    rw [ringCells_take hn, ringCells_drop hn, hcells] at hsplit
    refine hsplit.symm.trans (congrArg (_ ++ ·) ?_)
    show _ = ringCells usbTxring s.usb_tx_ring ((s.tx_tail + n) % word) (ahead word s.tx_head ((s.tx_tail + n) % word))
    rw [hahead, ringCells_mod usbTxring_dvd]

theorem next_le (s : Tx) : s.next ≤ ahead word s.tx_head s.tx_tail := by
  unfold Tx.next
  split
  · next hbig => exact Nat.le_of_lt hbig
  · exact Nat.le_refl _

/-- What is read back of the buffer that was filled. -/
theorem map_filled {α : Type} (f g : ℕ → α) (n : ℕ) :
    (List.range n).map (fun i => if i < n then f i else g i) = (List.range n).map f :=
  List.map_congr_left fun _ hi => if_pos (List.mem_range.mp hi)

theorem flight_held (hpending : s.tx_pending = true) : s.flight = s.packet s.tx_pending_ctrl := if_pos hpending

theorem flight_armed (hpending : s.tx_pending = false) (havail : s.ctrl.avail = true)
    (hdata1 : s.ctrl.data1 = s.host.data1) : s.flight = s.packet s.ctrl := by
  unfold flight
  rw [hpending, if_neg Bool.false_ne_true, if_pos ⟨havail, hdata1⟩]

/-- The host has it already, or there is none. -/
theorem flight_nil (hpending : s.tx_pending = false) (hgone : s.ctrl.avail = true → s.ctrl.data1 ≠ s.host.data1) :
    s.flight = [] := by
  unfold flight
  rw [hpending, if_neg Bool.false_ne_true, if_neg fun hboth => hgone hboth.1 hboth.2]

/-- **A packet is started** only where the controller has none, or it is held back. -/
theorem Inv.kick_inv (h : s.Inv) (hpc : s.pc.frees = false) (critical : Bool) : (s.usb_tx_kick critical).Inv := by
  unfold usb_tx_kick
  by_cases hskip : (!s.configured || s.tx_busy || decide (s.tx_head = s.tx_tail)) = true
  · rw [if_pos hskip]
    exact h
  rw [if_neg hskip]
  have hbusy : s.tx_busy = false := by
    refine Bool.eq_false_iff.mpr fun hb => hskip ?_
    rw [hb, Bool.or_true, Bool.true_or]
  obtain ⟨hcounters, hline, howned, hdeferred, hphase⟩ := h
  obtain ⟨hcounters', hqueued⟩ := hcounters.next s.next_le
  cases hphase with
  | held busy => exact absurd (hbusy.symm.trans busy) nofun
  | armed busy => exact absurd (hbusy.symm.trans busy) nofun
  | gone busy => exact absurd (hbusy.symm.trans busy) nofun
  | idle _ pending avail status pid _ =>
    have hflight : s.flight = [] := flight_nil pending fun ha => absurd (avail.symm.trans ha) nofun
    rw [hflight, List.append_nil, hqueued] at hline
    have htaken := hline.take
    have hclobbered : (s.clobbered || s.ctrl.avail) = false := by
      rw [howned, avail]
      rfl
    dsimp only
    by_cases hcritical : critical = true
    · rw [if_pos hcritical]
      refine ⟨⟨hcounters'.head, hcounters'.tail, hcounters'.room⟩, ?_, hclobbered, ?_,
        .held rfl rfl avail status pid.symm rfl hpc⟩
      · rw [← map_filled _ s.buf_data_in] at htaken
        exact htaken
      · show s.deferred + 1 = 1
        rw [hdeferred, pending]
        rfl
    · rw [if_neg hcritical]
      refine ⟨⟨hcounters'.head, hcounters'.tail, hcounters'.room⟩, ?_, hclobbered, hdeferred,
        .armed rfl pending rfl status rfl hpc⟩
      rw [flight_armed]
      · rw [← map_filled _ s.buf_data_in] at htaken
        exact htaken
      · exact pending
      · rfl
      · exact pid.symm

/-- A start that was held back. -/
theorem Inv.release_inv (h : s.Inv) : s.usb_tx_release.Inv := by
  unfold usb_tx_release
  by_cases hskip : (!s.tx_pending) = true
  · rw [if_pos hskip]
    exact h
  rw [if_neg hskip]
  have hpending : s.tx_pending = true := by
    rwa [Bool.not_eq_true', Bool.not_eq_false] at hskip
  obtain ⟨hcounters, hline, howned, hdeferred, hphase⟩ := h
  cases hphase with
  | idle _ pending => exact absurd (hpending.symm.trans pending) nofun
  | armed _ pending => exact absurd (hpending.symm.trans pending) nofun
  | gone _ pending => exact absurd (hpending.symm.trans pending) nofun
  | held busy _ avail status data1 pid pc =>
    refine ⟨⟨hcounters.head, hcounters.tail, hcounters.room⟩, ?_, howned, ?_, .armed busy rfl rfl status pid pc⟩
    · rw [flight_held hpending] at hline
      rw [flight_armed]
      · exact hline
      · rfl
      · rfl
      · exact data1
    · show s.deferred - 1 = 0
      rw [hdeferred, hpending]
      rfl

/-! ## The controller and the service -/

/-- The host has the packet after this, now or already. -/
theorem heard_armed (hpending : s.tx_pending = false) (havail : s.ctrl.avail = true) :
    s.heard.data1 = (!s.ctrl.data1) ∧ s.heard.received = s.host.received ++ s.flight := by
  unfold heard
  by_cases hdata1 : s.ctrl.data1 = s.host.data1
  · rw [if_pos hdata1, flight_armed hpending havail hdata1, hdata1]
    exact ⟨rfl, rfl⟩
  · rw [if_neg hdata1, flight_nil hpending fun _ => hdata1, List.append_nil]
    exact ⟨Bool.eq_not.mpr (Ne.symm hdata1), rfl⟩

theorem send_inv (h : s.Inv) (havail : s.ctrl.avail = true) (acked : Bool) : (s.send acked).Inv := by
  obtain ⟨hcounters, hline, howned, hdeferred, hphase⟩ := h
  cases hphase with
  | idle _ _ avail => exact absurd (havail.symm.trans avail) nofun
  | held _ _ avail => exact absurd (havail.symm.trans avail) nofun
  | gone _ _ avail => exact absurd (havail.symm.trans avail) nofun
  | armed busy pending _ status pid pc =>
    obtain ⟨htoggle, hreceived⟩ := heard_armed pending havail
    rw [← hreceived, ← List.append_nil s.heard.received] at hline
    unfold send
    by_cases hacked : acked = true
    · rw [if_pos hacked]
      refine ⟨⟨hcounters.head, hcounters.tail, hcounters.room⟩, ?_, howned, hdeferred,
        .gone busy pending rfl (htoggle.trans pid.symm) fun hdone => ?_⟩
      · rw [flight_nil]
        · exact hline
        · exact pending
        · exact nofun
      · have hdone' : s.pc = .done := hdone
        rw [hdone'] at pc
        contradiction
    · rw [if_neg hacked]
      refine ⟨⟨hcounters.head, hcounters.tail, hcounters.room⟩, ?_, howned, hdeferred,
        .armed busy pending havail status pid pc⟩
      rw [flight_nil]
      · exact hline
      · exact pending
      · intro _ hsame
        have hsame' : s.ctrl.data1 = s.heard.data1 := hsame
        rw [htoggle] at hsame'
        exact absurd hsame'.symm (Bool.not_ne_self _)

/-- Nothing but the place in the service changes. -/
theorem Inv.moves (h : s.Inv) (pc : Pc) (hpc : pc.frees = false) : Inv { s with pc := pc } :=
  ⟨⟨h.counters.head, h.counters.tail, h.counters.room⟩, h.line, h.owned, h.deferred, h.phase.moves pc hpc⟩

/-- The packet is gone, and the buffer is free. -/
theorem free_inv (h : s.Inv) (hbusy : s.tx_busy = true) (hpending : s.tx_pending = false) (havail : s.ctrl.avail = false)
    (hstatus : s.buff_status = false) (pc : Pc) (hpc : pc.frees = false) :
    Inv { s with tx_busy := false, pc := pc } := by
  obtain ⟨hcounters, hline, howned, hdeferred, hphase⟩ := h
  refine ⟨⟨hcounters.head, hcounters.tail, hcounters.room⟩, hline, howned, hdeferred, ?_⟩
  cases hphase with
  | idle busy => exact absurd (hbusy.symm.trans busy) nofun
  | held _ pending => exact absurd (hpending.symm.trans pending) nofun
  | armed _ _ avail => exact absurd (havail.symm.trans avail) nofun
  | gone _ _ _ pid => exact .idle rfl hpending havail hstatus pid hpc

/-- `usb_tx_kick` does not look where the service is. -/
theorem kick_moves (critical : Bool) (s : Tx) (pc : Pc) :
    { s.usb_tx_kick critical with pc := pc } = usb_tx_kick critical { s with pc := pc } := by
  unfold usb_tx_kick
  by_cases hskip : (!s.configured || s.tx_busy || decide (s.tx_head = s.tx_tail)) = true
  · rw [if_pos hskip]
    exact (if_pos hskip).symm
  · rw [if_neg hskip]
    refine Eq.trans ?_ (if_neg hskip).symm
    cases critical <;> rfl

/-- A packet may be started on the way. -/
theorem kicked_inv {pc : Pc} (h : Inv { s with pc := pc }) (hpc : pc.frees = false) (critical : Bool) :
    Inv { s.usb_tx_kick critical with pc := pc } := by
  rw [kick_moves]
  exact h.kick_inv hpc critical

/-- A start may be released on the way. -/
theorem release_if_inv (h : s.Inv) (free : Bool) {pc : Pc} (hpc : pc.frees = false) :
    Inv { (if free then s.usb_tx_release else s) with pc := pc } := by
  cases free with
  | false => exact h.moves pc hpc
  | true => exact h.release_inv.moves pc hpc

/-- **A step of the service**, whatever the controller has done since the one before. -/
theorem service_inv (h : s.Inv) (seen : Seen) : (s.usb_service seen).Inv := by
  unfold usb_service
  cases hpc : s.pc with
  | out => exact h.moves _ rfl
  | sof sof buff =>
    refine release_if_inv h sof ?_
    cases buff <;> rfl
  | status =>
    have hlate : s.buff_status = false → (if s.buff_status = true then Pc.done else .late).frees = false := by
      intro hclear
      rw [hclear]
      rfl
    obtain ⟨hcounters, hline, howned, hdeferred, hphase⟩ := h
    refine ⟨⟨hcounters.head, hcounters.tail, hcounters.room⟩, hline, howned, hdeferred, ?_⟩
    cases hphase with
    | idle busy pending avail status pid _ =>
      exact .idle busy pending avail rfl pid (hlate status)
    | held busy pending avail status data1 pid _ =>
      exact .held busy pending avail rfl data1 pid (hlate status)
    | armed busy pending avail status pid _ =>
      exact .armed busy pending avail rfl pid (hlate status)
    | gone busy pending avail pid _ => exact .gone busy pending avail pid fun _ => rfl
  | done =>
    cases h.phase with
    | idle _ _ _ _ _ pc =>
      rw [hpc] at pc
      contradiction
    | held _ _ _ _ _ _ pc =>
      rw [hpc] at pc
      contradiction
    | armed _ _ _ _ _ pc =>
      rw [hpc] at pc
      contradiction
    | gone busy pending avail pid pc =>
      exact kicked_inv (free_inv h busy pending avail (pc hpc) .late rfl) rfl seen.critical
  | late => exact release_if_inv h _ rfl
  | kick => exact kicked_inv (h.moves .recover rfl) rfl seen.critical
  | recover =>
    dsimp only
    by_cases hskip : (!s.configured || !s.tx_busy || s.tx_pending) = true
    · rw [if_pos hskip]
      exact h.moves .out rfl
    rw [if_neg hskip]
    by_cases hidle : (!s.ctrl.avail && !s.ctrl.full) = true
    · rw [if_pos hidle]
      obtain ⟨hcounters, hline, howned, hdeferred, hphase⟩ := h
      refine ⟨⟨hcounters.head, hcounters.tail, hcounters.room⟩, hline, howned, hdeferred, ?_⟩
      cases hphase with
      | idle busy =>
        rw [busy, Bool.not_false, Bool.or_true, Bool.true_or] at hskip
        contradiction
      | held _ pending =>
        rw [pending, Bool.or_true] at hskip
        contradiction
      | armed _ _ avail =>
        rw [avail] at hidle
        contradiction
      | gone busy pending avail pid _ => exact .gone busy pending avail pid nofun
    · rw [if_neg hidle]
      exact h.moves .out rfl
  | recoverStatus =>
    dsimp only
    by_cases hstatus : s.buff_status = true
    · rw [if_pos hstatus]
      exact h.moves .out rfl
    · rw [if_neg hstatus]
      cases h.phase with
      | idle _ _ _ _ _ pc =>
        rw [hpc] at pc
        contradiction
      | held _ _ _ _ _ _ pc =>
        rw [hpc] at pc
        contradiction
      | armed _ _ _ _ _ pc =>
        rw [hpc] at pc
        contradiction
      | gone busy pending avail pid _ =>
        exact kicked_inv (free_inv h busy pending avail (Bool.eq_false_iff.mpr hstatus) .out rfl) rfl seen.critical

/-! ## All the steps -/

/-- A buffer is armed by a device that is configured only. -/
def Fresh (s : Tx) : Prop := s.tx_busy = true → s.configured = true

theorem Fresh.kick (h : s.Fresh) (critical : Bool) : (s.usb_tx_kick critical).Fresh := by
  unfold usb_tx_kick
  by_cases hskip : (!s.configured || s.tx_busy || decide (s.tx_head = s.tx_tail)) = true
  · rw [if_pos hskip]
    exact h
  · rw [if_neg hskip]
    have hconfigured : s.configured = true := by
      refine Bool.of_not_eq_false fun hc => hskip ?_
      rw [hc, Bool.not_false, Bool.true_or, Bool.true_or]
    cases critical <;> exact fun _ => hconfigured

theorem Fresh.release (h : s.Fresh) : s.usb_tx_release.Fresh := by
  unfold usb_tx_release
  by_cases hskip : (!s.tx_pending) = true
  · rw [if_pos hskip]
    exact h
  · rw [if_neg hskip]
    exact h

theorem Fresh.service (h : s.Fresh) (seen : Seen) : (s.usb_service seen).Fresh := by
  have hfree : ∀ pc, Fresh { s with tx_busy := false, pc := pc } := fun _ => nofun
  unfold usb_service
  cases s.pc with
  | out => exact h
  | status => exact h
  | sof sof buff =>
    cases sof with
    | false => exact h
    | true => exact h.release
  | done => exact (hfree _).kick seen.critical
  | late =>
    dsimp only
    by_cases hlate : (s.tx_pending && seen.late) = true
    · rw [if_pos hlate]
      exact h.release
    · rw [if_neg hlate]
      exact h
  | kick => exact h.kick seen.critical
  | recover =>
    dsimp only
    split <;> exact h
  | recoverStatus =>
    dsimp only
    split
    · exact h
    · exact (hfree _).kick seen.critical

/-- `usb_tx_kick` from outside the service. -/
theorem Inv.kick (h : s.Inv) (critical : Bool) : (s.usb_tx_kick critical).Inv := by
  cases hpc : s.pc.frees with
  | false => exact h.kick_inv hpc critical
  | true =>
    cases h.phase with
    | idle _ _ _ _ _ pc => exact absurd (hpc.symm.trans pc) nofun
    | held _ _ _ _ _ _ pc => exact absurd (hpc.symm.trans pc) nofun
    | armed _ _ _ _ _ pc => exact absurd (hpc.symm.trans pc) nofun
    | gone busy =>
      unfold usb_tx_kick
      rw [busy, Bool.or_true, Bool.true_or, if_pos rfl]
      exact h

theorem Inv.configure (h : s.Inv) (hfresh : s.Fresh) (hconfigured : s.configured = false) (critical : Bool) :
    (s.usb_configure critical).Inv := by
  have hbusy : s.tx_busy = false := by
    refine Bool.eq_false_iff.mpr fun hb => ?_
    exact absurd (hconfigured.symm.trans (hfresh hb)) nofun
  obtain ⟨hcounters, hline, howned, hdeferred, hphase⟩ := h
  cases hphase with
  | held busy => exact absurd (hbusy.symm.trans busy) nofun
  | armed busy => exact absurd (hbusy.symm.trans busy) nofun
  | gone busy => exact absurd (hbusy.symm.trans busy) nofun
  | idle _ pending avail status _ pc =>
    have hreset : Inv { s with
        configured := true, tx_busy := false, tx_pending := false, data_in_pid := false
        host := { s.host with data1 := false } } := by
      refine ⟨⟨hcounters.head, hcounters.tail, hcounters.room⟩, ?_, howned, ?_, .idle rfl rfl avail status rfl pc⟩
      · rw [flight_nil pending fun ha => absurd (avail.symm.trans ha) nofun] at hline
        rw [flight_nil]
        · exact hline
        · rfl
        · exact fun ha => absurd (avail.symm.trans ha) nofun
      · rw [pending] at hdeferred
        exact hdeferred
    exact hreset.kick critical

theorem lose_inv (h : s.Inv) : Inv { s with buff_status := false } := by
  obtain ⟨hcounters, hline, howned, hdeferred, hphase⟩ := h
  refine ⟨⟨hcounters.head, hcounters.tail, hcounters.room⟩, hline, howned, hdeferred, ?_⟩
  cases hphase with
  | idle busy pending avail _ pid pc => exact .idle busy pending avail rfl pid pc
  | held busy pending avail _ data1 pid pc => exact .held busy pending avail rfl data1 pid pc
  | armed busy pending avail _ pid pc => exact .armed busy pending avail rfl pid pc
  | gone busy pending avail pid _ => exact .gone busy pending avail pid fun _ => rfl

theorem step_inv {e : Event} (h : s.Inv ∧ s.Fresh) (hstep : s.step e = some s') : s'.Inv ∧ s'.Fresh := by
  obtain ⟨hinv, hfresh⟩ := h
  cases e with
  | usb_tx_put c =>
    cases hstep
    refine ⟨put_inv hinv c, ?_⟩
    unfold usb_tx_put
    split <;> exact hfresh
  | usb_tx_kick critical =>
    cases hstep
    exact ⟨hinv.kick critical, hfresh.kick critical⟩
  | service seen =>
    cases hstep
    exact ⟨service_inv hinv seen, hfresh.service seen⟩
  | configure critical =>
    rw [step] at hstep
    by_cases hconfigured : s.configured = true
    · rw [if_pos hconfigured] at hstep
      contradiction
    · rw [if_neg hconfigured] at hstep
      cases hstep
      exact ⟨hinv.configure hfresh (Bool.eq_false_iff.mpr hconfigured) critical, Fresh.kick (fun _ => rfl) critical⟩
  | send acked =>
    rw [step] at hstep
    by_cases havail : s.ctrl.avail = true
    · rw [if_pos havail] at hstep
      cases hstep
      refine ⟨send_inv hinv havail acked, ?_⟩
      cases acked <;> exact hfresh
    · rw [if_neg havail] at hstep
      contradiction
  | lose =>
    cases hstep
    exact ⟨lose_inv hinv, hfresh⟩

theorem init_inv (ring : ℕ → UInt8) : (Tx.init ring).Inv ∧ (Tx.init ring).Fresh := by
  have hzero : ahead word 0 0 = 0 := (ahead_eq_zero word_pos word_pos).mpr rfl
  have hqueued : (Tx.init ring).queued = [] := by
    unfold queued
    show ringCells usbTxring ring 0 (ahead word 0 0) = []
    rw [hzero]
    rfl
  refine ⟨⟨⟨word_pos, word_pos, ?_⟩, ?_, rfl, rfl, .idle rfl rfl rfl rfl rfl rfl⟩, nofun⟩
  · show ahead word 0 0 ≤ usbTxring
    rw [hzero]
    exact Nat.zero_le _
  · rw [hqueued]
    exact .nil

/-- What holds of the stream at any time. -/
structure Streams (s : Tx) : Prop where
  /-- The bytes put, but for the oldest ones that a full ring dropped, are what the host has received, the packet on its
  way and the ring. -/
  bytes : Line usbTxring s.puts (s.host.received ++ s.flight) s.queued
  /-- No buffer of the controller's has been filled. -/
  owned : s.clobbered = false
  deferred : s.deferred ≤ 1

/-- **The bulk IN stream**: every byte reaches the host once and in order, but for what the ring drops when it is full,
whatever the order of puts, completions that come, get lost or are heard of twice, and starts held back. -/
theorem tx_streams (ring : ℕ → UInt8) (es : List Event) : Always step Streams (Tx.init ring) es := by
  refine always_of_inv (fun s h => ⟨h.1.line, h.1.owned, ?_⟩) (fun _ _ _ h hstep => step_inv h hstep) (init_inv ring) es
  rw [h.1.deferred]
  split <;> decide

end Tx

end DiscoBSD.Usb
