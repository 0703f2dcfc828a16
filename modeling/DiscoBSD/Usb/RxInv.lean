import DiscoBSD.Usb.Rx

/-!
# Where bulk OUT goes wrong

The software toggle is the one after the toggle the buffer is armed with, so it is right to arm with it only when a
packet has come. **A reset of the toggle throws away a packet that waits, and the repair of an arm uses a toggle that
is one too far**; every other step keeps the stream.
-/

set_option autoImplicit false

namespace DiscoBSD.Usb

open DiscoBSD.Lib
open Function (update)

namespace Rx

/-- The ring and its counters. -/
structure Counters (s : Rx) : Prop where
  head : s.rx_head < word
  tail : s.rx_tail < word
  room : ahead word s.rx_head s.rx_tail ≤ usbRxring

/-- Whose the buffer is. The toggles matter while the device is configured. -/
inductive Phase (s : Rx) : Prop
  | armed (avail : s.ctrl.avail = true) (full : s.ctrl.full = false) (status : s.buff_status = false)
      (toggle : s.configured = true → s.ctrl.data1 = s.odd ∧ s.data_out_pid = !s.odd)
      (pc : s.pc ≠ .done ∧ s.pc ≠ .rearmStatus)
  | waits (avail : s.ctrl.avail = false) (full : s.ctrl.full = true) (status : s.buff_status = false ↔ s.pc = .done)
      (toggle : s.configured = true → s.data_out_pid = s.odd) (pc : s.pc ≠ .rearmStatus)
  | lost (avail : s.ctrl.avail = false) (full : s.ctrl.full = false) (status : s.buff_status = false)
      (pc : s.pc ≠ .done)

structure Inv (s : Rx) : Prop where
  counters : s.Counters
  bytes : s.accepted = s.handed ++ s.queued ++ s.waiting
  phase : s.Phase

variable {s s' : Rx}

/-! ## A packet is taken -/

@[simp] theorem queued_length (s : Rx) : s.queued.length = ahead word s.rx_head s.rx_tail := ringCells_length

/-- The terminal takes the bytes. -/
theorem foldl_input_open (hopen : s.isopen = true) (bs : List UInt8) :
    bs.foldl input s = { s with handed := s.handed ++ bs } := by
  induction bs generalizing s with
  | nil => rw [List.append_nil]; rfl
  | cons c bs ih =>
    have hinput : s.input c = { s with handed := s.handed ++ [c] } := if_pos hopen
    have hrest := @ih { s with handed := s.handed ++ [c] } hopen
    rw [List.foldl_cons, hinput, hrest]
    exact congrArg (fun bytes => { s with handed := bytes }) (List.append_cons s.handed c bs).symm

/-- `rx_ring` takes them. -/
theorem foldl_input_closed (hclosed : s.isopen = false) (bs : List UInt8) (h : s.Counters)
    (hroom : ahead word s.rx_head s.rx_tail + bs.length ≤ usbRxring) :
    ∃ ring head, bs.foldl input s = { s with rx_ring := ring, rx_head := head } ∧
      Counters { s with rx_ring := ring, rx_head := head } ∧
      queued { s with rx_ring := ring, rx_head := head } = s.queued ++ bs := by
  induction bs generalizing s with
  | nil => exact ⟨s.rx_ring, s.rx_head, rfl, h, (List.append_nil _).symm⟩
  | cons c bs ih =>
    rw [List.length_cons] at hroom
    have hfit : ahead word s.rx_head s.rx_tail < usbRxring := by omega
    have hlt : ahead word s.rx_head s.rx_tail + 1 < word :=
      Nat.lt_of_le_of_lt (Nat.succ_le_of_lt hfit) usbRxring_lt
    have hahead := ahead_put h.head h.tail hlt
    have hmod : s.rx_head % usbRxring = (s.rx_tail + ahead word s.rx_head s.rx_tail) % usbRxring := by
      rw [← Nat.mod_mod_of_dvd (s.rx_tail + _) usbRxring_dvd, add_ahead h.head h.tail]
    obtain ⟨t, ht⟩ : ∃ t : Rx, t = { s with
        rx_ring := update s.rx_ring (s.rx_head % usbRxring) c, rx_head := (s.rx_head + 1) % word } := ⟨_, rfl⟩
    have hinput : s.input c = t := by
      unfold input
      rw [ht]
      refine (if_neg ?_).trans (if_pos hfit)
      rw [hclosed]
      exact Bool.false_ne_true
    have hcount : ahead word t.rx_head t.rx_tail = ahead word s.rx_head s.rx_tail + 1 := by
      rw [ht]
      exact hahead
    have hcounters : t.Counters := by
      refine ⟨?_, ?_, ?_⟩
      · rw [ht]
        exact Nat.mod_lt _ word_pos
      · rw [ht]
        exact h.tail
      · rw [hcount]
        exact hfit
    have hqueued : t.queued = s.queued ++ [c] := by
      unfold queued
      rw [hcount, ht]
      show ringCells usbRxring (update s.rx_ring (s.rx_head % usbRxring) c) s.rx_tail _ = _
      rw [hmod, ringCells_put hfit]
    obtain ⟨ring, head, hfold, hcounters', hqueued'⟩ := ih (by rw [ht]; exact hclosed) hcounters (by rw [hcount]; omega)
    refine ⟨ring, head, ?_, ?_, ?_⟩
    · rw [List.foldl_cons, hinput, hfold, ht]
    · rw [ht] at hcounters'
      exact hcounters'
    · rw [hqueued, ht, List.append_assoc] at hqueued'
      exact hqueued'

/-- What taking a packet leaves alone. -/
def others (s : Rx) : (Bool × Bool × BufCtrl × Bool) × (Bool × Option Req × Pc) × (List UInt8 × Bool) :=
  ((s.configured, s.data_out_pid, s.ctrl, s.buff_status), (s.bus_reset, s.setup, s.pc), (s.accepted, s.odd))

/-- The bytes are on this side of the controller, in order. -/
theorem taken (h : s.Inv) (hfull : s.ctrl.full = true)
    (hsafe : if s.isopen = true then s.rx_tail = s.rx_head
      else ahead word s.rx_head s.rx_tail + s.ctrl.len ≤ usbRxring) :
    (s.packet.foldl input s).Counters ∧ s.accepted = (s.packet.foldl input s).handed ++ (s.packet.foldl input s).queued ∧
      (s.packet.foldl input s).others = s.others := by
  have hwaits : s.waiting = s.packet := if_pos hfull
  have hbytes := h.bytes
  rw [hwaits] at hbytes
  by_cases hopen : s.isopen = true
  · rw [if_pos hopen] at hsafe
    rw [foldl_input_open hopen]
    have hnone : s.queued = [] := by
      refine List.length_eq_zero_iff.mp ?_
      rw [queued_length]
      exact (ahead_eq_zero h.counters.head h.counters.tail).mpr hsafe
    refine ⟨⟨h.counters.head, h.counters.tail, h.counters.room⟩, ?_, rfl⟩
    show s.accepted = s.handed ++ s.packet ++ s.queued
    rw [hbytes, hnone, List.append_nil, List.append_nil]
  · rw [if_neg hopen] at hsafe
    have hlen : s.packet.length = s.ctrl.len := by
      unfold packet
      rw [List.length_map, List.length_range]
    obtain ⟨ring, head, hfold, hcounters, hqueued⟩ :=
      foldl_input_closed (Bool.eq_false_iff.mpr hopen) s.packet h.counters (by rw [hlen]; exact hsafe)
    rw [hfold]
    refine ⟨hcounters, ?_, rfl⟩
    rw [hqueued, hbytes, List.append_assoc]

/-- **A packet is taken**, and the buffer armed with the next toggle. -/
theorem done_inv (h : s.Inv) (hpc : s.pc = .done)
    (hsafe : if s.isopen = true then s.rx_tail = s.rx_head
      else ahead word s.rx_head s.rx_tail + s.ctrl.len ≤ usbRxring) :
    Inv { s.usb_rx_done with pc := .rearm } := by
  cases h.phase with
  | armed _ _ _ _ pc => exact absurd hpc pc.1
  | lost _ _ _ pc => exact absurd hpc pc
  | waits avail full status toggle pc =>
    obtain ⟨hcounters, hbytes, hothers⟩ := taken h full hsafe
    unfold usb_rx_done
    dsimp only
    generalize s.packet.foldl input s = t at hcounters hbytes hothers ⊢
    simp only [others, Prod.mk.injEq] at hothers
    obtain ⟨⟨hconfigured, hpid, -, hstatus⟩, -, haccepted, hodd⟩ := hothers
    refine ⟨⟨hcounters.head, hcounters.tail, hcounters.room⟩, ?_, .armed rfl rfl ?_ ?_ ⟨nofun, nofun⟩⟩
    · show t.accepted = t.handed ++ t.queued ++ []
      rw [List.append_nil, haccepted, hbytes]
    · show t.buff_status = false
      rw [hstatus]
      exact status.mpr hpc
    · intro hc
      have hc' : t.configured = true := hc
      rw [hconfigured] at hc'
      have htoggle := toggle hc'
      show t.data_out_pid = t.odd ∧ (!t.data_out_pid) = !t.odd
      rw [hpid, hodd, htoggle]
      exact ⟨rfl, rfl⟩

/-! ## The other steps -/

/-- Only the place in the service changes, and what is pending of the other two kinds. -/
theorem Inv.moves (h : s.Inv) (pc : Pc) (hpc : pc ≠ .rearmStatus) (hdone : pc ≠ .done) (hnow : s.pc ≠ .done)
    (bus_reset : Bool) (setup : Option Req) :
    Inv { s with pc := pc, bus_reset := bus_reset, setup := setup } := by
  refine ⟨⟨h.counters.head, h.counters.tail, h.counters.room⟩, h.bytes, ?_⟩
  cases h.phase with
  | armed avail full status toggle _ => exact .armed avail full status toggle ⟨hdone, hpc⟩
  | waits avail full status toggle _ =>
    refine .waits avail full ⟨fun hstatus => ?_, fun hd => absurd hd hdone⟩ toggle hpc
    exact absurd (status.mp hstatus) hnow
  | lost avail full status _ => exact .lost avail full status hdone

/-- A reset of the toggle, with no packet in the buffer. -/
theorem reset_inv (h : s.Inv) (hempty : s.ctrl.full = false) (hpc : s.pc ≠ .done ∧ s.pc ≠ .rearmStatus) (on : Bool) :
    Inv { s.usb_buf_arm false with configured := on, data_out_pid := true, odd := false } := by
  have hnone : s.waiting = [] := if_neg (by rw [hempty]; decide)
  have hbytes := h.bytes
  rw [hnone] at hbytes
  refine ⟨⟨h.counters.head, h.counters.tail, h.counters.room⟩, hbytes, .armed rfl rfl ?_ (fun _ => ⟨rfl, rfl⟩) hpc⟩
  cases h.phase with
  | armed _ _ status => exact status
  | waits _ full => exact absurd (hempty.symm.trans full) nofun
  | lost _ _ status => exact status

/-- The device is not configured any more. -/
theorem off_inv (h : s.Inv) : (s.usb_configure false).Inv := by
  refine ⟨⟨h.counters.head, h.counters.tail, h.counters.room⟩, h.bytes, ?_⟩
  cases h.phase with
  | armed avail full status _ pc => exact .armed avail full status nofun pc
  | waits avail full status _ pc => exact .waits avail full status nofun pc
  | lost avail full status pc => exact .lost avail full status pc

/-- A request of a configured device that resets the toggle. -/
theorem again_inv (h : s.Inv) (hempty : s.configured = true → s.ctrl.full = false)
    (hpc : s.pc ≠ .done ∧ s.pc ≠ .rearmStatus) :
    Inv (if s.configured then { s.usb_buf_arm false with data_out_pid := true, odd := false } else s) := by
  by_cases hc : s.configured = true
  · rw [if_pos hc]
    have hreset := reset_inv h (hempty hc) hpc s.configured
    exact hreset
  · rw [if_neg hc]
    exact h

/-- **A request** that finds no packet where it resets the toggle. -/
theorem setup_inv (h : s.Inv) (hpc : s.pc ≠ .done ∧ s.pc ≠ .rearmStatus) {req : Req} (hsafe : s.SafeSetup req) :
    (s.usb_setup req).Inv := by
  cases req with
  | setConfiguration on =>
    cases on with
    | false => exact off_inv h
    | true => exact reset_inv h (hsafe rfl) hpc true
  | clearFeature | setInterface => exact again_inv h hsafe hpc
  | other => exact h

theorem setup_pc (s : Rx) (req : Req) : (s.usb_setup req).pc = s.pc := by
  unfold usb_setup
  split
  · unfold usb_configure
    split <;> rfl
  · split <;> rfl
  · split <;> rfl
  · rfl

/-- **A step of the service** that is safe. -/
theorem service_inv (h : s.Inv) (other : Bool) (hsafe : s.Safe (.service other)) : (s.usb_service other).Inv := by
  have hsafe : s.SafeAt s.pc := hsafe
  unfold usb_service
  cases hpc : s.pc with
  | out =>
    exact h.moves (.reset s.bus_reset s.setup.isSome (s.buff_status || other)) nofun nofun (by rw [hpc]; nofun)
      s.bus_reset s.setup
  | reset bus_reset setup buff =>
    have hnow : s.pc ≠ .done := by
      rw [hpc]
      nofun
    cases bus_reset with
    | false => exact h.moves (.setup setup buff) nofun nofun hnow s.bus_reset s.setup
    | true => exact (off_inv h).moves (.setup setup buff) nofun nofun hnow false s.setup
  | setup setup buff =>
    have hnext : (if buff = true then Pc.status else .rearm) ≠ .rearmStatus ∧
        (if buff = true then Pc.status else .rearm) ≠ .done := by
      cases buff <;> exact ⟨nofun, nofun⟩
    have hnow : s.pc ≠ .done ∧ s.pc ≠ .rearmStatus := by
      rw [hpc]
      exact ⟨nofun, nofun⟩
    cases setup with
    | false => exact h.moves _ hnext.1 hnext.2 hnow.1 s.bus_reset s.setup
    | true =>
      rw [hpc] at hsafe
      have hsetup := setup_inv h hnow (hsafe rfl)
      exact hsetup.moves _ hnext.1 hnext.2 (by rw [setup_pc]; exact hnow.1) _ none
  | status =>
    refine ⟨⟨h.counters.head, h.counters.tail, h.counters.room⟩, h.bytes, ?_⟩
    cases h.phase with
    | armed avail full status toggle _ =>
      refine .armed avail full rfl toggle ?_
      show (if s.buff_status = true then Pc.done else .rearm) ≠ .done ∧
        (if s.buff_status = true then Pc.done else .rearm) ≠ .rearmStatus
      rw [status]
      exact ⟨nofun, nofun⟩
    | waits avail full status toggle _ =>
      have hset : s.buff_status = true := by
        refine Bool.of_not_eq_false fun hclear => ?_
        have hdone := status.mp hclear
        rw [hpc] at hdone
        contradiction
      refine .waits avail full ?_ toggle ?_
      · show false = false ↔ (if s.buff_status = true then Pc.done else .rearm) = .done
        rw [hset]
        exact ⟨fun _ => rfl, fun _ => rfl⟩
      · show (if s.buff_status = true then Pc.done else .rearm) ≠ .rearmStatus
        rw [hset]
        nofun
    | lost avail full status _ =>
      refine .lost avail full rfl ?_
      show (if s.buff_status = true then Pc.done else .rearm) ≠ .done
      rw [status]
      nofun
  | done =>
    rw [hpc] at hsafe
    exact done_inv h hpc hsafe
  | rearm =>
    dsimp only
    by_cases hidle : (s.configured && !s.ctrl.avail && !s.ctrl.full) = true
    · rw [if_pos hidle]
      refine ⟨⟨h.counters.head, h.counters.tail, h.counters.room⟩, h.bytes, ?_⟩
      cases h.phase with
      | armed avail =>
        rw [avail, Bool.not_true, Bool.and_false, Bool.false_and] at hidle
        contradiction
      | waits _ full =>
        rw [full, Bool.not_true, Bool.and_false] at hidle
        contradiction
      | lost avail full status _ => exact .lost avail full status nofun
    · rw [if_neg hidle]
      exact h.moves .out nofun nofun (by rw [hpc]; nofun) s.bus_reset s.setup
  | rearmStatus =>
    rw [hpc] at hsafe
    have hstatus : s.buff_status = true := hsafe
    cases h.phase with
    | armed _ _ _ _ pc => exact absurd hpc pc.2
    | waits _ _ _ _ pc => exact absurd hpc pc
    | lost _ _ status => exact absurd (hstatus.symm.trans status) nofun

theorem accept_inv (h : s.Inv) (havail : s.ctrl.avail = true) (bytes : List UInt8) : (s.accept bytes).Inv := by
  cases h.phase with
  | waits avail => exact absurd (havail.symm.trans avail) nofun
  | lost avail => exact absurd (havail.symm.trans avail) nofun
  | armed _ full status toggle pc =>
    have hnone : s.waiting = [] := if_neg (by rw [full]; decide)
    have hbytes := h.bytes
    rw [hnone, List.append_nil] at hbytes
    refine ⟨⟨h.counters.head, h.counters.tail, h.counters.room⟩, ?_,
      .waits rfl rfl ⟨nofun, fun hdone => absurd hdone pc.1⟩ (fun hc => (toggle hc).2) pc.2⟩
    have hpacket : (s.accept bytes).packet = bytes := by
      refine List.ext_getElem ?_ ?_
      · simp [packet, accept]
      · intro i hi hi'
        simp [packet, accept, hi']
    have hwaiting : (s.accept bytes).waiting = bytes := hpacket
    rw [hwaiting]
    show s.accepted ++ bytes = s.handed ++ s.queued ++ bytes
    rw [hbytes]

theorem unarm_inv (h : s.Inv) (havail : s.ctrl.avail = true) :
    Inv { s with ctrl := { s.ctrl with avail := false } } := by
  refine ⟨⟨h.counters.head, h.counters.tail, h.counters.room⟩, h.bytes, ?_⟩
  cases h.phase with
  | waits avail => exact absurd (havail.symm.trans avail) nofun
  | lost avail => exact absurd (havail.symm.trans avail) nofun
  | armed _ full status toggle pc => exact .lost rfl full status pc.1

/-- The endpoint is not the terminal's, nor the ring. -/
theorem Phase.frame (h : s.Phase) (isopen bus_reset : Bool) (setup : Option Req) (tail : ℕ) (handed : List UInt8) :
    Phase { s with
      isopen := isopen, bus_reset := bus_reset, setup := setup, rx_tail := tail, handed := handed } := by
  cases h with
  | armed avail full status toggle pc => exact .armed avail full status toggle pc
  | waits avail full status toggle pc => exact .waits avail full status toggle pc
  | lost avail full status pc => exact .lost avail full status pc

theorem drain_inv (h : s.Inv) (hsome : s.rx_tail ≠ s.rx_head) :
    Inv { s with
      rx_tail := (s.rx_tail + 1) % word
      handed := s.handed ++ [s.rx_ring (s.rx_tail % usbRxring)] } := by
  have hpos : 1 ≤ ahead word s.rx_head s.rx_tail :=
    Nat.one_le_iff_ne_zero.mpr (mt (ahead_eq_zero h.counters.head h.counters.tail).mp hsome)
  have hahead := ahead_drop h.counters.head h.counters.tail hpos
  have hqueued : s.queued = s.rx_ring (s.rx_tail % usbRxring) ::
      ringCells usbRxring s.rx_ring ((s.rx_tail + 1) % word) (ahead word s.rx_head ((s.rx_tail + 1) % word)) := by
    unfold queued
    rw [hahead, ringCells_mod usbRxring_dvd]
    obtain ⟨n, hn⟩ := Nat.exists_eq_add_of_le' hpos
    rw [hn, ringCells, Nat.add_sub_cancel]
  refine ⟨⟨h.counters.head, Nat.mod_lt _ word_pos, ?_⟩, ?_, ?_⟩
  · show ahead word s.rx_head ((s.rx_tail + 1) % word) ≤ usbRxring
    rw [hahead]
    exact Nat.le_trans (Nat.sub_le _ _) h.counters.room
  · refine h.bytes.trans (congrArg (· ++ s.waiting) ?_)
    rw [hqueued]
    exact List.append_cons ..
  · exact h.phase.frame ..

theorem isopen_inv (h : s.Inv) (on : Bool) : Inv { s with isopen := on } :=
  ⟨⟨h.counters.head, h.counters.tail, h.counters.room⟩, h.bytes, h.phase.frame ..⟩

/-- What is pending is no matter of the endpoint's. -/
theorem pending_inv (h : s.Inv) (bus_reset : Bool) (setup : Option Req) :
    Inv { s with bus_reset := bus_reset, setup := setup } :=
  ⟨⟨h.counters.head, h.counters.tail, h.counters.room⟩, h.bytes, h.phase.frame ..⟩

theorem step_inv {e : Event} (h : s.Inv) (hstep : s.step e = some s') (hsafe : s.Safe e) : s'.Inv := by
  cases e with
  | service other =>
    cases hstep
    exact service_inv h other hsafe
  | accept bytes =>
    rw [step] at hstep
    by_cases hfit : s.ctrl.avail = true ∧ bytes.length ≤ usbPacketMax
    · rw [if_pos hfit] at hstep
      cases hstep
      exact accept_inv h hfit.1 bytes
    · rw [if_neg hfit] at hstep
      contradiction
  | unarm =>
    rw [step] at hstep
    by_cases havail : s.ctrl.avail = true
    · rw [if_pos havail] at hstep
      cases hstep
      exact unarm_inv h havail
    · rw [if_neg havail] at hstep
      contradiction
  | setup req =>
    cases hstep
    exact pending_inv h s.bus_reset (some req)
  | busReset =>
    cases hstep
    exact pending_inv h true s.setup
  | isopen on =>
    cases hstep
    exact isopen_inv h on
  | drain =>
    rw [step] at hstep
    by_cases hnone : s.rx_tail = s.rx_head
    · rw [if_pos hnone] at hstep
      contradiction
    · rw [if_neg hnone] at hstep
      cases hstep
      exact drain_inv h hnone

theorem Inv.sound (h : s.Inv) : s.Sound := by
  refine ⟨fun hc havail => ?_, h.bytes⟩
  cases h.phase with
  | armed _ _ _ toggle _ => exact (toggle hc).1
  | waits avail => exact absurd (havail.symm.trans avail) nofun
  | lost avail => exact absurd (havail.symm.trans avail) nofun

theorem init_inv : Rx.init.Inv := by
  have hzero : ahead word 0 0 = 0 := (ahead_eq_zero word_pos word_pos).mpr rfl
  have hqueued : Rx.init.queued = [] := by
    unfold queued
    show ringCells usbRxring (fun _ => 0) 0 (ahead word 0 0) = []
    rw [hzero]
    rfl
  refine ⟨⟨word_pos, word_pos, ?_⟩, ?_, .lost rfl rfl rfl nofun⟩
  · show ahead word 0 0 ≤ usbRxring
    rw [hzero]
    exact Nat.zero_le _
  · rw [hqueued]
    rfl

/-- Passes of the service with nothing else between their steps. -/
def services (n : ℕ) : List Event := List.replicate n (.service false)

end Rx

end DiscoBSD.Usb
