import DiscoBSD.Usb.Tx

/-!
# The bulk OUT endpoint

`usb_rx_done` and `usb_rx_rearm_if_idle` of `sys/arch/rp2040/dev/usb.c`, what `usb_configure` and `usb_setup` do to
bulk OUT, and the passes of `usb_service`. **A pass serves a bus reset, then a SETUP, then a completion**, in whatever
order they happened.
-/

set_option autoImplicit false

namespace DiscoBSD.Usb

open DiscoBSD.Lib
open Function (update)

def usbRxring : ℕ := 64

theorem usbRxring_lt : usbRxring < word := by
  unfold word
  decide

theorem usbRxring_dvd : usbRxring ∣ word := by
  unfold word
  decide

namespace Rx

/-- What a SETUP packet asks of bulk OUT. -/
inductive Req where
  /-- `SET_CONFIGURATION`. -/
  | setConfiguration (on : Bool)
  /-- `CLEAR_FEATURE` of `ENDPOINT_HALT`, endpoint `0x02`. -/
  | clearFeature
  /-- `SET_INTERFACE` of the data interface. -/
  | setInterface
  | other
  deriving DecidableEq

/-- Where `usb_service` is. -/
inductive Pc where
  /-- It does not run. -/
  | out
  /-- `USB_INTS` has been read. -/
  | reset (bus_reset setup buff : Bool)
  | setup (setup buff : Bool)
  /-- Before `USB_BUFF_STATUS` is read and cleared. -/
  | status
  /-- It was set for bulk OUT. -/
  | done
  /-- Before `usb_rx_rearm_if_idle`. -/
  | rearm
  /-- It has found the control word idle. -/
  | rearmStatus
  deriving DecidableEq

end Rx

open Rx in
structure Rx where
  configured : Bool
  data_out_pid : Bool
  rx_head : ℕ
  rx_tail : ℕ
  rx_ring : ℕ → UInt8
  /-- `TS_ISOPEN`. -/
  isopen : Bool
  /-- The control word, the buffer and the bit of `USB_BUFF_STATUS`. -/
  ctrl : BufCtrl
  buf_data_out : ℕ → UInt8
  buff_status : Bool
  /-- `USB_SIE_STATUS_BUS_RESET`, and `USB_SIE_STATUS_SETUP_REC` with the packet. -/
  bus_reset : Bool
  setup : Option Req
  pc : Pc
  /-- The bytes that the controller accepted and those that were handed on, and whether the packets accepted since the
  last reset of the toggle are odd in number. -/
  accepted : List UInt8
  handed : List UInt8
  odd : Bool

/-- After `usbinit`. -/
def Rx.init : Rx where
  configured := false
  data_out_pid := false
  rx_head := 0
  rx_tail := 0
  rx_ring := fun _ => 0
  isopen := false
  ctrl := ⟨false, false, false, 0⟩
  buf_data_out := fun _ => 0
  buff_status := false
  bus_reset := false
  setup := none
  pc := .out
  accepted := []
  handed := []
  odd := false

namespace Rx

inductive Event where
  /-- The next step of `usb_service`, and whether another endpoint has a completion. -/
  | service (other : Bool)
  /-- The controller accepts a packet. -/
  | accept (bytes : List UInt8)
  /-- An arm gets lost. -/
  | unarm
  | setup (req : Req)
  | busReset
  /-- `usbopen` sets `TS_ISOPEN`; it is cleared at the close. -/
  | isopen (on : Bool)
  /-- `usbopen` or `usbgetc` takes a byte of `rx_ring`. -/
  | drain

def usb_buf_arm (data1 : Bool) (s : Rx) : Rx :=
  { s with ctrl := { avail := true, full := false, data1 := data1, len := usbPacketMax } }

/-- The toggle starts at DATA0 again. -/
def usb_configure (on : Bool) (s : Rx) : Rx :=
  let s := { s with configured := on, data_out_pid := false, odd := false }
  if on then { s.usb_buf_arm false with data_out_pid := true } else s

def usb_setup (s : Rx) : Req → Rx
  | .setConfiguration on => s.usb_configure on
  | .clearFeature | .setInterface =>
    if s.configured then { s.usb_buf_arm false with data_out_pid := true, odd := false } else s
  | .other => s

def packet (s : Rx) : List UInt8 := (List.range s.ctrl.len).map s.buf_data_out

/-- A byte for the terminal, or for `rx_ring` while it is closed. -/
def input (s : Rx) (c : UInt8) : Rx :=
  if s.isopen then { s with handed := s.handed ++ [c] }
  else if ahead word s.rx_head s.rx_tail < usbRxring then
    { s with rx_ring := update s.rx_ring (s.rx_head % usbRxring) c, rx_head := (s.rx_head + 1) % word }
  else s

def usb_rx_done (s : Rx) : Rx :=
  let s := s.packet.foldl input s
  { s.usb_buf_arm s.data_out_pid with data_out_pid := !s.data_out_pid }

/-- A step of `usb_service`. -/
def usb_service (other : Bool) (s : Rx) : Rx :=
  match s.pc with
  | .out => { s with pc := .reset s.bus_reset s.setup.isSome (s.buff_status || other) }
  | .reset bus_reset setup buff =>
    let s := if bus_reset then { s.usb_configure false with bus_reset := false } else s
    { s with pc := .setup setup buff }
  | .setup setup buff =>
    let s := if setup then { s.usb_setup (s.setup.getD .other) with setup := none } else s
    { s with pc := if buff then .status else .rearm }
  | .status => { s with buff_status := false, pc := if s.buff_status then .done else .rearm }
  | .done => { s.usb_rx_done with pc := .rearm }
  | .rearm => { s with pc := if s.configured && !s.ctrl.avail && !s.ctrl.full then .rearmStatus else .out }
  | .rearmStatus => if s.buff_status then { s with pc := .out } else { s.usb_buf_arm s.data_out_pid with pc := .out }

/-- The controller fills the buffer. -/
def accept (bytes : List UInt8) (s : Rx) : Rx :=
  { s with
    ctrl := { s.ctrl with avail := false, full := true, len := bytes.length }
    buf_data_out := fun i => bytes.getD i (s.buf_data_out i)
    buff_status := true
    accepted := s.accepted ++ bytes
    odd := !s.odd }

def step (s : Rx) : Event → Option Rx
  | .service other => some (s.usb_service other)
  | .accept bytes => if s.ctrl.avail ∧ bytes.length ≤ usbPacketMax then some (s.accept bytes) else none
  | .unarm => if s.ctrl.avail then some { s with ctrl := { s.ctrl with avail := false } } else none
  | .setup req => some { s with setup := some req }
  | .busReset => some { s with bus_reset := true }
  | .isopen on => some { s with isopen := on }
  | .drain =>
    if s.rx_tail = s.rx_head then none
    else some { s with
      rx_tail := (s.rx_tail + 1) % word
      handed := s.handed ++ [s.rx_ring (s.rx_tail % usbRxring)] }

/-- The bytes in `rx_ring`. -/
def queued (s : Rx) : List UInt8 :=
  ringCells usbRxring s.rx_ring s.rx_tail (ahead word s.rx_head s.rx_tail)

/-- The packet that has been accepted and not been taken. -/
def waiting (s : Rx) : List UInt8 := if s.ctrl.full then s.packet else []

/-- What is claimed of the endpoint. -/
structure Sound (s : Rx) : Prop where
  /-- The buffer is armed with the parity of the packets accepted since the last reset of the toggle. -/
  toggle : s.configured = true → s.ctrl.avail = true → s.ctrl.data1 = s.odd
  /-- What was accepted has been handed on, is in `rx_ring` or in the buffer, in order and each byte once. -/
  bytes : s.accepted = s.handed ++ s.queued ++ s.waiting

/-- A request that resets the toggle finds no packet in the buffer. -/
def SafeSetup (s : Rx) : Req → Prop
  | .setConfiguration on => on = true → s.ctrl.full = false
  | .clearFeature | .setInterface => s.configured = true → s.ctrl.full = false
  | .other => True

/-- The step is none of those that go wrong: a reset of the toggle while a packet waits, the repair of an arm, a packet
that `rx_ring` has no room for, and one that overtakes the bytes in it. -/
def SafeAt (s : Rx) : Pc → Prop
  | .setup setup _ => setup = true → s.SafeSetup (s.setup.getD .other)
  | .done =>
    if s.isopen then s.rx_tail = s.rx_head
    else ahead word s.rx_head s.rx_tail + s.ctrl.len ≤ usbRxring
  | .rearmStatus => s.buff_status = true
  | _ => True

def Safe (s : Rx) : Event → Prop
  | .service _ => s.SafeAt s.pc
  | _ => True

instance (s : Rx) : (req : Req) → Decidable (s.SafeSetup req)
  | .setConfiguration on => inferInstanceAs (Decidable (on = true → s.ctrl.full = false))
  | .clearFeature | .setInterface => inferInstanceAs (Decidable (s.configured = true → s.ctrl.full = false))
  | .other => isTrue trivial

instance (s : Rx) : (pc : Pc) → Decidable (s.SafeAt pc)
  | .setup setup _ => inferInstanceAs (Decidable (setup = true → s.SafeSetup (s.setup.getD .other)))
  | .done => inferInstanceAs (Decidable (if s.isopen then s.rx_tail = s.rx_head
      else ahead word s.rx_head s.rx_tail + s.ctrl.len ≤ usbRxring))
  | .rearmStatus => inferInstanceAs (Decidable (s.buff_status = true))
  | .out | .reset .. | .status | .rearm => isTrue trivial

instance (s : Rx) : (e : Event) → Decidable (s.Safe e)
  | .service _ => inferInstanceAs (Decidable (s.SafeAt s.pc))
  | .accept _ | .unarm | .setup _ | .busReset | .isopen _ | .drain => isTrue trivial

end Rx

end DiscoBSD.Usb
