import DiscoBSD.Lib.Fifo
import DiscoBSD.Lib.Runs

/-!
# The bulk IN endpoint

`usb_tx_put`, `usb_tx_kick`, `usb_tx_release`, `usb_tx_recover_if_idle` of `sys/arch/rp2040/dev/usb.c` and what
`usb_service` does for bulk IN, with the controller that sends the buffer and the host that takes its packets.
**The controller goes on while the service runs**, so the service is one step for each register it reads, and the
controller may do something between two of them.
-/

set_option autoImplicit false

namespace DiscoBSD.Usb

open DiscoBSD.Lib
open Function (update)

def usbTxring : ℕ := 8192

def usbPacketMax : ℕ := 64

/-- The range of an `u_int`. -/
@[irreducible] def word : ℕ := 2 ^ 32

theorem word_pos : 0 < word := by
  unfold word
  decide

theorem usbTxring_lt : usbTxring < word := by
  unfold word
  decide

theorem usbTxring_dvd : usbTxring ∣ word := by
  unfold word
  decide

/-- A buffer control word. -/
structure BufCtrl where
  avail : Bool
  full : Bool
  data1 : Bool
  len : ℕ

namespace Tx

/-- Where `usb_service` is. -/
inductive Pc where
  /-- It does not run. -/
  | out
  /-- `USB_INTS` has been read. -/
  | sof (sof buff : Bool)
  /-- Before `USB_BUFF_STATUS` is read and cleared. -/
  | status
  /-- It was set for bulk IN. -/
  | done
  /-- Before the two frames of a deferral are checked. -/
  | late
  /-- Before the `usb_tx_kick` at the end. -/
  | kick
  /-- Before `usb_tx_recover_if_idle`. -/
  | recover
  /-- It has found the control word idle. -/
  | recoverStatus
  deriving DecidableEq

/-- It will take `tx_busy` away. -/
def Pc.frees : Pc → Bool
  | done | recoverStatus => true
  | _ => false

/-- The host's end: the toggle it expects, and what it has taken. -/
structure Host where
  data1 : Bool
  received : List UInt8

end Tx

open Tx in
structure Tx where
  configured : Bool
  tx_busy : Bool
  tx_pending : Bool
  tx_pending_ctrl : BufCtrl
  tx_head : ℕ
  tx_tail : ℕ
  usb_tx_ring : ℕ → UInt8
  data_in_pid : Bool
  /-- The control word, the buffer and the bit of `USB_BUFF_STATUS`. -/
  ctrl : BufCtrl
  buf_data_in : ℕ → UInt8
  buff_status : Bool
  pc : Pc
  host : Host
  /-- The bytes put, the deferred starts that are outstanding, and whether a buffer of the controller's was filled. -/
  puts : List UInt8
  deferred : ℕ
  clobbered : Bool

/-- After `usbinit`, with any contents of the ring. -/
def Tx.init (ring : ℕ → UInt8) : Tx where
  configured := false
  tx_busy := false
  tx_pending := false
  tx_pending_ctrl := ⟨false, false, false, 0⟩
  tx_head := 0
  tx_tail := 0
  usb_tx_ring := ring
  data_in_pid := false
  ctrl := ⟨false, false, false, 0⟩
  buf_data_in := fun _ => 0
  buff_status := false
  pc := .out
  host := ⟨false, []⟩
  puts := []
  deferred := 0
  clobbered := false

namespace Tx

/-- What a step of the service finds: `USB_INTS_DEV_SOF`, a completion of another endpoint, a place in the last part of
the frame, and a deferral that is older than two frames. -/
structure Seen where
  sof : Bool
  other : Bool
  critical : Bool
  late : Bool

inductive Event where
  | usb_tx_put (c : UInt8)
  /-- `usb_tx_kick` from `usbputc` or `usbstart`. -/
  | usb_tx_kick (critical : Bool)
  /-- The next step of `usb_service`. -/
  | service (seen : Seen)
  /-- The first `SET_CONFIGURATION`. -/
  | configure (critical : Bool)
  /-- The controller sends the buffer, and hears the host's ACK or not. -/
  | send (acked : Bool)
  /-- A completion gets lost. -/
  | lose

def usb_tx_put (c : UInt8) (s : Tx) : Tx :=
  let s := if ahead word s.tx_head s.tx_tail ≥ usbTxring then { s with tx_tail := (s.tx_tail + 1) % word } else s
  { s with
    usb_tx_ring := update s.usb_tx_ring (s.tx_head % usbTxring) c
    tx_head := (s.tx_head + 1) % word
    puts := s.puts ++ [c] }

def usb_buf_arm_word (v : BufCtrl) (s : Tx) : Tx := { s with ctrl := { v with avail := true } }

/-- The length of the next packet. -/
def next (s : Tx) : ℕ :=
  if ahead word s.tx_head s.tx_tail > usbPacketMax then usbPacketMax else ahead word s.tx_head s.tx_tail

def usb_tx_kick (critical : Bool) (s : Tx) : Tx :=
  if !s.configured || s.tx_busy || s.tx_head = s.tx_tail then s
  else
    let n := s.next
    let ctrl : BufCtrl := { avail := false, full := true, data1 := s.data_in_pid, len := n }
    let s := { s with
      buf_data_in := fun i =>
        if i < n then s.usb_tx_ring ((s.tx_tail + i) % word % usbTxring) else s.buf_data_in i
      tx_tail := (s.tx_tail + n) % word
      tx_busy := true
      data_in_pid := !s.data_in_pid
      clobbered := s.clobbered || s.ctrl.avail }
    if critical then { s with tx_pending := true, tx_pending_ctrl := ctrl, deferred := s.deferred + 1 }
    else s.usb_buf_arm_word ctrl

def usb_tx_release (s : Tx) : Tx :=
  if !s.tx_pending then s
  else usb_buf_arm_word s.tx_pending_ctrl { s with tx_pending := false, deferred := s.deferred - 1 }

/-- `usb_configure`, of a device that was not configured; the host's toggle is reset with it. -/
def usb_configure (critical : Bool) (s : Tx) : Tx :=
  usb_tx_kick critical { s with
    configured := true, tx_busy := false, tx_pending := false, data_in_pid := false
    host := { s.host with data1 := false } }

/-- A step of `usb_service`. -/
def usb_service (seen : Seen) (s : Tx) : Tx :=
  match s.pc with
  | .out => { s with pc := .sof seen.sof (s.buff_status || seen.other) }
  | .sof sof buff =>
    let s := if sof then s.usb_tx_release else s
    { s with pc := if buff then .status else .late }
  | .status => { s with buff_status := false, pc := if s.buff_status then .done else .late }
  | .done => { usb_tx_kick seen.critical { s with tx_busy := false } with pc := .late }
  | .late =>
    let s := if s.tx_pending && seen.late then s.usb_tx_release else s
    { s with pc := .kick }
  | .kick => { s.usb_tx_kick seen.critical with pc := .recover }
  | .recover =>
    if !s.configured || !s.tx_busy || s.tx_pending then { s with pc := .out }
    else { s with pc := if !s.ctrl.avail && !s.ctrl.full then .recoverStatus else .out }
  | .recoverStatus =>
    if s.buff_status then { s with pc := .out }
    else { usb_tx_kick seen.critical { s with tx_busy := false } with pc := .out }

/-- The packet of a control word. -/
def packet (s : Tx) (v : BufCtrl) : List UInt8 := (List.range v.len).map s.buf_data_in

/-- The host takes a packet whose toggle it expects, and throws away one that it has. -/
def heard (s : Tx) : Host :=
  if s.ctrl.data1 = s.host.data1 then
    { data1 := !s.host.data1, received := s.host.received ++ s.packet s.ctrl }
  else s.host

def send (acked : Bool) (s : Tx) : Tx :=
  let s := { s with host := s.heard }
  if acked then { s with ctrl := { s.ctrl with avail := false, full := false }, buff_status := true } else s

def step (s : Tx) : Event → Option Tx
  | .usb_tx_put c => some (s.usb_tx_put c)
  | .usb_tx_kick critical => some (s.usb_tx_kick critical)
  | .service seen => some (s.usb_service seen)
  | .configure critical => if s.configured then none else some (s.usb_configure critical)
  | .send acked => if s.ctrl.avail then some (s.send acked) else none
  | .lose => some { s with buff_status := false }

/-- The bytes in the ring. -/
def queued (s : Tx) : List UInt8 :=
  ringCells usbTxring s.usb_tx_ring s.tx_tail (ahead word s.tx_head s.tx_tail)

/-- The packet that has left the ring and that the host has not taken yet. -/
def flight (s : Tx) : List UInt8 :=
  if s.tx_pending then s.packet s.tx_pending_ctrl
  else if s.ctrl.avail ∧ s.ctrl.data1 = s.host.data1 then s.packet s.ctrl
  else []

end Tx

/-- A line of `size` bytes that drops its oldest byte for a new one when it is full: what was put, what has been taken
from it, and what is in it. -/
inductive Line (size : ℕ) : List UInt8 → List UInt8 → List UInt8 → Prop
  | nil : Line size [] [] []
  | put {bs out q : List UInt8} (c : UInt8) (h : Line size bs out q) (hroom : q.length < size) :
      Line size (bs ++ [c]) out (q ++ [c])
  | drop {bs out q : List UInt8} {x : UInt8} (c : UInt8) (h : Line size bs out (x :: q))
      (hfull : (x :: q).length = size) : Line size (bs ++ [c]) out (q ++ [c])
  | take {bs out q q' : List UInt8} (h : Line size bs out (q ++ q')) : Line size bs (out ++ q) q'

end DiscoBSD.Usb
