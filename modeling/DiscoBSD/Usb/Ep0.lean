import Mathlib.Data.List.Basic
import DiscoBSD.Lib.Runs
import DiscoBSD.Usb.Tx

/-!
# What a SETUP packet asks

The request checks of `sys/arch/rp2040/dev/usb.h` and `usb_reset.h`, the descriptors of `usb.c`, and the decisions of
`usb_setup`. **An answer is one of a few**: a reply, a zero-length packet, data that is waited for, a stall, or a reset
of the processor.
-/

set_option autoImplicit false

namespace DiscoBSD.Usb

/-- The eight bytes of a SETUP packet. -/
abbrev Setup := Fin 8 → UInt8

namespace Setup

def ofBytes (bs : List UInt8) : Setup := fun i => bs.getD i 0

def u16 (lo hi : UInt8) : ℕ := lo.toNat ||| hi.toNat <<< 8

def type (p : Setup) : ℕ := (p 0).toNat
def request (p : Setup) : ℕ := (p 1).toNat
def wvalue (p : Setup) : ℕ := u16 (p 2) (p 3)
def windex (p : Setup) : ℕ := u16 (p 4) (p 5)
def wlength (p : Setup) : ℕ := u16 (p 6) (p 7)

end Setup

/-! ## Constants -/

def usbConfigurationValue : ℕ := 1
def usbInterfaceCount : ℕ := 3
def usbStringDescriptorCount : ℕ := 6
def usbStringLangidEnUs : ℕ := 0x0409
def usbCdcLineCodingSize : ℕ := 7

def epNotify : UInt8 := 1
def epData : UInt8 := 2
def itfCdcComm : ℕ := 0
def itfCdcData : ℕ := 1
def itfReset : ℕ := 2

def reqGetStatus : ℕ := 0
def reqClearFeature : ℕ := 1
def reqSetAddress : ℕ := 5
def reqGetDescriptor : ℕ := 6
def reqGetConfiguration : ℕ := 8
def reqSetConfiguration : ℕ := 9
def reqGetInterface : ℕ := 10
def reqSetInterface : ℕ := 11

def cdcSetLineCoding : ℕ := 0x20
def cdcGetLineCoding : ℕ := 0x21
def cdcSetControlLineState : ℕ := 0x22
def cdcSendBreak : ℕ := 0x23

def resetRequestBootsel : ℕ := 1
def resetRequestFlash : ℕ := 2

def descDevice : ℕ := 1
def descConfiguration : ℕ := 2
def descString : ℕ := 3
def descBos : ℕ := 15

def msOs20VendorCode : ℕ := 1
def msOs20DescriptorIndex : ℕ := 7

/-! ## The checks -/

def usb_get_descriptor_request_valid (type value index : ℕ) : Bool :=
  type = 0x80 && (
    if value >>> 8 = descDevice ∨ value >>> 8 = descConfiguration ∨ value >>> 8 = descBos then
      value &&& 0xff = 0 && index = 0
    else if value >>> 8 = descString then
      value &&& 0xff < usbStringDescriptorCount && (index = 0 || index = usbStringLangidEnUs)
    else false)

def usb_set_address_request_valid (type value index length : ℕ) : Bool :=
  type = 0 && value ≤ 0x7f && index = 0 && length = 0

def usb_set_configuration_request_valid (type value index length : ℕ) : Bool :=
  type = 0 && (value = 0 || value = usbConfigurationValue) && index = 0 && length = 0

def usb_set_interface_request_valid (type value interface_number length : ℕ) : Bool :=
  type = 1 && value = 0 && interface_number < usbInterfaceCount && length = 0

def usb_get_configuration_request_valid (type value index length : ℕ) : Bool :=
  type = 0x80 && value = 0 && index = 0 && length = 1

def usb_get_interface_request_valid (type value interface_number length : ℕ) : Bool :=
  type = 0x81 && value = 0 && interface_number < usbInterfaceCount && length = 1

def usb_status_endpoint_valid (endpoint_address : ℕ) : Bool :=
  endpoint_address = 0x00 || endpoint_address = 0x80 || endpoint_address = 0x81 || endpoint_address = 0x02 ||
    endpoint_address = 0x82

/-- The fields are 8 and 16 bits wide, which the source checks first. -/
def usb_fields_fit (type value index length : ℕ) : Bool :=
  type ≤ 0xff && value ≤ 0xffff && index ≤ 0xffff && length ≤ 0xffff

def usb_get_status_request_valid (type value index length : ℕ) : Bool :=
  usb_fields_fit type value index length && value = 0 && length = 2 && (
    if type = 0x80 then index = 0
    else if type = 0x81 then index < usbInterfaceCount
    else if type = 0x82 then index ≤ 0xff && usb_status_endpoint_valid index
    else false)

def usb_get_status_request_allowed (type value index length : ℕ) (configured : Bool) : Bool :=
  usb_get_status_request_valid type value index length &&
    (type = 0x80 || type = 0x82 && (index = 0x00 || index = 0x80) || configured)

def usb_endpoint_feature_request_valid (type request value index length : ℕ) : Bool :=
  usb_fields_fit type value index length && type = 0x02 && (request = 1 || request = 3) && value = 0 && index ≤ 0xff &&
    length = 0 && (index = 0x81 || index = 0x02 || index = 0x82)

def usb_cdc_line_coding_length_valid (received_length : ℕ) : Bool := received_length = usbCdcLineCodingSize

def usb_cdc_request_valid (type request value index length : ℕ) : Bool :=
  usb_fields_fit type value index length && index = itfCdcComm && (
    if request = cdcSetLineCoding then type = 0x21 && value = 0 && length = usbCdcLineCodingSize
    else if request = cdcGetLineCoding then type = 0xa1 && value = 0 && length = usbCdcLineCodingSize
    else if request = cdcSetControlLineState then type = 0x21 && value ≤ 3 && length = 0
    else if request = cdcSendBreak then type = 0x21 && length = 0
    else false)

/-- The bits outside `USB_RESET_BOOTSEL_VALUE_MASK` are 0x007c. -/
def usb_reset_bootsel_value_valid (value : ℕ) : Bool :=
  value ≤ 0xffff && value &&& 0x007c = 0 && (value &&& 0x0100 ≠ 0 || value &&& (0x0080 ||| 0xfe00) = 0) &&
    (value &&& 0x0100 = 0 || value >>> 9 < 30)

def usb_reset_request_valid (type request value index length : ℕ) (configured : Bool) : Bool :=
  configured && type = 0x21 && request ≤ 0xff && index = itfReset && length = 0 && (
    if request = resetRequestBootsel then usb_reset_bootsel_value_valid value
    else if request = resetRequestFlash then value = 0
    else false)

/-! ## The descriptors -/

def usb_device_desc : List UInt8 :=
  [18, 1, 0x10, 0x02, 0xef, 0x02, 0x01, 64, 0x8a, 0x2e, 0x0a, 0x00, 0x01, 0x01, 1, 2, 3, 1]

def usb_bos_desc : List UInt8 :=
  [5, 15, 33, 0, 1] ++
  [28, 16, 5, 0, 0xdf, 0x60, 0xdd, 0xd8, 0x89, 0x45, 0xc7, 0x4c, 0x9c, 0xd2, 0x65, 0x9d, 0x9e, 0x64, 0x8a, 0x9f,
    0x00, 0x00, 0x03, 0x06, 166, 0, 1, 0]

/-- The characters with a zero byte after each. -/
def utf16 (s : String) : List UInt8 := s.toList.flatMap fun c => [UInt8.ofNat c.toNat, 0]

def usb_ms_os_20_desc : List UInt8 :=
  [10, 0, 0x00, 0, 0x00, 0x00, 0x03, 0x06, 166, 0] ++ [8, 0, 0x02, 0, 2, 0, 156, 0] ++
  [20, 0, 0x03, 0] ++ "WINUSB".toList.map (fun c => UInt8.ofNat c.toNat) ++ List.replicate 10 0 ++
  [128, 0, 0x04, 0, 1, 0, 40, 0] ++ utf16 "DeviceInterfaceGUID" ++ [0, 0] ++ [78, 0] ++
  utf16 "\x7bbc7398c1-73cd-4cb7-98b8-913a8fca7bf6\x7d" ++ [0, 0]

def usb_config_desc : List UInt8 :=
  [9, 2, 84, 0, 3, 1, 0, 0x80, 125] ++ [8, 0x0b, 0, 2, 0x02, 0x02, 0x00, 0] ++
  [9, 0x04, 0, 0, 1, 0x02, 0x02, 0x00, 4] ++ [5, 0x24, 0x00, 0x10, 0x01] ++ [5, 0x24, 0x01, 0x00, 1] ++
  [4, 0x24, 0x02, 0x02] ++ [5, 0x24, 0x06, 0, 1] ++ [7, 0x05, 0x80 ||| epNotify, 0x03, 8, 0, 16] ++
  [9, 0x04, 1, 0, 2, 0x0a, 0x00, 0x00, 0] ++ [7, 0x05, epData, 0x02, 64, 0, 0] ++
  [7, 0x05, 0x80 ||| epData, 0x02, 64, 0, 0] ++ [9, 0x04, 2, 0, 0, 0xff, 0x00, 0x01, 5]

def usb_strings : List String := ["", "DiscoBSD", "DiscoBSD RP2040 console", "rp2040", "Console", "Reset"]

/-! ## The decisions -/

inductive Answer where
  /-- `usb_ep0_send`. -/
  | send (bytes : List UInt8)
  /-- `usb_ep0_ack`, with the address for afterwards or the state of the configuration. -/
  | ack
  | setAddress (address : ℕ)
  | configure (on : Bool)
  /-- `EP0_OUT_DATA`. -/
  | outData
  | stall
  /-- The processor is reset, or is in the boot loader. -/
  | reset

def Answer.setsAddress : Answer → Bool
  | setAddress _ => true
  | _ => false

def usb_string_desc (index : ℕ) : Answer :=
  if index ≥ usbStringDescriptorCount then .stall
  else if index = 0 then .send [4, 3, 0x09, 0x04]
  else
    let s := (usb_strings.getD index "").toList.take 31
    .send ([UInt8.ofNat (2 + 2 * s.length), 3] ++ s.flatMap fun c => [UInt8.ofNat c.toNat, 0])

/-- The standard requests. -/
def standard (configured : Bool) (p : Setup) : Answer :=
  if p.request = reqGetDescriptor then
    if !usb_get_descriptor_request_valid p.type p.wvalue p.windex then .stall
    else if p.wvalue >>> 8 = descDevice then .send usb_device_desc
    else if p.wvalue >>> 8 = descConfiguration then .send usb_config_desc
    else if p.wvalue >>> 8 = descString then usb_string_desc (p.wvalue &&& 0xff)
    else if p.wvalue >>> 8 = descBos then .send usb_bos_desc
    else .stall
  else if p.request = reqSetAddress then
    if !usb_set_address_request_valid p.type p.wvalue p.windex p.wlength || configured then .stall
    else .setAddress p.wvalue
  else if p.request = reqSetConfiguration then
    if !usb_set_configuration_request_valid p.type p.wvalue p.windex p.wlength then .stall
    else .configure (p.wvalue = usbConfigurationValue)
  else if p.request = reqGetConfiguration then
    if !usb_get_configuration_request_valid p.type p.wvalue p.windex p.wlength then .stall
    else .send [if configured then 1 else 0]
  else if p.request = reqGetStatus then
    if !usb_get_status_request_allowed p.type p.wvalue p.windex p.wlength configured then .stall
    else .send [0, 0]
  else if p.request = reqGetInterface then
    if !usb_get_interface_request_valid p.type p.wvalue p.windex p.wlength || !configured then .stall
    else .send [0]
  else if p.request = reqClearFeature then
    if !usb_endpoint_feature_request_valid p.type p.request p.wvalue p.windex p.wlength || !configured then .stall
    else .ack
  else if p.request = reqSetInterface then
    if !usb_set_interface_request_valid p.type p.wvalue p.windex p.wlength || !configured then .stall
    else .ack
  -- `SET_FEATURE` and all others
  else .stall

/-- The class requests of the CDC interfaces. -/
def cdc (line_coding : List UInt8) (p : Setup) : Answer :=
  if !usb_cdc_request_valid p.type p.request p.wvalue p.windex p.wlength then .stall
  else if p.request = cdcSetLineCoding then .outData
  else if p.request = cdcGetLineCoding then .send line_coding
  else .ack

/-- What `usb_setup` answers. What it does to the bulk endpoints is no part of the answer. -/
def answer (configured : Bool) (line_coding : List UInt8) (p : Setup) : Answer :=
  if p.type &&& 0x60 = 0x00 then standard configured p
  else if p.type = 0xc0 ∧ p.request = msOs20VendorCode ∧ p.windex = msOs20DescriptorIndex then .send usb_ms_os_20_desc
  else if (p.type &&& 0x60 = 0x20 ∨ p.type &&& 0x60 = 0x40) ∧ p.type &&& 0x1f = 1 ∧ p.windex &&& 0xff = itfReset then
    if !usb_reset_request_valid p.type p.request p.wvalue p.windex p.wlength configured then .stall else .reset
  else if p.type &&& 0x60 = 0x20 then cdc line_coding p
  else .stall

example : usb_device_desc.length = 18 ∧ usb_bos_desc.length = 33 ∧ usb_ms_os_20_desc.length = 166 ∧
    usb_config_desc.length = 84 := by
  decide +kernel

end DiscoBSD.Usb

/-!
# The control endpoint

The EP0 helpers of `sys/arch/rp2040/dev/usb.c`, `usb_setup`, and what `usb_service` does with EP0, from one pass to the
next. The transfers are numbered, and **a completion belongs to the transfer that armed the buffer**; the code does not
see the number.
-/

namespace DiscoBSD.Usb

/-- A packet of the data stage. -/
structure Packet where
  bytes : List UInt8
  data1 : Bool
  deriving DecidableEq

namespace Ep0

inductive Stage where
  | idle
  | inData
  | inStatus
  | outData
  | outStatus
  deriving DecidableEq

structure Ctrl extends BufCtrl where
  stall : Bool

/-- Where `usb_service` is. -/
inductive Pc where
  /-- It does not run. -/
  | out
  /-- `USB_INTS` has been read. -/
  | reset (bus_reset setup buff : Bool)
  | setup (setup buff : Bool)
  /-- Before `USB_BUFF_STATUS` is read and cleared. -/
  | status
  /-- The EP0 bits that were set, with the transfers of the two buffers. -/
  | epIn (done : Option ℕ) (outDone : Option ℕ)
  | epOut (done : Option ℕ)
  deriving DecidableEq

end Ep0

open Ep0 in
structure Ep0 where
  configured : Bool
  address : ℕ
  stage : Stage
  /-- The data that is left; `in_len` is its length. -/
  in_ptr : List UInt8
  in_zlp : Bool
  ep0_in_pid : Bool
  line_coding : List UInt8
  /-- `USB_ADDR_ENDP`, the control words, and the buffer of both directions. -/
  addr_endp : ℕ
  ctrl_in : Ctrl
  ctrl_out : Ctrl
  ep0_buf : ℕ → UInt8
  /-- The EP0 bits of `USB_BUFF_STATUS`, each with the transfer whose buffer it was. -/
  in_done : Option ℕ
  out_done : Option ℕ
  bus_reset : Bool
  setup : Option Setup
  pc : Pc
  /-- The number of the transfer, and its SETUP packet. -/
  xfer : ℕ
  asked : Option Setup
  /-- The transfers that armed the buffers. -/
  in_of : ℕ
  out_of : ℕ
  /-- The reply of this transfer with its `wLength`, the packets of it that were armed, and the completions of them that
  were served. -/
  reply : Option (List UInt8 × ℕ)
  sent : List Packet
  served : ℕ
  /-- A packet was armed over one that the controller had. -/
  rearmed : Bool

/-- After `usbinit`. -/
def Ep0.init : Ep0 where
  configured := false
  address := 0
  stage := .idle
  in_ptr := []
  in_zlp := false
  ep0_in_pid := false
  line_coding := [0x00, 0xc2, 0x01, 0, 0, 0, 8]
  addr_endp := 0
  ctrl_in := { avail := false, full := false, data1 := false, len := 0, stall := false }
  ctrl_out := { avail := false, full := false, data1 := false, len := 0, stall := false }
  ep0_buf := fun _ => 0
  in_done := none
  out_done := none
  bus_reset := false
  setup := none
  pc := .out
  xfer := 0
  asked := none
  in_of := 0
  out_of := 0
  reply := none
  sent := []
  served := 0
  rearmed := false

namespace Ep0

inductive Event where
  /-- The next step of `usb_service`, and whether another endpoint has a completion. -/
  | service (other : Bool)
  /-- The host takes the IN buffer. -/
  | completeIn
  /-- The host fills the OUT buffer. -/
  | completeOut (bytes : List UInt8)
  | setup (p : Setup)
  | busReset

def stalled : Ctrl := { avail := false, full := false, data1 := false, len := 0, stall := true }

def usb_ep0_stall (s : Ep0) : Ep0 := { s with ctrl_in := stalled, ctrl_out := stalled, stage := .idle }

def armIn (len : ℕ) (data1 : Bool) (s : Ep0) : Ep0 :=
  { s with ctrl_in := { avail := true, full := true, data1 := data1, len := len, stall := false }, in_of := s.xfer }

def armOut (len : ℕ) (s : Ep0) : Ep0 :=
  { s with ctrl_out := { avail := true, full := false, data1 := true, len := len, stall := false }, out_of := s.xfer }

/-- The length of the next packet. -/
def next (s : Ep0) : ℕ := if s.in_ptr.length > usbPacketMax then usbPacketMax else s.in_ptr.length

def usb_ep0_in_next (s : Ep0) : Ep0 :=
  let n := s.next
  let rest := s.in_ptr.drop n
  armIn n s.ep0_in_pid { s with
    ep0_buf := fun i => if i < n then s.in_ptr.getD i 0 else s.ep0_buf i
    in_ptr := rest
    in_zlp := if rest.length = 0 ∧ n < usbPacketMax then false else s.in_zlp
    ep0_in_pid := !s.ep0_in_pid
    sent := s.sent ++ [⟨s.in_ptr.take n, s.ep0_in_pid⟩]
    rearmed := s.rearmed || (s.ctrl_in.avail && s.in_of = s.xfer) }

def usb_ep0_send (p : List UInt8) (wlength : ℕ) (s : Ep0) : Ep0 :=
  let len := if p.length > wlength then wlength else p.length
  usb_ep0_in_next { s with
    in_ptr := p.take len
    in_zlp := len < wlength && len % usbPacketMax = 0
    stage := .inData
    reply := some (p, wlength) }

def usb_ep0_ack (s : Ep0) : Ep0 := armIn 0 true { s with stage := .inStatus, ep0_in_pid := false }

def usb_ep0_expect_status (s : Ep0) : Ep0 := armOut 0 { s with stage := .outStatus }

/-- None where the processor is reset. -/
def usb_setup (p : Setup) (s : Ep0) : Option Ep0 :=
  let s := { s with
    ep0_in_pid := true, stage := .idle
    xfer := s.xfer + 1, asked := some p, reply := none, sent := [], served := 0 }
  match answer s.configured s.line_coding p with
  | .send bytes => some (s.usb_ep0_send bytes p.wlength)
  | .ack => some s.usb_ep0_ack
  | .setAddress address => some (usb_ep0_ack { s with address := address })
  | .configure on => some (usb_ep0_ack { s with configured := on })
  | .outData => some (armOut p.wlength { s with stage := .outData })
  | .stall => some s.usb_ep0_stall
  | .reset => none

/-- A bus reset. It ends the transfer. -/
def busReset (s : Ep0) : Ep0 :=
  { s with
    bus_reset := false, addr_endp := 0, address := 0, stage := .idle, configured := false
    xfer := s.xfer + 1, asked := none, reply := none, sent := [], served := 0 }

/-- An IN buffer went out: an address that is pending takes effect. -/
def taken (of : ℕ) (s : Ep0) : Ep0 :=
  { s with
    served := if of = s.xfer then s.served + 1 else s.served
    addr_endp := if s.address ≠ 0 then s.address else s.addr_endp
    address := 0 }

/-- The stage goes on. -/
def goes (s : Ep0) : Ep0 :=
  match s.stage with
  | .inData =>
    if s.in_ptr.length ≠ 0 then s.usb_ep0_in_next
    else if s.in_zlp then usb_ep0_in_next { s with in_zlp := false }
    else s.usb_ep0_expect_status
  | _ => { s with stage := .idle }

/-- An OUT buffer came in. -/
def outDone (s : Ep0) : Ep0 :=
  match s.stage with
  | .outData =>
    if !usb_cdc_line_coding_length_valid s.ctrl_out.len then s.usb_ep0_stall
    else usb_ep0_ack { s with line_coding := (List.range usbCdcLineCodingSize).map s.ep0_buf }
  | _ => { s with stage := .idle }

/-- A step of `usb_service`. -/
def usb_service (other : Bool) (s : Ep0) : Option Ep0 :=
  match s.pc with
  | .out =>
    some { s with
      pc := .reset s.bus_reset s.setup.isSome (s.in_done.isSome || s.out_done.isSome || other) }
  | .reset bus_reset setup buff => some { (if bus_reset then s.busReset else s) with pc := .setup setup buff }
  | .setup setup buff =>
    match setup, s.setup with
    | true, some p => (usb_setup p { s with setup := none }).map fun s => { s with pc := if buff then .status else .out }
    | _, _ => some { s with pc := if buff then .status else .out }
  | .status => some { s with in_done := none, out_done := none, pc := .epIn s.in_done s.out_done }
  | .epIn done outDone =>
    some { (match done with
      | some of => (s.taken of).goes
      | none => s) with pc := .epOut outDone }
  | .epOut done => some { (if done.isSome then s.outDone else s) with pc := .out }

def completeIn (s : Ep0) : Ep0 :=
  { s with ctrl_in := { s.ctrl_in with avail := false, full := false }, in_done := some s.in_of }

def completeOut (bytes : List UInt8) (s : Ep0) : Ep0 :=
  { s with
    ctrl_out := { s.ctrl_out with avail := false, full := true, len := bytes.length }
    ep0_buf := fun i => bytes.getD i (s.ep0_buf i)
    out_done := some s.out_of }

def step (s : Ep0) : Event → Option Ep0
  | .service other => s.usb_service other
  | .completeIn => if s.ctrl_in.avail then some s.completeIn else none
  | .completeOut bytes => if s.ctrl_out.avail then some (s.completeOut bytes) else none
  | .setup p => some { s with setup := some p }
  | .busReset => some { s with bus_reset := true }

end Ep0

/-! ## What a reply is -/

/-- The data in packets. -/
def chunks : List UInt8 → List (List UInt8)
  | [] => []
  | c :: cs => (c :: cs).take usbPacketMax :: chunks ((c :: cs).drop usbPacketMax)
termination_by data => data.length
decreasing_by
  rw [List.length_drop, List.length_cons]
  unfold usbPacketMax
  omega

/-- Toggles that alternate. -/
def alternate : Bool → List (List UInt8) → List Packet
  | _, [] => []
  | data1, c :: cs => ⟨c, data1⟩ :: alternate (!data1) cs

/-- The packets of a reply to `wlength` bytes: as many bytes as were asked for, and a zero-length packet where the reply
is short and fills its last packet. With `wlength` 0 there is no data stage, and the empty packet is the status. -/
def packets (reply : List UInt8) (wlength : ℕ) : List Packet :=
  let data := reply.take wlength
  alternate true (
    if wlength = 0 then [[]]
    else chunks data ++ if data.length < wlength ∧ data.length % usbPacketMax = 0 then [[]] else [])

namespace Ep0

/-- What is claimed of a reply: the packets of it that have been armed are its first ones, one more than have been taken,
and none has been armed over one that the controller had. -/
structure Sound (s : Ep0) : Prop where
  reply : ∀ r w, s.reply = some (r, w) → s.sent = (packets r w).take (s.served + 1)
  rearmed : s.rearmed = false

/-- Where the transfer is. -/
def progress (s : Ep0) : (Stage × List UInt8 × Bool × Bool) × (List Packet × ℕ × ℕ × ℕ × List UInt8) :=
  ((s.stage, s.in_ptr, s.in_zlp, s.ep0_in_pid), (s.sent, s.served, s.address, s.addr_endp, s.line_coding))

/-- What is claimed of a step: the completion of an abandoned transfer leaves the new one where it was, and an address
takes effect with a completion of its own `SET_ADDRESS`. -/
structure Keeps (s s' : Ep0) : Prop where
  staleIn : ∀ of out, s.pc = .epIn (some of) out → of ≠ s.xfer → s'.progress = s.progress
  staleOut : ∀ of, s.pc = .epOut (some of) → of ≠ s.xfer → s'.progress = s.progress
  address : s'.addr_endp ≠ s.addr_endp → s'.addr_endp ≠ 0 → ∃ out p, s.pc = .epIn (some s.xfer) out ∧
    s.asked = some p ∧ p.request = reqSetAddress ∧ p.wvalue = s'.addr_endp

def Fair (s : Ep0) (e : Event) : Prop := ∀ s', s.step e = some s' → Keeps s s'

/-- A SETUP is served with no address pending, unless it sets one. -/
def SafeSetup (s : Ep0) (p : Setup) : Prop :=
  (answer s.configured s.line_coding p).setsAddress = false → s.address = 0

/-- The completions that are served are of this transfer, or nothing is in progress. -/
def SafeAt (s : Ep0) : Pc → Prop
  | .setup setup _ => setup = true → ∀ p ∈ s.setup, s.SafeSetup p
  | .epIn done _ => ∀ of ∈ done, of = s.xfer ∨ s.stage = .idle ∧ s.address = 0
  | .epOut done => ∀ of ∈ done, of = s.xfer ∨ s.stage = .idle
  | _ => True

def Safe (s : Ep0) : Event → Prop
  | .service _ => s.SafeAt s.pc
  | _ => True

instance (s : Ep0) (p : Setup) : Decidable (s.SafeSetup p) :=
  inferInstanceAs (Decidable ((answer s.configured s.line_coding p).setsAddress = false → s.address = 0))

-- Of a packet that is there: not every packet is tried.
instance (s : Ep0) : (pc : Pc) → Decidable (s.SafeAt pc)
  | .setup setup _ =>
    have := Option.decidableForallMem (p := s.SafeSetup) s.setup
    inferInstanceAs (Decidable (setup = true → ∀ p ∈ s.setup, s.SafeSetup p))
  | .epIn done _ => inferInstanceAs (Decidable (∀ of ∈ done, of = s.xfer ∨ s.stage = .idle ∧ s.address = 0))
  | .epOut done => inferInstanceAs (Decidable (∀ of ∈ done, of = s.xfer ∨ s.stage = .idle))
  | .out | .reset .. | .status => isTrue trivial

instance (s : Ep0) : (e : Event) → Decidable (s.Safe e)
  | .service _ => inferInstanceAs (Decidable (s.SafeAt s.pc))
  | .completeIn | .completeOut _ | .setup _ | .busReset => isTrue trivial

end Ep0

end DiscoBSD.Usb
