import DiscoBSD.Lib.Word

/-!
# An SD card in SPI mode

`sys/arch/rp2040/dev/sdspi.c`: command framing, `sdspi_init` and the addresses of the transfers after it.
The driver runs on a transport of one full-duplex byte, chip select, clock class and a microsecond
clock; **whatever stands behind these four is the card**, and all the driver knows of it is the bytes
that came back.

The waits of the source have a time limit and no count. Here they take a number of turns, and `none`
is a wait that would go on.
-/

set_option autoImplicit false

namespace DiscoBSD.Sd

open DiscoBSD.Lib

/-! ## The transport -/

/-- `struct sdspi_ops`. The clock is read modulo 2^32. -/
structure SdspiOps (σ : Type) where
  xfer : UInt8 → σ → UInt8 × σ
  select : Bool → σ → σ
  speed : Bool → σ → σ
  micros : σ → Nat × σ

/-- A piece of the driver. -/
abbrev Spi (σ α : Type) := StateT σ Option α

section
variable {σ : Type} (o : SdspiOps σ)

def SdspiOps.byte (out : UInt8) : Spi σ UInt8 := fun s => some (o.xfer out s)

def SdspiOps.chip (on : Bool) : Spi σ Unit := fun s => some ((), o.select on s)

def SdspiOps.clock (fast : Bool) : Spi σ Unit := fun s => some ((), o.speed fast s)

def SdspiOps.now : Spi σ Nat := fun s => some (o.micros s)

end

/-- `SD_SECTOR`. -/
def sdSector : Nat := 512

/-- `R1_IDLE`. -/
def r1Idle : UInt8 := 0x01

/-- `R1_ILLEGAL`. -/
def r1Illegal : UInt8 := 0x04

/-- `R1_NONE`. -/
def r1None : UInt8 := 0xff

/-- `TOKEN_START`. -/
def tokenStart : UInt8 := 0xfe

/-- `INIT_US`, `READ_US` and `BUSY_US`. -/
def initUs : Nat := 1000000
def readUs : Nat := 100000
def busyUs : Nat := 500000

/-- Card types. -/
inductive SdType where
  | none
  | v1
  | v2
  | hc
  deriving DecidableEq, Repr

/-- Results. -/
inductive Sde where
  | ok
  | nocard
  | unsupported
  | timeout
  | io
  deriving DecidableEq, Repr

/-- `struct sdspi`, less the transport. -/
structure Sdspi where
  type : SdType
  nsectors : Nat
  deriving DecidableEq, Repr

/-! ## Commands -/

section
variable {σ : Type} (o : SdspiOps σ)

/-- The time since `t0`. -/
def SdspiOps.since (t0 : Nat) : Spi σ Nat := do
  let t ← o.now
  return wrap 32 (t + 2 ^ 32 - t0)

def sdDone : Spi σ Unit := do
  o.chip false
  discard (o.byte 0xff)

/-- `while (o->xfer(0xff) != 0xff)`. -/
def readyLoop (t0 : Nat) : Nat → Spi σ Bool
  | 0 => failure
  | turns + 1 => do
    let b ← o.byte 0xff
    if b = 0xff then return true
    let t ← o.since t0
    if busyUs ≤ t then return false
    readyLoop t0 turns

def sdReady (turns : Nat) : Spi σ Bool := do
  let t0 ← o.now
  readyLoop o t0 turns

/-- `for (i = 0; i < NCR_MAX && (r & 0x80); i++)`. -/
def ncrLoop : Nat → UInt8 → Spi σ UInt8
  | 0, r => return r
  | n + 1, r => if r &&& 0x80 = 0 then return r else do
    let r ← o.byte 0xff
    ncrLoop n r

/-- `sd_cmd`. -/
def sdCmd (turns cmd arg : Nat) : Spi σ UInt8 := do
  o.chip true
  if !(← sdReady o turns) then return r1None
  discard (o.byte (UInt8.ofNat (0x40 ||| cmd)))
  discard (o.byte (UInt8.ofNat (arg >>> 24)))
  discard (o.byte (UInt8.ofNat (arg >>> 16)))
  discard (o.byte (UInt8.ofNat (arg >>> 8)))
  discard (o.byte (UInt8.ofNat arg))
  discard (o.byte (if cmd = 0 then 0x95 else if cmd = 8 then 0x87 else 0x01))
  let r ← ncrLoop o 8 r1None
  return if r &&& 0x80 = 0 then r else r1None

/-- `sd_acmd`: CMD55, then the application command. -/
def sdAcmd (turns acmd arg : Nat) : Spi σ UInt8 := do
  let r ← sdCmd o turns 55 0
  sdDone o
  if r1Idle < r then return r
  let r ← sdCmd o turns acmd arg
  sdDone o
  return r

/-- `sd_tail`. -/
def sdTail : Nat → Spi σ (List UInt8)
  | 0 => return []
  | n + 1 => do
    let b ← o.byte 0xff
    let bs ← sdTail n
    return b :: bs

/-- `while ((b = o->xfer(0xff)) == 0xff)`: the token, or nothing in time. -/
def tokenLoop (t0 : Nat) : Nat → Spi σ (Option UInt8)
  | 0 => failure
  | turns + 1 => do
    let b ← o.byte 0xff
    if b ≠ 0xff then return some b
    let t ← o.since t0
    if readUs ≤ t then return none
    tokenLoop t0 turns

/-- `sd_rx`: a start token, `n` bytes and the CRC. -/
def sdRx (turns n : Nat) : Spi σ (Except Sde (List UInt8)) := do
  let t0 ← o.now
  match ← tokenLoop o t0 turns with
  | none => return .error .timeout
  | some b =>
    if b ≠ tokenStart then return .error .io
    let buf ← sdTail o n
    discard (o.byte 0xff)
    discard (o.byte 0xff)
    return .ok buf

end

/-! ## Capacity -/

section
variable (csd : List UInt8)

/-- One byte of the register. -/
def csdByte (i : Nat) : Nat := (csd.getD i 0).toNat

/-- `c_size` of version 2.0. -/
def cSizeV2 : Nat := ((csdByte csd 7 &&& 0x3f) <<< 16) ||| (csdByte csd 8 <<< 8) ||| csdByte csd 9

/-- `c_size` of version 1.0. -/
def cSizeV1 : Nat := ((csdByte csd 6 &&& 3) <<< 10) ||| (csdByte csd 7 <<< 2) ||| (csdByte csd 8 >>> 6)

/-- `mult`. -/
def cSizeMult : Nat := ((csdByte csd 9 &&& 3) <<< 1) ||| (csdByte csd 10 >>> 7)

/-- `len`, the register's `READ_BL_LEN`. -/
def readBlLen : Nat := csdByte csd 5 &&& 0x0f

/-- `sdspi_csd_sectors`. -/
def csdSectors : Nat :=
  match csdByte csd 0 >>> 6 with
  | 1 => wrap 32 ((cSizeV2 csd + 1) <<< 10)
  | 0 =>
    if readBlLen csd < 9 then 0
    else wrap 32 ((cSizeV1 csd + 1) <<< (cSizeMult csd + 2 + readBlLen csd - 9))
  | _ => 0

/-- The bytes the register describes: `(C_SIZE + 1) * 512 KiB`, or `(C_SIZE + 1)` times
    `2^(C_SIZE_MULT + 2)` blocks of `2^READ_BL_LEN`. -/
def csdBytes : Nat :=
  match csdByte csd 0 >>> 6 with
  | 1 => (cSizeV2 csd + 1) * (512 * 1024)
  | 0 => (cSizeV1 csd + 1) * 2 ^ (cSizeMult csd + 2) * 2 ^ readBlLen csd
  | _ => 0

end

/-- `sd_addr`: the argument of a command for a sector. -/
def sdAddr (sd : Sdspi) (sector : Nat) : Nat :=
  if sd.type = .hc then sector else wrap 32 (sector * sdSector)

/-! ## sdspi_init -/

/-- What `sdspi_init` leaves, with its locals at the return. -/
structure Init where
  err : Sde
  sd : Sdspi
  v2 : Bool
  ocr : List UInt8
  csd : List UInt8
  deriving DecidableEq, Repr

/-- The type a card's answers give it. -/
def cardType (v2 : Bool) (ocr : List UInt8) : SdType :=
  if v2 then (if ocr.getD 0 0 &&& 0x40 ≠ 0 then .hc else .v2) else .v1

section
variable {σ : Type} (o : SdspiOps σ)

/-- A return before the card has a type. -/
def refuse (err : Sde) (v2 : Bool) : Init := ⟨err, ⟨.none, 0⟩, v2, [0, 0, 0, 0], []⟩

def powerUp : Nat → Spi σ Unit
  | 0 => return ()
  | n + 1 => do
    discard (o.byte 0xff)
    powerUp n

/-- `for (i = 0; i < CMD0_TRIES && r != R1_IDLE; i++)`. -/
def goIdle (turns : Nat) : Nat → UInt8 → Spi σ UInt8
  | 0, r => return r
  | n + 1, r => if r = r1Idle then return r else do
    let r ← sdCmd o turns 0 0
    sdDone o
    goIdle turns n r

/-- CMD8: a version 2.0 card echoes range and pattern. -/
def sendIfCond (turns : Nat) : Spi σ (Except Sde Bool) := do
  let r ← sdCmd o turns 8 0x1aa
  if r = r1Idle then
    let echo ← sdTail o 4
    sdDone o
    if echo.getD 2 0 &&& 0x0f ≠ 1 ∨ echo.getD 3 0 ≠ 0xaa then return .error .unsupported
    return .ok true
  else
    sdDone o
    if r = r1None ∨ r &&& r1Illegal = 0 then return .error .io
    return .ok false

/-- ACMD41 until the card leaves idle. -/
def opCondLoop (t0 hcs cmdTurns : Nat) : Nat → Spi σ Sde
  | 0 => failure
  | turns + 1 => do
    let r ← sdAcmd o cmdTurns 41 hcs
    if r = 0 then return .ok
    if r ≠ r1None ∧ r ≠ r1Idle then return if r &&& r1Illegal ≠ 0 then .unsupported else .io
    let t ← o.since t0
    if initUs ≤ t then return .timeout
    opCondLoop t0 hcs cmdTurns turns

/-- CMD58: the OCR, unless the card refuses or is not powered up. -/
def readOcr (turns : Nat) : Spi σ (Option (List UInt8)) := do
  let r ← sdCmd o turns 58 0
  if r = 0 then
    let ocr ← sdTail o 4
    sdDone o
    return if ocr.getD 0 0 &&& 0x80 = 0 then none else some ocr
  else
    sdDone o
    return none

/-- CMD16, for a card that is not block addressed. -/
def setBlocklen (turns : Nat) (type : SdType) : Spi σ Bool :=
  if type = .hc then return true
  else do
    let r ← sdCmd o turns 16 sdSector
    sdDone o
    return decide (r = 0)

/-- CMD9: the CSD. -/
def sendCsd (turns : Nat) : Spi σ (Except Sde (List UInt8)) := do
  let r ← sdCmd o turns 9 0
  let csd ← if r = 0 then sdRx o turns 16 else pure (.error .io)
  sdDone o
  return csd

/-- `sdspi_init` from CMD58 on. -/
def identify (turns : Nat) (v2 : Bool) : Spi σ Init := do
  match ← readOcr o turns with
  | none => return refuse .io v2
  | some ocr =>
    let type := cardType v2 ocr
    if !(← setBlocklen o turns type) then return ⟨.io, ⟨type, 0⟩, v2, ocr, []⟩
    o.clock true
    match ← sendCsd o turns with
    | .error err => return ⟨err, ⟨.none, 0⟩, v2, ocr, []⟩
    | .ok csd =>
      if csdSectors csd = 0 then return ⟨.io, ⟨.none, 0⟩, v2, ocr, csd⟩
      return ⟨.ok, ⟨type, csdSectors csd⟩, v2, ocr, csd⟩

/-- `sdspi_init`. -/
def sdspiInit (turns : Nat) : Spi σ Init := do
  o.clock false
  o.chip false
  powerUp o 10
  let r ← goIdle o turns 5 r1None
  if r ≠ r1Idle then return refuse (if r = r1None then .nocard else .unsupported) false
  match ← sendIfCond o turns with
  | .error err => return refuse err false
  | .ok v2 =>
    let t0 ← o.now
    match ← opCondLoop o t0 (if v2 then 0x40000000 else 0) turns turns with
    | .ok => identify o turns v2
    | err => return refuse err v2

end

end DiscoBSD.Sd
