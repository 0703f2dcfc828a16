import DiscoBSD.Lib.Nor
import DiscoBSD.Rmap.Map
import DiscoBSD.Swap.State

/-!
# Raw swap on NOR flash

`sys/arch/rp2040/dev/flash_swap.c`, with what leads to it for a write that carries `B_SWAPIMAGE`:
`swap_with_buf`, `flstrategy` for the swap unit, and `fl_raw`. An image owns a run of whole erase sectors
and is written in ascending pieces; `flash_swap_append` erases a sector **when a piece reaches its first
byte**, and looks at nothing but the offset to decide that.

The loop runs over the operations it is handed. Here they are the chip's own, `flash_erase` and
`flash_program`, which report no failure, and the chip keeps the list of what was done to it.
-/

set_option autoImplicit false

namespace DiscoBSD.Flash

open DiscoBSD.Lib DiscoBSD.Rmap
open DiscoBSD.Swap (btod devBsize)

/-- `FLASH_TOTAL_BYTES`. -/
def flashTotalBytes : Nat := 2048 * 1024

/-- `FLASH_PROG_BYTES`. -/
def flashProgBytes : Nat := 256

/-- `FLASH_SECTOR_BYTES`. -/
def flashSectorBytes : Nat := 4096

/-- `FLASH_SWAP_BYTES`. -/
def flashSwapBytes : Nat := 384 * 1024

/-- `FLASH_SWAP_OFFSET`. -/
def flashSwapOffset : Nat := flashTotalBytes - flashSwapBytes

/-! ## flash_swap_append -/

/-- `struct flash_swap_ops`, less the read, which appending does not use. The flag is false for a
    nonzero result. -/
structure FlashSwapOps (σ : Type) where
  erase : σ → Nat → Nat → Bool × σ
  program : σ → Nat → List UInt8 → Bool × σ

/-- One program page: `scratch` pads a short one with erased bytes. -/
def progPage (source : List UInt8) : List UInt8 :=
  if min source.length flashProgBytes = flashProgBytes then source.take flashProgBytes
  else source ++ List.replicate (flashProgBytes - source.length) 0xff

/-- `while (length != 0)`. Every turn takes at least a byte. -/
def appendLoop {σ : Type} (ops : FlashSwapOps σ) : Nat → σ → Nat → List UInt8 → Bool × σ
  | 0, s, _, source => (decide (source.length = 0), s)
  | turns + 1, s, offset, source =>
    if source.length = 0 then (true, s)
    else
      let erased :=
        if offset &&& (flashSectorBytes - 1) = 0 then ops.erase s offset flashSectorBytes
        else (true, s)
      match erased with
      | (false, s) => (false, s)
      | (true, s) =>
        match ops.program s offset (progPage source) with
        | (false, s) => (false, s)
        | (true, s) =>
          appendLoop ops turns s (wrap 32 (offset + flashProgBytes)) (source.drop flashProgBytes)

/-- `flash_swap_append`. -/
def flashSwapAppend {σ : Type} (ops : FlashSwapOps σ) (s : σ) (offset : Nat) (source : List UInt8) :
    Bool × σ :=
  if offset &&& (flashProgBytes - 1) ≠ 0 then (false, s) else appendLoop ops source.length s offset source

/-! ## The way there -/

/-- The flash chip, with what was done to it. -/
structure Chip where
  mem : Nat → UInt8
  log : List NorOp

def Chip.perform (c : Chip) (op : NorOp) : Chip := ⟨op.apply c.mem, c.log ++ [op]⟩

/-- `flswap_ops`. -/
def flswapOps : FlashSwapOps Chip where
  erase c off len := (true, c.perform (.erase off len))
  program c off data := (true, c.perform (.program off data))

/-- `fl_raw` for a write with `B_SWAPIMAGE`. -/
def flRaw (c : Chip) (off : Nat) (source : List UInt8) : Bool × Chip :=
  if flashSwapBytes < off ∨ flashSwapBytes - off < source.length then (false, c)
  else if off < flashSectorBytes then (false, c)
  else flashSwapAppend flswapOps c (flashSwapOffset + off) source

/-- What `flstrategy` makes of a transfer: it is done, it is at the end of the device, or it failed. -/
inductive Io where
  | done
  | resid
  | error
  deriving DecidableEq, Repr

/-- The swap unit's one partition, in blocks. -/
def partSize : Nat := flashSwapBytes / 512 / 2

/-- `flstrategy` for such a write on the swap unit. A transfer over the end of the partition is cut. -/
def flstrategy (c : Chip) (blkno : Nat) (source : List UInt8) : Io × Chip :=
  let run (source : List UInt8) : Io × Chip :=
    match flRaw c (blkno * devBsize) source with
    | (true, c) => (.done, c)
    | (false, c) => (.error, c)
  if partSize < blkno + btod source.length then
    if blkno = partSize then (.resid, c)
    else if partSize < blkno then (.error, c)
    else run (source.take ((partSize - blkno) * devBsize))
  else run source

/-- `swap_with_buf` for such a write: nothing at all for no bytes, and a panic on an error. -/
def swapWithBuf (c : Chip) (blkno : Nat) (source : List UInt8) : Except Fault Chip :=
  if source.length = 0 then .ok c
  else
    match flstrategy c blkno source with
    | (.done, c) => .ok c
    | _ => .error (.panic "hard err: swap")

/-! ## Images -/

/-- What one write of an image carries: the block it starts at, on the swap device, and its bytes. -/
structure Piece where
  blk : Nat
  bytes : List UInt8

/-- The block after the last one the piece touches. -/
def Piece.stop (p : Piece) : Nat := p.blk + btod p.bytes.length

/-- An image or a spool, piece by piece. -/
def writePieces (c : Chip) : List Piece → Except Fault Chip
  | [] => .ok c
  | p :: ps => swapWithBuf c p.blk p.bytes >>= fun c => writePieces c ps

end DiscoBSD.Flash
