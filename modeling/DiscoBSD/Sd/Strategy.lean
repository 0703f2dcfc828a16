import DiscoBSD.Lib.Store
import DiscoBSD.Sd.Address

/-!
# Transfers of the SD driver

`sd.c` from the partition table to `sdstrategy`. **A card may fail or be replaced before any command**; a command that
fails may leave anything in the one sector that it is about, of the buffer or of the card.
-/

set_option autoImplicit false

namespace DiscoBSD.Sd

open Lib

/-! ## The partition table -/

/-- `struct diskpart` -/
structure Diskpart where
  dp_offset : ℕ
  dp_nsectors : ℕ

/-- What the open card has said of itself, and the entries of its boot record, from 1 on. -/
structure Media where
  type : SdType
  csd : List UInt8
  mbr : ℕ → Diskpart

def Media.sdcard (d : Media) : Sdspi := ⟨d.type, csdSectors d.csd⟩

/-- `sd_partitions`: the whole card, and the entries that lie inside it. -/
def Media.sdpt (d : Media) (part : ℕ) : Diskpart :=
  if part = 0 then ⟨0, d.sdcard.nsectors⟩
  else
    let p := d.mbr part
    if p.dp_offset > d.sdcard.nsectors ∨ p.dp_nsectors > d.sdcard.nsectors - p.dp_offset then ⟨0, 0⟩ else p

/-! ## Commands -/

/-- Bytes of the card and of memory, and the sectors that commands have asked for. -/
structure Traffic where
  disk : ℕ → UInt8
  mem : ℕ → UInt8
  asked : List ℕ

/-- With them, how often the driver has looked whether the card is replaced. -/
structure World extends Traffic where
  looks : ℕ

/-- What the driver sees at each look, and what a command leaves in its sector if it fails. -/
structure Fate where
  replaced : ℕ → Bool
  fails : ℕ → Option (Fin 512 → UInt8)

def sdReplaced (c : Fate) (w : World) : Bool × World := (c.replaced w.looks, { w with looks := w.looks + 1 })

def sdspiRead (sd : Sdspi) (c : Fate) (sector buf : ℕ) (w : World) : Sde × World :=
  if sd.type = .none ∨ sector ≥ sd.nsectors then (.io, w)
  else
    let w' := { w with asked := w.asked ++ [sector] }
    match c.fails w.asked.length with
    | none => (.ok, { w' with mem := writeAt w.mem buf (readAt w.disk (sector * sdSector) sdSector) })
    | some junk => (.io, { w' with mem := writeAt w.mem buf (List.ofFn junk) })

def sdspiWrite (sd : Sdspi) (c : Fate) (sector buf : ℕ) (w : World) : Sde × World :=
  if sd.type = .none ∨ sector ≥ sd.nsectors then (.io, w)
  else
    let w' := { w with asked := w.asked ++ [sector] }
    match c.fails w.asked.length with
    | none => (.ok, { w' with disk := writeAt w.disk (sector * sdSector) (readAt w.mem buf sdSector) })
    | some junk => (.io, { w' with disk := writeAt w.disk (sector * sdSector) (List.ofFn junk) })

/-! ## sdstrategy -/

inductive Errno
  | enxio | eio | einval | efault
  deriving DecidableEq

/-- `DEV_BSIZE` -/
def devBsize : ℕ := 1024

def MAXPARTITIONS : ℕ := 4

/-- `struct buf`, for a request; `read` is `B_READ`. -/
structure Buf where
  b_dev : ℕ
  b_blkno : ℕ
  b_bcount : ℕ
  b_addr : ℕ
  read : Bool

/-- A request that is done; an error is there with `B_ERROR`. -/
structure Done where
  b_resid : ℕ
  b_error : Option Errno
  w : World

/-- `for (i = 0; i < n; i++, addr += SD_SECTOR)`, with so many turns left. -/
def sdLoop (d : Media) (c : Fate) (read : Bool) (sector : ℕ) : ℕ → ℕ → ℕ → World → ℕ × World
  | 0, i, _, w => (i, w)
  | left + 1, i, addr, w =>
    let (changed, w) := sdReplaced c w
    if changed then (i, w)
    else
      let (err, w) :=
        if read then sdspiRead d.sdcard c (sector + i) addr w else sdspiWrite d.sdcard c (sector + i) addr w
      if err = .ok then sdLoop d c read sector left (i + 1) (addr + sdSector) w else (i, w)

/-- `sdstrategy`, with the partitions that are open. -/
def sdstrategy (d : Media) (openpart : ℕ → Bool) (c : Fate) (bp : Buf) (w : World) : Done :=
  let part := bp.b_dev % 8
  if bp.b_dev / 8 ≠ 0 ∨ part > MAXPARTITIONS ∨ ¬openpart part then ⟨bp.b_bcount, some .enxio, w⟩
  else
    let (changed, w) := sdReplaced c w
    if changed ∨ bp.b_bcount % sdSector ≠ 0 then ⟨bp.b_bcount, some (if changed then .eio else .einval), w⟩
    else
      let p := d.sdpt part
      -- The last block may hold one sector.
      let blocks := wrap 32 (p.dp_nsectors + 1) / 2
      if bp.b_blkno ≥ blocks then
        if bp.b_blkno = blocks then ⟨bp.b_bcount, none, w⟩ else ⟨bp.b_bcount, some .einval, w⟩
      else
        let first := wrap 32 (bp.b_blkno * (devBsize / sdSector))
        let avail := p.dp_nsectors - first
        let n := bp.b_bcount / sdSector
        let b_resid := if n > avail then (n - avail) * sdSector else 0
        let n := if n > avail then avail else n
        let sector := wrap 32 (p.dp_offset + first)
        let (i, w) := sdLoop d c bp.read sector n 0 bp.b_addr w
        if i = n then ⟨b_resid, none, w⟩ else ⟨b_resid + (n - i) * sdSector, some .eio, w⟩

/-! ## What moves -/

/-- Bytes that move, from the card to memory or the other way. -/
def move (read : Bool) (addr off n : ℕ) (t : Traffic) : Traffic :=
  if read then { t with mem := writeAt t.mem addr (readAt t.disk off n) }
  else { t with disk := writeAt t.disk off (readAt t.mem addr n) }

/-- So many sectors move, each with a command of its own, in order. -/
def sectors (read : Bool) (addr s k : ℕ) (t : Traffic) : Traffic :=
  { move read addr (s * sdSector) (k * sdSector) t with asked := t.asked ++ List.range' s k }

/-- A command fails, and leaves anything in its sector. -/
def spoil (read : Bool) (addr s : ℕ) (junk : List UInt8) (t : Traffic) : Traffic :=
  if read then { t with mem := writeAt t.mem addr junk, asked := t.asked ++ [s] }
  else { t with disk := writeAt t.disk (s * sdSector) junk, asked := t.asked ++ [s] }

@[simp] theorem move_zero (read : Bool) (addr off : ℕ) (t : Traffic) : move read addr off 0 t = t := by
  cases read <;> simp [move]

@[simp] theorem move_asked (read : Bool) (addr off n : ℕ) (t : Traffic) : (move read addr off n t).asked = t.asked := by
  cases read <;> rfl

@[simp] theorem sectors_zero (read : Bool) (addr s : ℕ) (t : Traffic) : sectors read addr s 0 t = t := by
  simp [sectors]

/-- A card that is there and does not fail. -/
structure Sound (d : Media) (c : Fate) : Prop where
  present : d.type ≠ .none
  kept : ∀ k, c.replaced k = false
  works : ∀ k, c.fails k = none

end DiscoBSD.Sd
