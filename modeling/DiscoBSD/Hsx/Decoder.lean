import Mathlib.Logic.Function.Basic
import DiscoBSD.Lib.Word

/-!
# The heatshrink decoder

`sys/arch/rp2040/rp2040/hsx_decoder.c`, the resumable decoder, and beside it the decoder it has to
agree with.

The routine stops in the middle of a stream for two reasons, no complete token in the chunk or no room
for the next byte, and picks up where it stopped. Its state is the bit buffer `acc` with its shift
`sh`, the pending back-reference `cnt` and `off`, and `pos`, the bytes produced so far; the history it
copies from is the caller's memory, either the whole output or a ring of one window.

`refDecode` is the stream format read directly: **a function of the bit list alone**, with no buffer,
no ring and no notion of a call. Nothing in it is taken from the routine.
-/

set_option autoImplicit false

namespace DiscoBSD.Hsx

open DiscoBSD.Lib

/-- `HSXD_WINDOW_BITS`. -/
def windowBits : Nat := 9

/-- `HSXD_WINDOW`. -/
def window : Nat := 512

/-- `HSXD_LOOKAHEAD_MAX`. -/
def lookaheadMax : Nat := 8

/-! ## The stream format -/

/-- The bits of a byte string, most significant first. -/
def bytesBits (bs : List UInt8) : List Bool := bs.flatMap fun b => natBits 8 b.toNat

/-- The byte a back-reference of distance `off` reads: zero before the start of the output. -/
def byteBack (off : Nat) (out : List UInt8) : UInt8 :=
  if out.length < off then 0 else out.getD (out.length - off) 0

/-- A back-reference, one byte at a time: it may read bytes it has just written. -/
def copyBack (off : Nat) : Nat → List UInt8 → List UInt8
  | 0, out => out
  | n + 1, out => copyBack off n (out ++ [byteBack off out])

/-- The reference decoder: a tag bit 1 and eight literal bits, or a tag bit 0, a window index and a
    count. Bits after the last whole token mean nothing. -/
def refDecode (lb : Nat) (bits : List Bool) (out : List UInt8) : List UInt8 :=
  match bits with
  | [] => out
  | true :: bits =>
    if bits.length < 8 then out
    else refDecode lb (bits.drop 8) (out ++ [UInt8.ofNat (bitsVal (bits.take 8))])
  | false :: bits =>
    if bits.length < windowBits + lb then out
    else refDecode lb (bits.drop (windowBits + lb))
      (copyBack (bitsVal (bits.take windowBits) + 1)
        (bitsVal ((bits.drop windowBits).take lb) + 1) out)
termination_by bits.length
decreasing_by all_goals simp only [List.length_drop, List.length_cons]; omega

/-! ## The decoder's state -/

/-- `struct hsx_dec`, without the ring: the bytes from `ip` to `ie`, the bit buffer, and the pending
    back-reference. The ring is the memory the caller names. -/
structure HsxDec where
  input : List UInt8
  acc : Nat
  sh : Int
  pos : Nat
  cnt : Nat
  off : Nat
  lb : Nat

/-- `hsx_dec_init`. -/
def hsxDecInit (lookahead : Nat) : HsxDec := ⟨[], 0, 24, 0, 0, 0, lookahead⟩

/-- `hsx_dec_input`. -/
def hsxDecInput (d : HsxDec) (bytes : List UInt8) : HsxDec := { d with input := bytes }

/-- The locals of `hsx_dec_run`: `op` is the index of the write pointer in `base`. -/
structure Locals where
  input : List UInt8
  acc : Nat
  sh : Int
  cnt : Nat
  off : Nat
  mem : Nat → UInt8
  op : Nat

/-- `while (sh >= 0 && ip != ie) { acc |= *ip++ << sh; sh -= 8; }`. -/
def refill (sh : Int) (acc : Nat) : List UInt8 → Int × Nat × List UInt8
  | [] => (sh, acc, [])
  | b :: bs =>
    if 0 ≤ sh then refill (sh - 8) (wrap 32 (acc ||| b.toNat <<< sh.toNat)) bs
    else (sh, acc, b :: bs)

/-! ## Copying -/

/-- `while (n != 0 && pos < off) { *op++ = 0; pos++; n--; }`. -/
def zeroFill (off : Nat) : Nat → Nat → Nat → (Nat → UInt8) → Nat × Nat × Nat × (Nat → UInt8)
  | 0, pos, op, mem => (0, pos, op, mem)
  | n + 1, pos, op, mem =>
    if pos < off then zeroFill off n (wrap 32 (pos + 1)) (op + 1) (Function.update mem op 0)
    else (n + 1, pos, op, mem)

/-- `while (n-- != 0) *op++ = base[src++ & mask];`. -/
def copyLoop (mask : Nat) : Nat → Nat → Nat → (Nat → UInt8) → (Nat → UInt8)
  | 0, _, _, mem => mem
  | n + 1, src, op, mem =>
    copyLoop mask n (wrap 32 (src + 1)) (op + 1) (Function.update mem op (mem (src &&& mask)))

/-- The block at the label `copy`: as much of the pending back-reference as fits. `pos₀` and `op₀`
    are `d->pos` and `op0`. -/
def copyPending (mask pos₀ op₀ lim : Nat) (st : Locals) : Locals :=
  let n := min (lim - st.op) st.cnt
  let (n', pos, op, mem) := zeroFill st.off n (wrap 32 (pos₀ + (st.op - op₀))) st.op st.mem
  { st with
    cnt := st.cnt - n
    op := st.op + n
    mem := copyLoop mask n' (wrap 32 (pos + 2 ^ 32 - st.off)) op mem }

/-! ## The loop -/

/-- The refill at the top of the loop, when fewer than 18 bits are valid. -/
def topUp (st : Locals) : Locals :=
  if 6 < st.sh then
    let (sh, acc, input) := refill st.sh st.acc st.input
    { st with sh := sh, acc := acc, input := input }
  else st

/-- A literal: `*op++ = acc >> 23; acc <<= 9; sh += 9;`. -/
def literal (st : Locals) : Locals :=
  { st with
    mem := Function.update st.mem st.op (UInt8.ofNat (st.acc >>> 23))
    op := st.op + 1
    acc := wrap 32 (st.acc <<< 9)
    sh := st.sh + 9 }

/-- The fields of a back-reference. -/
def backRef (lb : Nat) (st : Locals) : Locals :=
  { st with
    off := ((st.acc >>> (31 - windowBits)) &&& (window - 1)) + 1
    cnt := ((st.acc >>> (31 - windowBits - lb)) &&& (1 <<< lb - 1)) + 1
    acc := wrap 32 (st.acc <<< (1 + windowBits + lb))
    sh := st.sh + (1 + windowBits + lb : Nat) }

/-- `while (op != lim)`. Every turn that does not break writes at least one byte, so `room` turns are
    enough. -/
def decodeLoop (lb mask pos₀ op₀ lim : Nat) : Nat → Locals → Locals
  | 0, st => st
  | turns + 1, st =>
    if st.op = lim then st
    else
      let r := topUp st
      if 6 < st.sh ∧ 15 < r.sh then r
      else if 2 ^ 31 ≤ r.acc then decodeLoop lb mask pos₀ op₀ lim turns (literal r)
      else if (14 : Int) - lb < r.sh then r
      else decodeLoop lb mask pos₀ op₀ lim turns (copyPending mask pos₀ op₀ lim (backRef lb r))

/-- The locals of `hsx_dec_run` when it leaves the loop: a pending back-reference is copied first. -/
def runLocals (d : HsxDec) (mem : Nat → UInt8) (mask room : Nat) : Locals :=
  let op₀ := d.pos &&& mask
  let lim := op₀ + room
  let st : Locals := ⟨d.input, d.acc, d.sh, d.cnt, d.off, mem, op₀⟩
  decodeLoop d.lb mask d.pos op₀ lim room
    (if d.cnt ≠ 0 then copyPending mask d.pos op₀ lim st else st)

/-- `hsx_dec_run`: the bytes produced, the decoder and the memory. -/
def hsxDecRun (d : HsxDec) (mem : Nat → UInt8) (mask room : Nat) : Nat × HsxDec × (Nat → UInt8) :=
  let st := runLocals d mem mask room
  let n := st.op - (d.pos &&& mask)
  (n, { d with
    input := st.input, acc := st.acc, sh := st.sh, cnt := st.cnt, off := st.off
    pos := wrap 32 (d.pos + n) }, st.mem)

end DiscoBSD.Hsx
