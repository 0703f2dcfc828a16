import DiscoBSD.Lib.Crc

/-!
# calc_crc

`lib/libcalc/calc_crc.c`: the CRC of the Rocksoft model, one message bit at a time, for a register of 1 to 64 bits that
is kept in the low bits of a `uint64_t`. **It is the register of that width**, with its bits turned round before and
after when the bytes and the result are reflected. The pointers are not null.
-/

set_option autoImplicit false

namespace DiscoBSD.Calc

open Lib

/-- `calc_status`. -/
inductive Status where
  | size | domain | range | singular | alias | arg | invalid | illcond
  deriving DecidableEq, Repr

/-- `calc_crc_spec` -/
structure CrcSpec where
  width : ℕ
  poly : BitVec 64
  init : BitVec 64
  xorout : BitVec 64
  refin : ℕ
  refout : ℕ

/-- `calc_crc32` -/
def crc32 : CrcSpec := ⟨32, 0x04C11DB7, 0xFFFFFFFF, 0xFFFFFFFF, 1, 1⟩

/-- The loop of `reflect`, with so many bits to go. -/
def reflectLoop : ℕ → BitVec 64 → BitVec 64 → BitVec 64
  | 0, _, r => r
  | n + 1, v, r => reflectLoop n (v >>> 1) ((r <<< 1) ||| (v &&& 1#64))

/-- `reflect` -/
def reflect (v : BitVec 64) (bits : ℕ) : BitVec 64 := reflectLoop bits v 0#64

section

variable (top mask poly : BitVec 64)

/-- A message bit. -/
def crcBit (reg : BitVec 64) (b : Bool) : BitVec 64 :=
  let fb := decide (reg &&& top ≠ 0) ^^ b
  let reg := (reg <<< 1) &&& mask
  if fb then reg ^^^ poly else reg

/-- The bits of a byte from `bit` down, where `bit` is 1 shifted by one less than the argument. -/
def crcBits (b : BitVec 64) : ℕ → BitVec 64 → BitVec 64
  | 0, reg => reg
  | n + 1, reg => crcBits b n (crcBit top mask poly reg (b &&& (1#64 <<< n) ≠ 0))

/-- A byte of the message. -/
def crcByte (refin : ℕ) (reg : BitVec 64) (data : UInt8) : BitVec 64 :=
  let b := data.toBitVec.setWidth 64
  crcBits top mask poly (if refin ≠ 0 then reflect b 8 else b) 8 reg

end

/-- `calc_crc` -/
def calcCrc (spec : CrcSpec) (data : List UInt8) : Except Status (BitVec 64) :=
  let w := spec.width
  if w < 1 ∨ w > 64 then .error .arg
  else
    let mask : BitVec 64 := if w = 64 then ~~~0#64 else (1#64 <<< w) - 1#64
    if spec.poly &&& ~~~mask ≠ 0 ∨ spec.init &&& ~~~mask ≠ 0 ∨ spec.xorout &&& ~~~mask ≠ 0 ∨ spec.refin > 1 ∨
        spec.refout > 1 then
      .error .arg
    else
      let top := 1#64 <<< (w - 1)
      let reg := data.foldl (crcByte top mask spec.poly spec.refin) spec.init
      .ok ((if spec.refout ≠ 0 then reflect reg w else reg) ^^^ spec.xorout)

/-- What `calc_crc` does with a specification it accepts. -/
theorem calcCrc_ok {spec : CrcSpec} {mask : BitVec 64} (hwidth : 1 ≤ spec.width ∧ spec.width ≤ 64)
    (hmask : mask = if spec.width = 64 then ~~~0#64 else (1#64 <<< spec.width) - 1#64)
    (hpoly : spec.poly &&& ~~~mask = 0) (hinit : spec.init &&& ~~~mask = 0) (hxorout : spec.xorout &&& ~~~mask = 0)
    (hrefin : spec.refin ≤ 1) (hrefout : spec.refout ≤ 1) (data : List UInt8) :
    calcCrc spec data =
      .ok ((if spec.refout ≠ 0 then
          reflect (data.foldl (crcByte (1#64 <<< (spec.width - 1)) mask spec.poly spec.refin) spec.init) spec.width
        else data.foldl (crcByte (1#64 <<< (spec.width - 1)) mask spec.poly spec.refin) spec.init) ^^^ spec.xorout) := by
  unfold calcCrc
  dsimp only
  rw [if_neg (by omega), ← hmask, if_neg]
  rintro (h | h | h | h | h)
  · exact h hpoly
  · exact h hinit
  · exact h hxorout
  · omega
  · omega

/-! ## The register -/

theorem getLsbD_reflectLoop (n : ℕ) (v r : BitVec 64) {i : ℕ} (hi : i < 64) :
    (reflectLoop n v r).getLsbD i = if i < n then v.getLsbD (n - 1 - i) else r.getLsbD (i - n) := by
  induction n generalizing v r with
  | zero => simp [reflectLoop]
  | succ n ih =>
    rw [reflectLoop, ih]
    by_cases hin : i < n
    · have h : 1 + (n - 1 - i) = n + 1 - 1 - i := by omega
      rw [if_pos hin, if_pos (by omega), BitVec.getLsbD_ushiftRight, h]
    · rw [if_neg hin]
      by_cases heq : i = n
      · subst heq
        have hone : (v &&& 1#64).getLsbD 0 = v.getLsbD 0 := by simp
        rw [if_pos (Nat.lt_succ_self i), Nat.sub_self, BitVec.getLsbD_or, hone]
        simp
      · rw [if_neg (by omega), BitVec.getLsbD_or, BitVec.getLsbD_shiftLeft]
        have h₁ : i - n < 64 := by omega
        have h₂ : ¬i - n < 1 := by omega
        have h₃ : i - n - 1 = i - (n + 1) := by omega
        have hzero : (v &&& 1#64).getLsbD (i - n) = false := by
          have hbit : (1#64).getLsbD (i - n) = false := by
            rw [BitVec.getLsbD_one]
            simp only [Bool.and_eq_false_imp, decide_eq_true_eq, decide_eq_false_iff_not]
            omega
          rw [BitVec.getLsbD_and, hbit, Bool.and_false]
        rw [hzero, h₃]
        simp [h₁, h₂]

/-- `reflect` turns a register round. -/
theorem reflect_setWidth {w : ℕ} (hw : w ≤ 64) (x : BitVec w) :
    reflect (x.setWidth 64) w = x.reverse.setWidth 64 := by
  apply BitVec.eq_of_getLsbD_eq
  intro i hi
  rw [reflect, getLsbD_reflectLoop w _ _ hi, BitVec.getLsbD_setWidth, BitVec.getLsbD_setWidth, BitVec.getLsbD_reverse,
    BitVec.getMsbD_eq_getLsbD]
  by_cases hiw : i < w
  · have h : w - 1 - i < 64 := by omega
    simp [hiw, hi, h]
  · simp [hiw]

/-- The test of one bit. -/
theorem and_bit (x : BitVec 64) {n : ℕ} (hn : n < 64) : decide (x &&& (1#64 <<< n) ≠ 0) = x.getLsbD n := by
  have hone : ∀ i < 64, (1#64 <<< n).getLsbD i = decide (i = n) := by
    intro i hi
    rw [BitVec.getLsbD_shiftLeft, BitVec.getLsbD_one]
    by_cases heq : i = n
    · simp [heq, hn]
    · by_cases hlt : i < n
      · simp [hlt, heq]
      · have : ¬i - n = 0 := by omega
        simp [this, heq]
  cases hx : x.getLsbD n with
  | true =>
    rw [decide_eq_true_eq]
    intro hzero
    have hbit := congrArg (·.getLsbD n) hzero
    simp only [BitVec.getLsbD_and, hone n hn, hx] at hbit
    simp at hbit
  | false =>
    rw [decide_eq_false_iff_not, ne_eq, Decidable.not_not]
    apply BitVec.eq_of_getLsbD_eq
    intro i hi
    rw [BitVec.getLsbD_and, hone i hi]
    by_cases heq : i = n
    · simp [heq, hx]
    · simp [heq]

/-- A message bit in the low bits of the word is one in the register. -/
theorem crcBit_setWidth {w : ℕ} (hpos : 1 ≤ w) (hw : w ≤ 64) {top mask : BitVec 64} (htop : top = 1#64 <<< (w - 1))
    (hmask : ∀ i < 64, mask.getLsbD i = decide (i < w)) (poly x : BitVec w) (b : Bool) :
    crcBit top mask (poly.setWidth 64) (x.setWidth 64) b = (Crc.step poly x b).setWidth 64 := by
  have hlast : w - 1 < 64 := by omega
  have hmsb : decide (x.setWidth 64 &&& top ≠ 0) = x.msb := by
    rw [htop, and_bit _ hlast, BitVec.msb_eq_getLsbD_last, BitVec.getLsbD_setWidth]
    simp [hlast]
  apply BitVec.eq_of_getLsbD_eq
  intro i hi
  unfold crcBit
  rw [hmsb]
  have hshift : ((x.setWidth 64 <<< 1) &&& mask).getLsbD i = (x <<< 1).getLsbD i := by
    rw [BitVec.getLsbD_and, hmask i hi, BitVec.getLsbD_shiftLeft, BitVec.getLsbD_shiftLeft, BitVec.getLsbD_setWidth]
    have h : i - 1 < 64 := by omega
    by_cases hiw : i < w <;> simp [hi, h, hiw]
  rw [BitVec.getLsbD_setWidth, Crc.step, BitVec.getLsbD_xor, ← hshift]
  cases x.msb ^^ b with
  | true =>
    simp only [if_true, BitVec.getLsbD_xor, BitVec.getLsbD_setWidth, hi, decide_true, Bool.true_and]
  | false =>
    simp [hi]

end DiscoBSD.Calc

/-!
# The table CRC of the kernel

`crc32_update` of `sys/kern/subr_crc32.c`, a nibble at a time, which the loader checks a packed executable with.
**It is `calc_crc` with the specification of CRC-32**, from any value of the register on, so that a file packed and
checked on the host is accepted.

The kernel has its register reflected all the time and leaves the first and the last inversion to its caller;
`calc_crc` reflects each byte, and the register when all is done.
-/

namespace DiscoBSD.Calc

open Lib

/-- `CRC32_INIT` -/
def crc32Init : BitVec 32 := 0xffffffff

/-- `CRC32_FIN` -/
def crc32Fin (crc : BitVec 32) : BitVec 32 := crc ^^^ 0xffffffff

/-- `crc32_nibble` -/
def crc32Nibble : Vector (BitVec 32) 16 :=
  #v[0x00000000, 0x1db71064, 0x3b6e20c8, 0x26d930ac, 0x76dc4190, 0x6b6b51f4, 0x4db26158, 0x5005713c,
    0xedb88320, 0xf00f9344, 0xd6d6a3e8, 0xcb61b38c, 0x9b64c2b0, 0x86d3d2d4, 0xa00ae278, 0xbdbdf21c]

/-- One table step. -/
def nibbleStep (crc : BitVec 32) : BitVec 32 := (crc >>> 4) ^^^ crc32Nibble.getD (crc &&& 15#32).toNat 0

/-- One byte. -/
def crc32Byte (crc : BitVec 32) (p : UInt8) : BitVec 32 := nibbleStep (nibbleStep (crc ^^^ p.toBitVec.setWidth 32))

/-- `crc32_update` -/
def crc32Update (crc : BitVec 32) (buf : List UInt8) : BitVec 32 := buf.foldl crc32Byte crc

/-- The reflected polynomial. -/
def crc32Poly : BitVec 32 := 0xedb88320

/-! ## The table -/

theorem crc32Nibble_run : ∀ i < 16, crc32Nibble.getD i 0 = Crc.run crc32Poly 4 (BitVec.ofNat 32 i) := by
  decide +kernel

theorem nibbleStep_run (crc : BitVec 32) : nibbleStep crc = Crc.run crc32Poly 4 crc := by
  have hmask : ∀ i, (15#32).getLsbD i = decide (i < 4) := by
    intro i
    by_cases hi : i < 32
    · revert i
      decide
    · rw [BitVec.getLsbD_of_ge _ _ (by omega)]
      simp only [Bool.false_eq, decide_eq_false_iff_not]
      omega
  have hlow : ∀ i < 4, crc.getLsbD i = (crc &&& 15#32).getLsbD i := by
    intro i hi
    have h : (15#32).getLsbD i = true := by rw [hmask, decide_eq_true hi]
    rw [BitVec.getLsbD_and, h, Bool.and_true]
  have hhigh : (crc &&& 15#32) >>> 4 = 0#32 := by
    apply BitVec.eq_of_getLsbD_eq
    intro i _
    have h : (15#32).getLsbD (4 + i) = false := by
      rw [hmask, decide_eq_false_iff_not]
      omega
    rw [BitVec.getLsbD_ushiftRight, BitVec.getLsbD_and, h, Bool.and_false]
    simp
  have hlt : (crc &&& 15#32).toNat < 16 := by
    rw [BitVec.toNat_and]
    exact Nat.lt_of_le_of_lt Nat.and_le_right (by decide)
  rw [nibbleStep, crc32Nibble_run _ hlt, BitVec.ofNat_toNat, BitVec.setWidth_eq,
    Crc.run_split crc32Poly hlow hhigh]

/-- A byte is eight steps of the register. -/
theorem crc32Byte_feed (crc : BitVec 32) (p : UInt8) :
    crc32Byte crc p = Crc.feed crc32Poly 8 (p.toBitVec.setWidth 32) crc := by
  have hbyte : p.toBitVec.setWidth 32 >>> 8 = 0#32 := by
    apply BitVec.eq_of_getLsbD_eq
    intro i _
    rw [BitVec.getLsbD_ushiftRight, BitVec.getLsbD_setWidth, BitVec.getLsbD_of_ge p.toBitVec (8 + i) (by omega)]
    simp
  rw [crc32Byte, nibbleStep_run, nibbleStep_run, ← Crc.run_add, Crc.feed_eq_run crc32Poly hbyte]

/-! ## The register of `calc_crc` -/

/-- The bits of a reflected byte. -/
theorem crcBits_reflect {top mask : BitVec 64} (htop : top = 1#64 <<< 31)
    (hmask : ∀ i < 64, mask.getLsbD i = decide (i < 32)) (p : UInt8) {n : ℕ} (hn : n ≤ 8) (r : BitVec 32) :
    crcBits top mask (crc32Poly.reverse.setWidth 64) (reflect (p.toBitVec.setWidth 64) 8) n (r.reverse.setWidth 64) =
      (Crc.feed crc32Poly n (p.toBitVec.setWidth 32 >>> (8 - n)) r).reverse.setWidth 64 := by
  induction n generalizing r with
  | zero => rfl
  | succ n ih =>
    have hbit : decide (reflect (p.toBitVec.setWidth 64) 8 &&& (1#64 <<< n) ≠ 0) =
        (p.toBitVec.setWidth 32 >>> (8 - (n + 1))).getLsbD 0 := by
      have h₁ : n < 8 := by omega
      have h₂ : 8 - 1 - n = 8 - (n + 1) := by omega
      have h₃ : 7 - n < 64 := by omega
      have h₄ : 7 - n < 32 := by omega
      rw [and_bit _ (by omega), reflect, getLsbD_reflectLoop 8 _ _ (by omega), if_pos h₁, h₂, BitVec.getLsbD_setWidth,
        BitVec.getLsbD_ushiftRight, BitVec.getLsbD_setWidth]
      simp [h₃, h₄]
    have hstep : ∀ b, Crc.step crc32Poly.reverse r.reverse b = (Crc.stepR crc32Poly r b).reverse := by
      intro b
      have h := Crc.reverse_step crc32Poly.reverse r.reverse b
      rw [BitVec.reverse_reverse_eq, BitVec.reverse_reverse_eq] at h
      rw [← h, BitVec.reverse_reverse_eq]
    have hrest : p.toBitVec.setWidth 32 >>> (8 - (n + 1)) >>> 1 = p.toBitVec.setWidth 32 >>> (8 - n) := by
      rw [← BitVec.shiftRight_add]
      congr 1
      omega
    rw [crcBits, Crc.feed, hbit, crcBit_setWidth (by omega) (by omega) htop hmask, hstep, ih (by omega), hrest]

/-- **A byte of the message does the same to both registers.** -/
theorem crcByte_reverse {top mask : BitVec 64} (htop : top = 1#64 <<< 31)
    (hmask : ∀ i < 64, mask.getLsbD i = decide (i < 32)) (p : UInt8) (r : BitVec 32) :
    crcByte top mask (crc32Poly.reverse.setWidth 64) 1 (r.reverse.setWidth 64) p =
      (crc32Byte r p).reverse.setWidth 64 := by
  rw [crcByte, if_pos Nat.one_ne_zero, crcBits_reflect htop hmask p (Nat.le_refl 8), crc32Byte_feed]
  rfl

theorem foldl_reverse {top mask : BitVec 64} (htop : top = 1#64 <<< 31)
    (hmask : ∀ i < 64, mask.getLsbD i = decide (i < 32)) (data : List UInt8) (r : BitVec 32) :
    data.foldl (crcByte top mask (crc32Poly.reverse.setWidth 64) 1) (r.reverse.setWidth 64) =
      (crc32Update r data).reverse.setWidth 64 := by
  induction data generalizing r with
  | nil => rfl
  | cons p data ih =>
    rw [List.foldl_cons, crcByte_reverse htop hmask, ih]
    rfl

/-- The message in pieces. -/
theorem crc32Update_flatten (crc : BitVec 32) (pieces : List (List UInt8)) :
    pieces.foldl crc32Update crc = crc32Update crc pieces.flatten := by
  induction pieces generalizing crc with
  | nil => rfl
  | cons piece pieces ih =>
    rw [List.foldl_cons, ih, List.flatten_cons]
    exact List.foldl_append.symm

/-- **`crc32_update` is `calc_crc`**, in any pieces and from any start; `calc_crc` has the start reflected. -/
theorem crc32_agrees (crc : BitVec 32) (pieces : List (List UInt8)) :
    calcCrc { crc32 with init := reflect (crc.setWidth 64) 32 } pieces.flatten =
        .ok ((crc32Fin (pieces.foldl crc32Update crc)).setWidth 64) ∧
      calcCrc crc32 pieces.flatten = .ok ((crc32Fin (pieces.foldl crc32Update crc32Init)).setWidth 64) := by
  have hcalc : ∀ r : BitVec 32, calcCrc { crc32 with init := r.reverse.setWidth 64 } pieces.flatten =
      .ok ((crc32Fin (pieces.foldl crc32Update r)).setWidth 64) := by
    intro r
    have hmask : ∀ i < 64, ((1#64 <<< 32) - 1#64).getLsbD i = decide (i < 32) := by decide +kernel
    have hinit : r.reverse.setWidth 64 &&& ~~~((1#64 <<< 32) - 1#64) = 0 := by
      apply BitVec.eq_of_getLsbD_eq
      intro i hi
      rw [BitVec.getLsbD_and, BitVec.getLsbD_not, hmask i hi, BitVec.getLsbD_setWidth]
      by_cases h : i < 32
      · simp [h]
      · simp [BitVec.getLsbD_of_ge r.reverse i (by omega)]
    have hfold := @foldl_reverse (1#64 <<< 31) ((1#64 <<< 32) - 1#64) rfl hmask pieces.flatten r
    have hpoly : crc32.poly = crc32Poly.reverse.setWidth 64 := by decide +kernel
    have hxor : ∀ x : BitVec 32, x.setWidth 64 ^^^ 0xFFFFFFFF#64 = (crc32Fin x).setWidth 64 := by
      intro x
      rw [crc32Fin, BitVec.setWidth_xor]
      rfl
    have hwidth : 1 ≤ crc32.width ∧ crc32.width ≤ 64 := by decide
    have hpolyfits : crc32.poly &&& ~~~((1#64 <<< 32) - 1#64) = 0 := by decide +kernel
    have hxorfits : crc32.xorout &&& ~~~((1#64 <<< 32) - 1#64) = 0 := by decide +kernel
    have hflags : crc32.refin ≤ 1 ∧ crc32.refout ≤ 1 := by decide
    refine (@calcCrc_ok { crc32 with init := r.reverse.setWidth 64 } ((1#64 <<< 32) - 1#64) hwidth rfl hpolyfits hinit
      hxorfits hflags.1 hflags.2 _).trans ?_
    change Except.ok (reflect (pieces.flatten.foldl (crcByte (1#64 <<< 31) ((1#64 <<< 32) - 1#64) crc32.poly 1)
      (r.reverse.setWidth 64)) 32 ^^^ 0xFFFFFFFF#64) = _
    rw [hpoly, hfold, reflect_setWidth (by decide), BitVec.reverse_reverse_eq, hxor, crc32Update_flatten]
  have hstart : crc32Init.reverse.setWidth 64 = crc32.init := by decide +kernel
  refine ⟨?_, ?_⟩
  · rw [reflect_setWidth (by decide)]
    exact hcalc crc
  · have h := hcalc crc32Init
    rw [hstart] at h
    exact h

end DiscoBSD.Calc
