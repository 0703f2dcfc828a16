import DiscoBSD.Lib.Store
import DiscoBSD.Hsx.Session

/-!
# A packed stream, expanded whole

`sys/arch/rp2040/rp2040/hsx_stream.c`: `hsx_expand` reads a stream in pieces of its staging buffer, expands
it into a destination or into the decoder's own ring, and admits it only when it comes out at the
promised length.

The destination and the ring are used in turn. With a destination, the bytes go there until the
promised length is out, and then **the ring is only a place to find out whether one more byte would
come**: its history is stale by then. That the answer does not depend on it is `hsxDecRun_alike`, and
that a call which produces nothing writes nothing is `hsxDecRun_frame`.
-/

set_option autoImplicit false

namespace DiscoBSD.Hsx

open DiscoBSD.Lib

/-! ## CRC-32 -/

/-- `crc32_nibble`. -/
def crc32Nibble : List Nat :=
  [0x00000000, 0x1db71064, 0x3b6e20c8, 0x26d930ac, 0x76dc4190, 0x6b6b51f4, 0x4db26158, 0x5005713c,
    0xedb88320, 0xf00f9344, 0xd6d6a3e8, 0xcb61b38c, 0x9b64c2b0, 0x86d3d2d4, 0xa00ae278, 0xbdbdf21c]

/-- `crc = (crc >> 4) ^ crc32_nibble[crc & 15];`. -/
def crc32Step (crc : Nat) : Nat := (crc >>> 4) ^^^ crc32Nibble.getD (crc &&& 15) 0

/-- `crc32_update`. -/
def crc32Update (crc : Nat) (buf : List UInt8) : Nat :=
  buf.foldl (fun crc b => crc32Step (crc32Step (crc ^^^ b.toNat))) crc

/-- `CRC32_INIT`. -/
def crc32Init : Nat := 0xffffffff

/-- `CRC32_FIN`. -/
def crc32Fin (crc : Nat) : Nat := crc ^^^ 0xffffffff

theorem crc32Update_append (crc : Nat) (xs ys : List UInt8) :
    crc32Update crc (xs ++ ys) = crc32Update (crc32Update crc xs) ys := List.foldl_append

/-! ## The source -/

/-- What `fill` reads from: the byte at each offset, or `none` where a read fails. -/
abbrev Packed := Nat → Option UInt8

/-- `fill`: the `len` bytes from `off`, or a failure when one of them cannot be read. -/
def fill (src : Packed) : Nat → Nat → Option (List UInt8)
  | _, 0 => some []
  | off, len + 1 => do
    let b ← src (wrap 32 off)
    let bs ← fill src (off + 1) len
    some (b :: bs)

theorem fill_wrap (src : Packed) (off len : Nat) : fill src (wrap 32 off) len = fill src off len := by
  induction len generalizing off with
  | zero => rfl
  | succ len ih =>
    have hnext : fill src (wrap 32 off + 1) len = fill src (off + 1) len := by
      rw [← ih (wrap 32 off + 1), ← ih (off + 1)]
      unfold wrap
      rw [Nat.mod_add_mod]
    have hbyte : wrap 32 (wrap 32 off) = wrap 32 off := by
      unfold wrap
      rw [Nat.mod_mod]
    rw [fill, fill, hnext, hbyte]

/-- A read is two reads, the second where the first ended. -/
theorem fill_add (src : Packed) (off m n : Nat) : fill src off (m + n) =
    (fill src off m).bind fun xs => (fill src (off + m) n).map (xs ++ ·) := by
  induction m generalizing off with
  | zero =>
    rw [Nat.zero_add]
    cases fill src off n <;> simp [fill]
  | succ m ih =>
    rw [Nat.succ_add, fill, ih, show off + (m + 1) = off + 1 + m by lia, fill]
    cases src (wrap 32 off) with
    | none => rfl
    | some b =>
      cases fill src (off + 1) m with
      | none => rfl
      | some xs => cases fill src (off + 1 + m) n <;> rfl

/-! ## The loop -/

/-- `HSX_LOOKAHEAD`. -/
def hsxLookahead : Nat := 3

/-- `HSX_STAGE` on the board, where `struct hsx_dec` takes 544 of the 1024 bytes. -/
def hsxStage : Nat := 480

/-- The locals of `hsx_expand`, with the ring and the destination. -/
structure Expand where
  dec : HsxDec
  win : Nat → UInt8
  dst : Nat → UInt8
  out : Nat
  crc : Nat

/-- The `do` loop: calls of `hsx_dec_run` until one comes back short. The flag is false for the
    `return -1` on a byte past the promised length. A call that does not end the loop produces a byte,
    so `rlen + 1` turns are enough. -/
def expandChunk (store : Bool) (rlen : Nat) : Nat → Expand → Bool × Expand
  | 0, s => (false, s)
  | turns + 1, s =>
    let left := rlen - s.out
    let linear := store && decide (left ≠ 0)
    let mask := if linear then 2 ^ 32 - 1 else window - 1
    let room :=
      if linear then left
      else if window - (s.out &&& mask) < left then window - (s.out &&& mask)
      else if left = 0 then 1 else left
    let (n, d, base) := hsxDecRun s.dec (if linear then s.dst else s.win) mask room
    let s := if linear then { s with dec := d, dst := base } else { s with dec := d, win := base }
    if n ≠ 0 ∧ s.out = rlen then (false, s)
    else
      let crc := crc32Update s.crc (readAt base (s.out &&& mask) n)
      let s := { s with crc := crc, out := s.out + n }
      if n = room then expandChunk store rlen turns s else (true, s)

/-- `while (in < clen)`, with a staging buffer of `stage` bytes. -/
def expandLoop (stage : Nat) (src : Packed) (off clen : Nat) (store : Bool) (rlen : Nat) :
    Nat → Nat → Expand → Bool × Expand
  | 0, taken, s => (decide (clen ≤ taken), s)
  | chunks + 1, taken, s =>
    if taken < clen then
      let avail := min (clen - taken) stage
      match fill src (wrap 32 (off + taken)) avail with
      | none => (false, s)
      | some bytes =>
        match expandChunk store rlen (rlen + 2) { s with dec := hsxDecInput s.dec bytes } with
        | (false, s) => (false, s)
        | (true, s) => expandLoop stage src off clen store rlen chunks (taken + avail) s
    else (true, s)

/-- `hsx_expand`: the CRC, or `none` for `-1`, and the destination. `win` is what the work area
    holds before the call. -/
def hsxExpand (stage : Nat) (win : Nat → UInt8) (src : Packed) (off clen : Nat)
    (dst : Option (Nat → UInt8)) (rlen : Nat) : Option Nat × (Nat → UInt8) :=
  let s : Expand := ⟨hsxDecInit hsxLookahead, win, dst.getD fun _ => 0, 0, crc32Init⟩
  match expandLoop stage src off clen dst.isSome rlen clen 0 s with
  | (false, s) => (none, s.dst)
  | (true, s) => if s.out ≠ rlen then (none, s.dst) else (some (crc32Fin s.crc), s.dst)

/-! ## What a call leaves alone -/

/-- From one state of the locals to a later one, with the writes between. -/
structure Ahead (st st' : Locals) : Prop where
  le : st.op ≤ st'.op
  mem : ∀ i, i < st.op ∨ st'.op ≤ i → st'.mem i = st.mem i

theorem Ahead.refl (st : Locals) : Ahead st st := ⟨Nat.le_refl _, fun _ _ => rfl⟩

theorem Ahead.trans {st st₁ st₂ : Locals} (h : Ahead st st₁) (h' : Ahead st₁ st₂) : Ahead st st₂ := by
  have h1 := h.le
  have h2 := h'.le
  refine ⟨by lia, fun i hi => ?_⟩
  rw [h'.mem i (by lia), h.mem i (by lia)]

theorem zeroFill_frame (off n pos op : Nat) (mem : Nat → UInt8) :
    (zeroFill off n pos op mem).1 + (zeroFill off n pos op mem).2.2.1 = n + op ∧
      op ≤ (zeroFill off n pos op mem).2.2.1 ∧
      ∀ i, i < op ∨ (zeroFill off n pos op mem).2.2.1 ≤ i →
        (zeroFill off n pos op mem).2.2.2 i = mem i := by
  induction n generalizing pos op mem with
  | zero => exact ⟨rfl, Nat.le_refl _, fun _ _ => rfl⟩
  | succ n ih =>
    unfold zeroFill
    split
    · obtain ⟨hsum, hle, hmem⟩ := ih (wrap 32 (pos + 1)) (op + 1) (Function.update mem op 0)
      refine ⟨by lia, by lia, fun i hi => ?_⟩
      rw [hmem i (by lia), Function.update_of_ne (by lia)]
    · exact ⟨rfl, Nat.le_refl _, fun _ _ => rfl⟩

theorem copyLoop_frame (mask n src op : Nat) (mem : Nat → UInt8) :
    ∀ i, i < op ∨ op + n ≤ i → copyLoop mask n src op mem i = mem i := by
  induction n generalizing src op mem with
  | zero => exact fun _ _ => rfl
  | succ n ih =>
    intro i hi
    rw [copyLoop, ih _ _ _ i (by lia), Function.update_of_ne (by lia)]

theorem copyPending_ahead (mask pos₀ op₀ lim : Nat) (st : Locals) :
    Ahead st (copyPending mask pos₀ op₀ lim st) := by
  simp only [copyPending]
  generalize wrap 32 (pos₀ + (st.op - op₀)) = pos
  obtain ⟨hsum, hle, hmem⟩ := zeroFill_frame st.off (min (lim - st.op) st.cnt) pos st.op st.mem
  generalize zeroFill st.off (min (lim - st.op) st.cnt) pos st.op st.mem = z at *
  obtain ⟨n, pos', op, mem⟩ := z
  simp only at hsum hle hmem ⊢
  refine ⟨Nat.le_add_right _ _, fun i hi => ?_⟩
  simp only at hi ⊢
  rw [copyLoop_frame _ _ _ _ _ i (by lia), hmem i (by lia)]

theorem topUp_ahead (st : Locals) : Ahead st (topUp st) := by
  obtain ⟨_, _, hmem, hop⟩ := topUp_frame st
  exact ⟨by rw [hop], fun i _ => by rw [hmem]⟩

theorem literal_ahead (st : Locals) : Ahead st (literal st) := by
  refine ⟨Nat.le_succ _, fun i hi => ?_⟩
  simp only [literal] at hi ⊢
  rw [Function.update_of_ne (by lia)]

theorem decodeLoop_ahead (lb mask pos₀ op₀ lim turns : Nat) (st : Locals) :
    Ahead st (decodeLoop lb mask pos₀ op₀ lim turns st) := by
  induction turns generalizing st with
  | zero => exact .refl st
  | succ turns ih =>
    unfold decodeLoop
    split
    · exact .refl st
    simp only
    split
    · exact topUp_ahead st
    split
    · exact (topUp_ahead st).trans ((literal_ahead _).trans (ih _))
    split
    · exact topUp_ahead st
    · have hback : Ahead (topUp st) (backRef lb (topUp st)) := ⟨Nat.le_refl _, fun _ _ => rfl⟩
      exact (topUp_ahead st).trans (hback.trans ((copyPending_ahead _ _ _ _ _).trans (ih _)))

/-- **A call writes only the bytes it reports.** -/
theorem hsxDecRun_frame (d : HsxDec) (mem : Nat → UInt8) (mask room i : Nat)
    (hi : i < (d.pos &&& mask) ∨ (d.pos &&& mask) + (hsxDecRun d mem mask room).1 ≤ i) :
    (hsxDecRun d mem mask room).2.2 i = mem i := by
  have hrun : Ahead ⟨d.input, d.acc, d.sh, d.cnt, d.off, mem, d.pos &&& mask⟩
      (runLocals d mem mask room) := by
    simp only [runLocals]
    split
    · exact (copyPending_ahead _ _ _ _ _).trans (decodeLoop_ahead _ _ _ _ _ _ _)
    · exact decodeLoop_ahead _ _ _ _ _ _ _
  have hle := hrun.le
  simp only [hsxDecRun] at hi ⊢
  simp only at hle
  exact hrun.mem i (by simp only; lia)

/-! ## What a call does not depend on -/

/-- Two states of the locals that differ in their memory, with `k` bytes written in each. -/
structure Alike (op₀ op₁ : Nat) (st st' : Locals) : Prop where
  input : st'.input = st.input
  acc : st'.acc = st.acc
  sh : st'.sh = st.sh
  cnt : st'.cnt = st.cnt
  off : st'.off = st.off
  op : ∃ k, st.op = op₀ + k ∧ st'.op = op₁ + k

section
variable {op₀ op₁ : Nat} {st st' : Locals}

theorem Alike.topUp (h : Alike op₀ op₁ st st') : Alike op₀ op₁ (topUp st) (topUp st') := by
  unfold Hsx.topUp
  rw [h.sh, h.acc, h.input]
  split
  · exact ⟨rfl, rfl, rfl, h.cnt, h.off, h.op⟩
  · exact h

theorem Alike.literal (h : Alike op₀ op₁ st st') : Alike op₀ op₁ (literal st) (literal st') := by
  obtain ⟨k, hk, hk'⟩ := h.op
  refine ⟨h.input, ?_, ?_, h.cnt, h.off, k + 1, ?_, ?_⟩
  · simp only [Hsx.literal, h.acc]
  · simp only [Hsx.literal, h.sh]
  · simp only [Hsx.literal, hk, Nat.add_assoc]
  · simp only [Hsx.literal, hk', Nat.add_assoc]

theorem Alike.backRef (h : Alike op₀ op₁ st st') (lb : Nat) :
    Alike op₀ op₁ (backRef lb st) (backRef lb st') := by
  refine ⟨h.input, ?_, ?_, ?_, ?_, h.op⟩ <;> simp only [Hsx.backRef, h.acc, h.sh]

theorem Alike.copyPending (h : Alike op₀ op₁ st st') (room pos₀ mask mask' : Nat) :
    Alike op₀ op₁ (copyPending mask pos₀ op₀ (op₀ + room) st)
      (copyPending mask' pos₀ op₁ (op₁ + room) st') := by
  obtain ⟨k, hk, hk'⟩ := h.op
  have hn : min (op₁ + room - st'.op) st'.cnt = min (op₀ + room - st.op) st.cnt := by
    rw [h.cnt, hk, hk', Nat.add_sub_add_left, Nat.add_sub_add_left]
  refine ⟨h.input, h.acc, h.sh, ?_, h.off, k + min (op₀ + room - st.op) st.cnt, ?_, ?_⟩
  · simp only [Hsx.copyPending]
    rw [hn, h.cnt]
  · simp only [Hsx.copyPending]
    lia
  · simp only [Hsx.copyPending, hn]
    lia

theorem Alike.decodeLoop (lb pos₀ room mask mask' turns : Nat) (h : Alike op₀ op₁ st st') :
    Alike op₀ op₁ (decodeLoop lb mask pos₀ op₀ (op₀ + room) turns st)
      (decodeLoop lb mask' pos₀ op₁ (op₁ + room) turns st') := by
  induction turns generalizing st st' with
  | zero => exact h
  | succ turns ih =>
    obtain ⟨k, hk, hk'⟩ := h.op
    have hend : st'.op = op₁ + room ↔ st.op = op₀ + room := by lia
    have htop := h.topUp
    unfold Hsx.decodeLoop
    simp only [hend, h.sh, htop.sh, htop.acc]
    split
    · exact h
    split
    · exact htop
    split
    · exact ih htop.literal
    split
    · exact htop
    · exact ih ((htop.backRef lb).copyPending room pos₀ mask mask')

end

/-- **How much a call produces, and where it leaves the decoder, does not depend on the memory.** -/
theorem hsxDecRun_alike (d : HsxDec) (mem mem' : Nat → UInt8) (mask mask' room : Nat) :
    (hsxDecRun d mem mask room).1 = (hsxDecRun d mem' mask' room).1 ∧
      (hsxDecRun d mem mask room).2.1 = (hsxDecRun d mem' mask' room).2.1 := by
  have hstart : Alike (d.pos &&& mask) (d.pos &&& mask')
      ⟨d.input, d.acc, d.sh, d.cnt, d.off, mem, d.pos &&& mask⟩
      ⟨d.input, d.acc, d.sh, d.cnt, d.off, mem', d.pos &&& mask'⟩ :=
    ⟨rfl, rfl, rfl, rfl, rfl, 0, rfl, rfl⟩
  have hrun : Alike (d.pos &&& mask) (d.pos &&& mask') (runLocals d mem mask room)
      (runLocals d mem' mask' room) := by
    simp only [runLocals]
    split
    · exact (hstart.copyPending room d.pos mask mask').decodeLoop d.lb d.pos room mask mask' room
    · exact hstart.decodeLoop d.lb d.pos room mask mask' room
  obtain ⟨k, hk, hk'⟩ := hrun.op
  have hn : (runLocals d mem mask room).op - (d.pos &&& mask) =
      (runLocals d mem' mask' room).op - (d.pos &&& mask') := by lia
  simp only [hsxDecRun, hn, hrun.input, hrun.acc, hrun.sh, hrun.cnt, hrun.off]
  exact ⟨trivial, trivial⟩

/-! ## One turn -/

/-- Where the output goes until the promised length is out. -/
def toward (store : Bool) : History := if store then .linear else .ring

def Expand.base (s : Expand) (store : Bool) : Nat → UInt8 := if store then s.dst else s.win

def Expand.withBase (s : Expand) (store : Bool) (mem : Nat → UInt8) : Expand :=
  if store then { s with dst := mem } else { s with win := mem }

/-- The room of a turn before the promised length is out. -/
def takeRoom (store : Bool) (left out : Nat) : Nat :=
  if store then left else min left (window - (out &&& (window - 1)))

theorem expandChunk_take {store : Bool} {rlen : Nat} {s : Expand} (turns : Nat) (hlt : s.out < rlen)
    {n : Nat} {d : HsxDec} {mem : Nat → UInt8}
    (hrun : hsxDecRun s.dec (s.base store) ((toward store).period - 1)
      (takeRoom store (rlen - s.out) s.out) = (n, d, mem)) :
    expandChunk store rlen (turns + 1) s =
      (if n = takeRoom store (rlen - s.out) s.out then
        expandChunk store rlen turns
          { s.withBase store mem with
            dec := d, out := s.out + n
            crc := crc32Update s.crc (readAt mem (s.out &&& ((toward store).period - 1)) n) }
      else (true,
        { s.withBase store mem with
          dec := d, out := s.out + n
          crc := crc32Update s.crc (readAt mem (s.out &&& ((toward store).period - 1)) n) })) := by
  have hleft : rlen - s.out ≠ 0 := by lia
  have hne : ¬(n ≠ 0 ∧ s.out = rlen) := by lia
  cases store with
  | true =>
    simp only [toward, Expand.base, takeRoom, if_true, History.period] at hrun
    rw [expandChunk]
    simp only [Bool.true_and, hleft, ne_eq, not_false_eq_true, decide_true, if_true, hrun]
    rw [if_neg (by simpa using hne)]
    simp only [toward, takeRoom, Expand.withBase, if_true, History.period]
  | false =>
    have hroom : (if window - (s.out &&& (window - 1)) < rlen - s.out then
        window - (s.out &&& (window - 1)) else if rlen - s.out = 0 then 1 else rlen - s.out) =
        min (rlen - s.out) (window - (s.out &&& (window - 1))) := by
      rw [if_neg hleft]
      split <;> lia
    simp only [toward, Expand.base, takeRoom, Bool.false_eq_true, if_false, History.period] at hrun
    rw [expandChunk]
    simp only [Bool.false_and, Bool.false_eq_true, if_false, hroom, hrun]
    rw [if_neg (by simpa using hne)]
    simp only [toward, takeRoom, Expand.withBase, Bool.false_eq_true, if_false, History.period]

/-- Once the promised length is out, a turn looks for one more byte in the ring. -/
theorem expandChunk_probe {store : Bool} {rlen : Nat} {s : Expand} (turns : Nat) (heq : s.out = rlen)
    {n : Nat} {d : HsxDec} {mem : Nat → UInt8} (hrun : hsxDecRun s.dec s.win (window - 1) 1 = (n, d, mem)) :
    expandChunk store rlen (turns + 1) s =
      if n ≠ 0 then (false, { s with dec := d, win := mem }) else (true, { s with dec := d, win := mem }) := by
  subst heq
  rw [expandChunk]
  simp only [Nat.sub_self, ne_eq, not_true_eq_false, decide_false, Bool.and_false,
    Bool.false_eq_true, if_false, Nat.not_lt_zero, if_true, hrun, and_true]
  by_cases hn : n = 0
  · subst hn
    simp only [not_true_eq_false, if_false, readAt_zero, Nat.add_zero, Nat.zero_ne_one]
    rfl
  · simp only [hn, not_false_eq_true, if_true]

/-! ## Where an expansion stands -/

theorem Ready.begins {lb M : Nat} {fed : List Bool} {d : HsxDec} {mem : Nat → UInt8}
    {out : List UInt8} (h : Ready lb M fed d mem out) (more : List Bool) :
    out <+: refDecode lb (fed ++ more) [] := by
  obtain ⟨con, vs, hdec, hfed, _⟩ := h.bits
  rw [hfed, List.append_assoc, hdec.refDecode]
  exact (prefix_copyBack _ _ _).trans (prefix_refDecode _ _ _)

/-- The output so far is `out`, of the bits `fed`. -/
structure Expanding (store : Bool) (dst₀ : Nat → UInt8) (rlen : Nat) (fed : List Bool) (s : Expand)
    (out : List UInt8) : Prop where
  ready : Ready hsxLookahead (toward store).period fed s.dec (s.base store) out
  len : s.out = out.length
  le : out.length ≤ rlen
  crc : s.crc = crc32Update crc32Init out
  written : store = true → readAt s.dst 0 out.length = out
  rest : ∀ i, rlen ≤ i → s.dst i = dst₀ i

section
variable {store : Bool} {dst₀ : Nat → UInt8} {rlen : Nat} {fed : List Bool} {s : Expand}
  {out : List UInt8}

/-- One more byte would come, or it would not: a call into any memory finds out. -/
theorem Ready.probe {lb M k : Nat} {d : HsxDec} {mem : Nat → UInt8} (hlb : lb ≤ lookaheadMax)
    (hk : M = 2 ^ k) (hk32 : k ≤ 32) (hM : window ≤ M) (h : Ready lb M fed d mem out)
    (hlt : out.length < 2 ^ 32) (mem' : Nat → UInt8) (mask : Nat) :
    ((hsxDecRun d mem' mask 1).1 = 0 ∧ Ready lb M fed (hsxDecRun d mem' mask 1).2.1 mem out ∧
        (hsxDecRun d mem' mask 1).2.1.input = [] ∧ refDecode lb fed [] = out) ∨
      ((hsxDecRun d mem' mask 1).1 ≠ 0 ∧
        ∀ more, out.length < (refDecode lb (fed ++ more) []).length) := by
  have hMpos : 0 < M := hk ▸ Nat.two_pow_pos k
  have hslot : (d.pos &&& (M - 1)) + 1 ≤ M := by
    rw [hk, and_sub_one_eq_mod, ← hk]
    exact Nat.mod_lt _ hMpos
  obtain ⟨n, d', m', bytes, hcall, hbytes, hn, hle, hready, hshort⟩ := h.run hlb hk hk32 hM hslot hlt
  obtain ⟨hsame, hdec⟩ := hsxDecRun_alike d mem' mem mask (M - 1) 1
  rw [hcall] at hsame hdec
  rw [hsame, hdec]
  by_cases h0 : n = 0
  · -- Nothing was produced, so the call in the real memory wrote nothing either.
    have hmem : m' = mem := by
      funext i
      have hframe := hsxDecRun_frame d mem (M - 1) 1 i (by rw [hcall, h0]; simp only; lia)
      rw [hcall] at hframe
      exact hframe
    have hnil : bytes = [] := List.length_eq_zero_iff.mp (hn.symm.trans h0)
    obtain ⟨hin, hall⟩ := hshort (by lia)
    rw [hnil, List.append_nil] at hready hall
    rw [hmem] at hready
    exact .inl ⟨h0, hready, hin, hall⟩
  · refine .inr ⟨h0, fun more => ?_⟩
    have hpre := (hready.begins more).length_le
    rw [List.length_append] at hpre
    lia

/-- The slot of the next byte in the destination. -/
theorem linear_slot {n : Nat} (hlt : n < 2 ^ 32) : n &&& (History.linear.period - 1) = n :=
  (and_sub_one_eq_mod n 32).trans (Nat.mod_eq_of_lt hlt)

/-- A call into the destination leaves the rest of it alone. -/
theorem linear_frame {d d' : HsxDec} {mem mem' : Nat → UInt8} {room n : Nat} (hlt : d.pos < 2 ^ 32)
    (hrun : hsxDecRun d mem (History.linear.period - 1) room = (n, d', mem')) (i : Nat)
    (hi : i < d.pos ∨ d.pos + n ≤ i) : mem' i = mem i := by
  have hframe := hsxDecRun_frame d mem (History.linear.period - 1) room i
  rw [hrun, linear_slot hlt] at hframe
  exact hframe hi

theorem Expanding.take {n : Nat} {d : HsxDec} {mem : Nat → UInt8} (h : Expanding store dst₀ rlen fed s out)
    (hlt : out.length < rlen) (hrlen : rlen < 2 ^ 32)
    (hrun : hsxDecRun s.dec (s.base store) ((toward store).period - 1)
      (takeRoom store (rlen - s.out) s.out) = (n, d, mem)) :
    ∃ bytes, n = bytes.length ∧ n ≤ takeRoom store (rlen - s.out) s.out ∧
      Expanding store dst₀ rlen fed { s.withBase store mem with
        dec := d, out := s.out + n
        crc := crc32Update s.crc (readAt mem (s.out &&& ((toward store).period - 1)) n) }
        (out ++ bytes) ∧
      (n < takeRoom store (rlen - s.out) s.out → d.input = [] ∧
        refDecode hsxLookahead fed [] = out ++ bytes) := by
  obtain ⟨k, hk, hk32, hM⟩ := (toward store).period_eq
  have hpos : s.dec.pos = s.out := by
    rw [h.ready.pos_eq, h.len, wrap_of_lt (by lia)]
  have hslot : s.out &&& ((toward store).period - 1) = s.out % (toward store).period := by
    rw [hk, and_sub_one_eq_mod]
  have hMpos : 0 < (toward store).period := hk ▸ Nat.two_pow_pos k
  have hroom : (s.dec.pos &&& ((toward store).period - 1)) + takeRoom store (rlen - s.out) s.out ≤
      (toward store).period := by
    rw [hpos, hslot]
    have hmod := Nat.mod_lt s.out hMpos
    have hlen := h.len
    cases store with
    | true =>
      simp only [takeRoom, toward, if_true, History.period] at hmod ⊢
      rw [Nat.mod_eq_of_lt (by lia)]
      lia
    | false =>
      have hand : s.out &&& (window - 1) = s.out % window := and_sub_one_eq_mod s.out 9
      simp only [takeRoom, toward, Bool.false_eq_true, if_false, History.period, hand] at hmod ⊢
      lia
  have hle' : takeRoom store (rlen - s.out) s.out ≤ rlen - s.out := by
    cases store with
    | true => exact Nat.le_refl _
    | false => exact Nat.min_le_left _ _
  obtain ⟨n', d', m', bytes, hcall, hbytes, hn, hle, hready, hshort⟩ :=
    h.ready.run (by decide) hk hk32 hM hroom (by lia)
  rw [hrun] at hcall
  cases hcall
  refine ⟨bytes, hn, hle, ?_, hshort⟩
  have hlen := h.len
  refine ⟨?_, ?_, ?_, ?_, ?_, ?_⟩
  · cases store <;> exact hready
  · rw [List.length_append, ← hn, ← hlen]
  · rw [List.length_append]
    lia
  · rw [crc32Update_append, ← h.crc, hbytes, hpos]
    rfl
  · rintro rfl
    show readAt mem 0 (out ++ bytes).length = out ++ bytes
    have hold : readAt mem 0 out.length = readAt s.dst 0 out.length := by
      refine List.map_congr_left fun i hi => ?_
      have hi := List.mem_range.mp hi
      exact linear_frame (by lia) hrun (0 + i) (.inl (by lia))
    rw [List.length_append, readAt_add, hold, h.written rfl, Nat.zero_add, ← hn]
    congr 1
    rw [show (toward true).period = History.linear.period from rfl, linear_slot (by lia), hpos,
      hlen] at hbytes
    exact hbytes.symm
  · intro i hi
    cases store with
    | false => exact h.rest i hi
    | true => exact (linear_frame (by lia) hrun i (.inr (by lia))).trans (h.rest i hi)

/-- **The `do` loop takes everything the bits fed so far decode to**, or finds it too long. -/
theorem expandChunk_spec (turns : Nat) (h : Expanding store dst₀ rlen fed s out)
    (hrlen : rlen < 2 ^ 32) (hturns : rlen - out.length < turns) :
    (∀ i, rlen ≤ i → (expandChunk store rlen turns s).2.dst i = dst₀ i) ∧
    (((expandChunk store rlen turns s).1 = true ∧
        Expanding store dst₀ rlen fed (expandChunk store rlen turns s).2
          (refDecode hsxLookahead fed []) ∧ (expandChunk store rlen turns s).2.dec.input = []) ∨
      ((expandChunk store rlen turns s).1 = false ∧
        ∀ more, rlen < (refDecode hsxLookahead (fed ++ more) []).length)) := by
  induction turns generalizing s out with
  | zero => exact absurd hturns (Nat.not_lt_zero _)
  | succ turns ih =>
    have hlen := h.len
    have hle := h.le
    by_cases hfull : out.length = rlen
    · -- The promised length is out: the ring is asked for one more byte.
      obtain ⟨k, hk, hk32, hM⟩ := (toward store).period_eq
      have hprobe := h.ready.probe (by decide) hk hk32 hM (by lia) s.win (window - 1)
      have hkeep := hsxDecRun_frame s.dec s.win (window - 1) 1
      generalize hrun : hsxDecRun s.dec s.win (window - 1) 1 = r at hprobe hkeep
      obtain ⟨n, d, mem⟩ := r
      rw [expandChunk_probe turns (hlen.trans hfull) hrun]
      rcases hprobe with ⟨h0, hready, hin, hall⟩ | ⟨hne, hlong⟩
      · simp only at h0
        subst h0
        have hmem : mem = s.win := by
          funext i
          exact hkeep i (by simp only; lia)
        subst hmem
        rw [if_neg (by simp)]
        refine ⟨h.rest, .inl ⟨rfl, ?_, hin⟩⟩
        rw [hall]
        refine ⟨?_, h.len, h.le, h.crc, h.written, h.rest⟩
        cases store <;> exact hready
      · rw [if_pos hne]
        refine ⟨h.rest, .inr ⟨rfl, fun more => ?_⟩⟩
        have hlonger := hlong more
        lia
    · generalize hrun : hsxDecRun s.dec (s.base store) ((toward store).period - 1)
        (takeRoom store (rlen - s.out) s.out) = r
      obtain ⟨n, d, mem⟩ := r
      obtain ⟨bytes, hn, hroom, hnext, hshort⟩ := h.take (by lia) hrlen hrun
      rw [expandChunk_take turns (by lia) hrun]
      split
      · rename_i heq
        refine ih hnext ?_
        have hpos : 0 < takeRoom store (rlen - s.out) s.out := by
          have hand : s.out &&& (window - 1) = s.out % window := and_sub_one_eq_mod s.out 9
          have hmod := Nat.mod_lt s.out (show 0 < window by decide)
          unfold takeRoom
          split
          · lia
          · lia
        rw [List.length_append]
        lia
      · rename_i hne
        obtain ⟨hin, hall⟩ := hshort (by lia)
        refine ⟨hnext.rest, .inl ⟨rfl, ?_, hin⟩⟩
        rw [hall]
        exact hnext

/-- A new chunk is staged. -/
theorem Expanding.feed (h : Expanding store dst₀ rlen fed s out) (hin : s.dec.input = [])
    (chunk : List UInt8) : Expanding store dst₀ rlen (fed ++ bytesBits chunk)
      { s with dec := hsxDecInput s.dec chunk } out := by
  have hready := h.ready.feed hin chunk
  refine ⟨?_, h.len, h.le, h.crc, h.written, h.rest⟩
  cases store <;> exact hready

/-- **The stream is taken to its end**, whatever the size of the staging buffer: it comes to that unless
    a read fails or what has been read is already too long. -/
theorem expandLoop_spec {stage off clen taken : Nat} {src : Packed} {before : List UInt8} (chunks : Nat)
    (hstage : 0 < stage) (hrlen : rlen < 2 ^ 32)
    (h : Expanding store dst₀ rlen (bytesBits before) s (refDecode hsxLookahead (bytesBits before) []))
    (hin : s.dec.input = []) (hbefore : fill src off taken = some before) (htaken : taken ≤ clen)
    (hchunks : clen - taken ≤ chunks) :
    (∀ i, rlen ≤ i → (expandLoop stage src off clen store rlen chunks taken s).2.dst i = dst₀ i) ∧
    (((expandLoop stage src off clen store rlen chunks taken s).1 = true ∧ ∃ bytes,
        fill src off clen = some bytes ∧ Expanding store dst₀ rlen (bytesBits bytes)
          (expandLoop stage src off clen store rlen chunks taken s).2
          (refDecode hsxLookahead (bytesBits bytes) [])) ∨
      ((expandLoop stage src off clen store rlen chunks taken s).1 = false ∧
        ∀ bytes, fill src off clen = some bytes →
          (refDecode hsxLookahead (bytesBits bytes) []).length ≠ rlen)) := by
  induction chunks generalizing s taken before with
  | zero =>
    have hend : taken = clen := by lia
    subst hend
    simp only [expandLoop, Nat.le_refl, decide_true]
    exact ⟨h.rest, .inl ⟨trivial, before, hbefore, h⟩⟩
  | succ chunks ih =>
    unfold expandLoop
    by_cases hlt : taken < clen
    · rw [if_pos hlt]
      simp only
      generalize havail : min (clen - taken) stage = avail
      have hsplit : clen = taken + avail + (clen - taken - avail) := by lia
      rw [fill_wrap]
      cases hfill : fill src (off + taken) avail with
      | none =>
        refine ⟨h.rest, .inr ⟨rfl, fun bytes hbytes => ?_⟩⟩
        rw [hsplit, fill_add, fill_add, hbefore, Option.bind_some, hfill] at hbytes
        cases hbytes
      | some chunk =>
        have hread : fill src off (taken + avail) = some (before ++ chunk) := by
          rw [fill_add, hbefore, Option.bind_some, hfill, Option.map_some]
        have hfed := h.feed hin chunk
        rw [← bytesBits_append] at hfed
        obtain ⟨hrest, hcases⟩ := expandChunk_spec (rlen + 2) hfed hrlen (by lia)
        simp only
        generalize expandChunk store rlen (rlen + 2) { s with dec := hsxDecInput s.dec chunk } = r
          at hrest hcases ⊢
        obtain ⟨ok, s'⟩ := r
        rcases hcases with ⟨hok, hnext, hin'⟩ | ⟨hok, hlong⟩
        · simp only at hok
          subst hok
          exact ih hnext hin' hread (by lia) (by lia)
        · simp only at hok
          subst hok
          refine ⟨hrest, .inr ⟨rfl, fun bytes hbytes => ?_⟩⟩
          rw [hsplit, fill_add, hread, Option.bind_some] at hbytes
          obtain ⟨more, _, rfl⟩ := Option.map_eq_some_iff.mp hbytes
          rw [bytesBits_append]
          exact Nat.ne_of_gt (hlong (bytesBits more))
    · rw [if_neg hlt]
      have hend : taken = clen := by lia
      subst hend
      exact ⟨h.rest, .inl ⟨rfl, before, hbefore, h⟩⟩

end

/-- What a packed stream stands for: what the reference decoder makes of all its bytes, when they can
    all be read. -/
def packedImage (src : Packed) (off clen : Nat) : Option (List UInt8) :=
  (fill src off clen).map fun bytes => refDecode hsxLookahead (bytesBits bytes) []

/-- The outcome of a call, by what the stream stands for. -/
theorem hsxExpand_cases {stage : Nat} (hstage : 0 < stage) (win : Nat → UInt8) (src : Packed)
    (off clen : Nat) (dst : Option (Nat → UInt8)) {rlen : Nat} (hrlen : rlen < 2 ^ 32) :
    (∀ i, rlen ≤ i → (hsxExpand stage win src off clen dst rlen).2 i = (dst.getD fun _ => 0) i) ∧
    ((∃ image, packedImage src off clen = some image ∧ image.length = rlen ∧
        (hsxExpand stage win src off clen dst rlen).1 =
          some (crc32Fin (crc32Update crc32Init image)) ∧
        (dst.isSome = true → readAt (hsxExpand stage win src off clen dst rlen).2 0 rlen = image)) ∨
      ((hsxExpand stage win src off clen dst rlen).1 = none ∧
        ∀ image, packedImage src off clen = some image → image.length ≠ rlen)) := by
  have hstart : Expanding dst.isSome (dst.getD fun _ => 0) rlen (bytesBits [])
      ⟨hsxDecInit hsxLookahead, win, dst.getD fun _ => 0, 0, crc32Init⟩
      (refDecode hsxLookahead (bytesBits []) []) := by
    have hnil : refDecode hsxLookahead (bytesBits []) [] = [] := refDecode_short (.inl (by decide)) []
    rw [hnil]
    exact ⟨Ready.init _ _ _, rfl, Nat.zero_le _, rfl, fun _ => rfl, fun _ _ => rfl⟩
  obtain ⟨hrest, hcases⟩ := expandLoop_spec clen hstage hrlen hstart rfl
    (show fill src off 0 = some [] from rfl) (Nat.zero_le clen) (Nat.le_refl _)
  simp only [hsxExpand]
  generalize expandLoop stage src off clen dst.isSome rlen clen 0
    ⟨hsxDecInit hsxLookahead, win, dst.getD fun _ => 0, 0, crc32Init⟩ = r at hrest hcases ⊢
  obtain ⟨ok, s⟩ := r
  rcases hcases with ⟨hok, bytes, hbytes, h⟩ | ⟨hok, hwrong⟩
  · simp only at hok
    subst hok
    have himage : packedImage src off clen = some (refDecode hsxLookahead (bytesBits bytes) []) := by
      rw [packedImage, hbytes, Option.map_some]
    have hlen := h.len
    simp only at hlen ⊢
    split
    · rename_i hne
      refine ⟨hrest, .inr ⟨rfl, fun image heq hlength => hne ?_⟩⟩
      rw [himage] at heq
      cases heq
      rw [hlen, hlength]
    · rename_i heq
      have hlength := hlen.symm.trans (of_not_not heq)
      refine ⟨hrest, .inl ⟨_, himage, hlength, ?_, fun hs => ?_⟩⟩
      · rw [h.crc]
      · rw [← hlength]
        exact h.written hs
  · simp only at hok
    subst hok
    refine ⟨hrest, .inr ⟨rfl, fun image heq => ?_⟩⟩
    obtain ⟨bytes, hbytes, rfl⟩ := Option.map_eq_some_iff.mp heq
    exact hwrong bytes hbytes

/-- **`hsx_expand` accepts a stream exactly when all of it can be read and decodes to the promised
    length.** The destination then holds the decoding and the CRC is that of the decoding; nothing past
    the promised length is written in any case; and a call without a destination gives the same answer,
    with any staging buffer. -/
theorem hsxExpand_accepts {stage : Nat} (hstage : 0 < stage) (win : Nat → UInt8) (src : Packed)
    (off clen : Nat) (dst : Nat → UInt8) {rlen : Nat} (hrlen : rlen < 2 ^ 32) :
    ((hsxExpand stage win src off clen (some dst) rlen).1 ≠ none ↔
      ∃ bytes, fill src off clen = some bytes ∧
        (refDecode hsxLookahead (bytesBits bytes) []).length = rlen) ∧
    (∀ bytes crc, fill src off clen = some bytes →
      (hsxExpand stage win src off clen (some dst) rlen).1 = some crc →
      readAt (hsxExpand stage win src off clen (some dst) rlen).2 0 rlen =
        refDecode hsxLookahead (bytesBits bytes) [] ∧
      crc = crc32Fin (crc32Update crc32Init (refDecode hsxLookahead (bytesBits bytes) []))) ∧
    (∀ i, rlen ≤ i → (hsxExpand stage win src off clen (some dst) rlen).2 i = dst i) ∧
    (∀ stage' win', 0 < stage' → (hsxExpand stage' win' src off clen none rlen).1 =
      (hsxExpand stage win src off clen (some dst) rlen).1) := by
  obtain ⟨hrest, hcases⟩ := hsxExpand_cases hstage win src off clen (some dst) hrlen
  refine ⟨?_, fun bytes crc hbytes hcrc => ?_, hrest, fun stage' win' hstage' => ?_⟩
  · rcases hcases with ⟨image, himage, hlen, hok, _⟩ | ⟨hfail, hwrong⟩
    · obtain ⟨bytes, hbytes, rfl⟩ := Option.map_eq_some_iff.mp himage
      rw [hok]
      exact ⟨fun _ => ⟨bytes, hbytes, hlen⟩, fun _ => nofun⟩
    · rw [hfail]
      refine ⟨fun hne => absurd rfl hne, ?_⟩
      rintro ⟨bytes, hbytes, hlen⟩
      exact absurd hlen (hwrong _ (by rw [packedImage, hbytes, Option.map_some]))
  · rcases hcases with ⟨image, himage, hlen, hok, hread⟩ | ⟨hfail, _⟩
    · rw [packedImage, hbytes, Option.map_some] at himage
      cases himage
      rw [hok] at hcrc
      cases hcrc
      exact ⟨hread rfl, rfl⟩
    · rw [hfail] at hcrc
      cases hcrc
  · obtain ⟨_, hcases'⟩ := hsxExpand_cases hstage' win' src off clen none hrlen
    rcases hcases with ⟨image, himage, hlen, hok, _⟩ | ⟨hfail, hwrong⟩
    · rcases hcases' with ⟨image', himage', _, hok', _⟩ | ⟨_, hwrong'⟩
      · rw [himage] at himage'
        cases himage'
        rw [hok, hok']
      · exact absurd hlen (hwrong' image himage)
    · rcases hcases' with ⟨image', himage', hlen', _, _⟩ | ⟨hfail', _⟩
      · exact absurd hlen' (hwrong image' himage')
      · rw [hfail, hfail']

/-- A literal and an overlapping back-reference, staged a byte at a time. -/
theorem hsxExpand_accepts_repeat :
    (hsxExpand 1 (fun _ => 7) (fun i => [0xA0, 0x80, 0x08][i]?) 0 3 (some fun _ => 9) 4).1 ≠ none ∧
      (hsxExpand 1 (fun _ => 7) (fun i => [0xA0, 0x80, 0x08][i]?) 0 3 (some fun _ => 9) 4).2 4 = 9 := by
  have h := hsxExpand_accepts Nat.one_pos (fun _ => 7) (fun i => [0xA0, 0x80, 0x08][i]?) 0 3
    (fun _ => 9) (show 4 < 2 ^ 32 by decide)
  exact ⟨by decide +kernel, h.2.2.1 4 (Nat.le_refl 4)⟩

end DiscoBSD.Hsx
