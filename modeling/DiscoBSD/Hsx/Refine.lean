import DiscoBSD.Hsx.Decoder

/-!
# The decoder agrees with the stream format

The proof splits the routine's state in two, because its two reasons to stop are about different
halves.

* `Source`: everything fed so far is whole tokens, which decode to the output and the pending
  back-reference, then the bit buffer, then the unread chunk. A stall is a statement about this half
  alone: **the buffer is all that is left and holds no whole token**.
* `Sink`: the memory holds the last window of the output where the next back-reference will look for
  it, and everything this call has written. Running out of room is about this half alone.

A byte goes from one half to the other: `Source` says which byte is next and `Sink.emit` says that
writing it keeps the history.
-/

set_option autoImplicit false

namespace DiscoBSD.Hsx

open DiscoBSD.Lib

/-! ## The reference decoder -/

theorem copyBack_length (off n : Nat) (out : List UInt8) :
    (copyBack off n out).length = out.length + n := by
  induction n generalizing out with
  | zero => rfl
  | succ n ih => rw [copyBack, ih, List.length_append, List.length_singleton]; omega

theorem copyBack_add (off m n : Nat) (out : List UInt8) :
    copyBack off n (copyBack off m out) = copyBack off (m + n) out := by
  induction m generalizing out with
  | zero => rw [Nat.zero_add]; rfl
  | succ m ih => rw [copyBack, ih, Nat.succ_add]; rfl

theorem prefix_copyBack (off n : Nat) (out : List UInt8) : out <+: copyBack off n out := by
  induction n generalizing out with
  | zero => exact List.prefix_refl out
  | succ n ih => exact (List.prefix_append out _).trans (ih _)

/-- Decoding only ever adds to the output. -/
theorem prefix_refDecode (lb : Nat) (bits : List Bool) (out : List UInt8) :
    out <+: refDecode lb bits out := by
  fun_induction refDecode lb bits out with
  | case1 => exact List.prefix_refl _
  | case2 => exact List.prefix_refl _
  | case3 _ _ _ ih => exact (List.prefix_append _ _).trans ih
  | case4 => exact List.prefix_refl _
  | case5 _ _ _ ih => exact (prefix_copyBack _ _ _).trans ih

/-- A literal at the front of a longer stream. -/
theorem refDecode_literal {lb : Nat} {f : List Bool} (hf : f.length = 8) (bits : List Bool)
    (out : List UInt8) : refDecode lb (true :: (f ++ bits)) out =
      refDecode lb bits (out ++ [UInt8.ofNat (bitsVal f)]) := by
  rw [refDecode, if_neg (by rw [List.length_append]; omega), ← hf, List.drop_left, List.take_left]

/-- A back-reference at the front of a longer stream. -/
theorem refDecode_backRef {lb : Nat} {i c : List Bool} (hi : i.length = windowBits)
    (hc : c.length = lb) (bits : List Bool) (out : List UInt8) :
    refDecode lb (false :: (i ++ (c ++ bits))) out =
      refDecode lb bits (copyBack (bitsVal i + 1) (bitsVal c + 1) out) := by
  have hdrop : (i ++ (c ++ bits)).drop (windowBits + lb) = bits := by
    rw [← List.append_assoc, ← hi, ← hc, ← List.length_append, List.drop_left]
  rw [refDecode, if_neg (by simp only [List.length_append]; omega), hdrop, ← hi, List.take_left,
    List.drop_left, ← hc, List.take_left]

/-- What is left of a stream holds no complete token. -/
theorem refDecode_short {lb : Nat} {vs : List Bool} (h : vs.length < 9 ∨
    vs.head? = some false ∧ vs.length < 1 + windowBits + lb) (out : List UInt8) :
    refDecode lb vs out = out := by
  cases vs with
  | nil => rw [refDecode]
  | cons v vs =>
    rw [List.length_cons, List.head?_cons] at h
    cases v with
    | true =>
      rw [refDecode, if_pos]
      rcases h with h | ⟨h, _⟩
      · omega
      · cases h
    | false =>
      rw [refDecode, if_pos]
      unfold windowBits at *
      omega

/-- Whole tokens and what they decode to. The routine consumes the stream in steps of this kind. -/
inductive Decoded (lb : Nat) : List Bool → List UInt8 → Prop
  | nil : Decoded lb [] []
  | literal {con f : List Bool} {out : List UInt8} : Decoded lb con out → f.length = 8 →
      Decoded lb (con ++ true :: f) (out ++ [UInt8.ofNat (bitsVal f)])
  | backRef {con i c : List Bool} {out : List UInt8} : Decoded lb con out →
      i.length = windowBits → c.length = lb →
      Decoded lb (con ++ false :: (i ++ c)) (copyBack (bitsVal i + 1) (bitsVal c + 1) out)

/-- The reference decoder gets past whole tokens. -/
theorem Decoded.refDecode {lb : Nat} {con : List Bool} {out : List UInt8} (h : Decoded lb con out)
    (bits : List Bool) : Hsx.refDecode lb (con ++ bits) [] = Hsx.refDecode lb bits out := by
  induction h generalizing bits with
  | nil => rfl
  | literal _ hf ih =>
    rw [List.append_assoc, ih, List.cons_append, refDecode_literal hf]
  | backRef _ hi hc ih =>
    rw [List.append_assoc, ih, List.cons_append, List.append_assoc, refDecode_backRef hi hc]

/-! ## The bits still to be decoded -/

/-- The bit buffer holds the bits `vs`, left aligned. -/
structure Buffer (sh : Int) (acc : Nat) (vs : List Bool) : Prop where
  acc_eq : acc = bitsVal (vs ++ List.replicate (32 - vs.length) false)
  sh_eq : sh = 24 - vs.length
  le : vs.length ≤ 32

theorem bytesBits_cons (b : UInt8) (bs : List UInt8) :
    bytesBits (b :: bs) = natBits 8 b.toNat ++ bytesBits bs := by
  rw [bytesBits, List.flatMap_cons]
  rfl

theorem bytesBits_append (bs cs : List UInt8) :
    bytesBits (bs ++ cs) = bytesBits bs ++ bytesBits cs := List.flatMap_append

theorem bitsVal_byte (b : UInt8) : bitsVal (natBits 8 b.toNat) = b.toNat := by
  rw [bitsVal_natBits, Nat.mod_eq_of_lt]
  exact b.toNat_lt

/-- One byte more in the buffer. -/
theorem Buffer.push {sh : Int} {acc : Nat} {vs : List Bool} (h : Buffer sh acc vs) (hsh : 0 ≤ sh)
    (b : UInt8) : Buffer (sh - 8) (wrap 32 (acc ||| b.toNat <<< sh.toNat)) (vs ++ natBits 8 b.toNat) := by
  obtain ⟨hacc, hs, hle⟩ := h
  have hlen : vs.length ≤ 24 := by omega
  have hnat : sh.toNat = 24 - vs.length := by omega
  have hpad : 32 - vs.length = (natBits 8 b.toNat).length + (24 - vs.length) := by
    rw [natBits_length]
    omega
  have hval : acc ||| b.toNat <<< sh.toNat =
      bitsVal (vs ++ natBits 8 b.toNat ++ List.replicate (24 - vs.length) false) := by
    have h := bitsVal_orIn vs (natBits 8 b.toNat) (24 - vs.length)
    rw [bitsVal_byte] at h
    rw [hacc, hnat, hpad, h]
  have hlt := bitsVal_lt (vs ++ natBits 8 b.toNat ++ List.replicate (24 - vs.length) false)
  have htot : (vs ++ natBits 8 b.toNat ++ List.replicate (24 - vs.length) false).length = 32 := by
    simp only [List.length_append, natBits_length, List.length_replicate]
    omega
  rw [htot] at hlt
  refine ⟨?_, ?_, ?_⟩
  · rw [hval, wrap_of_lt hlt]
    congr 3
    rw [List.length_append, natBits_length]
    omega
  · rw [List.length_append, natBits_length]
    omega
  · rw [List.length_append, natBits_length]
    omega

/-- **The refill moves bits, and stops only when the buffer is full or the chunk is used up.** -/
theorem Buffer.refill {sh : Int} {acc : Nat} {vs : List Bool} (h : Buffer sh acc vs)
    (input : List UInt8) : ∃ vs', Buffer (refill sh acc input).1 (refill sh acc input).2.1 vs' ∧
      vs' ++ bytesBits (refill sh acc input).2.2 = vs ++ bytesBits input ∧
      ((refill sh acc input).2.2 = [] ∨ (refill sh acc input).1 < 0) := by
  induction input generalizing sh acc vs with
  | nil => exact ⟨vs, h, rfl, .inl rfl⟩
  | cons b bs ih =>
    unfold Hsx.refill
    by_cases hsh : 0 ≤ sh
    · rw [if_pos hsh]
      obtain ⟨vs', hb, hbits, hstop⟩ := ih (h.push hsh b)
      exact ⟨vs', hb, by rw [hbits, bytesBits_cons, List.append_assoc], hstop⟩
    · rw [if_neg hsh]
      exact ⟨vs, h, rfl, .inr (Int.lt_of_not_ge hsh)⟩

/-- The tag bit is the sign of the buffer. -/
theorem Buffer.tag {sh : Int} {acc : Nat} {v : Bool} {vs : List Bool} (h : Buffer sh acc (v :: vs)) :
    2 ^ 31 ≤ acc ↔ v = true := by
  have hlen : (vs ++ List.replicate (32 - (v :: vs).length) false).length = 31 := by
    have := h.le
    simp only [List.length_append, List.length_replicate, List.length_cons] at this ⊢
    omega
  rw [h.acc_eq, List.cons_append, ← hlen]
  exact bitsVal_cons_ge

/-- Shifting the first `a.length` bits out of the buffer. -/
theorem Buffer.shift {sh : Int} {acc : Nat} {a c : List Bool} (h : Buffer sh acc (a ++ c)) :
    Buffer (sh + (a.length : Nat)) (wrap 32 (acc <<< a.length)) c := by
  have hle := h.le
  rw [List.length_append] at hle
  have hshift := bitsVal_shiftOut a (c ++ List.replicate (32 - (a ++ c).length) false)
  have htot : a.length + (c ++ List.replicate (32 - (a ++ c).length) false).length = 32 := by
    simp only [List.length_append, List.length_replicate]
    omega
  rw [htot, ← List.append_assoc, ← h.acc_eq] at hshift
  refine ⟨?_, ?_, by omega⟩
  · rw [hshift, List.append_assoc, List.replicate_append_replicate]
    congr 3
    rw [List.length_append]
    omega
  · have := h.sh_eq
    rw [List.length_append] at this
    omega

/-- Reading a field of the buffer that starts after the bits `a`. -/
theorem Buffer.field {sh : Int} {acc k : Nat} {a f c : List Bool}
    (h : Buffer sh acc (a ++ (f ++ c))) (hk : k + (a.length + f.length) = 32) :
    (acc >>> k) % 2 ^ f.length = bitsVal f := by
  have hle := h.le
  simp only [List.length_append] at hle
  have hlen : (c ++ List.replicate (32 - (a ++ (f ++ c)).length) false).length = k := by
    simp only [List.length_append, List.length_replicate]
    omega
  have hf := bitsVal_field a f (c ++ List.replicate (32 - (a ++ (f ++ c)).length) false)
  rw [hlen, ← List.append_assoc f, ← List.append_assoc a, ← h.acc_eq] at hf
  exact hf

/-! ## The bytes already written -/

/-- Memory of period `M` (`512` for the ring, `2 ^ 32` for the linear destination) in a call that
    started after `T₀` bytes of output: the last window is where a back-reference looks for it, and
    the call's own bytes follow each other from where it started. -/
structure Sink (M T₀ : Nat) (mem : Nat → UInt8) (op : Nat) (out : List UInt8) : Prop where
  hist : ∀ j, 0 < j → j ≤ window → j ≤ out.length →
    mem ((out.length - j) % M) = out.getD (out.length - j) 0
  start_le : T₀ ≤ out.length
  op_eq : op = T₀ % M + (out.length - T₀)
  written : ∀ i, T₀ + i < out.length → mem (T₀ % M + i) = out.getD (T₀ + i) 0

theorem getD_concat_lt {out : List UInt8} {b : UInt8} {i : Nat} (h : i < out.length) :
    (out ++ [b]).getD i 0 = out.getD i 0 := List.getD_append _ _ _ _ h

theorem getD_concat_eq (out : List UInt8) (b : UInt8) : (out ++ [b]).getD out.length 0 = b := by
  simp

section
variable {M T₀ op : Nat} {mem : Nat → UInt8} {out : List UInt8}

/-- While the call stays inside the memory, the write pointer is the next byte's slot. -/
theorem Sink.op_mod (h : Sink M T₀ mem op out) (hroom : op < M) : op = out.length % M := by
  have h1 := h.start_le
  have h2 := h.op_eq
  have h3 := Nat.div_add_mod T₀ M
  have hsplit : out.length = op + M * (T₀ / M) := by omega
  rw [hsplit, Nat.add_mul_mod_self_left, Nat.mod_eq_of_lt hroom]

/-- **Writing a byte keeps the history**: its slot is not one of the last window's, except the oldest,
    which the next back-reference can no longer reach. -/
theorem Sink.emit (h : Sink M T₀ mem op out) (hM : window ≤ M) (hroom : op < M) (b : UInt8) :
    Sink M T₀ (Function.update mem op b) (op + 1) (out ++ [b]) := by
  have hop := h.op_mod hroom
  have hstart := h.start_le
  have hopeq := h.op_eq
  have hlen : (out ++ [b]).length = out.length + 1 := by rw [List.length_append]; rfl
  refine ⟨fun j hj hw hle => ?_, by omega, by omega, fun i hi => ?_⟩
  · rw [hlen] at hle ⊢
    by_cases hj1 : j = 1
    · subst hj1
      rw [Nat.add_sub_cancel, ← hop, Function.update_self, getD_concat_eq]
    · have hslot : (out.length + 1 - j) % M ≠ op := by
        rw [hop]
        intro heq
        have hz := Nat.sub_mod_eq_zero_of_mod_eq heq.symm
        rw [Nat.mod_eq_of_lt (by omega)] at hz
        omega
      have hidx : out.length + 1 - j = out.length - (j - 1) := by omega
      rw [Function.update_of_ne hslot, hidx, h.hist (j - 1) (by omega) (by omega) (by omega),
        getD_concat_lt (by omega)]
  · rw [hlen] at hi
    by_cases hlast : T₀ + i = out.length
    · rw [show T₀ % M + i = op by omega, Function.update_self, hlast, getD_concat_eq]
    · rw [Function.update_of_ne (by omega), h.written i (by omega), getD_concat_lt (by omega)]

theorem zeroFill_sink (off : Nat) {n : Nat} (hM : window ≤ M) (h : Sink M T₀ mem op out)
    (hroom : op + n ≤ M) (hpos : out.length + n ≤ 2 ^ 32) :
    ∃ k m mem', k + m = n ∧
      zeroFill off n (wrap 32 out.length) op mem = (m, wrap 32 (out.length + k), op + k, mem') ∧
      Sink M T₀ mem' (op + k) (copyBack off k out) ∧ (m = 0 ∨ off ≤ out.length + k) := by
  induction n generalizing op mem out with
  | zero => exact ⟨0, 0, mem, rfl, rfl, h, .inl rfl⟩
  | succ n ih =>
    have hwrap : wrap 32 out.length = out.length := wrap_of_lt (by omega)
    unfold zeroFill
    by_cases hlt : out.length < off
    · have hnext := h.emit hM (by omega) 0
      have hlen : (out ++ [(0 : UInt8)]).length = out.length + 1 := by rw [List.length_append]; rfl
      obtain ⟨k, m, mem', hkm, hrun, hs, hstop⟩ := ih hnext (by omega) (by omega)
      have hback : byteBack off out = 0 := by rw [byteBack, if_pos hlt]
      rw [hwrap, if_pos hlt, ← hlen, hrun, hlen]
      refine ⟨k + 1, m, mem', by omega, ?_, ?_, ?_⟩
      · rw [show out.length + 1 + k = out.length + (k + 1) by omega,
          show op + 1 + k = op + (k + 1) by omega]
      · rw [copyBack, hback, show op + (k + 1) = op + 1 + k by omega]
        exact hs
      · rw [hlen] at hstop
        omega
    · rw [hwrap, if_neg hlt]
      exact ⟨0, n + 1, mem, by omega, by simp only [Nat.add_zero, hwrap], h, .inr (by omega)⟩

theorem copyLoop_sink {k off n : Nat} (hk : M = 2 ^ k) (hM : window ≤ M)
    (h : Sink M T₀ mem op out) (hroom : op + n ≤ M) (hpos : out.length + n ≤ 2 ^ 32)
    (h0 : 0 < off) (hoff : off ≤ window) (hle : off ≤ out.length) :
    Sink M T₀ (copyLoop (M - 1) n (wrap 32 (out.length - off)) op mem) (op + n)
      (copyBack off n out) := by
  induction n generalizing op mem out with
  | zero => exact h
  | succ n ih =>
    have hlen : ∀ b : UInt8, (out ++ [b]).length = out.length + 1 := fun b => by
      rw [List.length_append]; rfl
    have hsrc : wrap 32 (out.length - off) = out.length - off := wrap_of_lt (by omega)
    have hread : mem ((out.length - off) &&& (M - 1)) = byteBack off out := by
      rw [hk, and_sub_one_eq_mod, ← hk, h.hist off h0 hoff hle, byteBack, if_neg (by omega)]
    rw [copyLoop, hsrc, hread, copyBack, show op + (n + 1) = op + 1 + n by omega,
      show out.length - off + 1 = (out ++ [byteBack off out]).length - off by rw [hlen]; omega]
    exact ih (h.emit hM (by omega) _) (by omega) (by rw [hlen]; omega) (by rw [hlen]; omega)

end

/-- **The copy block writes the next bytes of the pending back-reference**, as many as fit. -/
theorem copyPending_sink {M T₀ k lim : Nat} {st : Locals} {out : List UInt8} (hk : M = 2 ^ k)
    (hM : window ≤ M) (h : Sink M T₀ st.mem st.op out) (hlim : lim ≤ M)
    (hpos : T₀ + (lim - T₀ % M) ≤ 2 ^ 32) (hoff : st.cnt ≠ 0 → 0 < st.off ∧ st.off ≤ window) :
    Sink M T₀ (copyPending (M - 1) (wrap 32 T₀) (T₀ % M) lim st).mem
      (st.op + min (lim - st.op) st.cnt) (copyBack st.off (min (lim - st.op) st.cnt) out) := by
  have h1 := h.start_le
  have h2 := h.op_eq
  have hT : wrap 32 (wrap 32 T₀ + (st.op - T₀ % M)) = wrap 32 out.length := by
    unfold wrap
    rw [Nat.mod_add_mod]
    congr 1
    omega
  simp only [copyPending, hT]
  generalize hn : min (lim - st.op) st.cnt = n
  have hnle : n ≤ lim - st.op := hn ▸ Nat.min_le_left _ _
  have hncnt : n ≤ st.cnt := hn ▸ Nat.min_le_right _ _
  clear hn
  by_cases hn0 : n = 0
  · subst hn0
    exact h
  · obtain ⟨i, m, mem', him, hrun, hs, hstop⟩ := zeroFill_sink st.off (n := n) hM h
      (by omega) (by omega)
    have hlen := copyBack_length st.off i out
    rw [hrun]
    by_cases hm : m = 0
    · subst hm
      rw [Nat.add_zero] at him
      subst him
      exact hs
    · obtain ⟨hpos0, hwin⟩ := hoff (by omega)
      have hle : st.off ≤ out.length + i := by omega
      have hsrc : wrap 32 (wrap 32 (out.length + i) + 2 ^ 32 - st.off) =
          wrap 32 ((copyBack st.off i out).length - st.off) := by
        rw [hlen, wrap_of_lt (show out.length + i < 2 ^ 32 by omega)]
        unfold wrap
        omega
      have hcopy := copyLoop_sink hk hM hs (n := m) (by omega) (by omega) hpos0 hwin (by omega)
      rw [copyBack_add, him] at hcopy
      simp only [hsrc]
      rw [show st.op + n = st.op + i + m by omega]
      exact hcopy

/-! ## One call -/

/-- Where the call stands in the stream `fed`. -/
structure Source (lb : Nat) (fed : List Bool) (st : Locals) (out : List UInt8) : Prop where
  bits : ∃ con vs, Decoded lb con (copyBack st.off st.cnt out) ∧
    fed = con ++ (vs ++ bytesBits st.input) ∧ Buffer st.sh st.acc vs
  off : st.cnt ≠ 0 → 0 < st.off ∧ st.off ≤ window

/-- The call can go no further on what it was fed: the output is all of it. -/
structure Stalled (lb : Nat) (fed : List Bool) (st : Locals) (out : List UInt8) : Prop where
  input : st.input = []
  cnt : st.cnt = 0
  all : refDecode lb fed [] = out

theorem Source.stalled {lb : Nat} {fed con vs : List Bool} {st : Locals} {out : List UInt8}
    (hdec : Decoded lb con (copyBack st.off st.cnt out))
    (hfed : fed = con ++ (vs ++ bytesBits st.input)) (hcnt : st.cnt = 0) (hin : st.input = [])
    (hshort : vs.length < 9 ∨ vs.head? = some false ∧ vs.length < 1 + windowBits + lb) :
    Stalled lb fed st out := by
  refine ⟨hin, hcnt, ?_⟩
  rw [hcnt] at hdec
  rw [hfed, hdec.refDecode, hin]
  exact (congrArg (refDecode lb · _) (List.append_nil vs)).trans (refDecode_short hshort _)

/-- The refill at the top of the loop: afterwards the buffer is known to hold enough for the tag and
    a literal, or the chunk is used up. -/
theorem topUp_source {fed con vs : List Bool} {st : Locals}
    (hfed : fed = con ++ (vs ++ bytesBits st.input)) (hb : Buffer st.sh st.acc vs) :
    ∃ vs', Buffer (topUp st).sh (topUp st).acc vs' ∧
      fed = con ++ (vs' ++ bytesBits (topUp st).input) ∧
      (6 < (topUp st).sh → 6 < st.sh ∧ (topUp st).input = []) := by
  unfold topUp
  by_cases hsh : 6 < st.sh
  · rw [if_pos hsh]
    obtain ⟨vs', hb', hbits, hstop⟩ := hb.refill st.input
    refine ⟨vs', hb', by rw [hfed, hbits], fun h6 => ⟨hsh, ?_⟩⟩
    rcases hstop with hnil | hneg
    · exact hnil
    · simp only [] at h6
      omega
  · rw [if_neg hsh]
    exact ⟨vs, hb, hfed, fun h6 => absurd h6 hsh⟩

theorem topUp_frame (st : Locals) : (topUp st).cnt = st.cnt ∧ (topUp st).off = st.off ∧
    (topUp st).mem = st.mem ∧ (topUp st).op = st.op := by
  unfold topUp
  split <;> exact ⟨rfl, rfl, rfl, rfl⟩

/-- A literal in the buffer is the next byte. -/
theorem literal_source {lb : Nat} {fed con f c : List Bool} {st : Locals} {out : List UInt8}
    (hdec : Decoded lb con out) (hcnt : st.cnt = 0)
    (hfed : fed = con ++ ((true :: f ++ c) ++ bytesBits st.input))
    (hb : Buffer st.sh st.acc (true :: f ++ c)) (hf : f.length = 8) :
    UInt8.ofNat (st.acc >>> 23) = UInt8.ofNat (bitsVal f) ∧
      Source lb fed (literal st) (out ++ [UInt8.ofNat (bitsVal f)]) := by
  have hfield : (st.acc >>> 23) % 2 ^ 8 = bitsVal f := by
    rw [← hf]
    exact Buffer.field (a := [true]) (c := c) hb (by rw [hf]; rfl)
  have hbuf : Buffer (st.sh + 9) (wrap 32 (st.acc <<< 9)) c := by
    have h := Buffer.shift hb
    rw [List.length_cons, hf] at h
    exact h
  refine ⟨?_, ⟨con ++ true :: f, c, ?_, ?_, hbuf⟩, fun hne => absurd hcnt hne⟩
  · rw [← hfield]
    exact (UInt8.ofNat_mod_size).symm
  · rw [show (literal st).cnt = 0 from hcnt]
    exact hdec.literal hf
  · rw [hfed]
    simp only [List.append_assoc, literal]

/-- The fields of a back-reference in the buffer are the ones the stream format names. -/
theorem backRef_source {lb : Nat} {fed con i c t : List Bool} {st : Locals} {out : List UInt8}
    (hlb : lb ≤ lookaheadMax) (hdec : Decoded lb con out)
    (hfed : fed = con ++ ((false :: (i ++ c) ++ t) ++ bytesBits st.input))
    (hb : Buffer st.sh st.acc (false :: (i ++ c) ++ t)) (hi : i.length = windowBits)
    (hc : c.length = lb) : Source lb fed (backRef lb st) out ∧ (backRef lb st).cnt ≠ 0 := by
  unfold lookaheadMax at hlb
  have hoff : (backRef lb st).off = bitsVal i + 1 := by
    have h : (st.acc >>> 22) % 2 ^ i.length = bitsVal i :=
      Buffer.field (a := [false]) (c := c ++ t) (by simpa using hb) (by rw [hi]; rfl)
    rw [hi] at h
    exact congrArg (· + 1) ((and_sub_one_eq_mod _ windowBits).trans h)
  have hcnt : (backRef lb st).cnt = bitsVal c + 1 := by
    have h : (st.acc >>> (22 - lb)) % 2 ^ c.length = bitsVal c := by
      refine Buffer.field (a := false :: i) (c := t) (by simpa using hb) ?_
      rw [List.length_cons, hi, hc]
      unfold windowBits
      omega
    rw [hc] at h
    have hmask : (1 <<< lb - 1 : Nat) = 2 ^ lb - 1 := by rw [Nat.shiftLeft_eq, Nat.one_mul]
    exact congrArg (· + 1) ((congrArg (st.acc >>> (22 - lb) &&& ·) hmask).trans
      ((and_sub_one_eq_mod _ lb).trans h))
  have hbuf : Buffer (backRef lb st).sh (backRef lb st).acc t := by
    have h := Buffer.shift hb
    rw [List.length_cons, List.length_append, hi, hc,
      show windowBits + lb + 1 = 1 + windowBits + lb by omega] at h
    exact h
  have hbound := bitsVal_lt i
  rw [hi] at hbound
  refine ⟨⟨⟨con ++ false :: (i ++ c), t, ?_, ?_, hbuf⟩, fun _ => ?_⟩, ?_⟩
  · rw [hoff, hcnt]
    exact hdec.backRef hi hc
  · rw [hfed]
    simp only [List.append_assoc, backRef]
  · rw [hoff]
    exact ⟨Nat.succ_pos _, hbound⟩
  · rw [hcnt]
    exact Nat.succ_ne_zero _

/-- Copying part of the pending back-reference leaves the rest of it pending. -/
theorem copyPending_source {lb mask pos₀ op₀ lim : Nat} {fed : List Bool} {st : Locals}
    {out : List UInt8} (h : Source lb fed st out) :
    Source lb fed (copyPending mask pos₀ op₀ lim st)
      (copyBack st.off (min (lim - st.op) st.cnt) out) := by
  obtain ⟨⟨con, vs, hdec, hfed, hb⟩, hoff⟩ := h
  refine ⟨⟨con, vs, ?_, hfed, hb⟩, fun hne => hoff fun h0 => hne ?_⟩
  · show Decoded lb con (copyBack st.off (st.cnt - min (lim - st.op) st.cnt) _)
    rw [copyBack_add, Nat.add_sub_cancel' (Nat.min_le_right _ _)]
    exact hdec
  · show st.cnt - min (lim - st.op) st.cnt = 0
    omega

/-- What holds at the head of the loop, in a call that may write up to the slot `lim`. -/
structure Turn (lb M T₀ lim : Nat) (fed : List Bool) (st : Locals) (out : List UInt8) : Prop where
  source : Source lb fed st out
  sink : Sink M T₀ st.mem st.op out
  op_le : st.op ≤ lim
  pending : st.cnt ≠ 0 → st.op = lim

/-- The call copies what it can of a pending back-reference. -/
theorem Turn.copy {lb M T₀ k lim : Nat} {fed : List Bool} {st : Locals} {out : List UInt8}
    (hk : M = 2 ^ k) (hM : window ≤ M) (hlim : lim ≤ M) (hpos : T₀ + (lim - T₀ % M) ≤ 2 ^ 32)
    (hsrc : Source lb fed st out) (hsink : Sink M T₀ st.mem st.op out) (hle : st.op ≤ lim) :
    Turn lb M T₀ lim fed (copyPending (M - 1) (wrap 32 T₀) (T₀ % M) lim st)
      (copyBack st.off (min (lim - st.op) st.cnt) out) := by
  refine ⟨copyPending_source hsrc, copyPending_sink hk hM hsink hlim hpos hsrc.off, ?_, fun hne => ?_⟩
  · show st.op + min (lim - st.op) st.cnt ≤ lim
    omega
  · change st.cnt - min (lim - st.op) st.cnt ≠ 0 at hne
    show st.op + min (lim - st.op) st.cnt = lim
    omega

theorem exists_append_of_le {l : List Bool} {n : Nat} (h : n ≤ l.length) :
    ∃ a b, l = a ++ b ∧ a.length = n :=
  ⟨l.take n, l.drop n, (List.take_append_drop n l).symm, List.length_take_of_le h⟩

/-- **The loop decodes until the room is used up or the chunk holds no further token.** -/
theorem decodeLoop_turn {lb M T₀ k lim : Nat} {fed : List Bool} (hlb : lb ≤ lookaheadMax)
    (hk : M = 2 ^ k) (hM : window ≤ M) (hlim : lim ≤ M) (hpos : T₀ + (lim - T₀ % M) ≤ 2 ^ 32)
    (turns : Nat) {st : Locals} {out : List UInt8} (h : Turn lb M T₀ lim fed st out)
    (hturns : lim - st.op ≤ turns) :
    ∃ out', out <+: out' ∧
      Turn lb M T₀ lim fed (decodeLoop lb (M - 1) (wrap 32 T₀) (T₀ % M) lim turns st) out' ∧
      ((decodeLoop lb (M - 1) (wrap 32 T₀) (T₀ % M) lim turns st).op = lim ∨
        Stalled lb fed (decodeLoop lb (M - 1) (wrap 32 T₀) (T₀ % M) lim turns st) out') := by
  induction turns generalizing st out with
  | zero =>
    have hle := h.op_le
    exact ⟨out, List.prefix_refl out, h, .inl (by rw [decodeLoop]; omega)⟩
  | succ turns ih =>
    unfold decodeLoop
    by_cases hop : st.op = lim
    · rw [if_pos hop]
      exact ⟨out, List.prefix_refl out, h, .inl hop⟩
    · rw [if_neg hop]
      have hcnt : st.cnt = 0 := by
        by_contra hne
        exact hop (h.pending hne)
      obtain ⟨⟨con, vs, hdec, hfed, hb⟩, _⟩ := h.source
      obtain ⟨vs', hb', hfed', hmore⟩ := topUp_source hfed hb
      obtain ⟨hfc, hfo, hfm, hfp⟩ := topUp_frame st
      have hsink := h.sink
      have hlt : st.op < lim := Nat.lt_of_le_of_ne h.op_le hop
      have hdec' : Decoded lb con out := by rw [hcnt] at hdec; exact hdec
      rw [← hfm, ← hfp] at hsink
      rw [← hfc] at hcnt
      rw [← hfp] at hlt hturns
      generalize hr : topUp st = r at *
      simp only []
      have hlen := hb'.sh_eq
      have hturn : Turn lb M T₀ lim fed r out :=
        ⟨⟨⟨con, vs', by rw [hcnt]; exact hdec', hfed', hb'⟩, fun hne => absurd hcnt hne⟩, hsink,
          Nat.le_of_lt hlt, fun hne => absurd hcnt hne⟩
      by_cases hstall : 6 < st.sh ∧ 15 < r.sh
      · rw [if_pos hstall]
        refine ⟨out, List.prefix_refl out, hturn, .inr ?_⟩
        exact Source.stalled (by rw [hcnt]; exact hdec') hfed' hcnt (hmore (by omega)).2
          (.inl (by omega))
      · rw [if_neg hstall]
        have hnine : 9 ≤ vs'.length := by
          by_contra hfew
          exact hstall ⟨(hmore (by omega)).1, by omega⟩
        obtain ⟨v, vt, rfl⟩ := List.exists_cons_of_length_pos (l := vs') (by omega)
        rw [List.length_cons] at hnine hlen
        by_cases htag : 2 ^ 31 ≤ r.acc
        · -- A literal.
          rw [if_pos htag]
          obtain rfl := hb'.tag.mp htag
          obtain ⟨f, c, rfl, hf⟩ := exists_append_of_le (show 8 ≤ vt.length by omega)
          obtain ⟨hbyte, hsrc⟩ := literal_source hdec' hcnt hfed' hb' hf
          have hemit := hsink.emit hM (by omega) (UInt8.ofNat (bitsVal f))
          rw [← hbyte] at hemit hsrc
          have hnext : Turn lb M T₀ lim fed (literal r) _ :=
            ⟨hsrc, hemit, hlt, fun hne => absurd hcnt hne⟩
          obtain ⟨out', hpre, hres⟩ := ih hnext (by simp only [literal]; omega)
          exact ⟨out', (List.prefix_append _ _).trans hpre, hres⟩
        · rw [if_neg htag]
          have hv : v = false := by
            cases v with
            | false => rfl
            | true => exact absurd (hb'.tag.mpr rfl) htag
          subst hv
          unfold lookaheadMax at hlb
          by_cases hshort : (14 : Int) - lb < r.sh
          · rw [if_pos hshort]
            refine ⟨out, List.prefix_refl out, hturn, .inr ?_⟩
            refine Source.stalled (by rw [hcnt]; exact hdec') hfed' hcnt (hmore (by omega)).2
              (.inr ⟨rfl, ?_⟩)
            rw [List.length_cons]
            unfold windowBits
            omega
          · -- A back-reference, whose first byte goes out in this turn.
            rw [if_neg hshort]
            have henough : windowBits + lb ≤ vt.length := by
              unfold windowBits
              omega
            obtain ⟨ic, t, rfl, hic⟩ := exists_append_of_le henough
            obtain ⟨i, c, rfl, hi⟩ := exists_append_of_le (show windowBits ≤ ic.length by omega)
            have hc : c.length = lb := by
              rw [List.length_append] at hic
              omega
            obtain ⟨hsrc, hne⟩ := backRef_source hlb hdec' hfed' hb' hi hc
            have hcopy := Turn.copy hk hM hlim hpos hsrc hsink hturn.op_le
            obtain ⟨out', hpre, hres⟩ := ih hcopy (by
              show lim - (r.op + min (lim - r.op) (backRef lb r).cnt) ≤ turns
              omega)
            exact ⟨out', (prefix_copyBack _ _ _).trans hpre, hres⟩

end DiscoBSD.Hsx
