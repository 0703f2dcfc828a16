import DiscoBSD.Hsx.Refine

/-!
# A stream in pieces

The callers of `hsx_dec_run` offer a stream in chunks and take the output in rooms, both as their own
buffers dictate. A `Session` is any such schedule: it keeps what was offered and what came out, which
no single call sees. The result is about **every schedule at once**: whatever the pieces, the output
so far is the beginning of what the reference decoder makes of the bytes offered so far, and all of it
once a call has come back short.
-/

set_option autoImplicit false

namespace DiscoBSD.Hsx

open DiscoBSD.Lib

/-- The bytes a call left in memory from slot `op₀` on. -/
def produced (mem : Nat → UInt8) (op₀ n : Nat) : List UInt8 := (List.range n).map fun i => mem (op₀ + i)

/-- The decoder between two calls: what was fed, and the output so far. -/
structure Ready (lb M : Nat) (fed : List Bool) (d : HsxDec) (mem : Nat → UInt8)
    (out : List UInt8) : Prop where
  hist : ∀ j, 0 < j → j ≤ window → j ≤ out.length →
    mem ((out.length - j) % M) = out.getD (out.length - j) 0
  bits : ∃ con vs, Decoded lb con (copyBack d.off d.cnt out) ∧
    fed = con ++ (vs ++ bytesBits d.input) ∧ Buffer d.sh d.acc vs
  off : d.cnt ≠ 0 → 0 < d.off ∧ d.off ≤ window
  pos_eq : d.pos = wrap 32 out.length
  lb_eq : d.lb = lb

theorem Ready.init (lb M : Nat) (mem : Nat → UInt8) : Ready lb M [] (hsxDecInit lb) mem [] where
  hist := fun j h0 _ hle => absurd hle (by simp; omega)
  bits := ⟨[], [], .nil, rfl, rfl, rfl, Nat.zero_le _⟩
  off := fun h => absurd rfl h
  pos_eq := rfl
  lb_eq := rfl

/-- A new chunk is offered once the last one is used up. -/
theorem Ready.feed {lb M : Nat} {fed : List Bool} {d : HsxDec} {mem : Nat → UInt8}
    {out : List UInt8} (h : Ready lb M fed d mem out) (hin : d.input = []) (chunk : List UInt8) :
    Ready lb M (fed ++ bytesBits chunk) (hsxDecInput d chunk) mem out := by
  obtain ⟨con, vs, hdec, hfed, hb⟩ := h.bits
  refine ⟨h.hist, ⟨con, vs, hdec, ?_, hb⟩, h.off, h.pos_eq, h.lb_eq⟩
  rw [hfed, hin]
  simp [hsxDecInput, bytesBits]

/-- The call's own bytes are the end of the output. -/
theorem Sink.produced_eq {M T₀ op n : Nat} {mem : Nat → UInt8} {out : List UInt8}
    (h : Sink M T₀ mem op out) (hn : n = out.length - T₀) :
    produced mem (T₀ % M) n = out.drop T₀ := by
  have hle := h.start_le
  refine List.ext_getElem? fun i => ?_
  unfold produced
  by_cases hi : i < n
  · rw [List.getElem?_map, List.getElem?_range hi, Option.map_some, h.written i (by omega),
      List.getElem?_drop, List.getD_eq_getElem _ _ (by omega), List.getElem?_eq_getElem]
  · rw [List.getElem?_eq_none (by simpa using Nat.le_of_not_lt hi),
      List.getElem?_eq_none (by rw [List.length_drop]; omega)]

/-- The loop of one call, from the decoder's state. -/
theorem Ready.locals {lb M k room : Nat} {fed : List Bool} {d : HsxDec} {mem : Nat → UInt8}
    {out : List UInt8} (hlb : lb ≤ lookaheadMax) (hk : M = 2 ^ k) (hM : window ≤ M)
    (h : Ready lb M fed d mem out) (hslot : d.pos &&& (M - 1) = out.length % M)
    (hroom : out.length % M + room ≤ M) (hend : out.length + room ≤ 2 ^ 32) :
    ∃ out', out <+: out' ∧ Turn lb M out.length (out.length % M + room) fed
        (runLocals d mem (M - 1) room) out' ∧
      ((runLocals d mem (M - 1) room).op = out.length % M + room ∨
        Stalled lb fed (runLocals d mem (M - 1) room) out') := by
  have hsink : Sink M out.length mem (out.length % M) out :=
    ⟨h.hist, Nat.le_refl _, by omega, fun i hi => absurd hi (by omega)⟩
  have hend' : out.length + (out.length % M + room - out.length % M) ≤ 2 ^ 32 := by omega
  rw [h.pos_eq] at hslot
  simp only [runLocals, h.pos_eq, hslot, h.lb_eq]
  by_cases hcnt : d.cnt ≠ 0
  · simp only [if_pos hcnt]
    have hsrc : Source lb fed ⟨d.input, d.acc, d.sh, d.cnt, d.off, mem, out.length % M⟩ out :=
      ⟨h.bits, h.off⟩
    have hcopy := Turn.copy hk hM hroom hend' hsrc hsink (Nat.le_add_right _ _)
    obtain ⟨out', hpre, hres⟩ := decodeLoop_turn hlb hk hM hroom hend' room hcopy
      (by simp only [copyPending]; omega)
    exact ⟨out', (prefix_copyBack _ _ _).trans hpre, hres⟩
  · simp only [if_neg hcnt]
    exact decodeLoop_turn hlb hk hM hroom hend' room
      ⟨⟨h.bits, h.off⟩, hsink, Nat.le_add_right _ _, fun hne => absurd hne hcnt⟩
      (by simp only []; omega)

/-- A call that ends inside the memory's period ends inside the counter's range. -/
theorem add_room_le {M k T room : Nat} (hk : M = 2 ^ k) (hk32 : k ≤ 32) (hroom : T % M + room ≤ M)
    (hlt : T < 2 ^ 32) : T + room ≤ 2 ^ 32 := by
  obtain ⟨q, hq⟩ : M ∣ 2 ^ 32 := hk ▸ Nat.pow_dvd_pow 2 hk32
  have hdiv := Nat.div_add_mod T M
  have hMpos : 0 < M := hk ▸ Nat.two_pow_pos k
  have hqlt : T / M < q := by
    rw [Nat.div_lt_iff_lt_mul hMpos, Nat.mul_comm, ← hq]
    exact hlt
  have hle : M * (T / M) + M ≤ M * q := by
    rw [← Nat.mul_succ]
    exact Nat.mul_le_mul_left M hqlt
  omega

/-- **One call of `hsx_dec_run`.** It produces the next bytes of the stream, no more than `room`, and
    fewer only when the chunk is used up and the output is all that was fed. -/
theorem Ready.run {lb M k room : Nat} {fed : List Bool} {d : HsxDec} {mem : Nat → UInt8}
    {out : List UInt8} (hlb : lb ≤ lookaheadMax) (hk : M = 2 ^ k) (hk32 : k ≤ 32)
    (hM : window ≤ M) (h : Ready lb M fed d mem out)
    (hroom : (d.pos &&& (M - 1)) + room ≤ M) (hlt : out.length < 2 ^ 32) :
    ∃ n d' mem' bytes, hsxDecRun d mem (M - 1) room = (n, d', mem') ∧
      bytes = produced mem' (d.pos &&& (M - 1)) n ∧ n = bytes.length ∧ n ≤ room ∧
      Ready lb M fed d' mem' (out ++ bytes) ∧
      (n < room → d'.input = [] ∧ refDecode lb fed [] = out ++ bytes) := by
  have hslot : d.pos &&& (M - 1) = out.length % M := by
    rw [hk, and_sub_one_eq_mod, ← hk, h.pos_eq, wrap,
      Nat.mod_mod_of_dvd _ (hk ▸ Nat.pow_dvd_pow 2 hk32)]
  rw [hslot] at hroom
  have hend := add_room_le hk hk32 hroom hlt
  obtain ⟨out', hpre, hturn, hstop⟩ := h.locals hlb hk hM hslot hroom hend
  have hop := hturn.sink.op_eq
  have hstart := hturn.sink.start_le
  have hople := hturn.op_le
  have hn : (runLocals d mem (M - 1) room).op - (d.pos &&& (M - 1)) = out'.length - out.length := by
    omega
  have hbytes := hturn.sink.produced_eq hn
  have hcat : out ++ out'.drop out.length = out' := List.prefix_iff_eq_append.mp hpre
  refine ⟨_, _, _, _, rfl, rfl, ?_, ?_, ?_, ?_⟩
  · simp [produced]
  · omega
  · rw [← hslot] at hbytes
    simp only [hbytes, hcat]
    refine ⟨hturn.sink.hist, hturn.source.bits, hturn.source.off, ?_, h.lb_eq⟩
    simp only []
    rw [hn, h.pos_eq]
    unfold wrap
    rw [Nat.mod_add_mod]
    congr 1
    omega
  · intro hshort
    rcases hstop with hfull | hstall
    · omega
    · rw [← hslot] at hbytes
      rw [hbytes, hcat]
      exact ⟨hstall.input, hstall.all⟩

/-- The output so far is the beginning of what was fed. -/
theorem Ready.out_begins {lb M : Nat} {fed : List Bool} {d : HsxDec} {mem : Nat → UInt8}
    {out : List UInt8} (h : Ready lb M fed d mem out) : out <+: refDecode lb fed [] := by
  obtain ⟨con, vs, hdec, hfed, _⟩ := h.bits
  rw [hfed, hdec.refDecode]
  exact (prefix_copyBack _ _ _).trans (prefix_refDecode _ _ _)

/-! ## Schedules -/

/-- The two calling conventions of `hsx_dec_run`. -/
inductive History where
  | linear
  | ring
  deriving DecidableEq, Repr

/-- The period of the memory: `mask` is one less. -/
def History.period : History → Nat
  | .linear => 2 ^ 32
  | .ring => window

theorem History.period_eq (hist : History) :
    ∃ k, hist.period = 2 ^ k ∧ k ≤ 32 ∧ window ≤ hist.period := by
  cases hist with
  | linear => exact ⟨32, rfl, Nat.le_refl _, by decide⟩
  | ring => exact ⟨9, rfl, by decide, Nat.le_refl _⟩

/-- A stream in progress: the decoder and its memory, every byte offered, every byte produced, and
    whether the last call came back short of its room. -/
structure Session where
  dec : HsxDec
  mem : Nat → UInt8
  fed : List UInt8
  out : List UInt8
  short : Bool

def Session.start (lb : Nat) (mem : Nat → UInt8) : Session := ⟨hsxDecInit lb, mem, [], [], false⟩

def Session.feed (s : Session) (chunk : List UInt8) : Session :=
  { s with dec := hsxDecInput s.dec chunk, fed := s.fed ++ chunk, short := false }

def Session.run (s : Session) (hist : History) (room : Nat) : Session :=
  let (n, d, mem) := hsxDecRun s.dec s.mem (hist.period - 1) room
  { s with
    dec := d, mem := mem, short := n < room
    out := s.out ++ produced mem (s.dec.pos &&& (hist.period - 1)) n }

/-- Every schedule: a chunk is offered when the last one is used up, and a call's room stays inside
    the destination or inside the ring. -/
inductive Session.Reach (lb : Nat) (hist : History) (mem : Nat → UInt8) : Session → Prop
  | start : Reach lb hist mem (Session.start lb mem)
  | feed {s : Session} (chunk : List UInt8) : Reach lb hist mem s → s.dec.input = [] →
      Reach lb hist mem (s.feed chunk)
  | run {s : Session} (room : Nat) : Reach lb hist mem s →
      (s.dec.pos &&& (hist.period - 1)) + room ≤ hist.period → Reach lb hist mem (s.run hist room)

/-- A call of a session. -/
theorem Session.run_ready {lb room : Nat} {hist : History} {s : Session} (hlb : lb ≤ lookaheadMax)
    (h : Ready lb hist.period (bytesBits s.fed) s.dec s.mem s.out)
    (hroom : (s.dec.pos &&& (hist.period - 1)) + room ≤ hist.period) (hlt : s.out.length < 2 ^ 32) :
    Ready lb hist.period (bytesBits s.fed) (s.run hist room).dec (s.run hist room).mem
        (s.run hist room).out ∧
      ((s.run hist room).short = true →
        refDecode lb (bytesBits s.fed) [] = (s.run hist room).out) ∧
      (s.run hist room).out.length ≤ s.out.length + room ∧
      ((s.run hist room).short = false → (s.run hist room).out.length = s.out.length + room) := by
  obtain ⟨k, hk, hk32, hM⟩ := hist.period_eq
  obtain ⟨n, d', mem', bytes, hcall, hbytes, hn, hle, hready, hshort⟩ :=
    h.run hlb hk hk32 hM hroom hlt
  simp only [Session.run, hcall, ← hbytes, decide_eq_true_eq, decide_eq_false_iff_not]
  rw [List.length_append]
  exact ⟨hready, fun hs => (hshort hs).2, by omega, fun hs => by omega⟩

theorem Session.length_out_le (s : Session) (hist : History) (room : Nat) :
    s.out.length ≤ (s.run hist room).out.length := by
  simp only [Session.run, List.length_append]
  exact Nat.le_add_right _ _

theorem Session.Reach.ready {lb : Nat} {hist : History} {mem : Nat → UInt8} {s : Session}
    (hlb : lb ≤ lookaheadMax) (h : Session.Reach lb hist mem s) (hlt : s.out.length < 2 ^ 32) :
    Ready lb hist.period (bytesBits s.fed) s.dec s.mem s.out ∧
      (s.short = true → refDecode lb (bytesBits s.fed) [] = s.out) := by
  induction h with
  | start => exact ⟨Ready.init lb _ mem, fun h => nomatch h⟩
  | feed chunk _ hin ih =>
    refine ⟨?_, fun h => nomatch h⟩
    rw [show bytesBits (Session.feed _ chunk).fed = _ from bytesBits_append _ _]
    exact (ih hlt).1.feed hin chunk
  | @run s room _ hroom ih =>
    have hbefore := Nat.lt_of_le_of_lt (s.length_out_le hist room) hlt
    have hrun := Session.run_ready hlb (ih hbefore).1 hroom hbefore
    exact ⟨hrun.1, hrun.2.1⟩

/-- **`hsx_dec_run` decodes the stream format, over every schedule** of chunks and rooms and for both
    histories, as long as fewer than `2 ^ 32` bytes have come out: the output is a prefix of the
    reference decoder's, and all of it when the last call came back short. -/
theorem hsxDecRun_refines {lb : Nat} {hist : History} {mem : Nat → UInt8} {s : Session}
    (hlb : 1 ≤ lb ∧ lb ≤ lookaheadMax) (h : Session.Reach lb hist mem s)
    (hlt : s.out.length < 2 ^ 32) :
    s.out <+: refDecode lb (bytesBits s.fed) [] ∧
      (s.short = true → s.out = refDecode lb (bytesBits s.fed) []) := by
  obtain ⟨hready, hshort⟩ := h.ready hlb.2 hlt
  exact ⟨hready.out_begins, fun hs => (hshort hs).symm⟩

/-- A literal and an overlapping back-reference, with the second byte of the stream offered after the
    decoder stalled inside the first token and the copy cut in two by a room of two bytes. -/
theorem hsxDecRun_refines_pieces :
    refDecode 3 (bytesBits [0xA0, 0x80, 0x08]) [] = [0x41, 0x41, 0x41, 0x41] := by
  have h1 : Session.Reach 3 .ring (fun _ => 7) _ := (Session.Reach.start).feed [0xA0] rfl
  have h2 := h1.run 2 (by decide)
  have h3 := (h2.feed [0x80, 0x08] (by decide +kernel)).run 2 (by decide +kernel)
  have h4 := h3.run 5 (by decide +kernel)
  have hall := (hsxDecRun_refines (by decide) h4 (by decide +kernel)).2 (by decide +kernel)
  generalize hs : Session.run _ _ 5 = s at hall
  have hfed : s.fed = [0xA0, 0x80, 0x08] := by subst hs; rfl
  have hout : s.out = [0x41, 0x41, 0x41, 0x41] := by subst hs; decide +kernel
  rw [hfed, hout] at hall
  exact hall.symm

/-! ## Past the range of `pos`

`pos` is an `unsigned`, so the byte after the first `2 ^ 32` is byte number zero again, and every
back-reference then reaches before the start. A ring can get there: eight literals and `2 ^ 24`
back-references of 256 bytes at distance one are a stream of 36 MB that decodes to ones. -/

/-- Eight literals `1`. -/
def onesLiterals : List UInt8 := [0x80, 0xC0, 0x60, 0x30, 0x18, 0x0C, 0x06, 0x03, 0x01]

/-- Four back-references of 256 bytes at distance one. -/
def onesRefs : List UInt8 := [0x00, 0x3F, 0xC0, 0x0F, 0xF0, 0x03, 0xFC, 0x00, 0xFF]

/-- The stream with `4 * n` back-references. -/
def onesStream (n : Nat) : List UInt8 := onesLiterals ++ (List.replicate n onesRefs).flatten

def litBits : List Bool := true :: natBits 8 1

def refBits : List Bool := false :: (List.replicate 9 false ++ List.replicate 8 true)

/-- What is left of the stream: `a` literals, then `b` back-references. -/
def onesTail (a b : Nat) : List Bool :=
  (List.replicate a litBits).flatten ++ (List.replicate b refBits).flatten

theorem bytesBits_onesStream (n : Nat) : bytesBits (onesStream n) = onesTail 8 (4 * n) := by
  have hrefs : bytesBits (List.replicate n onesRefs).flatten =
      (List.replicate (4 * n) refBits).flatten := by
    induction n with
    | zero => rfl
    | succ n ih =>
      have hfour : bytesBits onesRefs = (List.replicate 4 refBits).flatten := by decide
      rw [List.replicate_succ, List.flatten_cons, bytesBits_append, ih, hfour,
        show 4 * (n + 1) = 4 + 4 * n by omega, List.replicate_add, List.flatten_append]
  rw [onesStream, bytesBits_append, hrefs, onesTail]
  congr 1

/-- A back-reference of distance one repeats the last byte. -/
theorem copyBack_replicate (v : UInt8) (k : Nat) {n : Nat} (hn : 0 < n) :
    copyBack 1 k (List.replicate n v) = List.replicate (n + k) v := by
  induction k generalizing n with
  | zero => rfl
  | succ k ih =>
    have hback : byteBack 1 (List.replicate n v) = v := by
      rw [byteBack, List.length_replicate, if_neg (by omega),
        List.getD_eq_getElem _ _ (by rw [List.length_replicate]; omega), List.getElem_replicate]
    rw [copyBack, hback, ← List.replicate_succ', ih (Nat.succ_pos n)]
    congr 1
    omega

theorem refDecode_repeat (v : UInt8) {n : Nat} (hn : 0 < n) {c : List Bool} (hc : c.length = 8)
    (bits : List Bool) :
    refDecode 8 (false :: (List.replicate 9 false ++ (c ++ bits))) (List.replicate n v) =
      refDecode 8 bits (List.replicate (n + (bitsVal c + 1)) v) := by
  rw [refDecode_backRef (i := List.replicate 9 false) rfl hc, ← copyBack_replicate v _ hn]
  rfl

/-- The reference decoder makes ones of it. -/
theorem refDecode_ones (a b n : Nat) (h : a = 0 → 0 < n) :
    refDecode 8 (onesTail a b) (List.replicate n 1) = List.replicate (n + a + 256 * b) 1 := by
  induction a generalizing n with
  | zero =>
    induction b generalizing n with
    | zero => rw [onesTail]; exact refDecode_short (.inl (by decide)) _
    | succ b ihb =>
      have htail : onesTail 0 (b + 1) = false :: (List.replicate 9 false ++
          (List.replicate 8 true ++ onesTail 0 b)) := rfl
      rw [htail, refDecode_repeat 1 (h rfl) (List.length_replicate : _ = 8),
        show bitsVal (List.replicate 8 true) + 1 = 256 by decide, ihb _ fun _ => by omega]
      congr 1
      omega
  | succ a iha =>
    have htail : onesTail (a + 1) b = true :: (natBits 8 1 ++ onesTail a b) := rfl
    rw [htail, refDecode_literal (by rfl), show UInt8.ofNat (bitsVal (natBits 8 1)) = 1 by decide,
      ← List.replicate_succ', iha (n + 1) fun _ => Nat.succ_pos n]
    congr 1
    omega

/-- Whole tokens taken off the front of the stream leave a tail of the same shape. -/
theorem Decoded.ones {B : Nat} {con : List Bool} {out : List UInt8} (h : Decoded 8 con out) :
    ∀ rem, con ++ rem = onesTail 8 B → ∃ a b, rem = onesTail a b ∧
      out.length + a + 256 * b = 8 + 256 * B ∧ (0 < a → b = B) := by
  induction h with
  | nil => exact fun rem heq => ⟨8, B, heq, by simp, fun _ => rfl⟩
  | @literal con f out _ hf ih =>
    intro rem heq
    rw [List.append_assoc] at heq
    obtain ⟨a, b, htail, hlen, hB⟩ := ih _ heq
    cases a with
    | zero =>
      cases b with
      | zero => cases htail
      | succ b => cases htail
    | succ a =>
      have hcons : true :: (f ++ rem) = true :: (natBits 8 1 ++ onesTail a b) := htail
      have hrem := (List.append_inj (List.cons.inj hcons).2 (by rw [hf]; rfl)).2
      exact ⟨a, b, hrem, by rw [List.length_append, List.length_singleton]; omega,
        fun _ => hB (Nat.succ_pos a)⟩
  | @backRef con i c out _ hi hc ih =>
    intro rem heq
    rw [List.append_assoc] at heq
    obtain ⟨a, b, htail, hlen, hB⟩ := ih _ heq
    cases a with
    | succ a => cases htail
    | zero =>
      cases b with
      | zero => cases htail
      | succ b =>
        have hcons : false :: (i ++ (c ++ rem)) = false :: (List.replicate 9 false ++
            (List.replicate 8 true ++ onesTail 0 b)) := by
          rw [← List.append_assoc]
          exact htail
        have hrest := (List.append_inj (List.cons.inj hcons).2 (by rw [hi]; rfl)).2
        obtain ⟨hcount, hrem⟩ := List.append_inj hrest (by rw [hc]; rfl)
        refine ⟨0, b, hrem, ?_, fun h0 => absurd h0 (Nat.lt_irrefl 0)⟩
        rw [copyBack_length, hcount, show bitsVal (List.replicate 8 true) = 255 by decide]
        omega

/-- The session that takes the stream of ones out in rooms of one window. -/
theorem onesSession {n : Nat} (mem : Nat → UInt8) (i : Nat) (hi : 512 * i ≤ 2 ^ 32)
    (hbig : 2 ^ 32 < 8 + 256 * (4 * n)) : ∃ s, Session.Reach 8 .ring mem s ∧
      s.fed = onesStream n ∧ s.out = List.replicate (512 * i) 1 ∧
      Ready 8 History.ring.period (bytesBits s.fed) s.dec s.mem s.out := by
  induction i with
  | zero =>
    refine ⟨_, (Session.Reach.start).feed (onesStream n) rfl, rfl, rfl, ?_⟩
    exact (Ready.init 8 _ mem).feed rfl (onesStream n)
  | succ i ih =>
    obtain ⟨s, hs, hfed, hout, hready⟩ := ih (by omega)
    have hlen : s.out.length = 512 * i := by rw [hout, List.length_replicate]
    have hslot : s.dec.pos &&& (History.ring.period - 1) = 0 := by
      rw [hready.pos_eq, hlen, wrap_of_lt (by omega)]
      exact (and_sub_one_eq_mod (512 * i) 9).trans (Nat.mul_mod_right 512 i)
    have hroom : (s.dec.pos &&& (History.ring.period - 1)) + 512 ≤ History.ring.period := by
      rw [hslot]
      decide
    obtain ⟨hnext, hshort, hle, hfull⟩ := Session.run_ready (by decide) hready hroom (by omega)
    have hall : refDecode 8 (bytesBits s.fed) [] = List.replicate (8 + 256 * (4 * n)) 1 := by
      rw [hfed, bytesBits_onesStream]
      exact (refDecode_ones 8 (4 * n) 0 fun h => absurd h (by decide)).trans (by rw [Nat.zero_add])
    have hsh : (s.run .ring 512).short = false := by
      by_contra hne
      rw [Bool.not_eq_false] at hne
      have heq := congrArg List.length (hshort hne)
      rw [hall, List.length_replicate] at heq
      omega
    have hpre := hnext.out_begins
    rw [hall, List.prefix_replicate_iff, hfull hsh, hlen] at hpre
    exact ⟨_, hs.run 512 hroom, hfed, hpre.2, hnext⟩

/-- A call with a back-reference pending and `pos` back at zero writes a zero. -/
theorem run_zero {d : HsxDec} (mem : Nat → UInt8) (hpos : d.pos = 0) (hcnt : d.cnt ≠ 0)
    (hoff : 0 < d.off) (mask : Nat) : ∃ d' mem', hsxDecRun d mem mask 1 = (1, d', mem') ∧
      produced mem' (d.pos &&& mask) 1 = [0] := by
  have hmin : min 1 d.cnt = 1 := by omega
  have hz : 0 &&& mask = 0 := Nat.zero_and mask
  simp only [hsxDecRun, runLocals, hpos, hz, Nat.zero_add, if_pos hcnt, copyPending, hmin,
    Nat.sub_zero, zeroFill, wrap, Nat.zero_mod, if_pos hoff, copyLoop, decodeLoop, if_true]
  exact ⟨_, _, rfl, rfl⟩

/-- **After `2 ^ 32` bytes the ring forgets its history**: the next byte of the stream of ones comes
    out as a zero. -/
theorem hsxDecRun_counter_wraps : ¬∀ (lb : Nat) (hist : History) (mem : Nat → UInt8) (s : Session),
    1 ≤ lb ∧ lb ≤ lookaheadMax → Session.Reach lb hist mem s →
      s.out <+: refDecode lb (bytesBits s.fed) [] := by
  intro h
  obtain ⟨n, hn⟩ : ∃ n, n = 2 ^ 22 := ⟨_, rfl⟩
  obtain ⟨i, hi⟩ : ∃ i, 512 * i = 2 ^ 32 := ⟨2 ^ 23, by decide⟩
  obtain ⟨s, hs, hfed, hout, hready⟩ := onesSession (n := n) (fun _ => 0) i (by omega) (by omega)
  have hlen : s.out.length = 2 ^ 32 := by rw [hout, List.length_replicate, hi]
  have hpos : s.dec.pos = 0 := by
    rw [hready.pos_eq, hlen]
    decide
  obtain ⟨con, vs, hdec, hbits, _⟩ := hready.bits
  -- The last back-reference starts eight bytes past a multiple of 256, so it is still pending.
  have hcnt : s.dec.cnt ≠ 0 := by
    intro h0
    rw [hfed, bytesBits_onesStream] at hbits
    obtain ⟨a, b, _, hsum, hB⟩ := hdec.ones _ hbits.symm
    rw [copyBack_length, h0, hlen] at hsum
    omega
  obtain ⟨d', mem', hcall, hzero⟩ := run_zero s.mem hpos hcnt (hready.off hcnt).1
    (History.ring.period - 1)
  have hpre := h 8 .ring _ _ (by decide) (hs.run 1 (by rw [hpos]; decide))
  have hmem : (0 : UInt8) ∈ (s.run .ring 1).out := by
    simp only [Session.run, hcall, hzero]
    simp
  have hone := hpre.mem hmem
  rw [show (s.run .ring 1).fed = onesStream n from hfed, bytesBits_onesStream,
    show ([] : List UInt8) = List.replicate 0 1 from rfl,
    refDecode_ones 8 (4 * n) 0 fun h => absurd h (by decide)] at hone
  exact absurd (List.eq_of_mem_replicate hone) (by decide)

end DiscoBSD.Hsx
