import DiscoBSD.Exec.Spool
import DiscoBSD.Swap.Panic

/-!
# What a spool stands for

While it is written, a spool stands for the bytes written so far: on flash the whole blocks of them are
on the device and **the rest is the front of the buffer**. Once it is complete it stands for its bytes
on one device, and a read is a piece of them. What the buffer then holds is nothing or one whole block,
and which one is in `readblock`.
-/

set_option autoImplicit false

namespace DiscoBSD.Exec

open DiscoBSD.Lib DiscoBSD.Rmap DiscoBSD.Swapram
open DiscoBSD.Swap (Kernel Conf btod devBsize swapramSpoolAlloc swapramSpoolWrite swapramSpoolRead
  swapramSpoolFree)

/-- Where the spool is. -/
def ExecSpool.place (sp : ExecSpool) : Backing × Nat × Nat × Nat × Nat :=
  (sp.backing, sp.size, sp.ramoff, sp.blkno, sp.span)

/-- The pool's books are the same. -/
structure SameBooks (σ σ' : Kernel) : Prop where
  map : σ'.sr_map = σ.sr_map
  spools : σ'.sr_spools = σ.sr_spools

theorem SameBooks.refl (σ : Kernel) : SameBooks σ σ := ⟨rfl, rfl⟩

theorem SameBooks.trans {σ σ' σ'' : Kernel} (h : SameBooks σ σ') (h' : SameBooks σ' σ'') :
    SameBooks σ σ'' := ⟨h'.map.trans h.map, h'.spools.trans h.spools⟩

/-- The address of a block boundary on the device. -/
theorem block_addr {blkno n : Nat} (h : maxbsize ∣ n) :
    (blkno + btod n) * devBsize = blkno * devBsize + n := by
  obtain ⟨k, rfl⟩ := h
  have hk : btod (maxbsize * k) = k := by
    unfold btod devBsize maxbsize
    lia
  rw [hk]
  unfold devBsize maxbsize
  ring

/-! ## Writing -/

/-- `bs` was written to the spool so far. -/
structure Wrote (cfg : Conf) (σ : Kernel) (sp : ExecSpool) (bs : List UInt8) : Prop where
  pos : sp.pos = bs.length
  le : bs.length ≤ sp.size
  none : sp.backing = .none → sp.size = 0
  ram : sp.backing = .swapram →
    sp.ramoff + sp.size ≤ cfg.pool ∧ readAt σ.sr_pool sp.ramoff bs.length = bs
  flash : sp.backing = .flash → ∃ whole part, bs = whole ++ part ∧ maxbsize ∣ whole.length ∧
    part.length = sp.fill ∧ sp.fill < maxbsize ∧
    readAt σ.flash (sp.blkno * devBsize) whole.length = whole ∧ readAt sp.bp 0 sp.fill = part

section
variable {cfg : Conf} {σ : Kernel} {sp : ExecSpool} {bs : List UInt8}

/-- A flush puts the front of the buffer where the whole blocks end. -/
theorem execSpoolFlush_eq {base : Nat} (hf : sp.backing = .flash) (hfill : sp.fill ≠ 0)
    (hbase : sp.pos - sp.fill = base) (hdvd : maxbsize ∣ base) :
    execSpoolFlush σ sp =
      ({ σ with flash := writeAt σ.flash (sp.blkno * devBsize + base) (readAt sp.bp 0 sp.fill) },
        { sp with fill := 0 }) := by
  have hgo : ¬(sp.backing ≠ .flash ∨ sp.fill = 0) := by
    rintro (hne | hz)
    · exact hne hf
    · exact hfill hz
  simp only [execSpoolFlush, if_neg hgo, hbase, block_addr hdvd]

/-- One turn of the write loop on flash: the buffer takes `part`, and goes out when it is full. -/
theorem Wrote.turn (h : Wrote cfg σ sp bs) (hf : sp.backing = .flash) {input : List UInt8}
    (hroom : bs.length + input.length ≤ sp.size) {chunk : Nat}
    (hchunk : chunk = min input.length (maxbsize - sp.fill)) {sp₁ : ExecSpool}
    (hsp : sp₁ = { sp with
      bp := writeAt sp.bp sp.fill (input.take chunk), fill := sp.fill + chunk, pos := sp.pos + chunk }) :
    ∃ σ' sp', (if sp₁.fill = maxbsize then execSpoolFlush σ sp₁ else (σ, sp₁)) = (σ', sp') ∧
      Wrote cfg σ' sp' (bs ++ input.take chunk) ∧ sp'.place = sp.place ∧ SameBooks σ σ' := by
  obtain ⟨whole, part, hbs, hdvd, hlen, hlt, hwhole, hpart⟩ := h.flash hf
  have htake : (input.take chunk).length = chunk := by
    rw [List.length_take]
    lia
  have hbuf : readAt sp₁.bp 0 sp₁.fill = part ++ input.take chunk := by
    have hend := readAt_writeAt_end sp.bp 0 sp.fill (input.take chunk)
    rw [htake, hpart, Nat.zero_add] at hend
    rw [hsp]
    exact hend
  have hpos : sp₁.pos = (bs ++ input.take chunk).length := by
    rw [List.length_append, htake, hsp, ← h.pos]
  have hle : (bs ++ input.take chunk).length ≤ sp.size := by
    rw [List.length_append, htake]
    lia
  have hplace : sp₁.place = sp.place := by
    rw [hsp]
    rfl
  have hback : sp₁.backing = .flash := by
    rw [hsp]
    exact hf
  have hlen₁ : (part ++ input.take chunk).length = sp₁.fill := by
    rw [List.length_append, htake, hlen, hsp]
  by_cases hfull : sp₁.fill = maxbsize
  · -- The buffer is full: its block goes to the device right after the ones there.
    have hbase : sp₁.pos - sp₁.fill = whole.length := by
      rw [hpos, ← hlen₁, hbs, List.append_assoc, List.length_append, Nat.add_sub_cancel]
    rw [if_pos hfull, execSpoolFlush_eq hback (by rw [hfull]; decide) hbase hdvd, hbuf]
    refine ⟨_, _, rfl, ⟨hpos, hsp ▸ hle, fun hn => ?_, fun hn => ?_, fun _ => ?_⟩, hplace, rfl, rfl⟩
    · exact absurd (hback.symm.trans hn) (nomatch ·)
    · exact absurd (hback.symm.trans hn) (nomatch ·)
    · refine ⟨whole ++ (part ++ input.take chunk), [], ?_, ?_, rfl, ?_, ?_, rfl⟩
      · rw [hbs, List.append_nil, List.append_assoc]
      · rw [List.length_append, hlen₁, hfull]
        exact Nat.dvd_add hdvd (Nat.dvd_refl _)
      · exact Nat.zero_lt_of_lt hlt
      · have hend := readAt_writeAt_end σ.flash (sp.blkno * devBsize) whole.length
          (part ++ input.take chunk)
        rw [hwhole] at hend
        rw [List.length_append]
        subst hsp
        exact hend
  · rw [if_neg hfull]
    refine ⟨σ, sp₁, rfl, ⟨hpos, hsp ▸ hle, fun hn => ?_, fun hn => ?_, fun _ => ?_⟩, hplace, .refl σ⟩
    · exact absurd (hback.symm.trans hn) (nomatch ·)
    · exact absurd (hback.symm.trans hn) (nomatch ·)
    · refine ⟨whole, part ++ input.take chunk, ?_, hdvd, hlen₁, ?_, ?_, hbuf⟩
      · rw [hbs, List.append_assoc]
      · have hmax : sp₁.fill ≤ maxbsize := by
          rw [hsp]
          show sp.fill + chunk ≤ maxbsize
          lia
        lia
      · subst hsp
        exact hwhole

/-- The loop takes its input whole. -/
theorem spoolWriteLoop_wrote (turns : Nat) {input : List UInt8} (h : Wrote cfg σ sp bs)
    (hf : sp.backing = .flash) (hroom : bs.length + input.length ≤ sp.size)
    (hturns : input.length ≤ turns) :
    ∃ σ' sp', spoolWriteLoop turns σ sp input = (σ', sp') ∧ Wrote cfg σ' sp' (bs ++ input) ∧
      sp'.place = sp.place ∧ SameBooks σ σ' := by
  induction turns generalizing σ sp bs input with
  | zero =>
    obtain rfl : input = [] := List.length_eq_zero_iff.mp (Nat.le_zero.mp hturns)
    rw [List.append_nil]
    exact ⟨σ, sp, rfl, h, rfl, .refl σ⟩
  | succ turns ih =>
    by_cases hnil : input.length = 0
    · obtain rfl := List.length_eq_zero_iff.mp hnil
      rw [List.append_nil]
      exact ⟨σ, sp, rfl, h, rfl, .refl σ⟩
    · obtain ⟨σ₁, sp₁, hturn, hwrote, hplace, hbooks⟩ := h.turn hf hroom rfl rfl
      obtain ⟨_, _, _, _, _, hlt, _⟩ := h.flash hf
      have hlen : (input.take (min input.length (maxbsize - sp.fill))).length =
          min input.length (maxbsize - sp.fill) := by
        rw [List.length_take]
        lia
      have hsize : sp₁.size = sp.size := congrArg (·.2.1) hplace
      obtain ⟨σ₂, sp₂, hloop, hwrote₂, hplace₂, hbooks₂⟩ := @ih σ₁ sp₁ _
        (input.drop (min input.length (maxbsize - sp.fill))) hwrote
        ((congrArg (·.1) hplace).trans hf) (by simp only [List.length_append, List.length_drop, hlen]; lia)
        (by rw [List.length_drop]; lia)
      rw [List.append_assoc, List.take_append_drop] at hwrote₂
      refine ⟨σ₂, sp₂, ?_, hwrote₂, hplace₂.trans hplace, hbooks.trans hbooks₂⟩
      rw [spoolWriteLoop, if_neg hnil]
      simp only [hturn]
      exact hloop

/-- **A write that the counted size has room for appends.** -/
theorem execSpoolWrite_wrote {source : List UInt8} (h : Wrote cfg σ sp bs)
    (hroom : bs.length + source.length ≤ sp.size) :
    ∃ σ' sp', execSpoolWrite cfg σ sp source = .ok (σ', sp') ∧ Wrote cfg σ' sp' (bs ++ source) ∧
      sp'.place = sp.place ∧ SameBooks σ σ' := by
  have hfit : ¬sp.size - sp.pos < source.length := by
    rw [h.pos]
    lia
  unfold execSpoolWrite
  rw [if_neg hfit]
  cases hb : sp.backing with
  | none =>
    have hzero := h.none hb
    obtain rfl : source = [] := List.length_eq_zero_iff.mp (by lia)
    rw [if_neg (nomatch ·), List.append_nil]
    exact ⟨σ, sp, rfl, h, rfl, .refl σ⟩
  | swapram =>
    obtain ⟨hpool, hread⟩ := h.ram hb
    rw [if_pos rfl, swapramSpoolWrite, if_neg (by rw [h.pos]; lia)]
    refine ⟨_, _, rfl, ⟨?_, ?_, fun hn => ?_, fun _ => ⟨hpool, ?_⟩, fun hn => ?_⟩,
      congrArg (·, sp.size, sp.ramoff, sp.blkno, sp.span) hb.symm, rfl, rfl⟩
    · show sp.pos + source.length = _
      rw [h.pos, List.length_append]
    · rw [List.length_append]
      exact hroom
    · exact absurd hn (nomatch ·)
    · rw [h.pos, List.length_append, readAt_writeAt_end, hread]
    · exact absurd hn (nomatch ·)
  | flash =>
    rw [if_neg (nomatch ·)]
    obtain ⟨σ', sp', hloop, hrest⟩ := spoolWriteLoop_wrote source.length h hb hroom (Nat.le_refl _)
    exact ⟨σ', sp', by rw [hloop], hrest⟩

end

/-! ## The complete spool -/

/-- The bytes of a complete spool are on its device. -/
structure Complete (cfg : Conf) (σ : Kernel) (sp : ExecSpool) (bs : List UInt8) : Prop where
  len : bs.length = sp.size
  none : sp.backing = .none → sp.size = 0
  ram : sp.backing = .swapram → sp.ramoff + sp.size ≤ cfg.pool ∧ readAt σ.sr_pool sp.ramoff sp.size = bs
  flash : sp.backing = .flash → readAt σ.flash (sp.blkno * devBsize) sp.size = bs

section
variable {cfg : Conf} {σ : Kernel} {sp : ExecSpool} {bs : List UInt8}

/-- `exec_spool_flush` after the last write brings out what is left in the buffer. -/
theorem Wrote.flushed (h : Wrote cfg σ sp bs) (hall : sp.pos = sp.size) :
    ∃ σ' sp', execSpoolFlush σ sp = (σ', sp') ∧ Complete cfg σ' sp' bs ∧ sp'.place = sp.place ∧
      SameBooks σ σ' := by
  have hlen : bs.length = sp.size := h.pos.symm.trans hall
  cases hb : sp.backing with
  | none =>
    have hsame : execSpoolFlush σ sp = (σ, sp) := if_pos (.inl (hb ▸ (nomatch ·)))
    exact ⟨σ, sp, hsame, ⟨hlen, h.none, fun hn => absurd (hb.symm.trans hn) (nomatch ·),
      fun hn => absurd (hb.symm.trans hn) (nomatch ·)⟩, rfl, .refl σ⟩
  | swapram =>
    have hsame : execSpoolFlush σ sp = (σ, sp) := if_pos (.inl (hb ▸ (nomatch ·)))
    obtain ⟨hpool, hread⟩ := h.ram hb
    exact ⟨σ, sp, hsame, ⟨hlen, h.none, fun _ => ⟨hpool, hlen ▸ hread⟩,
      fun hn => absurd (hb.symm.trans hn) (nomatch ·)⟩, rfl, .refl σ⟩
  | flash =>
    obtain ⟨whole, part, hbs, hdvd, hpl, _, hwhole, hpart⟩ := h.flash hb
    by_cases hfill : sp.fill = 0
    · have hsame : execSpoolFlush σ sp = (σ, sp) := if_pos (.inr hfill)
      obtain rfl : part = [] := List.length_eq_zero_iff.mp (hpl.trans hfill)
      rw [List.append_nil] at hbs
      exact ⟨σ, sp, hsame, ⟨hlen, h.none, fun hn => absurd (hb.symm.trans hn) (nomatch ·),
        fun _ => hlen ▸ hbs ▸ hwhole⟩, rfl, .refl σ⟩
    · have hbase : sp.pos - sp.fill = whole.length := by
        rw [h.pos, hbs, List.length_append, hpl, Nat.add_sub_cancel]
      rw [execSpoolFlush_eq hb hfill hbase hdvd, hpart]
      refine ⟨_, _, rfl, ⟨hlen, h.none, fun hn => absurd (hb.symm.trans hn) (nomatch ·),
        fun _ => ?_⟩, rfl, rfl, rfl⟩
      have hend := readAt_writeAt_end σ.flash (sp.blkno * devBsize) whole.length part
      rw [hwhole, ← List.length_append, ← hbs, hlen] at hend
      exact hend

end

/-! ## Reading -/

/-- A block number is none of the spool's when the spool is this short. -/
def spoolMax : Nat := blockNone * maxbsize

/-- A complete spool that is being read. The block in the buffer is the device's. -/
structure Reading (cfg : Conf) (σ : Kernel) (sp : ExecSpool) (bs : List UInt8) : Prop where
  complete : Complete cfg σ sp bs
  small : sp.size ≤ spoolMax
  pos_le : sp.pos ≤ sp.size
  buffer : sp.readblock = blockNone ∨ ∀ x, x < maxbsize → sp.readblock * maxbsize + x < sp.size →
    sp.bp x = σ.flash (sp.blkno * devBsize + (sp.readblock * maxbsize + x))

section
variable {cfg : Conf} {σ : Kernel} {sp : ExecSpool} {bs : List UInt8}

theorem writeAt_readAt {m m' : Nat → UInt8} {a x : Nat} (b : Nat) {n : Nat} (h : a ≤ x)
    (hlt : x < a + n) : writeAt m a (readAt m' b n) x = m' (b + (x - a)) := by
  rw [writeAt, if_pos h, getElem?_readAt, if_pos (by lia)]
  rfl

theorem Reading.block_lt (h : Reading cfg σ sp bs) (hlt : sp.pos < sp.size) :
    sp.pos / maxbsize < blockNone := by
  have hsmall := h.small
  unfold spoolMax at hsmall
  apply Nat.div_lt_of_lt_mul
  rw [Nat.mul_comm]
  lia

/-- After `spoolLoad` the buffer holds the block of the position. -/
theorem Reading.load (h : Reading cfg σ sp bs) (hlt : sp.pos < sp.size) :
    Reading cfg σ (spoolLoad σ sp) bs ∧ (spoolLoad σ sp).readblock = sp.pos / maxbsize ∧
      (spoolLoad σ sp).pos = sp.pos ∧ (spoolLoad σ sp).place = sp.place := by
  have hblock := h.block_lt hlt
  by_cases hsame : sp.readblock = sp.pos / maxbsize
  · have hid : spoolLoad σ sp = sp := if_pos hsame
    rw [hid]
    exact ⟨h, hsame, rfl, rfl⟩
  · have hwrap : wrap 16 (sp.pos / maxbsize) = sp.pos / maxbsize := wrap_of_lt (by
      unfold blockNone at hblock
      lia)
    have hload : spoolLoad σ sp = { sp with
        bp := writeAt sp.bp 0 (readAt σ.flash (sp.blkno * devBsize + sp.pos / maxbsize * maxbsize)
          (min maxbsize (sp.size - sp.pos / maxbsize * maxbsize)))
        readblock := sp.pos / maxbsize } := by
      simp only [spoolLoad, if_neg hsame, hwrap, block_addr (Nat.dvd_mul_left maxbsize _)]
    rw [hload]
    refine ⟨⟨⟨h.complete.len, h.complete.none, h.complete.ram, h.complete.flash⟩, h.small, h.pos_le,
      .inr fun x hx hin => ?_⟩, rfl, rfl, rfl⟩
    show writeAt sp.bp 0 _ x = _
    simp only [] at hin
    rw [writeAt_readAt _ (Nat.zero_le x) (by lia), Nat.sub_zero, Nat.add_assoc]

/-- The read loop reads the next bytes of the spool. -/
theorem spoolReadLoop_reading (turns : Nat) {len : Nat} (h : Reading cfg σ sp bs)
    (hf : sp.backing = .flash) (hroom : sp.pos + len ≤ sp.size) (hturns : len ≤ turns) :
    ∃ sp', spoolReadLoop σ turns sp len = ((bs.drop sp.pos).take len, sp') ∧ Reading cfg σ sp' bs ∧
      sp'.pos = sp.pos + len ∧ sp'.place = sp.place := by
  induction turns generalizing sp len with
  | zero =>
    obtain rfl := Nat.le_zero.mp hturns
    exact ⟨sp, rfl, h, rfl, rfl⟩
  | succ turns ih =>
    by_cases hzero : len = 0
    · subst hzero
      exact ⟨sp, rfl, h, rfl, rfl⟩
    · obtain ⟨hload, hblock, hpos, hplace⟩ := h.load (by lia)
      -- The rest of the block, or less when less is asked for.
      obtain ⟨chunk, hchunk⟩ : ∃ chunk, chunk = min len (maxbsize - (sp.pos - sp.pos / maxbsize * maxbsize)) :=
        ⟨_, rfl⟩
      have hdiv := Nat.div_add_mod sp.pos maxbsize
      have hmod := Nat.mod_lt sp.pos (show 0 < maxbsize by decide)
      rw [Nat.mul_comm] at hdiv
      have hsize : (spoolLoad σ sp).size = sp.size := congrArg (·.2.1) hplace
      have hblkno : (spoolLoad σ sp).blkno = sp.blkno := congrArg (·.2.2.2.1) hplace
      have hnext : Reading cfg σ { spoolLoad σ sp with pos := (spoolLoad σ sp).pos + chunk } bs :=
        ⟨⟨hload.complete.len, hload.complete.none, hload.complete.ram, hload.complete.flash⟩, hload.small,
          by simp only [hpos, hsize]; lia, hload.buffer⟩
      obtain ⟨sp', hloop, hread, hpos', hplace'⟩ := @ih _ (len - chunk) hnext
        ((congrArg (·.1) hplace).trans hf) (by simp only [hpos, hsize]; lia) (by lia)
      refine ⟨sp', ?_, hread, ?_, hplace'.trans hplace⟩
      · have hbytes : readAt (spoolLoad σ sp).bp (sp.pos - sp.pos / maxbsize * maxbsize) chunk =
            (bs.drop sp.pos).take chunk := by
          have hbs := h.complete.flash hf
          rw [← hbs, readAt_drop_take _ _ (by lia)]
          refine List.map_congr_left fun i hi => ?_
          rw [List.mem_range] at hi
          rcases hload.buffer with hnone | hbuf
          · exact absurd (hblock.symm.trans hnone) (Nat.ne_of_lt (h.block_lt (by lia)))
          · rw [hbuf _ (by lia) (by rw [hblock, hsize]; lia), hblock, hblkno]
            exact congrArg σ.flash (by lia)
        rw [spoolReadLoop, if_neg hzero]
        simp only [hpos, ← hchunk]
        rw [hpos] at hloop
        have hsum : (bs.drop sp.pos).take len =
            (bs.drop sp.pos).take chunk ++ (bs.drop (sp.pos + chunk)).take (len - chunk) := by
          rw [← List.drop_drop, ← List.take_add, Nat.add_sub_cancel' (by lia)]
        rw [hloop, hbytes, hsum]
      · rw [hpos']
        simp only [hpos]
        lia

/-- **A read gives the next bytes of the spool.** -/
theorem execSpoolRead_reading {len : Nat} (h : Reading cfg σ sp bs) (hroom : sp.pos + len ≤ sp.size) :
    ∃ sp', execSpoolRead cfg σ sp len = .ok ((bs.drop sp.pos).take len, sp') ∧ Reading cfg σ sp' bs ∧
      sp'.pos = sp.pos + len ∧ sp'.place = sp.place := by
  unfold execSpoolRead
  rw [if_neg (by lia)]
  by_cases hram : sp.backing = .swapram
  · obtain ⟨hpool, hread⟩ := h.complete.ram hram
    have hpart := readAt_drop_take σ.sr_pool sp.ramoff hroom
    rw [hread] at hpart
    rw [if_pos hram, swapramSpoolRead, if_neg (by lia), hpart]
    exact ⟨_, rfl, ⟨⟨h.complete.len, h.complete.none, h.complete.ram, h.complete.flash⟩, h.small, hroom,
      h.buffer⟩, rfl, rfl⟩
  · rw [if_neg hram]
    cases hb : sp.backing with
    | none =>
      have hzero := h.complete.none hb
      obtain rfl : len = 0 := by lia
      exact ⟨sp, rfl, h, rfl, rfl⟩
    | swapram => exact absurd hb hram
    | flash =>
      obtain ⟨sp', hloop, hrest⟩ := spoolReadLoop_reading len h hb hroom (Nat.le_refl _)
      exact ⟨sp', by rw [hloop], hrest⟩

end

/-! ## Reserving, moving and giving back -/

/-- What the code says when an exec and its spool disagree, or the spool and the pool. -/
def spoolPanics : List Fault :=
  [.panic "exec spool write", .panic "exec spool read", .panic "exec spool arg length",
    .panic "exec spool arg terminator", .panic "exec spool env length",
    .panic "exec spool env terminator", .panic "exec check", .panic "exec spool trailing data",
    .panic "swapram: spool write", .panic "swapram: spool read", .panic "swapram: spool free"]

/-- A complete spool as the rest of the kernel has to leave it: its bytes are on its device, and the
    pool's books have its range. -/
structure Intact (cfg : Conf) (σ : Kernel) (sp : ExecSpool) (bs : List UInt8) : Prop where
  complete : Complete cfg σ sp bs
  held : sp.backing = .swapram → σ.sr_spools ≠ 0 ∧
    ∃ held, PoolInv ⟨σ.sr_map, held⟩ ∧ ⟨sp.ramoff, roundgrain sp.size⟩ ∈ held

/-- A spool in the pool has a free neighbour, or the segment table has an entry left. -/
def GivesBack (σ : Kernel) (sp : ExecSpool) : Prop :=
  sp.backing = .swapram → NeedsSlot σ.sr_map sp.ramoff (roundgrain sp.size) →
    σ.sr_map.p_seg.length ≠ σ.sr_map.p_nseg

section
variable {cfg : Conf} {σ : Kernel} {sp : ExecSpool} {bs : List UInt8}

/-- The pool takes the range of a spool back. -/
theorem Intact.free (h : Intact cfg σ sp bs) (hram : sp.backing = .swapram) (hg : GivesBack σ sp) :
    ∃ σ', swapramSpoolFree σ sp.ramoff sp.size = .ok σ' ∧ σ'.flash = σ.flash := by
  obtain ⟨hcount, held, hinv, hmem⟩ := h.held hram
  obtain ⟨_, htrue, _⟩ := hinv.free hmem (hg hram)
  unfold swapramSpoolFree
  rw [if_neg hcount]
  cases hcall : swapramPoolFree σ.sr_map sp.ramoff sp.size with
  | mk ok mp =>
    have hok : ok = true := by
      have h1 := congrArg Prod.fst hcall
      exact h1.symm.trans htrue
    subst hok
    exact ⟨_, rfl, rfl⟩

/-- Or it does not. -/
theorem Intact.refused (h : Intact cfg σ sp bs) (hram : sp.backing = .swapram) (hg : ¬GivesBack σ sp) :
    swapramSpoolFree σ sp.ramoff sp.size = .error (.panic "swapram: spool free") := by
  obtain ⟨hcount, held, hinv, hmem⟩ := h.held hram
  have hin := hinv.tiles.inside (List.mem_append_right _ hmem) (hinv.held_pos _ hmem)
  have hlt := hinv.size_lt
  obtain ⟨hneeds, hfull⟩ : NeedsSlot σ.sr_map sp.ramoff (roundgrain sp.size) ∧
      σ.sr_map.p_seg.length = σ.sr_map.p_nseg := by
    by_contra hno
    exact hg fun _ hneeds hfull => hno ⟨hneeds, hfull⟩
  have hfalse := swapramPoolFree_full hinv.wf (by simp only [] at hin hlt; lia) hneeds hfull
  unfold swapramSpoolFree
  rw [if_neg hcount]
  cases hcall : swapramPoolFree σ.sr_map sp.ramoff sp.size with
  | mk ok mp =>
    have hno : ok = false := by
      have h1 := congrArg Prod.fst hcall
      exact h1.symm.trans hfalse
    subst hno
    rfl

/-- Giving a spool back meets one of the panics exactly when the pool refuses. -/
theorem execSpoolDiscard_avoids_iff (h : Intact cfg σ sp bs) :
    Avoids spoolPanics (execSpoolDiscard σ sp) ↔ GivesBack σ sp := by
  unfold execSpoolDiscard
  cases hb : sp.backing with
  | none => exact ⟨fun _ hram => absurd (hb.symm.trans hram) (nomatch ·), fun _ => .ok _⟩
  | flash =>
    refine ⟨fun _ hram => absurd (hb.symm.trans hram) (nomatch ·), fun _ => Avoids.map ?_ _⟩
    exact Swap.mfree_avoids (by decide) _ _ _
  | swapram =>
    constructor
    · intro havoid
      by_contra hg
      exact havoid (.panic "swapram: spool free") (by decide) (h.refused hb hg)
    · intro hg
      obtain ⟨σ', hfree, _⟩ := h.free hb hg
      simp only [hfree]
      exact .ok _

/-- The copy loop puts block after block on the device. -/
theorem spoolCopyLoop_copied (turns : Nat) {oldoff position : Nat}
    (hpool : oldoff + sp.size ≤ cfg.pool) (hram : readAt σ.sr_pool oldoff sp.size = bs)
    (hat : maxbsize ∣ position ∨ position = sp.size) (hle : position ≤ sp.size)
    (hsofar : readAt σ.flash (sp.blkno * devBsize) position = bs.take position)
    (hturns : sp.size - position ≤ turns) :
    ∃ σ' sp', spoolCopyLoop cfg oldoff turns σ sp position = .ok (σ', sp') ∧ sp'.place = sp.place ∧
      sp'.readblock = sp.readblock ∧ SameBooks σ σ' ∧
      readAt σ'.flash (sp.blkno * devBsize) sp.size = bs := by
  have hlen : bs.length = sp.size := by
    rw [← hram, readAt_length]
  have hstop : position = sp.size → readAt σ.flash (sp.blkno * devBsize) sp.size = bs := by
    intro hall
    rw [hall, List.take_of_length_le (Nat.le_of_eq hlen)] at hsofar
    exact hsofar
  induction turns generalizing σ sp position with
  | zero => exact ⟨σ, sp, rfl, rfl, rfl, .refl σ, hstop (by lia)⟩
  | succ turns ih =>
    rw [spoolCopyLoop]
    by_cases hlt : position < sp.size
    · have hdvd : maxbsize ∣ position := hat.resolve_right (Nat.ne_of_lt hlt)
      have hmax : 0 < maxbsize := by decide
      obtain ⟨chunk, hchunk⟩ : ∃ chunk, chunk = min maxbsize (sp.size - position) := ⟨_, rfl⟩
      obtain ⟨bytes, hbytes⟩ : ∃ bytes, bytes = (bs.drop position).take chunk := ⟨_, rfl⟩
      have hpart : bytes = readAt σ.sr_pool (oldoff + position) chunk := by
        rw [hbytes, ← hram]
        exact readAt_drop_take _ _ (by lia)
      have hread : swapramSpoolRead cfg σ oldoff position chunk = .ok bytes := by
        rw [swapramSpoolRead, if_neg (by lia), hpart]
      have hnext : readAt (writeAt σ.flash (sp.blkno * devBsize + position) bytes)
          (sp.blkno * devBsize) (position + chunk) = bs.take (position + chunk) := by
        have hlonger := readAt_writeAt_end σ.flash (sp.blkno * devBsize) position bytes
        have hcount : bytes.length = chunk := by
          rw [hpart, readAt_length]
        rw [hcount, hsofar, hbytes, ← List.take_add, ← hbytes] at hlonger
        exact hlonger
      have hthen : maxbsize ∣ position + chunk ∨ position + chunk = sp.size := by
        by_cases hwhole : chunk = maxbsize
        · exact .inl (Nat.dvd_add hdvd (by rw [hwhole]))
        · exact .inr (by lia)
      obtain ⟨σ', sp', hloop, hplace, hblock, hbooks, hfinal⟩ := @ih
        { σ with flash := writeAt σ.flash (sp.blkno * devBsize + position) bytes }
        { sp with bp := writeAt sp.bp 0 bytes } (position + chunk) hpool hram hthen
        (by simp only []; lia) hnext (by simp only []; lia) hlen (fun hall => by
          rw [hall, List.take_of_length_le (Nat.le_of_eq hlen)] at hnext
          exact hnext)
      refine ⟨σ', sp', ?_, hplace, hblock, ⟨hbooks.map, hbooks.spools⟩, hfinal⟩
      simp only [if_pos hlt, ← hchunk, hread, block_addr hdvd]
      exact hloop
    · rw [if_neg hlt]
      exact ⟨σ, sp, rfl, rfl, rfl, .refl σ, hstop (by lia)⟩

/-- The copy leaves the books alone, so what becomes of the move is what the pool says to the range. -/
theorem execSpoolMove_eq (h : Intact cfg σ sp bs) (hram : sp.backing = .swapram) (blkno span : Nat) :
    ∃ (σ₁ : Kernel) (sp₁ : ExecSpool), readAt σ₁.flash (sp₁.blkno * devBsize) sp₁.size = bs ∧
      sp₁.backing = .flash ∧ sp₁.size = sp.size ∧
      execSpoolMove cfg σ (sp.onFlash blkno span) sp.ramoff =
        (swapramSpoolFree σ sp.ramoff sp.size).map fun τ =>
          ({ σ₁ with sr_map := τ.sr_map, sr_spools := τ.sr_spools }, { sp₁ with pos := 0 }) := by
  obtain ⟨hpool, hread⟩ := h.complete.ram hram
  obtain ⟨σ₁, sp₁, hloop, hplace, _, hbooks, hflash⟩ := @spoolCopyLoop_copied cfg σ
    (sp.onFlash blkno span) bs sp.size sp.ramoff 0 hpool hread (.inl (Nat.dvd_zero _)) (Nat.zero_le _) rfl
    (Nat.le_refl _)
  have hsize : sp₁.size = sp.size := congrArg (·.2.1) hplace
  have hblk : sp₁.blkno = blkno := congrArg (·.2.2.2.1) hplace
  have hstill : swapramSpoolFree σ₁ sp.ramoff sp.size =
      (swapramSpoolFree σ sp.ramoff sp.size).map fun τ => { σ₁ with
        sr_map := τ.sr_map, sr_spools := τ.sr_spools } := by
    simp only [swapramSpoolFree, hbooks.map, hbooks.spools]
    split
    · rfl
    · split
      · rfl
      · rfl
  refine ⟨σ₁, sp₁, ?_, congrArg (·.1) hplace, hsize, ?_⟩
  · rw [hsize, hblk]
    exact hflash
  · have hloop' : spoolCopyLoop cfg sp.ramoff (sp.onFlash blkno span).size σ (sp.onFlash blkno span) 0 =
        .ok (σ₁, sp₁) := hloop
    unfold execSpoolMove
    rw [hloop']
    show (swapramSpoolFree σ₁ sp.ramoff sp₁.size >>= _) = _
    rw [hsize, hstill]
    cases swapramSpoolFree σ sp.ramoff sp.size with
    | error e => rfl
    | ok τ => rfl

/-- A spool that was reserved a run on flash, moved there. -/
theorem execSpoolMove_moved (h : Intact cfg σ sp bs) (hram : sp.backing = .swapram) (blkno span : Nat)
    (hg : GivesBack σ sp) :
    ∃ σ' sp', execSpoolMove cfg σ (sp.onFlash blkno span) sp.ramoff = .ok (σ', sp') ∧
      Intact cfg σ' sp' bs ∧ sp'.backing = .flash ∧ sp'.size = sp.size := by
  obtain ⟨σ₁, sp₁, hflash, hback, hsize, hmove⟩ := execSpoolMove_eq h hram blkno span
  obtain ⟨τ, hfree, _⟩ := h.free hram hg
  rw [hfree] at hmove
  refine ⟨_, _, hmove, ⟨⟨h.complete.len.trans hsize.symm, fun hn => ?_, fun hn => ?_, fun _ => hflash⟩,
    fun hn => ?_⟩, hback, hsize⟩
  · exact absurd (hback.symm.trans hn) (nomatch ·)
  · exact absurd (hback.symm.trans hn) (nomatch ·)
  · exact absurd (hback.symm.trans hn) (nomatch ·)

theorem execSpoolMove_refused (h : Intact cfg σ sp bs) (hram : sp.backing = .swapram)
    (blkno span : Nat) (hg : ¬GivesBack σ sp) :
    execSpoolMove cfg σ (sp.onFlash blkno span) sp.ramoff = .error (.panic "swapram: spool free") := by
  obtain ⟨_, _, _, _, _, hmove⟩ := execSpoolMove_eq h hram blkno span
  rw [hmove, h.refused hram hg]
  rfl

theorem execSpoolAlloc_avoids {size : Nat} : Avoids spoolPanics (execSpoolAlloc σ sp size) := by
  simp only [execSpoolAlloc]
  split
  · exact .ok _
  · split
    · exact .ok _
    · refine (Swap.execSpoolReserveFlash_avoids (by decide)).bind fun ⟨run, τ⟩ _ => ?_
      cases run with
      | none => exact .ok _
      | some run => exact .ok _

/-- A new spool is empty, and in the pool it is on the books. -/
theorem execSpoolAlloc_wrote {held : List Extent} {size : Nat} {σ' : Kernel} {sp' : ExecSpool}
    (hinv : PoolInv ⟨σ.sr_map, held⟩) (hpool : σ.sr_map.p_size ≤ cfg.pool) (hsmall : size + 3 < 2 ^ 32)
    (hnone : sp.backing = .none) (hcall : execSpoolAlloc σ sp size = .ok (some sp', σ')) :
    Wrote cfg σ' sp' [] ∧ sp'.size = size ∧ (sp'.backing = .swapram → σ'.sr_spools ≠ 0 ∧
      ∃ held, PoolInv ⟨σ'.sr_map, held⟩ ∧ ⟨sp'.ramoff, roundgrain sp'.size⟩ ∈ held) := by
  simp only [execSpoolAlloc] at hcall
  split at hcall
  · rename_i hzero
    cases hcall
    exact ⟨⟨rfl, Nat.zero_le _, fun _ => hzero, fun hn => absurd (hnone.symm.trans hn) (nomatch ·),
      fun hn => absurd (hnone.symm.trans hn) (nomatch ·)⟩, rfl,
      fun hn => absurd (hnone.symm.trans hn) (nomatch ·)⟩
  · split at hcall
    · rename_i halloc
      cases hcall
      -- The pool gave a range: it is one of the ranges held now, and so inside the pool.
      unfold swapramSpoolAlloc at halloc
      split at halloc
      · cases halloc
      · split at halloc
        · cases halloc
        · rename_i hgiven
          cases halloc
          obtain ⟨hinv', htable⟩ := hinv.allocated hgiven
          have hin := hinv'.tiles.inside (List.mem_append_right _ List.mem_cons_self)
            (hinv'.held_pos _ List.mem_cons_self)
          have hround : size ≤ roundgrain size := by
            rw [roundgrain_eq hsmall]
            exact le_roundUp (by decide) size
          have hsize := htable.size
          simp only [] at hin
          refine ⟨⟨rfl, Nat.zero_le _, (nomatch ·), fun _ => ⟨?_, rfl⟩, (nomatch ·)⟩, rfl,
            fun _ => ⟨Nat.succ_ne_zero _, _, hinv', List.mem_cons_self⟩⟩
          simp only []
          lia
    · obtain ⟨⟨run, τ⟩, _, hthen⟩ := bind_ok hcall
      cases run with
      | none => cases hthen
      | some run =>
        cases hthen
        exact ⟨⟨rfl, Nat.zero_le _, (nomatch ·), (nomatch ·), fun _ => ⟨[], [], rfl, Nat.dvd_zero _, rfl,
          Nat.zero_lt_succ _, rfl, rfl⟩⟩, rfl, (nomatch ·)⟩

end

end DiscoBSD.Exec
