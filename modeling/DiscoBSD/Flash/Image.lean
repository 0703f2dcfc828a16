import DiscoBSD.Flash.Swap

/-!
# Writing an image is legal

The proof follows a cursor: the address after the last page programmed. What the append loop needs to
know about the chip is what lies ahead of the cursor in its sector, and that is all erased: **the
sector was erased when the image came to its first byte, and nothing has been programmed past the
cursor**. At a sector boundary it needs to know nothing, because the loop erases there.

A piece that starts inside a sector therefore has to find the cursor in that sector. Pieces that follow
each other without a gap always do.
-/

set_option autoImplicit false

namespace DiscoBSD.Flash

open DiscoBSD.Lib DiscoBSD.Rmap
open DiscoBSD.Swap (btod devBsize)

/-- The first byte of the erase sector of an address. -/
def sectorOf (x : Nat) : Nat := x / flashSectorBytes * flashSectorBytes

/-- The erase of one sector. -/
def eraseSector (off : Nat) : NorOp := .erase off flashSectorBytes

/-- The image so far, in a run that starts at `lo`, with the cursor at `o`. -/
structure Written (mem₀ : Nat → UInt8) (lo o : Nat) (c : Chip) : Prop where
  mem : replay mem₀ c.log = c.mem
  legal : Legal mem₀ c.log
  le : lo ≤ o
  erased : ∀ off len, .erase off len ∈ c.log →
    len = flashSectorBytes ∧ flashSectorBytes ∣ off ∧ lo ≤ off ∧ off < o
  programmed : ∀ off data, .program off data ∈ c.log →
    data.length = flashProgBytes ∧ lo ≤ off ∧ off + flashProgBytes ≤ o
  once : ∀ off, c.log.count (eraseSector off) ≤ 1
  before : ∀ pre off data post, c.log = pre ++ .program off data :: post →
    eraseSector (sectorOf off) ∈ pre
  ahead : flashSectorBytes ∣ o ∨ (eraseSector (sectorOf o) ∈ c.log ∧
    ∀ x, o ≤ x → sectorOf x = sectorOf o → c.mem x = 0xff)

section
variable {mem₀ : Nat → UInt8} {lo o : Nat} {c : Chip}

theorem Written.start (h : flashSectorBytes ∣ lo) : Written mem₀ lo lo ⟨mem₀, []⟩ :=
  ⟨rfl, .nil _, Nat.le_refl _, fun _ _ hm => absurd hm List.not_mem_nil,
    fun _ _ hm => absurd hm List.not_mem_nil, fun _ => Nat.zero_le _,
    fun _ _ _ _ heq => absurd (congrArg List.length heq) (by simp), .inl h⟩

end

/-- The same with the sector of the cursor erased from there on: a page can be programmed. -/
structure Opened (mem₀ : Nat → UInt8) (lo o : Nat) (c : Chip) : Prop where
  mem : replay mem₀ c.log = c.mem
  legal : Legal mem₀ c.log
  le : lo ≤ o
  erased : ∀ off len, .erase off len ∈ c.log →
    len = flashSectorBytes ∧ flashSectorBytes ∣ off ∧ lo ≤ off ∧ off ≤ o
  programmed : ∀ off data, .program off data ∈ c.log →
    data.length = flashProgBytes ∧ lo ≤ off ∧ off + flashProgBytes ≤ o
  once : ∀ off, c.log.count (eraseSector off) ≤ 1
  before : ∀ pre off data post, c.log = pre ++ .program off data :: post →
    eraseSector (sectorOf off) ∈ pre
  here : eraseSector (sectorOf o) ∈ c.log
  blank : ∀ x, o ≤ x → sectorOf x = sectorOf o → c.mem x = 0xff

section
variable {mem₀ : Nat → UInt8} {lo o : Nat} {c : Chip}

theorem sectorOf_of_dvd {x : Nat} (h : flashSectorBytes ∣ x) : sectorOf x = x :=
  Nat.div_mul_cancel h

theorem sectorOf_le (x : Nat) : sectorOf x ≤ x := Nat.div_mul_le_self x _

theorem sectorOf_dvd (x : Nat) : flashSectorBytes ∣ sectorOf x := Nat.dvd_mul_left _ _

theorem lt_sectorOf (x : Nat) : x < sectorOf x + flashSectorBytes := by
  unfold sectorOf flashSectorBytes
  lia

/-- At a boundary the sector is erased; inside a sector it has been. -/
theorem Written.open (h : Written mem₀ lo o c) :
    Opened mem₀ lo o (if flashSectorBytes ∣ o then c.perform (eraseSector o) else c) ∧
      ∀ x, x < o → (if flashSectorBytes ∣ o then c.perform (eraseSector o) else c).mem x = c.mem x := by
  split
  · rename_i hdvd
    have hsector := sectorOf_of_dvd hdvd
    refine ⟨⟨?_, h.legal.snoc trivial, h.le, ?_, ?_, ?_, ?_, ?_, ?_⟩, fun x hx => erase_outside (.inl hx)⟩
    · rw [Chip.perform, replay_snoc, h.mem]
    · intro off len hm
      rcases List.mem_append.mp hm with hm | hm
      · obtain ⟨h1, h2, h3, h4⟩ := h.erased off len hm
        exact ⟨h1, h2, h3, Nat.le_of_lt h4⟩
      · cases List.mem_singleton.mp hm
        exact ⟨rfl, hdvd, h.le, Nat.le_refl _⟩
    · intro off data hm
      rcases List.mem_append.mp hm with hm | hm
      · exact h.programmed off data hm
      · cases List.mem_singleton.mp hm
    · -- Every sector erased so far lies before the cursor, so this one was not.
      intro off
      rw [Chip.perform, List.count_append]
      by_cases hoff : off = o
      · subst hoff
        have hnone : c.log.count (eraseSector off) = 0 := by
          refine List.count_eq_zero.mpr fun hm => ?_
          exact absurd (h.erased _ _ hm).2.2.2 (Nat.lt_irrefl _)
        rw [hnone, List.count_singleton_self]
      · have hother : List.count (eraseSector off) [eraseSector o] = 0 := by
          refine List.count_eq_zero.mpr fun hm => hoff ?_
          exact (NorOp.erase.inj (List.mem_singleton.mp hm)).1
        rw [hother]
        exact h.once off
    · intro pre off data post hsplit
      rcases split_snoc hsplit with ⟨_, hop, _⟩ | ⟨post', hlog, _⟩
      · cases hop
      · exact h.before pre off data post' hlog
    · rw [hsector]
      exact List.mem_append_right _ (List.mem_singleton.mpr rfl)
    · intro x hx hs
      rw [hsector] at hs
      refine erase_inside hx ?_
      rw [← hs]
      exact lt_sectorOf x
  · rename_i hdvd
    obtain ⟨hhere, hblank⟩ := h.ahead.resolve_left hdvd
    refine ⟨⟨h.mem, h.legal, h.le, ?_, h.programmed, h.once, h.before, hhere, hblank⟩, fun _ _ => rfl⟩
    intro off len hm
    obtain ⟨h1, h2, h3, h4⟩ := h.erased off len hm
    exact ⟨h1, h2, h3, Nat.le_of_lt h4⟩

/-- A page of the sector follows the cursor. -/
theorem page_inside (hpage : flashProgBytes ∣ o) {x : Nat} (hx : o ≤ x)
    (hlt : x < o + flashProgBytes) : sectorOf x = sectorOf o := by
  obtain ⟨k, rfl⟩ := hpage
  unfold sectorOf flashSectorBytes
  unfold flashProgBytes at hx hlt ⊢
  lia

theorem Opened.program (h : Opened mem₀ lo o c) (hpage : flashProgBytes ∣ o) {data : List UInt8}
    (hlen : data.length = flashProgBytes) :
    Written mem₀ lo (o + flashProgBytes) (c.perform (.program o data)) ∧
      readAt (c.perform (.program o data)).mem o flashProgBytes = data ∧
      ∀ x, x < o → (c.perform (.program o data)).mem x = c.mem x := by
  have hblank : ∀ x, o ≤ x → x < o + data.length → c.mem x = 0xff := fun x hx hlt =>
    h.blank x hx (page_inside hpage hx (hlen ▸ hlt))
  obtain ⟨hlegal, hread⟩ := program_blank hblank
  have hpos : 0 < flashProgBytes := by decide
  refine ⟨⟨?_, ?_, Nat.le_add_right_of_le h.le, ?_, ?_, ?_, ?_, ?_⟩, ?_, fun x hx => program_outside (.inl hx)⟩
  · rw [Chip.perform, replay_snoc, h.mem]
  · refine h.legal.snoc ?_
    rw [h.mem]
    exact hlegal
  · intro off len hm
    rcases List.mem_append.mp hm with hm | hm
    · obtain ⟨h1, h2, h3, h4⟩ := h.erased off len hm
      exact ⟨h1, h2, h3, by lia⟩
    · cases List.mem_singleton.mp hm
  · intro off data' hm
    rcases List.mem_append.mp hm with hm | hm
    · obtain ⟨h1, h2, h3⟩ := h.programmed off data' hm
      exact ⟨h1, h2, by lia⟩
    · cases List.mem_singleton.mp hm
      exact ⟨hlen, h.le, Nat.le_refl _⟩
  · intro off
    have hother : List.count (eraseSector off) [NorOp.program o data] = 0 :=
      List.count_eq_zero.mpr fun hm => nomatch List.mem_singleton.mp hm
    rw [Chip.perform, List.count_append, hother]
    exact h.once off
  · intro pre off data' post hsplit
    rcases split_snoc hsplit with ⟨rfl, hop, _⟩ | ⟨post', hlog, _⟩
    · cases hop
      exact h.here
    · exact h.before pre off data' post' hlog
  · -- The cursor has come to the next sector, or it is still in this one.
    by_cases hdvd : flashSectorBytes ∣ o + flashProgBytes
    · exact .inl hdvd
    · have hsame : sectorOf (o + flashProgBytes) = sectorOf o := by
        obtain ⟨k, rfl⟩ := hpage
        unfold sectorOf flashSectorBytes at *
        unfold flashProgBytes at *
        lia
      rw [hsame]
      refine .inr ⟨List.mem_append_left _ h.here, fun x hx hs => ?_⟩
      have hkeep : (c.perform (.program o data)).mem x = c.mem x := program_outside (.inr (by lia))
      rw [hkeep]
      exact h.blank x (by lia) hs
  · rw [← hlen]
    exact hread

/-! ## A piece -/

/-- Where the cursor stands after `n` bytes from a page boundary. -/
def pageEnd (o n : Nat) : Nat := o + (n + flashProgBytes - 1) / flashProgBytes * flashProgBytes

theorem progPage_length (source : List UInt8) : (progPage source).length = flashProgBytes := by
  unfold progPage
  split
  · rename_i h
    rw [List.length_take]
    lia
  · rename_i h
    rw [List.length_append, List.length_replicate]
    lia

theorem progPage_take (source : List UInt8) :
    (progPage source).take source.length = source.take flashProgBytes := by
  unfold progPage
  split
  · rename_i h
    rw [List.take_take, Nat.min_eq_right (by lia)]
  · rename_i h
    rw [List.take_left, List.take_of_length_le (by lia)]

theorem and_sector (o : Nat) : o &&& (flashSectorBytes - 1) = 0 ↔ flashSectorBytes ∣ o := by
  rw [show o &&& (flashSectorBytes - 1) = o % flashSectorBytes from and_sub_one_eq_mod o 12]
  exact Nat.dvd_iff_mod_eq_zero.symm

theorem readAt_congr_below {mem mem' : Nat → UInt8} {a n : Nat}
    (h : ∀ x, x < a + n → mem' x = mem x) : readAt mem' a n = readAt mem a n :=
  List.map_congr_left fun i hi => h (a + i) (by have := List.mem_range.mp hi; lia)

/-- **The append loop keeps the cursor's invariant and lays the bytes down.** -/
theorem appendLoop_written (turns : Nat) {source : List UInt8} (h : Written mem₀ lo o c)
    (hpage : flashProgBytes ∣ o) (hturns : source.length ≤ turns)
    (hend : pageEnd o source.length < 2 ^ 32) :
    ∃ c', appendLoop flswapOps turns c o source = (true, c') ∧
      Written mem₀ lo (pageEnd o source.length) c' ∧ readAt c'.mem o source.length = source ∧
      ∀ x, x < o → c'.mem x = c.mem x := by
  induction turns generalizing c o source with
  | zero =>
    have hnil : source = [] := List.length_eq_zero_iff.mp (Nat.le_zero.mp hturns)
    subst hnil
    exact ⟨c, rfl, h, rfl, fun _ _ => rfl⟩
  | succ turns ih =>
    unfold appendLoop
    by_cases hnil : source.length = 0
    · rw [if_pos hnil]
      have hsource := List.length_eq_zero_iff.mp hnil
      subst hsource
      exact ⟨c, rfl, h, rfl, fun _ _ => rfl⟩
    · rw [if_neg hnil]
      obtain ⟨hopen, hkeep⟩ := h.open
      obtain ⟨hnext, hread, hbelow⟩ := hopen.program hpage (progPage_length source)
      generalize hc₁ : (if flashSectorBytes ∣ o then c.perform (eraseSector o) else c) = c₁ at *
      have hstep : (if o &&& (flashSectorBytes - 1) = 0 then flswapOps.erase c o flashSectorBytes
          else (true, c)) = (true, c₁) := by
        rw [← hc₁]
        simp only [and_sector]
        split <;> rfl
      simp only [hstep]
      have hlt : o + flashProgBytes ≤ pageEnd o source.length := by
        unfold pageEnd flashProgBytes
        lia
      have hrest : pageEnd (o + flashProgBytes) (source.drop flashProgBytes).length =
          pageEnd o source.length := by
        rw [List.length_drop]
        unfold pageEnd flashProgBytes
        lia
      have hwrap : wrap 32 (o + flashProgBytes) = o + flashProgBytes := wrap_of_lt (by lia)
      have hpos : 0 < flashProgBytes := by decide
      have hleft : (source.drop flashProgBytes).length ≤ turns := by
        rw [List.length_drop]
        lia
      obtain ⟨c', hcall, hwritten, hbytes, hlow⟩ := ih hnext (Nat.dvd_add hpage (Nat.dvd_refl _)) hleft
        (by rw [hrest]; exact hend)
      rw [hrest] at hwritten
      refine ⟨c', ?_, hwritten, ?_, fun x hx => ?_⟩
      · simp only [flswapOps, hwrap] at hcall ⊢
        exact hcall
      · -- The first page holds the front of the source, and the loop did not come back to it.
        have hfirst : readAt c'.mem o flashProgBytes = progPage source := by
          rw [readAt_congr_below hlow, hread]
        by_cases hshort : source.length ≤ flashProgBytes
        · have hsplit : flashProgBytes = source.length + (flashProgBytes - source.length) := by lia
          rw [hsplit, readAt_add] at hfirst
          have hpre := congrArg (List.take source.length) hfirst
          rw [List.take_append_of_le_length (by simp), List.take_of_length_le (by simp),
            progPage_take, List.take_of_length_le hshort] at hpre
          exact hpre
        · have hsplit : source.length = flashProgBytes + (source.drop flashProgBytes).length := by
            rw [List.length_drop]
            lia
          have hfull : progPage source = source.take flashProgBytes := if_pos (by lia)
          rw [hsplit, readAt_add, hfirst, hbytes, hfull, List.take_append_drop]
      · rw [hlow x (by lia), hbelow x hx, hkeep x hx]

end

/-! ## An image -/

/-- The pieces lie in the blocks from `lo` to `hi`, in ascending order and without overlap. -/
def Ascending (lo hi : Nat) (pieces : List Piece) : Prop :=
  (∀ p ∈ pieces, lo ≤ p.blk ∧ p.stop ≤ hi) ∧ pieces.Pairwise fun p q => p.stop ≤ q.blk

/-- A piece that starts inside a sector finds it entered: an earlier piece ends there. -/
def Entered (pieces : List Piece) : Prop :=
  ∀ pre p post, pieces = pre ++ p :: post → p.bytes ≠ [] → p.blk % swapImageAlign ≠ 0 →
    ∃ q ∈ pre, q.bytes ≠ [] ∧ (q.stop - 1) / swapImageAlign = p.blk / swapImageAlign

/-- Where a block of the swap device is on the chip. -/
def chipAddr (blk : Nat) : Nat := flashSwapOffset + blk * devBsize

section
variable {mem₀ : Nat → UInt8} {lo o : Nat} {c : Chip}

/-- The cursor may be moved ahead, to a boundary or inside its sector. -/
theorem Written.skip {o' : Nat} (h : Written mem₀ lo o c) (hle : o ≤ o')
    (hgoal : flashSectorBytes ∣ o' ∨ (¬flashSectorBytes ∣ o ∧ sectorOf o' = sectorOf o)) :
    Written mem₀ lo o' c := by
  refine ⟨h.mem, h.legal, Nat.le_trans h.le hle, ?_, ?_, h.once, h.before, ?_⟩
  · intro off len hm
    obtain ⟨h1, h2, h3, h4⟩ := h.erased off len hm
    exact ⟨h1, h2, h3, by lia⟩
  · intro off data hm
    obtain ⟨h1, h2, h3⟩ := h.programmed off data hm
    exact ⟨h1, h2, by lia⟩
  · rcases hgoal with hdvd | ⟨hin, hsame⟩
    · exact .inl hdvd
    · obtain ⟨hhere, hblank⟩ := h.ahead.resolve_left hin
      rw [hsame]
      exact .inr ⟨hhere, fun x hx hs => hblank x (by lia) hs⟩

theorem chipAddr_dvd (blk : Nat) : flashProgBytes ∣ chipAddr blk := by
  have hblk : flashProgBytes ∣ devBsize := by decide
  exact Nat.dvd_add (by decide) (Nat.dvd_mul_left_of_dvd hblk blk)

/-- The cursor never passes the next block. -/
theorem pageEnd_le (blk n : Nat) : pageEnd (chipAddr blk) n ≤ chipAddr (blk + btod n) := by
  unfold pageEnd chipAddr btod devBsize flashProgBytes
  lia

/-- A piece through the layers above the append loop. -/
theorem swapWithBuf_written {p : Piece} (h : Written mem₀ lo (chipAddr p.blk) c)
    (hlow : swapImageAlign ≤ p.blk) (hhigh : p.stop ≤ partSize) (hne : p.bytes ≠ []) :
    ∃ c', swapWithBuf c p.blk p.bytes = .ok c' ∧
      Written mem₀ lo (pageEnd (chipAddr p.blk) p.bytes.length) c' ∧
      readAt c'.mem (chipAddr p.blk) p.bytes.length = p.bytes ∧
      ∀ x, x < chipAddr p.blk → c'.mem x = c.mem x := by
  have hpart : partSize = 384 := rfl
  have hend := pageEnd_le p.blk p.bytes.length
  have htop : chipAddr p.stop < 2 ^ 32 := by
    have hbase : flashSwapOffset = 1703936 := rfl
    unfold chipAddr devBsize
    lia
  obtain ⟨c', hcall, hwritten, hread, hkeep⟩ := appendLoop_written p.bytes.length h
    (chipAddr_dvd p.blk) (Nat.le_refl _) (Nat.lt_of_le_of_lt hend htop)
  have hlen : p.bytes.length ≠ 0 := fun h0 => hne (List.length_eq_zero_iff.mp h0)
  have halign : chipAddr p.blk &&& (flashProgBytes - 1) = 0 := by
    rw [show chipAddr p.blk &&& (flashProgBytes - 1) = chipAddr p.blk % flashProgBytes from
      and_sub_one_eq_mod _ 8]
    exact Nat.mod_eq_zero_of_dvd (chipAddr_dvd p.blk)
  have hraw : flRaw c (p.blk * devBsize) p.bytes = (true, c') := by
    have hbound : p.blk * devBsize + p.bytes.length ≤ flashSwapBytes := by
      unfold Piece.stop btod devBsize at hhigh
      unfold devBsize flashSwapBytes
      lia
    have hsector : flashSectorBytes ≤ p.blk * devBsize := by
      unfold swapImageAlign at hlow
      unfold flashSectorBytes devBsize
      lia
    have happend : flashSwapAppend flswapOps c (chipAddr p.blk) p.bytes = (true, c') := by
      rw [flashSwapAppend, if_neg (not_not.mpr halign), hcall]
    rw [flRaw, if_neg (by lia), if_neg (by lia)]
    exact happend
  refine ⟨c', ?_, hwritten, hread, hkeep⟩
  unfold Piece.stop at hhigh
  rw [swapWithBuf, if_neg hlen]
  simp only [flstrategy, if_neg (Nat.not_lt.mpr hhigh), hraw]

/-- The cursor is at the start, or at the end of the last piece that is not empty. -/
def CursorAt (start o : Nat) (done : List Piece) : Prop :=
  ((∀ q ∈ done, q.bytes = []) ∧ o = chipAddr start) ∨
    ∃ q ∈ done, q.bytes ≠ [] ∧ o = pageEnd (chipAddr q.blk) q.bytes.length ∧
      ∀ r ∈ done, r.bytes ≠ [] → r.stop ≤ q.stop

theorem lt_pageEnd {p : Piece} (h : p.bytes ≠ []) :
    p.blk < p.stop ∧ chipAddr (p.stop - 1) < pageEnd (chipAddr p.blk) p.bytes.length := by
  have hpos := List.length_pos_iff.mpr h
  unfold Piece.stop pageEnd chipAddr btod devBsize flashProgBytes
  lia

/-- The next piece can be appended where it starts. -/
theorem Written.reach {start hi : Nat} {done todo : List Piece} {p : Piece}
    (h : Written mem₀ (chipAddr start) o c) (hcur : CursorAt start o done)
    (hasc : Ascending start hi (done ++ p :: todo)) (hent : Entered (done ++ p :: todo))
    (hne : p.bytes ≠ []) : o ≤ chipAddr p.blk ∧ Written mem₀ (chipAddr start) (chipAddr p.blk) c := by
  have hmono : ∀ {a b : Nat}, a ≤ b → chipAddr a ≤ chipAddr b := by
    intro a b hab
    unfold chipAddr devBsize
    lia
  have horder : ∀ q ∈ done, q.stop ≤ p.blk := fun q hq =>
    (List.pairwise_append.mp hasc.2).2.2 q hq p List.mem_cons_self
  have hle : o ≤ chipAddr p.blk := by
    rcases hcur with ⟨_, rfl⟩ | ⟨q, hq, _, rfl, _⟩
    · exact hmono (hasc.1 p (List.mem_append_right _ List.mem_cons_self)).1
    · exact (pageEnd_le q.blk q.bytes.length).trans (hmono (horder q hq))
  refine ⟨hle, h.skip hle ?_⟩
  by_cases hedge : p.blk % swapImageAlign = 0
  · refine .inl (Nat.dvd_add (by decide) ?_)
    obtain ⟨k, hk⟩ := Nat.dvd_of_mod_eq_zero hedge
    rw [hk, Nat.mul_right_comm]
    exact Nat.dvd_mul_right _ _
  · -- The last piece that is not empty ends in the sector, because an earlier one does.
    obtain ⟨q', hq', hne', hsector⟩ := hent done p todo rfl hne hedge
    rcases hcur with ⟨hnone, _⟩ | ⟨q, hq, hqne, rfl, hmax⟩
    · exact absurd (hnone q' hq') hne'
    · have h1 := hmax q' hq' hne'
      have h2 := horder q hq
      have h3 := (lt_pageEnd hqne).2
      have h4 := (lt_pageEnd hne').1
      generalize pageEnd (chipAddr q.blk) q.bytes.length = o at *
      have hbase : flashSwapOffset = 416 * 4096 := rfl
      unfold chipAddr devBsize at hle h3
      unfold swapImageAlign at hsector hedge
      refine .inr ⟨?_, ?_⟩
      · rintro ⟨k, rfl⟩
        unfold flashSectorBytes at *
        lia
      · unfold sectorOf flashSectorBytes chipAddr devBsize
        lia

/-- **Every image**, from where the pieces done so far have left the chip. -/
theorem writePieces_written {start hi : Nat} {todo : List Piece} (done : List Piece)
    (h : Written mem₀ (chipAddr start) o c) (hcur : CursorAt start o done)
    (hasc : Ascending start hi (done ++ todo)) (hent : Entered (done ++ todo))
    (hlow : swapImageAlign ≤ start) (hhigh : hi ≤ partSize)
    (hread : ∀ q ∈ done, readAt c.mem (chipAddr q.blk) q.bytes.length = q.bytes) :
    ∃ c' o', writePieces c todo = .ok c' ∧ Written mem₀ (chipAddr start) o' c' ∧
      CursorAt start o' (done ++ todo) ∧
      ∀ q ∈ done ++ todo, readAt c'.mem (chipAddr q.blk) q.bytes.length = q.bytes := by
  induction todo generalizing done c o with
  | nil =>
    rw [List.append_nil]
    exact ⟨c, o, rfl, h, hcur, hread⟩
  | cons p todo ih =>
    have hcat : done ++ p :: todo = (done ++ [p]) ++ todo := by simp
    have hmem : p ∈ done ++ p :: todo := List.mem_append_right _ List.mem_cons_self
    by_cases hne : p.bytes = []
    · have hcall : swapWithBuf c p.blk p.bytes = .ok c := by
        rw [swapWithBuf, if_pos (by rw [hne]; rfl)]
      rw [writePieces, hcall, hcat]
      rw [hcat] at hasc hent
      refine ih _ h ?_ hasc hent ?_
      · rcases hcur with ⟨hnone, ho⟩ | ⟨q, hq, hqne, ho, hmax⟩
        · refine .inl ⟨fun q hq => ?_, ho⟩
          rcases List.mem_append.mp hq with hq | hq
          · exact hnone q hq
          · rw [List.mem_singleton.mp hq]
            exact hne
        · refine .inr ⟨q, List.mem_append_left _ hq, hqne, ho, fun r hr hrne => ?_⟩
          rcases List.mem_append.mp hr with hr | hr
          · exact hmax r hr hrne
          · rw [List.mem_singleton.mp hr] at hrne
            exact absurd hne hrne
      · intro q hq
        rcases List.mem_append.mp hq with hq | hq
        · exact hread q hq
        · rw [List.mem_singleton.mp hq, hne]
          rfl
    · obtain ⟨hle, hstart⟩ := h.reach hcur hasc hent hne
      have hin := hasc.1 p hmem
      obtain ⟨c₁, hcall, hnext, hbytes, hkeep⟩ := swapWithBuf_written hstart
        (Nat.le_trans hlow hin.1) (Nat.le_trans hin.2 hhigh) hne
      have horder : ∀ q ∈ done, q.stop ≤ p.blk := fun q hq =>
        (List.pairwise_append.mp hasc.2).2.2 q hq p List.mem_cons_self
      rw [writePieces, hcall, hcat]
      rw [hcat] at hasc hent
      refine ih _ hnext ?_ hasc hent ?_
      · refine .inr ⟨p, by simp, hne, rfl, fun r hr _ => ?_⟩
        rcases List.mem_append.mp hr with hr | hr
        · have hstop := (lt_pageEnd hne).1
          have hbefore := horder r hr
          lia
        · rw [List.mem_singleton.mp hr]
      · intro q hq
        rcases List.mem_append.mp hq with hq | hq
        · refine Eq.trans (readAt_congr_below fun x hx => hkeep x ?_) (hread q hq)
          have hstop := horder q hq
          unfold Piece.stop btod at hstop
          unfold chipAddr devBsize at hx ⊢
          unfold devBsize at hstop
          lia
        · rw [List.mem_singleton.mp hq]
          exact hbytes

end

/-! ## The writers

`swapout` writes the data, the stack and the u area at consecutive blocks of the run it reserved, an
evacuation writes the same three a block at a time, and a spool is written a block at a time from its
first one. -/

/-- Pieces that follow each other from block `blk` on. -/
def Contiguous : Nat → List Piece → Prop
  | _, [] => True
  | blk, p :: ps => p.blk = blk ∧ Contiguous p.stop ps

theorem Contiguous.le {blk : Nat} {pieces : List Piece} (h : Contiguous blk pieces) :
    ∀ p ∈ pieces, blk ≤ p.blk := by
  induction pieces generalizing blk with
  | nil => exact fun p hp => absurd hp List.not_mem_nil
  | cons p ps ih =>
    intro q hq
    rcases List.mem_cons.mp hq with rfl | hq
    · exact Nat.le_of_eq h.1.symm
    · have hstop := ih h.2 q hq
      have hblk := h.1
      unfold Piece.stop at hstop
      lia

theorem Contiguous.ascending {lo hi : Nat} {pieces : List Piece} (h : Contiguous lo pieces)
    (hhi : ∀ p ∈ pieces, p.stop ≤ hi) : Ascending lo hi pieces := by
  refine ⟨fun p hp => ⟨h.le p hp, hhi p hp⟩, ?_⟩
  clear hhi
  induction pieces generalizing lo with
  | nil => exact List.Pairwise.nil
  | cons p ps ih => exact List.pairwise_cons.mpr ⟨h.2.le, ih h.2⟩

/-- A piece starts where the pieces do, or where the last one that is not empty stops. -/
theorem Contiguous.follows {blk : Nat} {pre post : List Piece} {p : Piece}
    (h : Contiguous blk (pre ++ p :: post)) :
    p.blk = blk ∨ ∃ q ∈ pre, q.bytes ≠ [] ∧ q.stop = p.blk := by
  induction pre generalizing blk with
  | nil => exact .inl h.1
  | cons q pre ih =>
    rcases ih h.2 with hstop | ⟨r, hr, hne, hstop⟩
    · by_cases hq : q.bytes = []
      · have hsame : q.stop = q.blk := by rw [Piece.stop, hq]; rfl
        exact .inl (hstop.trans (hsame.trans h.1))
      · exact .inr ⟨q, List.mem_cons_self, hq, hstop.symm⟩
    · exact .inr ⟨r, List.mem_cons_of_mem _ hr, hne, hstop⟩

theorem Contiguous.entered {start : Nat} {pieces : List Piece} (h : Contiguous start pieces)
    (hstart : swapImageAlign ∣ start) : Entered pieces := by
  rintro pre p post rfl _ hedge
  rcases h.follows with hblk | ⟨q, hq, hne, hstop⟩
  · rw [hblk] at hedge
    exact absurd (Nat.mod_eq_zero_of_dvd hstart) hedge
  · refine ⟨q, hq, hne, ?_⟩
    rw [hstop]
    unfold swapImageAlign at *
    lia

/-! ## The result -/

/-- **Writing an image into its run is legal.** The run is of whole sectors of the swap device, past its
    first one; the pieces ascend in it, and none starts inside a sector that no earlier piece has
    entered. Then the writes go through; each sector that is programmed is erased once, and before that;
    no program has to set a bit; nothing outside the run is touched; and every piece reads back. -/
theorem swap_image_legal (mem₀ : Nat → UInt8) {start span : Nat} {pieces : List Piece}
    (hrun : swapImageAlign ∣ start ∧ swapImageAlign ∣ span ∧ swapImageAlign ≤ start ∧
      start + span ≤ partSize)
    (hasc : Ascending start (start + span) pieces) (hent : Entered pieces) :
    ∃ c, writePieces ⟨mem₀, []⟩ pieces = .ok c ∧ c.mem = replay mem₀ c.log ∧
      (∀ off data, .program off data ∈ c.log → c.log.count (eraseSector (sectorOf off)) = 1) ∧
      (∀ pre off data post, c.log = pre ++ .program off data :: post →
        eraseSector (sectorOf off) ∈ pre) ∧
      Legal mem₀ c.log ∧
      (∀ op ∈ c.log, chipAddr start ≤ op.range.off ∧
        op.range.off + op.range.size ≤ chipAddr (start + span)) ∧
      ∀ p ∈ pieces, readAt c.mem (chipAddr p.blk) p.bytes.length = p.bytes := by
  obtain ⟨⟨a, rfl⟩, ⟨b, rfl⟩, hlow, hhigh⟩ := hrun
  have hsector : ∀ k, flashSectorBytes ∣ chipAddr (swapImageAlign * k) := by
    intro k
    refine Nat.dvd_add (by decide) ?_
    rw [Nat.mul_right_comm]
    exact Nat.dvd_mul_right _ _
  obtain ⟨c, o, hcall, hwritten, hcur, hread⟩ := writePieces_written []
    (.start (hsector a)) (.inl ⟨fun _ hq => absurd hq List.not_mem_nil, rfl⟩) hasc hent hlow hhigh
    (fun _ hq => absurd hq List.not_mem_nil)
  rw [List.nil_append] at hcur hread
  have hend : o ≤ chipAddr (swapImageAlign * a + swapImageAlign * b) := by
    have hmono : ∀ {m n : Nat}, m ≤ n → chipAddr m ≤ chipAddr n := by
      intro m n hmn
      unfold chipAddr devBsize
      lia
    rcases hcur with ⟨_, rfl⟩ | ⟨q, hq, _, rfl, _⟩
    · exact hmono (Nat.le_add_right _ _)
    · exact (pageEnd_le q.blk q.bytes.length).trans (hmono (hasc.1 q hq).2)
  refine ⟨c, hcall, hwritten.mem.symm, fun off data hm => ?_, hwritten.before, hwritten.legal,
    fun op hop => ?_, hread⟩
  · obtain ⟨pre, post, hsplit⟩ := List.append_of_mem hm
    have hbefore := hwritten.before pre off data post hsplit
    have hin : eraseSector (sectorOf off) ∈ c.log := by
      rw [hsplit]
      exact List.mem_append_left _ hbefore
    exact Nat.le_antisymm (hwritten.once _) (List.count_pos_iff.mpr hin)
  · cases op with
    | erase off len =>
      obtain ⟨rfl, hdvd, hle, hlt⟩ := hwritten.erased off len hop
      refine ⟨hle, ?_⟩
      -- Both ends are sector boundaries, so the sector that starts below the end ends there.
      obtain ⟨m, rfl⟩ := hdvd
      rw [← Nat.mul_add] at hend ⊢
      obtain ⟨n, hn⟩ := hsector (a + b)
      rw [hn] at hend ⊢
      have hmn : m < n := Nat.lt_of_mul_lt_mul_left (Nat.lt_of_lt_of_le hlt hend)
      exact Nat.mul_le_mul_left flashSectorBytes hmn
    | program off data =>
      obtain ⟨hlen, hle, hlast⟩ := hwritten.programmed off data hop
      refine ⟨hle, ?_⟩
      show off + data.length ≤ _
      lia

/-- A data segment, an empty stack and a u area, over a chip full of zeros. -/
theorem swap_image_legal_process : ∃ c, writePieces ⟨fun _ => 0, []⟩
    [⟨4, [1, 2, 3]⟩, ⟨5, []⟩, ⟨5, [4]⟩] = .ok c ∧ Legal (fun _ => 0) c.log := by
  have hrun : swapImageAlign ∣ 4 ∧ swapImageAlign ∣ 8 ∧ swapImageAlign ≤ 4 ∧ 4 + 8 ≤ partSize := by
    decide
  have hseq : Contiguous 4 [⟨4, [1, 2, 3]⟩, ⟨5, []⟩, ⟨5, [4]⟩] := ⟨rfl, rfl, rfl, trivial⟩
  obtain ⟨c, hcall, _, _, _, hlegal, _⟩ := swap_image_legal (fun _ => 0) hrun
    (hseq.ascending (by simp [Piece.stop, btod, devBsize])) (hseq.entered (by decide))
  exact ⟨c, hcall, hlegal⟩

/-- One byte in the first block of a run and one in the sixth: the second sector is programmed without
    having been erased, and what was there before spoils the byte. -/
theorem swap_image_gap : Ascending 4 12 [⟨4, [7]⟩, ⟨9, [7]⟩] ∧
    ∃ c, writePieces ⟨fun _ => 0, []⟩ [⟨4, [7]⟩, ⟨9, [7]⟩] = .ok c ∧
      (∃ off data, .program off data ∈ c.log ∧ c.log.count (eraseSector (sectorOf off)) = 0) ∧
      ¬Legal (fun _ => 0) c.log ∧ readAt c.mem (chipAddr 9) 1 ≠ [7] := by
  refine ⟨?_, ⟨_, [eraseSector (chipAddr 4), .program (chipAddr 4) (progPage [7]),
    .program (chipAddr 9) (progPage [7])]⟩, rfl, ⟨chipAddr 9, progPage [7], by decide +kernel, by decide +kernel⟩, ?_, ?_⟩
  · constructor <;> simp [Piece.stop, btod, devBsize]
  · intro hlegal
    have hbad := hlegal [eraseSector (chipAddr 4), .program (chipAddr 4) (progPage [7])]
      (.program (chipAddr 9) (progPage [7])) [] rfl 0 7 rfl
    exact absurd hbad (by decide +kernel)
  · decide +kernel

end DiscoBSD.Flash
