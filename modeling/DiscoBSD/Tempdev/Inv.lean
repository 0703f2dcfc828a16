import DiscoBSD.Tempdev.State

/-!
# One device is an array

What is kept of a device between its writes, and that each write keeps it. **As long as appending is allowed, all that
was ever written lies below the mark**, so the erase an append may do ahead of it destroys nothing; once it is not,
only rewrites follow, which leave everything else alone.
-/

set_option autoImplicit false

namespace DiscoBSD.Tempdev

open DiscoBSD.Lib DiscoBSD.Rmap DiscoBSD.Flash
open DiscoBSD.Swap (devBsize)

/-! ## Writes -/

theorem value_snoc (ws : List Write) (w : Write) (i : Nat) :
    value (ws ++ [w]) i = if w.off ≤ i then (w.bytes[i - w.off]?).or (value ws i) else value ws i := by
  simp only [value, List.foldl_append, List.foldl_cons, List.foldl_nil]

/-- Inside the last write it is what that wrote, and outside what was there before. -/
theorem value_snoc_cases {ws : List Write} {w : Write} {i : Nat} {v : UInt8} (h : value (ws ++ [w]) i = some v) :
    (∃ j, i = w.off + j ∧ w.bytes[j]? = some v) ∨
      (value ws i = some v ∧ (i < w.off ∨ w.off + w.bytes.length ≤ i)) := by
  rw [value_snoc] at h
  by_cases hle : w.off ≤ i
  · rw [if_pos hle] at h
    by_cases hlt : i - w.off < w.bytes.length
    · left
      rw [List.getElem?_eq_getElem hlt, Option.some_or] at h
      exact ⟨i - w.off, by omega, by rw [List.getElem?_eq_getElem hlt]; exact h⟩
    · right
      rw [List.getElem?_eq_none (by omega), Option.none_or] at h
      exact ⟨h, by omega⟩
  · rw [if_neg hle] at h
    exact .inr ⟨h, by omega⟩

theorem value_snoc_inside {ws : List Write} {w : Write} {j : Nat} {b : UInt8} (h : w.bytes[j]? = some b) :
    value (ws ++ [w]) (w.off + j) = some b := by
  rw [value_snoc, if_pos (Nat.le_add_right _ _), Nat.add_sub_cancel_left, h, Option.some_or]

theorem value_snoc_outside {ws : List Write} {w : Write} {i : Nat} (h : i < w.off ∨ w.off + w.bytes.length ≤ i) :
    value (ws ++ [w]) i = value ws i := by
  rw [value_snoc]
  by_cases hle : w.off ≤ i
  · rw [if_pos hle, List.getElem?_eq_none (by omega), Option.none_or]
  · rw [if_neg hle]

theorem InOrder.snoc {ws : List Write} {off stop : Nat} (h : InOrder off ws stop) {w : Write} (hoff : w.off = stop)
    (hlen : devBsize ∣ w.bytes.length) : InOrder off (ws ++ [w]) (stop + w.bytes.length) := by
  induction ws generalizing off with
  | nil =>
    have hstop : off = stop := h
    subst hstop
    exact ⟨hoff, hlen, rfl⟩
  | cons v ws ih => exact ⟨h.1, h.2.1, ih h.2.2⟩

theorem InOrder.le {ws : List Write} {off stop : Nat} (h : InOrder off ws stop) : off ≤ stop := by
  induction ws generalizing off with
  | nil => exact Nat.le_of_eq h
  | cons v ws ih => exact (Nat.le_add_right _ _).trans (ih h.2.2)

theorem InOrder.mem_le {ws : List Write} {off stop : Nat} (h : InOrder off ws stop) {w : Write} (hw : w ∈ ws) :
    w.off + w.bytes.length ≤ stop := by
  induction ws generalizing off with
  | nil => cases hw
  | cons v ws ih =>
    rcases List.mem_cons.mp hw with rfl | hmem
    · rw [h.1]
      exact h.2.2.le
    · exact ih h.2.2 hmem

theorem exists_write {ws : List Write} {i : Nat} {v : UInt8} (h : value ws i = some v) :
    ∃ w ∈ ws, i < w.off + w.bytes.length := by
  induction ws using List.reverseRecOn with
  | nil => cases h
  | append_singleton ws w ih =>
    rcases value_snoc_cases h with ⟨j, rfl, hj⟩ | ⟨hold, -⟩
    · obtain ⟨hlt, -⟩ := List.getElem?_eq_some_iff.mp hj
      exact ⟨w, by simp, by omega⟩
    · obtain ⟨w', hw', hlt⟩ := ih hold
      exact ⟨w', by simp [hw'], hlt⟩

/-- Nothing was written past the end of what was written in order. -/
theorem InOrder.value_lt {ws : List Write} {off stop i : Nat} {v : UInt8} (h : InOrder off ws stop)
    (hv : value ws i = some v) : i < stop := by
  obtain ⟨w, hw, hlt⟩ := exists_write hv
  exact hlt.trans_le (h.mem_le hw)

theorem Ordered.snoc {ws : List Write} {w : Write} (h : Ordered ws)
    (hw : w.image = true → ∃ stop, InOrder 0 (ws ++ [w]) stop) : Ordered (ws ++ [w]) := by
  intro pre v post hsplit himage
  rcases split_snoc hsplit with ⟨rfl, rfl, -⟩ | ⟨post', hws, -⟩
  · exact hw himage
  · exact h pre v post' hws himage

/-! ## The device -/

/-- The extent is whole sectors of the device past the first, and the blocks asked for fit. -/
structure Placed (dev : SwapDev) (e : Extent) (size : Nat) : Prop where
  low : swapImageAlign ≤ e.off
  start : swapImageAlign ∣ e.off
  whole : swapImageAlign ∣ e.size
  high : e.off + e.size ≤ dev.psize
  fits : size ≤ e.size

structure Good (dev : SwapDev) (e : Extent) (x : Temp) : Prop where
  start : x.t.t_start = e.off
  placed : Placed dev e x.t.t_size
  values : ∀ i v, value x.writes i = some v →
    i < x.t.t_size * devBsize ∧ x.disk (addr dev e.off + i) = v
  next : x.t.t_next ≠ tdAppendDisabled → x.t.t_next ≤ x.t.t_size ∧ InOrder 0 x.writes (x.t.t_next * devBsize) ∧
    Ahead dev x.disk (addr dev (e.off + x.t.t_next))
  ordered : Ordered x.writes

/-- Nothing changed that other extents can be in. -/
def Kept (dev : SwapDev) (e : Extent) (m m' : Mem) : Prop :=
  ∀ x, addr dev swapImageAlign ≤ x → x < addr dev e.off ∨ addr dev (e.off + e.size) ≤ x → m' x = m x

theorem Kept.refl (dev : SwapDev) (e : Extent) (m : Mem) : Kept dev e m m := fun _ _ _ => rfl

theorem Kept.trans {dev : SwapDev} {e : Extent} {m m' m'' : Mem} (h : Kept dev e m m') (h' : Kept dev e m' m'') :
    Kept dev e m m'' := fun x hx₁ hx₂ => (h' x hx₁ hx₂).trans (h x hx₁ hx₂)

theorem addr_add (dev : SwapDev) (a b : Nat) : addr dev (a + b) = addr dev a + b * devBsize := by
  unfold addr
  rw [Nat.add_mul, Nat.add_assoc]

theorem addr_mono (dev : SwapDev) {a b : Nat} (h : a ≤ b) : addr dev a ≤ addr dev b :=
  Nat.add_le_add_left (Nat.mul_le_mul_right _ h) _

/-- A sector of the resource map is a sector of the flash. -/
theorem sector_dvd_addr (dev : SwapDev) {a : Nat} (h : swapImageAlign ∣ a) : flashSectorBytes ∣ addr dev a := by
  have hbase : flashSectorBytes ∣ base dev := by cases dev <;> decide
  obtain ⟨k, rfl⟩ := h
  refine Nat.dvd_add hbase ⟨k, ?_⟩
  rw [show flashSectorBytes = 4096 from rfl, devBsize, swapImageAlign]
  omega

variable {dev : SwapDev} {e : Extent} {x : Temp}

theorem psize_lt (dev : SwapDev) : dev.psize < 2 ^ 15 := by
  cases dev <;> decide

theorem Good.size_lt (h : Good dev e x) : x.t.t_size < 2 ^ 15 := by
  have hsize := psize_lt dev
  have hhigh := h.placed.high
  have hfits := h.placed.fits
  omega

theorem Good.snoc {t : Swtemp} {disk : Mem} {w : Write} (h : Good dev e x) (hstart : t.t_start = x.t.t_start)
    (hsize : t.t_size = x.t.t_size) (hin : w.off + w.bytes.length ≤ x.t.t_size * devBsize)
    (hnew : ∀ i b, w.bytes[i]? = some b → disk (addr dev e.off + (w.off + i)) = b)
    (hold : ∀ i v, value x.writes i = some v → i < w.off ∨ w.off + w.bytes.length ≤ i →
      disk (addr dev e.off + i) = x.disk (addr dev e.off + i))
    (hnext : t.t_next ≠ tdAppendDisabled → t.t_next ≤ x.t.t_size ∧
      InOrder 0 (x.writes ++ [w]) (t.t_next * devBsize) ∧ Ahead dev disk (addr dev (e.off + t.t_next)))
    (himage : w.image = true → ∃ stop, InOrder 0 (x.writes ++ [w]) stop) :
    Good dev e ⟨t, disk, x.writes ++ [w]⟩ := by
  refine ⟨hstart.trans h.start, ?_, ?_, ?_, h.ordered.snoc himage⟩
  · rw [hsize]
    exact h.placed
  · intro i v hv
    rw [hsize]
    rcases value_snoc_cases hv with ⟨j, rfl, hj⟩ | ⟨hv', hout⟩
    · obtain ⟨hlt, -⟩ := List.getElem?_eq_some_iff.mp hj
      exact ⟨by omega, hnew j v hj⟩
    · obtain ⟨hlt, hdisk⟩ := h.values i v hv'
      exact ⟨hlt, (hold i v hv' hout).trans hdisk⟩
  · rw [hsize]
    exact hnext

/-! ## Flags -/

theorem writeFlags_cases (t : Swtemp) (block blocks : Nat) :
    swtempWriteFlags t block blocks = (false, { t with t_next := tdAppendDisabled }) ∨
      (swtempWriteFlags t block blocks = (true, { t with t_next := wrap 16 (t.t_next + blocks) }) ∧
        t.t_next ≠ tdAppendDisabled ∧ block = t.t_next ∧ block + blocks ≤ t.t_size) := by
  unfold swtempWriteFlags
  by_cases hno : blocks = 0 ∨ t.t_next = tdAppendDisabled ∨ block ≠ t.t_next ∨ t.t_size < block ∨
      t.t_size - block < blocks
  · exact .inl (if_pos hno)
  · right
    refine ⟨if_neg hno, fun hd => hno (.inr (.inl hd)), ?_, ?_⟩
    · by_contra hne
      exact hno (.inr (.inr (.inl hne)))
    · omega

/-- A write that carries no `B_SWAPIMAGE` ends all appending. -/
structure Flagged (t t' : Swtemp) (block blocks : Nat) (image : Bool) : Prop where
  start : t'.t_start = t.t_start
  size : t'.t_size = t.t_size
  plain : image = false → t'.t_next = tdAppendDisabled
  append : image = true → t.t_next ≠ tdAppendDisabled ∧ block = t.t_next ∧ t'.t_next = block + blocks ∧
    block + blocks ≤ t.t_size

theorem flagged_plain (t : Swtemp) (block blocks : Nat) :
    Flagged t { t with t_next := tdAppendDisabled } block blocks false :=
  ⟨rfl, rfl, fun _ => rfl, nofun⟩

theorem writeFlags_flagged {t : Swtemp} (hsize : t.t_size < 2 ^ 15) (block blocks : Nat) :
    Flagged t (swtempWriteFlags t block blocks).2 block blocks (swtempWriteFlags t block blocks).1 := by
  rcases writeFlags_cases t block blocks with heq | ⟨heq, hnext, hblock, hin⟩
  · rw [heq]
    exact flagged_plain t block blocks
  · rw [heq]
    refine ⟨rfl, rfl, nofun, fun _ => ⟨hnext, hblock, ?_, hin⟩⟩
    rw [← hblock]
    exact wrap_of_lt (by omega)

/-! ## A write -/

/-- The places a write can go. -/
theorem Placed.inside {size block len : Nat} (h : Placed dev e size)
    (hin : block * devBsize + len ≤ size * devBsize) :
    (e.off + block) * devBsize + len ≤ dev.psize * devBsize ∧
      addr dev (e.off + block) + len ≤ addr dev (e.off + e.size) := by
  have hhigh := h.high
  have hfits := h.fits
  rw [addr_add, addr_add]
  unfold devBsize at hin ⊢
  omega

theorem Placed.kept {size block : Nat} {source : List UInt8} {image : Bool} {m m' : Mem} (h : Placed dev e size)
    (hin : block * devBsize + source.length ≤ size * devBsize)
    (hsame : ∀ x, addr dev swapImageAlign ≤ x → x < addr dev (e.off + block) ∨
      addr dev (e.off + block) + source.length ≤ x ∧ (image = true →
        x / flashSectorBytes ≠ (addr dev (e.off + block) + source.length - 1) / flashSectorBytes) → m' x = m x) :
    Kept dev e m m' := by
  intro x hx hout
  refine hsame x hx ?_
  have hend := (h.inside hin).2
  rcases hout with hbelow | habove
  · exact .inl (hbelow.trans_le (addr_mono dev (Nat.le_add_right _ _)))
  · refine .inr ⟨hend.trans habove, fun _ => ?_⟩
    have hdvd := sector_dvd_addr dev (Nat.dvd_add h.start h.whole)
    have hpos : 0 < addr dev (e.off + e.size) := by
      have hlow := h.low
      unfold addr devBsize swapImageAlign at *
      omega
    rw [show flashSectorBytes = 4096 from rfl] at hdvd ⊢
    omega

/-- **A write of whole pages keeps the device.** -/
theorem Good.put {t : Swtemp} {image : Bool} {block : Nat} (source : List UInt8) (h : Good dev e x)
    (hf : Flagged x.t t block (source.length / devBsize) image) (hwhole : image = true → devBsize ∣ source.length)
    (hin : block * devBsize + source.length ≤ x.t.t_size * devBsize)
    (hlen : dev = .fl1 → flashProgBytes ∣ source.length) :
    ∃ disk, swapWrite dev x.disk (x.t.t_start + block : Nat) source image = some disk ∧
      Good dev e ⟨t, disk, x.writes ++ [⟨block * devBsize, source, image⟩]⟩ ∧ Kept dev e x.disk disk := by
  have hahead : image = true → Ahead dev x.disk (addr dev (e.off + block)) := by
    intro himage
    obtain ⟨hnext, hblock, -, -⟩ := hf.append himage
    rw [hblock]
    exact (h.next hnext).2.2
  have hlow : swapImageAlign ≤ e.off + block := h.placed.low.trans (Nat.le_add_right _ _)
  obtain ⟨disk, hwrite, hread, hsame, hafter⟩ := swapWrite_spec hlow (h.placed.inside hin).1 hlen hahead
  have hinorder : image = true →
      InOrder 0 (x.writes ++ [⟨block * devBsize, source, image⟩]) (block * devBsize + source.length) := by
    intro himage
    obtain ⟨hnext, hblock, -, -⟩ := hf.append himage
    have hold := (h.next hnext).2.1
    rw [← hblock] at hold
    exact hold.snoc rfl (hwhole himage)
  rw [h.start]
  refine ⟨disk, hwrite, h.snoc hf.start hf.size hin ?_ ?_ ?_ fun himage => ⟨_, hinorder himage⟩,
    h.placed.kept hin hsame⟩
  · intro i b hi
    change source[i]? = some b at hi
    obtain ⟨hlt, -⟩ := List.getElem?_eq_some_iff.mp hi
    have hat : addr dev e.off + (block * devBsize + i) = addr dev (e.off + block) + i := by
      rw [addr_add]
      omega
    rw [hat, hread _ (Nat.le_add_right _ _) (by omega), Nat.add_sub_cancel_left, List.getD_eq_getElem?_getD, hi]
    rfl
  · intro i v hv hout
    have hi := h.values i v hv
    have hfirst : addr dev swapImageAlign ≤ addr dev e.off + i :=
      (addr_mono dev h.placed.low).trans (Nat.le_add_right _ _)
    refine hsame _ hfirst ?_
    rw [addr_add]
    rcases hout with hbelow | habove
    · exact .inl (Nat.add_lt_add_left hbelow _)
    · cases image with
      | false =>
        have hle : block * devBsize + source.length ≤ i := habove
        exact .inr ⟨by omega, nofun⟩
      | true =>
        -- What was written lies below an append.
        obtain ⟨hnext, hblock, -, -⟩ := hf.append rfl
        have hlt := (h.next hnext).2.1.value_lt hv
        rw [← hblock] at hlt
        exact .inl (Nat.add_lt_add_left hlt _)
  · intro hnext'
    cases image with
    | false => exact absurd (hf.plain rfl) hnext'
    | true =>
      obtain ⟨-, -, hmark, hfits⟩ := hf.append rfl
      have hstop : (block + source.length / devBsize) * devBsize = block * devBsize + source.length := by
        rw [Nat.add_mul, Nat.div_mul_cancel (hwhole rfl)]
      refine ⟨hmark ▸ hfits, ?_, ?_⟩
      · rw [hmark, hstop]
        exact hinorder rfl
      · rw [hmark, addr_add, hstop, ← Nat.add_assoc, ← addr_add]
        exact hafter rfl

/-! ## Parts of blocks -/

/-- A block with a part of it replaced. -/
theorem splice_getD {buf chunk : List UInt8} {boff j : Nat} (hlen : boff + chunk.length ≤ buf.length) :
    (buf.take boff ++ chunk ++ buf.drop (boff + chunk.length)).getD j 0xff =
      if boff ≤ j ∧ j < boff + chunk.length then chunk.getD (j - boff) 0xff else buf.getD j 0xff := by
  have htake : (buf.take boff).length = boff := by
    rw [List.length_take]
    omega
  simp only [List.getD_eq_getElem?_getD, List.getElem?_append, List.length_append, htake]
  by_cases hfirst : j < boff
  · rw [if_pos (by omega), if_pos hfirst, if_neg (by omega), List.getElem?_take_of_lt hfirst]
  · by_cases hmid : j < boff + chunk.length
    · rw [if_pos hmid, if_neg hfirst, if_pos ⟨by omega, hmid⟩]
    · rw [if_neg hmid, if_neg (fun h => hmid h.2), List.getElem?_drop]
      congr 2
      omega

/-- **A write of a part of a block keeps the device**, and ends all appending. -/
theorem Good.splice {block boff : Nat} {chunk : List UInt8} (h : Good dev e x) (hblock : block < x.t.t_size)
    (hpart : boff + chunk.length ≤ devBsize) :
    ∃ disk, swapWrite dev x.disk (x.t.t_start + block : Nat)
        ((readAt x.disk (addr dev (e.off + block)) devBsize).take boff ++ chunk ++
          (readAt x.disk (addr dev (e.off + block)) devBsize).drop (boff + chunk.length)) false = some disk ∧
      Good dev e ⟨{ x.t with t_next := tdAppendDisabled }, disk,
        x.writes ++ [⟨block * devBsize + boff, chunk, false⟩]⟩ ∧ Kept dev e x.disk disk := by
  set buf := readAt x.disk (addr dev (e.off + block)) devBsize with hbuf
  set source := buf.take boff ++ chunk ++ buf.drop (boff + chunk.length) with hsource
  have hlen : buf.length = devBsize := readAt_length _ _ _
  have hsize : source.length = devBsize := by
    simp only [hsource, List.length_append, List.length_take, List.length_drop, hlen]
    omega
  have hin : block * devBsize + source.length ≤ x.t.t_size * devBsize := by
    rw [hsize]
    unfold devBsize
    omega
  have hlow : swapImageAlign ≤ e.off + block := h.placed.low.trans (Nat.le_add_right _ _)
  obtain ⟨disk, hwrite, hread, hsame, -⟩ := swapWrite_spec hlow
    (h.placed.inside hin).1 (fun _ => by rw [hsize]; decide) (nofun : false = true → Ahead dev x.disk _)
  -- What is outside the part is as it was.
  have hout : ∀ i, i < block * devBsize + boff ∨ block * devBsize + boff + chunk.length ≤ i →
      disk (addr dev e.off + i) = x.disk (addr dev e.off + i) := by
    intro i hi
    by_cases hinside : block * devBsize ≤ i ∧ i < block * devBsize + devBsize
    · have hat : addr dev e.off + i = addr dev (e.off + block) + (i - block * devBsize) := by
        rw [addr_add]
        omega
      rw [hat, hread _ (Nat.le_add_right _ _) (by rw [hsize]; omega), Nat.add_sub_cancel_left, hsource,
        splice_getD (by rw [hlen]; exact hpart), if_neg (by omega), hbuf, List.getD_eq_getElem?_getD, getElem?_readAt,
        if_pos (by omega)]
      rfl
    · refine hsame _ ((addr_mono dev h.placed.low).trans (Nat.le_add_right _ _)) ?_
      rw [addr_add, hsize]
      by_cases hbelow : i < block * devBsize
      · exact .inl (Nat.add_lt_add_left hbelow _)
      · exact .inr ⟨by omega, nofun⟩
  rw [h.start]
  refine ⟨disk, hwrite, h.snoc rfl rfl ?_ ?_ (fun i _ _ => hout i) (fun hnext => absurd rfl hnext) nofun,
    h.placed.kept hin hsame⟩
  · change block * devBsize + boff + chunk.length ≤ _
    rw [hsize] at hin
    omega
  · intro i b hi
    change chunk[i]? = some b at hi
    obtain ⟨hlt, -⟩ := List.getElem?_eq_some_iff.mp hi
    have hat : addr dev e.off + (block * devBsize + boff + i) = addr dev (e.off + block) + (boff + i) := by
      rw [addr_add]
      omega
    rw [hat, hread _ (Nat.le_add_right _ _) (by rw [hsize]; omega), Nat.add_sub_cancel_left, hsource,
      splice_getD (by rw [hlen]; exact hpart), if_pos (by omega), Nat.add_sub_cancel_left,
      List.getD_eq_getElem?_getD, hi]
    rfl

end DiscoBSD.Tempdev
