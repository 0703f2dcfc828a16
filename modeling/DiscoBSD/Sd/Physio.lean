import DiscoBSD.Sd.Strategy

/-!
# Raw transfers

What a request of `sdstrategy` moves, and `physio` of `vm_swp.c` over it with the check of `sdread` and `sdwrite`.
**The bytes that move are the first of the request, in whole sectors, each with one command in order**; a command that
fails may spoil the sector behind them. What a segment has beyond whole sectors is not cut off: the whole segment is
refused.
-/

set_option autoImplicit false

namespace DiscoBSD.Sd

open Lib

/-! ## Segments -/

/-- `struct iovec` -/
structure Iovec where
  iov_base : ℕ
  iov_len : ℕ

def total (segs : List Iovec) : ℕ := (segs.map Iovec.iov_len).sum

/-- The first `n` bytes of the segments. -/
def firstBytes (n : ℕ) : List Iovec → List (ℕ × ℕ)
  | [] => []
  | iov :: segs => (iov.iov_base, min n iov.iov_len) :: firstBytes (n - min n iov.iov_len) segs

/-- Where the byte behind them is. -/
def addrAt (n : ℕ) : List Iovec → ℕ
  | [] => 0
  | iov :: segs => if n < iov.iov_len then iov.iov_base + n else addrAt (n - iov.iov_len) segs

/-- Pieces that move one after the other. -/
def moves (read : Bool) : List (ℕ × ℕ) → ℕ → Traffic → Traffic
  | [], _, t => t
  | (a, n) :: ps, off, t => moves read ps (off + n) (move read a off n t)

/-- The first `n` bytes have moved, from or to the byte `off` of the card, and each sector was asked for once. -/
structure Moved (read : Bool) (segs : List Iovec) (off n : ℕ) (t t' : Traffic) : Prop where
  whole : n % sdSector = 0
  le : n ≤ total segs
  bytes : t' = { moves read (firstBytes n segs) off t with
    asked := t.asked ++ List.range' (off / sdSector) (n / sdSector) }

/-- They have, and the command for the sector behind them has failed. -/
def Broken (read : Bool) (segs : List Iovec) (off n : ℕ) (t t' : Traffic) : Prop :=
  ∃ t₁ junk, Moved read segs off n t t₁ ∧ n + sdSector ≤ total segs ∧ junk.length = sdSector ∧
    t' = spoil read (addrAt n segs) ((off + n) / sdSector) junk t₁

/-- Commands were for sectors of the partition only. -/
def Inside (p : Diskpart) (t t' : Traffic) : Prop :=
  ∃ new, t'.asked = t.asked ++ new ∧ ∀ s ∈ new, p.dp_offset ≤ s ∧ s < p.dp_offset + p.dp_nsectors

/-- What a transfer of `n` bytes does, at the byte `off` of the partition. -/
structure Transfer (p : Diskpart) (read : Bool) (segs : List Iovec) (off n : ℕ) (error : Option Errno)
    (t t' : Traffic) : Prop where
  moved : Moved read segs (p.dp_offset * sdSector + off) n t t' ∨
    error = some .eio ∧ Broken read segs (p.dp_offset * sdSector + off) n t t'
  inside : Inside p t t'

theorem Inside.refl (p : Diskpart) (t : Traffic) : Inside p t t := ⟨[], by simp, by simp⟩

theorem Inside.trans {p : Diskpart} {t₁ t₂ t₃ : Traffic} (h : Inside p t₁ t₂) (h' : Inside p t₂ t₃) : Inside p t₁ t₃ := by
  obtain ⟨new, hnew, hall⟩ := h
  obtain ⟨new', hnew', hall'⟩ := h'
  refine ⟨new ++ new', by rw [hnew', hnew, List.append_assoc], ?_⟩
  intro s hs
  cases List.mem_append.mp hs with
  | inl hs => exact hall s hs
  | inr hs => exact hall' s hs

@[simp] theorem moves_zero (read : Bool) (segs : List Iovec) (off : ℕ) (t : Traffic) :
    moves read (firstBytes 0 segs) off t = t := by
  induction segs generalizing off with
  | nil => rfl
  | cons iov segs ih => simp [firstBytes, moves, ih]

theorem Moved.zero (read : Bool) (segs : List Iovec) (off : ℕ) (t : Traffic) : Moved read segs off 0 t t :=
  ⟨rfl, Nat.zero_le _, by simp⟩

/-- Nothing moved, and nothing was asked for. -/
theorem Transfer.zero (p : Diskpart) (read : Bool) (segs : List Iovec) (off : ℕ) (error : Option Errno) (t : Traffic) :
    Transfer p read segs off 0 error t t :=
  ⟨.inl (.zero read segs _ t), .refl p t⟩

/-! ## A request -/

section
variable (d : Media) (openpart : ℕ → Bool) (c : Fate) (bp : Buf) (w : World)

/-- A request that comes to commands. -/
structure Reaches : Prop where
  unit : bp.b_dev / 8 = 0
  part : bp.b_dev % 8 ≤ MAXPARTITIONS
  isopen : openpart (bp.b_dev % 8) = true
  kept : (sdReplaced c w).1 = false
  whole : bp.b_bcount % sdSector = 0
  start : bp.b_blkno * devBsize < (d.sdpt (bp.b_dev % 8)).dp_nsectors * sdSector

/-- The sectors that it is about. -/
def wanted : ℕ := min (bp.b_bcount / sdSector) ((d.sdpt (bp.b_dev % 8)).dp_nsectors - 2 * bp.b_blkno)

variable {d openpart c bp w}

end

/-- What `physio` returns, and what it leaves in the `struct uio`. -/
structure Physio where
  error : Option Errno
  uio_offset : ℕ
  uio_resid : ℕ
  w : World

def physio (strat : Buf → World → Done) (baduaddr : ℕ → Bool) (dev : ℕ) (read : Bool) :
    List Iovec → ℕ → ℕ → World → Physio
  | [], off, resid, w => ⟨none, off, resid, w⟩
  | iov :: segs, off, resid, w =>
    let top := wrap 32 (iov.iov_base + iov.iov_len)
    if iov.iov_base ≥ top then ⟨some .efault, off, resid, w⟩
    else if baduaddr iov.iov_base ∨ baduaddr (top - 1) then ⟨some .efault, off, resid, w⟩
    else
      let r := strat ⟨dev, off / devBsize, iov.iov_len, iov.iov_base, read⟩ w
      let moved := iov.iov_len - r.b_resid
      let off := wrap 32 (off + moved)
      let resid := resid - moved
      -- The inner loop goes on only if everything has moved, and then the segment is empty.
      if r.b_resid ≠ 0 ∨ r.b_error ≠ none then ⟨r.b_error, off, resid, r.w⟩
      else physio strat baduaddr dev read segs off resid r.w

/-- `sd_misaligned` -/
def sdMisaligned (off : ℕ) (segs : List Iovec) : Bool :=
  off % devBsize ≠ 0 || segs.dropLast.any fun iov => iov.iov_len % devBsize ≠ 0

section
variable (d : Media) (openpart : ℕ → Bool) (c : Fate) (baduaddr : ℕ → Bool) (dev : ℕ)

def sdrw (read : Bool) (segs : List Iovec) (off resid : ℕ) (w : World) : Physio :=
  if sdMisaligned off segs then ⟨some .einval, off, resid, w⟩
  else physio (sdstrategy d openpart c) baduaddr dev read segs off resid w

def sdwrite : List Iovec → ℕ → ℕ → World → Physio := sdrw d openpart c baduaddr dev false

end

/-! ## One segment after the other -/

theorem moves_asked (read : Bool) (ps : List (ℕ × ℕ)) (off : ℕ) (t : Traffic) (a : List ℕ) :
    moves read ps off { t with asked := a } = { moves read ps off t with asked := a } := by
  induction ps generalizing off t with
  | nil => rfl
  | cons p ps ih =>
    have hmove : move read p.1 off p.2 { t with asked := a } = { move read p.1 off p.2 t with asked := a } := by
      cases read <;> rfl
    rw [moves, hmove, ih, moves]

theorem total_cons (iov : Iovec) (segs : List Iovec) : total (iov :: segs) = iov.iov_len + total segs := by
  simp [total]

/-- The first segment has moved, and the others go on behind it. -/
theorem Moved.cons {read : Bool} {iov : Iovec} {segs : List Iovec} {off m : ℕ} {t t₁ t₂ : Traffic}
    (h : Moved read [iov] off iov.iov_len t t₁) (h' : Moved read segs (off + iov.iov_len) m t₁ t₂) :
    Moved read (iov :: segs) off (iov.iov_len + m) t t₂ where
  whole := by
    have hlen := h.whole
    have hm := h'.whole
    simp only [sdSector] at hlen hm ⊢
    lia
  le := by
    rw [total_cons]
    exact Nat.add_le_add_left h'.le _
  bytes := by
    have hlen := h.whole
    have hdiv : (off + iov.iov_len) / sdSector = off / sdSector + iov.iov_len / sdSector := by
      simp only [sdSector] at hlen ⊢
      lia
    have hdiv' : (iov.iov_len + m) / sdSector = iov.iov_len / sdSector + m / sdSector := by
      simp only [sdSector] at hlen ⊢
      lia
    have hfirst : firstBytes (iov.iov_len + m) (iov :: segs) = (iov.iov_base, iov.iov_len) :: firstBytes m segs := by
      rw [firstBytes, Nat.min_eq_right (Nat.le_add_right _ _), Nat.add_sub_cancel_left]
    rw [h'.bytes, h.bytes, moves_asked, hfirst, hdiv, hdiv']
    simp [firstBytes, moves, List.range'_append_1]

/-- What was done to the first segment alone. -/
theorem Moved.head {read : Bool} {iov : Iovec} {off n : ℕ} {t t' : Traffic} (h : Moved read [iov] off n t t')
    (segs : List Iovec) : Moved read (iov :: segs) off n t t' where
  whole := h.whole
  le := by
    have hle := h.le
    rw [total_cons] at hle ⊢
    simp only [total, List.map_nil, List.sum_nil] at hle ⊢
    lia
  bytes := by
    have hle : n ≤ iov.iov_len := by simpa [total] using h.le
    rw [h.bytes]
    simp [firstBytes, moves, Nat.min_eq_left hle]

theorem Transfer.head {p : Diskpart} {read : Bool} {iov : Iovec} {off n : ℕ} {error : Option Errno} {t t' : Traffic}
    (h : Transfer p read [iov] off n error t t') (segs : List Iovec) : Transfer p read (iov :: segs) off n error t t' where
  moved := by
    cases h.moved with
    | inl hmoved => exact .inl (hmoved.head segs)
    | inr hbroken =>
      obtain ⟨herror, t₁, junk, hmoved, hle, hjunk, hspoil⟩ := hbroken
      have hlen : n + sdSector ≤ iov.iov_len := by simpa [total] using hle
      have hpos : 0 < sdSector := by decide
      refine .inr ⟨herror, t₁, junk, hmoved.head segs, ?_, hjunk, ?_⟩
      · rw [total_cons]
        lia
      · have hlt : n < iov.iov_len := by lia
        rw [hspoil]
        simp only [addrAt, if_pos hlt]
  inside := h.inside

theorem Transfer.cons {p : Diskpart} {read : Bool} {iov : Iovec} {segs : List Iovec} {off m : ℕ} {error : Option Errno}
    {t t₁ t₂ : Traffic} (h : Transfer p read [iov] off iov.iov_len none t t₁)
    (h' : Transfer p read segs (off + iov.iov_len) m error t₁ t₂) :
    Transfer p read (iov :: segs) off (iov.iov_len + m) error t t₂ where
  moved := by
    cases h.moved with
    | inr hbroken => cases hbroken.1
    | inl hfirst =>
      have hrest := h'.moved
      rw [← Nat.add_assoc] at hrest
      cases hrest with
      | inl hmoved => exact .inl (hfirst.cons hmoved)
      | inr hbroken =>
        obtain ⟨herror, t₃, junk, hmoved, hle, hjunk, hspoil⟩ := hbroken
        refine .inr ⟨herror, t₃, junk, hfirst.cons hmoved, ?_, hjunk, ?_⟩
        · rw [total_cons, Nat.add_assoc]
          exact Nat.add_le_add_left hle _
        · rw [hspoil, addrAt, if_neg (by lia), Nat.add_sub_cancel_left, Nat.add_assoc]
  inside := h.inside.trans h'.inside

/-! ## Raw transfers -/

/-- What the check admits: the transfer starts on a block, and so does every segment. -/
def Blocks (off : ℕ) (segs : List Iovec) : Prop :=
  segs ≠ [] → off % devBsize = 0 ∧ ∀ iov ∈ segs.dropLast, iov.iov_len % devBsize = 0

theorem Blocks.block {off : ℕ} {iov : Iovec} {segs : List Iovec} (h : Blocks off (iov :: segs)) :
    off / devBsize * devBsize = off := Nat.div_mul_cancel (Nat.dvd_of_mod_eq_zero (h (List.cons_ne_nil _ _)).1)

theorem Blocks.tail {off : ℕ} {iov : Iovec} {segs : List Iovec} (h : Blocks off (iov :: segs)) :
    Blocks (off + iov.iov_len) segs := by
  intro hne
  obtain ⟨hoff, hall⟩ := h (List.cons_ne_nil _ _)
  rw [List.dropLast_cons_of_ne_nil hne] at hall
  have hlen := hall iov List.mem_cons_self
  refine ⟨?_, fun iov hiov => hall iov (List.mem_cons_of_mem _ hiov)⟩
  simp only [devBsize] at hoff hlen ⊢
  lia

section
variable {d : Media} {openpart : ℕ → Bool} {c : Fate} {baduaddr : ℕ → Bool} {dev : ℕ} {read : Bool}

/-- The last segment, too, is in whole sectors, and the memory is the user's. -/
structure Whole (baduaddr : ℕ → Bool) (segs : List Iovec) : Prop where
  whole : ∀ iov ∈ segs, iov.iov_len % sdSector = 0
  span : ∀ iov ∈ segs, iov.iov_base < wrap 32 (iov.iov_base + iov.iov_len)
  user : ∀ iov ∈ segs, baduaddr iov.iov_base = false ∧ baduaddr (wrap 32 (iov.iov_base + iov.iov_len) - 1) = false

end

end DiscoBSD.Sd
