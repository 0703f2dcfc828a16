import Mathlib.Data.List.TakeWhile
import DiscoBSD.Swapram.Pool

/-!
# The pool allocator keeps its free list coalesced

Two steps. The first is a *refinement*: on a well-formed pool the three routines of
`swapram_pool.c` are first fit and coalescing release over a list of extents
(`swapramPoolAlloc_eq`, `swapramPoolFree_eq`), with the slot limit as the one side condition the
list does not have. The second is an *invariant* over runs: any sequence of calls in which free and
trim are applied to ranges that are held keeps the free list gapped, grain-aligned and, together
with the held ranges, a tiling of the pool.
-/

set_option autoImplicit false

namespace DiscoBSD.Swapram

open DiscoBSD.Lib

/-! ## Well-formed pools -/

/-- What the code relies on between calls. -/
structure PoolWF (mp : SwapramPool) : Prop where
  gapped : Gapped mp.p_seg
  size_lt : mp.p_size < 2 ^ 32
  inside : ∀ s ∈ mp.p_seg, s.off + s.size ≤ mp.p_size

theorem PoolWF.segEnd_eq {mp : SwapramPool} (h : PoolWF mp) {s : Extent} (hs : s ∈ mp.p_seg) :
    segEnd s = s.off + s.size :=
  wrap_of_lt (Nat.lt_of_le_of_lt (h.inside s hs) h.size_lt)

theorem allocScan_eq {want : Nat} {seg : List Extent}
    (hin : ∀ s ∈ seg, s.off + s.size < 2 ^ 32) : allocScan want seg = take want seg := by
  induction seg with
  | nil => rfl
  | cons s rest ih =>
    have hs := hin s (by simp)
    unfold allocScan take
    by_cases hlt : s.size < want
    · rw [if_pos hlt, if_neg (by omega), ih fun t ht => hin t (by simp [ht])]
    · rw [if_neg hlt, if_pos (by omega)]
      simp only [shrink]
      rw [wrap_of_lt (by omega)]
      by_cases heq : s.size = want
      · rw [if_pos (by omega), if_pos heq]
      · rw [if_neg (by omega), if_neg heq]

/-- `swapram_pool_alloc` is first fit of the rounded size. -/
theorem swapramPoolAlloc_eq {mp : SwapramPool} (h : PoolWF mp) (size : Nat) :
    swapramPoolAlloc mp size =
      if roundgrain size = 0 then (none, mp)
      else match take (roundgrain size) mp.p_seg with
        | none => (none, mp)
        | some (off, seg) => (some off, { mp with p_seg := seg }) := by
  unfold swapramPoolAlloc
  have hscan : allocScan (roundgrain size) mp.p_seg = take (roundgrain size) mp.p_seg :=
    allocScan_eq fun s hs => Nat.lt_of_le_of_lt (h.inside s hs) h.size_lt
  simp only [hscan]
  by_cases h0 : roundgrain size = 0
  · rw [if_pos (Or.inl h0), if_pos h0]
  · rw [if_neg h0]
    by_cases hbig : mp.p_size < roundgrain size
    · -- The early exit agrees with the scan: no segment is larger than the pool.
      have hnone : take (roundgrain size) mp.p_seg = none := by
        rw [take_eq_none]
        intro s hs
        have := h.inside s hs
        omega
      rw [if_pos (Or.inr hbig), hnone]
    · refine (if_neg (by omega)).trans ?_
      cases take (roundgrain size) mp.p_seg <;> rfl

/-! ## Release -/

/-- The run at `off` merges with neither neighbour, so it needs a slot of its own. -/
def NeedsSlot (mp : SwapramPool) (off want : Nat) : Prop :=
  (∀ s ∈ mp.p_seg, s.off + s.size ≠ off) ∧ ∀ s ∈ mp.p_seg, off + want ≠ s.off

theorem segBelow_append (mp : SwapramPool) (off : Nat) :
    segBelow mp off ++ segAbove mp off = mp.p_seg := List.takeWhile_append_dropWhile

theorem segBelow_lt {mp : SwapramPool} {off : Nat} {s : Extent} (h : s ∈ segBelow mp off) :
    s.off < off := by
  have := List.mem_takeWhile_imp h
  simpa using this

theorem segAbove_head {mp : SwapramPool} {off : Nat} {t : Extent} {rest : List Extent}
    (h : segAbove mp off = t :: rest) : off ≤ t.off := by
  have := List.head?_dropWhile_not (fun s : Extent => decide (s.off < off)) mp.p_seg
  rw [show List.dropWhile (fun s : Extent => decide (s.off < off)) mp.p_seg = t :: rest from h]
    at this
  simpa using this

theorem growBelow_eq {mp : SwapramPool} {lo hi : List Extent} {s : Extent} {want : Nat}
    (hs : s.off + s.size + want < 2 ^ 32) (hhi : ∀ t ∈ hi, t.off + t.size < 2 ^ 32) :
    growBelow mp lo s want hi =
      { mp with p_seg := lo ++ join ⟨s.off, s.size + want⟩ hi } := by
  have hsize : wrap 32 (s.size + want) = s.size + want := wrap_of_lt (by omega)
  have hend : segEnd ⟨s.off, s.size + want⟩ = s.off + (s.size + want) :=
    wrap_of_lt (by simp only []; omega)
  cases hi with
  | nil => simp only [growBelow, hsize, join]
  | cons t rest =>
    have ht := hhi t (by simp)
    simp only [growBelow, hsize, hend, join]
    by_cases heq : s.off + (s.size + want) = t.off
    · rw [if_pos heq, if_pos heq, wrap_of_lt (by omega)]
    · rw [if_neg heq, if_neg heq]

theorem growAbove_eq {mp : SwapramPool} {lo hi : List Extent} {off want : Nat}
    (hr : off + want < 2 ^ 32) (hhi : ∀ t ∈ hi, t.off + t.size < 2 ^ 32)
    (hslot : (∀ t ∈ hi, off + want ≠ t.off) → mp.p_seg.length ≠ mp.p_nseg)
    (hg : GappedFrom (off + want) hi) :
    growAbove mp off want lo hi =
      (true, { mp with p_seg := lo ++ join ⟨off, want⟩ hi }) := by
  have hwrap : wrap 32 (off + want) = off + want := wrap_of_lt hr
  cases hi with
  | nil =>
    have hne := hslot (by simp)
    simp only [growAbove, newSlot, if_neg hne, join]
  | cons t rest =>
    have ht := hhi t (by simp)
    simp only [growAbove, newSlot, hwrap, join]
    by_cases heq : off + want = t.off
    · rw [if_pos heq, if_pos heq, wrap_of_lt (by omega), Nat.add_comm t.size]
    · have hne := hslot fun u hu => by
        rcases List.mem_cons.mp hu with rfl | hu
        · exact heq
        · -- The segments further up start past the end of `t`.
          have h1 := hg.1
          have h2 := hg.2.2.off_le u hu
          omega
      rw [if_neg heq, if_neg heq, if_neg hne]

/-- **`swapram_pool_free` is a coalescing release** of the rounded range, when the range is inside
    the pool, apart from every free segment, and has a slot if it needs one. -/
theorem swapramPoolFree_eq {mp : SwapramPool} {off size : Nat} (h : PoolWF mp)
    (h0 : roundgrain size ≠ 0) (hoff : off % 4 = 0) (hin : off + roundgrain size ≤ mp.p_size)
    (ha : Apart ⟨off, roundgrain size⟩ mp.p_seg)
    (hslot : NeedsSlot mp off (roundgrain size) → mp.p_seg.length ≠ mp.p_nseg) :
    swapramPoolFree mp off size =
      (true, { mp with p_seg := release ⟨off, roundgrain size⟩ mp.p_seg }) := by
  have hlt := h.size_lt
  have hsplit := segBelow_append mp off
  have hmem : ∀ s, s ∈ segBelow mp off ∨ s ∈ segAbove mp off → s ∈ mp.p_seg := by
    intro s hs
    rw [← hsplit]
    exact List.mem_append.mpr hs
  have hpos : ∀ s ∈ mp.p_seg, 0 < s.size := (gapped_iff.mp h.gapped).2
  generalize hw : roundgrain size = want at *
  have hwrap : wrap 32 (off + want) = off + want := wrap_of_lt (by omega)
  -- A free segment that starts below the range ends at or below it, and one that starts at or
  -- above its start starts at or above its end: the two overlap tests both fail.
  have hlo : ∀ s ∈ segBelow mp off, s.off + s.size ≤ off := by
    intro s hs
    have h1 := segBelow_lt hs
    by_contra hgt
    have hx := ha off (Nat.le_refl _) (by simp only []; omega)
    have h2 := ind_le_cover (hmem s (Or.inl hs)) off
    rw [Extent.ind_eq_one (by omega) (by omega)] at h2
    omega
  have hhi : ∀ t rest, segAbove mp off = t :: rest → off + want ≤ t.off := by
    intro t rest ht
    have h1 := segAbove_head ht
    by_contra hgt
    have htm := hmem t (Or.inr (by rw [ht]; simp))
    have hx := ha t.off h1 (by simp only []; omega)
    have h2 := ind_le_cover htm t.off
    have := hpos t htm
    rw [Extent.ind_eq_one (Nat.le_refl _) (by omega)] at h2
    omega
  have hend : ∀ s, s ∈ segBelow mp off ∨ s ∈ segAbove mp off → segEnd s = s.off + s.size :=
    fun s hs => h.segEnd_eq (hmem s hs)
  have hhead : ((segAbove mp off).head?.any fun s => decide (s.off < off + want)) = false := by
    cases ht : segAbove mp off with
    | nil => rfl
    | cons t rest => simpa using hhi t rest ht
  have hjoin : release ⟨off, want⟩ (segAbove mp off) = join ⟨off, want⟩ (segAbove mp off) := by
    refine release_of_le (fun s hs => hpos s (hmem s (Or.inr hs))) fun s hs => ?_
    cases ht : segAbove mp off with
    | nil => rw [ht] at hs; simp at hs
    | cons t rest =>
      rw [ht] at hs
      simp only [List.head?_cons, Option.mem_def, Option.some.injEq] at hs
      subst hs
      exact segAbove_head ht
  have hbound : ∀ t ∈ segAbove mp off, t.off + t.size < 2 ^ 32 := fun t ht =>
    Nat.lt_of_le_of_lt (h.inside t (hmem t (Or.inr ht))) hlt
  have hgap : GappedFrom (off + want) (segAbove mp off) := by
    have hg := h.gapped
    rw [← hsplit] at hg
    cases ht : segAbove mp off with
    | nil => trivial
    | cons t rest =>
      rw [ht] at hg
      exact ⟨hhi t rest ht, hg.suffix.2⟩
  have hneeds : (∀ s ∈ segBelow mp off, s.off + s.size ≠ off) →
      (∀ t ∈ segAbove mp off, off + want ≠ t.off) → NeedsSlot mp off want := by
    intro hb ht
    constructor <;> intro s hs <;> rw [← hsplit] at hs <;>
      rcases List.mem_append.mp hs with hs' | hs'
    · exact hb s hs'
    · have h1 := hgap.off_le s hs'
      have h2 := hpos s (hmem s (Or.inr hs'))
      omega
    · have h1 := segBelow_lt hs'
      omega
    · exact ht s hs'
  have hguard : ¬(want = 0 ∨ off % swapramGrain ≠ 0 ∨ mp.p_size < off + want) := by
    simp only [swapramGrain]
    omega
  simp only [swapramPoolFree, hw, hwrap, hhead, if_neg hguard]
  rcases List.eq_nil_or_concat (segBelow mp off) with hnil | ⟨lo, e, hcat⟩
  · -- Nothing starts below the range.
    have hseg : mp.p_seg = segAbove mp off := by rw [← hsplit, hnil, List.nil_append]
    have hgrow : growAbove mp off want [] (segAbove mp off) = _ :=
      growAbove_eq (by omega) hbound (fun ht => hslot (hneeds (by simp [hnil]) ht)) hgap
    simp only [hnil, List.getLast?_nil, Option.any_none, hgrow, Bool.false_eq_true, if_false,
      List.nil_append]
    rw [← hjoin, ← hseg]
  · -- `e` is the segment right below the range; it ends at or below `off`.
    rw [List.concat_eq_append] at hcat
    have he : e ∈ segBelow mp off := by rw [hcat]; simp
    have hee : segEnd e = e.off + e.size := hend e (Or.inl he)
    have hle := hlo e he
    have hlast : (segBelow mp off).getLast? = some e := by rw [hcat]; simp
    have hover : ¬(off < segEnd e) := by omega
    have hlolt : ∀ s ∈ lo, s.off + s.size < off := by
      intro s hs
      have hp := (gapped_iff.mp h.gapped).1
      rw [← hsplit, hcat, List.append_assoc, List.pairwise_append] at hp
      have h1 := hp.2.2 s hs e (by simp)
      have h2 := segBelow_lt he
      omega
    have hrel : release ⟨off, want⟩ mp.p_seg =
        lo ++ release ⟨off, want⟩ (e :: segAbove mp off) := by
      rw [← hsplit, hcat, List.append_assoc, release_append hlolt]
      rfl
    simp only [hlast, Option.any_some, decide_eq_true_eq, if_neg hover, Bool.false_eq_true,
      if_false]
    by_cases htouch : e.off + e.size = off
    · rw [if_pos (by omega), growBelow_eq (by omega) hbound, hrel, release, if_neg (by simp; omega),
        if_pos (by simpa using htouch), hcat, List.dropLast_concat]
    · have hgrow : growAbove mp off want (segBelow mp off) (segAbove mp off) = _ :=
        growAbove_eq (by omega) hbound (fun ht => hslot (hneeds (fun s hs => ?_) ht)) hgap
      · rw [if_neg (by omega), hgrow, hrel, release, if_pos (by simp only []; omega), hjoin, hcat,
          List.append_assoc]
        rfl
      · rw [hcat] at hs
        rcases List.mem_append.mp hs with hs | hs
        · have := hlolt s hs
          omega
        · rw [List.mem_singleton.mp hs]
          exact htouch

/-! ## Runs

A run is a sequence of calls. Beside the pool it carries the ranges its callers hold, which the
code does not record: an allocation that succeeds adds one, a free takes one away, a trim shortens
one. A range is gone from the list as soon as free is *called* on it, whatever the call returns, so
an invariant that relates the two says that legal calls succeed. -/

/-- The pool and the ranges its callers hold. -/
structure PoolRun where
  pool : SwapramPool
  held : List Extent
  deriving DecidableEq, Repr

/-- One call. -/
inductive PoolOp where
  | init (size nseg : Nat)
  | alloc (size : Nat)
  | free (off size : Nat)
  | trim (off oldsize newsize : Nat)
  deriving DecidableEq, Repr

/-- What is still held of a range of `had` bytes at `off` after a trim to `keep` bytes. -/
def heldAfterTrim (held : List Extent) (off had keep : Nat) : List Extent :=
  if had < keep then held
  else if keep = 0 then held.erase ⟨off, had⟩
  else ⟨off, keep⟩ :: held.erase ⟨off, had⟩

def PoolRun.step (s : PoolRun) : PoolOp → PoolRun
  | .init size nseg => ⟨swapramPoolInit size nseg, []⟩
  | .alloc size =>
    match swapramPoolAlloc s.pool size with
    | (some off, mp) => ⟨mp, ⟨off, roundgrain size⟩ :: s.held⟩
    | (none, mp) => ⟨mp, s.held⟩
  | .free off size =>
    ⟨(swapramPoolFree s.pool off size).2, s.held.erase ⟨off, roundgrain size⟩⟩
  | .trim off oldsize newsize =>
    ⟨(swapramPoolTrim s.pool off oldsize newsize).2,
      heldAfterTrim s.held off (roundgrain oldsize) (roundgrain newsize)⟩

/-- The table has a spare slot when releasing `want` bytes at `off` needs one. -/
def SlotFor (mp : SwapramPool) (off want : Nat) : Prop :=
  NeedsSlot mp off want → mp.p_seg.length < mp.p_nseg

/-- The calls the callers make: arguments are `unsigned int`s, the table has at least one entry,
free and trim name a range that is held, and a slot is there when the call needs one. -/
def PoolRun.Legal (s : PoolRun) : PoolOp → Prop
  | .init size nseg => size < 2 ^ 32 ∧ 0 < nseg
  | .alloc size => size < 2 ^ 32
  | .free off size =>
    size < 2 ^ 32 ∧ ⟨off, roundgrain size⟩ ∈ s.held ∧ SlotFor s.pool off (roundgrain size)
  | .trim off oldsize newsize =>
    oldsize < 2 ^ 32 ∧ newsize < 2 ^ 32 ∧ ⟨off, roundgrain oldsize⟩ ∈ s.held ∧
      SlotFor s.pool (off + roundgrain newsize) (roundgrain oldsize - roundgrain newsize)

/-- The states a run can be in, from any initialisation on. -/
inductive PoolReach : PoolRun → Prop
  | init {size nseg : Nat} (hs : size < 2 ^ 32) (hn : 0 < nseg) :
      PoolReach ⟨swapramPoolInit size nseg, []⟩
  | step {s : PoolRun} (op : PoolOp) (h : PoolReach s) (hl : s.Legal op) : PoolReach (s.step op)

/-- The invariant: a coalesced, grain-aligned free list that tiles the pool with what is held. -/
structure PoolInv (s : PoolRun) : Prop where
  gapped : Gapped s.pool.p_seg
  size_lt : s.pool.p_size < 2 ^ 32
  grain : Aligned 4 s.pool.p_seg
  tiles : Tiles 0 s.pool.p_size (s.pool.p_seg ++ s.held)
  held_grain : Aligned 4 s.held
  held_pos : ∀ r ∈ s.held, 0 < r.size

theorem PoolInv.wf {s : PoolRun} (h : PoolInv s) : PoolWF s.pool where
  gapped := h.gapped
  size_lt := h.size_lt
  inside := fun t ht => (h.tiles.inside (List.mem_append_left _ ht)
    ((gapped_iff.mp h.gapped).2 t ht)).2

theorem dvd_roundgrain (n : Nat) : 4 ∣ roundgrain n := Nat.dvd_of_mod_eq_zero (roundgrain_mod n)

theorem PoolInv.init {size nseg : Nat} (hs : size < 2 ^ 32) (hn : 0 < nseg) :
    PoolInv ⟨swapramPoolInit size nseg, []⟩ := by
  have hm : maskDown 32 size swapramGrain = size / 4 * 4 := maskDown_eq (k := 2) (by omega) hs
  have hlt : size / 4 * 4 < 2 ^ 32 := by omega
  by_cases h0 : size / 4 * 4 = 0
  · have hp : swapramPoolInit size nseg = ⟨0, nseg, []⟩ := by
      simp only [swapramPoolInit, hm, h0, or_true, if_true]
    rw [hp]
    exact ⟨trivial, Nat.two_pow_pos 32, Aligned.nil 4, fun x => by simp, Aligned.nil 4, by simp⟩
  · have hp : swapramPoolInit size nseg = ⟨size / 4 * 4, nseg, [⟨0, size / 4 * 4⟩]⟩ := by
      simp only [swapramPoolInit, hm, h0, or_false]
      rw [if_neg (by omega)]
    rw [hp]
    refine ⟨⟨Nat.le_refl _, Nat.pos_of_ne_zero h0, trivial⟩, hlt,
      aligned_cons.mpr ⟨⟨Nat.dvd_zero 4, Nat.dvd_mul_left 4 _⟩, Aligned.nil 4⟩, fun x => ?_,
      Aligned.nil 4, by simp⟩
    simp [Extent.ind]

theorem PoolInv.alloc {s : PoolRun} (h : PoolInv s) (size : Nat) :
    PoolInv (s.step (.alloc size)) := by
  rw [PoolRun.step, swapramPoolAlloc_eq h.wf]
  by_cases h0 : roundgrain size = 0
  · rw [if_pos h0]
    exact h
  · rw [if_neg h0]
    cases ht : take (roundgrain size) s.pool.p_seg with
    | none => exact h
    | some r =>
      obtain ⟨off, seg⟩ := r
      obtain ⟨hg, hc⟩ := take_spec h.gapped ht
      obtain ⟨ha, hoff⟩ := h.grain.take (dvd_roundgrain size) ht
      refine ⟨hg, h.size_lt, ha, fun x => ?_,
        aligned_cons.mpr ⟨⟨hoff, dvd_roundgrain size⟩, h.held_grain⟩, ?_⟩
      · have h1 := h.tiles x
        have h2 := hc x
        simp only [cover_append, cover_cons] at h1 ⊢
        omega
      · intro r hr
        rcases List.mem_cons.mp hr with rfl | hr
        · exact Nat.pos_of_ne_zero h0
        · exact h.held_pos r hr

/-- What both release paths come down to: a held range, or the tail of one, goes back to the free
    list and `rest` is held instead. -/
theorem PoolInv.release {s : PoolRun} {off size : Nat} {rest : List Extent} (h : PoolInv s)
    (h0 : roundgrain size ≠ 0) (hoff : 4 ∣ off)
    (hc : ∀ x, cover s.held x = cover rest x + (Extent.mk off (roundgrain size)).ind x)
    (hslot : NeedsSlot s.pool off (roundgrain size) → s.pool.p_seg.length ≠ s.pool.p_nseg)
    (hg : Aligned 4 rest) (hp : ∀ r ∈ rest, 0 < r.size) :
    PoolInv ⟨(swapramPoolFree s.pool off size).2, rest⟩ ∧
      (swapramPoolFree s.pool off size).1 = true ∧
      (swapramPoolFree s.pool off size).2.p_size = s.pool.p_size ∧
      (swapramPoolFree s.pool off size).2.p_nseg = s.pool.p_nseg := by
  have ht : Tiles 0 s.pool.p_size (s.pool.p_seg ++ (⟨off, roundgrain size⟩ :: rest)) := by
    intro x
    have h1 := h.tiles x
    have h2 := hc x
    simp only [cover_append, cover_cons] at h1 ⊢
    omega
  have hin := ht.inside (e := ⟨off, roundgrain size⟩) (by simp) (Nat.pos_of_ne_zero h0)
  have ha : Apart ⟨off, roundgrain size⟩ s.pool.p_seg := ht.apart (by simp)
  rw [swapramPoolFree_eq h.wf h0 (Nat.mod_eq_zero_of_dvd hoff) hin.2 ha hslot]
  obtain ⟨hg', hc'⟩ := release_spec h.gapped (Nat.zero_le _) (Nat.pos_of_ne_zero h0) ha
  refine ⟨⟨hg', h.size_lt, h.grain.release ⟨hoff, dvd_roundgrain size⟩, fun x => ?_, hg, hp⟩, rfl,
    rfl, rfl⟩
  have h1 := ht x
  have h2 := hc' x
  simp only [cover_append, cover_cons] at h1 h2 ⊢
  omega

/-- A free of a held range, unless it needs a slot and the table is full. -/
theorem PoolInv.free {s : PoolRun} {off size : Nat} (h : PoolInv s)
    (hm : ⟨off, roundgrain size⟩ ∈ s.held)
    (hslot : NeedsSlot s.pool off (roundgrain size) → s.pool.p_seg.length ≠ s.pool.p_nseg) :
    PoolInv (s.step (.free off size)) ∧ (swapramPoolFree s.pool off size).1 = true ∧
      (swapramPoolFree s.pool off size).2.p_size = s.pool.p_size ∧
      (swapramPoolFree s.pool off size).2.p_nseg = s.pool.p_nseg := by
  refine h.release (Nat.ne_of_gt (h.held_pos _ hm)) (h.held_grain _ hm).1 (fun x => ?_) hslot
    (fun r hr => h.held_grain r (List.mem_of_mem_erase hr))
    fun r hr => h.held_pos r (List.mem_of_mem_erase hr)
  have := cover_erase hm x
  omega

/-- A trim of a held range to a smaller size, unless its tail needs a slot and the table is full. -/
theorem PoolInv.trim {s : PoolRun} {off oldsize newsize : Nat} (h : PoolInv s)
    (hm : ⟨off, roundgrain oldsize⟩ ∈ s.held) (hle : roundgrain newsize ≤ roundgrain oldsize)
    (hslot : roundgrain newsize ≠ roundgrain oldsize →
      NeedsSlot s.pool (off + roundgrain newsize) (roundgrain oldsize - roundgrain newsize) →
      s.pool.p_seg.length ≠ s.pool.p_nseg) :
    PoolInv (s.step (.trim off oldsize newsize)) ∧
      (swapramPoolTrim s.pool off oldsize newsize).1 = true ∧
      (swapramPoolTrim s.pool off oldsize newsize).2.p_size = s.pool.p_size ∧
      (swapramPoolTrim s.pool off oldsize newsize).2.p_nseg = s.pool.p_nseg := by
  have herase : ∀ x, _ := cover_erase hm
  have hkeepd := dvd_roundgrain newsize
  have hhadd := dvd_roundgrain oldsize
  have hin := h.tiles.inside (List.mem_append_right s.pool.p_seg hm) (h.held_pos _ hm)
  have hlt := h.size_lt
  simp only [PoolRun.step, swapramPoolTrim, heldAfterTrim]
  generalize roundgrain newsize = keep at *
  generalize roundgrain oldsize = had at *
  simp only [] at hin
  have hgt : ¬had < keep := Nat.not_lt.mpr hle
  by_cases heq : keep = had
  · subst heq
    have hpos := h.held_pos _ hm
    simp only [] at hpos
    simp only [if_neg hgt, if_true, if_neg (Nat.ne_of_gt hpos), and_true]
    refine ⟨h.gapped, h.size_lt, h.grain, fun x => ?_, ?_, ?_⟩
    · have h1 := h.tiles x
      have h2 := herase x
      simp only [cover_append, cover_cons] at h1 ⊢
      omega
    · exact aligned_cons.mpr ⟨h.held_grain _ hm,
        fun r hr => h.held_grain r (List.mem_of_mem_erase hr)⟩
    · intro r hr
      rcases List.mem_cons.mp hr with rfl | hr
      · exact hpos
      · exact h.held_pos r (List.mem_of_mem_erase hr)
  · simp only [if_neg hgt, if_neg heq]
    have hround : roundgrain (had - keep) = had - keep :=
      roundgrain_of_mod (Nat.mod_eq_zero_of_dvd (Nat.dvd_sub hhadd hkeepd)) (by omega)
    rw [wrap_of_lt (by omega)]
    refine h.release (by omega) (Nat.dvd_add (h.held_grain _ hm).1 hkeepd) (fun x => ?_)
      (by rw [hround]; exact hslot heq) ?_ ?_
    · have h1 := herase x
      have h2 := Extent.ind_split (e := ⟨off, had⟩) (n := keep) (by simp only []; omega) x
      rw [hround]
      split
      · have h3 := Extent.ind_empty (e := ⟨off, keep⟩) (by assumption) x
        simp only [] at h2
        omega
      · simp only [cover_cons] at h2 ⊢
        omega
    · split
      · exact fun r hr => h.held_grain r (List.mem_of_mem_erase hr)
      · exact aligned_cons.mpr ⟨⟨(h.held_grain _ hm).1, hkeepd⟩,
          fun r hr => h.held_grain r (List.mem_of_mem_erase hr)⟩
    · split
      · exact fun r hr => h.held_pos r (List.mem_of_mem_erase hr)
      · intro r hr
        rcases List.mem_cons.mp hr with rfl | hr
        · simp only []; omega
        · exact h.held_pos r (List.mem_of_mem_erase hr)

/-- A trim to a larger size is refused. -/
theorem PoolRun.step_trim_larger {s : PoolRun} {off oldsize newsize : Nat}
    (h : roundgrain oldsize < roundgrain newsize) : s.step (.trim off oldsize newsize) = s := by
  simp only [PoolRun.step, swapramPoolTrim, heldAfterTrim, if_pos h]

theorem PoolReach.inv {s : PoolRun} (h : PoolReach s) : PoolInv s := by
  induction h with
  | init hs hn => exact PoolInv.init hs hn
  | step op _ hl ih =>
    cases op with
    | init size nseg => exact PoolInv.init hl.1 hl.2
    | alloc size => exact ih.alloc size
    | free off size => exact (ih.free hl.2.1 fun hn => Nat.ne_of_lt (hl.2.2 hn)).1
    | trim off oldsize newsize =>
      by_cases hle : roundgrain newsize ≤ roundgrain oldsize
      · exact (ih.trim hl.2.2.1 hle fun _ hn => Nat.ne_of_lt (hl.2.2.2 hn)).1
      · rw [PoolRun.step_trim_larger (Nat.not_le.mp hle)]
        exact ih

/-! ## What a run guarantees -/

theorem swapramPoolAlloc_unchanged {mp : SwapramPool} {size : Nat}
    (h : (swapramPoolAlloc mp size).1 = none) : (swapramPoolAlloc mp size).2 = mp := by
  simp only [swapramPoolAlloc] at h ⊢
  by_cases hguard : roundgrain size = 0 ∨ mp.p_size < roundgrain size
  · rw [if_pos hguard]
  · rw [if_neg hguard] at h ⊢
    cases hscan : allocScan (roundgrain size) mp.p_seg with
    | none => rfl
    | some r => rw [hscan] at h; cases h

end DiscoBSD.Swapram
