import DiscoBSD.Rmap.Run

/-!
# The swap map

The one resource map of the RP2040 kernel: `machdep.c` gives it `SMAPSIZ` compact descriptors,
`init_main` frees the swap device into it past the reserved first erase sector, and from then on whole
images are allocated by `malloc3_contiguous_next` and freed by `mfree`.

`SMAPSIZ` is sized by an argument: 27 live extents split the free space into at most 28 runs, and one
descriptor ends the table. **The count is over live extents, not over the table**, so the run lemma
is about the free list (`Gapped.length_le`), and the table has room because the list is short.
-/

set_option autoImplicit false

namespace DiscoBSD.Rmap

open DiscoBSD.Lib

/-- `SMAPSIZ`, the descriptors of the swap map. -/
def smapsiz : Nat := 29

/-- The extents `SMAPSIZ` was sized for: 23 swapped processes, three temporary devices and one exec
    spool, or 24 processes during an evacuation and the temporary devices. -/
def smapExtents : Nat := 27

/-- `SWAP_IMAGE_ALIGN`, one erase sector in `DEV_BSIZE` blocks. -/
def swapImageAlign : Nat := 4

/-- The devices `swapdev` can name: the raw flash unit of every RP2040 configuration, or the PSRAM
    that replaces it when the probe finds one. -/
inductive SwapDev where
  | fl1
  | psram
  deriving DecidableEq, Repr

/-- `d_psize`: `flsize` of the raw partition, `psramsize`. -/
def SwapDev.psize : SwapDev → Nat
  | .fl1 => (384 * 1024 / 512) >>> 1
  | .psram => 8 * 1024 * 1024 / 1024

/-- `struct map swapmap[1]` before `init_main`, with the 16-bit descriptors of `COMPACT_SWAPMAP`. -/
def swapmap : Map := Map.zeroed "swapmap" 16 smapsiz

/-- What `init_main` does to the swap map. -/
def initSwapmap (dev : SwapDev) : Except Fault (Option Lost × Map) :=
  let nswap := dev.psize
  if nswap ≤ swapImageAlign then .error (.panic "swap size")
  else mfree swapmap (nswap - swapImageAlign) swapImageAlign

/-- Runs of the swap map: whole images allocated at any cursor and freed in any order, with no more
    of them live at once than the table was sized for. A free that overflows is not excluded. -/
inductive SwapReach (dev : SwapDev) : MapRun → Prop
  | init {lost : Option Lost} {mp : Map} : initSwapmap dev = .ok (lost, mp) → SwapReach dev ⟨mp, []⟩
  | alloc {s s' : MapRun} {lost : Option Lost} (d_size s_size u_size next : Nat) : SwapReach dev s →
      s.step (.contiguousNext d_size s_size u_size swapImageAlign next) = .ok (lost, s') →
      s'.live.length ≤ smapExtents → SwapReach dev s'
  | free {s s' : MapRun} {lost : Option Lost} (r : Extent) : SwapReach dev s → r ∈ s.live →
      s.step (.mfree r r.size r.off) = .ok (lost, s') → SwapReach dev s'

/-- The swap map's own invariant: the map's, with everything a multiple of the alignment and no more
    live extents than the table was sized for. -/
structure SwapInv (dev : SwapDev) (s : MapRun) (free : List Extent) : Prop where
  inv : MapInv 16 smapsiz swapImageAlign (dev.psize - swapImageAlign) s free
  free_aligned : Aligned swapImageAlign free
  live_aligned : Aligned swapImageAlign s.live
  live_le : s.live.length ≤ smapExtents

theorem carve_whole (r : Extent) (es : List Extent) : carve r r.off r.size es = es := by
  unfold carve
  rw [if_neg (Nat.lt_irrefl _), if_neg (Nat.lt_irrefl _), List.nil_append, List.nil_append]

theorem psize_space (dev : SwapDev) : Space 16 swapImageAlign (dev.psize - swapImageAlign) := by
  cases dev <;> exact ⟨.inl rfl, by decide, by decide, by decide⟩

theorem psize_aligned (dev : SwapDev) :
    Aligned swapImageAlign [⟨swapImageAlign, dev.psize - swapImageAlign⟩] := by
  cases dev <;> unfold Aligned <;> decide

theorem not_badAlign_swapImageAlign : ¬badAlign swapImageAlign := by decide

theorem SwapInv.init {dev : SwapDev} {lost : Option Lost} {mp : Map}
    (h : initSwapmap dev = .ok (lost, mp)) : ∃ free, SwapInv dev ⟨mp, []⟩ free := by
  have hbig : ¬dev.psize ≤ swapImageAlign := by cases dev <;> decide
  rw [initSwapmap] at h
  simp only [if_neg hbig] at h
  have hlost : lost = none := by
    cases dev <;> exact (congrArg Prod.fst (Except.ok.inj h)).symm
  subst hlost
  exact ⟨_, MapInv.init (psize_space dev) h, psize_aligned dev, Aligned.nil _, Nat.zero_le _⟩

theorem SwapInv.alloc {dev : SwapDev} {s s' : MapRun} {free : List Extent} {lost : Option Lost}
    {d_size s_size u_size next : Nat} (h : SwapInv dev s free)
    (hstep : s.step (.contiguousNext d_size s_size u_size swapImageAlign next) = .ok (lost, s'))
    (hle : s'.live.length ≤ smapExtents) : ∃ free', SwapInv dev s' free' := by
  obtain ⟨⟨span, next', a, mp'⟩, hcall, heq⟩ := exists_of_map_eq_ok hstep
  cases heq
  rcases h.inv.contiguousNext hcall with ⟨h0, hmp⟩ | ⟨hne, _, ha, hr, free', hinv, hal⟩
  · simp only [if_pos h0, hmp] at hle ⊢
    exact ⟨free, h⟩
  · simp only [if_neg hne] at hle ⊢
    exact ⟨free', hinv, hal h.free_aligned, aligned_cons.mpr ⟨⟨ha, hr⟩, h.live_aligned⟩, hle⟩

/-- **A whole-extent free never finds the table full.** Were it to, the free list it would have made
    is one longer than the table's, against at most one more run than there are live extents. -/
theorem SwapInv.mfree {dev : SwapDev} {s : MapRun} {free : List Extent} {r : Extent}
    (h : SwapInv dev s free) (hr : r ∈ s.live) :
    ∃ mp' free', Rmap.mfree s.mp r.size r.off = .ok (none, mp') ∧
      SwapInv dev ⟨mp', s.live.erase r⟩ free' := by
  have hlen := List.length_erase_of_mem hr
  have hle := h.live_le
  rcases h.inv.mfree ⟨hr, Nat.le_refl _, Nat.le_refl _⟩ with
    ⟨mp', free', hcall, hinv, hal⟩ | ⟨_, _, hfull, hrel, hg, ht⟩
  · rw [carve_whole] at hinv
    obtain ⟨hoff, hsize⟩ := h.live_aligned r hr
    exact ⟨mp', free', hcall, hinv, hal _ hoff hsize h.free_aligned,
      fun t ht => h.live_aligned t (List.mem_of_mem_erase ht), by simp only []; omega⟩
  · rw [carve_whole] at ht
    have hcount := hg.length_le ht
    have hpos := List.length_pos_of_mem hr
    rw [hrel, hlen, ← hfull] at hcount
    unfold smapExtents at hle
    unfold smapsiz at hcount
    omega

theorem SwapReach.inv {dev : SwapDev} {s : MapRun} (h : SwapReach dev s) :
    ∃ free, SwapInv dev s free := by
  induction h with
  | init hcall => exact SwapInv.init hcall
  | alloc d_size s_size u_size next _ hstep hle ih =>
    obtain ⟨free, hinv⟩ := ih
    exact hinv.alloc hstep hle
  | free r _ hr hstep ih =>
    obtain ⟨free, hinv⟩ := ih
    obtain ⟨mp', free', hcall, hinv'⟩ := hinv.mfree hr
    obtain ⟨p, hp, heq⟩ := exists_of_map_eq_ok hstep
    cases hcall.symm.trans hp
    cases heq
    rw [carve_whole]
    exact ⟨free', hinv'⟩

/-- **The swap map is large enough, over every run.** Freeing any live image takes it back without
    reaching the overflow branch, nothing of the device is lost, every free run is a whole number
    of erase sectors at a sector boundary, and the allocator never panics. -/
theorem swapmap_never_overflows {dev : SwapDev} {s : MapRun} (h : SwapReach dev s) :
    (∀ r ∈ s.live, ∃ mp', mfree s.mp r.size r.off = .ok (none, mp')) ∧
    (∃ free stale, s.mp.m_map = free ++ ⟨0, 0⟩ :: stale ∧
      Tiles swapImageAlign dev.psize (free ++ s.live) ∧
      ∀ e ∈ free, 0 < e.size ∧ swapImageAlign ∣ e.off ∧ swapImageAlign ∣ e.size) ∧
    (∀ d_size s_size u_size next a, ∃ r,
      malloc3ContiguousNext s.mp d_size s_size u_size swapImageAlign (some next) a = .ok r) := by
  obtain ⟨free, hinv⟩ := h.inv
  have hend : swapImageAlign + (dev.psize - swapImageAlign) = dev.psize := by cases dev <;> rfl
  refine ⟨fun r hr => ?_, ?_, fun d_size s_size u_size next a => ?_⟩
  · obtain ⟨mp', _, hcall, _⟩ := hinv.mfree hr
    exact ⟨mp', hcall⟩
  · obtain ⟨stale, hm, _⟩ := hinv.inv.holds
    refine ⟨free, stale, hm, hend ▸ hinv.inv.tiles, fun e he => ?_⟩
    exact ⟨hinv.inv.runs.size_pos e he, hinv.free_aligned e he⟩
  · have hruns := hinv.inv.runs
    rw [← hinv.inv.width] at hruns
    exact malloc3ContiguousNext_ok d_size s_size u_size next a hinv.inv.holds hruns
      (by rw [hinv.inv.width]; decide) not_badAlign_swapImageAlign hinv.free_aligned

/-- An image placed in the middle of the flash device can be freed. -/
theorem swapmap_never_overflows_image :
    ∃ s, SwapReach .fl1 s ∧ s.live = [⟨100, 12⟩] ∧
      ∃ mp', mfree s.mp 12 100 = .ok (none, mp') := by
  have h0 : SwapReach .fl1 ⟨⟨⟨4, 380⟩ :: List.replicate 28 ⟨0, 0⟩, "swapmap", 16⟩, []⟩ :=
    .init rfl
  have h1 := SwapReach.alloc 5 4 3 98 h0 rfl (by decide)
  exact ⟨_, h1, rfl, (swapmap_never_overflows h1).1 ⟨100, 12⟩ (by decide)⟩

end DiscoBSD.Rmap
