import DiscoBSD.Swapram.PoolInv

/-!
# What a release checks

`swapram_pool_free` on any two words. **The range is checked where its end stays within the type**: an end that wraps
to the bottom of the pool passes the bounds check, and from then on only a free segment that reaches past `off`, or a full
segment table, refuses it.
-/

set_option autoImplicit false

namespace DiscoBSD.Swapram

open DiscoBSD.Lib

/-- As integers: the range is empty, misaligned, not wholly inside the pool, or partly free. -/
def Misfit (mp : SwapramPool) (off size : Nat) : Prop :=
  grainCeil size = 0 ∨ off % swapramGrain ≠ 0 ∨ mp.p_size < off + grainCeil size ∨
    ∃ s ∈ mp.p_seg, s.off < off + grainCeil size ∧ off < s.off + s.size

/-- The call refuses a misfit and leaves the pool as it was, and it adds any other range if there is a slot. -/
structure Validates (mp : SwapramPool) (off size : Nat) : Prop where
  refuses : Misfit mp off size → swapramPoolFree mp off size = (false, mp)
  accepts : ¬Misfit mp off size → mp.p_seg.length < mp.p_nseg →
    (swapramPoolFree mp off size).1 = true ∧ PoolWF (swapramPoolFree mp off size).2 ∧
      (swapramPoolFree mp off size).2.p_size = mp.p_size ∧ (swapramPoolFree mp off size).2.p_nseg = mp.p_nseg ∧
      ∀ x, cover (swapramPoolFree mp off size).2.p_seg x = (Extent.mk off (grainCeil size)).ind x + cover mp.p_seg x

/-- The end of the range wraps to an address in the pool, nothing free reaches past its start, and there is a slot, or a
free segment below to grow. -/
def Wraps (mp : SwapramPool) (off size : Nat) : Prop :=
  2 ^ 32 ≤ off + roundgrain size ∧ off % swapramGrain = 0 ∧ off + roundgrain size - 2 ^ 32 ≤ mp.p_size ∧
    (∀ s ∈ mp.p_seg, s.off < off → s.off + s.size ≤ off) ∧
    (mp.p_seg.length ≠ mp.p_nseg ∨ ∃ s ∈ mp.p_seg, s.off + s.size = off)

section

variable {mp : SwapramPool} {off size : Nat}

/-! ## The segments next to the range -/

/-- Of the segments below the range, the last one reaches furthest. -/
theorem PoolWF.le_last (h : PoolWF mp) {s e : Extent} (hs : s ∈ segBelow mp off) (he : (segBelow mp off).getLast? = some e) :
    s.off + s.size ≤ e.off + e.size := by
  obtain ⟨lo, hcat⟩ := List.getLast?_eq_some_iff.mp he
  rw [hcat] at hs
  rcases List.mem_append.mp hs with hlo | hlast
  · have hp := (gapped_iff.mp h.gapped).1
    rw [← segBelow_append mp off, hcat, List.append_assoc, List.pairwise_append] at hp
    have := hp.2.2 s hlo e (by simp)
    omega
  · rw [List.mem_singleton.mp hlast]

/-- Of the segments above, the first one is the nearest. -/
theorem PoolWF.head_le (h : PoolWF mp) {s t : Extent} (hs : s ∈ segAbove mp off) (ht : (segAbove mp off).head? = some t) :
    t.off ≤ s.off := by
  obtain ⟨rest, hcat⟩ := List.head?_eq_some_iff.mp ht
  rw [hcat] at hs
  rcases List.mem_cons.mp hs with hhead | hrest
  · rw [hhead]
  · have hp := (gapped_iff.mp h.gapped).1
    rw [← segBelow_append mp off, hcat, List.pairwise_append] at hp
    have := (List.pairwise_cons.mp hp.2.1).1 s hrest
    omega

theorem mem_of_last {e : Extent} (he : (segBelow mp off).getLast? = some e) : e ∈ mp.p_seg ∧ e.off < off := by
  have hmem := List.mem_of_getLast? he
  refine ⟨?_, segBelow_lt hmem⟩
  rw [← segBelow_append mp off]
  exact List.mem_append_left _ hmem

theorem mem_of_head {t : Extent} (ht : (segAbove mp off).head? = some t) : t ∈ mp.p_seg ∧ off ≤ t.off := by
  obtain ⟨rest, hcat⟩ := List.head?_eq_some_iff.mp ht
  refine ⟨?_, segAbove_head hcat⟩
  rw [← segBelow_append mp off, hcat]
  exact List.mem_append_right _ List.mem_cons_self

/-! ## Refusals -/

theorem swapramPoolFree_guard (h : roundgrain size = 0 ∨ off % swapramGrain ≠ 0 ∨ mp.p_size < wrap 32 (off + roundgrain size)) :
    swapramPoolFree mp off size = (false, mp) := by
  unfold swapramPoolFree
  dsimp only
  rw [if_pos h]

/-- A free segment that overlaps the range refuses it. -/
theorem swapramPoolFree_overlap (h : PoolWF mp) (hlt : off + roundgrain size < 2 ^ 32) {s : Extent} (hs : s ∈ mp.p_seg)
    (hlow : s.off < off + roundgrain size) (hhigh : off < s.off + s.size) : swapramPoolFree mp off size = (false, mp) := by
  unfold swapramPoolFree
  dsimp only
  rw [wrap_of_lt hlt]
  split
  · rfl
  split
  · rfl
  rename_i hguard hlast
  split
  · rfl
  rename_i hhead
  exfalso
  rw [← segBelow_append mp off] at hs
  rcases List.mem_append.mp hs with hbelow | habove
  · have he := List.getLast?_eq_some_getLast (List.ne_nil_of_mem hbelow)
    have hle := h.le_last hbelow he
    rw [he, Option.any_some, decide_eq_true_eq, h.segEnd_eq (mem_of_last he).1] at hlast
    omega
  · have ht := List.head?_eq_some_head (List.ne_nil_of_mem habove)
    have hle := h.head_le habove ht
    rw [ht, Option.any_some, decide_eq_true_eq] at hhead
    omega

/-! ## Ends within the type -/

theorem apart_of_not_overlap {want : Nat} (h : ¬∃ s ∈ mp.p_seg, s.off < off + want ∧ off < s.off + s.size) :
    Apart ⟨off, want⟩ mp.p_seg := by
  intro x hlow hhigh
  by_contra hne
  obtain ⟨s, hs, hsx⟩ := exists_of_cover_pos (Nat.pos_of_ne_zero hne)
  exact h ⟨s, hs, by dsimp only at hlow hhigh; omega⟩

/-- What has been released lies in the pool, as what was free before does. -/
theorem PoolWF.released (h : PoolWF mp) {want : Nat} (hpos : 0 < want) (hin : off + want ≤ mp.p_size)
    (ha : Apart ⟨off, want⟩ mp.p_seg) : PoolWF { mp with p_seg := release ⟨off, want⟩ mp.p_seg } := by
  obtain ⟨hgapped, hcover⟩ := release_spec (r := ⟨off, want⟩) h.gapped (Nat.zero_le _) hpos ha
  refine ⟨hgapped, h.size_lt, fun s hs => ?_⟩
  have hsize := (gapped_iff.mp hgapped).2 s hs
  have hle := ind_le_cover hs (s.off + s.size - 1)
  rw [Extent.ind_eq_one (by omega) (by omega), hcover] at hle
  by_cases hr : s.off + s.size - 1 < off + want
  · dsimp only
    omega
  · rw [Extent.ind_eq_zero_of_ge (by dsimp only; omega), Nat.zero_add] at hle
    obtain ⟨t, ht, htx⟩ := exists_of_cover_pos hle
    have := h.inside t ht
    dsimp only
    omega

/-- A size whose rounding leaves the type fits no pool. -/
theorem Misfit.of_large (h : PoolWF mp) (hlarge : 2 ^ 32 ≤ size + 3) : Misfit mp off size := by
  have hsize := h.size_lt
  refine .inr (.inr (.inl ?_))
  unfold grainCeil roundUp swapramGrain
  omega

theorem validates_of_lt (h : PoolWF mp) (hsize : size < 2 ^ 32) (hlt : off + roundgrain size < 2 ^ 32) :
    Validates mp off size := by
  by_cases hlarge : 2 ^ 32 ≤ size + 3
  · exact ⟨fun _ => swapramPoolFree_guard (.inl (roundgrain_eq_zero hlarge hsize)),
      fun hfit => absurd (Misfit.of_large h hlarge) hfit⟩
  · have hround : roundgrain size = grainCeil size := roundgrain_eq (by omega)
    constructor
    · rintro (hzero | halign | hend | ⟨s, hs, hlow, hhigh⟩)
      · exact swapramPoolFree_guard (.inl (hround.trans hzero))
      · exact swapramPoolFree_guard (.inr (.inl halign))
      · refine swapramPoolFree_guard (.inr (.inr ?_))
        rwa [wrap_of_lt hlt, hround]
      · exact swapramPoolFree_overlap h hlt hs (hround ▸ hlow) hhigh
    · intro hfit hslot
      have hzero : grainCeil size ≠ 0 := fun hz => hfit (.inl hz)
      have halign : off % 4 = 0 := by
        by_contra ha
        exact hfit (.inr (.inl ha))
      have hin : off + grainCeil size ≤ mp.p_size := by
        by_contra hgt
        exact hfit (.inr (.inr (.inl (by omega))))
      have hapart : Apart ⟨off, grainCeil size⟩ mp.p_seg := apart_of_not_overlap fun hover => hfit (.inr (.inr (.inr hover)))
      have hrun := swapramPoolFree_eq h (hround ▸ hzero) halign (hround ▸ hin) (hround ▸ hapart) fun _ => Nat.ne_of_lt hslot
      rw [hround] at hrun
      rw [hrun]
      exact ⟨rfl, h.released (Nat.pos_of_ne_zero hzero) hin hapart, rfl, rfl,
        (release_spec h.gapped (Nat.zero_le _) (Nat.pos_of_ne_zero hzero) hapart).2⟩

/-! ## Ends that wrap -/

/-- With an end at the bottom of the pool no segment above touches the range. -/
theorem growAbove_wrapped {lo : List Extent} {want : Nat} (hwrap : wrap 32 (off + want) < off) :
    growAbove mp off want lo (segAbove mp off) = newSlot mp off want lo (segAbove mp off) := by
  unfold growAbove
  cases ht : segAbove mp off with
  | nil => rfl
  | cons t rest =>
    have hle := segAbove_head ht
    dsimp only
    rw [if_neg (by omega)]

theorem newSlot_wrapped {lo hi : List Extent} {want : Nat} (halign : off % swapramGrain = 0)
    (hge : 2 ^ 32 ≤ off + roundgrain size) (hend : off + roundgrain size - 2 ^ 32 ≤ mp.p_size)
    (hbelow : ∀ s ∈ mp.p_seg, s.off < off → s.off + s.size < off) (habove : ∀ s ∈ mp.p_seg, off ≤ s.off → off < s.off + s.size) :
    (Wraps mp off size → (newSlot mp off want lo hi).1 = true) ∧ (¬Wraps mp off size → newSlot mp off want lo hi = (false, mp)) := by
  unfold newSlot
  by_cases hfull : mp.p_seg.length = mp.p_nseg
  · rw [if_pos hfull]
    refine ⟨?_, fun _ => rfl⟩
    rintro ⟨-, -, -, -, hslot⟩
    rcases hslot with hslot | ⟨s, hs, htouch⟩
    · exact absurd hfull hslot
    · rcases Nat.lt_or_ge s.off off with hlt | hle
      · have := hbelow s hs hlt
        omega
      · have := habove s hs hle
        omega
  · rw [if_neg hfull]
    exact ⟨fun _ => rfl, fun hw => absurd ⟨hge, halign, hend, fun s hs hlt => Nat.le_of_lt (hbelow s hs hlt), .inl hfull⟩ hw⟩

theorem swapramPoolFree_wrapped (h : PoolWF mp) (hoff : off < 2 ^ 32) (hge : 2 ^ 32 ≤ off + roundgrain size) :
    (Wraps mp off size → (swapramPoolFree mp off size).1 = true) ∧
      (¬Wraps mp off size → swapramPoolFree mp off size = (false, mp)) := by
  have hlt := roundgrain_lt size
  have hwrap : wrap 32 (off + roundgrain size) = off + roundgrain size - 2 ^ 32 := by
    unfold wrap
    omega
  by_cases hguard : off % swapramGrain ≠ 0 ∨ mp.p_size < off + roundgrain size - 2 ^ 32
  · refine ⟨fun hw => ?_, fun _ => swapramPoolFree_guard (.inr (by rwa [hwrap]))⟩
    obtain ⟨-, halign, hend, -, -⟩ := hw
    omega
  · have hguard' : ¬(roundgrain size = 0 ∨ off % swapramGrain ≠ 0 ∨ mp.p_size < wrap 32 (off + roundgrain size)) := by
      rw [hwrap]
      omega
    have hgrow : ∀ lo, growAbove mp off (roundgrain size) lo (segAbove mp off) =
        newSlot mp off (roundgrain size) lo (segAbove mp off) := fun lo => growAbove_wrapped (by omega)
    have hhead : ((segAbove mp off).head?.any fun s => decide (s.off < wrap 32 (off + roundgrain size))) = false := by
      cases ht : segAbove mp off with
      | nil => rfl
      | cons t rest =>
        have hle := segAbove_head ht
        simp only [List.head?_cons, Option.any_some, decide_eq_false_iff_not]
        omega
    unfold swapramPoolFree
    dsimp only
    rw [if_neg hguard', hhead]
    have halign : off % swapramGrain = 0 := by omega
    have hend : off + roundgrain size - 2 ^ 32 ≤ mp.p_size := by omega
    have hpos : ∀ s ∈ mp.p_seg, 0 < s.size := (gapped_iff.mp h.gapped).2
    have habove : ∀ s ∈ mp.p_seg, off ≤ s.off → off < s.off + s.size := fun s hs hle => by
      have := hpos s hs
      omega
    have hmem : ∀ s ∈ mp.p_seg, s.off < off → s ∈ segBelow mp off := by
      intro s hs hlt'
      rw [← segBelow_append mp off] at hs
      rcases List.mem_append.mp hs with hb | ha
      · exact hb
      · have ht := List.head?_eq_some_head (List.ne_nil_of_mem ha)
        have := h.head_le ha ht
        have := (mem_of_head ht).2
        omega
    cases he : (segBelow mp off).getLast? with
    | none =>
      have hnil : segBelow mp off = [] := List.getLast?_eq_none_iff.mp he
      rw [Option.any_none, if_neg Bool.false_ne_true, if_neg Bool.false_ne_true]
      dsimp only
      rw [hgrow]
      refine newSlot_wrapped halign hge hend (fun s hs hlt' => ?_) habove
      have := hmem s hs hlt'
      rw [hnil] at this
      exact absurd this List.not_mem_nil
    | some e =>
      obtain ⟨hes, helt⟩ := mem_of_last he
      rw [Option.any_some, h.segEnd_eq hes]
      by_cases hover : off < e.off + e.size
      · rw [if_pos (decide_eq_true hover)]
        refine ⟨?_, fun _ => rfl⟩
        rintro ⟨-, -, -, hclear, -⟩
        have := hclear e hes helt
        omega
      · rw [if_neg (by rwa [decide_eq_true_eq]), if_neg Bool.false_ne_true]
        dsimp only
        rw [h.segEnd_eq hes]
        have hlast : ∀ s ∈ mp.p_seg, s.off < off → s.off + s.size ≤ e.off + e.size := fun s hs hlt' =>
          h.le_last (hmem s hs hlt') he
        by_cases htouch : e.off + e.size = off
        · rw [if_pos htouch]
          refine ⟨fun _ => rfl, fun hw => absurd ⟨hge, halign, hend, fun s hs hlt' => ?_, .inr ⟨e, hes, htouch⟩⟩ hw⟩
          exact htouch ▸ hlast s hs hlt'
        · rw [if_neg htouch, hgrow]
          refine newSlot_wrapped halign hge hend (fun s hs hlt' => ?_) habove
          have := hlast s hs hlt'
          omega

/-! ## When the argument is checked -/

/-- **`swapram_pool_free` validates its argument, unless the end of the range wraps.** -/
theorem swapramPoolFree_validates (h : PoolWF mp) (hoff : off < 2 ^ 32) (hsize : size < 2 ^ 32) :
    Validates mp off size ↔ ¬Wraps mp off size := by
  by_cases hlt : off + roundgrain size < 2 ^ 32
  · exact iff_of_true (validates_of_lt h hsize hlt) fun hw => absurd hw.1 (by omega)
  · have hge : 2 ^ 32 ≤ off + roundgrain size := Nat.le_of_not_lt hlt
    have hround : roundgrain size = grainCeil size := by
      by_contra hne
      have hlarge : 2 ^ 32 ≤ size + 3 := by
        by_contra hsmall
        exact hne (roundgrain_eq (by omega))
      rw [roundgrain_eq_zero hlarge hsize] at hge
      omega
    have hmisfit : Misfit mp off size := by
      have := h.size_lt
      exact .inr (.inr (.inl (by omega)))
    obtain ⟨haccepts, hrefuses⟩ := swapramPoolFree_wrapped h hoff hge
    constructor
    · intro hvalid hw
      have hrun := haccepts hw
      rw [hvalid.refuses hmisfit] at hrun
      exact Bool.false_ne_true hrun
    · intro hw
      exact ⟨fun _ => hrefuses hw, fun hfit => absurd hmisfit hfit⟩

/-- Eight bytes from the last word of the address space on, given back to an allocated pool of sixteen. -/
theorem swapramPoolFree_validates_wrapped :
    Validates ⟨16, 2, []⟩ 0xFFFFFFFC 8 ↔ ¬Wraps ⟨16, 2, []⟩ 0xFFFFFFFC 8 :=
  swapramPoolFree_validates ⟨trivial, by decide, by simp⟩ (by decide) (by decide)

/-- They become free, though they are no part of the pool. -/
theorem swapramPoolFree_accepts_stray :
    Misfit ⟨16, 2, []⟩ 0xFFFFFFFC 8 ∧ swapramPoolFree ⟨16, 2, []⟩ 0xFFFFFFFC 8 = (true, ⟨16, 2, [⟨0xFFFFFFFC, 8⟩]⟩) ∧
      ¬Validates ⟨16, 2, []⟩ 0xFFFFFFFC 8 := by
  have hmisfit : Misfit ⟨16, 2, []⟩ 0xFFFFFFFC 8 := .inr (.inr (.inl (by decide)))
  have hrun : swapramPoolFree ⟨16, 2, []⟩ 0xFFFFFFFC 8 = (true, ⟨16, 2, [⟨0xFFFFFFFC, 8⟩]⟩) := by decide
  refine ⟨hmisfit, hrun, fun hvalid => ?_⟩
  rw [hvalid.refuses hmisfit] at hrun
  exact absurd hrun (by decide)

end

end DiscoBSD.Swapram
