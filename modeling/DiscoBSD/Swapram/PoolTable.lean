import DiscoBSD.Swapram.PoolInv

/-!
# The calls in one state, and how large the table has to be

The runs of the pool assume a spare slot where a free needs one. The callers do not check: they make
the call and panic when it is refused. So the invariant is kept by **a call that returned success**,
and whether it does is a question of counting. Free segments lie between held ranges, so a table of
`n` slots takes back any of `n` held ranges, and gives back the tail of any of fewer than `n`.
-/

set_option autoImplicit false

namespace DiscoBSD.Swapram

open DiscoBSD.Lib

/-- The order of the held ranges does not matter. -/
theorem PoolInv.perm {mp : SwapramPool} {held held' : List Extent} (h : PoolInv ⟨mp, held⟩)
    (hp : held.Perm held') : PoolInv ⟨mp, held'⟩ := by
  refine ⟨h.gapped, h.size_lt, h.grain, fun x => ?_, fun r hr => h.held_grain r (hp.mem_iff.mpr hr),
    fun r hr => h.held_pos r (hp.mem_iff.mpr hr)⟩
  rw [← h.tiles x]
  exact (cover_perm (hp.append_left mp.p_seg) x).symm

/-- The pool and the size of its table stay what they are. -/
structure SameTable (mp mp' : SwapramPool) : Prop where
  size : mp'.p_size = mp.p_size
  nseg : mp'.p_nseg = mp.p_nseg

theorem SameTable.refl (mp : SwapramPool) : SameTable mp mp := ⟨rfl, rfl⟩

theorem SameTable.trans {mp mp₁ mp₂ : SwapramPool} (h : SameTable mp mp₁) (h' : SameTable mp₁ mp₂) :
    SameTable mp mp₂ := ⟨h'.size.trans h.size, h'.nseg.trans h.nseg⟩

section
variable {mp mp' : SwapramPool} {held : List Extent} {off size : Nat}

/-! ## Calls that succeed -/

theorem PoolInv.allocated (h : PoolInv ⟨mp, held⟩) (hcall : swapramPoolAlloc mp size = (some off, mp')) :
    PoolInv ⟨mp', ⟨off, roundgrain size⟩ :: held⟩ ∧ SameTable mp mp' := by
  have hinv := h.alloc size
  simp only [PoolRun.step, hcall] at hinv
  refine ⟨hinv, ?_⟩
  simp only [swapramPoolAlloc] at hcall
  split at hcall
  · cases hcall
  · split at hcall
    · cases hcall
    · cases hcall
      exact ⟨rfl, rfl⟩

/-- A refusal for want of a slot. -/
theorem swapramPoolFree_full (h : PoolWF mp) (hlt : off + roundgrain size < 2 ^ 32)
    (hn : NeedsSlot mp off (roundgrain size)) (hfull : mp.p_seg.length = mp.p_nseg) :
    (swapramPoolFree mp off size).1 = false := by
  have hgrow : ∀ lo, (growAbove mp off (roundgrain size) lo (segAbove mp off)).1 = false := by
    intro lo
    unfold growAbove
    split
    · simp only [newSlot, if_pos hfull]
    · rename_i t rest ht
      have hmem : t ∈ mp.p_seg := by
        rw [← segBelow_append mp off, ht]
        simp
      rw [wrap_of_lt hlt, if_neg (hn.2 t hmem)]
      simp only [newSlot, if_pos hfull]
  simp only [swapramPoolFree]
  split
  · rfl
  split
  · rfl
  split
  · rfl
  split
  · rename_i s hs
    have hmem : s ∈ mp.p_seg := by
      rw [← segBelow_append mp off]
      exact List.mem_append_left _ (List.mem_of_getLast? hs)
    rw [if_neg (by rw [h.segEnd_eq hmem]; exact hn.1 s hmem)]
    exact hgrow _
  · exact hgrow _

theorem PoolInv.freed (h : PoolInv ⟨mp, held⟩) (hm : ⟨off, roundgrain size⟩ ∈ held)
    (hcall : swapramPoolFree mp off size = (true, mp')) :
    PoolInv ⟨mp', held.erase ⟨off, roundgrain size⟩⟩ ∧ SameTable mp mp' := by
  have hin := h.tiles.inside (List.mem_append_right mp.p_seg hm) (h.held_pos _ hm)
  have hlt := h.size_lt
  simp only [] at hin hlt
  obtain ⟨hinv, _, hsize, hnseg⟩ := h.free hm fun hn hfull => by
    have hfalse := swapramPoolFree_full h.wf (by omega) hn hfull
    rw [hcall] at hfalse
    cases hfalse
  simp only [PoolRun.step, hcall] at hinv hsize hnseg
  exact ⟨hinv, hsize, hnseg⟩

theorem PoolInv.trimmed {newsize : Nat} (h : PoolInv ⟨mp, held⟩)
    (hm : ⟨off, roundgrain size⟩ ∈ held) (hpos : roundgrain newsize ≠ 0)
    (hcall : swapramPoolTrim mp off size newsize = (true, mp')) :
    roundgrain newsize ≤ roundgrain size ∧
      PoolInv ⟨mp', ⟨off, roundgrain newsize⟩ :: held.erase ⟨off, roundgrain size⟩⟩ ∧
      SameTable mp mp' := by
  have hin := h.tiles.inside (List.mem_append_right mp.p_seg hm) (h.held_pos _ hm)
  have hlt := h.size_lt
  have hhad := dvd_roundgrain size
  have hkeep := dvd_roundgrain newsize
  simp only [] at hin hlt
  have hle : roundgrain newsize ≤ roundgrain size := by
    by_contra hgt
    rw [swapramPoolTrim, if_pos (Nat.not_le.mp hgt)] at hcall
    cases hcall
  obtain ⟨hinv, _, hsize, hnseg⟩ := h.trim hm hle fun heq hn hfull => by
    have hround : roundgrain (roundgrain size - roundgrain newsize) =
        roundgrain size - roundgrain newsize :=
      roundgrain_of_mod (Nat.mod_eq_zero_of_dvd (Nat.dvd_sub hhad hkeep)) (by omega)
    have hend : off + roundgrain newsize + roundgrain (roundgrain size - roundgrain newsize) <
        2 ^ 32 := by
      rw [hround]
      omega
    simp only [swapramPoolTrim] at hcall
    rw [if_neg (Nat.not_lt.mpr hle), if_neg heq, wrap_of_lt (by omega)] at hcall
    have hfalse := swapramPoolFree_full h.wf hend (by rw [hround]; exact hn) hfull
    rw [hcall] at hfalse
    cases hfalse
  simp only [PoolRun.step, hcall, heldAfterTrim, if_neg (Nat.not_lt.mpr hle), if_neg hpos] at hinv
  simp only [hcall] at hsize hnseg
  exact ⟨hle, hinv, hsize, hnseg⟩

/-! ## How many ranges a table serves -/

/-- Giving back `r` in its own slot makes the list one longer, and one longer is at most one more than
    the ranges that are then held. -/
theorem PoolInv.length_lt {r : Extent} (h : PoolInv ⟨mp, held⟩) (rest : List Extent)
    (hpos : 0 < r.size) (hc : ∀ x, cover held x = cover rest x + r.ind x)
    (hn : NeedsSlot mp r.off r.size) : mp.p_seg.length ≤ rest.length := by
  have ht : Tiles 0 mp.p_size (mp.p_seg ++ (r :: rest)) := by
    intro x
    have h1 := h.tiles x
    have h2 := hc x
    simp only [cover_append, cover_cons] at h1 ⊢
    omega
  have hgap : Gapped mp.p_seg := h.gapped
  obtain ⟨hg, hrel⟩ := release_spec hgap (Nat.zero_le _) hpos (ht.apart (by simp))
  have htiles : Tiles 0 mp.p_size (Lib.release r mp.p_seg ++ rest) := by
    intro x
    have h1 := ht x
    have h2 := hrel x
    simp only [cover_append, cover_cons] at h1 ⊢
    omega
  have hlen := Gapped.length_le hg htiles
  rw [release_length_apart hn.1 hn.2] at hlen
  omega

/-- **A table of `n` slots takes back any of `n` ranges.** -/
theorem PoolInv.frees (h : PoolInv ⟨mp, held⟩) (hm : ⟨off, roundgrain size⟩ ∈ held)
    (hroom : held.length ≤ mp.p_nseg) : (swapramPoolFree mp off size).1 = true := by
  refine (h.free hm fun hn hfull => ?_).2.1
  have hlen := h.length_lt (held.erase ⟨off, roundgrain size⟩) (h.held_pos _ hm)
    (fun x => by have := cover_erase hm x; omega) hn
  have hpos := List.length_pos_of_mem hm
  rw [List.length_erase_of_mem hm] at hlen
  simp only [] at hfull
  omega

/-- **And it takes back the tail of any of fewer.** -/
theorem PoolInv.trims {newsize : Nat} (h : PoolInv ⟨mp, held⟩) (hm : ⟨off, roundgrain size⟩ ∈ held)
    (hle : roundgrain newsize ≤ roundgrain size) (hroom : held.length < mp.p_nseg) :
    (swapramPoolTrim mp off size newsize).1 = true := by
  refine (h.trim hm hle fun heq hn hfull => ?_).2.1
  have hlen := h.length_lt (r := ⟨off + roundgrain newsize, roundgrain size - roundgrain newsize⟩)
    (⟨off, roundgrain newsize⟩ :: held.erase ⟨off, roundgrain size⟩)
    (by simp only []; omega) (fun x => ?_) hn
  · have hpos := List.length_pos_of_mem hm
    rw [List.length_cons, List.length_erase_of_mem hm] at hlen
    simp only [] at hfull
    omega
  · have h1 := cover_erase hm x
    have h2 := Extent.ind_split (e := ⟨off, roundgrain size⟩) (n := roundgrain newsize) hle x
    simp only [cover_cons] at h1 h2 ⊢
    omega

end

end DiscoBSD.Swapram
