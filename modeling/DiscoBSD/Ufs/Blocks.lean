import DiscoBSD.Ufs.Tree

/-!
# No block is lost

The free list and the trees of the files make up the data area between them, and stay so over every write,
failed or not, every truncation and every release, **but for one case**. A file of size zero can have
blocks: a write to a hole behind the direct blocks hangs in an indirect block, and then finds no block for
the data. `itrunc` to zero sees nothing to do for such a file, and with the last link the inode goes and
its blocks are in neither place.
-/

set_option autoImplicit false

namespace DiscoBSD.Ufs

open DiscoBSD.Lib

/-- The blocks of a file, if it is one. -/
def File.blocks (blk : Nat → Nat → Nat) (ip : File) : List Nat :=
  if ip.kind = none then [] else treeOf blk ip.i_addr

/-- The blocks of the files in the first `n` inodes. -/
def Files.used (s : Files) (n : Nat) : List Nat :=
  (List.range n).flatMap fun i => (s.file i).blocks s.vol.blk

/-- The stack and the blocks of the files are the data area. -/
structure Parted (n : Nat) (s : Files) (l : List Nat) : Prop where
  refines : Refines s.vol l
  nodup : (l ++ s.used n).Nodup
  area : ∀ b, b ∈ l ++ s.used n ↔ ¬s.vol.fs.badblock b
  size : ∀ i < n, 0 ≤ (s.file i).i_size

/-- A file without links is released for the last time only if it is a pipe, or of a size other than zero,
    or has no blocks. -/
def Files.Sound (s : Files) : Op → Prop
  | .release i => (s.file i).i_nlink = 0 → s.vol.fs.fs_ronly = false →
      (s.file i).pipe = true ∨ (s.file i).i_size ≠ 0 ∨ treeOf s.vol.blk (s.file i).i_addr = []
  | _ => True

/-- The states operations lead to that all meet `P`. -/
inductive FilesRun (P : Files → Op → Prop) (n : Nat) (s₀ : Files) : Files → Prop where
  | refl : FilesRun P n s₀ s₀
  | step {s : Files} {a : Op} (h : FilesRun P n s₀ s) (hl : s.Legal n a) (hp : P s a) : FilesRun P n s₀ (s.op a)

section

variable {n i : Nat} {s : Files} {l : List Nat}

theorem Files.used_pick (hi : i < n) : (s.used n).Perm ((s.file i).blocks s.vol.blk ++
    ((List.range n).erase i).flatMap fun j => (s.file j).blocks s.vol.blk) :=
  (List.perm_cons_erase (List.mem_range.mpr hi)).flatMap_right _

theorem Parted.owned (h : Parted n s l) : Owned s.vol l (s.used n) :=
  ⟨h.refines, h.nodup, fun b hb => (h.area b).mp (List.mem_append_right _ hb)⟩

theorem Parted.file (h : Parted n s l) (hi : i < n) : Owned s.vol l ((s.file i).blocks s.vol.blk) :=
  (h.owned.congr (Files.used_pick hi).symm).left

theorem blocks_frame {blk blk' : Nat → Nat → Nat} {ip : File} (h : ∀ b ∈ ip.blocks blk, blk' b = blk b) :
    ip.blocks blk' = ip.blocks blk := by
  unfold File.blocks at *
  split
  · rfl
  · next hk =>
    rw [if_neg hk] at h
    exact forest_frame h

/-- A call that moves blocks between the stack and the tree of its file. -/
theorem Parted.put (h : Parted n s l) (hi : i < n) {r : File × Volume} {l' : List Nat}
    (hm : Moves s.vol l ((s.file i).blocks s.vol.blk) r.2 l' (r.1.blocks r.2.blk)) (hs : 0 ≤ r.1.i_size) :
    Parted n (s.put i r) l' := by
  have hpick := h.owned.congr (Files.used_pick hi).symm
  have hused : ((s.put i r).used n).Perm (r.1.blocks r.2.blk ++
      ((List.range n).erase i).flatMap fun j => (s.file j).blocks s.vol.blk) := by
    refine (Files.used_pick hi).trans ?_
    have hothers : (((List.range n).erase i).flatMap fun j => ((s.put i r).file j).blocks (s.put i r).vol.blk) =
        ((List.range n).erase i).flatMap fun j => (s.file j).blocks s.vol.blk := by
      refine List.flatMap_congr fun j hj => ?_
      have hji : j ≠ i := (List.nodup_range.mem_erase_iff.mp hj).1
      simp only [Files.put, Function.update_of_ne hji]
      refine blocks_frame fun b hb => hm.same b (hpick.apart ?_)
      exact List.mem_flatMap.mpr ⟨j, hj, hb⟩
    rw [hothers]
    simp only [Files.put, Function.update_self]
    exact .refl _
  have hall := (hm.frame _).congr (Files.used_pick hi) hused
  have howned := h.owned.moves hall
  refine ⟨howned.refines, howned.nodup, fun b => ?_, fun j hj => ?_⟩
  · rw [hall.perm.mem_iff, h.area]
    simp only [Files.put, Fs.badblock, hm.isize, hm.fsize]
  · by_cases hji : j = i
    · subst hji
      simpa [Files.put] using hs
    · simpa [Files.put, hji] using h.size j hj

/-- A call that keeps a file. -/
theorem Parted.keeps (h : Parted n s l) (hi : i < n) (hk : (s.file i).kind ≠ none) {r : File × Volume}
    (hr : Owned s.vol l (treeOf s.vol.blk (s.file i).i_addr) → Keeps s.vol l (s.file i) r) :
    ∃ l', Parted n (s.put i r) l' := by
  have hfile := h.file hi
  rw [File.blocks, if_neg hk] at hfile
  have hkeep := hr hfile
  obtain ⟨l', hm⟩ := hkeep.moves
  refine ⟨l', h.put hi ?_ (hkeep.size (h.size i hi))⟩
  rw [File.blocks, if_neg hk, File.blocks, if_neg (by rw [hkeep.kind]; exact hk)]
  exact hm

/-- The truncation of a released file leaves nothing, unless it saw nothing to do. -/
theorem itrunc_zero {v : Volume} {ip : File} (hs : 0 ≤ ip.i_size)
    (hc : ip.pipe = true ∨ ip.i_size ≠ 0 ∨ treeOf v.blk ip.i_addr = []) :
    treeOf (itrunc false v ip 0).2.blk (itrunc false v ip 0).1.i_addr = [] := by
  unfold itrunc
  rw [if_neg (by omega)]
  split
  · next hno =>
    rcases hc with hp | hz | he
    · rw [hno.1] at hp
      cases hp
    · exact absurd hno.2 hz
    · exact he
  · dsimp only
    rw [if_neg, if_neg (by decide)]
    · exact shrink_zero _ _ _
    · split
      · exact (by decide : ¬maxpipsiz < 0)
      · omega

/-- A released file without links: its blocks are on the stack. -/
theorem Parted.release (h : Parted n s l) (hi : i < n) (hk : (s.file i).kind ≠ none)
    (hc : s.Sound (.release i)) :
    ∃ l', Parted n (s.op (.release i)) l' ∧ ((s.file i).i_nlink = 0 → s.vol.fs.fs_ronly = false →
      ∀ b ∈ treeOf s.vol.blk (s.file i).i_addr, b ∈ l') := by
  have hfile := h.file hi
  have hblocks : (s.file i).blocks s.vol.blk = treeOf s.vol.blk (s.file i).i_addr := if_neg hk
  rw [hblocks] at hfile
  by_cases hz : (s.file i).i_nlink = 0 ∧ s.vol.fs.fs_ronly = false
  · have hkeep := itrunc_keeps false 0 hfile
    obtain ⟨l', hm⟩ := hkeep.moves
    rw [itrunc_zero (h.size i hi) (hc hz.1 hz.2)] at hm
    refine ⟨l', ?_, fun _ _ b hb => ?_⟩
    · refine h.put (r := ireleLast s.vol (s.file i)) hi ?_ ?_
      · simp only [ireleLast, if_pos hz, hblocks]
        exact hm
      · simp only [ireleLast, if_pos hz]
        exact hkeep.size (h.size i hi)
    · have := hm.perm.mem_iff.mpr (List.mem_append_right l hb)
      simpa using this
  · refine ⟨l, ?_, fun h₁ h₂ => absurd ⟨h₁, h₂⟩ hz⟩
    refine h.put (r := ireleLast s.vol (s.file i)) hi ?_ ?_
    · simp only [ireleLast, if_neg hz]
      exact .refl h.refines _
    · simp only [ireleLast, if_neg hz]
      exact h.size i hi

/-- Every operation that meets the condition keeps the data area parted. -/
theorem Parted.op (h : Parted n s l) {a : Op} (hl : s.Legal n a) (hc : s.Sound a) :
    ∃ l', Parted n (s.op a) l' := by
  cases a with
  | create i kind nlink pipe =>
    obtain ⟨hi, hk⟩ := hl
    refine ⟨l, h.put hi ?_ (h.size i hi)⟩
    have hnone : treeOf s.vol.blk (fun _ => 0) = [] := forest_nil fun _ _ => rfl
    simp only [File.blocks, hk, if_true, reduceCtorEq, if_false, hnone]
    exact .refl h.refines _
  | write i w => exact h.keeps hl.1 hl.2 (rwip_keeps w)
  | truncate i length => exact h.keeps hl.1 hl.2 (itrunc_keeps false length)
  | unlink i => exact h.keeps hl.1 hl.2 fun ho => ⟨⟨l, .refl ho.refines _⟩, rfl, id⟩
  | release i =>
    obtain ⟨l', hp, -⟩ := h.release hl.1 hl.2 hc
    exact ⟨l', hp⟩

theorem Parted.run {s₀ : Files} (h : Parted n s₀ l) (hr : FilesRun Files.Sound n s₀ s) :
    ∃ l', Parted n s l' := by
  induction hr with
  | refl => exact ⟨l, h⟩
  | step _ hl hc ih =>
    obtain ⟨l', hp⟩ := ih
    exact hp.op hl hc

end

/-- A volume of one data block, which is free, and an inode for one file. -/
def oneBlock : Files where
  vol :=
    let fs : Fs :=
      { fs_isize := 2, fs_fsize := 3, fs_nfree := 2, fs_free := fun i => if i = 1 then 2 else 0
        fs_ninode := 0, fs_inode := fun _ => 0, fs_fmod := false, fs_ronly := false, fs_tfree := 1
        fs_tinode := 0, fs_lasti := 1, fs_nbehind := 0 }
    { fs := fs, superb := fs, blk := fun _ _ => 0 }
  file := fun _ => ⟨none, 0, 0, fun _ => 0, false, false⟩

theorem oneBlock_parted : Parted 1 oneBlock [2] where
  refines :=
    { chain := .inr (.last (by decide) (by decide) rfl)
      nodup := by decide
      good := by decide
      count := rfl
      super := by decide }
  nodup := by decide
  area := by
    intro b
    have hused : oneBlock.used 1 = [] := rfl
    rw [hused]
    simp only [List.append_nil, List.mem_singleton, Fs.badblock, oneBlock]
    omega
  size := fun _ _ => Int.le_refl _

/-- The operations of a list. -/
def Files.run (s : Files) : List Op → Files
  | [] => s
  | a :: as => (s.op a).run as

end DiscoBSD.Ufs
