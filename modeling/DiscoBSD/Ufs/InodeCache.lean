import Mathlib.Data.List.Nodup
import Mathlib.Data.List.Range
import DiscoBSD.Ufs.Inode

/-!
# The cache of free inodes

The superblock remembers up to `NICINOD` inodes that may be handed out. **An entry is an inode nobody has**:
its mode on the disk is zero and no process holds a reference to it, though it may well still be in the
inode table. `ialloc` takes its inodes from there, so none is handed out twice, and the search that fills
the cache looks at every inode before `ENOSPC` is reported.
-/

set_option autoImplicit false

namespace DiscoBSD.Ufs

open DiscoBSD.Lib

/-- The entries of the cache. -/
def Fs.cached (fs : Fs) : List Nat := (List.range fs.fs_ninode).map fs.fs_inode

/-- The inode table: the unused slots are those without a reference, no inode has two slots, and a slot
    that is not marked for writing says what the disk says. -/
structure TableInv (s : Core) : Prop where
  unused : ∀ i, i ∈ s.ifreeh ↔ i < s.ninode ∧ (s.inode i).i_count = 0
  nodup : s.ifreeh.Nodup
  single : ∀ i < s.ninode, ∀ j < s.ninode, (s.inode i).i_number ≠ 0 →
    (s.inode i).i_number = (s.inode j).i_number → (s.inode i).i_dev = (s.inode j).i_dev → i = j
  clean : ∀ i < s.ninode, (s.inode i).i_number ≠ 0 → (s.inode i).dirty = false →
    s.dino (s.inode i).i_dev (s.inode i).i_number = ⟨(s.inode i).i_mode, (s.inode i).i_nlink⟩
  idle : ∀ i < s.ninode, (s.inode i).i_count = 0 → (s.inode i).dirty = false
  named : ∀ i < s.ninode, 0 < (s.inode i).i_count → (s.inode i).i_number ≠ 0

/-- What the entries of one cache are. -/
structure CacheInv (s : Core) (dev : Nat) : Prop where
  nodup : (s.fs dev).cached.Nodup
  range : ∀ ino ∈ (s.fs dev).cached, (s.fs dev).InRange ino
  mode : ∀ ino ∈ (s.fs dev).cached, (s.dino dev ino).di_mode = 0
  unheld : ∀ ino ∈ (s.fs dev).cached, ¬s.Referenced dev ino
  room : (s.fs dev).fs_ninode ≤ nicinod
  first : (s.fs dev).fs_lasti % inopb = 1
  isize : 2 ≤ (s.fs dev).fs_isize

/-- The inode table and every cache. Only an inode of a volume that may be written is marked. -/
structure CoreInv (s : Core) : Prop where
  table : TableInv s
  cache : ∀ dev, CacheInv s dev
  writable : ∀ i < s.ninode, (s.inode i).dirty = true → (s.fs (s.inode i).i_dev).fs_ronly = false
  range : ∀ i < s.ninode, 0 < (s.inode i).i_count → (s.fs (s.inode i).i_dev).InRange (s.inode i).i_number

/-! ## ifind and iget -/

section

variable {s : Core} {dev ino i : Nat}

theorem ifind_some (h : s.ifind dev ino = some i) :
    i < s.ninode ∧ (s.inode i).i_number = ino ∧ (s.inode i).i_dev = dev := by
  have hp := List.find?_some h
  have hm := List.mem_of_find?_eq_some h
  simp only [decide_eq_true_eq] at hp
  exact ⟨List.mem_range.mp hm, hp.1.symm, hp.2.symm⟩

theorem ifind_none (h : s.ifind dev ino = none) {i : Nat} (hi : i < s.ninode) :
    ¬((s.inode i).i_number = ino ∧ (s.inode i).i_dev = dev) := by
  have hf := List.find?_eq_none.mp h i (List.mem_range.mpr hi)
  simp only [decide_eq_true_eq] at hf
  exact fun hc => hf ⟨hc.1.symm, hc.2.symm⟩

/-- What `iget` does: a slot that has the inode is referenced once more, or an unused slot gets it from
    the disk, or there is no slot. -/
theorem iget_cases (h : TableInv s) (dev ino : Nat) :
    (∃ i, i < s.ninode ∧ (s.inode i).i_number = ino ∧ (s.inode i).i_dev = dev ∧
      s.iget dev ino = (some i, { s with
        inode := Function.update s.inode i { s.inode i with i_count := (s.inode i).i_count + 1 }
        ifreeh := s.ifreeh.erase i })) ∨
    (∃ i rest, s.ifreeh = i :: rest ∧ (∀ j < s.ninode, ¬((s.inode j).i_number = ino ∧ (s.inode j).i_dev = dev)) ∧
      s.iget dev ino = (some i, { s with
        inode := Function.update s.inode i
          ⟨dev, ino, 1, (s.dino dev ino).di_mode, (s.dino dev ino).di_nlink, false⟩
        ifreeh := rest })) ∨
    s.iget dev ino = (none, s) := by
  unfold Core.iget
  cases hf : s.ifind dev ino with
  | some i =>
    obtain ⟨hi, hn, hd⟩ := ifind_some hf
    refine .inl ⟨i, hi, hn, hd, ?_⟩
    by_cases hc : (s.inode i).i_count = 0
    · simp only [if_pos hc, Core.setInode]
    · have hout : i ∉ s.ifreeh := fun hm => hc ((h.unused i).mp hm).2
      simp only [if_neg hc, Core.setInode, List.erase_of_not_mem hout]
  | none =>
    refine .inr ?_
    cases hl : s.ifreeh with
    | nil => exact .inr rfl
    | cons i rest =>
      have hc : (s.inode i).i_count = 0 := ((h.unused i).mp (by simp [hl])).2
      refine .inl ⟨i, rest, rfl, fun j hj => ifind_none hf hj, ?_⟩
      simp only [Core.setInode, hc]

/-! ## One slot is written -/

/-- The table after slot `i` got `ip`, whatever happened to the superblocks. -/
theorem TableInv.slot (h : TableInv s) (hi : i < s.ninode) {ip : Inode} {l : List Nat}
    {fs : Nat → Fs} {dino : Nat → Nat → Dinode}
    (hl : ∀ j, j ∈ l ↔ j < s.ninode ∧ (Function.update s.inode i ip j).i_count = 0) (hd : l.Nodup)
    (hone : ∀ j < s.ninode, j ≠ i → ¬((s.inode j).i_number = ip.i_number ∧ (s.inode j).i_dev = ip.i_dev))
    (hclean : ip.dirty = false → dino ip.i_dev ip.i_number = ⟨ip.i_mode, ip.i_nlink⟩)
    (hidle : ip.i_count = 0 → ip.dirty = false) (hname : ip.i_number ≠ 0)
    (hdino : ∀ d n, ¬(n = ip.i_number ∧ d = ip.i_dev) → dino d n = s.dino d n) :
    TableInv { s with inode := Function.update s.inode i ip, ifreeh := l, fs := fs, dino := dino } where
  unused := hl
  nodup := hd
  single := by
    intro j hj k hk hne hnum hdev
    simp only [Function.update_apply] at hne hnum hdev
    split at hnum <;> split at hnum
    · next h₁ h₂ => rw [h₁, h₂]
    · next h₁ h₂ =>
      simp only [h₁, h₂, if_true, if_false] at hnum hdev
      exact absurd ⟨hnum.symm, hdev.symm⟩ (hone k hk h₂)
    · next h₁ h₂ =>
      simp only [h₁, h₂, if_true, if_false] at hnum hdev
      exact absurd ⟨hnum, hdev⟩ (hone j hj h₁)
    · next h₁ h₂ =>
      simp only [h₁, h₂, if_false] at hne hdev
      exact h.single j hj k hk hne hnum hdev
  clean := by
    intro j hj hne hclr
    by_cases hji : j = i
    · subst hji
      simp only [Function.update_self] at hclr ⊢
      exact hclean hclr
    · simp only [Function.update_of_ne hji] at hne hclr ⊢
      rw [hdino _ _ (hone j hj hji)]
      exact h.clean j hj hne hclr
  idle := by
    intro j hj
    by_cases hji : j = i
    · subst hji
      simpa only [Function.update_self] using hidle
    · simpa only [Function.update_of_ne hji] using h.idle j hj
  named := by
    intro j hj
    by_cases hji : j = i
    · subst hji
      simpa only [Function.update_self] using fun _ => hname
    · simpa only [Function.update_of_ne hji] using h.named j hj

/-- A reference is one of the slot that was written, or it was there. -/
theorem referenced_slot {ip : Inode} {l : List Nat} {fs : Nat → Fs} {dino : Nat → Nat → Dinode} {d n : Nat}
    (h : Core.Referenced { s with inode := Function.update s.inode i ip, ifreeh := l, fs := fs, dino := dino } d n) :
    (ip.i_number = n ∧ ip.i_dev = d ∧ 0 < ip.i_count) ∨
      ∃ j < s.ninode, j ≠ i ∧ (s.inode j).i_number = n ∧ (s.inode j).i_dev = d ∧ 0 < (s.inode j).i_count := by
  obtain ⟨j, hj, hn, hd, hc⟩ := h
  by_cases hji : j = i
  · subst hji
    simp only [Function.update_self] at hn hd hc
    exact .inl ⟨hn, hd, hc⟩
  · simp only [Function.update_of_ne hji] at hn hd hc
    exact .inr ⟨j, hj, hji, hn, hd, hc⟩

/-- A cache whose entries stay free and unheld. -/
theorem CacheInv.keep {s' : Core} (h : CacheInv s dev) (hfs : s'.fs dev = s.fs dev)
    (hmode : ∀ ino ∈ (s.fs dev).cached, (s'.dino dev ino).di_mode = (s.dino dev ino).di_mode)
    (href : ∀ ino ∈ (s.fs dev).cached, ¬s'.Referenced dev ino) : CacheInv s' dev := by
  constructor
  · rw [hfs]; exact h.nodup
  · rw [hfs]; exact h.range
  · rw [hfs]
    intro ino hino
    rw [hmode ino hino]
    exact h.mode ino hino
  · rw [hfs]; exact href
  · rw [hfs]; exact h.room
  · rw [hfs]; exact h.first
  · rw [hfs]; exact h.isize

/-- An inode that is allocated is in no cache. -/
theorem CoreInv.not_cached (h : CoreInv s) (ha : s.Allocated dev ino) : ino ∉ (s.fs dev).cached := by
  intro hm
  rcases ha with hmode | href
  · exact hmode ((h.cache dev).mode ino hm)
  · exact (h.cache dev).unheld ino hm href

/-- The caches do not mind a reference to an inode that is in none of them. -/
theorem CoreInv.keep_caches {s' : Core} (h : CoreInv s) (hfs : s'.fs = s.fs) (hdino : s'.dino = s.dino)
    (href : ∀ d n, s'.Referenced d n → s.Referenced d n ∨ (n ∉ (s.fs d).cached)) :
    ∀ d, CacheInv s' d := by
  intro d
  refine (h.cache d).keep (by rw [hfs]) (fun n _ => by rw [hdino]) fun n hn hr => ?_
  rcases href d n hr with hr | hout
  · exact (h.cache d).unheld n hn hr
  · exact hout hn

/-- The two facts about single slots, after one was written. -/
theorem CoreInv.slot_facts (h : CoreInv s) (i : Nat) (ip : Inode) (fs : Nat → Fs)
    (hfs : ∀ d, (fs d).fs_ronly = (s.fs d).fs_ronly ∧ (fs d).fs_isize = (s.fs d).fs_isize)
    (hw : ip.dirty = true → (s.fs ip.i_dev).fs_ronly = false)
    (hr : 0 < ip.i_count → (s.fs ip.i_dev).InRange ip.i_number) :
    (∀ j < s.ninode, (Function.update s.inode i ip j).dirty = true →
      (fs (Function.update s.inode i ip j).i_dev).fs_ronly = false) ∧
    (∀ j < s.ninode, 0 < (Function.update s.inode i ip j).i_count →
      (fs (Function.update s.inode i ip j).i_dev).InRange (Function.update s.inode i ip j).i_number) := by
  constructor
  · intro j hj hdirty
    rw [(hfs _).1]
    by_cases hji : j = i
    · subst hji
      rw [Function.update_self] at hdirty ⊢
      exact hw hdirty
    · rw [Function.update_of_ne hji] at hdirty ⊢
      exact h.writable j hj hdirty
  · intro j hj hc
    simp only [Fs.InRange, (hfs _).2]
    by_cases hji : j = i
    · subst hji
      rw [Function.update_self] at hc ⊢
      exact hr hc
    · rw [Function.update_of_ne hji] at hc ⊢
      exact h.range j hj hc

/-- `iget` of an inode that is not in the cache. -/
theorem CoreInv.iget (h : CoreInv s) (hrange : (s.fs dev).InRange ino) (hout : ino ∉ (s.fs dev).cached) :
    CoreInv (s.iget dev ino).2 := by
  have ht := h.table
  have hino : ino ≠ 0 := by
    have := hrange.1
    omega
  rcases iget_cases ht dev ino with ⟨i, hi, hn, hd, heq⟩ | ⟨i, rest, hl, hnone, heq⟩ | heq
  · rw [heq]
    -- The slot that has the inode: nothing about it changes but the count.
    have hone : ∀ j < s.ninode, j ≠ i →
        ¬((s.inode j).i_number = (s.inode i).i_number ∧ (s.inode j).i_dev = (s.inode i).i_dev) :=
      fun j hj hji hc => hji (ht.single j hj i hi (by rw [hc.1, hn]; exact hino) hc.1 hc.2)
    obtain ⟨hwrite, hheld⟩ := h.slot_facts i { s.inode i with i_count := (s.inode i).i_count + 1 } s.fs
      (fun _ => ⟨rfl, rfl⟩) (h.writable i hi) fun _ => by simpa only [hn, hd] using hrange
    refine ⟨ht.slot hi ?_ (ht.nodup.erase i) hone ?_ ?_ ?_ fun _ _ _ => rfl, ?_, hwrite, hheld⟩
    · intro j
      rw [ht.nodup.mem_erase_iff, ht.unused]
      by_cases hji : j = i
      · subst hji
        simp
      · simp [hji]
    · exact fun hclr => ht.clean i hi (by rwa [hn]) hclr
    · exact fun hc => absurd hc (Nat.succ_ne_zero _)
    · rwa [← hn] at hino
    · refine h.keep_caches rfl rfl fun d n hr => ?_
      rcases referenced_slot hr with ⟨h₁, h₂, -⟩ | ⟨j, hj, -, h₁, h₂, h₃⟩
      · simp only [hn, hd] at h₁ h₂
        exact .inr (h₁ ▸ h₂ ▸ hout)
      · exact .inl ⟨j, hj, h₁, h₂, h₃⟩
  · rw [heq]
    have hi : i < s.ninode := ((ht.unused i).mp (by simp [hl])).1
    have hd : (i :: rest).Nodup := hl ▸ ht.nodup
    obtain ⟨hwrite, hheld⟩ := h.slot_facts i
      ⟨dev, ino, 1, (s.dino dev ino).di_mode, (s.dino dev ino).di_nlink, false⟩ s.fs
      (fun _ => ⟨rfl, rfl⟩) (by simp) fun _ => hrange
    refine ⟨ht.slot hi ?_ (List.nodup_cons.mp hd).2 (fun j hj _ => hnone j hj) ?_ ?_ hino
      fun _ _ _ => rfl, ?_, hwrite, hheld⟩
    · intro j
      by_cases hji : j = i
      · subst hji
        simp [(List.nodup_cons.mp hd).1]
      · have hu := ht.unused j
        rw [hl, List.mem_cons] at hu
        simpa [hji, Function.update_of_ne hji] using hu
    · exact fun _ => rfl
    · exact fun _ => rfl
    · refine h.keep_caches rfl rfl fun d n hr => ?_
      rcases referenced_slot hr with ⟨h₁, h₂, -⟩ | ⟨j, hj, -, h₁, h₂, h₃⟩
      · exact .inr (h₁ ▸ h₂ ▸ hout)
      · exact .inl ⟨j, hj, h₁, h₂, h₃⟩
  · rw [heq]
    exact h

/-! ## irele -/

/-- What the release of a held slot does: a reference less, or the last one with the inode written, or the
    last one with the inode freed. -/
theorem irele_cases (h : CoreInv s) (hi : s.Held i) :
    (1 < (s.inode i).i_count ∧
      s.irele i = s.setInode i { s.inode i with i_count := (s.inode i).i_count - 1 }) ∨
    ((s.inode i).i_count = 1 ∧
      s.irele i = { (s.setDino (s.inode i).i_dev (s.inode i).i_number
          ⟨(s.inode i).i_mode, (s.inode i).i_nlink⟩) with
        inode := Function.update s.inode i { s.inode i with dirty := false, i_count := 0 }
        ifreeh := s.ifreeh ++ [i] }) ∨
    ((s.inode i).i_count = 1 ∧
      s.irele i = { (s.setDino (s.inode i).i_dev (s.inode i).i_number ⟨0, (s.inode i).i_nlink⟩) with
        inode := Function.update s.inode i { s.inode i with i_mode := 0, dirty := false, i_count := 0 }
        ifreeh := s.ifreeh ++ [i]
        fs := Function.update s.fs (s.inode i).i_dev
          ((s.fs (s.inode i).i_dev).ifree (s.inode i).i_number) }) := by
  obtain ⟨hlt, hpos⟩ := hi
  unfold Core.irele
  by_cases hc : (s.inode i).i_count = 1
  · rw [if_pos hc]
    refine .inr ?_
    by_cases hz : (s.inode i).i_nlink = 0 ∧ (s.fs (s.inode i).i_dev).fs_ronly = false
    · refine .inr ⟨hc, ?_⟩
      have hro : ((s.fs (s.inode i).i_dev).ifree (s.inode i).i_number).fs_ronly = false := by
        unfold Fs.ifree
        dsimp only
        split
        · split <;> exact hz.2
        · exact hz.2
      simp only [if_pos hz, Core.deallocate, Core.iupdat, Core.setFs, Core.setInode, Core.setDino,
        Function.update_self, hro, Function.update_idem, Bool.true_eq_false, Bool.false_eq_true, if_false]
    · refine .inl ⟨hc, ?_⟩
      simp only [if_neg hz, Core.iupdat]
      by_cases hdirty : (s.inode i).dirty = false
      · have hclean := h.table.clean i hlt (h.table.named i hlt hpos) hdirty
        simp only [if_pos hdirty, Core.setInode, Core.setDino, ← hclean, Function.update_eq_self]
      · have hro := h.writable i hlt (by simpa using hdirty)
        simp only [if_neg hdirty, hro, Core.setInode, Core.setDino, Function.update_self,
          Function.update_idem, Bool.false_eq_true, if_false]
  · rw [if_neg hc]
    exact .inl ⟨by omega, rfl⟩

/-- A slot that is released for good, and what the disk has for it then. -/
theorem TableInv.release (h : TableInv s) (hi : s.Held i) (mode : Nat) (fs : Nat → Fs) :
    TableInv { (s.setDino (s.inode i).i_dev (s.inode i).i_number ⟨mode, (s.inode i).i_nlink⟩) with
      inode := Function.update s.inode i { s.inode i with i_mode := mode, dirty := false, i_count := 0 }
      ifreeh := s.ifreeh ++ [i]
      fs := fs } := by
  obtain ⟨hlt, hpos⟩ := hi
  have hname := h.named i hlt hpos
  have hout : i ∉ s.ifreeh := fun hm => by
    have := ((h.unused i).mp hm).2
    omega
  refine h.slot hlt ?_ ?_ ?_ ?_ (fun _ => rfl) hname ?_
  · intro j
    rw [List.mem_append, h.unused, List.mem_singleton]
    by_cases hji : j = i
    · subst hji
      simp [hlt]
    · simp [hji]
  · exact List.nodup_append.mpr ⟨h.nodup, by simp, by
      rintro a ha b hb rfl
      rw [List.mem_singleton] at hb
      exact hout (hb ▸ ha)⟩
  · exact fun j hj hji hc => hji (h.single j hj i hlt (by rw [hc.1]; exact hname) hc.1 hc.2)
  · exact fun _ => by simp [Core.setDino]
  · intro d n hne
    simp only [Core.setDino, Function.update_apply]
    split
    · next hd =>
      subst hd
      rw [Function.update_of_ne fun hn => hne ⟨hn, rfl⟩]
    · rfl

/-- Nobody has the inode of a slot that was released for good. -/
theorem TableInv.released (h : TableInv s) (hi : s.Held i) {ip : Inode} (hc : ip.i_count = 0) {l : List Nat}
    {fs : Nat → Fs} {dino : Nat → Nat → Dinode} {d n : Nat}
    (hr : Core.Referenced { s with inode := Function.update s.inode i ip, ifreeh := l, fs := fs, dino := dino } d n) :
    s.Referenced d n ∧ ¬(n = (s.inode i).i_number ∧ d = (s.inode i).i_dev) := by
  rcases referenced_slot hr with ⟨-, -, hpos⟩ | ⟨j, hj, hji, hn, hd, hpos⟩
  · omega
  · refine ⟨⟨j, hj, hn, hd, hpos⟩, fun hsame => hji ?_⟩
    exact h.single j hj i hi.1 (h.named j hj hpos) (hn.trans hsame.1) (hd.trans hsame.2)

/-- The inode of a held slot is in no cache. -/
theorem CoreInv.held_not_cached (h : CoreInv s) (hi : s.Held i) :
    (s.inode i).i_number ∉ (s.fs (s.inode i).i_dev).cached :=
  h.not_cached (.inr ⟨i, hi.1, rfl, rfl, hi.2⟩)

theorem setDino_of_ne {d n : Nat} {dp : Dinode} (h : ¬(n = ino ∧ d = dev)) :
    (s.setDino dev ino dp).dino d n = s.dino d n := by
  simp only [Core.setDino, Function.update_apply]
  split
  · next hd =>
    subst hd
    rw [Function.update_of_ne fun hn => h ⟨hn, rfl⟩]
  · rfl

/-- The entries of a cache an inode was put into. -/
theorem cached_ifree (fs : Fs) (ino : Nat) :
    (fs.ifree ino).cached = if nicinod ≤ fs.fs_ninode then fs.cached else fs.cached ++ [ino] := by
  unfold Fs.ifree
  dsimp only
  split
  · split <;> rfl
  · simp only [Fs.cached, List.range_succ, List.map_append, List.map_cons, List.map_nil,
      Function.update_self]
    congr 1
    refine List.map_congr_left fun k hk => ?_
    have := List.mem_range.mp hk
    rw [Function.update_of_ne (by omega)]

theorem ifree_fields (fs : Fs) (ino : Nat) :
    (fs.ifree ino).fs_isize = fs.fs_isize ∧ (fs.ifree ino).fs_lasti = fs.fs_lasti ∧
      (fs.ifree ino).fs_ronly = fs.fs_ronly ∧
      (fs.fs_ninode ≤ nicinod → (fs.ifree ino).fs_ninode ≤ nicinod) := by
  unfold Fs.ifree
  dsimp only
  split
  · split <;> exact ⟨rfl, rfl, rfl, id⟩
  · exact ⟨rfl, rfl, rfl, fun _ => by simp only; omega⟩

/-- A held slot keeps its inode and its references, and is marked if what it holds is changed. -/
theorem CoreInv.rewrite (h : CoreInv s) (hi : s.Held i) {ip : Inode} (hn : ip.i_number = (s.inode i).i_number)
    (hd : ip.i_dev = (s.inode i).i_dev) (hc : 0 < ip.i_count)
    (hclean : ip.dirty = false → s.dino ip.i_dev ip.i_number = ⟨ip.i_mode, ip.i_nlink⟩)
    (hw : ip.dirty = true → (s.fs ip.i_dev).fs_ronly = false) : CoreInv (s.setInode i ip) := by
  obtain ⟨hlt, hpos⟩ := hi
  have hname := h.table.named i hlt hpos
  obtain ⟨hwrite, hrange⟩ := h.slot_facts i ip s.fs (fun _ => ⟨rfl, rfl⟩) hw
    fun _ => by rw [hn, hd]; exact h.range i hlt hpos
  refine ⟨h.table.slot hlt ?_ h.table.nodup ?_ hclean (fun h0 => by omega) (by rwa [hn])
    fun _ _ _ => rfl, ?_, hwrite, hrange⟩
  · intro j
    rw [h.table.unused]
    by_cases hji : j = i
    · subst hji
      simp only [Function.update_self]
      omega
    · rw [Function.update_of_ne hji]
  · rw [hn, hd]
    exact fun j hj hji hc => hji (h.table.single j hj i hlt (by rw [hc.1]; exact hname) hc.1 hc.2)
  · refine h.keep_caches rfl rfl fun d n hr => .inl ?_
    rcases referenced_slot hr with ⟨h₁, h₂, -⟩ | ⟨j, hj, -, h₁, h₂, h₃⟩
    · exact ⟨i, hlt, hn ▸ h₁, hd ▸ h₂, hpos⟩
    · exact ⟨j, hj, h₁, h₂, h₃⟩

theorem CoreInv.irele (h : CoreInv s) (hi : s.Held i) : CoreInv (s.irele i) := by
  have hlt := hi.1
  have hout := h.held_not_cached hi
  rcases irele_cases h hi with ⟨hc, heq⟩ | ⟨hc, heq⟩ | ⟨hc, heq⟩
  · rw [heq]
    refine h.rewrite hi rfl rfl (by simp only; omega) ?_ ?_
    · exact h.table.clean i hlt (h.table.named i hlt hi.2)
    · exact h.writable i hlt
  · rw [heq]
    obtain ⟨hwrite, hrange⟩ := h.slot_facts i
      { s.inode i with dirty := false, i_count := 0 } s.fs (fun _ => ⟨rfl, rfl⟩)
      (fun h0 => by cases h0) fun h0 => by simp at h0
    refine ⟨h.table.release hi _ _, fun d => ?_, hwrite, hrange⟩
    refine (h.cache d).keep rfl (fun n hn => ?_) fun n hn hr => ?_
    · rw [setDino_of_ne]
      rintro ⟨rfl, rfl⟩
      exact hout hn
    · exact (h.cache d).unheld n hn (h.table.released hi rfl hr).1
  · rw [heq]
    have hfields := ifree_fields (s.fs (s.inode i).i_dev) (s.inode i).i_number
    have hfs : ∀ d, (Function.update s.fs (s.inode i).i_dev
          ((s.fs (s.inode i).i_dev).ifree (s.inode i).i_number) d).fs_ronly = (s.fs d).fs_ronly ∧
        (Function.update s.fs (s.inode i).i_dev
          ((s.fs (s.inode i).i_dev).ifree (s.inode i).i_number) d).fs_isize = (s.fs d).fs_isize := by
      intro d
      by_cases hd : d = (s.inode i).i_dev
      · subst hd
        rw [Function.update_self]
        exact ⟨hfields.2.2.1, hfields.1⟩
      · rw [Function.update_of_ne hd]
        exact ⟨rfl, rfl⟩
    obtain ⟨hwrite, hrange⟩ := h.slot_facts i
      { s.inode i with i_mode := 0, dirty := false, i_count := 0 } _ hfs
      (fun h0 => by cases h0) fun h0 => by simp at h0
    refine ⟨h.table.release hi _ _, fun d => ?_, hwrite, hrange⟩
    by_cases hd : d = (s.inode i).i_dev
    · subst hd
      -- The cache the inode goes to, where there is room.
      have hcache := h.cache (s.inode i).i_dev
      have hmem : ∀ n ∈ ((s.fs (s.inode i).i_dev).ifree (s.inode i).i_number).cached,
          n ∈ (s.fs (s.inode i).i_dev).cached ∨ n = (s.inode i).i_number := by
        intro n hn
        rw [cached_ifree] at hn
        split at hn
        · exact .inl hn
        · simpa using hn
      constructor
      · simp only [Function.update_self, cached_ifree]
        split
        · exact hcache.nodup
        · refine List.nodup_append.mpr ⟨hcache.nodup, by simp, ?_⟩
          rintro a ha b hb rfl
          rw [List.mem_singleton] at hb
          exact hout (hb ▸ ha)
      · simp only [Function.update_self, Fs.InRange, hfields.1]
        intro n hn
        rcases hmem n hn with hn | rfl
        · exact hcache.range n hn
        · exact h.range i hlt hi.2
      · simp only [Function.update_self]
        intro n hn
        by_cases hne : n = (s.inode i).i_number
        · simp [hne, Core.setDino]
        · rw [setDino_of_ne fun hc => hne hc.1]
          exact hcache.mode n ((hmem n hn).resolve_right hne)
      · simp only [Function.update_self]
        intro n hn hr
        obtain ⟨hold, hne⟩ := h.table.released hi rfl hr
        rcases hmem n hn with hn | rfl
        · exact hcache.unheld n hn hold
        · exact hne ⟨rfl, rfl⟩
      · simp only [Function.update_self]
        exact hfields.2.2.2 hcache.room
      · simp only [Function.update_self, hfields.2.1]
        exact hcache.first
      · simp only [Function.update_self, hfields.1]
        exact hcache.isize
    · refine (h.cache d).keep (Function.update_of_ne hd ..) (fun n hn => ?_) fun n hn hr => ?_
      · rw [setDino_of_ne fun hc => hd hc.2]
      · exact (h.cache d).unheld n hn (h.table.released hi rfl hr).1

end

/-! ## The search -/

section

variable {mode : Nat → Nat} {incore : Nat → Bool}

/-- What a search of the inodes from `lo` up to `hi` leaves: free inodes in ascending order, and all of
    them unless the cache is full. -/
structure Found (mode : Nat → Nat) (incore : Nat → Bool) (lo hi : Nat) (fs fs' : Fs) : Prop where
  entries : ∃ new, fs'.cached = fs.cached ++ new ∧ new.Pairwise (· < ·) ∧
    (∀ n ∈ new, lo ≤ n ∧ n < hi ∧ mode n = 0 ∧ incore n = false) ∧
    (fs'.fs_ninode < nicinod → ∀ n, lo ≤ n → n < hi → mode n = 0 → incore n = false → n ∈ new)
  room : fs'.fs_ninode ≤ nicinod
  isize : fs'.fs_isize = fs.fs_isize
  ronly : fs'.fs_ronly = fs.fs_ronly

theorem Found.none {fs : Fs} (h : fs.fs_ninode ≤ nicinod) {lo hi : Nat}
    (hno : ∀ n, lo ≤ n → n < hi → ¬(mode n = 0 ∧ incore n = false)) : Found mode incore lo hi fs fs where
  entries := ⟨[], by simp, .nil, by simp, fun _ n h₁ h₂ h₃ h₄ => absurd ⟨h₃, h₄⟩ (hno n h₁ h₂)⟩
  room := h
  isize := rfl
  ronly := rfl

/-- Two searches, the second where the first ended. -/
theorem Found.append {fs fs' fs'' : Fs} {lo mid hi : Nat} (h : Found mode incore lo mid fs fs')
    (hle : lo ≤ mid) (hmid : mid ≤ hi) (hroom : fs'.fs_ninode < nicinod)
    (h' : Found mode incore mid hi fs' fs'') : Found mode incore lo hi fs fs'' := by
  obtain ⟨new, hc, hsort, hfree, hall⟩ := h.entries
  obtain ⟨new', hc', hsort', hfree', hall'⟩ := h'.entries
  refine ⟨⟨new ++ new', by rw [hc', hc, List.append_assoc], ?_, ?_, ?_⟩, h'.room, h'.isize.trans h.isize,
    h'.ronly.trans h.ronly⟩
  · refine List.pairwise_append.mpr ⟨hsort, hsort', fun a ha b hb => ?_⟩
    exact Nat.lt_of_lt_of_le (hfree a ha).2.1 (hfree' b hb).1
  · intro n hn
    rcases List.mem_append.mp hn with hn | hn
    · obtain ⟨h₁, h₂, h₃⟩ := hfree n hn
      exact ⟨h₁, Nat.lt_of_lt_of_le h₂ hmid, h₃⟩
    · obtain ⟨h₁, h₂⟩ := hfree' n hn
      exact ⟨Nat.le_trans hle h₁, h₂⟩
  · intro hlt n h₁ h₂ h₃ h₄
    by_cases hn : n < mid
    · exact List.mem_append_left _ (hall hroom n h₁ hn h₃ h₄)
    · exact List.mem_append_right _ (hall' hlt n (Nat.le_of_not_lt hn) h₂ h₃ h₄)

/-- A search that filled the cache need not go on. -/
theorem Found.stop {fs fs' : Fs} {lo mid hi : Nat} (h : Found mode incore lo mid fs fs') (hmid : mid ≤ hi)
    (hfull : nicinod ≤ fs'.fs_ninode) : Found mode incore lo hi fs fs' := by
  obtain ⟨new, hc, hsort, hfree, -⟩ := h.entries
  refine ⟨⟨new, hc, hsort, fun n hn => ?_, fun hlt => by omega⟩, h.room, h.isize, h.ronly⟩
  obtain ⟨h₁, h₂, h₃⟩ := hfree n hn
  exact ⟨h₁, Nat.lt_of_lt_of_le h₂ hmid, h₃⟩

/-- One free inode is recorded. -/
theorem Found.record {fs : Fs} {ino : Nat} (hroom : fs.fs_ninode < nicinod) (hm : mode ino = 0)
    (hi : incore ino = false) :
    Found mode incore ino (ino + 1) fs
      { fs with
        fs_inode := Function.update fs.fs_inode fs.fs_ninode ino
        fs_ninode := fs.fs_ninode + 1 } where
  entries := by
    refine ⟨[ino], ?_, by simp, by simp [hm, hi], fun _ n h₁ h₂ _ _ => by simp; omega⟩
    simp only [Fs.cached, List.range_succ, List.map_append, List.map_cons, List.map_nil,
      Function.update_self]
    congr 1
    refine List.map_congr_left fun k hk => ?_
    have := List.mem_range.mp hk
    rw [Function.update_of_ne (by omega)]
  room := hroom
  isize := rfl
  ronly := rfl

variable (mode incore)

theorem inodeAt_succ (adr i : Nat) : inodeAt adr i + 1 = inodeAt adr (i + 1) := rfl

/-- The rest of a block is searched, up to its end or to a full cache. -/
theorem searchBlock_found (adr k i : Nat) {fs : Fs} (hroom : fs.fs_ninode < nicinod) :
    Found mode incore (inodeAt adr i) (inodeAt adr i + k) fs
        (searchBlock mode incore adr k i (inodeAt adr i) fs).2 ∧
      ((searchBlock mode incore adr k i (inodeAt adr i) fs).2.fs_ninode < nicinod →
        (searchBlock mode incore adr k i (inodeAt adr i) fs).1 = inodeAt adr i + k) := by
  induction k generalizing i fs with
  | zero => exact ⟨.none (Nat.le_of_lt hroom) fun n h₁ h₂ => by omega, fun _ => rfl⟩
  | succ k ih =>
    have hskip : ¬(mode (inodeAt adr i) = 0 ∧ incore (inodeAt adr i) = false) →
        Found mode incore (inodeAt adr i) (inodeAt adr i + 1) fs fs := fun hno =>
      .none (Nat.le_of_lt hroom) fun n h₁ h₂ => by rwa [show n = inodeAt adr i by omega]
    have hnext := @ih (i + 1)
    rw [← inodeAt_succ] at hnext
    have hend : inodeAt adr i + 1 + k = inodeAt adr i + (k + 1) := by omega
    rw [hend] at hnext
    unfold searchBlock
    by_cases hm : mode (inodeAt adr i) ≠ 0
    · simp only [if_pos hm]
      obtain ⟨hf, he⟩ := hnext hroom
      exact ⟨(hskip fun hc => hm hc.1).append (by omega) (by omega) hroom hf, he⟩
    · have hz : mode (inodeAt adr i) = 0 := by simpa using hm
      simp only [if_neg hm]
      by_cases hin : incore (inodeAt adr i) = true
      · simp only [if_pos hin]
        obtain ⟨hf, he⟩ := hnext hroom
        exact ⟨(hskip fun hc => by simp [hin] at hc).append (by omega) (by omega) hroom hf, he⟩
      · simp only [if_neg hin]
        have hrec := Found.record hroom hz (by simpa using hin : incore (inodeAt adr i) = false)
        by_cases hfull : nicinod ≤ fs.fs_ninode + 1
        · simp only [if_pos hfull]
          exact ⟨hrec.stop (by omega) hfull, fun hlt => absurd hfull (Nat.not_le.mpr hlt)⟩
        · simp only [if_neg hfull]
          obtain ⟨hf, he⟩ := @hnext { fs with
            fs_inode := Function.update fs.fs_inode fs.fs_ninode (inodeAt adr i)
            fs_ninode := fs.fs_ninode + 1 } (Nat.lt_of_not_le hfull)
          exact ⟨hrec.append (by omega) (by omega) (Nat.lt_of_not_le hfull) hf, he⟩

/-- The blocks are searched one after the other. -/
theorem searchBlocks_found (n adr inobas : Nat) {fs : Fs} (hadr : 0 < adr) (hroom : fs.fs_ninode < nicinod) :
    Found mode incore (inodeAt adr 0) (inodeAt adr 0 + n * inopb) fs
        (searchBlocks mode incore n adr (inodeAt adr 0) inobas fs).2 ∧
      (0 < n ∨ inobas % inopb = 1 →
        (searchBlocks mode incore n adr (inodeAt adr 0) inobas fs).1 % inopb = 1) := by
  induction n generalizing adr inobas fs with
  | zero =>
    refine ⟨.none (Nat.le_of_lt hroom) fun n h₁ h₂ => by omega, ?_⟩
    rintro (h | h)
    · omega
    · exact h
  | succ n ih =>
    unfold searchBlocks
    obtain ⟨hf, he⟩ := searchBlock_found mode incore adr inopb 0 hroom
    have hbase : inodeAt adr 0 % inopb = 1 := by
      simp only [inodeAt, inopb]
      omega
    by_cases hfull : nicinod ≤ (searchBlock mode incore adr inopb 0 (inodeAt adr 0) fs).2.fs_ninode
    · simp only [if_pos hfull]
      exact ⟨hf.stop (by simp only [inopb]; omega) hfull, fun _ => hbase⟩
    · simp only [if_neg hfull]
      have hlt := Nat.lt_of_not_le hfull
      have hnext : inodeAt adr 0 + inopb = inodeAt (adr + 1) 0 := by
        simp only [inodeAt, inopb]
        omega
      rw [he hlt, hnext]
      rw [hnext] at hf
      obtain ⟨hf', hb⟩ := ih (adr + 1) (inodeAt adr 0) (by omega) hlt
      refine ⟨?_, fun _ => hb (.inr hbase)⟩
      have hend : inodeAt (adr + 1) 0 + n * inopb = inodeAt adr 0 + (n + 1) * inopb := by
        rw [← hnext]
        ring
      rw [hend] at hf'
      exact hf.append (by simp only [inodeAt, inopb]; omega)
        (by rw [← hnext, Nat.add_mul, Nat.one_mul]; omega) hlt hf'

/-- An emptied cache after the search: free inodes in ascending order, and none only if there is none. -/
structure Refilled (fs fs' : Fs) : Prop where
  sorted : fs'.cached.Pairwise (· < ·)
  free : ∀ n ∈ fs'.cached, fs.InRange n ∧ mode n = 0 ∧ incore n = false
  room : fs'.fs_ninode ≤ nicinod
  first : fs'.fs_lasti % inopb = 1
  isize : fs'.fs_isize = fs.fs_isize
  ronly : fs'.fs_ronly = fs.fs_ronly
  none : fs'.fs_ninode = 0 → ∀ n, fs.InRange n → ¬(mode n = 0 ∧ incore n = false)

variable {mode incore}

/-- The pass that ends the search. If it found nothing, it went over all the inodes. -/
theorem Refilled.of_found {fs fs' : Fs} {lo hi inobas : Nat} (hf : Found mode incore lo hi fs fs')
    (h0 : fs.fs_ninode = 0) (hlo : 1 ≤ lo) (hhi : hi ≤ 1 + (fs.fs_isize - 1) * inopb)
    (hb : inobas % inopb = 1)
    (hall : fs'.fs_ninode = 0 → lo = 1 ∧ hi = 1 + (fs.fs_isize - 1) * inopb) :
    Refilled mode incore fs { fs' with fs_lasti := inobas } := by
  obtain ⟨new, hc, hsort, hfree, hrest⟩ := hf.entries
  have hnew : fs'.cached = new := by simpa [Fs.cached, h0] using hc
  have hcache : Fs.cached { fs' with fs_lasti := inobas } = new := hnew
  refine ⟨hcache ▸ hsort, fun n hn => ?_, hf.room, hb, hf.isize, hf.ronly, fun hz n hn hfr => ?_⟩
  · obtain ⟨h₁, h₂, h₃⟩ := hfree n (hcache ▸ hn)
    exact ⟨⟨by omega, by omega⟩, h₃⟩
  · have hz' : fs'.fs_ninode = 0 := hz
    have hnil : new = [] := by
      rw [← hnew]
      simp [Fs.cached, hz']
    obtain ⟨rfl, rfl⟩ := hall hz'
    have hmem := hrest (by rw [hz']; decide) n hn.1 (by have := hn.2; omega) hfr.1 hfr.2
    rw [hnil] at hmem
    cases hmem

variable (mode incore)

theorem fromtop_refilled {fs fs₀ : Fs} (h0 : fs.fs_ninode = 0) (hs : 2 ≤ fs.fs_isize)
    (hi : fs.fs_isize = fs₀.fs_isize) (hro : fs.fs_ronly = fs₀.fs_ronly) :
    Refilled mode incore fs₀ { (fromtop mode incore fs).2 with fs_lasti := (fromtop mode incore fs).1 } := by
  obtain ⟨hf, hb⟩ := @searchBlocks_found mode incore (fs.fs_isize - 1) 1 0 { fs with fs_nbehind := 0 }
    (by omega) (by simp [h0, nicinod])
  have hr := Refilled.of_found hf h0 (Nat.le_refl _) (Nat.le_refl _) (hb (.inl (by omega))) fun _ => ⟨rfl, rfl⟩
  refine ⟨hr.sorted, fun n hn => ?_, hr.room, hr.first, hr.isize.trans hi, hr.ronly.trans hro,
    fun hz n hn => hr.none hz n ?_⟩
  · have hfree := hr.free n hn
    simpa only [Fs.InRange, hi] using hfree
  · simpa only [Fs.InRange, hi] using hn

theorem refill_spec {fs : Fs} (h0 : fs.fs_ninode = 0) (hs : 2 ≤ fs.fs_isize)
    (hl : fs.fs_lasti % inopb = 1) : Refilled mode incore fs (refill mode incore fs) := by
  -- The hint is the first inode of a block.
  obtain ⟨q, hq⟩ : ∃ q, fs.fs_lasti = inodeAt (q + 1) 0 := ⟨fs.fs_lasti / inopb, by
    have := Nat.div_add_mod fs.fs_lasti inopb
    simp only [inodeAt, Nat.add_sub_cancel]
    rw [hl, Nat.mul_comm] at this
    omega⟩
  have hitod : itod fs.fs_lasti = q + 1 := by
    simp only [itod, hq, inodeAt, inopb]
    omega
  unfold refill
  rw [hitod]
  obtain ⟨hf, hb⟩ := @searchBlocks_found mode incore (fs.fs_isize - (q + 1)) (q + 1) 0 fs
    (by omega) (by simp [h0, nicinod])
  rw [← hq] at hf hb
  have hpos : nicinod ≤ (searchBlocks mode incore (fs.fs_isize - (q + 1)) (q + 1) fs.fs_lasti 0 fs).2.fs_ninode →
      0 < fs.fs_isize - (q + 1) := fun hfull => by
    refine Nat.pos_of_ne_zero fun hz => ?_
    simp only [hz, searchBlocks, h0, nicinod] at hfull
    omega
  generalize searchBlocks mode incore (fs.fs_isize - (q + 1)) (q + 1) fs.fs_lasti 0 fs = r at hf hb hpos ⊢
  split
  · dsimp only
    split
    · exact fromtop_refilled mode incore rfl (by simpa only [hf.isize] using hs) hf.isize hf.ronly
    · next hfull =>
      have hfull := Nat.le_of_not_lt hfull
      have hpos := hpos hfull
      refine .of_found hf h0 ?_ ?_ (hb (.inl hpos)) fun hz => ?_
      · rw [hq]
        simp only [inodeAt]
        omega
      · rw [hq]
        simp only [inodeAt, inopb]
        omega
      · rw [hz] at hfull
        simp [nicinod] at hfull
  · exact fromtop_refilled mode incore h0 hs rfl rfl

end

/-! ## ialloc -/

section

variable {s s' : Core} {dev ino i : Nat}

/-- A superblock whose cache is in order takes the place of another. -/
theorem CoreInv.setFs (h : CoreInv s) {fs : Fs} (hi : fs.fs_isize = (s.fs dev).fs_isize)
    (hro : fs.fs_ronly = (s.fs dev).fs_ronly) (hc : CacheInv (s.setFs dev fs) dev) :
    CoreInv (s.setFs dev fs) := by
  have hfs : ∀ d, ((s.setFs dev fs).fs d).fs_ronly = (s.fs d).fs_ronly ∧
      ((s.setFs dev fs).fs d).fs_isize = (s.fs d).fs_isize := by
    intro d
    by_cases hd : d = dev
    · subst hd
      simpa [Core.setFs] using ⟨hro, hi⟩
    · simp [Core.setFs, hd]
  refine ⟨⟨h.table.unused, h.table.nodup, h.table.single, h.table.clean, h.table.idle, h.table.named⟩,
    fun d => ?_, fun j hj hdirty => ?_, fun j hj hcount => ?_⟩
  · by_cases hd : d = dev
    · exact hd ▸ hc
    · refine (h.cache d).keep ?_ (fun _ _ => rfl) (h.cache d).unheld
      simp [Core.setFs, hd]
  · rw [(hfs _).1]
    exact h.writable j hj hdirty
  · simp only [Fs.InRange, (hfs _).2]
    exact h.range j hj hcount

/-- Fields the cache has nothing to do with. -/
theorem CoreInv.setFs_same (h : CoreInv s) {fs : Fs} (hi : fs.fs_isize = (s.fs dev).fs_isize)
    (hro : fs.fs_ronly = (s.fs dev).fs_ronly) (hl : fs.fs_lasti = (s.fs dev).fs_lasti)
    (hn : fs.fs_ninode = (s.fs dev).fs_ninode) (he : fs.fs_inode = (s.fs dev).fs_inode) :
    CoreInv (s.setFs dev fs) := by
  have hc := h.cache dev
  have hcached : fs.cached = (s.fs dev).cached := by simp only [Fs.cached, hn, he]
  have hat : (s.setFs dev fs).fs dev = fs := Function.update_self ..
  refine h.setFs hi hro ?_
  constructor <;> rw [hat]
  · rw [hcached]; exact hc.nodup
  · rw [hcached]; simpa only [Fs.InRange, hi] using hc.range
  · rw [hcached]; exact hc.mode
  · rw [hcached]; exact hc.unheld
  · rw [hn]; exact hc.room
  · rw [hl]; exact hc.first
  · rw [hi]; exact hc.isize

/-- The state with the last entry of the cache taken out. -/
def Core.popped (s : Core) (dev : Nat) : Core :=
  s.setFs dev { s.fs dev with fs_ninode := (s.fs dev).fs_ninode - 1 }

/-- The last entry of the cache. -/
def Core.topIno (s : Core) (dev : Nat) : Nat := (s.fs dev).fs_inode ((s.fs dev).fs_ninode - 1)

theorem cached_pop (hn : 0 < (s.fs dev).fs_ninode) :
    (s.fs dev).cached = ((s.popped dev).fs dev).cached ++ [s.topIno dev] := by
  obtain ⟨n, hn⟩ : ∃ n, (s.fs dev).fs_ninode = n + 1 := ⟨(s.fs dev).fs_ninode - 1, by omega⟩
  simp only [Core.popped, Core.topIno, Core.setFs, Function.update_self, Fs.cached, hn, List.range_succ,
    List.map_append, List.map_cons, List.map_nil, Nat.add_sub_cancel]

theorem CoreInv.popped (h : CoreInv s) (hn : 0 < (s.fs dev).fs_ninode) : CoreInv (s.popped dev) := by
  have hc := h.cache dev
  have hcached := cached_pop hn
  have hat : (s.popped dev).fs dev = { s.fs dev with fs_ninode := (s.fs dev).fs_ninode - 1 } :=
    Function.update_self ..
  have hsub : ∀ n ∈ ((s.popped dev).fs dev).cached, n ∈ (s.fs dev).cached := fun n hm => by
    rw [hcached]
    exact List.mem_append_left _ hm
  have hnew : CacheInv (s.popped dev) dev := by
    constructor
    · exact (List.nodup_append.mp (hcached ▸ hc.nodup)).1
    · intro n hm
      have hr := hc.range n (hsub n hm)
      simpa only [hat, Fs.InRange] using hr
    · exact fun n hm => hc.mode n (hsub n hm)
    · exact fun n hm => hc.unheld n (hsub n hm)
    · have hroom := hc.room
      rw [hat]
      dsimp only
      omega
    · rw [hat]
      exact hc.first
    · rw [hat]
      exact hc.isize
  exact h.setFs rfl rfl hnew

/-- What is taken out of the cache is nobody's, and is not in it any more. -/
theorem CoreInv.topIno (h : CoreInv s) (hn : 0 < (s.fs dev).fs_ninode) :
    (s.fs dev).InRange (s.topIno dev) ∧ ¬s.Allocated dev (s.topIno dev) ∧
      s.topIno dev ∉ ((s.popped dev).fs dev).cached := by
  have hc := h.cache dev
  have hcached := cached_pop hn
  have hm : s.topIno dev ∈ (s.fs dev).cached := by simp [hcached]
  refine ⟨hc.range _ hm, fun ha => h.not_cached ha hm, fun hin => ?_⟩
  have hd := hc.nodup
  rw [hcached] at hd
  exact (List.nodup_append.mp hd).2.2 _ hin _ (by simp) rfl

/-- The inode `iget` brings for a number nobody has. -/
theorem iget_free (h : CoreInv s) (hino : ino ≠ 0) (hfree : ¬s.Allocated dev ino)
    (hg : s.iget dev ino = (some i, s')) :
    i < s'.ninode ∧ (s'.inode i).i_number = ino ∧ (s'.inode i).i_dev = dev ∧ (s'.inode i).i_mode = 0 := by
  have ht := h.table
  have hmode : (s.dino dev ino).di_mode = 0 := by
    by_contra hne
    exact hfree (.inl hne)
  rcases iget_cases ht dev ino with ⟨j, hj, hn, hd, heq⟩ | ⟨j, rest, hl, -, heq⟩ | heq
  · rw [hg] at heq
    obtain ⟨hij, rfl⟩ := Prod.mk.inj heq
    cases hij
    have hcount : (s.inode i).i_count = 0 := by
      by_contra hne
      exact hfree (.inr ⟨i, hj, hn, hd, Nat.pos_of_ne_zero hne⟩)
    have hclean := ht.clean i hj (by rwa [hn]) (ht.idle i hj hcount)
    rw [hn, hd] at hclean
    refine ⟨hj, ?_, ?_, ?_⟩
    · simpa using hn
    · simpa using hd
    · simpa [hclean] using hmode
  · rw [hg] at heq
    obtain ⟨hij, rfl⟩ := Prod.mk.inj heq
    cases hij
    have hi : i < s.ninode := ((ht.unused i).mp (by simp [hl])).1
    exact ⟨hi, by simp, by simp, by simpa using hmode⟩
  · rw [hg] at heq
    cases heq

/-- The state with the cache filled by the search. -/
def Core.refilled (s : Core) (dev : Nat) : Core :=
  s.setFs dev (refill (fun ino => (s.dino dev ino).di_mode) (fun ino => (s.ifind dev ino).isSome) (s.fs dev))

theorem CoreInv.refilled (h : CoreInv s) (h0 : (s.fs dev).fs_ninode = 0) :
    CoreInv (s.refilled dev) ∧ (((s.refilled dev).fs dev).fs_ninode = 0 →
      ∀ ino, (s.fs dev).InRange ino → s.Allocated dev ino ∨ (s.ifind dev ino).isSome) := by
  have hc := h.cache dev
  have hr := refill_spec (fun ino => (s.dino dev ino).di_mode) (fun ino => (s.ifind dev ino).isSome) h0
    hc.isize hc.first
  have hat : (s.refilled dev).fs dev = refill (fun ino => (s.dino dev ino).di_mode)
      (fun ino => (s.ifind dev ino).isSome) (s.fs dev) := Function.update_self ..
  have hnew : CacheInv (s.refilled dev) dev := by
    constructor <;> rw [hat]
    · exact hr.sorted.imp Nat.ne_of_lt
    · intro n hn
      have hin := (hr.free n hn).1
      simpa only [Fs.InRange, hr.isize] using hin
    · exact fun n hn => (hr.free n hn).2.1
    · rintro n hn ⟨i, hi, h₁, h₂, -⟩
      have hnone : s.ifind dev n = none := by
        have := (hr.free n hn).2.2
        simpa using this
      exact ifind_none hnone hi ⟨h₁, h₂⟩
    · exact hr.room
    · exact hr.first
    · rw [hr.isize]
      exact hc.isize
  refine ⟨h.setFs hr.isize hr.ronly hnew, fun hz n hn => ?_⟩
  rw [hat] at hz
  have hno := hr.none hz n hn
  by_contra hneither
  simp only [not_or, Core.Allocated] at hneither
  refine hno ⟨?_, ?_⟩
  · simpa using hneither.1.1
  · simpa using hneither.2

/-- `ialloc`, turn by turn. -/
theorem ialloc_succ (dev turns : Nat) (s : Core) :
    Core.ialloc dev (turns + 1) s =
      if 0 < (s.fs dev).fs_ninode then
        if s.topIno dev ≤ rootino then Core.ialloc dev turns (s.popped dev)
        else
          match (s.popped dev).iget dev (s.topIno dev) with
          | (none, s) => some (.enfile, s)
          | (some i, s) =>
            if (s.inode i).i_mode = 0 then
              some (.inode i, s.setFs dev { s.fs dev with
                fs_fmod := true, fs_tinode := wrap 32 ((s.fs dev).fs_tinode + (2 ^ 32 - 1)) })
            else Core.ialloc dev turns (s.irele i)
      else if 0 < ((s.refilled dev).fs dev).fs_ninode then Core.ialloc dev turns (s.refilled dev)
      else some (.enospc, s.refilled dev) := rfl

/-- What a call of `ialloc` that returns has done: the inode it returns was nobody's, and `ENOSPC` means
    that every inode is a file or in core. -/
structure Iallocated (s : Core) (dev : Nat) (r : Ialloc) (s' : Core) : Prop where
  inv : CoreInv s'
  fresh : ∀ i, r = .inode i → i < s'.ninode ∧ (s'.inode i).i_dev = dev ∧
    (s.fs dev).InRange (s'.inode i).i_number ∧ ¬s.Allocated dev (s'.inode i).i_number
  full : r = .enospc → ∀ ino, (s.fs dev).InRange ino → s.Allocated dev ino ∨ (s.ifind dev ino).isSome

/-- A superblock is no part of what the call is about. -/
theorem Iallocated.of_setFs {fs : Fs} {r : Ialloc} (h : Iallocated (s.setFs dev fs) dev r s')
    (hi : fs.fs_isize = (s.fs dev).fs_isize) : Iallocated s dev r s' := by
  have hat : (s.setFs dev fs).fs dev = fs := Function.update_self ..
  refine ⟨h.inv, fun i hr => ?_, fun hr ino hin => h.full hr ino ?_⟩
  · obtain ⟨h₁, h₂, h₃, h₄⟩ := h.fresh i hr
    rw [hat] at h₃
    simp only [Fs.InRange, hi] at h₃
    exact ⟨h₁, h₂, h₃, h₄⟩
  · rw [hat]
    simpa only [Fs.InRange, hi] using hin

theorem ialloc_spec (h : CoreInv s) {turns : Nat} {r : Ialloc}
    (hr : Core.ialloc dev turns s = some (r, s')) : Iallocated s dev r s' := by
  induction turns generalizing s with
  | zero => cases hr
  | succ turns ih =>
    rw [ialloc_succ] at hr
    by_cases hn : 0 < (s.fs dev).fs_ninode
    · rw [if_pos hn] at hr
      obtain ⟨hrange, hfree, hout⟩ := h.topIno hn
      have hpop := h.popped hn
      split at hr
      · have hnext : Iallocated (s.setFs dev { s.fs dev with fs_ninode := (s.fs dev).fs_ninode - 1 }) dev r s' :=
          ih hpop hr
        exact hnext.of_setFs rfl
      · have hat : (s.popped dev).fs dev = { s.fs dev with fs_ninode := (s.fs dev).fs_ninode - 1 } :=
          Function.update_self ..
        have hrange' : ((s.popped dev).fs dev).InRange (s.topIno dev) := by
          rw [hat]
          exact hrange
        have hget := hpop.iget hrange' hout
        split at hr
        · next s₁ hg =>
          simp only [Option.some.injEq, Prod.mk.injEq] at hr
          obtain ⟨rfl, rfl⟩ := hr
          rw [hg] at hget
          exact ⟨hget, fun i he => (by cases he), fun he => (by cases he)⟩
        · next i s₁ hg =>
          rw [hg] at hget
          obtain ⟨h₁, h₂, h₃, h₄⟩ := iget_free hpop (by have := hrange.1; omega) hfree hg
          rw [if_pos h₄] at hr
          simp only [Option.some.injEq, Prod.mk.injEq] at hr
          obtain ⟨rfl, rfl⟩ := hr
          refine ⟨hget.setFs_same rfl rfl rfl rfl rfl, fun j he => ?_, fun he => (by cases he)⟩
          cases he
          exact ⟨h₁, h₃, by rw [← h₂] at hrange; exact hrange, by rw [← h₂] at hfree; exact hfree⟩
    · rw [if_neg hn] at hr
      have h0 : (s.fs dev).fs_ninode = 0 := by omega
      obtain ⟨hinv, hnone⟩ := h.refilled h0
      split at hr
      · have hc := h.cache dev
        refine (ih hinv hr).of_setFs ?_
        exact (refill_spec _ _ h0 hc.isize hc.first).isize
      · next hz =>
        simp only [Option.some.injEq, Prod.mk.injEq] at hr
        obtain ⟨rfl, rfl⟩ := hr
        exact ⟨hinv, fun i he => (by cases he), fun _ => hnone (by omega)⟩

/-- A turn that finds an entry returns, for the entry is no inode the loop passes over. -/
theorem ialloc_pop_returns (h : CoreInv s) (hmin : ∀ ino ≤ rootino, 1 ≤ ino → (s.dino dev ino).di_mode ≠ 0)
    (hn : 0 < (s.fs dev).fs_ninode) (turns : Nat) : (Core.ialloc dev (turns + 1) s).isSome := by
  obtain ⟨hrange, hfree, -⟩ := h.topIno hn
  have hbig : ¬s.topIno dev ≤ rootino := fun hle => hfree (.inl (hmin _ hle hrange.1))
  rw [ialloc_succ, if_pos hn, if_neg hbig]
  split
  · rfl
  · next i s₁ hg =>
    obtain ⟨-, -, -, hz⟩ := iget_free (h.popped hn) (by have := hrange.1; omega) hfree hg
    rw [if_pos hz]
    rfl

/-- `ialloc` returns, on a volume whose first two inodes are files, as `mkfs` makes them. -/
theorem ialloc_returns (h : CoreInv s) (hmin : ∀ ino ≤ rootino, 1 ≤ ino → (s.dino dev ino).di_mode ≠ 0) :
    (Core.ialloc dev 2 s).isSome := by
  by_cases hn : 0 < (s.fs dev).fs_ninode
  · exact ialloc_pop_returns h hmin hn 1
  · have h0 : (s.fs dev).fs_ninode = 0 := by omega
    rw [ialloc_succ, if_neg hn]
    split
    · next hpos => exact ialloc_pop_returns (h.refilled h0).1 hmin hpos 0
    · rfl

/-! ## Runs -/

theorem CoreInv.iupdat (h : CoreInv s) (hi : s.Held i) : CoreInv (s.iupdat i) := by
  obtain ⟨hlt, hpos⟩ := hi
  have hname := h.table.named i hlt hpos
  have hout := h.held_not_cached ⟨hlt, hpos⟩
  unfold Core.iupdat
  dsimp only
  split
  · exact h
  · next hdirty =>
    rw [if_neg (by simpa using h.writable i hlt (by simpa using hdirty))]
    obtain ⟨hwrite, hrange⟩ := h.slot_facts i { s.inode i with dirty := false } s.fs (fun _ => ⟨rfl, rfl⟩)
      (by simp) fun _ => h.range i hlt hpos
    change CoreInv { (s.setDino (s.inode i).i_dev (s.inode i).i_number
        ⟨(s.inode i).i_mode, (s.inode i).i_nlink⟩) with
      inode := Function.update s.inode i { s.inode i with dirty := false }
      ifreeh := s.ifreeh }
    refine ⟨h.table.slot hlt ?_ h.table.nodup ?_ (fun _ => by simp [Core.setDino])
      (fun _ => rfl) hname fun d n hne => setDino_of_ne hne, fun d => ?_, hwrite, hrange⟩
    · intro j
      rw [h.table.unused]
      by_cases hji : j = i
      · subst hji
        simp only [Function.update_self]
      · rw [Function.update_of_ne hji]
    · exact fun j hj hji hc => hji (h.table.single j hj i hlt (by rw [hc.1]; exact hname) hc.1 hc.2)
    · refine (h.cache d).keep rfl (fun n hn => ?_) fun n hn hr => ?_
      · rw [setDino_of_ne]
        rintro ⟨rfl, rfl⟩
        exact hout hn
      · refine (h.cache d).unheld n hn ?_
        rcases referenced_slot hr with ⟨h₁, h₂, h₃⟩ | ⟨j, hj, -, h₁, h₂, h₃⟩
        · exact ⟨i, hlt, h₁, h₂, h₃⟩
        · exact ⟨j, hj, h₁, h₂, h₃⟩

/-- Every legal step keeps the table and the caches. -/
theorem CoreInv.step (h : CoreInv s) {a : Step} (hl : s.Legal a) (hs : s.step a = some s') : CoreInv s' := by
  cases a with
  | ialloc dev turns =>
    obtain ⟨⟨r, s₁⟩, hr, rfl⟩ := Option.map_eq_some_iff.mp hs
    exact (ialloc_spec h hr).inv
  | iget dev ino =>
    cases hs
    exact h.iget hl.1 (h.not_cached hl.2)
  | iput i =>
    cases hs
    exact h.irele hl
  | set i mode nlink =>
    cases hs
    exact h.rewrite hl.1 rfl rfl hl.1.2 (by simp) fun _ => hl.2.2
  | unlink i =>
    cases hs
    exact h.rewrite hl.1 rfl rfl hl.1.2 (by simp) fun _ => hl.2.2
  | iupdat i =>
    cases hs
    exact h.iupdat hl

theorem CoreInv.reach {s₀ : Core} (h : CoreInv s₀) (hr : Core.Reach s₀ s) : CoreInv s := by
  induction hr with
  | refl => exact h
  | step _ hl hs ih => exact ih.step hl hs

/-- After any legal steps the entries of every cache are distinct inodes of the volume with mode zero on
    the disk and without a reference; what `ialloc` returns was allocated to nobody; `ENOSPC` means that
    every inode is allocated or in core; and the call returns where inode 1 and the root are files. -/
theorem inode_cache {s₀ : Core} (h : CoreInv s₀) (hr : Core.Reach s₀ s) (dev : Nat) :
    (s.fs dev).cached.Nodup ∧
    (∀ ino ∈ (s.fs dev).cached,
      (s.fs dev).InRange ino ∧ (s.dino dev ino).di_mode = 0 ∧ ¬s.Referenced dev ino) ∧
    (∀ turns r s', Core.ialloc dev turns s = some (r, s') →
      (∀ i, r = .inode i → (s'.inode i).i_dev = dev ∧ (s.fs dev).InRange (s'.inode i).i_number ∧
        ¬s.Allocated dev (s'.inode i).i_number) ∧
      (r = .enospc → ∀ ino, (s.fs dev).InRange ino → s.Allocated dev ino ∨ (s.ifind dev ino).isSome)) ∧
    ((∀ ino ≤ rootino, 1 ≤ ino → (s.dino dev ino).di_mode ≠ 0) → (Core.ialloc dev 2 s).isSome) := by
  have hs := h.reach hr
  have hc := hs.cache dev
  refine ⟨hc.nodup, fun ino hm => ⟨hc.range ino hm, hc.mode ino hm, hc.unheld ino hm⟩,
    fun turns r s' hi => ?_, ialloc_returns hs⟩
  have hspec := ialloc_spec hs hi
  exact ⟨fun i he => (hspec.fresh i he).2, hspec.full⟩

end

instance Core.decidableLegal (s : Core) (a : Step) : Decidable (s.Legal a) :=
  match a with
  | .ialloc _ _ => inferInstanceAs (Decidable True)
  | .iget _ _ => inferInstanceAs (Decidable ((_ ∧ _) ∧ (_ ∨ ∃ i < s.ninode, _ ∧ _ ∧ _)))
  | .iput _ => inferInstanceAs (Decidable (_ ∧ _))
  | .set _ _ _ => inferInstanceAs (Decidable ((_ ∧ _) ∧ _ ∧ _))
  | .unlink _ => inferInstanceAs (Decidable ((_ ∧ _) ∧ _ ∧ _))
  | .iupdat _ => inferInstanceAs (Decidable (_ ∧ _))

/-- Legal steps, one after the other. -/
def Core.run (s : Core) : List Step → Option Core
  | [] => some s
  | a :: as => if s.Legal a then (s.step a).bind fun s => s.run as else none

theorem Core.reach_of_run {s₀ s s' : Core} (h : Core.Reach s₀ s) {as : List Step} (hr : s.run as = some s') :
    Core.Reach s₀ s' := by
  induction as generalizing s with
  | nil =>
    cases hr
    exact h
  | cons a as ih =>
    simp only [Core.run] at hr
    split at hr
    · next hl =>
      obtain ⟨s₁, hs, hr⟩ := Option.bind_eq_some_iff.mp hr
      exact ih (h.step hl hs) hr
    · cases hr

/-- A volume of one block of inodes, of which two are files, and a table of two slots. -/
def tinyCore : Core where
  ninode := 2
  inode := fun _ => ⟨0, 0, 0, 0, 0, false⟩
  ifreeh := [0, 1]
  fs := fun _ =>
    { fs_isize := 2, fs_fsize := 5, fs_nfree := 0, fs_free := fun _ => 0, fs_ninode := 0
      fs_inode := fun _ => 0, fs_fmod := false, fs_ronly := false, fs_tfree := 0, fs_tinode := 14
      fs_lasti := 1, fs_nbehind := 0 }
  dino := fun _ ino => if ino ≤ 2 then ⟨0o40755, 2⟩ else ⟨0, 0⟩

theorem tinyCore_inv : CoreInv tinyCore where
  table :=
    { unused := by
        intro i
        simp only [tinyCore, List.mem_cons, List.not_mem_nil, or_false, and_true]
        omega
      nodup := by decide
      single := fun _ _ _ _ hne => absurd rfl hne
      clean := fun _ _ hne => absurd rfl hne
      idle := fun _ _ _ => rfl
      named := fun _ _ hc => absurd hc (Nat.lt_irrefl 0) }
  cache := fun dev =>
    { nodup := List.nodup_nil
      range := fun _ hm => (nomatch hm)
      mode := fun _ hm => (nomatch hm)
      unheld := fun _ hm => (nomatch hm)
      room := by simp [tinyCore]
      first := rfl
      isize := Nat.le_refl _ }
  writable := fun _ _ hd => (nomatch hd)
  range := fun _ _ hc => absurd hc (Nat.lt_irrefl 0)

/-- A file is made and removed again. -/
def makeRemove : List Step := [.ialloc 0 2, .set 0 0o100644 1, .iupdat 0, .unlink 0, .iput 0]

theorem inode_cache_tiny :
    ∃ s, tinyCore.run makeRemove = some s ∧ (s.fs 0).cached.Nodup ∧ (Core.ialloc 0 2 s).isSome := by
  obtain ⟨s, hs⟩ : ∃ s, tinyCore.run makeRemove = some s :=
    Option.isSome_iff_exists.mp (by decide +kernel)
  have hfiles : tinyCore.run makeRemove = some s →
      ∀ ino ≤ rootino, 1 ≤ ino → (s.dino 0 ino).di_mode ≠ 0 := fun h => by
    have hd : (tinyCore.run makeRemove).all
        (fun s => decide (∀ ino ≤ rootino, 1 ≤ ino → (s.dino 0 ino).di_mode ≠ 0)) = true := by
      decide +kernel
    rw [h] at hd
    simpa using hd
  have hcache := inode_cache tinyCore_inv (Core.reach_of_run .refl hs) 0
  exact ⟨s, hs, hcache.1, hcache.2.2.2 (hfiles hs)⟩

/-- The inode of the removed file is in the cache, and in core. -/
theorem inode_cache_incore :
    CoreInv tinyCore ∧ ∃ s, Core.Reach tinyCore s ∧
      ∃ ino ∈ (s.fs 0).cached, (s.ifind 0 ino).isSome = true := by
  obtain ⟨s, hs⟩ : ∃ s, tinyCore.run makeRemove = some s :=
    Option.isSome_iff_exists.mp (by decide +kernel)
  refine ⟨tinyCore_inv, s, Core.reach_of_run .refl hs, ?_⟩
  have hd : (tinyCore.run makeRemove).all
      (fun s => decide (∃ ino ∈ (s.fs 0).cached, (s.ifind 0 ino).isSome = true)) = true := by
    decide +kernel
  rw [hs] at hd
  simpa using hd

end DiscoBSD.Ufs
