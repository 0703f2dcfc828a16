import Mathlib.Data.List.Perm.Basic
import Mathlib.Tactic.IntervalCases
import DiscoBSD.Ufs.Bmap
import DiscoBSD.Ufs.Stack

/-!
# Where the blocks are

The blocks of a file are a tree over the words of the disk, and a call on a file moves blocks **between the
free list and that tree**: it reads and writes nothing else. `Moves` says so for a call, and calls on parts
of a tree are put together with `Moves.trans` and `Moves.frame`.
-/

set_option autoImplicit false

namespace DiscoBSD.Ufs

open DiscoBSD.Lib

/-! ## Trees -/

/-- The blocks under `nb` with `k` levels of pointers, `nb` itself with them. -/
def blocksAt (blk : Nat → Nat → Nat) : Nat → Nat → List Nat
  | 0, nb => if nb = 0 then [] else [nb]
  | k + 1, nb =>
    if nb = 0 then [] else nb :: (List.range nindir).flatMap fun i => blocksAt blk k (blk nb i)

/-- The trees under the pointers `ptr i`, each with its own number of levels. -/
def forest (blk : Nat → Nat → Nat) (is : List Nat) (lev ptr : Nat → Nat) : List Nat :=
  is.flatMap fun i => blocksAt blk (lev i) (ptr i)

/-- The blocks of a file. -/
def treeOf (blk : Nat → Nat → Nat) (addr : Nat → Nat) : List Nat :=
  forest blk (List.range naddr) (· - 3) addr

section

variable {blk blk' : Nat → Nat → Nat} {k nb : Nat} {is : List Nat} {lev ptr : Nat → Nat}

theorem blocksAt_succ (hz : nb ≠ 0) :
    blocksAt blk (k + 1) nb = nb :: forest blk (List.range nindir) (fun _ => k) (blk nb) := by
  simp only [blocksAt, if_neg hz, forest]

@[simp] theorem blocksAt_zero (blk : Nat → Nat → Nat) (k : Nat) : blocksAt blk k 0 = [] := by
  cases k <;> simp [blocksAt]

theorem mem_blocksAt_self (h : nb ≠ 0) : nb ∈ blocksAt blk k nb := by
  cases k <;> simp [blocksAt, h]

/-- Only the blocks of a tree are read to find them. -/
theorem blocksAt_frame (h : ∀ b ∈ blocksAt blk k nb, blk' b = blk b) :
    blocksAt blk' k nb = blocksAt blk k nb := by
  induction k generalizing nb with
  | zero => rfl
  | succ k ih =>
    by_cases hz : nb = 0
    · simp [hz]
    · simp only [blocksAt, if_neg hz] at h ⊢
      rw [h nb (by simp)]
      congr 1
      refine List.flatMap_congr fun i hi => ?_
      refine ih fun b hb => h b (List.mem_cons_of_mem _ ?_)
      exact List.mem_flatMap.mpr ⟨i, hi, hb⟩

theorem forest_frame (h : ∀ b ∈ forest blk is lev ptr, blk' b = blk b) :
    forest blk' is lev ptr = forest blk is lev ptr :=
  List.flatMap_congr fun i hi =>
    blocksAt_frame fun b hb => h b (List.mem_flatMap.mpr ⟨i, hi, hb⟩)

theorem forest_congr {ptr' : Nat → Nat} (h : ∀ i ∈ is, ptr' i = ptr i) :
    forest blk is lev ptr' = forest blk is lev ptr :=
  List.flatMap_congr fun i hi => by rw [h i hi]

/-- A forest without roots. -/
theorem forest_nil (h : ∀ i ∈ is, ptr i = 0) : forest blk is lev ptr = [] :=
  List.flatMap_eq_nil_iff.mpr fun i hi => by rw [h i hi, blocksAt_zero]

/-- A block without pointers is all there is under it. -/
theorem blocksAt_cleared (hz : nb ≠ 0) (h : ∀ i < nindir, blk nb i = 0) : blocksAt blk k nb = [nb] := by
  cases k with
  | zero => simp [blocksAt, hz]
  | succ k => rw [blocksAt_succ hz, forest_nil fun i hi => h i (List.mem_range.mp hi)]

/-- One tree of a forest, and the others. -/
theorem forest_pick {i : Nat} (hi : i ∈ is) :
    (forest blk is lev ptr).Perm (blocksAt blk (lev i) (ptr i) ++ forest blk (is.erase i) lev ptr) :=
  (List.perm_cons_erase hi).flatMap_right _

end

/-! ## Moving blocks -/

/-- The stack and the blocks of a part of the file system are apart, in the data area. -/
structure Owned (v : Volume) (l own : List Nat) : Prop where
  refines : Refines v l
  nodup : (l ++ own).Nodup
  good : ∀ b ∈ own, ¬v.fs.badblock b

/-- Blocks go between the stack and that part, and nothing else is written. -/
structure Moves (v : Volume) (l own : List Nat) (v' : Volume) (l' own' : List Nat) : Prop where
  refines : Refines v' l'
  perm : (l' ++ own').Perm (l ++ own)
  same : ∀ b, b ∉ l ++ own → v'.blk b = v.blk b
  isize : v'.fs.fs_isize = v.fs.fs_isize
  fsize : v'.fs.fs_fsize = v.fs.fs_fsize

section

variable {v v' v'' : Volume} {l l' l'' own own' own'' : List Nat}

theorem Moves.refl (h : Refines v l) (own : List Nat) : Moves v l own v l own :=
  ⟨h, .refl _, fun _ _ => rfl, rfl, rfl⟩

theorem Moves.trans (h : Moves v l own v' l' own') (h' : Moves v' l' own' v'' l'' own'') :
    Moves v l own v'' l'' own'' where
  refines := h'.refines
  perm := h'.perm.trans h.perm
  same := fun b hb => by rw [h'.same b fun hm => hb (h.perm.mem_iff.mp hm), h.same b hb]
  isize := h'.isize.trans h.isize
  fsize := h'.fsize.trans h.fsize

/-- A part that has nothing to do with it. -/
theorem Moves.frame (h : Moves v l own v' l' own') (r : List Nat) : Moves v l (own ++ r) v' l' (own' ++ r) where
  refines := h.refines
  perm := by
    rw [← List.append_assoc, ← List.append_assoc]
    exact h.perm.append_right r
  same := fun b hb => h.same b fun hm => hb (by
    rw [← List.append_assoc]
    exact List.mem_append_left _ hm)
  isize := h.isize
  fsize := h.fsize

theorem Moves.congr (h : Moves v l own v' l' own') {o o' : List Nat} (ho : o.Perm own) (ho' : o'.Perm own') :
    Moves v l o v' l' o' where
  refines := h.refines
  perm := ((ho'.append_left l').trans h.perm).trans (ho.symm.append_left l)
  same := fun b hb => h.same b fun hm => hb ((ho.append_left l).mem_iff.mpr hm)
  isize := h.isize
  fsize := h.fsize

theorem Owned.moves (h : Owned v l own) (hm : Moves v l own v' l' own') : Owned v' l' own' where
  refines := hm.refines
  nodup := hm.perm.nodup_iff.mpr h.nodup
  good := by
    intro b hb
    have hin := hm.perm.mem_iff.mp (List.mem_append_right l' hb)
    have hold : ¬v.fs.badblock b := by
      rcases List.mem_append.mp hin with hl | ho
      · exact h.refines.good b hl
      · exact h.good b ho
    simpa only [Fs.badblock, hm.isize, hm.fsize] using hold

theorem Owned.congr (h : Owned v l own) {o : List Nat} (ho : o.Perm own) : Owned v l o :=
  ⟨h.refines, (ho.append_left l).nodup_iff.mpr h.nodup, fun b hb => h.good b (ho.mem_iff.mp hb)⟩

theorem Owned.left {a r : List Nat} (h : Owned v l (a ++ r)) : Owned v l a := by
  have hd := h.nodup
  rw [← List.append_assoc] at hd
  exact ⟨h.refines, (List.nodup_append.mp hd).1, fun b hb => h.good b (List.mem_append_left _ hb)⟩

/-- What is not of the part that moves stays as it is. -/
theorem Owned.apart {a r : List Nat} (h : Owned v l (a ++ r)) {b : Nat} (hb : b ∈ r) : b ∉ l ++ a := by
  have hd := h.nodup
  rw [← List.append_assoc] at hd
  exact fun hm => (List.nodup_append.mp hd).2.2 b hm b hb rfl

theorem Owned.not_mem (h : Owned v l own) {b : Nat} (hb : b ∈ own) : b ∉ l := fun hl =>
  (List.nodup_append.mp h.nodup).2.2 b hl b hb rfl

/-- `balloc`: nothing from an empty stack, and else its top becomes part of the file. -/
theorem balloc_moves (h : Refines v l) (clr : Bool) :
    (l = [] ∧ ∃ v', v.balloc clr = (none, v') ∧ v'.blk = v.blk ∧ Moves v [] [] v' [] []) ∨
    ∃ b t v', l = b :: t ∧ v.balloc clr = (some b, v') ∧ Moves v (b :: t) [] v' t [b] ∧
      (clr = true → ∀ i, v'.blk b i = 0) := by
  cases l with
  | nil =>
    refine .inl ⟨rfl, v.nospace, balloc_nil h clr, rfl, ?_⟩
    exact ⟨nospace_refines h, .refl _, fun _ _ => rfl, rfl, rfl⟩
  | cons b t =>
    obtain ⟨w, hw, hr, h₁, h₂, hblk⟩ := balloc_cons h clr
    refine .inr ⟨b, t, w, rfl, hw, ⟨hr, ?_, fun c hc => ?_, h₁, h₂⟩, fun hclr i => ?_⟩
    · simp
    · rw [hblk]
      split
      · rw [Function.update_of_ne]
        rintro rfl
        simp at hc
      · rfl
    · rw [hblk, if_pos hclr, Function.update_self]

theorem free_moves {b : Nat} (h : Owned v l [b]) : Moves v l [b] (v.free b) (b :: l) [] := by
  obtain ⟨hr, h₁, h₂, hblk⟩ := free_spec h.refines (h.good b (by simp)) (h.not_mem (by simp))
  refine ⟨hr, ?_, fun c hc => hblk c fun he => hc (by simp [he]), h₁, h₂⟩
  simpa using (List.perm_append_singleton b l).symm

/-- A block of the part is written. -/
theorem setBlk_moves (h : Owned v l own) {b : Nat} (hb : b ∈ own) (w : Nat → Nat) :
    Moves v l own (v.setBlk b w) l own where
  refines := h.refines.frame fun c hc => by
    have hne : c ≠ b := fun he => h.not_mem hb (he ▸ hc)
    exact Function.update_of_ne hne ..
  perm := .refl _
  same := fun c hc => by
    have hne : c ≠ b := fun he => hc (by simp [he, hb])
    exact Function.update_of_ne hne ..
  isize := rfl
  fsize := rfl

end

/-! ## One tree of a forest -/

/-- A block of a forest that holds no pointers: whatever is written there, the forest stays. -/
def Leaf (blk : Nat → Nat → Nat) (trees : (Nat → Nat → Nat) → List Nat) (b : Nat) : Prop :=
  b ∈ trees blk ∧ ∀ w, trees (Function.update blk b w) = trees blk

section

variable {v v' : Volume} {l l' : List Nat} {is : List Nat} {lev ptr : Nat → Nat} {i : Nat}

/-- Blocks that go in or out of one tree do so for the forest; the tree may get another root. -/
theorem Moves.retree (hi : i ∈ is) (hd : is.Nodup) (h : Owned v l (forest v.blk is lev ptr)) {p : Nat}
    (hm : Moves v l (blocksAt v.blk (lev i) (ptr i)) v' l' (blocksAt v'.blk (lev i) p)) :
    Moves v l (forest v.blk is lev ptr) v' l' (forest v'.blk is lev (Function.update ptr i p)) := by
  have hpick := h.congr (forest_pick hi).symm
  have hrest : forest v'.blk (is.erase i) lev (Function.update ptr i p) = forest v.blk (is.erase i) lev ptr := by
    rw [forest_congr fun j hj => Function.update_of_ne ((hd.mem_erase_iff).mp hj).1 ..]
    exact forest_frame fun b hb => hm.same b (hpick.apart hb)
  refine (hm.frame (forest v.blk (is.erase i) lev ptr)).congr (forest_pick hi) ?_
  have hnew := @forest_pick v'.blk is lev (Function.update ptr i p) i hi
  rwa [Function.update_self, hrest] at hnew

theorem Moves.tree (hi : i ∈ is) (hd : is.Nodup) (h : Owned v l (forest v.blk is lev ptr))
    (hm : Moves v l (blocksAt v.blk (lev i) (ptr i)) v' l' (blocksAt v'.blk (lev i) (ptr i))) :
    Moves v l (forest v.blk is lev ptr) v' l' (forest v'.blk is lev ptr) := by
  have := hm.retree hi hd h
  rwa [Function.update_eq_self] at this

/-- A leaf of one tree is one of the forest. -/
theorem Leaf.tree (hi : i ∈ is) (hd : is.Nodup) {blk : Nat → Nat → Nat} {b : Nat}
    (hn : (forest blk is lev ptr).Nodup) (h : Leaf blk (fun blk => blocksAt blk (lev i) (ptr i)) b) :
    Leaf blk (fun blk => forest blk is lev ptr) b := by
  have hpick := (forest_pick hi).nodup_iff.mp hn
  refine ⟨(forest_pick hi).mem_iff.mpr (List.mem_append_left _ h.1), fun w => ?_⟩
  refine List.flatMap_congr fun j hj => ?_
  by_cases hji : j = i
  · rw [hji]
    exact h.2 w
  · refine blocksAt_frame fun c hc => Function.update_of_ne ?_ ..
    rintro rfl
    have hother : c ∈ forest blk (is.erase i) lev ptr :=
      List.mem_flatMap.mpr ⟨j, (hd.mem_erase_iff).mpr ⟨hji, hj⟩, hc⟩
    exact (List.nodup_append.mp hpick).2.2 c h.1 c hother rfl

/-- A forest that got a tree of one cleared block where it had none. -/
theorem forest_hang (hi : i ∈ is) (hd : is.Nodup) {blk blk' : Nat → Nat → Nat} {b : Nat} (hz : ptr i = 0)
    (hb : b ≠ 0) (hclr : lev i = 0 ∨ ∀ j < nindir, blk' b j = 0)
    (hsame : ∀ c ∈ forest blk is lev ptr, blk' c = blk c) :
    (forest blk' is lev (Function.update ptr i b)).Perm (b :: forest blk is lev ptr) := by
  have hnew : blocksAt blk' (lev i) b = [b] := by
    rcases hclr with h0 | hclr
    · rw [h0]
      simp [blocksAt, hb]
    · exact blocksAt_cleared hb hclr
  have hold : (forest blk is lev ptr).Perm (forest blk (is.erase i) lev ptr) := by
    have := @forest_pick blk is lev ptr i hi
    rwa [hz, blocksAt_zero, List.nil_append] at this
  have hrest : forest blk' (is.erase i) lev (Function.update ptr i b) = forest blk (is.erase i) lev ptr := by
    rw [forest_congr fun j hj => Function.update_of_ne ((hd.mem_erase_iff).mp hj).1 ..]
    exact forest_frame fun c hc => hsame c (hold.mem_iff.mpr hc)
  refine (forest_pick hi).trans ?_
  rw [Function.update_self, hnew, hrest]
  exact (hold.symm.cons b)

end

/-! ## bmap -/

section

variable {v : Volume} {l : List Nat}

/-- Under an indirect block: the block, and the forest of its pointers. -/
theorem Moves.under {nb k : Nat} {v' : Volume} {l' : List Nat} (hz : nb ≠ 0)
    (h : Owned v l (blocksAt v.blk (k + 1) nb))
    (hm : Moves v l (forest v.blk (List.range nindir) (fun _ => k) (v.blk nb)) v' l'
      (forest v'.blk (List.range nindir) (fun _ => k) (v.blk nb))) :
    Moves v l (blocksAt v.blk (k + 1) nb) v' l' (blocksAt v'.blk (k + 1) nb) ∧ v'.blk nb = v.blk nb := by
  rw [blocksAt_succ hz] at h ⊢
  have hcomm : ∀ o : List Nat, (nb :: o).Perm (o ++ [nb]) := fun o =>
    (List.perm_append_singleton nb o).symm
  have hsame : v'.blk nb = v.blk nb := hm.same nb ((h.congr (hcomm _).symm).apart (by simp))
  refine ⟨?_, hsame⟩
  rw [blocksAt_succ hz, hsame]
  exact (hm.frame [nb]).congr (hcomm _) (hcomm _)

/-- A new block is hung into a block of pointers. -/
theorem hang_under {k nb i b : Nat} {t : List Nat} {v₁ : Volume} (hz : nb ≠ 0) (hidx : i < nindir)
    (hc : v.blk nb i = 0) (h : Owned v (b :: t) (blocksAt v.blk (k + 1) nb)) (hm : Moves v (b :: t) [] v₁ t [b])
    (hclr : ∀ j, v₁.blk b j = 0) :
    Moves v (b :: t) (blocksAt v.blk (k + 1) nb) (v₁.setBlk nb (Function.update (v₁.blk nb) i b)) t
        (blocksAt (v₁.setBlk nb (Function.update (v₁.blk nb) i b)).blk (k + 1) nb) ∧
      (v₁.setBlk nb (Function.update (v₁.blk nb) i b)).blk nb = Function.update (v.blk nb) i b ∧
      ∀ c ≠ nb, (v₁.setBlk nb (Function.update (v₁.blk nb) i b)).blk c = v₁.blk c := by
  have hnbl : nb ∉ b :: t := h.not_mem (mem_blocksAt_self hz)
  have hgot := hm.frame (blocksAt v.blk (k + 1) nb)
  have hown₁ := Owned.moves h hgot
  have hin : nb ∈ [b] ++ blocksAt v.blk (k + 1) nb := List.mem_append_right _ (mem_blocksAt_self hz)
  have hbz : b ≠ 0 := h.refines.ne_zero (h.refines.good b (by simp))
  have hbnb : b ≠ nb := fun he => hnbl (by simp [he])
  have hset := setBlk_moves hown₁ hin (Function.update (v₁.blk nb) i b)
  have hnb₁ : v₁.blk nb = v.blk nb := hm.same nb (by simpa using hnbl)
  generalize hv₂ : v₁.setBlk nb (Function.update (v₁.blk nb) i b) = v₂ at hset ⊢
  have hnb₂ : v₂.blk nb = Function.update (v.blk nb) i b := by
    rw [← hv₂]
    simp [Volume.setBlk, hnb₁]
  have hother : ∀ c ≠ nb, v₂.blk c = v₁.blk c := fun c hcn => by
    rw [← hv₂]
    exact Function.update_of_ne hcn ..
  have hperm : (blocksAt v₂.blk (k + 1) nb).Perm ([b] ++ blocksAt v.blk (k + 1) nb) := by
    rw [blocksAt_succ hz, blocksAt_succ hz, hnb₂]
    refine ((forest_hang (List.mem_range.mpr hidx) List.nodup_range hc hbz (.inr fun j _ => ?_)
      fun c hcm => ?_).cons nb).trans (List.Perm.swap ..)
    · rw [hother b hbnb]
      exact hclr j
    · have hown := h
      rw [blocksAt_succ hz] at hown
      have hcn : c ≠ nb := by
        rintro rfl
        exact (List.nodup_cons.mp (List.nodup_append.mp hown.nodup).2.1).1 hcm
      rw [hother c hcn]
      refine hm.same c ?_
      simpa using hown.not_mem (List.mem_cons_of_mem _ hcm)
  exact ⟨(hgot.trans hset).congr (.refl _) hperm, hnb₂, hother⟩

/-- The loop of `bmap` allocates what is missing on the way down and ends in a data block. -/
theorem fetch_moves (k : Nat) {nb : Nat} (bn : Nat) (hz : nb ≠ 0) (h : Owned v l (blocksAt v.blk k nb)) :
    ∃ l', Moves v l (blocksAt v.blk k nb) (fetch true k nb bn v).2 l'
        (blocksAt (fetch true k nb bn v).2.blk k nb) ∧
      ∀ b, (fetch true k nb bn v).1 = .blk b →
        Leaf (fetch true k nb bn v).2.blk (fun blk => blocksAt blk k nb) b := by
  induction k generalizing nb v l with
  | zero =>
    refine ⟨l, .refl h.refines _, fun b hb => ?_⟩
    cases hb
    exact ⟨mem_blocksAt_self hz, fun w => rfl⟩
  | succ k ih =>
    -- Down through a pointer that is there.
    have hdown : ∀ {u : Volume} {m : List Nat} {i : Nat}, i < nindir → u.blk nb i ≠ 0 →
        Owned u m (blocksAt u.blk (k + 1) nb) →
        ∃ l', Moves u m (blocksAt u.blk (k + 1) nb) (fetch true k (u.blk nb i) bn u).2 l'
            (blocksAt (fetch true k (u.blk nb i) bn u).2.blk (k + 1) nb) ∧
          ∀ b, (fetch true k (u.blk nb i) bn u).1 = .blk b →
            Leaf (fetch true k (u.blk nb i) bn u).2.blk (fun blk => blocksAt blk (k + 1) nb) b := by
      intro u m i hi hc hu
      have hroots : i ∈ List.range nindir := List.mem_range.mpr hi
      have hforest : Owned u m (forest u.blk (List.range nindir) (fun _ => k) (u.blk nb)) := by
        have hu' := hu
        rw [blocksAt_succ hz] at hu'
        exact (hu'.congr (List.perm_append_singleton nb _)).left
      obtain ⟨l', hm, hleaf⟩ := ih hc (hforest.congr (forest_pick hroots).symm).left
      have hmf := Moves.tree hroots List.nodup_range hforest hm
      obtain ⟨hm', hsame⟩ := Moves.under hz hu hmf
      refine ⟨l', hm', fun b hb => ?_⟩
      have hf' := (hforest.moves hmf).nodup
      have hl := Leaf.tree hroots List.nodup_range (List.nodup_append.mp hf').2.1 (hleaf b hb)
      refine ⟨?_, fun w => ?_⟩
      · simp only [blocksAt_succ hz]
        rw [hsame]
        exact List.mem_cons_of_mem _ hl.1
      · have hne : nb ≠ b := by
          rintro rfl
          have hd := (hu.moves hm').nodup
          rw [blocksAt_succ hz, hsame] at hd
          exact (List.nodup_cons.mp (List.nodup_append.mp hd).2.1).1 hl.1
        have hleft := hl.2 w
        simp only at hleft
        simp only [blocksAt_succ hz]
        rw [Function.update_of_ne hne, hsame, hleft]
    have hidx : bn / nindir ^ k % nindir < nindir := Nat.mod_lt _ (by decide)
    unfold fetch
    dsimp only
    generalize bn / nindir ^ k % nindir = i at hidx ⊢
    by_cases hc : v.blk nb i = 0
    · rw [if_pos hc, if_pos rfl]
      rcases balloc_moves h.refines true with ⟨rfl, v', hb, hblk, hm⟩ | ⟨b, t, v₁, rfl, hb, hm, hclr⟩
      · rw [hb]
        refine ⟨[], ?_, fun b hb => by cases hb⟩
        have := hm.frame (blocksAt v.blk (k + 1) nb)
        rw [hblk]
        exact this
      · rw [hb]
        dsimp only
        -- The new block is hung into the indirect block.
        obtain ⟨hstep, hnb₂, -⟩ := hang_under hz hidx hc h hm (hclr rfl)
        have hbz : b ≠ 0 := h.refines.ne_zero (h.refines.good b (by simp))
        generalize v₁.setBlk nb (Function.update (v₁.blk nb) i b) = v₂ at hstep hnb₂ ⊢
        have hptr : v₂.blk nb i = b := by rw [hnb₂, Function.update_self]
        obtain ⟨l', hm', hleaf⟩ := hdown hidx (by rw [hptr]; exact hbz) (h.moves hstep)
        rw [hptr] at hm' hleaf
        exact ⟨l', hstep.trans hm', hleaf⟩
    · rw [if_neg hc]
      exact hdown hidx hc h

/-- What `bmap` does to a file: it moves blocks into its tree, and ends in a data block of it. -/
structure Mapped (v : Volume) (l : List Nat) (addr : Nat → Nat) (r : Bmap × File × Volume) : Prop where
  moves : ∃ l', Moves v l (treeOf v.blk addr) r.2.2 l' (treeOf r.2.2.blk r.2.1.i_addr)
  leaf : ∀ b, r.1 = .blk b → Leaf r.2.2.blk (fun blk => treeOf blk r.2.1.i_addr) b

/-- No block. -/
theorem Mapped.none {ip : File} {x : Bmap} (h : Refines v l) (hx : ∀ b, x ≠ .blk b) :
    Mapped v l ip.i_addr (x, ip, v) :=
  ⟨⟨l, .refl h _⟩, fun b hb => absurd hb (hx b)⟩

/-- `bmap` below an address that is there. -/
theorem Mapped.fetch {ip : File} {i : Nat} (hi : i < naddr) (hz : ip.i_addr i ≠ 0)
    (h : Owned v l (treeOf v.blk ip.i_addr)) (bn : Nat) :
    Mapped v l ip.i_addr ((fetch true (i - 3) (ip.i_addr i) bn v).1, ip, (fetch true (i - 3) (ip.i_addr i) bn v).2) := by
  have hroot : i ∈ List.range naddr := List.mem_range.mpr hi
  obtain ⟨l', hm, hleaf⟩ := fetch_moves (i - 3) bn hz (h.congr (forest_pick hroot).symm).left
  have hmf := @Moves.tree _ _ _ _ _ (· - 3) _ _ hroot List.nodup_range h hm
  refine ⟨⟨l', hmf⟩, fun b hb => ?_⟩
  exact @Leaf.tree _ (· - 3) _ _ hroot List.nodup_range _ _ (List.nodup_append.mp (h.moves hmf).nodup).2.1
    (hleaf b hb)

/-- A new block is hung into the file. -/
theorem hang_moves {ip : File} {i b : Nat} {t : List Nat} {v' : Volume} (hi : i < naddr)
    (hz : ip.i_addr i = 0) (h : Owned v (b :: t) (treeOf v.blk ip.i_addr)) (hm : Moves v (b :: t) [] v' t [b])
    (hclr : i - 3 = 0 ∨ ∀ j, v'.blk b j = 0) :
    Moves v (b :: t) (treeOf v.blk ip.i_addr) v' t (treeOf v'.blk (ip.setAddr i b).i_addr) := by
  have hbz : b ≠ 0 := h.refines.ne_zero (h.refines.good b (by simp))
  refine (hm.frame (treeOf v.blk ip.i_addr)).congr (.refl _) ?_
  refine forest_hang (List.mem_range.mpr hi) List.nodup_range hz hbz (hclr.imp_right fun hc j _ => hc j)
    fun c hc => hm.same c ?_
  simpa using h.not_mem hc

theorem indirection_lt {bn k n : Nat} (h : indirection bn = some (k, n)) : 1 ≤ k ∧ k ≤ 3 := by
  unfold indirection at h
  split at h
  · cases h; simp
  · split at h
    · cases h; simp
    · split at h
      · cases h; simp
      · cases h

theorem bmap_mapped {ip : File} (bn : Nat) (clr : Bool) (h : Owned v l (treeOf v.blk ip.i_addr)) :
    Mapped v l ip.i_addr (bmap v ip bn true clr) := by
  unfold bmap
  split
  · next hbn =>
    have hlt : bn < naddr := by simp only [ndaddr, naddr] at *; omega
    have hlev : bn - 3 = 0 := by simp only [ndaddr] at hbn; omega
    split
    · next hz =>
      rw [if_pos rfl]
      rcases balloc_moves h.refines clr with ⟨rfl, v', hb, hblk, hm⟩ | ⟨b, t, v', rfl, hb, hm, -⟩
      · rw [hb]
        refine ⟨⟨[], ?_⟩, fun b hb => by cases hb⟩
        have := hm.frame (treeOf v.blk ip.i_addr)
        simpa [hblk] using this
      · rw [hb]
        have hmf := hang_moves hlt hz h hm (.inl hlev)
        refine ⟨⟨t, hmf⟩, fun c hc => ?_⟩
        cases hc
        have hbz : b ≠ 0 := h.refines.ne_zero (h.refines.good b (by simp))
        refine @Leaf.tree _ (· - 3) _ _ (List.mem_range.mpr hlt) List.nodup_range _ _
          (List.nodup_append.mp (h.moves hmf).nodup).2.1 ?_
        simp only [hlev, File.setAddr, Function.update_self]
        exact ⟨mem_blocksAt_self hbz, fun w => rfl⟩
    · next hz =>
      have hmap := Mapped.fetch hlt hz h bn
      simpa only [hlev, Ufs.fetch] using hmap
  · split
    · exact .none h.refines (by simp)
    · next k n hk =>
      obtain ⟨hk₁, hk₃⟩ := indirection_lt hk
      have htop : ndaddr - 1 + k < naddr := by simp only [ndaddr, naddr]; omega
      have hlev : ndaddr - 1 + k - 3 = k := by simp only [ndaddr]; omega
      dsimp only
      split
      · next hz =>
        rw [if_pos rfl]
        rcases balloc_moves h.refines true with ⟨rfl, v', hb, hblk, hm⟩ | ⟨b, t, v', rfl, hb, hm, hclr⟩
        · rw [hb]
          refine ⟨⟨[], ?_⟩, fun b hb => by cases hb⟩
          have := hm.frame (treeOf v.blk ip.i_addr)
          simpa [hblk] using this
        · rw [hb]
          have hmf := hang_moves htop hz h hm (.inr (hclr rfl))
          have hbz : b ≠ 0 := h.refines.ne_zero (h.refines.good b (by simp))
          have haddr : (ip.setAddr (ndaddr - 1 + k) b).i_addr (ndaddr - 1 + k) = b := by simp [File.setAddr]
          have hmap := Mapped.fetch htop (by rwa [haddr]) (h.moves hmf) n
          rw [hlev, haddr] at hmap
          obtain ⟨⟨l', hm'⟩, hleaf⟩ := hmap
          exact ⟨⟨l', hmf.trans hm'⟩, hleaf⟩
      · next hz =>
        have hmap := Mapped.fetch htop hz h n
        rwa [hlev] at hmap

end

/-! ## itrunc -/

section

variable {v : Volume} {l : List Nat}

/-- The indices above `last`, and the others. -/
theorem above_perm (is : List Nat) (last : Int) :
    is.Perm (is.reverse.filter (fun i : Nat => decide (last < i)) ++
      is.filter (fun i : Nat => decide (¬last < (i : Int)))) := by
  refine (List.filter_append_perm (fun i : Nat => decide (last < i)) is).symm.trans ?_
  refine List.Perm.append ?_ ?_
  · exact ((List.reverse_perm is).filter _).symm
  · have hfun : (fun i : Nat => !decide (last < (i : Int))) = fun i : Nat => decide (¬last < (i : Int)) := by
      funext i
      rw [decide_not]
    rw [hfun]

theorem forest_perm {blk : Nat → Nat → Nat} {is is' : List Nat} {lev ptr : Nat → Nat} (h : is.Perm is') :
    (forest blk is lev ptr).Perm (forest blk is' lev ptr) := h.flatMap_right _

theorem forest_append (blk : Nat → Nat → Nat) (is is' : List Nat) (lev ptr : Nat → Nat) :
    forest blk (is ++ is') lev ptr = forest blk is lev ptr ++ forest blk is' lev ptr := List.flatMap_append

/-- Whole trees go back to the stack, one after the other. -/
theorem drop_moves {k : Nat} {cpy : Nat → Nat}
    (hall : ∀ {v : Volume} {l : List Nat} {bn : Nat}, bn ≠ 0 → Owned v l (blocksAt v.blk k bn) →
      ∃ l', Moves v l (blocksAt v.blk k bn) (indirtrunc k bn (-1) v) l' [bn])
    (is : List Nat) (h : Owned v l (forest v.blk is (fun _ => k) cpy)) :
    ∃ l', Moves v l (forest v.blk is (fun _ => k) cpy) (is.foldl
      (fun v i => if cpy i = 0 then v else (indirtrunc k (cpy i) (-1) v).free (cpy i)) v) l' [] := by
  induction is generalizing v l with
  | nil => exact ⟨l, .refl h.refines _⟩
  | cons i rest ih =>
    have hcons : forest v.blk (i :: rest) (fun _ => k) cpy =
        blocksAt v.blk k (cpy i) ++ forest v.blk rest (fun _ => k) cpy := rfl
    rw [hcons] at h ⊢
    rw [List.foldl_cons]
    by_cases hz : cpy i = 0
    · rw [if_pos hz, hz, blocksAt_zero, List.nil_append]
      rw [hz, blocksAt_zero, List.nil_append] at h
      exact ih h
    · rw [if_neg hz]
      obtain ⟨l₁, hm₁⟩ := hall hz h.left
      have hfree := free_moves (h.left.moves hm₁)
      have hgone := (hm₁.trans hfree).frame (forest v.blk rest (fun _ => k) cpy)
      rw [List.nil_append] at hgone
      have hrest : forest ((indirtrunc k (cpy i) (-1) v).free (cpy i)).blk rest (fun _ => k) cpy =
          forest v.blk rest (fun _ => k) cpy :=
        forest_frame fun b hb => (hm₁.trans hfree).same b (h.apart hb)
      obtain ⟨l', hm⟩ := ih (by rw [hrest]; exact h.moves hgone)
      rw [hrest] at hm
      exact ⟨l', hgone.trans hm⟩

/-- The index of the last pointer that `indirtrunc` keeps, if any is. -/
def lastIndex (k : Nat) (lastbn : Int) : Int := if 0 < lastbn then lastbn / (nindir ^ k : Nat) else lastbn

theorem lastIndex_neg {k : Nat} {lastbn : Int} (h : lastbn < 0) : lastIndex k lastbn < 0 := by
  rw [lastIndex, if_neg (by omega)]
  exact h

theorem lastIndex_lt {k : Nat} {lastbn : Int} (h : 0 ≤ lastbn) (hlast : lastbn < (nindir ^ (k + 1) : Nat)) :
    0 ≤ lastIndex k lastbn ∧ lastIndex k lastbn < nindir := by
  have hpow : 0 < nindir ^ k := Nat.pos_of_ne_zero (by simp [nindir])
  unfold lastIndex
  split
  · refine ⟨Int.ediv_nonneg h (by omega), Int.ediv_lt_of_lt_mul (by omega) ?_⟩
    rw [pow_succ] at hlast
    push_cast at hlast ⊢
    rw [mul_comm]
    exact hlast
  · exact ⟨h, by simp only [nindir]; omega⟩

/-- The indices of a block of pointers up to `last`. -/
def upTo (last : Int) : List Nat := (List.range nindir).filter fun i : Nat => decide (¬last < (i : Int))

theorem mem_upTo {last : Int} {i : Nat} : i ∈ upTo last ↔ i < nindir ∧ ¬last < (i : Int) := by
  simp [upTo]

/-- `indirtrunc` up to the last partial block: what is above it is on the stack, and its pointers are cleared. -/
theorem indirtrunc_drop {k bn : Nat} (lastbn : Int) (hz : bn ≠ 0)
    (hall : ∀ {v : Volume} {l : List Nat} {bn : Nat}, bn ≠ 0 → Owned v l (blocksAt v.blk k bn) →
      ∃ l', Moves v l (blocksAt v.blk k bn) (indirtrunc k bn (-1) v) l' [bn])
    (h : Owned v l (blocksAt v.blk (k + 1) bn)) :
    ∃ v₂ l₂, indirtrunc (k + 1) bn lastbn v =
        (if 0 ≤ lastbn ∧ v.blk bn (lastIndex k lastbn).toNat ≠ 0 then
          indirtrunc k (v.blk bn (lastIndex k lastbn).toNat) (lastbn % (nindir ^ k : Nat)) v₂ else v₂) ∧
      Moves v l (blocksAt v.blk (k + 1) bn) v₂ l₂
        (forest v₂.blk (upTo (lastIndex k lastbn)) (fun _ => k) (v.blk bn) ++ [bn]) ∧
      v₂.blk bn = (fun i => if i < nindir ∧ lastIndex k lastbn < i then 0 else v.blk bn i) ∧
      ∀ b ∈ forest v.blk (upTo (lastIndex k lastbn)) (fun _ => k) (v.blk bn), v₂.blk b = v.blk b := by
  rw [indirtrunc, ← lastIndex]
  generalize lastIndex k lastbn = last
  have hroot : bn ∈ blocksAt v.blk (k + 1) bn := mem_blocksAt_self hz
  have hset := setBlk_moves h hroot (fun i => if i < nindir ∧ last < i then 0 else v.blk bn i)
  have hother : ∀ b ≠ bn, (v.setBlk bn fun i => if i < nindir ∧ last < i then 0 else v.blk bn i).blk b = v.blk b :=
    fun b hb => Function.update_of_ne hb ..
  have hbn₁ : (v.setBlk bn fun i => if i < nindir ∧ last < i then 0 else v.blk bn i).blk bn =
      fun i => if i < nindir ∧ last < i then 0 else v.blk bn i := Function.update_self ..
  generalize (v.setBlk bn fun i => if i < nindir ∧ last < i then 0 else v.blk bn i) = v₁ at hset hother hbn₁ ⊢
  generalize hcpy : v.blk bn = cpy at hbn₁ ⊢
  have hown := h.moves hset
  rw [blocksAt_succ hz, hcpy] at hown
  have hne : ∀ b ∈ forest v.blk (List.range nindir) (fun _ => k) cpy, b ≠ bn := by
    rintro b hb rfl
    exact (List.nodup_cons.mp (List.nodup_append.mp hown.nodup).2.1).1 hb
  have hsame₁ : forest v₁.blk (List.range nindir) (fun _ => k) cpy =
      forest v.blk (List.range nindir) (fun _ => k) cpy := forest_frame fun b hb => hother b (hne b hb)
  rw [← hsame₁] at hown
  -- What is cut off, what is kept, and the block itself.
  have hsplit : (bn :: forest v₁.blk (List.range nindir) (fun _ => k) cpy).Perm
      (forest v₁.blk (above last) (fun _ => k) cpy ++ (forest v₁.blk (upTo last) (fun _ => k) cpy ++ [bn])) := by
    refine (List.perm_append_singleton bn _).symm.trans ?_
    rw [← List.append_assoc, ← forest_append]
    exact List.Perm.append_right _ (forest_perm (above_perm _ _))
  have hown' := hown.congr hsplit.symm
  obtain ⟨l₂, hm₂⟩ := drop_moves hall (above last) hown'.left
  have hrest := fun b (hb : b ∈ forest v₁.blk (upTo last) (fun _ => k) cpy ++ [bn]) => hm₂.same b (hown'.apart hb)
  have hstep := hm₂.frame (forest v₁.blk (upTo last) (fun _ => k) cpy ++ [bn])
  rw [List.nil_append] at hstep
  have hsub : ∀ b ∈ forest v.blk (upTo last) (fun _ => k) cpy, b ∈ forest v.blk (List.range nindir) (fun _ => k) cpy := by
    intro b hb
    obtain ⟨i, hi, hb⟩ := List.mem_flatMap.mp hb
    exact List.mem_flatMap.mpr ⟨i, List.mem_range.mpr (mem_upTo.mp hi).1, hb⟩
  have hkept₁ : forest v₁.blk (upTo last) (fun _ => k) cpy = forest v.blk (upTo last) (fun _ => k) cpy :=
    forest_frame fun b hb => hother b (hne b (hsub b hb))
  refine ⟨_, l₂, rfl, ?_, ?_, fun b hb => ?_⟩
  · rw [forest_frame fun b hb => hrest b (List.mem_append_left _ hb)]
    have hout := hstep.congr hsplit (.refl _)
    rw [hsame₁, ← hcpy, ← blocksAt_succ hz] at hout
    rw [hcpy] at hout
    exact hset.trans hout
  · rw [hrest bn (by simp), hbn₁]
  · rw [hrest b (List.mem_append_left _ (by rwa [hkept₁]))]
    exact hother b (hne b (hsub b hb))

/-- `indirtrunc` gives blocks of the tree to the stack; all but the root of it, for `-1`. -/
theorem indirtrunc_moves (k : Nat) {bn : Nat} (lastbn : Int) (hz : bn ≠ 0)
    (hlast : lastbn < (nindir ^ k : Nat)) (h : Owned v l (blocksAt v.blk k bn)) :
    ∃ l', Moves v l (blocksAt v.blk k bn) (indirtrunc k bn lastbn v) l'
        (blocksAt (indirtrunc k bn lastbn v).blk k bn) ∧
      (lastbn < 0 → blocksAt (indirtrunc k bn lastbn v).blk k bn = [bn]) := by
  induction k generalizing bn lastbn v l with
  | zero => exact ⟨l, .refl h.refines _, fun _ => by simp [blocksAt, hz]⟩
  | succ k ih =>
    have hall : ∀ {v : Volume} {l : List Nat} {bn : Nat}, bn ≠ 0 → Owned v l (blocksAt v.blk k bn) →
        ∃ l', Moves v l (blocksAt v.blk k bn) (indirtrunc k bn (-1) v) l' [bn] := by
      intro v l bn hz h
      obtain ⟨l', hm, he⟩ := ih (-1) hz (by omega) h
      rw [he (by omega)] at hm
      exact ⟨l', hm⟩
    have hpow : 0 < nindir ^ k := Nat.pos_of_ne_zero (by simp [nindir])
    obtain ⟨v₂, l₂, hv₂, hm₂, hbn₂, -⟩ := indirtrunc_drop lastbn hz hall h
    rw [hv₂]
    have hneg : lastbn < 0 → lastIndex k lastbn < 0 := lastIndex_neg
    have hnn := fun h => @lastIndex_lt k lastbn h hlast
    generalize lastIndex k lastbn = last at hm₂ hbn₂ hneg hnn ⊢
    generalize v.blk bn = cpy at hm₂ hbn₂ ⊢
    have hown₂ := h.moves hm₂
    have hnodup : (upTo last).Nodup := List.nodup_range.filter _
    -- The last partial block, if there is one.
    obtain ⟨v₃, l₃, hv₃, hm₃, hbn₃⟩ : ∃ v₃ l₃, (if 0 ≤ lastbn ∧ cpy last.toNat ≠ 0 then
          indirtrunc k (cpy last.toNat) (lastbn % (nindir ^ k : Nat)) v₂ else v₂) = v₃ ∧
        Moves v₂ l₂ (forest v₂.blk (upTo last) (fun _ => k) cpy ++ [bn]) v₃ l₃
          (forest v₃.blk (upTo last) (fun _ => k) cpy ++ [bn]) ∧ v₃.blk bn = v₂.blk bn := by
      split
      · next hpart =>
        obtain ⟨h₁, h₂⟩ := hnn hpart.1
        have hmem : last.toNat ∈ upTo last := mem_upTo.mpr (by omega)
        have hsub := (hown₂.left.congr (forest_pick hmem).symm).left
        obtain ⟨l₃, hm, -⟩ := ih (lastbn % (nindir ^ k : Nat)) hpart.2
          (Int.emod_lt_of_pos _ (by omega)) hsub
        have hmf := Moves.tree hmem hnodup hown₂.left hm
        exact ⟨_, l₃, rfl, hmf.frame [bn], hmf.same bn (hown₂.apart (by simp))⟩
      · exact ⟨v₂, l₂, rfl, .refl hown₂.refines _, rfl⟩
    rw [hv₃]
    -- The pointers that were cut off are zero in the block.
    have hbn : v₃.blk bn = fun i => if i < nindir ∧ last < i then 0 else cpy i := by
      rw [hbn₃, hbn₂]
    have hfinal : (blocksAt v₃.blk (k + 1) bn).Perm (forest v₃.blk (upTo last) (fun _ => k) cpy ++ [bn]) := by
      rw [blocksAt_succ hz, hbn]
      refine (List.perm_append_singleton bn _).symm.trans (List.Perm.append_right _ ?_)
      refine (forest_perm (above_perm (List.range nindir) last)).trans ?_
      rw [forest_append, forest_nil, List.nil_append]
      · exact .of_eq (forest_congr fun i hi => if_neg fun hc => (mem_upTo.mp hi).2 hc.2)
      · intro i hi
        simp only [List.mem_filter, List.mem_reverse, List.mem_range, decide_eq_true_eq] at hi
        exact if_pos hi
    refine ⟨l₃, (hm₂.trans hm₃).congr (.refl _) hfinal, fun hn => ?_⟩
    refine blocksAt_cleared hz fun i hi => ?_
    rw [hbn]
    exact if_pos ⟨hi, by have := hneg hn; omega⟩

/-- A tree of a file is cut, or goes with its root. -/
theorem trunctree_moves {k bn : Nat} {last : Int} (hlast : last < (nindir ^ k : Nat))
    (h : Owned v l (blocksAt v.blk k bn)) :
    ∃ l', Moves v l (blocksAt v.blk k bn) (trunctree k bn last v) l'
      (blocksAt (trunctree k bn last v).blk k (if last < 0 then 0 else bn)) := by
  unfold trunctree
  by_cases hz : bn = 0
  · rw [if_pos hz, hz]
    refine ⟨l, ?_⟩
    simpa using Moves.refl h.refines []
  · rw [if_neg hz]
    split
    · obtain ⟨l', hm, he⟩ := indirtrunc_moves k (-1) hz (by omega) h
      rw [he (by omega)] at hm
      refine ⟨bn :: l', ?_⟩
      rw [blocksAt_zero]
      exact hm.trans (free_moves (h.moves hm))
    · obtain ⟨l', hm, -⟩ := indirtrunc_moves k last hz hlast h
      exact ⟨l', hm⟩

theorem lblkno_lt (n : Int) : lblkno n < 2 ^ 22 := by
  unfold lblkno devBsize
  have : (n % 2 ^ 32).toNat < 2 ^ 32 := by omega
  omega

/-- One of the three trees of a file is cut, and the file has the root that is left. -/
theorem Moves.cut {addr : Nat → Nat} {i : Nat} {last : Int} (hi : i < naddr)
    (hlast : last < (nindir ^ (i - 3) : Nat)) (h : Owned v l (treeOf v.blk addr)) :
    ∃ l', Moves v l (treeOf v.blk addr) (trunctree (i - 3) (addr i) last v) l'
      (treeOf (trunctree (i - 3) (addr i) last v).blk
        (Function.update addr i (if last < 0 then 0 else addr i))) := by
  have hroot : i ∈ List.range naddr := List.mem_range.mpr hi
  obtain ⟨l', hm⟩ := trunctree_moves hlast (h.congr (forest_pick hroot).symm).left
  exact ⟨l', @Moves.retree _ _ _ _ _ (· - 3) _ _ hroot List.nodup_range h _ hm⟩

/-- The direct blocks above `lastblock` go, when there are no trees any more. -/
theorem truncdirect_moves {addr : Nat → Nat} {lastblock : Int} (h : Owned v l (treeOf v.blk addr))
    (htree : ∀ i, ndaddr ≤ i → i < naddr → addr i = 0) :
    ∃ l', Moves v l (treeOf v.blk addr) (truncdirect addr lastblock v) l'
      (treeOf (truncdirect addr lastblock v).blk fun i => if lastblock < i then 0 else addr i) := by
  obtain ⟨kept, hkept⟩ : ∃ kept, kept =
      (List.range ndaddr).filter (fun i : Nat => decide (¬lastblock < (i : Int))) := ⟨_, rfl⟩
  -- Direct blocks are trees without pointers.
  have hdirect : ∀ (blk : Nat → Nat → Nat) (is : List Nat) (ptr : Nat → Nat), (∀ i ∈ is, i < ndaddr) →
      forest blk is (· - 3) ptr = forest blk is (fun _ => 0) ptr := by
    intro blk is ptr his
    refine List.flatMap_congr fun i hi => ?_
    have hlev : i - 3 = 0 := by
      have := his i hi
      simp only [ndaddr] at this
      omega
    simp only [hlev]
  have hin : ∀ i ∈ kept, i < ndaddr ∧ ¬lastblock < (i : Int) := fun i hi => by
    rw [hkept] at hi
    simpa using hi
  have hsplit : ∀ (blk : Nat → Nat → Nat) (ptr : Nat → Nat), (∀ i, ndaddr ≤ i → i < naddr → ptr i = 0) →
      (treeOf blk ptr).Perm (forest blk ((List.range ndaddr).reverse.filter fun i : Nat => lastblock < i)
        (fun _ => 0) ptr ++ forest blk kept (fun _ => 0) ptr) := by
    intro blk ptr hptr
    have hrange : List.range naddr = List.range ndaddr ++ [4, 5, 6] := rfl
    rw [treeOf, hrange, forest_append, @forest_nil blk [4, 5, 6], List.append_nil,
      hdirect blk _ _ fun i hi => List.mem_range.mp hi, ← forest_append, hkept]
    · exact forest_perm (above_perm _ _)
    · intro i hi
      simp only [List.mem_cons, List.not_mem_nil, or_false] at hi
      refine hptr i ?_ ?_
      · simp only [ndaddr]; omega
      · simp only [naddr]; omega
  have hown := h.congr (hsplit v.blk addr htree).symm
  obtain ⟨l', hm⟩ := drop_moves (fun {v l bn} hz h =>
    ⟨l, by simpa [indirtrunc, blocksAt, hz] using Moves.refl h.refines [bn]⟩) _ hown.left
  have hrest : forest (truncdirect addr lastblock v).blk kept (fun _ => 0) addr =
      forest v.blk kept (fun _ => 0) addr := forest_frame fun b hb => hm.same b (hown.apart hb)
  refine ⟨l', (hm.frame _).congr (hsplit v.blk addr htree) ?_⟩
  rw [List.nil_append, ← hrest]
  refine (hsplit _ _ fun i h₁ h₂ => ?_).trans ?_
  · simp [htree i h₁ h₂]
  · rw [forest_nil, List.nil_append, forest_congr fun i hi => if_neg (hin i hi).2]
    intro i hi
    simp only [List.mem_filter, List.mem_reverse, List.mem_range, decide_eq_true_eq] at hi
    exact if_pos hi.2

theorem truncdirect_congr {addr addr' : Nat → Nat} {lastblock : Int} (h : ∀ i < ndaddr, addr i = addr' i) :
    truncdirect addr lastblock v = truncdirect addr' lastblock v := by
  unfold truncdirect
  refine List.foldl_ext _ _ _ fun u i hi => ?_
  simp only [List.mem_filter, List.mem_reverse, List.mem_range] at hi
  rw [h i hi.1]

theorem treeOf_congr {blk : Nat → Nat → Nat} {addr addr' : Nat → Nat} (h : ∀ i < naddr, addr' i = addr i) :
    treeOf blk addr' = treeOf blk addr := forest_congr fun i hi => h i (List.mem_range.mp hi)

theorem shrink_moves {ip : File} (length : Int) (h : Owned v l (treeOf v.blk ip.i_addr)) :
    ∃ l', Moves v l (treeOf v.blk ip.i_addr) (shrink v ip length).2 l'
      (treeOf (shrink v ip length).2.blk (shrink v ip length).1.i_addr) := by
  unfold shrink
  dsimp only
  have hlt := lblkno_lt (length + devBsize - 1)
  generalize hlb : ((lblkno (length + devBsize - 1) : Nat) : Int) - 1 = lastblock
  have hle : lastblock < 2 ^ 22 := by omega
  have hn2 : ((nindir * nindir : Nat) : Int) = 65536 := by decide
  push_cast at hn2
  simp only [show ((ndaddr : Nat) : Int) = 4 from rfl, show ((nindir : Nat) : Int) = 256 from rfl]
  -- Each tree in turn, from the deepest on.
  obtain ⟨l₁, hm₁⟩ := @Moves.cut v l ip.i_addr 6 (lastblock - 4 - 256 - 256 * 256) (by decide)
    (by simp only [nindir]; omega) h
  simp only [show 6 - 3 = 3 from rfl] at hm₁
  generalize trunctree 3 (ip.i_addr 6) (lastblock - 4 - 256 - 256 * 256) v = v₁ at hm₁ ⊢
  split
  · next h6 =>
    refine ⟨l₁, hm₁.congr (.refl _) (.of_eq (treeOf_congr fun i hi => ?_))⟩
    simp only [naddr] at hi
    simp only [Function.update_apply]
    interval_cases i <;> simp [naddr] <;> omega
  · next h6 =>
    have h₁ := h.moves hm₁
    obtain ⟨l₂, hm₂⟩ := @Moves.cut v₁ l₁ _ 5 (lastblock - 4 - 256) (by decide) (by simp only [nindir]; omega) h₁
    simp only [show 5 - 3 = 2 from rfl, Function.update_of_ne (show (5 : Nat) ≠ 6 by decide)] at hm₂
    generalize trunctree 2 (ip.i_addr 5) (lastblock - 4 - 256) v₁ = v₂ at hm₂ ⊢
    split
    · next h5 =>
      refine ⟨l₂, (hm₁.trans hm₂).congr (.refl _) (.of_eq (treeOf_congr fun i hi => ?_))⟩
      simp only [naddr] at hi
      simp only [Function.update_apply]
      interval_cases i <;> simp [naddr] <;> omega
    · next h5 =>
      have h₂ := h₁.moves hm₂
      obtain ⟨l₃, hm₃⟩ := @Moves.cut v₂ l₂ _ 4 (lastblock - 4) (by decide) (by simp only [nindir]; omega) h₂
      simp only [show 4 - 3 = 1 from rfl, Function.update_of_ne (show (4 : Nat) ≠ 6 by decide),
        Function.update_of_ne (show (4 : Nat) ≠ 5 by decide)] at hm₃
      generalize trunctree 1 (ip.i_addr 4) (lastblock - 4) v₂ = v₃ at hm₃ ⊢
      split
      · next h4 =>
        refine ⟨l₃, ((hm₁.trans hm₂).trans hm₃).congr (.refl _) (.of_eq (treeOf_congr fun i hi => ?_))⟩
        simp only [naddr] at hi
        simp only [Function.update_apply]
        interval_cases i <;> simp [naddr] <;> omega
      · next h4 =>
        have h₃ := h₂.moves hm₃
        have hz : ∀ i, ndaddr ≤ i → i < naddr → Function.update (Function.update (Function.update ip.i_addr 6
            (if lastblock - 4 - 256 - 256 * 256 < 0 then 0 else ip.i_addr 6)) 5
            (if lastblock - 4 - 256 < 0 then 0 else ip.i_addr 5)) 4
            (if lastblock - 4 < 0 then 0 else ip.i_addr 4) i = 0 := by
          intro i h₁ h₂
          simp only [ndaddr, naddr] at h₁ h₂
          simp only [Function.update_apply]
          interval_cases i <;> simp <;> omega
        obtain ⟨l₄, hm₄⟩ := @truncdirect_moves _ _ _ lastblock h₃ hz
        rw [truncdirect_congr fun i hi => ?_] at hm₄
        · refine ⟨l₄, (((hm₁.trans hm₂).trans hm₃).trans hm₄).congr (.refl _) (.of_eq (treeOf_congr fun i hi => ?_))⟩
          simp only [naddr] at hi
          simp only [Function.update_apply]
          interval_cases i <;> simp [naddr] <;> omega
        · simp only [ndaddr] at hi
          simp only [Function.update_apply]
          interval_cases i <;> simp

/-- Nothing is left of a file that is cut to nothing. -/
theorem shrink_zero (v : Volume) (ip : File) (blk : Nat → Nat → Nat) :
    treeOf blk (shrink v ip 0).1.i_addr = [] := by
  have hlb : ((lblkno (0 + devBsize - 1) : Nat) : Int) - 1 = -1 := by decide
  refine forest_nil fun i hi => ?_
  have hi := List.mem_range.mp hi
  have haddr : (shrink v ip 0).1.i_addr = fun i => if i < naddr ∧
      (if i = 4 then (-1 : Int) - ndaddr else if i = 5 then -1 - ndaddr - nindir
        else if i = 6 then -1 - ndaddr - nindir - nindir * nindir else -1 - i) < 0 then 0 else ip.i_addr i := by
    unfold shrink
    simp only [hlb]
    split
    · rfl
    · split
      · rfl
      · split <;> rfl
  rw [haddr]
  refine if_pos ⟨hi, ?_⟩
  simp only [ndaddr, nindir]
  split
  · omega
  · split
    · omega
    · split <;> omega

/-! ## Calls on a file -/

/-- What a call on a file does: blocks go between its tree and the stack, it keeps its type, and its size is
    no negative one. -/
structure Keeps (v : Volume) (l : List Nat) (ip : File) (r : File × Volume) : Prop where
  moves : ∃ l', Moves v l (treeOf v.blk ip.i_addr) r.2 l' (treeOf r.2.blk r.1.i_addr)
  kind : r.1.kind = ip.kind
  size : 0 ≤ ip.i_size → 0 ≤ r.1.i_size

theorem bmap_file (v : Volume) (ip : File) (bn : Nat) (write clr : Bool) :
    ∃ addr, (bmap v ip bn write clr).2.1 = { ip with i_addr := addr } := by
  unfold bmap
  split
  · split
    · split
      · split
        · exact ⟨_, rfl⟩
        · exact ⟨_, rfl⟩
      · exact ⟨_, rfl⟩
    · exact ⟨_, rfl⟩
  · split
    · exact ⟨_, rfl⟩
    · dsimp only
      split
      · split
        · split
          · exact ⟨_, rfl⟩
          · exact ⟨_, rfl⟩
        · exact ⟨_, rfl⟩
      · exact ⟨_, rfl⟩

theorem shrink_keeps {ip : File} {length : Int} (hl : 0 ≤ length) (h : Owned v l (treeOf v.blk ip.i_addr)) :
    Keeps v l ip (shrink v ip length) := by
  have hfile : (shrink v ip length).1.kind = ip.kind ∧ (shrink v ip length).1.i_size = length := by
    unfold shrink
    dsimp only
    split
    · exact ⟨rfl, rfl⟩
    · split
      · exact ⟨rfl, rfl⟩
      · split <;> exact ⟨rfl, rfl⟩
  exact ⟨shrink_moves length h, hfile.1, fun _ => by rw [hfile.2]; exact hl⟩

/-- A data block of a file is written. -/
theorem Leaf.write {addr : Nat → Nat} {b : Nat} (h : Owned v l (treeOf v.blk addr))
    (hb : Leaf v.blk (fun blk => treeOf blk addr) b) (w : Nat → Nat) :
    Moves v l (treeOf v.blk addr) (v.setBlk b w) l (treeOf (v.setBlk b w).blk addr) := by
  have hm := setBlk_moves h hb.1 w
  have hsame : treeOf (v.setBlk b w).blk addr = treeOf v.blk addr := hb.2 w
  rwa [hsame]

theorem itrunc_keeps {ip : File} (u_error : Bool) (length : Int) (h : Owned v l (treeOf v.blk ip.i_addr)) :
    Keeps v l ip (itrunc u_error v ip length) := by
  have hrefl : Keeps v l ip (ip, v) := ⟨⟨l, .refl h.refines _⟩, rfl, id⟩
  unfold itrunc
  split
  · exact hrefl
  · next hneg =>
    split
    · exact hrefl
    · dsimp only
      -- A pipe is cut as if it had the size of a full one.
      obtain ⟨ip', hip, haddr, hkind, hsize⟩ : ∃ ip' : File,
          (if ip.pipe then { ip with i_size := maxpipsiz } else ip) = ip' ∧ ip'.i_addr = ip.i_addr ∧
            ip'.kind = ip.kind ∧ (0 ≤ ip.i_size → 0 ≤ ip'.i_size) := by
        split
        · exact ⟨_, rfl, rfl, rfl, fun _ => (by decide : (0 : Int) ≤ maxpipsiz)⟩
        · exact ⟨_, rfl, rfl, rfl, id⟩
      rw [hip]
      rw [← haddr] at h
      have hlen : 0 ≤ length := Int.not_lt.mp hneg
      have hmap : ∀ bn, Mapped v l ip'.i_addr (bmap v ip' bn true true) := fun bn => bmap_mapped bn true h
      have hfile : ∀ bn, ∃ addr, (bmap v ip' bn true true).2.1 = { ip' with i_addr := addr } := fun bn =>
        bmap_file v ip' bn true true
      split
      · obtain ⟨hm, -⟩ := hmap (lblkno (length - 1))
        obtain ⟨addr, hf⟩ := hfile (lblkno (length - 1))
        split
        · next b ip₁ v₁ he =>
          rw [he] at hm hf
          cases hf
          split
          · exact ⟨by rw [← haddr]; exact hm, hkind, hsize⟩
          · exact ⟨by rw [← haddr]; exact hm, hkind, fun _ => by simp only; omega⟩
        · next ip₁ v₁ _ he =>
          rw [he] at hm hf
          cases hf
          exact ⟨by rw [← haddr]; exact hm, hkind, hsize⟩
      · split
        · obtain ⟨hm, hleaf⟩ := hmap (lblkno length)
          obtain ⟨addr, hf⟩ := hfile (lblkno length)
          split
          · next b ip₁ v₁ he =>
            rw [he] at hm hf hleaf
            cases hf
            obtain ⟨l₁, hm⟩ := hm
            have h₁ := h.moves hm
            split
            · exact ⟨⟨l₁, by rw [← haddr]; exact hm⟩, hkind, hsize⟩
            · have hw := (hleaf b rfl).write h₁ (clearFrom (blkoff length) (v₁.blk b))
              have hs := shrink_keeps hlen (h₁.moves hw)
              obtain ⟨l₂, hs₂⟩ := hs.moves
              exact ⟨⟨l₂, by rw [← haddr]; exact (hm.trans hw).trans hs₂⟩, hs.kind.trans hkind,
                fun hn => hs.size (hsize hn)⟩
          · next ip₁ v₁ _ he =>
            rw [he] at hm hf
            cases hf
            exact ⟨by rw [← haddr]; exact hm, hkind, hsize⟩
        · have hs := shrink_keeps hlen h
          exact ⟨by rw [← haddr]; exact hs.moves, hs.kind.trans hkind, fun hn => hs.size (hsize hn)⟩

theorem rwipLoop_keeps (chunk : Nat → (Nat → Nat) × Bool) (turns t : Nat) {ip : File} (offset : Int) (resid : Nat)
    (h : Owned v l (treeOf v.blk ip.i_addr)) :
    Keeps v l ip (rwipLoop chunk turns t v ip offset resid).2 := by
  induction turns generalizing t v l ip offset resid with
  | zero => exact ⟨⟨l, .refl h.refines _⟩, rfl, id⟩
  | succ turns ih =>
    unfold rwipLoop
    dsimp only
    generalize min (devBsize - blkoff offset) resid = n
    obtain ⟨hm, hleaf⟩ := bmap_mapped (lblkno offset) (n ≠ devBsize) h
    obtain ⟨addr, hf⟩ := bmap_file v ip (lblkno offset) true (n ≠ devBsize)
    split
    · next b ip₁ v₁ he =>
      rw [he] at hm hf hleaf
      cases hf
      obtain ⟨l₁, hm⟩ := hm
      have h₁ := h.moves hm
      have hw := (hleaf b rfl).write h₁ (chunk t).1
      have h₂ := h₁.moves hw
      -- The size follows the block, whether the copy succeeds or not.
      obtain ⟨ip₂, hip, haddr, hkind, hsize⟩ : ∃ ip₂ : File, (if ip.i_size < offT (offset + n) then
            { ip with i_addr := addr, i_size := offT (offset + n) } else { ip with i_addr := addr }) = ip₂ ∧
          ip₂.i_addr = addr ∧ ip₂.kind = ip.kind ∧ (0 ≤ ip.i_size → 0 ≤ ip₂.i_size) := by
        split
        · exact ⟨_, rfl, rfl, rfl, fun _ => by simp only; omega⟩
        · exact ⟨_, rfl, rfl, rfl, id⟩
      rw [hip]
      have hkeep : Keeps v l ip (ip₂, v₁.setBlk b (chunk t).1) :=
        ⟨⟨l₁, by rw [haddr]; exact hm.trans hw⟩, hkind, hsize⟩
      split
      · exact hkeep
      · split
        · exact hkeep
        · have hrest := ih (t + 1) (offT (offset + n)) (resid - n) (by rw [haddr]; exact h₂)
          obtain ⟨l₃, hm₃⟩ := hrest.moves
          rw [haddr] at hm₃
          exact ⟨⟨l₃, (hm.trans hw).trans hm₃⟩, hrest.kind.trans hkind, fun hn => hrest.size (hsize hn)⟩
    · next ip₁ v₁ _ he =>
      rw [he] at hm hf
      cases hf
      exact ⟨hm, rfl, id⟩

theorem Keeps.trans {ip : File} {r r' : File × Volume} (h : Owned v l (treeOf v.blk ip.i_addr))
    (hk : Keeps v l ip r) (hk' : ∀ l', Owned r.2 l' (treeOf r.2.blk r.1.i_addr) → Keeps r.2 l' r.1 r') :
    Keeps v l ip r' := by
  obtain ⟨l₁, hm⟩ := hk.moves
  have hnext := hk' l₁ (h.moves hm)
  obtain ⟨l₂, hm₂⟩ := hnext.moves
  exact ⟨⟨l₂, hm.trans hm₂⟩, hnext.kind.trans hk.kind, fun hn => hnext.size (hk.size hn)⟩

theorem rwip_keeps {ip : File} (w : Write) (h : Owned v l (treeOf v.blk ip.i_addr)) :
    Keeps v l ip (rwip v ip w) := by
  have hrefl : Keeps v l ip (ip, v) := ⟨⟨l, .refl h.refines _⟩, rfl, id⟩
  unfold rwip
  dsimp only
  generalize (if ip.kind = some .reg ∧ w.ioAppend = true then ip.i_size else w.offset) = offset
  split
  · exact hrefl
  · split
    · exact hrefl
    · split
      · exact hrefl
      · have hloop := rwipLoop_keeps w.chunk w.resid 0 offset w.resid h
        split
        · next ip₁ v₁ he =>
          rw [he] at hloop
          split
          · exact hloop.trans h fun l' h' => itrunc_keeps true ip.i_size h'
          · exact hloop
        · next ip₁ v₁ _ he =>
          rw [he] at hloop
          exact hloop

end

end DiscoBSD.Ufs
