import Mathlib.Data.List.Nodup
import Mathlib.Data.List.Perm.Basic
import Mathlib.Data.Finset.Card
import Mathlib.Order.Interval.Finset.Nat
import DiscoBSD.Ufs.Alloc

/-!
# The free list is a stack

What the superblock remembers and the blocks it leads to are **one stack of block numbers**: the entries
from the last down, then the block the first entry names, then whatever that block remembers. `balloc`
takes its top and `free` puts a block there, across every spill and refill.
-/

set_option autoImplicit false

namespace DiscoBSD.Ufs

open DiscoBSD.Lib

/-- The entries above the first, from the last down. -/
def window (free : Nat → Nat) : Nat → List Nat
  | 0 => []
  | 1 => []
  | n + 2 => free (n + 1) :: window free (n + 1)

theorem window_congr {free free' : Nat → Nat} {n : Nat} (h : ∀ i < n, free' i = free i) :
    window free' n = window free n := by
  induction n with
  | zero => rfl
  | succ n ih =>
    cases n with
    | zero => rfl
    | succ n =>
      simp only [window]
      rw [h (n + 1) (by omega), ih fun i hi => h i (by omega)]

/-- `n` entries of `free` and the blocks they lead to hold the stack. -/
inductive Chain (blk : Nat → Nat → Nat) : Nat → (Nat → Nat) → List Nat → Prop where
  | last {n : Nat} {free : Nat → Nat} (hn : 0 < n) (hle : n ≤ nicfree) (hz : free 0 = 0) :
      Chain blk n free (window free n)
  | more {n : Nat} {free : Nat → Nat} {l : List Nat} (hn : 0 < n) (hle : n ≤ nicfree)
      (hz : free 0 ≠ 0) (hl : Chain blk (blk (free 0) 0) (fun i => blk (free 0) (i + 1)) l) :
      Chain blk n free (window free n ++ free 0 :: l)

theorem Chain.pos {blk : Nat → Nat → Nat} {n : Nat} {free : Nat → Nat} {l : List Nat}
    (h : Chain blk n free l) : 0 < n ∧ n ≤ nicfree := by
  cases h with
  | last hn hle => exact ⟨hn, hle⟩
  | more hn hle => exact ⟨hn, hle⟩

/-- Only the blocks of the stack are read, and only the entries that count. -/
theorem Chain.frame {blk blk' : Nat → Nat → Nat} {n : Nat} {free : Nat → Nat} {l : List Nat}
    (h : Chain blk n free l) (hb : ∀ b ∈ l, ∀ w ≤ nicfree, blk' b w = blk b w) {free' : Nat → Nat}
    (hf : ∀ i < n, free' i = free i) : Chain blk' n free' l := by
  induction h generalizing free' with
  | @last n free hn hle hz =>
    rw [← window_congr hf]
    exact .last hn hle (by rw [hf 0 hn, hz])
  | @more n free l hn hle hz hl ih =>
    have h0 : free' 0 = free 0 := hf 0 hn
    rw [← window_congr hf, ← h0]
    have hmem : free 0 ∈ window free n ++ free 0 :: l := by simp
    refine .more hn hle (by rwa [h0]) ?_
    rw [h0, hb _ hmem 0 (Nat.zero_le _)]
    refine ih (fun b hl => hb b (by simp [hl])) fun i hi => ?_
    exact hb _ hmem (i + 1) (by have := hl.pos; omega)

/-- The stack a volume's free list holds. An emptied list has no entries at all. -/
structure Refines (v : Volume) (l : List Nat) : Prop where
  chain : (v.fs.fs_nfree = 0 ∧ l = []) ∨ Chain v.blk v.fs.fs_nfree v.fs.fs_free l
  nodup : l.Nodup
  good : ∀ b ∈ l, ¬v.fs.badblock b
  count : v.fs.fs_tfree = l.length
  super : 0 < v.fs.fs_isize

/-- The data area. -/
def Fs.area (fs : Fs) : Finset Nat := Finset.Ico fs.fs_isize (min fs.fs_fsize (2 ^ 31))

theorem mem_area {fs : Fs} {b : Nat} : b ∈ fs.area ↔ ¬fs.badblock b := by
  simp only [Fs.area, Finset.mem_Ico, Fs.badblock]
  omega

section

variable {v : Volume} {l : List Nat}

theorem Refines.ne_zero (h : Refines v l) {b : Nat} (hb : ¬v.fs.badblock b) : b ≠ 0 := by
  have h0 := h.super
  simp only [Fs.badblock] at hb
  omega

/-- A stack of distinct blocks of the data area is a short one. -/
theorem length_lt_of_good {fs : Fs} {l : List Nat} (hd : l.Nodup) (hg : ∀ b ∈ l, ¬fs.badblock b) :
    l.length < 2 ^ 31 + 1 := by
  have hsub : l.toFinset ⊆ Finset.range (2 ^ 31) := by
    intro b hb
    have h := hg b (List.mem_toFinset.mp hb)
    simp only [Fs.badblock] at h
    exact Finset.mem_range.mpr (by omega)
  have hc := Finset.card_le_card hsub
  rw [List.toFinset_card_of_nodup hd, Finset.card_range] at hc
  omega

/-- Nothing outside the stack is read. -/
theorem Refines.frame (h : Refines v l) {blk : Nat → Nat → Nat}
    (hb : ∀ b ∈ l, blk b = v.blk b) : Refines { v with blk := blk } l where
  chain := h.chain.imp_right fun hc => hc.frame (fun b hl w _ => congrFun (hb b hl) w) fun _ _ => rfl
  nodup := h.nodup
  good := h.good
  count := h.count
  super := h.super

theorem takeFree_good {fs : Fs} {n : Nat} (hz : fs.fs_free n ≠ 0) (hg : ¬fs.badblock (fs.fs_free n)) :
    takeFree fs (n + 1) = some (fs.fs_free n, { fs with fs_nfree := n }) := by
  simp only [takeFree]
  rw [if_neg hz, if_neg hg]

theorem not_nonpos {n : Nat} (h0 : 0 < n) (hn : n ≤ nicfree) : ¬nonpos n := by
  simp only [nonpos, nicfree] at *
  omega

theorem nospace_refines (h : Refines v []) : Refines v.nospace [] where
  chain := .inl ⟨rfl, rfl⟩
  nodup := List.nodup_nil
  good := by simp
  count := rfl
  super := h.super

/-- The buffer is claimed after its block left the stack. -/
theorem claim_refines {b : Nat} {l : List Nat} (clr : Bool)
    (hc : Chain v.blk v.fs.fs_nfree v.fs.fs_free l) (hd : (b :: l).Nodup)
    (hg : ∀ c ∈ b :: l, ¬v.fs.badblock c) (ht : v.fs.fs_tfree = l.length + 1) (hs : 0 < v.fs.fs_isize) :
    Refines (v.claim clr b) l := by
  have hlen := length_lt_of_good hd hg
  have hcount : wrap 32 (v.fs.fs_tfree + (2 ^ 32 - 1)) = l.length := by
    rw [ht]
    simp only [wrap, List.length_cons] at *
    omega
  have hbl : b ∉ l := (List.nodup_cons.mp hd).1
  cases clr with
  | false =>
    exact ⟨.inr hc, (List.nodup_cons.mp hd).2, fun c hcl => hg c (List.mem_cons_of_mem _ hcl), hcount, hs⟩
  | true =>
    refine ⟨.inr ?_, (List.nodup_cons.mp hd).2, fun c hcl => hg c (List.mem_cons_of_mem _ hcl), hcount, hs⟩
    refine hc.frame (fun c hcl w _ => ?_) fun _ _ => rfl
    have hne : c ≠ b := fun he => hbl (he ▸ hcl)
    simp [Volume.claim, Volume.setBlk, Function.update_of_ne hne]

/-! ## Taking the top -/

theorem Chain.pop {blk : Nat → Nat → Nat} {n b : Nat} {free : Nat → Nat} {t : List Nat}
    (h : Chain blk (n + 2) free (b :: t)) : b = free (n + 1) ∧ Chain blk (n + 1) free t := by
  generalize hm : n + 2 = m at h
  generalize hl : b :: t = l at h
  cases h with
  | last hn hle hz =>
    subst hm
    obtain ⟨rfl, rfl⟩ := List.cons.inj hl
    exact ⟨rfl, .last (by omega) (by omega) hz⟩
  | more hn hle hz hc =>
    subst hm
    obtain ⟨rfl, rfl⟩ := List.cons.inj hl
    exact ⟨rfl, .more (by omega) (by omega) hz hc⟩

/-- The last entry is the block that remembers the rest. -/
theorem Chain.refill {blk : Nat → Nat → Nat} {b : Nat} {free : Nat → Nat} {t : List Nat}
    (h : Chain blk 1 free (b :: t)) : b = free 0 ∧ Chain blk (blk b 0) (fun i => blk b (i + 1)) t := by
  generalize hl : b :: t = l at h
  cases h with
  | last hn hle hz => cases hl
  | more hn hle hz hc =>
    obtain ⟨rfl, rfl⟩ := List.cons.inj hl
    exact ⟨rfl, hc⟩

/-- An empty stack. -/
theorem Chain.dry {blk : Nat → Nat → Nat} {n : Nat} {free : Nat → Nat} (h : Chain blk n free []) :
    n = 1 ∧ free 0 = 0 := by
  generalize hl : ([] : List Nat) = l at h
  cases h with
  | last hn hle hz =>
    refine ⟨?_, hz⟩
    match n, hn, hl with
    | 1, _, _ => rfl
  | more hn hle hz hc => simp at hl

/-- `ENOSPC`, when the stack is empty. -/
theorem balloc_nil (h : Refines v []) (clr : Bool) : v.balloc clr = (none, v.nospace) := by
  unfold Volume.balloc
  rcases h.chain with ⟨hz, -⟩ | hc
  · rw [if_pos (.inl (.inl hz))]
  · obtain ⟨hn, hz⟩ := hc.dry
    rw [hn, if_neg (by simp [nonpos, nicfree])]
    simp [takeFree, hz]

/-- The top, when there is one. Nothing else moves: the block alone may be cleared. -/
theorem balloc_cons {b : Nat} {t : List Nat} (h : Refines v (b :: t)) (clr : Bool) :
    ∃ w, v.balloc clr = (some b, w) ∧ Refines w t ∧ w.fs.fs_isize = v.fs.fs_isize ∧
      w.fs.fs_fsize = v.fs.fs_fsize ∧ w.blk = if clr then Function.update v.blk b (fun _ => 0) else v.blk := by
  have hc : Chain v.blk v.fs.fs_nfree v.fs.fs_free (b :: t) := by
    rcases h.chain with ⟨-, hl⟩ | hc
    · cases hl
    · exact hc
  have hgood : ¬v.fs.badblock b := h.good b (by simp)
  have hne : b ≠ 0 := h.ne_zero hgood
  have hcount : v.fs.fs_tfree = t.length + 1 := h.count
  obtain ⟨hpos, hle⟩ := hc.pos
  unfold Volume.balloc
  rw [if_neg (by rintro (hn | hn); exacts [not_nonpos hpos hle hn, by omega])]
  obtain ⟨n, hn⟩ : ∃ n, v.fs.fs_nfree = n + 1 := ⟨v.fs.fs_nfree - 1, by omega⟩
  rw [hn] at hc ⊢
  cases n with
  | zero =>
    -- The last entry: what follows is read out of the block itself.
    obtain ⟨rfl, hrest⟩ := hc.refill
    rw [takeFree_good hne hgood]
    obtain ⟨hp, hq⟩ := hrest.pos
    have hpos : ¬nonpos (Fs.load { v.fs with fs_nfree := 0 } (v.blk (v.fs.fs_free 0))).fs_nfree :=
      not_nonpos hp hq
    simp only [if_pos (show nonpos 0 from .inl rfl), if_neg hpos]
    refine ⟨_, rfl, claim_refines clr ?_ h.nodup h.good hcount h.super, ?_⟩
    · exact hrest
    · cases clr <;> exact ⟨rfl, rfl, rfl⟩
  | succ n =>
    obtain ⟨rfl, hrest⟩ := hc.pop
    rw [takeFree_good hne hgood]
    obtain ⟨hp, hq⟩ := hrest.pos
    simp only [if_neg (not_nonpos hp hq)]
    refine ⟨_, rfl, claim_refines clr hrest h.nodup h.good hcount h.super, ?_⟩
    cases clr <;> exact ⟨rfl, rfl, rfl⟩

/-! ## Putting a block back -/

theorem Chain.push {blk : Nat → Nat → Nat} {n : Nat} {free : Nat → Nat} {l : List Nat}
    (h : Chain blk n free l) (hn : n < nicfree) (b : Nat) :
    Chain blk (n + 1) (Function.update free n b) (b :: l) := by
  have hsame : ∀ i < n, Function.update free n b i = free i := fun i hi => by
    rw [Function.update_of_ne (by omega)]
  have htop : window (Function.update free n b) (n + 1) = b :: window free n := by
    have hp := h.pos.1
    obtain ⟨m, rfl⟩ : ∃ m, n = m + 1 := ⟨n - 1, by omega⟩
    simp only [window, Function.update_self]
    rw [window_congr hsame]
  have h0 : Function.update free n b 0 = free 0 := hsame 0 h.pos.1
  cases h with
  | last hp hle hz =>
    rw [← htop]
    exact .last (by omega) (by omega) (by rw [h0, hz])
  | more hp hle hz hc =>
    rw [← List.cons_append, ← htop, ← h0]
    exact .more (by omega) (by omega) (by rwa [h0]) (by rwa [h0])

/-- A full list goes into the block, and the block alone stands in its place. -/
theorem Chain.spill {fs : Fs} {blk : Nat → Nat → Nat} {l : List Nat} {b : Nat}
    (h : Chain blk fs.fs_nfree fs.fs_free l) (hb : b ≠ 0) (hl : b ∉ l) :
    Chain (Function.update blk b (fs.spill (blk b))) 1 (Function.update fs.fs_free 0 b) (b :: l) := by
  have h0 : Function.update fs.fs_free 0 b 0 = b := Function.update_self ..
  have hc := @Chain.more (Function.update blk b (fs.spill (blk b))) 1 (Function.update fs.fs_free 0 b) l
    (by omega) (by simp [nicfree]) (by rwa [h0])
  simp only [h0, Function.update_self, window, List.nil_append] at hc
  refine hc (h.frame (fun c hcl w _ => ?_) fun i hi => ?_)
  · have hne : c ≠ b := fun he => hl (he ▸ hcl)
    rw [Function.update_of_ne hne]
  · have := h.pos
    simp only [Fs.spill]
    rw [if_neg (by omega), if_pos (by omega)]
    rfl

/-- `free` pushes. Nothing but the block itself may be written. -/
theorem free_spec (h : Refines v l) {b : Nat} (hb : ¬v.fs.badblock b) (hl : b ∉ l) :
    Refines (v.free b) (b :: l) ∧ (v.free b).fs.fs_isize = v.fs.fs_isize ∧
      (v.free b).fs.fs_fsize = v.fs.fs_fsize ∧ ∀ c ≠ b, (v.free b).blk c = v.blk c := by
  have hd : (b :: l).Nodup := List.nodup_cons.mpr ⟨hl, h.nodup⟩
  have hg : ∀ c ∈ b :: l, ¬v.fs.badblock c := fun c hc => by
    rcases List.mem_cons.mp hc with rfl | hc
    exacts [hb, h.good c hc]
  have hcount : wrap 32 (v.fs.fs_tfree + 1) = (b :: l).length := by
    have hlen := length_lt_of_good hd hg
    rw [h.count, List.length_cons] at *
    exact wrap_of_lt (by omega)
  have hne := h.ne_zero hb
  unfold Volume.free
  rw [if_neg hb]
  -- The list as `free` sees it, an emptied one with the end marker put in.
  obtain ⟨fs, hfs, hc, h₁, h₂, h₃⟩ : ∃ fs : Fs, (if nonpos v.fs.fs_nfree then
        { v.fs with fs_nfree := 1, fs_free := Function.update v.fs.fs_free 0 0 } else v.fs) = fs ∧
      Chain v.blk fs.fs_nfree fs.fs_free l ∧ fs.fs_isize = v.fs.fs_isize ∧
      fs.fs_fsize = v.fs.fs_fsize ∧ fs.fs_tfree = v.fs.fs_tfree := by
    rcases h.chain with ⟨hz, rfl⟩ | hc
    · rw [if_pos (.inl hz)]
      exact ⟨_, rfl, .last (by simp) (by simp [nicfree]) (by simp), rfl, rfl, rfl⟩
    · rw [if_neg (not_nonpos hc.pos.1 hc.pos.2)]
      exact ⟨_, rfl, hc, rfl, rfl, rfl⟩
  simp only [hfs]
  have hbad : ∀ c, fs.badblock c ↔ v.fs.badblock c := fun c => by simp only [Fs.badblock, h₁, h₂]
  by_cases hfull : nicfree ≤ fs.fs_nfree
  · simp only [if_pos hfull, Volume.setBlk]
    refine ⟨⟨.inr (hc.spill hne hl), hd, ?_, ?_, ?_⟩, h₁, h₂, ?_⟩
    · exact fun c hcl => (hbad c).not.mpr (hg c hcl)
    · simpa [h₃] using hcount
    · simpa [h₁] using h.super
    · exact fun c hcb => Function.update_of_ne hcb ..
  · simp only [if_neg hfull]
    refine ⟨⟨.inr (hc.push (by omega) b), hd, ?_, ?_, ?_⟩, h₁, h₂, ?_⟩
    · exact fun c hcl => (hbad c).not.mpr (hg c hcl)
    · simpa [h₃] using hcount
    · simpa [h₁] using h.super
    · exact fun _ _ => trivial

end

/-! ## Sequences of calls -/

/-- A call, or a write of the owner of a block to it. -/
inductive Call where
  | balloc (clrbuf : Bool)
  | free (bno : Nat)
  | write (bno : Nat) (words : Nat → Nat)

def Volume.call (v : Volume) : Call → Option Nat × Volume
  | .balloc clrbuf => v.balloc clrbuf
  | .free bno => (none, v.free bno)
  | .write bno words => (none, v.setBlk bno words)

/-- The call on a stack. -/
def Call.stack (l : List Nat) : Call → Option Nat × List Nat
  | .balloc _ => (l.head?, l.tail)
  | .free bno => (none, bno :: l)
  | .write _ _ => (none, l)

/-- The allocated blocks after a call that returned `r`. -/
def Call.used (u : Finset Nat) (r : Option Nat) : Call → Finset Nat
  | .balloc _ => u ∪ r.toFinset
  | .free bno => u.erase bno
  | .write _ _ => u

/-- Only an allocated block of the data area is freed or written. -/
def Call.Legal (fs : Fs) (u : Finset Nat) : Call → Prop
  | .balloc _ => True
  | .free bno => bno ∈ u ∧ ¬fs.badblock bno
  | .write bno _ => bno ∈ u

instance Call.decidableLegal (fs : Fs) (u : Finset Nat) (c : Call) : Decidable (c.Legal fs u) :=
  match c with
  | .balloc _ => inferInstanceAs (Decidable True)
  | .free _ => inferInstanceAs (Decidable (_ ∧ _))
  | .write _ _ => inferInstanceAs (Decidable (_ ∈ _))

/-- The calls, with what each returned, from a volume with `u` allocated. -/
inductive Runs : Volume → Finset Nat → List (Call × Option Nat) → Volume → Finset Nat → Prop where
  | nil (v : Volume) (u : Finset Nat) : Runs v u [] v u
  | cons {v v' : Volume} {u u' : Finset Nat} {c : Call} {es : List (Call × Option Nat)}
      (hc : c.Legal v.fs u) (hr : Runs (v.call c).2 (c.used u (v.call c).1) es v' u') :
      Runs v u ((c, (v.call c).1) :: es) v' u'

/-- What a stack returns for the calls, and the stack after them. -/
def stackRun : List Nat → List Call → List (Option Nat) × List Nat
  | l, [] => ([], l)
  | l, c :: cs => ((c.stack l).1 :: (stackRun (c.stack l).2 cs).1, (stackRun (c.stack l).2 cs).2)

/-- The stack and the allocated blocks are the data area between them. -/
structure Split (fs : Fs) (u : Finset Nat) (l : List Nat) : Prop where
  cover : u ∪ l.toFinset = fs.area
  apart : Disjoint u l.toFinset

theorem Split.not_mem {fs : Fs} {u : Finset Nat} {l : List Nat} (h : Split fs u l) {b : Nat}
    (hb : b ∈ u) : b ∉ l := fun hl =>
  (Finset.disjoint_left.mp h.apart) hb (List.mem_toFinset.mpr hl)

theorem Split.area_sdiff {fs : Fs} {l : List Nat} (hg : ∀ b ∈ l, ¬fs.badblock b) :
    Split fs (fs.area \ l.toFinset) l where
  cover := Finset.sdiff_union_of_subset fun b hb => mem_area.mpr (hg b (List.mem_toFinset.mp hb))
  apart := Finset.sdiff_disjoint

section

variable {v v' : Volume} {u u' : Finset Nat} {l : List Nat}

/-- What one call does, to the volume and to the stack. -/
theorem call_spec (h : Refines v l) (hs : Split v.fs u l) {c : Call} (hc : c.Legal v.fs u) :
    (v.call c).1 = (c.stack l).1 ∧ Refines (v.call c).2 (c.stack l).2 ∧
      Split (v.call c).2.fs (c.used u (v.call c).1) (c.stack l).2 ∧ (v.call c).2.fs.area = v.fs.area := by
  cases c with
  | balloc clr =>
    cases l with
    | nil =>
      simp only [Volume.call, balloc_nil h clr, Call.stack, Call.used]
      refine ⟨rfl, nospace_refines h, ⟨?_, ?_⟩, rfl⟩
      · simpa [Volume.nospace, Fs.area] using hs.cover
      · simp
    | cons b t =>
      obtain ⟨w, hw, hr, h₁, h₂, -⟩ := balloc_cons h clr
      have harea : w.fs.area = v.fs.area := by simp only [Fs.area, h₁, h₂]
      simp only [Volume.call, hw, Call.stack, Call.used]
      have hbt : b ∉ t := (List.nodup_cons.mp h.nodup).1
      refine ⟨rfl, hr, ⟨?_, ?_⟩, harea⟩
      · rw [harea, ← hs.cover]
        ext c
        simp
      · have hd := hs.apart
        simp only [Finset.disjoint_left, List.mem_toFinset, List.tail_cons] at hd ⊢
        intro c hcu hct
        rcases Finset.mem_union.mp hcu with hcu | hcb
        · exact hd hcu (List.mem_cons_of_mem _ hct)
        · simp only [Option.mem_toFinset, Option.mem_def, Option.some.injEq] at hcb
          exact hbt (hcb ▸ hct)
  | free b =>
    obtain ⟨hu, hg⟩ := hc
    obtain ⟨hr, h₁, h₂, -⟩ := free_spec h hg (hs.not_mem hu)
    have harea : (v.free b).fs.area = v.fs.area := by simp only [Fs.area, h₁, h₂]
    refine ⟨rfl, hr, ⟨?_, ?_⟩, harea⟩
    · simp only [Volume.call, harea, ← hs.cover, Call.used, Call.stack]
      ext c
      by_cases hcb : c = b
      · simp [hcb, hu]
      · simp [hcb]
    · have hd := hs.apart
      simp only [Finset.disjoint_left, List.mem_toFinset, Call.used, Call.stack] at hd ⊢
      intro c hcu hcl
      obtain ⟨hcb, hcu⟩ := Finset.mem_erase.mp hcu
      rcases List.mem_cons.mp hcl with rfl | hcl
      · exact hcb rfl
      · exact hd hcu hcl
  | write b ws =>
    refine ⟨rfl, ?_, hs, rfl⟩
    refine h.frame fun c hcl => Function.update_of_ne ?_ ..
    rintro rfl
    exact hs.not_mem hc hcl

/-- Every run is a run of the stack. -/
theorem Runs.refines {es : List (Call × Option Nat)} (hr : Runs v u es v' u') (h : Refines v l)
    (hs : Split v.fs u l) :
    ∃ l', stackRun l (es.map Prod.fst) = (es.map Prod.snd, l') ∧ Refines v' l' ∧ Split v'.fs u' l' ∧
      v'.fs.area = v.fs.area := by
  induction hr generalizing l with
  | nil v u => exact ⟨l, rfl, h, hs, rfl⟩
  | @cons v v' u u' c es hc hr ih =>
    obtain ⟨hret, href, hsplit, harea⟩ := call_spec h hs hc
    obtain ⟨l', hl', h', hs', ha'⟩ := ih href hsplit
    refine ⟨l', ?_, h', hs', ha'.trans harea⟩
    simp only [List.map_cons, stackRun, hl', hret]

/-- `balloc` and `free` are a stack. Whatever calls were made, what they returned is what a stack returns,
    `fs_tfree` is its height, it and the allocated blocks make up the data area, and the next `balloc`
    takes its top, which nobody has, or is `ENOSPC` when there is none. -/
theorem balloc_free_stack {es : List (Call × Option Nat)} (h : Refines v l)
    (hr : Runs v (v.fs.area \ l.toFinset) es v' u') :
    ∃ l', stackRun l (es.map Prod.fst) = (es.map Prod.snd, l') ∧ Refines v' l' ∧
      v'.fs.fs_tfree = l'.length ∧ u' ∪ l'.toFinset = v.fs.area ∧ Disjoint u' l'.toFinset ∧
      ∀ clrbuf, (v'.balloc clrbuf).1 = l'.head? ∧ ((v'.balloc clrbuf).1 = none ↔ l' = []) ∧
        ∀ b, (v'.balloc clrbuf).1 = some b → b ∉ u' := by
  obtain ⟨l', hrun, h', hs', harea⟩ := hr.refines h (.area_sdiff h.good)
  refine ⟨l', hrun, h', h'.count, harea ▸ hs'.cover, hs'.apart, fun clr => ?_⟩
  have htop : (v'.balloc clr).1 = l'.head? := (call_spec h' hs' (c := .balloc clr) trivial).1
  refine ⟨htop, by rw [htop, List.head?_eq_none_iff], fun b hb hu => ?_⟩
  rw [htop] at hb
  exact hs'.not_mem hu (List.mem_of_mem_head? hb)

end

/-- A volume of three data blocks, all of them allocated. -/
def tinyVolume : Volume :=
  let fs : Fs :=
    { fs_isize := 2, fs_fsize := 5, fs_nfree := 0, fs_free := fun _ => 0, fs_ninode := 0
      fs_inode := fun _ => 0, fs_fmod := false, fs_ronly := false, fs_tfree := 0, fs_tinode := 0
      fs_lasti := 1, fs_nbehind := 0 }
  { fs := fs, superb := fs, blk := fun _ _ => 0 }

theorem tinyVolume_refines : Refines tinyVolume [] where
  chain := .inl ⟨rfl, rfl⟩
  nodup := List.nodup_nil
  good := by simp
  count := rfl
  super := by decide

theorem balloc_free_stack_tiny :
    ∃ v' u', Runs tinyVolume (tinyVolume.fs.area \ [].toFinset)
        [(.free 3, none), (.free 4, none), (.balloc true, some 4), (.balloc false, some 3),
          (.balloc false, none)] v' u' ∧
      v'.fs.fs_tfree = 0 := by
  have hrun := Runs.cons (v := tinyVolume) (u := tinyVolume.fs.area \ [].toFinset) (c := .free 3)
    (by decide +kernel) (.cons (c := .free 4) (by decide +kernel)
      (.cons (c := .balloc true) trivial (.cons (c := .balloc false) trivial
        (.cons (c := .balloc false) trivial (.nil _ _)))))
  obtain ⟨l', hl', -, ht, -⟩ := balloc_free_stack tinyVolume_refines hrun
  refine ⟨_, _, hrun, ?_⟩
  have hnil : l' = [] := (congrArg Prod.snd hl').symm
  rw [ht, hnil]
  rfl

end DiscoBSD.Ufs
