import DiscoBSD.Fsutil.Block
import DiscoBSD.Lib.Runs
import DiscoBSD.Ufs.Stack

/-!
# The host's free list is the kernel's stack

Over the kernel's `Chain`, with one thing more to say: **a block that remembers others lies below `2 ^ 22`**, so
that the host finds it where the kernel does. A call keeps the stack unless it takes from an empty one, which
drops the entry that ends the list, or spills into a block further up.
-/

set_option autoImplicit false

namespace DiscoBSD.Fsutil

open DiscoBSD.Lib
open DiscoBSD.Ufs (nicfree Volume Chain window)

theorem position_of_lt {bnum : Nat} (h : bnum < 2 ^ 22) : position bnum = bnum := by
  have hoff : bnum * bsdfsBsize < 2 ^ 32 := by
    unfold bsdfsBsize
    omega
  rw [position, wrap_of_lt hoff]
  exact Nat.mul_div_cancel _ (by decide)

/-- The blocks that the list leads through are found in the image. -/
inductive Low (blk : Nat → Nat → Nat) : (Nat → Nat) → Prop where
  | last {free : Nat → Nat} (hz : free 0 = 0) : Low blk free
  | more {free : Nat → Nat} (hz : free 0 ≠ 0) (hlt : free 0 < 2 ^ 22)
      (hl : Low blk fun i => blk (free 0) (i + 1)) : Low blk free

/-- Only the first entry counts. -/
theorem Low.first {blk : Nat → Nat → Nat} {free free' : Nat → Nat} (h : Low blk free) (heq : free' 0 = free 0) :
    Low blk free' := by
  cases h with
  | last hz => exact .last (heq.trans hz)
  | more hz hlt hl => exact .more (by rwa [heq]) (by rwa [heq]) (by rwa [heq])

theorem Low.refill {blk : Nat → Nat → Nat} {free : Nat → Nat} (h : Low blk free) (hne : free 0 ≠ 0) :
    free 0 < 2 ^ 22 ∧ Low blk fun i => blk (free 0) (i + 1) := by
  cases h with
  | last hz => exact absurd hz hne
  | more hz hlt hl => exact ⟨hlt, hl⟩

/-- Only blocks of the stack are read. -/
theorem Low.frame {blk blk' : Nat → Nat → Nat} {n : Nat} {free : Nat → Nat} {l : List Nat}
    (hc : Chain blk n free l) (h : Low blk free) (hb : ∀ b ∈ l, blk' b = blk b) : Low blk' free := by
  induction hc with
  | last hn hle hz => exact .last hz
  | @more n free l hn hle hz hl ih =>
    obtain ⟨hlt, hrest⟩ := h.refill hz
    have hhead : blk' (free 0) = blk (free 0) := hb _ (by simp)
    refine .more hz hlt ?_
    rw [hhead]
    exact ih hrest fun b hmem => hb b (by simp [hmem])

/-- The free list holds the stack `l`, in this image and for the kernel. -/
structure Stack (fs : Fs) (l : List Nat) : Prop where
  chain : Chain fs.disk fs.nfree fs.free l
  low : Low fs.disk fs.free
  nodup : l.Nodup
  good : ∀ b ∈ l, fs.isize ≤ b ∧ b < fs.fsize
  count : fs.tfree = l.length
  fits : fs.fsize < 2 ^ 31 ∧ fs.fsize ≤ fs.len
  writable : fs.writable = true

/-- What no call changes. -/
structure Same (fs fs' : Fs) : Prop where
  isize : fs'.isize = fs.isize
  fsize : fs'.fsize = fs.fsize
  area : fs'.area = fs.area

theorem Same.refl (fs : Fs) : Same fs fs := ⟨rfl, rfl, rfl⟩

theorem Same.trans {fs fs₁ fs₂ : Fs} (h : Same fs fs₁) (h₁ : Same fs₁ fs₂) : Same fs fs₂ :=
  ⟨h₁.isize.trans h.isize, h₁.fsize.trans h.fsize, h₁.area.trans h.area⟩

theorem Same.of {fs fs' : Fs} (hi : fs'.isize = fs.isize) (hf : fs'.fsize = fs.fsize) : Same fs fs' :=
  ⟨hi, hf, by rw [Fs.area, hi, hf, Fs.area]⟩

section

variable {fs : Fs} {l t : List Nat} {b : Nat}

theorem Stack.ne_zero (h : Stack fs l) (hb : b ∈ l) : b ≠ 0 := by
  have hpos := fs.isize_pos
  have hgood := (h.good b hb).1
  omega

theorem Stack.length_lt (h : Stack fs l) : l.length < 2 ^ 31 := by
  have hsub : l.toFinset ⊆ Finset.range fs.fsize := by
    intro c hc
    exact Finset.mem_range.mpr (h.good c (List.mem_toFinset.mp hc)).2
  have hcard := Finset.card_le_card hsub
  rw [List.toFinset_card_of_nodup h.nodup, Finset.card_range] at hcard
  have hfits := h.fits.1
  omega

/-- A stack is what the kernel mounts. -/
theorem Stack.refines (h : Stack fs l) (rest : Ufs.Fs) : Ufs.Refines (fs.mounted rest) l where
  chain := .inr h.chain
  nodup := h.nodup
  good := by
    intro c hc
    have hgood := h.good c hc
    have hfits := h.fits.1
    simp only [Ufs.Fs.badblock, Fs.mounted]
    omega
  count := h.count
  super := fs.isize_pos

theorem area_mounted (h : fs.fsize < 2 ^ 31) (rest : Ufs.Fs) : (fs.mounted rest).fs.area = fs.area := by
  simp only [Ufs.Fs.area, Fs.mounted, Fs.area]
  rw [Nat.min_eq_left (Nat.le_of_lt h)]

/-- A block that the stack may lead through is read where it is. -/
theorem Stack.read (h : Stack fs l) (hb : fs.isize ≤ b ∧ b < fs.fsize) (hlt : b < 2 ^ 22) :
    fs.fs_read_block b = some (fs.disk b) := by
  have hlen := h.fits.2
  rw [Fs.fs_read_block, if_neg (by omega), position_of_lt hlt, if_neg (by omega)]

/-- Only the blocks of the stack count, in an image that does not shrink. -/
theorem Stack.frame (h : Stack fs l) {disk : Nat → Nat → Nat} {len : Nat} (hb : ∀ c ∈ l, disk c = fs.disk c)
    (hlen : fs.len ≤ len) : Stack { fs with disk := disk, len := len } l where
  chain := h.chain.frame (fun c hc w _ => congrFun (hb c hc) w) fun _ _ => rfl
  low := Low.frame h.chain h.low hb
  nodup := h.nodup
  good := h.good
  count := h.count
  fits := ⟨h.fits.1, Nat.le_trans h.fits.2 hlen⟩
  writable := h.writable

/-- A block outside the stack is written. -/
theorem Stack.write (h : Stack fs l) (hb : fs.isize ≤ b) (hlt : b < 2 ^ 22) (hl : b ∉ l) (data : Nat → Nat) :
    ∃ fs', fs.fs_write_block b data = some fs' ∧ Stack fs' l ∧ Same fs fs' ∧ fs'.nfree = fs.nfree ∧
      fs'.free = fs.free ∧ fs'.tfree = fs.tfree ∧ fs'.disk = Function.update fs.disk b data := by
  have hw : ¬(fs.writable = false ∨ b < fs.isize) := by
    rw [h.writable]
    simp [hb]
  have hkeep : ∀ c ∈ l, Function.update fs.disk b data c = fs.disk c := by
    intro c hc
    refine Function.update_of_ne ?_ ..
    rintro rfl
    exact hl hc
  rw [Fs.fs_write_block, if_neg hw, position_of_lt hlt]
  exact ⟨_, rfl, h.frame hkeep (Nat.le_max_left _ _), .of rfl rfl, rfl, rfl, rfl, rfl⟩

/-! ## Taking the top -/

/-- An empty stack gives nothing. -/
theorem Stack.alloc_nil (h : Stack fs []) : fs.fs_block_alloc.1 = none := by
  obtain ⟨hn, hz⟩ := h.chain.dry
  rw [Fs.fs_block_alloc, hn]
  simp only [Fs.again, hz, if_true]
  rw [Fs.fs_read_block_zero]

theorem wrap_pred {n : Nat} (h : n + 1 < 2 ^ 32) : wrap 32 (n + 1 + (2 ^ 32 - 1)) = n := by
  unfold wrap
  omega

theorem Stack.alloc_cons (h : Stack fs (b :: t)) :
    ∃ fs', fs.fs_block_alloc = (some b, fs') ∧ Stack fs' t ∧ Same fs fs' ∧ fs'.disk = fs.disk := by
  obtain ⟨hpos, hle⟩ := h.chain.pos
  have hlen := h.length_lt
  have hcount : wrap 32 (fs.tfree + (2 ^ 32 - 1)) = t.length := by
    rw [h.count, List.length_cons]
    rw [List.length_cons] at hlen
    exact wrap_pred (by omega)
  have hb : b ∈ b :: t := List.mem_cons_self
  have hgood : ∀ c ∈ t, fs.isize ≤ c ∧ c < fs.fsize := fun c hc => h.good c (List.mem_cons_of_mem _ hc)
  have hc := h.chain
  have hlow := h.low
  obtain ⟨n, hn⟩ : ∃ n, fs.nfree = n + 1 := ⟨fs.nfree - 1, by omega⟩
  rw [hn] at hc
  rw [Fs.fs_block_alloc, hn]
  cases n with
  | zero =>
    -- The last entry: what follows is read out of the block itself.
    obtain ⟨rfl, hrest⟩ := hc.refill
    obtain ⟨hlt, hlow'⟩ := hlow.refill (h.ne_zero hb)
    have hread := h.read (h.good _ hb) hlt
    simp only [Fs.fs_read_block] at hread
    simp only [Fs.again, if_true, Fs.fs_read_block, hread]
    refine ⟨_, rfl, ?_, .of rfl rfl, rfl⟩
    exact
      { chain := hrest.frame (fun _ _ _ _ => rfl) fun i hi => if_pos (Nat.lt_of_lt_of_le hi hrest.pos.2)
        low := hlow'.first rfl
        nodup := (List.nodup_cons.mp h.nodup).2
        good := hgood
        count := hcount
        fits := h.fits
        writable := h.writable }
  | succ n =>
    obtain ⟨rfl, hrest⟩ := hc.pop
    have hsame : ∀ i < n + 1, Function.update fs.free (n + 1) 0 i = fs.free i := fun i hi =>
      Function.update_of_ne (Nat.ne_of_lt hi) ..
    rw [Fs.again, if_neg (Nat.succ_ne_zero n), if_neg (h.ne_zero hb)]
    refine ⟨_, rfl, ?_, .of rfl rfl, rfl⟩
    exact
      { chain := hrest.frame (fun _ _ _ _ => rfl) hsame
        low := hlow.first (hsame 0 (Nat.succ_pos n))
        nodup := (List.nodup_cons.mp h.nodup).2
        good := hgood
        count := hcount
        fits := h.fits
        writable := h.writable }

/-! ## Putting a block back -/

/-- The kernel's buffer and the host's hold the same entries. -/
theorem spill_eq (fs : Fs) (rest : Ufs.Fs) (junk : Nat → Nat) :
    (fs.mounted rest).fs.spill junk = fs.spilled junk := rfl

/-- A full list goes into the block. -/
theorem Stack.spill (h : Stack fs l) (hb : b ≠ 0) (hl : b ∉ l) (junk : Nat → Nat) :
    Chain (Function.update fs.disk b (fs.spilled junk)) 1 (Function.update fs.free 0 b) (b :: l) := by
  have hkeep : ∀ c ∈ l, ∀ w ≤ nicfree, Function.update fs.disk b junk c w = fs.disk c w := by
    intro c hc w _
    rw [Function.update_of_ne]
    rintro rfl
    exact hl hc
  have hframe : Chain (Function.update fs.disk b junk) (fs.mounted Ufs.tinyVolume.fs).fs.fs_nfree
      (fs.mounted Ufs.tinyVolume.fs).fs.fs_free l := h.chain.frame hkeep fun _ _ => rfl
  have hc := hframe.spill hb hl
  rw [Function.update_self, Function.update_idem, spill_eq] at hc
  exact hc

theorem Stack.low_spill (h : Stack fs l) (hb : b ≠ 0) (hlt : b < 2 ^ 22) (hl : b ∉ l) (junk : Nat → Nat) :
    Low (Function.update fs.disk b (fs.spilled junk)) (Function.update fs.free 0 b) := by
  have hkeep : ∀ c ∈ l, Function.update fs.disk b (fs.spilled junk) c = fs.disk c := by
    intro c hc
    refine Function.update_of_ne ?_ ..
    rintro rfl
    exact hl hc
  have hfirst : Function.update fs.free 0 b 0 = b := Function.update_self ..
  refine .more (by rwa [hfirst]) (by rwa [hfirst]) ?_
  rw [hfirst, Function.update_self]
  exact (Low.frame h.chain h.low hkeep).first rfl

theorem Stack.free (h : Stack fs l) (hb : fs.isize ≤ b ∧ b < fs.fsize) (hl : b ∉ l) (junk : Nat → Nat)
    (hnear : nicfree ≤ fs.nfree → b < 2 ^ 22) :
    ∃ fs', fs.fs_block_free b junk = (true, fs') ∧ Stack fs' (b :: l) ∧ Same fs fs' ∧ fs'.nfree ≤ fs.nfree + 1 := by
  have hpos := fs.isize_pos
  have hne : b ≠ 0 := by omega
  have hnodup : (b :: l).Nodup := List.nodup_cons.mpr ⟨hl, h.nodup⟩
  have hgood : ∀ c ∈ b :: l, fs.isize ≤ c ∧ c < fs.fsize := by
    intro c hc
    rcases List.mem_cons.mp hc with rfl | hc
    · exact hb
    · exact h.good c hc
  have hlen := h.length_lt
  have hcount : (if b ≠ 0 then wrap 32 (fs.tfree + 1) else fs.tfree) = (b :: l).length := by
    rw [if_pos hne, h.count, List.length_cons]
    exact wrap_of_lt (by omega)
  rw [Fs.fs_block_free]
  by_cases hfull : nicfree ≤ fs.nfree
  · have hlt := hnear hfull
    obtain ⟨fs', hwrite, hs, hsame, hn, hf, ht, hd⟩ := h.write hb.1 hlt hl (fs.spilled junk)
    rw [if_pos hfull, hwrite]
    refine ⟨_, rfl, ?_, .of hsame.isize hsame.fsize, Nat.le_add_left _ _⟩
    exact
      { chain := by
          simp only [Fs.put, hd, hf]
          exact h.spill hne hl junk
        low := by
          simp only [Fs.put, hd, hf]
          exact h.low_spill hne hlt hl junk
        nodup := hnodup
        good := by
          simp only [Fs.put, hsame.isize, hsame.fsize]
          exact hgood
        count := by
          simp only [Fs.put, ht]
          exact hcount
        fits := hs.fits
        writable := hs.writable }
  · rw [if_neg hfull]
    refine ⟨_, rfl, ?_, .of rfl rfl, Nat.le_refl _⟩
    exact
      { chain := h.chain.push (Nat.lt_of_not_le hfull) b
        low := h.low.first (Function.update_of_ne (by have := h.chain.pos.1; omega) ..)
        nodup := hnodup
        good := hgood
        count := hcount
        fits := h.fits
        writable := h.writable }

end

/-! ## Sequences of calls -/

/-- What is claimed of a state: the next block comes from those that are free, and there is none only when there is
none; they are counted; and the kernel, which finds them as its stack, goes on with that stack. -/
structure Right (s : Using) : Prop where
  none : s.fs.fs_block_alloc.1 = none ↔ s.fs.area ⊆ s.used
  some : ∀ b, s.fs.fs_block_alloc.1 = some b → b ∈ s.fs.area \ s.used
  count : s.fs.tfree = (s.fs.area \ s.used).card
  kernel : ∀ rest, ∃ l, Ufs.Refines (s.fs.mounted rest) l ∧ l.toFinset = s.fs.area \ s.used ∧
    ∀ es v' u', Ufs.Runs (s.fs.mounted rest) s.used es v' u' →
      ∃ l', Ufs.stackRun l (es.map Prod.fst) = (es.map Prod.snd, l') ∧ Ufs.Refines v' l' ∧
        u' ∪ l'.toFinset = s.fs.area ∧ Disjoint u' l'.toFinset

/-- A block is taken only while one is free, and none is written that lies past the 32 bits of an offset. -/
def Safe (s : Using) : Call → Prop
  | .alloc => ¬s.fs.area ⊆ s.used
  | .free bno _ => nicfree ≤ s.fs.nfree → bno < 2 ^ 22
  | .write bno _ => bno < 2 ^ 22

instance (s : Using) : (c : Call) → Decidable (Safe s c)
  | .alloc => inferInstanceAs (Decidable (¬_))
  | .free _ _ => inferInstanceAs (Decidable (_ → _))
  | .write _ _ => inferInstanceAs (Decidable (_ < _))

/-- The stack and the blocks in use are the data area between them. -/
structure Inv (s : Using) (l : List Nat) : Prop where
  stack : Stack s.fs l
  used : s.used = s.fs.area \ l.toFinset

section

variable {s s' : Using} {l : List Nat} {b : Nat}

theorem Stack.mem_area (h : Stack s.fs l) (hb : b ∈ l) : b ∈ s.fs.area := Finset.mem_Ico.mpr (h.good b hb)

theorem Stack.subset_area (h : Stack s.fs l) : l.toFinset ⊆ s.fs.area := fun _ hb =>
  h.mem_area (List.mem_toFinset.mp hb)

theorem Inv.free_eq (h : Inv s l) : s.fs.area \ s.used = l.toFinset := by
  rw [h.used, Finset.sdiff_sdiff_eq_self h.stack.subset_area]

theorem Inv.not_mem (h : Inv s l) (hb : b ∈ s.used) : b ∉ l := by
  rw [h.used] at hb
  exact fun hl => (Finset.mem_sdiff.mp hb).2 (List.mem_toFinset.mpr hl)

theorem Inv.good (h : Inv s l) (hb : b ∈ s.used) : s.fs.isize ≤ b ∧ b < s.fs.fsize := by
  rw [h.used] at hb
  exact Finset.mem_Ico.mp (Finset.mem_sdiff.mp hb).1

theorem Inv.nil_iff (h : Inv s l) : l = [] ↔ s.fs.area ⊆ s.used := by
  rw [← Finset.sdiff_eq_empty_iff_subset, h.free_eq, List.toFinset_eq_empty_iff]

theorem Inv.head (h : Inv s l) : s.fs.fs_block_alloc.1 = l.head? := by
  cases l with
  | nil => exact h.stack.alloc_nil
  | cons b t =>
    obtain ⟨fs', halloc, -⟩ := h.stack.alloc_cons
    rw [halloc]
    rfl

/-- The kernel mounts what the host leaves. -/
theorem Inv.kernel (h : Inv s l) (rest : Ufs.Fs) {es : List (Ufs.Call × Option Nat)} {v' : Volume} {u' : Finset Nat}
    (hr : Ufs.Runs (s.fs.mounted rest) s.used es v' u') :
    ∃ l', Ufs.stackRun l (es.map Prod.fst) = (es.map Prod.snd, l') ∧ Ufs.Refines v' l' ∧
      u' ∪ l'.toFinset = s.fs.area ∧ Disjoint u' l'.toFinset := by
  have harea := area_mounted h.stack.fits.1 rest
  have hrefines := h.stack.refines rest
  have hsplit : Ufs.Split (s.fs.mounted rest).fs s.used l := by
    rw [h.used, ← harea]
    exact .area_sdiff hrefines.good
  obtain ⟨l', hrun, hrefines', hsplit', harea'⟩ := hr.refines hrefines hsplit
  exact ⟨l', hrun, hrefines', hsplit'.cover.trans (harea'.trans harea), hsplit'.apart⟩

theorem Inv.right (h : Inv s l) : Right s where
  none := by
    rw [h.head, List.head?_eq_none_iff]
    exact h.nil_iff
  some := by
    intro b hb
    rw [h.head] at hb
    rw [h.free_eq]
    exact List.mem_toFinset.mpr (List.mem_of_mem_head? hb)
  count := by
    rw [h.free_eq, List.toFinset_card_of_nodup h.stack.nodup]
    exact h.stack.count
  kernel := fun rest => ⟨l, h.stack.refines rest, h.free_eq.symm, fun _ _ _ => h.kernel rest⟩

/-- The invariant, with the area that stays. -/
theorem Inv.of_stack {fs : Fs} {u : Finset Nat} (hs : Stack fs l) (hsame : Same s.fs fs)
    (hu : u = s.fs.area \ l.toFinset) : Inv ⟨fs, u⟩ l where
  stack := hs
  used := by rw [hsame.area, hu]

theorem Inv.alloc (h : Inv s l) (hsafe : ¬s.fs.area ⊆ s.used) (hstep : s.step .alloc = some s') : ∃ l', Inv s' l' := by
  cases l with
  | nil => exact absurd (h.nil_iff.mp rfl) hsafe
  | cons b t =>
    obtain ⟨fs', halloc, hstack, hsame, -⟩ := h.stack.alloc_cons
    simp only [Using.step, halloc, Option.some.injEq] at hstep
    subst hstep
    refine ⟨t, .of_stack hstack hsame ?_⟩
    have hb := h.stack.mem_area List.mem_cons_self
    have hbt := (List.nodup_cons.mp h.stack.nodup).1
    rw [h.used]
    ext c
    by_cases hc : c = b
    · subst hc
      simp [hb, hbt]
    · simp [hc]

theorem Inv.free {junk : Nat → Nat} (h : Inv s l) (hsafe : nicfree ≤ s.fs.nfree → b < 2 ^ 22)
    (hstep : s.step (.free b junk) = some s') : ∃ l', Inv s' l' := by
  simp only [Using.step] at hstep
  split at hstep
  · rename_i hb
    obtain ⟨fs', hfree, hstack, hsame, -⟩ := h.stack.free (h.good hb) (h.not_mem hb) junk hsafe
    simp only [hfree, Option.some.injEq] at hstep
    subst hstep
    refine ⟨b :: l, .of_stack hstack hsame ?_⟩
    rw [h.used]
    ext c
    by_cases hc : c = b
    · simp [hc]
    · simp [hc]
  · cases hstep

theorem Inv.write {data : Nat → Nat} (h : Inv s l) (hsafe : b < 2 ^ 22) (hstep : s.step (.write b data) = some s') :
    ∃ l', Inv s' l' := by
  simp only [Using.step] at hstep
  split at hstep
  · rename_i hb
    obtain ⟨fs', hwrite, hstack, hsame, -⟩ := h.stack.write (h.good hb).1 hsafe (h.not_mem hb) data
    rw [hwrite] at hstep
    cases hstep
    exact ⟨l, .of_stack hstack hsame h.used⟩
  · cases hstep

/-- A safe call keeps the invariant. -/
theorem step_inv {c : Call} (h : ∃ l, Inv s l) (hstep : s.step c = some s') (hsafe : Safe s c) : ∃ l, Inv s' l := by
  obtain ⟨l, h⟩ := h
  cases c with
  | alloc => exact h.alloc hsafe hstep
  | free b junk => exact h.free hsafe hstep
  | write b data => exact h.write hsafe hstep

/-- And so does a run of them. -/
theorem Inv.always {es : List Call} (h : Inv s l) (hsafe : Each Using.step Safe s es) : Always Using.step Right s es :=
  always_of_each (fun _ ⟨_, h⟩ => h.right) (fun _ _ _ => step_inv) ⟨l, h⟩ hsafe

end

end DiscoBSD.Fsutil

/-!
# Making a file system

`fs_create` of `tools/fsutil/create.c`, as far as it goes through the allocator: the free list is built from the last
block down, and then the directories and the tables of the swap file take their blocks from it. **What is left is
one run of blocks up to the end**, as long as none that is written lies past the 32 bits of an offset.
-/

namespace DiscoBSD.Fsutil

open DiscoBSD.Lib
open DiscoBSD.Ufs (nicfree Chain)

/-- What `fs_create` finds and leaves beside the free list: the image before it, the words of its stack that go into
a block with a full list, the blocks of the superblock and the inodes, and the two directories. -/
structure Image where
  len : Nat
  disk : Nat → Nat → Nat
  junk : Nat → Nat → Nat
  ilist : Nat → Nat → Nat
  lostFound : Nat → Nat
  root : Nat → Nat

/-- `isize`, for a size in blocks and a number of inodes, of which 0 asks for one in 16 blocks. -/
def isizeOf (fsize inodes : Nat) : Nat :=
  wrap 32 (1 + wrap 32 ((if inodes = 0 then fsize / 16 else inodes) + 15) / 16)

/-- `swapsz`. -/
def swapszOf (swap_kbytes : Nat) : Nat := wrap 32 (swap_kbytes * 1024) / bsdfsBsize

/-- The loop over the free blocks, `count` of them from the last down to `low`. -/
def buildList (img : Image) (low : Nat) : Nat → Fs → Option Fs
  | 0, fs => some fs
  | count + 1, fs =>
    match fs.fs_block_free (low + count) (img.junk (low + count)) with
    | (false, _) => none
    | (true, fs) => buildList img low count fs

/-- `create_lost_found_directory` and `create_root_directory`: a block that holds `buf`. -/
def createDirectory (buf : Nat → Nat) (fs : Fs) : Option Fs :=
  match fs.fs_block_alloc with
  | (none, _) => none
  | (some bno, fs) => fs.fs_write_block bno buf

/-! ## The swap file -/

/-- The levels of tables that lead to block `bn` after the direct ones, and its number among those. -/
def levelsOf (bn : Nat) : Option (Nat × Nat) :=
  if bn < 2 ^ 8 then some (1, bn)
  else if bn - 2 ^ 8 < 2 ^ 16 then some (2, bn - 2 ^ 8)
  else if bn - 2 ^ 8 - 2 ^ 16 < 2 ^ 24 then some (3, bn - 2 ^ 8 - 2 ^ 16)
  else none

/-- The loop of `map_block_swap` through the tables. -/
def throughTables (lbn bn : Nat) : Nat → Nat → Fs → Option Fs
  | 0, _, _ => none
  | levels + 1, indir, fs => do
    let block ← fs.fs_read_block indir
    let i := (bn >>> (8 * levels)) &&& 0xff
    if levels = 0 then fs.fs_write_block indir (Function.update block i (fs.isize + lbn))
    else if block i ≠ 0 then throughTables lbn bn levels (block i) fs
    else
      match fs.fs_block_alloc with
      | (none, _) => none
      | (some newb, fs) => do
        let fs ← fs.fs_write_block indir (Function.update block i newb)
        let fs ← fs.fs_write_block newb fun _ => 0
        throughTables lbn bn levels newb fs

/-- The table that an address of the inode leads to, which is made where there is none. -/
def topTable (levels : Nat) (fs : Fs) (addr : Nat → Nat) : Option (Fs × (Nat → Nat)) :=
  if addr (3 + levels) = 0 then
    match fs.fs_block_alloc with
    | (none, _) => none
    | (some indir, fs) => (fs.fs_write_block indir fun _ => 0).map (·, Function.update addr (3 + levels) indir)
  else some (fs, addr)

/-- `map_block_swap`. Where it cannot go on it ends the program. -/
def map_block_swap (fs : Fs) (addr : Nat → Nat) (lbn : Nat) : Option (Fs × (Nat → Nat)) :=
  if lbn < 4 then some (fs, Function.update addr lbn (fs.isize + lbn))
  else do
    let (levels, bn) ← levelsOf (lbn - 4)
    let (fs, addr) ← topTable levels fs addr
    let fs ← throughTables lbn bn levels (addr (3 + levels)) fs
    some (fs, addr)

/-- The loop of `create_swap_file` from block `lbn` on. -/
def mapSwap : Nat → Nat → Fs → (Nat → Nat) → Option Fs
  | 0, _, fs, _ => some fs
  | count + 1, lbn, fs, addr => do
    let (fs, addr) ← map_block_swap fs addr lbn
    mapSwap count (lbn + 1) fs addr

def create_swap_file (swapsz : Nat) (fs : Fs) : Option Fs := mapSwap swapsz 0 fs fun _ => 0

/-! ## `fs_create` -/

/-- `fs_create`, on a file or a partition of `kbytes`. -/
def fs_create (img : Image) (kbytes swap_kbytes inodes : Nat) : Option Fs :=
  let swapsz := swapszOf swap_kbytes
  if h : isizeOf kbytes inodes < 2 then none
  else
    let fs : Fs :=
      { isize := isizeOf kbytes inodes, isize_pos := by omega, fsize := kbytes
        nfree := 0, free := fun _ => 0, tfree := 0, writable := true
        len := max img.len kbytes, disk := img.disk }
    let low := wrap 32 (fs.isize + swapsz)
    -- The first block of the loop is `fsize - 1`, an `unsigned` like the last.
    let last := wrap 32 (fs.fsize + (2 ^ 32 - 1))
    do
      let fs ← buildList img low (last + 1 - low) (fs.fs_block_free 0 (img.junk 0)).2
      let fs := { fs with disk := fun b => if b < fs.isize then img.ilist b else fs.disk b }
      let fs ← createDirectory img.lostFound fs
      let fs ← createDirectory img.root fs
      if swapsz ≠ 0 then create_swap_file swapsz fs else some fs

end DiscoBSD.Fsutil
