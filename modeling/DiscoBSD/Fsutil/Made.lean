import Mathlib
import DiscoBSD.Fsutil.Create

/-!
# What `fs_create` leaves free

Each step of `fs_create` keeps the free list a stack: the loop builds it up to the last block, and whatever is made
then takes blocks from its top and writes only those. So what is left is **the end of the data area, in order**, and
from there every run of calls is one of the stack.
-/

set_option autoImplicit false

namespace DiscoBSD.Fsutil

open DiscoBSD.Lib
open DiscoBSD.Ufs (nicfree Chain window)

variable {fs fs' : Fs} {l : List Nat} {img : Image}

/-! ## The list -/

/-- The entry that ends the list. -/
theorem stack_nil (h : fs.fsize < 2 ^ 31) (hlen : fs.fsize ≤ fs.len) (hw : fs.writable = true) (hn : fs.nfree = 0)
    (ht : fs.tfree = 0) (junk : Nat → Nat) :
    Stack (fs.fs_block_free 0 junk).2 [] ∧ Same fs (fs.fs_block_free 0 junk).2 ∧
      (fs.fs_block_free 0 junk).2.nfree = 1 := by
  have hnot : ¬nicfree ≤ fs.nfree := by
    rw [hn]
    decide
  have hz : Function.update fs.free fs.nfree 0 0 = 0 := by
    rw [hn]
    exact Function.update_self ..
  rw [Fs.fs_block_free, if_neg hnot]
  refine ⟨?_, .of rfl rfl, congrArg (· + 1) hn⟩
  exact
    { chain := by
        have hc : Chain fs.disk 1 (Function.update fs.free fs.nfree 0) [] := .last Nat.one_pos (by decide) hz
        simp only [Fs.put, hn] at hc ⊢
        exact hc
      low := .last hz
      nodup := List.nodup_nil
      good := by rintro _ ⟨⟩
      count := ht
      fits := ⟨h, hlen⟩
      writable := hw }

/-- One block below the other. A list is full only after `NICFREE - 1` of them, and the blocks that are left then lie
below `2 ^ 22`. -/
theorem buildList_stack {low count k : Nat} (h : Stack fs (List.range' (low + count) k)) (hlow : fs.isize ≤ low)
    (hn : fs.nfree ≤ k + 1) (hend : low + count + k = fs.fsize) (hnear : fs.fsize < 2 ^ 22 + nicfree) :
    ∃ fs', buildList img low count fs = some fs' ∧ Stack fs' (List.range' low (count + k)) ∧ Same fs fs' := by
  induction count generalizing fs k with
  | zero =>
    rw [Nat.zero_add]
    exact ⟨fs, rfl, h, .refl fs⟩
  | succ count ih =>
    have hnot : low + count ∉ List.range' (low + (count + 1)) k := by
      rw [List.mem_range'_1]
      omega
    obtain ⟨fs', hfree, hstack, hsame, hn'⟩ :=
      h.free (b := low + count) (by omega) hnot (img.junk (low + count)) fun hfull => by omega
    have hlist : (low + count) :: List.range' (low + (count + 1)) k = List.range' (low + count) (k + 1) := by
      rw [List.range'_succ]
      rfl
    rw [hlist] at hstack
    obtain ⟨fs'', hbuild, hstack', hsame'⟩ := ih hstack (by rw [hsame.isize]; exact hlow) (by omega)
      (by rw [hsame.fsize]; omega) (by rw [hsame.fsize]; exact hnear)
    refine ⟨fs'', ?_, ?_, hsame.trans hsame'⟩
    · rw [buildList, hfree]
      exact hbuild
    · rw [Nat.add_right_comm count 1 k]
      exact hstack'

/-- The superblock and the inodes lie below the data. -/
theorem Stack.ilist (h : Stack fs l) (ilist : Nat → Nat → Nat) :
    Stack { fs with disk := fun b => if b < fs.isize then ilist b else fs.disk b } l :=
  h.frame (fun c hc => if_neg (Nat.not_lt.mpr (h.good c hc).1)) (Nat.le_refl _)

/-! ## What takes blocks -/

/-- A block that comes from the stack. -/
theorem Stack.taken (h : Stack fs l) {b : Nat} (halloc : fs.fs_block_alloc = (some b, fs')) :
    ∃ t, l = b :: t ∧ Stack fs' t ∧ Same fs fs' ∧ fs'.disk = fs.disk := by
  cases l with
  | nil =>
    have hnone := h.alloc_nil
    rw [halloc] at hnone
    cases hnone
  | cons c t =>
    obtain ⟨fs₁, halloc₁, hstack, hsame, hdisk⟩ := h.alloc_cons
    rw [halloc₁] at halloc
    cases halloc
    exact ⟨t, rfl, hstack, hsame, hdisk⟩

theorem createDirectory_stack {buf : Nat → Nat} (h : Stack fs l) (hnear : ∀ b, l.head? = some b → b < 2 ^ 22)
    (hcreate : createDirectory buf fs = some fs') : ∃ b t, l = b :: t ∧ Stack fs' t ∧ Same fs fs' := by
  unfold createDirectory at hcreate
  split at hcreate
  · cases hcreate
  · rename_i b fs₁ halloc
    obtain ⟨t, rfl, hstack, hsame, -⟩ := h.taken halloc
    have hgood := h.good b List.mem_cons_self
    have hnot := (List.nodup_cons.mp h.nodup).1
    obtain ⟨fs₂, hwrite, hstack', hsame', -⟩ :=
      hstack.write (by rw [hsame.isize]; exact hgood.1) (hnear b rfl) hnot buf
    rw [hwrite] at hcreate
    cases hcreate
    exact ⟨b, t, rfl, hstack', hsame.trans hsame'⟩

/-! ## The tables of the swap file -/

/-- The blocks that are tables, each with the levels below and at it. A table of more than one level leads to
tables. -/
structure Tables (fs : Fs) (l : List Nat) (level : Nat → Nat) : Prop where
  good : ∀ b, level b ≠ 0 → fs.isize ≤ b ∧ b < fs.fsize ∧ b ∉ l
  leads : ∀ b, 2 ≤ level b → ∀ i, fs.disk b i ≠ 0 → level (fs.disk b i) + 1 = level b

/-- A stack with the tables beside it, in a file system all of whose blocks can be written. -/
structure Swapping (fs : Fs) (l : List Nat) (level : Nat → Nat) : Prop where
  stack : Stack fs l
  tables : Tables fs l level
  small : fs.fsize ≤ 2 ^ 22

/-- The end of the list, with tables that are there still. -/
structure Later (fs : Fs) (l : List Nat) (level : Nat → Nat) (fs' : Fs) (l' : List Nat) (level' : Nat → Nat) :
    Prop where
  swapping : Swapping fs' l' level'
  suffix : l' <:+ l
  same : Same fs fs'
  keeps : ∀ b, level b ≠ 0 → level' b = level b

variable {level : Nat → Nat} {b : Nat}

theorem Swapping.later (h : Swapping fs l level) : Later fs l level fs l level :=
  ⟨h, List.suffix_refl l, .refl fs, fun _ _ => rfl⟩

theorem Later.trans {fs₁ fs₂ : Fs} {l₁ l₂ : List Nat} {level₁ level₂ : Nat → Nat}
    (h : Later fs l level fs₁ l₁ level₁) (h₁ : Later fs₁ l₁ level₁ fs₂ l₂ level₂) : Later fs l level fs₂ l₂ level₂ where
  swapping := h₁.swapping
  suffix := h₁.suffix.trans h.suffix
  same := h.same.trans h₁.same
  keeps := by
    intro b hb
    have hkeep := h.keeps b hb
    rw [← hkeep]
    exact h₁.keeps b (by rwa [hkeep])

theorem Swapping.read (h : Swapping fs l level) (hb : level b ≠ 0) : fs.fs_read_block b = some (fs.disk b) := by
  obtain ⟨hlow, hhigh, -⟩ := h.tables.good b hb
  exact h.stack.read ⟨hlow, hhigh⟩ (Nat.lt_of_lt_of_le hhigh h.small)

/-- A table is written with entries that lead where they may. -/
theorem Swapping.write (h : Swapping fs l level) (hb : level b ≠ 0) (data : Nat → Nat)
    (hdata : 2 ≤ level b → ∀ i, data i ≠ 0 → level (data i) + 1 = level b) :
    ∃ fs', fs.fs_write_block b data = some fs' ∧ Later fs l level fs' l level ∧
      fs'.disk = Function.update fs.disk b data := by
  obtain ⟨hlow, hhigh, hnot⟩ := h.tables.good b hb
  obtain ⟨fs', hwrite, hstack, hsame, -, -, -, hdisk⟩ :=
    h.stack.write hlow (Nat.lt_of_lt_of_le hhigh h.small) hnot data
  refine ⟨fs', hwrite, ⟨⟨hstack, ⟨?_, ?_⟩, ?_⟩, List.suffix_refl l, hsame, fun _ _ => rfl⟩, hdisk⟩
  · rw [hsame.isize, hsame.fsize]
    exact h.tables.good
  · rw [hdisk]
    intro c hc i
    by_cases heq : c = b
    · subst heq
      rw [Function.update_self]
      exact hdata hc i
    · rw [Function.update_of_ne heq]
      exact h.tables.leads c hc i
  · rw [hsame.fsize]
    exact h.small

/-- A block of the stack has not been a table, and the tables have kept their levels when it is one. -/
theorem Tables.keeps (h : Tables fs (b :: l) level) (k : Nat) {c : Nat} (hc : level c ≠ 0) :
    Function.update level b k c = level c := by
  refine Function.update_of_ne ?_ ..
  rintro rfl
  exact (h.good c hc).2.2 List.mem_cons_self

/-- The top of the stack is cleared and becomes a table. Only a table of one level more has come to lead to it. -/
theorem Tables.made {k : Nat} (h : Tables fs (b :: l) level) (hs : Stack fs (b :: l)) (hsame : Same fs fs')
    (hclear : ∀ i, fs'.disk b i = 0)
    (hdisk : ∀ c, c ≠ b → 2 ≤ level c → ∀ i, fs'.disk c i = fs.disk c i ∨ fs'.disk c i = b ∧ k + 1 = level c) :
    Tables fs' l (Function.update level b k) where
  good := by
    rw [hsame.isize, hsame.fsize]
    intro c hc
    by_cases heq : c = b
    · subst heq
      have hgood := hs.good c List.mem_cons_self
      exact ⟨hgood.1, hgood.2, (List.nodup_cons.mp hs.nodup).1⟩
    · rw [Function.update_of_ne heq] at hc
      obtain ⟨hlow, hhigh, hout⟩ := h.good c hc
      exact ⟨hlow, hhigh, fun hmem => hout (List.mem_cons_of_mem _ hmem)⟩
  leads := by
    intro c hc i hi
    by_cases heq : c = b
    · subst heq
      exact absurd (hclear i) hi
    · rw [Function.update_of_ne heq] at hc ⊢
      rcases hdisk c heq hc i with hold | ⟨hnew, hk⟩
      · rw [hold] at hi ⊢
        have hlead := h.leads c hc i hi
        rw [h.keeps k (by omega)]
        exact hlead
      · rw [hnew, Function.update_self]
        exact hk

/-- The write that clears it. -/
theorem Stack.clear (h : Stack fs l) (hb : fs.isize ≤ b ∧ b < fs.fsize) (hl : b ∉ l) (hsmall : fs.fsize ≤ 2 ^ 22) :
    ∃ fs', fs.fs_write_block b (fun _ => 0) = some fs' ∧ Stack fs' l ∧ Same fs fs' ∧
      fs'.disk = Function.update fs.disk b fun _ => 0 := by
  obtain ⟨fs', hwrite, hstack, hsame, -, -, -, hdisk⟩ :=
    h.write hb.1 (Nat.lt_of_lt_of_le hb.2 hsmall) hl fun _ => 0
  exact ⟨fs', hwrite, hstack, hsame, hdisk⟩

theorem topTable_later {levels : Nat} {addr addr' : Nat → Nat} (h : Swapping fs l level)
    (haddr : ∀ k, 0 < k → addr (3 + k) ≠ 0 → level (addr (3 + k)) = k) (hpos : 0 < levels)
    (htop : topTable levels fs addr = some (fs', addr')) :
    ∃ l' level', Later fs l level fs' l' level' ∧ level' (addr' (3 + levels)) = levels ∧
      ∀ k, 0 < k → addr' (3 + k) ≠ 0 → level' (addr' (3 + k)) = k := by
  unfold topTable at htop
  by_cases hzero : addr (3 + levels) = 0
  · rw [if_pos hzero] at htop
    split at htop
    · cases htop
    · rename_i b fs₁ halloc
      obtain ⟨t, rfl, hstack, hsame, hdisk⟩ := h.stack.taken halloc
      have hgood := h.stack.good b List.mem_cons_self
      obtain ⟨fs₂, hwrite, hstack', hsame', hdisk'⟩ := hstack.clear
        (by rw [hsame.isize, hsame.fsize]; exact hgood) (List.nodup_cons.mp h.stack.nodup).1
        (by rw [hsame.fsize]; exact h.small)
      have hall := hsame.trans hsame'
      rw [hwrite, Option.map_some, Option.some.injEq, Prod.mk.injEq] at htop
      obtain ⟨rfl, rfl⟩ := htop
      have htables : Tables fs₂ t (Function.update level b levels) := by
        refine h.tables.made h.stack hall (fun i => ?_) fun c hc _ i => .inl ?_
        · rw [hdisk', Function.update_self]
        · rw [hdisk', Function.update_of_ne hc, hdisk]
      refine ⟨t, _, ⟨⟨hstack', htables, by rw [hall.fsize]; exact h.small⟩, List.suffix_cons b t, hall,
        fun c hc => h.tables.keeps levels hc⟩, ?_, ?_⟩
      · rw [Function.update_self, Function.update_self]
      · intro k hk hne
        by_cases heq : k = levels
        · subst heq
          rw [Function.update_self, Function.update_self]
        · have hother : 3 + k ≠ 3 + levels := by omega
          rw [Function.update_of_ne hother] at hne ⊢
          have hlevel := haddr k hk hne
          rw [h.tables.keeps levels (by omega)]
          exact hlevel
  · rw [if_neg hzero] at htop
    cases htop
    exact ⟨l, level, h.later, haddr levels hpos hzero, haddr⟩

theorem throughTables_later {lbn bn levels indir : Nat} (h : Swapping fs l level) (hlevel : level indir = levels)
    (hthrough : throughTables lbn bn levels indir fs = some fs') :
    ∃ l' level', Later fs l level fs' l' level' := by
  induction levels generalizing fs l level indir with
  | zero => cases hthrough
  | succ levels ih =>
    have hne : level indir ≠ 0 := by omega
    rw [throughTables, h.read hne] at hthrough
    simp only [bind, Option.bind] at hthrough
    obtain ⟨i, hi⟩ : ∃ i, i = (bn >>> (8 * levels)) &&& 0xff := ⟨_, rfl⟩
    rw [← hi] at hthrough
    by_cases hlast : levels = 0
    · rw [if_pos hlast] at hthrough
      obtain ⟨fs₁, hwrite, hlater, -⟩ := h.write hne _ fun htwo => by omega
      rw [hwrite] at hthrough
      cases hthrough
      exact ⟨l, level, hlater⟩
    · rw [if_neg hlast] at hthrough
      by_cases hentry : fs.disk indir i ≠ 0
      · rw [if_pos hentry] at hthrough
        have hlead := h.tables.leads indir (by omega) i hentry
        exact ih h (by omega) hthrough
      · rw [if_neg hentry] at hthrough
        -- The entry is made to lead to a new table before that is cleared.
        split at hthrough
        · cases hthrough
        · rename_i newb fs₁ halloc
          obtain ⟨t, rfl, hstack, hsame, hdisk⟩ := h.stack.taken halloc
          have hgood := h.stack.good newb List.mem_cons_self
          have hnot := (List.nodup_cons.mp h.stack.nodup).1
          obtain ⟨hlow, hhigh, hout⟩ := h.tables.good indir hne
          obtain ⟨fs₂, hwrite, hstack', hsame', -, -, -, hdisk'⟩ := hstack.write (b := indir)
            (by rw [hsame.isize]; exact hlow) (Nat.lt_of_lt_of_le hhigh h.small)
            (fun hmem => hout (List.mem_cons_of_mem _ hmem)) (Function.update (fs.disk indir) i newb)
          have htwo := hsame.trans hsame'
          obtain ⟨fs₃, hwrite', hstack'', hsame'', hdisk''⟩ := hstack'.clear
            (by rw [htwo.isize, htwo.fsize]; exact hgood) hnot (by rw [htwo.fsize]; exact h.small)
          have hall := htwo.trans hsame''
          rw [hwrite] at hthrough
          simp only at hthrough
          rw [hwrite'] at hthrough
          have htables : Tables fs₃ t (Function.update level newb levels) := by
            refine h.tables.made h.stack hall (fun j => ?_) fun c hc _ j => ?_
            · rw [hdisk'', Function.update_self]
            · rw [hdisk'', Function.update_of_ne hc, hdisk', hdisk]
              by_cases hindir : c = indir
              · subst hindir
                rw [Function.update_self]
                by_cases hj : j = i
                · subst hj
                  exact .inr ⟨Function.update_self .., hlevel.symm⟩
                · exact .inl (Function.update_of_ne hj ..)
              · exact .inl (by rw [Function.update_of_ne hindir])
          have hlater : Later fs (newb :: t) level fs₃ t (Function.update level newb levels) :=
            ⟨⟨hstack'', htables, by rw [hall.fsize]; exact h.small⟩, List.suffix_cons newb t, hall,
              fun c hc => h.tables.keeps levels hc⟩
          obtain ⟨l', level', hrest⟩ := ih hlater.swapping (Function.update_self ..) hthrough
          exact ⟨l', level', hlater.trans hrest⟩

theorem levelsOf_pos {n bn levels : Nat} (h : levelsOf n = some (levels, bn)) : 0 < levels := by
  unfold levelsOf at h
  split at h
  · cases h
    exact Nat.one_pos
  · split at h
    · cases h
      exact Nat.two_pos
    · split at h
      · cases h
        exact Nat.succ_pos 2
      · cases h

theorem map_block_swap_later {lbn : Nat} {addr addr' : Nat → Nat} (h : Swapping fs l level)
    (haddr : ∀ k, 0 < k → addr (3 + k) ≠ 0 → level (addr (3 + k)) = k)
    (hmap : map_block_swap fs addr lbn = some (fs', addr')) :
    ∃ l' level', Later fs l level fs' l' level' ∧ ∀ k, 0 < k → addr' (3 + k) ≠ 0 → level' (addr' (3 + k)) = k := by
  unfold map_block_swap at hmap
  by_cases hdirect : lbn < 4
  · rw [if_pos hdirect] at hmap
    cases hmap
    refine ⟨l, level, h.later, fun k hk hne => ?_⟩
    have hother : 3 + k ≠ lbn := by omega
    rw [Function.update_of_ne hother] at hne ⊢
    exact haddr k hk hne
  · rw [if_neg hdirect] at hmap
    obtain ⟨⟨levels, bn⟩, hlevels, hmap⟩ := Option.bind_eq_some_iff.mp hmap
    obtain ⟨⟨fs₁, addr₁⟩, htop, hmap⟩ := Option.bind_eq_some_iff.mp hmap
    obtain ⟨fs₂, hthrough, hmap⟩ := Option.bind_eq_some_iff.mp hmap
    cases hmap
    obtain ⟨l₁, level₁, hlater, hlevel, haddr₁⟩ := topTable_later h haddr (levelsOf_pos hlevels) htop
    obtain ⟨l₂, level₂, hlater'⟩ := throughTables_later hlater.swapping hlevel hthrough
    refine ⟨l₂, level₂, hlater.trans hlater', fun k hk hne => ?_⟩
    have hk₁ := haddr₁ k hk hne
    rw [hlater'.keeps _ (by omega)]
    exact hk₁

theorem mapSwap_later {count lbn : Nat} {addr : Nat → Nat} (h : Swapping fs l level)
    (haddr : ∀ k, 0 < k → addr (3 + k) ≠ 0 → level (addr (3 + k)) = k)
    (hmap : mapSwap count lbn fs addr = some fs') : ∃ l' level', Later fs l level fs' l' level' := by
  induction count generalizing fs l level lbn addr with
  | zero =>
    cases hmap
    exact ⟨l, level, h.later⟩
  | succ count ih =>
    obtain ⟨⟨fs₁, addr₁⟩, hone, hmap⟩ := Option.bind_eq_some_iff.mp hmap
    obtain ⟨l₁, level₁, hlater, haddr₁⟩ := map_block_swap_later h haddr hone
    obtain ⟨l₂, level₂, hlater'⟩ := ih hlater.swapping haddr₁ hmap
    exact ⟨l₂, level₂, hlater.trans hlater'⟩

/-- The swap file's tables come from the top of the stack. -/
theorem create_swap_file_stack {swapsz : Nat} (h : Stack fs l) (hsmall : fs.fsize ≤ 2 ^ 22)
    (hcreate : create_swap_file swapsz fs = some fs') : ∃ l', Stack fs' l' ∧ l' <:+ l ∧ Same fs fs' := by
  have hstart : Swapping fs l fun _ => 0 :=
    ⟨h, ⟨fun _ hb => absurd rfl hb, fun _ hb => absurd hb (by decide)⟩, hsmall⟩
  obtain ⟨l', level', hlater⟩ := mapSwap_later hstart (fun _ _ hne => absurd rfl hne) hcreate
  exact ⟨l', hlater.swapping.stack, hlater.suffix, hlater.same⟩

/-! ## The whole of it -/

/-- The first block after the inodes and the swap area. -/
def firstOf (kbytes swap_kbytes inodes : Nat) : Nat := isizeOf kbytes inodes + swapszOf swap_kbytes

/-- `fs_create` writes no block that lies past the 32 bits of an offset. The first list it spills goes into the block
`NICFREE` from the end, the directories into the first two, and the tables of a swap file anywhere. -/
structure Near (kbytes swap_kbytes inodes : Nat) : Prop where
  pos : 0 < kbytes
  lists : kbytes < 2 ^ 22 + nicfree
  directories : firstOf kbytes swap_kbytes inodes + 1 < 2 ^ 22
  swap : swapszOf swap_kbytes ≠ 0 → kbytes ≤ 2 ^ 22

theorem isizeOf_le {kbytes : Nat} (h : kbytes < 2 ^ 31) (inodes : Nat) : isizeOf kbytes inodes ≤ 2 ^ 28 + 1 := by
  unfold isizeOf wrap
  split <;> omega

theorem swapszOf_lt (swap_kbytes : Nat) : swapszOf swap_kbytes < 2 ^ 22 := by
  unfold swapszOf wrap bsdfsBsize
  omega

/-- The blocks of a suffix of a run are the end of that run. -/
theorem eq_range'_of_suffix {low k : Nat} (h : l <:+ List.range' low k) :
    ∃ t ≤ k, l = List.range' (low + t) (k - t) := by
  have hlen := h.length_le
  rw [List.length_range'] at hlen
  refine ⟨k - l.length, Nat.sub_le _ _, ?_⟩
  rw [List.suffix_iff_eq_drop, List.length_range', List.drop_range'] at h
  simpa using h

/-- The list is built over the whole data area. -/
theorem buildList_all {low : Nat} (hpos : 0 < fs.fsize) (hlow : fs.isize ≤ low) (hnear : fs.fsize < 2 ^ 22 + nicfree)
    (hlen : fs.fsize ≤ fs.len) (hw : fs.writable = true) (hn : fs.nfree = 0) (ht : fs.tfree = 0) :
    ∃ fs', buildList img low (fs.fsize - 1 + 1 - low) (fs.fs_block_free 0 (img.junk 0)).2 = some fs' ∧
      Stack fs' (List.range' low (fs.fsize - low)) ∧ Same fs fs' := by
  have hsize : fs.fsize < 2 ^ 31 := Nat.lt_trans hnear (by decide)
  obtain ⟨hstack, hsame, hone⟩ := stack_nil hsize hlen hw hn ht (img.junk 0)
  rw [Nat.sub_add_cancel hpos]
  by_cases hroom : low ≤ fs.fsize
  · have hnone : Stack (fs.fs_block_free 0 (img.junk 0)).2 (List.range' (low + (fs.fsize - low)) 0) := hstack
    have hend : low + (fs.fsize - low) + 0 = (fs.fs_block_free 0 (img.junk 0)).2.fsize := by
      rw [hsame.fsize]
      omega
    obtain ⟨fs', hbuild, hstack', hsame'⟩ := buildList_stack hnone
      (by rw [hsame.isize]; exact hlow) (Nat.le_of_eq hone) hend (by rw [hsame.fsize]; exact hnear)
    exact ⟨fs', hbuild, hstack', hsame.trans hsame'⟩
  · have hzero : fs.fsize - low = 0 := by omega
    rw [hzero]
    exact ⟨_, rfl, hstack, hsame⟩

/-- A directory takes the first block of the run. -/
theorem createDirectory_range {buf : Nat → Nat} {low k : Nat} (h : Stack fs (List.range' low k)) (hlow : low < 2 ^ 22)
    (hcreate : createDirectory buf fs = some fs') :
    0 < k ∧ Stack fs' (List.range' (low + 1) (k - 1)) ∧ Same fs fs' := by
  cases k with
  | zero =>
    obtain ⟨b, t, hlist, -⟩ := createDirectory_stack h nofun hcreate
    cases hlist
  | succ k =>
    rw [List.range'_succ] at h
    have hhead : ∀ b, (low :: List.range' (low + 1) k).head? = some b → b < 2 ^ 22 := by
      intro b hb
      cases hb
      exact hlow
    obtain ⟨b, t, hlist, hstack, hsame⟩ := createDirectory_stack h hhead hcreate
    cases hlist
    exact ⟨Nat.succ_pos k, hstack, hsame⟩

/-- What is left is the end of the data area, in order. -/
theorem fs_create_stack {kbytes swap_kbytes inodes : Nat} (hsize : kbytes < 2 ^ 31)
    (hnear : Near kbytes swap_kbytes inodes) (hcreate : fs_create img kbytes swap_kbytes inodes = some fs) :
    ∃ low, firstOf kbytes swap_kbytes inodes + 2 ≤ low ∧ low ≤ fs.fsize ∧
      (swapszOf swap_kbytes = 0 → low = firstOf kbytes swap_kbytes inodes + 2) ∧
      Stack fs (List.range' low (fs.fsize - low)) ∧ fs.isize = isizeOf kbytes inodes := by
  unfold fs_create at hcreate
  by_cases hsmall : isizeOf kbytes inodes < 2
  · rw [dif_pos hsmall] at hcreate
    cases hcreate
  rw [dif_neg hsmall] at hcreate
  have hi := isizeOf_le hsize inodes
  have hs := swapszOf_lt swap_kbytes
  have hpos := hnear.pos
  have hlow : wrap 32 (isizeOf kbytes inodes + swapszOf swap_kbytes) = firstOf kbytes swap_kbytes inodes :=
    wrap_of_lt (by omega)
  have hlast : wrap 32 (kbytes + (2 ^ 32 - 1)) = kbytes - 1 := by
    unfold wrap
    omega
  simp only [hlow, hlast] at hcreate
  obtain ⟨low, hfirst⟩ : ∃ low, low = firstOf kbytes swap_kbytes inodes := ⟨_, rfl⟩
  have hisize : isizeOf kbytes inodes ≤ low := by
    rw [hfirst]
    exact Nat.le_add_right _ _
  have hdirs := hnear.directories
  rw [← hfirst] at hcreate hdirs ⊢
  obtain ⟨fs₀, hfs₀⟩ : ∃ fs₀ : Fs, fs₀ =
      { isize := isizeOf kbytes inodes, isize_pos := by omega, fsize := kbytes
        nfree := 0, free := fun _ => 0, tfree := 0, writable := true
        len := max img.len kbytes, disk := img.disk } := ⟨_, rfl⟩
  have hisize₀ : fs₀.isize = isizeOf kbytes inodes := by rw [hfs₀]
  have hfsize₀ : fs₀.fsize = kbytes := by rw [hfs₀]
  have hlen₀ : fs₀.fsize ≤ fs₀.len := by
    rw [hfs₀]
    exact Nat.le_max_right _ _
  obtain ⟨fs₁, hbuild, hstack₁, hsame₁⟩ := @buildList_all fs₀ img low (by rw [hfsize₀]; exact hpos)
    (by rw [hisize₀]; exact hisize) (by rw [hfsize₀]; exact hnear.lists) hlen₀ (by rw [hfs₀]) (by rw [hfs₀])
    (by rw [hfs₀])
  rw [hfsize₀] at hbuild hstack₁
  rw [← hfs₀, hbuild] at hcreate
  simp only [bind, Option.bind] at hcreate
  have hstack₂ := hstack₁.ilist img.ilist
  obtain ⟨fs₃, hlost, hcreate⟩ := Option.bind_eq_some_iff.mp hcreate
  obtain ⟨fs₄, hroot, hcreate⟩ := Option.bind_eq_some_iff.mp hcreate
  obtain ⟨hk₃, hstack₃, hsame₃⟩ := createDirectory_range hstack₂ (by omega) hlost
  obtain ⟨hk₄, hstack₄, hsame₄⟩ := createDirectory_range hstack₃ hdirs hroot
  have hsame₂ := hsame₃.trans hsame₄
  have hsame : Same fs₀ fs₄ := hsame₁.trans (.of hsame₂.isize hsame₂.fsize)
  have hisize₄ : fs₄.isize = isizeOf kbytes inodes := hsame.isize.trans hisize₀
  have hfsize₄ : fs₄.fsize = kbytes := hsame.fsize.trans hfsize₀
  have hcount : kbytes - low - 1 - 1 = kbytes - (low + 2) := by omega
  rw [hcount] at hstack₄
  by_cases hswap : swapszOf swap_kbytes = 0
  · rw [if_neg (not_not_intro hswap)] at hcreate
    cases hcreate
    rw [hfsize₄]
    exact ⟨low + 2, Nat.le_refl _, by omega, fun _ => rfl, hstack₄, hisize₄⟩
  · rw [if_pos hswap] at hcreate
    obtain ⟨l', hstack', hsuffix, hsame'⟩ :=
      create_swap_file_stack hstack₄ (by rw [hfsize₄]; exact hnear.swap hswap) hcreate
    obtain ⟨t, ht, rfl⟩ := eq_range'_of_suffix hsuffix
    have hlen : kbytes - (low + 2) - t = kbytes - (low + 2 + t) := by omega
    rw [hlen] at hstack'
    rw [hsame'.fsize, hfsize₄]
    exact ⟨low + 2 + t, Nat.le_add_right _ _, by omega, fun h => absurd h hswap, hstack',
      hsame'.isize.trans hisize₄⟩

/-- **The host's allocator is the kernel's stack.** On every file system that `fs_create` makes, and in every run of
calls on it none of which takes a block while none is free or writes one past the 32 bits of an offset: the next block
is a free one, there is none only when none is free, `tfree` counts them, and the kernel that mounts the image goes on
with the same stack. -/
theorem fs_block_stack {kbytes swap_kbytes inodes : Nat} (hsize : kbytes < 2 ^ 31)
    (hnear : Near kbytes swap_kbytes inodes) (hcreate : fs_create img kbytes swap_kbytes inodes = some fs) :
    ∃ low, firstOf kbytes swap_kbytes inodes + 2 ≤ low ∧ low ≤ fs.fsize ∧
      (swapszOf swap_kbytes = 0 → low = firstOf kbytes swap_kbytes inodes + 2) ∧
      ∀ es, Each Using.step Safe ⟨fs, Finset.Ico fs.isize low⟩ es →
        Always Using.step Right ⟨fs, Finset.Ico fs.isize low⟩ es := by
  obtain ⟨low, hfirst, hend, hexact, hstack, hisize⟩ := fs_create_stack hsize hnear hcreate
  refine ⟨low, hfirst, hend, hexact, fun es hsafe => ?_⟩
  have hlow : fs.isize ≤ low := by
    rw [hisize]
    unfold firstOf at hfirst
    omega
  have hinv : Inv ⟨fs, Finset.Ico fs.isize low⟩ (List.range' low (fs.fsize - low)) := by
    refine ⟨hstack, ?_⟩
    ext c
    simp only [Finset.mem_Ico, Finset.mem_sdiff, List.mem_toFinset, List.mem_range'_1, Fs.area]
    omega
  exact hinv.always hsafe

/-- An image of ten blocks, two of them for the superblock and the inodes. -/
def tinyImage : Image := ⟨0, fun _ _ => 0, fun _ _ => 0, fun _ _ => 0, fun _ => 0, fun _ => 0⟩

/-- It is filled up, and a block is freed and taken again. -/
def tinyCalls : List Call :=
  List.replicate 6 .alloc ++ [.free 7 fun _ => 0, .write 8 fun _ => 1, .alloc, .free 5 fun _ => 0, .free 6 fun _ => 0]

theorem fs_block_stack_tiny : ∃ fs low, fs_create tinyImage 10 0 16 = some fs ∧
    Always Using.step Right ⟨fs, Finset.Ico fs.isize low⟩ tinyCalls := by
  have hall : (fs_create tinyImage 10 0 16).any fun fs =>
      decide (Each Using.step Safe ⟨fs, Finset.Ico fs.isize 4⟩ tinyCalls) := by
    decide +kernel
  obtain ⟨fs, hcreate, heach⟩ := (Option.any_eq_true _ _).mp hall
  obtain ⟨low, -, -, hlow, hrun⟩ := fs_block_stack (by decide) ⟨by decide, by decide, by decide, by decide⟩ hcreate
  have hfour : low = 4 := hlow (by decide)
  rw [hfour] at hrun
  exact ⟨fs, 4, hcreate, hrun _ (of_decide_eq_true heach)⟩

/-- A block too many is asked for: the entry that ends the list is taken off, and counted as a block. -/
theorem fs_block_alloc_full : ∃ fs, fs_create tinyImage 10 0 16 = some fs ∧
    ¬Always Using.step Right ⟨fs, Finset.Ico fs.isize 4⟩ (List.replicate 7 .alloc) := by
  have hall : (fs_create tinyImage 10 0 16).any fun fs =>
      (runOn Using.step ⟨fs, Finset.Ico fs.isize 4⟩ (List.replicate 7 .alloc)).any fun s =>
        decide (s.fs.tfree = 2 ^ 32 - 1 ∧ (s.fs.area \ s.used).card = 0) := by
    decide +kernel
  obtain ⟨fs, hcreate, hall⟩ := (Option.any_eq_true _ _).mp hall
  obtain ⟨s, hrun, hend⟩ := (Option.any_eq_true _ _).mp hall
  obtain ⟨hfree, hcard⟩ := of_decide_eq_true hend
  refine ⟨fs, hcreate, fun halways => ?_⟩
  have hcount := (halways.runOn hrun).count
  rw [hfree, hcard] at hcount
  cases hcount

end DiscoBSD.Fsutil
