import DiscoBSD.Lib.Unrolled
import DiscoBSD.Tty.Clist

/-!
# One clist and the free list

What the calls do to a clist is what they do to the cells of its blocks: **they take a prefix of the cells off
its front, put cells behind its end, or take the last cell**, and the blocks that come and go are the free
list's. Every other block stays as it is, links and characters.
-/

set_option autoImplicit false

namespace DiscoBSD.Tty

open DiscoBSD.Lib
open Function (update)

/-- The blocks of the free list from `a` on. -/
def Free (next : ℕ → ℕ) : ℕ → List ℕ → Prop
  | a, [] => a = 0
  | a, f :: fs => a = f ∧ Free next (next f) fs

/-- A clist has its characters in a chain of blocks. -/
def Holds (σ : Mem) (q : Clist) : List ℕ → List UInt8 → Prop
  | [], cs => q = .empty ∧ cs = []
  | b :: bs, cs =>
    Chained linkSize cblock σ.c_next q.c_cl q.c_cf b bs ∧
      cs = (cells linkSize cblock q.c_cl q.c_cf b bs).map σ.byte ∧ q.c_cc = cs.length

/-- A clist with the blocks `bs` and the characters `cs`, and the free list `fs`. -/
structure Queue (σ : Mem) (q : Clist) (fs bs : List ℕ) (cs : List UInt8) : Prop where
  free : Free σ.c_next σ.cfreelist fs
  count : σ.cfreecount = cbsize * fs.length
  holds : Holds σ q bs cs
  nodup : (fs ++ bs).Nodup
  aligned : ∀ b ∈ fs ++ bs, offset b = 0 ∧ 0 < b

/-- Blocks went between the clist and the free list, and all others are as they were. -/
structure Moved (σ : Mem) (fs bs : List ℕ) (σ' : Mem) (fs' bs' : List ℕ) : Prop where
  perm : (fs' ++ bs').Perm (fs ++ bs)
  next : ∀ b ∉ fs ++ bs, σ'.c_next b = σ.c_next b
  byte : ∀ a, blockOf a ∉ fs ++ bs → σ'.byte a = σ.byte a

section

variable {σ σ' σ'' : Mem} {q q' : Clist} {fs fs' fs'' bs bs' bs'' : List ℕ} {cs : List UInt8} {b f : ℕ}

theorem Moved.refl (σ : Mem) (fs bs : List ℕ) : Moved σ fs bs σ fs bs :=
  ⟨.refl _, fun _ _ => rfl, fun _ _ => rfl⟩

theorem Moved.trans (h : Moved σ fs bs σ' fs' bs') (h' : Moved σ' fs' bs' σ'' fs'' bs'') :
    Moved σ fs bs σ'' fs'' bs'' :=
  ⟨h'.perm.trans h.perm,
    fun b hb => (h'.next b fun hm => hb (h.perm.mem_iff.mp hm)).trans (h.next b hb),
    fun a ha => (h'.byte a fun hm => ha (h.perm.mem_iff.mp hm)).trans (h.byte a ha)⟩

theorem Moved.nodup (h : Moved σ fs bs σ' fs' bs') (hn : (fs ++ bs).Nodup) : (fs' ++ bs').Nodup :=
  h.perm.nodup_iff.mpr hn

theorem Moved.aligned (h : Moved σ fs bs σ' fs' bs') (ha : ∀ b ∈ fs ++ bs, offset b = 0 ∧ 0 < b) :
    ∀ b ∈ fs' ++ bs', offset b = 0 ∧ 0 < b := fun b hb => ha b (h.perm.mem_iff.mp hb)

/-! ## Addresses -/

theorem blockOf_of (ha : offset b = 0) {a : ℕ} (h₁ : b ≤ a) (h₂ : a < b + cblock) : blockOf a = b := by
  unfold offset at ha
  unfold blockOf
  unfold cblock at *
  omega

theorem offset_of (ha : offset b = 0) {a : ℕ} (h₁ : b ≤ a) (h₂ : a < b + cblock) : offset a = a - b := by
  unfold offset at *
  unfold cblock at *
  omega

theorem offset_end (ha : offset b = 0) : offset (b + cblock) = 0 := by
  unfold offset at *
  unfold cblock at *
  omega

/-! ## The free list -/

theorem Free.congr {next next' : ℕ → ℕ} {a : ℕ} (h : Free next a fs) (heq : ∀ b ∈ fs, next' b = next b) :
    Free next' a fs := by
  induction fs generalizing a with
  | nil => exact h
  | cons f fs ih =>
    refine ⟨h.1, ?_⟩
    rw [heq f (List.mem_cons_self ..)]
    exact ih h.2 fun b hb => heq b (List.mem_cons_of_mem f hb)

theorem update_of_mem {l : List ℕ} {x : ℕ} (next : ℕ → ℕ) (v : ℕ) (hx : x ∈ l) (hb : b ∉ l) :
    update next b v x = next x := by
  refine Function.update_of_ne ?_ v next
  rintro rfl
  exact hb hx

theorem Free.push (h : Free σ.c_next σ.cfreelist fs) (hb : b ∉ fs) :
    Free (σ.push b).c_next (σ.push b).cfreelist (b :: fs) := by
  refine ⟨rfl, ?_⟩
  show Free (update σ.c_next b σ.cfreelist) (update σ.c_next b σ.cfreelist b) fs
  rw [Function.update_self]
  exact h.congr fun x hx => update_of_mem σ.c_next σ.cfreelist hx hb

theorem pop_none (h : Free σ.c_next σ.cfreelist []) : σ.pop = none := if_pos h

theorem pop_some (h : Free σ.c_next σ.cfreelist (f :: fs)) (hf : 0 < f) (hn : f ∉ fs) :
    ∃ σ', σ.pop = some (f, σ') ∧ Free σ'.c_next σ'.cfreelist fs ∧ σ'.c_next = update σ.c_next f 0 ∧
      σ'.byte = σ.byte ∧ σ'.cfreecount = σ.cfreecount - cbsize := by
  obtain ⟨rfl, htail⟩ := h
  refine ⟨{ σ with
    c_next := update σ.c_next σ.cfreelist 0
    cfreelist := σ.c_next σ.cfreelist
    cfreecount := σ.cfreecount - cbsize }, if_neg (by omega), ?_, rfl, rfl, rfl⟩
  exact htail.congr fun x hx => update_of_mem σ.c_next 0 hx hn

/-! ## The front -/

/-- The cells of a queue that holds something. -/
theorem Queue.chained (h : Queue σ q fs (b :: bs) cs) : Chained linkSize cblock σ.c_next q.c_cl q.c_cf b bs := h.holds.1

theorem Queue.cells (h : Queue σ q fs (b :: bs) cs) :
    cs = (Lib.cells linkSize cblock q.c_cl q.c_cf b bs).map σ.byte := h.holds.2.1

theorem Queue.length (h : Queue σ q fs (b :: bs) cs) :
    (Lib.cells linkSize cblock q.c_cl q.c_cf b bs).length = cs.length := by
  rw [h.cells, List.length_map]

theorem Queue.c_cc (h : Queue σ q fs bs cs) : q.c_cc = cs.length := by
  cases bs with
  | nil =>
    obtain ⟨rfl, rfl⟩ := h.holds
    rfl
  | cons b bs => exact h.holds.2.2

theorem Queue.nil_iff (h : Queue σ q fs bs cs) : bs = [] ↔ cs = [] := by
  cases bs with
  | nil => simp [h.holds.2]
  | cons b bs =>
    have hpos := h.chained.length_pos
    rw [h.length] at hpos
    simp only [reduceCtorEq, false_iff]
    exact List.ne_nil_of_length_pos hpos

theorem Queue.c_cc_pos (h : Queue σ q fs (b :: bs) cs) : 0 < q.c_cc := by
  have hpos := h.chained.length_pos
  rw [h.length] at hpos
  rw [h.c_cc]
  omega

theorem Queue.block (h : Queue σ q fs (b :: bs) cs) : offset b = 0 ∧ 0 < b :=
  h.aligned b (List.mem_append_right fs (List.mem_cons_self ..))

/-- The first block is freed, and the rest of the clist is untouched. -/
theorem Queue.release (h : Queue σ q fs (b :: bs) cs) {cs' : List UInt8}
    (hh : Holds σ q' bs cs') : Queue (σ.release b) q' (b :: fs) bs cs' ∧
      Moved σ fs (b :: bs) (σ.release b) (b :: fs) bs := by
  have hperm : (b :: fs ++ bs).Perm (fs ++ b :: bs) := List.perm_middle.symm
  obtain ⟨hfs, hbs, hdisj⟩ := List.nodup_append.mp h.nodup
  have hb : b ∉ fs := fun hm => hdisj b hm b (List.mem_cons_self ..) rfl
  have hb' : b ∉ bs := (List.nodup_cons.mp hbs).1
  have hmoved : Moved σ fs (b :: bs) (σ.release b) (b :: fs) bs := by
    refine ⟨hperm, fun x hx => ?_, fun _ _ => rfl⟩
    refine Function.update_of_ne (fun he => hx ?_) ..
    rw [he]
    exact List.mem_append_right fs (List.mem_cons_self ..)
  refine ⟨⟨h.free.push hb, ?_, ?_, hmoved.nodup h.nodup, hmoved.aligned h.aligned⟩, hmoved⟩
  · show σ.cfreecount + cbsize = cbsize * ((b :: fs).length : ℕ)
    rw [h.count, List.length_cons]
    unfold cbsize
    omega
  · cases bs with
    | nil => exact hh
    | cons b₂ bs =>
      refine ⟨hh.1.congr (List.nodup_cons.mp hbs).2 fun x hx _ => ?_, hh.2⟩
      exact update_of_mem σ.c_next σ.cfreelist hx hb'

/-- The characters of the first block are where its cells are. -/
theorem Queue.load {n : ℕ} {l : List ℕ} (h : Queue σ q fs (b :: bs) cs)
    (hc : Lib.cells linkSize cblock q.c_cl q.c_cf b bs = List.range' q.c_cf n ++ l) :
    σ.load q.c_cf n = cs.take n ∧ cs.drop n = l.map σ.byte := by
  have hcs := h.cells
  have hpre : ((List.range' q.c_cf n).map σ.byte).length = n := by rw [List.length_map, List.length_range']
  rw [hc, List.map_append] at hcs
  exact ⟨by rw [hcs, List.take_left' hpre]; rfl, by rw [hcs, List.drop_left' hpre]⟩

/-- `n` characters are taken, and the first block has more. -/
theorem Queue.inside (h : Queue σ q fs (b :: bs) cs) {n : ℕ} (hc : n < cs.length) (hb : q.c_cf + n < b + cblock) :
    Queue σ ⟨q.c_cc - n, q.c_cf + n, q.c_cl⟩ fs (b :: bs) (cs.drop n) ∧ σ.load q.c_cf n = cs.take n := by
  obtain ⟨hch, hcells⟩ := h.chained.inside hb (h.length ▸ hc)
  obtain ⟨hload, hdrop⟩ := h.load hcells
  refine ⟨⟨h.free, h.count, ⟨hch, hdrop, ?_⟩, h.nodup, h.aligned⟩, hload⟩
  show q.c_cc - n = ((cs.drop n).length : ℤ)
  rw [List.length_drop, h.c_cc]
  omega

/-- The first block is used up, and others follow. -/
theorem Queue.over (h : Queue σ q fs (b :: bs) cs) {n : ℕ} (hc : n < cs.length) (hb : q.c_cf + n = b + cblock) :
    Queue (σ.release b) ⟨q.c_cc - n, info (σ.c_next b), q.c_cl⟩ (b :: fs) bs (cs.drop n) ∧
      Moved σ fs (b :: bs) (σ.release b) (b :: fs) bs ∧ σ.load q.c_cf n = cs.take n := by
  have hn : b + cblock - q.c_cf = n := by omega
  obtain ⟨b₂, bs₂, rfl, hnext, hch, hcells⟩ := h.chained.over (by rw [hn, h.length]; exact hc)
  rw [hn] at hcells
  obtain ⟨hload, hdrop⟩ := h.load hcells
  have hholds : Holds σ ⟨q.c_cc - n, info (σ.c_next b), q.c_cl⟩ (b₂ :: bs₂) (cs.drop n) := by
    rw [hnext]
    refine ⟨hch, hdrop, ?_⟩
    show q.c_cc - n = ((cs.drop n).length : ℤ)
    rw [List.length_drop, h.c_cc]
    omega
  obtain ⟨hq, hm⟩ := h.release hholds
  exact ⟨hq, hm, hload⟩

/-- All characters are taken, and the block was the only one. -/
theorem Queue.all (h : Queue σ q fs (b :: bs) cs) (hb : q.c_cf + cs.length ≤ b + cblock) :
    bs = [] ∧ q.c_cf + cs.length = q.c_cl ∧ Queue (σ.release b) .empty (b :: fs) [] [] ∧
      Moved σ fs (b :: bs) (σ.release b) (b :: fs) [] ∧ σ.load q.c_cf cs.length = cs := by
  obtain ⟨rfl, hend, hcells⟩ := h.chained.only hb h.length.symm
  have hnone : Holds σ .empty [] [] := ⟨rfl, rfl⟩
  obtain ⟨hq, hm⟩ := h.release hnone
  rw [← List.append_nil (List.range' _ _)] at hcells
  refine ⟨rfl, hend, hq, hm, ?_⟩
  rw [(h.load hcells).1, List.take_length]

/-- `advance` takes `n` characters from the front, of the first block. -/
theorem Queue.advance (h : Queue σ q fs (b :: bs) cs) {n : ℕ} (hn : 0 < n) (hc : n ≤ cs.length)
    (hb : q.c_cf + n ≤ b + cblock) :
    ∃ fs' bs', Queue (σ.advance q n).1 (σ.advance q n).2 fs' bs' (cs.drop n) ∧
      Moved σ fs (b :: bs) (σ.advance q n).1 fs' bs' ∧ σ.load q.c_cf n = cs.take n ∧
      (cs.drop n ≠ [] → (σ.advance q n).2.c_cl = q.c_cl) := by
  obtain ⟨halign, -⟩ := h.block
  obtain ⟨hlo, hhi⟩ := h.chained.first
  have hcc := h.c_cc
  have hlink : linkSize = 4 := rfl
  rcases Nat.eq_or_lt_of_le hc with rfl | hlt
  · obtain ⟨rfl, -, hq, hm, hload⟩ := h.all hb
    have hblock : blockOf (q.c_cf + cs.length - 1) = b := blockOf_of halign (by omega) (by omega)
    have hzero : q.c_cc - cs.length = 0 := by omega
    have hadv : σ.advance q cs.length = (σ.release b, .empty) := by
      simp only [Mem.advance, hzero, le_refl, if_true, hblock]
      rfl
    rw [hadv, List.drop_length, List.take_length]
    exact ⟨b :: fs, [], hq, hm, hload, fun hne => absurd rfl hne⟩
  · have hsome : ¬ q.c_cc - n ≤ 0 := by omega
    rcases Nat.eq_or_lt_of_le hb with hend | hin
    · obtain ⟨hq, hm, hload⟩ := h.over hlt hend
      have hadv : σ.advance q n = (σ.release b, ⟨q.c_cc - n, info (σ.c_next b), q.c_cl⟩) := by
        simp only [Mem.advance, if_neg hsome, hend, offset_end halign, if_true, Nat.add_sub_cancel]
      rw [hadv]
      exact ⟨b :: fs, bs, hq, hm, hload, fun _ => rfl⟩
    · obtain ⟨hq, hload⟩ := h.inside hlt hin
      have hoff : offset (q.c_cf + n) ≠ 0 := by
        rw [offset_of halign (by omega) hin]
        omega
      have hadv : σ.advance q n = (σ, ⟨q.c_cc - n, q.c_cf + n, q.c_cl⟩) := by
        simp only [Mem.advance, if_neg hsome, if_neg hoff]
      rw [hadv]
      exact ⟨fs, b :: bs, hq, Moved.refl .., hload, fun _ => rfl⟩

/-! ## The back -/

/-- Where the end of a clist is in its last block. -/
theorem Queue.last (h : Queue σ q fs (b :: bs) cs) :
    offset (lastBlock b bs) = 0 ∧ 0 < lastBlock b bs ∧ lastBlock b bs + linkSize < q.c_cl ∧
      q.c_cl ≤ lastBlock b bs + cblock := by
  obtain ⟨hoff, hpos⟩ := h.aligned _ (List.mem_append_right fs (lastBlock_mem b bs))
  exact ⟨hoff, hpos, h.chained.last⟩

/-- The end is at the end of a block, or inside the last one. -/
theorem Queue.offset_cl (h : Queue σ q fs (b :: bs) cs) :
    (offset q.c_cl = 0 ∧ q.c_cl = lastBlock b bs + cblock) ∨
      (offset q.c_cl = q.c_cl - lastBlock b bs ∧ offset q.c_cl ≠ 0 ∧ q.c_cl < lastBlock b bs + cblock) := by
  obtain ⟨hoff, -, hlo, hhi⟩ := h.last
  rcases Nat.eq_or_lt_of_le hhi with heq | hlt
  · exact .inl ⟨heq ▸ offset_end hoff, heq⟩
  · have := offset_of hoff (by omega) hlt
    exact .inr ⟨this, by omega, hlt⟩

theorem store_of_not_mem (σ : Mem) {a i : ℕ} (ds : List UInt8) (h : ¬ (a ≤ i ∧ i < a + ds.length)) :
    (σ.store a ds).byte i = σ.byte i := if_neg h

theorem load_store (σ : Mem) (a : ℕ) (ds : List UInt8) :
    (List.range' a ds.length).map (σ.store a ds).byte = ds := by
  apply List.ext_getElem
  · rw [List.length_map, List.length_range']
  · intro i h₁ h₂
    have hin : a ≤ a + i ∧ a + i < a + ds.length := ⟨Nat.le_add_right a i, by omega⟩
    rw [List.getElem_map, List.getElem_range', Nat.one_mul]
    simp only [Mem.store, if_pos hin, Nat.add_sub_cancel_left, List.getD_eq_getElem?_getD,
      List.getElem?_eq_getElem h₂, Option.getD_some]

/-- Characters that are stored behind the end are queued. -/
theorem Queue.store (h : Queue σ q fs (b :: bs) cs) (ds : List UInt8)
    (hroom : q.c_cl + ds.length ≤ lastBlock b bs + cblock) :
    Queue (σ.store q.c_cl ds) ⟨q.c_cc + ds.length, q.c_cf, q.c_cl + ds.length⟩ fs (b :: bs) (cs ++ ds) ∧
      Moved σ fs (b :: bs) (σ.store q.c_cl ds) fs (b :: bs) := by
  obtain ⟨hoff, -, hlo, hhi⟩ := h.last
  obtain ⟨-, hbs, -⟩ := List.nodup_append.mp h.nodup
  obtain ⟨hch, hcells⟩ := h.chained.grow (Nat.le_add_right q.c_cl ds.length) hroom
  rw [Nat.add_sub_cancel_left] at hcells
  have hsame : (Lib.cells linkSize cblock q.c_cl q.c_cf b bs).map (σ.store q.c_cl ds).byte = cs := by
    rw [h.cells]
    refine List.map_congr_left fun a ha => store_of_not_mem σ ds ?_
    obtain ⟨x, hx, hxlo, hxhi, hlast⟩ := h.chained.mem_before hbs ha
    have hxoff := (h.aligned x (List.mem_append_right fs hx)).1
    rintro ⟨ha₁, ha₂⟩
    have hxl : x = lastBlock b bs :=
      (blockOf_of hxoff (by omega) hxhi).symm.trans (blockOf_of hoff (by omega) (by omega))
    exact absurd (hlast hxl) (by omega)
  refine ⟨⟨h.free, h.count, ⟨hch, ?_, ?_⟩, h.nodup, h.aligned⟩, .refl _, fun _ _ => rfl, fun a ha => ?_⟩
  · show cs ++ ds = (Lib.cells linkSize cblock (q.c_cl + ds.length) q.c_cf b bs).map _
    rw [hcells, List.map_append, hsame, load_store]
  · show q.c_cc + ds.length = ((cs ++ ds).length : ℤ)
    rw [h.c_cc, List.length_append]
    omega
  · refine store_of_not_mem σ ds fun hin => ha ?_
    rw [blockOf_of hoff (by omega) (by omega)]
    exact List.mem_append_right fs (lastBlock_mem b bs)

/-- Characters that are stored in a block are no other block's. -/
theorem store_in_block (σ : Mem) (hf : offset f = 0) {ds : List UInt8} (hroom : ds.length ≤ cbsize) {a : ℕ}
    (ha : blockOf a ≠ f) : (σ.store (info f) ds).byte a = σ.byte a := by
  refine store_of_not_mem σ ds fun hin => ha (blockOf_of hf ?_ ?_)
  · unfold info at hin
    omega
  · unfold info linkSize cbsize at *
    unfold cblock
    omega

/-- The free list and the links after a block has been taken, from `f` on. -/
theorem Queue.taken (h : Queue σ q (f :: fs) bs cs) {m : Mem} (hfree : Free m.c_next m.cfreelist (f :: fs))
    (hcount : m.cfreecount = σ.cfreecount) :
    ∃ σ', m.pop = some (f, σ') ∧ Free σ'.c_next σ'.cfreelist fs ∧ σ'.c_next = update m.c_next f 0 ∧
      σ'.byte = m.byte ∧ σ'.cfreecount = cbsize * fs.length := by
  have hpos := (h.aligned f (List.mem_append_left bs (List.mem_cons_self ..))).2
  have hn := (List.nodup_cons.mp (List.nodup_append.mp h.nodup).1).1
  obtain ⟨σ', hpop, hfree', hnext, hbyte, hc⟩ := pop_some hfree hpos hn
  refine ⟨σ', hpop, hfree', hnext, hbyte, ?_⟩
  rw [hc, hcount, h.count, List.length_cons]
  unfold cbsize
  omega

/-- A block is taken for a clist whose last block is full. -/
theorem Queue.append (h : Queue σ q (f :: fs) (b :: bs) cs) (hfull : q.c_cl = lastBlock b bs + cblock)
    (ds : List UInt8) (hpos : 0 < ds.length) (hroom : ds.length ≤ cbsize) :
    ∃ σ', (σ.linkFree (q.c_cl - cblock)).pop = some (f, σ') ∧
      Queue (σ'.store (info f) ds) ⟨q.c_cc + ds.length, q.c_cf, info f + ds.length⟩ fs (b :: (bs ++ [f])) (cs ++ ds) ∧
      Moved σ (f :: fs) (b :: bs) (σ'.store (info f) ds) fs (b :: (bs ++ [f])) := by
  obtain ⟨hff, hbs, hdisj⟩ := List.nodup_append.mp h.nodup
  have hf : f ∉ b :: bs := fun hm => hdisj f (List.mem_cons_self ..) f hm rfl
  have hz : lastBlock b bs ∉ f :: fs := fun hm => hdisj _ hm _ (lastBlock_mem b bs) rfl
  have hfoff := (h.aligned f (List.mem_append_left _ (List.mem_cons_self ..))).1
  have hlast : q.c_cl - cblock = lastBlock b bs := by omega
  rw [hlast]
  have hfree : Free (σ.linkFree (lastBlock b bs)).c_next σ.cfreelist (f :: fs) :=
    h.free.congr fun x hx => update_of_mem σ.c_next σ.cfreelist hx hz
  obtain ⟨σ', hpop, hfree', hnext, hbyte, hcount⟩ := h.taken (m := σ.linkFree (lastBlock b bs)) hfree rfl
  have hlink : ∀ x, x ≠ lastBlock b bs → x ≠ f → σ'.c_next x = σ.c_next x := by
    intro x hxz hxf
    rw [hnext, Function.update_of_ne hxf]
    exact Function.update_of_ne hxz ..
  have hznext : σ'.c_next (lastBlock b bs) = f := by
    have hne : lastBlock b bs ≠ f := fun he => hf (he ▸ lastBlock_mem b bs)
    rw [hnext, Function.update_of_ne hne]
    show update σ.c_next (lastBlock b bs) σ.cfreelist (lastBlock b bs) = f
    rw [Function.update_self]
    exact h.free.1
  have hch : Chained linkSize cblock σ'.c_next q.c_cl q.c_cf b bs :=
    h.chained.congr hbs fun x hx hxz => hlink x hxz fun he => hf (he ▸ hx)
  have hsize : linkSize + cbsize = cblock := rfl
  have hlo : info f < info f + ds.length := Nat.lt_add_of_pos_right hpos
  obtain ⟨hch', hcells⟩ := hch.snoc hfull hznext hlo (by unfold info; omega)
  have hperm : (fs ++ b :: (bs ++ [f])).Perm (f :: fs ++ b :: bs) := by
    refine (@List.perm_append_comm _ fs _).trans ?_
    rw [← List.cons_append, List.append_assoc]
    exact List.perm_append_comm
  have hmoved : Moved σ (f :: fs) (b :: bs) (σ'.store (info f) ds) fs (b :: (bs ++ [f])) := by
    refine ⟨hperm, fun x hx => hlink x ?_ ?_, fun a ha => ?_⟩
    · rintro rfl
      exact hx (List.mem_append_right _ (lastBlock_mem b bs))
    · rintro rfl
      exact hx (List.mem_append_left _ (List.mem_cons_self ..))
    · rw [store_in_block σ' hfoff hroom fun he => ha (he ▸ List.mem_append_left _ (List.mem_cons_self ..)), hbyte]
      rfl
  refine ⟨σ', hpop, ⟨hfree', hcount, ⟨hch', ?_, ?_⟩, hmoved.nodup h.nodup, hmoved.aligned h.aligned⟩, hmoved⟩
  · have hsame : (Lib.cells linkSize cblock q.c_cl q.c_cf b bs).map (σ'.store (info f) ds).byte = cs := by
      rw [h.cells]
      refine List.map_congr_left fun a ha => ?_
      obtain ⟨x, hx, hxlo, hxhi⟩ := h.chained.mem_cells ha
      have hxoff := (h.aligned x (List.mem_append_right _ hx)).1
      rw [store_in_block σ' hfoff hroom fun he => ?_, hbyte]
      · rfl
      · rw [blockOf_of hxoff (by omega) hxhi] at he
        exact hf (he ▸ hx)
    have hnew : info f + ds.length - (f + linkSize) = ds.length := by unfold info; omega
    show cs ++ ds = (Lib.cells linkSize cblock (info f + ds.length) q.c_cf b (bs ++ [f])).map _
    rw [hcells, List.map_append, hsame, hnew]
    exact congrArg (cs ++ ·) (load_store σ' (info f) ds).symm
  · show q.c_cc + ds.length = ((cs ++ ds).length : ℤ)
    rw [h.c_cc, List.length_append]
    omega

/-- A block is taken for an empty clist. -/
theorem Queue.start (h : Queue σ q (f :: fs) [] cs) (ds : List UInt8) (hpos : 0 < ds.length)
    (hroom : ds.length ≤ cbsize) :
    ∃ σ', σ.pop = some (f, σ') ∧
      Queue (σ'.store (info f) ds) ⟨ds.length, info f, info f + ds.length⟩ fs [f] ds ∧
      Moved σ (f :: fs) [] (σ'.store (info f) ds) fs [f] := by
  have hfoff := (h.aligned f (List.mem_append_left _ (List.mem_cons_self ..))).1
  obtain ⟨σ', hpop, hfree', hnext, hbyte, hcount⟩ := h.taken h.free rfl
  have hsize : linkSize + cbsize = cblock := rfl
  have hperm : (fs ++ [f]).Perm (f :: fs ++ []) := by
    rw [List.append_nil]
    exact List.perm_append_comm
  have hmoved : Moved σ (f :: fs) [] (σ'.store (info f) ds) fs [f] := by
    refine ⟨hperm, fun x hx => ?_, fun a ha => ?_⟩
    · show σ'.c_next x = σ.c_next x
      rw [hnext]
      refine Function.update_of_ne ?_ ..
      rintro rfl
      exact hx (List.mem_append_left _ (List.mem_cons_self ..))
    · rw [store_in_block σ' hfoff hroom fun he => ha (he ▸ List.mem_append_left _ (List.mem_cons_self ..)), hbyte]
  refine ⟨σ', hpop, ⟨hfree', hcount, ⟨⟨le_rfl, Nat.lt_add_of_pos_right hpos, ?_⟩, ?_, rfl⟩, hmoved.nodup h.nodup,
    hmoved.aligned h.aligned⟩, hmoved⟩
  · show info f + ds.length ≤ f + cblock
    unfold info
    omega
  · show ds = (List.range' (info f) (info f + ds.length - info f)).map _
    rw [Nat.add_sub_cancel_left, load_store]

end

end DiscoBSD.Tty
