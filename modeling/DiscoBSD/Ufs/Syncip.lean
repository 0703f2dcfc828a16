import DiscoBSD.Ufs.Tree

/-!
# Writing a file out

`syncip` of `sys/kern/ufs_subr.c`, with `blkflush`, `iupdat` and the reading half of `bmap`, on the buffers of the
file's device that have a delayed write. A small file is looked up block by block, and a hole is `-1` from `bmap`.
**`syncip` takes that for an error.** It also looks up no more than the blocks below the size, and none of the
indirect ones. For a large file it writes out every buffer of the device.

A read may take any buffer for its block, after the delayed write in it is started. What else sleeps and wakes is
left out: the inode is locked, and nobody dirties its blocks meanwhile.
-/

set_option autoImplicit false

namespace DiscoBSD.Ufs

/-- What the device and the cache do: which blocks can be read and written, and which buffers the cache takes for
    the `n`-th read. -/
structure Io where
  readable : Nat → Bool
  writes : Nat → Bool
  steal : Nat → Nat → Bool

/-- The blocks with a delayed write, in the order of their buffers, and the number of reads so far. -/
structure Delayed where
  turn : Nat
  blocks : List Nat
  deriving DecidableEq, Repr

/-- `bread`: whether there is no error. -/
def Delayed.bread (io : Io) (d : Delayed) (b : Nat) : Bool × Delayed :=
  (io.readable b, ⟨d.turn + 1, d.blocks.filter fun x => !io.steal d.turn x⟩)

/-- `bwrite`. The buffer is clean then, whatever becomes of the write. -/
def Delayed.bwrite (io : Io) (d : Delayed) (b : Nat) : Bool × Delayed :=
  (io.writes b, { d with blocks := d.blocks.filter (· != b) })

/-- `blkflush`. -/
def Delayed.blkflush (io : Io) (d : Delayed) (b : Nat) : Bool × Delayed :=
  if b ∈ d.blocks then d.bwrite io b else (true, d)

/-! ## bmap for reading -/

/-- `for(;j <= 3;j++)`, for reading. A hole is `none`, and a block of pointers that cannot be read gives 0. -/
def readPtrs (io : Io) (blk : Nat → Nat → Nat) : Nat → Nat → Nat → Delayed → Option Nat × Delayed
  | 0, nb, _, d => (some nb, d)
  | k + 1, nb, bn, d =>
    match d.bread io nb with
    | (false, d) => (some 0, d)
    | (true, d) =>
      let i := bn / nindir ^ k % nindir
      if blk nb i = 0 then (none, d) else readPtrs io blk k (blk nb i) bn d

/-- `bmap` with `B_READ`: `none` is `-1`, and 0 an error. -/
def readBmap (io : Io) (blk : Nat → Nat → Nat) (addr : Nat → Nat) (bn : Nat) (d : Delayed) : Option Nat × Delayed :=
  if bn < ndaddr then (if addr bn = 0 then none else some (addr bn), d)
  else
    match indirection (bn - ndaddr) with
    | none => (some 0, d)
    | some (k, bn) =>
      let top := ndaddr - 1 + k
      if addr top = 0 then (none, d) else readPtrs io blk k (addr top) bn d

/-- `mapped_block < 0`. -/
def negative : Option Nat → Bool
  | none => true
  | some nb => decide (2 ^ 31 ≤ nb)

/-! ## syncip -/

/-- `howmany(ip->i_size, DEV_BSIZE)`. -/
def lastlbn (i_size : Int) : Int := (offT (i_size + (devBsize - 1 : Nat))).tdiv devBsize

/-- The loop over the blocks of a small file. -/
def syncSmall (io : Io) (blk : Nat → Nat → Nat) (addr : Nat → Nat) : List Nat → Delayed → Bool × Delayed
  | [], d => (true, d)
  | lbn :: lbns, d =>
    match readBmap io blk addr lbn d with
    | (mapped, d) =>
      if negative mapped then (false, d)
      else
        match d.blkflush io (mapped.getD 0) with
        | (false, d) => (false, d)
        | (true, d) => syncSmall io blk addr lbns d

/-- The loop over the buffers of the device. -/
def syncLarge (io : Io) : List Nat → Delayed → Bool × Delayed
  | [], d => (true, d)
  | b :: bs, d =>
    match d.bwrite io b with
    | (false, d) => (false, d)
    | (true, d) => syncLarge io bs d

/-- `iupdat`, for an inode that has changed, with the wait. `ino` is its block. -/
def iupdat (io : Io) (fs_ronly : Bool) (ino : Nat) (d : Delayed) : Bool × Delayed :=
  if fs_ronly then (true, d)
  else
    match d.bread io ino with
    | (false, d) => (false, d)
    | (true, d) => d.bwrite io ino

/-- `syncip`, for so many buffers: whether it returns 0. -/
def syncip (io : Io) (nbuf : Nat) (fs_ronly : Bool) (ino : Nat) (blk : Nat → Nat → Nat) (ip : File) (d : Delayed) :
    Bool × Delayed :=
  let flushed :=
    if lastlbn ip.i_size < (nbuf / 2 : Nat) then
      syncSmall io blk ip.i_addr (List.range (lastlbn ip.i_size).toNat) d
    else syncLarge io d.blocks d
  match flushed with
  | (false, d) => (false, d)
  | (true, d) => iupdat io fs_ronly ino d

/-! ## What it is for -/

/-- The call succeeds, and no block of the file has a delayed write any more. -/
def Synced (blk : Nat → Nat → Nat) (ip : File) (r : Bool × Delayed) : Prop :=
  r.1 = true ∧ ∀ b ∈ treeOf blk ip.i_addr, b ∉ r.2.blocks

/-- Where the pointers lead, if those blocks are readable. -/
def ptrsOf (readable : Nat → Bool) (blk : Nat → Nat → Nat) : Nat → Nat → Nat → Option Nat
  | 0, nb, _ => some nb
  | k + 1, nb, bn =>
    if readable nb = false then some 0
    else
      let i := bn / nindir ^ k % nindir
      if blk nb i = 0 then none else ptrsOf readable blk k (blk nb i) bn

/-- The block of a logical block. -/
def mapOf (readable : Nat → Bool) (blk : Nat → Nat → Nat) (addr : Nat → Nat) (bn : Nat) : Option Nat :=
  if bn < ndaddr then if addr bn = 0 then none else some (addr bn)
  else
    match indirection (bn - ndaddr) with
    | none => some 0
    | some (k, bn) =>
      let top := ndaddr - 1 + k
      if addr top = 0 then none else ptrsOf readable blk k (addr top) bn

/-- The inode's block can be read, unless it is not to be written; and a small file has no hole below its size and no
    delayed write but for those blocks. -/
structure Syncable (nbuf : Nat) (fs_ronly : Bool) (ino : Nat) (blk : Nat → Nat → Nat) (readable : Nat → Bool)
    (ip : File) (delayed : List Nat) : Prop where
  inode : fs_ronly = true ∨ readable ino = true
  holes : lastlbn ip.i_size < (nbuf / 2 : Nat) →
    ∀ lbn < (lastlbn ip.i_size).toNat, negative (mapOf readable blk ip.i_addr lbn) = false
  covered : lastlbn ip.i_size < (nbuf / 2 : Nat) → ∀ b ∈ treeOf blk ip.i_addr, b ∈ delayed →
    (∃ lbn < (lastlbn ip.i_size).toNat, mapOf readable blk ip.i_addr lbn = some b) ∨ (fs_ronly = false ∧ b = ino)

section
variable {io : Io} {blk : Nat → Nat → Nat} {addr : Nat → Nat} {d d' : Delayed} {b : Nat}

/-- Nothing gets a delayed write, and nothing loses its own that is not taken. -/
structure Fewer (io : Io) (d d' : Delayed) : Prop where
  sub : ∀ b ∈ d'.blocks, b ∈ d.blocks
  kept : (∀ n b, io.steal n b = false) → d'.blocks = d.blocks

theorem Fewer.refl : Fewer io d d := ⟨fun _ h => h, fun _ => rfl⟩

theorem Fewer.trans {d'' : Delayed} (h : Fewer io d d') (h' : Fewer io d' d'') : Fewer io d d'' :=
  ⟨fun b hb => h.sub b (h'.sub b hb), fun hs => (h'.kept hs).trans (h.kept hs)⟩

theorem bread_fewer : Fewer io d (d.bread io b).2 := by
  refine ⟨fun x hx => (List.mem_filter.mp hx).1, fun hs => ?_⟩
  refine List.filter_eq_self.mpr fun x _ => ?_
  rw [hs]
  rfl

theorem readPtrs_spec (k : Nat) (nb bn : Nat) (d : Delayed) :
    (readPtrs io blk k nb bn d).1 = ptrsOf io.readable blk k nb bn ∧ Fewer io d (readPtrs io blk k nb bn d).2 := by
  induction k generalizing nb d with
  | zero => exact ⟨rfl, .refl⟩
  | succ k ih =>
    have hread : Fewer io d (d.bread io nb).2 := bread_fewer
    obtain ⟨ok, t, ht⟩ : ∃ ok t, d.bread io nb = (ok, t) := ⟨_, _, rfl⟩
    have hok : io.readable nb = ok := congrArg Prod.fst ht
    rw [ht] at hread
    unfold readPtrs ptrsOf
    rw [ht, hok]
    cases ok with
    | false => exact ⟨rfl, hread⟩
    | true =>
      simp only [Bool.true_eq_false, if_false]
      split
      · exact ⟨rfl, hread⟩
      · obtain ⟨hmap, hfewer⟩ := ih (blk nb (bn / nindir ^ k % nindir)) t
        exact ⟨hmap, hread.trans hfewer⟩

theorem readBmap_spec (io : Io) (blk : Nat → Nat → Nat) (addr : Nat → Nat) (bn : Nat) (d : Delayed) :
    (readBmap io blk addr bn d).1 = mapOf io.readable blk addr bn ∧ Fewer io d (readBmap io blk addr bn d).2 := by
  unfold readBmap mapOf
  split
  · exact ⟨rfl, .refl⟩
  · cases indirection (bn - ndaddr) with
    | none => exact ⟨rfl, .refl⟩
    | some p =>
      simp only
      split
      · exact ⟨rfl, .refl⟩
      · exact readPtrs_spec _ _ _ _

/-- A write that succeeds cleans its block, and no other. -/
theorem bwrite_spec (hw : ∀ b, io.writes b = true) (d : Delayed) (b : Nat) :
    ∃ d', d.bwrite io b = (true, d') ∧ ∀ x, x ∈ d'.blocks ↔ x ∈ d.blocks ∧ x ≠ b := by
  refine ⟨{ d with blocks := d.blocks.filter (· != b) }, ?_, fun x => ?_⟩
  · rw [Delayed.bwrite, hw]
  · simp only [List.mem_filter, bne_iff_ne]

theorem blkflush_spec (hw : ∀ b, io.writes b = true) (d : Delayed) (b : Nat) :
    ∃ d', d.blkflush io b = (true, d') ∧ ∀ x, x ∈ d'.blocks ↔ x ∈ d.blocks ∧ x ≠ b := by
  unfold Delayed.blkflush
  split
  · exact bwrite_spec hw d b
  · rename_i hout
    refine ⟨d, rfl, fun x => ⟨fun hx => ⟨hx, ?_⟩, And.left⟩⟩
    rintro rfl
    exact hout hx

/-- **The small loop**: it fails at a hole, and otherwise it has cleaned the blocks it looked up. -/
theorem syncSmall_spec (blk : Nat → Nat → Nat) (addr : Nat → Nat) (hw : ∀ b, io.writes b = true)
    (lbns : List Nat) (d : Delayed) :
    ((syncSmall io blk addr lbns d).1 = true ↔ ∀ lbn ∈ lbns, negative (mapOf io.readable blk addr lbn) = false) ∧
      ((syncSmall io blk addr lbns d).1 = true →
        (∀ x ∈ (syncSmall io blk addr lbns d).2.blocks,
          x ∈ d.blocks ∧ ∀ lbn ∈ lbns, mapOf io.readable blk addr lbn ≠ some x) ∧
        ((∀ n b, io.steal n b = false) → ∀ x ∈ d.blocks,
          (∀ lbn ∈ lbns, mapOf io.readable blk addr lbn ≠ some x) → x ∈ (syncSmall io blk addr lbns d).2.blocks)) := by
  induction lbns generalizing d with
  | nil =>
    refine ⟨⟨fun _ lbn h => absurd h List.not_mem_nil, fun _ => rfl⟩, fun _ => ⟨fun x hx => ⟨hx, ?_⟩, ?_⟩⟩
    · exact fun lbn h => absurd h List.not_mem_nil
    · exact fun _ x hx _ => hx
  | cons lbn lbns ih =>
    obtain ⟨hmap, hfewer⟩ := readBmap_spec io blk addr lbn d
    obtain ⟨mapped, t, ht⟩ : ∃ mapped t, readBmap io blk addr lbn d = (mapped, t) := ⟨_, _, rfl⟩
    rw [ht] at hmap hfewer
    simp only at hmap hfewer
    unfold syncSmall
    rw [ht]
    simp only
    by_cases hneg : negative mapped = true
    · rw [if_pos hneg]
      refine ⟨⟨fun h => absurd h (by simp), fun h => ?_⟩, fun h => absurd h (by simp)⟩
      have hhead := h lbn List.mem_cons_self
      rw [← hmap, hneg] at hhead
      cases hhead
    · rw [if_neg hneg]
      have hneg := Bool.eq_false_iff.mpr hneg
      obtain ⟨u, hu, hclean⟩ := blkflush_spec hw t (mapped.getD 0)
      rw [hu]
      simp only
      obtain ⟨hiff, hrest⟩ := ih u
      obtain ⟨nb, rfl⟩ : ∃ nb, mapped = some nb := by
        cases mapped with
        | none => cases hneg
        | some nb => exact ⟨nb, rfl⟩
      rw [Option.getD_some] at hclean
      refine ⟨?_, fun hok => ?_⟩
      · rw [hiff]
        refine ⟨fun h l hl => ?_, fun h l hl => h l (List.mem_cons_of_mem _ hl)⟩
        rcases List.mem_cons.mp hl with rfl | hl
        · rw [← hmap]
          exact hneg
        · exact h l hl
      · obtain ⟨hdown, hup⟩ := hrest hok
        refine ⟨fun x hx => ?_, fun hs x hx hnot => ?_⟩
        · obtain ⟨hxu, hothers⟩ := hdown x hx
          obtain ⟨hxt, hne⟩ := (hclean x).mp hxu
          refine ⟨hfewer.sub x hxt, fun l hl => ?_⟩
          rcases List.mem_cons.mp hl with rfl | hl
          · rw [← hmap]
            exact fun heq => hne (Option.some.inj heq).symm
          · exact hothers l hl
        · refine hup hs x ((hclean x).mpr ⟨?_, ?_⟩) fun l hl => hnot l (List.mem_cons_of_mem _ hl)
          · rw [hfewer.kept hs]
            exact hx
          · rintro rfl
            exact hnot lbn List.mem_cons_self hmap.symm

/-- The large loop cleans every block. -/
theorem syncLarge_spec (hw : ∀ b, io.writes b = true) (bs : List Nat) (d : Delayed) :
    ∃ d', syncLarge io bs d = (true, d') ∧ ∀ x ∈ d'.blocks, x ∈ d.blocks ∧ x ∉ bs := by
  induction bs generalizing d with
  | nil => exact ⟨d, rfl, fun x hx => ⟨hx, List.not_mem_nil⟩⟩
  | cons b bs ih =>
    obtain ⟨t, ht, hclean⟩ := bwrite_spec hw d b
    obtain ⟨d', hd', hrest⟩ := ih t
    refine ⟨d', ?_, fun x hx => ?_⟩
    · rw [syncLarge, ht]
      exact hd'
    · obtain ⟨hxt, hout⟩ := hrest x hx
      obtain ⟨hxd, hne⟩ := (hclean x).mp hxt
      exact ⟨hxd, fun h => (List.mem_cons.mp h).elim hne hout⟩

theorem iupdat_spec (hw : ∀ b, io.writes b = true) (fs_ronly : Bool) (ino : Nat) (d : Delayed) :
    ((iupdat io fs_ronly ino d).1 = true ↔ fs_ronly = true ∨ io.readable ino = true) ∧
      (∀ x ∈ (iupdat io fs_ronly ino d).2.blocks, x ∈ d.blocks) ∧
      ((iupdat io fs_ronly ino d).1 = true → fs_ronly = false → ino ∉ (iupdat io fs_ronly ino d).2.blocks) ∧
      ((∀ n b, io.steal n b = false) → ∀ x ∈ d.blocks, (fs_ronly = false → x ≠ ino) →
        x ∈ (iupdat io fs_ronly ino d).2.blocks) := by
  unfold iupdat
  cases fs_ronly with
  | true => exact ⟨by simp, fun x hx => hx, fun _ h => (by cases h), fun _ x hx _ => hx⟩
  | false =>
    have hread : Fewer io d (d.bread io ino).2 := bread_fewer
    obtain ⟨ok, t, ht⟩ : ∃ ok t, d.bread io ino = (ok, t) := ⟨_, _, rfl⟩
    have hok : io.readable ino = ok := congrArg Prod.fst ht
    rw [ht] at hread
    rw [ht, hok]
    cases ok with
    | false =>
      refine ⟨by simp, hread.sub, fun h => absurd h (by simp), fun hs x hx _ => ?_⟩
      simp only [Bool.false_eq_true, if_false]
      rw [hread.kept hs]
      exact hx
    | true =>
      obtain ⟨u, hu, hclean⟩ := bwrite_spec hw t ino
      simp only [Bool.false_eq_true, if_false, hu]
      refine ⟨by simp, fun x hx => hread.sub x ((hclean x).mp hx).1, fun _ _ hino => ((hclean ino).mp hino).2 rfl, ?_⟩
      intro hs x hx hne
      rw [← hread.kept hs] at hx
      exact (hclean x).mpr ⟨hx, hne trivial⟩

/-- The flush of a small file comes through exactly without a hole. -/
theorem syncip_small (fs_ronly : Bool) (ino : Nat) (blk : Nat → Nat → Nat) {nbuf : Nat} {ip : File}
    (hw : ∀ b, io.writes b = true) (hsmall : lastlbn ip.i_size < (nbuf / 2 : Nat)) (d : Delayed) :
    ((syncip io nbuf fs_ronly ino blk ip d).1 = true →
      ∀ lbn < (lastlbn ip.i_size).toNat, negative (mapOf io.readable blk ip.i_addr lbn) = false) ∧
    ((∀ lbn < (lastlbn ip.i_size).toNat, negative (mapOf io.readable blk ip.i_addr lbn) = false) →
      ∃ u, syncip io nbuf fs_ronly ino blk ip d = iupdat io fs_ronly ino u ∧
        (∀ x ∈ u.blocks, x ∈ d.blocks ∧
          ∀ lbn < (lastlbn ip.i_size).toNat, mapOf io.readable blk ip.i_addr lbn ≠ some x) ∧
        ((∀ n b, io.steal n b = false) → ∀ x ∈ d.blocks,
          (∀ lbn < (lastlbn ip.i_size).toNat, mapOf io.readable blk ip.i_addr lbn ≠ some x) → x ∈ u.blocks)) := by
  obtain ⟨hiff, hrest⟩ :=
    syncSmall_spec blk ip.i_addr hw (List.range (lastlbn ip.i_size).toNat) d
  obtain ⟨ok, u, hu⟩ : ∃ ok u,
      syncSmall io blk ip.i_addr (List.range (lastlbn ip.i_size).toNat) d = (ok, u) := ⟨_, _, rfl⟩
  rw [hu] at hiff hrest
  simp only [List.mem_range] at hiff hrest
  unfold syncip
  simp only [if_pos hsmall, hu]
  cases ok with
  | false => exact ⟨fun h => absurd h (by simp), fun h => absurd (hiff.mpr h) (by simp)⟩
  | true => exact ⟨fun _ => hiff.mp rfl, fun _ => ⟨u, rfl, hrest rfl⟩⟩

/-- A large file has everything written out. -/
theorem syncip_large (fs_ronly : Bool) (ino : Nat) (blk : Nat → Nat → Nat) {nbuf : Nat} {ip : File}
    (hw : ∀ b, io.writes b = true) (hlarge : ¬ lastlbn ip.i_size < (nbuf / 2 : Nat)) (d : Delayed) :
    ∃ u, syncip io nbuf fs_ronly ino blk ip d = iupdat io fs_ronly ino u ∧ ∀ x, x ∉ u.blocks := by
  obtain ⟨u, hu, hclean⟩ := syncLarge_spec hw d.blocks d
  refine ⟨u, ?_, fun x hx => (hclean x hx).2 (hclean x hx).1⟩
  unfold syncip
  simp only [if_neg hlarge, hu]

end

/-- The device of the given reads, when writes succeed and no read takes a buffer of a delayed write. -/
def Io.quiet (readable : Nat → Bool) : Io := ⟨readable, fun _ => true, fun _ _ => false⟩

/-- **A file is synced when no write fails**, whatever buffers the reads take, exactly if its inode can be read, and,
    being small, it has no hole below its size and no delayed write but for its blocks there. -/
theorem syncip_synced (nbuf : Nat) (fs_ronly : Bool) (ino : Nat) (blk : Nat → Nat → Nat) (readable : Nat → Bool)
    (ip : File) (d : Delayed) :
    (∀ io : Io, io.readable = readable → (∀ b, io.writes b = true) →
      Synced blk ip (syncip io nbuf fs_ronly ino blk ip d)) ↔
      Syncable nbuf fs_ronly ino blk readable ip d.blocks := by
  constructor
  · intro h
    have hw : ∀ b, (Io.quiet readable).writes b = true := fun _ => rfl
    obtain ⟨hok, hclean⟩ := h (.quiet readable) rfl hw
    by_cases hsmall : lastlbn ip.i_size < (nbuf / 2 : Nat)
    · obtain ⟨hholes, hthrough⟩ := syncip_small fs_ronly ino blk hw hsmall d
      obtain ⟨u, hu, -, hstay⟩ := hthrough (hholes hok)
      rw [hu] at hok hclean
      obtain ⟨hino, -, -, hkept⟩ := iupdat_spec hw fs_ronly ino u
      refine ⟨hino.mp hok, fun _ => hholes (by rw [hu]; exact hok), fun _ b hb hd => ?_⟩
      by_contra hnot
      rw [not_or] at hnot
      obtain ⟨hout, hother⟩ := hnot
      refine hclean b hb (hkept (fun _ _ => rfl) b (hstay (fun _ _ => rfl) b hd ?_) ?_)
      · exact fun lbn hlbn heq => hout ⟨lbn, hlbn, heq⟩
      · exact fun hr heq => hother ⟨hr, heq⟩
    · obtain ⟨u, hu, -⟩ := syncip_large fs_ronly ino blk hw hsmall d
      rw [hu] at hok
      obtain ⟨hino, -⟩ := iupdat_spec hw fs_ronly ino u
      exact ⟨hino.mp hok, fun h => absurd h hsmall, fun h => absurd h hsmall⟩
  · rintro ⟨hinode, hholes, hcovered⟩ io rfl hw
    by_cases hsmall : lastlbn ip.i_size < (nbuf / 2 : Nat)
    · obtain ⟨u, hu, hdown, -⟩ := (syncip_small fs_ronly ino blk hw hsmall d).2 (hholes hsmall)
      rw [hu]
      obtain ⟨hino, hsub, hself, -⟩ := iupdat_spec hw fs_ronly ino u
      have hok := hino.mpr hinode
      refine ⟨hok, fun b hb hin => ?_⟩
      obtain ⟨hd, hout⟩ := hdown b (hsub b hin)
      rcases hcovered hsmall b hb hd with ⟨lbn, hlbn, heq⟩ | ⟨hr, rfl⟩
      · exact hout lbn hlbn heq
      · exact hself hok hr hin
    · obtain ⟨u, hu, hclean⟩ := syncip_large fs_ronly ino blk hw hsmall d
      rw [hu]
      obtain ⟨hino, hsub, -⟩ := iupdat_spec hw fs_ronly ino u
      exact ⟨hino.mpr hinode, fun b _ hin => hclean b (hsub b hin)⟩

/-- A block was written beyond the first and cut off again: the file has a size of 1024 and no block. -/
theorem syncip_hole :
    ¬ Synced (fun _ _ => 0) ⟨some .reg, 1, 1024, fun _ => 0, false, false⟩
      (syncip (.quiet fun _ => true) 10 false 3 (fun _ _ => 0) ⟨some .reg, 1, 1024, fun _ => 0, false, false⟩ ⟨0, []⟩) :=
  fun h => absurd h.1 (by decide)

end DiscoBSD.Ufs
