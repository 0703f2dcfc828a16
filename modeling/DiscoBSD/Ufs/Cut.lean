import DiscoBSD.Ufs.Blocks
import DiscoBSD.Ufs.Mapping

/-!
# What itrunc leaves

`itrunc` cuts the three trees of a file and its direct blocks where the new size ends. **What is left is the part of the
tree that stands for the logical blocks below it**, each block in its place, and the rest is on the free list. A block
of pointers stays as long as one of its pointers could be below, even if they are all holes.
-/

set_option autoImplicit false

namespace DiscoBSD.Ufs

section

variable {v v' : Volume} {l : List Nat} {k bn first : Nat}

/-- The nodes that stand for logical blocks up to `last`. -/
def cutNodes (last : Int) (ms : List Node) : List Node := ms.filter fun m => decide ((m.first : Int) ≤ last)

theorem cutNodes_flatMap {α : Type} (last : Int) (is : List α) (f : α → List Node) :
    cutNodes last (is.flatMap f) = is.flatMap fun i => cutNodes last (f i) := List.filter_flatMap

theorem cutNodes_cons {last : Int} {m : Node} (h : (m.first : Int) ≤ last) (ms : List Node) :
    cutNodes last (m :: ms) = m :: cutNodes last ms := List.filter_cons_of_pos (decide_eq_true h)

/-- A tree below is left as it is. -/
theorem cutNodes_all {blk : Nat → Nat → Nat} {last : Int} (h : (first + nindir ^ k : Nat) ≤ last + 1) :
    cutNodes last (nodes blk k bn first) = nodes blk k bn first := by
  refine List.filter_eq_self.mpr fun m hm => decide_eq_true ?_
  have := (nodes_first hm).2
  lia

/-- And one above goes. -/
theorem cutNodes_none {blk : Nat → Nat → Nat} {last : Int} (h : last < first) :
    cutNodes last (nodes blk k bn first) = [] := by
  refine List.filter_eq_nil_iff.mpr fun m hm hc => ?_
  have := (nodes_first hm).1
  have := of_decide_eq_true hc
  lia

/-- **`indirtrunc` leaves what stands for the logical blocks up to the last one**, in its place. -/
theorem indirtrunc_nodes (k : Nat) {bn first : Nat} {lastbn : Int} (hz : bn ≠ 0) (hnn : 0 ≤ lastbn)
    (hlast : lastbn < (nindir ^ k : Nat)) (h : Owned v l (blocksAt v.blk k bn)) :
    nodes (indirtrunc k bn lastbn v).blk k bn first = cutNodes (first + lastbn) (nodes v.blk k bn first) := by
  induction k generalizing bn first lastbn v l with
  | zero =>
    have h0 : lastbn = 0 := by
      rw [pow_zero] at hlast
      lia
    rw [h0]
    exact (cutNodes_all (by simp)).symm
  | succ k ih =>
    have hpow : 0 < nindir ^ k := Nat.pos_of_ne_zero (by simp [nindir])
    obtain ⟨v₂, l₂, hv₂, hm₂, hbn₂, hsame₂⟩ := indirtrunc_drop (k := k) lastbn hz (fun hz h => by
      obtain ⟨l', hm, he⟩ := indirtrunc_moves k (-1) hz (by lia) h
      rw [he (by lia)] at hm
      exact ⟨l', hm⟩) h
    obtain ⟨hl0, hlt⟩ := lastIndex_lt hnn hlast
    have hdiv : lastIndex k lastbn = lastbn / (nindir ^ k : Nat) := by
      unfold lastIndex
      split
      · rfl
      · obtain rfl : lastbn = 0 := by lia
        rw [Int.zero_ediv]
    obtain ⟨q, hq⟩ := Int.eq_ofNat_of_zero_le hl0
    rw [hq] at hv₂ hm₂ hbn₂ hsame₂ hlt hdiv
    obtain ⟨r, hr⟩ := Int.eq_ofNat_of_zero_le (Int.emod_nonneg lastbn (b := (nindir ^ k : Nat)) (by lia))
    have hrlt : r < nindir ^ k := by
      have := Int.emod_lt_of_pos lastbn (b := (nindir ^ k : Nat)) (by lia)
      lia
    have hsum : lastbn = (q * nindir ^ k + r : Nat) := by
      have := Int.mul_ediv_add_emod lastbn (nindir ^ k : Nat)
      rw [← hdiv, hr, Int.mul_comm] at this
      push_cast at this ⊢
      lia
    rw [hv₂, Int.toNat_natCast, hr]
    have hown₂ := h.moves hm₂
    have hqmem : q ∈ upTo (q : Int) := mem_upTo.mpr (by lia)
    -- What the last partial block loses is its own.
    obtain ⟨v₃, hv₃, hbn₃, hother, hpart⟩ : ∃ v₃, (if 0 ≤ lastbn ∧ v.blk bn q ≠ 0 then
          indirtrunc k (v.blk bn q) (r : Int) v₂ else v₂) = v₃ ∧ v₃.blk bn = v₂.blk bn ∧
        (∀ i < q, ∀ b ∈ blocksAt v₂.blk k (v.blk bn i), v₃.blk b = v₂.blk b) ∧
        ∀ f, nodes v₃.blk k (v.blk bn q) f = cutNodes (f + r : Nat) (nodes v₂.blk k (v.blk bn q) f) := by
      split
      · next hc =>
        have hsub := (hown₂.left.congr (forest_pick hqmem).symm).left
        obtain ⟨l₃, hm, -⟩ := indirtrunc_moves k (r : Int) hc.2 (by lia) hsub
        have hpick := hown₂.congr ((forest_pick hqmem).append_right [bn]).symm
        rw [List.append_assoc] at hpick
        refine ⟨_, rfl, hm.same bn (hpick.apart (by simp)), fun i hi b hb => hm.same b (hpick.apart ?_), fun f => ?_⟩
        · refine List.mem_append_left _ (List.mem_flatMap.mpr ⟨i, ?_, hb⟩)
          exact ((List.nodup_range.filter _).mem_erase_iff).mpr ⟨by lia, mem_upTo.mpr (by lia)⟩
        · rw [ih hc.2 (by lia) (by lia) hsub]
          push_cast
          rfl
      · next hc =>
        have hc0 : v.blk bn q = 0 := by
          by_contra hne
          exact hc ⟨hnn, hne⟩
        refine ⟨v₂, rfl, rfl, fun _ _ _ _ => rfl, fun f => ?_⟩
        rw [hc0, nodes_zero]
        rfl
    rw [hv₃, nodes_succ hz, nodes_succ hz, hbn₃, hbn₂]
    rw [cutNodes_cons (by simpa using hnn), cutNodes_flatMap]
    congr 1
    refine List.flatMap_congr fun i hi => ?_
    have hi := List.mem_range.mp hi
    dsimp only
    have hstep : ∀ {a b : Nat}, a < b → (a + 1) * nindir ^ k ≤ b * nindir ^ k := fun h => Nat.mul_le_mul_right _ h
    have hsame : i ≤ q → nodes v₂.blk k (v.blk bn i) (first + i * nindir ^ k) =
        nodes v.blk k (v.blk bn i) (first + i * nindir ^ k) := by
      intro hle
      refine nodes_frame fun m hm _ => hsame₂ m.block ?_
      exact List.mem_flatMap.mpr ⟨i, mem_upTo.mpr (by lia), mem_blocksAt hm⟩
    rcases Nat.lt_trichotomy i q with hlt' | rfl | hgt
    · have hle := hstep hlt'
      rw [Nat.succ_mul] at hle
      rw [if_neg (by lia), cutNodes_all (by lia), ← hsame (by lia)]
      exact nodes_frame fun m hm _ => hother i hlt' m.block (mem_blocksAt hm)
    · rw [if_neg (by lia), hpart, hsame (Nat.le_refl _), hsum, Nat.add_assoc]
      push_cast
      rfl
    · have hle := hstep hgt
      rw [Nat.succ_mul] at hle
      rw [if_pos ⟨hi, by lia⟩, nodes_zero, cutNodes_none (by lia)]

/-- One of the trees of a file is cut, or goes with its root. -/
theorem trunctree_nodes {last : Int} (hlast : last < (nindir ^ k : Nat)) (h : Owned v l (blocksAt v.blk k bn)) :
    nodes (trunctree k bn last v).blk k (if last < 0 then 0 else bn) first =
      cutNodes (first + last) (nodes v.blk k bn first) := by
  by_cases hneg : last < 0
  · rw [if_pos hneg, nodes_zero, cutNodes_none (by lia)]
  · rw [if_neg hneg]
    unfold trunctree
    by_cases hz : bn = 0
    · rw [if_pos hz, hz, nodes_zero]
      rfl
    · rw [if_neg hz, if_neg hneg]
      exact indirtrunc_nodes k hz (by lia) hlast h

/-! ## Files -/

/-- The trees from address `i` on are cut after `last`, and the others are as they were. -/
def CutFrom (i : Nat) (last : Int) (blk : Nat → Nat → Nat) (addr : Nat → Nat) (blk' : Nat → Nat → Nat)
    (addr' : Nat → Nat) : Prop :=
  ∀ j < naddr, nodes blk' (j - 3) (addr' j) (start j) =
    if i ≤ j then cutNodes last (nodes blk (j - 3) (addr j) (start j)) else nodes blk (j - 3) (addr j) (start j)

theorem CutFrom.refl (last : Int) (blk : Nat → Nat → Nat) (addr : Nat → Nat) : CutFrom naddr last blk addr blk addr :=
  fun _ hj => (if_neg (Nat.not_le_of_lt hj)).symm

theorem CutFrom.congr {i : Nat} {last : Int} {blk blk' : Nat → Nat → Nat} {addr addr' addr'' : Nat → Nat}
    (h : CutFrom i last blk addr blk' addr') (ha : ∀ j < naddr, addr'' j = addr' j) :
    CutFrom i last blk addr blk' addr'' := fun j hj => by
  rw [ha j hj]
  exact h j hj

/-- What is below an address that keeps something is all kept. -/
theorem CutFrom.done {i : Nat} {last : Int} {blk blk' : Nat → Nat → Nat} {addr addr' : Nat → Nat} (hi : i < naddr)
    (hlast : (start i : Int) ≤ last) (h : CutFrom i last blk addr blk' addr') :
    nodesOf blk' addr' = cutNodes last (nodesOf blk addr) := by
  rw [nodesOf, nodesOf, cutNodes_flatMap]
  refine List.flatMap_congr fun j hj => ?_
  have hj := List.mem_range.mp hj
  rw [h j hj]
  split
  · rfl
  · next hij =>
    have hmono := start_mono (Nat.lt_of_not_le hij) hi
    rw [Nat.succ_eq_add_one, start_next (by lia)] at hmono
    rw [cutNodes_all (by lia)]

theorem CutFrom.all {last : Int} {blk blk' : Nat → Nat → Nat} {addr addr' : Nat → Nat}
    (h : CutFrom 0 last blk addr blk' addr') : nodesOf blk' addr' = cutNodes last (nodesOf blk addr) := by
  rw [nodesOf, nodesOf, cutNodes_flatMap]
  refine List.flatMap_congr fun j hj => ?_
  rw [h j (List.mem_range.mp hj), if_pos (Nat.zero_le j)]

/-- The next tree is cut. -/
theorem CutFrom.tree {i : Nat} (last : Int) {lastblock : Int} {blk : Nat → Nat → Nat} {addr addr' : Nat → Nat}
    (hi : i < naddr) (hlast : last < (nindir ^ (i - 3) : Nat)) (hs : start i + last = lastblock)
    (h : Owned v l (treeOf v.blk addr')) (hc : CutFrom (i + 1) lastblock blk addr v.blk addr') :
    CutFrom i lastblock blk addr (trunctree (i - 3) (addr' i) last v).blk
      (Function.update addr' i (if last < 0 then 0 else addr' i)) := by
  have hroot : i ∈ List.range naddr := List.mem_range.mpr hi
  have hpick := h.congr (@forest_pick _ _ (· - 3) addr' _ hroot).symm
  obtain ⟨l', hm⟩ := trunctree_moves hlast hpick.left
  intro j hj
  by_cases hji : j = i
  · subst hji
    have hold := hc j hj
    rw [if_neg (Nat.not_succ_le_self j)] at hold
    rw [Function.update_self, trunctree_nodes hlast hpick.left, if_pos (Nat.le_refl j), hs, hold]
  · rw [Function.update_of_ne hji]
    have hframe : nodes (trunctree (i - 3) (addr' i) last v).blk (j - 3) (addr' j) (start j) =
        nodes v.blk (j - 3) (addr' j) (start j) := by
      refine nodes_frame fun m hmem _ => hm.same m.block (hpick.apart ?_)
      have hroot' := (List.nodup_range.mem_erase_iff).mpr ⟨hji, List.mem_range.mpr hj⟩
      exact List.mem_flatMap.mpr ⟨j, hroot', mem_blocksAt hmem⟩
    rw [hframe, hc j hj]
    by_cases hij : i ≤ j
    · rw [if_pos hij, if_pos (by lia)]
    · rw [if_neg hij, if_neg (by lia)]

/-- And the direct blocks, when the trees are gone. -/
theorem CutFrom.direct {lastblock : Int} {blk blk' : Nat → Nat → Nat} {addr addr' : Nat → Nat} (blk'' : Nat → Nat → Nat)
    (hc : CutFrom ndaddr lastblock blk addr blk' addr') (htree : ∀ i, ndaddr ≤ i → i < naddr → addr' i = 0) :
    CutFrom 0 lastblock blk addr blk'' fun i => if lastblock < i then 0 else addr' i := by
  intro j hj
  have hold := hc j hj
  rw [if_pos (Nat.zero_le j)]
  dsimp only
  by_cases hlt : ndaddr ≤ j
  · rw [if_pos hlt] at hold
    rw [← hold, htree j hlt hj, ite_self, nodes_zero, nodes_zero]
  · rw [if_neg hlt] at hold
    simp only [ndaddr] at hlt
    have hlevel : j - 3 = 0 := by lia
    have hstart : start j = j := by rw [start, if_neg (by lia), if_neg (by lia)]
    rw [hlevel, hstart] at hold ⊢
    rw [← hold]
    split
    · next habove => rw [nodes_zero, cutNodes_none habove]
    · next hbelow =>
      rw [cutNodes_all (by rw [pow_zero]; lia)]
      rfl

/-- **The part of `itrunc` after the partial block cuts the tree of the file.** -/
theorem shrink_nodes {ip : File} (length : Int) (h : Owned v l (treeOf v.blk ip.i_addr)) :
    nodesOf (shrink v ip length).2.blk (shrink v ip length).1.i_addr =
      cutNodes ((lblkno (length + devBsize - 1) : Int) - 1) (nodesOf v.blk ip.i_addr) := by
  unfold shrink
  dsimp only
  have hlt := lblkno_lt (length + devBsize - 1)
  generalize hlb : ((lblkno (length + devBsize - 1) : Nat) : Int) - 1 = lastblock
  have hle : lastblock < 2 ^ 22 := by lia
  have hn2 : ((nindir * nindir : Nat) : Int) = 65536 := by decide
  push_cast at hn2
  simp only [show ((ndaddr : Nat) : Int) = 4 from rfl, show ((nindir : Nat) : Int) = 256 from rfl]
  -- Each tree in turn, from the deepest on.
  have hc₁ := CutFrom.tree (i := 6) (lastblock - 4 - 256 - 256 * 256) (by decide) (by simp only [nindir]; lia)
    (by rw [start_six]; lia) h (CutFrom.refl lastblock v.blk ip.i_addr)
  obtain ⟨l₁, hm₁⟩ := @Moves.cut v l ip.i_addr 6 (lastblock - 4 - 256 - 256 * 256) (by decide)
    (by simp only [nindir]; lia) h
  simp only [show 6 - 3 = 3 from rfl] at hm₁ hc₁
  generalize trunctree 3 (ip.i_addr 6) (lastblock - 4 - 256 - 256 * 256) v = v₁ at hm₁ hc₁ ⊢
  have h₁ := h.moves hm₁
  split
  · next h6 =>
    refine (hc₁.congr fun i hi => ?_).done (by decide) (by rw [start_six]; lia)
    simp only [naddr] at hi
    simp only [Function.update_apply]
    interval_cases i <;> simp [naddr] <;> lia
  · next h6 =>
    have hc₂ := CutFrom.tree (i := 5) (lastblock - 4 - 256) (by decide) (by simp only [nindir]; lia)
      (by rw [start_five]; lia) h₁ hc₁
    obtain ⟨l₂, hm₂⟩ := @Moves.cut v₁ l₁ _ 5 (lastblock - 4 - 256) (by decide) (by simp only [nindir]; lia) h₁
    simp only [show 5 - 3 = 2 from rfl, Function.update_of_ne (show (5 : Nat) ≠ 6 by decide)] at hm₂ hc₂
    generalize trunctree 2 (ip.i_addr 5) (lastblock - 4 - 256) v₁ = v₂ at hm₂ hc₂ ⊢
    have h₂ := h₁.moves hm₂
    split
    · next h5 =>
      refine (hc₂.congr fun i hi => ?_).done (by decide) (by rw [start_five]; lia)
      simp only [naddr] at hi
      simp only [Function.update_apply]
      interval_cases i <;> simp [naddr] <;> lia
    · next h5 =>
      have hc₃ := CutFrom.tree (i := 4) (lastblock - 4) (by decide) (by simp only [nindir]; lia)
        (by rw [start_four]; lia) h₂ hc₂
      simp only [show 4 - 3 = 1 from rfl, Function.update_of_ne (show (4 : Nat) ≠ 6 by decide),
        Function.update_of_ne (show (4 : Nat) ≠ 5 by decide)] at hc₃
      generalize trunctree 1 (ip.i_addr 4) (lastblock - 4) v₂ = v₃ at hc₃ ⊢
      split
      · next h4 =>
        refine (hc₃.congr fun i hi => ?_).done (by decide) (by rw [start_four]; lia)
        simp only [naddr] at hi
        simp only [Function.update_apply]
        interval_cases i <;> simp [naddr] <;> lia
      · next h4 =>
        have hc₄ := hc₃.direct (truncdirect ip.i_addr lastblock v₃).blk fun i h₁ h₂ => by
          simp only [ndaddr, naddr] at h₁ h₂
          simp only [Function.update_apply]
          interval_cases i <;> simp <;> lia
        refine (hc₄.congr fun i hi => ?_).all
        simp only [naddr] at hi
        simp only [Function.update_apply]
        interval_cases i <;> simp [naddr] <;> lia

/-- What is left of a file that is cut to `n` blocks, and of the stack: the blocks of its tree that stand for something
    below stay where they are, and the others are on the stack. -/
structure Truncated (v : Volume) (l : List Nat) (ip : File) (n : Nat) (r : File × Volume) : Prop where
  mapped : ∀ bn, lookup r.2.blk r.1.i_addr bn = if bn < n then lookup v.blk ip.i_addr bn else 0
  kept : ∀ m, m ∈ nodesOf r.2.blk r.1.i_addr ↔ m ∈ nodesOf v.blk ip.i_addr ∧ m.first < n
  freed : ∃ l', Refines r.2 l' ∧
    ∀ b, b ∈ l' ↔ b ∈ l ∨ ∃ m ∈ nodesOf v.blk ip.i_addr, n ≤ m.first ∧ m.block = b

/-- `howmany(length, DEV_BSIZE)`. -/
def blocksIn (length : Int) : Nat := (length.toNat + (devBsize - 1)) / devBsize

theorem lblkno_up {length : Int} (h0 : 0 ≤ length) (hmax : length < 2 ^ 31) :
    lblkno (length + devBsize - 1) = blocksIn length := by
  unfold lblkno blocksIn devBsize
  lia

/-- The nodes that are kept say which blocks are mapped, and which are freed. -/
theorem Truncated.of_nodes {ip : File} {n : Nat} {r : File × Volume} {l' : List Nat}
    (h : Owned v l (treeOf v.blk ip.i_addr))
    (hm : Moves v l (treeOf v.blk ip.i_addr) r.2 l' (treeOf r.2.blk r.1.i_addr))
    (hk : ∀ m, m ∈ nodesOf r.2.blk r.1.i_addr ↔ m ∈ nodesOf v.blk ip.i_addr ∧ m.first < n) : Truncated v l ip n r := by
  have hmem : ∀ blk addr b, b ∈ treeOf blk addr ↔ ∃ m ∈ nodesOf blk addr, m.block = b := fun blk addr b => by
    rw [← nodesOf_blocks, List.mem_map]
  have hnodup := (h.moves hm).nodup
  refine ⟨fun bn => ?_, hk, l', hm.refines, fun b => ?_⟩
  · by_cases hz : lookup r.2.blk r.1.i_addr bn = 0
    · rw [hz]
      split
      · next hlt =>
        by_contra hne
        have hin := (hk ⟨_, bn, 0⟩).mpr ⟨mem_nodesOf.mpr ⟨rfl, fun h0 => hne h0.symm⟩, hlt⟩
        exact hne (hz.symm.trans (mem_nodesOf.mp hin).1)
      · rfl
    · obtain ⟨hold, hlt⟩ := (hk ⟨_, bn, 0⟩).mp (mem_nodesOf.mpr ⟨rfl, hz⟩)
      rw [if_pos hlt]
      exact (mem_nodesOf.mp hold).1.symm
  · have hin := hm.perm.mem_iff (a := b)
    rw [List.mem_append, List.mem_append] at hin
    have hgone : b ∈ treeOf v.blk ip.i_addr ∧ b ∉ treeOf r.2.blk r.1.i_addr ↔
        ∃ m ∈ nodesOf v.blk ip.i_addr, n ≤ m.first ∧ m.block = b := by
      constructor
      · rintro ⟨hold, hnew⟩
        obtain ⟨m, hm, rfl⟩ := (hmem _ _ b).mp hold
        refine ⟨m, hm, Nat.not_lt.mp fun hlt => hnew ((hmem _ _ _).mpr ⟨m, (hk m).mpr ⟨hm, hlt⟩, rfl⟩), rfl⟩
      · rintro ⟨m, hm, hle, rfl⟩
        refine ⟨(hmem _ _ _).mpr ⟨m, hm, rfl⟩, fun hnew => ?_⟩
        obtain ⟨m', hm', heq⟩ := (hmem _ _ _).mp hnew
        obtain ⟨hm', hlt⟩ := (hk m').mp hm'
        rw [node_unique (List.nodup_append.mp h.nodup).2.1 hm' hm heq] at hlt
        lia
    rw [← hgone]
    constructor
    · intro hb
      rcases hin.mp (.inl hb) with hl | ht
      · exact .inl hl
      · exact .inr ⟨ht, fun hnew => (List.nodup_append.mp hnodup).2.2 b hb b hnew rfl⟩
    · rintro (hl | ⟨ht, hnew⟩)
      · refine (hin.mpr (.inl hl)).resolve_right fun hnew => ?_
        obtain ⟨m', hm', heq⟩ := (hmem _ _ _).mp hnew
        have hold := (hmem _ _ b).mpr ⟨m', ((hk m').mp hm').1, heq⟩
        exact (List.nodup_append.mp h.nodup).2.2 b hl b hold rfl
      · exact (hin.mpr (.inr ht)).resolve_right hnew

theorem shrink_truncated {ip : File} {length : Int} (h0 : 0 ≤ length) (hmax : length < 2 ^ 31)
    (h : Owned v l (treeOf v.blk ip.i_addr)) : Truncated v l ip (blocksIn length) (shrink v ip length) := by
  obtain ⟨l', hm⟩ := shrink_moves length h
  refine .of_nodes h hm fun m => ?_
  rw [shrink_nodes length h, lblkno_up h0 hmax, cutNodes, List.mem_filter, decide_eq_true_eq]
  refine and_congr_right fun _ => ?_
  lia

theorem shrink_size (v : Volume) (ip : File) (length : Int) : (shrink v ip length).1.i_size = length := by
  unfold shrink
  dsimp only
  split
  · rfl
  · split
    · rfl
    · split <;> rfl

/-- A cut after a data block is written is one of the tree before. -/
theorem Truncated.write {ip : File} {n bn : Nat} {r : File × Volume} (hn : (treeOf v.blk ip.i_addr).Nodup)
    (hz : lookup v.blk ip.i_addr bn ≠ 0) (w : Nat → Nat)
    (ht : Truncated (v.setBlk (lookup v.blk ip.i_addr bn) w) l ip n r) : Truncated v l ip n r := by
  have hnodes : nodesOf (v.setBlk (lookup v.blk ip.i_addr bn) w).blk ip.i_addr = nodesOf v.blk ip.i_addr :=
    nodesOf_write hn hz w
  refine ⟨fun bn => ?_, fun m => ?_, ?_⟩
  · rw [ht.mapped, lookup_congr hnodes]
  · rw [ht.kept, hnodes]
  · rw [← hnodes]
    exact ht.freed

/-- A file whose tree is the same after a call of `bmap`. -/
theorem Truncated.same {ip ip₁ : File} {v₁ : Volume} {n : Nat} {r : File × Volume}
    (hnodes : ∀ m, m ∈ nodesOf v₁.blk ip₁.i_addr ↔ m ∈ nodesOf v.blk ip.i_addr)
    (hmap : ∀ bn, lookup v₁.blk ip₁.i_addr bn = lookup v.blk ip.i_addr bn) (ht : Truncated v₁ l ip₁ n r) :
    Truncated v l ip n r := by
  obtain ⟨l', hl', hfreed⟩ := ht.freed
  refine ⟨fun bn => by rw [ht.mapped, hmap], fun m => by rw [ht.kept, hnodes], l', hl', fun b => ?_⟩
  rw [hfreed]
  simp only [hnodes]

/-- The size that `itrunc` goes by: a pipe has that of a full one. -/
def File.extent (ip : File) : Int := if ip.pipe then maxpipsiz else ip.i_size

/-- The file with that size. -/
def File.full (ip : File) : File := if ip.pipe then { ip with i_size := maxpipsiz } else ip

theorem full_addr (ip : File) : ip.full.i_addr = ip.i_addr := by
  unfold File.full
  split <;> rfl

theorem full_size (ip : File) : ip.full.i_size = ip.extent := by
  unfold File.full File.extent
  split <;> rfl

/-- Below the size, `itrunc` clears the end of the block that the new end is in, and then cuts. -/
theorem itrunc_below {ip : File} {u_error : Bool} {length : Int} (h0 : 0 ≤ length) (hlt : length < ip.extent) :
    itrunc u_error v ip length = if blkoff length ≠ 0 then
      match bmap v ip.full (lblkno length) true true with
      | (.blk bn, ip, v) =>
        if u_error then (ip, v) else shrink (v.setBlk bn (clearFrom (blkoff length) (v.blk bn))) ip length
      | (_, ip, v) => (ip, v)
    else shrink v ip.full length := by
  have hsize := full_size ip
  have hsame : ¬ (ip.pipe = false ∧ ip.i_size = length) := by
    rintro ⟨hp, heq⟩
    rw [File.extent, hp] at hlt
    simp only [Bool.false_eq_true, if_false] at hlt
    lia
  have hbig : ¬ ip.full.i_size < length := by lia
  have hfull : (if ip.pipe = true then { ip with i_size := maxpipsiz } else ip) = ip.full := rfl
  unfold itrunc
  rw [if_neg (Int.not_lt.mpr h0), if_neg hsame]
  dsimp only
  rewrite [hfull, if_neg hbig]
  generalize bmap v ip.full (lblkno length) true true = r
  obtain ⟨x, y, z⟩ := r
  cases x with
  | blk b => rfl
  | none => rfl
  | efbig => rfl

end

/-- A file of two blocks that are holes. -/
def holes : File := ⟨some .reg, 1, 2048, fun _ => 0, false, false⟩

theorem holes_owned : Owned oneBlock.vol [2] (treeOf oneBlock.vol.blk holes.i_addr) := by
  have hnone : treeOf oneBlock.vol.blk holes.i_addr = [] := forest_nil fun _ _ => rfl
  rw [hnone]
  exact ⟨oneBlock_parted.refines, by decide, by simp⟩

end DiscoBSD.Ufs
