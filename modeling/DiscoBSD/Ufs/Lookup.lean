import DiscoBSD.Ufs.Tree

/-!
# Which block is where

A logical block has its place in the tree of a file by its number alone. `lookup` follows the pointers to it, and
`nodesOf` lists the blocks of the tree with the logical blocks they stand for. **The two say the same** of the data
blocks, and the list is that of `treeOf`, so no block serves two logical ones when the tree has no block twice.
-/

set_option autoImplicit false

namespace DiscoBSD.Ufs

/-- The block that the pointers under `nb` lead to, `k` levels down; 0 is a hole. -/
def entry (blk : Nat → Nat → Nat) : Nat → Nat → Nat → Nat
  | 0, nb, _ => nb
  | k + 1, nb, bn => if nb = 0 then 0 else entry blk k (blk nb (bn / nindir ^ k % nindir)) bn

/-- The address of a file that leads to a logical block, and its number under there. -/
def slot (bn : Nat) : Option (Nat × Nat) :=
  if bn < ndaddr then some (bn, 0) else (indirection (bn - ndaddr)).map fun p => (ndaddr - 1 + p.1, p.2)

/-- The block of a logical block. -/
def lookup (blk : Nat → Nat → Nat) (addr : Nat → Nat) (bn : Nat) : Nat :=
  match slot bn with
  | none => 0
  | some (i, n) => entry blk (i - 3) (addr i) n

/-- A block of a tree, the first logical block under it, and how many levels of pointers there are. -/
structure Node where
  block : Nat
  first : Nat
  level : Nat
  deriving DecidableEq, Repr

/-- The blocks under `nb`, with their places. -/
def nodes (blk : Nat → Nat → Nat) : Nat → Nat → Nat → List Node
  | 0, nb, first => if nb = 0 then [] else [⟨nb, first, 0⟩]
  | k + 1, nb, first =>
    if nb = 0 then []
    else ⟨nb, first, k + 1⟩ :: (List.range nindir).flatMap fun i => nodes blk k (blk nb i) (first + i * nindir ^ k)

/-- The first logical block under an address of a file. -/
def start (i : Nat) : Nat :=
  if i = 5 then ndaddr + nindir else if i = 6 then ndaddr + nindir + nindir ^ 2 else i

/-- The places on the way down to a logical block that have no block: the first one under each, and its level. -/
def missing (blk : Nat → Nat → Nat) : Nat → Nat → Nat → Nat → List (Nat × Nat)
  | 0, nb, first, _ => if nb = 0 then [(first, 0)] else []
  | k + 1, nb, first, bn =>
    let i := bn / nindir ^ k % nindir
    if nb = 0 then (first, k + 1) :: missing blk k 0 (first + i * nindir ^ k) bn
    else missing blk k (blk nb i) (first + i * nindir ^ k) bn

/-- The places that a logical block needs and the file does not have. -/
def missingOf (blk : Nat → Nat → Nat) (addr : Nat → Nat) (bn : Nat) : List (Nat × Nat) :=
  match slot bn with
  | none => []
  | some (i, n) => missing blk (i - 3) (addr i) (start i) n

/-- The place of a node. -/
def Node.place (m : Node) : Nat × Nat := (m.first, m.level)

/-- The blocks of a file, with their places. -/
def nodesOf (blk : Nat → Nat → Nat) (addr : Nat → Nat) : List Node :=
  (List.range naddr).flatMap fun i => nodes blk (i - 3) (addr i) (start i)

section

variable {blk blk' : Nat → Nat → Nat} {addr : Nat → Nat} {k nb first bn : Nat}

@[simp] theorem nodes_zero (blk : Nat → Nat → Nat) (k first : Nat) : nodes blk k 0 first = [] := by
  cases k <;> simp [nodes]

@[simp] theorem entry_zero (blk : Nat → Nat → Nat) (k bn : Nat) : entry blk k 0 bn = 0 := by
  cases k <;> simp [entry]

theorem nodes_succ (hz : nb ≠ 0) (first : Nat) :
    nodes blk (k + 1) nb first = ⟨nb, first, k + 1⟩ ::
      (List.range nindir).flatMap fun i => nodes blk k (blk nb i) (first + i * nindir ^ k) := by
  simp only [nodes, if_neg hz]

theorem entry_succ (hz : nb ≠ 0) :
    entry blk (k + 1) nb bn = entry blk k (blk nb (bn / nindir ^ k % nindir)) bn := by
  simp only [entry, if_neg hz]

/-- The nodes are the blocks of the tree. -/
theorem nodes_blocks (blk : Nat → Nat → Nat) (k nb first : Nat) :
    (nodes blk k nb first).map Node.block = blocksAt blk k nb := by
  induction k generalizing nb first with
  | zero =>
    simp only [nodes, blocksAt]
    split <;> rfl
  | succ k ih =>
    simp only [nodes, blocksAt]
    split
    · rfl
    · rw [List.map_cons, List.map_flatMap]
      simp only [ih]

theorem nodesOf_blocks (blk : Nat → Nat → Nat) (addr : Nat → Nat) :
    (nodesOf blk addr).map Node.block = treeOf blk addr := by
  rw [nodesOf, List.map_flatMap]
  simp only [nodes_blocks]
  rfl

/-- A node stands for logical blocks in the range of its tree. -/
theorem nodes_first {m : Node} (h : m ∈ nodes blk k nb first) :
    first ≤ m.first ∧ m.first < first + nindir ^ k := by
  induction k generalizing nb first with
  | zero =>
    simp only [nodes] at h
    split at h
    · cases h
    · rw [List.mem_singleton] at h
      rw [h]
      exact ⟨Nat.le_refl _, Nat.lt_succ_self _⟩
  | succ k ih =>
    have hpos : 0 < nindir ^ (k + 1) := Nat.pos_of_ne_zero (by simp [nindir])
    by_cases hz : nb = 0
    · rw [hz, nodes_zero] at h
      cases h
    · rw [nodes_succ hz] at h
      rcases List.mem_cons.mp h with rfl | h
      · exact ⟨Nat.le_refl _, Nat.lt_add_of_pos_right hpos⟩
      · obtain ⟨i, hi, hm⟩ := List.mem_flatMap.mp h
        obtain ⟨hle, hlt⟩ := ih hm
        have hslot : (i + 1) * nindir ^ k ≤ nindir * nindir ^ k :=
          Nat.mul_le_mul_right _ (List.mem_range.mp hi)
        rw [Nat.succ_mul, ← pow_succ'] at hslot
        exact ⟨by omega, by omega⟩

/-- Only the blocks of pointers are read to find the nodes. -/
theorem nodes_frame (h : ∀ m ∈ nodes blk k nb first, m.level ≠ 0 → blk' m.block = blk m.block) :
    nodes blk' k nb first = nodes blk k nb first := by
  induction k generalizing nb first with
  | zero => rfl
  | succ k ih =>
    by_cases hz : nb = 0
    · simp [hz]
    · rw [nodes_succ hz] at h ⊢
      rw [nodes_succ hz, h _ List.mem_cons_self (Nat.succ_ne_zero k)]
      congr 1
      refine List.flatMap_congr fun i hi => ih fun m hm => h m (List.mem_cons_of_mem _ ?_)
      exact List.mem_flatMap.mpr ⟨i, hi, hm⟩

theorem mem_blocksAt {m : Node} (h : m ∈ nodes blk k nb first) : m.block ∈ blocksAt blk k nb := by
  rw [← nodes_blocks blk k nb first]
  exact List.mem_map_of_mem h

theorem nodesOf_frame (h : ∀ m ∈ nodesOf blk addr, m.level ≠ 0 → blk' m.block = blk m.block) :
    nodesOf blk' addr = nodesOf blk addr :=
  List.flatMap_congr fun i hi => nodes_frame fun m hm => h m (List.mem_flatMap.mpr ⟨i, hi, hm⟩)

theorem missing_succ (hz : nb ≠ 0) : missing blk (k + 1) nb first bn =
    missing blk k (blk nb (bn / nindir ^ k % nindir)) (first + bn / nindir ^ k % nindir * nindir ^ k) bn := by
  simp only [missing, if_neg hz]

/-- Under no block a place is missing. -/
theorem missing_pos (blk : Nat → Nat → Nat) (k first bn : Nat) : 0 < (missing blk k 0 first bn).length := by
  cases k <;> exact Nat.succ_pos _

/-- A cleared block fills the first of the places, and no other. -/
theorem missing_hung (hz : nb ≠ 0) (hclr : k = 0 ∨ ∀ i, blk' nb i = 0) :
    missing blk k 0 first bn = (first, k) :: missing blk' k nb first bn := by
  cases k with
  | zero => simp only [missing, if_true, if_neg hz]
  | succ k =>
    have hclr := hclr.resolve_left (Nat.succ_ne_zero k)
    have hnone : ∀ (k first : Nat), missing blk' k 0 first bn = missing blk k 0 first bn := by
      intro k
      induction k with
      | zero => exact fun _ => rfl
      | succ k ih =>
        intro first
        simp only [missing, if_true, ih]
    rw [missing_succ hz, hclr, hnone]
    simp only [missing, if_true]

/-- The data block comes last of the places, and is that of the number. -/
theorem missing_data {f j : Nat} (h : (f, 0) ∈ (missing blk k nb first bn).take j) :
    f = first + bn % nindir ^ k ∧ (missing blk k nb first bn).length ≤ j := by
  induction k generalizing nb first j with
  | zero =>
    simp only [missing] at h ⊢
    split at h
    · next hz =>
      rw [if_pos hz]
      cases j with
      | zero => cases h
      | succ j =>
        rw [List.take_succ_cons, List.take_nil, List.mem_singleton] at h
        cases h
        exact ⟨by rw [pow_zero, Nat.mod_one, Nat.add_zero], Nat.succ_le_succ (Nat.zero_le j)⟩
    · rw [List.take_nil] at h
      cases h
  | succ k ih =>
    have hsum : ∀ first, first + bn / nindir ^ k % nindir * nindir ^ k + bn % nindir ^ k =
        first + bn % nindir ^ (k + 1) := by
      intro first
      rw [Nat.mod_pow_succ, Nat.mul_comm, Nat.add_assoc, Nat.add_comm (_ * _)]
    simp only [missing] at h ⊢
    split at h
    · next hz =>
      rw [if_pos hz]
      cases j with
      | zero => cases h
      | succ j =>
        rw [List.take_succ_cons] at h
        rcases List.mem_cons.mp h with h | h
        · cases h
        · obtain ⟨hf, hlen⟩ := ih h
          exact ⟨hf.trans (hsum first), Nat.succ_le_succ hlen⟩
    · next hz =>
      rw [if_neg hz]
      obtain ⟨hf, hlen⟩ := ih h
      exact ⟨hf.trans (hsum first), hlen⟩

/-- A block that got a cleared block for one of its holes: the new node, and the old ones. -/
theorem mem_nodes_hung {i b : Nat} (hz : nb ≠ 0) (hi : i < nindir) (hb : b ≠ 0) (hc : blk nb i = 0)
    (hnb : blk' nb = Function.update (blk nb) i b) (hclr : k = 0 ∨ ∀ i, blk' b i = 0)
    (hsame : ∀ j < nindir, j ≠ i → ∀ c ∈ blocksAt blk k (blk nb j), blk' c = blk c) {m : Node} :
    m ∈ nodes blk' (k + 1) nb first ↔
      m ∈ nodes blk (k + 1) nb first ∨ m = ⟨b, first + i * nindir ^ k, k⟩ := by
  have hnew : nodes blk' k b (first + i * nindir ^ k) = [⟨b, first + i * nindir ^ k, k⟩] := by
    cases k with
    | zero => simp only [nodes, if_neg hb]
    | succ k =>
      rw [nodes_succ hb, List.flatMap_eq_nil_iff.mpr fun j _ => ?_]
      rw [hclr.resolve_left (Nat.succ_ne_zero k), nodes_zero]
  have hold : ∀ j ∈ List.range nindir, j ≠ i →
      nodes blk' k (blk' nb j) (first + j * nindir ^ k) = nodes blk k (blk nb j) (first + j * nindir ^ k) := by
    intro j hj hji
    rw [hnb, Function.update_of_ne hji]
    exact nodes_frame fun m hm _ => hsame j (List.mem_range.mp hj) hji m.block (mem_blocksAt hm)
  rw [nodes_succ hz, nodes_succ hz, List.mem_cons, List.mem_cons, List.mem_flatMap, List.mem_flatMap]
  constructor
  · rintro (rfl | ⟨j, hj, hm⟩)
    · exact .inl (.inl rfl)
    · by_cases hji : j = i
      · subst hji
        rw [hnb, Function.update_self, hnew, List.mem_singleton] at hm
        exact .inr hm
      · rw [hold j hj hji] at hm
        exact .inl (.inr ⟨j, hj, hm⟩)
  · rintro ((rfl | ⟨j, hj, hm⟩) | rfl)
    · exact .inl rfl
    · refine .inr ⟨j, hj, ?_⟩
      rwa [hold j hj fun hji => by rw [hji, hc, nodes_zero] at hm; cases hm]
    · refine .inr ⟨i, List.mem_range.mpr hi, ?_⟩
      rw [hnb, Function.update_self, hnew]
      exact List.mem_singleton.mpr rfl

/-- The path to a logical block: the digits of its number. -/
theorem digits (i n : Nat) (hn : n < nindir ^ k) (hi : i < nindir) :
    (i * nindir ^ k + n) / nindir ^ k % nindir = i ∧ (i * nindir ^ k + n) % nindir ^ k = n := by
  have hpos : 0 < nindir ^ k := Nat.pos_of_ne_zero (by simp [nindir])
  rw [Nat.mul_comm, Nat.mul_add_div hpos, Nat.div_eq_of_lt hn, Nat.add_zero, Nat.mod_eq_of_lt hi,
    Nat.mul_add_mod, Nat.mod_eq_of_lt hn]
  exact ⟨rfl, rfl⟩

/-- The highest digit and the others. -/
theorem mod_eq_iff (n n' : Nat) : n % nindir ^ (k + 1) = n' % nindir ^ (k + 1) ↔
    n / nindir ^ k % nindir = n' / nindir ^ k % nindir ∧ n % nindir ^ k = n' % nindir ^ k := by
  constructor
  · intro h
    constructor
    · rw [← Nat.mod_mul_right_div_self, ← pow_succ, h, pow_succ, Nat.mod_mul_right_div_self]
    · rw [← Nat.mod_mul_right_mod n _ nindir, ← pow_succ, h, pow_succ, Nat.mod_mul_right_mod]
  · rintro ⟨hdigit, hrest⟩
    rw [Nat.mod_pow_succ, Nat.mod_pow_succ, hdigit, hrest]

/-- Only the lower digits of the number count. -/
theorem entry_congr {bn' : Nat} (h : bn % nindir ^ k = bn' % nindir ^ k) : entry blk k nb bn = entry blk k nb bn' := by
  induction k generalizing nb with
  | zero => rfl
  | succ k ih =>
    obtain ⟨hdigit, hrest⟩ := (mod_eq_iff bn bn').mp h
    simp only [entry]
    rw [hdigit, ih hrest]

theorem entry_mod (blk : Nat → Nat → Nat) (k nb bn : Nat) : entry blk k nb (bn % nindir ^ k) = entry blk k nb bn :=
  entry_congr (Nat.mod_mod _ _)

/-- **The data nodes of a tree are what its pointers lead to.** -/
theorem mem_nodes {p f : Nat} : ⟨p, f, 0⟩ ∈ nodes blk k nb first ↔
    ∃ n < nindir ^ k, f = first + n ∧ entry blk k nb n = p ∧ p ≠ 0 := by
  induction k generalizing nb first with
  | zero =>
    simp only [nodes, entry, pow_zero]
    constructor
    · intro h
      by_cases hz : nb = 0
      · rw [if_pos hz] at h
        cases h
      · rw [if_neg hz, List.mem_singleton, Node.mk.injEq] at h
        obtain ⟨rfl, rfl, -⟩ := h
        exact ⟨0, Nat.one_pos, rfl, rfl, hz⟩
    · rintro ⟨n, hn, rfl, rfl, hp⟩
      obtain rfl : n = 0 := by omega
      rw [if_neg hp]
      exact List.mem_singleton.mpr rfl
  | succ k ih =>
    by_cases hz : nb = 0
    · rw [hz, nodes_zero]
      constructor
      · intro h
        cases h
      · rintro ⟨n, -, -, he, hp⟩
        rw [entry_zero] at he
        exact absurd he.symm hp
    · rw [nodes_succ hz, List.mem_cons]
      constructor
      · rintro (h | h)
        · cases h
        · obtain ⟨i, hi, hm⟩ := List.mem_flatMap.mp h
          obtain ⟨n, hn, hf, he, hp⟩ := ih.mp hm
          have hi := List.mem_range.mp hi
          obtain ⟨hdiv, hmod⟩ := digits i n hn hi
          have hslot : (i + 1) * nindir ^ k ≤ nindir * nindir ^ k := Nat.mul_le_mul_right _ hi
          rw [Nat.succ_mul, ← pow_succ'] at hslot
          refine ⟨i * nindir ^ k + n, by omega, by omega, ?_, hp⟩
          rw [entry_succ hz, hdiv, ← entry_mod, hmod, he]
      · rintro ⟨n, hn, hf, he, hp⟩
        have hpos : 0 < nindir ^ k := Nat.pos_of_ne_zero (by simp [nindir])
        have hi : n / nindir ^ k < nindir := Nat.div_lt_of_lt_mul (by rwa [← pow_succ])
        rw [entry_succ hz, Nat.mod_eq_of_lt hi] at he
        refine .inr (List.mem_flatMap.mpr ⟨n / nindir ^ k, List.mem_range.mpr hi, ih.mpr ?_⟩)
        refine ⟨n % nindir ^ k, Nat.mod_lt _ hpos, ?_, by rw [entry_mod]; exact he, hp⟩
        have := Nat.div_add_mod' n (nindir ^ k)
        omega

theorem start_four : start 4 = 4 := rfl

theorem start_five : start 5 = 260 := rfl

theorem start_six : start 6 = 65796 := rfl

theorem nindir_two : nindir ^ 2 = 65536 := rfl

theorem nindir_three : nindir ^ 3 = 16777216 := rfl

/-- A logical block is in the range of its address. -/
theorem slot_some {i n : Nat} (h : slot bn = some (i, n)) : i < naddr ∧ n < nindir ^ (i - 3) ∧ bn = start i + n := by
  unfold slot at h
  split at h
  · next hlt =>
    simp only [ndaddr] at hlt
    cases h
    refine ⟨by simp only [naddr]; omega, Nat.pos_of_ne_zero (by simp [nindir]), ?_⟩
    rw [start, if_neg (by omega), if_neg (by omega), Nat.add_zero]
  · next hge =>
    have hd : ndaddr = 4 := rfl
    have hn : nindir = 256 := rfl
    obtain ⟨⟨k, m⟩, hind, heq⟩ := Option.map_eq_some_iff.mp h
    cases heq
    unfold indirection at hind
    rw [nindir_two, nindir_three] at hind
    split at hind
    · next hm =>
      cases hind
      refine ⟨show 4 < 7 by decide, show bn - ndaddr < nindir ^ 1 by rwa [pow_one], ?_⟩
      rw [show ndaddr - 1 + 1 = 4 from rfl, start_four]
      omega
    · split at hind
      · next hm =>
        cases hind
        refine ⟨show 5 < 7 by decide, hm, ?_⟩
        rw [show ndaddr - 1 + 2 = 5 from rfl, start_five]
        omega
      · split at hind
        · next hm =>
          cases hind
          refine ⟨show 6 < 7 by decide, hm, ?_⟩
          rw [show ndaddr - 1 + 3 = 6 from rfl, start_six]
          omega
        · cases hind

/-- And a number under an address is that of a logical block. -/
theorem slot_start {i n : Nat} (hi : i < naddr) (hn : n < nindir ^ (i - 3)) : slot (start i + n) = some (i, n) := by
  simp only [naddr] at hi
  interval_cases i
  · obtain rfl : n = 0 := by simpa using hn
    rfl
  · obtain rfl : n = 0 := by simpa using hn
    rfl
  · obtain rfl : n = 0 := by simpa using hn
    rfl
  · obtain rfl : n = 0 := by simpa using hn
    rfl
  · have hn : n < 256 := hn
    have hind : indirection (4 + n - 4) = some (1, n) := by
      rw [Nat.add_sub_cancel_left, indirection]
      exact if_pos hn
    rw [start_four, slot, if_neg (by simp only [ndaddr]; omega), ndaddr, hind]
    rfl
  · have hn : n < 65536 := hn
    have hind : indirection (260 + n - 4) = some (2, n) := by
      rw [show 260 + n - 4 = 256 + n by omega, indirection, if_neg (by simp only [nindir]; omega), nindir_two]
      simp only [nindir, Nat.add_sub_cancel_left, if_pos hn]
    rw [start_five, slot, if_neg (by simp only [ndaddr]; omega), ndaddr, hind]
    rfl
  · have hn : n < 16777216 := hn
    have hind : indirection (65796 + n - 4) = some (3, n) := by
      rw [show 65796 + n - 4 = 256 + (65536 + n) by omega, indirection, if_neg (by simp only [nindir]; omega),
        nindir_two, nindir_three]
      simp only [nindir, Nat.add_sub_cancel_left, if_pos hn]
      rw [if_neg (by omega)]
    rw [start_six, slot, if_neg (by simp only [ndaddr]; omega), ndaddr, hind]
    rfl

theorem lookup_start {i n : Nat} (hi : i < naddr) (hn : n < nindir ^ (i - 3)) :
    lookup blk addr (start i + n) = entry blk (i - 3) (addr i) n := by
  rw [lookup, slot_start hi hn]

theorem missingOf_data {f j : Nat} (h : (f, 0) ∈ (missingOf blk addr bn).take j) :
    f = bn ∧ (missingOf blk addr bn).length ≤ j := by
  unfold missingOf at h ⊢
  cases hs : slot bn with
  | none =>
    rw [hs, List.take_nil] at h
    cases h
  | some p =>
    obtain ⟨-, hn, heq⟩ := slot_some hs
    rw [hs] at h
    obtain ⟨hf, hlen⟩ := missing_data h
    rw [Nat.mod_eq_of_lt hn] at hf
    exact ⟨hf.trans heq.symm, hlen⟩

theorem missingOf_start {i n : Nat} (hi : i < naddr) (hn : n < nindir ^ (i - 3)) :
    missingOf blk addr (start i + n) = missing blk (i - 3) (addr i) (start i) n := by
  rw [missingOf, slot_start hi hn]

/-- A logical block has its place, or there is none for it. -/
theorem place_or (bn : Nat) : (∃ i < naddr, ∃ n < nindir ^ (i - 3), bn = start i + n) ∨
    ∀ blk addr, lookup blk addr bn = 0 := by
  cases h : slot bn with
  | none => exact .inr fun blk addr => by rw [lookup, h]
  | some p =>
    obtain ⟨hi, hn, heq⟩ := slot_some h
    exact .inl ⟨p.1, hi, p.2, hn, heq⟩

/-- The places under one address come before those under the next. -/
theorem start_next {i : Nat} (hi : i + 1 < naddr) : start (i + 1) = start i + nindir ^ (i - 3) := by
  simp only [naddr] at hi
  have hi : i < 6 := by omega
  interval_cases i <;> rfl

theorem start_mono {i j : Nat} (hij : i ≤ j) (hj : j < naddr) : start i ≤ start j := by
  induction hij with
  | refl => exact Nat.le_refl _
  | step _ ih =>
    rw [start_next hj]
    exact Nat.le_add_right_of_le (ih (Nat.lt_of_succ_lt hj))

/-- **The data blocks of a file are those of its logical blocks.** -/
theorem mem_nodesOf {p : Nat} : ⟨p, bn, 0⟩ ∈ nodesOf blk addr ↔ lookup blk addr bn = p ∧ p ≠ 0 := by
  constructor
  · intro h
    obtain ⟨i, hi, hm⟩ := List.mem_flatMap.mp h
    obtain ⟨n, hn, rfl, he, hp⟩ := mem_nodes.mp hm
    exact ⟨(lookup_start (List.mem_range.mp hi) hn).trans he, hp⟩
  · rintro ⟨rfl, hp⟩
    obtain ⟨i, hi, n, hn, rfl⟩ := (place_or bn).resolve_right fun h => hp (h blk addr)
    refine List.mem_flatMap.mpr ⟨i, List.mem_range.mpr hi, mem_nodes.mpr ⟨n, hn, rfl, ?_, hp⟩⟩
    exact (lookup_start hi hn).symm

/-- The range of the tree. -/
theorem slot_none : slot bn = none ↔ ndaddr + nindir + nindir ^ 2 + nindir ^ 3 ≤ bn := by
  have hd : ndaddr = 4 := rfl
  have hn : nindir = 256 := rfl
  unfold slot
  rw [indirection, nindir_two, nindir_three]
  split
  · simp only [reduceCtorEq, false_iff]
    omega
  · split
    · simp only [Option.map_some, reduceCtorEq, false_iff]
      omega
    · split
      · simp only [Option.map_some, reduceCtorEq, false_iff]
        omega
      · split
        · simp only [Option.map_some, reduceCtorEq, false_iff]
          omega
        · simp only [Option.map_none, true_iff]
          omega

/-- The numbers of blocks of a file are in it. -/
theorem slot_lblkno (n : Int) : slot (lblkno n) ≠ none := by
  intro h
  have hge := slot_none.mp h
  have hlt : lblkno n < 2 ^ 22 := by
    unfold lblkno devBsize
    omega
  rw [nindir_two, nindir_three] at hge
  omega

/-- A missing place is in the range of its tree. -/
theorem missing_range {p : Nat × Nat} (h : p ∈ missing blk k nb first bn) :
    first ≤ p.1 ∧ p.1 < first + nindir ^ k ∧ p.2 ≤ k := by
  induction k generalizing nb first with
  | zero =>
    simp only [missing] at h
    split at h
    · rw [List.mem_singleton] at h
      rw [h]
      exact ⟨Nat.le_refl _, Nat.lt_succ_self _, Nat.le_refl _⟩
    · cases h
  | succ k ih =>
    have hidx : bn / nindir ^ k % nindir < nindir := Nat.mod_lt _ (by decide)
    have hpos : 0 < nindir ^ (k + 1) := Nat.pos_of_ne_zero (by simp [nindir])
    have hslot : (bn / nindir ^ k % nindir + 1) * nindir ^ k ≤ nindir * nindir ^ k := Nat.mul_le_mul_right _ hidx
    rw [Nat.succ_mul, ← pow_succ'] at hslot
    have hrest : ∀ {nb}, p ∈ missing blk k nb (first + bn / nindir ^ k % nindir * nindir ^ k) bn →
        first ≤ p.1 ∧ p.1 < first + nindir ^ (k + 1) ∧ p.2 ≤ k + 1 := by
      intro nb hm
      obtain ⟨hle, hlt, hlevel⟩ := ih hm
      exact ⟨by omega, by omega, by omega⟩
    simp only [missing] at h
    split at h
    · rcases List.mem_cons.mp h with rfl | h
      · exact ⟨Nat.le_refl _, Nat.lt_add_of_pos_right hpos, Nat.le_refl _⟩
      · exact hrest h
    · exact hrest h

theorem missing_nodup (blk : Nat → Nat → Nat) (k nb first bn : Nat) : (missing blk k nb first bn).Nodup := by
  induction k generalizing nb first with
  | zero =>
    simp only [missing]
    split
    · exact List.nodup_singleton _
    · exact List.nodup_nil
  | succ k ih =>
    simp only [missing]
    split
    · refine List.nodup_cons.mpr ⟨fun h => ?_, ih ..⟩
      exact Nat.not_succ_le_self k (missing_range h).2.2
    · exact ih ..

theorem missing_zero (blk : Nat → Nat → Nat) (k first bn : Nat) :
    missing blk k 0 first bn = missing (fun _ _ => 0) k 0 first bn := by
  induction k generalizing first with
  | zero => rfl
  | succ k ih => simp only [missing, if_true, ih]

/-- **The missing places are those on the way down where no block stands.** -/
theorem mem_missing {p : Nat × Nat} : p ∈ missing blk k nb first bn ↔
    p ∈ missing (fun _ _ => 0) k 0 first bn ∧ ∀ m ∈ nodes blk k nb first, m.place ≠ p := by
  induction k generalizing nb first with
  | zero =>
    simp only [missing, nodes, if_true]
    by_cases hz : nb = 0
    · rw [if_pos hz, if_pos hz]
      exact ⟨fun h => ⟨h, fun m hm => absurd hm List.not_mem_nil⟩, And.left⟩
    · rw [if_neg hz, if_neg hz]
      constructor
      · intro h
        cases h
      · rintro ⟨hp, hno⟩
        exact absurd (List.mem_singleton.mp hp).symm (hno _ List.mem_cons_self)
  | succ k ih =>
    by_cases hz : nb = 0
    · rw [hz, nodes_zero, missing_zero]
      exact ⟨fun h => ⟨h, fun m hm => absurd hm List.not_mem_nil⟩, And.left⟩
    · rw [missing_succ hz, nodes_succ hz, ih]
      simp only [missing, if_true]
      have hidx : bn / nindir ^ k % nindir < nindir := Nat.mod_lt _ (by decide)
      constructor
      · rintro ⟨hp, hno⟩
        obtain ⟨hle, hlt, hlevel⟩ := missing_range hp
        refine ⟨List.mem_cons_of_mem _ hp, fun m hm => ?_⟩
        rcases List.mem_cons.mp hm with rfl | hm
        · rintro rfl
          exact Nat.not_succ_le_self k hlevel
        · obtain ⟨i, hi, hm⟩ := List.mem_flatMap.mp hm
          by_cases hne : i = bn / nindir ^ k % nindir
          · subst hne
            exact hno m hm
          · rintro rfl
            obtain ⟨hle', hlt'⟩ := nodes_first hm
            have hstep : ∀ {a b : Nat}, a < b → (a + 1) * nindir ^ k ≤ b * nindir ^ k := fun h =>
              Nat.mul_le_mul_right _ h
            simp only [Node.place] at hle hlt
            rcases Nat.lt_or_gt_of_ne hne with h | h
            · have := hstep h
              rw [Nat.succ_mul] at this
              omega
            · have := hstep h
              rw [Nat.succ_mul] at this
              omega
      · rintro ⟨hp, hno⟩
        rcases List.mem_cons.mp hp with rfl | hp
        · exact absurd rfl (hno _ List.mem_cons_self)
        · refine ⟨hp, fun m hm => hno m (List.mem_cons_of_mem _ ?_)⟩
          exact List.mem_flatMap.mpr ⟨_, List.mem_range.mpr hidx, hm⟩

theorem missingOf_nodup (blk : Nat → Nat → Nat) (addr : Nat → Nat) (bn : Nat) : (missingOf blk addr bn).Nodup := by
  unfold missingOf
  split
  · exact List.nodup_nil
  · exact missing_nodup ..

theorem mem_missingOf {p : Nat × Nat} : p ∈ missingOf blk addr bn ↔
    p ∈ missingOf (fun _ _ => 0) (fun _ => 0) bn ∧ ∀ m ∈ nodesOf blk addr, m.place ≠ p := by
  unfold missingOf
  cases hs : slot bn with
  | none => exact ⟨fun h => absurd h List.not_mem_nil, fun h => absurd h.1 List.not_mem_nil⟩
  | some q =>
    obtain ⟨i, n⟩ := q
    obtain ⟨hi, -, -⟩ := slot_some hs
    simp only
    rw [mem_missing]
    refine and_congr_right fun hp => ⟨fun hno m hm => ?_, fun hno m hm => ?_⟩
    · obtain ⟨j, hj, hm⟩ := List.mem_flatMap.mp hm
      have hj := List.mem_range.mp hj
      by_cases hne : j = i
      · subst hne
        exact hno m hm
      · -- The ranges of two addresses are apart.
        rintro rfl
        obtain ⟨hle, hlt, -⟩ := missing_range hp
        obtain ⟨hle', hlt'⟩ := nodes_first hm
        simp only [Node.place] at hle hlt
        rcases Nat.lt_or_gt_of_ne hne with h | h
        · have hnext := start_mono h hi
          rw [Nat.succ_eq_add_one, start_next (Nat.lt_of_le_of_lt h hi)] at hnext
          omega
        · have hnext := start_mono h hj
          rw [Nat.succ_eq_add_one, start_next (Nat.lt_of_le_of_lt h hj)] at hnext
          omega
    · exact hno m (List.mem_flatMap.mpr ⟨i, List.mem_range.mpr hi, hm⟩)

/-- Two trees with the same nodes map the same blocks. -/
theorem lookup_congr {addr' : Nat → Nat} (h : nodesOf blk' addr' = nodesOf blk addr) (bn : Nat) :
    lookup blk' addr' bn = lookup blk addr bn := by
  by_cases hz : lookup blk addr bn = 0
  · by_contra hne
    have hin : ⟨_, bn, 0⟩ ∈ nodesOf blk' addr' := mem_nodesOf.mpr ⟨rfl, fun h0 => hne (h0.trans hz.symm)⟩
    rw [h] at hin
    obtain ⟨heq, hp⟩ := mem_nodesOf.mp hin
    exact hp (heq.symm.trans hz)
  · have hin : ⟨_, bn, 0⟩ ∈ nodesOf blk addr := mem_nodesOf.mpr ⟨rfl, hz⟩
    rw [← h] at hin
    exact (mem_nodesOf.mp hin).1

/-- A block stands in one place. -/
theorem node_unique (hn : (treeOf blk addr).Nodup) {m m' : Node} (hm : m ∈ nodesOf blk addr)
    (hm' : m' ∈ nodesOf blk addr) (h : m.block = m'.block) : m = m' := by
  rw [← nodesOf_blocks] at hn
  exact List.inj_on_of_nodup_map hn hm hm' h

/-- Writing a data block moves none. -/
theorem nodesOf_write (hn : (treeOf blk addr).Nodup) (hz : lookup blk addr bn ≠ 0) (w : Nat → Nat) :
    nodesOf (Function.update blk (lookup blk addr bn) w) addr = nodesOf blk addr := by
  refine nodesOf_frame fun m hm hlevel => Function.update_of_ne ?_ ..
  intro heq
  have hd : ⟨_, bn, 0⟩ ∈ nodesOf blk addr := mem_nodesOf.mpr ⟨rfl, hz⟩
  exact hlevel (congrArg Node.level (node_unique hn hm hd heq))

end

end DiscoBSD.Ufs
