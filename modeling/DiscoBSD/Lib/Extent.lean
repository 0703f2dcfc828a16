import Mathlib.Data.List.Basic
import Mathlib.Data.Fintype.Card
import Mathlib.Tactic.Linarith

/-!
# Extents, and the coalesced free list

A *range allocator* hands out half-open runs `[off, off + size)` of some address space and takes
them back. Whatever its table looks like, the state it keeps is a list of free extents, and every
allocator that sorts the list and merges neighbours keeps the same invariant. This file is that
invariant and the three operations on it, over plain `Nat` addresses:

* `take`, first fit: the front of the first extent that is large enough;
* `carve`, any run inside one extent, which may leave a piece on either side;
* `release`, giving a run back and merging it with the neighbours it touches.

## How a run is counted

`cover es x` is the *number* of extents of `es` that contain the address `x`. Stating conservation
with a count instead of with sets makes one equation say two things: `cover es' x + r.ind x =
cover es x` at every `x` says that nothing is lost *and* that nothing is handed out twice, and the
equations of a whole run add up.

## Why the list is canonical

`Gapped` asks for a hole between neighbours, not only for disjointness. Two gapped lists with the
same coverage are therefore equal (`Gapped.ext`), which is what turns "the same addresses are free
again" into "the same table", and the hole is what a live run must fill, which bounds the length of
the list by the number of live runs (`Gapped.length_le`).
-/

set_option autoImplicit false

namespace DiscoBSD.Lib

/-- A run of `size` addresses starting at `off`. -/
structure Extent where
  off : Nat
  size : Nat
  deriving DecidableEq, Repr

namespace Extent

/-- `1` at the addresses of the run and `0` elsewhere. -/
def ind (e : Extent) (x : Nat) : Nat := if e.off ≤ x ∧ x < e.off + e.size then 1 else 0

theorem ind_le_one (e : Extent) (x : Nat) : e.ind x ≤ 1 := by
  unfold Extent.ind; split <;> omega

theorem ind_eq_one {e : Extent} {x : Nat} (h₁ : e.off ≤ x) (h₂ : x < e.off + e.size) :
    e.ind x = 1 := if_pos ⟨h₁, h₂⟩

theorem ind_eq_zero_of_lt {e : Extent} {x : Nat} (h : x < e.off) : e.ind x = 0 :=
  if_neg fun hx => absurd hx.1 (by omega)

theorem ind_eq_zero_of_ge {e : Extent} {x : Nat} (h : e.off + e.size ≤ x) : e.ind x = 0 :=
  if_neg fun hx => absurd hx.2 (by omega)

theorem ind_empty {e : Extent} (h : e.size = 0) (x : Nat) : e.ind x = 0 :=
  if_neg fun hx => absurd hx (by omega)

/-- A run cut in two counts each address once. -/
theorem ind_split {e : Extent} {n : Nat} (h : n ≤ e.size) (x : Nat) :
    e.ind x = (Extent.mk e.off n).ind x + (Extent.mk (e.off + n) (e.size - n)).ind x := by
  simp only [Extent.ind]; split_ifs <;> omega

/-- Two runs that touch count as their union. -/
theorem ind_join {e f : Extent} (h : e.off + e.size = f.off) (x : Nat) :
    (Extent.mk e.off (e.size + f.size)).ind x = e.ind x + f.ind x := by
  simp only [Extent.ind]; split_ifs <;> omega

end Extent

/-- How many extents of the list contain the address. -/
def cover (es : List Extent) (x : Nat) : Nat := (es.map (·.ind x)).sum

@[simp] theorem cover_nil (x : Nat) : cover [] x = 0 := rfl

@[simp] theorem cover_cons (e : Extent) (es : List Extent) (x : Nat) :
    cover (e :: es) x = e.ind x + cover es x := rfl

@[simp] theorem cover_append (es fs : List Extent) (x : Nat) :
    cover (es ++ fs) x = cover es x + cover fs x := by
  simp [cover]

theorem cover_perm {es fs : List Extent} (h : es.Perm fs) (x : Nat) : cover es x = cover fs x :=
  List.Perm.sum_nat (h.map fun e => e.ind x)

theorem ind_le_cover {e : Extent} {es : List Extent} (h : e ∈ es) (x : Nat) :
    e.ind x ≤ cover es x := by
  induction es with
  | nil => cases h
  | cons f fs ih =>
    rw [cover_cons]
    rcases List.mem_cons.mp h with rfl | h
    · omega
    · have := ih h; omega

theorem exists_of_cover_pos {es : List Extent} {x : Nat} (h : 0 < cover es x) :
    ∃ e ∈ es, e.off ≤ x ∧ x < e.off + e.size := by
  induction es with
  | nil => simp at h
  | cons e es ih =>
    by_cases hx : e.off ≤ x ∧ x < e.off + e.size
    · exact ⟨e, by simp, hx⟩
    · rw [cover_cons, show e.ind x = 0 from if_neg hx] at h
      obtain ⟨f, hf, hfx⟩ := ih (by omega)
      exact ⟨f, by simp [hf], hfx⟩

/-! ## Gapped lists -/

/-- Sorted, nonempty extents starting at or after `lo`, with a hole between neighbours. The bound
is the induction's: the tail of a gapped list starts after its head and one address more. -/
def GappedFrom : Nat → List Extent → Prop
  | _, [] => True
  | lo, e :: es => lo ≤ e.off ∧ 0 < e.size ∧ GappedFrom (e.off + e.size + 1) es

/-- The free-list invariant: sorted by address, nonempty, disjoint, never adjacent. -/
def Gapped (es : List Extent) : Prop := GappedFrom 0 es

theorem GappedFrom.mono {lo lo' : Nat} {es : List Extent} (h : GappedFrom lo es) (hle : lo' ≤ lo) :
    GappedFrom lo' es := by
  cases es with
  | nil => trivial
  | cons e es => exact ⟨Nat.le_trans hle h.1, h.2⟩

theorem GappedFrom.off_le {lo : Nat} {es : List Extent} (h : GappedFrom lo es) :
    ∀ e ∈ es, lo ≤ e.off := by
  induction es generalizing lo with
  | nil => simp
  | cons f fs ih =>
    intro e he
    rcases List.mem_cons.mp he with rfl | he
    · exact h.1
    · have h1 := h.1
      have h2 := ih h.2.2 e he
      omega

theorem GappedFrom.cover_eq_zero {lo : Nat} {es : List Extent} (h : GappedFrom lo es) {x : Nat}
    (hx : x < lo) : cover es x = 0 := by
  induction es generalizing lo with
  | nil => rfl
  | cons e es ih =>
    have h1 := h.1
    have h2 := ih h.2.2 (by omega)
    rw [cover_cons, Extent.ind_eq_zero_of_lt (by omega), h2]

theorem GappedFrom.cover_le_one {lo : Nat} {es : List Extent} (h : GappedFrom lo es) (x : Nat) :
    cover es x ≤ 1 := by
  induction es generalizing lo with
  | nil => simp
  | cons e es ih =>
    rw [cover_cons]
    by_cases hx : x < e.off + e.size + 1
    · rw [h.2.2.cover_eq_zero hx]
      exact e.ind_le_one x
    · rw [Extent.ind_eq_zero_of_ge (by omega)]
      have := ih h.2.2
      omega

/-- The invariant as a statement about pairs: what a reader of the table wants to see. -/
theorem gapped_iff {es : List Extent} :
    Gapped es ↔ es.Pairwise (fun a b => a.off + a.size < b.off) ∧ ∀ e ∈ es, 0 < e.size := by
  have key : ∀ (es : List Extent) (lo : Nat), GappedFrom lo es ↔
      (∀ e ∈ es, lo ≤ e.off) ∧ es.Pairwise (fun a b => a.off + a.size < b.off) ∧ ∀ e ∈ es, 0 < e.size := by
    intro es
    induction es with
    | nil => simp [GappedFrom]
    | cons e es ih =>
      intro lo
      simp only [GappedFrom, ih, List.mem_cons, forall_eq_or_imp, List.pairwise_cons]
      constructor
      · rintro ⟨h1, h2, h3, h4, h5⟩
        refine ⟨⟨h1, fun f hf => ?_⟩, ⟨fun f hf => h3 f hf, h4⟩, h2, h5⟩
        have := h3 f hf
        omega
      · rintro ⟨⟨h1, _⟩, ⟨h3, h4⟩, h2, h5⟩
        exact ⟨h1, h2, fun f hf => h3 f hf, h4, h5⟩
  unfold Gapped
  rw [key]
  simp

/-- **A gapped list is determined by the addresses it covers.** -/
theorem GappedFrom.ext {lo : Nat} {es fs : List Extent} (he : GappedFrom lo es)
    (hf : GappedFrom lo fs) (h : ∀ x, cover es x = cover fs x) : es = fs := by
  induction es generalizing lo fs with
  | nil =>
    cases fs with
    | nil => rfl
    | cons f fs =>
      have hx := h f.off
      rw [cover_nil, cover_cons, Extent.ind_eq_one (Nat.le_refl _) (by have := hf.2.1; omega)] at hx
      omega
  | cons e es ih =>
    cases fs with
    | nil =>
      have hx := h e.off
      rw [cover_nil, cover_cons, Extent.ind_eq_one (Nat.le_refl _) (by have := he.2.1; omega)] at hx
      omega
    | cons f fs =>
      obtain ⟨_, he2, he3⟩ := he
      obtain ⟨_, hf2, hf3⟩ := hf
      -- The first covered address is the head's start, and the first hole after it is its end.
      have hoff : e.off = f.off := by
        rcases Nat.lt_trichotomy e.off f.off with hlt | heq | hgt
        · have hx := h e.off
          rw [cover_cons, cover_cons, Extent.ind_eq_one (Nat.le_refl _) (by omega),
            Extent.ind_eq_zero_of_lt hlt, hf3.cover_eq_zero (by omega)] at hx
          omega
        · exact heq
        · have hx := h f.off
          rw [cover_cons, cover_cons, Extent.ind_eq_one (e := f) (Nat.le_refl _) (by omega),
            Extent.ind_eq_zero_of_lt hgt, he3.cover_eq_zero (by omega)] at hx
          omega
      have hsize : e.size = f.size := by
        rcases Nat.lt_trichotomy e.size f.size with hlt | heq | hgt
        · have hx := h (e.off + e.size)
          rw [cover_cons, cover_cons, Extent.ind_eq_zero_of_ge (Nat.le_refl _),
            Extent.ind_eq_one (e := f) (by omega) (by omega),
            he3.cover_eq_zero (Nat.lt_succ_self _)] at hx
          omega
        · exact heq
        · have hx := h (f.off + f.size)
          rw [cover_cons, cover_cons, Extent.ind_eq_zero_of_ge (e := f) (Nat.le_refl _),
            Extent.ind_eq_one (e := e) (by omega) (by omega),
            hf3.cover_eq_zero (Nat.lt_succ_self _)] at hx
          omega
      have hhead : e = f := by
        cases e; cases f; simp_all
      subst hhead
      congr 1
      refine ih he3 hf3 fun x => ?_
      have := h x
      rw [cover_cons, cover_cons] at this
      omega

theorem Gapped.ext {es fs : List Extent} (he : Gapped es) (hf : Gapped fs)
    (h : ∀ x, cover es x = cover fs x) : es = fs := GappedFrom.ext he hf h

/-! ## First fit -/

/-- What is left of an extent whose first `n` addresses are taken, put back in front of the rest. -/
def shrink (e : Extent) (n : Nat) (es : List Extent) : List Extent :=
  if e.size = n then es else ⟨e.off + n, e.size - n⟩ :: es

/-- First fit: the front of the first extent with at least `n` addresses. -/
def take (n : Nat) : List Extent → Option (Nat × List Extent)
  | [] => none
  | e :: es =>
    if n ≤ e.size then some (e.off, shrink e n es)
    else (take n es).map fun r => (r.1, e :: r.2)

theorem take_eq_none {n : Nat} {es : List Extent} :
    take n es = none ↔ ∀ e ∈ es, e.size < n := by
  induction es with
  | nil => simp [take]
  | cons e es ih =>
    simp only [take, List.mem_cons, forall_eq_or_imp]
    by_cases h : n ≤ e.size
    · rw [if_pos h]
      constructor
      · intro h'; cases h'
      · rintro ⟨h', _⟩; omega
    · rw [if_neg h, Option.map_eq_none_iff, ih]
      exact ⟨fun h' => ⟨by omega, h'⟩, fun h' => h'.2⟩

theorem shrink_cover {e : Extent} {n : Nat} (es : List Extent) (h : n ≤ e.size) (x : Nat) :
    cover (shrink e n es) x + (Extent.mk e.off n).ind x = e.ind x + cover es x := by
  have hs := Extent.ind_split h x
  unfold shrink
  split
  · rename_i heq
    rw [Extent.ind_empty (e := ⟨e.off + n, e.size - n⟩) (by simp [heq])] at hs
    omega
  · rw [cover_cons]
    omega

theorem shrink_gapped {lo : Nat} {e : Extent} {n : Nat} {es : List Extent} (h : n ≤ e.size)
    (hg : GappedFrom lo (e :: es)) : GappedFrom lo (shrink e n es) := by
  obtain ⟨h1, h2, h3⟩ := hg
  unfold shrink
  split
  · exact h3.mono (by omega)
  · refine ⟨?_, ?_, ?_⟩
    · show lo ≤ e.off + n
      omega
    · show 0 < e.size - n
      omega
    · refine h3.mono ?_
      show e.off + n + (e.size - n) + 1 ≤ e.off + e.size + 1
      omega

/-- **What first fit takes comes out of the coverage, and nothing else does.** -/
theorem take_spec {n a lo : Nat} {es es' : List Extent} (hg : GappedFrom lo es)
    (h : take n es = some (a, es')) :
    GappedFrom lo es' ∧ ∀ x, cover es' x + (Extent.mk a n).ind x = cover es x := by
  induction es generalizing lo es' with
  | nil => cases h
  | cons e es ih =>
    unfold take at h
    by_cases hn : n ≤ e.size
    · rw [if_pos hn, Option.some.injEq, Prod.mk.injEq] at h
      obtain ⟨rfl, rfl⟩ := h
      exact ⟨shrink_gapped hn hg, fun x => by rw [shrink_cover es hn, cover_cons]⟩
    · rw [if_neg hn, Option.map_eq_some_iff] at h
      obtain ⟨⟨a, fs⟩, hr, heq⟩ := h
      simp only [Prod.mk.injEq] at heq
      obtain ⟨rfl, rfl⟩ := heq
      obtain ⟨hg', hc⟩ := ih hg.2.2 hr
      refine ⟨⟨hg.1, hg.2.1, hg'⟩, fun x => ?_⟩
      have := hc x
      rw [cover_cons, cover_cons]
      omega

/-- First fit takes the front of one of the extents. -/
theorem take_mem {n a : Nat} {es es' : List Extent} (h : take n es = some (a, es')) :
    ∃ e ∈ es, e.off = a ∧ n ≤ e.size := by
  induction es generalizing es' with
  | nil => cases h
  | cons e es ih =>
    unfold take at h
    by_cases hn : n ≤ e.size
    · rw [if_pos hn, Option.some.injEq, Prod.mk.injEq] at h
      exact ⟨e, by simp, h.1, hn⟩
    · rw [if_neg hn, Option.map_eq_some_iff] at h
      obtain ⟨⟨a, fs⟩, hr, heq⟩ := h
      simp only [Prod.mk.injEq] at heq
      obtain ⟨rfl, rfl⟩ := heq
      obtain ⟨f, hf, hfa⟩ := ih hr
      exact ⟨f, by simp [hf], hfa⟩

/-! ## Alignment

Starts and sizes that are multiples of `d` stay so under all three operations. -/

/-- Every extent starts at a multiple of `d` and is a multiple of `d` long. -/
def Aligned (d : Nat) (es : List Extent) : Prop := ∀ e ∈ es, d ∣ e.off ∧ d ∣ e.size

theorem aligned_cons {d : Nat} {e : Extent} {es : List Extent} :
    Aligned d (e :: es) ↔ (d ∣ e.off ∧ d ∣ e.size) ∧ Aligned d es := List.forall_mem_cons

theorem Aligned.nil (d : Nat) : Aligned d [] := fun _ he => absurd he (by simp)

theorem aligned_append {d : Nat} {es fs : List Extent} :
    Aligned d (es ++ fs) ↔ Aligned d es ∧ Aligned d fs := List.forall_mem_append

theorem Aligned.shrink {d n : Nat} {e : Extent} {es : List Extent} (hn : d ∣ n)
    (h : Aligned d (e :: es)) : Aligned d (shrink e n es) := by
  obtain ⟨he, hes⟩ := aligned_cons.mp h
  unfold Lib.shrink
  split
  · exact hes
  · exact aligned_cons.mpr ⟨⟨Nat.dvd_add he.1 hn, Nat.dvd_sub he.2 hn⟩, hes⟩

theorem Aligned.take {d n a : Nat} {es es' : List Extent} (hn : d ∣ n) (h : Aligned d es)
    (ht : take n es = some (a, es')) : Aligned d es' ∧ d ∣ a := by
  induction es generalizing es' with
  | nil => cases ht
  | cons e es ih =>
    unfold Lib.take at ht
    by_cases hle : n ≤ e.size
    · rw [if_pos hle, Option.some.injEq, Prod.mk.injEq] at ht
      obtain ⟨rfl, rfl⟩ := ht
      exact ⟨h.shrink hn, (h e (by simp)).1⟩
    · rw [if_neg hle, Option.map_eq_some_iff] at ht
      obtain ⟨⟨a, fs⟩, hr, heq⟩ := ht
      simp only [Prod.mk.injEq] at heq
      obtain ⟨rfl, rfl⟩ := heq
      obtain ⟨h1, h2⟩ := aligned_cons.mp h
      obtain ⟨h3, h4⟩ := ih h2 hr
      exact ⟨aligned_cons.mpr ⟨h1, h3⟩, h4⟩

/-! ## Carving from the middle -/

/-- What is left of an extent after `n` addresses at `base` are taken: a piece below, a piece above,
each only when it is not empty. -/
def carve (e : Extent) (base n : Nat) (es : List Extent) : List Extent :=
  (if e.off < base then [⟨e.off, base - e.off⟩] else []) ++
    ((if base + n < e.off + e.size then [⟨base + n, e.off + e.size - (base + n)⟩] else []) ++ es)

theorem carve_gapped {lo base n : Nat} {e : Extent} {es : List Extent} (h₁ : e.off ≤ base)
    (h₂ : base + n ≤ e.off + e.size) (hn : 0 < n) (hg : GappedFrom lo (e :: es)) :
    GappedFrom lo (carve e base n es) := by
  obtain ⟨hlo, _, hes⟩ := hg
  have above : ∀ lo', lo' ≤ base + n → GappedFrom lo'
      ((if base + n < e.off + e.size then [⟨base + n, e.off + e.size - (base + n)⟩] else []) ++
        es) := by
    intro lo' hlo'
    split
    · refine ⟨hlo', by simp only []; omega, hes.mono ?_⟩
      simp only []
      omega
    · exact hes.mono (by omega)
  unfold carve
  split
  · refine ⟨hlo, by simp only []; omega, above _ ?_⟩
    simp only []
    omega
  · exact above _ (by omega)

theorem carve_cover {base n : Nat} {e : Extent} (es : List Extent) (h₁ : e.off ≤ base)
    (h₂ : base + n ≤ e.off + e.size) (x : Nat) :
    cover (carve e base n es) x + (Extent.mk base n).ind x = e.ind x + cover es x := by
  have hl : cover (if e.off < base then [⟨e.off, base - e.off⟩] else []) x =
      (Extent.mk e.off (base - e.off)).ind x := by
    split
    · simp
    · rw [cover_nil, Extent.ind_empty]
      simp only []
      omega
  have hr : cover (if base + n < e.off + e.size then
      [⟨base + n, e.off + e.size - (base + n)⟩] else []) x =
      (Extent.mk (base + n) (e.off + e.size - (base + n))).ind x := by
    split
    · simp
    · rw [cover_nil, Extent.ind_empty]
      simp only []
      omega
  unfold carve
  rw [cover_append, cover_append, hl, hr]
  simp only [Extent.ind]
  split_ifs <;> omega

theorem Aligned.carve {d base n : Nat} {e : Extent} {es : List Extent} (hb : d ∣ base)
    (hn : d ∣ n) (h : Aligned d (e :: es)) : Aligned d (carve e base n es) := by
  obtain ⟨he, hes⟩ := aligned_cons.mp h
  unfold Lib.carve
  refine aligned_append.mpr ⟨?_, aligned_append.mpr ⟨?_, hes⟩⟩
  · split
    · exact aligned_cons.mpr ⟨⟨he.1, Nat.dvd_sub hb he.1⟩, Aligned.nil d⟩
    · exact Aligned.nil d
  · split
    · exact aligned_cons.mpr
        ⟨⟨Nat.dvd_add hb hn, Nat.dvd_sub (Nat.dvd_add he.1 he.2) (Nat.dvd_add hb hn)⟩, Aligned.nil d⟩
    · exact Aligned.nil d

/-- A change of a suffix that keeps it gapped, whatever comes before it, keeps the list gapped. -/
theorem GappedFrom.append_congr {lo : Nat} {es fs fs' : List Extent}
    (h : GappedFrom lo (es ++ fs)) (hc : ∀ lo', GappedFrom lo' fs → GappedFrom lo' fs') :
    GappedFrom lo (es ++ fs') := by
  induction es generalizing lo with
  | nil => exact hc lo h
  | cons e es ih => exact ⟨h.1, h.2.1, ih h.2.2⟩

theorem GappedFrom.suffix {lo : Nat} {es fs : List Extent} (h : GappedFrom lo (es ++ fs)) :
    GappedFrom lo fs := by
  induction es generalizing lo with
  | nil => exact h
  | cons e es ih =>
    have h1 := h.1
    exact (ih h.2.2).mono (by omega)

/-! ## Cutting in place

An allocator that has not compacted its table yet cuts an extent without dropping it when it is used
up. What stays true of such a table is the spacing; dropping the empty extents gives a gapped list
with the same coverage. -/

/-- Take the first `n` addresses of the extent at index `i`, which stays, possibly empty. -/
def cutAt (i n : Nat) (es : List Extent) : List Extent :=
  es.modify i fun e => ⟨e.off + n, e.size - n⟩

/-- Drop the extents that are used up. -/
def dropEmpty (es : List Extent) : List Extent := es.filter fun e => e.size ≠ 0

/-- `GappedFrom` without the demand that extents are nonempty. -/
def SpacedFrom : Nat → List Extent → Prop
  | _, [] => True
  | lo, e :: es => lo ≤ e.off ∧ SpacedFrom (e.off + e.size + 1) es

theorem GappedFrom.spaced {lo : Nat} {es : List Extent} (h : GappedFrom lo es) :
    SpacedFrom lo es := by
  induction es generalizing lo with
  | nil => trivial
  | cons e es ih => exact ⟨h.1, ih h.2.2⟩

theorem SpacedFrom.mono {lo lo' : Nat} {es : List Extent} (h : SpacedFrom lo es) (hle : lo' ≤ lo) :
    SpacedFrom lo' es := by
  cases es with
  | nil => trivial
  | cons e es => exact ⟨Nat.le_trans hle h.1, h.2⟩

theorem getElem?_cutAt (i n k : Nat) (es : List Extent) :
    (cutAt i n es)[k]? = es[k]?.map fun e => if i = k then ⟨e.off + n, e.size - n⟩ else e :=
  List.getElem?_modify _ i es k

theorem cutAt_spaced {lo i n : Nat} {es : List Extent} (h : SpacedFrom lo es)
    (hn : ∀ e, es[i]? = some e → n ≤ e.size) : SpacedFrom lo (cutAt i n es) := by
  induction es generalizing lo i with
  | nil => cases i <;> trivial
  | cons e es ih =>
    cases i with
    | zero =>
      have hle := hn e rfl
      refine ⟨Nat.le_trans h.1 (Nat.le_add_right _ _), h.2.mono ?_⟩
      show e.off + n + (e.size - n) + 1 ≤ e.off + e.size + 1
      omega
    | succ i => exact ⟨h.1, ih h.2 hn⟩

theorem cutAt_cover {i n : Nat} {e : Extent} {es : List Extent} (he : es[i]? = some e)
    (hn : n ≤ e.size) (x : Nat) :
    cover (cutAt i n es) x + (Extent.mk e.off n).ind x = cover es x := by
  induction es generalizing i with
  | nil => cases he
  | cons f es ih =>
    cases i with
    | zero =>
      cases he
      show (Extent.mk (e.off + n) (e.size - n)).ind x + cover es x + _ = e.ind x + cover es x
      rw [Extent.ind_split hn x]
      omega
    | succ i =>
      show f.ind x + cover (cutAt i n es) x + _ = f.ind x + cover es x
      rw [← ih he]
      omega

theorem SpacedFrom.dropEmpty {lo : Nat} {es : List Extent} (h : SpacedFrom lo es) :
    GappedFrom lo (dropEmpty es) := by
  induction es generalizing lo with
  | nil => trivial
  | cons e es ih =>
    unfold Lib.dropEmpty at ih ⊢
    by_cases hs : e.size = 0
    · rw [List.filter_cons_of_neg (by simpa using hs)]
      have h1 := h.1
      exact (ih h.2).mono (by omega)
    · rw [List.filter_cons_of_pos (by simpa using hs)]
      exact ⟨h.1, Nat.pos_of_ne_zero hs, ih h.2⟩

theorem cover_dropEmpty (es : List Extent) (x : Nat) : cover (dropEmpty es) x = cover es x := by
  induction es with
  | nil => rfl
  | cons e es ih =>
    unfold dropEmpty at ih ⊢
    by_cases hs : e.size = 0
    · rw [List.filter_cons_of_neg (by simpa using hs), ih, cover_cons, Extent.ind_empty hs,
        Nat.zero_add]
    · rw [List.filter_cons_of_pos (by simpa using hs), cover_cons, cover_cons, ih]

/-! ## Release -/

/-- Put an extent in front of a list, merged with the head when the two touch. -/
def join (e : Extent) : List Extent → List Extent
  | [] => [e]
  | f :: fs => if e.off + e.size = f.off then ⟨e.off, e.size + f.size⟩ :: fs else e :: f :: fs

/-- Give a run back: past the extents that end below it, then merged on both sides. -/
def release (r : Extent) : List Extent → List Extent
  | [] => join r []
  | e :: es =>
    if e.off + e.size < r.off then e :: release r es
    else if e.off + e.size = r.off then join ⟨e.off, e.size + r.size⟩ es
    else join r (e :: es)

theorem join_gapped {lo : Nat} {e : Extent} {es : List Extent} (hlo : lo ≤ e.off)
    (hs : 0 < e.size) (hg : GappedFrom (e.off + e.size) es) : GappedFrom lo (join e es) := by
  cases es with
  | nil => exact ⟨hlo, hs, trivial⟩
  | cons f fs =>
    obtain ⟨h1, h2, h3⟩ := hg
    simp only [join]
    split
    · refine ⟨hlo, by simp only []; omega, h3.mono ?_⟩
      simp only []
      omega
    · exact ⟨hlo, hs, by omega, h2, h3⟩

theorem join_cover (e : Extent) (es : List Extent) (x : Nat) :
    cover (join e es) x = e.ind x + cover es x := by
  cases es with
  | nil => rfl
  | cons f fs =>
    simp only [join]
    split
    · rename_i h
      rw [cover_cons, cover_cons, Extent.ind_join h]
      omega
    · rfl

/-- No extent of the list shares an address with `r`. -/
def Apart (r : Extent) (es : List Extent) : Prop :=
  ∀ x, r.off ≤ x → x < r.off + r.size → cover es x = 0

theorem Apart.tail {r e : Extent} {es : List Extent} (h : Apart r (e :: es)) : Apart r es := by
  intro x h₁ h₂
  have := h x h₁ h₂
  rw [cover_cons] at this
  omega

/-- A list that starts at or after a run it is apart from starts after the run's end. -/
theorem GappedFrom.of_apart {lo : Nat} {r : Extent} {es : List Extent} (hg : GappedFrom lo es)
    (hlo : r.off ≤ lo) (ha : Apart r es) : GappedFrom (r.off + r.size) es := by
  cases es with
  | nil => trivial
  | cons e es =>
    obtain ⟨h1, h2, h3⟩ := hg
    refine ⟨?_, h2, h3⟩
    by_contra hlt
    have hx := ha e.off (by omega) (by omega)
    rw [cover_cons, Extent.ind_eq_one (Nat.le_refl _) (by omega)] at hx
    omega

/-- **Release adds exactly the run it is given, and the list stays gapped.** -/
theorem release_spec {lo : Nat} {r : Extent} {es : List Extent} (hg : GappedFrom lo es)
    (hlo : lo ≤ r.off) (hr : 0 < r.size) (ha : Apart r es) :
    GappedFrom lo (release r es) ∧ ∀ x, cover (release r es) x = r.ind x + cover es x := by
  induction es generalizing lo with
  | nil => exact ⟨join_gapped hlo hr trivial, fun x => join_cover r [] x⟩
  | cons e es ih =>
    obtain ⟨h1, h2, h3⟩ := hg
    unfold release
    by_cases hlt : e.off + e.size < r.off
    · rw [if_pos hlt]
      obtain ⟨hg', hc⟩ := ih h3 (by omega) ha.tail
      refine ⟨⟨h1, h2, hg'⟩, fun x => ?_⟩
      rw [cover_cons, cover_cons, hc]
      omega
    · rw [if_neg hlt]
      by_cases heq : e.off + e.size = r.off
      · rw [if_pos heq]
        have hes := h3.of_apart (r := r) (by omega) ha.tail
        refine ⟨join_gapped h1 (by simp only []; omega) (hes.mono (by simp only []; omega)), ?_⟩
        intro x
        rw [join_cover, cover_cons, Extent.ind_join heq]
        omega
      · rw [if_neg heq]
        -- `e` reaches past the start of `r`, so being apart from it, it starts after it.
        have hle : r.off ≤ e.off := by
          by_contra hgt
          have hx := ha r.off (Nat.le_refl _) (by omega)
          rw [cover_cons, Extent.ind_eq_one (by omega) (by omega)] at hx
          omega
        have hg' : GappedFrom e.off (e :: es) := ⟨Nat.le_refl _, h2, h3⟩
        exact ⟨join_gapped hlo hr (hg'.of_apart hle ha), fun x => join_cover r (e :: es) x⟩

theorem release_append {r : Extent} {lo hi : List Extent}
    (h : ∀ s ∈ lo, s.off + s.size < r.off) : release r (lo ++ hi) = lo ++ release r hi := by
  induction lo with
  | nil => rfl
  | cons s lo ih =>
    rw [List.cons_append, release, if_pos (h s (by simp)), ih fun t ht => h t (by simp [ht]),
      List.cons_append]

theorem release_of_le {r : Extent} {hi : List Extent} (hs : ∀ s ∈ hi, 0 < s.size)
    (h : ∀ s ∈ hi.head?, r.off ≤ s.off) : release r hi = join r hi := by
  cases hi with
  | nil => rfl
  | cons s hi =>
    have h1 := h s (by simp)
    have h2 := hs s (by simp)
    rw [release, if_neg (by omega), if_neg (by omega)]

/-- The lists below a run that is given back: an extent that starts at or below it ends there. -/
theorem Apart.end_le {r e : Extent} {es : List Extent} (ha : Apart r es) (hr : 0 < r.size)
    (he : e ∈ es) (hle : e.off ≤ r.off) : e.off + e.size ≤ r.off := by
  by_contra hgt
  have hx := ha r.off (Nat.le_refl _) (by omega)
  have h2 := ind_le_cover he r.off
  rw [Extent.ind_eq_one hle (by omega)] at h2
  omega

/-- Past the run: an extent that starts at or above its start starts at or above its end. -/
theorem Apart.le_off {r e : Extent} {es : List Extent} (ha : Apart r es) (hs : 0 < e.size)
    (he : e ∈ es) (hle : r.off ≤ e.off) : r.off + r.size ≤ e.off := by
  by_contra hgt
  have hx := ha e.off hle (by omega)
  have h2 := ind_le_cover he e.off
  rw [Extent.ind_eq_one (Nat.le_refl _) (by omega)] at h2
  omega

/-- A run that touches the last extent below it grows that extent. -/
theorem release_touch {r e : Extent} {lo hi : List Extent} (hg : Gapped (lo ++ e :: hi))
    (h : e.off + e.size = r.off) :
    release r (lo ++ e :: hi) = lo ++ join ⟨e.off, e.size + r.size⟩ hi := by
  have hlt : ∀ s ∈ lo, s.off + s.size < r.off := by
    intro s hs
    have h1 := (List.pairwise_append.mp (gapped_iff.mp hg).1).2.2 s hs e (by simp)
    omega
  rw [release_append hlt, release, if_neg (by omega), if_pos h]

/-- A run that touches nothing below it is joined to what comes above. -/
theorem release_between {r : Extent} {lo hi : List Extent}
    (hlo : ∀ s ∈ lo, s.off + s.size < r.off) (hpos : ∀ s ∈ hi, 0 < s.size)
    (hhi : ∀ s ∈ hi.head?, r.off ≤ s.off) : release r (lo ++ hi) = lo ++ join r hi := by
  rw [release_append hlo, release_of_le hpos hhi]

/-- A run that touches nothing gets an entry of its own. -/
theorem release_length_apart {r : Extent} {es : List Extent}
    (hlow : ∀ e ∈ es, e.off + e.size ≠ r.off) (hhigh : ∀ e ∈ es, r.off + r.size ≠ e.off) :
    (release r es).length = es.length + 1 := by
  induction es with
  | nil => rfl
  | cons e es ih =>
    obtain ⟨hle, hles⟩ := List.forall_mem_cons.mp hlow
    obtain ⟨hhe, hhes⟩ := List.forall_mem_cons.mp hhigh
    simp only [release]
    split
    · rw [List.length_cons, ih hles hhes, List.length_cons]
    · rw [join, if_neg hhe]
      rfl

theorem Aligned.join {d : Nat} {e : Extent} {es : List Extent} (h : Aligned d (e :: es)) :
    Aligned d (join e es) := by
  cases es with
  | nil => exact h
  | cons f fs =>
    obtain ⟨he, hf, hfs⟩ := aligned_cons.mp h |>.imp id aligned_cons.mp
    simp only [Lib.join]
    split
    · exact aligned_cons.mpr ⟨⟨he.1, Nat.dvd_add he.2 hf.2⟩, hfs⟩
    · exact h

theorem Aligned.release {d : Nat} {r : Extent} {es : List Extent} (hr : d ∣ r.off ∧ d ∣ r.size)
    (h : Aligned d es) : Aligned d (release r es) := by
  induction es with
  | nil => exact Aligned.join (aligned_cons.mpr ⟨hr, h⟩)
  | cons e es ih =>
    obtain ⟨he, hes⟩ := aligned_cons.mp h
    unfold Lib.release
    split
    · exact aligned_cons.mpr ⟨he, ih hes⟩
    · split
      · exact Aligned.join (aligned_cons.mpr ⟨⟨he.1, Nat.dvd_add he.2 hr.2⟩, hes⟩)
      · exact Aligned.join (aligned_cons.mpr ⟨hr, h⟩)

/-! ## How long the free list can get

Between two neighbours of a gapped list lies an address the list does not cover. When free and live
runs together cover everything, some live run covers it, and no live run can cover two such
addresses without running over the extent between them. -/

/-- Every extent but the last is followed by an address that `live` covers. -/
def Filled (live : List Extent) : List Extent → Prop
  | e :: f :: fs => 0 < cover live (e.off + e.size) ∧ Filled live (f :: fs)
  | _ => True

theorem cover_erase {r : Extent} {es : List Extent} (h : r ∈ es) (x : Nat) :
    r.ind x + cover (es.erase r) x = cover es x := by
  rw [← cover_cons]
  exact (cover_perm (List.perm_cons_erase h) x).symm

/-- Dropping a live run that ends before the list starts leaves it filled. -/
theorem Filled.erase {live : List Extent} {r : Extent} (hr : r ∈ live) :
    ∀ {lo : Nat} {es : List Extent}, GappedFrom lo es → r.off + r.size ≤ lo → Filled live es →
      Filled (live.erase r) es
  | _, [], _, _, _ => trivial
  | _, [_], _, _, _ => trivial
  | lo, e :: f :: fs, hg, hlo, hf => by
    have h1 := hg.1
    refine ⟨?_, Filled.erase hr hg.2.2 (by omega) hf.2⟩
    have h2 := cover_erase hr (e.off + e.size)
    rw [Extent.ind_eq_zero_of_ge (by omega)] at h2
    have h3 := hf.1
    omega

theorem GappedFrom.length_le_of_filled {lo : Nat} {es live : List Extent} (hg : GappedFrom lo es)
    (hone : ∀ x, cover es x + cover live x ≤ 1) (hf : Filled live es) :
    es.length ≤ live.length + 1 := by
  induction es generalizing lo live with
  | nil => simp
  | cons e es ih =>
    cases es with
    | nil => simp
    | cons f fs =>
      obtain ⟨r, hr, hr₁, hr₂⟩ := exists_of_cover_pos hf.1
      have hfg := hg.2.2
      -- The live run found behind `e` stops before `f`: otherwise both would cover `f.off`.
      have hrf : r.off + r.size ≤ f.off := by
        by_contra hgt
        have hx := hone f.off
        have h1 := hfg.1
        have h2 := ind_le_cover hr f.off
        rw [Extent.ind_eq_one (by omega) (by omega)] at h2
        have h3 := ind_le_cover (show f ∈ e :: f :: fs by simp) f.off
        rw [Extent.ind_eq_one (Nat.le_refl _) (by have := hfg.2.1; omega)] at h3
        omega
      have hfg' : GappedFrom f.off (f :: fs) := ⟨Nat.le_refl _, hfg.2⟩
      have hone' : ∀ x, cover (f :: fs) x + cover (live.erase r) x ≤ 1 := by
        intro x
        have h1 := hone x
        have h2 := cover_erase hr x
        rw [cover_cons] at h1
        omega
      have hlen := ih hfg' hone' (Filled.erase hr hfg' hrf hf.2)
      rw [List.length_erase_of_mem hr] at hlen
      have := List.length_pos_of_mem hr
      rw [List.length_cons]
      omega

/-- Every address of `[lo, hi)` is covered exactly once and no other address is. -/
def Tiles (lo hi : Nat) (es : List Extent) : Prop :=
  ∀ x, cover es x = if lo ≤ x ∧ x < hi then 1 else 0

/-- A nonempty extent of a tiling lies inside it. -/
theorem Tiles.inside {lo hi : Nat} {es : List Extent} (h : Tiles lo hi es) {e : Extent}
    (he : e ∈ es) (hs : 0 < e.size) : lo ≤ e.off ∧ e.off + e.size ≤ hi := by
  have hin : ∀ x, e.off ≤ x → x < e.off + e.size → lo ≤ x ∧ x < hi := by
    intro x h₁ h₂
    by_contra hno
    have hc := ind_le_cover he x
    rw [Extent.ind_eq_one h₁ h₂, h x, if_neg hno] at hc
    omega
  have h1 := hin e.off (Nat.le_refl _) (by omega)
  have h2 := hin (e.off + e.size - 1) (by omega) (by omega)
  omega

/-- An extent of a tiling is apart from any part of the rest. -/
theorem Tiles.apart {lo hi : Nat} {es fs : List Extent} (h : Tiles lo hi (es ++ fs)) {r : Extent}
    (hr : r ∈ fs) : Apart r es := by
  intro x h₁ h₂
  have h3 := h x
  have h4 := ind_le_cover hr x
  rw [Extent.ind_eq_one h₁ h₂] at h4
  rw [cover_append] at h3
  split at h3 <;> omega

theorem GappedFrom.filled {lo hi b : Nat} {live : List Extent} :
    ∀ {es : List Extent}, GappedFrom b es →
      (∀ x, b ≤ x → lo ≤ x → x < hi → cover es x + cover live x = 1) →
      (∀ x, 0 < cover es x → lo ≤ x ∧ x < hi) → Filled live es
  | [], _, _, _ => trivial
  | [_], _, _, _ => trivial
  | e :: f :: fs, hg, hc, hin => by
    obtain ⟨h1, h2, h3⟩ := hg
    have hf1 := h3.1
    have hf2 := h3.2.1
    have he : 0 < cover (e :: f :: fs) e.off := by
      rw [cover_cons, Extent.ind_eq_one (Nat.le_refl _) (by omega)]; omega
    have hf : 0 < cover (e :: f :: fs) f.off := by
      rw [cover_cons, cover_cons, Extent.ind_eq_one (e := f) (Nat.le_refl _) (by omega)]; omega
    have hlo := (hin _ he).1
    have hhi := (hin _ hf).2
    refine ⟨?_, GappedFrom.filled h3 (fun x hx hx₁ hx₂ => ?_) fun x hx => hin x ?_⟩
    · have hx := hc (e.off + e.size) (by omega) (by omega) (by omega)
      rw [cover_cons, Extent.ind_eq_zero_of_ge (Nat.le_refl _),
        h3.cover_eq_zero (Nat.lt_succ_self _)] at hx
      omega
    · have := hc x (by omega) hx₁ hx₂
      rw [cover_cons, Extent.ind_eq_zero_of_ge (by omega)] at this
      omega
    · rw [cover_cons]; omega

/-- **Free runs never outnumber live runs by more than one.** -/
theorem Gapped.length_le {lo hi : Nat} {es live : List Extent} (hg : Gapped es)
    (ht : Tiles lo hi (es ++ live)) : es.length ≤ live.length + 1 := by
  have hsum : ∀ x, cover es x + cover live x = if lo ≤ x ∧ x < hi then 1 else 0 := by
    intro x
    rw [← cover_append]
    exact ht x
  have hone : ∀ x, cover es x + cover live x ≤ 1 := by
    intro x
    rw [hsum x]
    split <;> omega
  have hfull : ∀ x, 0 ≤ x → lo ≤ x → x < hi → cover es x + cover live x = 1 := by
    intro x _ h₁ h₂
    rw [hsum x, if_pos ⟨h₁, h₂⟩]
  have hin : ∀ x, 0 < cover es x → lo ≤ x ∧ x < hi := by
    intro x hx
    by_contra hno
    have := hsum x
    rw [if_neg hno] at this
    omega
  exact GappedFrom.length_le_of_filled hg hone (GappedFrom.filled hg hfull hin)

end DiscoBSD.Lib
