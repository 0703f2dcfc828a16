import Mathlib
import DiscoBSD.Rmap.Contiguous
import DiscoBSD.Rmap.Malloc3

/-!
# All three segments, or none

**`malloc3` takes three ranges that were free and nothing else, or it takes nothing**: the map is read as the set of its
free addresses, so it does not matter which descriptors the ranges were cut from, or which of these were used up.
-/

set_option autoImplicit false

namespace DiscoBSD.Rmap

open DiscoBSD.Lib

/-- The address lies in one of the runs. -/
def FreeAt (free : List Extent) (x : Nat) : Prop := ∃ e ∈ free, e.off ≤ x ∧ x < e.off + e.size

/-- The address lies in the segment of that index. -/
def InSegment (sizes a : Fin 3 → Nat) (i : Fin 3) (x : Nat) : Prop := a i ≤ x ∧ x < a i + sizes i

section

variable {mp : Map} {free es : List Extent} {sizes a : Fin 3 → Nat} {i j : Fin 3} {x n : Nat}

theorem freeAt_iff : FreeAt free x ↔ 0 < cover free x := by
  constructor
  · rintro ⟨e, he, hlow, hhigh⟩
    have hle := ind_le_cover he x
    rwa [Extent.ind_eq_one hlow hhigh] at hle
  · exact exists_of_cover_pos

/-- An address of a segment is counted once for it. -/
theorem InSegment.ind (h : InSegment sizes a i x) : (Extent.mk (a i) (sizes i)).ind x = 1 := Extent.ind_eq_one h.1 h.2

theorem ind_of_not_inSegment (h : ¬InSegment sizes a i x) : (Extent.mk (a i) (sizes i)).ind x = 0 := if_neg h

/-- The three counts. -/
def taken (sizes a : Fin 3 → Nat) (x : Nat) : Nat :=
  (Extent.mk (a 0) (sizes 0)).ind x + (Extent.mk (a 1) (sizes 1)).ind x + (Extent.mk (a 2) (sizes 2)).ind x

theorem InSegment.le_taken (h : InSegment sizes a i x) : 1 ≤ taken sizes a x := by
  have hind := h.ind
  unfold taken
  fin_cases i <;> simp only [Fin.zero_eta, Fin.mk_one, Fin.reduceFinMk] at hind <;> lia

theorem InSegment.two_le_taken (hi : InSegment sizes a i x) (hj : InSegment sizes a j x) (hne : i ≠ j) :
    2 ≤ taken sizes a x := by
  have hindi := hi.ind
  have hindj := hj.ind
  unfold taken
  fin_cases i <;> fin_cases j <;> simp only [Fin.zero_eta, Fin.mk_one, Fin.reduceFinMk] at hindi hindj hne <;>
    first
    | exact absurd rfl hne
    | lia

theorem exists_of_taken (h : 0 < taken sizes a x) : ∃ i, InSegment sizes a i x := by
  by_contra hnone
  have hzero : ∀ i, (Extent.mk (a i) (sizes i)).ind x = 0 := fun i => ind_of_not_inSegment fun hi => hnone ⟨i, hi⟩
  unfold taken at h
  rw [hzero, hzero, hzero] at h
  exact absurd h (by decide)

/-- What three cuts take is free, in one segment only, and free no more. -/
theorem Cuts.exact (h : Cuts sizes a free es) (hg : Gapped free) :
    (∀ i j x, i ≠ j → InSegment sizes a i x → ¬InSegment sizes a j x) ∧ (∀ i x, InSegment sizes a i x → FreeAt free x) ∧
      ∀ x, FreeAt es x ↔ FreeAt free x ∧ ∀ i, ¬InSegment sizes a i x := by
  have hcover : ∀ x, Lib.cover es x + taken sizes a x = Lib.cover free x := h.cover
  have hone : ∀ x, Lib.cover free x ≤ 1 := hg.cover_le_one
  refine ⟨fun i j x hne hi hj => ?_, fun i x hi => ?_, fun x => ?_⟩
  · have htwo := hi.two_le_taken hj hne
    have := hcover x
    have := hone x
    lia
  · have hle := hi.le_taken
    have := hcover x
    exact freeAt_iff.mpr (by lia)
  · have hx := hcover x
    rw [freeAt_iff, freeAt_iff]
    constructor
    · intro hpos
      refine ⟨by lia, fun i hi => ?_⟩
      have := hi.le_taken
      have := hone x
      lia
    · rintro ⟨hpos, hnone⟩
      by_contra hzero
      have htaken : 0 < taken sizes a x := by lia
      obtain ⟨i, hi⟩ := exists_of_taken htaken
      exact hnone i hi

theorem freeAt_dropEmpty : FreeAt (dropEmpty es) x ↔ FreeAt es x := by
  rw [freeAt_iff, freeAt_iff, cover_dropEmpty]

/-- A map with no more free addresses is well formed if it is gapped. -/
theorem Runs.of_subset {w : Nat} (hr : Runs w free) (hg : Gapped es) (hsub : ∀ x, FreeAt es x → FreeAt free x) : Runs w es := by
  have hsize := (gapped_iff.mp hg).2
  refine ⟨hg, fun e he => ?_, fun e he => ?_⟩
  · have := hsize e he
    obtain ⟨f, hf, hle, -⟩ := hsub e.off ⟨e, he, Nat.le_refl _, by lia⟩
    exact Nat.lt_of_lt_of_le (hr.off_pos f hf) hle
  · have := hsize e he
    obtain ⟨f, hf, -, hlt⟩ := hsub (e.off + e.size - 1) ⟨e, he, by lia, by lia⟩
    have := hr.end_lt f hf
    lia

/-- The map stays well formed. -/
theorem Cuts.runs (h : Cuts sizes a free es) {w : Nat} (hr : Runs w free) : Runs w (dropEmpty es) := by
  have hgapped : Gapped (dropEmpty es) := (h.spaced hr.gapped).dropEmpty
  refine hr.of_subset hgapped fun x hx => ?_
  exact (((h.exact hr.gapped).2.2 x).mp (freeAt_dropEmpty.mp hx)).1

/-- What `malloc3` has done when it succeeds: three ranges of the sizes asked for, apart, that were free, and the map is
well formed and free elsewhere only. -/
structure Served (mp : Map) (free : List Extent) (n : Nat) (sizes a : Fin 3 → Nat) (mp' : Map) : Prop where
  address : ∀ i, a i ≠ 0
  apart : ∀ i j x, i ≠ j → InSegment sizes a i x → ¬InSegment sizes a j x
  wasFree : ∀ i x, InSegment sizes a i x → FreeAt free x
  rest : ∃ free', Holds mp'.m_map free' n ∧ Runs mp'.m_width free' ∧ mp'.m_width = mp.m_width ∧
    ∀ x, FreeAt free' x ↔ FreeAt free x ∧ ∀ i, ¬InSegment sizes a i x

/-- **`malloc3` is atomic.** It returns failure and the map is as it was, stale slots included, or it returns the address of
the u area and has taken exactly the three ranges. -/
theorem malloc3_atomic (sizes a : Fin 3 → Nat) (h : Holds mp.m_map free n) (hr : Runs mp.m_width free) :
    malloc3 mp sizes a = .ok (0, a, mp) ∨
    ∃ a' mp', malloc3 mp sizes a = .ok (a' 2, a', mp') ∧ Served mp free n sizes a' mp' := by
  rcases malloc3_holds sizes a h hr with hfail | ⟨a', es, m', hrun, hcuts, hholds⟩
  · exact .inl hfail
  · obtain ⟨hapart, hfree, hrest⟩ := hcuts.exact hr.gapped
    refine .inr ⟨a', _, hrun, ?_, hapart, hfree, dropEmpty es, hholds, hcuts.runs hr, rfl, fun x => ?_⟩
    · exact fun i => Nat.ne_of_gt ((hcuts.off_pos hr.off_pos).2 i)
    · rw [freeAt_dropEmpty]
      exact hrest x

/-- Data and u area out of one run, with no stack. -/
theorem malloc3_atomic_two :
    malloc3 ⟨[⟨4, 8⟩, ⟨0, 0⟩], "swapmap", 16⟩ ![5, 0, 3] ![0, 0, 0] = .ok (0, ![0, 0, 0], ⟨[⟨4, 8⟩, ⟨0, 0⟩], "swapmap", 16⟩) ∨
    ∃ a' mp', malloc3 ⟨[⟨4, 8⟩, ⟨0, 0⟩], "swapmap", 16⟩ ![5, 0, 3] ![0, 0, 0] = .ok (a' 2, a', mp') ∧
      Served ⟨[⟨4, 8⟩, ⟨0, 0⟩], "swapmap", 16⟩ [⟨4, 8⟩] 2 ![5, 0, 3] a' mp' :=
  malloc3_atomic _ _ ⟨[], rfl, rfl⟩ ⟨⟨by decide, by decide, trivial⟩, by decide, by decide⟩

end

end DiscoBSD.Rmap

/-!
# Where the cursor leads

The cyclic search of `malloc3_contiguous_next`. **It finds room whenever a free run is large enough**, since a run that
the first pass passes over starts below the cursor, and there the second pass takes it from its start. With a spare
descriptor the place it finds is the lowest at or above the cursor, or else the lowest of all.
-/

namespace DiscoBSD.Rmap

open DiscoBSD.Lib

/-- An aligned run of `span` units may start here. -/
def Candidate (free : List Extent) (align span x : Nat) : Prop :=
  align ∣ x ∧ ∃ e ∈ free, e.off ≤ x ∧ x + span ≤ e.off + e.size

section

variable {free : List Extent} {align span next base w i x : Nat} {wrapped spare : Bool} {e : Extent}

theorem align_pos (h : ¬badAlign align) : 0 < align := by
  obtain ⟨k, rfl⟩ := align_eq h
  exact Nat.two_pow_pos k

/-- A multiple of the alignment inside the type is at most the last one. -/
theorem le_last_multiple (h : ¬badAlign align) (h0 : 0 < x) (hx : x < 2 ^ 32) (hdvd : align ∣ x) :
    x ≤ 2 ^ 32 - 1 - (align - 1) := by
  obtain ⟨k, rfl⟩ := align_eq h
  have hpos := Nat.two_pow_pos k
  have hk : k ≤ 32 := by
    by_contra hgt
    have hle := Nat.le_of_dvd h0 hdvd
    have : 2 ^ 33 ≤ 2 ^ k := Nat.pow_le_pow_right (by lia) (by lia)
    lia
  have hsub : 2 ^ k ∣ 2 ^ 32 - x := Nat.dvd_sub (Nat.pow_dvd_pow 2 hk) hdvd
  have hle := Nat.le_of_dvd (by lia) hsub
  lia

theorem alignUp_eq (h : ¬badAlign align) (h0 : 0 < x) (hx : x ≤ 2 ^ 32 - 1 - (align - 1)) :
    alignUp align x = roundUp align x := by
  obtain ⟨k, rfl⟩ := align_eq h
  have hpos := Nat.two_pow_pos k
  have hlt : x + 2 ^ k - 1 < 2 ^ 32 := by lia
  have hk : k ≤ 32 := by
    by_contra hgt
    have : 2 ^ 33 ≤ 2 ^ k := Nat.pow_le_pow_right (by lia) (by lia)
    lia
  rw [alignUp, wrap_of_lt hlt, maskDown_add hk hlt]

/-! ## One descriptor -/

/-- A descriptor that the search looks into. -/
structure Fitting (align span : Nat) (e : Extent) : Prop where
  off_pos : 0 < e.off
  end_lt : e.off + e.size < 2 ^ 32
  off_dvd : align ∣ e.off
  size_dvd : align ∣ e.size
  fits : span ≤ e.size

/-- Pass zero finds the lowest place in the descriptor, at or above the cursor, if there is one. -/
theorem candidateIn_above (next : Nat) (hbad : ¬badAlign align) (hspan : 0 < span) (he : Fitting align span e) :
    (candidateIn false next align span e = none → ∀ x, align ∣ x → next ≤ x → e.off ≤ x → e.off + e.size < x + span) ∧
      ∀ c, candidateIn false next align span e = some c →
        next ≤ c ∧ ∀ x, align ∣ x → next ≤ x → e.off ≤ x → c ≤ x := by
  have hfits := he.fits
  have hend := he.end_lt
  have hpos := align_pos hbad
  simp only [candidateIn, wrap_of_lt hend, Bool.false_eq_true, if_false]
  obtain ⟨start, hstart⟩ : ∃ start, start = if e.off < next then next else e.off := ⟨_, rfl⟩
  rw [← hstart]
  have hle : next ≤ start ∧ e.off ≤ start := by
    rw [hstart]
    split <;> lia
  have hmax : ∀ x, next ≤ x → e.off ≤ x → start ≤ x := by
    intro x hnext hoff
    rw [hstart]
    split <;> assumption
  have hoff := he.off_pos
  by_cases hguard : 2 ^ 32 - 1 - (align - 1) < start
  · rw [if_pos hguard]
    refine ⟨fun _ x hdvd hnext hlow => ?_, fun c hc => by cases hc⟩
    by_contra hin
    have := hmax x hnext hlow
    have := le_last_multiple hbad (by lia) (by lia) hdvd
    lia
  · rw [if_neg hguard, alignUp_eq hbad (by lia) (by lia)]
    have hround := le_roundUp hpos start
    by_cases hlast : e.off + e.size - span < roundUp align start
    · rw [if_pos hlast]
      refine ⟨fun _ x hdvd hnext hlow => ?_, fun c hc => by cases hc⟩
      have := roundUp_le hpos (hmax x hnext hlow) hdvd
      lia
    · rw [if_neg hlast]
      refine ⟨by rintro ⟨⟩, fun c hc => ?_⟩
      cases hc
      exact ⟨by lia, fun x hdvd hnext hlow => roundUp_le hpos (hmax x hnext hlow) hdvd⟩

/-- A descriptor that starts at or above the cursor is taken from its start. -/
theorem candidateIn_start (hbad : ¬badAlign align) (he : Fitting align span e) (hnext : next ≤ e.off) :
    candidateIn false next align span e = some e.off := by
  have hfits := he.fits
  have hend := he.end_lt
  have hlast := le_last_multiple hbad he.off_pos (by lia) he.off_dvd
  simp only [candidateIn, wrap_of_lt hend, Bool.false_eq_true, if_false]
  rw [if_neg (Nat.not_lt.mpr hnext), if_neg (Nat.not_lt.mpr hlast), alignUp_eq hbad he.off_pos hlast,
    roundUp_of_dvd (align_pos hbad) he.off_dvd, if_neg (by lia)]

theorem avoidSplit_start (wrapped spare : Bool) (next span : Nat) (e : Extent) :
    avoidSplit wrapped spare next span e e.off = some e.off := by
  simp [avoidSplit]

theorem avoidSplit_spare (wrapped : Bool) (next span c : Nat) (e : Extent) :
    avoidSplit wrapped true next span e c = some c := by
  simp [avoidSplit]

/-! ## One pass -/

theorem nextPass_cons (hbad : ¬badAlign align) (hr : Runs w (e :: free)) (hw : w ≤ 32) (ha : Aligned align (e :: free))
    (rest : List Extent) :
    nextPass wrapped spare next align span i (e :: rest) =
      if e.size < span then nextPass wrapped spare next align span (i + 1) rest
      else match (candidateIn wrapped next align span e).bind (avoidSplit wrapped spare next span e) with
        | none => nextPass wrapped spare next align span (i + 1) rest
        | some base => .ok (some (i, base)) := by
  have hle : 2 ^ w ≤ 2 ^ 32 := Nat.pow_le_pow_right (by lia) hw
  have hsize := hr.size_pos e (by simp)
  have hend := hr.end_lt e (by simp)
  obtain ⟨⟨hoff, hdvd⟩, -⟩ := aligned_cons.mp ha
  rw [← and_align_eq_zero hbad] at hoff hdvd
  rw [nextPass, if_neg (Nat.ne_of_gt hsize),
    if_neg (show ¬(e.off &&& (align - 1) ≠ 0 ∨ e.size &&& (align - 1) ≠ 0) by simp [hoff, hdvd]),
    wrap_of_lt (show e.off + e.size < 2 ^ 32 by lia)]
  exact if_neg (show ¬e.off + e.size < e.off by lia)

theorem Runs.tail (hr : Runs w (e :: free)) : Runs w free :=
  ⟨hr.gapped.2.2.mono (Nat.zero_le _), fun f hf => hr.off_pos f (List.mem_cons_of_mem e hf),
    fun f hf => hr.end_lt f (List.mem_cons_of_mem e hf)⟩

theorem Runs.fitting (hr : Runs w (e :: free)) (hw : w ≤ 32) (ha : Aligned align (e :: free)) (hspan : span ≤ e.size) :
    Fitting align span e := by
  have hle : 2 ^ w ≤ 2 ^ 32 := Nat.pow_le_pow_right (by lia) hw
  have hend := hr.end_lt e (by simp)
  obtain ⟨⟨hoff, hdvd⟩, -⟩ := aligned_cons.mp ha
  exact ⟨hr.off_pos e (by simp), by lia, hoff, hdvd, hspan⟩

/-- The runs behind a descriptor lie above it. -/
theorem Runs.below (hr : Runs w (e :: free)) : ∀ f ∈ free, e.off + e.size < f.off :=
  (List.pairwise_cons.mp (gapped_iff.mp hr.gapped).1).1

/-- A place in the table is one in the first descriptor, or one behind it. -/
theorem Candidate.cons : Candidate (e :: free) align span x ↔
    (align ∣ x ∧ e.off ≤ x ∧ x + span ≤ e.off + e.size) ∨ Candidate free align span x := by
  constructor
  · rintro ⟨hdvd, f, hf, hlow, hhigh⟩
    rcases List.mem_cons.mp hf with rfl | hf
    · exact .inl ⟨hdvd, hlow, hhigh⟩
    · exact .inr ⟨hdvd, f, hf, hlow, hhigh⟩
  · rintro (⟨hdvd, hlow, hhigh⟩ | ⟨hdvd, f, hf, hlow, hhigh⟩)
    · exact ⟨hdvd, e, List.mem_cons_self, hlow, hhigh⟩
    · exact ⟨hdvd, f, List.mem_cons_of_mem e hf, hlow, hhigh⟩

/-- With a spare descriptor, pass zero finds the lowest place at or above the cursor. -/
theorem nextPass_above (stale : List Extent) (hbad : ¬badAlign align) (hspan : 0 < span) (hw : w ≤ 32) (next : Nat)
    (hr : Runs w free) (ha : Aligned align free) (i : Nat) :
    (nextPass false true next align span i (free ++ ⟨0, 0⟩ :: stale) = .ok none →
      ∀ x, Candidate free align span x → x < next) ∧
    ∀ j base, nextPass false true next align span i (free ++ ⟨0, 0⟩ :: stale) = .ok (some (j, base)) →
      next ≤ base ∧ ∀ x, Candidate free align span x → next ≤ x → base ≤ x := by
  induction free generalizing i with
  | nil =>
    rw [List.nil_append, nextPass, if_pos rfl]
    refine ⟨?_, fun j base h => by cases h⟩
    rintro - x ⟨-, f, hf, -⟩
    exact absurd hf List.not_mem_nil
  | cons e free ih =>
    obtain ⟨ihnone, ihsome⟩ := ih hr.tail (aligned_cons.mp ha).2 (i + 1)
    have hbelow := hr.below
    have habove : ∀ x, Candidate free align span x → e.off + e.size ≤ x := by
      rintro x ⟨-, f, hf, hlow, -⟩
      have := hbelow f hf
      lia
    rw [List.cons_append, nextPass_cons hbad hr hw ha]
    by_cases hsmall : e.size < span
    · -- The descriptor has no room, so the places are those behind it.
      rw [if_pos hsmall]
      have hnot : ∀ x, Candidate (e :: free) align span x → Candidate free align span x := by
        intro x hx
        rcases Candidate.cons.mp hx with ⟨-, hlow, hhigh⟩ | hx
        · lia
        · exact hx
      exact ⟨fun h x hx => ihnone h x (hnot x hx), fun j base h =>
        ⟨(ihsome j base h).1, fun x hx => (ihsome j base h).2 x (hnot x hx)⟩⟩
    · rw [if_neg hsmall]
      have hfit := hr.fitting hw ha (Nat.le_of_not_lt hsmall)
      obtain ⟨hnone, hsome⟩ := candidateIn_above next hbad hspan hfit
      cases hc : candidateIn false next align span e with
      | none =>
        rw [Option.bind_none]
        have hnot : ∀ x, Candidate (e :: free) align span x → next ≤ x → Candidate free align span x := by
          intro x hx hnext
          rcases Candidate.cons.mp hx with ⟨hdvd, hlow, hhigh⟩ | hx
          · have := hnone hc x hdvd hnext hlow
            lia
          · exact hx
        refine ⟨fun h x hx => ?_, fun j base h => ⟨(ihsome j base h).1, fun x hx hnext => ?_⟩⟩
        · by_contra hge
          exact hge (ihnone h x (hnot x hx (Nat.le_of_not_lt hge)))
        · exact (ihsome j base h).2 x (hnot x hx hnext) hnext
      | some c =>
        rw [Option.bind_some, avoidSplit_spare]
        obtain ⟨hnext, hleast⟩ := hsome c hc
        have hin := (candidateIn_fits hbad hfit.end_lt hfit.fits hfit.off_pos hfit.off_dvd hc).2.1
        refine ⟨by rintro ⟨⟩, fun j base h => ?_⟩
        cases h
        refine ⟨hnext, fun x hx hle => ?_⟩
        rcases Candidate.cons.mp hx with ⟨hdvd, hlow, -⟩ | hx
        · exact hleast x hdvd hle hlow
        · have := habove x hx
          lia

/-- What pass zero passes over starts below the cursor, with or without a spare descriptor. -/
theorem nextPass_passed (stale : List Extent) (hbad : ¬badAlign align) (hw : w ≤ 32) (spare : Bool) (next : Nat)
    (hr : Runs w free) (ha : Aligned align free) (i : Nat)
    (h : nextPass false spare next align span i (free ++ ⟨0, 0⟩ :: stale) = .ok none) :
    ∀ e ∈ free, span ≤ e.size → e.off < next := by
  induction free generalizing i with
  | nil => exact fun e he => absurd he List.not_mem_nil
  | cons e free ih =>
    have ih' := fun h => ih hr.tail (aligned_cons.mp ha).2 (i + 1) h
    rw [List.cons_append, nextPass_cons hbad hr hw ha] at h
    intro f hf hfits
    by_cases hsmall : e.size < span
    · rw [if_pos hsmall] at h
      rcases List.mem_cons.mp hf with rfl | hf
      · lia
      · exact ih' h f hf hfits
    · rw [if_neg hsmall] at h
      by_cases hnext : next ≤ e.off
      · rw [candidateIn_start hbad (hr.fitting hw ha (Nat.le_of_not_lt hsmall)) hnext, Option.bind_some, avoidSplit_start] at h
        cases h
      · split at h
        · rcases List.mem_cons.mp hf with rfl | hf
          · exact Nat.lt_of_not_le hnext
          · exact ih' h f hf hfits
        · cases h

/-- Pass one takes the first large enough descriptor that starts below the cursor. -/
theorem nextPass_wrapped (stale : List Extent) (hbad : ¬badAlign align) (hw : w ≤ 32) (spare : Bool) (next : Nat)
    (hr : Runs w free) (ha : Aligned align free) (hall : ∀ e ∈ free, span ≤ e.size → e.off < next) (i : Nat) :
    (nextPass true spare next align span i (free ++ ⟨0, 0⟩ :: stale) = .ok none → ∀ e ∈ free, e.size < span) ∧
    ∀ j base, nextPass true spare next align span i (free ++ ⟨0, 0⟩ :: stale) = .ok (some (j, base)) →
      ∀ x, Candidate free align span x → base ≤ x := by
  induction free generalizing i with
  | nil =>
    rw [List.nil_append, nextPass, if_pos rfl]
    exact ⟨fun _ e he => absurd he List.not_mem_nil, fun j base h => by cases h⟩
  | cons e free ih =>
    obtain ⟨ihnone, ihsome⟩ := ih hr.tail (aligned_cons.mp ha).2 (fun f hf => hall f (List.mem_cons_of_mem e hf)) (i + 1)
    rw [List.cons_append, nextPass_cons hbad hr hw ha]
    by_cases hsmall : e.size < span
    · rw [if_pos hsmall]
      refine ⟨fun h f hf => ?_, fun j base h x hx => ?_⟩
      · rcases List.mem_cons.mp hf with rfl | hf
        · exact hsmall
        · exact ihnone h f hf
      · rcases Candidate.cons.mp hx with ⟨-, hlow, hhigh⟩ | hx
        · lia
        · exact ihsome j base h x hx
    · have hlt := hall e List.mem_cons_self (Nat.le_of_not_lt hsmall)
      have hc : candidateIn true next align span e = some e.off := by
        simp only [candidateIn, if_true]
        rw [if_neg (Nat.not_le.mpr hlt)]
      rw [if_neg hsmall, hc, Option.bind_some, avoidSplit_start]
      refine ⟨by rintro ⟨⟩, fun j base h x hx => ?_⟩
      cases h
      rcases Candidate.cons.mp hx with ⟨-, hlow, -⟩ | ⟨-, f, hf, hlow, -⟩
      · exact hlow
      · have := hr.below f hf
        lia

/-! ## The search -/

theorem nextSelect_none (stale : List Extent) (hbad : ¬badAlign align) (hw : w ≤ 32) (hr : Runs w free)
    (ha : Aligned align free) (h : nextSelect spare next align span (free ++ ⟨0, 0⟩ :: stale) = .ok none) :
    ∀ e ∈ free, e.size < span := by
  unfold nextSelect at h
  split at h
  · rename_i hfirst
    exact (nextPass_wrapped stale hbad hw spare next hr ha (nextPass_passed stale hbad hw spare next hr ha 0 hfirst) 0).1 h
  · rename_i hnot
    exact absurd h hnot

/-- With a spare descriptor the search takes the lowest place from the cursor on, or the lowest of all. -/
theorem nextSelect_least (stale : List Extent) (hbad : ¬badAlign align) (hspan : 0 < span) (hw : w ≤ 32) (hr : Runs w free)
    (ha : Aligned align free) {j : Nat}
    (h : nextSelect true next align span (free ++ ⟨0, 0⟩ :: stale) = .ok (some (j, base))) :
    (next ≤ base ∧ ∀ x, Candidate free align span x → next ≤ x → base ≤ x) ∨
      ((∀ x, Candidate free align span x → x < next) ∧ ∀ x, Candidate free align span x → base ≤ x) := by
  obtain ⟨hnone, hsome⟩ := nextPass_above stale hbad hspan hw next hr ha 0
  unfold nextSelect at h
  split at h
  · rename_i hfirst
    have hpassed := nextPass_passed stale hbad hw true next hr ha 0 hfirst
    exact .inr ⟨hnone hfirst, (nextPass_wrapped stale hbad hw true next hr ha hpassed 0).2 j base h⟩
  · exact .inl (hsome j base h)

/-! ## The request -/

/-- A request that the guards turn away needs more than any run has. -/
theorem runSpan_eq (hbad : ¬badAlign align) (d_size s_size u_size : Nat) (hpos : 0 < d_size + s_size + u_size) :
    runSpan d_size s_size u_size align = some (roundUp align (d_size + s_size + u_size)) ∨
      runSpan d_size s_size u_size align = none ∧ 2 ^ 32 ≤ roundUp align (d_size + s_size + u_size) := by
  have hround := le_roundUp (align_pos hbad) (d_size + s_size + u_size)
  by_cases hlarge : 2 ^ 32 ≤ roundUp align (d_size + s_size + u_size)
  · refine .inr ⟨?_, hlarge⟩
    have hlt := roundUp_lt (align_pos hbad) (d_size + s_size + u_size)
    unfold runSpan
    split
    · rfl
    · rw [if_pos (.inr (by lia))]
  · have hlast := le_last_multiple hbad (by lia) (Nat.lt_of_not_le hlarge) (dvd_roundUp align _)
    left
    unfold runSpan
    rw [if_neg (by lia), if_neg (by lia), alignUp_eq hbad hpos (by lia)]

end

/-! ## The whole call -/

/-- What the call has done when it succeeds. -/
structure Rotated (mp : Map) (free : List Extent) (n align span next base : Nat) (mp' : Map) : Prop where
  candidate : Candidate free align span base
  rest : ∃ free', Holds mp'.m_map free' n ∧ Runs mp'.m_width free' ∧ Aligned align free' ∧ mp'.m_width = mp.m_width ∧
    ∀ x, FreeAt free' x ↔ FreeAt free x ∧ ¬(base ≤ x ∧ x < base + span)
  lowest : free.length + 1 < n →
    ((∃ x, Candidate free align span x ∧ next ≤ x) → IsLeast {x | Candidate free align span x ∧ next ≤ x} base) ∧
    ((∀ x, Candidate free align span x → x < next) → IsLeast {x | Candidate free align span x} base)

section

variable {mp : Map} {free : List Extent} {n align : Nat}

/-- The free addresses after one run has been carved out. -/
theorem freeAt_carve {lo hi : List Extent} {e : Extent} {base span x : Nat} (hg : Gapped (lo ++ e :: hi)) (hlow : e.off ≤ base)
    (hhigh : base + span ≤ e.off + e.size) :
    FreeAt (lo ++ carve e base span hi) x ↔ FreeAt (lo ++ e :: hi) x ∧ ¬(base ≤ x ∧ x < base + span) := by
  have hcover := carve_cover hi hlow hhigh x
  have hone := hg.cover_le_one x
  rw [freeAt_iff, freeAt_iff, cover_append, cover_append, cover_cons]
  rw [cover_append, cover_cons] at hone
  unfold Extent.ind at hcover hone ⊢
  dsimp only at hcover
  split_ifs at hcover hone ⊢ <;> lia

theorem malloc3ContiguousNext_pos {d_size s_size u_size : Nat} (next : Nat) (a : Fin 3 → Nat)
    (hpos : 0 < d_size + s_size + u_size) (h : Holds mp.m_map free n) (hr : Runs mp.m_width free) (h32 : mp.m_width ≤ 32)
    (hbad : ¬badAlign align) (ha : Aligned align free) :
    ((∃ e ∈ free, roundUp align (d_size + s_size + u_size) ≤ e.size) → ∃ base mp',
      malloc3ContiguousNext mp d_size s_size u_size align (some next) a =
        .ok (roundUp align (d_size + s_size + u_size), base + roundUp align (d_size + s_size + u_size),
          ![base, base + d_size, base + d_size + s_size], mp') ∧
      Rotated mp free n align (roundUp align (d_size + s_size + u_size)) next base mp') ∧
    ((∀ e ∈ free, e.size < roundUp align (d_size + s_size + u_size)) →
      malloc3ContiguousNext mp d_size s_size u_size align (some next) a = .ok (0, next, a, mp)) := by
  have hround := le_roundUp (align_pos hbad) (d_size + s_size + u_size)
  have hdvd := dvd_roundUp align (d_size + s_size + u_size)
  have hspan := runSpan_eq hbad d_size s_size u_size hpos
  obtain ⟨span, hs⟩ : ∃ span, span = roundUp align (d_size + s_size + u_size) := ⟨_, rfl⟩
  rw [← hs] at hround hdvd hspan ⊢
  have hle : 2 ^ mp.m_width ≤ 2 ^ 32 := Nat.pow_le_pow_right (by lia) h32
  unfold malloc3ContiguousNext
  rw [if_neg hbad]
  rcases hspan with hspan | ⟨hspan, hlarge⟩
  · obtain ⟨sel, hsel⟩ := nextSelect_ok (decide (free.length + 1 < n)) next span h hr h32 hbad ha
    simp only [hspan, hasSpare_eq h hr.size_pos, bind, Except.bind, hsel]
    cases sel with
    | none =>
      have hnone : ∀ e ∈ free, e.size < span := by
        obtain ⟨stale, hm, -⟩ := h
        exact nextSelect_none stale hbad h32 hr ha (hm ▸ hsel)
      refine ⟨?_, fun _ => rfl⟩
      rintro ⟨e, he, hfits⟩
      exact absurd hfits (Nat.not_le.mpr (hnone e he))
    | some place =>
      obtain ⟨i, base⟩ := place
      obtain ⟨lo, e, hi, m', hfree, hlow, hhigh, hal, hm', hh⟩ := nextSelect_place h hr h32 hbad hdvd hsel
      have hmem : e ∈ free := by
        rw [hfree]
        exact List.mem_append_right _ List.mem_cons_self
      have hend := hr.end_lt e hmem
      have hsegments : segmentsAt base d_size s_size = ![base, base + d_size, base + d_size + s_size] := by
        have hd : wrap 32 (base + d_size) = base + d_size := wrap_of_lt (by lia)
        have hds : wrap 32 (base + d_size + s_size) = base + d_size + s_size := wrap_of_lt (by lia)
        rw [segmentsAt, hd, hds]
      simp only [hm', wrap_of_lt (show base + span < 2 ^ 32 by lia), hsegments]
      refine ⟨fun _ => ⟨base, _, rfl, ⟨hal, e, hmem, hlow, hhigh⟩, ?_, fun hspare => ?_⟩, fun hnone => ?_⟩
      · rw [hfree] at hr ha ⊢
        obtain ⟨hlo, hehi⟩ := aligned_append.mp ha
        have hgapped : Gapped (lo ++ carve e base span hi) :=
          hr.gapped.append_congr fun lo' hlo' => carve_gapped hlow hhigh (by lia) hlo'
        have hrest := fun x => freeAt_carve (x := x) hr.gapped hlow hhigh
        exact ⟨lo ++ carve e base span hi, hh, hr.of_subset hgapped fun x hx => ((hrest x).mp hx).1,
          aligned_append.mpr ⟨hlo, hehi.carve hal hdvd⟩, rfl, hrest⟩
      · have hleast : (next ≤ base ∧ ∀ x, Candidate free align span x → next ≤ x → base ≤ x) ∨
            ((∀ x, Candidate free align span x → x < next) ∧ ∀ x, Candidate free align span x → base ≤ x) := by
          obtain ⟨stale, hm, -⟩ := h
          rw [decide_eq_true hspare, hm] at hsel
          exact nextSelect_least stale hbad (by lia) h32 hr ha hsel
        have hcand : Candidate free align span base := ⟨hal, e, hmem, hlow, hhigh⟩
        rcases hleast with ⟨hnext, hleast⟩ | ⟨hnone, hleast⟩
        · refine ⟨fun _ => ⟨⟨hcand, hnext⟩, fun x hx => hleast x hx.1 hx.2⟩, fun hnone => ?_⟩
          exact absurd hnext (Nat.not_le.mpr (hnone base hcand))
        · refine ⟨?_, fun _ => ⟨hcand, fun x hx => hleast x hx⟩⟩
          rintro ⟨x, hx, hnext⟩
          exact absurd hnext (Nat.not_le.mpr (hnone x hx))
      · have := hnone e hmem
        lia
  · rw [hspan]
    refine ⟨?_, fun _ => rfl⟩
    rintro ⟨e, he, hfits⟩
    have := hr.end_lt e he
    lia

/-- **`malloc3_contiguous_next`** succeeds if and only if the sizes are not all zero and some free run holds the rounded
total. Then it has taken one aligned run, the three addresses follow each other from its base on, and the cursor is behind
it; with a spare descriptor the base is the lowest from the cursor on, or else the lowest of all. If it fails, nothing has
changed. -/
theorem malloc3ContiguousNext_spec (d_size s_size u_size next : Nat) (a : Fin 3 → Nat) (h : Holds mp.m_map free n)
    (hr : Runs mp.m_width free) (h32 : mp.m_width ≤ 32) (hbad : ¬badAlign align) (ha : Aligned align free) :
    ((0 < d_size + s_size + u_size ∧ ∃ e ∈ free, roundUp align (d_size + s_size + u_size) ≤ e.size) → ∃ base mp',
      malloc3ContiguousNext mp d_size s_size u_size align (some next) a =
        .ok (roundUp align (d_size + s_size + u_size), base + roundUp align (d_size + s_size + u_size),
          ![base, base + d_size, base + d_size + s_size], mp') ∧
      Rotated mp free n align (roundUp align (d_size + s_size + u_size)) next base mp') ∧
    (¬(0 < d_size + s_size + u_size ∧ ∃ e ∈ free, roundUp align (d_size + s_size + u_size) ≤ e.size) →
      malloc3ContiguousNext mp d_size s_size u_size align (some next) a = .ok (0, next, a, mp)) := by
  by_cases hpos : 0 < d_size + s_size + u_size
  · obtain ⟨hserved, hrefused⟩ := malloc3ContiguousNext_pos next a hpos h hr h32 hbad ha
    refine ⟨fun hroom => hserved hroom.2, fun hnone => hrefused fun e he => ?_⟩
    by_contra hfits
    exact hnone ⟨hpos, e, he, Nat.le_of_not_lt hfits⟩
  · refine ⟨fun hroom => absurd hroom.1 hpos, fun _ => ?_⟩
    have hspan : runSpan d_size s_size u_size align = none := by
      unfold runSpan
      rw [if_neg (by lia), if_pos (.inl (by lia))]
    unfold malloc3ContiguousNext
    rw [if_neg hbad, hspan]

/-- An image of two units, with the cursor inside the only run. -/
theorem malloc3ContiguousNext_spec_middle :
    ((0 < 5 + 0 + 2 ∧ ∃ e ∈ [(⟨4, 24⟩ : Extent)], roundUp 4 (5 + 0 + 2) ≤ e.size) → ∃ base mp',
      malloc3ContiguousNext ⟨[⟨4, 24⟩, ⟨0, 0⟩, ⟨0, 0⟩], "swapmap", 16⟩ 5 0 2 4 (some 9) ![0, 0, 0] =
        .ok (roundUp 4 (5 + 0 + 2), base + roundUp 4 (5 + 0 + 2), ![base, base + 5, base + 5 + 0], mp') ∧
      Rotated ⟨[⟨4, 24⟩, ⟨0, 0⟩, ⟨0, 0⟩], "swapmap", 16⟩ [⟨4, 24⟩] 3 4 (roundUp 4 (5 + 0 + 2)) 9 base mp') ∧
    (¬(0 < 5 + 0 + 2 ∧ ∃ e ∈ [(⟨4, 24⟩ : Extent)], roundUp 4 (5 + 0 + 2) ≤ e.size) →
      malloc3ContiguousNext ⟨[⟨4, 24⟩, ⟨0, 0⟩, ⟨0, 0⟩], "swapmap", 16⟩ 5 0 2 4 (some 9) ![0, 0, 0] =
        .ok (0, 9, ![0, 0, 0], ⟨[⟨4, 24⟩, ⟨0, 0⟩, ⟨0, 0⟩], "swapmap", 16⟩)) :=
  malloc3ContiguousNext_spec 5 0 2 9 ![0, 0, 0] ⟨[⟨0, 0⟩], rfl, rfl⟩ ⟨⟨by decide, by decide, trivial⟩, by decide, by decide⟩
    (by decide) (by decide) (aligned_cons.mpr ⟨by decide, .nil 4⟩)

/-- A request for nothing fails, though every run is large enough for it. -/
theorem malloc3ContiguousNext_nothing :
    (∃ e ∈ [(⟨4, 24⟩ : Extent)], roundUp 4 (0 + 0 + 0) ≤ e.size) ∧
      malloc3ContiguousNext ⟨[⟨4, 24⟩, ⟨0, 0⟩, ⟨0, 0⟩], "swapmap", 16⟩ 0 0 0 4 (some 9) ![0, 0, 0] =
        .ok (0, 9, ![0, 0, 0], ⟨[⟨4, 24⟩, ⟨0, 0⟩, ⟨0, 0⟩], "swapmap", 16⟩) := by
  refine ⟨⟨⟨4, 24⟩, List.mem_singleton_self _, by decide⟩, ?_⟩
  unfold malloc3ContiguousNext
  rw [if_neg (by decide)]
  rfl

end

end DiscoBSD.Rmap
