import Mathlib
import DiscoBSD.Rmap.Map

/-!
# What each map operation does to the free list

The table is read through one relation: `Holds m free n` says that the `n` slots of `m` are the runs
`free`, a zero descriptor, and stale slots. Each walk of `Rmap.Map` is then one operation on the list
of runs, and **the terminator is part of what is carried along**: it is copied by every shift, and the
compaction of `malloc3` stops at it because its address is zero too.

* `malloc` is first fit (`take`);
* `mfree` is a coalescing release, or the overflow message when the table is full;
* `malloc3` cuts three runs and drops the descriptors it used up;
* `malloc3_contiguous_next` carves one run out of the middle of a descriptor.
-/

set_option autoImplicit false

namespace DiscoBSD.Rmap

open DiscoBSD.Lib

/-- `n` slots: the runs, the terminator, then stale slots. -/
def Holds (m free : List Extent) (n : Nat) : Prop :=
  ∃ stale, m = free ++ ⟨0, 0⟩ :: stale ∧ m.length = n

/-- The runs of a map whose fields are `w` bits wide: gapped, off zero, ends inside the type. -/
structure Runs (w : Nat) (free : List Extent) : Prop where
  gapped : Gapped free
  off_pos : ∀ e ∈ free, 0 < e.off
  end_lt : ∀ e ∈ free, e.off + e.size < 2 ^ w

theorem Runs.size_pos {w : Nat} {free : List Extent} (h : Runs w free) : ∀ e ∈ free, 0 < e.size :=
  (gapped_iff.mp h.gapped).2

theorem Holds.length_lt {m free : List Extent} {n : Nat} (h : Holds m free n) :
    free.length < n := by
  obtain ⟨stale, rfl, hlen⟩ := h
  rw [List.length_append, List.length_cons] at hlen
  omega

theorem Holds.cons {m free : List Extent} {n : Nat} (e : Extent) (h : Holds m free n) :
    Holds (e :: m) (e :: free) (n + 1) := by
  obtain ⟨stale, rfl, hlen⟩ := h
  exact ⟨stale, rfl, by rw [List.length_cons, hlen]⟩

theorem Holds.prepend {m free : List Extent} {n : Nat} (lo : List Extent) (h : Holds m free n) :
    Holds (lo ++ m) (lo ++ free) (lo.length + n) := by
  obtain ⟨stale, rfl, hlen⟩ := h
  exact ⟨stale, by rw [List.append_assoc], by rw [List.length_append, hlen]⟩

/-- The free list is read off the table. -/
theorem Holds.unique {m free free' : List Extent} {n n' : Nat} (h : Holds m free n)
    (h' : Holds m free' n') (hp : ∀ e ∈ free, 0 < e.size) (hp' : ∀ e ∈ free', 0 < e.size) :
    free = free' := by
  have key : ∀ (es stale : List Extent), (∀ e ∈ es, 0 < e.size) →
      (es ++ (⟨0, 0⟩ : Extent) :: stale).takeWhile (fun e => e.size ≠ 0) = es := by
    intro es stale hes
    rw [List.takeWhile_append_of_pos fun e he => by simpa using Nat.ne_of_gt (hes e he)]
    simp
  obtain ⟨s, rfl, _⟩ := h
  obtain ⟨s', heq, _⟩ := h'
  rw [← key free s hp, heq, key free' s' hp']

/-! ## Shifts -/

theorem closeUp_holds {m free : List Extent} {n : Nat} (h : Holds m free n)
    (hp : ∀ e ∈ free, 0 < e.size) (e : Extent) :
    ∃ m', closeUp (e :: m) = .ok m' ∧ Holds m' free (n + 1) := by
  obtain ⟨stale, rfl, hlen⟩ := h
  refine ⟨free ++ ⟨0, 0⟩ :: ⟨0, 0⟩ :: stale, ?_, ⟨0, 0⟩ :: stale, rfl, ?_⟩
  · clear hlen
    induction free generalizing e with
    | nil => rfl
    | cons f fs ih =>
      have hf := hp f (by simp)
      rw [List.cons_append, closeUp, if_neg (by omega), ih (fun g hg => hp g (by simp [hg])) f]
      rfl
  · simp only [List.length_append, List.length_cons] at hlen ⊢
    omega

theorem openUp_cons (new : Extent) {e : Extent} (rest : List Extent) (h : e.size ≠ 0) :
    openUp new (e :: rest) = (openUp e rest).map (Option.map (new :: ·)) := by
  cases rest <;> simp only [openUp, if_neg h]

/-- Room in the table: the terminator is not in the last slot. -/
theorem openUp_holds {m free : List Extent} {n : Nat} (h : Holds m free n)
    (hp : ∀ e ∈ free, 0 < e.size) (new : Extent) :
    (n = free.length + 1 → openUp new m = .ok none) ∧
    (free.length + 1 < n → ∃ m', openUp new m = .ok (some m') ∧ Holds m' (new :: free) n) := by
  obtain ⟨stale, rfl, hlen⟩ := h
  rw [List.length_append, List.length_cons] at hlen
  constructor
  · intro hfull
    have hnil : stale = [] := List.eq_nil_of_length_eq_zero (by omega)
    subst hnil
    clear hlen hfull
    induction free generalizing new with
    | nil => rfl
    | cons f fs ih =>
      have hf := hp f (by simp)
      rw [List.cons_append, openUp_cons new _ (by omega), ih (fun g hg => hp g (by simp [hg])) f]
      rfl
  · intro hroom
    cases stale with
    | nil => simp only [List.length_nil] at hlen; omega
    | cons t stale =>
      refine ⟨new :: free ++ ⟨0, 0⟩ :: stale, ?_, stale, rfl, ?_⟩
      · clear hlen hroom
        induction free generalizing new with
        | nil => rfl
        | cons f fs ih =>
          have hf := hp f (by simp)
          rw [List.cons_append, openUp_cons new _ (by omega), ih (fun g hg => hp g (by simp [hg])) f]
          rfl
      · simp only [List.length_append, List.length_cons] at hlen ⊢
        omega

/-! ## malloc -/

theorem mallocScan_holds {w size n : Nat} {m free : List Extent} (h : Holds m free n)
    (hp : ∀ e ∈ free, 0 < e.size) (hw : ∀ e ∈ free, e.off + e.size < 2 ^ w) :
    (take size free = none → mallocScan w size m = .ok (0, m)) ∧
    ∀ a free', take size free = some (a, free') →
      ∃ m', mallocScan w size m = .ok (a, m') ∧ Holds m' free' n := by
  induction free generalizing m n with
  | nil =>
    obtain ⟨stale, rfl, _⟩ := h
    exact ⟨fun _ => rfl, fun a free' ht => by cases ht⟩
  | cons f fs ih =>
    obtain ⟨stale, rfl, hlen⟩ := h
    have hf := hp f (by simp)
    have hfw := hw f (by simp)
    have htail : Holds (fs ++ ⟨0, 0⟩ :: stale) fs (n - 1) :=
      ⟨stale, rfl, by rw [List.cons_append, List.length_cons] at hlen; omega⟩
    have hn : n - 1 + 1 = n := by rw [List.cons_append, List.length_cons] at hlen; omega
    rw [List.cons_append]
    simp only [mallocScan, take, if_neg (Nat.ne_of_gt hf)]
    by_cases hfit : size ≤ f.size
    · simp only [if_pos hfit]
      refine ⟨by rintro ⟨⟩, fun a free' ht => ?_⟩
      rw [Option.some.injEq, Prod.mk.injEq] at ht
      obtain ⟨rfl, rfl⟩ := ht
      unfold shrink
      by_cases hex : f.size = size
      · obtain ⟨m', hm', hh⟩ := closeUp_holds htail (fun g hg => hp g (by simp [hg])) ⟨f.off, 0⟩
        rw [if_neg (show ¬(f.size - size ≠ 0) by omega), if_pos hex, hm']
        exact ⟨m', rfl, hn ▸ hh⟩
      · rw [if_pos (show f.size - size ≠ 0 by omega), if_neg hex, wrap_of_lt (by omega)]
        exact ⟨_, rfl, hn ▸ htail.cons _⟩
    · simp only [if_neg hfit]
      obtain ⟨hnone, hsome⟩ := ih htail (fun g hg => hp g (by simp [hg]))
        fun g hg => hw g (by simp [hg])
      constructor
      · intro ht
        rw [hnone (Option.map_eq_none_iff.mp ht)]
        rfl
      · intro a free' ht
        obtain ⟨⟨b, gs⟩, hr, heq⟩ := Option.map_eq_some_iff.mp ht
        simp only [Prod.mk.injEq] at heq
        obtain ⟨rfl, rfl⟩ := heq
        obtain ⟨m', hm', hh⟩ := hsome b gs hr
        rw [hm']
        exact ⟨f :: m', rfl, hn ▸ hh.cons f⟩

/-- **`malloc` is first fit**, and a refusal changes nothing. -/
theorem malloc_holds {mp : Map} {free : List Extent} {n size : Nat} (h : Holds mp.m_map free n)
    (hr : Runs mp.m_width free) (h0 : size ≠ 0) :
    (take size free = none → malloc mp size = .ok (0, mp)) ∧
    ∀ a free', take size free = some (a, free') →
      ∃ m', malloc mp size = .ok (a, { mp with m_map := m' }) ∧ Holds m' free' n := by
  obtain ⟨hnone, hsome⟩ := mallocScan_holds h hr.size_pos hr.end_lt
  unfold malloc
  rw [if_neg h0]
  constructor
  · intro ht
    rw [hnone ht]
    rfl
  · intro a free' ht
    obtain ⟨m', hm', hh⟩ := hsome a free' ht
    rw [hm']
    exact ⟨m', rfl, hh⟩

/-! ## mfree -/

/-- The walk stops at the terminator, whatever lies behind it. -/
theorem takeWhile_startsBelow (addr : Nat) (free stale : List Extent) :
    (free ++ (⟨0, 0⟩ : Extent) :: stale).takeWhile (startsBelow addr) =
      free.takeWhile (startsBelow addr) := by
  induction free with
  | nil => rfl
  | cons e es ih =>
    simp only [List.cons_append, List.takeWhile_cons, ih]

theorem dropWhile_startsBelow (addr : Nat) (free stale : List Extent) :
    (free ++ (⟨0, 0⟩ : Extent) :: stale).dropWhile (startsBelow addr) =
      free.dropWhile (startsBelow addr) ++ ⟨0, 0⟩ :: stale := by
  induction free with
  | nil => rfl
  | cons e es ih =>
    simp only [List.cons_append, List.dropWhile_cons, ih]
    split <;> rfl

/-- The piece on the right of the walk's end, if there is one, lies past the freed run. -/
def RightOf (end_ : Nat) (hi : List Extent) : Prop := ∀ e ∈ hi.head?, end_ ≤ e.off

theorem freeLeft_holds {w size addr n : Nat} {before hi m : List Extent} {ep bp : Extent}
    {rest : List Extent} (h : Holds m hi n) (hm : m = bp :: rest) (hp : ∀ e ∈ hi, 0 < e.size)
    (hw : ∀ e ∈ hi, e.off + e.size < 2 ^ w) (h32 : w ≤ 32) (hep : ep.off + ep.size = addr)
    (hend : addr + size < 2 ^ w) (hright : RightOf (addr + size) hi) :
    ∃ m', freeLeft w size addr before ep bp rest = .ok m' ∧
      Holds m' (before ++ join ⟨ep.off, ep.size + size⟩ hi) (before.length + (n + 1)) := by
  have hle : 2 ^ w ≤ 2 ^ 32 := Nat.pow_le_pow_right (by omega) h32
  have hgrow : wrap w (ep.size + size) = ep.size + size := wrap_of_lt (by omega)
  have hsum : wrap 32 (addr + size) = addr + size := wrap_of_lt (by omega)
  simp only [freeLeft, hgrow, hsum]
  subst hm
  cases hi with
  | nil =>
    obtain ⟨stale, heq, hlen⟩ := h
    rw [List.nil_append, List.cons.injEq] at heq
    obtain ⟨rfl, rfl⟩ := heq
    rw [if_neg (by simp)]
    exact ⟨_, rfl, Holds.prepend before (Holds.cons _ ⟨rest, rfl, hlen⟩)⟩
  | cons f fs =>
    obtain ⟨stale, heq, hlen⟩ := h
    rw [List.cons_append, List.cons.injEq] at heq
    obtain ⟨rfl, rfl⟩ := heq
    have hf := hp bp (by simp)
    have hfw := hw bp (by simp)
    have hfr := hright bp (by simp)
    have hn : n - 1 + 1 = n := by rw [List.length_cons] at hlen; omega
    have htail : Holds (fs ++ ⟨0, 0⟩ :: stale) fs (n - 1) :=
      ⟨stale, rfl, by rw [List.length_cons] at hlen; omega⟩
    simp only [join]
    by_cases htouch : addr + size = bp.off
    · obtain ⟨m', hm', hh⟩ := closeUp_holds htail (fun e he => hp e (by simp [he])) bp
      rw [if_pos ⟨Nat.ne_of_gt hf, Nat.le_of_eq htouch.symm⟩, hm',
        if_pos (show ep.off + (ep.size + size) = bp.off by omega),
        wrap_of_lt (show ep.size + size + bp.size < 2 ^ w by omega)]
      rw [hn] at hh
      exact ⟨_, rfl, Holds.prepend before (Holds.cons _ hh)⟩
    · rw [if_neg (show ¬(bp.size ≠ 0 ∧ bp.off ≤ addr + size) by omega),
        if_neg (show ¬(ep.off + (ep.size + size) = bp.off) by omega)]
      exact ⟨_, rfl, Holds.prepend before (Holds.cons _ ⟨stale, rfl, hlen⟩)⟩

theorem freeRight_holds {w size addr n : Nat} {before hi m : List Extent} {bp : Extent}
    {rest : List Extent} (h : Holds m hi n) (hm : m = bp :: rest) (hp : ∀ e ∈ hi, 0 < e.size)
    (hw : ∀ e ∈ hi, e.off + e.size < 2 ^ w) (h32 : w ≤ 32) (hs : 0 < size)
    (hend : addr + size < 2 ^ w) (hright : RightOf (addr + size) hi) :
    (∃ m', freeRight w size addr before bp rest = .ok (some m') ∧
      Holds m' (before ++ join ⟨addr, size⟩ hi) (before.length + n)) ∨
    (freeRight w size addr before bp rest = .ok none ∧ n = hi.length + 1 ∧
      (join ⟨addr, size⟩ hi).length = hi.length + 1) := by
  have hle : 2 ^ w ≤ 2 ^ 32 := Nat.pow_le_pow_right (by omega) h32
  have hsum : wrap 32 (addr + size) = addr + size := wrap_of_lt (by omega)
  have haddr : wrap w addr = addr := wrap_of_lt (by omega)
  have hsize : wrap w size = size := wrap_of_lt (by omega)
  subst hm
  simp only [freeRight, hsum, haddr, hsize]
  -- Either the piece on the right is reached and grows, or a slot is opened in front of it.
  by_cases htouch : bp.size ≠ 0 ∧ bp.off ≤ addr + size
  · rw [if_pos htouch]
    left
    cases hi with
    | nil =>
      obtain ⟨stale, heq, _⟩ := h
      rw [List.nil_append, List.cons.injEq] at heq
      rw [heq.1] at htouch
      exact absurd rfl htouch.1
    | cons f fs =>
      obtain ⟨stale, heq, hlen⟩ := h
      rw [List.cons_append, List.cons.injEq] at heq
      obtain ⟨rfl, rfl⟩ := heq
      have hfw := hw bp (by simp)
      have hfr := hright bp (by simp)
      rw [wrap_of_lt (show bp.size + size < 2 ^ w by omega), Nat.add_comm bp.size]
      simp only [join]
      rw [if_pos (show addr + size = bp.off by omega)]
      exact ⟨_, rfl, Holds.prepend before ⟨stale, rfl, by simpa using hlen⟩⟩
  · rw [if_neg htouch]
    have hjoin : join ⟨addr, size⟩ hi = ⟨addr, size⟩ :: hi := by
      cases hi with
      | nil => rfl
      | cons f fs =>
        obtain ⟨stale, heq, _⟩ := h
        rw [List.cons_append, List.cons.injEq] at heq
        obtain ⟨rfl, rfl⟩ := heq
        have hf := hp bp (by simp)
        simp only [join]
        rw [if_neg (by omega)]
    obtain ⟨hfull, hroom⟩ := openUp_holds h hp ⟨addr, size⟩
    have hlt := h.length_lt
    rw [hjoin]
    by_cases hn : n = hi.length + 1
    · right
      rw [hfull hn]
      exact ⟨rfl, hn, rfl⟩
    · left
      obtain ⟨m', hm', hh⟩ := hroom (by omega)
      rw [hm']
      exact ⟨_, rfl, Holds.prepend before hh⟩

/-- **`mfree` is a coalescing release**, or prints its message and changes nothing: then the table
    is full and the run touches no other. -/
theorem mfree_holds {mp : Map} {free : List Extent} {n size addr : Nat}
    (h : Holds mp.m_map free n) (hr : Runs mp.m_width free) (h32 : mp.m_width ≤ 32)
    (hs : 0 < size) (ha : 0 < addr) (hend : addr + size < 2 ^ mp.m_width)
    (hap : Apart ⟨addr, size⟩ free) :
    (∃ m', mfree mp size addr = .ok (none, { mp with m_map := m' }) ∧
      Holds m' (release ⟨addr, size⟩ free) n) ∨
    (mfree mp size addr = .ok (some ⟨mp.m_name, size, addr⟩, mp) ∧ n = free.length + 1 ∧
      (release ⟨addr, size⟩ free).length = free.length + 1) := by
  obtain ⟨stale, hm, hlen⟩ := h
  have hle : 2 ^ mp.m_width ≤ 2 ^ 32 := Nat.pow_le_pow_right (by omega) h32
  have htw := takeWhile_startsBelow addr free stale
  have hdw := dropWhile_startsBelow addr free stale
  rw [← hm] at htw hdw
  have hsplit : free.takeWhile (startsBelow addr) ++ free.dropWhile (startsBelow addr) = free :=
    List.takeWhile_append_dropWhile
  have hlow : ∀ e ∈ free.takeWhile (startsBelow addr), e.off ≤ addr := by
    intro e he
    have := List.mem_takeWhile_imp he
    simp only [startsBelow, Bool.and_eq_true, decide_eq_true_eq] at this
    exact this.2
  have hhigh : RightOf addr (free.dropWhile (startsBelow addr)) := by
    intro e he
    have hno := List.head?_dropWhile_not (startsBelow addr) free
    rw [Option.mem_def] at he
    rw [he] at hno
    have hpos := hr.size_pos e ((List.dropWhile_suffix _).mem (List.mem_of_head? he))
    simp only [startsBelow, Bool.and_eq_false_iff, decide_eq_false_iff_not] at hno
    omega
  generalize free.takeWhile (startsBelow addr) = lo at *
  generalize free.dropWhile (startsBelow addr) = hi at *
  subst hsplit
  have hpos : ∀ e ∈ hi, 0 < e.size := fun e he => hr.size_pos e (List.mem_append_right lo he)
  have hwid : ∀ e ∈ hi, e.off + e.size < 2 ^ mp.m_width := fun e he =>
    hr.end_lt e (List.mem_append_right lo he)
  have hright : RightOf (addr + size) hi := fun e he =>
    hap.le_off (hpos e (List.mem_of_head? he))
      (List.mem_append_right lo (List.mem_of_head? he)) (hhigh e he)
  have hhold : Holds (hi ++ ⟨0, 0⟩ :: stale) hi (n - lo.length) := by
    refine ⟨stale, rfl, ?_⟩
    rw [hm, List.append_assoc, List.length_append] at hlen
    omega
  have hn : lo.length + (n - lo.length) = n := by
    rw [hm, List.append_assoc, List.length_append] at hlen
    omega
  obtain ⟨bp, rest, hcons⟩ : ∃ bp rest, hi ++ (⟨0, 0⟩ : Extent) :: stale = bp :: rest := by
    cases hi with
    | nil => exact ⟨_, _, rfl⟩
    | cons f fs => exact ⟨_, _, rfl⟩
  have hfinish : (∀ e ∈ lo, e.off + e.size < addr) →
      (∃ m', mfree.finish mp size addr lo bp rest = .ok (none, { mp with m_map := m' }) ∧
        Holds m' (release ⟨addr, size⟩ (lo ++ hi)) n) ∨
      (mfree.finish mp size addr lo bp rest = .ok (some ⟨mp.m_name, size, addr⟩, mp) ∧
        n = (lo ++ hi).length + 1 ∧
        (release ⟨addr, size⟩ (lo ++ hi)).length = (lo ++ hi).length + 1) := by
    intro hlt
    have hbetween : release ⟨addr, size⟩ (lo ++ hi) = lo ++ join ⟨addr, size⟩ hi :=
      release_between hlt hpos hhigh
    rw [hbetween]
    unfold mfree.finish
    obtain ⟨m', hm', hh⟩ | ⟨hm', hfull, hjoin⟩ :=
      freeRight_holds hhold hcons hpos hwid h32 hs hend hright
    · rw [hn] at hh
      rw [hm']
      exact .inl ⟨m', rfl, hh⟩
    · rw [hm', List.length_append, List.length_append, hjoin]
      exact .inr ⟨rfl, by omega, rfl⟩
  rw [mfree, if_neg (by omega), if_neg (by omega)]
  simp only [htw, hdw, hcons]
  rcases List.eq_nil_or_concat lo with rfl | ⟨lo', ep, hcat⟩
  · exact hfinish (by simp)
  · rw [List.concat_eq_append] at hcat
    subst hcat
    simp only [List.getLast?_append, List.getLast?_singleton, Option.some_or,
      List.dropLast_concat]
    have hep := hr.end_lt ep (by simp)
    have hepl := hap.end_le hs (show ep ∈ lo' ++ [ep] ++ hi by simp) (hlow ep (by simp))
    simp only [] at hepl
    rw [wrap_of_lt (show ep.off + ep.size < 2 ^ 32 by omega)]
    by_cases htouch : addr ≤ ep.off + ep.size
    · rw [if_pos htouch]
      obtain ⟨m', hm', hh⟩ := freeLeft_holds hhold hcons hpos hwid h32
        (show ep.off + ep.size = addr by omega) hend hright
      rw [hm', List.append_assoc, List.singleton_append,
        release_touch (by rw [← List.singleton_append, ← List.append_assoc]; exact hr.gapped)
          (show ep.off + ep.size = addr by omega)]
      refine .inl ⟨m', rfl, ?_⟩
      have hn' : lo'.length + (n - (lo' ++ [ep]).length + 1) = n := by
        rw [List.length_append, List.length_singleton] at hn ⊢
        omega
      rw [hn'] at hh
      exact hh
    · rw [if_neg htouch]
      refine hfinish fun e he => ?_
      rcases List.mem_append.mp he with he | he
      · have := (List.pairwise_append.mp
          (List.pairwise_append.mp (gapped_iff.mp hr.gapped).1).1).2.2 e he ep (by simp)
        omega
      · rw [List.mem_singleton] at he
        subst he
        omega

end DiscoBSD.Rmap
