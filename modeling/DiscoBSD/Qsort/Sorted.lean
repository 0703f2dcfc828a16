import DiscoBSD.Qsort.Partition

/-!
# What is sorted

With a smallest record in front the insertion needs no bound: **the search for the place of a record stops at that one
at the latest**. A sort ends with the same records in order, and with nothing else compared or moved.
-/

set_option autoImplicit false

namespace DiscoBSD.Qsort

open Lib

namespace QsortState

variable {st : QsortState} {S : Rec → Prop} {m m' : Mem} {h k min : ℕ}

/-- The search finds a smallest one of the records it looks at. -/
theorem findMin_ok (ho : Orders st.qcmp S) (hw : Within st S m) (k : ℕ) :
    ∀ j lo, j < lo → lo + k ≤ st.n → Least st 0 lo j m →
      ∃ j', st.findMin m k j lo = .ok j' ∧ j' < lo + k ∧ Least st 0 (lo + k) j' m := by
  induction k with
  | zero =>
    intro j lo hj _ hleast
    exact ⟨j, rfl, hj, hleast⟩
  | succ k ih =>
    intro j lo hj hn hleast
    have hwith : ∀ r, r < st.n → st.qcmp (st.record m r) (st.record m lo) ≤ 0 →
        (∀ x < lo, st.qcmp (st.record m r) (st.record m x) ≤ 0) → Least st 0 (lo + 1) r m := by
      intro r _ hlo hbelow x _ hx
      rcases Nat.lt_or_eq_of_le (Nat.le_of_lt_succ hx) with hlt | heq
      · exact hbelow x hlt
      · rwa [heq]
    rw [findMin, compare_ok m (by lia) (by lia), ok_bind, show lo + (k + 1) = lo + 1 + k by lia]
    by_cases hgt : st.qcmp (st.record m j) (st.record m lo) > 0
    · rw [if_pos hgt]
      have hle := (ho.total _ _ (hw j (by lia)) (hw lo (by lia))).resolve_left (not_le.mpr hgt)
      apply ih lo (lo + 1) (by lia) (by lia)
      refine hwith lo (by lia) (ho.refl (hw lo (by lia))) fun x hx => ?_
      exact ho.trans _ _ _ (hw lo (by lia)) (hw j (by lia)) (hw x (by lia)) hle (hleast x (Nat.zero_le x) hx)
    · rw [if_neg hgt]
      apply ih j (lo + 1) (by lia) (by lia)
      exact hwith j (by lia) (not_lt.mp hgt) fun x hx => hleast x (Nat.zero_le x) hx

/-- The search for the place of a record ends, for the first one is not larger. -/
theorem scanBack_ok (m : Mem) (hmin : min < st.n) (hfirst : st.qcmp (st.record m 0) (st.record m min) ≤ 0) (hi : ℕ) :
    0 < hi → hi ≤ min → ∃ r, st.scanBack m min hi = .ok r ∧ r < hi ∧ st.qcmp (st.record m r) (st.record m min) ≤ 0 ∧
      ∀ x, r < x → x < hi → st.qcmp (st.record m x) (st.record m min) > 0 := by
  induction hi with
  | zero =>
    intro hpos _
    exact absurd hpos (Nat.lt_irrefl 0)
  | succ hi ih =>
    intro _ hle
    rw [scanBack, compare_ok m (by lia) hmin, ok_bind]
    by_cases hgt : st.qcmp (st.record m hi) (st.record m min) > 0
    · have hpos : 0 < hi := by
        rcases Nat.eq_zero_or_pos hi with heq | hpos
        · rw [heq] at hgt
          exact absurd hfirst (not_le.mpr hgt)
        · exact hpos
      obtain ⟨r, hrun, hr, hrmin, habove⟩ := ih hpos (by lia)
      rw [if_pos hgt]
      refine ⟨r, hrun, by lia, hrmin, fun x hx hx' => ?_⟩
      rcases Nat.lt_or_eq_of_le (Nat.le_of_lt_succ hx') with hlt | heq
      · exact habove x hx hlt
      · rwa [heq]
    · rw [if_neg hgt]
      exact ⟨hi, rfl, Nat.lt_succ_self hi, not_lt.mp hgt, fun x hx hx' => absurd hx' (by lia)⟩

/-- The records before `k` are in order. -/
def Sorted (st : QsortState) (k : ℕ) (m : Mem) : Prop :=
  ∀ x y, x < y → y < k → st.qcmp (st.record m x) (st.record m y) ≤ 0

/-- A record turned down to its place leaves the records up to it in order. -/
theorem Sorted.insert (ho : Orders st.qcmp S) (hw : Within st S m) (hs : Sorted st min m) (hmin : min < st.n) {r : ℕ}
    (hr : r < min) (hle : st.qcmp (st.record m r) (st.record m min) ≤ 0)
    (habove : ∀ x, r < x → x < min → st.qcmp (st.record m x) (st.record m min) > 0)
    (hre : Reordered st m m' (turned (r + 1) (min - (r + 1)))) : Sorted st (min + 1) m' := by
  have hbelow : ∀ x, x < r + 1 → st.record m' x = st.record m x := by
    intro x hx
    rw [congrFun hre.records x, Function.comp_apply, turned, if_neg (by lia), if_neg (by lia)]
  have hplace : st.record m' (r + 1) = st.record m min := by
    rw [congrFun hre.records, Function.comp_apply, turned, if_pos rfl, show r + 1 + (min - (r + 1)) = min by lia]
  have hup : ∀ x, r + 1 < x → x < min + 1 → st.record m' x = st.record m (x - 1) := by
    intro x hx hx'
    rw [congrFun hre.records x, Function.comp_apply, turned, if_neg (by lia), if_pos (by lia)]
  intro x y hxy hy
  rcases Nat.lt_trichotomy y (r + 1) with hlt | heq | hgt
  · rw [hbelow x (by lia), hbelow y hlt]
    exact hs x y hxy (by lia)
  · rw [heq, hplace, hbelow x (by lia)]
    rcases Nat.lt_or_eq_of_le (by lia : x ≤ r) with hxr | hxr
    · exact ho.trans _ _ _ (hw x (by lia)) (hw r (by lia)) (hw min hmin) (hs x r hxr hr) hle
    · rwa [hxr]
  · rw [hup y hgt hy]
    rcases Nat.lt_trichotomy x (r + 1) with hlt | heq | hgt'
    · rw [hbelow x hlt]
      exact hs x (y - 1) (by lia) (by lia)
    · rw [heq, hplace]
      have hlarger := habove (y - 1) (by lia) (by lia)
      exact (ho.total _ _ (hw min hmin) (hw (y - 1) (by lia))).resolve_right (not_le.mpr hlarger)
    · rw [hup x hgt' (by lia)]
      exact hs (x - 1) (y - 1) (by lia) (by lia)

theorem Reordered.turned_moved {hi : ℕ} (hre : Reordered st m m' (turned hi k)) : Moved st hi (hi + k + 1) m m' := by
  refine ⟨?_, hre.before⟩
  rw [hre.records]
  exact .turned _ hi k

/-- **The insertion ends with all records in order.** -/
theorem insertAll_ok (ho : Orders st.qcmp S) (k : ℕ) : ∀ m min, Within st S m → 0 < min → min + k = st.n →
    Sorted st min m → Least st 0 st.n 0 m →
      ∃ m', st.insertAll k m min = .ok m' ∧ Moved st 0 st.n m m' ∧ Sorted st st.n m' := by
  induction k with
  | zero =>
    intro m min _ _ hn hs _
    refine ⟨m, rfl, .refl .., ?_⟩
    rwa [← hn]
  | succ k ih =>
    intro m min hw hpos hn hs hleast
    obtain ⟨r, hrun, hr, hle, habove⟩ :=
      scanBack_ok m (by lia : min < st.n) (hleast min (Nat.zero_le min) (by lia)) min hpos (le_refl min)
    have hre : Reordered st m (if r + 1 ≠ min then st.shiftRecord m (r + 1) (min - (r + 1)) else m)
        (turned (r + 1) (min - (r + 1))) := by
      by_cases hne : r + 1 = min
      · rw [if_neg (not_not_intro hne), hne, Nat.sub_self]
        exact ⟨funext fun x => congrArg (st.record m) (turned_zero min x).symm, fun _ _ => rfl⟩
      · rw [if_pos hne]
        exact shiftRecord_spec ..
    generalize hm₁ : (if r + 1 ≠ min then st.shiftRecord m (r + 1) (min - (r + 1)) else m) = m₁ at hre
    have hmoved : Moved st 1 st.n m m₁ := hre.turned_moved.mono (by lia) (by lia)
    have hmoved₀ := hmoved.mono (Nat.zero_le 1) (le_refl st.n)
    have hfirst : st.record m₁ 0 = st.record m 0 := hmoved.rearr.outside (.inl Nat.one_pos)
    have hleast₁ : Least st 0 st.n 0 m₁ := by
      unfold Least
      rw [hfirst]
      exact hmoved₀.rearr.forall (P := fun x => st.qcmp (st.record m 0) x ≤ 0) hleast
    obtain ⟨m', hrun', hmoved', hsorted⟩ := ih m₁ (min + 1) (hw.moved hmoved₀ (le_refl _)) (Nat.succ_pos min)
      (by lia) (hs.insert ho hw (by lia) hr hle habove hre) hleast₁
    rw [insertAll, hrun, ok_bind]
    simp only
    rw [hm₁]
    exact ⟨m', hrun', hmoved₀.trans hmoved', hsorted⟩

end QsortState

/-- The records of an array. -/
def records (m : Mem) (base n size : ℕ) : List Rec := (List.range n).map fun i => readAt m (base + i * size) size

open QsortState in
/-- The whole sort, in the terms of its state. -/
theorem qsort_ok {m : Mem} {base n size : ℕ} {compar : Rec → Rec → ℤ} {S : Rec → Prop} (hn : 1 < n) (hsize : 0 < size)
    (hfit : n * size < 2 ^ 32) (ho : Orders compar S) {st : QsortState}
    (hst : st = ⟨compar, size, size * THRESH % 2 ^ 32, size * MTHRESH % 2 ^ 32, base, n⟩) (hw : Within st S m) :
    ∃ m', qsort m base n size compar = .ok m' ∧ Moved st 0 n m m' ∧ Sorted st n m' := by
  have hqcmp : Orders st.qcmp S := hst ▸ ho
  have hstn : st.n = n := by rw [hst]
  have hparts : ∃ m₁, (if n ≥ THRESH then st.qst n m 0 n else pure m) = .ok m₁ ∧ Moved st 0 n m m₁ ∧
      LeastFirst st 0 n m₁ := by
    by_cases hbig : n ≥ THRESH
    · have hthresh : st.thresh = st.qsz * THRESH := by
        have hle : THRESH * size ≤ n * size := Nat.mul_le_mul_right _ hbig
        rw [hst]
        exact Nat.mod_eq_of_lt (by rw [Nat.mul_comm]; lia)
      rw [if_pos hbig]
      exact qst_ok hqcmp (by rwa [hst]) hthresh n 0 n (by lia) hstn.ge (by lia) m hw
    · obtain ⟨k, hk, hkn, hleast⟩ := exists_least hqcmp hw n (by lia : 0 < n) hstn.ge
      rw [if_neg hbig]
      exact ⟨m, rfl, .refl .., k, hk, by lia, hkn, hleast⟩
  obtain ⟨m₁, hrun₁, hmoved₁, k, -, hk, hkn, hleast⟩ := hparts
  have hw₁ := hw.moved hmoved₁ hstn.ge
  generalize hhi : (if n ≥ THRESH then THRESH else n) = hi
  have hhi' : 0 < hi ∧ hi ≤ n ∧ k < hi := by
    rw [← hhi]
    unfold THRESH at hk ⊢
    split <;> lia
  obtain ⟨j, hrun₂, hj, hleastj⟩ := findMin_ok hqcmp hw₁ (hi - 1) 0 1 Nat.one_pos (by lia) fun x _ hx => by
    rw [show x = 0 by lia]
    exact hqcmp.refl (hw₁ 0 (by lia))
  have hleast₁ : Least st 0 n j m₁ := by
    intro x hx hx'
    have hjk := hleastj k (Nat.zero_le k) (by lia)
    exact hqcmp.trans _ _ _ (hw₁ j (by lia)) (hw₁ k (by lia)) (hw₁ x (by lia)) hjk (hleast x hx hx')
  have hsentinel : ∃ m₂, (if j ≠ 0 then st.exchange m₁ j 0 else pure m₁) = .ok m₂ ∧ Moved st 0 n m₁ m₂ ∧
      Least st 0 n 0 m₂ := by
    by_cases hj0 : j = 0
    · rw [if_neg (not_not_intro hj0)]
      exact ⟨m₁, rfl, .refl .., hj0 ▸ hleast₁⟩
    · obtain ⟨m₂, hrun, hx⟩ := exchange_ok m₁ (by lia : j < st.n) (by lia : 0 < st.n) hj0
      have hmoved := hx.moved 0 n (Nat.zero_le j) (by lia) (le_refl 0) (by lia)
      rw [if_pos hj0]
      refine ⟨m₂, hrun, hmoved, ?_⟩
      unfold Least
      rw [hx.right]
      exact hmoved.rearr.forall (P := fun x => st.qcmp (st.record m₁ j) x ≤ 0) hleast₁
  obtain ⟨m₂, hrun₃, hmoved₂, hleast₂⟩ := hsentinel
  have hone : Sorted st 1 m₂ := fun x y hxy hy => absurd hxy (by lia)
  obtain ⟨m', hrun₄, hmoved₃, hsorted⟩ := insertAll_ok hqcmp (n - 1) m₂ 1 (hw₁.moved hmoved₂ hstn.ge) Nat.one_pos
    (by lia) hone (hstn.symm ▸ hleast₂)
  rw [hstn] at hmoved₃ hsorted
  refine ⟨m', ?_, (hmoved₁.trans hmoved₂).trans hmoved₃, hsorted⟩
  rw [qsort, if_neg (by lia)]
  simp only
  rw [← hst, ite_bind_ok hrun₁, hhi, hrun₂, ok_bind, ite_bind_ok hrun₃]
  exact hrun₄

/-- A list of things that are in order. -/
theorem pairwise_range {compar : Rec → Rec → ℤ} {f : ℕ → Rec} {n : ℕ}
    (h : ∀ x y, x < y → y < n → compar (f x) (f y) ≤ 0) :
    ((List.range n).map f).Pairwise fun x y => compar x y ≤ 0 := by
  apply List.pairwise_map.mpr
  apply List.pairwise_lt_range.imp_of_mem
  intro x y _ hy hlt
  exact h x y hlt (List.mem_range.mp hy)

/-- A byte behind the array is a byte of a record behind the last one. -/
theorem QsortState.Moved.after {st : QsortState} {m m' : Mem} (hm : st.Moved 0 st.n m m') (hsz : 0 < st.qsz) {x : ℕ}
    (hx : st.base + st.n * st.qsz ≤ x) : m' x = m x := by
  have hrec : st.record m' ((x - st.base) / st.qsz) = st.record m ((x - st.base) / st.qsz) :=
    hm.rearr.outside (.inr ((Nat.le_div_iff_mul_le hsz).mpr (by lia)))
  have hbyte := List.map_inj_left.mp hrec ((x - st.base) % st.qsz) (List.mem_range.mpr (Nat.mod_lt _ hsz))
  have haddr : st.address ((x - st.base) / st.qsz) + (x - st.base) % st.qsz = x := by
    have hdiv := Nat.div_add_mod' (x - st.base) st.qsz
    unfold address
    lia
  rwa [haddr] at hbyte

open QsortState in
/-- **A sort ends with the records of the array in order.** It compares no others and changes no byte outside. -/
theorem qsort_exact (m : Mem) (base n size : ℕ) (compar : Rec → Rec → ℤ) (hsize : 0 < size) (hfit : n * size < 2 ^ 32)
    (ho : Orders compar (· ∈ records m base n size)) :
    ∃ m', qsort m base n size compar = .ok m' ∧ (records m' base n size).Perm (records m base n size) ∧
      (records m' base n size).Pairwise (fun x y => compar x y ≤ 0) ∧
      ∀ x, x < base ∨ base + n * size ≤ x → m' x = m x := by
  rcases Nat.lt_or_ge 1 n with hn | hn
  · obtain ⟨m', hrun, hmoved, hsorted⟩ := qsort_ok hn hsize hfit ho rfl fun i hi =>
      List.mem_map.mpr ⟨i, List.mem_range.mpr hi, rfl⟩
    refine ⟨m', hrun, hmoved.rearr.perm, pairwise_range hsorted, fun x hx => ?_⟩
    exact hx.elim (hmoved.before x) (hmoved.after hsize)
  · exact ⟨m, if_pos (.inl hn), .refl _, pairwise_range fun x y hxy hy => absurd hxy (by lia), fun _ _ => rfl⟩

/-- Five records of two bytes, in the order of their first bytes. -/
def byFirst (x y : Rec) : ℤ := (x.headD 0).toNat - (y.headD 0).toNat

def five : Mem := Lib.writeAt (fun _ => 0xff) 8 [3, 0, 1, 1, 2, 2, 1, 3, 0, 4]

theorem qsort_exact_five :
    ∃ m', qsort five 8 5 2 byFirst = .ok m' ∧ (records m' 8 5 2).Perm (records five 8 5 2) ∧
      (records m' 8 5 2).Pairwise (fun x y => byFirst x y ≤ 0) ∧ ∀ x, x < 8 ∨ 8 + 5 * 2 ≤ x → m' x = five x := by
  apply qsort_exact five 8 5 2 byFirst (by decide) (by decide)
  constructor
  · intro x y _ _
    unfold byFirst
    lia
  · intro x y z _ _ _ hxy hyz
    unfold byFirst at hxy hyz ⊢
    lia

example : (qsort five 8 5 2 byFirst).toOption.map (readAt · 7 12) =
    some [0xff, 0, 4, 1, 1, 1, 3, 2, 2, 3, 0, 0xff] := by
  decide +kernel

end DiscoBSD.Qsort
