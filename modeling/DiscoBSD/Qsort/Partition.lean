import DiscoBSD.Lib.Except
import DiscoBSD.Qsort.Sort

/-!
# The partition

The record in the middle is the pivot. **At the end no record before it is larger and none after it smaller**, wherever
it has moved in between; neither scan leaves the part.
-/

set_option autoImplicit false

namespace DiscoBSD.Qsort

open Lib

/-- `compar` is a total preorder on the records of `S`. -/
structure Orders (compar : Rec → Rec → ℤ) (S : Rec → Prop) : Prop where
  total : ∀ x y, S x → S y → compar x y ≤ 0 ∨ compar y x ≤ 0
  trans : ∀ x y z, S x → S y → S z → compar x y ≤ 0 → compar y z ≤ 0 → compar x z ≤ 0

theorem Orders.refl {compar : Rec → Rec → ℤ} {S : Rec → Prop} (ho : Orders compar S) {x : Rec} (hx : S x) :
    compar x x ≤ 0 := (ho.total x x hx hx).elim id id

namespace QsortState

variable {st : QsortState} {S : Rec → Prop} {m m' m'' : Mem} {l h l' h' i j mid : ℕ} {p : Rec}

/-- The records between `l` and `h` are in another order, and nothing else has changed. -/
structure Moved (st : QsortState) (l h : ℕ) (m m' : Mem) : Prop where
  rearr : Rearr l h (st.record m) (st.record m')
  before : ∀ x < st.base, m' x = m x

theorem Moved.refl (l h : ℕ) (m : Mem) : Moved st l h m m := ⟨.refl .., fun _ _ => rfl⟩

theorem Moved.trans (h₁ : Moved st l h m m') (h₂ : Moved st l h m' m'') : Moved st l h m m'' :=
  ⟨h₁.rearr.trans h₂.rearr, fun x hx => (h₂.before x hx).trans (h₁.before x hx)⟩

theorem Moved.mono (hm : Moved st l h m m') (hl : l' ≤ l) (hh : h ≤ h') : Moved st l' h' m m' :=
  ⟨hm.rearr.mono hl hh, hm.before⟩

/-- All records are in `S`. -/
def Within (st : QsortState) (S : Rec → Prop) (m : Mem) : Prop := ∀ i < st.n, S (st.record m i)

theorem Within.moved (hs : Within st S m) (hm : Moved st l h m m') (hh : h ≤ st.n) : Within st S m' := by
  intro i hi
  exact (hm.rearr.mono (Nat.zero_le l) hh).forall (fun k _ hk => hs k hk) i (Nat.zero_le i) hi

theorem compare_ok (m : Mem) (hi : i < st.n) (hj : j < st.n) :
    st.compare m i j = .ok (st.qcmp (st.record m i) (st.record m j)) := if_pos ⟨hi, hj⟩

/-- Two records change places. -/
structure Exchanged (st : QsortState) (m m' : Mem) (i j : ℕ) : Prop where
  left : st.record m' i = st.record m j
  right : st.record m' j = st.record m i
  others : ∀ k, k ≠ i → k ≠ j → st.record m' k = st.record m k
  moved : ∀ l h, l ≤ i → i < h → l ≤ j → j < h → Moved st l h m m'

theorem exchange_ok (m : Mem) (hi : i < st.n) (hj : j < st.n) (hne : i ≠ j) :
    ∃ m', st.exchange m i j = .ok m' ∧ Exchanged st m m' i j := by
  obtain ⟨m', hrun, hre⟩ := exchange_spec hi hj hne (m := m)
  have hat : ∀ k, st.record m' k = st.record m (Equiv.swap i j k) := fun k => congrFun hre.records k
  refine ⟨m', hrun, ?_, ?_, ?_, ?_⟩
  · rw [hat, Equiv.swap_apply_left]
  · rw [hat, Equiv.swap_apply_right]
  · intro k hki hkj
    rw [hat, Equiv.swap_apply_of_ne_of_ne hki hkj]
  · intro l h hli hih hlj hjh
    refine ⟨?_, hre.before⟩
    rw [hre.records]
    exact .swap i j ⟨hli, hih⟩ ⟨hlj, hjh⟩ _

/-- The median moves records of the part at most. -/
theorem median_ok (m : Mem) (hl : l < h) (hh : h ≤ st.n) (hmid : l ≤ mid ∧ mid < h) :
    ∃ m', st.median m l mid h = .ok m' ∧ Moved st l h m m' := by
  have hlast : ∀ j, j = l ∨ j = mid ∨ j = h - 1 →
      ∃ m', (if j ≠ mid then st.exchange m mid j else pure m) = .ok m' ∧ Moved st l h m m' := by
    intro j hj
    have hin : l ≤ j ∧ j < h := by lia
    by_cases hne : j = mid
    · rw [if_neg (not_not_intro hne)]
      exact ⟨m, rfl, .refl ..⟩
    · obtain ⟨m', hrun, hex⟩ := exchange_ok m (by lia : mid < st.n) (by lia : j < st.n) (Ne.symm hne)
      rw [if_pos hne]
      exact ⟨m', hrun, hex.moved l h hmid.1 hmid.2 hin.1 hin.2⟩
  have hfirst : ∀ j, j = l ∨ j = mid → j < st.n := by
    intro j hj
    lia
  unfold median
  rw [compare_ok m (by lia) (by lia)]
  simp only [bind, Except.bind]
  generalize hj₀ : (if st.qcmp (st.record m l) (st.record m mid) > 0 then l else mid) = j₀
  have hfrom : j₀ = l ∨ j₀ = mid := by
    rw [← hj₀]
    split
    · exact .inl rfl
    · exact .inr rfl
  rw [compare_ok m (hfirst j₀ hfrom) (by lia)]
  simp only
  split
  · generalize hj₁ : (if j₀ = l then mid else l) = j₁
    have hother : j₁ = l ∨ j₁ = mid := by
      rw [← hj₁]
      split
      · exact .inr rfl
      · exact .inl rfl
    rw [compare_ok m (hfirst j₁ hother) (by lia)]
    simp only [pure, Except.pure]
    apply hlast
    split
    · exact .inr (.inr rfl)
    · exact hother.imp_right .inl
  · simp only [pure, Except.pure]
    exact hlast j₀ (hfrom.imp_right .inl)

/-- The scan from below stops at the middle, or at a larger record. -/
theorem scanUp_ok (m : Mem) (hmid : mid < st.n) (k i : ℕ) (hk : i + k = mid) :
    ∃ i', st.scanUp m mid k i = .ok i' ∧ i ≤ i' ∧ i' ≤ mid ∧
      (∀ x, i ≤ x → x < i' → st.qcmp (st.record m x) (st.record m mid) ≤ 0) ∧
      (i' ≠ mid → ¬st.qcmp (st.record m i') (st.record m mid) ≤ 0) := by
  induction k generalizing i with
  | zero => exact ⟨i, rfl, le_refl i, by lia, fun x hx hx' => absurd hx' (by lia), fun hne => absurd hk hne⟩
  | succ k ih =>
    rw [scanUp, compare_ok m (by lia) hmid]
    simp only [bind, Except.bind]
    by_cases hle : st.qcmp (st.record m i) (st.record m mid) ≤ 0
    · obtain ⟨i', hrun, hge, hup, hall, hstop⟩ := ih (i + 1) (by lia)
      rw [if_pos hle]
      refine ⟨i', hrun, by lia, hup, fun x hx hx' => ?_, hstop⟩
      rcases Nat.lt_or_eq_of_le hx with hlt | heq
      · exact hall x hlt hx'
      · rwa [← heq]
    · rw [if_neg hle]
      exact ⟨i, rfl, le_refl i, by lia, fun x hx hx' => absurd hx' (by lia), fun _ => hle⟩

/-- The scan from above stops at the middle, or at a smaller record. -/
theorem scanDown_ok (m : Mem) (k j : ℕ) (hk : mid + k = j) (hj : j < st.n) :
    ∃ j', st.scanDown m mid k j = .ok j' ∧ mid ≤ j' ∧ j' ≤ j ∧
      (∀ x, j' < x → x ≤ j → st.qcmp (st.record m mid) (st.record m x) ≤ 0) ∧
      (j' ≠ mid → ¬st.qcmp (st.record m mid) (st.record m j') ≤ 0) := by
  induction k generalizing j with
  | zero =>
    exact ⟨j, rfl, by lia, le_refl j, fun x hx hx' => absurd hx' (by lia), fun hne => absurd hk.symm hne⟩
  | succ k ih =>
    rw [scanDown, compare_ok m (by lia) hj]
    simp only [bind, Except.bind]
    by_cases hle : st.qcmp (st.record m mid) (st.record m j) ≤ 0
    · obtain ⟨j', hrun, hge, hup, hall, hstop⟩ := ih (j - 1) (by lia) (by lia)
      rw [if_pos hle]
      refine ⟨j', hrun, hge, by lia, fun x hx hx' => ?_, hstop⟩
      rcases Nat.lt_or_eq_of_le hx' with hlt | heq
      · exact hall x hx (by lia)
      · rwa [heq]
    · rw [if_neg hle]
      exact ⟨j, rfl, by lia, le_refl j, fun x hx hx' => absurd hx' (by lia), fun _ => hle⟩

/-- The pivot `p` is the record `mid`; no record from `l` to `i` is larger and none between `j` and `h` smaller. -/
structure Split (st : QsortState) (p : Rec) (l h i j mid : ℕ) (m : Mem) : Prop where
  pivot : st.record m mid = p
  low : ∀ k, l ≤ k → k < i → st.qcmp (st.record m k) p ≤ 0
  high : ∀ k, j < k → k < h → st.qcmp p (st.record m k) ≤ 0

/-- The pivot and a smaller record above it change places. -/
theorem Split.above (hx : Exchanged st m m' mid j) (hlt : mid < j) (hle : st.qcmp (st.record m j) p ≤ 0)
    (hs : Split st p l h mid j mid m) : Split st p l h (mid + 1) j j m' := by
  refine ⟨hx.right.trans hs.pivot, fun k hl hk => ?_, fun k hk hh => ?_⟩
  · by_cases hmid : k = mid
    · rwa [hmid, hx.left]
    · rw [hx.others k hmid (by lia)]
      exact hs.low k hl (by lia)
  · rw [hx.others k (by lia) (by lia)]
    exact hs.high k hk hh

/-- A larger record below the pivot and a smaller one above it change places. -/
theorem Split.across (hx : Exchanged st m m' i j) (hi : i < mid) (hj : mid < j) (hlei : st.qcmp p (st.record m i) ≤ 0)
    (hlej : st.qcmp (st.record m j) p ≤ 0) (hs : Split st p l h i j mid m) :
    Split st p l h (i + 1) (j - 1) mid m' := by
  refine ⟨(hx.others mid (by lia) (by lia)).trans hs.pivot, fun k hl hk => ?_, fun k hk hh => ?_⟩
  · by_cases heq : k = i
    · rwa [heq, hx.left]
    · rw [hx.others k heq (by lia)]
      exact hs.low k hl (by lia)
  · by_cases heq : k = j
    · rwa [heq, hx.right]
    · rw [hx.others k (by lia) heq]
      exact hs.high k (by lia) hh

/-- The pivot and a larger record below it change places. -/
theorem Split.below (hx : Exchanged st m m' i mid) (hi : i < mid) (hle : st.qcmp p (st.record m i) ≤ 0)
    (hs : Split st p l h i mid mid m) : Split st p l h i (mid - 1) i m' := by
  refine ⟨hx.left.trans hs.pivot, fun k hl hk => ?_, fun k hk hh => ?_⟩
  · rw [hx.others k (by lia) (by lia)]
    exact hs.low k hl hk
  · by_cases heq : k = mid
    · rwa [heq, hx.right]
    · rw [hx.others k (by lia) heq]
      exact hs.high k (by lia) hh

/-- **The partition ends**, and splits the part at its pivot. -/
theorem partition_ok (ho : Orders st.qcmp S) (hh : h ≤ st.n) (turns : ℕ) (m : Mem) (hs : Within st S m) (i j mid : ℕ)
    (hli : l ≤ i) (him : i ≤ mid) (hmj : mid ≤ j) (hjh : j < h) (hturns : j - i < turns)
    (hsplit : Split st p l h i j mid m) :
    ∃ m' mid', st.partition turns m i j mid = .ok (m', mid') ∧ Moved st l h m m' ∧ l ≤ mid' ∧ mid' < h ∧
      Split st p l h mid' mid' mid' m' := by
  induction turns generalizing m i j mid with
  | zero => exact absurd hturns (Nat.not_lt_zero _)
  | succ turns ih =>
    obtain ⟨i', hup, hi, hi', hlow, hstopi⟩ := scanUp_ok m (by lia : mid < st.n) (mid - i) i (by lia)
    obtain ⟨j', hdown, hj, hj', hhigh, hstopj⟩ :=
      scanDown_ok m (j - mid) j (by lia : mid + (j - mid) = j) (by lia : j < st.n)
    have hscanned : Split st p l h i' j' mid m := by
      refine ⟨hsplit.pivot, fun k hl hk => ?_, fun k hk hh' => ?_⟩
      · rcases Nat.lt_or_ge k i with hlt | hge
        · exact hsplit.low k hl hlt
        · exact hsplit.pivot ▸ hlow k hge hk
      · rcases Nat.lt_or_ge j k with hlt | hge
        · exact hsplit.high k hlt hh'
        · exact hsplit.pivot ▸ hhigh k hk hge
    have hp : S p := hsplit.pivot ▸ hs mid (by lia)
    have hlei : i' ≠ mid → st.qcmp p (st.record m i') ≤ 0 := fun hne =>
      (ho.total _ _ (hs i' (by lia)) hp).resolve_left (hsplit.pivot ▸ hstopi hne)
    have hlej : j' ≠ mid → st.qcmp (st.record m j') p ≤ 0 := fun hne =>
      (ho.total _ _ hp (hs j' (by lia))).resolve_left (hsplit.pivot ▸ hstopj hne)
    -- One more turn, on memory that has moved inside the part.
    have hnext : ∀ {m₁ i₁ j₁ mid₁}, Moved st l h m m₁ → l ≤ i₁ → i₁ ≤ mid₁ → mid₁ ≤ j₁ → j₁ < h → j₁ - i₁ < turns →
        Split st p l h i₁ j₁ mid₁ m₁ → ∃ m' mid', st.partition turns m₁ i₁ j₁ mid₁ = .ok (m', mid') ∧
          Moved st l h m m' ∧ l ≤ mid' ∧ mid' < h ∧ Split st p l h mid' mid' mid' m' := by
      intro m₁ i₁ j₁ mid₁ hmoved hl₁ hm₁ hj₁ hh₁ hturns₁ hsplit₁
      obtain ⟨m', mid', hrun, hmoved', hrest⟩ :=
        ih m₁ (hs.moved hmoved hh) i₁ j₁ mid₁ hl₁ hm₁ hj₁ hh₁ hturns₁ hsplit₁
      exact ⟨m', mid', hrun, hmoved.trans hmoved', hrest⟩
    rw [partition, hup]
    simp only [bind, Except.bind]
    rw [hdown]
    simp only
    by_cases hjm : j' > mid
    · obtain ⟨m₁, hrun, hx⟩ := exchange_ok m (by lia : i' < st.n) (by lia : j' < st.n) (by lia)
      have hmoved := hx.moved l h (by lia) (by lia) (by lia) (by lia)
      rw [if_pos hjm, hrun]
      simp only
      by_cases him' : i' = mid
      · rw [if_pos him']
        rw [him'] at hx hscanned ⊢
        exact hnext hmoved (by lia) (by lia) (le_refl j') (by lia) (by lia)
          (hscanned.above hx hjm (hlej (by lia)))
      · rw [if_neg him']
        exact hnext hmoved (by lia) (by lia) (by lia) (by lia) (by lia)
          (hscanned.across hx (by lia) hjm (hlei him') (hlej (by lia)))
    · have hjmid : j' = mid := by lia
      rw [hjmid] at hscanned
      rw [if_neg hjm]
      by_cases him' : i' = mid
      · rw [him'] at hscanned
        rw [if_pos him']
        exact ⟨m, mid, rfl, .refl .., by lia, by lia, hscanned⟩
      · obtain ⟨m₁, hrun, hx⟩ := exchange_ok m (by lia : i' < st.n) (by lia : mid < st.n) him'
        have hmoved := hx.moved l h (by lia) (by lia) (by lia) (by lia)
        rw [if_neg him', hrun]
        simp only
        rw [hjmid]
        exact hnext hmoved (by lia) (le_refl i') (by lia) (by lia) (by lia)
          (hscanned.below hx (by lia) (hlei him'))

end QsortState

end DiscoBSD.Qsort

/-!
# The parts

The sort by parts leaves those with fewer than `THRESH` records as they are. **Yet a smallest record is among the first
`THRESH` of the whole**, which is what the insertion sort after it needs.
-/

namespace DiscoBSD.Qsort.QsortState

open Lib

variable {st : QsortState} {S : Rec → Prop} {m m' : Mem} {l h l' h' mid : ℕ} {p : Rec}

/-- No record between `l` and `h` is smaller than the record `k`. -/
def Least (st : QsortState) (l h k : ℕ) (m : Mem) : Prop :=
  ∀ x, l ≤ x → x < h → st.qcmp (st.record m k) (st.record m x) ≤ 0

/-- One of the first `THRESH` records is a smallest one. -/
def LeastFirst (st : QsortState) (l h : ℕ) (m : Mem) : Prop :=
  ∃ k, l ≤ k ∧ k < l + THRESH ∧ k < h ∧ Least st l h k m

theorem exists_least (ho : Orders st.qcmp S) (hs : Within st S m) (h : ℕ) (hl : l < h) (hh : h ≤ st.n) :
    ∃ k, l ≤ k ∧ k < h ∧ Least st l h k m := by
  induction h, hl using Nat.le_induction with
  | base =>
    refine ⟨l, le_refl l, by lia, fun x hx hx' => ?_⟩
    rw [show x = l by lia]
    exact ho.refl (hs l (by lia))
  | succ h hlt ih =>
    obtain ⟨k, hlk, hkh, hleast⟩ := ih (by lia)
    have hnew : ∀ r, Least st l h r m → st.qcmp (st.record m r) (st.record m h) ≤ 0 → Least st l (h + 1) r m := by
      intro r hr hle x hx hx'
      rcases Nat.lt_or_eq_of_le (Nat.le_of_lt_succ hx') with hlt' | heq
      · exact hr x hx hlt'
      · rwa [heq]
    rcases ho.total _ _ (hs k (by lia)) (hs h (by lia)) with hle | hle
    · exact ⟨k, hlk, by lia, hnew k hleast hle⟩
    · refine ⟨h, by lia, by lia, hnew h (fun x hx hx' => ?_) (ho.refl (hs h (by lia)))⟩
      exact ho.trans _ _ _ (hs h (by lia)) (hs k (by lia)) (hs x (by lia)) hle (hleast x hx hx')

/-- The split outlasts changes of the order below the pivot. -/
theorem Split.moved_low (hs : Split st p l h mid mid mid m) (hm : Moved st l mid m m') :
    Split st p l h mid mid mid m' := by
  refine ⟨?_, hm.rearr.forall (P := fun r => st.qcmp r p ≤ 0) hs.low, fun k hk hh => ?_⟩
  · rw [hm.rearr.outside (.inr (le_refl mid)), hs.pivot]
  · rw [hm.rearr.outside (.inr hk.le)]
    exact hs.high k hk hh

theorem Split.moved_high (hs : Split st p l h mid mid mid m) (hm : Moved st (mid + 1) h m m') :
    Split st p l h mid mid mid m' := by
  refine ⟨?_, fun k hl hk => ?_, hm.rearr.forall (P := fun r => st.qcmp p r ≤ 0) hs.high⟩
  · rw [hm.rearr.outside (.inl (Nat.lt_succ_self mid)), hs.pivot]
  · rw [hm.rearr.outside (.inl (by lia))]
    exact hs.low k hl hk

theorem LeastFirst.moved_high (hf : LeastFirst st l mid m) (hm : Moved st (mid + 1) h m m') : LeastFirst st l mid m' := by
  obtain ⟨k, hlk, hk, hkm, hleast⟩ := hf
  refine ⟨k, hlk, hk, hkm, fun x hx hx' => ?_⟩
  rw [hm.rearr.outside (.inl (by lia)), hm.rearr.outside (.inl (by lia))]
  exact hleast x hx hx'

/-- A smallest record up to the pivot is a smallest one of the whole part. -/
theorem Split.least (ho : Orders st.qcmp S) (hh : h ≤ st.n) (hw : Within st S m) (hs : Split st p l h mid mid mid m)
    (hl : l ≤ mid) (hm : mid < h) {k : ℕ} (hk : k < h) (hleast : Least st l (mid + 1) k m) : Least st l h k m := by
  have hpivot := hleast mid hl (Nat.lt_succ_self mid)
  intro x hx hx'
  rcases Nat.lt_or_ge x (mid + 1) with hlt | hge
  · exact hleast x hx hlt
  · have hhigh := hs.high x hge hx'
    rw [← hs.pivot] at hhigh
    exact ho.trans _ _ _ (hw k (by lia)) (hw mid (by lia)) (hw x (by lia)) hpivot hhigh

theorem Split.leastFirst (ho : Orders st.qcmp S) (hh : h ≤ st.n) (hw : Within st S m)
    (hs : Split st p l h mid mid mid m) (hl : l ≤ mid) (hm : mid < h)
    (hlow : LeastFirst st l mid m ∨ mid - l < THRESH) : LeastFirst st l h m := by
  rcases hlow with ⟨k, hlk, hk, hkm, hleast⟩ | hsmall
  · refine ⟨k, hlk, hk, by lia, hs.least ho hh hw hl hm (by lia) fun x hx hx' => ?_⟩
    rcases Nat.lt_or_eq_of_le (Nat.le_of_lt_succ hx') with hlt | heq
    · exact hleast x hx hlt
    · rw [heq, hs.pivot]
      exact hs.low k hlk hkm
  · obtain ⟨k, hlk, hk, hleast⟩ := exists_least ho hw (mid + 1) (by lia : l < mid + 1) (by lia)
    exact ⟨k, hlk, by lia, by lia, hs.least ho hh hw hl hm (by lia) hleast⟩

/-- What the sort of a part does. -/
def Sorts (st : QsortState) (S : Rec → Prop) (turns l h : ℕ) : Prop :=
  ∀ m, Within st S m → ∃ m', st.qst turns m l h = .ok m' ∧ Moved st l h m m' ∧ LeastFirst st l h m'

/-- A part is sorted if it has `THRESH` records. -/
theorem part_ok {turns : ℕ} (hsz : 0 < st.qsz) (hthresh : st.thresh = st.qsz * THRESH)
    (hqst : THRESH ≤ h - l → Sorts st S turns l h) (hw : Within st S m) :
    ∃ m', (if (h - l) * st.qsz ≥ st.thresh then st.qst turns m l h else pure m) = .ok m' ∧ Moved st l h m m' ∧
      (LeastFirst st l h m' ∨ h - l < THRESH) := by
  have hsize : (h - l) * st.qsz ≥ st.thresh ↔ THRESH ≤ h - l := by
    rw [hthresh, Nat.mul_comm st.qsz]
    exact Nat.mul_le_mul_right_iff hsz
  by_cases hbig : THRESH ≤ h - l
  · obtain ⟨m', hrun, hmoved, hfirst⟩ := hqst hbig m hw
    rw [if_pos (hsize.mpr hbig)]
    exact ⟨m', hrun, hmoved, .inl hfirst⟩
  · rw [if_neg (mt hsize.mp hbig)]
    exact ⟨m, rfl, .refl .., .inr (by lia)⟩

/-- **The sort by parts ends.** It moves records of its part only, and leaves a smallest one among the first. -/
theorem qst_ok (ho : Orders st.qcmp S) (hsz : 0 < st.qsz) (hthresh : st.thresh = st.qsz * THRESH) (turns : ℕ) :
    ∀ l h, l < h → h ≤ st.n → h - l ≤ turns → Sorts st S turns l h := by
  induction turns with
  | zero =>
    intro l h hl hh hturns
    lia
  | succ turns ih =>
    intro l h hl hh hturns m hw
    have hmedian : ∃ m₀, (if (h - l) * st.qsz ≥ st.mthresh then st.median m l (l + (h - l) / 2) h else pure m) = .ok m₀ ∧
        Moved st l h m m₀ := by
      split
      · exact median_ok m hl hh (by lia)
      · exact ⟨m, rfl, .refl ..⟩
    obtain ⟨m₀, hrun₀, hmoved₀⟩ := hmedian
    have hw₀ := hw.moved hmoved₀ hh
    obtain ⟨m₁, mid, hrun₁, hmoved₁, hlm, hmh, hsplit₁⟩ := partition_ok ho hh (h - l) m₀ hw₀ l (h - 1) (l + (h - l) / 2)
      (le_refl l) (by lia) (by lia) (by lia) (by lia)
      ⟨rfl, fun k hk hk' => absurd hk' (by lia), fun k hk hk' => absurd hk' (by lia)⟩
    have hw₁ := hw₀.moved hmoved₁ hh
    have hlow : THRESH ≤ mid - l → Sorts st S turns l mid := by
      intro hbig
      apply ih l mid (by unfold THRESH at hbig; lia) (by lia) (by lia)
    have hhigh : THRESH ≤ h - (mid + 1) → Sorts st S turns (mid + 1) h := by
      intro hbig
      apply ih (mid + 1) h (by unfold THRESH at hbig; lia) hh (by lia)
    have hmoved := hmoved₀.trans hmoved₁
    rw [qst, ite_bind_ok hrun₀]
    simp only
    rw [hrun₁]
    simp only [ok_bind]
    by_cases horder : mid - l ≤ h - (mid + 1)
    · obtain ⟨m₂, hrun₂, hmoved₂, hfirst⟩ := part_ok hsz hthresh hlow hw₁
      have hw₂ := hw₁.moved hmoved₂ (by lia)
      obtain ⟨m₃, hrun₃, hmoved₃, -⟩ := part_ok hsz hthresh hhigh hw₂
      have hsplit₃ := (hsplit₁.moved_low hmoved₂).moved_high hmoved₃
      have hin := (hmoved₂.mono (le_refl l) hmh.le).trans (hmoved₃.mono (by lia) (le_refl h))
      rw [if_pos horder, ite_bind_ok hrun₂]
      refine ⟨m₃, hrun₃, hmoved.trans hin, hsplit₃.leastFirst ho hh (hw₁.moved hin hh) hlm hmh ?_⟩
      exact hfirst.imp_left fun hf => hf.moved_high hmoved₃
    · obtain ⟨m₂, hrun₂, hmoved₂, -⟩ := part_ok hsz hthresh hhigh hw₁
      have hw₂ := hw₁.moved hmoved₂ hh
      obtain ⟨m₃, hrun₃, hmoved₃, hfirst⟩ := part_ok hsz hthresh hlow hw₂
      have hsplit₃ := (hsplit₁.moved_high hmoved₂).moved_low hmoved₃
      have hin := (hmoved₂.mono (by lia) (le_refl h)).trans (hmoved₃.mono (le_refl l) hmh.le)
      rw [if_neg horder, ite_bind_ok hrun₂]
      exact ⟨m₃, hrun₃, hmoved.trans hin, hsplit₃.leastFirst ho hh (hw₁.moved hin hh) hlm hmh hfirst⟩

end DiscoBSD.Qsort.QsortState
