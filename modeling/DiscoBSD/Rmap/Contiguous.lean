import DiscoBSD.Rmap.Table

/-!
# The contiguous allocators

Both allocators round the three segments up to one run of a multiple of `align`. The first asks
`malloc` for it. The second places it at or above a cursor, then below it, and may cut a descriptor
in the middle: the only allocation that makes the table longer, so it looks for a spare slot first
and without one moves the run to the end of the descriptor.

A call that does not panic either returns zero and changes nothing or takes one run; the lemmas here
say which run, as a `take` or a `carve` of the free list.
-/

set_option autoImplicit false

namespace DiscoBSD.Rmap

open DiscoBSD.Lib

/-- What is left of a power of two when the alignment guard passes. -/
theorem align_eq {align : Nat} (h : ¬badAlign align) : ∃ k, align = 2 ^ k := by
  unfold badAlign at h
  rw [not_or, not_not] at h
  exact exists_two_pow h.1 h.2

theorem and_align_eq_zero {align n : Nat} (h : ¬badAlign align) :
    n &&& (align - 1) = 0 ↔ align ∣ n := by
  obtain ⟨k, rfl⟩ := align_eq h
  rw [and_sub_one_eq_mod, Nat.dvd_iff_mod_eq_zero]

/-- `(n + align - 1) & ~(align - 1)` rounds up, under the guard both allocators test first. -/
theorem alignUp_spec {align n : Nat} (h : ¬badAlign align) (h0 : 0 < n)
    (hn : n ≤ 2 ^ 32 - 1 - (align - 1)) :
    n ≤ alignUp align n ∧ align ∣ alignUp align n := by
  obtain ⟨k, rfl⟩ := align_eq h
  have hpos := Nat.two_pow_pos k
  have hlt : n + 2 ^ k - 1 < 2 ^ 32 := by omega
  have hk : k ≤ 32 := by
    by_contra hgt
    have : 2 ^ 33 ≤ 2 ^ k := Nat.pow_le_pow_right (by omega) (by omega)
    omega
  rw [alignUp, wrap_of_lt hlt, maskDown_add hk hlt]
  exact ⟨le_roundUp hpos n, dvd_roundUp _ _⟩

/-- The run the guards let through: not empty, a multiple of the alignment, and large enough for
    the three segments. -/
theorem runSpan_spec {d_size s_size u_size align span : Nat} (h : ¬badAlign align)
    (hs : runSpan d_size s_size u_size align = some span) :
    0 < span ∧ align ∣ span ∧ d_size + s_size + u_size ≤ span := by
  unfold runSpan at hs
  by_cases hover : 2 ^ 32 - 1 - s_size < d_size ∨ 2 ^ 32 - 1 - u_size < d_size + s_size
  · rw [if_pos hover] at hs
    cases hs
  · rw [if_neg hover] at hs
    by_cases hbig : d_size + s_size + u_size = 0 ∨
        2 ^ 32 - 1 - (align - 1) < d_size + s_size + u_size
    · rw [if_pos hbig] at hs
      cases hs
    · rw [if_neg hbig, Option.some.injEq] at hs
      subst hs
      rw [not_or] at hbig
      have hapos : 0 < align := by
        obtain ⟨k, rfl⟩ := align_eq h
        exact Nat.two_pow_pos k
      obtain ⟨hle, hdvd⟩ := alignUp_spec h (n := d_size + s_size + u_size) (by omega) (by omega)
      exact ⟨by omega, hdvd, hle⟩

/-- **`malloc3_contiguous`**: a refusal changes nothing, and a success is one first-fit run. -/
theorem malloc3Contiguous_holds {mp mp' : Map} {free : List Extent}
    {n d_size s_size u_size align r : Nat} {a a' : Fin 3 → Nat} (h : Holds mp.m_map free n)
    (hr : Runs mp.m_width free)
    (hcall : malloc3Contiguous mp d_size s_size u_size align a = .ok (r, a', mp')) :
    (r = 0 ∧ mp' = mp) ∨
    (0 < r ∧ d_size + s_size + u_size ≤ r ∧ ∃ free' m', take r free = some (a' 0, free') ∧
      a' = segmentsAt (a' 0) d_size s_size ∧ mp' = { mp with m_map := m' } ∧
      Holds m' free' n) := by
  unfold malloc3Contiguous at hcall
  by_cases hbad : badAlign align
  · rw [if_pos hbad] at hcall
    cases hcall
  · rw [if_neg hbad] at hcall
    cases hspan : runSpan d_size s_size u_size align with
    | none =>
      rw [hspan] at hcall
      cases hcall
      exact .inl ⟨rfl, rfl⟩
    | some span =>
      obtain ⟨hpos, _, htotal⟩ := runSpan_spec hbad hspan
      obtain ⟨hnone, hsome⟩ := malloc_holds h hr (Nat.ne_of_gt hpos)
      rw [hspan] at hcall
      cases ht : take span free with
      | none =>
        simp only [hnone ht, bind, Except.bind, if_true] at hcall
        cases hcall
        exact .inl ⟨rfl, rfl⟩
      | some p =>
        obtain ⟨b, free'⟩ := p
        obtain ⟨m', hm', hh⟩ := hsome b free' ht
        obtain ⟨e, he, rfl, _⟩ := take_mem ht
        simp only [hm', bind, Except.bind, if_neg (Nat.ne_of_gt (hr.off_pos e he))] at hcall
        split at hcall
        · cases hcall
        · cases hcall
          exact .inr ⟨hpos, htotal, free', m', ht, rfl, rfl, hh⟩

/-! ## The next-fit search -/

/-- The start a pass picked in a descriptor: the run fits, it is aligned when the descriptor is, and
    without a spare slot it does not split. -/
structure Fits (spare : Bool) (align span : Nat) (e : Extent) (base : Nat) : Prop where
  low : e.off ≤ base
  high : base + span ≤ e.off + e.size
  aligned : align ∣ base
  edge : spare = false → base = e.off ∨ base + span = e.off + e.size

theorem candidateIn_fits {wrapped : Bool} {next align span base : Nat} {e : Extent}
    (hbad : ¬badAlign align) (hend : e.off + e.size < 2 ^ 32) (hspan : span ≤ e.size)
    (hpos : 0 < e.off) (hoff : align ∣ e.off)
    (h : candidateIn wrapped next align span e = some base) :
    e.off ≤ base ∧ base + span ≤ e.off + e.size ∧ align ∣ base := by
  simp only [candidateIn, wrap_of_lt hend] at h
  cases wrapped with
  | true =>
    simp only [if_true] at h
    split at h
    · cases h
    · cases h
      exact ⟨Nat.le_refl _, by omega, hoff⟩
  | false =>
    simp only [Bool.false_eq_true, if_false] at h
    generalize hf : (if e.off < next then next else e.off) = start at h
    have hle : e.off ≤ start := by
      rw [← hf]
      split <;> omega
    have hapos : 0 < align := by
      obtain ⟨k, rfl⟩ := align_eq hbad
      exact Nat.two_pow_pos k
    split at h
    · cases h
    · rename_i hguard
      obtain ⟨h1, h2⟩ := alignUp_spec hbad (n := start) (by omega) (by omega)
      split at h
      · cases h
      · cases h
        exact ⟨by omega, by omega, h2⟩

theorem avoidSplit_fits {wrapped spare : Bool} {next align span c base : Nat} {e : Extent}
    (hend : e.off + e.size < 2 ^ 32) (hoff : align ∣ e.off)
    (hsize : align ∣ e.size) (hsd : align ∣ span)
    (hc : e.off ≤ c ∧ c + span ≤ e.off + e.size ∧ align ∣ c)
    (h : avoidSplit wrapped spare next span e c = some base) : Fits spare align span e base := by
  simp only [avoidSplit, wrap_of_lt hend] at h
  split at h
  · split at h
    · cases h
    · cases h
      exact ⟨by omega, by omega, Nat.dvd_sub (Nat.dvd_add hoff hsize) hsd, fun _ => .inr (by omega)⟩
  · rename_i hno
    obtain rfl := Option.some.inj h
    refine ⟨hc.1, hc.2.1, hc.2.2, fun hs => ?_⟩
    simp only [hs, Bool.not_false, Bool.true_and, ne_eq, decide_not, Bool.and_eq_true,
      Bool.not_eq_eq_eq_not, Bool.not_true, decide_eq_false_iff_not, not_and, not_not] at hno
    by_cases heq : c = e.off
    · exact .inl heq
    · have := hno heq
      omega

/-- A pass that selects a slot selects a free run the request fits in. -/
theorem nextPass_fits {wrapped spare : Bool} {next align span w : Nat} {free : List Extent}
    (stale : List Extent) (hr : Runs w free) (hw : w ≤ 32) (hbad : ¬badAlign align)
    (hsd : align ∣ span) {i j base : Nat}
    (h : nextPass wrapped spare next align span i (free ++ ⟨0, 0⟩ :: stale) =
      .ok (some (j, base))) :
    ∃ k e, j = i + k ∧ free[k]? = some e ∧ Fits spare align span e base := by
  have hle : 2 ^ w ≤ 2 ^ 32 := Nat.pow_le_pow_right (by omega) hw
  obtain ⟨hg, hoffpos, hendlt⟩ := hr
  have hpos := (gapped_iff.mp hg).2
  clear hg
  induction free generalizing i with
  | nil =>
    rw [List.nil_append, nextPass, if_pos rfl] at h
    cases h
  | cons e free ih =>
    have ih' := fun {i} hcall => ih (i := i) hcall (fun f hf => hoffpos f (by simp [hf]))
      (fun f hf => hendlt f (by simp [hf])) fun f hf => hpos f (by simp [hf])
    have hnext : nextPass wrapped spare next align span (i + 1) (free ++ ⟨0, 0⟩ :: stale) =
        .ok (some (j, base)) → ∃ k f, j = i + k ∧ (e :: free)[k]? = some f ∧
          Fits spare align span f base := by
      intro hcall
      obtain ⟨k, f, hk, hf, hfit⟩ := ih' hcall
      exact ⟨k + 1, f, by omega, hf, hfit⟩
    have he := hpos e (by simp)
    have hend := hendlt e (by simp)
    rw [List.cons_append, nextPass, if_neg (Nat.ne_of_gt he)] at h
    split at h
    · cases h
    · rename_i hal
      rw [not_or, not_not, not_not, and_align_eq_zero hbad, and_align_eq_zero hbad] at hal
      split at h
      · cases h
      · split at h
        · exact hnext h
        · rename_i hsp
          split at h
          · exact hnext h
          · rename_i b hb
            cases h
            obtain ⟨c, hc, hav⟩ := Option.bind_eq_some_iff.mp hb
            have hcand := candidateIn_fits hbad (by omega) (by omega) (hoffpos e (by simp)) hal.1 hc
            exact ⟨0, e, rfl, rfl,
              avoidSplit_fits (by omega) hal.1 hal.2 hsd hcand hav⟩

/-- A pass over an aligned table raises neither panic. -/
theorem nextPass_ok (wrapped spare : Bool) (next span : Nat) {align w : Nat} {free : List Extent}
    (stale : List Extent) (hr : Runs w free) (hw : w ≤ 32) (hbad : ¬badAlign align)
    (ha : Aligned align free) (i : Nat) :
    ∃ r, nextPass wrapped spare next align span i (free ++ ⟨0, 0⟩ :: stale) = .ok r := by
  have hle : 2 ^ w ≤ 2 ^ 32 := Nat.pow_le_pow_right (by omega) hw
  have hend := hr.end_lt
  clear hr
  induction free generalizing i with
  | nil => exact ⟨none, by rw [List.nil_append, nextPass, if_pos rfl]⟩
  | cons e free ih =>
    obtain ⟨⟨hoff, hsize⟩, hrest⟩ := aligned_cons.mp ha
    have he := hend e (by simp)
    obtain ⟨r, hr⟩ := ih hrest (i + 1) fun f hf => hend f (by simp [hf])
    rw [← and_align_eq_zero hbad] at hoff hsize
    rw [List.cons_append, nextPass,
      if_neg (show ¬(e.off &&& (align - 1) ≠ 0 ∨ e.size &&& (align - 1) ≠ 0) by simp [hoff, hsize]),
      wrap_of_lt (show e.off + e.size < 2 ^ 32 by omega),
      if_neg (show ¬e.off + e.size < e.off by omega)]
    split
    · exact ⟨_, rfl⟩
    · split
      · exact ⟨r, hr⟩
      · split
        · exact ⟨r, hr⟩
        · exact ⟨_, rfl⟩

theorem nextSelect_fits {spare : Bool} {next align span w : Nat} {free : List Extent}
    (stale : List Extent) (hr : Runs w free) (hw : w ≤ 32) (hbad : ¬badAlign align)
    (hsd : align ∣ span) {j base : Nat}
    (h : nextSelect spare next align span (free ++ ⟨0, 0⟩ :: stale) = .ok (some (j, base))) :
    ∃ e, free[j]? = some e ∧ Fits spare align span e base := by
  unfold nextSelect at h
  split at h
  all_goals
    obtain ⟨k, e, hk, he, hfit⟩ := nextPass_fits stale hr hw hbad hsd h
    rw [Nat.zero_add] at hk
    exact ⟨e, hk ▸ he, hfit⟩

theorem hasSpare_eq {m free : List Extent} {n : Nat} (h : Holds m free n)
    (hp : ∀ e ∈ free, 0 < e.size) : hasSpare m = .ok (decide (free.length + 1 < n)) := by
  obtain ⟨stale, rfl, hlen⟩ := h
  induction free generalizing n with
  | nil =>
    rw [List.nil_append, List.length_cons] at hlen
    subst hlen
    cases stale <;> rfl
  | cons e free ih =>
    have he := hp e (by simp)
    rw [List.cons_append, List.length_cons] at hlen
    subst hlen
    rw [List.cons_append, hasSpare, if_neg (Nat.ne_of_gt he), ih (fun f hf => hp f (by simp [hf])) rfl,
      List.length_cons]
    congr 2
    simp

/-- Taking the selected run out of its descriptor carves it. -/
theorem placeAt_holds {w span base n : Nat} {spare : Bool} {align : Nat} {e : Extent}
    {m free : List Extent} (h : Holds m (e :: free) n) (hp : ∀ f ∈ free, 0 < f.size)
    (hend : e.off + e.size < 2 ^ w) (h32 : w ≤ 32)
    (hfit : Fits spare align span e base) (hsp : spare = decide (free.length + 2 < n)) :
    ∃ m', placeAt w span base m = .ok m' ∧ Holds m' (carve e base span free) n := by
  have hle : 2 ^ w ≤ 2 ^ 32 := Nat.pow_le_pow_right (by omega) h32
  obtain ⟨stale, rfl, hlen⟩ := h
  obtain ⟨hlow, hhigh, _, hedge⟩ := hfit
  have htail : Holds (free ++ ⟨0, 0⟩ :: stale) free (n - 1) :=
    ⟨stale, rfl, by rw [List.cons_append, List.length_cons] at hlen; omega⟩
  have hn : n - 1 + 1 = n := by rw [List.cons_append, List.length_cons] at hlen; omega
  have hmoved : wrap w (e.off + span) = e.off + span := wrap_of_lt (by omega)
  have hbase : wrap w (base + span) = base + span := wrap_of_lt (by omega)
  have hwhole : wrap 32 (e.off + e.size) = e.off + e.size := wrap_of_lt (by omega)
  rw [List.cons_append]
  simp only [placeAt, hmoved, hbase, hwhole, carve]
  by_cases hfront : base = e.off
  · subst hfront
    rw [if_pos rfl, if_neg (Nat.lt_irrefl _), List.nil_append]
    by_cases hex : e.size - span = 0
    · obtain ⟨m', hm', hh⟩ := closeUp_holds htail hp ⟨e.off + span, e.size - span⟩
      rw [if_pos hex, if_neg (by omega), hm']
      exact ⟨m', rfl, hn ▸ hh⟩
    · rw [if_neg hex, if_pos (by omega)]
      refine ⟨_, rfl, ?_⟩
      rw [show e.off + e.size - (e.off + span) = e.size - span by omega]
      exact hn ▸ htail.cons _
  · rw [if_neg hfront, if_pos (show e.off < base by omega)]
    by_cases hback : base = e.off + e.size - span
    · rw [if_pos hback, if_neg (show ¬base + span < e.off + e.size by omega), List.nil_append]
      refine ⟨_, rfl, ?_⟩
      rw [show base - e.off = e.size - span by omega]
      exact hn ▸ htail.cons _
    · -- An interior run: both pieces stay, and the search saw a spare slot for the second.
      have hroom : free.length + 1 < n - 1 := by
        by_contra hfull
        have hs : spare = false := by rw [hsp]; simp only [decide_eq_false_iff_not]; omega
        rcases hedge hs with h1 | h1 <;> omega
      obtain ⟨m', hm', hh⟩ := (openUp_holds htail hp
        ⟨base + span, e.off + e.size - (base + span)⟩).2 hroom
      rw [if_neg hback, if_pos (show base + span < e.off + e.size by omega),
        wrap_of_lt (show e.off + e.size - (base + span) < 2 ^ w by omega),
        wrap_of_lt (show base - e.off < 2 ^ w by omega), hm']
      exact ⟨_, rfl, hn ▸ hh.cons _⟩

/-- The selected run is carved out of the table. -/
theorem nextSelect_place {mp : Map} {free : List Extent} {n align span next i base : Nat}
    (h : Holds mp.m_map free n) (hr : Runs mp.m_width free) (h32 : mp.m_width ≤ 32)
    (hbad : ¬badAlign align) (hdvd : align ∣ span)
    (hsel : nextSelect (decide (free.length + 1 < n)) next align span mp.m_map =
      .ok (some (i, base))) :
    ∃ lo e hi m', free = lo ++ e :: hi ∧ e.off ≤ base ∧ base + span ≤ e.off + e.size ∧
      align ∣ base ∧ placeAt mp.m_width span base (mp.m_map.drop i) = .ok m' ∧
      Holds (mp.m_map.take i ++ m') (lo ++ carve e base span hi) n := by
  obtain ⟨stale, hm, hlen⟩ := h
  rw [hm] at hsel
  obtain ⟨e, he, hfit⟩ := nextSelect_fits stale hr h32 hbad hdvd hsel
  obtain ⟨hi, hget⟩ := List.getElem?_eq_some_iff.mp he
  -- The table is cut at the selected slot, and so is the free list.
  have hfree : free = free.take i ++ e :: free.drop (i + 1) := by
    rw [← hget, List.cons_getElem_drop_succ, List.take_append_drop]
  have hdrop : mp.m_map.drop i = e :: free.drop (i + 1) ++ ⟨0, 0⟩ :: stale := by
    rw [hm, List.drop_append_of_le_length (Nat.le_of_lt hi), ← hget, List.cons_getElem_drop_succ]
  have htake : mp.m_map.take i = free.take i := by
    rw [hm, List.take_append_of_le_length (Nat.le_of_lt hi)]
  have hhold : Holds (mp.m_map.drop i) (e :: free.drop (i + 1)) (n - i) :=
    ⟨stale, hdrop, by rw [List.length_drop, hlen]⟩
  have hlast : free.length + 1 ≤ n := by
    rw [hm, List.length_append, List.length_cons] at hlen
    omega
  obtain ⟨m', hm', hh⟩ := placeAt_holds hhold
    (fun f hf => hr.size_pos f (List.mem_of_mem_drop hf))
    (hr.end_lt e (List.mem_of_getElem? he)) h32 hfit
    (by rw [List.length_drop]; congr 1; simp only [eq_iff_iff]; omega)
  have hprep := Holds.prepend (free.take i) hh
  rw [List.length_take, Nat.min_eq_left (Nat.le_of_lt hi), Nat.add_sub_cancel' (by omega)] at hprep
  exact ⟨free.take i, e, free.drop (i + 1), m', hfree, hfit.low, hfit.high, hfit.aligned, hm',
    htake ▸ hprep⟩

/-- **`malloc3_contiguous_next`**: a refusal changes nothing, and a success carves one aligned run
    out of one descriptor and leaves the cursor behind it. -/
theorem malloc3ContiguousNext_holds {mp mp' : Map} {free : List Extent}
    {n d_size s_size u_size align r next next' : Nat} {a a' : Fin 3 → Nat}
    (h : Holds mp.m_map free n) (hr : Runs mp.m_width free) (h32 : mp.m_width ≤ 32)
    (hcall : malloc3ContiguousNext mp d_size s_size u_size align (some next) a =
      .ok (r, next', a', mp')) :
    (r = 0 ∧ next' = next ∧ mp' = mp) ∨
    (0 < r ∧ align ∣ r ∧ d_size + s_size + u_size ≤ r ∧ ∃ lo e hi m', free = lo ++ e :: hi ∧
      e.off ≤ a' 0 ∧ a' 0 + r ≤ e.off + e.size ∧ align ∣ a' 0 ∧
      a' = segmentsAt (a' 0) d_size s_size ∧ next' = a' 0 + r ∧
      mp' = { mp with m_map := m' } ∧ Holds m' (lo ++ carve e (a' 0) r hi) n) := by
  unfold malloc3ContiguousNext at hcall
  by_cases hbad : badAlign align
  · rw [if_pos hbad] at hcall
    cases hcall
  · rw [if_neg hbad] at hcall
    cases hspan : runSpan d_size s_size u_size align with
    | none =>
      simp only [hspan] at hcall
      cases hcall
      exact .inl ⟨rfl, rfl, rfl⟩
    | some span =>
      obtain ⟨hpos, hdvd, htotal⟩ := runSpan_spec hbad hspan
      simp only [hspan, hasSpare_eq h hr.size_pos, bind, Except.bind] at hcall
      cases hsel : nextSelect (decide (free.length + 1 < n)) next align span mp.m_map with
      | error f =>
        rw [hsel] at hcall
        cases hcall
      | ok sel =>
        rw [hsel] at hcall
        cases sel with
        | none =>
          cases hcall
          exact .inl ⟨rfl, rfl, rfl⟩
        | some p =>
          obtain ⟨i, base⟩ := p
          obtain ⟨lo, e, hi, m', hfree, hlow, hhigh, hal, hm', hh⟩ :=
            nextSelect_place h hr h32 hbad hdvd hsel
          simp only [hm'] at hcall
          cases hcall
          have hbound := hr.end_lt e (by rw [hfree]; simp)
          have hle : 2 ^ mp.m_width ≤ 2 ^ 32 := Nat.pow_le_pow_right (by omega) h32
          exact .inr ⟨hpos, hdvd, htotal, lo, e, hi, _, hfree, hlow, hhigh, hal, rfl,
            wrap_of_lt (by omega), rfl, hh⟩

theorem nextSelect_ok {mp : Map} {free : List Extent} {n align : Nat} (spare : Bool) (next span : Nat)
    (h : Holds mp.m_map free n) (hr : Runs mp.m_width free) (h32 : mp.m_width ≤ 32) (hbad : ¬badAlign align)
    (ha : Aligned align free) : ∃ sel, nextSelect spare next align span mp.m_map = .ok sel := by
  obtain ⟨stale, hm, _⟩ := h
  obtain ⟨r₀, h₀⟩ := nextPass_ok false spare next span stale hr h32 hbad ha 0
  obtain ⟨r₁, h₁⟩ := nextPass_ok true spare next span stale hr h32 hbad ha 0
  unfold nextSelect
  rw [hm, h₀, h₁]
  cases r₀ with
  | none => exact ⟨r₁, rfl⟩
  | some r => exact ⟨some r, rfl⟩

/-- On an aligned map the allocator returns, whatever is asked of it. -/
theorem malloc3ContiguousNext_ok {mp : Map} {free : List Extent} {n align : Nat}
    (d_size s_size u_size next : Nat) (a : Fin 3 → Nat) (h : Holds mp.m_map free n)
    (hr : Runs mp.m_width free) (h32 : mp.m_width ≤ 32) (hbad : ¬badAlign align)
    (ha : Aligned align free) :
    ∃ r, malloc3ContiguousNext mp d_size s_size u_size align (some next) a = .ok r := by
  unfold malloc3ContiguousNext
  rw [if_neg hbad]
  cases hspan : runSpan d_size s_size u_size align with
  | none => exact ⟨_, rfl⟩
  | some span =>
    obtain ⟨sel, hsel⟩ := nextSelect_ok (decide (free.length + 1 < n)) next span h hr h32 hbad ha
    simp only [hasSpare_eq h hr.size_pos, bind, Except.bind, hsel]
    cases sel with
    | none => exact ⟨_, rfl⟩
    | some p =>
      obtain ⟨i, base⟩ := p
      obtain ⟨_, _, _, m', _, _, _, _, hm', _⟩ :=
        nextSelect_place h hr h32 hbad (runSpan_spec hbad hspan).2.1 hsel
      simp only [hm']
      exact ⟨_, rfl⟩

end DiscoBSD.Rmap
