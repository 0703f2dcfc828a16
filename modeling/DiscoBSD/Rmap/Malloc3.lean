import Mathlib
import DiscoBSD.Rmap.Table

/-!
# `malloc3`: three segments at once

`malloc3` places its three segments in one walk, taking sizes off the descriptors as it goes; the
addresses follow only when all three are placed, and otherwise the sizes are given back. Between the
two the table is not a free list: sizes are short while addresses are old.

What carries the walk is an account per descriptor: the size left plus the sizes of the segments
placed there is the size it had (`Placing`). On failure the account is paid back and the table is the
old one. On success each segment is a cut at its descriptor, in the order of the segments, and the
compaction drops the descriptors that were used up.
-/

set_option autoImplicit false

namespace DiscoBSD.Rmap

open DiscoBSD.Lib

/-- What segment `next` takes from the descriptor `j`. -/
def part (sizes : Fin 3 → Nat) (madd : Fin 3 → Option Nat) (j : Nat) (next : Fin 3) : Nat :=
  if madd next = some j then sizes next else 0

/-- What all three segments take from the descriptor `j`. -/
def placed (sizes : Fin 3 → Nat) (madd : Fin 3 → Option Nat) (j : Nat) : Nat :=
  part sizes madd j 0 + part sizes madd j 1 + part sizes madd j 2

/-- How many segments are placed. -/
def count (madd : Fin 3 → Option Nat) : Nat :=
  (madd 0).toList.length + (madd 1).toList.length + (madd 2).toList.length

theorem placed_update {sizes : Fin 3 → Nat} {madd : Fin 3 → Option Nat} {next : Fin 3} (i : Nat)
    (h : madd next = none) :
    placed sizes (Function.update madd next (some i)) i = placed sizes madd i + sizes next := by
  fin_cases next <;> simp_all [placed, part, Function.update] <;> omega

theorem count_update {madd : Fin 3 → Option Nat} {next : Fin 3} (i : Nat) (h : madd next = none) :
    count (Function.update madd next (some i)) = count madd + 1 := by
  fin_cases next <;> simp_all [count, Function.update] <;> omega

theorem count_le (madd : Fin 3 → Option Nat) : count madd ≤ 3 := by
  have hle : ∀ o : Option Nat, o.toList.length ≤ 1 := fun o => by cases o <;> simp
  have h0 := hle (madd 0)
  have h1 := hle (madd 1)
  have h2 := hle (madd 2)
  unfold count
  omega

/-- With three counted, every segment has its place: placing one more would make four. -/
theorem ne_none_of_count {madd : Fin 3 → Option Nat} (h : count madd = 3) (next : Fin 3) :
    madd next ≠ none := by
  intro hn
  have hle := count_le (Function.update madd next (some 0))
  rw [count_update 0 hn, h] at hle
  exact absurd hle (by decide)

theorem placed_eq_zero {sizes : Fin 3 → Nat} {madd : Fin 3 → Option Nat} {j : Nat}
    (h : ∀ next, madd next ≠ some j) : placed sizes madd j = 0 := by
  simp [placed, part, h]

/-! ## The inner loop -/

/-- The account of one descriptor while the three segments are tried on it: `p₀` and `e` are the
    locals and the descriptor before. -/
structure Trying (sizes : Fin 3 → Nat) (i : Nat) (p₀ : Pick) (e : Extent) (st : Pick × Extent) :
    Prop where
  off : st.2.off = e.off
  size : st.2.size + placed sizes st.1.madd i = e.size
  madd : ∀ next, st.1.madd next = p₀.madd next ∨ p₀.madd next = none ∧ st.1.madd next = some i
  found : st.1.found = count st.1.madd
  remap : st.1.remap = if p₀.remap = none ∧ st.2.size = 0 then some i else p₀.remap

theorem Trying.pickAt {sizes : Fin 3 → Nat} {i : Nat} {p₀ : Pick} {e : Extent}
    {st : Pick × Extent} (h : Trying sizes i p₀ e st) (next : Fin 3) :
    Trying sizes i p₀ e (pickAt sizes i st next) := by
  obtain ⟨p, bp⟩ := st
  unfold Rmap.pickAt
  by_cases h3 : p.found = 3
  · simpa only [if_pos h3] using h
  · by_cases hfit : p.madd next = none ∧ sizes next ≤ bp.size
    · simp only [if_neg h3, if_pos hfit]
      obtain ⟨hfree, hle⟩ := hfit
      obtain ⟨hoff, hsize, hmadd, hfound, hremap⟩ := h
      refine ⟨hoff, ?_, ?_, ?_, ?_⟩
      · simp only [placed_update i hfree] at hsize ⊢
        omega
      · intro k
        by_cases hk : k = next
        · subst hk
          refine .inr ⟨?_, Function.update_self ..⟩
          rcases hmadd k with heq | hnew
          · exact heq ▸ hfree
          · exact hnew.1
        · simp only [Function.update_of_ne hk]
          exact hmadd k
      · simp only [count_update i hfree, ← hfound]
      · simp only [] at hremap ⊢
        by_cases hz : bp.size - sizes next = 0
        · by_cases hr : p.remap = none
          · have hr₀ : p₀.remap = none := by
              by_contra hne
              rw [if_neg (fun hc => hne hc.1)] at hremap
              exact hne (hremap ▸ hr)
            rw [if_pos ⟨hz, hr⟩, if_pos ⟨hr₀, hz⟩]
          · rw [if_neg (fun hc => hr hc.2), hremap]
            by_cases hr₀ : p₀.remap = none
            · have hbz : bp.size = 0 := by
                by_contra hne
                rw [if_neg (fun hc => hne hc.2)] at hremap
                exact hr (hremap.trans hr₀)
              rw [if_pos ⟨hr₀, hbz⟩, if_pos ⟨hr₀, hz⟩]
            · rw [if_neg (fun hc => hr₀ hc.1), if_neg (fun hc => hr₀ hc.1)]
        · rw [if_neg (fun hc => hz hc.1), if_neg (fun hc => hz hc.2), hremap,
            if_neg (fun hc => hz (by omega))]
    · simpa only [if_neg h3, if_neg hfit] using h

theorem Trying.start (sizes : Fin 3 → Nat) {i : Nat} {p : Pick} {e : Extent}
    (hlt : ∀ next j, p.madd next = some j → j < i) (hc : p.found = count p.madd)
    (he : 0 < e.size) : Trying sizes i p e (p, e) where
  off := rfl
  size := by
    rw [placed_eq_zero fun next hn => Nat.lt_irrefl i (hlt next i hn)]
    rfl
  madd := fun _ => .inl rfl
  found := hc
  remap := by rw [if_neg (fun h => Nat.ne_of_gt he h.2)]

theorem Trying.row {sizes : Fin 3 → Nat} {i : Nat} {p : Pick} {e : Extent} {st : Pick × Extent}
    (h : Trying sizes i p e st) (nexts : List (Fin 3)) :
    Trying sizes i p e (nexts.foldl (Rmap.pickAt sizes i) st) := by
  induction nexts generalizing st with
  | nil => exact h
  | cons next nexts ih => exact ih (h.pickAt next)

/-! ## The walk -/

/-- The account of the whole walk, from index `i` on: `free'` is `free` with the sizes of the
    segments placed there taken off. -/
structure Placing (sizes : Fin 3 → Nat) (i : Nat) (p p' : Pick) (free free' : List Extent) :
    Prop where
  entry : ∀ k, free'[k]? =
    free[k]?.map fun e => Extent.mk e.off (e.size - placed sizes p'.madd (i + k))
  room : ∀ k e, free[k]? = some e → placed sizes p'.madd (i + k) ≤ e.size
  madd : ∀ next, p'.madd next = p.madd next ∨
    p.madd next = none ∧ ∃ k < free.length, p'.madd next = some (i + k)
  found : p'.found = count p'.madd
  remap : p'.remap = p.remap.or ((free'.findIdx? (fun e => e.size = 0)).map (i + ·))

/-- The walk ends with nothing more placed: every segment has its place or the terminator is
    reached. -/
theorem Placing.stop {sizes : Fin 3 → Nat} {i : Nat} {p : Pick} {free : List Extent}
    (hlt : ∀ next j, p.madd next = some j → j < i) (hc : p.found = count p.madd)
    (hp : ∀ e ∈ free, 0 < e.size) : Placing sizes i p p free free := by
  have hzero : ∀ k, placed sizes p.madd (i + k) = 0 := by
    intro k
    refine placed_eq_zero fun next hn => ?_
    have := hlt next _ hn
    omega
  refine ⟨fun k => ?_, fun k e _ => ?_, fun _ => .inl rfl, hc, ?_⟩
  · simp only [hzero k, Nat.sub_zero]
    cases free[k]? <;> rfl
  · rw [hzero k]
    exact Nat.zero_le _
  · have hnone : free.findIdx? (fun e => decide (e.size = 0)) = none := by
      rw [List.findIdx?_eq_none_iff]
      intro e he
      simpa using Nat.ne_of_gt (hp e he)
    rw [hnone, Option.map_none, Option.or_none]

/-- A descriptor's account stays as it is once the walk has moved on. -/
theorem placed_later {sizes : Fin 3 → Nat} {i : Nat} {madd madd' : Fin 3 → Option Nat} {l : Nat}
    (h : ∀ next, madd' next = madd next ∨
      madd next = none ∧ ∃ k < l, madd' next = some (i + 1 + k)) :
    placed sizes madd' i = placed sizes madd i := by
  have hpart : ∀ next, part sizes madd' i next = part sizes madd i next := by
    intro next
    unfold part
    rcases h next with heq | ⟨hnone, k, _, hk⟩
    · rw [heq]
    · rw [hk, hnone, if_neg (by simp only [Option.some.injEq]; omega), if_neg (by simp)]
  simp only [placed, hpart]

theorem Placing.cons {sizes : Fin 3 → Nat} {i : Nat} {p p₁ p' : Pick} {e e' : Extent}
    {free free' : List Extent} (ht : Trying sizes i p e (p₁, e'))
    (h : Placing sizes (i + 1) p₁ p' free free') :
    Placing sizes i p p' (e :: free) (e' :: free') := by
  have hhead : placed sizes p'.madd i = placed sizes p₁.madd i := placed_later h.madd
  have hsize := ht.size
  simp only [] at hsize
  have hidx : ∀ k, i + (k + 1) = i + 1 + k := fun k => by omega
  refine ⟨fun k => ?_, fun k f hf => ?_, fun next => ?_, h.found, ?_⟩
  · cases k with
    | zero =>
      have he' : e' = ⟨e.off, e'.size⟩ := congrArg (Extent.mk · e'.size) ht.off
      rw [List.getElem?_cons_zero, List.getElem?_cons_zero, Option.map_some, Nat.add_zero, hhead,
        he', ← hsize, Nat.add_sub_cancel]
    | succ k =>
      rw [List.getElem?_cons_succ, List.getElem?_cons_succ, hidx]
      exact h.entry k
  · cases k with
    | zero =>
      cases hf
      rw [Nat.add_zero, hhead]
      omega
    | succ k =>
      rw [hidx]
      exact h.room k f hf
  · rcases h.madd next with heq | ⟨hnone, k, hk, heq⟩
    · rcases ht.madd next with h₁ | ⟨h₀, h₁⟩
      · exact .inl (heq.trans h₁)
      · exact .inr ⟨h₀, 0, Nat.succ_pos _, heq.trans h₁⟩
    · refine .inr ⟨?_, k + 1, Nat.succ_lt_succ hk, heq.trans (congrArg some (hidx k).symm)⟩
      rcases ht.madd next with h₁ | ⟨h₀, _⟩
      · exact h₁ ▸ hnone
      · exact h₀
  · have hr := ht.remap
    simp only [] at hr
    rw [h.remap, hr, List.findIdx?_cons]
    by_cases hz : e'.size = 0
    · cases hp : p.remap <;> simp [hz]
    · cases hp : p.remap with
      | none =>
        simp only [hz, and_false, if_false, decide_false, Bool.false_eq_true, Option.none_or,
          Option.map_map]
        congr 1
        funext k
        exact (hidx k).symm
      | some r => simp [hz]

/-- **The walk accounts for every descriptor** and returns at the terminator. -/
theorem pickLoop_placing (sizes : Fin 3 → Nat) {free : List Extent} (stale : List Extent)
    (hp : ∀ e ∈ free, 0 < e.size) {i : Nat} {p : Pick}
    (hlt : ∀ next j, p.madd next = some j → j < i) (hc : p.found = count p.madd) :
    ∃ p' free', pickLoop sizes i p (free ++ ⟨0, 0⟩ :: stale) =
      .ok (p', free' ++ ⟨0, 0⟩ :: stale) ∧ Placing sizes i p p' free free' := by
  induction free generalizing i p with
  | nil =>
    refine ⟨p, [], ?_, Placing.stop hlt hc hp⟩
    rw [List.nil_append, pickLoop, if_pos (.inr rfl)]
  | cons e free ih =>
    have he := hp e (by simp)
    rw [List.cons_append, pickLoop]
    by_cases h3 : p.found = 3
    · rw [if_pos (.inl h3)]
      exact ⟨p, e :: free, rfl, Placing.stop hlt hc hp⟩
    · rw [if_neg (by omega)]
      have ht := (Trying.start sizes hlt hc he).row [0, 1, 2]
      generalize [0, 1, 2].foldl (pickAt sizes i) (p, e) = st at ht ⊢
      obtain ⟨p₁, e'⟩ := st
      have hlt₁ : ∀ next j, p₁.madd next = some j → j < i + 1 := by
        intro next j hj
        rcases ht.madd next with heq | ⟨_, hi⟩
        · exact Nat.lt_succ_of_lt (hlt next j (heq ▸ hj))
        · cases hj.symm.trans hi
          exact Nat.lt_succ_self i
      obtain ⟨p', free', hrun, hpl⟩ := ih (fun f hf => hp f (by simp [hf])) hlt₁ ht.found
      simp only [hrun]
      exact ⟨p', e' :: free', rfl, hpl.cons ht⟩

/-! ## After the walk -/

/-- Between the walk and the last address, the table is the list of cuts made so far with `owed k`
    units already taken off the size of descriptor `k`. -/
structure Owed (w : Nat) (owed : Nat → Nat) (es m : List Extent) : Prop where
  entry : ∀ k, m[k]? = es[k]?.map fun e => Extent.mk e.off (e.size - owed k)
  room : ∀ (k : Nat) (e : Extent), es[k]? = some e → owed k ≤ e.size
  bound : ∀ (k : Nat) (e : Extent), es[k]? = some e → e.off + e.size < 2 ^ w

theorem Owed.length_eq {w : Nat} {owed : Nat → Nat} {es m : List Extent} (h : Owed w owed es m) :
    m.length = es.length := by
  refine Nat.le_antisymm ?_ ?_
  · rw [← List.getElem?_eq_none_iff, h.entry, List.getElem?_eq_none (Nat.le_refl _)]
    rfl
  · have := h.entry m.length
    rw [List.getElem?_eq_none (Nat.le_refl _), eq_comm, Option.map_eq_none_iff,
      List.getElem?_eq_none_iff] at this
    exact this

theorem Placing.owed {w : Nat} {sizes : Fin 3 → Nat} {p p' : Pick} {free free' : List Extent}
    (h : Placing sizes 0 p p' free free') (hw : ∀ e ∈ free, e.off + e.size < 2 ^ w) :
    Owed w (placed sizes p'.madd) free free' where
  entry := fun k => by simpa only [Nat.zero_add] using h.entry k
  room := fun k e he => by simpa only [Nat.zero_add] using h.room k e he
  bound := fun _ e he => hw e (List.mem_of_getElem? he)

/-! ## Giving the sizes back -/

theorem restoreAt_of_ne {w k : Nat} {sizes : Fin 3 → Nat} {madd : Fin 3 → Option Nat}
    {m : List Extent} {next : Fin 3} (h : madd next ≠ some k) :
    (restoreAt w sizes madd m next)[k]? = m[k]? := by
  unfold restoreAt
  cases hm : madd next with
  | none => rfl
  | some i => exact List.getElem?_modify_ne _ m fun hik => h (hik ▸ hm)

theorem restoreAt_get (w : Nat) (sizes : Fin 3 → Nat) (madd : Fin 3 → Option Nat) (next : Fin 3)
    {k : Nat} {m : List Extent} {e : Extent} (he : m[k]? = some e)
    (hlt : e.size + part sizes madd k next < 2 ^ w) :
    (restoreAt w sizes madd m next)[k]? = some ⟨e.off, e.size + part sizes madd k next⟩ := by
  by_cases hm : madd next = some k
  · unfold restoreAt
    rw [part, if_pos hm] at hlt ⊢
    simp only [hm]
    rw [List.getElem?_modify_eq, he, Option.map_eq_map, Option.map_some, wrap_of_lt hlt]
  · rw [restoreAt_of_ne hm, he, part, if_neg hm]
    rfl

/-- **A failed `malloc3` leaves the table as it was.** -/
theorem restore_eq {w : Nat} {sizes : Fin 3 → Nat} {p p' : Pick} {free free' tail : List Extent}
    (h : Placing sizes 0 p p' free free') (hnone : ∀ next, p.madd next = none)
    (hw : ∀ e ∈ free, e.off + e.size < 2 ^ w) :
    [0, 1, 2].foldl (restoreAt w sizes p'.madd) (free' ++ tail) = free ++ tail := by
  have ho := h.owed hw
  have hlen := ho.length_eq
  refine List.ext_getElem? fun k => ?_
  show (restoreAt w sizes p'.madd (restoreAt w sizes p'.madd
    (restoreAt w sizes p'.madd (free' ++ tail) 0) 1) 2)[k]? = _
  by_cases hk : k < free.length
  · have he := List.getElem?_eq_getElem hk
    generalize free[k] = e at he
    have hroom := ho.room k e he
    have hwe := ho.bound k e he
    rw [placed] at hroom
    have h0 : (free' ++ tail)[k]? = some ⟨e.off, e.size - placed sizes p'.madd k⟩ := by
      rw [List.getElem?_append_left (by omega), ho.entry, he, Option.map_some]
    have h1 := restoreAt_get w sizes p'.madd 0 h0
      (by simp only [placed]; omega)
    have h2 := restoreAt_get w sizes p'.madd 1 h1
      (by simp only [placed]; omega)
    have h3 := restoreAt_get w sizes p'.madd 2 h2
      (by simp only [placed]; omega)
    rw [h3, List.getElem?_append_left hk, he]
    congr 2
    simp only [placed]
    omega
  · have hne : ∀ next, p'.madd next ≠ some k := by
      intro next hn
      rcases h.madd next with heq | ⟨_, j, hj, heq⟩
      · rw [heq, hnone next] at hn
        cases hn
      · rw [heq] at hn
        cases hn
        omega
    rw [restoreAt_of_ne (hne 2), restoreAt_of_ne (hne 1), restoreAt_of_ne (hne 0),
      List.getElem?_append_right (by omega), List.getElem?_append_right (by omega), hlen]

/-! ## Moving the addresses -/

/-- Moving one address pays that segment's part: the table is one cut further. -/
theorem Owed.move {w i n : Nat} {owed owed' : Nat → Nat} {es m : List Extent}
    (h : Owed w owed es m) (ho : ∀ k, owed k = owed' k + if i = k then n else 0) :
    Owed w owed' (cutAt i n es) (m.modify i fun e => ⟨wrap w (e.off + n), e.size⟩) := by
  have hcut : ∀ k e, (cutAt i n es)[k]? = some e → ∃ f, es[k]? = some f ∧
      e = if i = k then ⟨f.off + n, f.size - n⟩ else f := by
    intro k e he
    rw [getElem?_cutAt] at he
    obtain ⟨f, hf, heq⟩ := Option.map_eq_some_iff.mp he
    exact ⟨f, hf, heq.symm⟩
  refine ⟨fun k => ?_, fun k e he => ?_, fun k e he => ?_⟩
  · rw [List.getElem?_modify, getElem?_cutAt, h.entry k]
    cases hk : es[k]? with
    | none => rfl
    | some e =>
      have h1 := h.room k e hk
      have h2 := h.bound k e hk
      have h3 := ho k
      simp only [Option.map_some, Option.map_eq_map]
      by_cases hik : i = k
      · rw [if_pos hik] at h3 ⊢
        rw [if_pos hik, wrap_of_lt (show e.off + n < 2 ^ w by omega)]
        congr 2
        show e.size - owed k = e.size - n - owed' k
        omega
      · rw [if_neg hik] at h3 ⊢
        rw [if_neg hik, h3, Nat.add_zero]
  · obtain ⟨f, hf, rfl⟩ := hcut k e he
    have h1 := h.room k f hf
    have h3 := ho k
    split
    · rw [if_pos (by assumption)] at h3
      simp only []
      omega
    · omega
  · obtain ⟨f, hf, rfl⟩ := hcut k e he
    have h1 := h.room k f hf
    have h2 := h.bound k f hf
    have h3 := ho k
    split
    · rw [if_pos (by assumption)] at h3
      simp only []
      omega
    · exact h2

theorem Owed.done {w : Nat} {owed : Nat → Nat} {es m : List Extent} (h : Owed w owed es m)
    (h0 : ∀ k, owed k = 0) : m = es := by
  refine List.ext_getElem? fun k => ?_
  rw [h.entry k]
  cases es[k]? with
  | none => rfl
  | some e => rw [Option.map_some, h0 k, Nat.sub_zero]

/-! ## Compaction -/

theorem keptFrom_eq {es : List Extent} (stale : List Extent) (h : ∀ e ∈ es, e.off ≠ 0) :
    keptFrom (es ++ ⟨0, 0⟩ :: stale) = .ok (dropEmpty es ++ [⟨0, 0⟩]) := by
  induction es with
  | nil => rfl
  | cons e es ih =>
    have he := h e (by simp)
    have ih := ih fun f hf => h f (by simp [hf])
    rw [List.cons_append, keptFrom]
    unfold dropEmpty at ih ⊢
    by_cases hs : e.size = 0
    · rw [if_neg (by simp [hs, he]), ih, List.filter_cons_of_neg (by simpa using hs)]
    · rw [if_pos (.inl hs), if_neg he, ih, List.filter_cons_of_pos (by simpa using hs)]
      rfl

theorem dropEmpty_of_pos {es : List Extent} (h : ∀ e ∈ es, e.size ≠ 0) : dropEmpty es = es :=
  List.filter_eq_self.mpr fun e he => by simpa using h e he

/-- The compaction starts at the first descriptor that was used up and drops them all. -/
theorem compactAt_holds {m es : List Extent} {n r : Nat} (h : Holds m es n)
    (hoff : ∀ e ∈ es, e.off ≠ 0) (hr : es.findIdx? (fun e => e.size = 0) = some r) :
    ∃ m', compactAt r m = .ok m' ∧ Holds m' (dropEmpty es) n := by
  obtain ⟨stale, rfl, hlen⟩ := h
  obtain ⟨hlt, hz, hfirst⟩ := List.findIdx?_eq_some_iff_getElem.mp hr
  have hdrop : (es ++ (⟨0, 0⟩ : Extent) :: stale).drop (r + 1) =
      es.drop (r + 1) ++ ⟨0, 0⟩ :: stale := List.drop_append_of_le_length (by omega)
  have htake : (es ++ (⟨0, 0⟩ : Extent) :: stale).take r = es.take r :=
    List.take_append_of_le_length (by omega)
  have hes : dropEmpty es = es.take r ++ dropEmpty (es.drop (r + 1)) := by
    have hcut : es = es.take r ++ es[r] :: es.drop (r + 1) := by
      rw [List.cons_getElem_drop_succ, List.take_append_drop]
    have hlow : dropEmpty (es.take r) = es.take r := by
      refine dropEmpty_of_pos fun e he => ?_
      obtain ⟨j, hj, rfl⟩ := List.mem_iff_getElem.mp he
      rw [List.length_take] at hj
      rw [List.getElem_take]
      simpa using hfirst j (by omega)
    have hz' : dropEmpty (es[r] :: es.drop (r + 1)) = dropEmpty (es.drop (r + 1)) :=
      List.filter_cons_of_neg (by simpa using hz)
    calc dropEmpty es = dropEmpty (es.take r ++ es[r] :: es.drop (r + 1)) := congrArg _ hcut
      _ = dropEmpty (es.take r) ++ dropEmpty (es[r] :: es.drop (r + 1)) := List.filter_append ..
      _ = es.take r ++ dropEmpty (es.drop (r + 1)) := by rw [hlow, hz']
  have hkept : (dropEmpty (es.drop (r + 1))).length ≤ es.length - (r + 1) := by
    rw [← List.length_drop]
    exact List.length_filter_le _ _
  unfold compactAt
  rw [hdrop, keptFrom_eq stale fun e he => hoff e (List.mem_of_mem_drop he), htake]
  refine ⟨_, rfl, (es ++ (⟨0, 0⟩ : Extent) :: stale).drop
    (r + (dropEmpty (es.drop (r + 1)) ++ [(⟨0, 0⟩ : Extent)]).length), ?_, ?_⟩
  · simp only [hes, List.append_assoc, List.singleton_append]
  · simp only [List.length_append, List.length_cons, List.length_take, List.length_drop,
      List.length_nil] at hlen ⊢
    omega

/-! ## The whole call -/

/-- Three cuts, one for each segment in turn, at the addresses `a`. -/
structure Cuts (sizes a : Fin 3 → Nat) (free es : List Extent) : Prop where
  cut : ∃ i₀ i₁ i₂ e₀ e₁ e₂,
    (free[i₀]? = some e₀ ∧ sizes 0 ≤ e₀.size ∧ a 0 = e₀.off) ∧
    ((cutAt i₀ (sizes 0) free)[i₁]? = some e₁ ∧ sizes 1 ≤ e₁.size ∧ a 1 = e₁.off) ∧
    ((cutAt i₁ (sizes 1) (cutAt i₀ (sizes 0) free))[i₂]? = some e₂ ∧ sizes 2 ≤ e₂.size ∧
      a 2 = e₂.off) ∧
    es = cutAt i₂ (sizes 2) (cutAt i₁ (sizes 1) (cutAt i₀ (sizes 0) free))

theorem modify_append_left {f : Extent → Extent} {i : Nat} {l : List Extent} (t : List Extent)
    (h : i < l.length) : (l ++ t).modify i f = l.modify i f ++ t := by
  induction l generalizing i with
  | nil => cases h
  | cons e l ih =>
    cases i with
    | zero => rfl
    | succ i => exact congrArg (e :: ·) (ih (Nat.lt_of_succ_lt_succ h))

theorem resolveAt_ok {w i : Nat} {sizes : Fin 3 → Nat} {madd : Fin 3 → Option Nat}
    {a : Fin 3 → Nat} {m t : List Extent} {bp : Extent} {next : Fin 3} (hi : madd next = some i)
    (hb : m[i]? = some bp) :
    resolveAt w sizes madd (a, m ++ t) next = .ok (Function.update a next bp.off,
      m.modify i (fun e => ⟨wrap w (e.off + sizes next), e.size⟩) ++ t) := by
  have hlt : i < m.length := (List.getElem?_eq_some_iff.mp hb).1
  unfold resolveAt
  simp only [hi, Option.bind_some, List.getElem?_append_left hlt, hb, Option.map_some,
    modify_append_left t hlt]

theorem map_size_modify (m : List Extent) (i : Nat) (g : Extent → Nat) :
    (m.modify i fun e => ⟨g e, e.size⟩).map Extent.size = m.map Extent.size := by
  refine List.ext_getElem? fun k => ?_
  rw [List.getElem?_map, List.getElem?_map, List.getElem?_modify]
  cases m[k]? with
  | none => rfl
  | some e =>
    simp only [Option.map_eq_map, Option.map_some]
    split <;> rfl

/-- The descriptor a segment is placed at, before its address moves. -/
theorem Owed.place {w i n : Nat} {owed : Nat → Nat} {es m : List Extent} (h : Owed w owed es m)
    (hn : n ≤ owed i) (hi : i < es.length) :
    ∃ e, es[i]? = some e ∧ n ≤ e.size ∧ m[i]? = some ⟨e.off, e.size - owed i⟩ := by
  have he := List.getElem?_eq_getElem hi
  refine ⟨es[i], he, Nat.le_trans hn (h.room i _ he), ?_⟩
  rw [h.entry i, he, Option.map_some]

/-- With all three segments placed, moving the addresses makes the three cuts. -/
theorem resolve_cuts {w : Nat} {sizes a : Fin 3 → Nat} {madd : Fin 3 → Option Nat}
    {free free' : List Extent} (tail : List Extent) (h : Owed w (placed sizes madd) free free')
    (hin : ∀ next, ∃ i < free.length, madd next = some i) :
    ∃ a' es, [0, 1, 2].foldlM (resolveAt w sizes madd) (a, free' ++ tail) =
      .ok (a', es ++ tail) ∧ Cuts sizes a' free es ∧
      es.map Extent.size = free'.map Extent.size := by
  obtain ⟨i₀, hlt₀, h₀⟩ := hin 0
  obtain ⟨i₁, hlt₁, h₁⟩ := hin 1
  obtain ⟨i₂, hlt₂, h₂⟩ := hin 2
  have hpart : ∀ k, placed sizes madd k = (if i₀ = k then sizes 0 else 0) +
      (if i₁ = k then sizes 1 else 0) + (if i₂ = k then sizes 2 else 0) := by
    intro k
    simp only [placed, part, h₀, h₁, h₂, Option.some.injEq]
  have hlen : ∀ i n (es : List Extent), (cutAt i n es).length = es.length := fun i n es =>
    List.length_modify _ es i
  -- What is still owed after each of the three moves.
  have m₁ : Owed w (fun k => (if i₁ = k then sizes 1 else 0) + if i₂ = k then sizes 2 else 0)
      (cutAt i₀ (sizes 0) free) _ := h.move fun k => by rw [hpart k]; omega
  have m₂ : Owed w (fun k => if i₂ = k then sizes 2 else 0)
      (cutAt i₁ (sizes 1) (cutAt i₀ (sizes 0) free)) _ := m₁.move fun k => by omega
  have m₃ : Owed w (fun _ => 0)
      (cutAt i₂ (sizes 2) (cutAt i₁ (sizes 1) (cutAt i₀ (sizes 0) free))) _ :=
    m₂.move fun k => by omega
  obtain ⟨e₀, he₀, hs₀, hb₀⟩ := h.place (n := sizes 0) (by rw [hpart, if_pos rfl]; omega) hlt₀
  obtain ⟨e₁, he₁, hs₁, hb₁⟩ := m₁.place (i := i₁) (n := sizes 1) (by simp) (by rw [hlen]; exact hlt₁)
  obtain ⟨e₂, he₂, hs₂, hb₂⟩ := m₂.place (i := i₂) (n := sizes 2) (by simp)
    (by rw [hlen, hlen]; exact hlt₂)
  refine ⟨Function.update (Function.update (Function.update a 0 e₀.off) 1 e₁.off) 2 e₂.off, _, ?_,
    ⟨i₀, i₁, i₂, e₀, e₁, e₂, ⟨he₀, hs₀, rfl⟩, ⟨he₁, hs₁, rfl⟩, ⟨he₂, hs₂, rfl⟩, rfl⟩, ?_⟩
  · simp only [List.foldlM_cons, List.foldlM_nil, resolveAt_ok h₀ hb₀, resolveAt_ok h₁ hb₁,
      resolveAt_ok h₂ hb₂, bind, Except.bind, pure, Except.pure]
    rw [m₃.done fun _ => rfl]
  · rw [← m₃.done fun _ => rfl, map_size_modify, map_size_modify, map_size_modify]

theorem cutAt_off_pos {i n : Nat} {es : List Extent} (h : ∀ e ∈ es, 0 < e.off) :
    ∀ e ∈ cutAt i n es, 0 < e.off := by
  intro e he
  obtain ⟨k, hk⟩ := List.mem_iff_getElem?.mp he
  rw [getElem?_cutAt] at hk
  obtain ⟨f, hf, rfl⟩ := Option.map_eq_some_iff.mp hk
  have := h f (List.mem_of_getElem? hf)
  split
  · exact Nat.lt_of_lt_of_le this (Nat.le_add_right _ _)
  · exact this

theorem Cuts.off_pos {sizes a : Fin 3 → Nat} {free es : List Extent} (h : Cuts sizes a free es)
    (hp : ∀ e ∈ free, 0 < e.off) : (∀ e ∈ es, 0 < e.off) ∧ ∀ next, 0 < a next := by
  obtain ⟨i₀, i₁, i₂, e₀, e₁, e₂, ⟨h₀, _, ha₀⟩, ⟨h₁, _, ha₁⟩, ⟨h₂, _, ha₂⟩, rfl⟩ := h.cut
  refine ⟨cutAt_off_pos (cutAt_off_pos (cutAt_off_pos hp)), fun next => ?_⟩
  fin_cases next
  · exact ha₀ ▸ hp e₀ (List.mem_of_getElem? h₀)
  · exact ha₁ ▸ cutAt_off_pos hp e₁ (List.mem_of_getElem? h₁)
  · exact ha₂ ▸ cutAt_off_pos (cutAt_off_pos hp) e₂ (List.mem_of_getElem? h₂)

/-- The three runs come out of the coverage. -/
theorem Cuts.cover {sizes a : Fin 3 → Nat} {free es : List Extent} (h : Cuts sizes a free es)
    (x : Nat) : cover es x + ((Extent.mk (a 0) (sizes 0)).ind x +
      (Extent.mk (a 1) (sizes 1)).ind x + (Extent.mk (a 2) (sizes 2)).ind x) = cover free x := by
  obtain ⟨i₀, i₁, i₂, e₀, e₁, e₂, ⟨h₀, hs₀, ha₀⟩, ⟨h₁, hs₁, ha₁⟩, ⟨h₂, hs₂, ha₂⟩, rfl⟩ := h.cut
  rw [← cutAt_cover h₀ hs₀ x, ← cutAt_cover h₁ hs₁ x, ← cutAt_cover h₂ hs₂ x, ha₀, ha₁, ha₂]
  omega

theorem Cuts.spaced {sizes a : Fin 3 → Nat} {free es : List Extent} (h : Cuts sizes a free es)
    (hg : Gapped free) : SpacedFrom 0 es := by
  obtain ⟨i₀, i₁, i₂, e₀, e₁, e₂, ⟨h₀, hs₀, _⟩, ⟨h₁, hs₁, _⟩, ⟨h₂, hs₂, _⟩, rfl⟩ := h.cut
  have at' : ∀ {i n : Nat} {l : List Extent} {e : Extent}, l[i]? = some e → n ≤ e.size →
      ∀ f, l[i]? = some f → n ≤ f.size := by
    intro i n l e he hn f hf
    cases he.symm.trans hf
    exact hn
  exact cutAt_spaced (cutAt_spaced (cutAt_spaced hg.spaced (at' h₀ hs₀)) (at' h₁ hs₁)) (at' h₂ hs₂)

/-- **`malloc3` either places all three segments or changes nothing.** -/
theorem malloc3_holds {mp : Map} {free : List Extent} {n : Nat} (sizes a : Fin 3 → Nat)
    (h : Holds mp.m_map free n) (hr : Runs mp.m_width free) :
    malloc3 mp sizes a = .ok (0, a, mp) ∨
    ∃ a' es m', malloc3 mp sizes a = .ok (a' 2, a', { mp with m_map := m' }) ∧
      Cuts sizes a' free es ∧ Holds m' (dropEmpty es) n := by
  obtain ⟨stale, hm, hlen⟩ := h
  obtain ⟨p, free', hrun, hpl⟩ := pickLoop_placing sizes stale hr.size_pos
    (i := 0) (p := ⟨fun _ => none, none, 0⟩) (fun next j hj => nomatch hj) rfl
  have ho := hpl.owed hr.end_lt
  have hfree' := ho.length_eq
  simp only [malloc3, hm, hrun, bind, Except.bind]
  by_cases h3 : p.found = 3
  · rw [if_pos h3]
    right
    have hin : ∀ next, ∃ i < free.length, p.madd next = some i := by
      intro next
      rcases hpl.madd next with heq | ⟨_, k, hk, heq⟩
      · exact absurd heq (ne_none_of_count (hpl.found ▸ h3) next)
      · exact ⟨0 + k, by omega, heq⟩
    obtain ⟨a', es, hres, hcuts, hsize⟩ := resolve_cuts (⟨0, 0⟩ :: stale) ho hin
    have hhold : Holds (es ++ ⟨0, 0⟩ :: stale) es n := by
      refine ⟨stale, rfl, ?_⟩
      have := congrArg List.length hsize
      rw [List.length_map, List.length_map, hfree'] at this
      rw [hm, List.length_append] at hlen
      rw [List.length_append, this, hlen]
    have hidx : es.findIdx? (fun e => decide (e.size = 0)) =
        free'.findIdx? (fun e => decide (e.size = 0)) := by
      have := congrArg (List.findIdx? fun n => decide (n = 0)) hsize
      rwa [List.findIdx?_map, List.findIdx?_map] at this
    rw [hres]
    have hremap : p.remap = es.findIdx? (fun e => decide (e.size = 0)) := by
      rw [hpl.remap, hidx]
      simp
    cases hp : p.remap with
    | none =>
      refine ⟨a', es, _, rfl, hcuts, ?_⟩
      rw [hp, eq_comm, List.findIdx?_eq_none_iff] at hremap
      rw [dropEmpty_of_pos fun e he => by simpa using hremap e he]
      exact hhold
    | some r =>
      obtain ⟨m', hm', hh⟩ := compactAt_holds hhold
        (fun e he => Nat.ne_of_gt ((hcuts.off_pos hr.off_pos).1 e he)) (hremap ▸ hp)
      refine ⟨a', es, m', ?_, hcuts, hh⟩
      simp only [hm']
      rfl
  · rw [if_neg h3, restore_eq hpl (fun _ => rfl) hr.end_lt]
    left
    rw [← hm]
    rfl

end DiscoBSD.Rmap
