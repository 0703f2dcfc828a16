import Mathlib
import DiscoBSD.Lib.Except
import DiscoBSD.Rmap.Malloc3
import DiscoBSD.Rmap.Contiguous

/-!
# Runs of a resource map

A run starts from a zeroed table into which `mfree` has put one extent, and goes on with the five
map operations in any order. Beside the table it carries the list of what is allocated, which the
code does not have: an allocation adds what the caller was given, and a free takes a part of one of
the live allocations back.

`MapInv` is the invariant over whole runs. **Only coverage is tracked**: what is free and what is
live tile the initial extent. That the runs stay off address zero and inside the descriptor's type
follows from it, so no operation has to re-establish either.
-/

set_option autoImplicit false

namespace DiscoBSD.Rmap

open DiscoBSD.Lib

/-- A map and what is allocated from it. -/
structure MapRun where
  mp : Map
  live : List Extent

inductive MapOp where
  | malloc (size : Nat)
  | mfree (r : Extent) (size addr : Nat)
  | malloc3 (sizes : Fin 3 → Nat)
  | contiguous (d_size s_size u_size align : Nat)
  | contiguousNext (d_size s_size u_size align next : Nat)

/-- What a caller of `malloc3` holds when it succeeds. -/
def threeRuns (sizes a : Fin 3 → Nat) : List Extent :=
  [⟨a 0, sizes 0⟩, ⟨a 1, sizes 1⟩, ⟨a 2, sizes 2⟩]

/-- One call. Success is judged by the returned value, as the callers judge it. -/
def MapRun.step (s : MapRun) : MapOp → Except Fault (Option Lost × MapRun)
  | .malloc size =>
    (malloc s.mp size).map fun (addr, mp) =>
      (none, ⟨mp, if addr = 0 then s.live else ⟨addr, size⟩ :: s.live⟩)
  | .mfree r size addr =>
    (mfree s.mp size addr).map fun (lost, mp) =>
      (lost, ⟨mp, carve r addr size (s.live.erase r)⟩)
  | .malloc3 sizes =>
    (malloc3 s.mp sizes 0).map fun (u, a, mp) =>
      (none, ⟨mp, if u = 0 then s.live else threeRuns sizes a ++ s.live⟩)
  | .contiguous d_size s_size u_size align =>
    (malloc3Contiguous s.mp d_size s_size u_size align 0).map fun (span, a, mp) =>
      (none, ⟨mp, if span = 0 then s.live else ⟨a 0, span⟩ :: s.live⟩)
  | .contiguousNext d_size s_size u_size align next =>
    (malloc3ContiguousNext s.mp d_size s_size u_size align (some next) 0).map fun (span, _, a, mp) =>
      (none, ⟨mp, if span = 0 then s.live else ⟨a 0, span⟩ :: s.live⟩)

/-- A free gives back a live allocation or a part of it. -/
def MapRun.Legal (s : MapRun) : MapOp → Prop
  | .mfree r size addr => r ∈ s.live ∧ r.off ≤ addr ∧ addr + size ≤ r.off + r.size
  | _ => True

/-- The extent a map is initialised with: off address zero, which the map reserves, with an end that
    the descriptor's address type can hold (`machdep.c` asserts as much for both swap devices). -/
structure Space (w base size : Nat) : Prop where
  width : w = 16 ∨ w = 32
  base_pos : 0 < base
  size_pos : 0 < size
  end_lt : base + size < 2 ^ w

/-- The states of every run in which no free overflows the table. -/
inductive MapReach (w slots base size : Nat) : MapRun → Prop
  | init (name : String) {mp : Map} : Space w base size →
      mfree (Map.zeroed name w slots) size base = .ok (none, mp) → MapReach w slots base size ⟨mp, []⟩
  | step {s s' : MapRun} (op : MapOp) : MapReach w slots base size s → s.Legal op →
      s.step op = .ok (none, s') → MapReach w slots base size s'

/-- The invariant, with the free list the table holds. -/
structure MapInv (w slots base size : Nat) (s : MapRun) (free : List Extent) : Prop where
  space : Space w base size
  width : s.mp.m_width = w
  holds : Holds s.mp.m_map free slots
  gapped : Gapped free
  tiles : Tiles base (base + size) (free ++ s.live)
  live_off : ∀ r ∈ s.live, 0 < r.off

section
variable {w slots base size : Nat} {s : MapRun} {free : List Extent}

theorem Space.width_le (h : Space w base size) : w ≤ 32 := by
  rcases h.width with rfl | rfl <;> decide

/-- What is free is inside the space. -/
theorem MapInv.runs (h : MapInv w slots base size s free) : Runs w free := by
  have hin : ∀ e ∈ free, base ≤ e.off ∧ e.off + e.size ≤ base + size := fun e he =>
    h.tiles.inside (List.mem_append_left s.live he) ((gapped_iff.mp h.gapped).2 e he)
  refine ⟨h.gapped, fun e he => ?_, fun e he => ?_⟩
  · exact Nat.lt_of_lt_of_le h.space.base_pos (hin e he).1
  · exact Nat.lt_of_le_of_lt (hin e he).2 h.space.end_lt

/-- An allocation moves coverage from the free list to the live list. -/
theorem MapInv.alloc (h : MapInv w slots base size s free) (added : List Extent)
    {m' free' : List Extent} (hh : Holds m' free' slots) (hg : Gapped free')
    (hc : ∀ x, cover free' x + cover added x = cover free x) (hoff : ∀ r ∈ added, 0 < r.off) :
    MapInv w slots base size ⟨{ s.mp with m_map := m' }, added ++ s.live⟩ free' := by
  refine ⟨h.space, h.width, hh, hg, fun x => ?_, fun r hr => ?_⟩
  · rw [← h.tiles x]
    simp only [cover_append]
    rw [← hc x]
    omega
  · rcases List.mem_append.mp hr with hr | hr
    · exact hoff r hr
    · exact h.live_off r hr

theorem MapInv.malloc (h : MapInv w slots base size s free) {n a : Nat} {mp' : Map}
    (hcall : Rmap.malloc s.mp n = .ok (a, mp')) :
    (a = 0 ∧ mp' = s.mp) ∨
    (a ≠ 0 ∧ ∃ free', MapInv w slots base size ⟨mp', ⟨a, n⟩ :: s.live⟩ free') := by
  have hr := h.runs
  rw [← h.width] at hr
  by_cases h0 : n = 0
  · rw [Rmap.malloc, if_pos h0] at hcall
    cases hcall
  · obtain ⟨hnone, hsome⟩ := malloc_holds h.holds hr h0
    cases ht : take n free with
    | none =>
      rw [hnone ht] at hcall
      cases hcall
      exact .inl ⟨rfl, rfl⟩
    | some p =>
      obtain ⟨b, free'⟩ := p
      obtain ⟨m', hm', hh⟩ := hsome b free' ht
      obtain ⟨hg, hc⟩ := take_spec h.gapped ht
      obtain ⟨e, he, rfl, _⟩ := take_mem ht
      rw [hm'] at hcall
      cases hcall
      have hpos := hr.off_pos e he
      refine .inr ⟨Nat.ne_of_gt hpos, free', h.alloc [⟨e.off, n⟩] hh hg (fun x => ?_) ?_⟩
      · rw [cover_cons, cover_nil, Nat.add_zero]
        exact hc x
      · intro r hr
        rw [List.mem_singleton] at hr
        exact hr ▸ hpos

theorem MapInv.malloc3 (h : MapInv w slots base size s free) {sizes a₀ a : Fin 3 → Nat} {u : Nat}
    {mp' : Map} (hcall : Rmap.malloc3 s.mp sizes a₀ = .ok (u, a, mp')) :
    (u = 0 ∧ mp' = s.mp) ∨
    (u ≠ 0 ∧ (∀ next, a next ≠ 0) ∧
      ∃ free', MapInv w slots base size ⟨mp', threeRuns sizes a ++ s.live⟩ free') := by
  have hr := h.runs
  rw [← h.width] at hr
  rcases malloc3_holds sizes a₀ h.holds hr with hfail | ⟨a', es, m', hok, hcuts, hh⟩
  · rw [hfail] at hcall
    cases hcall
    exact .inl ⟨rfl, rfl⟩
  · rw [hok] at hcall
    cases hcall
    have hpos := (hcuts.off_pos hr.off_pos).2
    refine .inr ⟨Nat.ne_of_gt (hpos 2), fun next => Nat.ne_of_gt (hpos next), dropEmpty es,
      h.alloc _ hh (hcuts.spaced h.gapped).dropEmpty (fun x => ?_) ?_⟩
    · rw [cover_dropEmpty, ← hcuts.cover x]
      simp only [threeRuns, cover_cons, cover_nil]
      omega
    · intro r hmem
      simp only [threeRuns, List.mem_cons, List.not_mem_nil, or_false] at hmem
      rcases hmem with rfl | rfl | rfl
      · exact hpos 0
      · exact hpos 1
      · exact hpos 2

/-- The three addresses of a run that lies inside the space are not zero. -/
theorem segmentsAt_ne_zero {b d_size s_size n : Nat} (hb : 0 < b) (hn : d_size + s_size ≤ n)
    (hend : b + n < 2 ^ 32) : ∀ next, segmentsAt b d_size s_size next ≠ 0 := by
  have h1 : wrap 32 (b + d_size) = b + d_size := wrap_of_lt (by omega)
  have h2 : wrap 32 (b + d_size + s_size) = b + d_size + s_size := wrap_of_lt (by omega)
  intro next
  fin_cases next <;> simp [segmentsAt, h1, h2] <;> omega

/-- A live run and the addresses inside it, in any later state of the map. -/
theorem MapInv.segments_ne_zero {n d_size s_size : Nat} {a : Fin 3 → Nat}
    (h : MapInv w slots base size s free) (hlive : ⟨a 0, n⟩ ∈ s.live) (hn : 0 < n)
    (hle : d_size + s_size ≤ n) (ha : a = segmentsAt (a 0) d_size s_size) :
    ∀ next, a next ≠ 0 := by
  have hin := h.tiles.inside (List.mem_append_right free hlive) hn
  have hlt := h.space.end_lt
  have hw : 2 ^ w ≤ 2 ^ 32 := Nat.pow_le_pow_right (by omega) h.space.width_le
  intro next
  rw [ha]
  exact segmentsAt_ne_zero (show 0 < a 0 from h.live_off _ hlive) hle
    (by simp only [] at hin; omega) next

theorem MapInv.contiguous (h : MapInv w slots base size s free)
    {d_size s_size u_size align r : Nat} {a₀ a : Fin 3 → Nat} {mp' : Map}
    (hcall : malloc3Contiguous s.mp d_size s_size u_size align a₀ = .ok (r, a, mp')) :
    (r = 0 ∧ mp' = s.mp) ∨
    (r ≠ 0 ∧ (∀ next, a next ≠ 0) ∧
      ∃ free', MapInv w slots base size ⟨mp', ⟨a 0, r⟩ :: s.live⟩ free') := by
  have hr := h.runs
  rw [← h.width] at hr
  rcases malloc3Contiguous_holds h.holds hr hcall with hfail |
    ⟨hpos, htotal, free', m', ht, ha, rfl, hh⟩
  · exact .inl hfail
  · obtain ⟨hg, hc⟩ := take_spec h.gapped ht
    obtain ⟨e, he, heq, _⟩ := take_mem ht
    have hinv := h.alloc [⟨a 0, r⟩] hh hg
      (fun x => by rw [cover_cons, cover_nil, Nat.add_zero]; exact hc x)
      (fun t ht => by rw [List.mem_singleton] at ht; exact ht ▸ heq ▸ hr.off_pos e he)
    exact .inr ⟨Nat.ne_of_gt hpos,
      hinv.segments_ne_zero (List.mem_cons_self ..) hpos (by omega) ha, free', hinv⟩

theorem MapInv.contiguousNext (h : MapInv w slots base size s free)
    {d_size s_size u_size align r next next' : Nat} {a₀ a : Fin 3 → Nat} {mp' : Map}
    (hcall : malloc3ContiguousNext s.mp d_size s_size u_size align (some next) a₀ =
      .ok (r, next', a, mp')) :
    (r = 0 ∧ mp' = s.mp) ∨
    (r ≠ 0 ∧ (∀ next, a next ≠ 0) ∧ align ∣ a 0 ∧ align ∣ r ∧
      ∃ free', MapInv w slots base size ⟨mp', ⟨a 0, r⟩ :: s.live⟩ free' ∧
        (Aligned align free → Aligned align free')) := by
  have hr := h.runs
  rw [← h.width] at hr
  rcases malloc3ContiguousNext_holds h.holds hr (h.width ▸ h.space.width_le) hcall with
    ⟨h0, _, hmp⟩ | ⟨hpos, hdvd, htotal, lo, e, hi, m', hfree, hlow, hhigh, hal, ha, _, rfl, hh⟩
  · exact .inl ⟨h0, hmp⟩
  · subst hfree
    have hg : Gapped (lo ++ carve e (a 0) r hi) :=
      GappedFrom.append_congr h.gapped fun lo' hg' => carve_gapped hlow hhigh hpos hg'
    have hinv := h.alloc [⟨a 0, r⟩] hh hg
      (fun x => by
        have := carve_cover hi hlow hhigh x
        simp only [cover_append, cover_cons, cover_nil] at this ⊢
        omega)
      (fun t ht => by
        rw [List.mem_singleton] at ht
        exact ht ▸ Nat.lt_of_lt_of_le (hr.off_pos e (by simp)) hlow)
    refine .inr ⟨Nat.ne_of_gt hpos,
      hinv.segments_ne_zero (List.mem_cons_self ..) hpos (by omega) ha, hal, hdvd, _, hinv,
      fun hali => ?_⟩
    obtain ⟨h1, h2⟩ := aligned_append.mp hali
    exact aligned_append.mpr ⟨h1, Aligned.carve hal hdvd h2⟩

/-- **A free of a live range, or of a part of one, never faults.** It either takes the range back or
    finds the table full with the range touching no free run. -/
theorem MapInv.mfree (h : MapInv w slots base size s free) {r : Extent} {n addr : Nat}
    (hl : s.Legal (.mfree r n addr)) :
    (∃ mp' free', Rmap.mfree s.mp n addr = .ok (none, mp') ∧
      MapInv w slots base size ⟨mp', carve r addr n (s.live.erase r)⟩ free' ∧
      (∀ d, d ∣ addr → d ∣ n → Aligned d free → Aligned d free')) ∨
    (Rmap.mfree s.mp n addr = .ok (some ⟨s.mp.m_name, n, addr⟩, s.mp) ∧ 0 < n ∧
      slots = free.length + 1 ∧ (release ⟨addr, n⟩ free).length = free.length + 1 ∧
      Gapped (release ⟨addr, n⟩ free) ∧
      Tiles base (base + size) (release ⟨addr, n⟩ free ++ carve r addr n (s.live.erase r))) := by
  obtain ⟨hmem, hlow, hhigh⟩ := hl
  have herase : ∀ x, r.ind x + cover (s.live.erase r) x = cover s.live x := cover_erase hmem
  have hcarve := carve_cover (s.live.erase r) hlow hhigh
  have hlive : ∀ t ∈ carve r addr n (s.live.erase r), 0 < t.off := by
    intro t ht
    have hroff := h.live_off r hmem
    simp only [carve, List.mem_append] at ht
    rcases ht with ht | ht | ht
    · split at ht
      · rw [List.mem_singleton] at ht
        exact ht ▸ hroff
      · cases ht
    · split at ht
      · rw [List.mem_singleton] at ht
        subst ht
        show 0 < addr + n
        omega
      · cases ht
    · exact h.live_off t (List.mem_of_mem_erase ht)
  by_cases h0 : n = 0
  · subst h0
    refine .inl ⟨s.mp, free, by rw [Rmap.mfree, if_pos rfl], ⟨h.space, h.width, h.holds, h.gapped,
      fun x => ?_, hlive⟩, fun _ _ _ ha => ha⟩
    have h1 := h.tiles x
    have h2 := herase x
    have h3 := hcarve x
    rw [Extent.ind_empty rfl] at h3
    simp only [cover_append] at h1 ⊢
    omega
  · have hpos := Nat.pos_of_ne_zero h0
    have hin := h.tiles.inside (List.mem_append_right free hmem) (by omega)
    have hap : Apart ⟨addr, n⟩ free := fun x hx₁ hx₂ =>
      h.tiles.apart hmem x (by simp only [] at hx₁; omega) (by simp only [] at hx₂; omega)
    have hlt := h.space.end_lt
    have hb := h.space.base_pos
    have hr := h.runs
    rw [← h.width] at hr
    obtain ⟨hg, hc⟩ := release_spec h.gapped (Nat.zero_le _) hpos hap
    have ht : Tiles base (base + size)
        (release ⟨addr, n⟩ free ++ carve r addr n (s.live.erase r)) := by
      intro x
      rw [← h.tiles x]
      have h1 := hc x
      have h2 := herase x
      have h3 := hcarve x
      simp only [cover_append] at *
      omega
    rcases mfree_holds h.holds hr (h.width ▸ h.space.width_le) hpos (by omega)
      (by rw [h.width]; omega) hap with ⟨m', hm', hh⟩ | ⟨hm', hfull, hlen⟩
    · exact .inl ⟨_, _, hm', ⟨h.space, h.width, hh, hg, ht, hlive⟩,
        fun d h1 h2 ha => ha.release ⟨h1, h2⟩⟩
    · exact .inr ⟨hm', hpos, hfull, hlen, hg, ht⟩

end

theorem MapInv.init {w slots base size : Nat} {name : String} {mp : Map} (hs : Space w base size)
    (h : Rmap.mfree (Map.zeroed name w slots) size base = .ok (none, mp)) :
    MapInv w slots base size ⟨mp, []⟩ [⟨base, size⟩] := by
  cases slots with
  | zero =>
    simp only [Rmap.mfree, if_neg (Nat.ne_of_gt hs.size_pos), if_neg (Nat.ne_of_gt hs.base_pos)] at h
    cases h
  | succ n =>
    have hhold : Holds (Map.zeroed name w (n + 1)).m_map [] (n + 1) :=
      ⟨List.replicate n ⟨0, 0⟩, List.replicate_succ, List.length_replicate⟩
    have hruns : Runs w [] := ⟨trivial, by simp, by simp⟩
    rcases mfree_holds hhold hruns hs.width_le hs.size_pos hs.base_pos hs.end_lt
      (fun _ _ _ => rfl) with ⟨m', hm', hh⟩ | ⟨hm', _, _⟩
    · rw [hm'] at h
      cases h
      refine ⟨hs, rfl, hh, ⟨Nat.zero_le _, hs.size_pos, trivial⟩, fun x => ?_, by simp⟩
      simp [Extent.ind]
    · rw [hm'] at h
      cases h

/-- The two outcomes of an allocator, as one state: nothing is added when the answer is zero. -/
theorem MapInv.answered {w slots base size ans : Nat} {s : MapRun} {free : List Extent}
    {mp' : Map} (h : MapInv w slots base size s free) (added : List Extent)
    (hout : (ans = 0 ∧ mp' = s.mp) ∨
      (ans ≠ 0 ∧ ∃ free', MapInv w slots base size ⟨mp', added ++ s.live⟩ free')) :
    ∃ free', MapInv w slots base size ⟨mp', if ans = 0 then s.live else added ++ s.live⟩ free' := by
  rcases hout with ⟨h0, rfl⟩ | ⟨hne, hinv⟩
  · rw [if_pos h0]
    exact ⟨free, h⟩
  · rw [if_neg hne]
    exact hinv

theorem MapInv.step {w slots base size : Nat} {s s' : MapRun} {free : List Extent} (op : MapOp)
    (h : MapInv w slots base size s free) (hl : s.Legal op) (hstep : s.step op = .ok (none, s')) :
    ∃ free', MapInv w slots base size s' free' := by
  cases op with
  | malloc n =>
    obtain ⟨⟨a, mp'⟩, hcall, heq⟩ := exists_of_map_eq_ok hstep
    cases heq
    exact h.answered [⟨a, n⟩] (h.malloc hcall)
  | mfree r n addr =>
    obtain ⟨⟨lost, mp'⟩, hcall, heq⟩ := exists_of_map_eq_ok hstep
    cases heq
    rcases h.mfree hl with ⟨mp', free', hok, hinv, _⟩ | ⟨hlost, _⟩
    · cases hok.symm.trans hcall
      exact ⟨free', hinv⟩
    · cases hlost.symm.trans hcall
  | malloc3 sizes =>
    obtain ⟨⟨u, a, mp'⟩, hcall, heq⟩ := exists_of_map_eq_ok hstep
    cases heq
    exact h.answered _ ((h.malloc3 hcall).imp id fun hok => ⟨hok.1, hok.2.2⟩)
  | contiguous d_size s_size u_size align =>
    obtain ⟨⟨span, a, mp'⟩, hcall, heq⟩ := exists_of_map_eq_ok hstep
    cases heq
    exact h.answered [⟨a 0, span⟩]
      ((h.contiguous hcall).imp id fun hok => ⟨hok.1, hok.2.2⟩)
  | contiguousNext d_size s_size u_size align next =>
    obtain ⟨⟨span, next', a, mp'⟩, hcall, heq⟩ := exists_of_map_eq_ok hstep
    cases heq
    refine h.answered [⟨a 0, span⟩] ((h.contiguousNext hcall).imp id ?_)
    rintro ⟨hne, _, _, _, free', hinv, _⟩
    exact ⟨hne, free', hinv⟩

theorem MapReach.inv {w slots base size : Nat} {s : MapRun} (h : MapReach w slots base size s) :
    ∃ free, MapInv w slots base size s free := by
  induction h with
  | init name hs hcall => exact ⟨_, MapInv.init hs hcall⟩
  | step op _ hl hstep ih =>
    obtain ⟨free, hinv⟩ := ih
    exact hinv.step op hl hstep

end DiscoBSD.Rmap
