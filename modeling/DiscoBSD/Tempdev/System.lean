import DiscoBSD.Tempdev.Calls

/-!
# Temporary devices are arrays

The devices beside each other and beside the processes, and every run. **The extents of the devices and those of the
processes are what the resource map counts as allocated**, so they are apart, whoever got them and whenever; and there
are never more of them than the map was sized for, so whatever a device gives back is taken back whole.
-/

set_option autoImplicit false

namespace DiscoBSD.Tempdev

open DiscoBSD.Lib DiscoBSD.Rmap DiscoBSD.Flash
open DiscoBSD.Swap (devBsize)
open Function (update)

/-! ## What is allocated -/

def State.live (s : State) : List Extent := (List.range ntmp).filterMap s.given ++ s.held

/-- One entry of a table is filled. -/
theorem filterMap_update {α : Type} {l : List Nat} (hnodup : l.Nodup) {u : Nat} (hu : u ∈ l) (g : Nat → Option α)
    (a : α) : (l.filterMap (update g u (some a))).Perm (a :: l.filterMap (update g u none)) := by
  induction l with
  | nil => cases hu
  | cons v l ih =>
    obtain ⟨hv, hl⟩ := List.nodup_cons.mp hnodup
    have hrest : ∀ (w : Nat) (o : Option α), w ∉ l → l.filterMap (update g w o) = l.filterMap g := by
      intro w o hw
      refine List.filterMap_congr fun y hy => ?_
      rw [Function.update_of_ne]
      rintro rfl
      exact hw hy
    by_cases heq : v = u
    · subst heq
      rw [List.filterMap_cons_some (Function.update_self _ _ _), List.filterMap_cons_none (Function.update_self _ _ _),
        hrest v _ hv, hrest v _ hv]
    · have hmem : u ∈ l := (List.mem_cons.mp hu).resolve_left (Ne.symm heq)
      have hih := ih hl hmem
      cases hg : g v with
      | none =>
        rw [List.filterMap_cons_none (by rw [Function.update_of_ne heq]; exact hg),
          List.filterMap_cons_none (by rw [Function.update_of_ne heq]; exact hg)]
        exact hih
      | some b =>
        rw [List.filterMap_cons_some (by rw [Function.update_of_ne heq]; exact hg),
          List.filterMap_cons_some (by rw [Function.update_of_ne heq]; exact hg)]
        exact (hih.cons b).trans (.swap _ _ _)

/-- All but a device's own. -/
def State.rest (s : State) (u : Nat) : List Extent := (List.range ntmp).filterMap (update s.given u none) ++ s.held

theorem State.live_perm {s : State} {u : Nat} {e : Extent} (hu : u < ntmp) (he : s.given u = some e) :
    s.live.Perm (e :: s.rest u) := by
  have hfill := filterMap_update List.nodup_range (List.mem_range.mpr hu) s.given e
  have hsame : update s.given u (some e) = s.given := by
    rw [← he]
    exact Function.update_eq_self _ _
  rw [hsame] at hfill
  exact hfill.append_right s.held

theorem State.live_of_none {s : State} {u : Nat} (hnone : s.given u = none) : s.live = s.rest u := by
  have hsame : update s.given u none = s.given := by
    rw [← hnone]
    exact Function.update_eq_self _ _
  unfold State.live State.rest
  rw [hsame]

theorem State.rest_length (s : State) {u : Nat} (hu : u < ntmp) : (s.rest u).length + 1 ≤ ntmp + s.held.length := by
  have hfill := (filterMap_update List.nodup_range (List.mem_range.mpr hu) s.given (⟨0, 0⟩ : Extent)).length_eq
  have hle := List.length_filterMap_le (update s.given u (some (⟨0, 0⟩ : Extent))) (List.range ntmp)
  rw [List.length_range] at hle
  rw [List.length_cons] at hfill
  unfold State.rest
  rw [List.length_append]
  lia

theorem State.mem_rest {s : State} {u v : Nat} {e : Extent} (hv : v < ntmp) (hne : v ≠ u) (he : s.given v = some e) :
    e ∈ s.rest u := by
  refine List.mem_append_left _ (List.mem_filterMap.mpr ⟨v, List.mem_range.mpr hv, ?_⟩)
  rw [Function.update_of_ne hne]
  exact he

theorem swapInv_perm {dev : SwapDev} {mp : Map} {l l' free : List Extent} (h : SwapInv dev ⟨mp, l⟩ free)
    (hp : l.Perm l') : SwapInv dev ⟨mp, l'⟩ free := by
  refine ⟨⟨h.inv.space, h.inv.width, h.inv.holds, h.inv.gapped, ?_, ?_⟩, h.free_aligned, ?_, ?_⟩
  · intro x
    rw [← h.inv.tiles x, cover_append, cover_append, cover_perm hp]
  · exact fun r hr => h.inv.live_off r (hp.mem_iff.mpr hr)
  · exact fun r hr => h.live_aligned r (hp.mem_iff.mpr hr)
  · exact hp.length_eq ▸ h.live_le

/-- No block is in two of them. -/
theorem swapInv_apart {dev : SwapDev} {mp : Map} {e r : Extent} {l free : List Extent}
    (h : SwapInv dev ⟨mp, e :: l⟩ free) (hr : r ∈ l) (b : Nat) :
    ¬(e.off ≤ b ∧ b < e.off + e.size ∧ r.off ≤ b ∧ b < r.off + r.size) := by
  rintro ⟨he₁, he₂, hr₁, hr₂⟩
  have hcover := h.inv.tiles b
  have hle := ind_le_cover hr b
  rw [Extent.ind_eq_one hr₁ hr₂] at hle
  rw [cover_append, cover_cons, Extent.ind_eq_one he₁ he₂] at hcover
  split at hcover <;> lia

/-- A change in one of them is none in another. -/
theorem swapInv_frame {dev : SwapDev} {mp : Map} {e r : Extent} {l free : List Extent}
    (h : SwapInv dev ⟨mp, e :: l⟩ free) (hr : r ∈ l) {m m' : Mem} {size : Nat} (hplaced : Placed dev e size)
    (hkept : Kept dev r m m') {y : Nat} (hlow : addr dev e.off ≤ y) (hhigh : y < addr dev (e.off + e.size)) :
    m' y = m y := by
  refine hkept y ((addr_mono dev hplaced.low).trans hlow) ?_
  have hapart := swapInv_apart h hr ((y - base dev) / devBsize)
  unfold addr devBsize at *
  lia

/-! ## The allocator -/

/-- What the allocator answers is what was asked for, rounded up. -/
theorem contiguousNext_span {mp mp' : Map} {d_size s_size u_size align next next' span : Nat} {a a' : Fin 3 → Nat}
    (h : malloc3ContiguousNext mp d_size s_size u_size align (some next) a = .ok (span, next', a', mp')) :
    span = 0 ∨ span = alignUp align (d_size + s_size + u_size) := by
  unfold malloc3ContiguousNext at h
  by_cases hbad : badAlign align
  · rw [if_pos hbad] at h
    cases h
  · rw [if_neg hbad] at h
    cases hspan : runSpan d_size s_size u_size align with
    | none =>
      simp only [hspan] at h
      cases h
      exact .inl rfl
    | some sp =>
      have hsp : sp = alignUp align (d_size + s_size + u_size) := by
        unfold runSpan at hspan
        split at hspan
        · cases hspan
        · split at hspan
          · cases hspan
          · exact (Option.some.inj hspan).symm
      simp only [hspan] at h
      cases hs : hasSpare mp.m_map with
      | error f => simp [hs, bind, Except.bind] at h
      | ok spare =>
        simp only [hs, bind, Except.bind] at h
        cases hsel : nextSelect spare next align sp mp.m_map with
        | error f => simp [hsel] at h
        | ok sel =>
          rw [hsel] at h
          cases sel with
          | none =>
            cases h
            exact .inl rfl
          | some p =>
            obtain ⟨i, b⟩ := p
            dsimp only at h
            cases hplace : placeAt mp.m_width sp b (mp.m_map.drop i) with
            | error f => simp [hplace] at h
            | ok m =>
              rw [hplace] at h
              cases h
              exact .inr hsp

/-- An allocation: nothing, or one extent more. -/
theorem swapInv_take {dev : SwapDev} {mp : Map} {l free : List Extent} (h : SwapInv dev ⟨mp, l⟩ free)
    (hroom : l.length < smapExtents) (d_size s_size u_size next : Nat) (a₀ : Fin 3 → Nat) :
    ∃ span next' a mp', malloc3ContiguousNext mp d_size s_size u_size swapImageAlign (some next) a₀ =
        .ok (span, next', a, mp') ∧
      (span = 0 ∧ mp' = mp ∨
        span = alignUp swapImageAlign (d_size + s_size + u_size) ∧
          Placed dev ⟨a 0, span⟩ (d_size + s_size + u_size) ∧ 0 < span ∧
          ∃ free', SwapInv dev ⟨mp', ⟨a 0, span⟩ :: l⟩ free') := by
  have hruns := h.inv.runs
  rw [← h.inv.width] at hruns
  obtain ⟨⟨span, next', a, mp'⟩, hcall⟩ := malloc3ContiguousNext_ok d_size s_size u_size next a₀ h.inv.holds hruns
    (by rw [h.inv.width]; decide) not_badAlign_swapImageAlign h.free_aligned
  refine ⟨span, next', a, mp', hcall, ?_⟩
  rcases h.inv.contiguousNext hcall with hnone | ⟨hne, -, ha, hr, free', hinv, hal⟩
  · exact .inl hnone
  · right
    have hspan := (contiguousNext_span hcall).resolve_left hne
    have hfits : d_size + s_size + u_size ≤ span := by
      rcases malloc3ContiguousNext_holds h.inv.holds hruns (by rw [h.inv.width]; decide) hcall with
        ⟨h0, -, -⟩ | ⟨-, -, htotal, -⟩
      · exact absurd h0 hne
      · exact htotal
    have hinside := hinv.tiles.inside (List.mem_append_right free' (List.mem_cons_self ..)) (Nat.pos_of_ne_zero hne)
    have hend : swapImageAlign + (dev.psize - swapImageAlign) = dev.psize := by cases dev <;> rfl
    rw [hend] at hinside
    refine ⟨hspan, ⟨hinside.1, ha, hr, hinside.2, hfits⟩, Nat.pos_of_ne_zero hne, free', hinv, hal h.free_aligned,
      aligned_cons.mpr ⟨⟨ha, hr⟩, h.live_aligned⟩, ?_⟩
    rw [List.length_cons]
    exact hroom

/-! ## Between the calls -/

structure State.Inv (dev : SwapDev) (s : State) : Prop where
  map : ∃ free, SwapInv dev ⟨s.mp, s.live⟩ free
  most : s.held.length ≤ heldMost
  units : ∀ u, ntmp ≤ u → s.given u = none
  bare : ∀ u, s.given u = none → (s.td u).t_start = 0 ∧ s.writes u = []
  good : ∀ u e, s.given u = some e → Good dev e (s.temp u)
  span : ∀ u e, s.given u = some e → e.size = alignUp swapImageAlign (s.td u).t_size

variable {dev : SwapDev} {s s' : State} {u : Nat} {e : Extent} {x : Temp}

theorem State.Inv.lt (h : s.Inv dev) (he : s.given u = some e) : u < ntmp := by
  by_contra hge
  rw [h.units u (Nat.le_of_not_lt hge)] at he
  cases he

/-- A device has an extent exactly if its start is not zero. -/
theorem State.Inv.start_pos (h : s.Inv dev) (hstart : (s.td u).t_start ≠ 0) : ∃ e, s.given u = some e := by
  cases hg : s.given u with
  | none => exact absurd (h.bare u hg).1 hstart
  | some e => exact ⟨e, rfl⟩

theorem State.Inv.start_zero (h : s.Inv dev) (hstart : (s.td u).t_start = 0) : s.given u = none := by
  cases hg : s.given u with
  | none => rfl
  | some e =>
    have hgood := h.good u e hg
    have hlow := hgood.placed.low
    rw [← hgood.start] at hlow
    change swapImageAlign ≤ (s.td u).t_start at hlow
    rw [hstart] at hlow
    exact absurd hlow (by decide)

theorem State.Inv.ordered (h : s.Inv dev) (u : Nat) : Ordered (s.writes u) := by
  cases hg : s.given u with
  | none =>
    rw [(h.bare u hg).2]
    intro pre w post hsplit
    exact absurd (congrArg List.length hsplit) (by simp)
  | some e => exact (h.good u e hg).ordered

theorem State.Inv.map_rest (h : s.Inv dev) (he : s.given u = some e) :
    ∃ free, SwapInv dev ⟨s.mp, e :: s.rest u⟩ free := by
  obtain ⟨free, hfree⟩ := h.map
  exact ⟨free, swapInv_perm hfree (State.live_perm (h.lt he) he)⟩

/-- The others see nothing of what happens in an extent that is not theirs. -/
theorem State.Inv.frame (h : s.Inv dev) (he : s.given u = some e) {r : Extent} (hr : r ∈ s.rest u) {m : Mem}
    (hkept : Kept dev r s.disk m) : Good dev e ⟨s.td u, m, s.writes u⟩ := by
  obtain ⟨free, hfree⟩ := h.map_rest he
  have hgood := h.good u e he
  exact hgood.frame fun y hlow hhigh => swapInv_frame hfree hr hgood.placed hkept hlow hhigh

/-- A write to one device. -/
theorem State.Inv.setTemp (h : s.Inv dev) (he : s.given u = some e) {io : List Io}
    (hw : Written dev e (s.temp u) x io) : (s.setTemp u x).Inv dev where
  map := h.map
  most := h.most
  units := h.units
  bare := fun v hv => by
    change s.given v = none at hv
    have hne : v ≠ u := by
      rintro rfl
      rw [he] at hv
      cases hv
    simp only [State.setTemp, Function.update_of_ne hne]
    exact h.bare v hv
  good := fun v r hr => by
    change s.given v = some r at hr
    by_cases heq : v = u
    · subst heq
      rw [he] at hr
      cases hr
      simp only [State.temp, State.setTemp, Function.update_self]
      exact hw.good
    · have hmem := State.mem_rest (h.lt he) (Ne.symm heq) he
      simp only [State.temp, State.setTemp, Function.update_of_ne heq]
      exact h.frame hr hmem hw.kept
  span := fun v r hr => by
    change s.given v = some r at hr
    by_cases heq : v = u
    · subst heq
      simp only [State.setTemp, Function.update_self]
      rw [hw.size]
      exact h.span v r hr
    · simp only [State.setTemp, Function.update_of_ne heq]
      exact h.span v r hr

/-! ## `TFALLOC` -/

/-- **What a device gives back is what it was given**, and the map takes it. -/
theorem State.Inv.giveBack (h : s.Inv dev) (hu : u < ntmp) :
    ∃ s', s.giveBack u = .ok (s.given u, none, s') ∧ s'.Inv dev ∧ s'.given u = none := by
  unfold State.giveBack
  dsimp only
  by_cases hstart : 0 < (s.td u).t_start
  · obtain ⟨e, he⟩ := h.start_pos (Nat.ne_of_gt hstart)
    have hoff : (s.td u).t_start = e.off := (h.good u e he).start
    have hsize := h.span u e he
    obtain ⟨free, hfree⟩ := h.map_rest he
    obtain ⟨mp', free', hcall, hinv⟩ := hfree.mfree (List.mem_cons_self ..)
    rw [if_pos hstart, hoff, ← hsize, hcall, he]
    refine ⟨_, rfl, ⟨⟨free', ?_⟩, h.most, ?_, ?_, ?_, ?_⟩, Function.update_self _ _ _⟩
    · rw [List.erase_cons_head] at hinv
      exact hinv
    · intro v hv
      have hne : v ≠ u := by lia
      simp only [Function.update_of_ne hne]
      exact h.units v hv
    · intro v hv
      by_cases heq : v = u
      · subst heq
        simp only [Function.update_self, and_self]
      · simp only [Function.update_of_ne heq] at hv ⊢
        exact h.bare v hv
    · intro v r hr
      by_cases heq : v = u
      · subst heq
        simp only [Function.update_self] at hr
        cases hr
      · simp only [State.temp, Function.update_of_ne heq] at hr ⊢
        exact h.good v r hr
    · intro v r hr
      by_cases heq : v = u
      · subst heq
        simp only [Function.update_self] at hr
        cases hr
      · simp only [Function.update_of_ne heq] at hr ⊢
        exact h.span v r hr
  · rw [if_neg hstart]
    have hzero : (s.td u).t_start = 0 := by lia
    have hnone := h.start_zero hzero
    rw [hnone]
    exact ⟨s, rfl, h, hnone⟩

theorem State.Inv.getNew (h : s.Inv dev) (hu : u < ntmp) (hnone : s.given u = none) (requested : Int) :
    ∃ offtval s', s.getNew u requested = .ok (offtval, s') ∧ s'.Inv dev := by
  obtain ⟨free, hfree⟩ := h.map
  have hroom : s.live.length < smapExtents := by
    have hlen := s.rest_length hu
    have hmost := h.most
    rw [State.live_of_none hnone]
    unfold heldMost smapExtents ntmp at *
    lia
  obtain ⟨span, next', a, mp', hcall, hcases⟩ := swapInv_take hfree hroom requested.toNat 0 0 s.swapnext fun _ => 0
  unfold State.getNew
  rw [hcall]
  simp only [Except.map]
  obtain ⟨hzero, hwrites⟩ := h.bare u hnone
  rcases hcases with ⟨rfl, rfl⟩ | ⟨hspan, hplaced, hspanpos, free', hinv⟩
  · -- There is no room: the device stays without an extent.
    simp only [if_true, hzero, Nat.lt_irrefl, if_false]
    refine ⟨_, _, rfl, ⟨⟨free, hfree⟩, h.most, h.units, ?_, ?_, ?_⟩⟩
    · intro v hv
      by_cases heq : v = u
      · subst heq
        simp only [Function.update_self]
        exact ⟨trivial, hwrites⟩
      · simp only [Function.update_of_ne heq]
        exact h.bare v hv
    · intro v r hr
      have hne : v ≠ u := by
        rintro rfl
        change s.given v = some r at hr
        rw [hnone] at hr
        cases hr
      simp only [State.temp, Function.update_of_ne hne]
      exact h.good v r hr
    · intro v r hr
      have hne : v ≠ u := by
        rintro rfl
        change s.given v = some r at hr
        rw [hnone] at hr
        cases hr
      simp only [Function.update_of_ne hne]
      exact h.span v r hr
  · have hsize := psize_lt dev
    have hhigh := hplaced.high
    have hlow := hplaced.low
    have hfits := hplaced.fits
    simp only [Nat.add_zero] at hfits hspan hlow hhigh
    have hwrap : wrap 16 (a 0) = a 0 := wrap_of_lt (by lia)
    have hwrap' : wrap 16 requested.toNat = requested.toNat := wrap_of_lt (by lia)
    have hstart : 0 < a 0 := by
      unfold swapImageAlign at hlow
      lia
    simp only [if_neg (Nat.ne_of_gt hspanpos), hwrap, hwrap', if_pos hstart]
    refine ⟨_, _, rfl, ⟨⟨free', ?_⟩, h.most, ?_, ?_, ?_, ?_⟩⟩
    · have hfill := filterMap_update List.nodup_range (List.mem_range.mpr hu) s.given (⟨a 0, span⟩ : Extent)
      have hperm := hfill.append_right s.held
      rw [State.live_of_none hnone] at hinv
      exact swapInv_perm hinv hperm.symm
    · intro v hv
      have hne : v ≠ u := by lia
      simp only [Function.update_of_ne hne]
      exact h.units v hv
    · intro v hv
      by_cases heq : v = u
      · subst heq
        simp only [Function.update_self] at hv
        cases hv
      · simp only [Function.update_of_ne heq] at hv ⊢
        exact h.bare v hv
    · intro v r hr
      by_cases heq : v = u
      · subst heq
        simp only [Function.update_self, Option.some.injEq] at hr
        subst hr
        simp only [State.temp, Function.update_self]
        refine ⟨rfl, ?_, nofun, fun _ => ⟨Nat.zero_le _, by rw [Nat.zero_mul]; rfl, fun _ => .inl ?_⟩, ?_⟩
        · simpa only [Nat.add_zero] using hplaced
        · exact sector_dvd_addr dev hplaced.start
        · intro pre w post hsplit
          exact absurd (congrArg List.length hsplit) (by simp)
      · simp only [State.temp, Function.update_of_ne heq] at hr ⊢
        exact h.good v r hr
    · intro v r hr
      by_cases heq : v = u
      · subst heq
        simp only [Function.update_self, Option.some.injEq] at hr ⊢
        subst hr
        exact hspan
      · simp only [Function.update_of_ne heq] at hr ⊢
        exact h.span v r hr

/-! ## Each call -/

/-- What is to be said of a call that reads, writes and completes nothing. -/
theorem proper_quiet {c : Call} {out : Out} (halive : out.panic = false) (hio : out.io = []) (hinv : s'.Inv dev)
    (hread : ∀ unit offset len, c ≠ .read unit offset len) (hwrite : ∀ unit offset bytes, c ≠ .write unit offset bytes)
    (hstrategy : ∀ unit b_blkno request, c ≠ .strategy unit b_blkno request)
    (hreturned : ∀ unit requested, c = .tfalloc unit requested → unit < ntmp →
      out.freed = s.given unit ∧ out.lost = none) : Proper s c out s' where
  alive := halive
  inside := fun a ha => by
    rw [hio] at ha
    cases ha
  reads := fun unit offset len h => absurd h (hread unit offset len)
  wrote := fun unit offset bytes h => absurd h (hwrite unit offset bytes)
  blockReads := fun unit b_blkno count h => absurd h (hstrategy unit b_blkno _)
  blockWrote := fun unit b_blkno bytes h => absurd h (hstrategy unit b_blkno _)
  returned := hreturned
  ordered := hinv.ordered
  completed := fun unit b_blkno request h => absurd h (hstrategy unit b_blkno request)

theorem State.Inv.proper_tfalloc (h : s.Inv dev) (unit : Nat) (requested : Int) :
    Proper s (.tfalloc unit requested) (s.tfalloc unit requested).1 (s.tfalloc unit requested).2 ∧
      (s.tfalloc unit requested).2.Inv dev := by
  unfold State.tfalloc
  by_cases hunit : ntmp ≤ unit
  · rw [if_pos hunit]
    refine ⟨proper_quiet rfl rfl h nofun nofun nofun ?_, h⟩
    rintro unit requested ⟨⟩ hlt
    lia
  · rw [if_neg hunit]
    have hu : unit < ntmp := by lia
    obtain ⟨s₁, hback, hinv₁, hnone⟩ := h.giveBack hu
    rw [hback]
    dsimp only
    by_cases hpos : 0 < requested
    · rw [if_pos hpos]
      obtain ⟨offtval, s₂, hnew, hinv₂⟩ := hinv₁.getNew hu hnone requested
      rw [hnew]
      refine ⟨proper_quiet rfl rfl hinv₂ nofun nofun nofun ?_, hinv₂⟩
      rintro unit requested ⟨⟩ -
      exact ⟨rfl, rfl⟩
    · rw [if_neg hpos]
      by_cases hzero : requested = 0
      · rw [if_pos hzero]
        refine ⟨proper_quiet rfl rfl hinv₁ nofun nofun nofun ?_, hinv₁⟩
        rintro unit requested ⟨⟩ -
        exact ⟨rfl, rfl⟩
      · rw [if_neg hzero]
        refine ⟨proper_quiet rfl rfl hinv₁ nofun nofun nofun ?_, hinv₁⟩
        rintro unit requested ⟨⟩ -
        exact ⟨rfl, rfl⟩

/-! ### The character interface -/

theorem boffOf_lt (offset : Int) : boffOf offset < devBsize := by
  unfold boffOf blockOf devBsize
  lia

theorem blockOf_boffOf {offset : Int} (hlong : Long offset) (hpos : 0 ≤ offset) :
    blockOf offset * devBsize + boffOf offset = offset.toNat := by
  unfold Long at hlong
  unfold boffOf blockOf devBsize
  lia

/-- Nothing was written to a device without an extent. -/
theorem State.Inv.value_none (h : s.Inv dev) (hstart : (s.td u).t_start = 0) (i : Nat) :
    value (s.writes u) i = none := by
  rw [(h.bare u (h.start_zero hstart)).2]
  rfl

theorem State.Inv.proper_swcread (h : s.Inv dev) {unit : Nat} {offset : Int} (hlong : Long offset) (len : Nat) :
    Proper s (.read unit offset len) (s.swcread dev unit offset len) s := by
  have hgoal : (s.swcread dev unit offset len).panic = false ∧
      (∀ a ∈ (s.swcread dev unit offset len).io, ∃ e ∈ s.given unit, InDevice e (s.td unit).t_size a) ∧
      (0 ≤ offset → Reads (s.writes unit) offset.toNat len (s.swcread dev unit offset len).data) := by
    unfold State.swcread
    by_cases hunit : ntmp ≤ unit
    · rw [if_pos hunit]
      refine ⟨rfl, nofun, fun _ i v _ hv => ?_⟩
      rw [(h.bare unit (h.units unit hunit)).2] at hv
      cases hv
    · rw [if_neg hunit]
      by_cases hstart : (s.td unit).t_start = 0
      · rw [if_pos hstart]
        refine ⟨rfl, nofun, fun _ i v _ hv => ?_⟩
        rw [h.value_none hstart] at hv
        cases hv
      · rw [if_neg hstart]
        obtain ⟨e, he⟩ := h.start_pos hstart
        have hgood := h.good unit e he
        by_cases hend : ((s.td unit).t_size * devBsize : Nat) ≤ offset
        · rw [if_pos hend]
          refine ⟨rfl, nofun, fun _ i v _ hv => ?_⟩
          have hlt := (hgood.values _ v hv).1
          change _ < (s.td unit).t_size * devBsize at hlt
          lia
        · rw [if_neg hend]
          obtain ⟨data, io, hloop, hdata, hio⟩ := hgood.readLoop (s.td unit).t_size (blockOf offset)
            (boffOf offset) len (Nat.le_add_left _ _) (boffOf_lt offset).le
          rw [hloop]
          refine ⟨rfl, fun a ha => ⟨e, he, hio a ha⟩, fun hpos i v hi hv => ?_⟩
          rw [← blockOf_boffOf hlong hpos] at hv
          obtain ⟨hlt, hdisk⟩ := hgood.values _ v hv
          change data[i]? = some v
          rw [hdata i hi hlt, hdisk]
  refine ⟨hgoal.1, hgoal.2.1, ?_, nofun, nofun, nofun, nofun, h.ordered, nofun⟩
  rintro unit offset len ⟨⟩ hpos
  exact hgoal.2.2 hpos

theorem State.Inv.proper_swcwrite (h : s.Inv dev) (unit : Nat) {offset : Int} (hlong : Long offset) (bytes : List UInt8) :
    Proper s (.write unit offset bytes) (s.swcwrite dev unit offset bytes).1 (s.swcwrite dev unit offset bytes).2 ∧
      (s.swcwrite dev unit offset bytes).2.Inv dev := by
  -- A write that fails does nothing.
  have hfails : ∀ error, Proper s (.write unit offset bytes) (.fails error) s := by
    intro error
    refine ⟨rfl, nofun, nofun, ?_, nofun, nofun, nofun, h.ordered, nofun⟩
    rintro _ _ _ ⟨⟩ - herror
    cases herror
  unfold State.swcwrite
  by_cases hunit : ntmp ≤ unit
  · rw [if_pos hunit]
    exact ⟨hfails _, h⟩
  · rw [if_neg hunit]
    by_cases hstart : (s.td unit).t_start = 0
    · rw [if_pos hstart]
      exact ⟨hfails _, h⟩
    · rw [if_neg hstart]
      by_cases hend : ((s.td unit).t_size * devBsize : Nat) ≤ offset
      · rw [if_pos hend]
        exact ⟨hfails _, h⟩
      · rw [if_neg hend]
        obtain ⟨e, he⟩ := h.start_pos hstart
        obtain ⟨x', io, hloop, hw, -, hthere⟩ := (h.good unit e he).writeLoop (s.td unit).t_size
          (blockOf offset) (boffOf offset) bytes (Nat.le_add_left _ _) (boffOf_lt offset)
        rw [hloop]
        have hinv := h.setTemp he hw
        refine ⟨⟨rfl, fun a ha => ⟨e, he, hw.inside a ha⟩, nofun, ?_, nofun, nofun, nofun, hinv.ordered, nofun⟩, hinv⟩
        rintro _ _ _ ⟨⟩ hpos - i b hi hlt
        have hvalue := hthere i b hi (by rw [blockOf_boffOf hlong hpos]; exact hlt)
        rw [blockOf_boffOf hlong hpos] at hvalue
        simp only [State.setTemp, Function.update_self]
        exact hvalue

end DiscoBSD.Tempdev
