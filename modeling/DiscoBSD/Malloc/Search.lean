import DiscoBSD.Malloc.Arena

/-!
# The search

**The search merges free blocks and leaves every busy one as it is**; it ends at a block that is large enough or, after
it has gone over the arena, at the first header.
-/

set_option autoImplicit false

namespace DiscoBSD.Malloc

open Function (update)
open Lib (Path On)

/-- Free blocks have been merged. A header that no free block was before is still one, and what was large enough for
a block is so still. -/
structure Merged (mem : Mem) (t : ℕ) (mem' : Mem) : Prop where
  arena : Arena mem' t
  kept : KeptBut 0 mem t mem' t
  stands : ∀ y, Header mem t y → ¬Exposed mem t y → Header mem' t y ∧ ¬Exposed mem' t y
  room : ∀ nw b d, 0 < nw → Room nw mem t b d → ∃ b' d', Room nw mem' t b' d'

variable {mem mem' mem'' : Mem} {t x y p q nw n temp : ℕ}

theorem Merged.refl (h : Arena mem t) : Merged mem t mem :=
  ⟨h, KeptBut.refl 0 mem t, fun _ hy hexp => ⟨hy, hexp⟩, fun _ b d _ hroom => ⟨b, d, hroom⟩⟩

theorem Merged.trans (h₁ : Merged mem t mem') (h₂ : Merged mem' t mem'') : Merged mem t mem'' := by
  refine ⟨h₂.arena, h₁.kept.trans h₂.kept, fun y hy hexp => ?_, fun nw b d hnw hroom => ?_⟩
  · obtain ⟨hy', hexp'⟩ := h₁.stands y hy hexp
    exact h₂.stands y hy' hexp'
  · obtain ⟨b', d', hroom'⟩ := h₁.room nw b d hnw hroom
    exact h₂.room nw b' d' hnw hroom'

/-- A free block becomes part of the free block before it. -/
theorem Arena.merge (ha : Arena mem t) (hp : Header mem t p) (hlt : p < t) (hfree : (mem p).busy = false)
    (hqfree : (mem (mem.next p)).busy = false) :
    Merged mem t (update mem p (mem (mem.next p))) ∧ Header (update mem p (mem (mem.next p))) t p ∧
      ∀ x, Header (update mem p (mem (mem.next p))) t x → Header mem t x := by
  obtain ⟨hpq, hq, hqle⟩ := Header.follow hp hlt
  have hqlt : mem.next p < t := by
    rcases Nat.lt_or_eq_of_le hqle with hq | heq
    · exact hq
    · rw [heq, ha.top] at hqfree
      cases hqfree
  generalize hqdef : mem.next p = q at hpq hq hqlt hqfree ⊢
  obtain ⟨hqd, hd, -⟩ := Header.follow hq hqlt
  have hat : update mem p (mem q) p = mem q := Function.update_self ..
  have hoff : ∀ z, z ≠ p → update mem p (mem q) z = mem z := fun z hz => Function.update_of_ne hz ..
  obtain ⟨mem', hmem⟩ : ∃ m : Mem, m = update mem p (mem q) := ⟨_, rfl⟩
  rw [← hmem] at hat hoff ⊢
  have hatn : mem'.next p = mem.next q := congrArg Store.ptr hat
  have hsame : ∀ z, z < p ∨ mem.next q ≤ z → mem' z = mem z := fun z hz => hoff z (by omega)
  have hnew : Path mem'.next p (mem.next q) := .step hatn (by omega)
  have hsplice := ha.resplice hp hd hsame hnew
  -- A header other than the one at `q` is one still.
  have hstill : ∀ z, Header mem t z → z ≠ q → z ≤ p ∨ mem.next q ≤ z := by
    intro z hz hne
    rcases Nat.lt_trichotomy z q with hbefore | heq | hafter
    · by_cases hzp : z ≤ p
      · exact .inl hzp
      · have := (On.apart hp hz (by omega)).2
        rw [hqdef] at this
        omega
    · exact absurd heq hne
    · exact .inr (On.apart hq hz hafter).2
  have hp' := hsplice.elsewhere p hp (.inl (le_refl p))
  have hback : ∀ x, Header mem' t x → Header mem t x := by
    intro x hx
    by_cases hxp : x ≤ p
    · exact hsplice.back x hx (.inl hxp)
    · have := (On.apart hp' hx (by omega)).2
      exact hsplice.back x hx (.inr (hatn ▸ this))
  refine ⟨⟨hsplice.arena, fun x hx hxt hbusy _ => ?_, fun y hy hexp => ?_,
    fun nw b d hnw hroom => ?_⟩, hp', hback⟩
  · have hxp : x ≠ p := fun h => by rw [h, hfree] at hbusy; cases hbusy
    have hxq : x ≠ q := fun h => by rw [h, hqfree] at hbusy; cases hbusy
    exact hsplice.stays hp hsame hx hxt (by have := hstill x hx hxq; omega)
  · have hyq : y ≠ q := fun h => hexp ⟨h ▸ hqfree, p, hp, hlt, hfree, hqdef.trans h.symm⟩
    refine ⟨hsplice.elsewhere y hy (hstill y hy hyq), ?_⟩
    rintro ⟨hyfree, w, hw, hwt, hwfree, hwy⟩
    have hyfree' : (mem y).busy = false := by
      by_cases hyp : y = p
      · rw [hyp, hfree]
      · rw [← hoff y hyp, hyfree]
    by_cases hwp : w = p
    · exact hexp ⟨hyfree', q, hq, hqlt, hqfree, by rw [← hatn, ← hwp, hwy]⟩
    · have hsamew := hoff w hwp
      exact hexp ⟨hyfree', w, hback w hw, hwt, hsamew ▸ hwfree, by rw [← hwy]; exact congrArg Store.ptr hsamew.symm⟩
  · have hbusyeq : ∀ x, Header mem' t x → (mem' x).busy = (mem x).busy := by
      intro x _
      by_cases hxp : x = p
      · rw [hxp, hat, hfree, hqfree]
      · rw [hoff x hxp]
    have hlarge := hroom.large
    -- The block at `q` may be the first one of the room, or the one after the room.
    have hfirst : ∃ b', Header mem' t b' ∧ b' ≤ b ∧ ∀ x, Header mem' t x → b' ≤ x → x < b → (mem x).busy = false := by
      by_cases hbq : b = q
      · refine ⟨p, hp', by omega, fun x hx hle hlt => ?_⟩
        have hxp : x = p := by
          by_contra hne
          have := (On.apart hp' hx (by omega)).2
          rw [hatn] at this
          omega
        rw [hxp, hfree]
      · exact ⟨b, hsplice.elsewhere b hroom.first (hstill b hroom.first hbq), le_refl b, fun x _ _ _ => by omega⟩
    have hlast : ∃ d', Header mem' t d' ∧ d ≤ d' ∧ ∀ x, Header mem' t x → d ≤ x → x < d' → (mem x).busy = false := by
      by_cases hdq : d = q
      · refine ⟨mem.next q, hsplice.elsewhere _ hd (.inr (le_refl _)), by omega, fun x hx hle hlt => ?_⟩
        have := (On.apart hp' hx (by omega)).2
        rw [hatn] at this
        omega
      · exact ⟨d, hsplice.elsewhere d hroom.last (hstill d hroom.last hdq), le_refl d, fun x _ _ _ => by omega⟩
    obtain ⟨b', hb', hle, hb'free⟩ := hfirst
    obtain ⟨d', hd', hge, hd'free⟩ := hlast
    refine ⟨b', d', hb', hd', by omega, fun x hx hbx hxd => ?_⟩
    rw [hbusyeq x hx]
    rcases Nat.lt_or_ge x b with hlt | hge'
    · exact hb'free x hx hbx hlt
    · rcases Nat.lt_or_ge x d with hlt | hge''
      · exact hroom.free x (hback x hx) hge' hlt
      · exact hd'free x hx hge'' hxd

/-- The inner loop ends, with everything free after `p` merged into the block there. -/
theorem coalesce_spec (ha : Arena mem t) (hp : Header mem t p) (hlt : p < t) (hfree : (mem p).busy = false)
    (hfuel : t < n + mem.next p) : ∃ mem' q, coalesce n mem p = some (mem', q) ∧ Merged mem t mem' ∧
      Header mem' t p ∧ mem' p = ⟨q, false⟩ ∧ (∀ z, z ≠ p → mem' z = mem z) ∧ Header mem t q ∧ p < q ∧
      (mem q).busy = true := by
  induction n generalizing mem with
  | zero =>
    have := (Header.follow hp hlt).2.2
    omega
  | succ n ih =>
    obtain ⟨hpq, hq, hqle⟩ := Header.follow hp hlt
    rw [coalesce]
    by_cases hbusy : (mem (mem.next p)).busy = true
    · refine ⟨mem, mem.next p, if_pos hbusy, .refl ha, hp, ?_, fun _ _ => rfl, hq, hpq, hbusy⟩
      rw [← hfree]
      rfl
    · have hqfree : (mem (mem.next p)).busy = false := Bool.eq_false_iff.mpr hbusy
      obtain ⟨hmerged, hp', hback⟩ := ha.merge hp hlt hfree hqfree
      have hqt : mem.next p < t := by
        rcases Nat.lt_or_eq_of_le hqle with hq | heq
        · exact hq
        · rw [heq, ha.top] at hqfree
          cases hqfree
      have hat : update mem p (mem (mem.next p)) p = mem (mem.next p) := Function.update_self ..
      have hfree' : (update mem p (mem (mem.next p)) p).busy = false := by rw [hat, hqfree]
      have hnext : Mem.next (update mem p (mem (mem.next p))) p = mem.next (mem.next p) := congrArg Store.ptr hat
      have hlater := (Header.follow hq hqt).1
      obtain ⟨mem', q, hrun, hmerged', hblock, hhead, hoff, hq', hpq', hbusy'⟩ :=
        ih hmerged.arena hp' hfree' (by rw [hnext]; omega)
      have hqp : q ≠ p := by omega
      have hsame := Function.update_of_ne hqp (mem (mem.next p)) mem
      refine ⟨mem', q, (if_neg hbusy).trans hrun, hmerged.trans hmerged', hblock, hhead, fun z hz => ?_, ?_, hpq', ?_⟩
      · rw [hoff z hz, Function.update_of_ne hz]
      · exact hback q hq'
      · rw [← hsame, hbusy']

/-- What one turn of the search makes of the header that it is at. -/
theorem turn_spec (ha : Arena mem t) (hp : Header mem t p) (hfuel : t ≤ n) :
    ∃ mem' q, (if (mem p).busy then some (mem, p) else coalesce n mem p) = some (mem', q) ∧ Merged mem t mem' ∧
      Header mem' t p ∧ ((mem p).busy = false → p < t ∧ mem' p = ⟨q, false⟩) := by
  by_cases hbusy : (mem p).busy = true
  · exact ⟨mem, p, if_pos hbusy, .refl ha, hp, fun h => absurd hbusy (by rw [h]; decide)⟩
  · have hfree : (mem p).busy = false := Bool.eq_false_iff.mpr hbusy
    have hlt : p < t := by
      rcases Nat.lt_or_eq_of_le hp.le with hlt | heq
      · exact hlt
      · rw [heq, ha.top] at hfree
        cases hfree
    have hpos : 0 < mem.next p := (Header.follow hp hlt).2.1.pos
    obtain ⟨mem', q, hrun, hmerged, hblock, hhead, -⟩ := coalesce_spec ha hp hlt hfree (n := n) (by omega)
    exact ⟨mem', q, (if_neg hbusy).trans hrun, hmerged, hblock, fun _ => ⟨hlt, hhead⟩⟩

/-- What a search may end with. -/
def Ended (nw t : ℕ) (mem : Mem) : Option Search → Prop
  | some (.found mem' p q) => Merged mem t mem' ∧ Header mem' t p ∧ p < t ∧ mem' p = ⟨q, false⟩ ∧ nw ≤ q - p
  | some (.round mem' p) => Merged mem t mem' ∧ p = allocs
  | some (.null _) => False
  | none => False

theorem Ended.after (h : Merged mem t mem') {r : Option Search} (hr : Ended nw t mem' r) : Ended nw t mem r := by
  match r, hr with
  | some (.found _ _ _), ⟨hmerged, hrest⟩ => exact ⟨h.trans hmerged, hrest⟩
  | some (.round _ _), ⟨hmerged, hrest⟩ => exact ⟨h.trans hmerged, hrest⟩

/-- **How a search ends.** It finds a free block that is large enough, or it has gone over the arena. -/
theorem search_spec (nw temp : ℕ) (ha : Arena mem t) (hp : Header mem t p)
    (hfuel : (t - p) + (if temp = 0 then t + 1 else 0) + 1 + t ≤ n) : Ended nw t mem (search nw t n mem p temp) := by
  induction n generalizing mem p temp with
  | zero => omega
  | succ n ih =>
    obtain ⟨mem₁, q, hturn, hmerged, hp₁, hfound⟩ := turn_spec ha hp (n := n) (by omega)
    rw [search, hturn]
    dsimp only
    by_cases hlarge : (mem p).busy = false ∧ q - p ≥ nw
    · rw [if_pos hlarge]
      obtain ⟨hlt, hblock⟩ := hfound hlarge.1
      exact ⟨hmerged, hp₁, hlt, hblock, hlarge.2⟩
    · rw [if_neg hlarge]
      rcases Nat.lt_or_eq_of_le hp.le with hlt | heq
      · obtain ⟨hnext, hhead, hle⟩ := Header.follow hp₁ hlt
        have hgt : (mem₁ p).ptr > p := hnext
        rw [if_pos hgt]
        refine .after hmerged (ih _ hmerged.arena hhead ?_)
        have : mem₁.next p > p := hnext
        generalize (if temp = 0 then t + 1 else 0) = extra at hfuel ⊢
        omega
      · -- The search is at the end, and goes on at the first header.
        have htop : (mem₁ p).ptr = allocs := by rw [heq, hmerged.arena.top]
        have hback : ¬allocs > p := by
          have := ha.above
          omega
        have hend : ¬(p ≠ t ∨ allocs ≠ allocs) := by
          rw [heq]
          exact fun h => h.elim (fun h => h rfl) fun h => h rfl
        rw [htop, if_neg hback, if_neg hend]
        by_cases hzero : temp = 0
        · rw [if_neg (by omega)]
          refine .after hmerged (ih _ hmerged.arena (.first hmerged.arena.chain) ?_)
          rw [if_pos hzero] at hfuel
          rw [if_neg (by omega)]
          omega
        · rw [if_pos (by omega)]
          exact ⟨hmerged, rfl⟩

/-- A busy header after the first of the free blocks is after all of them. -/
theorem Room.beyond {b d : ℕ} (h : Room nw mem t b d) (hq : Header mem t q) (hle : b ≤ q)
    (hbusy : (mem q).busy = true) : d ≤ q := by
  by_contra hlt
  rw [h.free q hq hle (by omega)] at hbusy
  cases hbusy

/-- A search that has the room before it finds a block. -/
theorem search_finds {b d p' : ℕ} (ha : Arena mem t) (hp : Header mem t p) (hle : p ≤ b) (hroom : Room nw mem t b d)
    (hnw : 0 < nw) (hfuel : (t - p) + 1 + t ≤ n) : search nw t n mem p temp ≠ some (.round mem' p') := by
  induction n generalizing mem p temp with
  | zero => omega
  | succ n ih =>
    have hlarge := hroom.large
    have hdt := hroom.last.le
    have hpt : p < t := by omega
    obtain ⟨hnext, hhead, -⟩ := Header.follow hp hpt
    rw [search]
    by_cases hbusy : (mem p).busy = true
    · have hne : p ≠ b := by
        intro heq
        have := hroom.beyond hp (by omega) hbusy
        omega
      have hle' := (On.apart hp hroom.first (lt_of_le_of_ne hle hne)).2
      have hgt : (mem p).ptr > p := hnext
      rw [if_pos hbusy]
      dsimp only
      rw [if_neg (by simp [hbusy]), if_pos hgt]
      exact ih ha hhead hle' hroom (by omega)
    · have hfree : (mem p).busy = false := Bool.eq_false_iff.mpr hbusy
      obtain ⟨mem₁, q, hrun, hmerged, hp₁, hat, hoff, hq, hpq, hqbusy⟩ :=
        coalesce_spec ha hp hpt hfree (n := n) (by omega)
      rw [if_neg hbusy, hrun]
      dsimp only
      by_cases henough : (mem p).busy = false ∧ q - p ≥ nw
      · rw [if_pos henough]
        simp
      · have hqb : q < b := by
          by_contra hge
          have := hroom.beyond hq (by omega) hqbusy
          exact henough ⟨hfree, by omega⟩
        have hptr : (mem₁ p).ptr = q := congrArg Store.ptr hat
        rw [if_neg henough, hptr, if_pos hpq]
        have hsplice := ha.resplice hp hq (fun z hz => hoff z (by omega)) (.step hptr hpq)
        have hroom' : Room nw mem₁ t b d := by
          refine ⟨hsplice.elsewhere b hroom.first (.inr (by omega)), hsplice.elsewhere d hroom.last (.inr (by omega)),
            hlarge, fun x hx hbx hxd => ?_⟩
          rw [hoff x (by omega)]
          exact hroom.free x (hsplice.back x hx (.inr (by omega))) hbx hxd
        exact ih hmerged.arena (hsplice.elsewhere q hq (.inr (le_refl q))) (by omega) hroom' (by omega)

/-- Wherever it starts, a search finds a block if there is room in the arena. -/
theorem search_room {b d p' : ℕ} (ha : Arena mem t) (hp : Header mem t p) (hroom : Room nw mem t b d) (hnw : 0 < nw)
    (hfuel : (t - p) + t + 2 + t ≤ n) : search nw t n mem p 0 ≠ some (.round mem' p') := by
  induction n generalizing mem p b d with
  | zero => omega
  | succ n ih =>
    obtain ⟨mem₁, q, hturn, hmerged, hp₁, -⟩ := turn_spec ha hp (n := n) (by omega)
    obtain ⟨b', d', hroom'⟩ := hmerged.room nw b d hnw hroom
    rw [search, hturn]
    dsimp only
    by_cases hlarge : (mem p).busy = false ∧ q - p ≥ nw
    · rw [if_pos hlarge]
      simp
    · rw [if_neg hlarge]
      rcases Nat.lt_or_eq_of_le hp.le with hlt | heq
      · obtain ⟨hnext, hhead, hle⟩ := Header.follow hp₁ hlt
        have hgt : (mem₁ p).ptr > p := hnext
        rw [if_pos hgt]
        exact ih hmerged.arena hhead hroom' (by omega)
      · have htop : (mem₁ p).ptr = allocs := by rw [heq, hmerged.arena.top]
        have hback : ¬allocs > p := by
          have := ha.above
          omega
        have hend : ¬(p ≠ t ∨ allocs ≠ allocs) := by
          rw [heq]
          exact fun h => h.elim (fun h => h rfl) fun h => h rfl
        rw [htop, if_neg hback, if_neg hend, if_neg (by omega)]
        exact search_finds hmerged.arena (.first hmerged.arena.chain) hroom'.first.ge hroom' hnw (by omega)

end DiscoBSD.Malloc
