import Mathlib
import DiscoBSD.Malloc.Search

/-!
# The arena grows

What `sbrk` grants is put behind the arena. **A grant right behind it always serves the request, and one after a gap
serves it unless it is used up to the word.**
-/

set_option autoImplicit false

namespace DiscoBSD.Malloc

open Function (update)
open Lib (Path On)

section

variable {mem mem' : Mem} {t t' p q y z nw temp : ℕ}

theorem le_extension (nw q : ℕ) : nw ≤ extension nw q := by
  unfold extension word block
  lia

theorem extend_off (hz : z < t) (hq : t < q) (htemp : 2 ≤ temp) : extend mem t q temp z = mem z := by
  rw [extend, Function.update_of_ne (by lia), Function.update_of_ne (by lia), Function.update_of_ne (by lia)]

theorem extend_end (hq : t < q) (htemp : 2 ≤ temp) : extend mem t q temp t = ⟨q, q ≠ t + 1⟩ := by
  rw [extend, Function.update_of_ne (by lia), Function.update_of_ne (by lia), Function.update_self]

theorem extend_grant (htemp : 2 ≤ temp) : extend mem t q temp q = ⟨q + temp - 1, false⟩ := by
  rw [extend, Function.update_of_ne (by lia), Function.update_self]

theorem extend_top : extend mem t q temp (q + temp - 1) = ⟨allocs, true⟩ := Function.update_self ..

/-- What is behind the arena is part of it now, and all that was part of it still is. -/
structure Extended (mem : Mem) (t : ℕ) (mem' : Mem) (t' : ℕ) : Prop where
  arena : Arena mem' t'
  kept : KeptBut 0 mem t mem' t'
  header : ∀ x, Header mem t x → Header mem' t' x

theorem extend_arena (temp : ℕ) (ha : Arena mem t) (hq : t < q) (htemp : 2 ≤ temp) :
    Extended mem t (extend mem t q temp) (q + temp - 1) ∧ Header (extend mem t q temp) (q + temp - 1) q := by
  have hoff : ∀ z, z < t → extend mem t q temp z = mem z := fun z hz => extend_off hz hq htemp
  have hat : Mem.next (extend mem t q temp) t = q := congrArg Store.ptr (extend_end hq htemp)
  have hatq : Mem.next (extend mem t q temp) q = q + temp - 1 := congrArg Store.ptr (extend_grant htemp)
  have h₁ : Path (Mem.next (extend mem t q temp)) t q := .step hat hq
  have h₂ : Path (Mem.next (extend mem t q temp)) q (q + temp - 1) := .step hatq (by lia)
  have hheader : ∀ x, Header mem t x → Header (extend mem t q temp) (q + temp - 1) x := by
    intro x hx
    have hsame : ∀ z, z < t → Mem.next (extend mem t q temp) z = mem.next z := fun z hz => congrArg Store.ptr (hoff z hz)
    have hbefore := hx.before.congr fun z _ hz => hsame z (lt_of_lt_of_le hz hx.le)
    have hafter := hx.after.congr fun z _ hz => hsame z hz
    exact ⟨hbefore, hafter.trans (h₁.trans h₂)⟩
  have hfirst := hheader allocs (.first ha.chain)
  have habove := ha.above
  refine ⟨⟨⟨hfirst.after, by lia, extend_top⟩, fun x hx hlt _ _ => ?_, hheader⟩,
    (hheader t (.final ha.chain)).before.trans h₁, h₂⟩
  have hle := (Header.follow hx hlt).2.2
  exact ⟨hheader x hx, by lia, fun i _ hi => hoff i (by lia)⟩

/-- A grant right behind the arena makes one block with its end. -/
theorem extend_room (ha : Arena mem t) (hnw : 2 ≤ nw) (hle : nw ≤ temp) :
    Room nw (extend mem t (t + 1) temp) (t + 1 + temp - 1) t (t + 1 + temp - 1) := by
  obtain ⟨hext, hhead⟩ := extend_arena temp ha (Nat.lt_succ_self t) (by lia)
  have ht := hext.header t (.final ha.chain)
  refine ⟨ht, .final hext.arena.chain, by lia, fun x hx hbx hlt => ?_⟩
  have hend : extend mem t (t + 1) temp t = ⟨t + 1, false⟩ := by
    rw [extend_end (Nat.lt_succ_self t) (by lia)]
    simp
  rcases Nat.lt_trichotomy x (t + 1) with hbefore | heq | hafter
  · rw [show x = t by lia, hend]
  · rw [heq, extend_grant (by lia)]
  · have := (On.apart hhead hx hafter).2
    rw [Mem.next, extend_grant (by lia)] at this
    dsimp only at this
    lia

/-- One after a gap is a block of its own. -/
theorem extend_room_gap (ha : Arena mem t) (hq : t < q) (hnw : 2 ≤ nw) (hlt : nw < temp) :
    Room nw (extend mem t q temp) (q + temp - 1) q (q + temp - 1) := by
  obtain ⟨hext, hhead⟩ := extend_arena temp ha hq (by lia)
  refine ⟨hhead, .final hext.arena.chain, by lia, fun x hx hbx hxt => ?_⟩
  rcases Nat.lt_or_eq_of_le hbx with hafter | heq
  · have := (On.apart hhead hx hafter).2
    rw [Mem.next, extend_grant (by lia)] at this
    dsimp only at this
    lia
  · rw [← heq, extend_grant (by lia)]

/-- After a gap, a header is as well off as before. -/
theorem extend_stands (ha : Arena mem t) (hq : t < q) (hgap : q ≠ t + 1) (htemp : 2 ≤ temp) (hy : Header mem t y)
    (hexp : ¬Exposed mem t y) : ¬Exposed (extend mem t q temp) (q + temp - 1) y := by
  rintro ⟨hfree, w, hw, hwt, hwfree, hwy⟩
  have hyt : y < t := by
    refine lt_of_le_of_ne hy.le fun heq => ?_
    rw [heq, extend_end hq htemp] at hfree
    exact absurd hfree (by simpa using hgap)
  have hwlt := (Header.follow hw hwt).1
  rw [hwy] at hwlt
  have hwsame : extend mem t q temp w = mem w := extend_off (by lia) hq htemp
  have hw' : Header mem t w := by
    have hsame : ∀ z, z < t → mem.next z = Mem.next (extend mem t q temp) z := fun z hz =>
      congrArg Store.ptr (extend_off hz hq htemp).symm
    have hbefore := hw.before.congr fun z _ hz => hsame z (by lia)
    exact ⟨hbefore, hbefore.total ha.chain (by lia)⟩
  rw [extend_off hyt hq htemp] at hfree
  rw [Mem.next, hwsame] at hwy
  exact hexp ⟨hfree, w, hw', by lia, hwsame ▸ hwfree, hwy⟩

end

/-! ## The search and the grants together -/

/-- Where the grants of `sbrk` are enough. -/
def granted (nw : ℕ) : ℕ → List ℕ → Bool
  | _, [] => false
  | t, gap :: gaps =>
    let q := t + 1 + gap
    let temp := extension nw q
    word * q + temp * word < 2 ^ 32 && (gap = 0 || nw < temp || granted nw (q + temp - 1) gaps)

/-- A block is found. -/
structure Got (nw : ℕ) (mem : Mem) (t : ℕ) (mem' : Mem) (t' p q : ℕ) : Prop where
  arena : Arena mem' t'
  kept : KeptBut 0 mem t mem' t'
  header : Header mem' t' p
  before : p < t'
  block : mem' p = ⟨q, false⟩
  large : nw ≤ q - p

/-- There is none, and `sbrk` refuses. -/
structure Refused (nw : ℕ) (mem : Mem) (t : ℕ) (gaps : List ℕ) (mem' : Mem) (t' : ℕ) : Prop where
  arena : Arena mem' t'
  kept : KeptBut 0 mem t mem' t'
  stands : ∀ y, Header mem t y → ¬Exposed mem t y → Header mem' t' y
  full : ∀ b d, ¬Room nw mem t b d
  grants : granted nw t gaps = false

def Served (nw : ℕ) (mem : Mem) (t : ℕ) (gaps : List ℕ) : Option (Mem × ℕ × Option (ℕ × ℕ)) → Prop
  | some (mem', t', some (p, q)) => Got nw mem t mem' t' p q
  | some (mem', t', none) => Refused nw mem t gaps mem' t'
  | none => False

theorem Got.after {nw : ℕ} {mem mem₁ mem' : Mem} {t t₁ t' p q : ℕ} (hkept : KeptBut 0 mem t mem₁ t₁)
    (h : Got nw mem₁ t₁ mem' t' p q) : Got nw mem t mem' t' p q :=
  ⟨h.arena, hkept.trans h.kept, h.header, h.before, h.block, h.large⟩

/-- One search, with turns enough. -/
theorem searched {nw : ℕ} (hnw : 2 ≤ nw) {mem : Mem} {t p : ℕ} (ha : Arena mem t) (hp : Header mem t p) :
    (∃ mem' p' q, search nw t (turns t) mem p 0 = some (.found mem' p' q) ∧ Got nw mem t mem' t p' q) ∨
    ∃ mem', search nw t (turns t) mem p 0 = some (.round mem' allocs) ∧ Merged mem t mem' ∧
      ∀ b d, ¬Room nw mem t b d := by
  have hle := hp.le
  have hspec := search_spec (n := turns t) nw 0 ha hp (by unfold turns; rw [if_pos rfl]; lia)
  match hs : search nw t (turns t) mem p 0, hspec with
  | some (.found mem' p' q), ⟨hmerged, hhead, hlt, hblock, hlarge⟩ =>
    exact .inl ⟨mem', p', q, rfl, hmerged.arena, hmerged.kept, hhead, hlt, hblock, hlarge⟩
  | some (.round mem' p'), ⟨hmerged, hp'⟩ =>
    subst hp'
    exact .inr ⟨mem', rfl, hmerged, fun b d hroom =>
      search_room ha hp hroom (by lia) (by unfold turns; lia) hs⟩

/-- **What the loop of `malloc` ends with.** It gets no block only where there is no room and the grants are too small. -/
theorem mallocLoop_spec {nw : ℕ} (hnw : 2 ≤ nw) (gaps : List ℕ) {mem : Mem} {t p : ℕ} (ha : Arena mem t)
    (hp : Header mem t p) : Served nw mem t gaps (mallocLoop nw gaps mem t p) := by
  induction gaps generalizing mem t p with
  | nil =>
    rw [mallocLoop]
    rcases searched hnw ha hp with ⟨mem', p', q, hs, hgot⟩ | ⟨mem', hs, hmerged, hfull⟩
    · rw [hs]
      exact hgot
    · rw [hs]
      exact ⟨hmerged.arena, hmerged.kept, fun y hy hexp => (hmerged.stands y hy hexp).1, hfull, rfl⟩
  | cons gap gaps ih =>
    rw [mallocLoop]
    rcases searched hnw ha hp with ⟨mem', p', q, hs, hgot⟩ | ⟨mem₁, hs, hmerged, hfull⟩
    · rw [hs]
      exact hgot
    · rw [hs]
      dsimp only
      have hgranted : granted nw t (gap :: gaps) = (decide (word * (t + 1 + gap) + extension nw (t + 1 + gap) * word < 2 ^ 32) &&
        (gap = 0 || nw < extension nw (t + 1 + gap) ||
          granted nw (t + 1 + gap + extension nw (t + 1 + gap) - 1) gaps)) := rfl
      obtain ⟨q, hq⟩ : ∃ q, q = t + 1 + gap := ⟨_, rfl⟩
      rw [← hq] at hgranted ⊢
      have hle := le_extension nw q
      generalize extension nw q = temp at hgranted hle ⊢
      have hqt : t < q := by lia
      by_cases hwrap : word * q + temp * word ≥ 2 ^ 32
      · rw [if_pos hwrap]
        refine ⟨hmerged.arena, hmerged.kept, fun y hy hexp => (hmerged.stands y hy hexp).1, hfull, ?_⟩
        rw [hgranted, decide_eq_false (by lia), Bool.false_and]
      · rw [if_neg hwrap]
        obtain ⟨hext, hhead⟩ := extend_arena temp hmerged.arena hqt (by lia)
        have hkept : KeptBut 0 mem t _ _ := hmerged.kept.trans hext.kept
        have hserved := ih hext.arena (hext.header allocs (.first hmerged.arena.chain))
        match hr : mallocLoop nw gaps (extend mem₁ t q temp) (q + temp - 1) allocs, hserved with
        | some (mem', t', some (p', q')), hgot => exact Got.after hkept hgot
        | some (mem', t', none), hrefused =>
          -- With a grant right behind the arena, or a larger one, there would have been room.
          have hgap : q ≠ t + 1 := fun h => by
            subst h
            exact hrefused.full _ _ (extend_room hmerged.arena hnw hle)
          have hsmall : ¬nw < temp := fun h => hrefused.full _ _ (extend_room_gap hmerged.arena hqt hnw h)
          refine ⟨hrefused.arena, hkept.trans hrefused.kept, fun y hy hexp => ?_, hfull, ?_⟩
          · obtain ⟨hy₁, hexp₁⟩ := hmerged.stands y hy hexp
            exact hrefused.stands y (hext.header y hy₁)
              (extend_stands hmerged.arena hqt hgap (by lia) hy₁ hexp₁)
          · rw [hgranted, hrefused.grants, decide_eq_false (by lia : ¬gap = 0), decide_eq_false hsmall]
            simp

end DiscoBSD.Malloc

/-!
# What the calls do

**A call makes blocks anew between two headers, or writes inside a block, or marks one free**; each busy block that it
is not about stays as it is.
-/

namespace DiscoBSD.Malloc

open Function (update)
open Lib (Path On)

section

variable {mem mem' : Mem} {t p q m x y z n : ℕ}

/-- The first words from `p` on are a busy block now, and the rest of them up to `q` is a free one. -/
structure Carved (mem : Mem) (t : ℕ) (mem' : Mem) (p m q : ℕ) : Prop where
  arena : Arena mem' t
  header : Header mem' t p
  rest : Header mem' t m
  block : mem' p = ⟨m, true⟩
  stays : ∀ x, Header mem t x → x < t → x < p ∨ q ≤ x → Stays mem t mem' t x
  words : ∀ z, p < z → z < m → mem' z = mem z

theorem Arena.carve (ha : Arena mem t) (hp : Header mem t p) (hq : Header mem t q) (hpm : p < m) (hmq : m ≤ q) :
    Carved mem t (update (if q > m then update mem m ⟨q, false⟩ else mem) p ⟨m, true⟩) p m q := by
  obtain ⟨mem', hmem⟩ : ∃ m' : Mem, m' = update (if q > m then update mem m ⟨q, false⟩ else mem) p ⟨m, true⟩ := ⟨_, rfl⟩
  rw [← hmem]
  have hat : mem' p = ⟨m, true⟩ := by rw [hmem, Function.update_self]
  have hatn : mem'.next p = m := congrArg Store.ptr hat
  have hoff : ∀ z, z ≠ p → z ≠ m ∨ q ≤ z → mem' z = mem z := by
    intro z hzp hzm
    rw [hmem, Function.update_of_ne hzp]
    by_cases hrest : q > m
    · rw [if_pos hrest, Function.update_of_ne (by lia)]
    · rw [if_neg hrest]
  have hfirst : Path mem'.next p m := .step hatn hpm
  have hsecond : Path mem'.next m q := by
    rcases Nat.lt_or_eq_of_le hmq with hlt | heq
    · have hatm : mem'.next m = q := by
        rw [Mem.next, hmem, Function.update_of_ne (by lia), if_pos hlt, Function.update_self]
      exact .step hatm hlt
    · rw [heq]
      exact .refl q
  have hsame : ∀ z, z < p ∨ q ≤ z → mem' z = mem z := fun z hz => hoff z (by lia) (by lia)
  have hsplice := ha.resplice hp hq hsame (hfirst.trans hsecond)
  exact ⟨hsplice.arena, hsplice.within p (.refl p) (hfirst.trans hsecond), hsplice.within m hfirst hsecond, hat,
    fun x hx hlt hwhere => hsplice.stays hp hsame hx hlt hwhere, fun z hpz hzm => hoff z (by lia) (by lia)⟩

/-- Words inside a block are written. -/
structure Written (mem : Mem) (t : ℕ) (mem' : Mem) (x : ℕ) : Prop where
  arena : Arena mem' t
  header : ∀ y, Header mem t y → Header mem' t y
  kept : KeptBut x mem t mem' t

theorem Arena.write (ha : Arena mem t) (hx : Header mem t x) (hlt : x < t)
    (hoff : ∀ z, z ≤ x ∨ mem.next x ≤ z → mem' z = mem z) : Written mem t mem' x := by
  obtain ⟨hnext, hafter, hle⟩ := Header.follow hx hlt
  have hatn : mem'.next x = mem.next x := congrArg Store.ptr (hoff x (.inl (le_refl x)))
  have hsame : ∀ z, z < x ∨ mem.next x ≤ z → mem' z = mem z := fun z hz => hoff z (by lia)
  have hsplice := ha.resplice hx hafter hsame (.step hatn hnext)
  have hwhere : ∀ y, Header mem t y → y ≠ x → y < x ∨ mem.next x ≤ y := by
    intro y hy hne
    rcases Nat.lt_or_ge y x with hbefore | hge
    · exact .inl hbefore
    · exact .inr (On.apart hx hy (by lia)).2
  refine ⟨hsplice.arena, fun y hy => ?_, fun y hy hyt _ hne => hsplice.stays hx hsame hy hyt (hwhere y hy hne)⟩
  by_cases heq : y = x
  · exact hsplice.elsewhere y hy (.inl (by lia))
  · exact hsplice.elsewhere y hy ((hwhere y hy heq).imp_left le_of_lt)

/-- A block is marked free. -/
theorem Arena.mark (ha : Arena mem t) (hx : Header mem t x) (hlt : x < t) :
    Written mem t (update mem x ⟨(mem x).ptr, false⟩) x := by
  have hnext : Mem.next (update mem x ⟨(mem x).ptr, false⟩) = mem.next := by
    funext z
    by_cases hz : z = x
    · rw [hz, Mem.next, Function.update_self]
      rfl
    · rw [Mem.next, Function.update_of_ne hz]
      rfl
  have hheader : ∀ y, Header mem t y → Header (update mem x ⟨(mem x).ptr, false⟩) t y := by
    intro y hy
    exact ⟨hnext ▸ hy.before, hnext ▸ hy.after⟩
  refine ⟨⟨hnext ▸ ha.chain, ha.above, ?_⟩, hheader, fun y hy hyt _ hne => ⟨hheader y hy, hyt, fun i hle hi => ?_⟩⟩
  · rw [Function.update_of_ne (by lia), ha.top]
  · refine Function.update_of_ne (fun heq => ?_) ..
    -- A header does not lie inside another block.
    have := (On.apart hy hx (by lia)).2
    lia

theorem pastFree_spec (ha : Arena mem t) (hx : Header mem t x) (hfuel : t - x + 1 ≤ n) :
    ∃ q, pastFree n mem x = some q ∧ Header mem t q ∧ x ≤ q ∧ (mem q).busy = true ∧
      ∀ y, Header mem t y → x ≤ y → y < q → (mem y).busy = false := by
  induction n generalizing x with
  | zero => lia
  | succ n ih =>
    rw [pastFree]
    by_cases hbusy : (mem x).busy = true
    · exact ⟨x, if_pos hbusy, hx, le_refl x, hbusy, fun y _ hle hlt => by lia⟩
    · rw [if_neg hbusy]
      have hlt : x < t := by
        refine lt_of_le_of_ne hx.le fun heq => hbusy ?_
        rw [heq, ha.top]
      obtain ⟨hnext, hafter, hle⟩ := Header.follow hx hlt
      have hptr : mem.next x = (mem x).ptr := rfl
      obtain ⟨q, hrun, hq, hxq, hqbusy, hfree⟩ := ih hafter (by lia)
      refine ⟨q, hrun, hq, by lia, hqbusy, fun y hy hxy hyq => ?_⟩
      rcases Nat.lt_or_eq_of_le hxy with hlt' | heq
      · exact hfree y hy (On.apart hx hy hlt').2 hyq
      · rw [← heq]
        exact Bool.eq_false_iff.mpr hbusy

/-! ## Copying -/

theorem copyWords_off (n : ℕ) (mem : Mem) (t s : ℕ) (hz : z < t ∨ t + n ≤ z) : copyWords n mem t s z = mem z := by
  induction n generalizing mem t s with
  | zero => rfl
  | succ n ih =>
    rw [copyWords, ih _ _ _ (by lia), Function.update_of_ne (by lia)]

theorem copyWords_at (n : ℕ) (mem : Mem) (t s : ℕ) (hapart : t + n ≤ s ∨ s + n ≤ t) {i : ℕ} (hi : i < n) :
    copyWords n mem t s (t + i) = mem (s + i) := by
  induction n generalizing mem t s i with
  | zero => lia
  | succ n ih =>
    rw [copyWords]
    match i with
    | 0 =>
      rw [copyWords_off _ _ _ _ (by lia)]
      exact Function.update_self ..
    | i + 1 =>
      have := ih (update mem t (mem s)) (t + 1) (s + 1) (by lia) (i := i) (by lia)
      rw [show t + (i + 1) = t + 1 + i by lia, this, Function.update_of_ne (by lia),
        show s + (i + 1) = s + 1 + i by lia]

end

end DiscoBSD.Malloc
