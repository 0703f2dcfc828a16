import DiscoBSD.Malloc.Calls

/-!
# The calls on the arena

**`malloc`, `free` and `realloc` leave the blocks of others as they are**, and the search pointer on a header; only a
`malloc` that gets nothing may have merged the block that the pointer is at.
-/

set_option autoImplicit false

namespace DiscoBSD.Malloc

open Function (update)
open Lib (Path On)

/-- Words that `malloc` takes for a request, its header included. -/
abbrev words (nbytes : ℕ) : ℕ := (nbytes + word + word - 1) / word

namespace Heap

/-- The arena is in order and the search pointer is at a header. -/
structure Sound (h : Heap) : Prop where
  arena : Arena h.mem h.alloct
  search : Header h.mem h.alloct h.allocp

/-- There is a busy block at `p`, for at least so many bytes. -/
structure Block (h : Heap) (p nbytes : ℕ) : Prop where
  pos : 0 < p
  header : Header h.mem h.alloct (p - 1)
  before : p - 1 < h.alloct
  busy : (h.mem (p - 1)).busy = true
  large : nbytes ≤ word * (h.mem.next (p - 1) - p)

abbrev Stays (h h' : Heap) (x : ℕ) : Prop := Malloc.Stays h.mem h.alloct h'.mem h'.alloct x

abbrev KeptBut (e : ℕ) (h h' : Heap) : Prop := Malloc.KeptBut e h.mem h.alloct h'.mem h'.alloct

variable {h h' : Heap} {p nbytes x : ℕ}

theorem Block.stays (hb : h.Block p nbytes) (hs : h.Stays h' (p - 1)) :
    h'.Block p nbytes ∧ ∀ i, word * i < nbytes → h'.mem (p + i) = h.mem (p + i) := by
  obtain ⟨hnext, -, -⟩ := Header.follow hb.header hb.before
  have hsame := hs.same hnext
  have hnextsame : h'.mem.next (p - 1) = h.mem.next (p - 1) := congrArg Store.ptr hsame
  refine ⟨⟨hb.pos, hs.header, hs.before, hsame ▸ hb.busy, hnextsame ▸ hb.large⟩, fun i hi => ?_⟩
  have hlarge := hb.large
  unfold word at hi hlarge
  exact hs.words (p + i) (by omega) (by omega)

theorem Block.keptBut {e : ℕ} (hb : h.Block p nbytes) (hk : h.KeptBut e h') (hne : p - 1 ≠ e) :
    h.Stays h' (p - 1) := hk (p - 1) hb.header hb.before hb.busy hne

/-! ## `malloc` -/

theorem start_sound (hfresh : h.mem allocs = ⟨0, false⟩) : h.start.Sound := by
  rw [start, if_pos hfresh]
  obtain ⟨mem, hmem⟩ : ∃ m : Mem, m = update (update h.mem allocs ⟨allocs + 1, true⟩) (allocs + 1) ⟨allocs, true⟩ :=
    ⟨_, rfl⟩
  rw [← hmem]
  have hfirst : mem allocs = ⟨allocs + 1, true⟩ := by
    rw [hmem, Function.update_of_ne (by omega), Function.update_self]
  have hlast : mem (allocs + 1) = ⟨allocs, true⟩ := by rw [hmem, Function.update_self]
  have hchain : Path mem.next allocs (allocs + 1) := .step (congrArg Store.ptr hfirst) (Nat.lt_succ_self _)
  exact ⟨⟨hchain, Nat.lt_succ_self _, hlast⟩, .first hchain⟩

/-- The arena is there already. -/
theorem Sound.start (hs : h.Sound) : h.start = h := by
  rw [Heap.start, if_neg]
  intro hfresh
  have := (Header.follow (.first hs.arena.chain) hs.arena.above).1
  rw [Mem.next, hfresh] at this
  exact absurd this (by decide)

/-- A request that `malloc` serves, or that finds the search pointer where a failure does no harm. -/
def Suits (h : Heap) (nbytes : ℕ) (gaps : List ℕ) : Prop :=
  ¬Exposed h.mem h.alloct h.allocp ∨ (∃ b d, Room (words nbytes) h.mem h.alloct b d) ∨
    granted (words nbytes) h.alloct gaps = true

/-- What a `malloc` may return. -/
structure Answer (h : Heap) (nbytes : ℕ) (gaps : List ℕ) (h' : Heap) (r : ℕ) : Prop where
  arena : Arena h'.mem h'.alloct
  kept : h.KeptBut 0 h'
  refused : r = 0 → h.Suits nbytes gaps → h'.Sound
  given : r ≠ 0 → h'.Sound ∧ h'.Block r nbytes ∧
    ∀ y, Header h.mem h.alloct y → y < h.alloct → (h.mem y).busy = true → y ≠ r - 1

theorem take_spec {q : ℕ} (nw : ℕ) (ha : Arena h.mem h.alloct) (hp : Header h.mem h.alloct p) (hlt : p < h.alloct)
    (hblock : h.mem p = ⟨q, false⟩) (hnw : 0 < nw) (hlarge : nw ≤ q - p) :
    Carved h.mem h.alloct (h.take p q nw).mem p (p + nw) q ∧ (h.take p q nw).allocp = p + nw ∧
      (h.take p q nw).alloct = h.alloct := by
  have hq : Header h.mem h.alloct q := by
    have := (Header.follow hp hlt).2.1
    rwa [Mem.next, hblock] at this
  have hcarve := ha.carve hp hq (m := p + nw) (by omega) (by omega)
  unfold take
  dsimp only
  by_cases hrest : q > p + nw
  · rw [if_pos hrest] at hcarve ⊢
    rw [hblock]
    exact ⟨hcarve, rfl, rfl⟩
  · rw [if_neg hrest] at hcarve ⊢
    exact ⟨hcarve, rfl, rfl⟩

/-- **`malloc` of a size that it can serve.** -/
theorem malloc_spec (hs : h.start.Sound) (nbytes : ℕ) (gaps : List ℕ) (hpos : 0 < nbytes) (hmax : nbytes ≤ maxbytes) :
    ∃ h' r, h.malloc nbytes gaps = some (h', r) ∧ h.start.Answer nbytes gaps h' r := by
  have hnw : 2 ≤ words nbytes := by
    unfold words word
    omega
  rw [malloc, if_neg (by omega)]
  dsimp only
  have hserved := mallocLoop_spec hnw gaps hs.arena hs.search
  match hr : mallocLoop (words nbytes) gaps h.start.mem h.start.alloct h.start.allocp, hserved with
  | some (mem, alloct, none), hrefused =>
    refine ⟨_, _, rfl, hrefused.arena, hrefused.kept, fun _ hsuits => ⟨hrefused.arena, ?_⟩, fun h => absurd rfl h⟩
    rcases hsuits with hexp | ⟨b, d, hroom⟩ | hgranted
    · exact hrefused.stands _ hs.search hexp
    · exact absurd hroom (hrefused.full b d)
    · exact absurd hgranted (by rw [hrefused.grants]; decide)
  | some (mem, alloct, some (p, q)), hgot =>
    obtain ⟨hcarved, hallocp, halloct⟩ := take_spec (h := { h.start with mem := mem, alloct := alloct }) (words nbytes)
      hgot.arena hgot.header hgot.before hgot.block (by omega) hgot.large
    obtain ⟨h', hh'⟩ : ∃ h', h' = take { h.start with mem := mem, alloct := alloct } p q (words nbytes) := ⟨_, rfl⟩
    rw [← hh'] at hcarved hallocp halloct
    refine ⟨h', p + 1, by rw [hh'], ?_⟩
    -- No busy block of before is the one that is taken.
    have hother : ∀ y, Header h.start.mem h.start.alloct y → y < h.start.alloct → (h.start.mem y).busy = true → y ≠ p := by
      intro y hy hlt hbusy heq
      have hstays := hgot.kept y hy hlt hbusy hy.pos.ne'
      have := hstays.same (Header.follow hy hlt).1
      rw [heq, hgot.block] at this
      rw [heq, ← this] at hbusy
      cases hbusy
    have hkept : h.start.KeptBut 0 h' := by
      intro y hy hlt hbusy _
      have hstays := hgot.kept y hy hlt hbusy hy.pos.ne'
      have hne := hother y hy hlt hbusy
      have hwhere : y < p ∨ q ≤ y := by
        rcases Nat.lt_or_ge y p with hbefore | hge
        · exact .inl hbefore
        · have := (On.apart hgot.header hstays.header (by omega)).2
          rw [Mem.next, hgot.block] at this
          exact .inr this
      have hstays' : Malloc.Stays mem alloct h'.mem h'.alloct y := by
        rw [halloct]
        exact hcarved.stays y hstays.header hstays.before hwhere
      exact hstays.trans (Header.follow hy hlt).1 hstays'
    have hsound : h'.Sound := by
      refine ⟨halloct ▸ hcarved.arena, ?_⟩
      rw [hallocp, halloct]
      exact hcarved.rest
    have hblock : h'.Block (p + 1) nbytes := by
      have hnext : h'.mem.next p = p + words nbytes := congrArg Store.ptr hcarved.block
      refine ⟨Nat.succ_pos p, halloct ▸ hcarved.header, ?_, ?_, ?_⟩
      · rw [halloct]
        exact hgot.before
      · rw [Nat.add_sub_cancel, hcarved.block]
      · rw [Nat.add_sub_cancel, hnext]
        unfold words word
        omega
    exact ⟨hsound.arena, hkept, fun h => absurd h (Nat.succ_ne_zero p), fun _ => ⟨hsound, hblock, hother⟩⟩

/-! ## `free` -/

theorem free_spec (hs : h.Sound) (hb : h.Block p nbytes) : (h.free p).Sound ∧ h.KeptBut (p - 1) (h.free p) := by
  have hmark := hs.arena.mark hb.header hb.before
  have hpos := hb.pos
  rw [free, if_neg (by omega)]
  exact ⟨⟨hmark.arena, hmark.header _ hb.header⟩, hmark.kept⟩

/-! ## `realloc` -/

/-- `realloc` has to look for another place. -/
def moves (h : Heap) (p nbytes : ℕ) : Bool :=
  let nw := (nbytes + word - 1) / word
  let next := (h.mem (p - 1)).ptr
  next - p < nw && match pastFree (turns h.alloct) h.mem next with
    | some q => q - p < nw
    | none => false

/-- What a `realloc` of a busy block may return. -/
structure Resized (h : Heap) (p nbytes : ℕ) (gaps : List ℕ) (h' : Heap) (r : ℕ) : Prop where
  arena : Arena h'.mem h'.alloct
  kept : h.KeptBut (p - 1) h'
  refused : r = 0 → h.Stays h' (p - 1) ∧
    (maxbytes < nbytes ∨ h.moves p nbytes = false ∨ h.Suits nbytes gaps → h'.Sound)
  given : r ≠ 0 → h'.Sound ∧ h'.Block r nbytes ∧
    (∀ y, Header h.mem h.alloct y → y < h.alloct → (h.mem y).busy = true → y ≠ p - 1 → y ≠ r - 1) ∧
    ∀ i, p + i < h.mem.next (p - 1) → word * i < nbytes → h'.mem (r + i) = h.mem (p + i)

/-- The block at `p` is resized where it is. -/
theorem Resized.inPlace {q m : ℕ} (gaps : List ℕ) (hs : h.Sound) (hb : h.Block p nbytes) (nbytes' : ℕ)
    (hq : Header h.mem h.alloct q) (hpm : p < m) (hmq : m ≤ q)
    (hlarge : nbytes' ≤ word * (m - p))
    (hfree : ∀ y, Header h.mem h.alloct y → h.mem.next (p - 1) ≤ y → y < q → (h.mem y).busy = false) :
    Resized h p nbytes' gaps { h with
      mem := update (if q > m then update h.mem m ⟨q, false⟩ else h.mem) (p - 1) ⟨m, true⟩
      allocp := p - 1 } p := by
  have hpos := hb.pos
  have hcarve := hs.arena.carve hb.header hq (m := m) (by omega) hmq
  obtain ⟨mem', hmem⟩ : ∃ m' : Mem, m' = update (if q > m then update h.mem m ⟨q, false⟩ else h.mem) (p - 1) ⟨m, true⟩ :=
    ⟨_, rfl⟩
  rw [← hmem] at hcarve ⊢
  have hkept : h.KeptBut (p - 1) { h with mem := mem', allocp := p - 1 } := by
    intro y hy hlt hbusy hne
    refine hcarve.stays y hy hlt ?_
    rcases Nat.lt_or_ge y (p - 1) with hbefore | hge
    · exact .inl hbefore
    · have hafter := (On.apart hb.header hy (by omega)).2
      right
      by_contra hyq
      rw [hfree y hy hafter (by omega)] at hbusy
      cases hbusy
  refine ⟨hcarve.arena, hkept, fun h => absurd h hpos.ne', fun _ => ⟨⟨hcarve.arena, hcarve.header⟩, ?_, ?_, ?_⟩⟩
  · have hptr : mem'.next (p - 1) = m := congrArg Store.ptr hcarve.block
    refine ⟨hpos, hcarve.header, hb.before, ?_, ?_⟩
    · exact congrArg Store.busy hcarve.block
    · exact hptr.symm ▸ hlarge
  · intro y _ _ _ hne
    exact hne
  · intro i hi hword
    refine hcarve.words (p + i) (by omega) ?_
    unfold word at hlarge hword
    omega

/-- The words of one block are copied to another, and the first one is freed. -/
structure Copied (h : Heap) (p q nbytes onw : ℕ) (h' : Heap) : Prop where
  sound : h'.Sound
  block : h'.Block q nbytes
  kept : ∀ y, Header h.mem h.alloct y → y < h.alloct → (h.mem y).busy = true → y ≠ p - 1 → y ≠ q - 1 → h.Stays h' y
  words : ∀ i, i < onw → h'.mem (q + i) = h.mem (p + i)

theorem copied_spec {q old : ℕ} (onw : ℕ) (hs : h.Sound) (hp : h.Block p old) (hq : h.Block q nbytes) (hne : p - 1 ≠ q - 1)
    (hold : p + onw ≤ h.mem.next (p - 1)) (hnew : q + onw ≤ h.mem.next (q - 1)) :
    h.Copied p q nbytes onw (free p { h with mem := copyWords onw h.mem q p }) := by
  have hppos := hp.pos
  have hqpos := hq.pos
  have hapart : q + onw ≤ p ∨ p + onw ≤ q := by
    rcases Nat.lt_or_gt_of_ne hne with hlt | hgt
    · have := (On.apart hp.header hq.header hlt).2
      omega
    · have := (On.apart hq.header hp.header hgt).2
      omega
  obtain ⟨mem₂, hmem⟩ : ∃ m : Mem, m = copyWords onw h.mem q p := ⟨_, rfl⟩
  rw [← hmem]
  have hoff : ∀ z, z ≤ q - 1 ∨ h.mem.next (q - 1) ≤ z → mem₂ z = h.mem z := by
    intro z hz
    rw [hmem]
    exact copyWords_off onw h.mem q p (by omega)
  have hwritten := hs.arena.write hq.header hq.before hoff
  obtain ⟨h₂, hh₂⟩ : ∃ h₂ : Heap, h₂ = { h with mem := mem₂ } := ⟨_, rfl⟩
  have hsound₂ : h₂.Sound := by
    subst hh₂
    exact ⟨hwritten.arena, hwritten.header _ hs.search⟩
  have hkept₂ : h.KeptBut (q - 1) h₂ := by
    subst hh₂
    exact hwritten.kept
  have hpblock₂ := (hp.stays (hp.keptBut hkept₂ hne)).1
  have hhead : h₂.mem (q - 1) = h.mem (q - 1) := by
    subst hh₂
    exact hoff (q - 1) (.inl (le_refl _))
  have hqnext : h₂.mem.next (q - 1) = h.mem.next (q - 1) := congrArg Store.ptr hhead
  have hqblock₂ : h₂.Block q nbytes := by
    have hheader : Header h₂.mem h₂.alloct (q - 1) := by
      subst hh₂
      exact hwritten.header _ hq.header
    have hbefore : q - 1 < h₂.alloct := by
      subst hh₂
      exact hq.before
    exact ⟨hqpos, hheader, hbefore, hhead ▸ hq.busy, hqnext ▸ hq.large⟩
  obtain ⟨hsound₃, hkept₃⟩ := free_spec hsound₂ hpblock₂
  have hqstays := hqblock₂.keptBut hkept₃ (Ne.symm hne)
  rw [← hh₂]
  refine ⟨hsound₃, (hqblock₂.stays hqstays).1, fun y hy hlt hbusy hyp hyq => ?_, fun i hi => ?_⟩
  · exact (hkept₂ y hy hlt hbusy hyq).kept hy hlt hbusy hkept₃ hyp
  · rw [hqstays.words (q + i) (by omega) (by omega), hh₂, hmem]
    exact copyWords_at onw h.mem q p hapart hi

/-- The block at `p` is moved, or there is no place for it. -/
theorem reallocMoved_spec {old : ℕ} (hs : h.Sound) (hb : h.Block p old) (gaps : List ℕ) (hpos : 0 < nbytes)
    (hmax : nbytes ≤ maxbytes) (hmoves : h.moves p nbytes = true)
    (hgrows : h.mem.next (p - 1) - p < (nbytes + word - 1) / word) :
    ∃ h' r, h.reallocMoved p nbytes (h.mem.next (p - 1) - p) gaps = some (h', r) ∧ h.Resized p nbytes gaps h' r := by
  have hppos := hb.pos
  obtain ⟨hpnext, -, -⟩ := Header.follow hb.header hb.before
  obtain ⟨h₁, q, hrun, hanswer⟩ := malloc_spec (hs.start.symm ▸ hs) nbytes gaps hpos hmax
  rw [hs.start] at hanswer
  rw [reallocMoved, hrun]
  dsimp only
  have hstays₁ := hb.keptBut hanswer.kept (by have := hb.header.pos; omega)
  by_cases hq : q = 0
  · rw [if_pos hq]
    refine ⟨h₁, 0, rfl, hanswer.arena, hanswer.kept.weaken (p - 1), fun _ => ⟨hstays₁, fun hsuits => ?_⟩,
      fun h => absurd rfl h⟩
    rcases hsuits with hlarge | hstill | hsuits
    · omega
    · rw [hmoves] at hstill
      cases hstill
    · exact hanswer.refused hq hsuits
  · rw [if_neg hq]
    obtain ⟨hsound₁, hblock₁, hfresh⟩ := hanswer.given hq
    have hne : p - 1 ≠ q - 1 := hfresh (p - 1) hb.header hb.before hb.busy
    have hqpos := hblock₁.pos
    have hpblock₁ := (hb.stays hstays₁).1
    have hpsame : h₁.mem.next (p - 1) = h.mem.next (p - 1) := congrArg Store.ptr (hstays₁.same hpnext)
    generalize hn : h.mem.next (p - 1) - p = onw at hgrows ⊢
    have hroom : q + onw ≤ h₁.mem.next (q - 1) := by
      have := hblock₁.large
      unfold word at this hgrows
      omega
    have hcopied := copied_spec onw hsound₁ hpblock₁ hblock₁ hne (by omega) hroom
    refine ⟨_, q, rfl, hcopied.sound.arena, fun y hy hlt hbusy hyp => ?_, fun h => absurd h hq, fun _ =>
      ⟨hcopied.sound, hcopied.block, fun y hy hlt hbusy _ => hfresh y hy hlt hbusy, fun i hi _ => ?_⟩⟩
    · have hstays := hanswer.kept y hy hlt hbusy hy.pos.ne'
      have hnext := (Header.follow hy hlt).1
      have hbusy₁ := hstays.same hnext ▸ hbusy
      exact hstays.trans hnext
        (hcopied.kept y hstays.header hstays.before hbusy₁ hyp (hfresh y hy hlt hbusy))
    · rw [hcopied.words i (by omega)]
      exact hstays₁.words (p + i) (by omega) hi

/-- **`realloc` of a block that is live.** -/
theorem realloc_spec {old : ℕ} (hs : h.Sound) (hb : h.Block p old) (nbytes : ℕ) (gaps : List ℕ) (hpos : 0 < nbytes) :
    ∃ h' r, h.realloc p nbytes gaps = some (h', r) ∧ h.Resized p nbytes gaps h' r := by
  have hppos := hb.pos
  obtain ⟨hnext, hafter, hle⟩ := Header.follow hb.header hb.before
  have hptr : (h.mem (p - 1)).ptr = h.mem.next (p - 1) := rfl
  rw [realloc, if_neg (by omega), if_neg (by omega)]
  by_cases hmax : nbytes > maxbytes
  · rw [if_pos hmax]
    have hstays : h.Stays h (p - 1) := ⟨hb.header, hb.before, fun _ _ _ => rfl⟩
    exact ⟨h, 0, rfl, hs.arena, KeptBut.refl (p - 1) h.mem h.alloct, fun _ => ⟨hstays, fun _ => hs⟩, fun h => absurd rfl h⟩
  rw [if_neg hmax]
  dsimp only
  rw [if_pos hb.busy, hptr]
  generalize hnw : (nbytes + word - 1) / word = nw
  have hwords : nbytes ≤ word * nw ∧ 0 < nw := by
    unfold word at hnw ⊢
    omega
  by_cases hfits : nw ≤ h.mem.next (p - 1) - p
  · rw [if_pos hfits]
    have hshrink := Resized.inPlace gaps (m := p + nw) hs hb nbytes hafter (by omega) (by omega)
      (by rw [Nat.add_sub_cancel_left]; exact hwords.1) fun y _ hle hlt => by omega
    by_cases hless : nw < h.mem.next (p - 1) - p
    · rw [if_pos hless]
      rw [if_pos (by omega)] at hshrink
      exact ⟨_, p, rfl, hshrink⟩
    · rw [if_neg hless]
      have hblock : h.Block p nbytes := ⟨hppos, hb.header, hb.before, hb.busy, by
        unfold word at hwords ⊢
        omega⟩
      exact ⟨h, p, rfl, hs.arena, KeptBut.refl (p - 1) h.mem h.alloct, fun h => absurd h hppos.ne', fun _ =>
        ⟨hs, hblock, fun _ _ _ _ hne => hne, fun _ _ _ => rfl⟩⟩
  · rw [if_neg hfits]
    obtain ⟨q, hpast, hq, hnq, hqbusy, hfree⟩ := pastFree_spec (n := turns h.alloct) hs.arena hafter (by
      unfold turns
      omega)
    rw [hpast]
    dsimp only
    by_cases hgrow : q - p ≥ nw
    · rw [if_pos hgrow]
      exact ⟨_, p, rfl, Resized.inPlace gaps hs hb nbytes hq (by omega) (by omega)
        (by rw [Nat.add_sub_cancel_left]; exact hwords.1) hfree⟩
    · rw [if_neg hgrow]
      refine reallocMoved_spec hs hb gaps hpos (by omega) ?_ (by omega)
      rw [moves]
      rw [hptr, hnw, hpast]
      simp only [Bool.and_eq_true, decide_eq_true_eq]
      omega

end Heap

end DiscoBSD.Malloc
