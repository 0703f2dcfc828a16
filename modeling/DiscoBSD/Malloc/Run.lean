import DiscoBSD.Malloc.Heap

/-!
# Programs that allocate

**Live blocks are apart and keep their contents, and every call returns**, as long as no search that fails starts at a
free block with a free block right before it.
-/

set_option autoImplicit false

namespace DiscoBSD.Malloc

open Function (update)
open Lib (Path On Always Each runOn)

/-! ## Conditions that can be checked -/

/-- The headers from `x` on. -/
def walk : ℕ → Mem → ℕ → List ℕ
  | 0, _, _ => []
  | n + 1, mem, x => x :: if x < (mem x).ptr then walk n mem (mem x).ptr else []

namespace Heap

def headers (h : Heap) : List ℕ := walk (h.alloct + 1) h.mem allocs

/-- The block at the search pointer is free and so is the one right before it. -/
def exposed (h : Heap) : Bool :=
  !(h.mem h.allocp).busy && h.headers.any fun w => !(h.mem w).busy && (h.mem w).ptr = h.allocp

/-- Somewhere in the arena there is room for so many words. -/
def room (nw : ℕ) (h : Heap) : Bool :=
  h.headers.any fun b => match pastFree (turns h.alloct) h.mem b with
    | some d => nw ≤ d - b
    | none => false

/-- A `malloc` of so many bytes either is served or does no harm. -/
def suits (h : Heap) (nbytes : ℕ) (gaps : List ℕ) : Bool :=
  !h.exposed || h.room (words nbytes) || granted (words nbytes) h.alloct gaps

end Heap

theorem mem_walk {mem : Mem} {t x y n : ℕ} (ha : Arena mem t) (hx : Header mem t x) (hfuel : t - x + 1 ≤ n) :
    y ∈ walk n mem x ↔ Header mem t y ∧ x ≤ y := by
  induction n generalizing x with
  | zero => omega
  | succ n ih =>
    rw [walk, List.mem_cons]
    rcases Nat.lt_or_eq_of_le hx.le with hlt | heq
    · obtain ⟨hnext, hafter, hle⟩ := Header.follow hx hlt
      have hptr : (mem x).ptr = mem.next x := rfl
      rw [hptr, if_pos hnext, ih hafter (by omega)]
      constructor
      · rintro (rfl | ⟨hy, hle⟩)
        · exact ⟨hx, le_refl _⟩
        · exact ⟨hy, by omega⟩
      · rintro ⟨hy, hle⟩
        rcases Nat.lt_or_eq_of_le hle with hlt' | heq
        · exact .inr ⟨hy, (On.apart hx hy hlt').2⟩
        · exact .inl heq.symm
    · have htop : ¬x < (mem x).ptr := by
        rw [heq, ha.top]
        have := ha.above
        dsimp only
        omega
      rw [if_neg htop]
      constructor
      · rintro (rfl | hy)
        · exact ⟨hx, le_refl _⟩
        · cases hy
      · rintro ⟨hy, hle⟩
        have := hy.le
        exact .inl (by omega)

namespace Heap

variable {h : Heap} {nbytes nw : ℕ} {gaps : List ℕ}

theorem Sound.mem_headers (hs : h.Sound) {y : ℕ} : y ∈ h.headers ↔ Header h.mem h.alloct y := by
  rw [headers, mem_walk hs.arena (.first hs.arena.chain) (by omega)]
  exact ⟨fun hy => hy.1, fun hy => ⟨hy, hy.ge⟩⟩

theorem Sound.not_exposed (hs : h.Sound) (hexp : h.exposed = false) : ¬Exposed h.mem h.alloct h.allocp := by
  rintro ⟨hfree, w, hw, -, hwfree, hwp⟩
  have hany : h.headers.any (fun w => !(h.mem w).busy && (h.mem w).ptr = h.allocp) = true := by
    refine List.any_eq_true.mpr ⟨w, hs.mem_headers.mpr hw, ?_⟩
    have hptr : (h.mem w).ptr = h.allocp := hwp
    rw [hwfree, hptr]
    simp
  rw [exposed, hfree, hany] at hexp
  cases hexp

theorem Sound.room (hs : h.Sound) (hroom : h.room nw = true) : ∃ b d, Room nw h.mem h.alloct b d := by
  obtain ⟨b, hb, hfits⟩ := List.any_eq_true.mp hroom
  have hhead := hs.mem_headers.mp hb
  obtain ⟨d, hpast, hd, -, -, hfree⟩ := pastFree_spec (n := turns h.alloct) hs.arena hhead (by
    unfold turns
    omega)
  rw [hpast] at hfits
  exact ⟨b, d, hhead, hd, by simpa using hfits, hfree⟩

theorem Sound.suits (hs : h.Sound) (hsuits : h.suits nbytes gaps = true) : h.Suits nbytes gaps := by
  unfold Heap.suits at hsuits
  rw [Bool.or_eq_true, Bool.or_eq_true, Bool.not_eq_true'] at hsuits
  rcases hsuits with (hexp | hroom) | hgranted
  · exact .inl (hs.not_exposed hexp)
  · exact .inr (.inl (hs.room hroom))
  · exact .inr (.inr hgranted)

end Heap

/-! ## What a program relies on -/

namespace Prog

/-- Calls that a program may make, and writes inside its blocks. -/
def May (s : Prog) : Event → Prop
  | .malloc _ _ => True
  | .free p => ∃ n, (p, n) ∈ s.live
  | .realloc p _ _ => ∃ n, (p, n) ∈ s.live
  | .write p i _ => ∃ n, (p, n) ∈ s.live ∧ word * i < n

/-- The block is live still, with its contents. -/
def Same (s s' : Prog) (b : ℕ × ℕ) : Prop :=
  b ∈ s'.live ∧ ∀ i, word * i < b.2 → s'.heap.mem (b.1 + i) = s.heap.mem (b.1 + i)

/-- What an event may change. -/
def Fair (s : Prog) : Event → Prog → Prop
  | .malloc nbytes _, s' => (∀ b ∈ s.live, Same s s' b) ∧ (s'.ret ≠ 0 → (s'.ret, nbytes) ∈ s'.live)
  | .free p, s' => ∀ b ∈ s.live, b.1 ≠ p → Same s s' b
  | .realloc p nbytes _, s' =>
    (∀ b ∈ s.live, b.1 ≠ p → Same s s' b) ∧
    ∀ old, (p, old) ∈ s.live →
      (s'.ret ≠ 0 → (s'.ret, nbytes) ∈ s'.live ∧
        ∀ i, word * i < min old nbytes → s'.heap.mem (s'.ret + i) = s.heap.mem (p + i)) ∧
      (s'.ret = 0 → 0 < nbytes → Same s s' (p, old))
  | .write p _ _, s' => ∀ b ∈ s.live, b.1 ≠ p → Same s s' b

/-- The arena is in order. -/
structure Apart (s : Prog) : Prop where
  chain : Arena s.heap.mem s.heap.alloct
  search : Header s.heap.mem s.heap.alloct s.heap.allocp
  live : ∀ b ∈ s.live, s.heap.Block b.1 b.2
  /-- Two live blocks do not overlap. -/
  others : s.live.Pairwise fun b c => s.heap.mem.next (b.1 - 1) ≤ c.1 - 1 ∨ s.heap.mem.next (c.1 - 1) ≤ b.1 - 1
  /-- A live block and a free one do not overlap. -/
  free : ∀ b ∈ s.live, ∀ x, Header s.heap.mem s.heap.alloct x → x < s.heap.alloct → (s.heap.mem x).busy = false →
    s.heap.mem.next x ≤ b.1 - 1 ∨ s.heap.mem.next (b.1 - 1) ≤ x

/-- Nothing has been asked for yet. -/
def Unused (s : Prog) : Prop := s.heap.mem allocs = ⟨0, false⟩ ∧ s.live = []

/-- The blocks are apart, and whatever the program does next, the call returns and changes only what it may. -/
structure Kept (s : Prog) : Prop where
  arena : s.Unused ∨ s.Apart
  next : ∀ e, s.May e → ∃ s', s.step e = some s' ∧ s.Fair e s'

/-- No search may fail that starts at a free block with a free one right before it. -/
def Safe (s : Prog) : Event → Prop
  | .malloc nbytes gaps => nbytes = 0 ∨ maxbytes < nbytes ∨ s.heap.start.suits nbytes gaps = true
  | .realloc p nbytes gaps =>
    nbytes = 0 ∨ maxbytes < nbytes ∨ s.heap.moves p nbytes = false ∨ s.heap.suits nbytes gaps = true
  | _ => True

instance (s : Prog) : (e : Event) → Decidable (s.Safe e)
  | .malloc nbytes gaps =>
    inferInstanceAs (Decidable (nbytes = 0 ∨ maxbytes < nbytes ∨ s.heap.start.suits nbytes gaps = true))
  | .realloc p nbytes gaps =>
    inferInstanceAs (Decidable (nbytes = 0 ∨ maxbytes < nbytes ∨ s.heap.moves p nbytes = false ∨
      s.heap.suits nbytes gaps = true))
  | .free _ => isTrue trivial
  | .write _ _ _ => isTrue trivial

/-- What the calls keep. -/
structure Blocks (s : Prog) : Prop where
  sound : s.heap.Sound
  live : ∀ b ∈ s.live, s.heap.Block b.1 b.2
  once : s.live.Pairwise fun b c => b.1 ≠ c.1

variable {s : Prog} {p nbytes : ℕ} {gaps : List ℕ}

theorem Blocks.apart (h : s.Blocks) : s.Apart := by
  refine ⟨h.sound.arena, h.sound.search, h.live, ?_, fun b hb x hx _ hfree => ?_⟩
  · refine List.Pairwise.imp_of_mem (fun {b c} hb hc hne => ?_) h.once
    have hbb := h.live b hb
    have hcb := h.live c hc
    have hbpos := hbb.pos
    have hcpos := hcb.pos
    rcases Nat.lt_or_gt_of_ne hne with hlt | hgt
    · exact .inl (On.apart hbb.header hcb.header (by omega)).2
    · exact .inr (On.apart hcb.header hbb.header (by omega)).2
  · have hbb := h.live b hb
    have hne : x ≠ b.1 - 1 := by
      intro heq
      rw [heq, hbb.busy] at hfree
      cases hfree
    rcases Nat.lt_or_gt_of_ne hne with hlt | hgt
    · exact .inl (On.apart hx hbb.header hlt).2
    · exact .inr (On.apart hbb.header hx hgt).2

/-- Either nothing has been asked for, or the blocks are in order. -/
def Inv (s : Prog) : Prop := s.Unused ∨ s.Blocks

/-- What each event comes to. -/
structure Goes (s : Prog) (e : Event) (s' : Prog) : Prop where
  takes : s.step e = some s'
  fair : s.Fair e s'
  inv : s.Safe e → s'.Inv

theorem mem_drop {b : ℕ × ℕ} : b ∈ s.drop p ↔ b ∈ s.live ∧ b.1 ≠ p := by
  rw [drop, List.mem_filter, decide_eq_true_iff]

theorem any_live : s.live.any (fun b => b.1 = p) = true ↔ ∃ n, (p, n) ∈ s.live := by
  rw [List.any_eq_true]
  constructor
  · rintro ⟨b, hb, hp⟩
    rw [decide_eq_true_iff] at hp
    exact ⟨b.2, hp ▸ hb⟩
  · rintro ⟨n, hn⟩
    exact ⟨(p, n), hn, by simp⟩

/-- A block that stays as it is. -/
theorem Blocks.same {s' : Prog} {b : ℕ × ℕ} (hb : s.heap.Block b.1 b.2) (hs : s.heap.Stays s'.heap (b.1 - 1))
    (hlive : b ∈ s'.live) : s'.heap.Block b.1 b.2 ∧ Same s s' b := by
  obtain ⟨hblock, hwords⟩ := hb.stays hs
  exact ⟨hblock, hlive, hwords⟩

/-- Where `malloc` starts from. -/
theorem Inv.start (h : s.Inv) : s.heap.start.Sound ∧ s.live.Pairwise (fun b c => b.1 ≠ c.1) ∧
    ∀ b ∈ s.live, s.heap.start = s.heap ∧ s.heap.Block b.1 b.2 := by
  rcases h with ⟨hfresh, hlive⟩ | hblocks
  · refine ⟨Heap.start_sound hfresh, ?_, ?_⟩
    · rw [hlive]
      exact .nil
    · rw [hlive]
      rintro b ⟨⟩
  · have hstart := hblocks.sound.start
    exact ⟨hstart.symm ▸ hblocks.sound, hblocks.once, fun b hb => ⟨hstart, hblocks.live b hb⟩⟩

theorem malloc_goes (h : s.Inv) (nbytes : ℕ) (gaps : List ℕ) : ∃ s', s.Goes (.malloc nbytes gaps) s' := by
  by_cases hearly : nbytes = 0 ∨ nbytes > maxbytes
  · have hrun : s.heap.malloc nbytes gaps = some (s.heap, 0) := by rw [Heap.malloc, if_pos hearly]
    refine ⟨⟨s.heap, s.live, 0⟩, ?_, ⟨fun b hb => ⟨hb, fun _ _ => rfl⟩, fun h => absurd rfl h⟩, fun _ => ?_⟩
    · rw [step, hrun]
      rfl
    · rcases h with hunused | hblocks
      · exact .inl hunused
      · exact .inr ⟨hblocks.sound, hblocks.live, hblocks.once⟩
  · obtain ⟨hstart, honce, hlive⟩ := h.start
    obtain ⟨h', r, hrun, hanswer⟩ := Heap.malloc_spec hstart nbytes gaps (by omega) (by omega)
    have hstays : ∀ b ∈ s.live, s.heap.Stays h' (b.1 - 1) := by
      intro b hb
      obtain ⟨hsame, hblock⟩ := hlive b hb
      have hkept := hanswer.kept
      rw [hsame] at hkept
      exact hblock.keptBut hkept hblock.header.pos.ne'
    refine ⟨⟨h', if r = 0 then s.live else (r, nbytes) :: s.live, r⟩, by rw [step, hrun]; rfl, ⟨fun b hb => ?_, fun hr => ?_⟩,
      fun hsafe => ?_⟩
    · refine (Blocks.same (hlive b hb).2 (hstays b hb) ?_).2
      dsimp only
      split
      · exact hb
      · exact List.mem_cons_of_mem _ hb
    · dsimp only at hr ⊢
      rw [if_neg hr]
      exact List.mem_cons_self
    · have hold : ∀ b ∈ s.live, h'.Block b.1 b.2 := fun b hb => ((hlive b hb).2.stays (hstays b hb)).1
      right
      by_cases hr : r = 0
      · have hsuits : s.heap.start.Suits nbytes gaps := by
          rcases hsafe with hzero | hlarge | hsuits
          · omega
          · omega
          · exact hstart.suits hsuits
        have hsound := hanswer.refused hr hsuits
        rw [if_pos hr]
        exact ⟨hsound, hold, honce⟩
      · obtain ⟨hsound, hblock, hfresh⟩ := hanswer.given hr
        rw [if_neg hr]
        refine ⟨hsound, ?_, List.pairwise_cons.mpr ⟨fun b hb heq => ?_, honce⟩⟩
        · intro b hb
          rcases List.mem_cons.mp hb with rfl | hb
          · exact hblock
          · exact hold b hb
        · obtain ⟨hsame, hb⟩ := hlive b hb
          rw [hsame] at hfresh
          have := hfresh (b.1 - 1) hb.header hb.before hb.busy
          dsimp only at heq
          omega

theorem Inv.blocks {n : ℕ} (h : s.Inv) (hp : (p, n) ∈ s.live) : s.Blocks := by
  rcases h with ⟨-, hlive⟩ | hblocks
  · rw [hlive] at hp
    cases hp
  · exact hblocks

theorem Blocks.sub_ne (h : s.Blocks) {n : ℕ} (hp : (p, n) ∈ s.live) {b : ℕ × ℕ} (hb : b ∈ s.live) (hne : b.1 ≠ p) :
    b.1 - 1 ≠ p - 1 := by
  have hbpos := (h.live b hb).pos
  have hppos := (h.live _ hp).pos
  dsimp only at hppos
  omega

theorem free_goes (h : s.Inv) (hmay : s.May (.free p)) : ∃ s', s.Goes (.free p) s' := by
  obtain ⟨n, hp⟩ := hmay
  have hblocks := h.blocks hp
  obtain ⟨hsound, hkept⟩ := Heap.free_spec hblocks.sound (hblocks.live _ hp)
  have hstays : ∀ b ∈ s.live, b.1 ≠ p → s.heap.Stays (s.heap.free p) (b.1 - 1) := fun b hb hne =>
    (hblocks.live b hb).keptBut hkept (hblocks.sub_ne hp hb hne)
  refine ⟨⟨s.heap.free p, s.drop p, 0⟩, by rw [step, if_pos (any_live.mpr ⟨n, hp⟩)], fun b hb hne => ?_, fun _ => .inr ⟨hsound, ?_, ?_⟩⟩
  · exact (Blocks.same (hblocks.live b hb) (hstays b hb hne) (mem_drop.mpr ⟨hb, hne⟩)).2
  · intro b hb
    obtain ⟨hb, hne⟩ := mem_drop.mp hb
    exact ((hblocks.live b hb).stays (hstays b hb hne)).1
  · exact hblocks.once.filter _

/-- A size of zero frees the block. -/
theorem realloc_zero (h : s.Inv) (hmay : s.May (.free p)) : ∃ s', s.Goes (.realloc p 0 gaps) s' := by
  obtain ⟨n, hp⟩ := hmay
  have hblock := (h.blocks hp).live _ hp
  obtain ⟨s', hgoes⟩ := free_goes h ⟨n, hp⟩
  have htakes := hgoes.takes
  have hlive := any_live.mpr ⟨n, hp⟩
  rw [step, if_pos hlive] at htakes
  have hrun : s.heap.realloc p 0 gaps = some (s.heap.free p, 0) := by
    have hpos := hblock.pos
    dsimp only at hpos
    rw [Heap.realloc, if_neg (by omega), if_pos rfl, if_pos hblock.busy]
  refine ⟨s', ?_, ⟨hgoes.fair, fun old _ => ⟨fun hr => ?_, fun _ hpos => absurd hpos (lt_irrefl 0)⟩⟩, fun _ => hgoes.inv trivial⟩
  · rw [step, if_pos hlive, hrun]
    exact htakes
  · cases htakes
    exact absurd rfl hr

theorem realloc_goes (h : s.Inv) (nbytes : ℕ) (gaps : List ℕ) (hmay : s.May (.realloc p nbytes gaps)) :
    ∃ s', s.Goes (.realloc p nbytes gaps) s' := by
  by_cases hzero : nbytes = 0
  · subst hzero
    exact realloc_zero h hmay
  · obtain ⟨n, hp⟩ := hmay
    have hblocks := h.blocks hp
    have hpb := hblocks.live _ hp
    obtain ⟨h', r, hrun, hresized⟩ := Heap.realloc_spec hblocks.sound hpb nbytes gaps (by omega)
    have hstays : ∀ b ∈ s.live, b.1 ≠ p → s.heap.Stays h' (b.1 - 1) := fun b hb hne =>
      (hblocks.live b hb).keptBut hresized.kept (hblocks.sub_ne hp hb hne)
    refine ⟨⟨h', if r = 0 then (if nbytes = 0 then s.drop p else s.live) else (r, nbytes) :: s.drop p, r⟩, ?_,
      ⟨fun b hb hne => ?_, fun old hold => ⟨fun hr => ?_, fun hr _ => ?_⟩⟩, fun hsafe => .inr ?_⟩
    · rw [step, if_pos (any_live.mpr ⟨n, hp⟩), hrun]
      rfl
    · refine (Blocks.same (hblocks.live b hb) (hstays b hb hne) ?_).2
      dsimp only
      rw [if_neg hzero]
      split
      · exact hb
      · exact List.mem_cons_of_mem _ (mem_drop.mpr ⟨hb, hne⟩)
    · dsimp only at hr ⊢
      rw [if_neg hr]
      refine ⟨List.mem_cons_self, fun i hi => (hresized.given hr).2.2.2 i ?_ (by omega)⟩
      show p + i < s.heap.mem.next (p - 1)
      have hlarge := (hblocks.live _ hold).large
      have hpos := hpb.pos
      unfold word at hi hlarge
      dsimp only at hlarge hpos
      omega
    · dsimp only at hr
      refine (Blocks.same (hblocks.live _ hold) (hresized.refused hr).1 ?_).2
      dsimp only
      rw [if_pos hr, if_neg hzero]
      exact hold
    · by_cases hr : r = 0
      · obtain ⟨hpstays, hsound⟩ := hresized.refused hr
        rw [if_pos hr, if_neg hzero]
        refine ⟨hsound ?_, fun b hb => ?_, hblocks.once⟩
        · rcases hsafe with hz | hlarge | hstill | hsuits
          · exact absurd hz hzero
          · exact .inl hlarge
          · exact .inr (.inl hstill)
          · exact .inr (.inr (hblocks.sound.suits hsuits))
        · by_cases hne : b.1 = p
          · exact ((hblocks.live b hb).stays (hne.symm ▸ hpstays)).1
          · exact ((hblocks.live b hb).stays (hstays b hb hne)).1
      · obtain ⟨hsound, hblock, hfresh, -⟩ := hresized.given hr
        rw [if_neg hr]
        refine ⟨hsound, fun b hb => ?_, List.pairwise_cons.mpr ⟨fun b hb heq => ?_, hblocks.once.filter _⟩⟩
        · rcases List.mem_cons.mp hb with rfl | hb
          · exact hblock
          · obtain ⟨hb, hne⟩ := mem_drop.mp hb
            exact ((hblocks.live b hb).stays (hstays b hb hne)).1
        · obtain ⟨hb, hne⟩ := mem_drop.mp hb
          have hbb := hblocks.live b hb
          have := hfresh (b.1 - 1) hbb.header hbb.before hbb.busy (hblocks.sub_ne hp hb hne)
          dsimp only at heq
          omega

theorem write_goes {i : ℕ} (w : Store) (h : s.Inv) (hmay : s.May (.write p i w)) :
    ∃ s', s.Goes (.write p i w) s' := by
  obtain ⟨n, hp, hi⟩ := hmay
  have hblocks := h.blocks hp
  have hpb := hblocks.live _ hp
  have hpos := hpb.pos
  have hlarge := hpb.large
  have hlive : s.live.any (fun b => b.1 = p ∧ word * i < b.2) = true :=
    List.any_eq_true.mpr ⟨(p, n), hp, by simpa using hi⟩
  have hoff : ∀ z, z ≤ p - 1 ∨ s.heap.mem.next (p - 1) ≤ z → update s.heap.mem (p + i) w z = s.heap.mem z := by
    intro z hz
    unfold word at hi hlarge
    dsimp only at hlarge hpos
    exact Function.update_of_ne (by omega) ..
  have hwritten := hblocks.sound.arena.write hpb.header hpb.before hoff
  obtain ⟨s', hs'⟩ : ∃ s' : Prog, s' = { s with heap := { s.heap with mem := update s.heap.mem (p + i) w } } := ⟨_, rfl⟩
  have hkept : s.heap.KeptBut (p - 1) s'.heap := by
    subst hs'
    exact hwritten.kept
  have hstays : ∀ b ∈ s.live, b.1 ≠ p → s.heap.Stays s'.heap (b.1 - 1) := fun b hb hne =>
    (hblocks.live b hb).keptBut hkept (hblocks.sub_ne hp hb hne)
  have hlivesame : s'.live = s.live := by rw [hs']
  have hsound : s'.heap.Sound := by
    subst hs'
    exact ⟨hwritten.arena, hwritten.header _ hblocks.sound.search⟩
  refine ⟨s', by rw [step, if_pos hlive, hs'], fun b hb hne => ?_, fun _ => .inr ⟨hsound, fun b hb => ?_, ?_⟩⟩
  · exact (Blocks.same (hblocks.live b hb) (hstays b hb hne) (hlivesame.symm ▸ hb)).2
  · rw [hlivesame] at hb
    have hbb := hblocks.live b hb
    by_cases hne : b.1 = p
    · have hhead : s'.heap.mem (b.1 - 1) = s.heap.mem (b.1 - 1) := by
        rw [hne]
        subst hs'
        exact hoff (p - 1) (.inl (le_refl _))
      have hnext : s'.heap.mem.next (b.1 - 1) = s.heap.mem.next (b.1 - 1) := congrArg Store.ptr hhead
      have hheader : Header s'.heap.mem s'.heap.alloct (b.1 - 1) := by
        subst hs'
        exact hwritten.header _ hbb.header
      have hbefore : b.1 - 1 < s'.heap.alloct := by
        subst hs'
        exact hbb.before
      exact ⟨hbb.pos, hheader, hbefore, hhead ▸ hbb.busy, hnext ▸ hbb.large⟩
    · exact (hbb.stays (hstays b hb hne)).1
  · rw [hlivesame]
    exact hblocks.once

/-- One event. -/
theorem goes (h : s.Inv) (e : Event) (hmay : s.May e) : ∃ s', s.Goes e s' := by
  cases e with
  | malloc nbytes gaps => exact malloc_goes h nbytes gaps
  | free p => exact free_goes h hmay
  | realloc p nbytes gaps => exact realloc_goes h nbytes gaps hmay
  | write p i w => exact write_goes w h hmay

theorem may_of_step {e : Event} {s' : Prog} (hs : s.step e = some s') : s.May e := by
  cases e with
  | malloc nbytes gaps => trivial
  | free p =>
    rw [step] at hs
    split at hs
    · exact any_live.mp (by assumption)
    · cases hs
  | realloc p nbytes gaps =>
    rw [step] at hs
    split at hs
    · exact any_live.mp (by assumption)
    · cases hs
  | write p i w =>
    rw [step] at hs
    split at hs
    · rename_i hany
      obtain ⟨b, hb, hword⟩ := List.any_eq_true.mp hany
      rw [decide_eq_true_iff] at hword
      exact ⟨b.2, hword.1 ▸ hb, hword.2⟩
    · cases hs

theorem Inv.keeps (h : s.Inv) : s.Kept := by
  refine ⟨h.imp_right Blocks.apart, fun e hmay => ?_⟩
  obtain ⟨s', hgoes⟩ := goes h e hmay
  exact ⟨s', hgoes.takes, hgoes.fair⟩

theorem Inv.step {e : Event} {s' : Prog} (h : s.Inv) (hs : s.step e = some s') (hsafe : s.Safe e) : s'.Inv := by
  obtain ⟨s₁, hgoes⟩ := goes h e (may_of_step hs)
  have heq := hgoes.takes
  rw [hs] at heq
  cases heq
  exact hgoes.inv hsafe

theorem init_inv (mem : Mem) : (init mem).Inv := by
  refine .inl ⟨?_, rfl⟩
  show update (update mem allocs ⟨0, false⟩) (allocs + 1) ⟨0, false⟩ allocs = ⟨0, false⟩
  rw [Function.update_of_ne (by omega), Function.update_self]

/-- **The allocator keeps live blocks apart**, all along a run in which no search fails that starts at a free block
with a free block right before it. -/
theorem blocks_apart (mem : Mem) (run : List Event) (hsafe : Each step Safe (init mem) run) :
    Always step Kept (init mem) run :=
  Lib.always_of_each (fun _ h => h.keeps) (fun _ _ _ h hs hsafe => h.step hs hsafe) (init_inv mem) hsafe

/-- A run with gaps, refusals, blocks that grow and shrink in place and one that is moved. -/
theorem blocks_apart_session : Always step Kept (init fun _ => ⟨7, true⟩)
    [.malloc 8 [0], .malloc 100 [], .write 3 1 ⟨42, true⟩, .free 6, .realloc 3 40 [], .malloc 984 [5, 0], .malloc 5000 [],
      .realloc 3 3000 [7], .realloc 520 12 [], .free 520] :=
  blocks_apart _ _ (by decide +kernel)

/-- Two neighbours are freed, the second one last, and a request for too much fails. The next block is the second one,
and the one after that begins in the first. -/
theorem blocks_overlap : ¬Always step Kept (init fun _ => ⟨0, false⟩)
    [.malloc 8 [0], .malloc 8 [], .malloc 984 [], .free 3, .free 6, .malloc 2000 [], .malloc 8 [], .malloc 16 []] := by
  intro halways
  have hrun : (runOn step (init fun _ => ⟨0, false⟩)
      [.malloc 8 [0], .malloc 8 [], .malloc 984 [], .free 3, .free 6, .malloc 2000 [], .malloc 8 [], .malloc 16 []]).map
      (fun s => (s.live, s.heap.mem.next 2, s.heap.mem.next 5)) = some ([(3, 16), (6, 8), (9, 984)], 7, 8) := by
    decide +kernel
  obtain ⟨s, hs, hvalues⟩ := Option.map_eq_some_iff.mp hrun
  obtain ⟨hlive, h₂, h₅⟩ : s.live = [(3, 16), (6, 8), (9, 984)] ∧ s.heap.mem.next 2 = 7 ∧ s.heap.mem.next 5 = 8 := by
    simpa using hvalues
  rcases (halways.runOn hs).arena with hunused | hapart
  · rw [hunused.2] at hlive
    cases hlive
  · have hothers := hapart.others
    rw [hlive] at hothers
    have hmem : ((6, 8) : ℕ × ℕ) ∈ [(6, 8), (9, 984)] := List.mem_cons_self
    rcases List.rel_of_pairwise_cons hothers hmem with hle | hle
    · have hend : s.heap.mem.next 2 ≤ 5 := hle
      omega
    · have hend : s.heap.mem.next 5 ≤ 2 := hle
      omega

end Prog

end DiscoBSD.Malloc
