import DiscoBSD.As.Expr
import DiscoBSD.As.Labels

/-!
# The values of literal pools

`ldr rd, =expression` of `makecmd`, with `resolvefix` and the linker behind it. A slot belongs to the first
pending expression with its key, the symbol that was named last and the rest of the number. **The key says
nothing of the segment**, so a load gets its own value just if that expression is relocated in the same way.
-/

set_option autoImplicit false

namespace DiscoBSD.As

/-! ## Linking -/

/-- What `resolvefix` leaves of a reference of the text segment: what the word is relocated by, and the
    number in it. -/
def resolvefix (labels : List Labeltab) (fx : Fixup) : Option (Anchor × Word) :=
  match fx.segment with
  | .sabs => some (.none, fx.addend)
  | .seg s => some (.seg s, fx.addend)
  | .sext =>
    if rlabOffset - rlabMaxval ≤ fx.index then
      (labelAddress labels fx).map fun value => (.seg .stext, fx.addend + BitVec.ofNat 32 value)
    else some (.sym fx.index, fx.addend)

def Layout.place (L : Layout) (p : Anchor × Word) : Word := L.anchor p.1 + p.2

/-- The word of the text segment behind the linker. -/
def linked (L : Layout) (σ : State) (slot : Nat) : Option Word :=
  match σ.fixupAt slot with
  | some fx => (resolvefix σ.labels fx).map L.place
  | none => σ.wordAt slot

/-- The slot that a load reaches. Loads are patched in the text segment, the last time last. -/
def State.slotOf (σ : State) (s : Segm) (ref : Nat) : Option Nat :=
  if s = .stext then (σ.loads.reverse.find? fun l => l.1 = ref).map Prod.snd else none

/-! ## Sources with expressions -/

/-- A line of the source. A load has its expression, with the symbols as they are there and `extref` from
    an expression before it. -/
inductive Line where
  | other (s : Stmt) (h : ∀ o, s ≠ .literal o)
  | load (stab : Nat → Nlist) (extref : Nat) (e : Expr)

def Line.stmt (σ : State) : Line → Option Stmt
  | .other s _ => some s
  | .load stab extref e => (literalOperand ⟨stab, σ.segm, σ.count σ.segm⟩ extref e).map .literal

/-- The statements of a source, as they are read. -/
def stmts (σ : State) : List Line → Option (List Stmt)
  | [] => some []
  | l :: src =>
    (l.stmt σ).bind fun s => (step σ s).bind fun σ => (stmts σ src).map fun rest => s :: rest

theorem stmts_cons {σ : State} {l : Line} {src : List Line} {ss : List Stmt} (h : stmts σ (l :: src) = some ss) :
    ∃ s σ₁ rest, l.stmt σ = some s ∧ step σ s = some σ₁ ∧ stmts σ₁ src = some rest ∧ ss = s :: rest := by
  obtain ⟨s, hs, h⟩ := Option.bind_eq_some_iff.mp h
  obtain ⟨σ₁, hstep, h⟩ := Option.bind_eq_some_iff.mp h
  obtain ⟨rest, hrest, rfl⟩ := Option.map_eq_some_iff.mp h
  exact ⟨s, σ₁, rest, hs, hstep, hrest, rfl⟩

theorem stmts_append {σ : State} {pre post : List Line} {ss : List Stmt} (h : stmts σ (pre ++ post) = some ss) :
    ∃ ss₁ σ₁ ss₂, stmts σ pre = some ss₁ ∧ run σ ss₁ = some σ₁ ∧ stmts σ₁ post = some ss₂ ∧ ss = ss₁ ++ ss₂ := by
  induction pre generalizing σ ss with
  | nil => exact ⟨[], σ, ss, rfl, rfl, h, rfl⟩
  | cons l pre ih =>
    obtain ⟨s, σ₁, rest, hs, hstep, hrest, rfl⟩ := stmts_cons h
    obtain ⟨ss₁, σ₂, ss₂, hpre, hrun, hpost, rfl⟩ := ih hrest
    refine ⟨s :: ss₁, σ₂, ss₂, ?_, ?_, hpost, rfl⟩
    · rw [stmts, hs, Option.bind_some, hstep, Option.bind_some, hpre]
      rfl
    · rw [run_cons, hstep, Option.bind_some, hrun]

/-- A load of a source, with the state where it stands and the statements before and from it. -/
structure Load (src : List Line) where
  pre : List Line
  stab : Nat → Nlist
  extref : Nat
  expr : Expr
  post : List Line
  before : List Stmt
  after : List Stmt
  σ : State
  split : src = pre ++ .load stab extref expr :: post
  read : stmts rescan pre = some before
  run : run rescan before = some σ
  rest : stmts σ (.load stab extref expr :: post) = some after

namespace Load
variable {src : List Line}

def env (l : Load src) : Env := ⟨l.stab, l.σ.segm, l.σ.count l.σ.segm⟩

def ref (l : Load src) : Nat := l.σ.count l.σ.segm

/-- Where the numeric labels are that the expression may name. -/
def find (l : Load src) (back : Bool) (n : Nat) : Option Word :=
  (target back n l.σ.segm (defs rescan l.before) (defs l.σ l.after)).map fun d => BitVec.ofNat 32 d.value

/-- What the expression is relocated by, and its number above that. -/
def meaning (l : Load src) : Option (Anchor × Word) :=
  match l.expr.anchor l.env with
  | .label s back n => (l.find back n).map fun value => (.seg s, l.expr.offset l.env true + value)
  | a => some (a, l.expr.offset l.env true)

end Load

/-- The layout has the numeric labels where they are. -/
def Layout.Finds (L : Layout) (find : Bool → Nat → Option Word) : Prop :=
  ∀ back n value, find back n = some value → L.label back n = value

/-- The load reaches an aligned slot not further than 1020 bytes ahead, and the word there is the value of
    its expression, wherever the segments and the symbols are put. -/
def Delivers {src : List Line} (σ : State) (l : Load src) : Prop :=
  ∃ slot, σ.slotOf l.σ.segm l.ref = some slot ∧ slot % 4 = 0 ∧ (l.ref + 4) / 4 * 4 ≤ slot ∧
    slot ≤ (l.ref + 4) / 4 * 4 + 1020 ∧
    ∀ L : Layout, L.Finds l.find → linked L σ slot = some (l.expr.eval L l.env true)

/-- Loads share slots only if their expressions are the same number, relocated in the same way. -/
def SharesEqual (src : List Line) (σ : State) : Prop :=
  ∀ (l l' : Load src) (slot : Nat), σ.slotOf l.σ.segm l.ref = some slot → σ.slotOf l'.σ.segm l'.ref = some slot →
    ∃ p, l.meaning = some p ∧ l'.meaning = some p

/-- The operand that makes the slot of a load: the first pending one with the same key, or its own. -/
def slotOperand (σ : State) (o : Operand) : Operand := (σ.pool.find? o.sameKey).getD o

/-- The load stands in the text segment, and the operand that makes its slot is relocated by what its
    expression is relocated by, and is the same number above it. Bits of Thumb functions count once for each,
    and a numeric label is looked up from the slot. -/
def Agrees {src : List Line} (σ : State) (l : Load src) : Prop :=
  l.σ.segm = .stext ∧ ∀ o slot, literalOperand l.env l.extref l.expr = some o →
    σ.slotOf .stext l.ref = some slot →
    ∃ p, resolvefix σ.labels ((slotOperand l.σ o).fixup slot) = some p ∧ l.meaning = some p

/-! ## Telling layouts apart -/

/-- Relocated by a segment or a symbol. -/
def Anchor.plain : Anchor → Bool
  | .label _ _ _ => false
  | _ => true

theorem resolvefix_plain {labels : List Labeltab} {fx : Fixup} {p : Anchor × Word}
    (h : resolvefix labels fx = some p) : p.1.plain = true := by
  unfold resolvefix at h
  split at h
  · cases h
    rfl
  · cases h
    rfl
  · split at h
    · obtain ⟨value, _, rfl⟩ := Option.map_eq_some_iff.mp h
      rfl
    · cases h
      rfl

/-- Everything is at 0, but for one segment or symbol. -/
def mark (a : Anchor) (label : Bool → Nat → Word) : Layout where
  base s := if .seg s = a then 1 else 0
  ext i := if .sym i = a then 1 else 0
  label := label

theorem mark_anchor {a b : Anchor} (label : Bool → Nat → Word) (hb : b.plain = true) :
    (mark a label).anchor b = if b = a ∧ b ≠ .none then 1 else 0 := by
  cases b with
  | none => simp [Layout.anchor]
  | seg s => simp [Layout.anchor, mark]
  | sym i => simp [Layout.anchor, mark]
  | label s back n => cases hb

theorem add_left_injective' {a b x : Word} (h : a + x = b + x) : a = b := by
  bv_omega

/-- Two places that are the same in every layout. -/
theorem place_injective {p q : Anchor × Word} (label : Bool → Nat → Word) (hp : p.1.plain = true)
    (hq : q.1.plain = true) (h : ∀ L : Layout, L.label = label → L.place p = L.place q) : p = q := by
  obtain ⟨a, x⟩ := p
  obtain ⟨b, y⟩ := q
  have hzero := h (mark .none label) rfl
  have hxy : x = y := by
    unfold Layout.place at hzero
    rw [mark_anchor label hp, mark_anchor label hq, if_neg (by simp), if_neg (by simp)] at hzero
    bv_omega
  subst hxy
  have hanchor : ∀ c, (mark c label).anchor a = (mark c label).anchor b :=
    fun c => add_left_injective' (h (mark c label) rfl)
  by_cases hab : a = b
  · rw [hab]
  · -- One of the two is not absolute: a layout moves it alone.
    by_cases ha : a = .none
    · have hb : b ≠ .none := fun hb => hab (ha.trans hb.symm)
      have heq := hanchor b
      rw [mark_anchor label hp, mark_anchor label hq, if_neg (by simp [ha]), if_pos ⟨rfl, hb⟩] at heq
      exact absurd heq (by decide)
    · have heq := hanchor a
      rw [mark_anchor label hp, mark_anchor label hq, if_pos ⟨rfl, ha⟩,
        if_neg (fun hb => hab hb.1.symm)] at heq
      exact absurd heq (by decide)

/-- The expression has its meaning in every layout. -/
theorem meaning_some {src : List Line} {l : Load src} {q : Anchor × Word} (h : l.meaning = some q) :
    q.1.plain = true ∧
    ∀ L : Layout, L.Finds l.find → L.place q = L.anchor (l.expr.anchor l.env) + l.expr.offset l.env true := by
  unfold Load.meaning at h
  cases hanchor : l.expr.anchor l.env with
  | label s back n =>
    rw [hanchor] at h
    obtain ⟨value, hvalue, rfl⟩ := Option.map_eq_some_iff.mp h
    refine ⟨rfl, fun L hL => ?_⟩
    simp only [Layout.place, Layout.anchor, hL back n value hvalue]
    generalize L.base s = b
    bv_omega
  | none =>
    rw [hanchor] at h
    cases h
    exact ⟨rfl, fun _ _ => rfl⟩
  | seg s =>
    rw [hanchor] at h
    cases h
    exact ⟨rfl, fun _ _ => rfl⟩
  | sym i =>
    rw [hanchor] at h
    cases h
    exact ⟨rfl, fun _ _ => rfl⟩

/-- It has none if it names a numeric label that is not there. -/
theorem meaning_none {src : List Line} {l : Load src} (h : l.meaning = none) :
    ∃ s back n, l.expr.anchor l.env = .label s back n ∧ l.find back n = none := by
  unfold Load.meaning at h
  cases hanchor : l.expr.anchor l.env with
  | label s back n =>
    rw [hanchor] at h
    exact ⟨s, back, n, rfl, Option.map_eq_none_iff.mp h⟩
  | none =>
    rw [hanchor] at h
    cases h
  | seg s =>
    rw [hanchor] at h
    cases h
  | sym i =>
    rw [hanchor] at h
    cases h

/-- Where nothing names a numeric label, it does not matter. -/
theorem place_label {p : Anchor × Word} (hp : p.1.plain = true) {L L' : Layout} (hbase : L.base = L'.base)
    (hext : L.ext = L'.ext) : L.place p = L'.place p := by
  obtain ⟨a, w⟩ := p
  unfold Layout.place
  cases a with
  | none => rfl
  | seg s => simp [Layout.anchor, hbase]
  | sym i => simp [Layout.anchor, hext]
  | label s back n => cases hp

/-- What a slot holds is right in every layout just if it is relocated like the expression. -/
theorem place_iff {src : List Line} (l : Load src) {r : Option (Anchor × Word)}
    (hplain : ∀ p, r = some p → p.1.plain = true) :
    (∀ L : Layout, L.Finds l.find →
        r.map L.place = some (L.anchor (l.expr.anchor l.env) + l.expr.offset l.env true)) ↔
      ∃ p, r = some p ∧ l.meaning = some p := by
  -- The layouts where a label that is not there has the value `c`.
  have hfinds : ∀ c, ∀ L : Layout, L.label = (fun back n => (l.find back n).getD c) → L.Finds l.find := by
    intro c L hL back n value hvalue
    simp [hL, hvalue]
  constructor
  · intro h
    obtain ⟨p, hp, -⟩ := Option.map_eq_some_iff.mp (h (mark .none _) (hfinds 0 (mark .none _) rfl))
    have hplace : ∀ L : Layout, L.Finds l.find →
        L.place p = L.anchor (l.expr.anchor l.env) + l.expr.offset l.env true := by
      intro L hL
      have heq := h L hL
      rw [hp] at heq
      exact Option.some.inj heq
    refine ⟨p, hp, ?_⟩
    cases hmeaning : l.meaning with
    | some q =>
      obtain ⟨hq, hqplace⟩ := meaning_some hmeaning
      have hpq : p = q := place_injective _ (hplain p hp) hq fun L hL =>
        (hplace L (hfinds 0 L hL)).trans (hqplace L (hfinds 0 L hL)).symm
      rw [hpq]
    | none =>
      obtain ⟨s, back, n, hanchor, hnone⟩ := meaning_none hmeaning
      let at' (c : Word) : Layout := ⟨fun _ => 0, fun _ => 0, fun back n => (l.find back n).getD c⟩
      have hat : ∀ c, (at' c).place p = 0 + c + l.expr.offset l.env true := by
        intro c
        rw [hplace (at' c) (hfinds c (at' c) rfl), hanchor]
        simp [at', Layout.anchor, hnone]
      have hsame : (at' 0).place p = (at' 1).place p := place_label (hplain p hp) rfl rfl
      rw [hat, hat] at hsame
      have hone : (0 : Word) + 0 = 0 + 1 := add_left_injective' hsame
      exact absurd hone (by decide)
  · rintro ⟨p, rfl, hmeaning⟩ L hL
    rw [Option.map_some, (meaning_some hmeaning).2 L hL]

/-! ## The patches of loads -/

/-- The addresses of the loads, of those that are patched first. -/
def State.refs (σ : State) : List Nat := σ.loads.map Prod.fst ++ σ.poolrefs.map Poolref.ref

/-- The loads come in the order of their addresses. -/
structure Ordered (σ : State) : Prop where
  sorted : σ.refs.Pairwise (· < ·)
  below : ∀ ref ∈ σ.refs, ref < σ.count .stext

theorem Ordered.of_same {σ σ' : State} (h : Ordered σ) (hrefs : σ'.refs = σ.refs)
    (hcount : σ.count .stext ≤ σ'.count .stext) : Ordered σ' where
  sorted := by
    rw [hrefs]
    exact h.sorted
  below := by
    intro ref href
    rw [hrefs] at href
    exact Nat.lt_of_lt_of_le (h.below ref href) hcount

theorem Ordered.ltorg {σ σ' : State} (h : Ordered σ) (hrun : ltorg σ = some σ') : Ordered σ' := by
  have hcount := (ltorg_grows hrun).1.count .stext
  cases ltorg_ok hrun with
  | inl hempty =>
    obtain ⟨_, rfl⟩ := hempty
    exact h
  | inr hfull =>
    obtain ⟨_, _, rfl⟩ := hfull
    refine h.of_same ?_ hcount
    simp [State.refs]

/-- A statement keeps the order, if it is not a load outside the text segment. -/
theorem Ordered.step {σ σ' : State} {s : Stmt} (h : Ordered σ) (hstep : step σ s = some σ')
    (htext : ∀ o, s = .literal o → σ.segm = .stext) : Ordered σ' := by
  have hcount := (step_grows hstep).1.count .stext
  cases s with
  | label num =>
    simp only [As.step] at hstep
    split at hstep
    · cases hstep
    · cases hstep
      exact h.of_same rfl hcount
  | segment s =>
    cases hstep
    exact h.of_same rfl hcount
  | emit n =>
    cases hstep
    exact h.of_same rfl hcount
  | fix o wide =>
    simp only [As.step] at hstep
    split at hstep
    · cases hstep
    · cases hstep
      exact h.of_same rfl hcount
  | ltorg => exact h.ltorg hstep
  | literal o =>
    have hseg := htext o rfl
    simp only [As.step] at hstep
    split at hstep
    · cases hstep
    · -- The new load is behind the others.
      have hσ' := poolref_ok hstep
      have hrefs : σ'.refs = σ.refs ++ [σ.count .stext] := by
        rw [hσ', hseg]
        simp [State.refs]
      have hnew : σ'.count .stext = σ.count .stext + 2 := by
        rw [hσ']
        exact advance_at hseg 2
      constructor
      · rw [hrefs, List.pairwise_append]
        refine ⟨h.sorted, List.pairwise_singleton _ _, ?_⟩
        intro ref href last hlast
        rw [List.mem_singleton.mp hlast]
        exact h.below ref href
      · intro ref href
        rw [hrefs] at href
        rw [hnew]
        cases List.mem_append.mp href with
        | inl hold =>
          have hlt := h.below ref hold
          omega
        | inr hlast =>
          rw [List.mem_singleton.mp hlast]
          omega

/-- So a source keeps it, if all its loads are in the text segment. -/
theorem Ordered.stmts {σ σ' : State} {src : List Line} {ss : List Stmt} (h : Ordered σ)
    (hread : stmts σ src = some ss) (hrun : run σ ss = some σ')
    (htext : ∀ pre stab extref e post ss₁ σ₁, src = pre ++ .load stab extref e :: post →
      As.stmts σ pre = some ss₁ → run σ ss₁ = some σ₁ → σ₁.segm = .stext) : Ordered σ' := by
  induction src generalizing σ ss with
  | nil =>
    cases hread
    cases hrun
    exact h
  | cons l src ih =>
    obtain ⟨s, σ₁, rest, hs, hstep, hrest, rfl⟩ := stmts_cons hread
    rw [run_cons, hstep, Option.bind_some] at hrun
    refine ih (h.step hstep ?_) hrest hrun ?_
    · intro o ho
      subst ho
      cases l with
      | other s hno =>
        cases hs
        exact absurd rfl (hno o)
      | load stab extref e => exact htext [] stab extref e src [] σ rfl rfl rfl
    · intro pre stab extref e post ss₁ σ₂ hsplit hpre hrun₂
      refine htext (l :: pre) stab extref e post (s :: ss₁) σ₂ (by rw [hsplit]; rfl) ?_ ?_
      · rw [As.stmts, hs, Option.bind_some, hstep, Option.bind_some, hpre]
        rfl
      · rw [run_cons, hstep, Option.bind_some, hrun₂]

/-- A load that is patched only once. -/
theorem find?_key {l : List (Nat × Nat)} {ref slot : Nat} (hsorted : (l.map Prod.fst).Pairwise (· < ·))
    (hmem : (ref, slot) ∈ l) : (l.reverse.find? fun p => decide (p.1 = ref)).map Prod.snd = some slot := by
  have hsome : ∃ p, l.reverse.find? (fun p => decide (p.1 = ref)) = some p :=
    Option.isSome_iff_exists.mp (List.find?_isSome.mpr
      ⟨_, List.mem_reverse.mpr hmem, decide_eq_true rfl⟩)
  obtain ⟨⟨ref', slot'⟩, hp⟩ := hsome
  have hkey := List.find?_some hp
  simp only [decide_eq_true_eq] at hkey
  subst hkey
  have hmem' := List.mem_reverse.mp (List.mem_of_find?_eq_some hp)
  have hnodup : (l.map Prod.fst).Nodup := hsorted.imp fun hlt => Nat.ne_of_lt hlt
  have heq := List.inj_on_of_nodup_map hnodup hmem hmem' rfl
  rw [hp, Option.map_some, (Prod.mk.inj heq).2]

/-! ## The condition -/

/-- The source is accepted, and leaves a state. -/
def Assembled (src : List Line) (σ : State) : Prop :=
  ∃ ss, stmts rescan src = some ss ∧ pass1 ss = some σ

theorem slotOf_some {σ : State} {s : Segm} {ref slot : Nat} (h : σ.slotOf s ref = some slot) : s = .stext := by
  unfold State.slotOf at h
  split at h
  · assumption
  · cases h

/-- What is in the slot of an operand behind the linker. -/
theorem Slot.linked {σ : State} {e : Operand} {slot : Nat} (h : Slot σ e slot) (L : Layout) :
    linked L σ slot = (resolvefix σ.labels (e.fixup slot)).map L.place := by
  unfold As.linked
  rw [h.fixup, h.word]
  by_cases habs : e.segment = .sabs
  · rw [if_pos habs, if_pos habs]
    simp only [resolvefix, Operand.fixup, habs, Option.map_some, Layout.place, Layout.anchor]
    exact congrArg some (BitVec.zero_add _).symm
  · rw [if_neg habs]

section
variable {src : List Line} {σ : State}

theorem ordered_of_text (h : Assembled src σ) (htext : ∀ l : Load src, l.σ.segm = .stext) : Ordered σ := by
  obtain ⟨ss, hread, hpass⟩ := h
  obtain ⟨σ₃, hrun, hlast⟩ := Option.bind_eq_some_iff.mp hpass
  have hempty : Ordered rescan := ⟨List.Pairwise.nil, by simp [State.refs, rescan]⟩
  have hord : Ordered σ₃ := by
    refine hempty.stmts hread hrun ?_
    intro pre stab extref e post ss₁ σ₁ hsplit hpre hrun₁
    rw [hsplit] at hread
    obtain ⟨ss₁', σ₁', ss₂, hpre', hrun₁', hpost, -⟩ := stmts_append hread
    obtain rfl : ss₁ = ss₁' := Option.some.inj (hpre.symm.trans hpre')
    obtain rfl : σ₁ = σ₁' := Option.some.inj (hrun₁.symm.trans hrun₁')
    exact htext ⟨pre, stab, extref, e, post, ss₁, ss₂, σ₁, hsplit, hpre, hrun₁, hpost⟩
  have hsame : Ordered { σ₃ with segm := .stext } := hord.of_same rfl (Nat.le_refl _)
  exact hsame.ltorg hlast

/-- Where a load ends up. -/
theorem Load.placed (h : Assembled src σ) (hord : Ordered σ) (l : Load src) (hseg : l.σ.segm = .stext) :
    ∃ o slot, literalOperand l.env l.extref l.expr = some o ∧ σ.slotOf .stext l.ref = some slot ∧
      slot % 4 = 0 ∧ (l.ref + 4) / 4 * 4 ≤ slot ∧ slot ≤ (l.ref + 4) / 4 * 4 + 1020 ∧
      Slot σ (slotOperand l.σ o) slot := by
  obtain ⟨ss, hread, hpass⟩ := h
  rw [l.split] at hread
  obtain ⟨before, σ₁, after, hpre, hrun, hafter, hss⟩ := stmts_append hread
  obtain rfl : before = l.before := Option.some.inj (hpre.symm.trans l.read)
  obtain rfl : σ₁ = l.σ := Option.some.inj (hrun.symm.trans l.run)
  obtain ⟨s, σ₂, post, hs, hstep, hpost, rfl⟩ := stmts_cons hafter
  obtain ⟨o, ho, rfl⟩ := Option.map_eq_some_iff.mp hs
  rw [hss] at hpass
  obtain ⟨σ₁', σ₂', σ₃, hrun', hstep', hpost', hlast⟩ := pass1_split hpass
  obtain rfl : σ₁' = l.σ := Option.some.inj (hrun'.symm.trans l.run)
  obtain rfl : σ₂' = σ₂ := Option.some.inj (hstep'.symm.trans hstep)
  have hgrow : l.σ.count .stext ≤ σ₂'.count .stext := (step_grows hstep).1.count .stext
  have hstart : Grows rescan σ₂' := (run_grows hrun).trans (step_grows hstep).1
  simp only [step] at hstep'
  split at hstep'
  · cases hstep'
  · have hpending := poolref_pending hstep'
    rw [hseg, advance_pool] at hpending
    obtain ⟨slot, -, hload, halign, hfirst, hreach, hslot⟩ := hpending.last hgrow hstart hpost' hlast
    have href : l.ref = l.σ.count .stext := by rw [Load.ref, hseg]
    refine ⟨o, slot, ho, ?_, halign, ?_, ?_, hslot⟩
    · rw [State.slotOf, if_pos rfl, href]
      refine find?_key ?_ hload
      exact (List.pairwise_append.mp hord.sorted).1
    · rw [href]
      unfold disp at hfirst
      omega
    · rw [href]
      unfold disp at hreach
      omega

/-- A load gets its own value just if its slot agrees. -/
theorem delivers_iff (h : Assembled src σ) (hord : Ordered σ) (l : Load src) (hseg : l.σ.segm = .stext) :
    Delivers σ l ↔ Agrees σ l := by
  obtain ⟨o, slot, ho, hslotof, halign, hfirst, hreach, hslot⟩ := l.placed h hord hseg
  obtain ⟨v, hv, -⟩ := Option.map_eq_some_iff.mp ho
  have heval := (getexpr_sound l.expr hv).eval
  have hvalue : (∀ L : Layout, L.Finds l.find → linked L σ slot = some (l.expr.eval L l.env true)) ↔
      ∃ p, resolvefix σ.labels ((slotOperand l.σ o).fixup slot) = some p ∧ l.meaning = some p := by
    rw [← place_iff l fun p hp => resolvefix_plain hp]
    have hcongr : ∀ L : Layout, linked L σ slot = some (l.expr.eval L l.env true) ↔
        (resolvefix σ.labels ((slotOperand l.σ o).fixup slot)).map L.place =
          some (L.anchor (l.expr.anchor l.env) + l.expr.offset l.env true) := by
      intro L
      rw [hslot.linked L, heval L true]
    exact forall_congr' fun L => imp_congr_right fun _ => hcongr L
  constructor
  · rintro ⟨slot', hslotof', -, -, -, hlinked⟩
    rw [hseg, hslotof] at hslotof'
    obtain rfl := Option.some.inj hslotof'
    refine ⟨hseg, ?_⟩
    intro o' slot' ho' hslot'
    obtain rfl := Option.some.inj (ho.symm.trans ho')
    obtain rfl := Option.some.inj (hslotof.symm.trans hslot')
    exact hvalue.mp hlinked
  · intro hagrees
    exact ⟨slot, by rw [hseg]; exact hslotof, halign, hfirst, hreach,
      hvalue.mpr (hagrees.2 o slot ho hslotof)⟩

/-- Loads that get their own values share slots only if these are the same. -/
theorem shares_of_delivers (h : Assembled src σ) (hall : ∀ l : Load src, Agrees σ l) : SharesEqual src σ := by
  have hord := ordered_of_text h fun l => (hall l).1
  intro l l' slot hslot hslot'
  have hseg := (hall l).1
  have hseg' := (hall l').1
  rw [hseg] at hslot
  rw [hseg'] at hslot'
  obtain ⟨o, at₁, ho, hat, -, -, -, hfill⟩ := l.placed h hord hseg
  obtain ⟨o', at₂, ho', hat', -, -, -, hfill'⟩ := l'.placed h hord hseg'
  obtain rfl := Option.some.inj (hslot.symm.trans hat)
  obtain rfl := Option.some.inj (hslot'.symm.trans hat')
  obtain ⟨p, hp, hmeaning⟩ := (hall l).2 o slot ho hslot
  obtain ⟨p', hp', hmeaning'⟩ := (hall l').2 o' slot ho' hslot'
  -- The slot holds one word in each layout.
  have hpp : p = p' := by
    refine place_injective (fun _ _ => 0) (resolvefix_plain hp) (resolvefix_plain hp') fun L _ => ?_
    have heq := (hfill.linked L).symm.trans (hfill'.linked L)
    rw [hp, hp'] at heq
    exact Option.some.inj heq
  exact ⟨p, hmeaning, hpp ▸ hmeaning'⟩

/-- **When literal pools deliver the right values.** In a source that is assembled every load reaches an
    aligned slot in front of it that holds the value of its own expression behind the linker, and loads share
    slots only for equal expressions, just if all loads are in the text segment and agree with the operands
    that make their slots. -/
theorem literal_pools_exact (h : Assembled src σ) :
    ((∀ l : Load src, Delivers σ l) ∧ SharesEqual src σ) ↔ ∀ l : Load src, Agrees σ l := by
  constructor
  · intro hall l
    have htext : ∀ l : Load src, l.σ.segm = .stext := by
      intro l
      obtain ⟨slot, hslot, -⟩ := hall.1 l
      exact slotOf_some hslot
    exact (delivers_iff h (ordered_of_text h htext) l (htext l)).mp (hall.1 l)
  · intro hall
    have hord := ordered_of_text h fun l => (hall l).1
    exact ⟨fun l => (delivers_iff h hord l (hall l).1).mpr (hall l), shares_of_delivers h hall⟩

end

/-- `a` and `b` of the data segment, at 8 and 4. -/
def twoSymbols (i : Nat) : Nlist := ⟨.data, false, if i = 0 then 8 else 4⟩

/-- `ldr r0, =b`. -/
def loadB : Line := .load twoSymbols 0 (.term (.name 1))

/-- `ldr r0, =b` and `ldr r1, =a-b`. -/
def twoLoads : List Line := [loadB, .load twoSymbols 0 (.bin (.term (.name 0)) .sub (.name 1))]

theorem oneLoad_assembled : ∃ σ, Assembled [loadB] σ := ⟨_, _, rfl, rfl⟩

theorem literal_pools_one :
    ∃ σ, ((∀ l : Load [loadB], Delivers σ l) ∧ SharesEqual [loadB] σ) ↔ ∀ l : Load [loadB], Agrees σ l := by
  obtain ⟨σ, h⟩ := oneLoad_assembled
  exact ⟨σ, literal_pools_exact h⟩

/-- The difference 4 has the key of `b`, and so the address of `b`. -/
theorem twoLoads_wrong :
    ¬ ∀ (src : List Line) (σ : State), Assembled src σ →
      (∀ l : Load src, Delivers σ l) ∧ SharesEqual src σ := by
  intro hall
  have hdelivers := (hall twoLoads _ ⟨_, rfl, rfl⟩).1
    ⟨[loadB], twoSymbols, 0, .bin (.term (.name 0)) .sub (.name 1), [], _, _, _, rfl, rfl, rfl, rfl⟩
  obtain ⟨slot, hslot, -, -, -, hvalue⟩ := hdelivers
  have hfour : slot = 4 := (Option.some.inj hslot).symm
  subst hfour
  -- The data segment is put at 256.
  have hword := hvalue ⟨fun _ => 256, fun _ => 0, fun _ _ => 0⟩ (fun back n value h => by cases back <;> cases h)
  exact absurd hword (by decide)

end DiscoBSD.As
