import Mathlib
import DiscoBSD.As.Pass

/-!
# Numeric labels

`1b` is the last `1:` before it in its section and `1f` the next one. `labeltab` has the definitions of all
sections in the order of the file, with **their offsets only**, and `findlabel` compares these with the
address of the word or the instruction that is to be patched. So a definition of another section can stand
in the way, and so can one between a literal load and its pool.
-/

set_option autoImplicit false

namespace DiscoBSD.As

/-! ## Searching a list for one of two kinds -/

section
variable {α β : Type} {p own : α → Bool} {f : α → β}

/-- Going through the list, the first rival of the right one is behind it, or has the same value. -/
def Clear (p own : α → Bool) (f : α → β) (l : List α) : Prop :=
  ∀ xs r ys, l = xs ++ r :: ys → p r = true → own r = false → (∀ x ∈ xs, p x = true → own x = true) →
    (∃ x ∈ xs, own x = true) ∨ ∃ t, ys.find? own = some t ∧ f t = f r

/-- A search for more than the right ones finds the right value just if no rival stands in the way. -/
theorem find?_iff_clear (hsub : ∀ x, own x = true → p x = true) (l : List α) :
    (l.find? p).map f = (l.find? own).map f ↔ Clear p own f l := by
  induction l with
  | nil =>
    constructor
    · intro _ xs r ys h
      exact absurd h (by simp)
    · intro _
      rfl
  | cons a l ih =>
    by_cases hown : own a = true
    · -- The head is the one that both searches find.
      rw [List.find?_cons_of_pos hown, List.find?_cons_of_pos (hsub a hown)]
      constructor
      · intro _ xs r ys h _ hr _
        cases xs with
        | nil =>
          obtain ⟨rfl, _⟩ := List.cons.inj h
          rw [hown] at hr
          cases hr
        | cons x xs =>
          obtain ⟨rfl, _⟩ := List.cons.inj h
          exact .inl ⟨a, List.mem_cons_self, hown⟩
      · intro _
        rfl
    · have hown' : own a = false := by simpa using hown
      rw [List.find?_cons_of_neg hown]
      by_cases hp : p a = true
      · -- The head is a rival.
        rw [List.find?_cons_of_pos hp]
        constructor
        · intro heq xs r ys h hr hr' hxs
          cases xs with
          | nil =>
            obtain ⟨rfl, rfl⟩ := List.cons.inj h
            rw [Option.map_some, eq_comm, Option.map_eq_some_iff] at heq
            exact .inr heq
          | cons x xs =>
            obtain ⟨rfl, _⟩ := List.cons.inj h
            exact absurd (hxs a List.mem_cons_self hp) hown
        · intro hclear
          cases hclear [] a l rfl hp hown' (by simp) with
          | inl hx =>
            obtain ⟨x, hx, _⟩ := hx
            exact absurd hx (by simp)
          | inr ht =>
            obtain ⟨t, ht, heq⟩ := ht
            rw [ht, Option.map_some, Option.map_some, heq]
      · rw [List.find?_cons_of_neg hp, ih]
        constructor
        · intro hclear xs r ys h hr hr' hxs
          cases xs with
          | nil =>
            obtain ⟨rfl, _⟩ := List.cons.inj h
            exact absurd hr hp
          | cons x xs =>
            obtain ⟨rfl, rfl⟩ := List.cons.inj h
            cases hclear xs r ys rfl hr hr' fun x hx => hxs x (List.mem_cons_of_mem _ hx) with
            | inl hx =>
              obtain ⟨x, hx, hx'⟩ := hx
              exact .inl ⟨x, List.mem_cons_of_mem _ hx, hx'⟩
            | inr ht => exact .inr ht
        · intro hclear xs r ys h hr hr' hxs
          have hxs' : ∀ x ∈ a :: xs, p x = true → own x = true := by
            intro x hx hpx
            cases List.mem_cons.mp hx with
            | inl heq =>
              subst heq
              exact absurd hpx hp
            | inr hx => exact hxs x hx hpx
          cases hclear (a :: xs) r ys (by rw [h]; rfl) hr hr' hxs' with
          | inl hx =>
            obtain ⟨x, hx, hx'⟩ := hx
            cases List.mem_cons.mp hx with
            | inl heq =>
              subst heq
              exact absurd hx' hown
            | inr hx => exact .inl ⟨x, hx, hx'⟩
          | inr ht => exact .inr ht

end

/-! ## Definitions -/

/-- A definition of a numeric label, with its section. -/
structure Def where
  segm : Segm
  num : Nat
  value : Nat
  deriving DecidableEq, Repr

def Def.entry (d : Def) : Labeltab := ⟨d.num, d.value⟩

def newDefs (σ : State) : Stmt → List Def
  | .label num => [⟨σ.segm, num, σ.count σ.segm⟩]
  | _ => []

theorem newLabels_eq (σ : State) (s : Stmt) : newLabels σ s = (newDefs σ s).map Def.entry := by
  cases s <;> rfl

/-- The definitions of a source, in the order of the file. -/
def defs (σ : State) : List Stmt → List Def
  | [] => []
  | s :: src =>
    newDefs σ s ++
    match step σ s with
    | some σ => defs σ src
    | none => []

theorem defs_cons {σ σ₁ : State} {s : Stmt} {src : List Stmt} (h : step σ s = some σ₁) :
    defs σ (s :: src) = newDefs σ s ++ defs σ₁ src := by
  rw [defs, h]

/-- The table has them without their sections. -/
theorem run_labels {σ σ' : State} {src : List Stmt} (h : run σ src = some σ') :
    σ'.labels = σ.labels ++ (defs σ src).map Def.entry := by
  induction src generalizing σ with
  | nil =>
    cases h
    simp [defs]
  | cons s src ih =>
    obtain ⟨σ₁, hstep, hrest⟩ := run_cons_ok h
    rw [ih hrest, (step_grows hstep).2, defs_cons hstep, List.map_append, List.append_assoc, newLabels_eq]

theorem defs_append {σ σ₁ : State} {pre post : List Stmt} (h : run σ pre = some σ₁) :
    defs σ (pre ++ post) = defs σ pre ++ defs σ₁ post := by
  induction pre generalizing σ with
  | nil =>
    cases h
    rfl
  | cons s pre ih =>
    obtain ⟨σ₂, hstep, hrest⟩ := run_cons_ok h
    rw [List.cons_append, defs_cons hstep, defs_cons hstep, ih hrest, List.append_assoc]

/-- A definition is between what its section had before and what it has behind it. -/
theorem defs_bounds {σ σ' : State} {src : List Stmt} (h : run σ src = some σ') :
    ∀ d ∈ defs σ src, σ.count d.segm ≤ d.value ∧ d.value ≤ σ'.count d.segm := by
  induction src generalizing σ with
  | nil => exact nofun
  | cons s src ih =>
    obtain ⟨σ₁, hstep, hrest⟩ := run_cons_ok h
    have hgrows := (step_grows hstep).1
    have hgrows' := run_grows hrest
    intro d hd
    rw [defs_cons hstep] at hd
    cases List.mem_append.mp hd with
    | inl hnew =>
      cases s with
      | label num =>
        obtain rfl := List.mem_singleton.mp hnew
        have hle := (hgrows.trans hgrows').count σ.segm
        exact ⟨Nat.le_refl _, hle⟩
      | segment _ => cases hnew
      | emit _ => cases hnew
      | fix _ _ => cases hnew
      | literal _ => cases hnew
      | ltorg => cases hnew
    | inr hold =>
      obtain ⟨hlow, hhigh⟩ := ih hrest d hold
      exact ⟨Nat.le_trans (hgrows.count d.segm) hlow, hhigh⟩

/-! ## What a reference denotes -/

/-- A definition of the label in the section. -/
def Def.here (s : Segm) (n : Nat) (d : Def) : Bool := d.segm = s && d.num = n

/-- The definition that `Nb` or `Nf` denotes, from the definitions before and behind it. -/
def target (back : Bool) (n : Nat) (s : Segm) (before after : List Def) : Option Def :=
  if back then before.reverse.find? (Def.here s n) else after.find? (Def.here s n)

/-- When `findlabel` gives it to a reference that stands at `at` in section `s` and is patched at `addr`.
    Backward: going back from the end of the file, no other definition that is not above `addr` comes
    before the right one, or it has its offset. Forward: the right one is above `addr`, and going through
    the file no other definition above `addr` comes before it, or it has its offset. Label 0 is searched
    forward in either case, so that `0b` is right only where both ways find nothing. -/
def Suits (back : Bool) (n : Nat) (s : Segm) (pos addr : Nat) (before after : List Def) : Prop :=
  let all := before ++ after
  if back then
    if n = 0 then
      target true 0 s before after = none ∧ ∀ d ∈ all, d.num = 0 → d.value ≤ addr
    else
      Clear (fun d => decide (d.num = n ∧ d.value ≤ addr))
        (fun d => d.here s n && decide (d.value ≤ pos)) Def.value all.reverse
  else
    (∀ t, target false n s before after = some t → addr < t.value) ∧
    Clear (fun d => decide (d.num = n ∧ addr < d.value))
      (fun d => d.here s n && decide (pos < d.value) && decide (addr < d.value)) Def.value all

/-- The label number in a fixup. -/
def symOf (back : Bool) (n : Nat) : Int := if back then -n else n

theorem find?_map_entry (l : List Def) (q : Labeltab → Bool) :
    ((l.map Def.entry).find? q).map Labeltab.value = (l.find? fun d => q d.entry).map Def.value := by
  rw [List.find?_map, Option.map_map]
  rfl

theorem findlabel_forward (all : List Def) (addr n : Nat) :
    findlabel (all.map Def.entry) addr n =
      (all.find? fun d => decide (d.num = n ∧ addr < d.value)).map Def.value := by
  unfold findlabel
  rw [if_neg (by omega), find?_map_entry]
  congr 2
  funext d
  apply decide_eq_decide.mpr
  simp only [Def.entry]
  omega

theorem findlabel_back (all : List Def) {addr n : Nat} (hn : n ≠ 0) :
    findlabel (all.map Def.entry) addr (-n) =
      (all.reverse.find? fun d => decide (d.num = n ∧ d.value ≤ addr)).map Def.value := by
  unfold findlabel
  rw [if_pos (by omega), ← List.map_reverse, find?_map_entry]
  congr 2
  funext d
  apply decide_eq_decide.mpr
  simp only [Def.entry]
  omega

section
variable {n pos addr : Nat} {s : Segm} {before after : List Def}

/-- Going back from the end of the file, the definitions behind the reference are passed over. -/
theorem target_back (hbefore : ∀ d ∈ before, d.segm = s → d.value ≤ pos)
    (hafter : ∀ d ∈ after, d.segm = s → pos < d.value) :
    target true n s before after =
      (before ++ after).reverse.find? fun d => d.here s n && decide (d.value ≤ pos) := by
  have hnone : after.reverse.find? (fun d => d.here s n && decide (d.value ≤ pos)) = none := by
    rw [List.find?_eq_none]
    intro d hd hown
    simp only [Def.here, Bool.and_eq_true, decide_eq_true_eq] at hown
    have hlt := hafter d (List.mem_reverse.mp hd) hown.1.1
    omega
  rw [List.reverse_append, List.find?_append, hnone, Option.none_or, target, if_pos rfl]
  apply List.find?_congr
  intro d hd
  have hle := hbefore d (List.mem_reverse.mp hd)
  by_cases hseg : d.segm = s
  · simp [Def.here, hseg, hle hseg]
  · simp [Def.here, hseg]

/-- Going through the file, so are the ones before it. -/
theorem target_forward (hbefore : ∀ d ∈ before, d.segm = s → d.value ≤ pos)
    (hafter : ∀ d ∈ after, d.segm = s → pos < d.value) :
    target false n s before after =
      (before ++ after).find? fun d => d.here s n && decide (pos < d.value) := by
  have hnone : before.find? (fun d => d.here s n && decide (pos < d.value)) = none := by
    rw [List.find?_eq_none]
    intro d hd hown
    simp only [Def.here, Bool.and_eq_true, decide_eq_true_eq] at hown
    have hle := hbefore d hd hown.1.1
    omega
  rw [List.find?_append, hnone, Option.none_or, target, if_neg Bool.false_ne_true]
  apply List.find?_congr
  intro d hd
  have hlt := hafter d hd
  by_cases hseg : d.segm = s
  · simp [Def.here, hseg, hlt hseg]
  · simp [Def.here, hseg]

/-- The first definition above `addr` is the right one if that is above `addr`. -/
theorem find?_above {l : List Def} {own : Def → Bool}
    (h : ∀ t, l.find? own = some t → addr < t.value) :
    l.find? (fun d => own d && decide (addr < d.value)) = l.find? own := by
  induction l with
  | nil => rfl
  | cons d l ih =>
    by_cases hown : own d = true
    · have habove := h d (List.find?_cons_of_pos hown)
      rw [List.find?_cons_of_pos hown, List.find?_cons_of_pos (by simp [hown, habove])]
    · rw [List.find?_cons_of_neg hown] at h ⊢
      rw [List.find?_cons_of_neg (by simp [hown]), ih h]

/-- **What `findlabel` finds.** -/
theorem findlabel_iff {back : Bool} (hpos : pos ≤ addr)
    (hbefore : ∀ d ∈ before, d.segm = s → d.value ≤ pos)
    (hafter : ∀ d ∈ after, d.segm = s → pos < d.value) :
    findlabel ((before ++ after).map Def.entry) addr (symOf back n) =
        (target back n s before after).map Def.value ↔
      Suits back n s pos addr before after := by
  unfold Suits
  cases back with
  | true =>
    rw [if_pos rfl]
    by_cases hn : n = 0
    · rw [if_pos hn]
      subst hn
      have hsym : symOf true 0 = ((0 : Nat) : Int) := rfl
      rw [hsym, findlabel_forward]
      constructor
      · intro heq
        have hnone : target true 0 s before after = none := by
          cases htarget : target true 0 s before after with
          | none => rfl
          | some t =>
            -- What the search finds is above the reference, and the right one is not.
            rw [htarget, Option.map_some, Option.map_eq_some_iff] at heq
            obtain ⟨d, hd, hvalue⟩ := heq
            have habove := List.find?_some hd
            rw [target_back hbefore hafter] at htarget
            have hbelow := List.find?_some htarget
            simp only [Bool.and_eq_true, decide_eq_true_eq] at habove hbelow
            omega
        refine ⟨hnone, ?_⟩
        rw [hnone, Option.map_none, Option.map_eq_none_iff, List.find?_eq_none] at heq
        intro d hd hzero
        have hno := heq d hd
        simp only [decide_eq_true_eq] at hno
        omega
      · intro h
        rw [h.1, Option.map_none, Option.map_eq_none_iff, List.find?_eq_none]
        intro d hd
        have hle := h.2 d hd
        simp only [decide_eq_true_eq]
        omega
    · rw [if_neg hn, show symOf true n = -(n : Int) from rfl, findlabel_back _ hn,
        target_back hbefore hafter]
      apply find?_iff_clear
      intro d hd
      simp only [Def.here, Bool.and_eq_true, decide_eq_true_eq] at hd ⊢
      omega
  | false =>
    rw [if_neg Bool.false_ne_true, show symOf false n = (n : Int) from rfl, findlabel_forward]
    have hsub : ∀ d : Def, (d.here s n && decide (pos < d.value) && decide (addr < d.value)) = true →
        decide (d.num = n ∧ addr < d.value) = true := by
      intro d hd
      simp only [Def.here, Bool.and_eq_true, decide_eq_true_eq] at hd ⊢
      exact ⟨hd.1.1.2, hd.2⟩
    have hclear := find?_iff_clear (f := Def.value) hsub (before ++ after)
    rw [target_forward hbefore hafter]
    constructor
    · intro heq
      have habove : ∀ t, (before ++ after).find? (fun d => d.here s n && decide (pos < d.value)) = some t →
          addr < t.value := by
        intro t ht
        rw [ht, Option.map_some, Option.map_eq_some_iff] at heq
        obtain ⟨d, hd, hvalue⟩ := heq
        have hgt := List.find?_some hd
        simp only [decide_eq_true_eq] at hgt
        omega
      refine ⟨habove, hclear.mp ?_⟩
      rw [heq, find?_above habove]
    · intro h
      rw [hclear.mpr h.2, find?_above h.1]

end

/-! ## References -/

/-- `Nb` or `Nf` as the operand of a statement. -/
structure Refers (o : Operand) (back : Bool) (n : Nat) : Prop where
  segment : o.segment = .sext
  index : relative back n = some o.index

theorem Refers.label {o : Operand} {back : Bool} {n : Nat} (h : Refers o back n) (labels : List Labeltab)
    (addr : Nat) (addend : Word) :
    labelAddress labels ⟨o.segment, addr, o.index, addend⟩ = findlabel labels addr (symOf back n) := by
  have hindex := h.index
  unfold relative at hindex
  simp only at hindex
  split at hindex
  · cases hindex
  · rename_i hmax
    unfold labelAddress
    have hval : rlabMaxval = 1000000 := rfl
    have hoff : rlabOffset = 8388608 := rfl
    cases back with
    | true =>
      have hidx : rlabOffset - n = o.index := by simpa using hindex
      dsimp only
      rw [if_pos ⟨h.segment, by omega⟩]
      congr 1
      rw [show symOf true n = -(n : Int) from rfl]
      omega
    | false =>
      have hidx : rlabOffset + n = o.index := by simpa using hindex
      dsimp only
      rw [if_pos ⟨h.segment, by omega⟩]
      congr 1
      rw [show symOf false n = (n : Int) from rfl]
      omega

/-- The state where a statement stands, and the one behind it. -/
theorem pass1_split {pre post : List Stmt} {s : Stmt} {σ : State} (h : pass1 (pre ++ s :: post) = some σ) :
    ∃ σ₁ σ₂ σ₃, run rescan pre = some σ₁ ∧ step σ₁ s = some σ₂ ∧ run σ₂ post = some σ₃ ∧
      ltorg { σ₃ with segm := .stext } = some σ := by
  obtain ⟨σ₃, hrun, hlast⟩ := Option.bind_eq_some_iff.mp h
  rw [run_append] at hrun
  obtain ⟨σ₁, hpre, hrest⟩ := Option.bind_eq_some_iff.mp hrun
  obtain ⟨σ₂, hstep, hpost⟩ := run_cons_ok hrest
  exact ⟨σ₁, σ₂, σ₃, hpre, hstep, hpost, hlast⟩

/-- A reference that stands at the count of its segment and is patched at `addr`. -/
theorem reference_iff {pre post : List Stmt} {s : Stmt} {σ σ₁ σ₂ σ₃ : State} (hpre : run rescan pre = some σ₁)
    (hstep : step σ₁ s = some σ₂) (hpost : run σ₂ post = some σ₃)
    (hlast : ltorg { σ₃ with segm := .stext } = some σ) (hnew : newDefs σ₁ s = [])
    (hgrow : σ₁.count σ₁.segm < σ₂.count σ₁.segm) {addr : Nat} (haddr : σ₁.count σ₁.segm ≤ addr)
    (back : Bool) (n : Nat) :
    findlabel σ.labels addr (symOf back n) =
        (target back n σ₁.segm (defs rescan pre) (defs σ₁ (s :: post))).map Def.value ↔
      Suits back n σ₁.segm (σ₁.count σ₁.segm) addr (defs rescan pre) (defs σ₁ (s :: post)) := by
  have hlabels : σ.labels = (defs rescan pre ++ defs σ₁ (s :: post)).map Def.entry := by
    have hrun : run rescan (pre ++ s :: post) = some σ₃ := by
      rw [run_append, hpre, Option.bind_some, run_cons, hstep, Option.bind_some, hpost]
    rw [(ltorg_grows hlast).2, ← defs_append hpre]
    exact run_labels hrun
  have hafter : defs σ₁ (s :: post) = defs σ₂ post := by rw [defs_cons hstep, hnew, List.nil_append]
  rw [hlabels]
  apply findlabel_iff haddr
  · intro d hd hseg
    have hbound := (defs_bounds hpre d hd).2
    rwa [hseg] at hbound
  · intro d hd hseg
    rw [hafter] at hd
    have hbound := (defs_bounds hpost d hd).1
    rw [hseg] at hbound
    omega

/-! ## The pool -/

/-- The first reference that is left for `resolvefix` at an address of the text segment. -/
def State.fixupAt (σ : State) (slot : Nat) : Option Fixup :=
  (σ.fixups .stext).find? fun fx => fx.addr = slot

def State.wordAt (σ : State) (slot : Nat) : Option Word :=
  (σ.words.find? fun w => w.1 = slot).map Prod.snd

def Operand.fixup (e : Operand) (slot : Nat) : Fixup := ⟨e.segment, slot, e.index, e.value⟩

/-- The slot of an operand: its value, or 0 with a reference. -/
structure Slot (σ : State) (e : Operand) (slot : Nat) : Prop where
  below : slot < σ.count .stext
  fixup : σ.fixupAt slot = if e.segment = .sabs then none else some (e.fixup slot)
  word : σ.wordAt slot = some (if e.segment = .sabs then e.value else 0)

/-- What comes behind an address changes nothing there. -/
theorem find?_append_above {α : Type} {f : α → Nat} {l new : List α} {slot bound : Nat} (hslot : slot < bound)
    (h : ∀ x ∈ new, bound ≤ f x) :
    (l ++ new).find? (fun x => decide (f x = slot)) = l.find? fun x => decide (f x = slot) := by
  have hnone : new.find? (fun x => decide (f x = slot)) = none := by
    rw [List.find?_eq_none]
    intro x hx hf
    have hle := h x hx
    simp only [decide_eq_true_eq] at hf
    omega
  rw [List.find?_append, hnone, Option.or_none]

theorem Slot.grows {σ σ' : State} {e : Operand} {slot : Nat} (h : Slot σ e slot) (hgrows : Grows σ σ') :
    Slot σ' e slot where
  below := Nat.lt_of_lt_of_le h.below (hgrows.count .stext)
  fixup := by
    obtain ⟨new, hnew, hbound⟩ := hgrows.fixups .stext
    rw [← h.fixup, State.fixupAt, hnew]
    exact find?_append_above h.below fun fx hfx => (hbound fx hfx).1
  word := by
    obtain ⟨new, hnew, hbound⟩ := hgrows.words
    rw [← h.word, State.wordAt, hnew]
    exact congrArg _ (find?_append_above h.below fun w hw => (hbound w hw).1)

/-- The slots of a pool are apart. -/
theorem find?_zipIdx {α β : Type} {start i : Nat} {pool : List α} {e : α} (hpool : pool[i]? = some e)
    (f : α × Nat → Option β) (addr : β → Nat)
    (haddr : ∀ e j x, f (e, j) = some x → addr x = start + 4 * j) :
    (pool.zipIdx.filterMap f).find? (fun x => decide (addr x = start + 4 * i)) = f (e, i) := by
  have hmem : (e, i) ∈ pool.zipIdx := List.mem_zipIdx_iff_getElem?.mpr hpool
  have hsame : ∀ x ∈ pool.zipIdx.filterMap f, decide (addr x = start + 4 * i) = true → f (e, i) = some x := by
    intro x hx heq
    obtain ⟨⟨e', j⟩, hmem', hx⟩ := List.mem_filterMap.mp hx
    have hj := haddr e' j x hx
    rw [decide_eq_true_eq] at heq
    obtain rfl : j = i := by omega
    have he' := List.mem_zipIdx_iff_getElem?.mp hmem'
    obtain rfl : e' = e := Option.some.inj (he'.symm.trans hpool)
    exact hx
  cases hf : f (e, i) with
  | none =>
    rw [List.find?_eq_none]
    intro x hx heq
    rw [hsame x hx heq] at hf
    cases hf
  | some x =>
    have hfound : ∃ y, (pool.zipIdx.filterMap f).find? (fun x => decide (addr x = start + 4 * i)) = some y :=
      Option.isSome_iff_exists.mp (List.find?_isSome.mpr
        ⟨x, List.mem_filterMap.mpr ⟨_, hmem, hf⟩, decide_eq_true (haddr e i x hf)⟩)
    obtain ⟨y, hy⟩ := hfound
    have heq := List.find?_some hy
    rw [hy, ← hsame y (List.mem_of_find?_eq_some hy) heq, hf]

/-- What a pool puts in its slots. -/
theorem slot_of_pool {σ : State} {i : Nat} {e : Operand} (hpool : σ.pool[i]? = some e) (hbelow : Grows rescan σ) :
    ((σ.fixups .stext ++ slotFixups σ.poolStart σ.pool).find? fun fx => decide (fx.addr = σ.poolStart + 4 * i)) =
      (if e.segment = .sabs then none else some (e.fixup (σ.poolStart + 4 * i))) ∧
    ((σ.words ++ slotWords σ.poolStart σ.pool).find? fun w => decide (w.1 = σ.poolStart + 4 * i)) =
      some (σ.poolStart + 4 * i, if e.segment = .sabs then e.value else 0) := by
  obtain ⟨hfixups, hwords⟩ := hbelow.below
  have hle := poolStart_le σ
  constructor
  · have hnone : (σ.fixups .stext).find? (fun fx => decide (fx.addr = σ.poolStart + 4 * i)) = none := by
      rw [List.find?_eq_none]
      intro fx hfx heq
      have hlt := hfixups .stext fx hfx
      rw [decide_eq_true_eq] at heq
      omega
    rw [List.find?_append, hnone, Option.none_or]
    refine find?_zipIdx hpool _ Fixup.addr ?_
    intro e j x hx
    simp only at hx
    split at hx
    · cases hx
    · cases hx
      rfl
  · have hnone : σ.words.find? (fun w => decide (w.1 = σ.poolStart + 4 * i)) = none := by
      rw [List.find?_eq_none]
      intro w hw heq
      have hlt := hwords w hw
      rw [decide_eq_true_eq] at heq
      omega
    rw [List.find?_append, hnone, Option.none_or, slotWords, ← List.filterMap_eq_map]
    refine find?_zipIdx hpool _ Prod.fst ?_
    intro e j x hx
    cases hx
    rfl

/-- A load waits for the slot of an operand. -/
def Pending (σ : State) (ref : Nat) (e : Operand) : Prop :=
  ∃ i, (⟨ref, i⟩ : Poolref) ∈ σ.poolrefs ∧ σ.pool[i]? = some e

/-- It has been patched, and the slot is within its reach. -/
def Placed (σ : State) (ref : Nat) (e : Operand) (low : Nat) : Prop :=
  ∃ slot, low ≤ slot ∧ (ref, slot) ∈ σ.loads ∧ slot % 4 = 0 ∧ 0 ≤ disp ref slot ∧ disp ref slot ≤ 1020 ∧
    Slot σ e slot

theorem Placed.grows {σ σ' : State} {ref low : Nat} {e : Operand} (h : Placed σ ref e low)
    (hgrows : Grows σ σ') : Placed σ' ref e low := by
  obtain ⟨slot, hlow, hload, halign, hfirst, hlast, hslot⟩ := h
  exact ⟨slot, hlow, hgrows.loads hload, halign, hfirst, hlast, hslot.grows hgrows⟩

theorem Pending.ltorg {σ σ' : State} {ref low : Nat} {e : Operand} (h : Pending σ ref e)
    (hlow : low ≤ σ.count .stext) (hstart : Grows rescan σ) (hrun : ltorg σ = some σ') : Placed σ' ref e low := by
  obtain ⟨i, href, hpool⟩ := h
  cases ltorg_ok hrun with
  | inl hempty =>
    rw [hempty.1] at hpool
    cases hpool
  | inr hfull =>
    obtain ⟨_, hreach, rfl⟩ := hfull
    obtain ⟨hfixup, hword⟩ := slot_of_pool hpool hstart
    have hi := (List.getElem?_eq_some_iff.mp hpool).1
    refine ⟨σ.poolStart + 4 * i, ?_, ?_, ?_, (hreach _ href).1, (hreach _ href).2, ?_, ?_, ?_⟩
    · have hle := poolStart_le σ
      omega
    · exact List.mem_append_right _ (List.mem_map.mpr ⟨_, href, rfl⟩)
    · unfold State.poolStart
      omega
    · simp only [Function.update_self]
      omega
    · rw [← hfixup, ← emitfix_at]
      rfl
    · rw [State.wordAt, hword]
      rfl

theorem Pending.step {σ σ' : State} {s : Stmt} {ref low : Nat} {e : Operand} (h : Pending σ ref e)
    (hlow : low ≤ σ.count .stext) (hstart : Grows rescan σ) (hstep : step σ s = some σ') :
    Pending σ' ref e ∨ Placed σ' ref e low := by
  have hkeep := h
  obtain ⟨i, href, hpool⟩ := h
  cases s with
  | label num =>
    simp only [As.step] at hstep
    split at hstep
    · cases hstep
    · cases hstep
      exact .inl hkeep
  | segment s =>
    cases hstep
    exact .inl hkeep
  | emit n =>
    cases hstep
    exact .inl hkeep
  | fix o wide =>
    simp only [As.step] at hstep
    split at hstep
    · cases hstep
    · cases hstep
      exact .inl hkeep
  | literal o =>
    simp only [As.step] at hstep
    split at hstep
    · cases hstep
    · rw [poolref_ok hstep]
      refine .inl ⟨i, List.mem_append_left _ href, ?_⟩
      -- A new slot comes behind the ones that are pending.
      dsimp only
      split
      · have hlt := (List.getElem?_eq_some_iff.mp hpool).1
        rw [advance_pool, List.getElem?_append_left hlt]
        exact hpool
      · exact hpool
  | ltorg => exact .inr (hkeep.ltorg hlow hstart hstep)

theorem Pending.run {σ σ' : State} {src : List Stmt} {ref low : Nat} {e : Operand} (h : Pending σ ref e)
    (hlow : low ≤ σ.count .stext) (hstart : Grows rescan σ) (hrun : run σ src = some σ') :
    Pending σ' ref e ∨ Placed σ' ref e low := by
  induction src generalizing σ with
  | nil =>
    cases hrun
    exact .inl h
  | cons s src ih =>
    obtain ⟨σ₁, hstep, hrest⟩ := run_cons_ok hrun
    have hgrows := (step_grows hstep).1
    cases h.step hlow hstart hstep with
    | inl hpending =>
      exact ih hpending (Nat.le_trans hlow (hgrows.count .stext)) (hstart.trans hgrows) hrest
    | inr hplaced => exact .inr (hplaced.grows (run_grows hrest))

/-- A change of the segment. -/
theorem Grows.segment {σ σ' : State} (h : Grows σ σ') (s : Segm) : Grows σ { σ' with segm := s } :=
  h.trans (.of_same (fun _ => Nat.le_refl _) rfl rfl rfl)

/-- What becomes of a load: it gets the slot at an `.ltorg` behind it, or at the end of the source. -/
theorem Pending.last {σ₂ σ₃ σ : State} {post : List Stmt} {ref low : Nat} {e : Operand} (h : Pending σ₂ ref e)
    (hlow : low ≤ σ₂.count .stext) (hstart : Grows rescan σ₂) (hpost : As.run σ₂ post = some σ₃)
    (hlast : As.ltorg { σ₃ with segm := .stext } = some σ) : Placed σ ref e low := by
  have hgrows := run_grows hpost
  cases h.run hlow hstart hpost with
  | inl hstill =>
    have hlow := Nat.le_trans hlow (hgrows.count .stext)
    exact Pending.ltorg (σ := { σ₃ with segm := .stext }) hstill hlow ((hstart.trans hgrows).segment .stext) hlast
  | inr hdone =>
    have hsame : Grows σ₃ { σ₃ with segm := .stext } := (Grows.refl σ₃).segment .stext
    exact (hdone.grows hsame).grows (ltorg_grows hlast).1

/-- The operand of the slot that a load gets: the first pending one with the same key, or its own. -/
theorem poolref_pending {σ σ' : State} {o : Operand} {ref : Nat} (h : poolref σ o ref = some σ') :
    Pending σ' ref ((σ.pool.find? o.sameKey).getD o) := by
  rw [poolref_ok h]
  refine ⟨σ.pool.findIdx o.sameKey, List.mem_append_right _ (List.mem_singleton.mpr rfl), ?_⟩
  dsimp only
  split
  · rename_i hnone
    have hfind : σ.pool.find? o.sameKey = none := by
      rw [List.find?_eq_none]
      intro e he hkey
      exact absurd (List.findIdx_lt_length_of_exists ⟨e, he, hkey⟩) (by omega)
    rw [hfind, hnone]
    simp
  · rename_i hsome
    have hlt : σ.pool.findIdx o.sameKey < σ.pool.length :=
      Nat.lt_of_le_of_ne (List.findIdx_le_length) hsome
    have hfind : σ.pool.find? o.sameKey = some (σ.pool[σ.pool.findIdx o.sameKey]) := by
      rw [List.find?_eq_getElem?_findIdx]
      exact List.getElem?_eq_getElem hlt
    rw [hfind, Option.getD_some]
    exact List.getElem?_eq_getElem hlt

/-! ## The condition -/

/-- A direct reference: it is patched where it stands. -/
theorem fix_iff {pre post : List Stmt} {o : Operand} {wide back : Bool} {n : Nat} {σ : State}
    (h : Refers o back n) (hrun : pass1 (pre ++ .fix o wide :: post) = some σ) :
    ∃ σ₁ fx, run rescan pre = some σ₁ ∧ fx ∈ σ.fixups σ₁.segm ∧ fx.addr = σ₁.count σ₁.segm ∧
      (labelAddress σ.labels fx =
          (target back n σ₁.segm (defs rescan pre) (defs σ₁ (.fix o wide :: post))).map Def.value ↔
        Suits back n σ₁.segm (σ₁.count σ₁.segm) fx.addr (defs rescan pre) (defs σ₁ (.fix o wide :: post))) := by
  obtain ⟨σ₁, σ₂, σ₃, hpre, hstep, hpost, hlast⟩ := pass1_split hrun
  have hstep' := hstep
  simp only [step] at hstep'
  split at hstep'
  · cases hstep'
  · have hσ₂ := Option.some.inj hstep'
    refine ⟨σ₁, ⟨o.segment, σ₁.count σ₁.segm, o.index, o.value⟩, hpre, ?_, rfl, ?_⟩
    · have hin : (⟨o.segment, σ₁.count σ₁.segm, o.index, o.value⟩ : Fixup) ∈ σ₂.fixups σ₁.segm := by
        rw [← hσ₂, advance_fixups]
        exact emitfix_at σ₁ σ₁.segm _ ▸ List.mem_append_right _ (List.mem_singleton.mpr rfl)
      exact (ltorg_grows hlast).1.mem_fixups ((run_grows hpost).mem_fixups hin)
    · rw [h.label]
      refine reference_iff hpre hstep hpost hlast rfl ?_ (Nat.le_refl _) back n
      rw [← hσ₂, advance_at (s := σ₁.segm) (show (σ₁.emitfix σ₁.segm _).segm = σ₁.segm from rfl)]
      have hpos : 0 < if wide then 4 else 2 := by split <;> decide
      exact Nat.lt_add_of_pos_right hpos

/-- A literal load of the text segment, the slot of which was made for the same label: the reference is
    patched in the pool. -/
theorem literal_iff {pre post : List Stmt} {o : Operand} {back : Bool} {n : Nat} {σ σ₁ : State}
    (h : Refers o back n) (hrun : pass1 (pre ++ .literal o :: post) = some σ)
    (hpre : run rescan pre = some σ₁) (hseg : σ₁.segm = .stext)
    (hslot : ∀ e, σ₁.pool.find? o.sameKey = some e → Refers e back n) :
    ∃ fx, fx ∈ σ.fixups .stext ∧ (σ₁.count .stext, fx.addr) ∈ σ.loads ∧
      (labelAddress σ.labels fx =
          (target back n .stext (defs rescan pre) (defs σ₁ (.literal o :: post))).map Def.value ↔
        Suits back n .stext (σ₁.count .stext) fx.addr (defs rescan pre) (defs σ₁ (.literal o :: post))) := by
  obtain ⟨σ₁', σ₂, σ₃, hpre', hstep, hpost, hlast⟩ := pass1_split hrun
  obtain rfl : σ₁' = σ₁ := Option.some.inj (hpre'.symm.trans hpre)
  have hstep' := hstep
  simp only [step] at hstep'
  split at hstep'
  · cases hstep'
  · have hpending := poolref_pending hstep'
    have hσ₂ := poolref_ok hstep'
    rw [hseg] at hpending
    have hgrow : σ₁'.count .stext < σ₂.count .stext := by
      rw [hσ₂, advance_at hseg]
      omega
    have he : Refers (((σ₁'.advance 2).pool.find? o.sameKey).getD o) back n := by
      cases hfind : (σ₁'.advance 2).pool.find? o.sameKey with
      | none => exact h
      | some e => exact hslot e hfind
    have hstart := (run_grows hpre).trans (step_grows hstep).1
    obtain ⟨slot, hlow, hload, -, -, -, hslot⟩ := hpending.last (Nat.le_of_lt hgrow) hstart hpost hlast
    have hfix := hslot.fixup
    rw [if_neg (by rw [he.segment]; rintro ⟨⟩)] at hfix
    refine ⟨_, List.mem_of_find?_eq_some hfix, hload, ?_⟩
    · rw [Operand.fixup, he.label]
      have hiff := reference_iff hpre hstep hpost hlast rfl (by rwa [hseg])
        (show σ₁'.count σ₁'.segm ≤ slot from hseg.symm ▸ hlow) back n
      rw [hseg] at hiff
      exact hiff

/-- **When a numeric label is the right one.** A reference that is left for `resolvefix` where it stands,
    and a literal load of the text segment that does not get the slot of another operand, find the
    definition they denote, or none if there is none, just if nothing stands in the way. -/
theorem numeric_labels_exact {o : Operand} {back : Bool} {n : Nat} (h : Refers o back n)
    (pre post : List Stmt) (wide : Bool) (σ : State) :
    (pass1 (pre ++ .fix o wide :: post) = some σ →
      ∃ σ₁ fx, run rescan pre = some σ₁ ∧ fx ∈ σ.fixups σ₁.segm ∧ fx.addr = σ₁.count σ₁.segm ∧
        (labelAddress σ.labels fx =
            (target back n σ₁.segm (defs rescan pre) (defs σ₁ (.fix o wide :: post))).map Def.value ↔
          Suits back n σ₁.segm (σ₁.count σ₁.segm) fx.addr (defs rescan pre)
            (defs σ₁ (.fix o wide :: post)))) ∧
    (pass1 (pre ++ .literal o :: post) = some σ →
      ∀ σ₁, run rescan pre = some σ₁ → σ₁.segm = .stext →
        (∀ e, σ₁.pool.find? o.sameKey = some e → Refers e back n) →
        ∃ fx, fx ∈ σ.fixups .stext ∧ (σ₁.count .stext, fx.addr) ∈ σ.loads ∧
          (labelAddress σ.labels fx =
              (target back n .stext (defs rescan pre) (defs σ₁ (.literal o :: post))).map Def.value ↔
            Suits back n .stext (σ₁.count .stext) fx.addr (defs rescan pre)
              (defs σ₁ (.literal o :: post)))) :=
  ⟨fun hrun => fix_iff h hrun, fun hrun _ hpre hseg hslot => literal_iff h hrun hpre hseg hslot⟩

/-- `1b`, with `expr_symbol` at its start value. -/
def oneBack : Operand := ⟨0, .sext, rlabOffset - 1, -1, 0⟩

theorem oneBack_refers : Refers oneBack true 1 := ⟨rfl, rfl⟩

/-- `nop`, `1: nop`, and in the data segment `1: .word 0`, before `b 1b` in the text segment. -/
def clash : List Stmt := [.emit 2, .label 1, .emit 2, .segment .sdata, .label 1, .emit 4, .segment .stext]

theorem clash_runs : ∃ σ, pass1 (clash ++ .fix oneBack false :: []) = some σ := ⟨_, rfl⟩

theorem numeric_labels_clash :
    ∃ (σ σ₁ : State) (fx : Fixup), run rescan clash = some σ₁ ∧ fx ∈ σ.fixups σ₁.segm ∧ fx.addr = σ₁.count σ₁.segm ∧
      (labelAddress σ.labels fx =
          (target true 1 σ₁.segm (defs rescan clash) (defs σ₁ [.fix oneBack false])).map Def.value ↔
        Suits true 1 σ₁.segm (σ₁.count σ₁.segm) fx.addr (defs rescan clash) (defs σ₁ [.fix oneBack false])) := by
  obtain ⟨σ, hrun⟩ := clash_runs
  obtain ⟨σ₁, fx, hfx⟩ := (numeric_labels_exact oneBack_refers clash [] false σ).1 hrun
  exact ⟨σ, σ₁, fx, hfx⟩

/-- The branch goes to offset 0, the offset of the label in the data segment, and not to offset 2. -/
theorem clash_wrong :
    ¬ ∀ (pre post : List Stmt) (o : Operand) (wide back : Bool) (n : Nat) (σ σ₁ : State) (fx : Fixup),
      Refers o back n → pass1 (pre ++ .fix o wide :: post) = some σ → run rescan pre = some σ₁ →
      fx ∈ σ.fixups σ₁.segm → fx.addr = σ₁.count σ₁.segm →
      labelAddress σ.labels fx =
        (target back n σ₁.segm (defs rescan pre) (defs σ₁ (.fix o wide :: post))).map Def.value := by
  intro hall
  have hwrong := hall clash [] oneBack false true 1 _ _ ⟨.sext, 4, rlabOffset - 1, 0⟩ oneBack_refers rfl rfl
    (List.mem_singleton.mpr rfl) rfl
  have hcode : labelAddress [⟨1, 2⟩, ⟨1, 0⟩] ⟨.sext, 4, rlabOffset - 1, 0⟩ = some 0 := by rfl
  exact absurd (hcode.symm.trans hwrong) (by decide)

end DiscoBSD.As
