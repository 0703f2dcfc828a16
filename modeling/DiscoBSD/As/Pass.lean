import Mathlib

/-!
# The addresses of the assembler

What `usr.bin/as/as-thumb.c` keeps of addresses when it reads the source for the second time: the count of
each segment, the table of numeric labels, the references that are left for `resolvefix`, and the literal
pool. A statement is **what it does to these**: the bytes it emits and the operand that `getexpr` has read
for it.
-/

set_option autoImplicit false

namespace DiscoBSD.As

/-- `unsigned`. -/
abbrev Word := BitVec 32

/-- The segments that are assembled into. -/
inductive Segm where
  | stext
  | sdata
  | sbss
  | sstrng
  deriving DecidableEq, Repr

/-- The segment of an expression. -/
inductive Base where
  | sext
  | sabs
  | seg (s : Segm)
  deriving DecidableEq, Repr

/-- What `getexpr` leaves: the value, its segment and `extref`, and the two parts of the key of a literal
    pool slot, `expr_symbol` and the value without `expr_symval`. -/
structure Operand where
  value : Word
  segment : Base
  index : Nat
  keysym : Int
  keyval : Word
  deriving DecidableEq, Repr

/-! ## Numeric labels -/

def rlabOffset : Nat := 2 ^ 23

def rlabMaxval : Nat := 1000000

/-- `MAXRLAB`. -/
def maxRlab : Nat := 200

/-- An entry of `labeltab`. -/
structure Labeltab where
  num : Nat
  value : Nat
  deriving DecidableEq, Repr

/-- `Nb` and `Nf` in `getterm`: `extref`, unless the label is too large. -/
def relative (back : Bool) (intval : Nat) : Option Nat :=
  let extref := if back then rlabOffset - intval else rlabOffset + intval
  if rlabMaxval ≤ intval then none else some extref

/-- The value `findlabel` returns, and `none` for its errors. -/
def findlabel (labels : List Labeltab) (addr : Nat) (sym : Int) : Option Nat :=
  if sym < 0 then
    (labels.reverse.find? fun p => decide (p.value ≤ addr ∧ (p.num : Int) = -sym)).map Labeltab.value
  else (labels.find? fun p => decide (addr < p.value ∧ (p.num : Int) = sym)).map Labeltab.value

/-! ## Statements -/

/-- A reference for `resolvefix`, as `emitfix` records it in the scratch file of its segment. -/
structure Fixup where
  segment : Base
  addr : Nat
  index : Nat
  addend : Word
  deriving DecidableEq, Repr

/-- A load that waits for its slot. -/
structure Poolref where
  ref : Nat
  ent : Nat
  deriving DecidableEq, Repr

/-- `MAXPOOL`. -/
def maxPool : Nat := 128

structure State where
  segm : Segm
  count : Segm → Nat
  labels : List Labeltab
  fixups : Segm → List Fixup
  pool : List Operand
  poolrefs : List Poolref
  /-- The loads that have been patched, with the addresses of their slots. -/
  loads : List (Nat × Nat)
  /-- The words that are written for the slots, with their addresses. -/
  words : List (Nat × Word)

inductive Stmt where
  /-- `N:`. -/
  | label (num : Nat)
  /-- `.text`, `.data` and the like. -/
  | segment (s : Segm)
  /-- Bytes without a reference, or space. -/
  | emit (nbytes : Nat)
  /-- An instruction of 2 bytes, or of 4, or a word, that is left for `resolvefix`. -/
  | fix (o : Operand) (wide : Bool)
  /-- `ldr rd, =expression`. -/
  | literal (o : Operand)
  | ltorg

def State.advance (σ : State) (nbytes : Nat) : State :=
  { σ with count := Function.update σ.count σ.segm (σ.count σ.segm + nbytes) }

/-- `emitfix` in a segment. -/
def State.emitfix (σ : State) (s : Segm) (fx : List Fixup) : State :=
  { σ with fixups := Function.update σ.fixups s (σ.fixups s ++ fx) }

def Operand.sameKey (o e : Operand) : Bool := e.keysym = o.keysym && e.keyval = o.keyval

/-- `poolref`: the slot of the first pending operand with the same key, or a new one. -/
def poolref (σ : State) (o : Operand) (ref : Nat) : Option State :=
  let i := σ.pool.findIdx o.sameKey
  if i = σ.pool.length ∧ maxPool ≤ σ.pool.length then none
  else if maxPool ≤ σ.poolrefs.length then none
  else
    some { σ with
      pool := if i = σ.pool.length then σ.pool ++ [o] else σ.pool
      poolrefs := σ.poolrefs ++ [⟨ref, i⟩] }

/-- The count of the text segment where the pool begins. -/
def State.poolStart (σ : State) : Nat := (σ.count .stext + 3) / 4 * 4

/-- `disp` of a load whose slot is at `slot`. -/
def disp (ref slot : Nat) : Int := slot - ((ref + 4) / 4 * 4 : Nat)

/-- The references of the slots whose value is relocated. -/
def slotFixups (start : Nat) (pool : List Operand) : List Fixup :=
  pool.zipIdx.filterMap fun (e, i) =>
    if e.segment = .sabs then none else some ⟨e.segment, start + 4 * i, e.index, e.value⟩

/-- What is written for the slots. -/
def slotWords (start : Nat) (pool : List Operand) : List (Nat × Word) :=
  pool.zipIdx.map fun (e, i) => (start + 4 * i, if e.segment = .sabs then e.value else 0)

def ltorg (σ : State) : Option State :=
  if σ.pool = [] then some σ
  else
    let slot (r : Poolref) := σ.poolStart + 4 * r.ent
    -- A negative displacement is a large unsigned one.
    if σ.poolrefs.any fun r => decide (disp r.ref (slot r) < 0 ∨ 1020 < disp r.ref (slot r) ∨
        disp r.ref (slot r) % 4 ≠ 0) then none
    else
      some { (σ.emitfix .stext (slotFixups σ.poolStart σ.pool)) with
        count := Function.update σ.count .stext (σ.poolStart + 4 * σ.pool.length)
        loads := σ.loads ++ σ.poolrefs.map fun r => (r.ref, slot r)
        words := σ.words ++ slotWords σ.poolStart σ.pool
        pool := []
        poolrefs := [] }

/-- A statement of `pass1`; `none` is an error that ends the assembler. -/
def step (σ : State) : Stmt → Option State
  | .label num =>
    if maxRlab ≤ σ.labels.length then none
    else some { σ with labels := σ.labels ++ [⟨num, σ.count σ.segm⟩] }
  | .segment s => some { σ with segm := s }
  | .emit nbytes => some (σ.advance nbytes)
  | .fix o wide =>
    if σ.segm = .sbss then none
    else
      some ((σ.emitfix σ.segm [⟨o.segment, σ.count σ.segm, o.index, o.value⟩]).advance (if wide then 4 else 2))
  | .literal o => if σ.segm = .sbss then none else poolref (σ.advance 2) o (σ.count σ.segm)
  | .ltorg => ltorg σ

def run (σ : State) (src : List Stmt) : Option State := src.foldlM step σ

/-- The state behind `rescan`. -/
def rescan : State := ⟨.stext, fun _ => 0, [], fun _ => [], [], [], [], []⟩

/-- `pass1`, with the pool that is still pending at the end of the source. -/
def pass1 (src : List Stmt) : Option State :=
  (run rescan src).bind fun σ => ltorg { σ with segm := .stext }

/-- The label of a reference in `resolvefix`: its address, and `none` for the error of `findlabel` and for
    a reference that is not to a numeric label. -/
def labelAddress (labels : List Labeltab) (fx : Fixup) : Option Nat :=
  if fx.segment = .sext ∧ rlabOffset - rlabMaxval ≤ fx.index then
    findlabel labels fx.addr ((fx.index : Int) - rlabOffset)
  else none

/-! ## What a statement keeps -/

theorem run_cons (σ : State) (s : Stmt) (src : List Stmt) :
    run σ (s :: src) = (step σ s).bind fun σ => run σ src := rfl

theorem run_append (σ : State) (xs ys : List Stmt) :
    run σ (xs ++ ys) = (run σ xs).bind fun σ => run σ ys := List.foldlM_append

theorem run_cons_ok {σ σ' : State} {s : Stmt} {src : List Stmt} (h : run σ (s :: src) = some σ') :
    ∃ σ₁, step σ s = some σ₁ ∧ run σ₁ src = some σ' := Option.bind_eq_some_iff.mp h

@[simp] theorem advance_segm (σ : State) (n : Nat) : (σ.advance n).segm = σ.segm := rfl
@[simp] theorem advance_labels (σ : State) (n : Nat) : (σ.advance n).labels = σ.labels := rfl
@[simp] theorem advance_fixups (σ : State) (n : Nat) : (σ.advance n).fixups = σ.fixups := rfl
@[simp] theorem advance_pool (σ : State) (n : Nat) : (σ.advance n).pool = σ.pool := rfl
@[simp] theorem advance_poolrefs (σ : State) (n : Nat) : (σ.advance n).poolrefs = σ.poolrefs := rfl
@[simp] theorem advance_loads (σ : State) (n : Nat) : (σ.advance n).loads = σ.loads := rfl

theorem advance_at {σ : State} {s : Segm} (h : σ.segm = s) (n : Nat) :
    (σ.advance n).count s = σ.count s + n := by
  subst h
  simp [State.advance]

theorem advance_count (σ : State) (n : Nat) (s : Segm) : σ.count s ≤ (σ.advance n).count s := by
  unfold State.advance
  by_cases hs : s = σ.segm
  · subst hs
    simp
  · simp [Function.update_of_ne hs]

theorem emitfix_at (σ : State) (s : Segm) (new : List Fixup) :
    (σ.emitfix s new).fixups s = σ.fixups s ++ new := by
  simp [State.emitfix]

theorem emitfix_of_ne (σ : State) {s s' : Segm} (h : s ≠ s') (new : List Fixup) :
    (σ.emitfix s' new).fixups s = σ.fixups s := by
  simp [State.emitfix, h]

/-- Counts only grow, what is recorded stays, and what comes to it lies between the counts. -/
structure Grows (σ σ' : State) : Prop where
  count : ∀ s, σ.count s ≤ σ'.count s
  fixups : ∀ s, ∃ new, σ'.fixups s = σ.fixups s ++ new ∧
    ∀ fx ∈ new, σ.count s ≤ fx.addr ∧ fx.addr < σ'.count s
  words : ∃ new, σ'.words = σ.words ++ new ∧
    ∀ w ∈ new, σ.count .stext ≤ w.1 ∧ w.1 < σ'.count .stext
  loads : ∀ {l}, l ∈ σ.loads → l ∈ σ'.loads

/-- A step that records nothing. -/
theorem Grows.of_same {σ σ' : State} (hcount : ∀ s, σ.count s ≤ σ'.count s) (hfixups : σ'.fixups = σ.fixups)
    (hwords : σ'.words = σ.words) (hloads : σ'.loads = σ.loads) : Grows σ σ' where
  count := hcount
  fixups s := ⟨[], by simp [hfixups], by simp⟩
  words := ⟨[], by simp [hwords], by simp⟩
  loads := by
    rw [hloads]
    exact id

theorem Grows.refl (σ : State) : Grows σ σ := .of_same (fun _ => Nat.le_refl _) rfl rfl rfl

theorem Grows.trans {σ₁ σ₂ σ₃ : State} (h : Grows σ₁ σ₂) (h' : Grows σ₂ σ₃) : Grows σ₁ σ₃ where
  count s := Nat.le_trans (h.count s) (h'.count s)
  fixups s := by
    obtain ⟨new, hnew, hbound⟩ := h.fixups s
    obtain ⟨new', hnew', hbound'⟩ := h'.fixups s
    refine ⟨new ++ new', by rw [hnew', hnew, List.append_assoc], ?_⟩
    intro fx hfx
    have hle := h.count s
    have hle' := h'.count s
    cases List.mem_append.mp hfx with
    | inl hfx =>
      have hfx := hbound fx hfx
      omega
    | inr hfx =>
      have hfx := hbound' fx hfx
      omega
  words := by
    obtain ⟨new, hnew, hbound⟩ := h.words
    obtain ⟨new', hnew', hbound'⟩ := h'.words
    refine ⟨new ++ new', by rw [hnew', hnew, List.append_assoc], ?_⟩
    intro w hw
    have hle := h.count .stext
    have hle' := h'.count .stext
    cases List.mem_append.mp hw with
    | inl hw =>
      have hw := hbound w hw
      omega
    | inr hw =>
      have hw := hbound' w hw
      omega
  loads := h'.loads ∘ h.loads

theorem Grows.mem_fixups {σ σ' : State} (h : Grows σ σ') {s : Segm} {fx : Fixup} (hfx : fx ∈ σ.fixups s) :
    fx ∈ σ'.fixups s := by
  obtain ⟨new, hnew, -⟩ := h.fixups s
  rw [hnew]
  exact List.mem_append_left _ hfx

/-- From the start of the source, all that is recorded lies below the count. -/
theorem Grows.below {σ : State} (h : Grows rescan σ) :
    (∀ s, ∀ fx ∈ σ.fixups s, fx.addr < σ.count s) ∧ ∀ w ∈ σ.words, w.1 < σ.count .stext := by
  constructor
  · intro s fx hfx
    obtain ⟨new, hnew, hbound⟩ := h.fixups s
    rw [hnew] at hfx
    exact (hbound fx hfx).2
  · intro w hw
    obtain ⟨new, hnew, hbound⟩ := h.words
    rw [hnew] at hw
    exact (hbound w hw).2

theorem poolStart_le (σ : State) : σ.count .stext ≤ σ.poolStart := by
  unfold State.poolStart
  omega

theorem mem_slotFixups {start : Nat} {pool : List Operand} {fx : Fixup} (h : fx ∈ slotFixups start pool) :
    ∃ i, i < pool.length ∧ fx.addr = start + 4 * i := by
  obtain ⟨⟨e, i⟩, hmem, hfx⟩ := List.mem_filterMap.mp h
  simp only at hfx
  split at hfx
  · cases hfx
  · cases hfx
    exact ⟨i, (List.getElem?_eq_some_iff.mp (List.mem_zipIdx_iff_getElem?.mp hmem)).1, rfl⟩

theorem mem_slotWords {start : Nat} {pool : List Operand} {w : Nat × Word} (h : w ∈ slotWords start pool) :
    ∃ i, i < pool.length ∧ w.1 = start + 4 * i := by
  obtain ⟨⟨e, i⟩, hmem, rfl⟩ := List.mem_map.mp h
  exact ⟨i, (List.getElem?_eq_some_iff.mp (List.mem_zipIdx_iff_getElem?.mp hmem)).1, rfl⟩

/-- What `ltorg` does to a pending pool. -/
theorem ltorg_ok {σ σ' : State} (h : ltorg σ = some σ') :
    (σ.pool = [] ∧ σ' = σ) ∨
    (σ.pool ≠ [] ∧ (∀ r ∈ σ.poolrefs, 0 ≤ disp r.ref (σ.poolStart + 4 * r.ent) ∧
        disp r.ref (σ.poolStart + 4 * r.ent) ≤ 1020) ∧
      σ' = { (σ.emitfix .stext (slotFixups σ.poolStart σ.pool)) with
        count := Function.update σ.count .stext (σ.poolStart + 4 * σ.pool.length)
        loads := σ.loads ++ σ.poolrefs.map fun r => (r.ref, σ.poolStart + 4 * r.ent)
        words := σ.words ++ slotWords σ.poolStart σ.pool
        pool := []
        poolrefs := [] }) := by
  unfold ltorg at h
  split at h
  · rename_i hpool
    cases h
    exact .inl ⟨hpool, rfl⟩
  · rename_i hpool
    simp only at h
    split at h
    · cases h
    · rename_i hany
      refine .inr ⟨hpool, ?_, (Option.some.inj h).symm⟩
      intro r hr
      rw [List.any_eq_true] at hany
      have hno : ¬ (disp r.ref (σ.poolStart + 4 * r.ent) < 0 ∨ 1020 < disp r.ref (σ.poolStart + 4 * r.ent) ∨
          disp r.ref (σ.poolStart + 4 * r.ent) % 4 ≠ 0) :=
        fun hbad => hany ⟨r, hr, decide_eq_true hbad⟩
      omega

theorem ltorg_grows {σ σ' : State} (h : ltorg σ = some σ') : Grows σ σ' ∧ σ'.labels = σ.labels := by
  cases ltorg_ok h with
  | inl hempty =>
    obtain ⟨_, rfl⟩ := hempty
    exact ⟨Grows.refl _, rfl⟩
  | inr hpool =>
    obtain ⟨_, _, rfl⟩ := hpool
    have hle := poolStart_le σ
    refine ⟨⟨?_, ?_, ⟨_, rfl, ?_⟩, ?_⟩, rfl⟩
    · intro s
      by_cases hs : s = .stext
      · subst hs
        simp only [Function.update_self]
        omega
      · simp [Function.update_of_ne hs]
    · intro s
      by_cases hs : s = .stext
      · subst hs
        refine ⟨_, emitfix_at σ .stext _, ?_⟩
        intro fx hfx
        obtain ⟨i, hi, haddr⟩ := mem_slotFixups hfx
        simp only [Function.update_self]
        omega
      · exact ⟨[], by rw [List.append_nil]; exact emitfix_of_ne σ hs _, by simp⟩
    · intro w hw
      obtain ⟨i, hi, haddr⟩ := mem_slotWords hw
      simp only [Function.update_self]
      omega
    · intro l hl
      exact List.mem_append_left _ hl

/-- What `poolref` does. -/
theorem poolref_ok {σ σ' : State} {o : Operand} {ref : Nat} (h : poolref σ o ref = some σ') :
    σ' = { σ with
      pool := if σ.pool.findIdx o.sameKey = σ.pool.length then σ.pool ++ [o] else σ.pool
      poolrefs := σ.poolrefs ++ [⟨ref, σ.pool.findIdx o.sameKey⟩] } := by
  unfold poolref at h
  simp only at h
  split at h
  · cases h
  · split at h
    · cases h
    · exact (Option.some.inj h).symm

/-- What a statement adds to `labeltab`. -/
def newLabels (σ : State) : Stmt → List Labeltab
  | .label num => [⟨num, σ.count σ.segm⟩]
  | _ => []

theorem step_grows {σ σ' : State} {s : Stmt} (h : step σ s = some σ') :
    Grows σ σ' ∧ σ'.labels = σ.labels ++ newLabels σ s := by
  cases s with
  | label num =>
    simp only [step] at h
    split at h
    · cases h
    · cases h
      exact ⟨.of_same (fun _ => Nat.le_refl _) rfl rfl rfl, rfl⟩
  | segment s =>
    cases h
    exact ⟨.of_same (fun _ => Nat.le_refl _) rfl rfl rfl, (List.append_nil _).symm⟩
  | emit n =>
    cases h
    exact ⟨.of_same (advance_count σ n) rfl rfl rfl, (List.append_nil _).symm⟩
  | fix o wide =>
    simp only [step] at h
    split at h
    · cases h
    · cases h
      refine ⟨⟨?_, ?_, ⟨[], (List.append_nil _).symm, by simp⟩, id⟩, (List.append_nil _).symm⟩
      · intro s
        exact advance_count (σ.emitfix σ.segm _) _ s
      · intro s
        by_cases hs : s = σ.segm
        · subst hs
          refine ⟨_, emitfix_at σ σ.segm _, ?_⟩
          intro fx hfx
          obtain rfl := List.mem_singleton.mp hfx
          rw [advance_at (s := σ.segm) (show (σ.emitfix σ.segm _).segm = σ.segm from rfl)]
          have hpos : 0 < if wide then 4 else 2 := by split <;> decide
          exact ⟨Nat.le_refl _, Nat.lt_add_of_pos_right hpos⟩
        · exact ⟨[], by rw [List.append_nil]; exact emitfix_of_ne σ hs _, by simp⟩
  | literal o =>
    simp only [step] at h
    split at h
    · cases h
    · rw [poolref_ok h]
      exact ⟨.of_same (advance_count σ 2) rfl rfl rfl, (List.append_nil _).symm⟩
  | ltorg =>
    have hgrows := ltorg_grows h
    exact ⟨hgrows.1, hgrows.2.trans (List.append_nil _).symm⟩

theorem run_grows {σ σ' : State} {src : List Stmt} (h : run σ src = some σ') : Grows σ σ' := by
  induction src generalizing σ with
  | nil =>
    cases h
    exact Grows.refl _
  | cons s src ih =>
    obtain ⟨σ₁, hstep, hrest⟩ := run_cons_ok h
    exact (step_grows hstep).1.trans (ih hrest)

end DiscoBSD.As
