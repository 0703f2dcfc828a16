import DiscoBSD.As.Pass

/-!
# Expressions of the assembler

`getterm` and `getexpr` of `usr.bin/as/as-thumb.c` on the second pass over the source. They fold an
expression into a number and a segment, and leave the symbol named last and its value for the key of a
literal pool slot. **An expression that is accepted is the number above the base of its segment**, as long
as the low bit of Thumb functions is left out.
-/

set_option autoImplicit false

namespace DiscoBSD.As

/-! ## The symbol table -/

/-- `n_type & N_TYPE`. -/
inductive Kind where
  | undf
  | comm
  | abs
  | text
  | data
  | bss
  | strng
  deriving DecidableEq, Repr

/-- What an expression looks at in a `struct nlist`; `thumb` is `N_THUMB`. -/
structure Nlist where
  kind : Kind
  thumb : Bool
  n_value : Word

/-- `typesegm`. -/
def typesegm : Kind → Base
  | .undf => .sext
  | .comm => .sext
  | .abs => .sabs
  | .text => .seg .stext
  | .data => .seg .sdata
  | .bss => .seg .sbss
  | .strng => .seg .sstrng

/-- `STSIZE`. -/
def stsize : Nat := 921

/-- The symbols by their indices, and the cursor. -/
structure Env where
  stab : Nat → Nlist
  segm : Segm
  count : Nat

/-! ## Syntax -/

inductive Op where
  | add
  | sub
  | and
  | or
  | xor
  | shl
  | shr
  | mul
  | div
  deriving DecidableEq, Repr

mutual

/-- What `getterm` reads. -/
inductive Term where
  | num (intval : Word)
  | label (back : Bool) (n : Nat)
  | name (i : Nat)
  | dot
  | paren (e : Expr)

/-- What `getexpr` reads, from the left. -/
inductive Expr where
  | empty
  | term (t : Term)
  | neg (t : Term)
  | compl (t : Term)
  | bin (e : Expr) (op : Op) (t : Term)

end

/-! ## getexpr -/

/-- `extref`, `expr_thumb`, `expr_symbol` and `expr_symval`. -/
structure Globals where
  extref : Nat
  thumb : Bool
  symbol : Int
  symval : Word

/-- A value with its segment, and what is left in the globals. -/
structure Value where
  segment : Base
  value : Word
  globals : Globals

/-- The operators on values that are not relocated. -/
def arith (op : Op) (rez intval : Word) : Word :=
  match op with
  | .add => rez + intval
  | .sub => rez - intval
  | .and => rez &&& intval
  | .or => rez ||| intval
  | .xor => rez ^^^ intval
  | .shl => rez <<< (intval &&& 31)
  | .shr => rez >>> (intval &&& 31)
  | .mul => rez * intval
  | .div => rez / intval

/-- The segment of a binary operation. -/
def binSegment (op : Op) (s s2 : Base) (intval : Word) : Option Base :=
  match op with
  | .add => if s = .sabs then some s2 else if s2 ≠ .sabs then none else some s
  | .sub => if s2 = s ∧ s2 ≠ .sext then some .sabs else if s2 ≠ .sabs then none else some s
  | .div => if s ≠ .sabs ∨ s2 ≠ .sabs ∨ intval = 0 then none else some s
  | _ => if s ≠ .sabs ∨ s2 ≠ .sabs then none else some s

mutual

def getterm (env : Env) (g : Globals) : Term → Option Value
  | .num intval => some ⟨.sabs, intval, g⟩
  | .label back n => (relative back n).map fun extref => ⟨.sext, 0, { g with extref := extref }⟩
  | .name i =>
    let sym := env.stab i
    if stsize ≤ i then none
    else if sym.kind = .undf ∨ sym.kind = .comm then
      some ⟨.sext, 0, { g with extref := i, symbol := i, symval := 0 }⟩
    else
      let thumb := g.thumb || (sym.kind = .text && sym.thumb)
      some ⟨typesegm sym.kind, sym.n_value, { g with thumb := thumb, symbol := i, symval := sym.n_value }⟩
  | .dot => some ⟨.seg env.segm, BitVec.ofNat 32 env.count, g⟩
  | .paren e => getexpr env g e

def getexpr (env : Env) (g : Globals) : Expr → Option Value
  | .empty => some ⟨.sabs, 0, g⟩
  | .term t => getterm env g t
  | .neg t =>
    match getterm env g t with
    | none => none
    | some v => if v.segment ≠ .sabs then none else some { v with value := -v.value }
  | .compl t =>
    match getterm env g t with
    | none => none
    | some v => if v.segment ≠ .sabs then none else some { v with value := ~~~v.value }
  | .bin e op t =>
    match getexpr env g e with
    | none => none
    | some v =>
      match getterm env v.globals t with
      | none => none
      | some v2 =>
        (binSegment op v.segment v2.segment v2.value).map fun s =>
          ⟨s, arith op v.value v2.value, v2.globals⟩

end

/-- The operand of `ldr rd, =expression` in `makecmd`. -/
def literalOperand (env : Env) (extref : Nat) (e : Expr) : Option Operand :=
  (getexpr env ⟨extref, false, -1, 0⟩ e).map fun v =>
    let imm := if v.globals.thumb then v.value ||| 1 else v.value
    ⟨imm, v.segment, if v.segment = .sext then v.globals.extref else 0, v.globals.symbol,
      imm - v.globals.symval⟩

/-! ## What an expression means -/

/-- Where the linker puts the segments and the symbols that are not defined here, and the offsets of the
    numeric labels in the segment of the cursor. -/
structure Layout where
  base : Segm → Word
  ext : Nat → Word
  label : Bool → Nat → Word

def Layout.ofBase (L : Layout) (s : Base) : Word :=
  match s with
  | .seg s => L.base s
  | _ => 0

/-- The value of a symbol; a Thumb function has the low bit, if bits count. -/
def symbolValue (bits : Bool) (sym : Nlist) : Word :=
  if bits && sym.kind = .text && sym.thumb then sym.n_value + 1 else sym.n_value

mutual

def Term.eval (L : Layout) (env : Env) (bits : Bool) : Term → Word
  | .num intval => intval
  | .label back n => L.base env.segm + L.label back n
  | .name i =>
    let sym := env.stab i
    if sym.kind = .undf ∨ sym.kind = .comm then L.ext i
    else L.ofBase (typesegm sym.kind) + symbolValue bits sym
  | .dot => L.base env.segm + BitVec.ofNat 32 env.count
  | .paren e => e.eval L env bits

def Expr.eval (L : Layout) (env : Env) (bits : Bool) : Expr → Word
  | .empty => 0
  | .term t => t.eval L env bits
  | .neg t => -t.eval L env bits
  | .compl t => ~~~t.eval L env bits
  | .bin e op t => arith op (e.eval L env bits) (t.eval L env bits)

end

mutual

/-- The number above the base of the segment. -/
def Term.offset (env : Env) (bits : Bool) : Term → Word
  | .num intval => intval
  | .label _ _ => 0
  | .name i =>
    let sym := env.stab i
    if sym.kind = .undf ∨ sym.kind = .comm then 0 else symbolValue bits sym
  | .dot => BitVec.ofNat 32 env.count
  | .paren e => e.offset env bits

def Expr.offset (env : Env) (bits : Bool) : Expr → Word
  | .empty => 0
  | .term t => t.offset env bits
  | .neg t => -t.offset env bits
  | .compl t => ~~~t.offset env bits
  | .bin e op t => arith op (e.offset env bits) (t.offset env bits)

end

/-- What a value is relocated by. -/
inductive Anchor where
  | none
  | seg (s : Segm)
  | sym (i : Nat)
  | label (s : Segm) (back : Bool) (n : Nat)
  deriving DecidableEq

def Layout.anchor (L : Layout) : Anchor → Word
  | .none => 0
  | .seg s => L.base s
  | .sym i => L.ext i
  | .label s back n => L.base s + L.label back n

@[simp] theorem anchor_none (L : Layout) : L.anchor .none = 0 := rfl

def binAnchor (op : Op) (a a2 : Anchor) : Anchor :=
  match op with
  | .add => if a = .none then a2 else a
  | .sub => if a2 = .none then a else .none
  | _ => .none

mutual

def Term.anchor (env : Env) : Term → Anchor
  | .num _ => .none
  | .label back n => .label env.segm back n
  | .name i =>
    let sym := env.stab i
    if sym.kind = .undf ∨ sym.kind = .comm then .sym i
    else
      match typesegm sym.kind with
      | .seg s => .seg s
      | _ => .none
  | .dot => .seg env.segm
  | .paren e => e.anchor env

def Expr.anchor (env : Env) : Expr → Anchor
  | .empty => .none
  | .term t => t.anchor env
  | .neg _ => .none
  | .compl _ => .none
  | .bin e op t => binAnchor op (e.anchor env) (t.anchor env)

end

/-! ## What getexpr leaves -/

/-- The segment and `extref` say what the value is relocated by. -/
def Shown (segment : Base) (extref : Nat) : Anchor → Prop
  | .none => segment = .sabs
  | .seg s => segment = .seg s
  | .sym i => segment = .sext ∧ extref = i ∧ i < stsize
  | .label _ back n => segment = .sext ∧ relative back n = some extref

theorem Shown.sabs_iff {segment : Base} {extref : Nat} {a : Anchor} (h : Shown segment extref a) :
    segment = .sabs ↔ a = .none := by
  cases a with
  | none => exact ⟨fun _ => rfl, fun _ => h⟩
  | seg s =>
    constructor
    · intro hs
      rw [show segment = .seg s from h] at hs
      cases hs
    · exact nofun
  | sym i =>
    constructor
    · intro hs
      rw [h.1] at hs
      cases hs
    · exact nofun
  | label s back n =>
    constructor
    · intro hs
      rw [h.1] at hs
      cases hs
    · exact nofun

/-- A segment other than that of undefined symbols says it alone. -/
theorem Shown.unique {segment : Base} {x x' : Nat} {a a' : Anchor} (h : Shown segment x a)
    (h' : Shown segment x' a') (hs : segment ≠ .sext) : a = a' := by
  cases a with
  | none => exact (h'.sabs_iff.mp h).symm
  | seg s =>
    have hseg : segment = .seg s := h
    cases a' with
    | none =>
      rw [hseg] at h'
      cases h'
    | seg s' =>
      rw [hseg] at h'
      cases h'
      rfl
    | sym i => exact absurd h'.1 hs
    | label _ _ _ => exact absurd h'.1 hs
  | sym i => exact absurd h.1 hs
  | label _ _ _ => exact absurd h.1 hs

/-- What an accepted value is. -/
structure Sound (env : Env) (g : Globals) (v : Value) (a : Anchor) (eval : Layout → Bool → Word)
    (offset : Bool → Word) : Prop where
  shown : Shown v.segment v.globals.extref a
  kept : v.segment ≠ .sext → v.globals.extref = g.extref
  value : v.value = offset false
  eval : ∀ L bits, eval L bits = L.anchor a + offset bits

section
variable {env : Env} {g : Globals} {v v2 : Value} {a a2 : Anchor} {ev ev2 : Layout → Bool → Word} {off off2 : Bool → Word}

/-- The operation on two numbers. -/
theorem Sound.numbers (op : Op) (h : Sound env g v a ev off) (h2 : Sound env v.globals v2 a2 ev2 off2)
    (hv : v.segment = .sabs) (hv2 : v2.segment = .sabs) :
    Sound env g ⟨v.segment, arith op v.value v2.value, v2.globals⟩ (binAnchor op a a2)
      (fun L bits => arith op (ev L bits) (ev2 L bits)) (fun bits => arith op (off bits) (off2 bits)) := by
  have ha := h.shown.sabs_iff.mp hv
  have ha2 := h2.shown.sabs_iff.mp hv2
  have hanchor : binAnchor op a a2 = .none := by
    rw [ha, ha2]
    cases op <;> rfl
  refine ⟨?_, fun hne => (h2.kept ?_).trans (h.kept hne), by rw [h.value, h2.value], ?_⟩
  · rw [hanchor]
    exact hv
  · rw [hv2]
    exact nofun
  · intro L bits
    rw [hanchor, h.eval, h2.eval, ha, ha2]
    simp

/-- A number that is added to a relocated value, or taken from it. -/
theorem Sound.shift {op : Op} (hop : op = .add ∨ op = .sub) (h : Sound env g v a ev off)
    (h2 : Sound env v.globals v2 a2 ev2 off2) (hv2 : v2.segment = .sabs) (hanchor : binAnchor op a a2 = a) :
    Sound env g ⟨v.segment, arith op v.value v2.value, v2.globals⟩ (binAnchor op a a2)
      (fun L bits => arith op (ev L bits) (ev2 L bits)) (fun bits => arith op (off bits) (off2 bits)) := by
  have hext : v2.globals.extref = v.globals.extref := h2.kept (by rw [hv2]; exact nofun)
  refine ⟨?_, fun hne => hext.trans (h.kept hne), by rw [h.value, h2.value], ?_⟩
  · rw [hanchor]
    exact hext ▸ h.shown
  · intro L bits
    rw [hanchor, h.eval, h2.eval, h2.shown.sabs_iff.mp hv2, anchor_none]
    generalize L.anchor a = b
    cases hop with
    | inl hadd =>
      simp only [hadd, arith]
      bv_omega
    | inr hsub =>
      simp only [hsub, arith]
      bv_omega

/-- A binary operation that is accepted. -/
theorem Sound.bin {op : Op} {s : Base} (h : Sound env g v a ev off) (h2 : Sound env v.globals v2 a2 ev2 off2)
    (hs : binSegment op v.segment v2.segment v2.value = some s) :
    Sound env g ⟨s, arith op v.value v2.value, v2.globals⟩ (binAnchor op a a2)
      (fun L bits => arith op (ev L bits) (ev2 L bits)) (fun bits => arith op (off bits) (off2 bits)) := by
  have hvalue : arith op v.value v2.value = arith op (off false) (off2 false) := by rw [h.value, h2.value]
  cases op with
  | add =>
    simp only [binSegment] at hs
    split at hs
    · rename_i hv
      cases hs
      have ha := h.shown.sabs_iff.mp hv
      have hanchor : binAnchor .add a a2 = a2 := by rw [binAnchor, if_pos ha]
      refine ⟨by rw [hanchor]; exact h2.shown, fun hne => (h2.kept hne).trans (h.kept ?_), hvalue, ?_⟩
      · rw [hv]
        exact nofun
      · intro L bits
        rw [hanchor, h.eval, h2.eval, ha, anchor_none]
        simp only [arith]
        generalize L.anchor a2 = b
        bv_omega
    · rename_i hv
      split at hs
      · cases hs
      · rename_i hv2
        cases hs
        exact h.shift (.inl rfl) h2 (not_not.mp hv2) (by
          rw [binAnchor, if_neg (fun ha => hv (h.shown.sabs_iff.mpr ha))])
  | sub =>
    simp only [binSegment] at hs
    split at hs
    · -- Two values of one segment: its base cancels out.
      rename_i hsame
      obtain ⟨heq, hne⟩ := hsame
      cases hs
      have ha : a = a2 := (heq ▸ h.shown).unique h2.shown hne
      have hanchor : binAnchor .sub a a2 = .none := by
        unfold binAnchor
        dsimp only
        split
        · rename_i hnone
          rw [ha, hnone]
        · rfl
      refine ⟨by rw [hanchor]; rfl, fun _ => (h2.kept hne).trans (h.kept (heq ▸ hne)), hvalue, ?_⟩
      intro L bits
      rw [hanchor, h.eval, h2.eval, ha, anchor_none]
      simp only [arith]
      generalize L.anchor a2 = b
      bv_omega
    · split at hs
      · cases hs
      · rename_i hv2
        have hv2 : v2.segment = .sabs := not_not.mp hv2
        cases hs
        exact h.shift (.inr rfl) h2 hv2 (by rw [binAnchor, if_pos (h2.shown.sabs_iff.mp hv2)])
  | div =>
    simp only [binSegment] at hs
    split at hs
    · cases hs
    · rename_i hno
      rw [not_or, not_not, not_or, not_not] at hno
      cases hs
      exact h.numbers .div h2 hno.1 hno.2.1
  | _ =>
    simp only [binSegment] at hs
    split at hs
    · cases hs
    · rename_i hno
      rw [not_or, not_not, not_not] at hno
      cases hs
      exact h.numbers _ h2 hno.1 hno.2

end

/-- A sign in front of a number. -/
theorem Sound.sign {env : Env} {g : Globals} {v : Value} {a : Anchor} {ev : Layout → Bool → Word}
    {off : Bool → Word} (f : Word → Word) (h : Sound env g v a ev off) (hs : v.segment = .sabs) :
    Sound env g { v with value := f v.value } .none (fun L bits => f (ev L bits)) (fun bits => f (off bits)) where
  shown := hs
  kept := h.kept
  value := by rw [← h.value]
  eval := by
    intro L bits
    have hev := h.eval L bits
    rw [h.shown.sabs_iff.mp hs, anchor_none] at hev
    have hplain : ev L bits = off bits := hev.trans (BitVec.zero_add _)
    rw [hplain, anchor_none]
    exact (BitVec.zero_add _).symm

/-- A symbol of this file. -/
theorem typesegm_anchor {kind : Kind} (hu : kind ≠ .undf) (hc : kind ≠ .comm) (x : Nat) (L : Layout) :
    ∃ a, (match typesegm kind with
      | .seg s => Anchor.seg s
      | _ => .none) = a ∧ Shown (typesegm kind) x a ∧ typesegm kind ≠ .sext ∧ L.ofBase (typesegm kind) = L.anchor a := by
  cases kind with
  | undf => exact absurd rfl hu
  | comm => exact absurd rfl hc
  | abs => exact ⟨_, rfl, rfl, nofun, rfl⟩
  | _ => exact ⟨_, rfl, rfl, nofun, rfl⟩

mutual

/-- **What `getterm` returns is the number above the base of its segment.** -/
theorem getterm_sound {env : Env} {g : Globals} {v : Value} :
    ∀ t : Term, getterm env g t = some v →
      Sound env g v (t.anchor env) (fun L bits => t.eval L env bits) (t.offset env)
  | .num intval, h => by
    cases h
    exact ⟨rfl, fun _ => rfl, rfl, fun L bits => (BitVec.zero_add _).symm⟩
  | .label back n, h => by
    simp only [getterm, Option.map_eq_some_iff] at h
    obtain ⟨extref, hrel, rfl⟩ := h
    exact ⟨⟨rfl, hrel⟩, fun hne => absurd rfl hne, rfl, fun L bits => (BitVec.add_zero _).symm⟩
  | .name i, h => by
    simp only [getterm] at h
    split at h
    · cases h
    · rename_i hi
      split at h
      · rename_i hundf
        cases h
        refine ⟨?_, fun hne => absurd rfl hne, ?_, ?_⟩
        · simp only [Term.anchor, if_pos hundf]
          exact ⟨rfl, rfl, Nat.lt_of_not_le hi⟩
        · simp only [Term.offset, if_pos hundf]
        · intro L bits
          simp only [Term.eval, Term.offset, Term.anchor, if_pos hundf]
          exact (BitVec.add_zero _).symm
      · rename_i hdef
        cases h
        obtain ⟨hu, hc⟩ := not_or.mp hdef
        refine ⟨?_, fun _ => rfl, ?_, ?_⟩
        · simp only [Term.anchor, if_neg hdef]
          obtain ⟨a, ha, hshown, -⟩ := typesegm_anchor hu hc g.extref ⟨fun _ => 0, fun _ => 0, fun _ _ => 0⟩
          rw [ha]
          exact hshown
        · simp [Term.offset, if_neg hdef, symbolValue]
        · intro L bits
          simp only [Term.eval, Term.offset, Term.anchor, if_neg hdef]
          obtain ⟨a, ha, -, -, hbase⟩ := typesegm_anchor hu hc g.extref L
          rw [ha, hbase]
  | .dot, h => by
    cases h
    exact ⟨rfl, fun _ => rfl, rfl, fun L bits => rfl⟩
  | .paren e, h => getexpr_sound e h

/-- **What `getexpr` accepts is the number above the base of its segment.** -/
theorem getexpr_sound {env : Env} {g : Globals} {v : Value} :
    ∀ e : Expr, getexpr env g e = some v →
      Sound env g v (e.anchor env) (fun L bits => e.eval L env bits) (e.offset env)
  | .empty, h => by
    cases h
    exact ⟨rfl, fun _ => rfl, rfl, fun L bits => (BitVec.zero_add _).symm⟩
  | .term t, h => getterm_sound t h
  | .neg t, h => by
    simp only [getexpr] at h
    split at h
    · cases h
    · rename_i w hw
      split at h
      · cases h
      · rename_i hs
        cases h
        exact (getterm_sound t hw).sign (- ·) (not_not.mp hs)
  | .compl t, h => by
    simp only [getexpr] at h
    split at h
    · cases h
    · rename_i w hw
      split at h
      · cases h
      · rename_i hs
        cases h
        exact (getterm_sound t hw).sign (~~~ ·) (not_not.mp hs)
  | .bin e op t, h => by
    simp only [getexpr] at h
    split at h
    · cases h
    · rename_i w hw
      split at h
      · cases h
      · rename_i w2 hw2
        rw [Option.map_eq_some_iff] at h
        obtain ⟨s, hs, rfl⟩ := h
        exact (getexpr_sound e hw).bin (getterm_sound t hw2) hs

end

end DiscoBSD.As
