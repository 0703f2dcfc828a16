import Mathlib
import DiscoBSD.Modes.Effects

/-!
# Compiled actions mean what they say

An action is compiled to a list that does what the action says, if it is plain. **The bits that are pending when a class is
copied are written first**; for `+` and `-` the order makes no difference, and `=` has one or the other.
-/

set_option autoImplicit false

namespace DiscoBSD.Modes

variable {umask omode who m n A : Mode} {s : Sheet} {op : Op} {p : Perm} {ps : List Perm}

/-! ## Adding and removing -/

/-- Bits set or cleared. -/
def Op.comb (op : Op) (n a : Mode) : Mode :=
  match op with
  | plus => n ||| a
  | _ => n &&& ~~~a

theorem comb_comb (op : Op) (n a b : Mode) : op.comb (op.comb n a) b = op.comb n (a ||| b) := by
  cases op with
  | plus => exact BitVec.or_assoc ..
  | minus => exact diff_diff ..
  | equal => exact diff_diff ..

theorem comb_zero (op : Op) (n : Mode) : op.comb n 0 = n := by
  cases op with
  | plus => exact BitVec.or_zero
  | minus => exact BitVec.and_allOnes
  | equal => exact BitVec.and_allOnes

theorem comb_copy (op : Op) (hA : Even A) (r n : Mode) (c : Class) :
    op.comb (op.comb n (r &&& A)) (r &&& triple (c.value (op.comb n (r &&& A)))) =
      op.comb n (r &&& (A ||| triple (c.value n))) := by
  cases op with
  | plus => exact plus_copy hA ..
  | minus => exact minus_copy hA ..
  | equal => exact minus_copy hA ..

/-- The execute bits, for a file that may get them. -/
def executable (omode x : Mode) : Mode := if omode &&& (S_IFDIR ||| S_IX) ≠ 0 then x else 0

/-- Within an action `A` has been done, of what the letters ask for; the rest is pending. -/
structure Pending (umask omode who : Mode) (op : Op) (m n A : Mode) (s : Sheet) : Prop where
  stand : Standing who s.who
  sticky : s.who = who → s.perm &&& S_ISVTX = 0
  execute : s.permXbits = 0 ∨ op = .plus ∧ s.permXbits = S_IX
  even : Even A
  evenPerm : Even s.perm
  run : run omode s.l m = op.comb n (reach umask who &&& A)

/-- What the letters so far ask for. -/
def total (omode A : Mode) (s : Sheet) : Mode := A ||| s.perm ||| executable omode s.permXbits

theorem Pending.flushPerm (h : Pending umask omode who op m n A s) (hop : op ≠ .equal) :
    Pending umask omode who op m n (A ||| s.perm) (s.flushPerm (~~~umask) op.char) := by
  refine ⟨h.stand, fun _ => BitVec.zero_and, h.execute, h.even.or h.evenPerm, even_zero, ?_⟩
  have hrun : Modes.run omode (bitsCmds op.char s.who s.perm (~~~umask)) (Modes.run omode s.l m) =
      op.comb (Modes.run omode s.l m) (masked umask s.who s.perm) := by
    cases op with
    | plus => exact run_plus ..
    | minus => exact run_minus ..
    | equal => exact absurd rfl hop
  rw [Sheet.flushPerm]
  dsimp only
  rw [run_append, hrun, h.run, h.stand.masked_eq h.sticky, comb_comb, BitVec.and_or_distrib_left]

theorem Pending.flushX (h : Pending umask omode who op m n A s) (hx : s.permXbits ≠ 0) :
    Pending umask omode who op m n (A ||| executable omode s.permXbits) (s.flushX (~~~umask)) := by
  obtain ⟨rfl, hbits⟩ := h.execute.resolve_left hx
  have heven : Even (executable omode s.permXbits) := by
    rw [hbits]
    unfold executable
    split
    · exact even_triple (v := 1) rfl
    · exact even_zero
  refine ⟨h.stand, h.sticky, .inl rfl, h.even.or heven, h.evenPerm, ?_⟩
  have hmasked : masked umask s.who s.permXbits = reach umask who &&& s.permXbits :=
    h.stand.masked_eq fun _ => by
      rw [hbits]
      rfl
  rw [Sheet.flushX]
  dsimp only
  rw [run_append, run_X, h.run, hmasked]
  unfold executable
  split
  · rw [BitVec.and_or_distrib_left (z := s.permXbits), ← comb_comb]
    rfl
  · have hor : A ||| 0 = A := BitVec.or_zero
    rw [hor]

theorem or_zero' (a : Mode) : a ||| 0 = a := BitVec.or_zero

theorem executable_zero (omode : Mode) : executable omode 0 = 0 := ite_self _

theorem Pending.copyPerm (h : Pending umask omode who op m n A s) (hop : op ≠ .equal) (c : Class) :
    ∃ A', Pending umask omode who op m n A' (s.copyPerm (~~~umask) op.char c.char) ∧
      total omode A' (s.copyPerm (~~~umask) op.char c.char) = total omode A s ||| triple (c.value n) := by
  have hperm : ∃ A₁, Pending umask omode who op m n A₁ (if s.perm ≠ 0 then s.flushPerm (~~~umask) op.char else s) ∧
      (if s.perm ≠ 0 then s.flushPerm (~~~umask) op.char else s).perm = 0 ∧
      total omode A₁ (if s.perm ≠ 0 then s.flushPerm (~~~umask) op.char else s) = total omode A s := by
    by_cases hzero : s.perm = 0
    · rw [if_neg (not_not_intro hzero)]
      exact ⟨A, h, hzero, rfl⟩
    · rw [if_pos hzero]
      refine ⟨_, h.flushPerm hop, rfl, ?_⟩
      exact congrArg (· ||| executable omode s.permXbits) (or_zero' _)
  obtain ⟨A₁, h₁, hnone₁, htotal₁⟩ := hperm
  rw [← htotal₁]
  unfold Sheet.copyPerm
  dsimp only
  generalize (if s.perm ≠ 0 then s.flushPerm (~~~umask) op.char else s) = s₁ at h₁ hnone₁
  rw [if_neg (mt op.char_eq.mp hop)]
  have hX : ∃ A₂, Pending umask omode who op m n A₂
        (if op.char = chr '+' ∧ s₁.permXbits ≠ 0 then s₁.flushX (~~~umask) else s₁) ∧
      (if op.char = chr '+' ∧ s₁.permXbits ≠ 0 then s₁.flushX (~~~umask) else s₁).permXbits = 0 ∧
      (if op.char = chr '+' ∧ s₁.permXbits ≠ 0 then s₁.flushX (~~~umask) else s₁).perm = 0 ∧
      A₂ = total omode A₁ s₁ := by
    rw [total, hnone₁, or_zero']
    by_cases hzero : s₁.permXbits = 0
    · rw [if_neg fun hc => hc.2 hzero, hzero, executable_zero, or_zero']
      exact ⟨A₁, h₁, rfl, hnone₁, rfl⟩
    · obtain ⟨rfl, -⟩ := h₁.execute.resolve_left hzero
      rw [if_pos ⟨rfl, hzero⟩]
      exact ⟨_, h₁.flushX hzero, rfl, hnone₁, rfl⟩
  obtain ⟨A₂, h₂, hnoX₂, hnone₂, htotal₂⟩ := hX
  rw [← htotal₂]
  generalize (if op.char = chr '+' ∧ s₁.permXbits ≠ 0 then s₁.flushX (~~~umask) else s₁) = s₂ at h₂ hnoX₂ hnone₂
  refine ⟨A₂ ||| triple (c.value n), ⟨h₂.stand, h₂.sticky, h₂.execute, h₂.even.or (even_triple (value_small c n)),
    h₂.evenPerm, ?_⟩, ?_⟩
  · rw [run_append, h₂.run, ← comb_copy op h₂.even]
    have heffect := effect_copy umask omode (op.comb n (reach umask who &&& A₂)) h₂.stand op c
    rw [run_cons, run_nil, heffect]
    cases op with
    | plus => rfl
    | minus => rfl
    | equal => exact absurd rfl hop
  · rw [total, hnone₂, hnoX₂, executable_zero, or_zero', or_zero']

/-- A letter that the action may have. -/
structure Allowed (who : Mode) (op : Op) (p : Perm) : Prop where
  execute : p = .X → op = .plus
  special : p = .s ∨ p = .t → who ≠ 0

/-- A letter that names bits adds them to those that are pending, and `t` brings the sticky bit. -/
theorem letter_bits (h : Standing who s.who) (hp : Allowed who op p) (hX : p ≠ .X) (hcopy : ∀ c, p ≠ .copy c) (mask : Mode)
    (o : UInt8) :
    ∃ w, s.letter mask o p = { s with who := w, perm := s.perm ||| p.bits who } ∧ Standing who w ∧
      (w = who → s.who = who ∧ p.bits who &&& S_ISVTX = 0) ∧ (w ≠ who → s.who = who → p.bits who = S_ISVTX) := by
  -- Every letter but `t` leaves `who` as it is.
  have hsame : p.bits who &&& S_ISVTX = 0 → s.letter mask o p = { s with perm := s.perm ||| p.bits who } →
      ∃ w, s.letter mask o p = { s with who := w, perm := s.perm ||| p.bits who } ∧ Standing who w ∧
        (w = who → s.who = who ∧ p.bits who &&& S_ISVTX = 0) ∧ (w ≠ who → s.who = who → p.bits who = S_ISVTX) := by
    intro hnone hletter
    exact ⟨s.who, hletter, h, fun hw => ⟨hw, hnone⟩, fun hne hw => absurd hw hne⟩
  have hread : (0o444 : Mode) &&& S_ISVTX = 0 := rfl
  have hwrite : (0o222 : Mode) &&& S_ISVTX = 0 := rfl
  have hexec : S_IX &&& S_ISVTX = 0 := rfl
  have hset : (S_ISUID ||| S_ISGID) &&& S_ISVTX = 0 := rfl
  cases p with
  | r => exact hsame hread rfl
  | w => exact hsame hwrite rfl
  | x => exact hsame hexec rfl
  | X => exact absurd rfl hX
  | copy c => exact absurd rfl (hcopy c)
  | s =>
    have hcond := h.special_iff (hp.special (.inl rfl))
    by_cases hs : Special who
    · have hbits : Perm.s.bits who = S_ISUID ||| S_ISGID := if_pos hs
      rw [hbits] at hsame ⊢
      exact hsame hset (if_pos (hcond.mpr hs))
    · have hbits : Perm.s.bits who = 0 := if_neg hs
      rw [hbits, or_zero'] at hsame ⊢
      exact hsame BitVec.zero_and (if_neg (mt hcond.mp hs))
  | t =>
    have hne := hp.special (.inr rfl)
    have hcond := h.special_iff hne
    by_cases hs : Special who
    · have hbits : Perm.t.bits who = S_ISVTX := if_pos hs
      rw [hbits]
      refine ⟨s.who ||| S_ISVTX, if_pos (hcond.mpr hs), ⟨h.shape, .inr ⟨hs.resolve_left hne, ?_⟩⟩, fun hw => ?_,
        fun _ _ => rfl⟩
      · obtain hw | ⟨-, hw⟩ := h.kept
        · rw [hw]
        · rw [hw, BitVec.or_assoc, BitVec.or_self]
      · have hnone : (s.who ||| S_ISVTX) &&& S_ISVTX = 0 := by
          rw [hw]
          exact shape_sticky h.shape
        rw [BitVec.and_or_distrib_right, BitVec.and_self, and_or_self] at hnone
        exact absurd hnone (by decide)
    · have hbits : Perm.t.bits who = 0 := if_neg hs
      rw [hbits, or_zero'] at hsame ⊢
      exact hsame BitVec.zero_and (if_neg (mt hcond.mp hs))

/-- **Each letter adds what it asks for.** -/
theorem Pending.letter (h : Pending umask omode who op m n A s) (hop : op ≠ .equal) (hp : Allowed who op p) :
    ∃ A', Pending umask omode who op m n A' (s.letter (~~~umask) op.char p) ∧
      total omode A' (s.letter (~~~umask) op.char p) = total omode A s ||| p.bits who ||| p.taken omode n op := by
  by_cases hX : p = .X
  · subst hX
    have hplus := hp.execute rfl
    refine ⟨A, ⟨h.stand, h.sticky, .inr ⟨hplus, rfl⟩, h.even, h.evenPerm, h.run⟩, ?_⟩
    have htaken : Perm.X.taken omode n op = executable omode S_IX := by
      unfold executable
      simp only [Perm.taken, hplus, true_and]
    have hbits : executable omode s.permXbits ||| executable omode S_IX = executable omode S_IX := by
      obtain hzero | ⟨-, hx⟩ := h.execute
      · rw [hzero, executable_zero]
        exact BitVec.zero_or
      · rw [hx, BitVec.or_self]
    have hnone : Perm.X.bits who = 0 := rfl
    rw [htaken, hnone, or_zero', total, total, BitVec.or_assoc _ (executable omode s.permXbits), hbits]
    rfl
  by_cases hcopy : ∃ c, p = .copy c
  · obtain ⟨c, rfl⟩ := hcopy
    obtain ⟨A', hA', htotal'⟩ := h.copyPerm hop c
    refine ⟨A', hA', htotal'.trans ?_⟩
    exact congrArg (· ||| _) (or_zero' _).symm
  · have hnocopy : ∀ c, p ≠ .copy c := fun c hc => hcopy ⟨c, hc⟩
    have htaken : p.taken omode n op = 0 := by
      cases p with
      | X => exact absurd rfl hX
      | copy c => exact absurd rfl (hnocopy c)
      | _ => rfl
    obtain ⟨w, hletter, hw, hkept, -⟩ := letter_bits h.stand hp hX hnocopy (~~~umask) op.char
    rw [hletter, htaken, or_zero']
    refine ⟨A, ⟨hw, fun hwho => ?_, h.execute, h.even, h.evenPerm.or (even_bits who p), h.run⟩, ?_⟩
    · rw [BitVec.and_or_distrib_right, h.sticky (hkept hwho).1, (hkept hwho).2]
      exact BitVec.or_zero
    · rw [total, total]
      dsimp only
      ac_rfl

theorem Pending.letters (h : Pending umask omode who op m n A s) (hop : op ≠ .equal) (hps : ∀ p ∈ ps, Allowed who op p) :
    Standing who (s.letters (~~~umask) op.char ps).who ∧
      Modes.run omode (s.letters (~~~umask) op.char ps).l m =
        op.comb n (reach umask who &&& (total omode A s ||| (bitsOf who ps ||| takenOf omode n op ps))) := by
  induction ps generalizing s A with
  | nil =>
    have hlast : ∃ A', Pending umask omode who op m n A' (s.lastPerm (~~~umask) op.char) ∧ A' = total omode A s := by
      have hcond : (s.perm ≠ 0 ∨ op.char = chr '=' ∧ ¬s.equalopdone) ↔ s.perm ≠ 0 :=
        ⟨fun hc => hc.resolve_right fun he => hop (op.char_eq.mp he.1), .inl⟩
      have hperm : ∃ A₁, Pending umask omode who op m n A₁ (if s.perm ≠ 0 then s.flushPerm (~~~umask) op.char else s) ∧
          A₁ = A ||| s.perm := by
        by_cases hzero : s.perm = 0
        · rw [if_neg (not_not_intro hzero), hzero, or_zero']
          exact ⟨A, h, rfl⟩
        · rw [if_pos hzero]
          exact ⟨_, h.flushPerm hop, rfl⟩
      obtain ⟨A₁, h₁, hA₁⟩ := hperm
      have hX : (if s.perm ≠ 0 then s.flushPerm (~~~umask) op.char else s).permXbits = s.permXbits := by
        split <;> rfl
      unfold Sheet.lastPerm
      simp only [hcond, if_neg (mt op.char_eq.mp hop)]
      rw [total, ← hA₁, ← hX]
      generalize (if s.perm ≠ 0 then s.flushPerm (~~~umask) op.char else s) = s₁ at h₁
      by_cases hzero : s₁.permXbits = 0
      · rw [if_neg (not_not_intro hzero), hzero, executable_zero, or_zero']
        exact ⟨A₁, h₁, rfl⟩
      · rw [if_pos hzero]
        exact ⟨_, h₁.flushX hzero, rfl⟩
    obtain ⟨A', hA', htotal⟩ := hlast
    refine ⟨hA'.stand, hA'.run.trans ?_⟩
    rw [htotal, bitsOf, takenOf, or_zero', or_zero']
  | cons p ps ih =>
    obtain ⟨A', hA', htotal⟩ := h.letter hop (hps p (List.mem_cons_self ..))
    obtain ⟨hstand, hrun⟩ := ih hA' fun q hq => hps q (List.mem_cons_of_mem _ hq)
    refine ⟨hstand, hrun.trans ?_⟩
    rw [htotal, bitsOf, takenOf]
    apply congrArg (fun a => op.comb n (reach umask who &&& a))
    ac_rfl

/-! ## Assigning -/

/-- Within an assignment of bits, nothing has been written. -/
structure Waiting (who : Mode) (s : Sheet) : Prop where
  stand : Standing who s.who
  sticky : s.who = who → s.perm &&& S_ISVTX = 0
  due : s.who ≠ who → s.perm &&& S_ISVTX = S_ISVTX
  execute : s.permXbits = 0
  undone : s.equalopdone = false

/-- What is set anyhow may be cleared before. -/
theorem or_due {q t : Mode} (hdue : q &&& t = t) (m w : Mode) : m &&& ~~~(w ||| t) ||| q = m &&& ~~~w ||| q := by
  have hlaw : ∀ m w t q : Bool, (q && t) = t → (m && !(w || t) || q) = (m && !w || q) := by decide
  apply BitVec.eq_of_getLsbD_eq
  intro i hi
  have hbit := congrArg (BitVec.getLsbD · i) hdue
  simp only [BitVec.getLsbD_and] at hbit
  simp only [BitVec.getLsbD_and, BitVec.getLsbD_or, BitVec.getLsbD_not, hi, decide_true, Bool.true_and]
  exact hlaw _ _ _ _ hbit

theorem Waiting.letter (h : Waiting who s) (hp : Allowed who .equal p) (hcopy : ∀ c, p ≠ .copy c) (mask : Mode) :
    Waiting who (s.letter mask (chr '=') p) ∧ (s.letter mask (chr '=') p).perm = s.perm ||| p.bits who ∧
      (s.letter mask (chr '=') p).l = s.l := by
  have hX : p ≠ .X := fun hX => nomatch hp.execute hX
  obtain ⟨w, hletter, hw, hkept, hgot⟩ := letter_bits h.stand hp hX hcopy mask (chr '=')
  rw [hletter]
  refine ⟨⟨hw, fun hwho => ?_, fun hne => ?_, h.execute, h.undone⟩, rfl, rfl⟩
  · rw [BitVec.and_or_distrib_right, h.sticky (hkept hwho).1, (hkept hwho).2]
    exact BitVec.or_zero
  · by_cases hwho : s.who = who
    · rw [hgot hne hwho, BitVec.and_or_distrib_right, BitVec.and_self, and_or_self]
    · rw [BitVec.and_or_distrib_right, h.due hwho, BitVec.or_comm, and_or_self]

/-- **An assignment of bits** is written at its end. -/
theorem Waiting.letters (umask omode m : Mode) (h : Waiting who s) (hps : ∀ p ∈ ps, Allowed who .equal p) (hcopy : ∀ c, .copy c ∉ ps) :
    Standing who (s.letters (~~~umask) (chr '=') ps).who ∧
      Modes.run omode (s.letters (~~~umask) (chr '=') ps).l m =
        Modes.run omode s.l m &&& ~~~(if who = 0 then STANDARD_BITS else who) |||
          (reach umask who &&& (s.perm ||| bitsOf who ps)) := by
  induction ps generalizing s with
  | nil =>
    have hlast : s.letters (~~~umask) (chr '=') [] = { s with equalopdone := true }.flushPerm (~~~umask) (chr '=') := by
      have hcond : s.perm ≠ 0 ∨ chr '=' = chr '=' ∧ ¬s.equalopdone := by
        rw [h.undone]
        exact .inr ⟨rfl, Bool.false_ne_true⟩
      have hnone : ({ s with equalopdone := true }.flushPerm (~~~umask) (chr '=')).permXbits = 0 := h.execute
      rw [Sheet.letters, Sheet.lastPerm, if_pos hcond, if_pos rfl, if_neg (not_not_intro hnone)]
    rw [hlast]
    refine ⟨h.stand, ?_⟩
    rw [Sheet.flushPerm]
    dsimp only
    rw [run_append, run_equal, h.stand.masked_eq h.sticky, bitsOf, or_zero']
    generalize Modes.run omode s.l m = M
    have hzero : (if s.who ≠ 0 then s.who else STANDARD_BITS) = if who = 0 then STANDARD_BITS else s.who := by
      by_cases hzero : who = 0
      · rw [if_neg (not_not_intro (h.stand.zero_iff.mpr hzero)), if_pos hzero]
      · rw [if_pos (mt h.stand.zero_iff.mp hzero), if_neg hzero]
    rw [hzero]
    by_cases hwho : s.who = who
    · rw [hwho]
    · obtain ⟨hspecial, hkept⟩ := h.stand.kept.resolve_left hwho
      have hne : who ≠ 0 := by
        intro hwho
        rw [hwho] at hspecial
        exact hspecial BitVec.zero_and
      have hdue : (reach umask who &&& s.perm) &&& S_ISVTX = S_ISVTX := by
        rw [reach, if_neg hne, BitVec.and_assoc, h.due hwho, BitVec.and_or_distrib_right, BitVec.and_self, and_or_self]
      rw [if_neg hne, if_neg hne, hkept]
      exact or_due hdue ..
  | cons p ps ih =>
    have hpcopy : ∀ c, p ≠ .copy c := fun c hc => hcopy c (hc ▸ List.mem_cons_self ..)
    obtain ⟨h', hperm, hl⟩ := h.letter (hps p (List.mem_cons_self ..)) hpcopy (~~~umask)
    obtain ⟨hstand, hrun⟩ := ih h' (fun q hq => hps q (List.mem_cons_of_mem _ hq))
      fun c hc => hcopy c (List.mem_cons_of_mem _ hc)
    refine ⟨hstand, hrun.trans ?_⟩
    rw [hl, hperm, bitsOf, BitVec.or_assoc]

/-- Within an assignment of a class: it has been done, or is to come. -/
structure Copying (umask omode who : Mode) (c : Class) (m n : Mode) (ps : List Perm) (s : Sheet) : Prop where
  stand : Standing who who
  same : s.who = who
  none : s.perm = 0
  execute : s.permXbits = 0
  done : s.equalopdone = true ∧ Modes.run omode s.l m = assign (reach umask who) c n ∨
    Modes.run omode s.l m = n ∧ .copy c ∈ ps

theorem or_eq_zero {a b : Mode} (h : a ||| b = 0) : a = 0 ∧ b = 0 := BitVec.or_eq_zero_iff.mp h

/-- **An assignment of a class.** -/
theorem Copying.letters {c : Class} (h : Copying umask omode who c m n ps s) (hps : ∀ p ∈ ps, Allowed who .equal p)
    (hbits : bitsOf who ps = 0) (hcopy : ∀ d, .copy d ∈ ps → d = c) :
    (s.letters (~~~umask) (chr '=') ps).who = who ∧
      Modes.run omode (s.letters (~~~umask) (chr '=') ps).l m = assign (reach umask who) c n := by
  induction ps generalizing s with
  | nil =>
    obtain ⟨hdone, hrun⟩ | ⟨-, hmem⟩ := h.done
    · have hlast : s.letters (~~~umask) (chr '=') [] = s := by
        have hcond : ¬(s.perm ≠ 0 ∨ chr '=' = chr '=' ∧ ¬s.equalopdone) := by
          rintro (hperm | ⟨-, hnot⟩)
          · exact hperm h.none
          · exact hnot hdone
        rw [Sheet.letters, Sheet.lastPerm, if_neg hcond, if_neg (not_not_intro h.execute)]
      rw [hlast]
      exact ⟨h.same, hrun⟩
    · exact absurd hmem List.not_mem_nil
  | cons p ps ih =>
    have hallowed := hps p (List.mem_cons_self ..)
    obtain ⟨hpbits, hbits⟩ := or_eq_zero hbits
    refine ih (s := s.letter (~~~umask) (chr '=') p) ?_ (fun q hq => hps q (List.mem_cons_of_mem _ hq)) hbits
      fun d hd => hcopy d (List.mem_cons_of_mem _ hd)
    by_cases hp : ∃ d, p = .copy d
    · obtain ⟨d, rfl⟩ := hp
      obtain rfl := hcopy d (List.mem_cons_self ..)
      have hletter : s.letter (~~~umask) (chr '=') (.copy d) =
          { s with equalopdone := true, l := s.l ++ [copyCmd d.char s.who (chr '=') (~~~umask)] } := by
        rw [Sheet.letter, Sheet.copyPerm, if_neg (not_not_intro h.none), if_pos rfl, if_neg fun hc => absurd hc.1 (by decide)]
      rw [hletter]
      refine ⟨h.stand, h.same, h.none, h.execute, .inl ⟨rfl, ?_⟩⟩
      rw [run_append, h.same, run_cons, run_nil]
      refine (effect_copy umask omode _ h.stand .equal d).trans ?_
      obtain ⟨-, hrun⟩ | ⟨hrun, -⟩ := h.done
      · rw [hrun]
        exact assign_assign ..
      · rw [hrun]
    · -- A letter that names no bits does nothing.
      have hnocopy : ∀ d, p ≠ .copy d := fun d hd => hp ⟨d, hd⟩
      have hX : p ≠ .X := fun hX => by cases hallowed.execute hX
      have hstand : Standing who s.who := h.same ▸ h.stand
      obtain ⟨w, hletter, -, -, hgot⟩ := letter_bits hstand hallowed hX hnocopy (~~~umask) (chr '=')
      have hw : w = who := by
        by_contra hne
        have hsticky := hgot hne h.same
        rw [hpbits] at hsticky
        exact absurd hsticky (by decide)
      rw [hletter, hpbits, or_zero', hw]
      refine ⟨h.stand, rfl, h.none, h.execute, ?_⟩
      obtain hdone | ⟨hrun, hmem⟩ := h.done
      · exact .inl hdone
      · exact .inr ⟨hrun, (List.mem_cons.mp hmem).resolve_left fun hc => hnocopy c hc.symm⟩

/-! ## Actions and clauses -/

theorem takenOf_none (omode n : Mode) (hop : op = .equal) (hcopy : ∀ c, .copy c ∉ ps) : takenOf omode n op ps = 0 := by
  induction ps with
  | nil => rfl
  | cons p ps ih =>
    have hp : p.taken omode n op = 0 := by
      cases p with
      | copy c => exact absurd (List.mem_cons_self ..) (hcopy c)
      | X => exact if_neg fun hc => nomatch hop ▸ hc.1
      | _ => rfl
    rw [takenOf, hp, ih fun c hc => hcopy c (List.mem_cons_of_mem _ hc)]
    rfl

theorem takenOf_copies {c : Class} (omode n : Mode) (hcopy : ∀ d, .copy d ∈ ps → d = c) :
    takenOf omode n .equal ps = if .copy c ∈ ps then triple (c.value n) else 0 := by
  induction ps with
  | nil => rfl
  | cons p ps ih =>
    rw [takenOf, ih fun d hd => hcopy d (List.mem_cons_of_mem _ hd)]
    by_cases hp : ∃ d, p = .copy d
    · obtain ⟨d, rfl⟩ := hp
      obtain rfl := hcopy d (List.mem_cons_self ..)
      rw [if_pos (List.mem_cons_self ..)]
      split
      · exact BitVec.or_self
      · exact BitVec.or_zero
    · have hnone : p.taken omode n .equal = 0 := by
        cases p with
        | copy d => exact absurd ⟨d, rfl⟩ hp
        | X => simp [Perm.taken]
        | _ => rfl
      have hmem : .copy c ∈ p :: ps ↔ .copy c ∈ ps :=
        ⟨fun h => (List.mem_cons.mp h).resolve_left fun hc => hp ⟨c, hc.symm⟩, List.mem_cons_of_mem _⟩
      rw [hnone]
      simp only [hmem]
      exact BitVec.zero_or

theorem any_copy : ps.any Perm.isCopy = true ↔ ∃ c, .copy c ∈ ps := by
  rw [List.any_eq_true]
  constructor
  · rintro ⟨p, hp, hcopy⟩
    cases p with
    | copy c => exact ⟨c, hp⟩
    | _ => exact absurd hcopy Bool.false_ne_true
  · rintro ⟨c, hc⟩
    exact ⟨_, hc, rfl⟩

/-- **An action does what it says**, after what has been compiled before it. -/
theorem action_ok (umask omode m : Mode) (hstand : Standing who s.who) (a : Action) (ha : a.Plain who) :
    Standing who (s.action (~~~umask) a).who ∧
      run omode (s.action (~~~umask) a).l m = a.apply umask omode who (run omode s.l m) := by
  have hallowed : ∀ p ∈ a.perms, Allowed who a.op p := by
    intro p hp
    refine ⟨?_, ?_⟩
    · rintro rfl
      exact ha.execute hp
    · rintro (rfl | rfl) hzero
      · exact (ha.special hzero).1 hp
      · exact (ha.special hzero).2 hp
  have hwho : (s.start a.op).who = who := hstand.start
  have hstand' : Standing who (s.start a.op).who := ⟨hstand.shape, .inl hwho⟩
  have hsticky : (s.start a.op).perm &&& S_ISVTX = 0 := BitVec.zero_and
  have hzero : ∀ b : Mode, 0 ||| b = b := fun _ => BitVec.zero_or
  by_cases hop : a.op = .equal
  · have hundone : (s.start a.op).equalopdone = false := if_pos hop
    have happly : a.apply umask omode who (run omode s.l m) =
        run omode s.l m &&& ~~~a.cleared umask who |||
          (reach umask who &&& (bitsOf who a.perms ||| takenOf omode (run omode s.l m) .equal a.perms)) := by
      rw [Action.apply, hop]
    rw [happly]
    unfold Sheet.action
    rw [hop] at hallowed hundone hwho hstand' hsticky ⊢
    by_cases hcopy : ∃ c, .copy c ∈ a.perms
    · obtain ⟨c, hc⟩ := hcopy
      obtain hnone | ⟨hbits, d, hd⟩ := ha.assign hop
      · exact absurd hc (hnone c)
      obtain rfl := hd c hc
      have hcopying : Copying umask omode who c m (run omode s.l m) a.perms (s.start .equal) :=
        ⟨⟨hstand.shape, .inl rfl⟩, hwho, rfl, rfl, .inr ⟨rfl, hc⟩⟩
      obtain ⟨hend, hrun⟩ := hcopying.letters hallowed hbits hd
      refine ⟨⟨hstand.shape, .inl hend⟩, hrun.trans ?_⟩
      rw [Action.cleared, if_pos ⟨any_copy.mpr ⟨c, hc⟩, hbits⟩, hbits, takenOf_copies omode _ hd, if_pos hc, hzero]
      rfl
    · have hnone : ∀ c, .copy c ∉ a.perms := fun c hc => hcopy ⟨c, hc⟩
      have hwaiting : Waiting who (s.start .equal) :=
        ⟨hstand', fun _ => hsticky, fun hne => absurd hwho hne, rfl, hundone⟩
      obtain ⟨hend, hrun⟩ := hwaiting.letters umask omode m hallowed hnone
      refine ⟨hend, hrun.trans ?_⟩
      have hcleared : a.cleared umask who = if who = 0 then STANDARD_BITS else who :=
        if_neg fun h => hcopy (any_copy.mp h.1)
      have hnoperm : (s.start .equal).perm = 0 := rfl
      rw [hcleared, takenOf_none omode _ rfl hnone, or_zero', hnoperm, hzero]
      rfl
  · have hpending : Pending umask omode who a.op m (run omode s.l m) 0 (s.start a.op) := by
      refine ⟨hstand', fun _ => hsticky, .inl rfl, even_zero, even_zero, ?_⟩
      have hand : reach umask who &&& 0 = 0 := BitVec.and_zero
      rw [hand, comb_zero]
      rfl
    obtain ⟨hend, hrun⟩ := hpending.letters hop hallowed
    refine ⟨hend, hrun.trans ?_⟩
    have htotal : total omode 0 (s.start a.op) = 0 := by
      have hnoX : (s.start a.op).permXbits = 0 := rfl
      have hnoperm : (s.start a.op).perm = 0 := rfl
      rw [total, hnoX, hnoperm, executable_zero, or_zero', or_zero']
    rw [htotal, hzero, Action.apply]
    cases hcase : a.op with
    | plus => rfl
    | minus => rfl
    | equal => exact absurd hcase hop

theorem actions_ok (hstand : Standing who s.who) (as : List Action) (has : ∀ a ∈ as, a.Plain who) :
    run omode (as.foldl (fun s a => s.action (~~~umask) a) s).l m =
      as.foldl (fun m a => a.apply umask omode who m) (run omode s.l m) := by
  induction as generalizing s with
  | nil => rfl
  | cons a as ih =>
    obtain ⟨hend, hrun⟩ := action_ok umask omode m hstand a (has a (List.mem_cons_self ..))
    rw [List.foldl_cons, List.foldl_cons, ih hend fun b hb => has b (List.mem_cons_of_mem _ hb), hrun]

theorem clause_ok (c : Clause) (hc : ∀ a ∈ c.first :: c.more, a.Plain (whoBits c.who)) (s : Sheet) :
    run omode (s.clause (~~~umask) c).l m = c.apply umask omode (run omode s.l m) := by
  have hstand : Standing (whoBits c.who) { s with who := whoBits c.who }.who := ⟨whoBits_shape c.who, .inl rfl⟩
  exact actions_ok hstand (c.first :: c.more) hc

theorem clauses_ok (cs : List Clause) (hcs : ∀ c ∈ cs, ∀ a ∈ c.first :: c.more, a.Plain (whoBits c.who)) (s : Sheet) :
    run omode (cs.foldl (fun s c => s.clause (~~~umask) c) s).l m =
      cs.foldl (fun m c => c.apply umask omode m) (run omode s.l m) := by
  induction cs generalizing s with
  | nil => rfl
  | cons c cs ih =>
    rw [List.foldl_cons, List.foldl_cons, ih fun d hd => hcs d (List.mem_cons_of_mem _ hd),
      clause_ok c (hcs c (List.mem_cons_self ..))]

end DiscoBSD.Modes
