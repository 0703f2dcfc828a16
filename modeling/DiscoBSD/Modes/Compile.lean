import DiscoBSD.Lib.Except
import DiscoBSD.Modes.Commands
import DiscoBSD.Modes.Grammar

/-!
# Strings compiled to lists

The compiler over lists instead of a block that grows, and over the grammar instead of characters. **With memory granted
`setmode` writes that list**: the block has room for every command before it is written. What is no mode string is
answered with `NULL`.
-/

set_option autoImplicit false

namespace DiscoBSD.Modes

open Lib (ok_bind ite_bind_ok)

variable {al : Allocator} (mask : Mode) {out : Out} {l : List Bitcmd} {w : Work}

/-! ## Room for commands -/

/-- Every request for memory is granted. -/
def Granting (al : Allocator) : Prop := ∀ n, (al n).isSome

/-- There is room for the end of the commands. -/
structure Roomy (out : Out) : Prop where
  room : out.set < out.setlen
  least : 8 ≤ out.setlen

theorem room_ok (hal : Granting al) (hr : Roomy out) (hw : Written out l) :
    ∃ out', room al out = .ok out' ∧ Written out' l ∧ out'.set + 2 < out'.setlen ∧ 8 ≤ out'.setlen := by
  have hroom := hr.room
  have hleast := hr.least
  by_cases hfull : out.set ≥ out.setlen - 2
  · obtain ⟨junk, hjunk⟩ := Option.isSome_iff_exists.mp (hal out.asked)
    refine ⟨{ out with
      cmds := fun i => if i < out.setlen then out.cmds i else junk i, setlen := out.setlen + 4, asked := out.asked + 1 },
      ?_, ⟨?_, hw.known, hw.set⟩, ?_, ?_⟩
    · rw [room, if_pos hfull, hjunk]
    · refine hw.laid.congr fun j _ hj => if_pos ?_
      have := hw.set
      omega
    · dsimp only
      omega
    · dsimp only
      omega
  · exact ⟨out, if_neg hfull, hw, by omega, hleast⟩

/-- What `addcmd` writes for `=`, `+`, `-` and `X`. -/
def bitsCmds (op : UInt8) (who oparg mask : Mode) : List Bitcmd :=
  if op = chr '=' then
    [⟨chr '-', 0, if who ≠ 0 then who else STANDARD_BITS⟩, ⟨chr '+', 0, (if who ≠ 0 then who else mask) &&& oparg⟩]
  else [⟨op, 0, (if who ≠ 0 then who else mask) &&& oparg⟩]

/-- What it writes for `u`, `g` and `o`. -/
def copyCmd (op : UInt8) (who : Mode) (oparg : UInt8) (mask : Mode) : Bitcmd :=
  ⟨op, cmd2Of who oparg, if who ≠ 0 then ~~~0 else mask⟩

theorem same_bits {c : Bitcmd} {op : UInt8} {bits : Mode} (h : IsBits op) : Same { c with cmd := op, bits := bits } ⟨op, 0, bits⟩ := by
  refine ⟨rfl, rfl, fun (hcopy : IsCopy op) => ?_⟩
  have hnot : ∀ op, IsBits op → ¬IsCopy op := by
    rintro op (rfl | rfl | rfl) <;> decide
  exact absurd hcopy (hnot op h)

theorem addBits_ok (hw : Written out l) (hroom : out.set + 2 < out.setlen) {op : UInt8} (hop : op = chr '=' ∨ IsBits op)
    (who oparg : Mode) :
    ∃ out', addBits out op who oparg mask = .ok out' ∧ Written out' (l ++ bitsCmds op who oparg mask) ∧
      out'.set < out'.setlen ∧ out'.setlen = out.setlen := by
  by_cases heq : op = chr '='
  · obtain ⟨out₁, hput₁, hw₁, hset₁, hlen₁, -⟩ :=
      hw.put (by omega) (f := fun set => { set with cmd := chr '-', bits := if who ≠ 0 then who else STANDARD_BITS })
        (same_bits (.inr (.inl rfl))) (.inl (.inr (.inl rfl)))
    obtain ⟨out₂, hput₂, hw₂, hset₂, hlen₂, -⟩ :=
      hw₁.put (by omega) (f := fun set => { set with cmd := chr '+', bits := (if who ≠ 0 then who else mask) &&& oparg })
        (same_bits (.inl rfl)) (.inl (.inl rfl))
    refine ⟨out₂, ?_, ?_, by omega, by omega⟩
    · simp only [addBits, if_pos heq, bind, Except.bind, pure, Except.pure]
      rw [hput₁]
      exact hput₂
    · rw [bitsCmds, if_pos heq]
      rwa [List.append_assoc] at hw₂
  · have hbits : IsBits op := hop.resolve_left heq
    obtain ⟨out₁, hput₁, hw₁, hset₁, hlen₁, -⟩ :=
      hw.put (by omega) (f := fun set => { set with cmd := op, bits := (if who ≠ 0 then who else mask) &&& oparg })
        (same_bits hbits) (.inl hbits)
    refine ⟨out₁, ?_, ?_, by omega, hlen₁⟩
    · simp only [addBits, if_neg heq, bind, Except.bind, pure, Except.pure]
      exact hput₁
    · rwa [bitsCmds, if_neg heq]

theorem addCopy_ok (hw : Written out l) (hroom : out.set + 2 < out.setlen) {op : UInt8} (hop : IsCopy op) (who : Mode)
    (oparg : UInt8) :
    ∃ out', addCopy out op who oparg mask = .ok out' ∧ Written out' (l ++ [copyCmd op who oparg mask]) ∧
      out'.set < out'.setlen ∧ out'.setlen = out.setlen := by
  obtain ⟨out₁, hput₁, hw₁, hset₁, hlen₁, -⟩ :=
    hw.put (by omega) (f := fun _ => copyCmd op who oparg mask) (Same.refl _) (.inr hop)
  exact ⟨out₁, hput₁, hw₁, by omega, hlen₁⟩

/-! ## The loop over permission letters -/

/-- `Work` with the list that has been written. -/
structure Sheet where
  who : Mode
  perm : Mode
  permXbits : Mode
  equalopdone : Bool
  l : List Bitcmd

/-- The work agrees with the sheet, and has room. -/
structure Rep (w : Work) (s : Sheet) : Prop where
  who : w.who = s.who
  perm : w.perm = s.perm
  permXbits : w.permXbits = s.permXbits
  equalopdone : w.equalopdone = s.equalopdone
  written : Written w.out s.l
  roomy : Roomy w.out

namespace Sheet

def flushPerm (mask : Mode) (op : UInt8) (s : Sheet) : Sheet :=
  { s with perm := 0, l := s.l ++ bitsCmds op s.who s.perm mask }

def flushX (mask : Mode) (s : Sheet) : Sheet :=
  { s with permXbits := 0, l := s.l ++ bitsCmds (chr 'X') s.who s.permXbits mask }

def copyPerm (mask : Mode) (op c : UInt8) (s : Sheet) : Sheet :=
  let s := if s.perm ≠ 0 then s.flushPerm mask op else s
  let s := if op = chr '=' then { s with equalopdone := true } else s
  let s := if op = chr '+' ∧ s.permXbits ≠ 0 then s.flushX mask else s
  { s with l := s.l ++ [copyCmd c s.who op mask] }

def lastPerm (mask : Mode) (op : UInt8) (s : Sheet) : Sheet :=
  let s :=
    if s.perm ≠ 0 ∨ op = chr '=' ∧ ¬s.equalopdone then
      (if op = chr '=' then { s with equalopdone := true } else s).flushPerm mask op
    else s
  if s.permXbits ≠ 0 then s.flushX mask else s

def letter (mask : Mode) (op : UInt8) (p : Perm) (s : Sheet) : Sheet :=
  match p with
  | .r => { s with perm := s.perm ||| 0o444 }
  | .w => { s with perm := s.perm ||| 0o222 }
  | .x => { s with perm := s.perm ||| S_IX }
  | .X => { s with permXbits := S_IX }
  | .s => if s.who &&& ~~~S_IRWXO ≠ 0 then { s with perm := s.perm ||| (S_ISUID ||| S_ISGID) } else s
  | .t => if s.who &&& ~~~S_IRWXO ≠ 0 then { s with who := s.who ||| S_ISVTX, perm := s.perm ||| S_ISVTX } else s
  | .copy c => s.copyPerm mask op c.char

def letters (mask : Mode) (op : UInt8) : List Perm → Sheet → Sheet
  | [], s => s.lastPerm mask op
  | p :: ps, s => letters mask op ps (s.letter mask op p)

/-- As an action starts. -/
def start (op : Op) (s : Sheet) : Sheet :=
  { s with
    who := s.who &&& ~~~S_ISVTX, perm := 0, permXbits := 0
    equalopdone := if op = .equal then false else s.equalopdone }

/-- An action, from `getop` on. -/
def action (mask : Mode) (a : Action) (s : Sheet) : Sheet := letters mask a.op.char a.perms (s.start a.op)

def clause (mask : Mode) (c : Clause) (s : Sheet) : Sheet :=
  (c.first :: c.more).foldl (fun s a => s.action mask a) { s with who := whoBits c.who }

end Sheet

theorem Op.char_cases (op : Op) : op.char = chr '=' ∨ IsBits op.char := by
  cases op <;> decide

theorem Op.char_eq (op : Op) : op.char = chr '=' ↔ op = .equal := by
  cases op <;> decide

theorem Class.char_copy (c : Class) : IsCopy c.char := by
  cases c <;> decide

theorem flushPerm_ok (hal : Granting al) {s : Sheet} (h : Rep w s) {op : UInt8} (hop : op = chr '=' ∨ IsBits op) :
    ∃ w', flushPerm al mask op w = .ok w' ∧ Rep w' (s.flushPerm mask op) := by
  obtain ⟨out₁, hroom, hw₁, hset₁, hlen₁⟩ := room_ok hal h.roomy h.written
  obtain ⟨out₂, hadd, hw₂, hset₂, hlen₂⟩ := addBits_ok mask hw₁ hset₁ hop w.who w.perm
  have hleast₂ : 8 ≤ out₂.setlen := by omega
  refine ⟨{ w with perm := 0, out := out₂ }, ?_, h.who, rfl, h.permXbits, h.equalopdone, ?_, ⟨hset₂, hleast₂⟩⟩
  · simp only [flushPerm, hroom, bind, Except.bind, hadd, pure, Except.pure]
  · rw [h.who, h.perm] at hw₂
    exact hw₂

theorem flushX_ok (hal : Granting al) {s : Sheet} (h : Rep w s) : ∃ w', flushX al mask w = .ok w' ∧ Rep w' (s.flushX mask) := by
  obtain ⟨out₁, hroom, hw₁, hset₁, hlen₁⟩ := room_ok hal h.roomy h.written
  obtain ⟨out₂, hadd, hw₂, hset₂, hlen₂⟩ :=
    addBits_ok mask hw₁ hset₁ (.inr (.inr (.inr rfl)) : chr 'X' = chr '=' ∨ IsBits (chr 'X')) w.who w.permXbits
  have hleast₂ : 8 ≤ out₂.setlen := by omega
  refine ⟨{ w with permXbits := 0, out := out₂ }, ?_, h.who, h.perm, rfl, h.equalopdone, ?_, ⟨hset₂, hleast₂⟩⟩
  · simp only [flushX, hroom, bind, Except.bind, hadd, pure, Except.pure]
  · rw [h.who, h.permXbits] at hw₂
    exact hw₂

theorem copyPerm_ok (hal : Granting al) {s : Sheet} (h : Rep w s) {op c : UInt8} (hop : op = chr '=' ∨ IsBits op)
    (hc : IsCopy c) : ∃ w', copyPerm al mask op c w = .ok w' ∧ Rep w' (s.copyPerm mask op c) := by
  have hperm : ∃ w₁, (if w.perm ≠ 0 then flushPerm al mask op w else pure w) = .ok w₁ ∧
      Rep w₁ (if s.perm ≠ 0 then s.flushPerm mask op else s) := by
    rw [h.perm]
    split
    · exact flushPerm_ok mask hal h hop
    · exact ⟨w, rfl, h⟩
  obtain ⟨w₁, hrun₁, h₁⟩ := hperm
  unfold Sheet.copyPerm
  dsimp only
  generalize (if s.perm ≠ 0 then s.flushPerm mask op else s) = s₁ at h₁ ⊢
  have hdone : Rep (if op = chr '=' then { w₁ with equalopdone := true } else w₁)
      (if op = chr '=' then { s₁ with equalopdone := true } else s₁) := by
    split
    · exact ⟨h₁.who, h₁.perm, h₁.permXbits, rfl, h₁.written, h₁.roomy⟩
    · exact h₁
  generalize hw₂ : (if op = chr '=' then { w₁ with equalopdone := true } else w₁) = w₂ at hdone
  generalize (if op = chr '=' then { s₁ with equalopdone := true } else s₁) = s₂ at hdone ⊢
  have hX : ∃ w₃, (if op = chr '+' ∧ w₂.permXbits ≠ 0 then flushX al mask w₂ else pure w₂) = .ok w₃ ∧
      Rep w₃ (if op = chr '+' ∧ s₂.permXbits ≠ 0 then s₂.flushX mask else s₂) := by
    rw [hdone.permXbits]
    split
    · exact flushX_ok mask hal hdone
    · exact ⟨w₂, rfl, hdone⟩
  obtain ⟨w₃, hrun₃, h₃⟩ := hX
  generalize (if op = chr '+' ∧ s₂.permXbits ≠ 0 then s₂.flushX mask else s₂) = s₃ at h₃ ⊢
  obtain ⟨out₄, hroom, hw₄, hset₄, hlen₄⟩ := room_ok hal h₃.roomy h₃.written
  obtain ⟨out₅, hadd, hw₅, hset₅, hlen₅⟩ := addCopy_ok mask hw₄ hset₄ hc w₃.who op
  rw [h₃.who] at hw₅
  refine ⟨{ w₃ with out := out₅ }, ?_, h₃.who, h₃.perm, h₃.permXbits, h₃.equalopdone, hw₅, hset₅, ?_⟩
  · rw [copyPerm, ite_bind_ok hrun₁]
    dsimp only
    rw [hw₂, ite_bind_ok hrun₃]
    simp only [hroom, ok_bind, hadd]
    rfl
  · change 8 ≤ out₅.setlen
    omega

theorem lastPerm_ok (hal : Granting al) {s : Sheet} (h : Rep w s) {op : UInt8} (hop : op = chr '=' ∨ IsBits op) :
    ∃ w', lastPerm al mask op w = .ok w' ∧ Rep w' (s.lastPerm mask op) := by
  have hperm : ∃ w₁,
      (if w.perm ≠ 0 ∨ op = chr '=' ∧ ¬w.equalopdone then
        flushPerm al mask op (if op = chr '=' then { w with equalopdone := true } else w)
      else pure w) = .ok w₁ ∧
      Rep w₁ (if s.perm ≠ 0 ∨ op = chr '=' ∧ ¬s.equalopdone then
        (if op = chr '=' then { s with equalopdone := true } else s).flushPerm mask op else s) := by
    have hcond : (w.perm ≠ 0 ∨ op = chr '=' ∧ ¬w.equalopdone) = (s.perm ≠ 0 ∨ op = chr '=' ∧ ¬s.equalopdone) := by
      rw [h.perm, h.equalopdone]
    simp only [hcond]
    split
    · refine flushPerm_ok mask hal ?_ hop
      split
      · exact ⟨h.who, h.perm, h.permXbits, rfl, h.written, h.roomy⟩
      · exact h
    · exact ⟨w, rfl, h⟩
  obtain ⟨w₁, hrun₁, h₁⟩ := hperm
  have hX : ∃ w₂, (if w₁.permXbits ≠ 0 then flushX al mask w₁ else pure w₁) = .ok w₂ ∧ Rep w₂ (s.lastPerm mask op) := by
    unfold Sheet.lastPerm
    generalize (if s.perm ≠ 0 ∨ op = chr '=' ∧ ¬s.equalopdone then
        (if op = chr '=' then { s with equalopdone := true } else s).flushPerm mask op else s) = s₁ at h₁
    rw [h₁.permXbits]
    dsimp only
    split
    · exact flushX_ok mask hal h₁
    · exact ⟨w₁, rfl, h₁⟩
  obtain ⟨w₂, hrun₂, h₂⟩ := hX
  refine ⟨w₂, ?_, h₂⟩
  rw [lastPerm, ite_bind_ok hrun₁]
  exact hrun₂

/-- No permission letter stands there. -/
def Ends (rest : List UInt8) : Prop := ∀ c ∈ rest.head?, ∀ p : Perm, c ≠ p.char

/-- **The loop over the permission letters** writes what the sheet says. -/
theorem permLoop_ok (hal : Granting al) {op : UInt8} (hop : op = chr '=' ∨ IsBits op) (ps : List Perm) (rest : List UInt8)
    (hends : Ends rest) (w : Work) (s : Sheet) (h : Rep w s) :
    ∃ w', permLoop al mask op (ps.map Perm.char ++ rest) w = .ok (w', rest) ∧ Rep w' (s.letters mask op ps) := by
  induction ps generalizing w s with
  | nil =>
    obtain ⟨w', hlast, hrep⟩ := lastPerm_ok mask hal h hop
    refine ⟨w', ?_, hrep⟩
    rw [List.map_nil, List.nil_append]
    cases rest with
    | nil =>
      rw [permLoop, hlast]
      rfl
    | cons c rest =>
      have hnot : ∀ p : Perm, c ≠ p.char := hends c rfl
      have hr : c ≠ chr 'r' := hnot .r
      have hs : c ≠ chr 's' := hnot .s
      have ht : c ≠ chr 't' := hnot .t
      have hw : c ≠ chr 'w' := hnot .w
      have hX : c ≠ chr 'X' := hnot .X
      have hx : c ≠ chr 'x' := hnot .x
      have hcopy : ¬(c = chr 'u' ∨ c = chr 'g' ∨ c = chr 'o') := by
        rintro (hc | hc | hc)
        · exact hnot (.copy .u) hc
        · exact hnot (.copy .g) hc
        · exact hnot (.copy .o) hc
      rw [permLoop, if_neg hr, if_neg hs, if_neg ht, if_neg hw, if_neg hX, if_neg hx, if_neg hcopy, hlast]
      rfl
  | cons p ps ih =>
    have hstep : ∀ w₁, Rep w₁ (s.letter mask op p) →
        permLoop al mask op (p.char :: (ps.map Perm.char ++ rest)) w =
          permLoop al mask op (ps.map Perm.char ++ rest) w₁ →
        ∃ w', permLoop al mask op ((p :: ps).map Perm.char ++ rest) w = .ok (w', rest) ∧
          Rep w' (s.letters mask op (p :: ps)) := by
      intro w₁ h₁ hrun
      obtain ⟨w', hrest, hrep⟩ := ih w₁ _ h₁
      exact ⟨w', hrun.trans hrest, hrep⟩
    have hor : ∀ b : Mode, Rep { w with perm := w.perm ||| b } { s with perm := s.perm ||| b } := by
      intro b
      exact ⟨h.who, congrArg (· ||| b) h.perm, h.permXbits, h.equalopdone, h.written, h.roomy⟩
    cases p with
    | r => exact hstep _ (hor _) rfl
    | w => exact hstep _ (hor _) rfl
    | x => exact hstep _ (hor _) rfl
    | X => exact hstep { w with permXbits := S_IX } ⟨h.who, h.perm, rfl, h.equalopdone, h.written, h.roomy⟩ rfl
    | s =>
      by_cases hwho : s.who &&& ~~~S_IRWXO ≠ 0
      · refine hstep { w with perm := w.perm ||| (S_ISUID ||| S_ISGID) } ?_ ?_
        · simp only [Sheet.letter, if_pos hwho]
          exact hor _
        · exact if_pos (h.who ▸ hwho)
      · refine hstep w ?_ ?_
        · simp only [Sheet.letter, if_neg hwho]
          exact h
        · exact if_neg (h.who ▸ hwho)
    | t =>
      by_cases hwho : s.who &&& ~~~S_IRWXO ≠ 0
      · refine hstep { w with who := w.who ||| S_ISVTX, perm := w.perm ||| S_ISVTX } ?_ ?_
        · simp only [Sheet.letter, if_pos hwho]
          exact ⟨congrArg (· ||| S_ISVTX) h.who, (hor _).perm, h.permXbits, h.equalopdone, h.written, h.roomy⟩
        · exact if_pos (h.who ▸ hwho)
      · refine hstep w ?_ ?_
        · simp only [Sheet.letter, if_neg hwho]
          exact h
        · exact if_neg (h.who ▸ hwho)
    | copy c =>
      obtain ⟨w₁, hcopy, h₁⟩ := copyPerm_ok mask hal h hop c.char_copy
      refine hstep w₁ h₁ ?_
      cases c <;> exact congrArg (· >>= fun w => permLoop al mask op (ps.map Perm.char ++ rest) w) hcopy

/-! ## The loop over clauses -/

/-- No class stands there. -/
def NoWho (rest : List UInt8) : Prop := ∀ c ∈ rest.head?, ∀ k : Who, c ≠ k.char

theorem whoLoop_ok (ws : List Who) (rest : List UInt8) (hrest : NoWho rest) (b : Mode) :
    whoLoop (ws.map Who.char ++ rest) b = (ws.foldl (fun b k => b ||| k.bits) b, rest) := by
  induction ws generalizing b with
  | nil =>
    cases rest with
    | nil => rfl
    | cons c rest =>
      have hnot : ∀ k : Who, c ≠ k.char := hrest c rfl
      have ha : c ≠ chr 'a' := hnot .a
      have hu : c ≠ chr 'u' := hnot .u
      have hg : c ≠ chr 'g' := hnot .g
      have ho : c ≠ chr 'o' := hnot .o
      rw [List.map_nil, List.nil_append, whoLoop, if_neg ha, if_neg hu, if_neg hg, if_neg ho]
      rfl
  | cons k ws ih =>
    cases k <;> exact ih _

/-- Every string begins with classes, maybe none. -/
theorem exists_who (p : List UInt8) : ∃ ws rest, p = List.map Who.char ws ++ rest ∧ NoWho rest := by
  induction p with
  | nil => exact ⟨[], [], rfl, nofun⟩
  | cons c p ih =>
    by_cases hc : ∃ k : Who, c = k.char
    · obtain ⟨k, rfl⟩ := hc
      obtain ⟨ws, rest, rfl, hrest⟩ := ih
      exact ⟨k :: ws, rest, rfl, hrest⟩
    · refine ⟨[], c :: p, rfl, ?_⟩
      rintro _ ⟨⟩ k rfl
      exact hc ⟨k, rfl⟩

/-- Every string begins with permission letters, maybe none. -/
theorem exists_perms (p : List UInt8) : ∃ ps rest, p = List.map Perm.char ps ++ rest ∧ Ends rest := by
  induction p with
  | nil => exact ⟨[], [], rfl, nofun⟩
  | cons c p ih =>
    by_cases hc : ∃ a : Perm, c = a.char
    · obtain ⟨a, rfl⟩ := hc
      obtain ⟨ps, rest, rfl, hrest⟩ := ih
      exact ⟨a :: ps, rest, rfl, hrest⟩
    · refine ⟨[], c :: p, rfl, ?_⟩
      rintro _ ⟨⟩ a rfl
      exact hc ⟨a, rfl⟩

theorem Op.char_ends (op : Op) (p : Perm) : op.char ≠ p.char := by
  cases p with
  | copy c => cases op <;> cases c <;> decide
  | _ => cases op <;> decide

theorem comma_ends (p : Perm) : chr ',' ≠ p.char := by
  cases p with
  | copy c => cases c <;> decide
  | _ => decide

theorem Op.char_noWho (op : Op) (k : Who) : op.char ≠ k.char := by
  cases op <;> cases k <;> decide

theorem Op.char_ne_comma (op : Op) : op.char ≠ chr ',' := by
  cases op <;> decide

theorem tailText_ends (as : List Action) (cs : List (List UInt8)) : Ends (tailText as cs) := by
  cases as with
  | cons a as =>
    rintro _ ⟨⟩
    exact a.op.char_ends
  | nil =>
    cases cs with
    | nil => nofun
    | cons c cs =>
      rintro _ ⟨⟩
      exact comma_ends

theorem tailText_noWho (a : Action) (as : List Action) (cs : List (List UInt8)) : NoWho (tailText (a :: as) cs) := by
  rintro _ ⟨⟩
  exact a.op.char_noWho

theorem tailText_action (a : Action) (as : List Action) (cs : List (List UInt8)) :
    tailText (a :: as) cs = a.op.char :: (a.perms.map Perm.char ++ tailText as cs) := by
  simp [tailText, Action.text]

theorem tailText_clause (c : Clause) (cs : List (List UInt8)) :
    tailText [] (c.text :: cs) = chr ',' :: (c.who.map Who.char ++ tailText (c.first :: c.more) cs) := by
  simp [tailText, Clause.text]

theorem Symbolic.text_eq (m : Symbolic) :
    m.text = m.first.who.map Who.char ++ tailText (m.first.first :: m.first.more) (m.more.map Clause.text) := by
  simp [Symbolic.text, tailText, Clause.text]

theorem Rep.start {s : Sheet} (h : Rep w s) (op : Op) :
    Rep { (if op.char = chr '=' then { w with equalopdone := false } else w) with
      who := (if op.char = chr '=' then { w with equalopdone := false } else w).who &&& ~~~S_ISVTX, perm := 0, permXbits := 0 }
      (s.start op) := by
  have hop := op.char_eq
  by_cases heq : op = .equal
  · rw [if_pos (hop.mpr heq)]
    refine ⟨congrArg (· &&& ~~~S_ISVTX) h.who, rfl, rfl, ?_, h.written, h.roomy⟩
    exact (if_pos heq).symm
  · rw [if_neg fun hc => heq (hop.mp hc)]
    refine ⟨congrArg (· &&& ~~~S_ISVTX) h.who, rfl, rfl, ?_, h.written, h.roomy⟩
    exact h.equalopdone.trans (if_neg heq).symm

/-- What `getop` does after an action. -/
def next (al : Allocator) (mask : Mode) (turns : ℕ) (w : Work) : List UInt8 → Except Stop Work
  | [] => pure w
  | c :: rest =>
    if c ≠ chr ',' then getop al mask turns (c :: rest) w
    else getop al mask turns (whoLoop rest 0).2 { w with who := (whoLoop rest 0).1 }

/-- **One action**, up to what follows it. -/
theorem getop_action (hal : Granting al) (turns : ℕ) (a : Action) (rest : List UInt8) (hends : Ends rest) {s : Sheet}
    (h : Rep w s) :
    ∃ w', getop al mask (turns + 1) (a.op.char :: (a.perms.map Perm.char ++ rest)) w = next al mask turns w' rest ∧
      Rep w' (s.action mask a) := by
  have hop : ¬(a.op.char ≠ chr '+' ∧ a.op.char ≠ chr '-' ∧ a.op.char ≠ chr '=') := by
    cases a.op <;> decide
  obtain ⟨w', hrun, hrep⟩ := permLoop_ok mask hal a.op.char_cases a.perms rest hends _ _ (h.start a.op)
  refine ⟨w', ?_, hrep⟩
  rw [getop, if_neg hop]
  dsimp only
  rw [hrun]
  cases rest <;> rfl

/-- A sheet after actions and clauses. -/
def Sheet.tail (mask : Mode) (as : List Action) (cs : List Clause) (s : Sheet) : Sheet :=
  cs.foldl (fun s c => s.clause mask c) (as.foldl (fun s a => s.action mask a) s)

/-- **Every clause is compiled to what the sheet says.** -/
theorem getop_ok (hal : Granting al) (turns : ℕ) (a : Action) (as : List Action) (cs : List Clause) (w : Work) (s : Sheet)
    (h : Rep w s) (hlen : (tailText (a :: as) (cs.map Clause.text)).length < turns) :
    ∃ w', getop al mask turns (tailText (a :: as) (cs.map Clause.text)) w = .ok w' ∧ Rep w' (s.tail mask (a :: as) cs) := by
  induction turns generalizing a as cs w s with
  | zero => exact absurd hlen (Nat.not_lt_zero _)
  | succ turns ih =>
    rw [tailText_action] at hlen ⊢
    obtain ⟨w₁, hact, h₁⟩ := getop_action mask hal turns a _ (tailText_ends as (cs.map Clause.text)) h
    rw [hact]
    rw [List.length_cons, List.length_append] at hlen
    cases as with
    | cons a' as =>
      obtain ⟨w', hrun, hrep⟩ := ih a' as cs w₁ _ h₁ (by omega)
      refine ⟨w', ?_, hrep⟩
      rw [← hrun, tailText_action, next, if_pos a'.op.char_ne_comma]
    | nil =>
      cases cs with
      | nil => exact ⟨w₁, rfl, h₁⟩
      | cons c cs =>
        rw [List.map_cons, tailText_clause] at hlen ⊢
        have hwho := whoLoop_ok c.who _ (tailText_noWho c.first c.more (cs.map Clause.text)) 0
        have h₂ : Rep { w₁ with who := whoBits c.who } { s.action mask a with who := whoBits c.who } :=
          ⟨rfl, h₁.perm, h₁.permXbits, h₁.equalopdone, h₁.written, h₁.roomy⟩
        rw [List.length_cons, List.length_append] at hlen
        obtain ⟨w', hrun, hrep⟩ := ih c.first c.more cs _ _ h₂ (by omega)
        refine ⟨w', ?_, hrep⟩
        rw [← hrun, next, if_neg (not_not_intro rfl), hwho]
        rfl

/-- **What is compiled is in the grammar.** -/
theorem getop_null (hal : Granting al) (turns : ℕ) (p : List UInt8) (w : Work) (s : Sheet) (h : Rep w s)
    (hlen : p.length < turns) :
    getop al mask turns p w = .error .null ∨
      ∃ (a : Action) (as : List Action) (cs : List Clause), p = tailText (a :: as) (cs.map Clause.text) := by
  induction turns generalizing p w s with
  | zero => exact absurd hlen (Nat.not_lt_zero _)
  | succ turns ih =>
    cases p with
    | nil => exact .inl rfl
    | cons c p =>
      by_cases hop : ∃ op : Op, c = op.char
      · obtain ⟨op, rfl⟩ := hop
        obtain ⟨ps, rest, rfl, hends⟩ := exists_perms p
        obtain ⟨w₁, hact, h₁⟩ := getop_action mask hal turns ⟨op, ps⟩ rest hends h
        rw [hact]
        rw [List.length_cons, List.length_append] at hlen
        cases rest with
        | nil => exact .inr ⟨⟨op, ps⟩, [], [], by simp [tailText, Action.text]⟩
        | cons c rest =>
          by_cases hcomma : c = chr ','
          · obtain ⟨ws, p, rfl, hwho⟩ := exists_who rest
            rw [next, if_neg (not_not_intro hcomma), whoLoop_ok ws p hwho]
            have h₂ : Rep { w₁ with who := whoBits ws } { s.action mask ⟨op, ps⟩ with who := whoBits ws } :=
              ⟨rfl, h₁.perm, h₁.permXbits, h₁.equalopdone, h₁.written, h₁.roomy⟩
            rw [List.length_cons, List.length_append] at hlen
            obtain hnull | ⟨a, as, cs, rfl⟩ := ih p _ _ h₂ (by omega)
            · exact .inl hnull
            · refine .inr ⟨⟨op, ps⟩, [], ⟨ws, a, as⟩ :: cs, ?_⟩
              rw [tailText_action ⟨op, ps⟩, List.map_cons, tailText_clause, hcomma]
          · rw [next, if_pos hcomma]
            obtain hnull | ⟨a, as, cs, heq⟩ := ih (c :: rest) w₁ _ h₁ (by omega)
            · exact .inl hnull
            · refine .inr ⟨⟨op, ps⟩, a :: as, cs, ?_⟩
              rw [tailText_action, heq]
      · refine .inl ?_
        rw [getop, if_pos]
        refine ⟨?_, ?_, ?_⟩
        · intro hc
          exact hop ⟨.plus, hc⟩
        · intro hc
          exact hop ⟨.minus, hc⟩
        · intro hc
          exact hop ⟨.equal, hc⟩

end DiscoBSD.Modes
