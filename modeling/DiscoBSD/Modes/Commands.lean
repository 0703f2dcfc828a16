import DiscoBSD.Modes.Setmode

/-!
# Lists of commands

An array of commands stands for a list. **`getmode` carries out the list, and `compress_mode` leaves a list in place of
it that does the same**: it writes no further than it has read.
-/

set_option autoImplicit false

namespace DiscoBSD.Modes

variable {cmds cmds' : Cmds} {omode m : Mode} {l l' : List Bitcmd} {i n : ℕ} {c d : Bitcmd}

/-- What a command does to a mode. -/
def effect (omode : Mode) (set : Bitcmd) (newmode : Mode) : Mode := (command omode set newmode).getD newmode

/-- What a list of commands does to a mode. -/
def run (omode : Mode) (l : List Bitcmd) (newmode : Mode) : Mode := l.foldl (fun m c => effect omode c m) newmode

@[simp] theorem run_nil : run omode [] m = m := rfl

@[simp] theorem run_cons : run omode (c :: l) m = run omode l (effect omode c m) := rfl

theorem run_append : run omode (l ++ l') m = run omode l' (run omode l m) := List.foldl_append

def IsBits (op : UInt8) : Prop := op = chr '+' ∨ op = chr '-' ∨ op = chr 'X'

instance (op : UInt8) : Decidable (IsBits op) := inferInstanceAs (Decidable (_ ∨ _))

def IsCopy (op : UInt8) : Prop := op = chr 'u' ∨ op = chr 'g' ∨ op = chr 'o'

instance (op : UInt8) : Decidable (IsCopy op) := inferInstanceAs (Decidable (_ ∨ _))

/-- Two commands do the same; `cmd2` counts for the copies only. -/
structure Same (c d : Bitcmd) : Prop where
  cmd : c.cmd = d.cmd
  bits : c.bits = d.bits
  cmd2 : IsCopy d.cmd → c.cmd2 = d.cmd2

theorem Same.refl (c : Bitcmd) : Same c c := ⟨rfl, rfl, fun _ => rfl⟩

theorem Same.command (h : Same c d) : command omode c m = command omode d m := by
  by_cases hcopy : IsCopy d.cmd
  · rw [Bitcmd.ext h.cmd (h.cmd2 hcopy) h.bits]
  · unfold Modes.command
    have hnot := not_or.mp hcopy
    rw [h.cmd, h.bits, if_neg hnot.1, if_neg hnot.1, if_neg (not_or.mp hnot.2).1, if_neg (not_or.mp hnot.2).1,
      if_neg (not_or.mp hnot.2).2, if_neg (not_or.mp hnot.2).2]

/-- A command that `getmode` knows. -/
def Known (c : Bitcmd) : Prop := IsBits c.cmd ∨ IsCopy c.cmd

theorem Known.command (h : Known c) : command omode c m = some (effect omode c m) := by
  have hsome : ∃ m', Modes.command omode c m = some m' := by
    unfold Modes.command
    rcases h with (h | h | h) | (h | h | h) <;> rw [h] <;> exact ⟨_, rfl⟩
  obtain ⟨m', hm'⟩ := hsome
  rw [effect, hm', Option.getD_some]

theorem command_stop (h : c.cmd = 0) : command omode c m = none := by
  unfold command
  rw [h]
  rfl

/-- The array holds the commands of a list from an index on. -/
def Laid (cmds : Cmds) (i : ℕ) (l : List Bitcmd) : Prop := ∀ j (h : j < l.length), Same (cmds (i + j)) l[j]

theorem Laid.nil : Laid cmds i [] := fun _ h => absurd h (Nat.not_lt_zero _)

theorem laid_cons : Laid cmds i (c :: l) ↔ Same (cmds i) c ∧ Laid cmds (i + 1) l := by
  constructor
  · intro h
    refine ⟨h 0 (Nat.succ_pos _), fun j hj => ?_⟩
    have hnext := h (j + 1) (Nat.succ_lt_succ hj)
    rwa [show i + (j + 1) = i + 1 + j by omega] at hnext
  · rintro ⟨hfirst, hrest⟩ j hj
    cases j with
    | zero => exact hfirst
    | succ j =>
      have hnext := hrest j (Nat.lt_of_succ_lt_succ hj)
      rwa [show i + 1 + j = i + (j + 1) by omega] at hnext

theorem Laid.congr (h : Laid cmds i l) (hsame : ∀ j, i ≤ j → j < i + l.length → cmds' j = cmds j) : Laid cmds' i l := by
  intro j hj
  rw [hsame (i + j) (by omega) (by omega)]
  exact h j hj

theorem Laid.snoc (h : Laid cmds 0 l) (hc : Same (cmds l.length) c) : Laid cmds 0 (l ++ [c]) := by
  intro j hj
  rw [List.length_append, List.length_singleton] at hj
  rw [Nat.zero_add]
  rcases Nat.lt_or_eq_of_le (Nat.le_of_lt_succ hj) with hlt | heq
  · rw [List.getElem_append_left hlt]
    have hold := h j hlt
    rwa [Nat.zero_add] at hold
  · subst heq
    rw [List.getElem_append_right (Nat.le_refl _)]
    simpa using hc

/-- The array holds a list from an index on, and the end of it. -/
structure Holds (cmds : Cmds) (i : ℕ) (l : List Bitcmd) : Prop where
  laid : Laid cmds i l
  known : ∀ c ∈ l, Known c
  stop : (cmds (i + l.length)).cmd = 0

theorem holds_cons : Holds cmds i (c :: l) ↔ Same (cmds i) c ∧ Known c ∧ Holds cmds (i + 1) l := by
  have hindex : i + (c :: l).length = i + 1 + l.length := by
    rw [List.length_cons]
    omega
  constructor
  · rintro ⟨hlaid, hknown, hstop⟩
    rw [hindex] at hstop
    exact ⟨(laid_cons.mp hlaid).1, hknown c (List.mem_cons_self ..), (laid_cons.mp hlaid).2,
      fun d hd => hknown d (List.mem_cons_of_mem _ hd), hstop⟩
  · rintro ⟨hsame, hknown, hlaid, hall, hstop⟩
    rw [← hindex] at hstop
    refine ⟨laid_cons.mpr ⟨hsame, hlaid⟩, fun d hd => ?_, hstop⟩
    rcases List.mem_cons.mp hd with rfl | hd
    · exact hknown
    · exact hall d hd

theorem Holds.congr (h : Holds cmds i l) (hsame : ∀ j, i ≤ j → cmds' j = cmds j) : Holds cmds' i l := by
  refine ⟨h.laid.congr fun j hj _ => hsame j hj, h.known, ?_⟩
  rw [hsame _ (Nat.le_add_right ..)]
  exact h.stop

/-- **`getmode` carries out the list.** -/
theorem commands_ok (left i : ℕ) (m : Mode) (h : Holds cmds i l) (hleft : l.length < left) :
    commands omode cmds left i m = .ok (run omode l m) := by
  induction l generalizing left i m with
  | nil =>
    obtain ⟨left, rfl⟩ := Nat.exists_eq_succ_of_ne_zero (by omega : left ≠ 0)
    have hstop : (cmds i).cmd = 0 := h.stop
    rw [Nat.succ_eq_add_one, commands, command_stop hstop]
    rfl
  | cons c l ih =>
    obtain ⟨left, rfl⟩ := Nat.exists_eq_succ_of_ne_zero (by omega : left ≠ 0)
    obtain ⟨hsame, hknown, hrest⟩ := holds_cons.mp h
    rw [Nat.succ_eq_add_one, commands, hsame.command, hknown.command]
    exact ih left (i + 1) _ hrest (by rw [List.length_cons] at hleft; omega)

/-! ## Writing commands -/

/-- What has been written so far is a list. -/
structure Written (out : Out) (l : List Bitcmd) : Prop where
  laid : Laid out.cmds 0 l
  known : ∀ c ∈ l, Known c
  set : out.set = l.length

/-- A command more. -/
theorem Written.put {out : Out} (h : Written out l) (hroom : out.set < out.setlen) {f : Bitcmd → Bitcmd}
    (hsame : Same (f (out.cmds out.set)) c) (hknown : Known c) :
    ∃ out', out.put f = .ok out' ∧ Written out' (l ++ [c]) ∧ out'.set = out.set + 1 ∧ out'.setlen = out.setlen ∧
      out'.asked = out.asked ∧ ∀ j, out.set < j → out'.cmds j = out.cmds j := by
  refine ⟨_, if_pos hroom, ⟨?_, ?_, ?_⟩, rfl, rfl, rfl, fun j hj => Function.update_of_ne (by omega) ..⟩
  · refine (h.laid.congr fun j _ hj => Function.update_of_ne ?_ ..).snoc ?_
    · rw [h.set]
      omega
    · rw [← h.set]
      dsimp only
      rwa [Function.update_self]
  · intro d hd
    rcases List.mem_append.mp hd with hd | hd
    · exact h.known d hd
    · rw [List.mem_singleton.mp hd]
      exact hknown
  · rw [List.length_append, List.length_singleton, ← h.set]

/-- The end of the commands. -/
theorem Written.stop {out : Out} (h : Written out l) (hroom : out.set < out.setlen) {f : Bitcmd → Bitcmd}
    (hstop : (f (out.cmds out.set)).cmd = 0) :
    ∃ out', out.put f = .ok out' ∧ Holds out'.cmds 0 l ∧ out'.setlen = out.setlen := by
  refine ⟨_, if_pos hroom, ⟨?_, h.known, ?_⟩, rfl⟩
  · refine h.laid.congr fun j _ hj => Function.update_of_ne ?_ ..
    rw [h.set]
    omega
  · rw [Nat.zero_add, ← h.set]
    dsimp only
    rwa [Function.update_self]

/-! ## compress_mode -/

/-- What three commands do that stand for a run of them. -/
def gathered (omode setbits clrbits Xbits m : Mode) : Mode :=
  if omode &&& (S_IFDIR ||| S_IX) ≠ 0 then (m &&& ~~~clrbits) ||| setbits ||| Xbits else (m &&& ~~~clrbits) ||| setbits

theorem effect_minus (h : c.cmd = chr '-') : effect omode c m = m &&& ~~~c.bits := by
  rw [effect, command, h]
  rfl

theorem effect_plus (h : c.cmd = chr '+') : effect omode c m = m ||| c.bits := by
  rw [effect, command, h]
  rfl

theorem effect_X (h : c.cmd = chr 'X') :
    effect omode c m = if omode &&& (S_IFDIR ||| S_IX) ≠ 0 then m ||| c.bits else m := by
  rw [effect, command, h]
  rfl

/-- Words that agree in each bit, for a Boolean law. -/
theorem gathered_minus (s c x b : Mode) :
    gathered omode (s &&& ~~~b) (c ||| b) (x &&& ~~~b) m = gathered omode s c x m &&& ~~~b := by
  have hlaw : ∀ m s c x b : Bool, (m && !(c || b) || s && !b) = ((m && !c || s) && !b) ∧
      (m && !(c || b) || s && !b || x && !b) = ((m && !c || s || x) && !b) := by decide
  unfold gathered
  split
  all_goals
    apply BitVec.eq_of_getLsbD_eq
    intro i hi
    simp only [BitVec.getLsbD_and, BitVec.getLsbD_or, BitVec.getLsbD_not, hi, decide_true, Bool.true_and]
  · exact (hlaw _ _ _ _ _).2
  · exact (hlaw _ _ _ false _).1

theorem gathered_plus (s c x b : Mode) :
    gathered omode (s ||| b) (c &&& ~~~b) (x &&& ~~~b) m = gathered omode s c x m ||| b := by
  have hlaw : ∀ m s c x b : Bool, (m && !(c && !b) || (s || b)) = (m && !c || s || b) ∧
      (m && !(c && !b) || (s || b) || x && !b) = (m && !c || s || x || b) := by decide
  unfold gathered
  split
  all_goals
    apply BitVec.eq_of_getLsbD_eq
    intro i hi
    simp only [BitVec.getLsbD_and, BitVec.getLsbD_or, BitVec.getLsbD_not, hi, decide_true, Bool.true_and]
  · exact (hlaw _ _ _ _ _).2
  · exact (hlaw _ _ _ false _).1

theorem gathered_X (s c x b : Mode) :
    gathered omode s c (x ||| (b &&& ~~~s)) m =
      if omode &&& (S_IFDIR ||| S_IX) ≠ 0 then gathered omode s c x m ||| b else gathered omode s c x m := by
  have hlaw : ∀ m s c x b : Bool, (m && !c || s || (x || b && !s)) = (m && !c || s || x || b) := by decide
  unfold gathered
  split
  · apply BitVec.eq_of_getLsbD_eq
    intro i hi
    simp only [BitVec.getLsbD_and, BitVec.getLsbD_or, BitVec.getLsbD_not, hi, decide_true, Bool.true_and]
    exact hlaw ..
  · rfl

theorem gathered_empty : gathered omode 0 0 0 m = m := by
  have hor : ∀ m : Mode, m ||| 0 = m := fun m => BitVec.or_zero
  have hand : m &&& ~~~0 = m := BitVec.and_allOnes
  rw [gathered, hand, hor, hor, ite_self]

/-- How many commands are written for a run. -/
def count (setbits clrbits Xbits : Mode) : ℕ :=
  (if clrbits ≠ 0 then 1 else 0) + (if setbits ≠ 0 then 1 else 0) + (if Xbits ≠ 0 then 1 else 0)

theorem one_of_and (a b : Mode) : (if a &&& b ≠ 0 then 1 else 0) ≤ if a ≠ 0 then 1 else 0 := by
  by_cases ha : a = 0
  · have hand : a &&& b = 0 := by
      rw [ha]
      exact BitVec.zero_and
    rw [if_neg (not_not_intro hand)]
    exact Nat.zero_le _
  · rw [if_pos ha]
    split <;> decide

theorem one_of (a : Mode) : (if a ≠ 0 then 1 else 0) ≤ 1 := by
  split <;> decide

/-- **The run of a list is gathered.** Its commands are as many as what stands for them, or more. -/
theorem gather_ok (left i : ℕ) (s c x : Mode) (h : Holds cmds i l) (hleft : l.length < left) :
    ∃ done rest s' c' x', l = done ++ rest ∧ gather cmds left i s c x = .ok (i + done.length, s', c', x') ∧
      Holds cmds (i + done.length) rest ∧ (∀ d ∈ rest.head?, ¬IsBits d.cmd) ∧
      count s' c' x' ≤ count s c x + done.length ∧
      ∀ omode m, gathered omode s' c' x' m = run omode done (gathered omode s c x m) := by
  induction l generalizing left i s c x with
  | nil =>
    obtain ⟨left, rfl⟩ := Nat.exists_eq_succ_of_ne_zero (by omega : left ≠ 0)
    have hstop : (cmds i).cmd = 0 := h.stop
    refine ⟨[], [], s, c, x, rfl, ?_, h, fun d hd => by simp at hd, Nat.le_refl _, fun _ _ => rfl⟩
    rw [Nat.succ_eq_add_one, gather, hstop]
    rfl
  | cons d l ih =>
    obtain ⟨left, rfl⟩ := Nat.exists_eq_succ_of_ne_zero (by omega : left ≠ 0)
    obtain ⟨hsame, hknown, hrest⟩ := holds_cons.mp h
    rw [List.length_cons] at hleft
    -- One command more, with what it makes of the three words.
    have hstep : ∀ s₁ c₁ x₁, gather cmds (left + 1) i s c x = gather cmds left (i + 1) s₁ c₁ x₁ →
        count s₁ c₁ x₁ ≤ count s c x + 1 →
        (∀ omode m, gathered omode s₁ c₁ x₁ m = effect omode d (gathered omode s c x m)) →
        ∃ done rest s' c' x', d :: l = done ++ rest ∧ gather cmds (left + 1) i s c x = .ok (i + done.length, s', c', x') ∧
          Holds cmds (i + done.length) rest ∧ (∀ d ∈ rest.head?, ¬IsBits d.cmd) ∧
          count s' c' x' ≤ count s c x + done.length ∧
          ∀ omode m, gathered omode s' c' x' m = run omode done (gathered omode s c x m) := by
      intro s₁ c₁ x₁ hgather hcount heffect
      obtain ⟨done, rest, s', c', x', hl, hrun, hholds, hhead, hle, hmeans⟩ :=
        ih left (i + 1) s₁ c₁ x₁ hrest (by omega)
      have hlen : i + 1 + done.length = i + (d :: done).length := by
        rw [List.length_cons]
        omega
      rw [hlen] at hrun hholds
      refine ⟨d :: done, rest, s', c', x', by rw [hl, List.cons_append], hgather.trans hrun, hholds, hhead, ?_, ?_⟩
      · rw [List.length_cons]
        omega
      · intro omode m
        rw [hmeans, heffect, run_cons]
    have hcmd : (cmds i).cmd = d.cmd := hsame.cmd
    have hbits : (cmds i).bits = d.bits := hsame.bits
    rw [Nat.succ_eq_add_one]
    have hunfold : gather cmds (left + 1) i s c x =
        if d.cmd = chr '-' then gather cmds left (i + 1) (s &&& ~~~d.bits) (c ||| d.bits) (x &&& ~~~d.bits)
        else if d.cmd = chr '+' then gather cmds left (i + 1) (s ||| d.bits) (c &&& ~~~d.bits) (x &&& ~~~d.bits)
        else if d.cmd = chr 'X' then gather cmds left (i + 1) s c (x ||| (d.bits &&& ~~~s))
        else .ok (i, s, c, x) := by
      rw [gather, hcmd, hbits]
    have hone := one_of (c ||| d.bits)
    have hone' := one_of (s ||| d.bits)
    have hone'' := one_of (x ||| (d.bits &&& ~~~s))
    have hs := one_of_and s (~~~d.bits)
    have hc := one_of_and c (~~~d.bits)
    have hx := one_of_and x (~~~d.bits)
    by_cases hminus : d.cmd = chr '-'
    · rw [if_pos hminus] at hunfold
      refine hstep _ _ _ hunfold (by unfold count; omega) fun omode m => ?_
      rw [gathered_minus, effect_minus hminus]
    · rw [if_neg hminus] at hunfold
      by_cases hplus : d.cmd = chr '+'
      · rw [if_pos hplus] at hunfold
        refine hstep _ _ _ hunfold (by unfold count; omega) fun omode m => ?_
        rw [gathered_plus, effect_plus hplus]
      · rw [if_neg hplus] at hunfold
        by_cases hX : d.cmd = chr 'X'
        · rw [if_pos hX] at hunfold
          refine hstep _ _ _ hunfold (by unfold count; omega) fun omode m => ?_
          rw [gathered_X, effect_X hX]
        · rw [if_neg hX] at hunfold
          refine ⟨[], d :: l, s, c, x, rfl, hunfold, h, fun e he => ?_, Nat.le_refl _, fun _ _ => rfl⟩
          rw [List.head?_cons, Option.mem_some_iff] at he
          subst he
          rintro (h | h | h)
          · exact hplus h
          · exact hminus h
          · exact hX h

/-- A word that is written, unless it is empty. -/
theorem emit_ok {out : Out} (h : Written out l) (op : UInt8) (hop : IsBits op) (bits : Mode)
    (hroom : bits ≠ 0 → out.set < out.setlen) :
    ∃ out', emit out op bits = .ok out' ∧ Written out' (l ++ if bits ≠ 0 then [⟨op, 0, bits⟩] else []) ∧
      out'.set = out.set + (if bits ≠ 0 then 1 else 0) ∧ out'.setlen = out.setlen ∧
      ∀ j, out'.set ≤ j → out'.cmds j = out.cmds j := by
  by_cases hzero : bits = 0
  · refine ⟨out, if_neg (not_not_intro hzero), ?_, ?_, rfl, fun _ _ => rfl⟩
    · rwa [if_neg (not_not_intro hzero), List.append_nil]
    · rw [if_neg (not_not_intro hzero), Nat.add_zero]
  · obtain ⟨out', hput, hwritten, hset, hlen, -, hkept⟩ :=
      h.put (hroom hzero) (f := fun _ => ⟨op, 0, bits⟩) (Same.refl ⟨op, 0, bits⟩) (.inl hop)
    refine ⟨out', (if_pos hzero).trans hput, ?_, ?_, hlen, fun j hj => hkept j (by omega)⟩
    · rwa [if_pos hzero]
    · rw [if_pos hzero, hset]

theorem run_one (op : UInt8) (bits : Mode) (hnone : bits = 0 → effect omode ⟨op, 0, bits⟩ m = m) :
    run omode (if bits ≠ 0 then [⟨op, 0, bits⟩] else []) m = effect omode ⟨op, 0, bits⟩ m := by
  by_cases hzero : bits = 0
  · rw [if_neg (not_not_intro hzero), hnone hzero]
    rfl
  · rw [if_pos hzero]
    rfl

/-- The commands written for a run do what it does. -/
theorem run_gathered (s c x : Mode) :
    run omode (((if c ≠ 0 then [⟨chr '-', 0, c⟩] else []) ++ if s ≠ 0 then [⟨chr '+', 0, s⟩] else []) ++
      if x ≠ 0 then [⟨chr 'X', 0, x⟩] else []) m = gathered omode s c x m := by
  have hor : ∀ m : Mode, m ||| 0 = m := fun m => BitVec.or_zero
  rw [run_append, run_append, run_one, run_one, run_one, effect_X rfl, effect_plus rfl, effect_minus rfl]
  · rfl
  · rintro rfl
    rw [effect_minus rfl]
    exact BitVec.and_allOnes
  · rintro rfl
    rw [effect_plus rfl, hor]
  · rintro rfl
    rw [effect_X rfl, hor, ite_self]

/-- **`compress_mode` leaves a list that does the same.** -/
theorem compress_ok (turns : ℕ) (out : Out) (nset : ℕ) (done l : List Bitcmd) (hw : Written out done)
    (hset : out.set ≤ nset) (hh : Holds out.cmds nset l) (hfit : nset + l.length < out.setlen) (hturns : l.length < turns) :
    ∃ out' l', compressMode turns out nset = .ok out' ∧ Holds out'.cmds 0 l' ∧ l'.length < out'.setlen ∧
      ∀ omode m, run omode l' m = run omode l (run omode done m) := by
  induction turns generalizing out nset done l with
  | zero => exact absurd hturns (Nat.not_lt_zero _)
  | succ turns ih =>
    have hroom : out.set < out.setlen := by omega
    cases l with
    | nil =>
      have hstop : (out.cmds nset).cmd = 0 := hh.stop
      obtain ⟨out', hput, hholds, hlen⟩ := hw.stop hroom (f := fun _ => out.cmds nset) hstop
      refine ⟨out', done, ?_, hholds, ?_, fun _ _ => rfl⟩
      · rw [compressMode, if_pos (by omega), hstop]
        dsimp only
        rw [if_pos (by decide), hput]
        rfl
      · rw [hlen, ← hw.set]
        exact hroom
    | cons d l =>
      obtain ⟨hsame, hknown, hrest⟩ := holds_cons.mp hh
      rw [List.length_cons] at hfit hturns
      by_cases hbits : IsBits d.cmd
      · obtain ⟨part, rest, s', c', x', hl, hgather, hholds, hhead, hcount, hmeans⟩ :=
          gather_ok (out.setlen - nset) nset 0 0 0 hh (by rw [List.length_cons]; omega)
        have hpart : 0 < part.length := by
          rcases Nat.eq_zero_or_pos part.length with hnone | hpos
          · rw [List.length_eq_zero_iff.mp hnone, List.nil_append] at hl
            rw [← hl] at hhead
            exact absurd hbits (hhead d rfl)
          · exact hpos
        have hlength : l.length + 1 = part.length + rest.length := by
          rw [← List.length_append, ← hl, List.length_cons]
        have hzero : count 0 0 0 = 0 := rfl
        unfold count at hcount hzero
        obtain ⟨out₁, hemit₁, hw₁, hset₁, hlen₁, hkept₁⟩ := emit_ok hw (chr '-') (.inr (.inl rfl)) c' fun _ => hroom
        obtain ⟨out₂, hemit₂, hw₂, hset₂, hlen₂, hkept₂⟩ := emit_ok hw₁ (chr '+') (.inl rfl) s' fun hne => by
          rw [if_pos hne] at hcount
          omega
        obtain ⟨out₃, hemit₃, hw₃, hset₃, hlen₃, hkept₃⟩ := emit_ok hw₂ (chr 'X') (.inr (.inr rfl)) x' fun hne => by
          rw [if_pos hne] at hcount
          omega
        obtain ⟨out', l', hrun, hholds', hfit', hmeans'⟩ := ih out₃ (nset + part.length) _ rest hw₃ (by omega)
          (hholds.congr fun j hj => by
            rw [hkept₃ j (by omega), hkept₂ j (by omega), hkept₁ j (by omega)]) (by omega) (by omega)
        refine ⟨out', l', ?_, hholds', hfit', fun omode m => ?_⟩
        · have hop : (out.cmds nset).cmd = d.cmd := hsame.cmd
          rw [compressMode, if_pos (by omega), hop]
          dsimp only
          rw [if_neg (fun hnot => by rcases hbits with h | h | h <;> simp [h] at hnot), hgather]
          simp only [bind, Except.bind]
          rw [hemit₁]
          dsimp only
          rw [hemit₂]
          dsimp only
          rw [hemit₃]
          exact hrun
        · have hempty : gathered omode 0 0 0 (run omode done m) = run omode done m := gathered_empty
          rw [hmeans', List.append_assoc, List.append_assoc, run_append, ← List.append_assoc, run_gathered, hmeans, hempty, hl,
            run_append]
      · have hcopy : IsCopy d.cmd := hknown.resolve_left hbits
        have hne : d.cmd ≠ 0 := by
          rcases hcopy with h | h | h <;> rw [h] <;> decide
        obtain ⟨out₁, hput, hw₁, hset₁, hlen₁, -, hkept₁⟩ :=
          hw.put hroom (f := fun _ => out.cmds nset) hsame hknown
        obtain ⟨out', l', hrun, hholds', hfit', hmeans'⟩ := ih out₁ (nset + 1) (done ++ [d]) l hw₁ (by omega)
          (hrest.congr fun j hj => hkept₁ j (by omega)) (by omega) (by omega)
        refine ⟨out', l', ?_, hholds', hfit', fun omode m => ?_⟩
        · have hop : (out.cmds nset).cmd = d.cmd := hsame.cmd
          have hnot := not_or.mp hbits
          rw [compressMode, if_pos (by omega), hop]
          dsimp only
          rw [if_pos ⟨hnot.1, not_or.mp hnot.2⟩, hput]
          simp only [bind, Except.bind]
          rw [if_neg hne]
          exact hrun
        · rw [hmeans', run_append]
          rfl

end DiscoBSD.Modes
