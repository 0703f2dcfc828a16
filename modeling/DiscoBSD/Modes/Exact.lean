import Mathlib
import DiscoBSD.Modes.Meaning

/-!
# Which mode strings mean what they say

**Symbolic modes are compiled right** as long as `X` stands with `+`, `s` and `t` have a class, and an assignment does not
mix bits and classes. No octal mode is: its two commands are not followed by an end, and `getmode` goes on into what
the memory contained. Of a number only the digits after the first are checked.
-/

set_option autoImplicit false

namespace DiscoBSD.Modes

open Lib (ok_bind)

variable {al : Allocator} {umask : Mode} {s p : List UInt8} {cmds : Cmds}

/-- `setmode` and `getmode` do what the string says, for every umask, old mode and content of the memory. -/
def Means (s : List UInt8) : Prop :=
  ∀ al umask, Granting al →
    (setmode al umask s = .error .null ↔ ¬InGrammar s) ∧
    (∀ m : Symbolic, s = m.text → ∃ block, setmode al umask s = .ok block ∧
      ∀ omode, getmode block omode = .ok (m.apply umask omode omode)) ∧
    (IsOctal s → ∃ block, setmode al umask s = .ok block ∧
      ∀ omode, getmode block omode = .ok (omode &&& ~~~0o7777 ||| BitVec.ofNat 32 (octalValue s)))

/-- A number that is refused, or clauses that are plain. -/
def Suits (s : List UInt8) : Prop :=
  if s.head?.any isdigit then ¬(s.tail.all isoctal ∧ strtol s < 0o10000) else ∀ m : Symbolic, s = m.text → m.Plain

/-! ## Symbolic modes -/

theorem Who.char_digit (k : Who) : isdigit k.char = false := by
  cases k <;> decide

theorem Op.char_digit (op : Op) : isdigit op.char = false := by
  cases op <;> decide

theorem Symbolic.text_digit (m : Symbolic) : m.text.head?.any isdigit = false := by
  rw [m.text_eq]
  cases m.first.who with
  | nil => exact m.first.first.op.char_digit
  | cons k ws => exact k.char_digit

theorem Symbolic.text_ne (m : Symbolic) : m.text ≠ [] := by
  rw [m.text_eq, tailText_action]
  exact List.append_ne_nil_of_right_ne_nil _ (List.cons_ne_nil _ _)

/-- What `setmode` starts with. -/
def blank (junk : Cmds) : Out := ⟨junk, 0, 8, 1⟩

theorem blank_rep (junk : Cmds) (who : Mode) : Rep ⟨who, 0, 0, false, blank junk⟩ ⟨who, 0, 0, false, []⟩ :=
  ⟨rfl, rfl, rfl, rfl, ⟨Laid.nil, nofun, rfl⟩, ⟨(by decide : 0 < 8), Nat.le_refl 8⟩⟩

/-- **A plain symbolic mode** is compiled to what it says. -/
theorem setmodeSymbolic_ok (hal : Granting al) (umask : Mode) (m : Symbolic) (hm : m.Plain) (junk : Cmds) :
    ∃ block, setmodeSymbolic al (~~~umask) m.text (blank junk) = .ok block ∧
      ∀ omode, getmode block omode = .ok (m.apply umask omode omode) := by
  have hwho := whoLoop_ok m.first.who _ (tailText_noWho m.first.first m.first.more (m.more.map Clause.text)) 0
  obtain ⟨w, hrun, hrep⟩ := getop_ok (~~~umask) hal _ m.first.first m.first.more m.more _ _
    (blank_rep junk (whoBits m.first.who)) (Nat.lt_succ_self _)
  obtain ⟨out₁, hput, hholds, hlen⟩ :=
    hrep.written.stop hrep.roomy.room (f := fun set => { set with cmd := 0 }) rfl
  have hfit := hrep.roomy.room
  rw [hrep.written.set, ← hlen] at hfit
  obtain ⟨out₂, l', hcompress, hholds', hfit', hmeans⟩ :=
    compress_ok (out₁.setlen + 1) { out₁ with set := 0 } 0 [] _ ⟨Laid.nil, nofun, rfl⟩ (Nat.le_refl _) hholds
      (by rwa [Nat.zero_add]) (by omega)
  refine ⟨⟨out₂.cmds, out₂.setlen⟩, ?_, fun omode => ?_⟩
  · rw [setmodeSymbolic, m.text_eq, hwho]
    refine (congrArg (· >>= _) hrun).trans ?_
    rw [ok_bind, hput, ok_bind, hcompress]
    rfl
  · rw [getmode, commands_ok out₂.setlen 0 omode hholds' hfit', hmeans]
    exact congrArg Except.ok (clauses_ok (m.first :: m.more) hm ⟨0, 0, 0, false, []⟩)

/-- **What is refused** is no symbolic mode. -/
theorem setmodeSymbolic_null (hal : Granting al) (umask : Mode) (s : List UInt8) (junk : Cmds)
    (hs : ∀ m : Symbolic, s ≠ m.text) : setmodeSymbolic al (~~~umask) s (blank junk) = .error .null := by
  obtain ⟨ws, rest, rfl, hrest⟩ := exists_who s
  have hwho := whoLoop_ok ws rest hrest 0
  rw [setmodeSymbolic, hwho]
  obtain hnull | ⟨a, as, cs, rfl⟩ :=
    getop_null (~~~umask) hal (rest.length + 1) rest _ _ (blank_rep junk (whoBits ws)) (Nat.lt_succ_self _)
  · exact congrArg (· >>= _) hnull
  · exact absurd (Symbolic.text_eq ⟨⟨ws, a, as⟩, cs⟩).symm (hs ⟨⟨ws, a, as⟩, cs⟩)

/-! ## Octal modes -/

theorem octal_takeWhile (hs : ∀ c ∈ s, isoctal c = true) : strtol s = min (octalValue s) (2 ^ 31 - 1) := by
  rw [strtol, List.takeWhile_eq_self_iff.mpr hs]
  rfl

theorem isdigit_of_octal {c : UInt8} (hc : isoctal c = true) : isdigit c = true := by
  simp only [isoctal, isdigit, decide_eq_true_eq] at hc ⊢
  have htop : chr '7' ≤ chr '9' := by decide
  exact ⟨hc.1, UInt8.le_trans hc.2 htop⟩

theorem IsOctal.digit (hs : IsOctal s) : s.head?.any isdigit = true := by
  obtain ⟨hne, hall, -⟩ := hs
  cases s with
  | nil => exact absurd rfl hne
  | cons c s => exact isdigit_of_octal (hall c (List.mem_cons_self ..))

theorem IsOctal.accepted (hs : IsOctal s) : s.tail.all isoctal = true ∧ strtol s < 0o10000 := by
  obtain ⟨-, hall, hlt⟩ := hs
  refine ⟨List.all_eq_true.mpr fun c hc => hall c (List.mem_of_mem_tail hc), ?_⟩
  rw [octal_takeWhile hall]
  omega

/-- The bits of a mode are the last twelve. -/
theorem no_other_bits {v : Mode} : v &&& ~~~(STANDARD_BITS ||| S_ISVTX) = 0 ↔ v.toNat < 0o10000 := by
  have hmask : STANDARD_BITS ||| S_ISVTX = BitVec.ofNat 32 (2 ^ 12 - 1) := by decide
  have hnat : (v &&& (STANDARD_BITS ||| S_ISVTX)).toNat = v.toNat % 2 ^ 12 := by
    rw [hmask, BitVec.toNat_and]
    exact Nat.and_two_pow_sub_one_eq_mod v.toNat 12
  constructor
  · intro hnone
    have hsame : v &&& (STANDARD_BITS ||| S_ISVTX) = v := by
      have hlaw : ∀ v k : Bool, (v && !k) = false → (v && k) = v := by decide
      apply BitVec.eq_of_getLsbD_eq
      intro i hi
      have hbit := congrArg (BitVec.getLsbD · i) hnone
      simp only [BitVec.getLsbD_and, BitVec.getLsbD_not, hi, decide_true, Bool.true_and] at hbit
      rw [BitVec.getLsbD_and]
      exact hlaw _ _ (hbit.trans (BitVec.getLsbD_zero ..))
    rw [hsame] at hnat
    omega
  · intro hlt
    have hsame : v &&& (STANDARD_BITS ||| S_ISVTX) = v := by
      apply BitVec.eq_of_toNat_eq
      rw [hnat]
      omega
    rw [← hsame, BitVec.and_assoc, BitVec.and_not_self]
    exact BitVec.and_zero

theorem strtol_lt (s : List UInt8) : strtol s < 2 ^ 31 := by
  rw [strtol]
  omega

theorem setmodeOctal_null (mask : Mode) (out : Out) (hs : ¬(s.tail.all isoctal = true ∧ strtol s < 0o10000)) :
    setmodeOctal al mask s out = .error .null := by
  have hlt := strtol_lt s
  have hbits : BitVec.ofNat 32 (strtol s) &&& ~~~(STANDARD_BITS ||| S_ISVTX) = 0 ↔ strtol s < 0o10000 := by
    rw [no_other_bits, BitVec.toNat_ofNat, Nat.mod_eq_of_lt (by omega)]
  rw [setmodeOctal]
  by_cases hvalue : strtol s < 0o10000
  · rw [if_neg (not_not_intro (hbits.mpr hvalue)), if_pos fun hall => hs ⟨hall, hvalue⟩]
  · rw [if_pos (mt hbits.mp hvalue)]

/-- **The block of an octal mode** is two commands, and what the memory contained. -/
theorem setmodeOctal_ok (al : Allocator) (mask : Mode) (junk : Cmds) (hs : s.tail.all isoctal = true ∧ strtol s < 0o10000) :
    ∃ cmds, setmodeOctal al mask s (blank junk) = .ok ⟨cmds, 8⟩ ∧ (cmds 0).cmd = chr '-' ∧ (cmds 1).cmd = chr '+' ∧
      ∀ j, 2 ≤ j → cmds j = junk j := by
  have hlt := strtol_lt s
  have hbits : BitVec.ofNat 32 (strtol s) &&& ~~~(STANDARD_BITS ||| S_ISVTX) = 0 := by
    rw [no_other_bits, BitVec.toNat_ofNat, Nat.mod_eq_of_lt (by omega)]
    exact hs.2
  rw [setmodeOctal]
  rw [if_neg (not_not_intro hbits), if_neg (not_not_intro hs.1)]
  refine ⟨_, rfl, rfl, rfl, fun j hj => ?_⟩
  have hzero : j ≠ 0 := by omega
  have hone : j ≠ 1 := by omega
  exact (Function.update_of_ne hone ..).trans (Function.update_of_ne hzero ..)

/-- Commands that do not end. -/
theorem commands_outside {omode : Mode} (left i : ℕ) (m : Mode) (hall : ∀ j, i ≤ j → (cmds j).cmd = chr '-' ∨ (cmds j).cmd = chr '+') :
    commands omode cmds left i m = .error .outside := by
  induction left generalizing i m with
  | zero => rfl
  | succ left ih =>
    have hknown : Known (cmds i) := by
      obtain hc | hc := hall i (Nat.le_refl i)
      · exact .inl (.inr (.inl hc))
      · exact .inl (.inl hc)
    rw [commands, hknown.command]
    exact ih (i + 1) _ fun j hj => hall j (Nat.le_of_succ_le hj)

theorem setmode_digit (hal : Granting al) (umask : Mode) (hs : s.head?.any isdigit = true) :
    ∃ junk, al 0 = some junk ∧ setmode al umask s = setmodeOctal al (~~~umask) s (blank junk) := by
  obtain ⟨junk, hjunk⟩ := Option.isSome_iff_exists.mp (hal 0)
  refine ⟨junk, hjunk, ?_⟩
  cases s with
  | nil => exact absurd hs Bool.false_ne_true
  | cons c s =>
    rw [setmode]
    simp only [hjunk]
    exact if_pos hs

theorem setmode_symbolic (hal : Granting al) (umask : Mode) (hne : s ≠ []) (hs : s.head?.any isdigit = false) :
    ∃ junk, setmode al umask s = setmodeSymbolic al (~~~umask) s (blank junk) := by
  obtain ⟨junk, hjunk⟩ := Option.isSome_iff_exists.mp (hal 0)
  refine ⟨junk, ?_⟩
  cases s with
  | nil => exact absurd rfl hne
  | cons c s =>
    have hc : ¬isdigit c = true := fun hc => Bool.false_ne_true (hs.symm.trans hc)
    rw [setmode]
    simp only [hjunk]
    exact if_neg hc

/-- **No number that is accepted means anything**: the memory may go on with commands. -/
theorem not_means_of_accepted (hdigit : s.head?.any isdigit = true)
    (hs : s.tail.all isoctal = true ∧ strtol s < 0o10000) : ¬Means s := by
  intro hmeans
  have hal : Granting fun _ => some fun _ => ⟨chr '+', 0, 0⟩ := fun _ => rfl
  obtain ⟨hnull, -, hoctal⟩ := hmeans _ 0 hal
  obtain ⟨junk, hjunk, hset⟩ := setmode_digit hal 0 hdigit
  obtain rfl := Option.some.inj hjunk
  obtain ⟨cmds, hok, hminus, hplus, hrest⟩ := setmodeOctal_ok (fun _ => some fun _ => ⟨chr '+', 0, 0⟩)
    (~~~0) (fun _ => ⟨chr '+', 0, 0⟩) hs
  rw [hset, hok] at hnull hoctal
  by_cases hgrammar : IsOctal s
  · obtain ⟨block, hblock, hget⟩ := hoctal hgrammar
    obtain rfl := Except.ok.inj hblock
    have houtside : getmode ⟨cmds, 8⟩ 0 = .error .outside := by
      refine commands_outside 8 0 0 fun j _ => ?_
      match j with
      | 0 => exact .inl hminus
      | 1 => exact .inr hplus
      | j + 2 => exact .inr (congrArg Bitcmd.cmd (hrest (j + 2) (Nat.le_add_left ..)))
    exact nomatch houtside.symm.trans (hget 0)
  · refine nomatch hnull.mpr ?_
    rintro (hoct | ⟨m, rfl⟩)
    · exact hgrammar hoct
    · exact Bool.false_ne_true (m.text_digit.symm.trans hdigit)

theorem setmode_755 : ¬Means [chr '7', chr '5', chr '5'] := not_means_of_accepted rfl ⟨rfl, by decide⟩

theorem means_of_suits (hs : Suits s) : Means s := by
  intro al umask hal
  by_cases hdigit : s.head?.any isdigit = true
  · rw [Suits, if_pos hdigit] at hs
    obtain ⟨junk, -, hset⟩ := setmode_digit hal umask hdigit
    rw [hset, setmodeOctal_null _ _ hs]
    refine ⟨⟨fun _ => ?_, fun _ => rfl⟩, ?_, fun hoct => absurd hoct.accepted hs⟩
    · rintro (hoct | ⟨m, rfl⟩)
      · exact hs hoct.accepted
      · exact Bool.false_ne_true (m.text_digit.symm.trans hdigit)
    · rintro m rfl
      exact absurd (m.text_digit.symm.trans hdigit) Bool.false_ne_true
  · rw [Suits, if_neg hdigit] at hs
    have hnot : ¬IsOctal s := fun hoct => hdigit hoct.digit
    have hdigit' : s.head?.any isdigit = false := Bool.eq_false_iff.mpr hdigit
    by_cases hne : s = []
    · refine ⟨⟨fun _ => ?_, fun _ => by rw [hne]; rfl⟩, fun m hm => ?_, fun hoct => absurd hoct hnot⟩
      · rintro (hoct | ⟨m, hm⟩)
        · exact hnot hoct
        · exact m.text_ne (hm.symm.trans hne)
      · exact absurd (hm.symm.trans hne) m.text_ne
    · obtain ⟨junk, hset⟩ := setmode_symbolic hal umask hne hdigit'
      have hok : ∀ m : Symbolic, s = m.text → ∃ block, setmode al umask s = .ok block ∧
          ∀ omode, getmode block omode = .ok (m.apply umask omode omode) := by
        intro m hm
        rw [hset, hm]
        exact setmodeSymbolic_ok hal umask m (hs m hm) junk
      refine ⟨⟨fun hnull => ?_, fun hgrammar => ?_⟩, hok, fun hoct => absurd hoct hnot⟩
      · rintro (hoct | ⟨m, hm⟩)
        · exact hnot hoct
        · obtain ⟨block, hblock, -⟩ := hok m hm
          exact nomatch hblock.symm.trans hnull
      · rw [hset]
        exact setmodeSymbolic_null hal umask s junk fun m hm => hgrammar (.inr ⟨m, hm⟩)

/-- **Which mode strings mean what they say**: the accepted numbers do not, and plain clauses do. -/
theorem setmode_exact (s : List UInt8) :
    (Suits s → Means s) ∧ (s.head?.any isdigit = true → Means s → Suits s) := by
  refine ⟨means_of_suits, fun hdigit hmeans => ?_⟩
  rw [Suits, if_pos hdigit]
  exact fun hs => not_means_of_accepted hdigit hs hmeans

/-- The letters of a mode are in its text. -/
theorem Symbolic.mem_text {m : Symbolic} {c : Clause} (hc : c ∈ m.first :: m.more) {a : Action}
    (ha : a ∈ c.first :: c.more) : a.op.char ∈ m.text ∧ ∀ p ∈ a.perms, p.char ∈ m.text := by
  have hclause : ∀ d ∈ c.text, d ∈ m.text := by
    intro d hd
    rcases List.mem_cons.mp hc with rfl | hc
    · exact List.mem_append_left _ hd
    · refine List.mem_append_right _ (List.mem_append_right _ (List.mem_flatMap.mpr ⟨c.text, ?_, ?_⟩))
      · exact List.mem_map_of_mem hc
      · exact List.mem_cons_of_mem _ hd
  have haction : ∀ d ∈ a.text, d ∈ m.text := by
    intro d hd
    refine hclause d (List.mem_append_right _ (List.mem_append_left _ ?_))
    exact List.mem_flatMap.mpr ⟨a, ha, hd⟩
  exact ⟨haction _ (List.mem_cons_self ..), fun p hp => haction _ (List.mem_cons_of_mem _ (List.mem_map_of_mem hp))⟩

/-- Adding and removing `r`, `w`, `x` and the bits of classes. -/
theorem suits_of_letters (hdigit : s.head?.any isdigit = false) (hX : chr 'X' ∉ s) (hs : chr 's' ∉ s) (ht : chr 't' ∉ s)
    (heq : chr '=' ∉ s) : Suits s := by
  rw [Suits, hdigit, if_neg Bool.false_ne_true]
  rintro m rfl c hc a ha
  obtain ⟨hop, hperms⟩ := Symbolic.mem_text hc ha
  refine ⟨fun h => absurd (hperms .X h) hX, fun _ => ⟨fun h => hs (hperms .s h), fun h => ht (hperms .t h)⟩, fun h => ?_⟩
  rw [h] at hop
  exact absurd hop heq

theorem setmode_exact_goMinusW : Means ("u+x,go-w".toList.map chr) :=
  (setmode_exact ("u+x,go-w".toList.map chr)).1
    (suits_of_letters (by decide) (by decide) (by decide) (by decide) (by decide))

end DiscoBSD.Modes
