import DiscoBSD.Modes.Compile

/-!
# Copies of bits

The three bits of a class, taken from a mode and put in the places of all. **What has been set evenly in all classes adds
nothing to what is copied afterwards**, so letters and copies of one action may be carried out in any order.
-/

set_option autoImplicit false

namespace DiscoBSD.Modes

variable {A B m r v : Mode} {c : Class}

/-! ## Bits of a class -/

def Class.shift : Class → ℕ
  | u => 6
  | g => 3
  | o => 0

theorem value_eq (c : Class) (m : Mode) : c.value m = m >>> c.shift &&& 7 := by
  cases c with
  | u => exact BitVec.ushiftRight_and_distrib m S_IRWXU 6
  | g => exact BitVec.ushiftRight_and_distrib m S_IRWXG 3
  | o => exact congrArg (· &&& S_IRWXO) (BitVec.ushiftRight_zero m).symm

theorem value_small (c : Class) (m : Mode) : c.value m &&& 7 = c.value m := by
  rw [value_eq, BitVec.and_assoc]
  rfl

theorem value_or (c : Class) (a b : Mode) : c.value (a ||| b) = c.value a ||| c.value b := by
  rw [value_eq, value_eq, value_eq, BitVec.ushiftRight_or_distrib, BitVec.and_or_distrib_right]

theorem value_and (c : Class) (a b : Mode) : c.value (a &&& b) = c.value a &&& c.value b := by
  rw [value_eq, value_eq, value_eq, BitVec.ushiftRight_and_distrib]
  have hlaw : ∀ x y s : Bool, (x && y && s) = (x && s && (y && s)) := by decide
  apply BitVec.eq_of_getLsbD_eq
  intro i hi
  simp only [BitVec.getLsbD_and]
  exact hlaw ..

theorem value_diff (c : Class) (a b : Mode) : c.value (a &&& ~~~b) = c.value a &&& ~~~c.value b := by
  have hlaw : ∀ x y z s : Bool, (x && s) = x → (y || z) = s → (y && z) = false → (x && z) = (x && !y) := by decide
  have hall : c.value b ||| c.value (~~~b) = 7 := by
    rw [← value_or, BitVec.or_not_self]
    cases c <;> decide
  have hnone : c.value b &&& c.value (~~~b) = 0 := by
    rw [← value_and, BitVec.and_not_self]
    cases c <;> decide
  rw [value_and]
  apply BitVec.eq_of_getLsbD_eq
  intro i hi
  have hs := congrArg (BitVec.getLsbD · i) (value_small c a)
  have ho := congrArg (BitVec.getLsbD · i) hall
  have hn := congrArg (BitVec.getLsbD · i) hnone
  simp only [BitVec.getLsbD_and, BitVec.getLsbD_or] at hs ho hn
  simp only [BitVec.getLsbD_and, BitVec.getLsbD_not, hi, decide_true, Bool.true_and]
  exact hlaw _ _ _ _ hs ho (hn.trans (BitVec.getLsbD_zero ..))

theorem triple_or (a b : Mode) : triple (a ||| b) = triple a ||| triple b := by
  simp only [triple, BitVec.shiftLeft_or_distrib]
  ac_rfl

theorem exists_small (hv : v &&& 7 = v) : ∃ x : Fin 8, v = BitVec.ofNat 32 x := by
  have hlt : v.toNat < 8 := by
    rw [← hv, BitVec.toNat_and]
    exact Nat.lt_of_le_of_lt Nat.and_le_right (by decide)
  have hword : BitVec.ofNat 32 v.toNat = v := BitVec.ofNat_toNat ..
  exact ⟨⟨v.toNat, hlt⟩, hword.symm⟩

theorem value_triple (c : Class) (hv : v &&& 7 = v) : c.value (triple v) = v := by
  have hall : ∀ x : Fin 8, c.value (triple (BitVec.ofNat 32 x)) = BitVec.ofNat 32 x := by
    cases c <;> decide
  obtain ⟨x, rfl⟩ := exists_small hv
  exact hall x

/-! ## Even bits -/

theorem and_or_self (a b : Mode) : a &&& b ||| b = b := by
  apply BitVec.eq_of_getLsbD_eq
  intro i _
  simp

/-- What a class has of the bits `A`, be they masked, all classes have. -/
def Even (A : Mode) : Prop := ∀ r c, triple (Class.value c (r &&& A)) ||| A = A

theorem Even.or (hA : Even A) (hB : Even B) : Even (A ||| B) := by
  intro r c
  rw [BitVec.and_or_distrib_left, value_or, triple_or]
  calc triple (c.value (r &&& A)) ||| triple (c.value (r &&& B)) ||| (A ||| B)
      = (triple (c.value (r &&& A)) ||| A) ||| (triple (c.value (r &&& B)) ||| B) := by ac_rfl
    _ = A ||| B := by rw [hA, hB]

theorem even_triple (hv : v &&& 7 = v) : Even (triple v) := by
  intro r c
  rw [value_and, value_triple c hv, ← triple_or, and_or_self]

theorem even_special {h : Mode} (hnone : ∀ c, Class.value c h = 0) : Even h := by
  intro r c
  rw [value_and, hnone]
  have hzero : c.value r &&& 0 = 0 := BitVec.and_zero
  rw [hzero]
  exact BitVec.zero_or

theorem even_zero : Even 0 := even_special (by intro c; cases c <;> decide)

theorem even_bits (who : Mode) (p : Perm) : Even (p.bits who) := by
  have hset : Even (S_ISUID ||| S_ISGID) := even_special (by intro c; cases c <;> decide)
  have hsticky : Even S_ISVTX := even_special (by intro c; cases c <;> decide)
  cases p with
  | r => exact even_triple (v := 4) rfl
  | w => exact even_triple (v := 2) rfl
  | x => exact even_triple (v := 1) rfl
  | X => exact even_zero
  | copy c => exact even_zero
  | s =>
    change Even (if Special who then S_ISUID ||| S_ISGID else 0)
    split
    · exact hset
    · exact even_zero
  | t =>
    change Even (if Special who then S_ISVTX else 0)
    split
    · exact hsticky
    · exact even_zero

/-! ## Copies after letters -/

theorem diff_diff (m a b : Mode) : m &&& ~~~a &&& ~~~b = m &&& ~~~(a ||| b) := by
  rw [BitVec.not_or, BitVec.and_assoc]

theorem plus_copy (hA : Even A) (r m : Mode) (c : Class) :
    (m ||| (r &&& A)) ||| (r &&& triple (c.value (m ||| (r &&& A)))) = m ||| (r &&& (A ||| triple (c.value m))) := by
  rw [value_or, triple_or]
  generalize hy : triple (c.value (r &&& A)) = y
  have hyA : y ||| A = A := by
    rw [← hy]
    exact hA r c
  calc (m ||| (r &&& A)) ||| (r &&& (triple (c.value m) ||| y))
      = m ||| (r &&& ((y ||| A) ||| triple (c.value m))) := by
        simp only [BitVec.and_or_distrib_left]
        ac_rfl
    _ = m ||| (r &&& (A ||| triple (c.value m))) := by rw [hyA]

theorem triple_diff (x y : Mode) : triple (x &&& ~~~y) ||| triple y = triple x ||| triple y := by
  have hlaw : ∀ x y : Bool, ((x && !y) || y) = (x || y) := by decide
  rw [← triple_or, ← triple_or]
  apply congrArg
  apply BitVec.eq_of_getLsbD_eq
  intro i hi
  simp only [BitVec.getLsbD_and, BitVec.getLsbD_or, BitVec.getLsbD_not, hi, decide_true, Bool.true_and]
  exact hlaw ..

theorem minus_copy (hA : Even A) (r m : Mode) (c : Class) :
    (m &&& ~~~(r &&& A)) &&& ~~~(r &&& triple (c.value (m &&& ~~~(r &&& A)))) =
      m &&& ~~~(r &&& (A ||| triple (c.value m))) := by
  rw [diff_diff, value_diff, ← BitVec.and_or_distrib_left]
  apply congrArg (fun a => m &&& ~~~(r &&& a))
  generalize hy : c.value (r &&& A) = y
  have hyA : triple y ||| A = A := by
    rw [← hy]
    exact hA r c
  calc A ||| triple (c.value m &&& ~~~y)
      = A ||| (triple (c.value m &&& ~~~y) ||| triple y) := by
        rw [← hyA]
        ac_rfl
    _ = A ||| triple (c.value m) := by
        rw [triple_diff, ← hyA]
        ac_rfl

/-- An assignment of the bits of a class. -/
def assign (r : Mode) (c : Class) (m : Mode) : Mode :=
  m &&& ~~~(r &&& triple S_IRWXO) ||| (r &&& triple (c.value m))

/-- **What is copied is still there**, if it has been assigned to the class itself. -/
theorem value_assign (r : Mode) (c : Class) (m : Mode) : c.value (assign r c m) = c.value m := by
  have hlaw : ∀ x ρ s : Bool, (x && s) = x → ((x && !(ρ && s)) || (ρ && x)) = x := by decide
  rw [assign, value_or, value_diff, value_and, value_and, value_triple c rfl, value_triple c (value_small c m)]
  apply BitVec.eq_of_getLsbD_eq
  intro i hi
  have hs := congrArg (BitVec.getLsbD · i) (value_small c m)
  simp only [BitVec.getLsbD_and] at hs
  simp only [BitVec.getLsbD_and, BitVec.getLsbD_or, BitVec.getLsbD_not, hi, decide_true, Bool.true_and]
  exact hlaw _ _ _ hs

theorem assign_assign (r : Mode) (c : Class) (m : Mode) : assign r c (assign r c m) = assign r c m := by
  have hlaw : ∀ m p q : Bool, (((m && !p || q) && !p) || q) = (m && !p || q) := by decide
  rw [assign, value_assign]
  unfold assign
  apply BitVec.eq_of_getLsbD_eq
  intro i hi
  simp only [BitVec.getLsbD_and, BitVec.getLsbD_or, BitVec.getLsbD_not, hi, decide_true, Bool.true_and]
  exact hlaw _ (r.getLsbD i && (triple S_IRWXO).getLsbD i) (r.getLsbD i && (triple (c.value m)).getLsbD i)

end DiscoBSD.Modes

/-!
# What compiled commands do

The commands that `addcmd` writes, against the bits that an action may reach. **A copy to some classes is the copy to all,
masked**, as each class is given with all of its bits or with none.
-/

namespace DiscoBSD.Modes

variable {umask omode who w M p v : Mode} {s : Sheet} {op : Op} {c : Class}

/-! ## Sets of classes -/

/-- What `who` can be. -/
def shapes : List Mode :=
  [0, 0o4700, 0o2070, 0o7, 0o6770, 0o4707, 0o2077, 0o6777]

/-- A fact about the shapes is checked one by one. -/
theorem of_shapes {P : Mode → Prop} [DecidablePred P] (h : shapes.all (fun b => decide (P b)) = true) (hwho : who ∈ shapes) :
    P who := of_decide_eq_true (List.all_eq_true.mp h who hwho)

theorem whoBits_shape (ws : List Who) : whoBits ws ∈ shapes := by
  have hstep : ∀ b ∈ shapes, ∀ k : Who, b ||| k.bits ∈ shapes := by
    intro b hb k
    cases k <;> exact of_shapes (P := fun b => b ||| _ ∈ shapes) (by decide) hb
  have hall : ∀ b ∈ shapes, ws.foldl (fun b k => b ||| k.bits) b ∈ shapes := by
    induction ws with
    | nil => exact fun b hb => hb
    | cons k ws ih => exact fun b hb => ih _ (hstep b hb k)
  exact hall 0 (by decide)

theorem shape_sticky (hwho : who ∈ shapes) : who &&& S_ISVTX = 0 :=
  of_shapes (P := fun who => who &&& S_ISVTX = 0) (by decide) hwho

/-- `who` within an action, where it may have got the sticky bit. -/
structure Standing (who w : Mode) : Prop where
  shape : who ∈ shapes
  kept : w = who ∨ who &&& ~~~S_IRWXO ≠ 0 ∧ w = who ||| S_ISVTX

theorem Standing.zero_iff (h : Standing who w) : w = 0 ↔ who = 0 := by
  obtain rfl | ⟨hne, rfl⟩ := h.kept
  · rfl
  · have hsticky := of_shapes (P := fun who => who &&& ~~~S_IRWXO ≠ 0 → who ||| S_ISVTX ≠ 0 ∧ who ≠ 0) (by decide)
      h.shape hne
    exact ⟨fun hzero => absurd hzero hsticky.1, fun hzero => absurd hzero hsticky.2⟩

/-- The condition of `s` and `t`, as long as the sticky bit is due to a `t`. -/
theorem Standing.special_iff (h : Standing who w) (hne : who ≠ 0) : w &&& ~~~S_IRWXO ≠ 0 ↔ Special who := by
  obtain rfl | ⟨hspecial, rfl⟩ := h.kept
  · exact ⟨.inr, fun hs => hs.resolve_left hne⟩
  · have hsticky := of_shapes (P := fun who => (who ||| S_ISVTX) &&& ~~~S_IRWXO ≠ 0) (by decide) h.shape
    exact ⟨fun _ => .inr hspecial, fun _ => hsticky⟩

/-- An action starts without the sticky bit. -/
theorem Standing.start (h : Standing who w) : w &&& ~~~S_ISVTX = who := by
  obtain rfl | ⟨-, rfl⟩ := h.kept
  · exact of_shapes (P := fun who => who &&& ~~~S_ISVTX = who) (by decide) h.shape
  · exact of_shapes (P := fun who => (who ||| S_ISVTX) &&& ~~~S_ISVTX = who) (by decide) h.shape

/-- The bits that `addcmd` puts in a command for the bits `p`. -/
def masked (umask w p : Mode) : Mode := (if w ≠ 0 then w else ~~~umask) &&& p

theorem Standing.masked_eq (h : Standing who w) (hp : w = who → p &&& S_ISVTX = 0) :
    masked umask w p = reach umask who &&& p := by
  unfold masked reach
  by_cases hzero : who = 0
  · rw [if_neg (not_not_intro (h.zero_iff.mpr hzero)), if_pos hzero]
  · rw [if_pos (mt h.zero_iff.mp hzero), if_neg hzero]
    obtain rfl | ⟨-, rfl⟩ := h.kept
    · rw [BitVec.and_or_distrib_right, BitVec.and_comm S_ISVTX, hp rfl]
      exact BitVec.or_zero.symm
    · rfl

/-! ## Letters -/

theorem run_plus (umask w p M : Mode) : run omode (bitsCmds (chr '+') w p (~~~umask)) M = M ||| masked umask w p := by
  rw [bitsCmds, if_neg (by decide), run_cons, run_nil, effect_plus rfl]
  rfl

theorem run_minus (umask w p M : Mode) : run omode (bitsCmds (chr '-') w p (~~~umask)) M = M &&& ~~~masked umask w p := by
  rw [bitsCmds, if_neg (by decide), run_cons, run_nil, effect_minus rfl]
  rfl

theorem run_X (umask w p M : Mode) :
    run omode (bitsCmds (chr 'X') w p (~~~umask)) M =
      if omode &&& (S_IFDIR ||| S_IX) ≠ 0 then M ||| masked umask w p else M := by
  rw [bitsCmds, if_neg (by decide), run_cons, run_nil, effect_X rfl]
  rfl

theorem run_equal (umask w p M : Mode) :
    run omode (bitsCmds (chr '=') w p (~~~umask)) M =
      M &&& ~~~(if w ≠ 0 then w else STANDARD_BITS) ||| masked umask w p := by
  rw [bitsCmds, if_pos rfl, run_cons, run_cons, run_nil, effect_plus rfl, effect_minus rfl]
  rfl

/-! ## Copies -/

/-- Three bits in the places that `cmd2` tells. -/
def place (cmd2 : UInt8) (v : Mode) : Mode :=
  (if cmd2 &&& CMD2_UBITS ≠ 0 then v <<< 6 else 0) ||| (if cmd2 &&& CMD2_GBITS ≠ 0 then v <<< 3 else 0) |||
    if cmd2 &&& CMD2_OBITS ≠ 0 then v else 0

theorem set_places (cmd2 : UInt8) (v bits M : Mode) :
    (let newmode := if cmd2 &&& CMD2_UBITS ≠ 0 then M ||| (v <<< 6 &&& bits) else M
    let newmode := if cmd2 &&& CMD2_GBITS ≠ 0 then newmode ||| (v <<< 3 &&& bits) else newmode
    if cmd2 &&& CMD2_OBITS ≠ 0 then newmode ||| (v &&& bits) else newmode) = M ||| (place cmd2 v &&& bits) := by
  have hzero : ∀ m : Mode, 0 &&& m = 0 := fun m => BitVec.zero_and
  have hor : ∀ m : Mode, m ||| 0 = m := fun m => BitVec.or_zero
  have hor' : ∀ m : Mode, 0 ||| m = m := fun m => BitVec.zero_or
  unfold place
  split <;> split <;> split <;> simp only [BitVec.and_or_distrib_right, hzero, hor, hor', BitVec.or_assoc]

theorem clear_places (cmd2 : UInt8) (v bits M : Mode) :
    (let newmode := if cmd2 &&& CMD2_UBITS ≠ 0 then M &&& ~~~(v <<< 6 &&& bits) else M
    let newmode := if cmd2 &&& CMD2_GBITS ≠ 0 then newmode &&& ~~~(v <<< 3 &&& bits) else newmode
    if cmd2 &&& CMD2_OBITS ≠ 0 then newmode &&& ~~~(v &&& bits) else newmode) = M &&& ~~~(place cmd2 v &&& bits) := by
  have hzero : ∀ m : Mode, 0 &&& m = 0 := fun m => BitVec.zero_and
  have hor : ∀ m : Mode, m ||| 0 = m := fun m => BitVec.or_zero
  have hor' : ∀ m : Mode, 0 ||| m = m := fun m => BitVec.zero_or
  have hand : ∀ m : Mode, m &&& ~~~0 = m := fun m => BitVec.and_allOnes
  unfold place
  split <;> split <;> split <;>
    simp only [BitVec.and_or_distrib_right, hzero, hor, hor', hand, diff_diff, BitVec.or_assoc]

theorem common_plus {set : Bitcmd} (hclr : set.cmd2 &&& CMD2_CLR = 0) (hset : set.cmd2 &&& CMD2_SET ≠ 0) :
    common set v M = M ||| (place set.cmd2 v &&& set.bits) := by
  unfold common
  rw [if_neg (not_not_intro hclr), if_pos hset]
  exact set_places ..

theorem common_minus {set : Bitcmd} (hclr : set.cmd2 &&& CMD2_CLR ≠ 0) (hset : set.cmd2 &&& CMD2_SET = 0) :
    common set v M = M &&& ~~~(place set.cmd2 v &&& set.bits) := by
  unfold common
  rw [if_pos hclr, if_neg (not_not_intro hset), if_neg (not_not_intro hset)]
  exact clear_places ..

theorem common_equal {set : Bitcmd} (hclr : set.cmd2 &&& CMD2_CLR ≠ 0) (hset : set.cmd2 &&& CMD2_SET ≠ 0) :
    common set v M = M &&& ~~~(place set.cmd2 S_IRWXO &&& set.bits) ||| (place set.cmd2 v &&& set.bits) := by
  unfold common
  rw [if_pos hclr, if_pos hset, if_pos hset]
  exact (set_places ..).trans (congrArg (· ||| _) (clear_places ..))

theorem copyCmd_places (umask : Mode) (h : Standing who w) (op : Op) (hv : v &&& 7 = v) :
    place (cmd2Of w op.char) v &&& (if w ≠ 0 then ~~~0 else ~~~umask) = reach umask who &&& triple v := by
  have hall : ∀ op : Op, shapes.all (fun who => decide (who ≠ 0 → ∀ x : Fin 8,
      place (cmd2Of who op.char) (BitVec.ofNat 32 x) = (who ||| S_ISVTX) &&& triple (BitVec.ofNat 32 x) ∧
      place (cmd2Of (who ||| S_ISVTX) op.char) (BitVec.ofNat 32 x) =
        (who ||| S_ISVTX) &&& triple (BitVec.ofNat 32 x))) = true := by
    intro op
    cases op <;> decide +kernel
  unfold reach
  by_cases hzero : who = 0
  · have hw := h.zero_iff.mpr hzero
    rw [if_neg (not_not_intro hw), if_pos hzero, hw, BitVec.and_comm]
    cases op <;> rfl
  · rw [if_pos (mt h.zero_iff.mp hzero), if_neg hzero]
    have hones : ∀ m : Mode, m &&& ~~~0 = m := fun m => BitVec.and_allOnes
    obtain ⟨x, rfl⟩ := exists_small hv
    rw [hones]
    have hboth := of_shapes (hall op) h.shape hzero x
    obtain rfl | ⟨-, rfl⟩ := h.kept
    · exact hboth.1
    · exact hboth.2

/-- What `cmd2` says of an operator. -/
structure Flags (w : Mode) : Prop where
  plus : cmd2Of w (chr '+') &&& CMD2_CLR = 0 ∧ cmd2Of w (chr '+') &&& CMD2_SET ≠ 0
  minus : cmd2Of w (chr '-') &&& CMD2_CLR ≠ 0 ∧ cmd2Of w (chr '-') &&& CMD2_SET = 0
  equal : cmd2Of w (chr '=') &&& CMD2_CLR ≠ 0 ∧ cmd2Of w (chr '=') &&& CMD2_SET ≠ 0

instance : DecidablePred Flags := fun _ =>
  decidable_of_iff (_ ∧ _ ∧ _) ⟨fun ⟨p, m, e⟩ => ⟨p, m, e⟩, fun ⟨p, m, e⟩ => ⟨p, m, e⟩⟩

theorem Standing.flags (h : Standing who w) : Flags w := by
  have hboth := of_shapes (P := fun who => Flags who ∧ Flags (who ||| S_ISVTX)) (by decide) h.shape
  obtain rfl | ⟨-, rfl⟩ := h.kept
  · exact hboth.1
  · exact hboth.2

/-- **What a copied class does** with an operator. -/
theorem effect_copy (umask omode M : Mode) (h : Standing who w) (op : Op) (c : Class) :
    effect omode (copyCmd c.char w op.char (~~~umask)) M =
      match op with
      | .plus => M ||| (reach umask who &&& triple (c.value M))
      | .minus => M &&& ~~~(reach umask who &&& triple (c.value M))
      | .equal => assign (reach umask who) c M := by
  have hplace := copyCmd_places umask h op (value_small c M)
  have hall := copyCmd_places umask h op (v := S_IRWXO) rfl
  have hcommon : effect omode (copyCmd c.char w op.char (~~~umask)) M =
      common (copyCmd c.char w op.char (~~~umask)) (c.value M) M := by
    cases c <;> rfl
  obtain ⟨hplus, hminus, hequal⟩ := h.flags
  rw [hcommon]
  cases op with
  | plus =>
    rw [common_plus hplus.1 hplus.2]
    exact congrArg (M ||| ·) hplace
  | minus =>
    rw [common_minus hminus.1 hminus.2]
    exact congrArg (M &&& ~~~·) hplace
  | equal =>
    rw [common_equal hequal.1 hequal.2]
    exact congrArg₂ (fun a b => M &&& ~~~a ||| b) hall hplace

end DiscoBSD.Modes
