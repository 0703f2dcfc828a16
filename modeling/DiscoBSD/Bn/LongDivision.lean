import Mathlib
import DiscoBSD.Bn.Divide

/-!
# Algorithm D in 32 bits

The values that `mdivrem` computes on its way, before they are cut to 32 bits. **None of them is cut**, and every
quotient limb that is multiplied in is the right one or one more. The differences `ui - sub` are meant to wrap.
-/

set_option autoImplicit false

namespace DiscoBSD.Bn

open Lib

/-! ## The words of a run -/

/-- The shifts of `shlLimbs`. -/
def shlWords (m : Mem) (dst src : Ptr) (s n : ℕ) : List ℕ :=
  trailDown (shlTurn dst src s) (fun i m => [(m (src + i) : ℕ) <<< s]) 1 (n - 1) m ++
    [(countDown (shlTurn dst src s) 1 (n - 1) m (src + 0) : ℕ) <<< s]

/-- The tests of the `while` and its steps. The product is made only where `qh` is a limb. -/
def tightenWords (v1 v2 u2 : ℕ) : ℕ → ℕ → List ℕ
  | 0, rh => [0 * v2, rh <<< limbBits]
  | qh + 1, rh =>
    (if qh + 1 > limbMask then [] else [(qh + 1) * v2, rh <<< limbBits]) ++
      if qh + 1 > limbMask ∨ u32 ((qh + 1) * v2) > (u32 (rh <<< limbBits) ||| u2) then
        (rh + v1) :: if rh + v1 > limbMask then [] else tightenWords v1 v2 u2 qh (rh + v1)
      else []

def mulSubWords (v : Ptr) (qh : ℕ) (i : ℕ) : Mem × ℕ × ℕ → List ℕ
  | (m, mulc, brw) =>
    let num := qh * m (v + i) + mulc
    [qh * m (v + i), num, (num &&& limbMask) + brw]

def addBackWords (u v : Ptr) (j : ℕ) (i : ℕ) : Mem × ℕ → List ℕ
  | (m, c) => [m (u + (i + j)) + m (v + i), m (u + (i + j)) + m (v + i) + c]

/-- The words of one limb of the quotient. -/
def divWords (u v : Ptr) (nd : ℕ) (j : ℕ) (m : Mem) : List ℕ :=
  let num := u32 ((m (u + (j + nd)) : ℕ) <<< limbBits) ||| m (u + (j + nd - 1))
  let v1 : ℕ := m (v + (nd - 1))
  let qh := quotientLimb u v nd j m
  let x := countUp (mulSubTurn u v qh j) 0 nd (m, 0, 0)
  [(m (u + (j + nd)) : ℕ) <<< limbBits] ++
    tightenWords v1 (m (v + (nd - 2))) (m (u + (j + nd - 2))) (num / v1) (num % v1) ++
    trailUp (mulSubTurn u v qh j) (mulSubWords v qh) 0 nd (m, 0, 0) ++ [x.2.1 + x.2.2] ++
    match mulSub u v nd qh j m with
    | (m, true) =>
      let y := countUp (addBackTurn u v j) 0 nd (m, 0)
      trailUp (addBackTurn u v j) (addBackWords u v j) 0 nd (m, 0) ++ [y.1 (u + (j + nd)) + y.2]
    | (_, false) => []

/-- Divisor and dividend shifted up, as `mdivrem` has them before the first limb of the quotient. -/
def normalized (m : Mem) (u v a : Ptr) (na : ℕ) (d : Ptr) (nd : ℕ) : Mem :=
  let s := limbBits - bitlen (m (d + (nd - 1)))
  let m := shlLimbs m v d s nd
  shlLimbs (put m (u + na) ((m (a + (na - 1)) : ℕ) >>> (limbBits - s))) u a s na

/-- The words of a whole run. -/
def mdivremWords (m : Mem) (q rem u v a : Ptr) (na : ℕ) (d : Ptr) (nd : ℕ) : List ℕ :=
  let s := limbBits - bitlen (m (d + (nd - 1)))
  let x := shlLimbs m v d s nd
  let y := normalized m u v a na d nd
  shlWords m v d s nd ++ shlWords (put x (u + na) ((x (a + (na - 1)) : ℕ) >>> (limbBits - s))) u a s na ++
    trailDown (divTurn q u v nd) (divWords u v nd) 0 (na - nd + 1) y ++
    trailUp (shrTurn rem u s) (fun i m => [(m (u + (i + 1)) : ℕ) <<< (limbBits - s)]) 0 nd
      (countDown (divTurn q u v nd) 0 (na - nd + 1) y)

/-- Every quotient limb that is multiplied in, with the right one. -/
def trials (m : Mem) (q u v a : Ptr) (na : ℕ) (d : Ptr) (nd : ℕ) : List (ℕ × ℕ) :=
  trailDown (divTurn q u v nd) (fun j m => [(quotientLimb u v nd j m, val m (u + j) (nd + 1) / val m v nd)]) 0
    (na - nd + 1) (normalized m u v a na d nd)

/-! ## None is cut -/

section

variable {m : Mem} {n k s : ℕ}

/-- Each word has room. -/
def InWords (ts : List ℕ) : Prop := ∀ t ∈ ts, t < 2 ^ 32

theorem InWords.append {ts us : List ℕ} (ht : InWords ts) (hu : InWords us) : InWords (ts ++ us) := by
  intro t h
  rcases List.mem_append.mp h with h | h
  · exact ht t h
  · exact hu t h

theorem InWords.cons {t : ℕ} {ts : List ℕ} (ht : t < 2 ^ 32) (hts : InWords ts) : InWords (t :: ts) := by
  intro x h
  rcases List.mem_cons.mp h with rfl | h
  · exact ht
  · exact hts x h

theorem InWords.nil : InWords [] := fun _ h => absurd h List.not_mem_nil

theorem shiftLeft_lt {x : ℕ} (hx : x < radix) (hs : s ≤ limbBits) : x <<< s < 2 ^ 32 := by
  have hpow : 2 ^ s ≤ radix := by
    have : 2 ^ s ≤ 2 ^ limbBits := Nat.pow_le_pow_right (by decide) hs
    exact this
  have hmul : x * 2 ^ s ≤ (radix - 1) * radix := Nat.mul_le_mul (by omega) hpow
  rw [Nat.shiftLeft_eq]
  unfold radix at hmul
  omega

theorem product_lt {x y : ℕ} (hx : x < radix) (hy : y < radix) : x * y ≤ (radix - 1) * (radix - 1) :=
  Nat.mul_le_mul (by omega) (by omega)

theorem shlWords_inWords {dst src : Ptr} (hs : s ≤ limbBits) : InWords (shlWords m dst src s n) := by
  apply InWords.append
  · refine trailDown_forall (fun _ _ => True) trivial (fun _ _ _ _ => trivial) fun i _ x _ => ?_
    exact InWords.cons (shiftLeft_lt (limb_lt x _) hs) InWords.nil
  · exact InWords.cons (shiftLeft_lt (limb_lt _ _) hs) InWords.nil

theorem tightenWords_inWords {v1 v2 u2 qh rh : ℕ} (hv1 : v1 < radix) (hv2 : v2 < radix) (hrh : rh < radix) :
    InWords (tightenWords v1 v2 u2 qh rh) := by
  have hmask : limbMask + 1 = radix := rfl
  induction qh generalizing rh with
  | zero =>
    rw [tightenWords, Nat.zero_mul]
    exact .cons (by decide) (.cons (shiftLeft_lt hrh (le_refl _)) .nil)
  | succ qh ih =>
    rw [tightenWords]
    apply InWords.append
    · split
      · exact .nil
      · have hprod := product_lt (by omega : qh + 1 < radix) hv2
        unfold radix at hprod
        exact .cons (by omega) (.cons (shiftLeft_lt hrh (le_refl _)) .nil)
    · split
      · refine .cons (by unfold radix at *; omega) ?_
        split
        · exact .nil
        · exact ih (by omega)
      · exact .nil

theorem carry_lt (t : ℕ) : u32 t >>> limbBits < radix := by
  rw [Nat.shiftRight_eq_div_pow]
  refine Nat.div_lt_of_lt_mul ?_
  exact Nat.mod_lt t (by decide)

/-- The carries of the subtraction. -/
def Carries (x : Mem × ℕ × ℕ) : Prop := x.2.1 < radix ∧ x.2.2 ≤ 1

theorem mulSubTurn_carries {u v : Ptr} {qh j : ℕ} (i : ℕ) (x : Mem × ℕ × ℕ) : Carries (mulSubTurn u v qh j i x) := by
  refine ⟨carry_lt _, ?_⟩
  rw [mulSubTurn]
  dsimp only
  split <;> omega

theorem mulSubWords_inWords {v : Ptr} {qh : ℕ} (hqh : qh < radix) (i : ℕ) (x : Mem × ℕ × ℕ) (h : Carries x) :
    InWords (mulSubWords v qh i x) := by
  obtain ⟨y, mulc, brw⟩ := x
  obtain ⟨hmulc, hbrw⟩ := h
  have hprod := product_lt hqh (limb_lt y (v + i))
  have hmod : (qh * y (v + i) + mulc) % radix < radix := Nat.mod_lt _ radix_pos
  rw [mulSubWords]
  simp only [and_limbMask]
  unfold radix at *
  dsimp only at hmulc hbrw
  exact .cons (by omega) (.cons (by omega) (.cons (by omega) .nil))

theorem addBackWords_inWords {u v : Ptr} {j : ℕ} (i : ℕ) (x : Mem × ℕ) (h : x.2 < radix) :
    InWords (addBackWords u v j i x) := by
  obtain ⟨y, c⟩ := x
  have hu := limb_lt y (u + (i + j))
  have hv := limb_lt y (v + i)
  rw [addBackWords]
  unfold radix at *
  dsimp only at h
  exact .cons (by omega) (.cons (by omega) .nil)

/-- The words of one quotient limb that is itself a limb. -/
theorem divWords_inWords {u v : Ptr} {nd j : ℕ} (hv1 : (m (v + (nd - 1)) : ℕ) ≠ 0) (hqh : quotientLimb u v nd j m < radix) :
    InWords (divWords u v nd j m) := by
  have hv1lt := limb_lt m (v + (nd - 1))
  have hrh : ∀ num, num % (m (v + (nd - 1)) : ℕ) < radix := fun num =>
    lt_trans (Nat.mod_lt num (Nat.pos_of_ne_zero hv1)) hv1lt
  have hstart : Carries (m, 0, 0) := ⟨radix_pos, Nat.zero_le 1⟩
  have hcarries : Carries (countUp (mulSubTurn u v (quotientLimb u v nd j m) j) 0 nd (m, 0, 0)) :=
    countUp_inv (fun _ x => Carries x) hstart fun _ _ _ _ => mulSubTurn_carries _ _
  refine InWords.append (InWords.append (InWords.append (InWords.append ?_ ?_) ?_) ?_) ?_
  · exact .cons (shiftLeft_lt (limb_lt m _) (le_refl _)) .nil
  · exact tightenWords_inWords hv1lt (limb_lt m _) (hrh _)
  · exact trailUp_forall Carries hstart (fun i x _ => mulSubTurn_carries i x) (mulSubWords_inWords hqh)
  · obtain ⟨hmulc, hbrw⟩ := hcarries
    unfold radix at hmulc
    exact .cons (by omega) .nil
  · split
    next x heq =>
      have hback : (countUp (addBackTurn u v j) 0 nd (x, 0)).2 < radix :=
        countUp_inv (fun _ (y : Mem × ℕ) => y.2 < radix) radix_pos fun _ _ _ _ => carry_lt _
      apply InWords.append
      · exact trailUp_forall (fun (y : Mem × ℕ) => y.2 < radix) radix_pos (fun _ _ _ => carry_lt _) addBackWords_inWords
      · have hu := limb_lt (countUp (addBackTurn u v j) 0 nd (x, 0)).1 (u + (j + nd))
        unfold radix at hback hu
        exact .cons (by omega) .nil
    next => exact .nil

/-! ## Long division -/

/-- What holds before each limb of the quotient. -/
theorem normalized_spec {q rem u v a d : Ptr} {turns : ℕ} (hn : n + 2 = turns + (k + 2)) (hd : (m (d + (k + 1)) : ℕ) ≠ 0)
    (hws : Workspace q rem u v a (n + 1) d (k + 2) turns) {y : Mem} (hy : y = normalized m u v a (n + 1) d (k + 2)) :
    (y (v + (k + 1)) : ℕ) ≠ 0 ∧ Dividing y q u v k turns turns y := by
  have hnorm := normalize_spec rfl hd hws.vd hws.va hws.ua hws.uv rfl rfl
  have hlead := hnorm.lead_lt hd hn
  subst hy
  refine ⟨hnorm.lead, rfl, ?_, hlead, fun h => absurd h (lt_irrefl _), fun _ _ _ => rfl⟩
  rw [Nat.sub_self, val_zero, Nat.zero_mul, Nat.zero_mul, Nat.zero_add]

/-- The limbs that the next quotient limb is found from. -/
theorem Dividing.quotient {q u v : Ptr} {turns j : ℕ} {x : Mem} (hv1 : (m (v + (k + 1)) : ℕ) ≠ 0)
    (huv : Apart u (turns + (k + 2)) v (k + 2)) (hqv : Apart q turns v (k + 2)) (h : Dividing m q u v k turns (j + 1) x) :
    (x (v + (k + 1)) : ℕ) ≠ 0 ∧ val x (u + j) (k + 3) < val x v (k + 2) * radix := by
  have hsame : x (v + (k + 1)) = m (v + (k + 1)) :=
    h.frame _ (huv.not_within (by omega)) (hqv.not_within (by omega))
  have hrest := h.rest
  rw [← h.divisor] at hrest
  have hlimb := limb_lt x (u + j)
  have hmul : (val x (u + (j + 1)) (k + 2) + 1) * radix ≤ val x v (k + 2) * radix := Nat.mul_le_mul_right _ hrest
  refine ⟨hsame ▸ hv1, ?_⟩
  rw [val_cons x u j (k + 2)]
  linarith

/-- **Algorithm D is long division.** No word of a run needs more than 32 bits, and every quotient limb that is
multiplied in is the right one or one more. -/
theorem mdivrem_exact (m : Mem) (q rem u v a d : Ptr) (na nd : ℕ) (htwo : 2 ≤ nd) (hle : nd ≤ na)
    (htop : m (d + (nd - 1)) ≠ 0) (hws : Workspace q rem u v a na d nd (na - nd + 1)) :
    val m a na = val (mdivrem m q rem u v a na d nd) q (na - nd + 1) * val m d nd +
        val (mdivrem m q rem u v a na d nd) rem nd ∧
      val (mdivrem m q rem u v a na d nd) rem nd < val m d nd ∧
      (∀ t ∈ mdivremWords m q rem u v a na d nd, t < 2 ^ 32) ∧
      ∀ t ∈ trials m q u v a na d nd, t.2 ≤ t.1 ∧ t.1 ≤ t.2 + 1 := by
  obtain ⟨k, rfl⟩ : ∃ k, nd = k + 2 := ⟨nd - 2, by omega⟩
  obtain ⟨n, rfl⟩ : ∃ n, na = n + 1 := ⟨na - 1, by omega⟩
  obtain ⟨turns, hturns⟩ : ∃ turns, turns = n + 1 - (k + 2) + 1 := ⟨_, rfl⟩
  have hn : n + 2 = turns + (k + 2) := by omega
  have hd : (m (d + (k + 1)) : ℕ) ≠ 0 := fun h => htop (Fin.ext h)
  rw [← hturns] at hws ⊢
  obtain ⟨hquot, hrem, -⟩ := mdivrem_spec hn (by omega) hd hws rfl
  have hpos : 0 < val m d (k + 2) := by
    have : radix ^ (k + 1) ≤ val m d (k + 2) := pow_le_value hd
    exact lt_of_lt_of_le (Nat.pow_pos radix_pos) this
  obtain ⟨y, hy⟩ : ∃ y, y = normalized m u v a (n + 1) d (k + 2) := ⟨_, rfl⟩
  obtain ⟨hlead, hstart⟩ := normalized_spec hn hd hws hy
  have huv : Apart u (turns + (k + 2)) v (k + 2) := hn ▸ hws.uv
  have huq : Apart u (turns + (k + 2)) q turns := hn ▸ hws.uq
  have hstep : ∀ j < turns, ∀ x, Dividing y q u v k turns (j + 1) x →
      Dividing y q u v k turns j (divTurn q u v (k + 2) (0 + j) x) := by
    intro j hj x hx
    rw [Nat.zero_add]
    exact hx.turn hlead huv huq hws.qv hj
  refine ⟨?_, hrem ▸ Nat.mod_lt _ hpos, ?_, ?_⟩
  · rw [hquot, hrem, Nat.mul_comm]
    exact (Nat.div_add_mod _ _).symm
  · have hs : limbBits - bitlen (m (d + (k + 2 - 1))) ≤ limbBits := Nat.sub_le ..
    refine InWords.append (InWords.append (InWords.append (shlWords_inWords hs) (shlWords_inWords hs)) ?_) ?_
    · rw [← hturns, ← hy]
      refine trailDown_forall (Dividing y q u v k turns) hstart hstep fun j hj x hx => ?_
      obtain ⟨hv1, hlarge⟩ := hx.quotient hlead huv hws.qv
      rw [Nat.zero_add]
      exact divWords_inWords hv1 (quotientLimb_spec hv1 hlarge rfl).1
    · refine trailUp_forall (fun _ => True) trivial (fun _ _ _ => trivial) fun i x _ => ?_
      exact InWords.cons (shiftLeft_lt (limb_lt x _) (Nat.sub_le ..)) .nil
  · rw [trials, ← hturns, ← hy]
    refine trailDown_forall (Dividing y q u v k turns) hstart hstep fun j hj x hx => ?_
    obtain ⟨hv1, hlarge⟩ := hx.quotient hlead huv hws.qv
    intro t ht
    rw [List.mem_singleton.mp ht, Nat.zero_add]
    exact (quotientLimb_spec hv1 hlarge rfl).2

/-- `3 + 2^47` and the divisor `1 + 2^45` in three limbs, each piece in a region of its own. -/
def backMem : Mem
  | ⟨4, 0⟩ => 3
  | ⟨4, 2⟩ => 0x8000
  | ⟨5, 0⟩ => 1
  | ⟨5, 2⟩ => 0x2000
  | _ => 0

/-- The one quotient limb is estimated as 4, and the divisor is added back. -/
theorem mdivrem_exact_back :
    trials backMem ⟨0, 0⟩ ⟨2, 0⟩ ⟨3, 0⟩ ⟨4, 0⟩ 3 ⟨5, 0⟩ 3 = [(4, 3)] ∧
      val (mdivrem backMem ⟨0, 0⟩ ⟨1, 0⟩ ⟨2, 0⟩ ⟨3, 0⟩ ⟨4, 0⟩ 3 ⟨5, 0⟩ 3) ⟨1, 0⟩ 3 < val backMem ⟨5, 0⟩ 3 := by
  have hapart : ∀ {r r' : ℕ} {n k : ℕ}, r ≠ r' → Apart ⟨r, 0⟩ n ⟨r', 0⟩ k := fun h => .inl h
  refine ⟨by decide +kernel, ?_⟩
  apply (mdivrem_exact backMem ⟨0, 0⟩ ⟨1, 0⟩ ⟨2, 0⟩ ⟨3, 0⟩ ⟨4, 0⟩ ⟨5, 0⟩ 3 3 (by decide) (by decide) (by decide) ?_).2.1
  constructor <;> exact hapart (by decide)

end

end DiscoBSD.Bn
