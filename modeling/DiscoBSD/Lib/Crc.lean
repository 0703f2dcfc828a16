import Mathlib.Data.Nat.Notation

/-!
# The shift register of a cyclic redundancy check

A register of `w` bits takes a message bit by bit. The same register can be run with its bits the other way round:
`stepR` shifts down where `step` shifts up, and **`reverse` takes one to the other**.

The reflected register is linear, so the bits of a message may as well be added to it before it is shifted, all of
them at once. Shifted by `n` bits, only its low `n` bits matter for what is added to the rest of it. This is why a table
of the values for those bits does (`run_split`).
-/

set_option autoImplicit false

namespace DiscoBSD.Lib.Crc

variable {w : ℕ}

/-- A bit is taken in, with the top bit of the register first. -/
def step (poly reg : BitVec w) (b : Bool) : BitVec w :=
  (reg <<< 1) ^^^ if reg.msb ^^ b then poly else 0#w

/-- A bit is taken in, with the lowest bit of the register first. -/
def stepR (poly reg : BitVec w) (b : Bool) : BitVec w :=
  (reg >>> 1) ^^^ if reg.getLsbD 0 ^^ b then poly else 0#w

/-- The low `n` bits of a word are taken in. -/
def feed (poly : BitVec w) : ℕ → BitVec w → BitVec w → BitVec w
  | 0, _, reg => reg
  | n + 1, y, reg => feed poly n (y >>> 1) (stepR poly reg (y.getLsbD 0))

/-- `n` steps with nothing to take in. -/
def run (poly : BitVec w) : ℕ → BitVec w → BitVec w
  | 0, reg => reg
  | n + 1, reg => run poly n (stepR poly reg false)

variable (poly : BitVec w)

/-- **Reflection.** -/
theorem reverse_step (reg : BitVec w) (b : Bool) :
    (step poly reg b).reverse = stepR poly.reverse reg.reverse b := by
  have hlow : reg.reverse.getLsbD 0 = reg.msb := by rw [BitVec.getLsbD_reverse, BitVec.msb]
  apply BitVec.eq_of_getLsbD_eq
  intro i hi
  rw [BitVec.getLsbD_reverse, BitVec.getMsbD_eq_getLsbD]
  simp only [hi, decide_true, Bool.true_and, step, stepR, hlow, BitVec.getLsbD_xor, BitVec.getLsbD_shiftLeft,
    BitVec.getLsbD_ushiftRight, BitVec.getLsbD_reverse, BitVec.getMsbD_eq_getLsbD]
  have hshift : (decide (w - 1 - i < w) && !decide (w - 1 - i < 1) && reg.getLsbD (w - 1 - i - 1)) =
      (decide (1 + i < w) && reg.getLsbD (w - 1 - (1 + i))) := by
    by_cases hlt : 1 + i < w
    · have h₁ : w - 1 - i < w := by omega
      have h₂ : ¬w - 1 - i < 1 := by omega
      have h₃ : w - 1 - i - 1 = w - 1 - (1 + i) := by omega
      simp [hlt, h₁, h₂, h₃]
    · have h₁ : w - 1 - i < 1 := by omega
      simp [hlt, h₁]
  rw [hshift]
  split
  · rw [BitVec.getLsbD_reverse, BitVec.getMsbD_eq_getLsbD]
    simp [hi]
  · simp

theorem stepR_xor (x y : BitVec w) (a b : Bool) :
    stepR poly (x ^^^ y) (a ^^ b) = stepR poly x a ^^^ stepR poly y b := by
  apply BitVec.eq_of_getLsbD_eq
  intro i hi
  simp only [stepR, BitVec.getLsbD_xor, BitVec.getLsbD_ushiftRight]
  cases x.getLsbD 0 <;> cases y.getLsbD 0 <;> cases a <;> cases b <;>
    cases x.getLsbD (1 + i) <;> cases y.getLsbD (1 + i) <;> cases poly.getLsbD i <;> simp

/-- A word added to the register before the step is a bit taken in and the rest added after it. -/
theorem stepR_add (x y : BitVec w) : stepR poly (x ^^^ y) false = stepR poly x (y.getLsbD 0) ^^^ (y >>> 1) := by
  have hself : stepR poly y (y.getLsbD 0) = y >>> 1 := by
    unfold stepR
    rw [Bool.xor_self]
    simp
  have hsplit := stepR_xor poly x y (y.getLsbD 0) (y.getLsbD 0)
  rw [Bool.xor_self, hself] at hsplit
  exact hsplit

theorem run_xor_eq_feed (n : ℕ) (x y : BitVec w) : run poly n (x ^^^ y) = feed poly n y x ^^^ (y >>> n) := by
  induction n generalizing x y with
  | zero => simp [run, feed]
  | succ n ih =>
    rw [run, feed, stepR_add, ih, ← BitVec.shiftRight_add, Nat.add_comm 1 n]

/-- **The bits of a word are taken in by adding it.** -/
theorem feed_eq_run {n : ℕ} {y : BitVec w} (hy : y >>> n = 0#w) (x : BitVec w) :
    feed poly n y x = run poly n (x ^^^ y) := by
  rw [run_xor_eq_feed, hy, BitVec.xor_zero]

/-- Only the low bits of a word are taken in. -/
theorem feed_congr {n : ℕ} {y y' : BitVec w} (h : ∀ i < n, y.getLsbD i = y'.getLsbD i) (x : BitVec w) :
    feed poly n y x = feed poly n y' x := by
  induction n generalizing x y y' with
  | zero => rfl
  | succ n ih =>
    rw [feed, feed, h 0 (Nat.succ_pos n)]
    apply ih
    intro i hi
    rw [BitVec.getLsbD_ushiftRight, BitVec.getLsbD_ushiftRight]
    exact h (1 + i) (by omega)

/-- **What is added to the rest of a register is a value of its low bits.** -/
theorem run_split {n : ℕ} {x low : BitVec w} (hlow : ∀ i < n, x.getLsbD i = low.getLsbD i) (hhigh : low >>> n = 0#w) :
    run poly n x = (x >>> n) ^^^ run poly n low := by
  have hx : run poly n x = feed poly n x 0#w ^^^ (x >>> n) := by
    rw [← run_xor_eq_feed, BitVec.zero_xor]
  have hlow' : run poly n low = feed poly n x 0#w := by
    rw [feed_congr poly hlow, feed_eq_run poly hhigh, BitVec.zero_xor]
  rw [hx, hlow', BitVec.xor_comm]

theorem run_add (m n : ℕ) (x : BitVec w) : run poly (m + n) x = run poly n (run poly m x) := by
  induction m generalizing x with
  | zero => rw [Nat.zero_add, run]
  | succ m ih => rw [Nat.succ_add, run, run, ih]

end DiscoBSD.Lib.Crc
