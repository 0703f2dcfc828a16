import Mathlib.Data.List.Basic
import Mathlib.Data.Nat.Bitwise
import Mathlib.Tactic.Ring

/-!
# Unsigned words over `Nat`

A C expression of an unsigned type of `w` bits is modelled as a natural number below `2 ^ w`, with
`wrap w` at the places where the machine drops a carry. Masks are the C ones: `maskDown w n a` is
`n & ~(a - 1)` and reads as "round down to a multiple of `a`" exactly when `a` is a power of two,
which is what `maskDown_eq` says; `roundUp` is the arithmetic the C idiom
`(n + a - 1) & ~(a - 1)` computes when nothing wraps.
-/

set_option autoImplicit false

namespace DiscoBSD.Lib

/-- The value an unsigned type of `w` bits keeps. -/
def wrap (w n : Nat) : Nat := n % 2 ^ w

theorem wrap_lt (w n : Nat) : wrap w n < 2 ^ w := Nat.mod_lt _ (Nat.two_pow_pos w)

theorem wrap_of_lt {w n : Nat} (h : n < 2 ^ w) : wrap w n = n := Nat.mod_eq_of_lt h

/-- `n & ~(a - 1)` on `w` bits. -/
def maskDown (w n a : Nat) : Nat := n &&& (2 ^ w - 1 - (a - 1))

/-- `n` rounded up to a multiple of `a`. -/
def roundUp (a n : Nat) : Nat := (n + a - 1) / a * a

theorem maskDown_eq {w n k : Nat} (hk : k ≤ w) (hn : n < 2 ^ w) :
    maskDown w n (2 ^ k) = n / 2 ^ k * 2 ^ k := by
  unfold maskDown
  have hpk := Nat.two_pow_pos k
  have hle : 2 ^ k ≤ 2 ^ w := Nat.pow_le_pow_right (by omega) hk
  have hm : 2 ^ w - 1 - (2 ^ k - 1) = 2 ^ w - ((2 ^ k - 1) + 1) := by omega
  rw [hm]
  apply Nat.eq_of_testBit_eq
  intro i
  rw [Nat.testBit_and, Nat.testBit_two_pow_sub_succ (by omega : 2 ^ k - 1 < 2 ^ w),
    Nat.testBit_two_pow_sub_one, Nat.testBit_mul_two_pow, Nat.testBit_div_two_pow]
  by_cases hi : i < k
  · simp [hi, Nat.not_le.mpr hi]
  · have hki : k ≤ i := by omega
    rw [Nat.sub_add_cancel hki]
    by_cases hw : i < w
    · simp [hi, hki, hw]
    · have : n.testBit i = false :=
        Nat.testBit_lt_two_pow (Nat.lt_of_lt_of_le hn (Nat.pow_le_pow_right (by omega) (by omega)))
      simp [this]

theorem maskDown_le (w n a : Nat) : maskDown w n a ≤ n := Nat.and_le_left

theorem dvd_roundUp (a n : Nat) : a ∣ roundUp a n := Nat.dvd_mul_left _ _

theorem le_roundUp {a : Nat} (ha : 0 < a) (n : Nat) : n ≤ roundUp a n := by
  unfold roundUp
  have h := Nat.div_add_mod (n + a - 1) a
  have hm := Nat.mod_lt (n + a - 1) ha
  rw [Nat.mul_comm] at h
  omega

theorem roundUp_lt {a : Nat} (ha : 0 < a) (n : Nat) : roundUp a n < n + a := by
  unfold roundUp
  have := Nat.div_mul_le_self (n + a - 1) a
  omega

theorem roundUp_of_dvd {a n : Nat} (ha : 0 < a) (h : a ∣ n) : roundUp a n = n := by
  obtain ⟨m, rfl⟩ := h
  unfold roundUp
  have : (a * m + a - 1) / a = m := by
    have hc := Nat.mul_comm a m
    rw [Nat.div_eq_iff ha]
    omega
  rw [this, Nat.mul_comm]

theorem roundUp_mono {a m n : Nat} (h : m ≤ n) : roundUp a m ≤ roundUp a n :=
  Nat.mul_le_mul_right a (Nat.div_le_div_right (by omega))

/-- Nothing lower is a multiple. -/
theorem roundUp_le {a n x : Nat} (ha : 0 < a) (h : n ≤ x) (hx : a ∣ x) : roundUp a n ≤ x :=
  Nat.le_trans (roundUp_mono h) (Nat.le_of_eq (roundUp_of_dvd ha hx))

/-- The C rounding idiom, when the sum stays inside the type. -/
theorem maskDown_add {w n k : Nat} (hk : k ≤ w) (h : n + 2 ^ k - 1 < 2 ^ w) :
    maskDown w (n + 2 ^ k - 1) (2 ^ k) = roundUp (2 ^ k) n := maskDown_eq hk h

/-- The C test `a != 0 && (a & (a - 1)) == 0`. -/
theorem exists_two_pow {a : Nat} (h₀ : a ≠ 0) (h : a &&& (a - 1) = 0) : ∃ k, a = 2 ^ k :=
  (Nat.and_sub_one_eq_zero_iff_isPowerOfTwo h₀).mp h

theorem and_sub_one_eq_mod (n k : Nat) : n &&& (2 ^ k - 1) = n % 2 ^ k :=
  Nat.and_two_pow_sub_one_eq_mod n k

end DiscoBSD.Lib

/-!
# Bit strings and words, most significant bit first

A bit reader keeps the next bits of a stream in a machine word, left aligned, and takes fields off the
top with shifts and masks. Over bit lists the same operations are `take` and `drop`. This file is the
dictionary: `bitsVal` reads a list as a number, a word of `w` bits is a list of that length, and the
three word operations a reader uses are the three lemmas at the end.

* a shift right and a mask read the field in the middle (`bitsVal_field`);
* a shift left drops the bits read and pads with zeros (`bitsVal_shiftOut`);
* an `or` below the valid bits appends to them (`bitsVal_orIn`).
-/

namespace DiscoBSD.Lib

/-- The number a bit list writes. -/
def bitsVal : List Bool → Nat
  | [] => 0
  | b :: bs => b.toNat * 2 ^ bs.length + bitsVal bs

/-- The low `w` bits of `n`, most significant first. -/
def natBits : Nat → Nat → List Bool
  | 0, _ => []
  | w + 1, n => n.testBit w :: natBits w n

@[simp] theorem natBits_length (w n : Nat) : (natBits w n).length = w := by
  induction w with
  | zero => rfl
  | succ w ih => rw [natBits, List.length_cons, ih]

theorem bitsVal_lt (bs : List Bool) : bitsVal bs < 2 ^ bs.length := by
  induction bs with
  | nil => exact Nat.one_pos
  | cons b bs ih =>
    rw [bitsVal, List.length_cons, Nat.pow_succ]
    cases b <;> simp only [Bool.toNat_true, Bool.toNat_false] <;> omega

theorem bitsVal_append (as bs : List Bool) :
    bitsVal (as ++ bs) = bitsVal as * 2 ^ bs.length + bitsVal bs := by
  induction as with
  | nil => simp [bitsVal]
  | cons a as ih =>
    rw [List.cons_append, bitsVal, bitsVal, ih, List.length_append, Nat.pow_add]
    ring

@[simp] theorem bitsVal_zeros (n : Nat) : bitsVal (List.replicate n false) = 0 := by
  induction n with
  | zero => rfl
  | succ n ih => rw [List.replicate_succ, bitsVal, ih]; simp

theorem bitsVal_natBits (w n : Nat) : bitsVal (natBits w n) = n % 2 ^ w := by
  induction w with
  | zero => rw [natBits, bitsVal, Nat.pow_zero, Nat.mod_one]
  | succ w ih =>
    rw [natBits, bitsVal, ih, natBits_length, Nat.mod_pow_succ, ← Nat.toNat_testBit]
    ring

/-- The top bit of a word is set exactly when the word is at least half its range. -/
theorem bitsVal_cons_ge {b : Bool} {bs : List Bool} : 2 ^ bs.length ≤ bitsVal (b :: bs) ↔ b = true := by
  have h := bitsVal_lt bs
  rw [bitsVal]
  cases b <;> simp only [Bool.toNat_true, Bool.toNat_false, Bool.false_eq_true, iff_false,
    iff_true] <;> omega

/-- A shift right and a mask read the field `f` out of the middle of a word. -/
theorem bitsVal_field (a f c : List Bool) :
    (bitsVal (a ++ (f ++ c)) >>> c.length) % 2 ^ f.length = bitsVal f := by
  have hc := bitsVal_lt c
  have hf := bitsVal_lt f
  have hval : bitsVal (a ++ (f ++ c)) =
      2 ^ c.length * (bitsVal a * 2 ^ f.length + bitsVal f) + bitsVal c := by
    rw [bitsVal_append, bitsVal_append, List.length_append, Nat.pow_add]
    ring
  rw [Nat.shiftRight_eq_div_pow, hval, Nat.mul_add_div (Nat.two_pow_pos _), Nat.div_eq_of_lt hc,
    Nat.add_zero, Nat.mul_comm, Nat.mul_add_mod, Nat.mod_eq_of_lt hf]

/-- A shift left inside the word drops the bits at the top and pads with zeros. -/
theorem bitsVal_shiftOut (a c : List Bool) :
    wrap (a.length + c.length) (bitsVal (a ++ c) <<< a.length) =
      bitsVal (c ++ List.replicate a.length false) := by
  have hc := bitsVal_lt c
  have hlt : bitsVal c * 2 ^ a.length < 2 ^ (a.length + c.length) := by
    rw [Nat.pow_add, Nat.mul_comm (2 ^ a.length)]
    exact Nat.mul_lt_mul_of_pos_right hc (Nat.two_pow_pos _)
  have hval : bitsVal (a ++ c) * 2 ^ a.length =
      2 ^ (a.length + c.length) * bitsVal a + bitsVal c * 2 ^ a.length := by
    rw [bitsVal_append, Nat.pow_add]
    ring
  rw [wrap, Nat.shiftLeft_eq, hval, Nat.mul_add_mod, Nat.mod_eq_of_lt hlt, bitsVal_append,
    bitsVal_zeros, List.length_replicate, Nat.add_zero]

/-- Or-ing a field in below the valid bits appends it to them. -/
theorem bitsVal_orIn (vs f : List Bool) (n : Nat) :
    bitsVal (vs ++ List.replicate (f.length + n) false) ||| bitsVal f <<< n =
      bitsVal (vs ++ f ++ List.replicate n false) := by
  have hf := bitsVal_lt f
  have hlt : bitsVal f <<< n < 2 ^ (f.length + n) := by
    rw [Nat.shiftLeft_eq, Nat.pow_add]
    exact Nat.mul_lt_mul_of_pos_right hf (Nat.two_pow_pos _)
  rw [bitsVal_append vs, bitsVal_zeros, List.length_replicate, Nat.add_zero, ← Nat.shiftLeft_eq,
    ← Nat.shiftLeft_add_eq_or_of_lt hlt, Nat.shiftLeft_eq, Nat.shiftLeft_eq, List.append_assoc,
    bitsVal_append, bitsVal_append, bitsVal_zeros, List.length_append, List.length_replicate]
  ring

end DiscoBSD.Lib
