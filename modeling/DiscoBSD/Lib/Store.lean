import Mathlib.Data.List.Basic
import Mathlib.Logic.Function.Basic
import DiscoBSD.Lib.Extent
import DiscoBSD.Lib.Word

/-!
# Byte stores

A store is a total map from addresses to values; a list is laid down at an address and read back
from one. **Two stores are compared on an extent**, not cell by cell: `Same e m m'` says that nothing
in `e` changed, and it is all a caller needs to know about a write that went somewhere else.
-/

set_option autoImplicit false

namespace DiscoBSD.Lib

variable {α : Type}

/-- The `n` values from `a` on. -/
def readAt (m : Nat → α) (a n : Nat) : List α := (List.range n).map fun i => m (a + i)

/-- The store with `bs` laid down from `a` on. -/
def writeAt (m : Nat → α) (a : Nat) (bs : List α) : Nat → α := fun x =>
  if a ≤ x then (bs[x - a]?).getD (m x) else m x

@[simp] theorem writeAt_nil (m : Nat → α) (a : Nat) : writeAt m a [] = m := by
  funext x
  simp [writeAt]

@[simp] theorem readAt_zero (m : Nat → α) (a : Nat) : readAt m a 0 = [] := rfl

@[simp] theorem readAt_length (m : Nat → α) (a n : Nat) : (readAt m a n).length = n := by
  simp [readAt]

theorem readAt_add (m : Nat → α) (a n k : Nat) :
    readAt m a (n + k) = readAt m a n ++ readAt m (a + n) k := by
  simp only [readAt, List.range_add, List.map_append, List.map_map]
  congr 1
  refine List.map_congr_left fun i _ => ?_
  simp only [Function.comp, Nat.add_assoc]

theorem getElem?_readAt (m : Nat → α) (a n i : Nat) :
    (readAt m a n)[i]? = if i < n then some (m (a + i)) else none := by
  simp only [readAt, List.getElem?_map]
  by_cases h : i < n
  · simp [h]
  · simp [h]

/-- Two writes, the second where the first ended. -/
theorem writeAt_append (m : Nat → α) (a : Nat) (xs ys : List α) :
    writeAt m a (xs ++ ys) = writeAt (writeAt m a xs) (a + xs.length) ys := by
  funext x
  simp only [writeAt]
  by_cases h₁ : a ≤ x
  · by_cases h₂ : a + xs.length ≤ x
    · rw [if_pos h₁, if_pos h₂, List.getElem?_append_right (by omega), Nat.sub_sub,
        List.getElem?_eq_none (l := xs) (by omega)]
      simp [h₁]
    · rw [if_pos h₁, if_neg h₂, if_pos h₁, List.getElem?_append_left (by omega)]
  · rw [if_neg h₁, if_neg (by omega), if_neg h₁]

theorem writeAt_cons (m : Nat → α) (a : Nat) (b : α) (bs : List α) :
    writeAt m a (b :: bs) = writeAt (Function.update m a b) (a + 1) bs := by
  have hone : writeAt m a [b] = Function.update m a b := by
    funext x
    rw [writeAt, Function.update_apply]
    by_cases hx : x = a
    · simp [hx]
    · rw [if_neg hx]
      split
      · rw [List.getElem?_eq_none (by simp only [List.length_singleton]; omega)]
        rfl
      · rfl
  rw [← List.singleton_append, writeAt_append, hone]
  rfl

/-- What was written is read back. -/
theorem readAt_writeAt (m : Nat → α) (a : Nat) (bs : List α) :
    readAt (writeAt m a bs) a bs.length = bs := by
  refine List.ext_getElem? fun i => ?_
  rw [getElem?_readAt]
  by_cases h : i < bs.length
  · rw [if_pos h, writeAt, if_pos (Nat.le_add_right a i), Nat.add_sub_cancel_left,
      List.getElem?_eq_getElem h]
    rfl
  · rw [if_neg h, List.getElem?_eq_none (by omega)]

/-- A part of what was read. -/
theorem readAt_drop_take (m : Nat → α) (a : Nat) {n i k : Nat} (h : i + k ≤ n) :
    ((readAt m a n).drop i).take k = readAt m (a + i) k := by
  obtain ⟨r, rfl⟩ := Nat.exists_eq_add_of_le h
  rw [readAt_add, readAt_add, List.append_assoc, List.drop_append_of_le_length (by simp),
    List.drop_of_length_le (by simp), List.nil_append, List.take_append_of_le_length (by simp),
    List.take_of_length_le (by simp)]

/-- Reading inside what was written. -/
theorem readAt_writeAt_inside {m : Nat → α} {bs : List α} {a p n : Nat} (h₁ : a ≤ p) (h₂ : p + n ≤ a + bs.length) :
    readAt (writeAt m a bs) p n = (bs.drop (p - a)).take n := by
  have hpart := readAt_drop_take (writeAt m a bs) a (n := bs.length) (i := p - a) (k := n) (by omega)
  rw [readAt_writeAt, Nat.add_sub_cancel' h₁] at hpart
  exact hpart.symm

/-! ## What a write leaves alone -/

/-- The stores agree on the extent. -/
def Same (e : Extent) (m m' : Nat → α) : Prop := ∀ x, e.off ≤ x → x < e.off + e.size → m' x = m x

/-- A write outside the extent. -/
theorem writeAt_same {e : Extent} (m : Nat → α) {a : Nat} {bs : List α}
    (h : a + bs.length ≤ e.off ∨ e.off + e.size ≤ a) : Same e m (writeAt m a bs) := by
  intro x h₁ h₂
  by_cases ha : a ≤ x
  · rw [writeAt, if_pos ha, List.getElem?_eq_none (by omega)]
    rfl
  · rw [writeAt, if_neg ha]

theorem readAt_congr {e : Extent} {m m' : Nat → α} (h : Same e m m') {a n : Nat} (hlow : e.off ≤ a)
    (hhigh : a + n ≤ e.off + e.size) : readAt m' a n = readAt m a n := by
  refine List.map_congr_left fun i hi => ?_
  rw [List.mem_range] at hi
  exact h (a + i) (by omega) (by omega)

/-- A write where a read ends makes the read longer. -/
theorem readAt_writeAt_end (m : Nat → α) (a n : Nat) (bs : List α) :
    readAt (writeAt m (a + n) bs) a (n + bs.length) = readAt m a n ++ bs := by
  rw [readAt_add, readAt_writeAt, readAt_congr (e := ⟨a, n⟩) (writeAt_same m (.inr (Nat.le_refl _)))
    (Nat.le_refl _) (Nat.le_refl _)]

end DiscoBSD.Lib

/-!
# Little-endian numbers

A number of `k` bytes in memory, least significant byte first.
-/

namespace DiscoBSD.Lib

/-- A statement about every byte, from its 256 cases. -/
theorem forall_byte {P : UInt8 → Prop} (h : ∀ n < 256, P (UInt8.ofNat n)) (c : UInt8) : P c := by
  have hc := h c.toNat c.toNat_lt
  rwa [UInt8.ofNat_toNat] at hc

/-- The `k` low bytes of a number. -/
def leBytes : Nat → Nat → List UInt8
  | 0, _ => []
  | k + 1, n => UInt8.ofNat n :: leBytes k (n / 256)

/-- The number some bytes stand for. -/
def leNat : List UInt8 → Nat
  | [] => 0
  | b :: bs => b.toNat + 256 * leNat bs

@[simp] theorem leBytes_length (k n : Nat) : (leBytes k n).length = k := by
  induction k generalizing n with
  | zero => rfl
  | succ k ih => simp [leBytes, ih]

/-- What fits is read back. -/
theorem leNat_leBytes {k n : Nat} (h : n < 256 ^ k) : leNat (leBytes k n) = n := by
  induction k generalizing n with
  | zero =>
    simp only [leBytes, leNat]
    simp at h
    exact h.symm
  | succ k ih =>
    have hdiv : n / 256 < 256 ^ k := by
      apply Nat.div_lt_of_lt_mul
      rw [Nat.mul_comm, ← Nat.pow_succ]
      exact h
    simp only [leBytes, leNat, ih hdiv, UInt8.toNat_ofNat']
    omega

/-- The 32-bit word at an address. -/
def wordAt (m : Nat → UInt8) (a : Nat) : Nat := leNat (readAt m a 4)

/-- The store with a 32-bit word laid down at an address. -/
def putWord (m : Nat → UInt8) (a n : Nat) : Nat → UInt8 := writeAt m a (leBytes 4 n)

theorem wordAt_putWord (m : Nat → UInt8) (a : Nat) {n : Nat} (h : n < 2 ^ 32) :
    wordAt (putWord m a n) a = n := by
  have hread : readAt (putWord m a n) a 4 = leBytes 4 n := by
    have hlen := readAt_writeAt m a (leBytes 4 n)
    rw [leBytes_length] at hlen
    exact hlen
  rw [wordAt, hread]
  exact leNat_leBytes h

theorem putWord_same {e : Extent} (m : Nat → UInt8) {a : Nat} (n : Nat)
    (h : a + 4 ≤ e.off ∨ e.off + e.size ≤ a) : Same e m (putWord m a n) := by
  apply writeAt_same
  rw [leBytes_length]
  exact h

theorem wordAt_congr {e : Extent} {m m' : Nat → UInt8} (h : Same e m m') {a : Nat} (hlow : e.off ≤ a)
    (hhigh : a + 4 ≤ e.off + e.size) : wordAt m' a = wordAt m a := by
  rw [wordAt, wordAt, readAt_congr h hlow hhigh]

end DiscoBSD.Lib
