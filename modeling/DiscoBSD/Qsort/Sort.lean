import DiscoBSD.Lib.Loops
import DiscoBSD.Lib.Rearrange
import DiscoBSD.Lib.Store

/-!
# qsort

`lib/libc/gen/qsort.c`. The pointers of the sort are multiples of the record size behind `base` and stand here for the
index of their record; the loops that move records go byte by byte. **A comparison or an exchange outside the array
stops the sort**, and so do more turns than there can be, so that a result shows that neither happened.
-/

set_option autoImplicit false

namespace DiscoBSD.Qsort

open Lib (countUp readAt)

abbrev Mem := ℕ → UInt8

abbrev Rec := List UInt8

inductive Stop
  | outside
  | running

/-- `THRESH` -/
def THRESH : ℕ := 4

/-- `MTHRESH` -/
def MTHRESH : ℕ := 6

/-- `struct qsort_state`, with the array that is sorted. -/
structure QsortState where
  qcmp : Rec → Rec → ℤ
  qsz : ℕ
  thresh : ℕ
  mthresh : ℕ
  base : ℕ
  n : ℕ

namespace QsortState

variable (st : QsortState)

/-- The address of a record. -/
def address (i : ℕ) : ℕ := st.base + i * st.qsz

/-- The bytes of a record. -/
def record (m : Mem) (i : ℕ) : Rec := readAt m (st.address i) st.qsz

def compare (m : Mem) (i j : ℕ) : Except Stop ℤ :=
  if i < st.n ∧ j < st.n then .ok (st.qcmp (st.record m i) (st.record m j)) else .error .outside

/-- `c = *i; *i++ = *j; *j++ = c`, for the byte `k` of the records. -/
def swapByte (p q : ℕ) (k : ℕ) (m : Mem) : Mem :=
  let c := m (p + k)
  let m := Function.update m (p + k) (m (q + k))
  Function.update m (q + k) c

def exchange (m : Mem) (i j : ℕ) : Except Stop Mem :=
  if i < st.n ∧ j < st.n then .ok (countUp (swapByte (st.address i) (st.address j)) 0 st.qsz m)
  else .error .outside

/-! ## qst -/

/-- The median of the first, the middle and the last record becomes the middle one. -/
def median (m : Mem) (base mid max : ℕ) : Except Stop Mem := do
  let c ← st.compare m base mid
  let j := if c > 0 then base else mid
  let tmp := max - 1
  let c ← st.compare m j tmp
  let j ←
    if c > 0 then
      -- Switch to the first loser.
      let j := if j = base then mid else base
      let c ← st.compare m j tmp
      pure (if c < 0 then tmp else j)
    else pure j
  if j ≠ mid then st.exchange m mid j else pure m

/-- `while (i < mid && qcmp(i, mid) <= 0) i += qsz`, with so many records below `mid`. -/
def scanUp (m : Mem) (mid : ℕ) : ℕ → ℕ → Except Stop ℕ
  | 0, i => .ok i
  | k + 1, i => do
    let c ← st.compare m i mid
    if c ≤ 0 then scanUp m mid k (i + 1) else .ok i

/-- `while (j > mid)` as far as the records are in order, with so many of them above `mid`. -/
def scanDown (m : Mem) (mid : ℕ) : ℕ → ℕ → Except Stop ℕ
  | 0, j => .ok j
  | k + 1, j => do
    let c ← st.compare m mid j
    if c ≤ 0 then scanDown m mid k (j - 1) else .ok j

/-- The partition: the memory and the place of the middle record. -/
def partition : ℕ → Mem → ℕ → ℕ → ℕ → Except Stop (Mem × ℕ)
  | 0, _, _, _, _ => .error .running
  | turns + 1, m, i, j, mid => do
    let i ← st.scanUp m mid (mid - i) i
    let j ← st.scanDown m mid (j - mid) j
    if j > mid then
      let m ← st.exchange m i j
      -- The middle record goes to `j`, or stays.
      if i = mid then partition turns m (i + 1) j j else partition turns m (i + 1) (j - 1) mid
    else if i = mid then .ok (m, mid)
    else
      let m ← st.exchange m i mid
      partition turns m i (j - 1) i

/-- `qst`; the larger part is sorted by another turn of its loop. -/
def qst : ℕ → Mem → ℕ → ℕ → Except Stop Mem
  | 0, _, _, _ => .error .running
  | turns + 1, m, base, max => do
    let lo := max - base
    let mid := base + lo / 2
    let m ← if lo * st.qsz ≥ st.mthresh then st.median m base mid max else pure m
    let (m, mid) ← st.partition (max - base) m base (max - 1) mid
    let i := mid + 1
    let lo := mid - base
    let hi := max - i
    if lo ≤ hi then
      let m ← if lo * st.qsz ≥ st.thresh then qst turns m base mid else pure m
      if hi * st.qsz ≥ st.thresh then qst turns m i max else pure m
    else
      let m ← if hi * st.qsz ≥ st.thresh then qst turns m i max else pure m
      if lo * st.qsz ≥ st.thresh then qst turns m base mid else pure m

/-! ## The insertion sort -/

/-- The search for the smallest record below `hi`, with so many records still to look at. -/
def findMin (m : Mem) : ℕ → ℕ → ℕ → Except Stop ℕ
  | 0, j, _ => .ok j
  | k + 1, j, lo => do
    let c ← st.compare m j lo
    findMin m k (if c > 0 then lo else j) (lo + 1)

/-- `while (compar(hi -= qsz, min) > 0)`: the record that is not larger. There is no bound. -/
def scanBack (m : Mem) (min : ℕ) : ℕ → Except Stop ℕ
  | 0 => .error .outside
  | hi + 1 => do
    let c ← st.compare m hi min
    if c > 0 then scanBack m min hi else .ok hi

/-- A byte `b` of the record `hi + k` moves down to the record `hi`, and those between go up. -/
def shiftByte (m : Mem) (hi b : ℕ) (c : UInt8) : ℕ → Mem
  | 0 => Function.update m (st.address hi + b) c
  | k + 1 => shiftByte (Function.update m (st.address (hi + (k + 1)) + b) (m (st.address (hi + k) + b))) hi b c k

/-- The bytes of a record, the last one first. -/
def shiftRecord (m : Mem) (hi k : ℕ) : Mem :=
  Lib.countDown (fun b m => st.shiftByte m hi b (m (st.address (hi + k) + b)) k) 0 st.qsz m

/-- The records from `min` on are inserted, so many of them. -/
def insertAll : ℕ → Mem → ℕ → Except Stop Mem
  | 0, m, _ => .ok m
  | k + 1, m, min => do
    let hi ← st.scanBack m min min
    let hi := hi + 1
    let m := if hi ≠ min then st.shiftRecord m hi (min - hi) else m
    insertAll k m (min + 1)

end QsortState

/-- `qsort` -/
def qsort (m : Mem) (base n size : ℕ) (compar : Rec → Rec → ℤ) : Except Stop Mem :=
  if n ≤ 1 ∨ size = 0 then .ok m
  else do
    let st : QsortState := ⟨compar, size, size * THRESH % 2 ^ 32, size * MTHRESH % 2 ^ 32, base, n⟩
    let m ← if n ≥ THRESH then st.qst n m 0 n else pure m
    let hi := if n ≥ THRESH then THRESH else n
    let j ← st.findMin m (hi - 1) 0 1
    let m ← if j ≠ 0 then st.exchange m j 0 else pure m
    st.insertAll (n - 1) m 1

end DiscoBSD.Qsort

/-!
# Whole records

What the loops over bytes do to records. **An exchange swaps two records and an insertion turns some round**, and no
byte outside them changes.
-/

namespace DiscoBSD.Qsort.QsortState

open Lib

variable {st : QsortState} {m m' : Mem} {i j k b : ℕ}

/-- Different records have no byte in common. -/
theorem address_lt (st : QsortState) {i j : ℕ} (h : i < j) : st.address i + st.qsz ≤ st.address j := by
  have hmul : (i + 1) * st.qsz ≤ j * st.qsz := Nat.mul_le_mul_right _ h
  rw [Nat.add_mul, Nat.one_mul] at hmul
  unfold address
  omega

theorem address_inj {b' : ℕ} (hb : b < st.qsz) (hb' : b' < st.qsz) (h : st.address i + b = st.address j + b') :
    i = j ∧ b = b' := by
  rcases Nat.lt_trichotomy i j with hlt | heq | hgt
  · have := address_lt st hlt
    omega
  · rw [heq] at h
    exact ⟨heq, by omega⟩
  · have := address_lt st hgt
    omega

theorem base_le_address (st : QsortState) (i : ℕ) : st.base ≤ st.address i := Nat.le_add_right ..

/-- Records with the same bytes. -/
theorem record_congr (h : ∀ b < st.qsz, m' (st.address i + b) = m (st.address j + b)) : st.record m' i = st.record m j :=
  List.map_congr_left fun b hb => h b (List.mem_range.mp hb)

/-- The records are those of another memory in the order `f`, and what lies before the array is as it was. -/
structure Reordered (st : QsortState) (m m' : Mem) (f : ℕ → ℕ) : Prop where
  records : st.record m' = st.record m ∘ f
  before : ∀ x < st.base, m' x = m x

/-- The bytes of two stretches change places. -/
theorem swapBytes_spec {p q n : ℕ} (hapart : p + n ≤ q ∨ q + n ≤ p) (x : ℕ) :
    countUp (swapByte p q) 0 n m x =
      if p ≤ x ∧ x < p + n then m (q + (x - p)) else if q ≤ x ∧ x < q + n then m (p + (x - q)) else m x := by
  have hturns : ∀ x, countUp (swapByte p q) 0 n m x =
      if p ≤ x ∧ x < p + n then m (q + (x - p)) else if q ≤ x ∧ x < q + n then m (p + (x - q)) else m x := by
    refine countUp_inv (P := fun k (y : Mem) => ∀ x, y x =
      if p ≤ x ∧ x < p + k then m (q + (x - p)) else if q ≤ x ∧ x < q + k then m (p + (x - q)) else m x) ?_ ?_
    · intro x
      rw [if_neg (by omega), if_neg (by omega)]
    · intro k hk y hy x
      have hp : y (p + k) = m (p + k) := by rw [hy, if_neg (by omega), if_neg (by omega)]
      have hq : y (q + k) = m (q + k) := by rw [hy, if_neg (by omega), if_neg (by omega)]
      rw [Nat.zero_add, swapByte, hp, hq]
      by_cases hxq : x = q + k
      · rw [hxq, Function.update_self, if_neg (by omega), if_pos (by omega), Nat.add_sub_cancel_left]
      · rw [Function.update_of_ne hxq]
        by_cases hxp : x = p + k
        · rw [hxp, Function.update_self, if_pos (by omega), Nat.add_sub_cancel_left]
        · rw [Function.update_of_ne hxp, hy]
          have hinp : (p ≤ x ∧ x < p + (k + 1)) ↔ p ≤ x ∧ x < p + k := by omega
          have hinq : (q ≤ x ∧ x < q + (k + 1)) ↔ q ≤ x ∧ x < q + k := by omega
          simp only [hinp, hinq]
  exact hturns x

theorem exchange_spec (hi : i < st.n) (hj : j < st.n) (hne : i ≠ j) :
    ∃ m', st.exchange m i j = .ok m' ∧ Reordered st m m' (Equiv.swap i j) := by
  have hapart : st.address i + st.qsz ≤ st.address j ∨ st.address j + st.qsz ≤ st.address i := by
    rcases Nat.lt_or_gt_of_ne hne with h | h
    · exact .inl (address_lt st h)
    · exact .inr (address_lt st h)
  refine ⟨_, if_pos ⟨hi, hj⟩, ?_, fun x hx => ?_⟩
  · funext r
    refine record_congr fun b hb => ?_
    rw [swapBytes_spec hapart]
    by_cases hri : r = i
    · rw [hri, Equiv.swap_apply_left, if_pos (by omega), Nat.add_sub_cancel_left]
    · by_cases hrj : r = j
      · rw [hrj, Equiv.swap_apply_right, if_neg (by omega), if_pos (by omega), Nat.add_sub_cancel_left]
      · have hi' : ¬(st.address i ≤ st.address r + b ∧ st.address r + b < st.address i + st.qsz) := fun h =>
          hri (address_inj hb (by omega : st.address r + b - st.address i < st.qsz) (by omega)).1
        have hj' : ¬(st.address j ≤ st.address r + b ∧ st.address r + b < st.address j + st.qsz) := fun h =>
          hrj (address_inj hb (by omega : st.address r + b - st.address j < st.qsz) (by omega)).1
        rw [if_neg hi', if_neg hj', Equiv.swap_apply_of_ne_of_ne hri hrj]
  · have hbi := base_le_address st i
    have hbj := base_le_address st j
    rw [swapBytes_spec hapart, if_neg (by omega), if_neg (by omega)]

theorem shiftByte_spec (hi : ℕ) (hb : b < st.qsz) (c : UInt8) (k : ℕ) (m : Mem) :
    (∀ r b', b' < st.qsz → st.shiftByte m hi b c k (st.address r + b') =
      if b' = b then (if r = hi then c else m (st.address (turned hi k r) + b)) else m (st.address r + b')) ∧
      ∀ x < st.base, st.shiftByte m hi b c k x = m x := by
  induction k generalizing m with
  | zero =>
    refine ⟨fun r b' hb' => ?_, fun x hx => ?_⟩
    · rw [shiftByte, turned_zero]
      by_cases heq : b' = b
      · rw [if_pos heq, heq]
        by_cases hr : r = hi
        · rw [if_pos hr, hr, Function.update_self]
        · rw [if_neg hr, Function.update_of_ne fun h => hr (address_inj hb hb h).1]
      · rw [if_neg heq, Function.update_of_ne fun h => heq (address_inj hb' hb h).2]
    · have hbase := base_le_address st hi
      rw [shiftByte, Function.update_of_ne (by omega)]
  | succ k ih =>
    obtain ⟨hbytes, hbefore⟩ := ih (Function.update m (st.address (hi + (k + 1)) + b) (m (st.address (hi + k) + b)))
    refine ⟨fun r b' hb' => ?_, fun x hx => ?_⟩
    · rw [shiftByte, hbytes r b' hb']
      by_cases heq : b' = b
      · rw [if_pos heq, if_pos heq]
        by_cases hr : r = hi
        · rw [if_pos hr, if_pos hr]
        · rw [if_neg hr, if_neg hr]
          by_cases hlast : r = hi + (k + 1)
          · have hthis : turned hi k r = hi + (k + 1) := by
              unfold turned
              rw [if_neg hr, if_neg (by omega), hlast]
            have hnext : turned hi (k + 1) r = hi + k := by
              unfold turned
              rw [if_neg hr, if_pos (by omega), hlast]
              rfl
            rw [hthis, hnext, Function.update_self]
          · have hsame : turned hi (k + 1) r = turned hi k r := by
              unfold turned
              rw [if_neg hr, if_neg hr]
              by_cases hin : hi < r ∧ r ≤ hi + k
              · rw [if_pos (by omega), if_pos hin]
              · rw [if_neg (by omega), if_neg hin]
            have hne : turned hi k r ≠ hi + (k + 1) := by
              unfold turned
              rw [if_neg hr]
              split <;> omega
            rw [hsame, Function.update_of_ne fun h => hne (address_inj hb hb h).1]
      · rw [if_neg heq, if_neg heq, Function.update_of_ne fun h => heq (address_inj hb' hb h).2]
    · have hbase := base_le_address st (hi + (k + 1))
      rw [shiftByte, hbefore x hx, Function.update_of_ne (by omega)]

/-- The record `hi + k` moves down to `hi`. -/
theorem shiftRecord_spec (m : Mem) (hi k : ℕ) : Reordered st m (st.shiftRecord m hi k) (turned hi k) := by
  have hall : (∀ r b, b < st.qsz → st.shiftRecord m hi k (st.address r + b) =
      if 0 ≤ b then m (st.address (turned hi k r) + b) else m (st.address r + b)) ∧
      ∀ x < st.base, st.shiftRecord m hi k x = m x := by
    -- The bytes from `l` on have been moved.
    refine countDown_inv (P := fun l (y : Mem) => (∀ r b, b < st.qsz → y (st.address r + b) =
      if l ≤ b then m (st.address (turned hi k r) + b) else m (st.address r + b)) ∧ ∀ x < st.base, y x = m x) ?_ ?_
    · exact ⟨fun r b hb => by rw [if_neg (by omega)], fun _ _ => rfl⟩
    · rintro l hl y ⟨hbytes, hbefore⟩
      rw [Nat.zero_add]
      obtain ⟨hturn, hturn'⟩ := shiftByte_spec hi hl (y (st.address (hi + k) + l)) k y
      refine ⟨fun r b hb => ?_, fun x hx => (hturn' x hx).trans (hbefore x hx)⟩
      rw [hturn r b hb]
      by_cases hbl : b = l
      · have hfrom : ∀ r', y (st.address r' + l) = m (st.address r' + l) := fun r' => by
          rw [hbytes r' l hl, if_neg (by omega)]
        rw [if_pos hbl, hbl]
        by_cases hr : r = hi
        · have hlast : turned hi k r = hi + k := by
            unfold turned
            rw [if_pos hr]
          rw [if_pos hr, if_pos (le_refl l), hlast, hfrom]
        · rw [if_neg hr, if_pos (le_refl l), hfrom]
      · rw [if_neg hbl, hbytes r b hb]
        by_cases hle : l + 1 ≤ b
        · rw [if_pos hle, if_pos (by omega)]
        · rw [if_neg hle, if_neg (by omega)]
  refine ⟨?_, hall.2⟩
  funext r
  refine record_congr fun b hb => ?_
  rw [hall.1 r b hb, if_pos (Nat.zero_le b)]

end DiscoBSD.Qsort.QsortState
