import DiscoBSD.Lib.Loops
import DiscoBSD.Lib.Radix
import Mathlib.Logic.Function.Basic

/-!
# Limb arithmetic

The loops of `lib/libbn/bn.c` over arrays of 16-bit limbs. **They read and write one memory**, so that a result may lie
where an operand does. All arithmetic is in `uint32_t`.
-/

set_option autoImplicit false

namespace DiscoBSD.Bn

open Lib (countUp countDown)

/-- The place of a limb: the piece of storage, and the limbs before it there. -/
structure Ptr where
  region : ℕ
  off : ℕ
  deriving DecidableEq

instance : HAdd Ptr ℕ Ptr := ⟨fun p i => ⟨p.region, p.off + i⟩⟩

instance (priority := 1100) limb_ne_zero : NeZero (65536 : ℕ) := ⟨by decide⟩

/-- `limb_t`. -/
abbrev Limb := Fin 65536

def limbBits : ℕ := 16

def limbMask : ℕ := 0xFFFF

def limb (t : ℕ) : Limb := Fin.ofNat 65536 t

/-- `uint32_t` -/
def u32 (t : ℕ) : ℕ := t % 2 ^ 32

def sub32 (x y : ℕ) : ℕ := u32 (x + 2 ^ 32 - y)

abbrev Mem := Ptr → Limb

def put (m : Mem) (p : Ptr) (t : ℕ) : Mem := Function.update m p (limb t)

def trim (m : Mem) (d : Ptr) : ℕ → ℕ
  | 0 => 0
  | n + 1 => if m (d + n) = 0 then trim m d n else n + 1

/-- The loop of `mcmp`, with `n` limbs left. -/
def mcmpLimbs (m : Mem) (a b : Ptr) : ℕ → ℤ
  | 0 => 0
  | n + 1 => if m (a + n) ≠ m (b + n) then (if m (a + n) > m (b + n) then 1 else -1) else mcmpLimbs m a b n

/-- Compare normalized magnitudes. -/
def mcmp (m : Mem) (a : Ptr) (na : ℕ) (b : Ptr) (nb : ℕ) : ℤ :=
  if na ≠ nb then (if na > nb then 1 else -1) else mcmpLimbs m a b na

def bitlen (x : ℕ) : ℕ := if x = 0 then 0 else bitlen (x >>> 1) + 1
termination_by x
decreasing_by simp [Nat.shiftRight_eq_div_pow]; omega

/-! ## Addition and subtraction -/

def maddTurn (r a b : Ptr) (i : ℕ) : Mem × ℕ → Mem × ℕ
  | (m, c) =>
    let t := u32 (m (a + i) + m (b + i) + c)
    (put m (r + i) t, t >>> limbBits)

def maddCarry (r a : Ptr) (i : ℕ) : Mem × ℕ → Mem × ℕ
  | (m, c) =>
    let t := u32 (m (a + i) + c)
    (put m (r + i) t, t >>> limbBits)

/-- `r = a + b` for `na >= nb`; the result is the number of limbs. -/
def madd (m : Mem) (r a : Ptr) (na : ℕ) (b : Ptr) (nb : ℕ) : Mem × ℕ :=
  let x := countUp (maddTurn r a b) 0 nb (m, 0)
  let y := countUp (maddCarry r a) nb (na - nb) x
  (put y.1 (r + na) y.2, na + 1)

def msubTurn (r a b : Ptr) (i : ℕ) : Mem × ℕ → Mem × ℕ
  | (m, borrow) =>
    let t := sub32 (sub32 (m (a + i)) (m (b + i))) borrow
    (put m (r + i) t, t >>> 31)

def msubBorrow (r a : Ptr) (i : ℕ) : Mem × ℕ → Mem × ℕ
  | (m, borrow) =>
    let t := sub32 (m (a + i)) borrow
    (put m (r + i) t, t >>> 31)

/-- `r = a - b` for `a >= b`. -/
def msub (m : Mem) (r a : Ptr) (na : ℕ) (b : Ptr) (nb : ℕ) : Mem × ℕ :=
  let x := countUp (msubTurn r a b) 0 nb (m, 0)
  let y := countUp (msubBorrow r a) nb (na - nb) x
  (y.1, na)

/-! ## Multiplication -/

def mmulTurn (r a : Ptr) (bi i : ℕ) (j : ℕ) : Mem × ℕ → Mem × ℕ
  | (m, carry) =>
    let t := u32 (u32 (m (a + j) * bi) + m (r + (i + j)) + carry)
    (put m (r + (i + j)) t, t >>> limbBits)

def mmulRow (r a : Ptr) (na : ℕ) (b : Ptr) (i : ℕ) (m : Mem) : Mem :=
  let bi : ℕ := m (b + i)
  if bi = 0 then m
  else
    let x := countUp (mmulTurn r a bi i) 0 na (m, 0)
    put x.1 (r + (i + na)) x.2

/-- `memset` of limbs to zero. -/
def clear (m : Mem) (r : Ptr) (n : ℕ) : Mem := countUp (fun i m => put m (r + i) 0) 0 n m

/-- `r = a * b`, where `r` lies in neither of them. -/
def mmul (m : Mem) (r a : Ptr) (na : ℕ) (b : Ptr) (nb : ℕ) : Mem :=
  countUp (mmulRow r a na b) 0 nb (clear m r (na + nb))

/-! ## Division -/

def mdiv1Turn (q a : Ptr) (w : ℕ) (i : ℕ) : Mem × ℕ → Mem × ℕ
  | (m, rem) =>
    let cur := u32 (rem <<< limbBits) ||| m (a + i)
    (put m (q + i) (cur / w), cur % w)

/-- `q = a / w` and the remainder. -/
def mdiv1 (m : Mem) (q a : Ptr) (na w : ℕ) : Mem × ℕ := countDown (mdiv1Turn q a w) 0 na (m, 0)

/-- A limb shifted up, with the bits of the limb below. -/
def shlTurn (dst src : Ptr) (s : ℕ) (i : ℕ) (m : Mem) : Mem :=
  put m (dst + i) ((u32 ((m (src + i) : ℕ) <<< s) ||| (m (src + (i - 1)) : ℕ) >>> (limbBits - s)) &&& limbMask)

/-- All but the lowest limb, from the top, and then the lowest one. -/
def shlLimbs (m : Mem) (dst src : Ptr) (s n : ℕ) : Mem :=
  let m := countDown (shlTurn dst src s) 1 (n - 1) m
  put m (dst + 0) (u32 ((m (src + 0) : ℕ) <<< s) &&& limbMask)

/-- The `while` that brings the quotient limb down, by the second limb `v2` of the divisor. -/
def tighten (v1 v2 u2 : ℕ) : ℕ → ℕ → ℕ
  | 0, _ => 0
  | qh + 1, rh =>
    if qh + 1 > limbMask ∨ u32 ((qh + 1) * v2) > (u32 (rh <<< limbBits) ||| u2) then
      let rh := rh + v1
      if rh > limbMask then qh else tighten v1 v2 u2 qh rh
    else qh + 1

def mulSubTurn (u v : Ptr) (qh j : ℕ) (i : ℕ) : Mem × ℕ × ℕ → Mem × ℕ × ℕ
  | (m, mulc, brw) =>
    let num := u32 (u32 (qh * m (v + i)) + mulc)
    let sub := (num &&& limbMask) + brw
    let ui : ℕ := m (u + (i + j))
    (put m (u + (i + j)) (sub32 ui sub), num >>> limbBits, if ui < sub then 1 else 0)

def addBackTurn (u v : Ptr) (j : ℕ) (i : ℕ) : Mem × ℕ → Mem × ℕ
  | (m, c) =>
    let t := u32 (m (u + (i + j)) + m (v + i) + c)
    (put m (u + (i + j)) t, t >>> limbBits)

/-- The estimate of a quotient limb. -/
def quotientLimb (u v : Ptr) (nd j : ℕ) (m : Mem) : ℕ :=
  let num := u32 ((m (u + (j + nd)) : ℕ) <<< limbBits) ||| m (u + (j + nd - 1))
  let v1 : ℕ := m (v + (nd - 1))
  tighten v1 (m (v + (nd - 2))) (m (u + (j + nd - 2))) (num / v1) (num % v1)

/-- `u[j..j+nd] -= qh * v`, and whether something is borrowed at the top. -/
def mulSub (u v : Ptr) (nd qh j : ℕ) (m : Mem) : Mem × Bool :=
  let x := countUp (mulSubTurn u v qh j) 0 nd (m, 0, 0)
  let sub := x.2.1 + x.2.2
  let ui : ℕ := x.1 (u + (j + nd))
  (put x.1 (u + (j + nd)) (sub32 ui sub), ui < sub)

/-- `u[j..j+nd] += v`. -/
def addBack (u v : Ptr) (nd j : ℕ) (m : Mem) : Mem :=
  let y := countUp (addBackTurn u v j) 0 nd (m, 0)
  put y.1 (u + (j + nd)) (y.1 (u + (j + nd)) + y.2)

/-- One limb of the quotient. -/
def divTurn (q u v : Ptr) (nd : ℕ) (j : ℕ) (m : Mem) : Mem :=
  let qh := quotientLimb u v nd j m
  match mulSub u v nd qh j m with
  -- The estimate was one too large.
  | (m, true) => put (addBack u v nd j m) (q + j) (sub32 qh 1)
  | (m, false) => put m (q + j) qh

def shrTurn (rem u : Ptr) (s : ℕ) (i : ℕ) (m : Mem) : Mem :=
  put m (rem + i) (((m (u + i) : ℕ) >>> s ||| u32 ((m (u + (i + 1)) : ℕ) <<< (limbBits - s))) &&& limbMask)

/-- Algorithm D. -/
def mdivrem (m : Mem) (q rem u v a : Ptr) (na : ℕ) (d : Ptr) (nd : ℕ) : Mem :=
  let s := limbBits - bitlen (m (d + (nd - 1)))
  let m := shlLimbs m v d s nd
  let m := put m (u + na) ((m (a + (na - 1)) : ℕ) >>> (limbBits - s))
  let m := shlLimbs m u a s na
  let m := countDown (divTurn q u v nd) 0 (na - nd + 1) m
  countUp (shrTurn rem u s) 0 nd m

/-! ## Bits -/

def rshiftTurn (r a : Ptr) (top ls bs : ℕ) (i : ℕ) (m : Mem) : Mem :=
  let lo : ℕ := m (a + (i + ls))
  let hi : ℕ := if i + ls + 1 < top then m (a + (i + ls + 1)) else 0
  put m (r + i) ((u32 (hi <<< limbBits) ||| lo) >>> bs)

end DiscoBSD.Bn
