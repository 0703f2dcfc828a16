import DiscoBSD.Bn.Limbs
import Mathlib.Data.Int.Notation

/-!
# Big numbers

`BIGNUM`s, their storage and the calls of `lib/libbn/bn.c`. **A result may be an operand**, and whether the allocator
grants, and whether it moves what it extends, is up to it.
-/

set_option autoImplicit false

namespace DiscoBSD.Bn

open Lib (countUp)
open Function (update)

def intMax : ℕ := 2 ^ 31 - 1

def bnMaxlimbs : ℕ := intMax / limbBits - 2

def bnSlack : ℕ := 4

/-- The storage of nothing. -/
def NULL : ℕ := 0

structure Bignum where
  d : ℕ
  top : ℕ
  dmax : ℕ
  neg : Bool

/-- `struct bignum_ctx` -/
structure BnCtx where
  buf : ℕ
  cap : ℕ

/-- A number of the caller, or the one that `BN_exp` makes. -/
inductive Name where
  | user (k : ℕ)
  | tmp
  deriving DecidableEq

/-- What `malloc` or `realloc` does. -/
inductive Grant where
  | refused
  | inPlace
  | moved
  deriving DecidableEq

/-- The answers of the allocator, and what it leaves of storage that it has taken back. -/
structure Allocator where
  answer : ℕ → Grant
  junk : Mem

structure St where
  mem : Mem
  num : Name → Bignum
  ctx : ℕ → BnCtx
  /-- Storage from here on has not been handed out. -/
  fresh : ℕ
  /-- The allocations so far. -/
  asked : ℕ

/-- Where the limbs of a number begin. -/
def Bignum.limbs (a : Bignum) : Ptr := ⟨a.d, 0⟩

/-- The limbs of one piece of storage go to another, and the first piece is taken back. -/
def moveLimbs (junk m : Mem) (old new n : ℕ) : Mem := fun p =>
  if p.region = new then (if p.off < n then m ⟨old, p.off⟩ else m p)
  else if p.region = old then junk p
  else m p

variable (al : Allocator)

def malloc (s : St) : Option ℕ × St :=
  match al.answer s.asked with
  | .refused => (none, { s with asked := s.asked + 1 })
  | _ => (some s.fresh, { s with fresh := s.fresh + 1, asked := s.asked + 1 })

/-- `realloc` of storage that holds `n` limbs, to more. -/
def realloc (s : St) (old n : ℕ) : Option ℕ × St :=
  if old = NULL then malloc al s
  else
    match al.answer s.asked with
    | .refused => (none, { s with asked := s.asked + 1 })
    | .inPlace => (some old, { s with asked := s.asked + 1 })
    | .moved =>
      (some s.fresh,
        { s with
          mem := moveLimbs al.junk s.mem old s.fresh n
          fresh := s.fresh + 1
          asked := s.asked + 1 })

def settop (s : St) (r : Name) (n : ℕ) (neg : Bool) : St :=
  let top := trim s.mem (s.num r).limbs n
  { s with num := update s.num r { s.num r with top := top, neg := decide (top ≠ 0) && neg } }

/-- The number becomes zero. -/
def setzero (s : St) (r : Name) : St := { s with num := update s.num r { s.num r with top := 0, neg := false } }

def expand (s : St) (a : Name) (n : ℕ) : Bool × St :=
  if n ≤ (s.num a).dmax then (true, s)
  else if n > bnMaxlimbs then (false, s)
  else
    let m := if n + bnSlack > bnMaxlimbs then bnMaxlimbs else n + bnSlack
    match realloc al s (s.num a).d (s.num a).dmax with
    | (none, s) => (false, s)
    | (some p, s) => (true, { s with num := update s.num a { s.num a with d := p, dmax := m } })

def scratchGet (s : St) (ctx : Option ℕ) (n : ℕ) : Option ℕ × St :=
  match ctx with
  | none => malloc al s
  | some c =>
    if n > (s.ctx c).cap then
      match realloc al s (s.ctx c).buf (s.ctx c).cap with
      | (none, s) => (none, s)
      | (some p, s) => (some p, { s with ctx := update s.ctx c ⟨p, n⟩ })
    else (some (s.ctx c).buf, s)

/-- `memcpy` of limbs. -/
def copyLimbs (m : Mem) (dst src : Ptr) (n : ℕ) : Mem := countUp (fun i m => put m (dst + i) (m (src + i))) 0 n m

def bnCopy (s : St) (dst src : Name) : Bool × St :=
  if dst = src then (true, s)
  else
    match expand al s dst (s.num src).top with
    | (false, s) => (false, s)
    | (true, s) =>
      (true,
        { s with
          mem := copyLimbs s.mem (s.num dst).limbs (s.num src).limbs (s.num src).top
          num := update s.num dst { s.num dst with top := (s.num src).top, neg := (s.num src).neg } })

/-- `BN_new`, for the number that `BN_exp` makes. -/
def bnNew (s : St) : Bool × St :=
  match malloc al s with
  | (none, s) => (false, s)
  | (some _, s) => (true, { s with num := update s.num .tmp ⟨NULL, 0, 0, false⟩ })

def bnDup (s : St) (src : Name) : Bool × St :=
  match bnNew al s with
  | (false, s) => (false, s)
  | (true, s) => bnCopy al s .tmp src

def bnSetWord (s : St) (a : Name) (w : ℕ) : Bool × St :=
  match expand al s a 2 with
  | (false, s) => (false, s)
  | (true, s) =>
    let d := (s.num a).limbs
    let s := { s with mem := put (put s.mem (d + 0) (w &&& limbMask)) (d + 1) (w >>> limbBits) }
    (true, settop s a 2 false)

def bnOne (s : St) (a : Name) : Bool × St := bnSetWord al s a 1

/-! ## Comparison and bits -/

def bnUcmp (s : St) (a b : Name) : ℤ := mcmp s.mem (s.num a).limbs (s.num a).top (s.num b).limbs (s.num b).top

def bnCmp (s : St) (a b : Name) : ℤ :=
  if (s.num a).neg ≠ (s.num b).neg then (if (s.num a).neg then -1 else 1)
  else
    let c := mcmp s.mem (s.num a).limbs (s.num a).top (s.num b).limbs (s.num b).top
    if (s.num a).neg then -c else c

def bnNumBits (s : St) (a : Name) : ℕ :=
  let x := s.num a
  if x.top = 0 then 0 else (x.top - 1) * limbBits + bitlen (s.mem (x.limbs + (x.top - 1)))

def bnIsBitSet (s : St) (a : Name) (n : ℕ) : Bool :=
  let w := n / limbBits
  if w ≥ (s.num a).top then false
  else (((s.mem ((s.num a).limbs + w) : ℕ) >>> (n % limbBits)) &&& 1) ≠ 0

def bnMaskBits (s : St) (a : Name) (n : ℤ) : Bool × St :=
  if n < 0 ∨ bnNumBits s a < n then (false, s)
  else
    let w := n.toNat / limbBits
    let b := n.toNat % limbBits
    let d := (s.num a).limbs
    if b ≠ 0 then
      let s' := { s with mem := put s.mem (d + w) ((s.mem (d + w) : ℕ) &&& (1 <<< b - 1)) }
      (true, settop s' a (w + 1) (s.num a).neg)
    else (true, settop s a w (s.num a).neg)

def bnRshift (s : St) (r a : Name) (n : ℤ) : Bool × St :=
  let neg := (s.num a).neg
  if n < 0 then (false, s)
  else
    let ls := n.toNat / limbBits
    let bs := n.toNat % limbBits
    if ls ≥ (s.num a).top then (true, setzero s r)
    else
      let nt := (s.num a).top - ls
      match expand al s r nt with
      | (false, s) => (false, s)
      | (true, s) =>
        let turn := rshiftTurn (s.num r).limbs (s.num a).limbs (s.num a).top ls bs
        (true, settop { s with mem := countUp turn 0 nt s.mem } r nt neg)

/-! ## Addition and subtraction -/

def addsub (s : St) (r : Name) (ad : Ptr) (an : ℕ) (aneg : Bool) (bd : Ptr) (bn : ℕ) (bneg : Bool) : St :=
  let rd := (s.num r).limbs
  if aneg = bneg then
    let (m, n) := if an ≥ bn then madd s.mem rd ad an bd bn else madd s.mem rd bd bn ad an
    settop { s with mem := m } r n aneg
  else
    let c := mcmp s.mem ad an bd bn
    if c = 0 then setzero s r
    else if c > 0 then
      let (m, n) := msub s.mem rd ad an bd bn
      settop { s with mem := m } r n aneg
    else
      let (m, n) := msub s.mem rd bd bn ad an
      settop { s with mem := m } r n bneg

def bnAdd (s : St) (r a b : Name) : Bool × St :=
  let n := if (s.num a).top > (s.num b).top then (s.num a).top else (s.num b).top
  match expand al s r (n + 1) with
  | (false, s) => (false, s)
  | (true, s) =>
    let x := s.num a
    let y := s.num b
    (true, addsub s r x.limbs x.top x.neg y.limbs y.top y.neg)

def bnSub (s : St) (r a b : Name) : Bool × St :=
  let n := if (s.num a).top > (s.num b).top then (s.num a).top else (s.num b).top
  match expand al s r (n + 1) with
  | (false, s) => (false, s)
  | (true, s) =>
    let x := s.num a
    let y := s.num b
    (true, addsub s r x.limbs x.top x.neg y.limbs y.top (!y.neg))

/-! ## Multiplication -/

/-- The product of operands of which the first has no fewer limbs. -/
def mulSorted (s : St) (r : Name) (ad : Ptr) (an : ℕ) (bd : Ptr) (bn : ℕ) (neg : Bool) (ctx : Option ℕ) : Bool × St :=
  let n := an + bn
  if n > bnMaxlimbs then (false, s)
  else if (s.num r).d ≠ NULL ∧ ((s.num r).limbs = ad ∨ (s.num r).limbs = bd) then
    match scratchGet al s ctx n with
    | (none, s) => (false, s)
    | (some p, s) =>
      let s := { s with mem := mmul s.mem ⟨p, 0⟩ ad an bd bn }
      match expand al s r n with
      | (false, s) => (false, s)
      | (true, s) =>
        let s := { s with mem := copyLimbs s.mem (s.num r).limbs ⟨p, 0⟩ n }
        (true, settop s r n neg)
  else
    match expand al s r n with
    | (false, s) => (false, s)
    | (true, s) => (true, settop { s with mem := mmul s.mem (s.num r).limbs ad an bd bn } r n neg)

def mulraw (s : St) (r : Name) (ad : Ptr) (an : ℕ) (aneg : Bool) (bd : Ptr) (bn : ℕ) (bneg : Bool) (ctx : Option ℕ) :
    Bool × St :=
  let neg := aneg != bneg
  if an = 0 ∨ bn = 0 then (true, setzero s r)
  else if an < bn then mulSorted al s r bd bn ad an neg ctx
  else mulSorted al s r ad an bd bn neg ctx

def bnMul (s : St) (r a b : Name) (ctx : Option ℕ) : Bool × St :=
  let x := s.num a
  let y := s.num b
  mulraw al s r x.limbs x.top x.neg y.limbs y.top y.neg ctx

/-! ## Division -/

/-- The destination, unless it is `NULL`, gets room. -/
def expandTo (s : St) (r : Option Name) (n : ℕ) : Bool × St :=
  match r with
  | none => (true, s)
  | some r => expand al s r n

/-- The destination, unless it is `NULL`, gets the limbs that are there. -/
def store (s : St) (r : Option Name) (src : Ptr) (n : ℕ) (neg : Bool) : St :=
  match r with
  | none => s
  | some r => settop { s with mem := copyLimbs s.mem (s.num r).limbs src n } r n neg

def divide (s : St) (dv rem : Option Name) (a : Name) (dd : Ptr) (dn : ℕ) (dneg : Bool) (ctx : Option ℕ) : Bool × St :=
  let an := (s.num a).top
  let aneg := (s.num a).neg
  let qneg := aneg != dneg
  if dn = 0 ∨ (dv ≠ none ∧ dv = rem) then (false, s)
  else if mcmp s.mem (s.num a).limbs an dd dn < 0 then
    let copied := match rem with
      | none => (true, s)
      | some rem => bnCopy al s rem a
    match copied with
    | (false, s) => (false, s)
    | (true, s) =>
      match dv with
      | none => (true, s)
      | some dv => (true, setzero s dv)
  else
    let qn := an - dn + 1
    let rn := dn
    match scratchGet al s ctx (an + 1 + dn + qn + rn) with
    | (none, s) => (false, s)
    | (some p, s) =>
      let u : Ptr := ⟨p, 0⟩
      let v : Ptr := u + (an + 1)
      let q : Ptr := v + dn
      let r : Ptr := q + qn
      let ad := (s.num a).limbs
      let m :=
        if dn = 1 then
          let x := mdiv1 s.mem q ad an (s.mem (dd + 0))
          put x.1 (r + 0) x.2
        else mdivrem s.mem q r u v ad an dd dn
      match expandTo al { s with mem := m } dv qn with
      | (false, s) => (false, s)
      | (true, s) =>
        match expandTo al s rem rn with
        | (false, s) => (false, s)
        | (true, s) => (true, store (store s dv q qn qneg) rem r rn aneg)

def bnDiv (s : St) (dv rem : Option Name) (a d : Name) (ctx : Option ℕ) : Bool × St :=
  let y := s.num d
  divide al s dv rem a y.limbs y.top y.neg ctx

/-! ## Exponentiation -/

/-- The loop of `BN_exp`, with the bits below `n` left. -/
def expLoop (a p : Name) (ctx : Option ℕ) : ℕ → St → Bool × St
  | 0, s => (true, s)
  | n + 1, s =>
    match bnMul al s .tmp .tmp .tmp ctx with
    | (false, s) => (false, s)
    | (true, s) =>
      if bnIsBitSet s p n then
        match bnMul al s .tmp .tmp a ctx with
        | (false, s) => (false, s)
        | (true, s) => expLoop a p ctx n s
      else expLoop a p ctx n s

/-- The storage of the one goes to the other. -/
def swap (s : St) (r t : Name) : St := { s with num := update (update s.num r (s.num t)) t (s.num r) }

def bnExp (s : St) (r a p : Name) (ctx : Option ℕ) : Bool × St :=
  if (s.num p).neg then (false, s)
  else if (s.num p).top = 0 then bnOne al s r
  else
    match bnDup al s a with
    | (false, s) => (false, s)
    | (true, s) =>
      match expLoop al a p ctx (bnNumBits s p - 1) s with
      | (false, s) => (false, s)
      | (true, s) => (true, swap s r .tmp)

end DiscoBSD.Bn
