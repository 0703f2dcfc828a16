import Mathlib
import DiscoBSD.Lib.Except

/-!
# The clock

`hardclock`, `softclock`, `timeout`, `untimeout` and `coutinit` of `sys/kern/kern_clock.c`, as far as they
keep the time of day and the callout queue. **The queue is a list of entries with their addresses** in
`callout[NCALL]`; the free entries are a list of addresses.

The times are of type `int`, and a signed overflow has no meaning in C: it is a fault here, next to the
panic. `softclock` lets interrupts in after every entry it has taken from the queue, so one turn of its
loop is a step of its own.
-/

set_option autoImplicit false

namespace DiscoBSD.Clock

/-- How a call ends when it does not return. -/
inductive Fault where
  | panic (msg : String)
  | overflow
  deriving DecidableEq, Repr

/-- The values of `int`, and of `long`. -/
def IsInt (x : Int) : Prop := -2 ^ 31 ≤ x ∧ x < 2 ^ 31

instance (x : Int) : Decidable (IsInt x) := inferInstanceAs (Decidable (_ ∧ _))

/-- The result of a signed operation. -/
def cint (x : Int) : Except Fault Int := if IsInt x then .ok x else .error .overflow

/-- `struct callout` at an address. -/
structure Callout where
  addr : Nat
  c_time : Int
  c_arg : Nat
  c_func : Nat
  deriving DecidableEq, Repr

/-- The callout queue, the free entries, and the time of day: `lbolt` ticks after `tv_sec`. -/
structure Clock where
  calltodo : List Callout
  callfree : List Nat
  lbolt : Int
  tv_sec : Int
  adjdelta : Int
  deriving DecidableEq, Repr

/-- `coutinit`. -/
def coutinit (ncall : Nat) (lbolt tv_sec adjdelta : Int) : Clock :=
  ⟨[], List.range ncall, lbolt, tv_sec, adjdelta⟩

/-! ## hardclock -/

/-- The loop over the queue, with `needsoft`. -/
def hardclockTodo : List Callout → Except Fault (Bool × List Callout)
  | [] => .ok (false, [])
  | p1 :: rest => do
    let t ← cint (p1.c_time - 1)
    let p1 := { p1 with c_time := t }
    if 0 < t then .ok (false, p1 :: rest)
    else if t = 0 then .ok (true, p1 :: rest)
    else do
      let (_, rest) ← hardclockTodo rest
      .ok (true, p1 :: rest)

/-- The time of day goes on by a tick: `lbolt`, `tv_sec` and `adjdelta`. -/
def hardclockTime (hz lbolt tv_sec adjdelta : Int) : Except Fault (Int × Int × Int) := do
  let (lbolt, adjdelta) ← (
    if 0 < adjdelta then (cint (lbolt + 1)).map (·, adjdelta - 1)
    else if adjdelta < 0 then (cint (lbolt - 1)).map (·, adjdelta + 1)
    else .ok (lbolt, adjdelta))
  let lbolt ← cint (lbolt + 1)
  if hz ≤ lbolt then do
    let lbolt ← cint (lbolt - hz)
    let tv_sec ← cint (tv_sec + 1)
    .ok (lbolt, tv_sec, adjdelta)
  else .ok (lbolt, tv_sec, adjdelta)

/-- `hardclock`, and whether its queue wants `softclock` to run. -/
def hardclock (hz : Int) (c : Clock) : Except Fault (Bool × Clock) := do
  let (needsoft, calltodo) ← hardclockTodo c.calltodo
  let (lbolt, tv_sec, adjdelta) ← hardclockTime hz c.lbolt c.tv_sec c.adjdelta
  .ok (needsoft, { c with calltodo, lbolt, tv_sec, adjdelta })

/-! ## softclock -/

/-- The test of `softclock`: the first entry is there and due. -/
def due : List Callout → Bool
  | [] => false
  | p1 :: _ => p1.c_time ≤ 0

/-- One turn of the loop of `softclock`: the entry whose function it calls. -/
def softclock (c : Clock) : Option (Callout × Clock) :=
  match c.calltodo with
  | [] => none
  | p1 :: rest =>
    if 0 < p1.c_time then none
    else some (p1, { c with calltodo := rest, callfree := p1.addr :: c.callfree })

/-! ## timeout and untimeout -/

/-- The loop of `timeout`, and the new entry with the time that is left at its place. -/
def timeoutTodo (pnew : Callout) : Int → List Callout → Except Fault (List Callout)
  | t, [] => .ok [{ pnew with c_time := t }]
  | t, p2 :: rest =>
    if p2.c_time < t then do
      let t ← (if 0 < p2.c_time then cint (t - p2.c_time) else .ok t)
      (timeoutTodo pnew t rest).map (p2 :: ·)
    else do
      let left ← cint (p2.c_time - t)
      .ok ({ pnew with c_time := t } :: { p2 with c_time := left } :: rest)

/-- `timeout`. -/
def timeout (c : Clock) (fun_ arg : Nat) (t : Int) : Except Fault Clock :=
  let t := if t ≤ 0 then 1 else t
  match c.callfree with
  | [] => .error (.panic "timeout table overflow")
  | addr :: callfree =>
    (timeoutTodo ⟨addr, t, arg, fun_⟩ t c.calltodo).map fun calltodo => { c with calltodo, callfree }

/-- The loop of `untimeout`: the entry it finds, and the queue without it. -/
def untimeoutTodo (fun_ arg : Nat) : List Callout → Except Fault (Option Callout × List Callout)
  | [] => .ok (none, [])
  | p2 :: rest =>
    if p2.c_func = fun_ ∧ p2.c_arg = arg then
      match rest with
      | [] => .ok (some p2, [])
      | next :: rest =>
        if 0 < p2.c_time then do
          let t ← cint (next.c_time + p2.c_time)
          .ok (some p2, { next with c_time := t } :: rest)
        else .ok (some p2, next :: rest)
    else (untimeoutTodo fun_ arg rest).map fun r => (r.1, p2 :: r.2)

/-- `untimeout`. -/
def untimeout (c : Clock) (fun_ arg : Nat) : Except Fault Clock :=
  (untimeoutTodo fun_ arg c.calltodo).map fun
    | (none, calltodo) => { c with calltodo }
    | (some p2, calltodo) => { c with calltodo, callfree := p2.addr :: c.callfree }

theorem cint_of {x : Int} (h : IsInt x) : cint x = .ok x := if_pos h

theorem cint_of_not {x : Int} (h : ¬IsInt x) : cint x = .error .overflow := if_neg h

/-! ## One tick of the queue -/

section

variable {p1 : Callout} (rest : List Callout)

theorem hardclockTodo_far (h : IsInt (p1.c_time - 1)) (hfar : 1 < p1.c_time) :
    hardclockTodo (p1 :: rest) = .ok (false, { p1 with c_time := p1.c_time - 1 } :: rest) := by
  have hpos : 0 < p1.c_time - 1 := by omega
  simp only [hardclockTodo, cint_of h, bind, Except.bind, if_pos hpos]

theorem hardclockTodo_now (hnow : p1.c_time = 1) :
    hardclockTodo (p1 :: rest) = .ok (true, { p1 with c_time := 0 } :: rest) := by
  have hzero : p1.c_time - 1 = 0 := by omega
  have h : cint (p1.c_time - 1) = .ok 0 := by
    rw [hzero]
    rfl
  simp only [hardclockTodo, h, bind, Except.bind, Int.lt_irrefl, if_true, if_false]

/-- The tick goes past an entry that is due. -/
theorem hardclockTodo_late (h : IsInt (p1.c_time - 1)) (hlate : p1.c_time ≤ 0) :
    hardclockTodo (p1 :: rest) =
      (hardclockTodo rest).map fun r => (true, { p1 with c_time := p1.c_time - 1 } :: r.2) := by
  have hpos : ¬0 < p1.c_time - 1 := by omega
  have hzero : p1.c_time - 1 ≠ 0 := by omega
  simp only [hardclockTodo, cint_of h, bind, Except.bind, if_neg hpos, if_neg hzero]
  cases hardclockTodo rest <;> rfl

theorem hardclockTodo_overflow (h : ¬IsInt (p1.c_time - 1)) :
    hardclockTodo (p1 :: rest) = .error .overflow := by
  simp only [hardclockTodo, cint_of_not h, bind, Except.bind]

end

end DiscoBSD.Clock
