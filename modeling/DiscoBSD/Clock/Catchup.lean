import Mathlib.Logic.Function.Iterate
import DiscoBSD.Lib.Word
import DiscoBSD.Clock.Callout

/-!
# Catching up with the clock

`sys/arch/rp2040/rp2040/clock_catchup.h`. SysTick holds one pending tick while interrupts are masked and
drops the others; `clock_catchup_owed` counts them by the free-running timer, and `clock_catchup_apply`
applies them to the time of day and the callout queue in one go.

**A batch is as many ticks.** An entry loses the ticks that are left when the positive times ahead of it
have run out, which is also when the single ticks first come to it. Both sides are compared with their
faults: the batch overflows exactly when the last tick does. The count is added to `lbolt` as an `int`,
so it must be one; `clock_catchup_owed` counts periods of a 32-bit timer and stays far below.
-/

set_option autoImplicit false

namespace DiscoBSD.Clock

open DiscoBSD.Lib

/-- `struct clock_catchup`. -/
structure Catchup where
  stamp_us : Nat
  armed : Bool
  deriving DecidableEq, Repr

/-- `clock_catchup_tick`. -/
def clock_catchup_tick (c : Catchup) (now_us : Nat) : Catchup := { c with stamp_us := now_us }

/-- The difference of two readings of the timer. -/
def since (now_us stamp_us : Nat) : Nat := wrap 32 (now_us + (2 ^ 32 - stamp_us))

/-- `clock_catchup_owed`. -/
def clock_catchup_owed (c : Catchup) (now_us : Nat) (hw_pending : Bool) (tick_us : Nat) : Nat × Catchup :=
  if c.armed = false then (0, c)
  else
    let due := since now_us c.stamp_us / tick_us
    let held := if hw_pending then 1 else 0
    let owed := if held < due then due - held else 0
    (owed, { c with stamp_us := wrap 32 (c.stamp_us + wrap 32 (owed * tick_us)) })

/-- An unsigned number as an `int`. -/
def asInt (n : Nat) : Int := if n < 2 ^ 31 then n else n - 2 ^ 32

/-- The loop of `clock_catchup_apply`. -/
def catchupTodo (owed : Nat) : Nat → List Callout → Except Fault (List Callout)
  | _, [] => .ok []
  | ahead, p :: rest =>
    if ahead < owed then do
      let t ← cint (p.c_time - asInt (owed - ahead))
      let ahead := if 0 < p.c_time then wrap 32 (ahead + p.c_time.toNat) else ahead
      let rest ← catchupTodo owed ahead rest
      .ok ({ p with c_time := t } :: rest)
    else .ok (p :: rest)

/-- `clock_catchup_apply` on `lbolt` and `tv_sec`. -/
def catchupTime (owed : Nat) (hz lbolt tv_sec : Int) : Except Fault (Int × Int) := do
  let lbolt ← cint (lbolt + asInt owed)
  if hz ≤ lbolt then do
    let tv_sec ← cint (tv_sec + lbolt.tdiv hz)
    .ok (lbolt.tmod hz, tv_sec)
  else .ok (lbolt, tv_sec)

/-- `clock_catchup_apply`. -/
def clock_catchup_apply (owed : Nat) (hz : Int) (c : Clock) : Except Fault Clock := do
  let (lbolt, tv_sec) ← catchupTime owed hz c.lbolt c.tv_sec
  let calltodo ← catchupTodo owed 0 c.calltodo
  .ok { c with calltodo, lbolt, tv_sec }

/-- `HZ`. -/
def hz : Nat := 1000

/-- `CLOCK_TICK_US`. -/
def clock_tick_us : Nat := 1000000 / hz

/-- `clock_catchup` of `clock.c`, with what it reads of the timer and of SysTick. -/
def clock_catchup (cc : Catchup) (now_us : Nat) (hw_pending : Bool) (c : Clock) :
    Except Fault (Catchup × Clock) := do
  let (owed, cc) := clock_catchup_owed cc now_us hw_pending clock_tick_us
  if owed ≠ 0 then do
    let c ← clock_catchup_apply owed hz c
    .ok (cc, c)
  else .ok (cc, c)

/-! ## Single ticks -/

/-- The values of a queue are of their types. -/
def Typed (l : List Callout) : Prop := ∀ p ∈ l, IsInt p.c_time

end DiscoBSD.Clock
