import Mathlib.Data.Nat.Notation
import DiscoBSD.Lib.Threads

/-!
# Sleep queues and the run queue

`sys/kern/kern_synch.c`, with `psignal`, `stop` and `issignal` of `kern_sig.c` and the parts of `sched`, `swapout`
and `swapin` that put processes on the run queue and take them off. A process has one link, `p_link`, for the
sleep queue of its channel and for the run queue.

A process runs until it gives the processor up, and an interrupt may come wherever the code is not masked. The
code between two such places is one step, and where it stops in between is `Pc`. Priorities and times are left
out: `swtch` takes any loaded process of the run queue, `sched` evicts any process it is allowed to, and
`endtsleep` may come at any time.
-/

set_option autoImplicit false

namespace DiscoBSD.Sched

open DiscoBSD.Lib
open Function (update)

def sqsize : ℕ := 16

/-- `HASH`. -/
def hash (x : ℕ) : ℕ := x / 32 % sqsize

/-- The size of the process table, and the addresses that are wait channels: those of `runout`, `runin` and
    `selwait`, and of the entries of the table. -/
structure Cfg where
  nproc : ℕ
  runout : ℕ
  runin : ℕ
  selwait : ℕ
  proc : ℕ → ℕ
  swapper : 0 < nproc
  runout_ne : runout ≠ 0
  selwait_ne : selwait ≠ 0

/-- `slpque[h]` and `qs`. -/
inductive Qid where
  | slp (h : ℕ)
  | run
  deriving DecidableEq, Repr

inductive Stat where
  | none
  | ssleep
  | swait
  | srun
  | sidl
  | szomb
  | sstop
  deriving DecidableEq, Repr

/-! ## Signals -/

def sigkill : ℕ := 9
def sigcont : ℕ := 19
def sigchld : ℕ := 20

/-- `SA_STOP`, `SA_TTYSTOP`, `SA_CONT` and `SA_IGNORE`. -/
structure Sigprop where
  stop : Bool
  ttystop : Bool
  cont : Bool
  ignore : Bool

def sigprop (sig : ℕ) : Sigprop where
  stop := sig == 17 || sig == 18 || sig == 21 || sig == 22
  ttystop := sig == 18 || sig == 21 || sig == 22
  cont := sig == 19
  ignore := sig == 16 || sig == 19 || sig == 20 || sig == 23 || sig == 28 || sig == 29

def sigmask (sig : ℕ) : BitVec 32 := 1#32 <<< (sig - 1)

def contsigmask : BitVec 32 := sigmask sigcont

def stopsigmask : BitVec 32 := sigmask 17 ||| sigmask 18 ||| sigmask 21 ||| sigmask 22

/-- `ffs` of a mask that is not zero. -/
def ffs (mask : BitVec 32) : ℕ := (List.range 32).findIdx (fun i => mask.getLsbD i) + 1

/-- What `u_signal` says, or `psignal` makes of it. -/
inductive Action where
  | dfl
  | ign
  | hold
  | caught
  deriving DecidableEq, Repr

/-- A process. Its flags are `SLOAD`, `SSYS`, `SVFORK`, `P_SINTR`, `P_TIMEOUT`, `P_TRACED`, `P_WAITED` and
    `P_NOCLDSTOP`; the entry number is also what the code asks the pid for. -/
structure Proc where
  p_stat : Stat
  p_wchan : ℕ
  sload : Bool
  ssys : Bool
  svfork : Bool
  sintr : Bool
  timeout : Bool
  traced : Bool
  waited : Bool
  nocldstop : Bool
  p_sig : BitVec 32
  p_sigmask : BitVec 32
  p_sigignore : BitVec 32
  p_sigcatch : BitVec 32
  p_ptracesig : ℕ
  p_pptr : ℕ
  u_signal : ℕ → Action

/-- Where `CURSIG` is used: in `tsleep` before the sleep, there after it, and on the way to user mode. -/
inductive Ctx where
  | first
  | second
  | user
  deriving DecidableEq, Repr

/-- Where a process goes on after `swtch`: in `issignal`, where it stopped for a signal, traced or not; in
    `tsleep`; or on the way to user mode. -/
inductive Cont where
  | stopped (ctx : Ctx) (traced : Bool) (sig : ℕ)
  | slept (pcatch : Bool)
  | user
  deriving DecidableEq, Repr

/-- Where a process is. In `issignal` it is at the head of the loop, at the action for a signal, about to tell
    its parent, about to stop, or stopped and about to wake its parent. `leave` is at `swtch` and `away` in it,
    `back` is past it, and `tail` is at the end of `setrun`, where the interrupts may be open. -/
inductive Pc where
  | user
  | head (ctx : Ctx)
  | act (ctx : Ctx) (sig : ℕ)
  | notify (ctx : Ctx) (traced : Bool) (sig : ℕ)
  | stop (ctx : Ctx) (traced : Bool) (sig : ℕ)
  | told (ctx : Ctx) (traced : Bool) (sig : ℕ)
  | leave (k : Cont)
  | away (k : Cont)
  | back (k : Cont)
  | tail (q : ℕ)
  deriving DecidableEq, Repr

/-- The queues, the processes and where each is, the process that has the processor, whether the interrupts are
    masked, the flag `runout`, and the two processes `sched` is about to swap. -/
structure World where
  links : Links Qid ℕ
  proc : ℕ → Proc
  pc : ℕ → Pc
  current : Option ℕ
  masked : Bool
  runout : BitVec 8
  swapped_out : Option ℕ
  in_core : Option ℕ

/-- How the kernel comes to an end: in a panic, at a null pointer, or in a loop that does not end. -/
inductive Panic where
  | wakeup
  | setrun
  | setrq
  | remrq
  | swtch
  | tsleep
  | fault
  | loop
  deriving DecidableEq, Repr

namespace World

def modify (w : World) (p : ℕ) (f : Proc → Proc) : World := { w with proc := update w.proc p (f (w.proc p)) }

def setStat (w : World) (p : ℕ) (s : Stat) : World := w.modify p fun x => { x with p_stat := s }

def setWchan (w : World) (p chan : ℕ) : World := w.modify p fun x => { x with p_wchan := chan }

def setSig (w : World) (p : ℕ) (sg : BitVec 32) : World := w.modify p fun x => { x with p_sig := sg }

def setPc (w : World) (p : ℕ) (pc : Pc) : World := { w with pc := update w.pc p pc }

variable (c : Cfg)

/-! ## The queues -/

def unsleep (w : World) (p : ℕ) : Except Panic World :=
  if (w.proc p).p_wchan ≠ 0 then
    match w.links.find p (c.nproc + 1) (.head (.slp (hash (w.proc p).p_wchan))) with
    | none => .error .fault
    | some hp => .ok ({ w with links := w.links.skip hp p }.setWchan p 0)
  else .ok w

def setrq (w : World) (p : ℕ) : Except Panic World :=
  if p ∈ w.links.nodes (c.nproc + 1) (w.links.head .run) then .error .setrq
  else .ok { w with links := w.links.push .run p }

def remrq (w : World) (p : ℕ) : Except Panic World :=
  match w.links.find p (c.nproc + 1) (.head .run) with
  | none => .error .remrq
  | some q => .ok { w with links := w.links.skip q p }

/-- A process that is made runnable goes to the run queue if it is loaded. -/
def ready (w : World) (p : ℕ) : Except Panic World :=
  if (w.proc p).sload then w.setrq c p else .ok w

/-- The loop of `wakeup`, at the place `q`. -/
def wakeupFrom : ℕ → World → ℕ → Place Qid ℕ → Except Panic World
  | 0, _, _, _ => .error .loop
  | fuel + 1, w, chan, q =>
    match w.links.get q with
    | none => .ok w
    | some p =>
      let s := w.proc p
      if s.p_stat ≠ .ssleep ∧ s.p_stat ≠ .sstop then .error .wakeup
      else if s.p_wchan = chan then
        let w := { w with links := w.links.skip q p }.setWchan p 0
        if s.p_stat = .ssleep then do
          let w ← (w.setStat p .srun).ready c p
          if s.sload = false ∧ w.runout ≠ 0 then do
            let w ← wakeupFrom fuel { w with runout := 0 } c.runout (.head (.slp (hash c.runout)))
            wakeupFrom fuel w chan (.head (.slp (hash chan)))
          else wakeupFrom fuel w chan (.head (.slp (hash chan)))
        else wakeupFrom fuel w chan q
      else wakeupFrom fuel w chan (.next p)

def wakeup (w : World) (chan : ℕ) : Except Panic World :=
  w.wakeupFrom c ((c.nproc + 1) * (c.nproc + 1)) chan (.head (.slp (hash chan)))

/-- `setrun` up to its `splx`. -/
def setrunHead (w : World) (p : ℕ) : Except Panic World :=
  match (w.proc p).p_stat with
  | .sstop | .ssleep => do
    let w ← w.unsleep c p
    (w.setStat p .srun).ready c p
  | .sidl => (w.setStat p .srun).ready c p
  | _ => .error .setrun

/-- `setrun` from there on. -/
def setrunTail (w : World) (p : ℕ) : Except Panic World :=
  if (w.proc p).sload = false ∧ w.runout ≠ 0 then { w with runout := 0 }.wakeup c c.runout else .ok w

def setrun (w : World) (p : ℕ) : Except Panic World := do
  let w ← w.setrunHead c p
  w.setrunTail c p

/-- A sleep is cut short; a process that is not asleep goes on as it is. -/
def cutSleep (w : World) (p : ℕ) : Except Panic World :=
  if (w.proc p).p_stat = .ssleep then w.setrun c p else w.unsleep c p

def endtsleep (w : World) (p : ℕ) : Except Panic World :=
  if (w.proc p).p_wchan ≠ 0 then do
    let w ← w.cutSleep c p
    pure (w.modify p fun x => { x with timeout := true })
  else .ok w

/-- `selwakeup` of one process; the flag `P_SELECT` is left out. -/
def selwakeup (w : World) (p : ℕ) : Except Panic World :=
  if (w.proc p).p_wchan = c.selwait then w.cutSleep c p else .ok w

/-! ## kern_sig.c -/

/-- `stop` without its `wakeup`. -/
def stopHead (w : World) (p : ℕ) : World := w.modify p fun x => { x with p_stat := .sstop, waited := false }

def stop (w : World) (p : ℕ) : Except Panic World := (w.stopHead p).wakeup c (c.proc (w.proc p).p_pptr)

/-- The action `psignal` takes for a signal. -/
def action (s : Proc) (mask : BitVec 32) : Action :=
  if s.traced then .dfl
  else if s.p_sigmask &&& mask ≠ 0 then .hold
  else if s.p_sigcatch &&& mask ≠ 0 then .caught
  else .dfl

/-- `psignal` of a process that is asleep. A stop sends `SIGCHLD` to the parent, by `notify`. -/
def postAsleep (notify : World → ℕ → Except Panic World) (w : World) (p sig : ℕ) (action : Action) :
    Except Panic World :=
  let s := w.proc p
  let rest := s.p_sig &&& ~~~sigmask sig
  if s.sintr = false then .ok w
  else if s.traced then w.setrun c p
  else if (sigprop sig).cont = true ∧ action = .dfl then .ok (w.setSig p rest)
  else if (sigprop sig).stop = false ∨ action ≠ .dfl then w.setrun c p
  else if s.svfork then .ok w
  else do
    let w := w.modify p fun x => { x with p_sig := rest, p_ptracesig := sig }
    let w ← (if (w.proc s.p_pptr).nocldstop then .ok w else notify w s.p_pptr)
    w.stop c p

/-- `psignal` of a process that is stopped. -/
def postStopped (w : World) (p sig : ℕ) (action : Action) : Except Panic World :=
  let s := w.proc p
  let rest := s.p_sig &&& ~~~sigmask sig
  if s.traced then .ok w
  else if sig = sigkill then w.setrun c p
  else if (sigprop sig).cont then
    let w := if action = .dfl then w.setSig p rest else w
    if action = .caught ∨ s.p_wchan = 0 then w.setrun c p
    else .ok (w.setStat p .ssleep)
  else if (sigprop sig).stop then .ok (w.setSig p rest)
  else if s.p_wchan ≠ 0 ∧ s.sintr = true then w.unsleep c p
  else .ok w

/-- `psignal`. -/
def post (notify : World → ℕ → Except Panic World) (w : World) (p sig : ℕ) : Except Panic World :=
  let s := w.proc p
  let mask := sigmask sig
  let prop := sigprop sig
  if s.traced = false ∧ s.p_sigignore &&& mask ≠ 0 then .ok w
  else
    let action := action s mask
    let sg := if prop.cont then s.p_sig &&& ~~~stopsigmask else s.p_sig
    if (prop.stop && prop.ttystop) = true ∧ s.p_pptr = 1 ∧ action = .dfl then .ok (w.setSig p sg)
    else
      let w := w.setSig p ((if prop.stop then sg &&& ~~~contsigmask else sg) ||| mask)
      if action = .hold ∧ (prop.cont = false ∨ s.p_stat ≠ .sstop) then .ok w
      else
        match s.p_stat with
        | .ssleep => w.postAsleep c notify p sig action
        | .sstop => w.postStopped c p sig action
        | _ => .ok w

/-- `psignal` of `SIGCHLD`, which does not stop anybody. -/
def psignalChld (w : World) (p : ℕ) : Except Panic World := w.post c (fun w _ => .ok w) p sigchld

def psignal (w : World) (p sig : ℕ) : Except Panic World := w.post c (psignalChld c) p sig

/-! ## tsleep -/

/-- `tsleep` from where the process is marked asleep. -/
def sleeping (w : World) (p : ℕ) (pcatch : Bool) : Except Panic World := do
  let w := w.setStat p .ssleep
  let w ← (if p ≠ 0 then w.wakeup c c.runin else .ok w)
  pure (w.setPc p (.leave (.slept pcatch)))

/-- `tsleep` from its label `resume`. -/
def resume (w : World) (p sig : ℕ) (pcatch : Bool) : World :=
  let late := (w.proc p).timeout
  let w := { w with masked := false }.modify p fun x => { x with sintr := false, timeout := false }
  if late = true ∧ sig = 0 then w.setPc p .user
  else if pcatch = true ∧ sig = 0 then w.setPc p (.head .second)
  else w.setPc p .user

/-- `tsleep` up to `CURSIG`, or to the sleep. -/
def tsleep (w : World) (p ident : ℕ) (pcatch : Bool) : Except Panic World :=
  if (w.proc p).p_stat ≠ .srun then .error .tsleep
  else
    let w := { w with links := w.links.push (.slp (hash ident)) p, masked := true }.setWchan p ident
    if pcatch then .ok ((w.modify p fun x => { x with sintr := true }).setPc p (.head .first))
    else w.sleeping c p false

/-- `CURSIG` has come to a signal, or to none. -/
def cursig (w : World) (p : ℕ) (ctx : Ctx) (sig : ℕ) : Except Panic World :=
  match ctx with
  | .first =>
    if sig ≠ 0 then do
      let w ← w.unsleep c p
      pure ((w.setStat p .srun).resume p sig true)
    else if (w.proc p).p_wchan = 0 then .ok (w.resume p 0 false)
    else w.sleeping c p true
  | .second => .ok (w.setPc p .user)
  | .user => .ok ((w.setSig p ((w.proc p).p_sig &&& ~~~sigmask sig)).setPc p .user)

/-! ## issignal -/

/-- The loop goes on without the signal. -/
def dropSig (w : World) (p : ℕ) (ctx : Ctx) (sig : ℕ) : World :=
  (w.setSig p ((w.proc p).p_sig &&& ~~~sigmask sig)).setPc p (.head ctx)

/-- The head of the loop. -/
def head (w : World) (p : ℕ) (ctx : Ctx) : Except Panic World :=
  let s := w.proc p
  let mask := s.p_sig &&& ~~~s.p_sigmask
  let mask := if s.svfork then mask &&& ~~~stopsigmask else mask
  if mask = 0 then w.cursig c p ctx 0
  else
    let sig := ffs mask
    if sigmask sig &&& s.p_sigignore ≠ 0 ∧ s.traced = false then .ok (w.dropSig p ctx sig)
    else if s.traced = true ∧ s.svfork = false then
      .ok ((w.modify p fun x =>
        { x with p_sig := s.p_sig &&& ~~~sigmask sig, p_ptracesig := sig }).setPc p (.notify ctx true sig))
    else .ok (w.setPc p (.act ctx sig))

/-- The action for a signal. -/
def act (w : World) (p : ℕ) (ctx : Ctx) (sig : ℕ) : Except Panic World :=
  let s := w.proc p
  let prop := sigprop sig
  match s.u_signal sig with
  | .dfl =>
    if p ≤ 1 then .ok (w.dropSig p ctx sig)
    else if prop.stop then
      if s.traced = true ∨ s.p_pptr = 1 ∧ prop.ttystop = true then .ok (w.dropSig p ctx sig)
      else .ok ((w.modify p fun x => { x with p_ptracesig := sig }).setPc p (.notify ctx false sig))
    else if prop.ignore then .ok (w.dropSig p ctx sig)
    else w.cursig c p ctx sig
  | .ign => .ok (w.dropSig p ctx sig)
  | _ => w.cursig c p ctx sig

/-- The parent gets `SIGCHLD`, of a process that is not traced only if it asked for it. -/
def notify (w : World) (p : ℕ) (traced : Bool) : Except Panic World :=
  if traced = true ∨ (w.proc (w.proc p).p_pptr).nocldstop = false then w.psignal c (w.proc p).p_pptr sigchld
  else .ok w

/-- A traced process goes on: `released` is the result of `procxmt`, and `data` the signal the tracer left. -/
def procxmt (w : World) (p : ℕ) (ctx : Ctx) (sig : ℕ) (released : Bool) (data : ℕ) : World :=
  let w := w.modify p fun x => { x with p_ptracesig := data }
  if released = false ∧ (w.proc p).traced = true then w.setPc p (.stop ctx true sig)
  else if data = 0 then w.setPc p (.head ctx)
  else
    let w := w.setSig p ((w.proc p).p_sig ||| sigmask data)
    if (w.proc p).p_sigmask &&& sigmask data ≠ 0 ∨ (w.proc p).traced = false then w.setPc p (.head ctx)
    else w.setPc p (.act ctx data)

/-- What the process that has the processor does next. -/
def go (w : World) (p : ℕ) : Option (Except Panic World) :=
  match w.pc p with
  | .head ctx => some (w.head c p ctx)
  | .act ctx sig => some (w.act c p ctx sig)
  | .notify ctx traced sig => some do
    let w ← w.notify c p traced
    pure (w.setPc p (.stop ctx traced sig))
  | .stop ctx traced sig => some (.ok ((w.stopHead p).setPc p (.told ctx traced sig)))
  | .told ctx traced sig => some do
    let w ← w.wakeup c (c.proc (w.proc p).p_pptr)
    pure (w.setPc p (.leave (.stopped ctx traced sig)))
  | .leave k => some (.ok { w.setPc p (.away k) with current := none, masked := false })
  | .back (.stopped ctx false sig) => some (.ok (w.dropSig p ctx sig))
  | .back (.slept pcatch) => some (.ok (w.resume p 0 pcatch))
  | .back .user => some (.ok (w.setPc p .user))
  | .tail q => some do
    let w ← w.setrunTail c q
    pure (w.setPc p .user)
  | _ => none

/-- `swtch` takes a process off the run queue. -/
def pick (w : World) (q : ℕ) (k : Cont) : Option (Except Panic World) :=
  let qs := w.links.nodes (c.nproc + 1) (w.links.head .run)
  if ∃ p ∈ qs, (w.proc p).p_stat ≠ .srun then some (.error .swtch)
  else if q ∈ qs ∧ (w.proc q).sload = true then
    match w.links.find q (c.nproc + 1) (.head .run) with
    | none => none
    | some pl => some (.ok { { w with links := w.links.skip pl q }.setPc q (.back k) with current := some q })
  else none

/-! ## sched -/

/-- `sched` has found a process to swap in, and one to swap out unless the core is empty. -/
def select (w : World) (rp : ℕ) (oq : Option ℕ) : Except Panic World :=
  match oq with
  | none => .ok { w with swapped_out := some rp }
  | some q => do
    let s := w.proc q
    let w := { w with swapped_out := some rp, in_core := some q }.modify q fun x => { x with sload := false }
    if s.p_stat = .srun then w.remrq c q else pure w

/-- The end of `swapout`. -/
def swapout (w : World) (q : ℕ) : Except Panic World :=
  let w := { w with in_core := none }.modify q fun x => { x with sload := false }
  if w.runout ≠ 0 then { w with runout := 0 }.wakeup c c.runout else .ok w

/-- The end of `swapin`. -/
def swapin (w : World) (p : ℕ) : Except Panic World := do
  let w ← (if (w.proc p).p_stat = .srun then w.setrq c p else .ok w)
  pure ({ w with swapped_out := none }.modify p fun x => { x with sload := true })

end World

/-- What happens next. The process that has the processor goes to sleep, looks for signals, lets others run, lets a
    stopped process run, or goes on in what it does; a traced process is told what to do; `swtch` takes another
    one; anybody, or an interrupt, wakes a channel up, sends a signal, ends a sleep that was too long or one in
    `select`; somebody
    changes what signals do to a process, or its parent; `sched` selects two processes, swaps one out, swaps one
    in, or has nothing to do. -/
inductive Event where
  | tsleep (ident : ℕ) (pcatch : Bool)
  | cursig
  | preempt
  | setrun (q : ℕ)
  | go
  | procxmt (released : Bool) (data : ℕ)
  | pick (q : ℕ)
  | wakeup (chan : ℕ)
  | psignal (q sig : ℕ)
  | endtsleep (q : ℕ)
  | selwakeup (q : ℕ)
  | settings (q : ℕ) (s : Proc)
  | select (rp : ℕ) (oq : Option ℕ)
  | swapout
  | swapin
  | idle

/-- The process that has the processor is between two calls. -/
def World.calling (w : World) : Option ℕ :=
  match w.current with
  | some p => if w.pc p = .user then some p else none
  | none => none

/-- One step. -/
def World.step (c : Cfg) (w : World) : Event → Option (Except Panic World)
  | .tsleep ident pcatch =>
    match w.calling with
    | some p =>
      if ident ≠ 0 ∧ ident ≠ c.runout ∧ (p = 0 → pcatch = false) then some (w.tsleep c p ident pcatch) else none
    | none => none
  | .cursig =>
    match w.calling with
    | some p => if p = 0 then none else some (.ok (w.setPc p (.head .user)))
    | none => none
  | .preempt =>
    match w.calling with
    | some p =>
      if p = 0 then none
      else some do
        let w ← w.setrq c p
        pure (w.setPc p (.leave .user))
    | none => none
  | .setrun q =>
    match w.calling with
    | some p =>
      if (w.proc q).p_stat = .sstop then
        some do
          let w ← w.setrunHead c q
          pure (w.setPc p (.tail q))
      else none
    | none => none
  | .go =>
    match w.current with
    | some p => w.go c p
    | none => none
  | .procxmt released data =>
    match w.current with
    | some p =>
      match w.pc p with
      | .back (.stopped ctx true sig) => some (.ok (w.procxmt p ctx sig released data))
      | _ => none
    | none => none
  | .pick q =>
    match w.current, w.pc q with
    | none, .away k => w.pick c q k
    | _, _ => none
  | .wakeup chan => if w.masked = false then some (w.wakeup c chan) else none
  | .psignal q sig => if w.masked = false ∧ 0 < sig ∧ sig < 32 then some (w.psignal c q sig) else none
  | .endtsleep q => if w.masked = false then some (w.endtsleep c q) else none
  | .selwakeup q => if w.masked = false then some (w.selwakeup c q) else none
  | .settings q s =>
    if w.masked = false ∧ s.p_pptr ≠ q then
      some (.ok (w.modify q fun x =>
        { x with
          svfork := s.svfork, traced := s.traced, waited := s.waited, nocldstop := s.nocldstop, p_sig := s.p_sig
          p_sigmask := s.p_sigmask, p_sigignore := s.p_sigignore, p_sigcatch := s.p_sigcatch
          p_pptr := s.p_pptr, u_signal := s.u_signal }))
    else none
  | .select rp oq =>
    if w.calling = some 0 ∧ w.swapped_out = none ∧ w.in_core = none ∧
        (w.proc rp).p_stat = .srun ∧ (w.proc rp).sload = false ∧
        ∀ q, oq = some q → (w.proc q).sload = true ∧ (w.proc q).ssys = false ∧
          ((w.proc q).p_stat = .sstop ∨ (w.proc q).p_stat = .ssleep ∨ (w.proc q).p_stat = .srun) then
      some (w.select c rp oq)
    else none
  | .swapout =>
    match w.in_core with
    | some q => if w.calling = some 0 then some (w.swapout c q) else none
    | none => none
  | .swapin =>
    match w.swapped_out with
    | some p => if w.calling = some 0 ∧ w.in_core = none then some (w.swapin c p) else none
    | none => none
  | .idle =>
    if w.calling = some 0 ∧ w.swapped_out = none ∧ w.in_core = none ∧
        ∀ rp < c.nproc, ¬ ((w.proc rp).p_stat = .srun ∧ (w.proc rp).sload = false) then
      some ({ w with runout := w.runout + 1 }.tsleep c 0 c.runout false)
    else none

/-- A process that has no business with signals yet. -/
def Proc.fresh (p : ℕ) (alive loaded : Bool) : Proc where
  p_stat := if alive then .srun else .none
  p_wchan := 0
  sload := loaded
  ssys := p == 0
  svfork := false
  sintr := false
  timeout := false
  traced := false
  waited := false
  nocldstop := false
  p_sig := 0
  p_sigmask := 0
  p_sigignore := 0
  p_sigcatch := 0
  p_ptracesig := 0
  p_pptr := if p = 1 then 0 else 1
  u_signal := fun _ => .dfl

/-- The swapper has the processor, the other processes are runnable, and those that are loaded are on the run
    queue. -/
def World.start (c : Cfg) (loaded : ℕ → Bool) : World where
  links := ((List.range c.nproc).filter fun p => p != 0 && loaded p).foldr (fun p L => L.push .run p)
    ⟨fun _ => none, fun _ => none⟩
  proc := fun p => .fresh p (p < c.nproc) (p == 0 || loaded p)
  pc := fun p => if p = 0 then .user else .away .user
  current := some 0
  masked := false
  runout := 0
  swapped_out := none
  in_core := none

end DiscoBSD.Sched
