import DiscoBSD.Signal.State

/-!
# Waiting for a signal

`sigwait` of `sys/kern/kern_sig2.c`, with the part of `tsleep` and `issignal` that it goes through. `tsleep` with
`PCATCH` looks for a signal before it puts the process to sleep and again when it runs, and does not sleep with
one there: it returns at once and says so. **The loop of `sigwait` does not look at what it says.**

What happens while the process does not run is the environment's: the signals that are there when it runs again,
and what a tracer does with a signal it is shown. What its parent is told is left out.
-/

set_option autoImplicit false

namespace DiscoBSD.Signal

open DiscoBSD.Swap (Conf)

/-! ## Signals by number -/

/-- `for (cnt = 1; !(mask & 1); cnt++)`, over a word that is not 0. -/
def ffsFrom : ℕ → ℕ → Word → ℕ
  | 0, cnt, _ => cnt
  | n + 1, cnt, mask => if mask &&& 1#32 ≠ 0 then cnt else ffsFrom n (cnt + 1) (mask >>> 1)

/-- `ffs`. -/
def ffs (mask : Word) : ℕ := if mask = 0 then 0 else ffsFrom 32 1 mask

/-- The signals with `SA_TTYSTOP`: `SIGTSTP`, `SIGTTIN` and `SIGTTOU`. -/
def sigpropTtystop (sig : ℕ) : Bool := sig ∈ [18, 21, 22]

/-- The signals with `SA_STOP`. -/
def sigpropStop (sig : ℕ) : Bool := sig = sigstop || sigpropTtystop sig

/-- `stopsigmask`. -/
def stopsigmask : Word := sigmask sigstop ||| sigmask 18 ||| sigmask 21 ||| sigmask 22

/-! ## issignal -/

/-- A process with what `issignal` asks besides: `P_TRACED`, `SVFORK`, whether it is init or the swapper, and
    whether init is its parent. -/
structure Waiter extends Proc where
  traced : Bool
  svfork : Bool
  system : Bool
  orphan : Bool

/-- A process that was stopped runs again: with these signals, and for a tracer's sake with this signal, or none,
    and traced or not. -/
structure Resume where
  p_sig : Word
  ptracesig : ℕ
  traced : Bool

/-- What `issignal` does with a signal. -/
inductive Disposition where
  | take
  | drop
  | stop
  deriving DecidableEq, Repr

/-- `switch ((int)u.u_signal[sig])`. -/
def Waiter.disposition (w : Waiter) (sig : ℕ) : Disposition :=
  if w.u_signal sig = sigDfl then
    if w.system then .drop
    else if sigpropStop sig then
      if w.traced ∨ (w.orphan = true ∧ sigpropTtystop sig = true) then .drop else .stop
    else if sigpropIgnore sig then .drop
    else .take
  else if w.u_signal sig = sigIgn then .drop
  else .take

def Waiter.setSig (w : Waiter) (p_sig : Word) : Waiter := { w with p_sig := p_sig }

/-- `p->p_sig &= ~mask`. -/
def Waiter.clear (w : Waiter) (sig : ℕ) : Waiter := w.setSig (w.p_sig &&& ~~~sigmask sig)

/-- The signals that `issignal` looks at. -/
def Waiter.pending (w : Waiter) : Word :=
  let mask := w.p_sig &&& ~~~w.p_sigmask
  if w.svfork then mask &&& ~~~stopsigmask else mask

/-- The signal, the process and the resumptions left, or `none` while the process is stopped. -/
abbrev Found := Option (ℕ × Waiter × List Resume)

/-- The switch and what follows it: the signal is returned, or taken away before the next turn. -/
def Waiter.act (again : Waiter → List Resume → Found) (w : Waiter) (sig : ℕ) (rs : List Resume) : Found :=
  match w.disposition sig with
  | .take => some (sig, w, rs)
  | .drop => again (w.clear sig) rs
  | .stop =>
    match rs with
    | [] => none
    | r :: rs => again ((w.setSig r.p_sig).clear sig) rs

/-- `issignal`, for so many turns: the signal or 0. -/
def Waiter.issignal : ℕ → Waiter → List Resume → Found
  | 0, _, _ => none
  | turns + 1, w, rs =>
    if w.pending = 0 then some (0, w, rs)
    else
      let sig := ffs w.pending
      if has w.p_sigignore (sigmask sig) ∧ w.traced = false then (w.clear sig).issignal turns rs
      else if w.traced = true ∧ w.svfork = false then
        match rs with
        | [] => none
        | r :: rs =>
          let w := { w.setSig r.p_sig with traced := r.traced }
          if r.ptracesig = 0 then w.issignal turns rs
          else
            let w := w.setSig (w.p_sig ||| sigmask r.ptracesig)
            if has w.p_sigmask (sigmask r.ptracesig) ∨ r.traced = false then w.issignal turns rs
            else w.act (fun w rs => w.issignal turns rs) r.ptracesig rs
      else w.act (fun w rs => w.issignal turns rs) sig rs

/-- `CURSIG`. A turn takes a signal away for good or takes a resumption, so these are enough turns. -/
def Waiter.cursig (w : Waiter) (rs : List Resume) : Found :=
  if w.p_sig = 0 ∨ (w.traced = false ∧ w.p_sig &&& ~~~w.p_sigmask = 0) then some (0, w, rs)
  else w.issignal (33 * (rs.length + 1)) rs

/-! ## sigwait -/

/-- What happens in one `tsleep`: how a stopped process runs again before the sleep, whether something woke it
    then, the signals it wakes up to, how it runs again after the sleep, and the signals posted after that. -/
structure Nap where
  first : List Resume
  woken : Bool
  asleep : Word
  second : List Resume
  after : Word → Word

/-- The two codes for an interrupted call. -/
def Waiter.interrupted (w : Waiter) (sig : ℕ) : Errno :=
  if has w.u_sigintr (sigmask sig) then .eintr else .erestart

/-- `tsleep` with `PCATCH` and no time: what it returns. -/
def Waiter.tsleep (w : Waiter) (nap : Nap) : Option (Errno × Waiter) := do
  let (sig, w, _) ← w.cursig nap.first
  if sig ≠ 0 then return (w.interrupted sig, w.setSig (nap.after w.p_sig))
  if nap.woken then return (.none, w.setSig (nap.after w.p_sig))
  let (sig, w, _) ← (w.setSig nap.asleep).cursig nap.second
  if sig ≠ 0 then return (w.interrupted sig, w.setSig (nap.after w.p_sig))
  return (.none, w.setSig (nap.after w.p_sig))

/-- `while ((sigsavail = (wanted & p->p_sig)) == 0)`: the signals there are and the process, unless it is still in
    the loop after the naps. -/
def Waiter.waitLoop (wanted : Word) : Waiter → List Nap → Option (Word × Waiter)
  | w, naps =>
    if wanted &&& w.p_sig ≠ 0 then some (wanted &&& w.p_sig, w)
    else
      match naps with
      | [] => none
      | nap :: naps => (w.tsleep nap).bind fun (_, w) => w.waitLoop wanted naps

def Waiter.setError (w : Waiter) (error : Errno) : Waiter := { w with u_error := error }

/-- `sigwait` from the end of the loop on, with the signal it stores. -/
def Waiter.waited (cfg : Conf) (sig sigsavail : Word) (w : Waiter) : Waiter × Option ℕ :=
  if sigsavail &&& sigcantmask ≠ 0 then (w.setError .eintr, none)
  else
    let signo := ffs sigsavail
    let w := w.clear signo
    if baduaddrSpan cfg w.p_large sig 4 then (w.setError .efault, none)
    else (w.setError .none, some signo)

/-- `sigwait`. `wanted` is what the user's memory has at `set`. -/
def Waiter.sigwait (cfg : Conf) (w : Waiter) (set sig wanted : Word) (naps : List Nap) :
    Option (Waiter × Option ℕ) :=
  if set = 0 ∨ sig = 0 then some (w.setError .einval, none)
  else if baduaddrSpan cfg w.p_large set 4 then some (w.setError .efault, none)
  else (w.waitLoop (wanted ||| sigcantmask) naps).map fun (sigsavail, w) => w.waited cfg sig sigsavail

end DiscoBSD.Signal
