import DiscoBSD.Lib.Runs
import DiscoBSD.Signal.Sendsig

/-!
# Temporary masks

`sigprocmask`, `sigsuspend` and `pselect`, and what they and the handlers do to the mask. `sigsuspend` and
`pselect` set a mask for as long as they sleep. They leave the mask from before in `u_oldmask` and say so in
`u_psflags`, for `postsig` to use as the mask the handler restores.

**Only `postsig` takes the flag away.** A call that let no handler in leaves it set, and the next handler, whenever
it comes, restores the mask from before that call.

A process that has trapped is in the kernel until it returns to its own code, and signals are posted on the way.
What a handler restores is what `sendsig` stored: the handlers here leave their contexts alone.
-/

set_option autoImplicit false

namespace DiscoBSD.Signal

open DiscoBSD.Swap (Conf)

/-! ## The calls -/

def sigBlock : Word := 1
def sigUnblock : Word := 2
def sigSetmask : Word := 3

/-- The end of `sigprocmask`. -/
def Proc.putOldmask (cfg : Conf) (s : Proc) (oset : Word) : Proc :=
  if oset ≠ 0 ∧ baduaddrSpan cfg s.p_large oset 4 = true then { s with u_error := .efault }
  else { s with u_error := .none }

/-- `sigprocmask`. `newmask` is what the user's memory has at `set`. -/
def Proc.sigprocmask (cfg : Conf) (s : Proc) (how set oset newmask : Word) : Proc :=
  if set = 0 then s.putOldmask cfg oset
  else if baduaddrSpan cfg s.p_large set 4 then { s with u_error := .efault }
  else if how = sigBlock then
    { s with p_sigmask := s.p_sigmask ||| (newmask &&& ~~~sigcantmask) }.putOldmask cfg oset
  else if how = sigUnblock then { s with p_sigmask := s.p_sigmask &&& ~~~newmask }.putOldmask cfg oset
  else if how = sigSetmask then { s with p_sigmask := newmask &&& ~~~sigcantmask }.putOldmask cfg oset
  else { s with u_error := .einval }

/-- The mask that `sigsuspend` takes from the user's memory, or 0. -/
def Proc.suspendMask (cfg : Conf) (s : Proc) (set nmask : Word) : Word :=
  if set = 0 ∨ baduaddrSpan cfg s.p_large set 4 = true then 0 else nmask &&& ~~~sigcantmask

/-- `sigsuspend`, when it has been woken. `nmask` is what the user's memory has at `set`. -/
def Proc.sigsuspend (cfg : Conf) (s : Proc) (set nmask : Word) : Proc :=
  { s with
    u_oldmask := s.p_sigmask
    sas_oldmask := true
    p_sigmask := s.suspendMask cfg set nmask
    u_error := .eintr }

/-- What `tsleep` returns to `select1`. -/
inductive Wakeup where
  | woken
  | timeout
  | signal
  deriving DecidableEq, Repr

/-- One time around from `retry`: `selscan` finds a descriptor that is ready or fails, the time is over, a
    descriptor became ready since, or the process slept. -/
inductive Round where
  | scanned (error : Errno)
  | expired
  | again
  | slept (wakeup : Wakeup)
  deriving DecidableEq, Repr

/-- What `select1` copies in: the error of the sets and the time, and what the user's memory has at `maskp`. -/
structure PselectArgs where
  copied : Errno
  maskp : Word
  sigmsk : Word
  deriving DecidableEq, Repr

/-- Before `tsleep`. -/
def Proc.holdMask (s : Proc) (args : PselectArgs) : Proc :=
  if args.maskp = 0 then s
  else { s with u_oldmask := s.p_sigmask, sas_oldmask := true, p_sigmask := args.sigmsk &&& ~~~sigcantmask }

/-- After `tsleep`. -/
def Proc.restoreMask (s : Proc) (args : PselectArgs) : Proc :=
  if args.maskp = 0 then s else { s with p_sigmask := s.u_oldmask }

/-- The loop of `select1`, if it ends, and its error. -/
def Proc.selRounds (s : Proc) (args : PselectArgs) : List Round → Option (Proc × Errno)
  | [] => none
  | .scanned error :: _ => some (s, error)
  | .expired :: _ => some (s, .none)
  | .again :: rounds => s.selRounds args rounds
  | .slept wakeup :: rounds =>
    let s := (s.holdMask args).restoreMask args
    match wakeup with
    | .woken => s.selRounds args rounds
    | .timeout => some (s, .none)
    | .signal => some (s, .eintr)

/-- `select1`, for `pselect` and, with no `maskp`, for `select`. `stored` is the error of copying the sets out. -/
def Proc.select1 (cfg : Conf) (s : Proc) (args : PselectArgs) (rounds : List Round) (stored : Errno) : Option Proc :=
  if args.copied ≠ .none then some { s with u_error := args.copied }
  else if args.maskp ≠ 0 ∧ baduaddrSpan cfg s.p_large args.maskp 4 = true then some { s with u_error := .efault }
  else (s.selRounds args rounds).map fun (s, error) =>
    if error = .none then { s with u_error := stored } else { s with u_error := error }

inductive Call where
  | sigprocmask (how set oset newmask : Word)
  | sigsuspend (set nmask : Word)
  | pselect (args : PselectArgs) (rounds : List Round) (stored : Errno)
  | sigaction (signum nsa osa sigtramp : Word) (sa : Sigaction)
  | sigaltstack (nss oss : Word) (ss : Sigaltstack)
  | sigstack (nss oss : Word) (ss : Sigstack)
  | brk (naddr : Word)
  | other (error : Errno)
  deriving DecidableEq, Repr

def Proc.call (cfg : Conf) (s : Proc) : Call → Option Proc
  | .sigprocmask how set oset newmask => some (s.sigprocmask cfg how set oset newmask)
  | .sigsuspend set nmask => some (s.sigsuspend cfg set nmask)
  | .pselect args rounds stored => s.select1 cfg args rounds stored
  | .sigaction signum nsa osa sigtramp sa => some (s.sigaction cfg signum nsa osa sigtramp sa)
  | .sigaltstack nss oss ss => some (s.sigaltstack cfg nss oss ss)
  | .sigstack nss oss ss => some (s.sigstack cfg nss oss ss)
  | .brk naddr => some (s.brk cfg naddr)
  | .other error => some { s with u_error := error }

/-! ## Runs -/

/-- Where a process is: in its own code, in the kernel, or in the kernel on the way out of a `sigsuspend` that has
    not let a handler in yet. -/
inductive Phase where
  | user
  | kernel
  | suspended
  deriving DecidableEq, Repr

/-- A process and the masks in the contexts of the handlers it is in, the innermost first. -/
structure Task where
  proc : Proc
  phase : Phase
  sc_masks : List Word

inductive Act where
  | call (regs : Trapframe) (code : Word) (c : Call)
  | execve (regs : Trapframe) (code : Word) (large : Bool) (tsize dsize ssize : Word)
  | sigreturn (regs : Trapframe) (code : Word) (context : Sigcontext)
  | pending (sigs : Word)
  | postsig (sig : ℕ)
  | ret
  deriving DecidableEq, Repr

/-- A signal is delivered when it is pending, not held, and has a handler. -/
def Proc.delivers (s : Proc) (sig : ℕ) : Prop :=
  1 ≤ sig ∧ sig < nsig ∧ has (s.p_sig &&& ~~~s.p_sigmask) (sigmask sig) = true ∧
    s.u_signal sig ≠ sigDfl ∧ s.u_signal sig ≠ sigIgn

instance (s : Proc) (sig : ℕ) : Decidable (s.delivers sig) :=
  inferInstanceAs (Decidable (1 ≤ sig ∧ sig < nsig ∧ has (s.p_sig &&& ~~~s.p_sigmask) (sigmask sig) = true ∧
    s.u_signal sig ≠ sigDfl ∧ s.u_signal sig ≠ sigIgn))

def Call.phase : Call → Phase
  | .sigsuspend .. => .suspended
  | _ => .kernel

/-- One step. A `sigreturn` that is refused is one of the other calls, and a process whose handler's frame does
    not fit is killed. -/
def Task.step (cfg : Conf) (t : Task) : Act → Option Task
  | .call regs code c =>
    if t.phase = .user then
      (Proc.call cfg { t.proc with u_frame := regs, u_code := code } c).map fun s =>
        { t with proc := s, phase := c.phase }
    else none
  | .execve regs code large tsize dsize ssize =>
    if t.phase = .user then
      some ⟨{ t.proc with u_frame := regs, u_code := code }.execve cfg large tsize dsize ssize, .kernel, []⟩
    else none
  | .sigreturn regs code context =>
    let s := { t.proc with u_frame := regs, u_code := code }.sigreturn cfg context
    if t.phase = .user ∧ t.sc_masks.head? = some context.sc_mask ∧ s.u_error = .ejustreturn then
      some ⟨s, .kernel, t.sc_masks.tail⟩
    else none
  | .pending sigs => some { t with proc := { t.proc with p_sig := sigs } }
  | .postsig sig =>
    if t.phase ≠ .user ∧ t.proc.delivers sig then
      match t.proc.postsig cfg sig with
      | (_ :: sc_mask :: _, s) => some ⟨s, .kernel, sc_mask.value :: t.sc_masks⟩
      | _ => none
    else none
  | .ret => if t.phase ≠ .user then some { t with phase := .user } else none

/-- A process before its first `execve`. -/
def Task.fresh : Task := ⟨Proc.fresh, .user, []⟩

/-! ## The purpose -/

/-- The mask the program has set, the one it suspended itself with, and those its handlers are to restore. -/
structure Masks where
  cur : Word
  temp : Option Word
  saved : List Word

/-- What an event means for the masks. -/
inductive Change where
  | nothing
  | set (f : Word → Word)
  | suspend (mask : Word)
  | deliver (held : Word)
  | handled
  | leave
  | exec

/-- A handler that `sigsuspend` lets in has its mask added to the temporary one, and it restores the mask from
    before. Any other is to restore the mask in force. -/
def Masks.change (a : Masks) : Change → Masks
  | .nothing => a
  | .set f => { a with cur := f a.cur }
  | .suspend mask => { a with temp := some mask }
  | .deliver held => { cur := a.temp.getD a.cur ||| held, temp := none, saved := a.cur :: a.saved }
  | .handled => { a with cur := a.saved.headD a.cur, saved := a.saved.tail }
  | .leave => { a with temp := none }
  | .exec => { a with saved := [] }

/-- The mask `sigprocmask` asks for. -/
def asked (how newmask mask : Word) : Word :=
  if how = sigBlock then mask ||| (newmask &&& ~~~sigcantmask)
  else if how = sigUnblock then mask &&& ~~~newmask
  else if how = sigSetmask then newmask &&& ~~~sigcantmask
  else mask

def Task.change (cfg : Conf) (t : Task) : Act → Change
  | .call _ _ (.sigprocmask how set _ newmask) =>
    if set = 0 ∨ baduaddrSpan cfg t.proc.p_large set 4 = true then .nothing else .set (asked how newmask)
  | .call _ _ (.sigsuspend set nmask) => .suspend (t.proc.suspendMask cfg set nmask)
  | .call _ _ _ => .nothing
  | .execve .. => .exec
  | .sigreturn .. => .handled
  | .pending _ => .nothing
  | .postsig sig => .deliver (t.proc.u_sigmask sig ||| sigmask sig)
  | .ret => .leave

/-- A process beside the masks it should have. -/
def bothStep (cfg : Conf) (x : Task × Masks) (act : Act) : Option (Task × Masks) :=
  (x.1.step cfg act).map fun t => (t, x.2.change (x.1.change cfg act))

/-- In its own code the process has the mask it should have, and at any time its handlers are to restore the masks
    they should restore. -/
def Undone (x : Task × Masks) : Prop := x.1.sc_masks = x.2.saved ∧ (x.1.phase = .user → x.1.proc.p_sigmask = x.2.cur)

/-- The flag does no harm: a handler that does not come from a `sigsuspend` finds it clear, or the mask that was
    saved is the one in force, and a `sigsuspend` that lets no handler in has set no other mask than that. -/
def SafeAct (x : Task × Masks) : Act → Prop
  | .postsig _ => x.1.phase = .kernel → x.1.proc.sas_oldmask = true → x.1.proc.u_oldmask = x.1.proc.p_sigmask
  | .ret => x.1.phase = .suspended → x.1.proc.p_sigmask = x.1.proc.u_oldmask
  | _ => True

end DiscoBSD.Signal
