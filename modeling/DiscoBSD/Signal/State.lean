import DiscoBSD.Exec.Stack

/-!
# Signals of one process

The fields of `struct proc` and `struct user` that the signal code of `sys/kern/kern_sig.c`,
`sys/kern/kern_sig2.c` and `sys/arch/rp2040/rp2040/sig_machdep.c` reads and writes, and the system calls that
set them. Memory is not among them: a call that copies something in gets whatever the user's memory has there,
and `sendsig` answers with what it stores. A child of `fork` starts from a copy of its parent's fields.

Addresses and registers are machine words. **The window a process may touch lies between `__user_data_start`
and `USER_TOP`**, and a span is tested without computing its end.
-/

set_option autoImplicit false

namespace DiscoBSD.Signal

open DiscoBSD.Exec (userTop)
open DiscoBSD.Swap (Conf)

abbrev Word := BitVec 32

/-! ## The window -/

/-- `__user_data_start`. -/
def userDataStart : Word := 0x20000000#32

/-- `rp2040_user_span_contains`. -/
def userSpanContains (lower upper start length : Word) : Bool :=
  if upper < lower ∨ start < lower ∨ upper < start then false else decide (length ≤ upper - start)

/-- `baduaddr_span`, for a process with or without `P_LARGE`. -/
def baduaddrSpan (cfg : Conf) (large : Bool) (addr nbytes : Word) : Bool :=
  !userSpanContains userDataStart (BitVec.ofNat 32 (userTop cfg large)) addr nbytes

/-- `baduaddr`. -/
def baduaddr (cfg : Conf) (large : Bool) (addr : Word) : Bool := baduaddrSpan cfg large addr 1

/-! ## The process -/

/-- `struct trapframe`. `tf_sp` is another name of `tf_ip`. -/
structure Trapframe where
  tf_r0 : Word
  tf_r1 : Word
  tf_r2 : Word
  tf_r3 : Word
  tf_sp : Word
  tf_lr : Word
  tf_pc : Word
  tf_psr : Word
  tf_r4 : Word
  tf_r5 : Word
  tf_r6 : Word
  tf_r7 : Word
  tf_r8 : Word
  tf_r9 : Word
  tf_r10 : Word
  tf_r11 : Word
  deriving DecidableEq, Repr

/-- `struct sigaltstack`. -/
structure Sigaltstack where
  ss_base : Word
  ss_size : Word
  ss_flags : Word
  deriving DecidableEq, Repr

/-- `struct sigstack`. -/
structure Sigstack where
  ss_sp : Word
  ss_onstack : Word
  deriving DecidableEq, Repr

/-- `struct sigaction`. -/
structure Sigaction where
  sa_handler : Word
  sa_mask : Word
  sa_flags : Word
  deriving DecidableEq, Repr

/-- The values of `u_error` the calls leave. -/
inductive Errno where
  | none
  | eintr
  | ebadf
  | efault
  | enomem
  | einval
  | erestart
  | ejustreturn
  deriving DecidableEq, Repr

/-- A process and its u area. -/
structure Proc where
  p_large : Bool
  p_nocldstop : Bool
  p_daddr : Word
  p_dsize : Word
  p_saddr : Word
  p_ssize : Word
  p_sig : Word
  p_sigmask : Word
  p_sigignore : Word
  p_sigcatch : Word
  u_frame : Trapframe
  u_code : Word
  u_error : Errno
  u_tsize : Word
  u_dsize : Word
  u_ssize : Word
  u_signal : ℕ → Word
  u_sigmask : ℕ → Word
  u_sigintr : Word
  u_sigonstack : Word
  u_sigtramp : Word
  u_sigstk : Sigaltstack
  u_oldmask : Word
  sas_oldmask : Bool
  sas_altstack : Bool

/-- `NSIG`. -/
def nsig : ℕ := 32

/-- `SIG_DFL` and `SIG_IGN`. -/
def sigDfl : Word := 0
def sigIgn : Word := 1

def sigill : ℕ := 4
def sigkill : ℕ := 9
def sigstop : ℕ := 17
def sigcont : ℕ := 19
def sigchld : ℕ := 20

/-- `sigmask`. -/
def sigmask (sig : ℕ) : Word := 1#32 <<< (sig - 1)

/-- `sigcantmask`. -/
def sigcantmask : Word := sigmask sigkill ||| sigmask sigstop

/-- The signals with `SA_IGNORE` in `sigprop`: `SIGURG`, `SIGCONT`, `SIGCHLD`, `SIGIO`, `SIGWINCH` and
    `SIGINFO`. -/
def sigpropIgnore (sig : ℕ) : Bool := sig ∈ [16, sigcont, sigchld, 23, 28, 29]

def saOnstack : Word := 1
def saRestart : Word := 2
def saDisable : Word := 4
def saNocldstop : Word := 8
def minsigstksz : Word := 128

/-- A bit of a word is set. -/
def has (w bit : Word) : Bool := decide (w &&& bit ≠ 0)

/-! ## The system calls -/

/-- `sigaltstack`. `ss` is what the user's memory has at `nss`. -/
def Proc.sigaltstack (cfg : Conf) (s : Proc) (nss oss : Word) (ss : Sigaltstack) : Proc :=
  let s := if s.sas_altstack then s
    else { s with u_sigstk := { s.u_sigstk with ss_flags := s.u_sigstk.ss_flags ||| saDisable } }
  if oss ≠ 0 ∧ baduaddrSpan cfg s.p_large oss 12 = true then { s with u_error := .efault }
  else if nss = 0 then { s with u_error := .none }
  else if baduaddrSpan cfg s.p_large nss 12 then { s with u_error := .efault }
  else if has ss.ss_flags saDisable then
    if has s.u_sigstk.ss_flags saOnstack then { s with u_error := .einval }
    else { s with
      sas_altstack := false, u_sigstk := { s.u_sigstk with ss_flags := ss.ss_flags }, u_error := .none }
  else if ss.ss_size.slt minsigstksz then { s with u_error := .enomem }
  else { s with sas_altstack := true, u_sigstk := ss, u_error := .none }

/-- `sigstack`. `ss` is what the user's memory has at `nss`. -/
def Proc.sigstack (cfg : Conf) (s : Proc) (nss oss : Word) (ss : Sigstack) : Proc :=
  if oss ≠ 0 ∧ baduaddrSpan cfg s.p_large oss 8 = true then { s with u_error := .efault }
  else if nss = 0 then { s with u_error := .none }
  else if baduaddrSpan cfg s.p_large nss 8 then { s with u_error := .efault }
  else { s with
    u_sigstk :=
      { ss_base := ss.ss_sp, ss_size := 0, ss_flags := s.u_sigstk.ss_flags ||| (ss.ss_onstack &&& saOnstack) }
    sas_altstack := true
    u_error := .none }

/-- `setsigvec`. -/
def Proc.setsigvec (s : Proc) (signum : ℕ) (sa : Sigaction) : Proc :=
  let bit := sigmask signum
  let s := { s with
    u_signal := Function.update s.u_signal signum sa.sa_handler
    u_sigmask := Function.update s.u_sigmask signum (sa.sa_mask &&& ~~~sigcantmask)
    u_sigintr := if has sa.sa_flags saRestart then s.u_sigintr &&& ~~~bit else s.u_sigintr ||| bit
    u_sigonstack := if has sa.sa_flags saOnstack then s.u_sigonstack ||| bit else s.u_sigonstack &&& ~~~bit
    p_nocldstop := if signum = sigchld then has sa.sa_flags saNocldstop else s.p_nocldstop }
  if sa.sa_handler = sigIgn ∨ (sigpropIgnore signum = true ∧ sa.sa_handler = sigDfl) then
    { s with
      p_sig := s.p_sig &&& ~~~bit
      p_sigignore := if signum ≠ sigcont then s.p_sigignore ||| bit else s.p_sigignore
      p_sigcatch := s.p_sigcatch &&& ~~~bit }
  else
    { s with
      p_sigignore := s.p_sigignore &&& ~~~bit
      p_sigcatch := if sa.sa_handler = sigDfl then s.p_sigcatch &&& ~~~bit else s.p_sigcatch ||| bit }

/-- `sigaction`. `sa` is what the user's memory has at `nsa`. -/
def Proc.sigaction (cfg : Conf) (s : Proc) (signum nsa osa sigtramp : Word) (sa : Sigaction) : Proc :=
  let s := { s with u_sigtramp := sigtramp }
  if signum.toInt ≤ 0 ∨ (nsig : ℤ) ≤ signum.toInt then { s with u_error := .einval }
  else if nsa ≠ 0 ∧ (signum.toNat = sigkill ∨ signum.toNat = sigstop) then { s with u_error := .einval }
  else if osa ≠ 0 ∧ baduaddrSpan cfg s.p_large osa 12 = true then { s with u_error := .efault }
  else if nsa = 0 then { s with u_error := .none }
  else if baduaddrSpan cfg s.p_large nsa 12 then { s with u_error := .efault }
  else { s.setsigvec signum.toNat sa with u_error := .none }

/-- `brk`. -/
def Proc.brk (cfg : Conf) (s : Proc) (naddr : Word) : Proc :=
  let newsize := if (naddr - s.p_daddr).slt 0 then 0 else naddr - s.p_daddr
  let ceiling := BitVec.ofNat 32 (Swap.maxmem + if s.p_large then cfg.pool else 0)
  if ceiling < s.u_tsize + newsize + s.u_ssize then { s with u_error := .enomem }
  else if s.p_saddr < s.p_daddr + newsize then { s with u_error := .enomem }
  else { s with p_dsize := newsize, u_dsize := newsize, u_error := .none }

/-- `execsigs`. -/
def Proc.execsigs (s : Proc) : Proc :=
  let caught (sig : ℕ) : Bool := decide (1 ≤ sig) && has s.p_sigcatch (sigmask sig)
  let ignored (sig : ℕ) : Bool := caught sig && sigpropIgnore sig
  { s with
    u_signal := fun sig => if caught sig then sigDfl else s.u_signal sig
    p_sigignore := (List.range (nsig + 1)).foldl
      (fun m sig => if ignored sig && sig != sigcont then m ||| sigmask sig else m) s.p_sigignore
    p_sig := (List.range (nsig + 1)).foldl (fun m sig => if ignored sig then m &&& ~~~sigmask sig else m) s.p_sig
    p_sigcatch := 0
    u_sigstk := ⟨0, 0, saDisable⟩
    sas_oldmask := false
    sas_altstack := false }

/-- The sizes that an `execve` which succeeds sets, and `execsigs`. -/
def Proc.execve (cfg : Conf) (s : Proc) (large : Bool) (tsize dsize ssize : Word) : Proc :=
  let top := BitVec.ofNat 32 (userTop cfg large)
  Proc.execsigs { s with
    p_large := large
    p_dsize := dsize
    p_daddr := userDataStart
    p_ssize := ssize
    p_saddr := top - ssize
    u_tsize := tsize
    u_dsize := dsize
    u_ssize := ssize
    u_error := .none }

/-- `fatalsig`, with what `psignal` does for a signal that is neither ignored nor held nor caught. -/
def Proc.fatalsig (s : Proc) (signum : ℕ) : Proc :=
  let mask := sigmask signum
  { s with
    u_signal := Function.update s.u_signal signum sigDfl
    p_sigignore := s.p_sigignore &&& ~~~mask
    p_sigcatch := s.p_sigcatch &&& ~~~mask
    p_sigmask := s.p_sigmask &&& ~~~mask
    p_sig := s.p_sig ||| mask }

end DiscoBSD.Signal
