import DiscoBSD.Exec.Records

/-!
# Setting up the stack

`exec_setupstack` of `sys/kern/exec_subr.c`, for the stack that `exec_aout_check` and `exec_elf_check` lay
out under the top of the window and `exec_estab` places. From the top down there are a word for ps, the
strings, `envp`, `argv` and the frame. **The byte counts fix every address before a string is read**, and
the code panics when the strings do not end where they have to.

The window and the pool overlap only under LARGE, and an exec that asks for LARGE moves its spool to
flash before; so the memory here and the pool are two stores.
-/

set_option autoImplicit false

namespace DiscoBSD.Exec

open DiscoBSD.Lib DiscoBSD.Rmap DiscoBSD.Swapram
open DiscoBSD.Swap (Kernel Conf)

/-- `NBPW`. -/
def nbpw : Nat := 4

/-- `SSIZE`. -/
def ssize : Nat := 2048

/-- `STACKALIGN`. -/
def stackalign : Nat := 8

/-- `sizeof *u.u_frame`. -/
def frameSize : Nat := 64

/-- `MAXCOMLEN`. -/
def maxcomlen : Nat := 63

/-- `__user_data_end`: 144 KB from the start of RAM. -/
def userDataEnd : Nat := 0x20000000 + 144 * 1024

/-- `USER_TOP`: under LARGE the pool's bytes are the window's. -/
def userTop (cfg : Conf) (large : Bool) : Nat := userDataEnd + if large then cfg.pool else 0

/-- `epp->stack.len`, as both formats set it. -/
def stackLen (epp : ExecArgs) : Nat :=
  ssize + roundUp nbpw (epp.argbc + epp.envbc) + (epp.argc + epp.envc + 4) * nbpw

/-- The new image's memory and the registers it starts with. `tf_sp` is `tf_ip` in the frame. -/
structure Image where
  mem : Nat → UInt8
  tf_sp : Nat
  tf_r0 : Nat
  u_rval : Nat
  tf_r1 : Nat
  tf_r2 : Nat
  tf_lr : Nat
  tf_psr : Nat
  tf_pc : Nat
  u_comm : Option (List UInt8)

/-- What `copystr` copies: up to the NUL or up to `maxlength`. -/
def copystr (mem : Nat → UInt8) : Nat → Nat → List UInt8
  | 0, _ => []
  | maxlength + 1, src => mem src :: if mem src = 0 then [] else copystr mem maxlength (src + 1)

/-- A loop over the records of one vector: `ucp`, the memory and the spool after it. The panics are the
    vector's own. -/
def putStrings (cfg : Conf) (σ : Kernel) (topp : Nat) (lengthPanic terminatorPanic : String) :
    Nat → Nat → Nat → (Nat → UInt8) → ExecSpool → Except Fault (Nat × (Nat → UInt8) × ExecSpool)
  | 0, _, ucp, mem, sp => .ok (ucp, mem, sp)
  | n + 1, vec, ucp, mem, sp => do
    let mem := putWord mem vec ucp
    let (word, sp) ← execSpoolRead cfg σ sp 2
    let len := leNat word
    if len = 0 ∨ wrap 32 (topp + 2 ^ 32 - ucp) < len then .error (.panic lengthPanic)
    else do
      let (bytes, sp) ← execSpoolRead cfg σ sp len
      let mem := writeAt mem ucp bytes
      if mem (ucp + (len - 1)) ≠ 0 then .error (.panic terminatorPanic)
      else putStrings cfg σ topp lengthPanic terminatorPanic n (vec + nbpw) (ucp + len) mem sp

/-- Where things go: `topp`, `ucp`, `envp`, `argp` and `pad`. -/
structure Layout where
  topp : Nat
  ucp : Nat
  envp : Nat
  argp : Nat
  pad : Nat

/-- The address arithmetic of `exec_setupstack`. -/
def stackLayout (epp : ExecArgs) (vaddr : Nat) : Layout :=
  let topp := vaddr + stackLen epp - nbpw
  let ucp := topp - roundUp nbpw (epp.envbc + epp.argbc)
  let envp := ucp - (epp.envc + 1) * nbpw
  let argp := envp - (epp.argc + 1) * nbpw
  let pad := if argp &&& (stackalign - 1) ≠ 0 then nbpw else 0
  ⟨topp, ucp - pad, envp - pad, argp - pad, pad⟩

/-- `exec_setupstack`. `vaddr` is `epp->stack.vaddr`. -/
def execSetupstack (cfg : Conf) (σ : Kernel) (epp : ExecArgs) (vaddr : Nat) (mem : Nat → UInt8)
    (entryaddr : Nat) : Except Fault Image := do
  let l := stackLayout epp vaddr
  let mem := putWord mem l.topp l.argp
  let sp := { epp.spool with pos := 0, readblock := blockNone }
  let (ucp, mem, sp) ← putStrings cfg σ l.topp "exec spool arg length" "exec spool arg terminator"
    epp.argc l.argp l.ucp mem sp
  let mem := putWord mem (l.argp + epp.argc * nbpw) 0
  let (ucp, mem, sp) ← putStrings cfg σ l.topp "exec spool env length" "exec spool env terminator"
    epp.envc l.envp ucp mem sp
  let mem := putWord mem (l.envp + epp.envc * nbpw) 0
  if roundUp nbpw ucp + l.pad ≠ l.topp then .error (.panic "exec check")
  else if sp.pos ≠ sp.size then .error (.panic "exec spool trailing data")
  else pure {
    mem := mem
    tf_sp := l.argp - frameSize
    tf_r0 := epp.argc
    u_rval := epp.argc
    tf_r1 := l.argp
    tf_r2 := l.envp
    tf_lr := 0xffffffff
    tf_psr := 0x01000000
    tf_pc := entryaddr
    u_comm := if epp.argc ≠ 0 then some (copystr mem maxcomlen (wordAt mem l.argp)) else none }

/-! ## Placing strings -/

/-- The strings lie one after the other from `ucp` on, and the words from `vec` on point to them. -/
def Placed (mem : Nat → UInt8) : Nat → Nat → List (List UInt8) → Prop
  | _, _, [] => True
  | vec, ucp, s :: strs =>
    wordAt mem vec = ucp ∧ readAt mem ucp (s.length + 1) = terminated s ∧
      Placed mem (vec + nbpw) (ucp + (s.length + 1)) strs

/-- Memory that is the same outside two ranges. -/
def SameBut (e f : Extent) (m m' : Nat → UInt8) : Prop :=
  ∀ x, (x < e.off ∨ e.off + e.size ≤ x) → (x < f.off ∨ f.off + f.size ≤ x) → m' x = m x

theorem Placed.congr {mem mem' : Nat → UInt8} {vec ucp : Nat} {strs : List (List UInt8)}
    (h : Placed mem vec ucp strs) (hvec : Same ⟨vec, nbpw * strs.length⟩ mem mem')
    (hstr : Same ⟨ucp, (stringBytes strs).length⟩ mem mem') : Placed mem' vec ucp strs := by
  induction strs generalizing vec ucp with
  | nil => trivial
  | cons s strs ih =>
    have hw : nbpw = 4 := rfl
    have hlen : (stringBytes (s :: strs)).length = s.length + 1 + (stringBytes strs).length := by
      rw [stringBytes_cons, List.length_append, terminated_length]
    rw [List.length_cons, Nat.mul_succ] at hvec
    rw [hlen] at hstr
    refine ⟨?_, ?_, ih h.2.2 ?_ ?_⟩
    · rw [wordAt_congr hvec (Nat.le_refl _) (by simp only []; lia)]
      exact h.1
    · rw [readAt_congr hstr (Nat.le_refl _) (by simp only []; lia)]
      exact h.2.1
    · intro x hlow hhigh
      simp only [] at hlow hhigh
      exact hvec x (by simp only []; lia) (by simp only []; lia)
    · intro x hlow hhigh
      simp only [] at hlow hhigh
      exact hstr x (by simp only []; lia) (by simp only []; lia)

section
variable {cfg : Conf} {σ : Kernel} {bs : List UInt8}

/-- **The loop reads the records back and places their strings.** -/
theorem putStrings_placed {topp : Nat} {msg msg' : String} {strs : List (List UInt8)} {vec ucp : Nat}
    {mem : Nat → UInt8} {sp : ExecSpool} {rest : List UInt8} (h : Reading cfg σ sp bs)
    (hbs : bs.drop sp.pos = records strs ++ rest) (htop : ucp + (stringBytes strs).length ≤ topp)
    (hword : topp < 2 ^ 32) (hvec : vec + nbpw * strs.length ≤ ucp)
    (hshort : (stringBytes strs).length < 2 ^ 16) :
    ∃ mem' sp', putStrings cfg σ topp msg msg' strs.length vec ucp mem sp =
        .ok (ucp + (stringBytes strs).length, mem', sp') ∧ Reading cfg σ sp' bs ∧
      sp'.pos = sp.pos + (records strs).length ∧ bs.drop sp'.pos = rest ∧ sp'.size = sp.size ∧
      Placed mem' vec ucp strs ∧
      SameBut ⟨vec, nbpw * strs.length⟩ ⟨ucp, (stringBytes strs).length⟩ mem mem' := by
  induction strs generalizing vec ucp mem sp with
  | nil => exact ⟨mem, sp, rfl, h, rfl, hbs, rfl, trivial, fun _ _ _ => rfl⟩
  | cons s strs ih =>
    have hw : nbpw = 4 := rfl
    have hlen : (stringBytes (s :: strs)).length = s.length + 1 + (stringBytes strs).length := by
      rw [stringBytes_cons, List.length_append, terminated_length]
    have hrec : (records (s :: strs)).length = 2 + (s.length + 1) + (records strs).length := by
      rw [records_cons, List.length_append, record_length]
    rw [hlen] at htop hshort
    rw [List.length_cons, Nat.mul_succ] at hvec
    -- The record is in the spool: its length and then its string.
    have hsize : sp.pos + (records (s :: strs)).length ≤ sp.size := by
      have hcount := congrArg List.length hbs
      rw [List.length_drop, h.complete.len, List.length_append] at hcount
      have hle := h.pos_le
      lia
    obtain ⟨sp₁, hread₁, hr₁, hpos₁, hplace₁⟩ := execSpoolRead_reading h (show sp.pos + 2 ≤ sp.size by lia)
    have hword₁ : (bs.drop sp.pos).take 2 = leBytes 2 (s.length + 1) := by
      rw [hbs, records_cons, record, List.append_assoc, List.append_assoc, List.take_left' (by simp)]
    have hsize₁ : sp₁.size = sp.size := congrArg (·.2.1) hplace₁
    have hdrop₁ : bs.drop sp₁.pos = terminated s ++ (records strs ++ rest) := by
      rw [hpos₁, ← List.drop_drop, hbs, records_cons, record, List.append_assoc, List.append_assoc,
        List.drop_left' (by simp)]
    obtain ⟨sp₂, hread₂, hr₂, hpos₂, hplace₂⟩ := execSpoolRead_reading hr₁
      (show sp₁.pos + (s.length + 1) ≤ sp₁.size by lia)
    have hsize₂ : sp₂.size = sp.size := (congrArg (·.2.1) hplace₂).trans hsize₁
    rw [hdrop₁, List.take_left' (by simp)] at hread₂
    have hdrop₂ : bs.drop sp₂.pos = records strs ++ rest := by
      rw [hpos₂, ← List.drop_drop, hdrop₁, List.drop_left' (by simp)]
    obtain ⟨mem₁, hmem₁⟩ : ∃ m, m = writeAt (putWord mem vec ucp) ucp (terminated s) := ⟨_, rfl⟩
    obtain ⟨mem', sp', hloop, hr', hpos', hdrop', hsize', hplaced, hsame⟩ := @ih (vec + nbpw)
      (ucp + (s.length + 1)) mem₁ sp₂ hr₂ hdrop₂ (by lia) (by lia) (by lia)
    -- What the rest of the loop writes is behind this pointer and behind this string.
    have hvec' : wordAt mem' vec = ucp := by
      have hkeep : Same ⟨vec, 4⟩ mem₁ mem' := by
        intro x hlow hhigh
        simp only [] at hlow hhigh
        exact hsame x (.inl (by simp only []; lia)) (.inl (by simp only []; lia))
      have hput : Same ⟨vec, 4⟩ (putWord mem vec ucp) mem₁ := by
        rw [hmem₁]
        exact writeAt_same _ (.inr (by simp only []; lia))
      rw [wordAt_congr hkeep (Nat.le_refl _) (Nat.le_refl _), wordAt_congr hput (Nat.le_refl _) (Nat.le_refl _)]
      exact wordAt_putWord mem vec (by lia)
    have hstr' : readAt mem' ucp (s.length + 1) = terminated s := by
      have hkeep : Same ⟨ucp, s.length + 1⟩ mem₁ mem' := by
        intro x hlow hhigh
        simp only [] at hlow hhigh
        exact hsame x (.inr (by simp only []; lia)) (.inl (by simp only []; lia))
      rw [readAt_congr hkeep (Nat.le_refl _) (Nat.le_refl _), hmem₁]
      have hback := readAt_writeAt (putWord mem vec ucp) ucp (terminated s)
      rw [terminated_length] at hback
      exact hback
    have hnul : mem₁ (ucp + (s.length + 1 - 1)) = 0 := by
      rw [hmem₁, writeAt, if_pos (Nat.le_add_right _ _), Nat.add_sub_cancel_left, terminated,
        List.getElem?_append_right (by lia)]
      simp
    refine ⟨mem', sp', ?_, hr', ?_, hdrop', hsize'.trans hsize₂, ⟨hvec', hstr', hplaced⟩, ?_⟩
    · have hnum : leNat (leBytes 2 (s.length + 1)) = s.length + 1 := leNat_leBytes (by lia)
      have hspace : ¬(s.length + 1 = 0 ∨ wrap 32 (topp + 2 ^ 32 - ucp) < s.length + 1) := by
        unfold wrap
        lia
      simp only [List.length_cons, putStrings, hread₁, hword₁, bind, Except.bind, hnum, if_neg hspace, hread₂,
        ← hmem₁, hnul]
      rw [if_neg (fun hne => hne rfl), hloop, hlen, Nat.add_assoc]
    · rw [hpos', hpos₂, hpos₁, hrec]
      lia
    · intro x he hf
      rw [hlen] at hf
      rw [List.length_cons, Nat.mul_succ] at he
      simp only [] at he hf
      rw [hsame x (by simp only []; lia) (by simp only []; lia), hmem₁]
      have hone : Same ⟨x, 1⟩ mem (putWord mem vec ucp) := putWord_same mem ucp (by simp only []; lia)
      have htwo : Same ⟨x, 1⟩ (putWord mem vec ucp) (writeAt (putWord mem vec ucp) ucp (terminated s)) :=
        writeAt_same _ (by rw [terminated_length]; simp only []; lia)
      rw [htwo x (Nat.le_refl _) (Nat.lt_succ_self _), hone x (Nat.le_refl _) (Nat.lt_succ_self _)]

end

/-! ## Addresses -/

/-- Everything has its place under the top, and the top is the stack's end. -/
structure LaidOut (epp : ExecArgs) (lo hi : Nat) (l : Layout) : Prop where
  top : l.topp + nbpw = hi
  strings : l.ucp + roundUp nbpw (epp.argbc + epp.envbc) + l.pad = l.topp
  envs : l.envp + nbpw * (epp.envc + 1) = l.ucp
  args : l.argp + nbpw * (epp.argc + 1) = l.envp
  low : lo + ssize ≤ l.argp
  aligned : stackalign ∣ l.argp
  words : nbpw ∣ l.ucp
  pad : nbpw ∣ l.pad

theorem stackLayout_laidOut {epp : ExecArgs} {vaddr hi : Nat} (hhi : vaddr + stackLen epp = hi)
    (h8 : stackalign ∣ hi) : LaidOut epp vaddr hi (stackLayout epp vaddr) := by
  have hcomm : epp.envbc + epp.argbc = epp.argbc + epp.envbc := Nat.add_comm _ _
  obtain ⟨n, hn⟩ := dvd_roundUp nbpw (epp.argbc + epp.envbc)
  have hlen : stackLen epp = ssize + nbpw * n + (epp.argc + epp.envc + 4) * nbpw := by
    rw [stackLen, hn]
  obtain ⟨m, hm⟩ := h8
  have hw : nbpw = 4 := rfl
  have hs : ssize = 2048 := rfl
  have ha : stackalign = 8 := rfl
  rw [ha] at hm
  rw [hw, hs] at hlen
  -- `argv` ends up on a word boundary before the padding, and on a double word after it.
  obtain ⟨base, hbase, hlow⟩ : ∃ b, b + (epp.argc + 1) * 4 + (epp.envc + 1) * 4 + 4 * n + 4 = hi ∧
      vaddr + 2048 + 4 ≤ b := ⟨vaddr + 2048 + 4, by lia, Nat.le_refl _⟩
  obtain ⟨pad, hpad⟩ : ∃ p, p = if base % 8 ≠ 0 then 4 else 0 := ⟨_, rfl⟩
  have hlay : stackLayout epp vaddr = ⟨base + (epp.argc + 1) * 4 + (epp.envc + 1) * 4 + 4 * n,
      base + (epp.argc + 1) * 4 + (epp.envc + 1) * 4 - pad, base + (epp.argc + 1) * 4 - pad, base - pad, pad⟩ := by
    have hround : roundUp 4 (epp.argbc + epp.envbc) = 4 * n := hn
    simp only [stackLayout, hcomm, hhi, ← hbase, hw, ha, hround, hpad, Nat.add_sub_cancel,
      show (8 : Nat) - 1 = 2 ^ 3 - 1 from rfl, and_sub_one_eq_mod]
    rfl
  have hpad' : pad = 0 ∧ base % 8 = 0 ∨ pad = 4 ∧ base % 8 ≠ 0 := by
    rw [hpad]
    split
    · rename_i hne
      exact .inr ⟨rfl, hne⟩
    · rename_i heq
      exact .inl ⟨rfl, not_not.mp heq⟩
  rw [hlay]
  clear hlay hlen hpad hhi
  refine ⟨?_, ?_, ?_, ?_, ?_, ?_, ?_, ?_⟩
  · simp only [hw]
    lia
  · simp only [hn]
    simp only [hw]
    lia
  · simp only [hw]
    lia
  · simp only [hw]
    lia
  · simp only [hs]
    lia
  · simp only [ha]
    lia
  · simp only [hw]
    lia
  · simp only [hw]
    lia

/-! ## The finished stack -/

/-- The words from `v` on point to the strings, and a null pointer ends them. -/
def Leads (mem : Nat → UInt8) : Nat → List (List UInt8) → Prop
  | v, [] => wordAt mem v = 0
  | v, s :: strs =>
    wordAt mem v ≠ 0 ∧ readAt mem (wordAt mem v) (s.length + 1) = terminated s ∧ Leads mem (v + nbpw) strs

/-- Where the strings are that the words from `v` on point to. -/
def pointees (mem : Nat → UInt8) : Nat → List (List UInt8) → List Extent
  | _, [] => []
  | v, s :: strs => ⟨wordAt mem v, s.length + 1⟩ :: pointees mem (v + nbpw) strs

/-- The extents are between `lo` and `hi`, each behind the one before. -/
def InOrder : Nat → List Extent → Nat → Prop
  | lo, [], hi => lo ≤ hi
  | lo, e :: es, hi => lo ≤ e.off ∧ InOrder (e.off + e.size) es hi

/-- The stack between `lo` and `hi` and the registers carry the arguments: `argc`, the two vectors and
    the strings they lead to. Frame, vectors and strings are apart and inside, and the stack pointer is
    aligned. -/
structure Carries (img : Image) (lo hi : Nat) (args envs : List (List UInt8)) : Prop where
  argc : img.tf_r0 = args.length ∧ img.u_rval = args.length
  argv : Leads img.mem img.tf_r1 args
  envp : Leads img.mem img.tf_r2 envs
  inside : InOrder lo (⟨img.tf_sp, frameSize⟩ :: ⟨img.tf_r1, nbpw * (args.length + 1)⟩ ::
    ⟨img.tf_r2, nbpw * (envs.length + 1)⟩ :: (pointees img.mem img.tf_r1 args ++
      pointees img.mem img.tf_r2 envs)) hi
  aligned : stackalign ∣ img.tf_sp

section
variable {mem : Nat → UInt8} {vec ucp : Nat} {strs : List (List UInt8)}

theorem Placed.leads (h : Placed mem vec ucp strs) (hne : ucp ≠ 0)
    (hend : wordAt mem (vec + nbpw * strs.length) = 0) : Leads mem vec strs := by
  induction strs generalizing vec ucp with
  | nil => exact hend
  | cons s strs ih =>
    refine ⟨by rw [h.1]; exact hne, by rw [h.1]; exact h.2.1, ih h.2.2 (by lia) ?_⟩
    rw [List.length_cons, Nat.mul_succ] at hend
    rw [← hend]
    congr 1
    lia

theorem Placed.inOrder {es : List Extent} {hi : Nat} (h : Placed mem vec ucp strs)
    (hes : InOrder (ucp + (stringBytes strs).length) es hi) : InOrder ucp (pointees mem vec strs ++ es) hi := by
  induction strs generalizing vec ucp with
  | nil => exact hes
  | cons s strs ih =>
    rw [stringBytes_cons, List.length_append, terminated_length, ← Nat.add_assoc] at hes
    refine ⟨Nat.le_of_eq h.1.symm, ?_⟩
    rw [h.1]
    exact ih h.2.2 hes

end

/-- **Both vectors and their strings stay where they were put**: each write behind the first vector is
    in the second's place or ends a vector. -/
theorem Placed.both {mem₁ mem₂ mem₃ mem₄ : Nat → UInt8} {argp envp ucp : Nat} {args envs : List (List UInt8)}
    (harg : argp + (nbpw * args.length + 4) = envp) (henv : envp + (nbpw * envs.length + 4) = ucp)
    (hplaced₁ : Placed mem₁ argp ucp args) (hmem₂ : mem₂ = putWord mem₁ (argp + nbpw * args.length) 0)
    (hplaced₃ : Placed mem₃ envp (ucp + (stringBytes args).length) envs)
    (hsame₃ : SameBut ⟨envp, nbpw * envs.length⟩ ⟨ucp + (stringBytes args).length, (stringBytes envs).length⟩ mem₂ mem₃)
    (hmem₄ : mem₄ = putWord mem₃ (envp + nbpw * envs.length) 0) :
    Placed mem₄ argp ucp args ∧ wordAt mem₄ (argp + nbpw * args.length) = 0 ∧
      Placed mem₄ envp (ucp + (stringBytes args).length) envs ∧ wordAt mem₄ (envp + nbpw * envs.length) = 0 := by
  have hkeep₂ : ∀ e : Extent, e.off + e.size ≤ argp + nbpw * args.length ∨ envp ≤ e.off →
      Same e mem₁ mem₂ := by
    intro e he
    rw [hmem₂]
    exact putWord_same mem₁ 0 (by lia)
  have hkeep₃ : ∀ e : Extent, e.off + e.size ≤ envp ∨
      (ucp ≤ e.off ∧ e.off + e.size ≤ ucp + (stringBytes args).length) → Same e mem₂ mem₃ := by
    intro e he x hlo hhi'
    exact hsame₃ x (by simp only []; lia) (by simp only []; lia)
  have hkeep₄ : ∀ e : Extent, e.off + e.size ≤ envp + nbpw * envs.length ∨ ucp ≤ e.off →
      Same e mem₃ mem₄ := by
    intro e he
    rw [hmem₄]
    exact putWord_same mem₃ 0 (by lia)
  have hargs : Placed mem₄ argp ucp args := by
    have hp₂ := hplaced₁.congr (hkeep₂ ⟨argp, nbpw * args.length⟩ (.inl (Nat.le_refl _)))
      (hkeep₂ ⟨ucp, (stringBytes args).length⟩ (.inr (by simp only []; lia)))
    have hp₃ := hp₂.congr (hkeep₃ ⟨argp, nbpw * args.length⟩ (.inl (by simp only []; lia)))
      (hkeep₃ ⟨ucp, (stringBytes args).length⟩ (.inr ⟨Nat.le_refl _, Nat.le_refl _⟩))
    exact hp₃.congr (hkeep₄ ⟨argp, nbpw * args.length⟩ (.inl (by simp only []; lia)))
      (hkeep₄ ⟨ucp, (stringBytes args).length⟩ (.inr (Nat.le_refl _)))
  have henvs : Placed mem₄ envp (ucp + (stringBytes args).length) envs :=
    hplaced₃.congr (hkeep₄ ⟨envp, nbpw * envs.length⟩ (.inl (Nat.le_refl _)))
      (hkeep₄ ⟨ucp + (stringBytes args).length, (stringBytes envs).length⟩
        (.inr (Nat.le_add_right _ _)))
  have hargnull : wordAt mem₄ (argp + nbpw * args.length) = 0 := by
    rw [wordAt_congr (hkeep₄ ⟨argp + nbpw * args.length, 4⟩ (.inl (by simp only []; lia)))
      (Nat.le_refl _) (Nat.le_refl _), wordAt_congr (hkeep₃ ⟨argp + nbpw * args.length, 4⟩
        (.inl (by simp only []; lia))) (Nat.le_refl _) (Nat.le_refl _), hmem₂]
    exact wordAt_putWord mem₁ _ (by decide)
  have henvnull : wordAt mem₄ (envp + nbpw * envs.length) = 0 := by
    rw [hmem₄]
    exact wordAt_putWord mem₃ _ (by decide)
  exact ⟨hargs, hargnull, henvs, henvnull⟩

section
variable {cfg : Conf} {σ : Kernel} {epp : ExecArgs} {args envs : List (List UInt8)}

/-- A saved spool, read from its start. -/
theorem Saved.reading (h : Saved cfg σ epp args envs) :
    Reading cfg σ { epp.spool with pos := 0, readblock := blockNone } (records (args ++ envs)) := by
  have hc := h.intact.complete
  refine ⟨⟨hc.len, hc.none, hc.ram, hc.flash⟩, ?_, Nat.zero_le _, .inl rfl⟩
  have h1 := length_le_stringBytes args
  have h2 := length_le_stringBytes envs
  have hle := h.le
  have hlen := hc.len
  rw [records_append, List.length_append, records_length, records_length] at hlen
  simp only [spoolMax, blockNone, maxbsize]
  unfold ncargs at hle
  lia

/-- The saved arguments in the layout: the vectors end with a null pointer each, and the strings end less than
    a word below `topp`, so the check sees what it wants to see. -/
theorem Saved.fits {lo hi : Nat} {l : Layout} (h : Saved cfg σ epp args envs) (hl : LaidOut epp lo hi l) :
    l.argp + (nbpw * args.length + 4) = l.envp ∧ l.envp + (nbpw * envs.length + 4) = l.ucp ∧
      l.ucp + ((stringBytes args).length + (stringBytes envs).length) ≤ l.topp ∧
      roundUp nbpw (l.ucp + (stringBytes args).length + (stringBytes envs).length) + l.pad = l.topp ∧
      (stringBytes args).length < 2 ^ 16 ∧ (stringBytes envs).length < 2 ^ 16 := by
  have hstrings := hl.strings
  have henv := hl.envs
  have harg := hl.args
  rw [h.argbc, h.envbc] at hstrings
  rw [h.envc] at henv
  rw [h.argc] at harg
  have hle := h.le
  unfold ncargs at hle
  have hround := le_roundUp (show 0 < nbpw by decide) ((stringBytes args).length + (stringBytes envs).length)
  refine ⟨harg, henv, by lia, ?_, by lia, by lia⟩
  obtain ⟨k, hk⟩ := hl.words
  have hw : nbpw = 4 := rfl
  rw [roundUp, hw] at hstrings ⊢
  rw [hw] at hk
  clear hround henv harg
  lia

/-- **`exec_setupstack` builds the stack for the saved arguments.** -/
theorem execSetupstack_carries {hi vaddr entry : Nat} (mem : Nat → UInt8) (h : Saved cfg σ epp args envs)
    (hhi : vaddr + stackLen epp = hi) (h8 : stackalign ∣ hi) (hword : hi < 2 ^ 32) :
    ∃ img, execSetupstack cfg σ epp vaddr mem entry = .ok img ∧ Carries img vaddr hi args envs := by
  have hl := stackLayout_laidOut hhi h8
  obtain ⟨l, hdef⟩ : ∃ l, l = stackLayout epp vaddr := ⟨_, rfl⟩
  rw [← hdef] at hl
  obtain ⟨harg, henv, hfits, hcheck, hargs16, henvs16⟩ := h.fits hl
  have hw : nbpw = 4 := rfl
  have htop := hl.top
  have hlow := hl.low
  unfold ssize at hlow
  obtain ⟨mem₀, hmem₀⟩ : ∃ m, m = putWord mem l.topp l.argp := ⟨_, rfl⟩
  -- The arguments, their null pointer, the environment, its null pointer.
  obtain ⟨mem₁, sp₁, hput₁, hr₁, hpos₁, hdrop₁, hsize₁, hplaced₁, hsame₁⟩ := @putStrings_placed cfg σ
    (records (args ++ envs)) l.topp "exec spool arg length" "exec spool arg terminator" args l.argp l.ucp
    mem₀ _ (records envs) h.reading (records_append args envs) (by lia) (by lia) (by lia) (by lia)
  obtain ⟨mem₂, hmem₂⟩ : ∃ m, m = putWord mem₁ (l.argp + epp.argc * nbpw) 0 := ⟨_, rfl⟩
  obtain ⟨mem₃, sp₃, hput₃, hr₃, hpos₃, hdrop₃, hsize₃, hplaced₃, hsame₃⟩ := @putStrings_placed cfg σ
    (records (args ++ envs)) l.topp "exec spool env length" "exec spool env terminator" envs l.envp
    (l.ucp + (stringBytes args).length) mem₂ sp₁ [] hr₁ (by rw [List.append_nil]; exact hdrop₁) (by lia)
    (by lia) (by lia) (by lia)
  obtain ⟨mem₄, hmem₄⟩ : ∃ m, m = putWord mem₃ (l.envp + epp.envc * nbpw) 0 := ⟨_, rfl⟩
  have hnull₂ : l.argp + epp.argc * nbpw = l.argp + nbpw * args.length := by
    rw [h.argc, Nat.mul_comm]
  have hnull₄ : l.envp + epp.envc * nbpw = l.envp + nbpw * envs.length := by
    rw [h.envc, Nat.mul_comm]
  rw [hnull₂] at hmem₂
  rw [hnull₄] at hmem₄
  obtain ⟨hargs, hargnull, henvs, henvnull⟩ :=
    Placed.both (by lia) (by lia) hplaced₁ hmem₂ hplaced₃ hsame₃ hmem₄
  have hall : sp₃.pos = sp₃.size := by
    have hlen := h.intact.complete.len
    rw [records_append, List.length_append] at hlen
    have h3 : sp₃.pos = sp₁.pos + (records envs).length := hpos₃
    have h1 : sp₁.pos = 0 + (records args).length := hpos₁
    have hs : sp₃.size = epp.spool.size := hsize₃.trans hsize₁
    lia
  have hucp : l.ucp ≠ 0 := by lia
  have hrun : execSetupstack cfg σ epp vaddr mem entry = .ok
      ⟨mem₄, l.argp - frameSize, epp.argc, epp.argc, l.argp, l.envp, 0xffffffff, 0x01000000, entry,
        if epp.argc ≠ 0 then some (copystr mem₄ maxcomlen (wordAt mem₄ l.argp)) else none⟩ := by
    simp only [execSetupstack, ← hdef, ← hmem₀, h.argc, h.envc, hput₁, bind, Except.bind,
      Nat.mul_comm _ nbpw, ← hmem₂, hput₃, ← hmem₄, hcheck, hall]
    rw [if_neg (fun hne => hne rfl), if_neg (fun hne => hne rfl)]
    rfl
  refine ⟨_, hrun, ⟨⟨h.argc, h.argc⟩, hargs.leads hucp hargnull, henvs.leads (by lia) henvnull, ?_, ?_⟩⟩
  · have hsp : l.argp - frameSize + frameSize = l.argp := by
      unfold frameSize
      lia
    refine ⟨?_, Nat.le_of_eq hsp, ?_, ?_⟩
    · simp only [frameSize]
      lia
    · simp only [Nat.mul_succ]
      lia
    · have hend : InOrder (l.ucp + (stringBytes args).length + (stringBytes envs).length) [] hi := by
        show _ ≤ hi
        lia
      have hbehind := henvs.inOrder hend
      rw [List.append_nil] at hbehind
      have hfrom := hargs.inOrder hbehind
      have hedge : l.envp + nbpw * (envs.length + 1) = l.ucp := by
        rw [Nat.mul_succ]
        lia
      simp only [hedge]
      exact hfrom
  · have hal := hl.aligned
    exact Nat.dvd_sub hal (by decide)

end

end DiscoBSD.Exec
