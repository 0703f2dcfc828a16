import DiscoBSD.Text.State

/-!
# References to inodes

What a process and an entry of the file table add to the count of an inode. **A count is right again after each
step**, and an inode whose count has gone to zero is one that no process needs.
-/

set_option autoImplicit false
set_option linter.unusedSectionVars false

namespace DiscoBSD.Text

open DiscoBSD.Lib
open Function (update)

variable {π φ ι γ : Type} [DecidableEq π] [DecidableEq φ] [DecidableEq ι] [Fintype π] [Fintype φ]

def Phase.refs (ip : ι) : Phase ι → ℕ
  | .exec i (.releasing old _) => same (some i) ip + same (some old) ip
  | .exec i _ => same (some i) ip
  | .exiting old => same (some old) ip
  | _ => 0

def Proc.refs (x : Proc ι γ) (ip : ι) : ℕ := same x.p_tip ip + x.phase.refs ip

def fileRefs (ip : ι) : Option (File ι) → ℕ
  | none => 0
  | some file => same (some file.f_data) ip

def Kernel.refs (k : Kernel π φ ι γ) (ip : ι) : ℕ :=
  ∑ p, (k.proc p).refs ip + ∑ f, fileRefs ip (k.file f) + k.others ip

def Kernel.Balanced (k : Kernel π φ ι γ) : Prop := ∀ ip, k.i_count ip = k.refs ip

variable {k k' : Kernel π φ ι γ} {p q : π} {ip jp old : ι} {x : Proc ι γ}

/-- One process is changed. -/
theorem refs_proc (ip : ι) (hproc : k'.proc = update k.proc p x) (hfile : k'.file = k.file) :
    k'.refs ip + (k.proc p).refs ip + k.others ip = k.refs ip + x.refs ip + k'.others ip := by
  have hsum := sum_update (fun x : Proc ι γ => x.refs ip) k.proc p x
  unfold Kernel.refs
  rw [hproc, hfile]
  omega

/-- One entry of the file table is changed. -/
theorem refs_file (ip : ι) {f : φ} {file : Option (File ι)} (hproc : k'.proc = k.proc) (hfile : k'.file = update k.file f file) :
    k'.refs ip + fileRefs ip (k.file f) + k.others ip = k.refs ip + fileRefs ip file + k'.others ip := by
  have hsum := sum_update (fun o : Option (File ι) => fileRefs ip o) k.file f file
  unfold Kernel.refs
  rw [hproc, hfile]
  omega

theorem proc_refs_le (k : Kernel π φ ι γ) (p : π) (ip : ι) : (k.proc p).refs ip ≤ k.refs ip := by
  have hsum := le_sum (fun p => (k.proc p).refs ip) p
  unfold Kernel.refs
  omega

theorem others_le (k : Kernel π φ ι γ) (ip : ι) : k.others ip ≤ k.refs ip := Nat.le_add_left _ _

/-- A process in `execve` has a reference to the file. -/
theorem exec_refs {stage : Stage ι} (h : x.phase = .exec ip stage) : 1 ≤ x.refs ip := by
  unfold Proc.refs
  rw [h]
  cases stage <;> simp only [Phase.refs, same_self] <;> omega

/-- A process that has an inode's text, or is at it, has a reference. -/
theorem Proc.Uses.refs (h : x.Uses ip) : 1 ≤ x.refs ip := by
  unfold Proc.refs
  rcases h with h | h | ⟨old, h⟩ | ⟨new, text, h⟩ | h
  · rw [h, same_self]
    omega
  all_goals
    rw [h]
    simp only [Phase.refs, same_self]
    omega

/-- What nothing refers to, no process uses. -/
theorem Kernel.Balanced.idle (h : k.Balanced) (hzero : k.i_count ip = 0) (p : π) : ¬ (k.proc p).Uses ip := by
  intro huses
  have hone := huses.refs
  have hle := proc_refs_le k p ip
  rw [← h ip] at hle
  omega

/-- The flag has to stay: the process has the text or is about to. -/
def Proc.Needs (x : Proc ι γ) (ip : ι) : Prop :=
  x.p_tip = some ip ∨ x.phase = .exec ip .held ∨ ∃ old, x.phase = .exec ip (.releasing old true)

theorem Proc.Needs.uses (h : x.Needs ip) : x.Uses ip := by
  rcases h with h | h | h
  · exact .inl h
  · exact .inr (.inl h)
  · exact .inr (.inr (.inl h))

/-- One that does not have it yet is in its `execve`. -/
theorem Proc.Needs.cases (h : x.Needs ip) : x.p_tip = some ip ∨ ∃ stage, x.phase = .exec ip stage := by
  rcases h with h | h | ⟨old, h⟩
  · exact .inl h
  · exact .inr ⟨_, h⟩
  · exact .inr ⟨_, h⟩

/-! ## The primitives -/

theorem ref_count (k : Kernel π φ ι γ) (ip jp : ι) : (k.ref ip).i_count jp = k.i_count jp + same (some ip) jp := by
  by_cases h : jp = ip
  · subst h
    simp [Kernel.ref]
  · rw [same_of_ne (Ne.symm h)]
    simp [Kernel.ref, h]

theorem irele_count (k : Kernel π φ ι γ) (ip jp : ι) (h : 1 ≤ k.i_count ip) :
    (k.irele ip).i_count jp + same (some ip) jp = k.i_count jp := by
  by_cases heq : jp = ip
  · subst heq
    simp only [Kernel.irele, Function.update_self, same_self]
    omega
  · rw [same_of_ne (Ne.symm heq)]
    simp [Kernel.irele, heq]

/-- A flag that `irele` takes away is that of an inode nothing refers to. -/
theorem irele_itext (k : Kernel π φ ι γ) (ip jp : ι) :
    (k.irele ip).itext jp = k.itext jp ∨
      (jp = ip ∧ (k.irele ip).itext jp = false ∧ (k.irele ip).i_count jp = 0) := by
  unfold Kernel.irele
  by_cases hlast : k.i_count ip = 1
  · by_cases heq : jp = ip
    · subst heq
      right
      simp [hlast]
    · left
      simp [hlast, heq]
  · left
    simp [hlast]

@[simp] theorem unhold_i_count (k : Kernel π φ ι γ) (ip : ι) : (k.execTextUnhold ip).i_count = k.i_count := by
  unfold Kernel.execTextUnhold
  split_ifs <;> rfl

@[simp] theorem unhold_proc (k : Kernel π φ ι γ) (ip : ι) : (k.execTextUnhold ip).proc = k.proc := by
  unfold Kernel.execTextUnhold
  split_ifs <;> rfl

@[simp] theorem unhold_file (k : Kernel π φ ι γ) (ip : ι) : (k.execTextUnhold ip).file = k.file := by
  unfold Kernel.execTextUnhold
  split_ifs <;> rfl

@[simp] theorem unhold_others (k : Kernel π φ ι γ) (ip : ι) : (k.execTextUnhold ip).others = k.others := by
  unfold Kernel.execTextUnhold
  split_ifs <;> rfl

@[simp] theorem unhold_lock (k : Kernel π φ ι γ) (ip : ι) : (k.execTextUnhold ip).lock = k.lock := by
  unfold Kernel.execTextUnhold
  split_ifs <;> rfl

@[simp] theorem unhold_data (k : Kernel π φ ι γ) (ip : ι) : (k.execTextUnhold ip).data = k.data := by
  unfold Kernel.execTextUnhold
  split_ifs <;> rfl

/-- A flag that `exec_text_unhold` takes away is that of a file no process runs. -/
theorem unhold_itext (k : Kernel π φ ι γ) (ip jp : ι) :
    (k.execTextUnhold ip).itext jp = k.itext jp ∨
      (jp = ip ∧ ¬ k.Running ip ∧ (k.execTextUnhold ip).itext jp = false) := by
  unfold Kernel.execTextUnhold
  by_cases hrun : k.Running ip
  · left
    rw [if_pos hrun]
  · rw [if_neg hrun]
    by_cases heq : jp = ip
    · subst heq
      exact .inr ⟨rfl, hrun, Function.update_self _ _ _⟩
    · exact .inl (Function.update_of_ne heq _ _)

/-- And the flag of a file that stays is of one that a process runs. -/
theorem unhold_running (h : (k.execTextUnhold ip).itext ip = true) : k.Running ip := by
  by_contra hrun
  unfold Kernel.execTextUnhold at h
  rw [if_neg hrun] at h
  simp at h

/-! ## The end of `exec_text_release` -/

@[simp] theorem release_proc (k : Kernel π φ ι γ) (old : ι) : (k.release old).proc = k.proc := unhold_proc k old

@[simp] theorem release_file (k : Kernel π φ ι γ) (old : ι) : (k.release old).file = k.file := unhold_file k old

@[simp] theorem release_data (k : Kernel π φ ι γ) (old : ι) : (k.release old).data = k.data := unhold_data k old

@[simp] theorem release_others (k : Kernel π φ ι γ) (old : ι) : (k.release old).others = k.others :=
  unhold_others k old

@[simp] theorem release_lock (k : Kernel π φ ι γ) (old : ι) : (k.release old).lock = update k.lock old .free := by
  simp [Kernel.release, Kernel.iput, Kernel.irele, Kernel.unlock]

theorem release_count (k : Kernel π φ ι γ) (old jp : ι) (h : 1 ≤ k.i_count old) :
    (k.release old).i_count jp + same (some old) jp = k.i_count jp := by
  have hless := irele_count ((k.execTextUnhold old).unlock old) old jp (by simpa [Kernel.unlock] using h)
  rw [Kernel.release, Kernel.iput, hless]
  exact congrFun (unhold_i_count k old) jp

theorem release_itext (k : Kernel π φ ι γ) (old jp : ι) :
    (k.release old).itext jp = k.itext jp ∨
      jp = old ∧ (k.release old).itext jp = false ∧ ((k.release old).i_count jp = 0 ∨ ¬ k.Running old) := by
  rcases irele_itext ((k.execTextUnhold old).unlock old) old jp with hsame | ⟨heq, hclear, hzero⟩
  · rcases unhold_itext k old jp with hsame' | ⟨heq, hrun, hclear⟩
    · exact .inl (hsame.trans hsame')
    · exact .inr ⟨heq, hsame.trans hclear, .inr hrun⟩
  · exact .inr ⟨heq, hclear, .inl hzero⟩

theorem release_running (h : (k.release old).itext old = true) : k.Running old := by
  rcases irele_itext ((k.execTextUnhold old).unlock old) old old with hsame | ⟨-, hclear, -⟩
  · exact unhold_running (hsame.symm.trans h)
  · exact absurd (hclear.symm.trans h) (by decide)

end DiscoBSD.Text

/-!
# What keeps the text

The invariant, and what a step of one process or of the rest of the kernel has to show for it. **A process that waits to let go of a
text has its `p_tip` cleared but its reference kept**: until it has the lock the flag is its business.
-/

set_option autoImplicit false
set_option linter.unusedSectionVars false

namespace DiscoBSD.Text

open DiscoBSD.Lib
open Function (update)

variable {π φ ι γ : Type} [DecidableEq π] [DecidableEq φ] [DecidableEq ι] [Fintype π] [Fintype φ]

/-- What `p_tip` is in each phase. -/
def Proc.Tips (x : Proc ι γ) : Prop :=
  match x.phase with
  | .dead | .exiting _ | .exec _ (.releasing _ _) => x.p_tip = none
  | .exec ip (.loading text) => x.p_tip = if text then some ip else none
  | _ => True

/-- What holds between the steps. -/
structure Kernel.Inv (k : Kernel π φ ι γ) : Prop where
  balanced : k.Balanced
  other : ∀ ip, k.lock ip = .other → 1 ≤ k.others ip
  held : ∀ p ip stage, (k.proc p).phase = .exec ip stage → k.lock ip = .held p
  needs : ∀ p ip, (k.proc p).Needs ip → k.itext ip = true
  unwritten : ∀ ip, k.itext ip = true → ¬ k.Writing ip
  cleared : ∀ ip, k.itext ip = true → ∃ p, (k.proc p).Uses ip
  tips : ∀ p, (k.proc p).Tips
  mapped : ∀ p d, (k.proc p).mapped = some d → ∃ ip, (k.proc p).p_tip = some ip ∧ k.data ip = d

variable {k k' : Kernel π φ ι γ} {p q : π} {ip jp old : ι} {x : Proc ι γ}

theorem Kernel.Inv.guarded (h : k.Inv) : k.Guarded where
  running := by
    rintro ip ⟨p, hp⟩
    exact h.needs p ip (.inl hp)
  unwritten := h.unwritten
  cleared := h.cleared
  restored := by
    intro p ip d hp hd
    obtain ⟨ip', hp', hdata⟩ := h.mapped p d hd
    rw [hp] at hp'
    cases hp'
    exact hdata

/-! ## A process moves -/

/-- What one process has to show when it alone moves. -/
structure Moves (k k' : Kernel π φ ι γ) (p : π) (x : Proc ι γ) : Prop where
  proc : k'.proc = update k.proc p x
  file : k'.file = k.file
  data : k'.data = k.data
  balanced : k'.Balanced
  other : ∀ ip, k'.lock ip = .other → 1 ≤ k'.others ip
  locked : ∀ q, q ≠ p → ∀ ip stage, (k.proc q).phase = .exec ip stage → k'.lock ip = .held q
  held : ∀ ip stage, x.phase = .exec ip stage → k'.lock ip = .held p
  kept : ∀ q, q ≠ p → ∀ ip, (k.proc q).Needs ip → k'.itext ip = true
  needs : ∀ ip, x.Needs ip → k'.itext ip = true
  unwritten : ∀ ip, k'.itext ip = true → k.itext ip = true ∨ ¬ k.Writing ip
  cleared : ∀ ip, k'.itext ip = true → x.Uses ip ∨ (k.itext ip = true ∧ ((k.proc p).Uses ip →
    ∃ q, q ≠ p ∧ (k.proc q).Uses ip))
  tips : x.Tips
  mapped : ∀ d, x.mapped = some d → ∃ ip, x.p_tip = some ip ∧ k.data ip = d

theorem Moves.inv (hm : Moves k k' p x) (h : k.Inv) : k'.Inv := by
  have hself : k'.proc p = x := by rw [hm.proc, Function.update_self]
  have hrest : ∀ q, q ≠ p → k'.proc q = k.proc q := fun q hq => by rw [hm.proc, Function.update_of_ne hq]
  have hwriting : ∀ ip, k'.Writing ip ↔ k.Writing ip := fun ip => by
    unfold Kernel.Writing
    rw [hm.file]
  refine ⟨hm.balanced, hm.other, ?_, ?_, ?_, ?_, ?_, ?_⟩
  · intro q ip stage hphase
    by_cases hq : q = p
    · subst hq
      exact hm.held ip stage (by rwa [hself] at hphase)
    · exact hm.locked q hq ip stage (by rwa [hrest q hq] at hphase)
  · intro q ip hneeds
    by_cases hq : q = p
    · subst hq
      exact hm.needs ip (by rwa [hself] at hneeds)
    · exact hm.kept q hq ip (by rwa [hrest q hq] at hneeds)
  · intro ip htext
    rw [hwriting]
    rcases hm.unwritten ip htext with hold | hnot
    · exact h.unwritten ip hold
    · exact hnot
  · intro ip htext
    rcases hm.cleared ip htext with huses | ⟨hold, hother⟩
    · exact ⟨p, by rwa [hself]⟩
    · obtain ⟨q, hq⟩ := h.cleared ip hold
      by_cases heq : q = p
      · subst heq
        obtain ⟨r, hr, huses⟩ := hother hq
        exact ⟨r, by rwa [hrest r hr]⟩
      · exact ⟨q, by rwa [hrest q heq]⟩
  · intro q
    by_cases hq : q = p
    · subst hq
      rw [hself]
      exact hm.tips
    · rw [hrest q hq]
      exact h.tips q
  · intro q d hd
    rw [hm.data]
    by_cases hq : q = p
    · subst hq
      rw [hself] at hd ⊢
      exact hm.mapped d hd
    · rw [hrest q hq] at hd ⊢
      exact h.mapped q d hd

/-- Such a step changes no file. -/
theorem Moves.frozen (hm : Moves k k' p x) (h : k.Inv) : k.Frozen k' := by
  intro ip htext
  refine ⟨by rw [hm.data], ?_⟩
  have hwriting : k'.Writing ip ↔ k.Writing ip := by
    unfold Kernel.Writing
    rw [hm.file]
  rw [hwriting]
  exact h.unwritten ip htext

/-- Two processes do not have one inode locked. -/
theorem Kernel.Inv.ne_of_exec (h : k.Inv) {stage stage' : Stage ι} (hp : (k.proc p).phase = .exec ip stage)
    (hq : (k.proc q).phase = .exec jp stage') (hne : q ≠ p) : jp ≠ ip := by
  rintro rfl
  have hl := h.held p _ _ hp
  rw [h.held q _ _ hq] at hl
  cases hl
  exact hne rfl

/-- The count is right again if it changes as the process's references do. -/
theorem balanced_of_proc (h : k.Balanced) (hproc : k'.proc = update k.proc p x) (hfile : k'.file = k.file)
    (hcount : ∀ jp, k'.i_count jp + (k.proc p).refs jp + k.others jp =
      k.i_count jp + x.refs jp + k'.others jp) : k'.Balanced := by
  intro jp
  have hrefs := refs_proc jp hproc hfile
  have hold := h jp
  have hjp := hcount jp
  omega

theorem balanced_of_others (h : k.Balanced) (hproc : k'.proc = k.proc) (hfile : k'.file = k.file)
    (hcount : ∀ jp, k'.i_count jp + k.others jp = k.i_count jp + k'.others jp) : k'.Balanced := by
  intro jp
  have hold := h jp
  have hjp := hcount jp
  unfold Kernel.refs at hold ⊢
  rw [hproc, hfile]
  omega

theorem balanced_of_file {f : φ} {file : Option (File ι)} (h : k.Balanced) (hproc : k'.proc = k.proc)
    (hfile : k'.file = update k.file f file)
    (hcount : ∀ jp, k'.i_count jp + fileRefs jp (k.file f) + k.others jp =
      k.i_count jp + fileRefs jp file + k'.others jp) : k'.Balanced := by
  intro jp
  have hrefs := refs_file jp hproc hfile
  have hold := h jp
  have hjp := hcount jp
  omega

/-- A move that leaves the flags alone. -/
theorem Moves.quiet (h : k.Inv) (hproc : k'.proc = update k.proc p x) (hfile : k'.file = k.file)
    (hdata : k'.data = k.data) (htext : k'.itext = k.itext) (hlock : k'.lock = k.lock) (hothers : k'.others = k.others)
    (hcount : ∀ jp, k'.i_count jp + (k.proc p).refs jp = k.i_count jp + x.refs jp)
    (hphase : ∀ jp stage, x.phase = .exec jp stage → ∃ stage', (k.proc p).phase = .exec jp stage')
    (hneeds : ∀ jp, x.Needs jp → k.itext jp = true) (huses : ∀ jp, (k.proc p).Uses jp → x.Uses jp)
    (htips : x.Tips) (hmapped : ∀ d, x.mapped = some d → ∃ jp, x.p_tip = some jp ∧ k.data jp = d) :
    Moves k k' p x where
  proc := hproc
  file := hfile
  data := hdata
  balanced := balanced_of_proc h.balanced hproc hfile fun jp => by
    rw [hothers]
    have hjp := hcount jp
    omega
  other := by
    rw [hlock, hothers]
    exact h.other
  locked := fun q _ jp stage hq => by
    rw [hlock]
    exact h.held q jp stage hq
  held := fun jp stage hx => by
    obtain ⟨stage', hp⟩ := hphase jp stage hx
    rw [hlock]
    exact h.held p jp stage' hp
  kept := fun q _ jp hq => by
    rw [htext]
    exact h.needs q jp hq
  needs := fun jp hx => by
    rw [htext]
    exact hneeds jp hx
  unwritten := fun jp hjp => .inl (by rwa [htext] at hjp)
  cleared := fun jp hjp => by
    rw [htext] at hjp
    by_cases hp : (k.proc p).Uses jp
    · exact .inl (huses jp hp)
    · exact .inr ⟨hjp, fun h => absurd h hp⟩
  tips := htips
  mapped := hmapped

/-- A move that may take flags away: of what nothing refers to any more, or of what no process runs and none has
    locked. -/
theorem Moves.drops (h : k.Inv) (hproc : k'.proc = update k.proc p x) (hfile : k'.file = k.file)
    (hdata : k'.data = k.data) (hothers : k'.others = k.others)
    (hcount : ∀ jp, k'.i_count jp + (k.proc p).refs jp = k.i_count jp + x.refs jp)
    (hfree : ∀ jp, k'.lock jp = .other → k.lock jp = .other)
    (hlocked : ∀ q, q ≠ p → ∀ jp, k.lock jp = .held q → k'.lock jp = .held q)
    (hheld : ∀ jp stage, x.phase = .exec jp stage → k'.lock jp = .held p)
    (htext : ∀ jp, k'.itext jp = k.itext jp ∨
      k'.itext jp = false ∧ (k'.i_count jp = 0 ∨ k.lock jp = .free ∧ ¬ k.Running jp))
    (hneeds : ∀ jp, x.Needs jp → (k.proc p).Needs jp)
    (huses : ∀ jp, k'.itext jp = true → (k.proc p).Uses jp → x.Uses jp ∨ ∃ q, q ≠ p ∧ (k.proc q).Uses jp)
    (htips : x.Tips) (hmapped : ∀ d, x.mapped = some d → ∃ jp, x.p_tip = some jp ∧ k.data jp = d) :
    Moves k k' p x := by
  have hbalanced : k'.Balanced := balanced_of_proc h.balanced hproc hfile fun jp => by
    rw [hothers]
    have hjp := hcount jp
    omega
  have hwas : ∀ jp, k'.itext jp = true → k.itext jp = true := by
    intro jp hjp
    rcases htext jp with hsame | ⟨hclear, -⟩
    · exact hsame.symm.trans hjp
    · exact absurd (hclear.symm.trans hjp) (by decide)
  have hstays : ∀ q jp, (k.proc q).Needs jp → (k'.proc q).Uses jp → k'.itext jp = true := by
    intro q jp hq hq'
    rcases htext jp with hsame | ⟨-, hzero | ⟨hopen, hrun⟩⟩
    · exact hsame.trans (h.needs q jp hq)
    · exact absurd hq' (hbalanced.idle hzero q)
    · rcases hq.cases with htip | ⟨stage, hexec⟩
      · exact absurd ⟨q, htip⟩ hrun
      · have hlock := h.held q jp stage hexec
        rw [hopen] at hlock
        cases hlock
  refine
    { proc := hproc, file := hfile, data := hdata, balanced := hbalanced, other := ?_,
      locked := fun q hq jp stage hexec => hlocked q hq jp (h.held q jp stage hexec), held := hheld, kept := ?_,
      needs := ?_, unwritten := fun jp hjp => .inl (hwas jp hjp), cleared := ?_, tips := htips, mapped := hmapped }
  · intro jp hjp
    rw [hothers]
    exact h.other jp (hfree jp hjp)
  · intro q hq jp hneed
    refine hstays q jp hneed ?_
    rw [hproc, Function.update_of_ne hq]
    exact hneed.uses
  · intro jp hx
    refine hstays p jp (hneeds jp hx) ?_
    rw [hproc, Function.update_self]
    exact hx.uses
  · intro jp hjp
    by_cases hp : (k.proc p).Uses jp
    · rcases huses jp hjp hp with hx | hothers
      · exact .inl hx
      · exact .inr ⟨hwas jp hjp, fun _ => hothers⟩
    · exact .inr ⟨hwas jp hjp, fun h => absurd h hp⟩

/-! ## The rest of the kernel -/

/-- What a step has to show that leaves the processes alone. A flag goes only with the inode's last reference. -/
structure Serves (k k' : Kernel π φ ι γ) : Prop where
  proc : k'.proc = k.proc
  balanced : k'.Balanced
  other : ∀ ip, k'.lock ip = .other → 1 ≤ k'.others ip
  locked : ∀ p ip stage, (k.proc p).phase = .exec ip stage → k'.lock ip = .held p
  itext : ∀ ip, k'.itext ip = k.itext ip ∨ k'.itext ip = false ∧ k'.i_count ip = 0
  data : ∀ ip, k.itext ip = true → k'.data ip = k.data ip
  unwritten : ∀ ip, k.itext ip = true → ¬ k'.Writing ip

theorem Serves.frozen (hs : Serves k k') : k.Frozen k' := fun ip hip => ⟨hs.data ip hip, hs.unwritten ip hip⟩

/-- Such a step sets no flag. -/
theorem Serves.was (hs : Serves k k') (htext : k'.itext ip = true) : k.itext ip = true := by
  rcases hs.itext ip with heq | ⟨hclear, -⟩
  · rwa [heq] at htext
  · rw [hclear] at htext
    cases htext

theorem Serves.inv (hs : Serves k k') (h : k.Inv) : k'.Inv := by
  refine ⟨hs.balanced, hs.other, ?_, ?_, ?_, ?_, ?_, ?_⟩
  · intro p ip stage hp
    rw [hs.proc] at hp
    exact hs.locked p ip stage hp
  · intro p ip hp
    rcases hs.itext ip with heq | ⟨-, hzero⟩
    · rw [hs.proc] at hp
      rw [heq]
      exact h.needs p ip hp
    · exact absurd hp.uses (hs.balanced.idle hzero p)
  · intro ip htext
    exact hs.unwritten ip (hs.was htext)
  · intro ip htext
    rw [hs.proc]
    exact h.cleared ip (hs.was htext)
  · rw [hs.proc]
    exact h.tips
  · intro p d hd
    rw [hs.proc] at hd ⊢
    obtain ⟨ip, hp, hdata⟩ := h.mapped p d hd
    refine ⟨ip, hp, ?_⟩
    rw [hs.data ip (h.needs p ip (.inl hp))]
    exact hdata

end DiscoBSD.Text
