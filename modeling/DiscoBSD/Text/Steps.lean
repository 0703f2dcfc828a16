import Mathlib
import DiscoBSD.Text.Inv

/-!
# The steps keep the text

One lemma for each way a step can go, and then every run. **What takes a flag away has the inode locked**, so no
process is on its way to that text, and either none runs it or nothing refers to the inode at all.
-/

set_option autoImplicit false
set_option linter.unusedSectionVars false

namespace DiscoBSD.Text

open DiscoBSD.Lib
open Function (update)

variable {π φ ι γ : Type} [DecidableEq π] [DecidableEq φ] [DecidableEq ι] [Fintype π] [Fintype φ]
variable {k k' : Kernel π φ ι γ} {p q : π} {ip jp old : ι} {x : Proc ι γ}

/-! ## `execve` up to its commitment -/

theorem exec_moves (h : k.Inv) (huser : (k.proc p).phase = .user) (hlock : k.lock ip = .other) :
    Moves k ({ k with lock := update k.lock ip (.held p), others := update k.others ip (k.others ip - 1) }.goes p
      (.exec ip .checking)) p { k.proc p with phase := .exec ip .checking } where
  proc := rfl
  file := rfl
  data := rfl
  balanced := balanced_of_proc h.balanced rfl rfl fun jp => by
    have hone := h.other ip hlock
    simp only [Kernel.goes, Kernel.set, Proc.refs, huser, Phase.refs]
    by_cases heq : jp = ip
    · subst heq
      rw [Function.update_self, same_self]
      omega
    · rw [Function.update_of_ne heq, same_of_ne (Ne.symm heq)]
  other := fun jp hjp => by
    simp only [Kernel.goes, Kernel.set] at hjp ⊢
    by_cases heq : jp = ip
    · subst heq
      rw [Function.update_self] at hjp
      cases hjp
    · rw [Function.update_of_ne heq] at hjp ⊢
      exact h.other jp hjp
  locked := fun q _ jp stage hq => by
    have hheld := h.held q jp stage hq
    have hne : jp ≠ ip := by
      rintro rfl
      rw [hlock] at hheld
      cases hheld
    exact (Function.update_of_ne hne _ _).trans hheld
  held := fun jp stage hx => by
    cases hx
    exact Function.update_self _ _ _
  kept := fun q _ => h.needs q
  needs := fun jp hx => h.needs p jp (by simpa [Proc.Needs, huser] using hx)
  unwritten := fun jp hjp => .inl hjp
  cleared := fun jp hjp => by
    by_cases hp : (k.proc p).Uses jp
    · exact .inl (by simpa [Proc.Uses, huser] using hp)
    · exact .inr ⟨hjp, fun h => absurd h hp⟩
  tips := trivial
  mapped := h.mapped p

/-- The check fails, or somebody has the file open for writing. -/
theorem fail_moves (h : k.Inv) (hphase : (k.proc p).phase = .exec ip .checking) :
    Moves k (k.goes p (.exec ip .failed)) p { k.proc p with phase := .exec ip .failed } := by
  refine .quiet h rfl rfl rfl rfl rfl rfl ?_ ?_ ?_ ?_ trivial (h.mapped p)
  · intro jp
    simp only [Kernel.goes, Kernel.set, Proc.refs, hphase, Phase.refs]
  · rintro jp stage ⟨⟩
    exact ⟨_, hphase⟩
  · intro jp hx
    exact h.needs p jp (by simpa [Proc.Needs, hphase] using hx)
  · intro jp hp
    simpa [Proc.Uses, hphase] using hp

theorem hold_moves (h : k.Inv) (hphase : (k.proc p).phase = .exec ip .checking) (hnot : ¬ k.Writing ip) :
    Moves k ({ k with itext := update k.itext ip true }.goes p (.exec ip .held)) p
      { k.proc p with phase := .exec ip .held } := by
  have hset : ∀ jp, k.itext jp = true → update k.itext ip true jp = true := by
    intro jp hjp
    by_cases heq : jp = ip
    · subst heq
      exact Function.update_self _ _ _
    · rwa [Function.update_of_ne heq]
  refine
    { proc := rfl, file := rfl, data := rfl, balanced := ?_, other := h.other, locked := fun q _ => h.held q,
      held := ?_, kept := fun q _ jp hq => hset jp (h.needs q jp hq), needs := ?_, unwritten := ?_, cleared := ?_,
      tips := trivial, mapped := h.mapped p }
  · refine balanced_of_proc h.balanced rfl rfl fun jp => ?_
    simp only [Kernel.goes, Kernel.set, Proc.refs, hphase, Phase.refs]
  · rintro jp stage ⟨⟩
    exact h.held p ip _ hphase
  · rintro jp (hx | hx | ⟨old, hx⟩)
    · exact hset jp (h.needs p jp (.inl hx))
    · cases hx
      exact Function.update_self _ _ _
    · cases hx
  · intro jp hjp
    by_cases heq : jp = ip
    · subst heq
      exact .inr hnot
    · exact .inl ((Function.update_of_ne heq _ _).symm.trans hjp)
  · intro jp hjp
    by_cases heq : jp = ip
    · subst heq
      exact .inl (.inr (.inl rfl))
    · by_cases hp : (k.proc p).Uses jp
      · have htip : (k.proc p).p_tip = some jp := by simpa [Proc.Uses, hphase] using hp
        exact .inl (.inl htip)
      · exact .inr ⟨(Function.update_of_ne heq _ _).symm.trans hjp, fun h => absurd h hp⟩

/-- A check fails after the file was taken hold of. -/
theorem refuse_moves (h : k.Inv) (hphase : (k.proc p).phase = .exec ip .held) :
    Moves k ((k.execTextUnhold ip).goes p (.exec ip .failed)) p { k.proc p with phase := .exec ip .failed } := by
  have hproc : ((k.execTextUnhold ip).goes p (.exec ip .failed)).proc =
      update k.proc p { k.proc p with phase := .exec ip .failed } := by
    simp only [Kernel.goes, Kernel.set, unhold_proc]
  have hstays : ∀ q jp, (k.proc q).Needs jp → (jp = ip → k.Running ip) → (k.execTextUnhold ip).itext jp = true := by
    intro q jp hneeds hrun
    rcases unhold_itext k ip jp with heq | ⟨rfl, hnot, -⟩
    · rw [heq]
      exact h.needs q jp hneeds
    · exact absurd (hrun rfl) hnot
  refine
    { proc := hproc, file := unhold_file k ip, data := unhold_data k ip, balanced := ?_, other := ?_, locked := ?_,
      held := ?_, kept := ?_, needs := ?_, unwritten := ?_, cleared := ?_, tips := trivial, mapped := h.mapped p }
  · refine balanced_of_proc h.balanced hproc (unhold_file k ip) fun jp => ?_
    simp only [Kernel.goes, Kernel.set, Proc.refs, hphase, Phase.refs, unhold_i_count, unhold_others]
  · simp only [Kernel.goes, Kernel.set, unhold_lock, unhold_others]
    exact h.other
  · intro q _ jp stage hq
    simp only [Kernel.goes, Kernel.set, unhold_lock]
    exact h.held q jp stage hq
  · rintro jp stage ⟨⟩
    simp only [Kernel.goes, Kernel.set, unhold_lock]
    exact h.held p ip _ hphase
  · intro q hq jp hneeds
    refine hstays q jp hneeds ?_
    rintro rfl
    rcases hneeds.cases with htip | ⟨stage, hexec⟩
    · exact ⟨q, htip⟩
    · exact absurd rfl (h.ne_of_exec hphase hexec hq)
  · rintro jp (hx | hx | ⟨old, hx⟩)
    · refine hstays p jp (.inl hx) ?_
      rintro rfl
      exact ⟨p, hx⟩
    · cases hx
    · cases hx
  · intro jp hjp
    rcases unhold_itext k ip jp with heq | ⟨-, -, hclear⟩
    · exact .inl (heq.symm.trans hjp)
    · exact absurd (hclear.symm.trans hjp) (by decide)
  · intro jp hjp
    by_cases heq : jp = ip
    · subst heq
      obtain ⟨q, hq⟩ := unhold_running hjp
      by_cases hqp : q = p
      · subst hqp
        exact .inl (.inl hq)
      · exact .inr ⟨h.needs p jp (.inr (.inl hphase)), fun _ => ⟨q, hqp, .inl hq⟩⟩
    · rcases unhold_itext k ip jp with hsame | ⟨hip, -⟩
      · by_cases hp : (k.proc p).Uses jp
        · have htip : (k.proc p).p_tip = some jp := by simpa [Proc.Uses, hphase, Ne.symm heq] using hp
          exact .inl (.inl htip)
        · exact .inr ⟨hsame.symm.trans hjp, fun h => absurd h hp⟩
      · exact absurd hip heq

/-! ## `execve` from its commitment on -/

/-- There was no text before. -/
theorem commit_none_moves (h : k.Inv) (hphase : (k.proc p).phase = .exec ip .held) (htip : (k.proc p).p_tip = none) :
    Moves k (k.tip p ip true) p ⟨some ip, none, .exec ip (.loading true)⟩ := by
  refine .quiet h rfl rfl rfl rfl rfl rfl ?_ ?_ ?_ ?_ rfl nofun
  · intro jp
    have hone := ref_count k ip jp
    simp only [Kernel.tip, if_true, Kernel.set, Proc.refs, hphase, htip, Phase.refs, same_none]
    omega
  · rintro jp stage ⟨⟩
    exact ⟨_, hphase⟩
  · rintro jp hx
    have hip : ip = jp := by simpa [Proc.Needs] using hx
    subst hip
    exact h.needs p ip (.inr (.inl hphase))
  · intro jp hp
    have hip : ip = jp := by simpa [Proc.Uses, hphase, htip] using hp
    exact .inl (congrArg some hip)

/-- The same file is run again. -/
theorem commit_same_moves (h : k.Inv) (hphase : (k.proc p).phase = .exec ip .held)
    (htip : (k.proc p).p_tip = some ip) :
    Moves k (((k.set p ⟨none, none, .exec ip .held⟩).irele ip).tip p ip true) p
      ⟨some ip, none, .exec ip (.loading true)⟩ := by
  -- One reference is that of the lookup, another that of `p_tip`.
  have htwo : 2 ≤ k.i_count ip := by
    have hle := proc_refs_le k p ip
    rw [← h.balanced ip, Proc.refs, htip, hphase] at hle
    simpa [Phase.refs] using hle
  have hnot : k.i_count ip ≠ 1 := by omega
  refine .quiet h ?_ rfl rfl ?_ rfl rfl ?_ ?_ ?_ ?_ rfl (by rintro _ ⟨⟩)
  · simp [Kernel.tip, Kernel.set, Kernel.ref, Kernel.irele]
  · simp [Kernel.tip, Kernel.set, Kernel.ref, Kernel.irele, hnot]
  · intro jp
    have hone := ref_count ((k.set p ⟨none, none, .exec ip .held⟩).irele ip) ip jp
    have hless := irele_count (k.set p ⟨none, none, .exec ip .held⟩) ip jp (by change 1 ≤ k.i_count ip; omega)
    have hcount : (k.set p ⟨none, none, .exec ip .held⟩).i_count jp = k.i_count jp := rfl
    simp only [Kernel.tip, if_true, Proc.refs, hphase, htip, Phase.refs]
    change ((((k.set p ⟨none, none, .exec ip .held⟩).irele ip).ref ip).i_count jp) + _ = _
    omega
  · rintro jp stage ⟨⟩
    exact ⟨_, hphase⟩
  · rintro jp hx
    have hip : ip = jp := by simpa [Proc.Needs] using hx
    subst hip
    exact h.needs p ip (.inr (.inl hphase))
  · intro jp hp
    have hip : ip = jp := by simpa [Proc.Uses, hphase, htip] using hp
    exact .inl (congrArg some hip)

/-- There was another text: the reference goes from `p_tip` to the call that lets go of it. -/
theorem commit_other_moves (h : k.Inv) (hphase : (k.proc p).phase = .exec ip .held)
    (htip : (k.proc p).p_tip = some old) :
    Moves k (k.set p ⟨none, none, .exec ip (.releasing old true)⟩) p
      ⟨none, none, .exec ip (.releasing old true)⟩ := by
  refine .quiet h rfl rfl rfl rfl rfl rfl ?_ ?_ ?_ ?_ rfl nofun
  · intro jp
    simp only [Kernel.set, Proc.refs, hphase, htip, Phase.refs, same_none]
    omega
  · rintro jp stage ⟨⟩
    exact ⟨_, hphase⟩
  · rintro jp hx
    have hip : ip = jp := by simpa [Proc.Needs] using hx
    subst hip
    exact h.needs p ip (.inr (.inl hphase))
  · intro jp hp
    have hips : old = jp ∨ ip = jp := by simpa [Proc.Uses, hphase, htip] using hp
    rcases hips with rfl | rfl
    · exact .inr (.inr (.inr (.inl ⟨ip, true, rfl⟩)))
    · exact .inr (.inr (.inl ⟨old, rfl⟩))

theorem elf_none_moves (h : k.Inv) (hphase : (k.proc p).phase = .exec ip .checking)
    (htip : (k.proc p).p_tip = none) :
    Moves k (k.tip p ip false) p ⟨none, none, .exec ip (.loading false)⟩ := by
  refine .quiet h rfl rfl rfl rfl rfl rfl ?_ ?_ ?_ ?_ rfl nofun
  · intro jp
    simp [Kernel.tip, Kernel.set, Proc.refs, hphase, htip, Phase.refs]
  · rintro jp stage ⟨⟩
    exact ⟨_, hphase⟩
  · rintro jp hx
    simp [Proc.Needs] at hx
  · intro jp hp
    simp [Proc.Uses, hphase, htip] at hp

theorem elf_other_moves (h : k.Inv) (hphase : (k.proc p).phase = .exec ip .checking)
    (htip : (k.proc p).p_tip = some old) :
    Moves k (k.set p ⟨none, none, .exec ip (.releasing old false)⟩) p
      ⟨none, none, .exec ip (.releasing old false)⟩ := by
  refine .quiet h rfl rfl rfl rfl rfl rfl ?_ ?_ ?_ ?_ rfl nofun
  · intro jp
    simp only [Kernel.set, Proc.refs, hphase, htip, Phase.refs, same_none]
    omega
  · rintro jp stage ⟨⟩
    exact ⟨_, hphase⟩
  · rintro jp hx
    simp [Proc.Needs] at hx
  · intro jp hp
    have hip : old = jp := by simpa [Proc.Uses, hphase, htip] using hp
    subst hip
    exact .inr (.inr (.inr (.inl ⟨ip, false, rfl⟩)))

/-- The image is read, with the inode locked. -/
theorem load_moves {text : Bool} (h : k.Inv) (hphase : (k.proc p).phase = .exec ip (.loading text)) (ok : Bool) :
    Moves k
      (k.set p
        { k.proc p with
          mapped := if ok && text then some (k.data ip) else none
          phase := .exec ip (if ok then .loaded else .lost) }) p
      { k.proc p with
        mapped := if ok && text then some (k.data ip) else none
        phase := .exec ip (if ok then .loaded else .lost) } := by
  have htips := h.tips p
  simp only [Proc.Tips, hphase] at htips
  refine .quiet h rfl rfl rfl rfl rfl rfl ?_ ?_ ?_ ?_ ?_ ?_
  · intro jp
    cases ok <;> simp [Kernel.set, Proc.refs, hphase, Phase.refs]
  · rintro jp stage ⟨⟩
    exact ⟨_, hphase⟩
  · intro jp hx
    refine h.needs p jp ?_
    cases ok <;> simpa [Proc.Needs, hphase] using hx
  · intro jp hp
    have htip : (k.proc p).p_tip = some jp := by simpa [Proc.Uses, hphase] using hp
    exact .inl htip
  · cases ok <;> trivial
  · intro d hd
    simp only [Option.ite_none_right_eq_some, Bool.and_eq_true, Option.some.injEq] at hd
    obtain ⟨⟨-, rfl⟩, hdata⟩ := hd
    exact ⟨ip, htips, hdata⟩

/-- The end of `execve`. -/
theorem finish_moves {stage : Stage ι} (h : k.Inv) (hphase : (k.proc p).phase = .exec ip stage)
    (hstage : stage = .failed ∨ stage = .loaded ∨ stage = .lost) {phase : Phase ι}
    (hend : phase = .user ∨ phase = .dying) :
    Moves k ((k.iput ip).goes p phase) p { k.proc p with phase := phase } := by
  have hone : 1 ≤ k.i_count ip := by
    rw [h.balanced ip]
    exact (exec_refs hphase).trans (proc_refs_le k p ip)
  refine .drops h rfl rfl rfl rfl ?_ ?_ ?_ ?_ ?_ ?_ ?_ ?_ (h.mapped p)
  · intro jp
    have hless := irele_count (k.unlock ip) ip jp hone
    change ((k.unlock ip).irele ip).i_count jp + _ = _
    have hold : (k.unlock ip).i_count jp = k.i_count jp := rfl
    rcases hstage with rfl | rfl | rfl <;> rcases hend with rfl | rfl <;>
      simp only [Proc.refs, hphase, Phase.refs] <;> omega
  · intro jp hjp
    change update k.lock ip .free jp = .other at hjp
    by_cases heq : jp = ip
    · subst heq
      rw [Function.update_self] at hjp
      cases hjp
    · rwa [Function.update_of_ne heq] at hjp
  · intro q hq jp hjp
    have hne : jp ≠ ip := by
      rintro rfl
      rw [h.held p jp stage hphase] at hjp
      cases hjp
      exact hq rfl
    exact (Function.update_of_ne hne _ _).trans hjp
  · rintro jp stage' hx
    rcases hend with rfl | rfl <;> cases hx
  · intro jp
    rcases irele_itext (k.unlock ip) ip jp with hsame | ⟨-, hclear, hzero⟩
    · exact .inl hsame
    · exact .inr ⟨hclear, .inl hzero⟩
  · intro jp hx
    have htip : (k.proc p).p_tip = some jp := by rcases hend with rfl | rfl <;> simpa [Proc.Needs] using hx
    exact .inl htip
  · intro jp _ hp
    have htip : (k.proc p).p_tip = some jp := by
      rcases hstage with rfl | rfl | rfl <;> simpa [Proc.Uses, hphase] using hp
    exact .inl (.inl htip)
  · rcases hend with rfl | rfl <;> trivial

/-! ## Letting go -/

/-- Who lets go of a text has its reference but no `p_tip`. -/
structure LetsGo (k : Kernel π φ ι γ) (p : π) (old : ι) : Prop where
  tip : (k.proc p).p_tip = none
  one : 1 ≤ k.i_count old
  free : k.lock old = .free

/-- What follows the lock of the old text, up to what the process is then. -/
theorem LetsGo.moves (hl : LetsGo k p old) (h : k.Inv) (hproc : k'.proc = update k.proc p x) (hfile : k'.file = k.file)
    (hdata : k'.data = k.data) (hothers : k'.others = k.others) (hlock : k'.lock = update k.lock old .free)
    (htext : k'.itext = (k.release old).itext) (hzero : (k.release old).i_count old = 0 → k'.i_count old = 0)
    (hcount : ∀ jp, k'.i_count jp + (k.proc p).refs jp = k.i_count jp + x.refs jp)
    (hphase : ∀ jp stage, x.phase = .exec jp stage → ∃ stage', (k.proc p).phase = .exec jp stage')
    (hneeds : ∀ jp, x.Needs jp → (k.proc p).Needs jp)
    (huses : ∀ jp, (k.proc p).Uses jp → x.Uses jp ∨ jp = old) (htips : x.Tips) (hmapped : x.mapped = none) :
    Moves k k' p x := by
  have hsame : k'.lock = k.lock := by
    rw [hlock, ← hl.free, Function.update_eq_self]
  refine .drops h hproc hfile hdata hothers hcount ?_ ?_ ?_ ?_ hneeds ?_ htips ?_
  · intro jp hjp
    rwa [hsame] at hjp
  · intro q _ jp hjp
    rwa [hsame]
  · intro jp stage hx
    obtain ⟨stage', hp⟩ := hphase jp stage hx
    rw [hsame]
    exact h.held p jp stage' hp
  · intro jp
    rw [htext]
    rcases release_itext k old jp with hkept | ⟨rfl, hclear, hgone | hrun⟩
    · exact .inl hkept
    · exact .inr ⟨hclear, .inl (hzero hgone)⟩
    · exact .inr ⟨hclear, .inr ⟨hl.free, hrun⟩⟩
  · intro jp hjp hp
    rcases huses jp hp with hx | rfl
    · exact .inl hx
    · rw [htext] at hjp
      obtain ⟨q, hq⟩ := release_running hjp
      refine .inr ⟨q, ?_, .inl hq⟩
      rintro rfl
      rw [hl.tip] at hq
      cases hq
  · intro d hd
    rw [hmapped] at hd
    cases hd

theorem exited_moves (h : k.Inv) (hphase : (k.proc p).phase = .exiting old) (hfree : k.lock old = .free) :
    Moves k ((k.release old).set p ⟨none, none, .dead⟩) p ⟨none, none, .dead⟩ := by
  have htips := h.tips p
  simp only [Proc.Tips, hphase] at htips
  have hone : 1 ≤ k.i_count old := by
    have hle := proc_refs_le k p old
    rw [← h.balanced old, Proc.refs, hphase] at hle
    simp only [Phase.refs, same_self] at hle
    omega
  refine LetsGo.moves ⟨htips, hone, hfree⟩ h ?_ (release_file k old) (release_data k old) (release_others k old)
    (release_lock k old) rfl id ?_ (by rintro _ _ ⟨⟩) ?_ ?_ rfl rfl
  · simp only [Kernel.set, release_proc]
  · intro jp
    have hless := release_count k old jp hone
    simp only [Kernel.set, Proc.refs, hphase, htips, Phase.refs, same_none]
    omega
  · intro jp hx
    simp [Proc.Needs] at hx
  · intro jp hp
    have heq : old = jp := by simpa [Proc.Uses, hphase, htips] using hp
    exact .inr heq.symm

theorem released_moves {text : Bool} (h : k.Inv) (hphase : (k.proc p).phase = .exec ip (.releasing old text))
    (hfree : k.lock old = .free) :
    Moves k ((k.release old).tip p ip text) p
      ⟨if text then some ip else none, none, .exec ip (.loading text)⟩ := by
  have htips := h.tips p
  simp only [Proc.Tips, hphase] at htips
  have hone : 1 ≤ k.i_count old := by
    have hle := proc_refs_le k p old
    rw [← h.balanced old, Proc.refs, hphase] at hle
    simp only [Phase.refs, same_self] at hle
    omega
  -- The new file is locked and the old one is not.
  have hne : old ≠ ip := by
    rintro rfl
    rw [h.held p old _ hphase] at hfree
    cases hfree
  have hl : LetsGo k p old := ⟨htips, hone, hfree⟩
  cases text with
  | false =>
    refine hl.moves h ?_ (release_file k old) (release_data k old) (release_others k old) (release_lock k old) rfl id
      ?_ ?_ ?_ ?_ rfl rfl
    · simp [Kernel.tip, Kernel.set]
    · intro jp
      have hless := release_count k old jp hone
      simp only [Kernel.tip, Bool.false_eq_true, if_false, Kernel.set, Proc.refs, hphase, htips, Phase.refs, same_none]
      omega
    · rintro jp stage ⟨⟩
      exact ⟨_, hphase⟩
    · intro jp hx
      simp [Proc.Needs] at hx
    · intro jp hp
      have heq : old = jp := by simpa [Proc.Uses, hphase, htips] using hp
      exact .inr heq.symm
  | true =>
    refine hl.moves h ?_ (release_file k old) (release_data k old) (release_others k old) (release_lock k old) rfl ?_
      ?_ ?_ ?_ ?_ rfl rfl
    · simp [Kernel.tip, Kernel.set, Kernel.ref]
    · intro hzero
      have hold := ref_count (k.release old) ip old
      rw [same_of_ne (Ne.symm hne), hzero] at hold
      exact hold
    · intro jp
      have hless := release_count k old jp hone
      have hmore := ref_count (k.release old) ip jp
      simp only [Kernel.tip, if_true, Kernel.set, Proc.refs, hphase, htips, Phase.refs, same_none]
      omega
    · rintro jp stage ⟨⟩
      exact ⟨_, hphase⟩
    · intro jp hx
      have hip : ip = jp := by simpa [Proc.Needs] using hx
      subst hip
      exact .inr (.inr ⟨old, hphase⟩)
    · intro jp hp
      have hips : ip = jp ∨ old = jp := by simpa [Proc.Uses, hphase, htips] using hp
      rcases hips with rfl | rfl
      · exact .inl (.inl rfl)
      · exact .inr rfl

/-! ## Processes -/

theorem fork_none_moves (h : k.Inv) (hdead : (k.proc q).phase = .dead) :
    Moves k (k.set q ⟨none, none, .user⟩) q ⟨none, none, .user⟩ := by
  have htips := h.tips q
  simp only [Proc.Tips, hdead] at htips
  refine .quiet h rfl rfl rfl rfl rfl rfl ?_ nofun ?_ ?_ trivial nofun
  · intro jp
    simp [Kernel.set, Proc.refs, hdead, htips, Phase.refs]
  · intro jp hx
    simp [Proc.Needs] at hx
  · intro jp hq
    simp [Proc.Uses, hdead, htips] at hq

/-- The child has the same text and a reference of its own. -/
theorem fork_moves (h : k.Inv) (hdead : (k.proc q).phase = .dead) (htip : (k.proc p).p_tip = some ip) :
    Moves k ((k.ref ip).set q ⟨some ip, (k.proc p).mapped, .user⟩) q ⟨some ip, (k.proc p).mapped, .user⟩ := by
  have htips := h.tips q
  simp only [Proc.Tips, hdead] at htips
  refine .quiet h rfl rfl rfl rfl rfl rfl ?_ nofun ?_ ?_ trivial ?_
  · intro jp
    have hone := ref_count k ip jp
    simp only [Kernel.set, Proc.refs, hdead, htips, Phase.refs, same_none]
    omega
  · intro jp hx
    have hip : ip = jp := by simpa [Proc.Needs] using hx
    subst hip
    exact h.needs p ip (.inl htip)
  · intro jp hq
    simp [Proc.Uses, hdead, htips] at hq
  · intro d hd
    obtain ⟨jp, hjp, hdata⟩ := h.mapped p d hd
    exact ⟨ip, rfl, by rw [← hdata, Option.some.inj (htip.symm.trans hjp)]⟩

theorem exit_none_moves (h : k.Inv) (hphase : (k.proc p).phase = .user ∨ (k.proc p).phase = .dying)
    (htip : (k.proc p).p_tip = none) : Moves k (k.set p ⟨none, none, .dead⟩) p ⟨none, none, .dead⟩ := by
  refine .quiet h rfl rfl rfl rfl rfl rfl ?_ nofun ?_ ?_ rfl nofun
  · intro jp
    rcases hphase with hphase | hphase <;> simp [Kernel.set, Proc.refs, hphase, htip, Phase.refs]
  · intro jp hx
    simp [Proc.Needs] at hx
  · intro jp hp
    rcases hphase with hphase | hphase <;> simp [Proc.Uses, hphase, htip] at hp

theorem exit_moves (h : k.Inv) (hphase : (k.proc p).phase = .user ∨ (k.proc p).phase = .dying)
    (htip : (k.proc p).p_tip = some old) :
    Moves k (k.set p ⟨none, none, .exiting old⟩) p ⟨none, none, .exiting old⟩ := by
  refine .quiet h rfl rfl rfl rfl rfl rfl ?_ nofun ?_ ?_ rfl nofun
  · intro jp
    rcases hphase with hphase | hphase <;> simp [Kernel.set, Proc.refs, hphase, htip, Phase.refs]
  · intro jp hx
    simp [Proc.Needs] at hx
  · intro jp hp
    have hold : old = jp := by rcases hphase with hphase | hphase <;> simpa [Proc.Uses, hphase, htip] using hp
    subst hold
    exact .inr (.inr (.inr (.inr rfl)))

/-! ## Files -/

/-- Nothing but the rest of the kernel's own references, locks and flags. -/
theorem Serves.quiet (h : k.Inv) (hproc : k'.proc = k.proc) (hfile : k'.file = k.file) (hdata : k'.data = k.data)
    (hcount : ∀ jp, k'.i_count jp + k.others jp = k.i_count jp + k'.others jp)
    (hother : ∀ jp, k'.lock jp = .other → 1 ≤ k'.others jp)
    (hlocked : ∀ p jp, k.lock jp = .held p → k'.lock jp = .held p)
    (htext : ∀ jp, k'.itext jp = k.itext jp ∨ k'.itext jp = false ∧ k'.i_count jp = 0) : Serves k k' where
  proc := hproc
  balanced := balanced_of_others h.balanced hproc hfile hcount
  other := hother
  locked := fun p jp stage hp => hlocked p jp (h.held p jp stage hp)
  itext := htext
  data := fun jp _ => by rw [hdata]
  unwritten := fun jp hjp => by
    unfold Kernel.Writing
    rw [hfile]
    exact h.unwritten jp hjp

/-- Who has a file open for writing after one entry has changed. -/
theorem writing_update {f : φ} {o : Option (File ι)} (hfile : k'.file = update k.file f o) (h : k'.Writing jp) :
    k.Writing jp ∨ ∃ file ∈ o, file.f_data = jp ∧ file.fwrite = true := by
  obtain ⟨g, file, hg, hfwrite⟩ := h
  rw [hfile] at hg
  by_cases heq : g = f
  · subst heq
    rw [Function.update_self] at hg
    exact .inr ⟨file, hg, hfwrite⟩
  · rw [Function.update_of_ne heq] at hg
    exact .inl ⟨g, file, hg, hfwrite⟩

/-- A lock of the rest of the kernel is given back. -/
theorem lock_unlocked (hlock : k.lock ip = .other) (hjp : k.lock jp = .held p) :
    update k.lock ip .free jp = .held p := by
  have hne : jp ≠ ip := by
    rintro rfl
    rw [hlock] at hjp
    cases hjp
  rwa [Function.update_of_ne hne]

theorem other_unlocked (h : k.Inv) (hjp : update k.lock ip .free jp = .other) : jp ≠ ip ∧ 1 ≤ k.others jp := by
  by_cases heq : jp = ip
  · subst heq
    rw [Function.update_self] at hjp
    cases hjp
  · rw [Function.update_of_ne heq] at hjp
    exact ⟨heq, h.other jp hjp⟩

/-- An open that is refused. -/
theorem open_refused (h : k.Inv) (hlock : k.lock ip = .other) :
    Serves k ({ k with others := update k.others ip (k.others ip - 1) }.iput ip) := by
  have hone := h.other ip hlock
  have hcount : 1 ≤ k.i_count ip := by
    rw [h.balanced ip]
    exact hone.trans (others_le k ip)
  refine .quiet h rfl rfl rfl ?_ ?_ (fun p jp => lock_unlocked hlock) ?_
  · intro jp
    simp only [Kernel.iput, Kernel.irele, Kernel.unlock]
    by_cases heq : jp = ip
    · subst heq
      simp only [Function.update_self]
      omega
    · simp only [Function.update_of_ne heq]
  · intro jp hjp
    obtain ⟨hne, hjp'⟩ := other_unlocked h hjp
    exact hjp'.trans (Function.update_of_ne hne _ _).ge
  · intro jp
    rcases irele_itext ({ k with others := update k.others ip (k.others ip - 1) }.unlock ip) ip jp with hsame | ⟨-, hzero⟩
    · exact .inl hsame
    · exact .inr hzero

/-- An open that is not, and truncates the file or does not. -/
theorem open_serves (h : k.Inv) {f : φ} {fwrite trunc : Bool} {d : γ} (hlock : k.lock ip = .other)
    (hnone : k.file f = none) (hpass : (fwrite || trunc) = true → k.itext ip = false) :
    Serves k
      { k.unlock ip with
        others := update k.others ip (k.others ip - 1)
        data := if trunc then update k.data ip d else k.data
        file := update k.file f (some ⟨ip, fwrite, 1⟩) } := by
  have hone := h.other ip hlock
  refine ⟨rfl, ?_, ?_, ?_, fun jp => .inl rfl, ?_, ?_⟩
  · refine balanced_of_file h.balanced rfl rfl fun jp => ?_
    simp only [Kernel.unlock, hnone, fileRefs]
    by_cases heq : jp = ip
    · subst heq
      simp only [Function.update_self, same_self]
      omega
    · simp only [Function.update_of_ne heq, same_of_ne (Ne.symm heq)]
  · intro jp hjp
    obtain ⟨hne, hjp'⟩ := other_unlocked h hjp
    exact hjp'.trans (Function.update_of_ne hne _ _).ge
  · intro p jp stage hp
    exact lock_unlocked hlock (h.held p jp stage hp)
  · intro jp hjp
    cases trunc with
    | false => rfl
    | true =>
      have hne : jp ≠ ip := by
        rintro rfl
        rw [hpass (Bool.or_true _)] at hjp
        cases hjp
      exact Function.update_of_ne hne _ _
  · intro jp hjp hwriting
    rcases writing_update rfl hwriting with hold | ⟨file, hfile, hdata, hfwrite⟩
    · exact h.unwritten jp hjp hold
    · cases hfile
      subst hdata
      change fwrite = true at hfwrite
      rw [hpass (by rw [hfwrite]; rfl)] at hjp
      cases hjp

/-- A file without the flag is changed. -/
theorem changes_serves (h : k.Inv) {d : γ} (htext : k.itext ip = false) :
    Serves k { k with data := update k.data ip d } := by
  refine ⟨rfl, h.balanced, h.other, h.held, fun jp => .inl rfl, ?_, h.unwritten⟩
  intro jp hjp
  have hne : jp ≠ ip := by
    rintro rfl
    rw [htext] at hjp
    cases hjp
  exact Function.update_of_ne hne _ _

/-- One reference to an entry more or less. -/
theorem recount_serves (h : k.Inv) {f : φ} {file : File ι} (hf : k.file f = some file) (n : ℕ) :
    Serves k { k with file := update k.file f (some { file with f_count := n }) } := by
  refine ⟨rfl, ?_, h.other, h.held, fun jp => .inl rfl, fun _ _ => rfl, ?_⟩
  · refine balanced_of_file h.balanced rfl rfl fun jp => ?_
    simp only [hf, fileRefs]
  · intro jp hjp hwriting
    refine h.unwritten jp hjp ?_
    rcases writing_update rfl hwriting with hold | ⟨file', hfile, hdata⟩
    · exact hold
    · cases hfile
      exact ⟨f, file, hf, hdata⟩

/-- The last one goes: the reference to the inode is `closef`'s. -/
theorem close_serves (h : k.Inv) {f : φ} {file : File ι} (hf : k.file f = some file) :
    Serves k
      { k with
        file := update k.file f none
        others := update k.others file.f_data (k.others file.f_data + 1) } := by
  refine ⟨rfl, ?_, ?_, h.held, fun jp => .inl rfl, fun _ _ => rfl, ?_⟩
  · refine balanced_of_file h.balanced rfl rfl fun jp => ?_
    simp only [hf, fileRefs]
    by_cases heq : jp = file.f_data
    · subst heq
      simp only [Function.update_self, same_self]
      omega
    · simp only [Function.update_of_ne heq, same_of_ne (Ne.symm heq)]
  · intro jp hjp
    have hone := h.other jp hjp
    by_cases heq : jp = file.f_data
    · subst heq
      simp only [Function.update_self]
      omega
    · simpa only [Function.update_of_ne heq] using hone
  · intro jp hjp hwriting
    rcases writing_update rfl hwriting with hold | ⟨file', hfile, -⟩
    · exact h.unwritten jp hjp hold
    · cases hfile

/-! ## Inodes -/

/-- An inode that nothing refers to becomes another file's. -/
theorem iget_serves (h : k.Inv) {d : γ} (hzero : k.i_count ip = 0) :
    Serves k
      { k with
        i_count := update k.i_count ip 1
        itext := update k.itext ip false
        lock := update k.lock ip .other
        data := update k.data ip d
        others := update k.others ip 1 } := by
  have htext : k.itext ip = false := by
    by_contra hset
    obtain ⟨p, hp⟩ := h.cleared ip (by simpa using hset)
    exact h.balanced.idle hzero p hp
  have hnone : k.others ip = 0 := by
    have hle := others_le k ip
    rw [← h.balanced ip] at hle
    omega
  refine ⟨rfl, ?_, ?_, ?_, ?_, ?_, h.unwritten⟩
  · refine balanced_of_others h.balanced rfl rfl fun jp => ?_
    by_cases heq : jp = ip
    · subst heq
      simp only [Function.update_self]
      omega
    · simp only [Function.update_of_ne heq]
  · intro jp hjp
    by_cases heq : jp = ip
    · subst heq
      simp only [Function.update_self]
      omega
    · simp only [Function.update_of_ne heq] at hjp ⊢
      exact h.other jp hjp
  · intro p jp stage hp
    have hne : jp ≠ ip := by
      rintro rfl
      have hle := (exec_refs hp).trans (proc_refs_le k p jp)
      rw [← h.balanced jp, hzero] at hle
      cases hle
    exact (Function.update_of_ne hne _ _).trans (h.held p jp stage hp)
  · intro jp
    by_cases heq : jp = ip
    · subst heq
      left
      rw [htext]
      exact Function.update_self _ _ _
    · exact .inl (Function.update_of_ne heq _ _)
  · intro jp hjp
    have hne : jp ≠ ip := by
      rintro rfl
      rw [htext] at hjp
      cases hjp
    exact Function.update_of_ne hne _ _

theorem ref_serves (h : k.Inv) : Serves k { k.ref ip with others := update k.others ip (k.others ip + 1) } := by
  refine .quiet h rfl rfl rfl ?_ ?_ (fun _ _ => id) fun jp => .inl rfl
  · intro jp
    simp only [Kernel.ref]
    by_cases heq : jp = ip
    · subst heq
      simp only [Function.update_self]
      omega
    · simp only [Function.update_of_ne heq]
  · intro jp hjp
    have hone := h.other jp hjp
    by_cases heq : jp = ip
    · subst heq
      simp only [Function.update_self]
      omega
    · simpa only [Function.update_of_ne heq] using hone

theorem irele_serves (h : k.Inv) (hspare : (if k.lock ip = .other then 2 else 1) ≤ k.others ip) :
    Serves k { k.irele ip with others := update k.others ip (k.others ip - 1) } := by
  have hone : 1 ≤ k.others ip := by
    by_cases hlock : k.lock ip = .other
    · rw [if_pos hlock] at hspare
      omega
    · rwa [if_neg hlock] at hspare
  have hcount : 1 ≤ k.i_count ip := by
    rw [h.balanced ip]
    exact hone.trans (others_le k ip)
  refine .quiet h rfl rfl rfl ?_ ?_ (fun _ _ => id) ?_
  · intro jp
    simp only [Kernel.irele]
    by_cases heq : jp = ip
    · subst heq
      simp only [Function.update_self]
      omega
    · simp only [Function.update_of_ne heq]
  · intro jp hjp
    change k.lock jp = .other at hjp
    by_cases heq : jp = ip
    · subst heq
      rw [if_pos hjp] at hspare
      simp only [Function.update_self]
      omega
    · simpa only [Function.update_of_ne heq] using h.other jp hjp
  · intro jp
    rcases irele_itext k ip jp with hsame | ⟨-, hzero⟩
    · exact .inl hsame
    · exact .inr hzero

theorem ilock_serves (h : k.Inv) (hfree : k.lock ip = .free) (hone : 1 ≤ k.others ip) :
    Serves k { k with lock := update k.lock ip .other } := by
  refine .quiet h rfl rfl rfl (fun _ => rfl) ?_ ?_ fun jp => .inl rfl
  · intro jp hjp
    by_cases heq : jp = ip
    · subst heq
      exact hone
    · exact h.other jp ((Function.update_of_ne heq _ _).symm.trans hjp)
  · intro p jp hjp
    have hne : jp ≠ ip := by
      rintro rfl
      rw [hfree] at hjp
      cases hjp
    exact (Function.update_of_ne hne _ _).trans hjp

theorem iunlock_serves (h : k.Inv) (hlock : k.lock ip = .other) : Serves k (k.unlock ip) :=
  .quiet h rfl rfl rfl (fun _ => rfl) (fun _ hjp => (other_unlocked h hjp).2) (fun _ _ => lock_unlocked hlock)
    fun _ => .inl rfl

/-! ## Every step -/

/-- A step is one process's or the rest of the kernel's. -/
def Kernel.Goes (k k' : Kernel π φ ι γ) : Prop := (∃ p x, Moves k k' p x) ∨ Serves k k'

theorem Moves.goes (hm : Moves k k' p x) : k.Goes k' := .inl ⟨p, x, hm⟩

theorem commit_goes (h : k.Inv) (hphase : (k.proc p).phase = .exec ip .held) : k.Goes (k.commit p ip true) := by
  unfold Kernel.commit
  cases htip : (k.proc p).p_tip with
  | none => exact (commit_none_moves h hphase htip).goes
  | some old =>
    by_cases heq : old = ip
    · subst heq
      simp only [and_self, if_true]
      exact (commit_same_moves h hphase htip).goes
    · simp only [heq, and_false, if_false]
      exact (commit_other_moves h hphase htip).goes

theorem commit_elf_goes (h : k.Inv) (hphase : (k.proc p).phase = .exec ip .checking) :
    k.Goes (k.commit p ip false) := by
  unfold Kernel.commit
  cases htip : (k.proc p).p_tip with
  | none => exact (elf_none_moves h hphase htip).goes
  | some old =>
    simp only [Bool.false_eq_true, false_and, if_false]
    exact (elf_other_moves h hphase htip).goes

theorem step_goes (h : k.Inv) {m : Move π φ ι γ} (hs : k.step m = some k') : k.Goes k' := by
  cases m
  all_goals simp only [Kernel.step] at hs
  case exec p ip =>
    simp only [Option.ite_none_right_eq_some, Option.some.injEq] at hs
    obtain ⟨⟨huser, hlock⟩, rfl⟩ := hs
    exact (exec_moves h huser hlock).goes
  case fail p =>
    split at hs <;> cases hs
    exact (fail_moves h ‹_›).goes
  case hold p =>
    split at hs
    · rename_i ip hphase
      unfold Kernel.execTextHold at hs
      by_cases hwriting : k.Writing ip
      · rw [if_pos hwriting] at hs
        cases hs
        exact (fail_moves h hphase).goes
      · rw [if_neg hwriting] at hs
        cases hs
        exact (hold_moves h hphase hwriting).goes
    · cases hs
  case refuse p =>
    split at hs <;> cases hs
    exact (refuse_moves h ‹_›).goes
  case commit p =>
    split at hs <;> cases hs
    exact commit_goes h ‹_›
  case commitElf p =>
    split at hs <;> cases hs
    exact commit_elf_goes h ‹_›
  case released p =>
    split at hs
    · simp only [Option.ite_none_right_eq_some, Option.some.injEq] at hs
      obtain ⟨hfree, rfl⟩ := hs
      exact (released_moves h ‹_› hfree).goes
    · cases hs
  case load p ok =>
    split at hs <;> cases hs
    exact (load_moves h ‹_› ok).goes
  case finish p =>
    split at hs <;> cases hs
    · exact (finish_moves h ‹_› (.inl rfl) (.inl rfl)).goes
    · exact (finish_moves h ‹_› (.inr (.inl rfl)) (.inl rfl)).goes
    · exact (finish_moves h ‹_› (.inr (.inr rfl)) (.inr rfl)).goes
  case fork p q =>
    split at hs
    · rename_i hboth
      split at hs <;> cases hs
      · exact (fork_none_moves h hboth.2).goes
      · exact (fork_moves h hboth.2 ‹_›).goes
    · cases hs
  case exit p =>
    split at hs
    · rename_i hphase
      split at hs <;> cases hs
      · exact (exit_none_moves h hphase ‹_›).goes
      · exact (exit_moves h hphase ‹_›).goes
    · cases hs
  case exited p =>
    split at hs
    · simp only [Option.ite_none_right_eq_some, Option.some.injEq] at hs
      obtain ⟨hfree, rfl⟩ := hs
      exact (exited_moves h ‹_› hfree).goes
    · cases hs
  case «open» f ip other fwrite trunc d =>
    simp only [Option.isNone_iff_eq_none] at hs
    split at hs
    · rename_i hboth
      split at hs <;> cases hs
      · exact .inr (open_refused h hboth.1)
      · rename_i hpass
        refine .inr (open_serves h hboth.1 hboth.2 fun hwant => ?_)
        rw [hwant] at hpass
        simp only [Kernel.access, Bool.true_and, Bool.not_eq_true', Bool.not_eq_false, Bool.and_eq_true] at hpass
        exact hpass.1
    · cases hs
  case truncate ip other d =>
    split at hs
    · split at hs <;> cases hs
      · rename_i hpass
        simp only [Kernel.access, Bool.and_eq_true, Bool.not_eq_true'] at hpass
        exact .inr (changes_serves h hpass.1)
      · exact .inr (.quiet h rfl rfl rfl (fun _ => rfl) h.other (fun _ _ => id) fun _ => .inl rfl)
    · cases hs
  case write f d =>
    split at hs
    · rename_i file hf
      simp only [Option.ite_none_right_eq_some, Option.some.injEq] at hs
      obtain ⟨⟨hfwrite, -⟩, rfl⟩ := hs
      refine .inr (changes_serves h ?_)
      by_contra hset
      exact h.unwritten file.f_data (by simpa using hset) ⟨f, file, hf, rfl, hfwrite⟩
    · cases hs
  case dup f =>
    split at hs <;> cases hs
    exact .inr (recount_serves h ‹_› _)
  case close f =>
    split at hs
    · split at hs <;> cases hs
      · exact .inr (recount_serves h ‹_› _)
      · exact .inr (close_serves h ‹_›)
    · cases hs
  case iget ip d =>
    simp only [Option.ite_none_right_eq_some, Option.some.injEq] at hs
    obtain ⟨hzero, rfl⟩ := hs
    exact .inr (iget_serves h hzero)
  case ref ip =>
    simp only [Option.ite_none_right_eq_some, Option.some.injEq] at hs
    obtain ⟨-, rfl⟩ := hs
    exact .inr (ref_serves h)
  case irele ip =>
    simp only [Option.ite_none_right_eq_some, Option.some.injEq] at hs
    obtain ⟨hspare, rfl⟩ := hs
    exact .inr (irele_serves h hspare)
  case ilock ip =>
    simp only [Option.ite_none_right_eq_some, Option.some.injEq] at hs
    obtain ⟨⟨hfree, hone⟩, rfl⟩ := hs
    exact .inr (ilock_serves h hfree hone)
  case iunlock ip =>
    simp only [Option.ite_none_right_eq_some, Option.some.injEq] at hs
    obtain ⟨hlock, rfl⟩ := hs
    exact .inr (iunlock_serves h hlock)

theorem Kernel.Inv.step (h : k.Inv) {m : Move π φ ι γ} (hs : k.step m = some k') : k'.Inv := by
  rcases step_goes h hs with ⟨p, x, hm⟩ | hserves
  · exact hm.inv h
  · exact hserves.inv h

theorem Kernel.Inv.safe (h : k.Inv) : k.Safe := by
  refine ⟨h.guarded, fun m k' hs => ?_⟩
  rcases step_goes h hs with ⟨p, x, hm⟩ | hserves
  · exact hm.frozen h
  · exact hserves.frozen

theorem start_inv (init : π) (data : ι → γ) : (Kernel.start init data : Kernel π φ ι γ).Inv where
  balanced := fun ip => by
    have hproc : ∀ p, ((Kernel.start init data : Kernel π φ ι γ).proc p).refs ip = 0 := by
      intro p
      by_cases heq : p = init <;> simp [Kernel.start, Proc.refs, Phase.refs, heq]
    simp only [Kernel.refs, hproc, Finset.sum_const_zero]
    simp [Kernel.start, fileRefs]
  other := nofun
  held := fun p ip stage hp => by
    by_cases heq : p = init <;> simp [Kernel.start, heq] at hp
  needs := fun p ip hp => by
    by_cases heq : p = init <;> simp [Kernel.start, Proc.Needs, heq] at hp
  unwritten := nofun
  cleared := nofun
  tips := fun p => by
    by_cases heq : p = init <;> simp [Kernel.start, Proc.Tips, heq]
  mapped := nofun

/-- **At every moment of every run what is running has the flag and what has the flag is safe.** -/
theorem text_guarded (init : π) (data : ι → γ) (moves : List (Move π φ ι γ)) :
    Always Kernel.step Kernel.Safe (Kernel.start init data) moves :=
  always_of_inv (fun _ h => Kernel.Inv.safe h) (fun _ _ _ h hs => h.step hs) (start_inv init data) moves

/-- A file is run, and an open of it for writing is refused. -/
example :
    ((runOn Kernel.step (Kernel.start 0 fun _ => 5 : Kernel (Fin 2) (Fin 2) (Fin 2) ℕ)
        [.iget 1 7, .exec 0 1, .hold 0, .commit 0, .load 0 true, .finish 0, .fork 0 1, .ref 1, .ilock 1,
          .open 0 1 true true true 9]).map fun k =>
      ((k.proc 1).p_tip, (k.proc 1).mapped, k.itext 1, k.i_count 1, k.data 1)) =
      some (some 1, some 7, true, 2, 7) := by
  decide

end DiscoBSD.Text
