import Mathlib
import DiscoBSD.Swap.Epoch

/-!
# Refusals of the large epoch

`swapram_enter_large` sleeps after it has posted its request, and on waking up it reads **two words that
the swapper wrote at different times**: the epoch and the number of completed attempts. Under SMALL
with another number it returns `ENOMEM`, "when the pool could not be moved to flash".

A grant that the sleeper has not seen yet can be taken back: `swapram_service` answers the request for
SMALL at the end of the same pass, and a large process count of zero does not say that nobody was just
promised the bonus. As long as no pass does that, every refusal follows a failed evacuation.
-/

set_option autoImplicit false

namespace DiscoBSD.Swap

open DiscoBSD.Lib DiscoBSD.Rmap DiscoBSD.Hsx DiscoBSD.Swapram
open Function (update)

/-! ## The history of a request -/

/-- The newest request of `p` in the log, and what came after it. -/
def Asked (p : Slot) (log : List Note) (since : List Note) : Prop :=
  ∃ before, log = since ++ .request p :: before ∧ .request p ∉ since

/-- An evacuation failed after the newest request of `p`. -/
def FailedSince (p : Slot) (log : List Note) : Prop :=
  ∃ since, Asked p log since ∧ .evacuated false ∈ since

theorem Asked.cons {p : Slot} {log since : List Note} {n : Note} (h : Asked p log since)
    (hn : n ≠ .request p) : Asked p (n :: log) (n :: since) := by
  obtain ⟨before, rfl, hsince⟩ := h
  exact ⟨before, rfl, by simpa using ⟨hn.symm, hsince⟩⟩

theorem FailedSince.cons {p : Slot} {log : List Note} {n : Note} (h : FailedSince p log)
    (hn : n ≠ .request p) : FailedSince p (n :: log) := by
  obtain ⟨since, hasked, hfailed⟩ := h
  exact ⟨n :: since, hasked.cons hn, List.mem_cons_of_mem n hfailed⟩

/-! ## The invariant -/

/-- A sleeper whose number is out of date has been granted LARGE or has seen an evacuation fail, and
    every refusal so far had its reason. -/
structure RefusalInv (c : Ctl) : Prop where
  asked : ∀ p, c.wait p ≠ none → ∃ since, Asked p c.log since
  answered : ∀ p seq, c.wait p = some seq → seq ≠ c.largeSeq →
    c.epoch = .large ∨ FailedSince p c.log
  refused : ∀ newer older p, c.log = newer ++ .refused p :: older → FailedSince p older

section
variable {c c' : Ctl}

/-- The refusals in a longer log are the old ones, when the new entry is not one. -/
theorem RefusalInv.older (h : RefusalInv c) {n : Note} (hn : ∀ q, n = .refused q → FailedSince q c.log) :
    ∀ newer older p, n :: c.log = newer ++ .refused p :: older → FailedSince p older := by
  intro newer older p hlog
  cases newer with
  | nil =>
    cases hlog
    exact hn p rfl
  | cons m newer =>
    rw [List.cons_append, List.cons.injEq] at hlog
    exact h.refused newer older p hlog.2

/-- An entry that is no request goes into the log. -/
theorem RefusalInv.log (h : RefusalInv c) {n : Note} (hreq : ∀ q, n ≠ .request q)
    (href : ∀ q, n = .refused q → FailedSince q c.log) : RefusalInv { c with log := n :: c.log } := by
  refine ⟨fun p hp => ?_, fun p seq hp hseq => ?_, h.older href⟩
  · obtain ⟨since, hasked⟩ := h.asked p hp
    exact ⟨_, hasked.cons (hreq p)⟩
  · exact (h.answered p seq hp hseq).imp id fun hf => hf.cons (hreq p)

/-- LARGE is granted. -/
theorem RefusalInv.toLarge (h : RefusalInv c) (n : Nat) :
    RefusalInv { c with epoch := .large, largeSeq := n } :=
  ⟨h.asked, fun _ _ _ _ => .inl rfl, h.refused⟩

/-- Every sleeper has seen an evacuation fail. -/
theorem RefusalInv.failed (h : RefusalInv c) (n : Nat) :
    RefusalInv { c with log := .evacuated false :: c.log, largeSeq := n } := by
  refine ⟨fun p hp => ?_, fun p seq hp _ => .inr ?_, h.older (nofun)⟩
  · obtain ⟨since, hasked⟩ := h.asked p hp
    exact ⟨_, hasked.cons (nofun)⟩
  · obtain ⟨since, hasked⟩ := h.asked p (by rw [hp]; nofun)
    exact ⟨_, hasked.cons (nofun), List.mem_cons_self⟩

/-- Nobody sleeps, so nobody is misled. -/
theorem RefusalInv.nobody (h : RefusalInv c) (hw : ∀ p, c.wait p = none) (e : Epoch) :
    RefusalInv { c with epoch := e } :=
  ⟨h.asked, fun p _ hp => absurd (hp.symm.trans (hw p)) nofun, h.refused⟩

/-- What the invariant does not read. -/
structure Unasked (c c' : Ctl) : Prop where
  epoch : c'.epoch = c.epoch
  seq : c'.largeSeq = c.largeSeq
  log : c'.log = c.log
  wait : ∀ p seq, c'.wait p = some seq → c.wait p = some seq

theorem RefusalInv.mono (h : RefusalInv c) (hq : Unasked c c') : RefusalInv c' := by
  obtain ⟨he, hs, hl, hw⟩ := hq
  refine ⟨fun p hp => ?_, fun p seq hp hseq => ?_, ?_⟩
  · obtain ⟨seq, hseq⟩ := Option.ne_none_iff_exists'.mp hp
    rw [hl]
    exact h.asked p (by rw [hw p seq hseq]; nofun)
  · rw [he, hl]
    exact h.answered p seq (hw p seq hp) (hs ▸ hseq)
  · rw [hl]
    exact h.refused

theorem Unasked.refl (c : Ctl) : Unasked c c := ⟨rfl, rfl, rfl, fun _ _ h => h⟩

theorem Unasked.trans {c'' : Ctl} (h : Unasked c c') (h' : Unasked c' c'') : Unasked c c'' :=
  ⟨h'.epoch.trans h.epoch, h'.seq.trans h.seq, h'.log.trans h.log,
    fun p seq hp => h.wait p seq (h'.wait p seq hp)⟩

/-- A process stops sleeping there. -/
theorem Unasked.awake (c : Ctl) (p : Slot) : Unasked c { c with wait := update c.wait p none } := by
  refine ⟨rfl, rfl, rfl, fun q seq hq => ?_⟩
  by_cases hqp : q = p
  · subst hqp
    simp at hq
  · simpa only [Function.update_of_ne hqp] using hq

theorem Unasked.of_eq {d : Ctl} (hd : d = c') (h : Unasked c c') : Unasked c d := hd ▸ h

end

/-! ## The condition -/

/-- Nothing of the entry has to be moved. -/
def SrEnt.Blank (e : SrEnt) : Prop := e.e_live = true → ∀ seg, e.e_rlen seg = 0

/-- The evacuation under which the swapper sleeps is past its last block. -/
def Kernel.EvacReturns (σ : Kernel) : Prop :=
  match σ.swapper with
  | .geteblk _ => ∀ i, (σ.sr_tab i).Blank
  | .expanding _ loc =>
    (σ.sr_tab loc.slot).e_rlen loc.seg ≤ loc.out ∧
      (∀ seg ∈ loc.todo, (σ.sr_tab loc.slot).e_rlen seg = 0) ∧
      ∀ i ∈ loc.rest, i ≠ loc.slot → (σ.sr_tab i).Blank
  | _ => False

/-- From its request for LARGE on, a pass of `swapram_service` runs under LARGE or comes to it without
    a sleep. -/
def Kernel.ComesToLarge (σ : Kernel) : Prop :=
  σ.swapram_epoch = .large ∨
    (σ.sr_large_want = true ∧ σ.sr_spools = 0 ∧ ∀ i, (σ.sr_tab i).e_live = false)

/-- The swapper's step takes its pass of `swapram_service` to the end, and there the epoch is LARGE. -/
def Kernel.EndsLarge (σ : Kernel) : Event → Prop
  | .service => σ.ComesToLarge
  | .evacResume => σ.EvacReturns ∧
      (σ.swapper.pending.any (fun w => w.1 = .large) = true ∨
        (σ.sr_large_want = true ∧ σ.sr_spools = 0))
  | _ => False

/-- A pass takes LARGE back while a process sleeps in `swapram_enter_large`. -/
def Kernel.Revokes (σ : Kernel) (e : Event) : Prop :=
  σ.sr_small_want = true ∧ σ.sr_nlarge = 0 ∧ (∃ p, (σ.loc p).isWaiting = true) ∧ σ.EndsLarge e

theorem Where.waitSeq_eq_none {l : Where} (h : ¬l.isWaiting = true) : l.waitSeq = none := by
  cases l <;> first | rfl | exact absurd rfl h

/-- Nobody sleeps there. -/
theorem Kernel.nobody (σ : Kernel) {e : Event} (h : ¬σ.Revokes e) (hw : σ.sr_small_want = true)
    (h0 : σ.sr_nlarge = 0) (he : σ.EndsLarge e) (p : Slot) : σ.ctl.wait p = none :=
  Where.waitSeq_eq_none fun hp => h ⟨hw, h0, ⟨p, hp⟩, he⟩

section
variable {cfg : Conf} {σ σ' : Kernel} {p : Slot}

theorem evacNext_none {slots : List Slot} (h : evacNext σ slots = .ok (none, σ')) :
    ∀ i ∈ slots, (σ.sr_tab i).Blank := by
  induction slots generalizing σ with
  | nil => exact fun i hi => by cases hi
  | cons i rest ih =>
    simp only [evacNext] at h
    split at h
    · rename_i hdead
      refine List.forall_mem_cons.mpr ⟨fun hlive => ?_, ih h⟩
      exact absurd (hlive.symm.trans hdead) (by rintro ⟨⟩)
    split at h
    · obtain ⟨_, ⟨loc, hloc, _⟩, _⟩ := evacSeg_frame h
      cases hloc
    · rename_i hempty
      obtain ⟨σ₁, hrel, h⟩ := bind_ok h
      obtain ⟨mp, _, rfl⟩ := evacRelease_ok hrel
      have hi : (σ.sr_tab i).Blank := by
        intro _ seg
        have hseg := List.dropWhile_eq_nil_iff.mp hempty seg (by fin_cases seg <;> decide)
        exact of_decide_eq_true hseg
      refine List.forall_mem_cons.mpr ⟨hi, fun j hj => ?_⟩
      by_cases hji : j = i
      · exact hji ▸ hi
      · have hrest := ih h j hj
        simpa only [Kernel.setEnt, Function.update_of_ne hji] using hrest

/-- An evacuation that returned had nothing left to move. -/
theorem evacResume_none {why : Purpose} {loc : ExpandAt} (hsw : σ.swapper = .expanding why loc)
    (h : evacResume σ loc = .ok (none, σ')) : σ.EvacReturns := by
  simp only [Kernel.EvacReturns, hsw]
  simp only [evacResume] at h
  split at h
  · obtain ⟨⟨loc', hloc, _⟩, _⟩ := evacBlock_frame h
    cases hloc
  rename_i hout
  obtain ⟨σ₁, hrel, h⟩ := bind_ok h
  obtain ⟨_, rfl⟩ := swapramCodecRelease_ok hrel
  split at h
  · obtain ⟨_, ⟨loc', hloc, _⟩, _⟩ := evacSeg_frame h
    cases hloc
  rename_i hempty
  obtain ⟨σ₂, hfree, h⟩ := bind_ok h
  obtain ⟨mp, _, rfl⟩ := evacRelease_ok hfree
  have htodo : ∀ seg ∈ loc.todo, (σ.sr_tab loc.slot).e_rlen seg = 0 := fun seg hseg =>
    of_decide_eq_true (List.dropWhile_eq_nil_iff.mp hempty seg hseg)
  refine ⟨Nat.le_of_not_lt hout, htodo, fun i hi hne => ?_⟩
  have hrest := evacNext_none h i hi
  simpa only [Kernel.setEnt, Function.update_of_ne hne] using hrest

/-! ## The service routine -/

theorem serviceSmall_refusal (h : RefusalInv σ.ctl)
    (hw : grantsSmall σ → ∀ p, σ.ctl.wait p = none) : RefusalInv (serviceSmall σ).ctl := by
  unfold serviceSmall
  split
  · rename_i hgrant
    exact (h.nobody (hw hgrant) .small).mono ⟨rfl, rfl, rfl, fun _ _ h => h⟩
  · exact h.mono ⟨rfl, rfl, rfl, fun _ _ h => h⟩

/-- The answer to a request for LARGE, and then the request for SMALL. -/
theorem finishLarge_refusal {ok : Bool} (h : RefusalInv σ.ctl) (hs : σ.swapram_epoch = .small)
    (hw : ok = true → σ.sr_small_want = true → σ.sr_nlarge = 0 → ∀ p, σ.ctl.wait p = none) :
    RefusalInv (finishLarge σ ok).ctl := by
  cases ok with
  | true =>
    refine serviceSmall_refusal ?_ fun hgrant => hw rfl hgrant.1 hgrant.2.2
    exact (h.log (n := .evacuated true) (fun _ => nofun) (fun _ => nofun)).toLarge _
  | false =>
    refine serviceSmall_refusal ?_ fun hgrant => absurd (hs.symm.trans hgrant.2.1) nofun
    exact (h.failed _).mono ⟨rfl, rfl, rfl, fun _ _ h => h⟩

theorem serviceLarge_refusal (h : RefusalInv σ.ctl)
    (hw : σ.sr_small_want = true → σ.sr_nlarge = 0 → σ.ComesToLarge → ∀ p, σ.ctl.wait p = none)
    (hcall : serviceLarge σ = .ok σ') : RefusalInv σ'.ctl := by
  unfold serviceLarge at hcall
  split at hcall
  · rename_i hwant
    simp only at hcall
    split at hcall
    · rename_i hs
      have h0 : σ.sr_spools = 0 := hwant.2.resolve_left (fun hne => hne hs)
      obtain ⟨⟨r, σ₁⟩, hbegin, hcall⟩ := bind_ok hcall
      have hempty := (evacuateBegin_ctl hbegin).2.1
      obtain ⟨mp, addr, next, hσ₁⟩ := evacuateBegin_frame hbegin
      have h₁ : RefusalInv σ₁.ctl := by
        rw [hσ₁]
        exact h.mono ⟨rfl, rfl, rfl, fun _ _ h => h⟩
      cases r with
      | none =>
        cases hcall
        exact h₁.mono ⟨rfl, rfl, rfl, fun _ _ h => h⟩
      | some ok =>
        cases hcall
        refine finishLarge_refusal h₁ (by rw [hσ₁]; exact hs) ?_
        rw [hσ₁]
        intro hok hsmall hzero
        exact hw hsmall hzero (.inr ⟨hwant.1, h0, hempty (by rw [hok])⟩)
    · rename_i hl
      have hl : σ.swapram_epoch = .large := by
        cases he : σ.swapram_epoch with
        | small => exact absurd he hl
        | large => rfl
      cases hcall
      refine serviceSmall_refusal ?_ fun hgrant => hw hgrant.1 hgrant.2.2 (.inl hl)
      exact (h.toLarge _).mono ⟨hl, rfl, rfl, fun _ _ h => h⟩
  · have hsmall : grantsSmall σ → ∀ p, σ.ctl.wait p = none := fun hgrant =>
      hw hgrant.1 hgrant.2.2 (.inl hgrant.2.1)
    split at hcall
    · cases hcall
      exact serviceSmall_refusal (h.mono ⟨rfl, rfl, rfl, fun _ _ h => h⟩) hsmall
    · cases hcall
      exact serviceSmall_refusal h hsmall

theorem finishEvac_refusal {ok : Bool} (h : RefusalInv σ.ctl)
    (hw : σ.sr_small_want = true → σ.sr_nlarge = 0 → σ.ComesToLarge → ∀ p, σ.ctl.wait p = none)
    (hcall : finishEvac σ ok = .ok σ') : RefusalInv σ'.ctl := by
  refine serviceLarge_refusal (σ := evacAnswer σ ok) ?_ hw hcall
  exact (h.log (n := .evacuated ok) (fun _ => nofun) (fun _ => nofun)).mono ⟨rfl, rfl, rfl, fun _ _ h => h⟩

theorem swapramService_refusal (h : RefusalInv σ.ctl) (hno : ¬σ.Revokes .service)
    (hcall : swapramService σ = .ok σ') : RefusalInv σ'.ctl := by
  unfold swapramService at hcall
  split at hcall
  · obtain ⟨⟨r, σ₁⟩, hbegin, hcall⟩ := bind_ok hcall
    obtain ⟨mp, addr, next, hσ₁⟩ := evacuateBegin_frame hbegin
    have h₁ : RefusalInv σ₁.ctl := by
      rw [hσ₁]
      exact h.mono ⟨rfl, rfl, rfl, fun _ _ h => h⟩
    cases r with
    | none =>
      cases hcall
      exact h₁.mono ⟨rfl, rfl, rfl, fun _ _ h => h⟩
    | some ok =>
      refine finishEvac_refusal h₁ ?_ hcall
      rw [hσ₁]
      exact σ.nobody hno
  · exact serviceLarge_refusal h (σ.nobody hno) hcall

/-- A resumed evacuation sleeps again or goes on in its caller. -/
theorem evacContinue_refusal {why : Purpose} {slots : List Slot} {r : Option ExpandAt} {τ : Kernel}
    {flash : Nat → UInt8} {mp : SwapramPool} {tab : Slot → SrEnt} {owner : Option Codec}
    (h : RefusalInv σ.ctl) (hinv : EpochInv σ.ctl) (hp : σ.swapper.pending = some (why, slots))
    (hno : ¬σ.Revokes .evacResume) (hret : r = none → σ.EvacReturns)
    (hτ : τ = σ.drain flash mp tab owner) (hcall : evacContinue why (r, τ) = .ok σ') :
    RefusalInv σ'.ctl := by
  subst hτ
  have hs : σ.swapram_epoch = .small := (hinv.evac why slots hp).2.1
  have h₁ : RefusalInv (σ.drain flash mp tab owner).ctl := h.mono ⟨rfl, rfl, rfl, fun _ _ h => h⟩
  cases r with
  | some loc =>
    cases hcall
    exact h₁.mono ⟨rfl, rfl, rfl, fun _ _ h => h⟩
  | none =>
    cases why with
    | evac =>
      refine finishEvac_refusal h₁ (fun hsmall hzero hcomes => ?_) hcall
      rcases hcomes with hl | ⟨hwant, h0, _⟩
      · exact absurd (hs.symm.trans hl) nofun
      · exact σ.nobody hno hsmall hzero ⟨hret rfl, .inr ⟨hwant, h0⟩⟩
    | large =>
      cases hcall
      refine finishLarge_refusal h₁ hs fun _ hsmall hzero => ?_
      exact σ.nobody hno hsmall hzero ⟨hret rfl, .inl (by rw [hp]; rfl)⟩

/-! ## Asking and waking up -/

theorem enterLoop_refusal (h : RefusalInv σ.ctl) (hasked : ∃ since, Asked p σ.log since) :
    RefusalInv (enterLoop σ p).ctl := by
  unfold enterLoop
  split
  · have h₁ := (h.mono (.awake σ.ctl p)).log (n := .entered p) (fun _ => nofun) (fun _ => nofun)
    refine h₁.mono ⟨rfl, rfl, rfl, fun q seq hq => ?_⟩
    rw [note_ctl, setLoc_ctl] at hq
    exact hq
  · rw [setLoc_ctl]
    have hother : ∀ q, q ≠ p → update σ.ctl.wait p (some σ.sr_large_seq) q = σ.ctl.wait q :=
      fun q hq => Function.update_of_ne hq _ _
    refine ⟨fun q hq => ?_, fun q seq hq hseq => ?_, h.refused⟩
    · by_cases hqp : q = p
      · exact hqp ▸ hasked
      · exact h.asked q (hother q hqp ▸ hq)
    · by_cases hqp : q = p
      · subst hqp
        simp only [Function.update_self, Where.waitSeq, Option.some.injEq] at hq
        exact absurd hq.symm hseq
      · exact h.answered q seq (hother q hqp ▸ hq) hseq

theorem swapramEnterLarge_refusal (h : RefusalInv σ.ctl) (hw : σ.ctl.wait p = none) :
    RefusalInv (swapramEnterLarge σ p).ctl := by
  unfold swapramEnterLarge
  split
  · exact h.log (n := .entered p) (fun _ => nofun) (fun _ => nofun)
  · refine enterLoop_refusal (σ := σ.note (.request p)) ?_ ⟨[], σ.log, rfl, by simp⟩
    have hne : ∀ q, σ.ctl.wait q ≠ none → Note.request p ≠ .request q := by
      rintro q hq ⟨⟩
      exact hq hw
    refine ⟨fun q hq => ?_, fun q seq hq hseq => ?_, h.older (nofun)⟩
    · obtain ⟨since, hasked⟩ := h.asked q hq
      exact ⟨_, hasked.cons (hne q hq)⟩
    · have hq' : σ.ctl.wait q = some seq := hq
      exact (h.answered q seq hq hseq).imp id fun hf => hf.cons (hne q (by rw [hq']; nofun))

theorem enterWake_refusal {seq : Nat} (h : RefusalInv σ.ctl) (hloc : σ.loc p = .waiting seq) :
    RefusalInv (enterWake σ p seq).ctl := by
  have hw : σ.ctl.wait p = some seq := by simp only [Kernel.ctl, Function.comp, hloc, Where.waitSeq]
  unfold enterWake
  split
  · rename_i hwake
    have hfailed : FailedSince p σ.ctl.log := by
      rcases h.answered p seq hw hwake.2 with hl | hf
      · exact absurd (hwake.1.symm.trans hl) (by rintro ⟨⟩)
      · exact hf
    rw [note_ctl, setLoc_ctl]
    refine (h.mono (.awake σ.ctl p)).log (n := .refused p) (fun _ => by rintro ⟨⟩) ?_
    rintro q ⟨⟩
    exact hfailed
  · exact enterLoop_refusal h (h.asked p (by rw [hw]; rintro ⟨⟩))

/-! ## Steps and runs -/

/-- The events that ask for LARGE or answer. -/
def Event.answers : Event → Bool
  | .enterLarge _ | .enterWake _ | .service | .evacResume => true
  | _ => false

theorem swapramLeaveLarge_unasked (σ : Kernel) (p : Slot) :
    Unasked σ.ctl (swapramLeaveLarge σ p).ctl := by
  rcases swapramLeaveLarge_ctl σ p with ⟨_, heq⟩ | ⟨_, hctl⟩
  · rw [heq]
    exact .refl _
  · rw [hctl]
    exact ⟨rfl, rfl, rfl, fun _ _ h => h⟩

theorem setProc_unasked (σ : Kernel) (p : Slot) (r : Proc) : Unasked σ.ctl (σ.setProc p r).ctl := by
  rw [setProc_ctl]
  exact ⟨rfl, rfl, rfl, fun _ _ h => h⟩

theorem swapramInherit_unasked (σ : Kernel) (child parent : Slot) :
    Unasked σ.ctl (swapramInherit σ child parent).ctl := by
  unfold swapramInherit
  split
  · have hproc := setProc_unasked { σ with sr_nlarge := σ.sr_nlarge + 1 } child
      { σ.proc child with p_large := true }
    exact ⟨hproc.epoch, hproc.seq, hproc.log, hproc.wait⟩
  · exact .refl _

theorem setLoc_unasked (σ : Kernel) (p : Slot) {l : Where} (hl : l.waitSeq = none) :
    Unasked σ.ctl (σ.setLoc p l).ctl := by
  rw [setLoc_ctl, hl]
  exact .awake σ.ctl p

theorem swapoutBegin_unasked {u : List UInt8} (h : swapoutBegin cfg σ p u = .ok σ') :
    Unasked σ.ctl σ'.ctl := by
  rcases swapoutBegin_ctl h with ⟨_, hctl, _⟩ | ⟨hctl, _⟩
  · rw [hctl]
    exact ⟨rfl, rfl, rfl, fun _ _ h => h⟩
  · rw [hctl]
    exact .refl _

theorem newproc_unasked {child : Slot} {u : List UInt8} (h : newproc cfg σ p child u = .ok σ') :
    Unasked σ.ctl σ'.ctl := by
  obtain ⟨σ₂, hout, h⟩ := bind_ok h
  have h₂ := ((setProc_unasked σ child _).trans (swapramInherit_unasked _ child p)).trans
    (swapoutBegin_unasked hout)
  cases h
  split
  · exact h₂.trans (setLoc_unasked σ₂ p rfl)
  · exact h₂

theorem swapinLoad_unasked (h : swapinLoad cfg σ p = .ok σ') : Unasked σ.ctl σ'.ctl := by
  rcases swapinLoad_ctl h with hctl | ⟨todo, got, hctl⟩
  · rw [hctl]
    exact ⟨rfl, rfl, rfl, fun _ _ h => h⟩
  · rw [hctl]
    exact ⟨rfl, rfl, rfl, fun _ _ h => h⟩

/-- Every other event leaves the requests and the answers alone. -/
theorem step_unasked {e : Event} (he : e.answers = false) (hcall : σ.step cfg e = .ok σ') :
    Unasked σ.ctl σ'.ctl := by
  cases e with
  | store p img pool =>
    cases hcall
    rw [clobber_ctl, become_ctl]
    exact .refl _
  | estabSmall p img =>
    cases hcall
    rw [become_ctl]
    exact swapramLeaveLarge_unasked σ p
  | spoolAlloc p size =>
    rcases execSpoolAlloc_ctl hcall with ⟨_, _, hctl⟩ | hctl | hctl
    · exact .of_eq hctl ⟨rfl, rfl, rfl, fun _ _ h => h⟩
    · exact .of_eq hctl (.refl _)
    · exact .of_eq hctl ⟨rfl, rfl, rfl, fun _ _ h => h⟩
  | spoolWrite p pos src => exact .of_eq (execSpoolWrite_ctl hcall) (.refl _)
  | spoolToFlash p =>
    simp only [Kernel.step] at hcall
    split at hcall
    · rcases execSpoolToFlash_ctl hcall with hctl | hctl
      · exact .of_eq hctl (.refl _)
      · exact .of_eq hctl (.awake σ.ctl p)
    · cases hcall
      exact .refl _
  | spoolMove p =>
    simp only [Kernel.step] at hcall
    split at hcall
    · rcases execSpoolMove_ctl hcall with hctl | ⟨_, hctl⟩
      · exact .of_eq hctl (.awake σ.ctl p)
      · have hawake := Unasked.awake σ.ctl p
        exact .of_eq hctl ⟨hawake.epoch, hawake.seq, hawake.log, hawake.wait⟩
    · cases hcall
      exact .refl _
  | spoolDiscard p =>
    rcases execSpoolDiscard_ctl hcall with ⟨_, _, hctl⟩ | ⟨_, hctl⟩
    · exact .of_eq hctl ⟨rfl, rfl, rfl, fun _ _ h => h⟩
    · exact .of_eq hctl (.refl _)
  | fork p child u => exact newproc_unasked hcall
  | forkResume p u =>
    simp only [Kernel.step] at hcall
    split at hcall
    · split at hcall
      · rename_i child _ _ j _
        cases hcall
        simp only [newprocResume]
        have hres := Unasked.of_eq (swapoutResume_ctl σ child u j) (.refl σ.ctl)
        split
        · exact hres
        · exact hres.trans (setLoc_unasked _ p rfl)
      · cases hcall
        exact .refl _
    · cases hcall
      exact .refl _
  | exit p =>
    cases hcall
    exact (swapramLeaveLarge_unasked σ p).trans (setProc_unasked _ p _)
  | reap p =>
    cases hcall
    exact setProc_unasked σ p _
  | postEvac p =>
    cases hcall
    exact .refl _
  | setEpoch p e =>
    cases hcall
    cases e <;> exact .refl _
  | fillFromU p q =>
    simp only [Kernel.step] at hcall
    split at hcall
    · obtain ⟨⟨r, τ⟩, hu, rfl⟩ := exists_of_map_eq_ok hcall
      rw [swapramUareaPrefix_ok hu]
      exact .refl _
    · cases hcall
      exact .refl _
  | swapout p u =>
    obtain ⟨σ₁, hout, hcall⟩ := bind_ok hcall
    have h₁ := (setProc_unasked σ p _).trans (swapoutBegin_unasked hout)
    cases hcall
    split
    · exact ⟨h₁.epoch, h₁.seq, h₁.log, h₁.wait⟩
    · exact h₁
  | swapoutResume u =>
    simp only [Kernel.step] at hcall
    split at hcall
    · split at hcall
      · rename_i p _ _ j _
        have h₁ := Unasked.of_eq (swapoutResume_ctl σ p u j) (.refl σ.ctl)
        cases hcall
        split
        · exact h₁
        · exact ⟨h₁.epoch, h₁.seq, h₁.log, h₁.wait⟩
      · cases hcall
        exact .refl _
    · cases hcall
      exact .refl _
  | swapin p =>
    simp only [Kernel.step, swapinBegin] at hcall
    split at hcall
    · cases hcall
      exact ⟨rfl, rfl, rfl, fun _ _ h => h⟩
    · exact swapinLoad_unasked hcall
  | textRestore isPacked =>
    simp only [Kernel.step] at hcall
    split at hcall
    · unfold textRestore at hcall
      split at hcall
      · obtain ⟨σ₁, hacq, rfl⟩ := exists_of_map_eq_ok hcall
        obtain ⟨_, rfl⟩ := swapramCodecAcquire_ok hacq
        exact ⟨rfl, rfl, rfl, fun _ _ h => h⟩
      · exact swapinLoad_unasked hcall
    · cases hcall
      exact .refl _
  | packedEnd =>
    simp only [Kernel.step] at hcall
    split at hcall
    · obtain ⟨σ₁, hrel, hload⟩ := bind_ok hcall
      obtain ⟨_, rfl⟩ := swapramCodecRelease_ok hrel
      have hload := swapinLoad_unasked hload
      exact ⟨hload.epoch, hload.seq, hload.log, hload.wait⟩
    · cases hcall
      exact .refl _
  | swapinResume pool =>
    simp only [Kernel.step] at hcall
    split at hcall
    · rcases swapinResume_ctl hcall with hctl | ⟨todo', got', hctl⟩
      · exact .of_eq hctl ⟨rfl, rfl, rfl, fun _ _ h => h⟩
      · exact .of_eq hctl ⟨rfl, rfl, rfl, fun _ _ h => h⟩
    · cases hcall
      exact .refl _
  | enterLarge p => cases he
  | enterWake p => cases he
  | service => cases he
  | evacResume => cases he

theorem RefusalInv.step {e : Event} (h : RefusalInv σ.ctl) (hinv : EpochInv σ.ctl)
    (hen : σ.Enabled cfg e) (hno : ¬σ.Revokes e) (hcall : σ.step cfg e = .ok σ') :
    RefusalInv σ'.ctl := by
  by_cases he : e.answers = false
  · exact h.mono (step_unasked he hcall)
  cases e with
  | enterLarge p =>
    cases hcall
    exact swapramEnterLarge_refusal h hen.1.wait_eq
  | enterWake p =>
    simp only [Kernel.step] at hcall
    split at hcall
    · rename_i hloc
      cases hcall
      exact enterWake_refusal h hloc
    · cases hcall
      exact h
  | service => exact swapramService_refusal h hno hcall
  | evacResume =>
    simp only [Kernel.step] at hcall
    split at hcall
    · rename_i why hsw
      obtain ⟨⟨r, σ₁⟩, hnext, hcont⟩ := bind_ok hcall
      obtain ⟨flash, mp, tab, owner, hσ₁⟩ := evacNext_frame hnext
      refine evacContinue_refusal h hinv (by rw [hsw]; rfl) hno ?_ hσ₁ hcont
      rintro rfl
      simp only [Kernel.EvacReturns, hsw]
      exact fun i => evacNext_none hnext i (List.mem_finRange i)
    · rename_i why loc hsw
      obtain ⟨⟨r, σ₁⟩, hres, hcont⟩ := bind_ok hcall
      obtain ⟨flash, mp, tab, owner, hσ₁⟩ := evacResume_frame hres
      refine evacContinue_refusal h hinv (by rw [hsw]; rfl) hno ?_ hσ₁ hcont
      rintro rfl
      exact evacResume_none hsw hres
    · cases hcall
      exact h
  | _ => exact absurd rfl he

/-- **As long as no pass takes LARGE back from under a sleeper, a refusal has its reason.** Whenever
    `swapram_enter_large` has returned `ENOMEM`, an evacuation failed between its request and its
    return. -/
theorem large_refused_only_after_failure (h : Runs cfg (fun σ e => ¬σ.Revokes e) σ)
    {newer older : List Note} (hlog : σ.log = newer ++ .refused p :: older) :
    ∃ since before, older = since ++ .request p :: before ∧ .request p ∉ since ∧
      .evacuated false ∈ since := by
  have hinv : RefusalInv σ.ctl := by
    clear hlog
    induction h with
    | boot next _ =>
      exact ⟨fun q hq => absurd rfl hq, fun q seq hq => (nomatch hq), fun newer older q hq =>
        absurd hq (by simp [Kernel.ctl, Swap.boot])⟩
    | step e hrun hen hno hcall ih => exact ih.step hrun.epochInv hen hno hcall
  obtain ⟨since, ⟨before, hsplit, hnone⟩, hfailed⟩ := hinv.refused newer older p hlog
  exact ⟨since, before, hsplit, hnone, hfailed⟩

end

/-- A spool on flash leaves no run for the child's image, so the evacuation fails and process 1 is
    refused. -/
theorem large_refused_only_after_failure_full : ∃ σ, Runs pico (fun σ e => ¬σ.Revokes e) σ ∧
    ∃ newer older, σ.log = newer ++ .refused 1 :: older ∧ .evacuated false ∈ older := by
  obtain ⟨σ, hrun, hlog⟩ := Runs.given pico (fun σ _ => !σ.sr_small_want)
    [.fork 1 2 zeroU, .spoolAlloc 1 (378 * 1024), .enterLarge 1, .service, .enterWake 1]
    (fun σ => decide (σ.log = [.refused 1, .evacuated false, .request 1])) rfl (by decide +kernel)
  have hquiet : Runs pico (fun σ e => ¬σ.Revokes e) σ := hrun.mono fun τ e hsmall hrev => by
    rw [hrev.1] at hsmall
    cases hsmall
  have hlog : σ.log = [] ++ .refused 1 :: [.evacuated false, .request 1] := of_decide_eq_true hlog
  obtain ⟨since, before, hsplit, _, hfailed⟩ := large_refused_only_after_failure hquiet hlog
  exact ⟨σ, hquiet, _, _, hlog, by rw [hsplit]; exact List.mem_append_left _ hfailed⟩

/-- The operator asks for SMALL while the sysctl's evacuation sleeps, and process 1 asks for LARGE after
    that. Both are answered in one pass: LARGE is granted and taken back, both evacuations succeeded,
    and process 1 is refused. -/
theorem large_refused_after_grant : ∃ σ, Reachable pico σ ∧
    ∃ newer older, σ.log = newer ++ .refused 1 :: older ∧ .evacuated false ∉ older := by
  obtain ⟨σ, hrun, hlog⟩ := Runs.given pico (fun _ _ => true)
    [.fork 1 2 zeroU, .postEvac 1, .service, .evacResume, .setEpoch 1 .small, .enterLarge 1,
      .evacResume, .evacResume, .evacResume, .enterWake 1]
    (fun σ => decide (σ.log = [.refused 1, .evacuated true, .evacuated true, .request 1])) rfl
    (by decide +kernel)
  exact ⟨σ, hrun.reachable, [], [.evacuated true, .evacuated true, .request 1],
    of_decide_eq_true hlog, by decide⟩

end DiscoBSD.Swap
