import DiscoBSD.Lib.Slots
import DiscoBSD.Swap.Spec

/-!
# The control state

The epoch, the requests and the codec workspace depend on a small part of the kernel: the flags, which
slots hold an image, a spool or the bonus, and where the swapper sleeps. `Ctl` is that part, and each
routine is described by what it does to it. **Most routines do nothing to it**, which is what makes
the interleavings tractable: a step that leaves `ctl` alone preserves every invariant stated over it.
-/

set_option autoImplicit false

namespace DiscoBSD.Swap

open DiscoBSD.Lib DiscoBSD.Rmap DiscoBSD.Hsx DiscoBSD.Swapram
open Function (update)

/-- The sequence number a process asleep in `swapram_enter_large` compares against. -/
def Where.waitSeq : Where → Option Nat
  | .waiting seq => some seq
  | _ => none

/-- What the epoch, the requests and the workspace depend on. -/
structure Ctl where
  takes : Bool
  epoch : Epoch
  nlarge : Int
  largeSeq : Nat
  spools : Nat
  owner : Option Codec
  large : Slot → Bool
  stat : Slot → Stat
  live : Slot → Bool
  ram : Slot → Bool
  wait : Slot → Option Nat
  swapper : Swapper
  log : List Note

def Kernel.ctl (σ : Kernel) : Ctl where
  takes := σ.sr_admit
  epoch := σ.swapram_epoch
  nlarge := σ.sr_nlarge
  largeSeq := σ.sr_large_seq
  spools := σ.sr_spools
  owner := σ.sr_codec_owner
  large := Proc.p_large ∘ σ.proc
  stat := Proc.p_stat ∘ σ.proc
  live := SrEnt.e_live ∘ σ.sr_tab
  ram := Spool.isRam ∘ σ.spool
  wait := Where.waitSeq ∘ σ.loc
  swapper := σ.swapper
  log := σ.log

section
variable (σ : Kernel) (p : Slot)

@[simp] theorem setEnt_ctl (e : SrEnt) :
    (σ.setEnt p e).ctl = { σ.ctl with live := update σ.ctl.live p e.e_live } := by
  simp only [Kernel.ctl, Kernel.setEnt, Function.comp_update]

@[simp] theorem setProc_ctl (r : Proc) :
    (σ.setProc p r).ctl =
      { σ.ctl with
        large := update σ.ctl.large p r.p_large, stat := update σ.ctl.stat p r.p_stat } := by
  simp only [Kernel.ctl, Kernel.setProc, Function.comp_update]

@[simp] theorem setSpool_ctl (s : Spool) :
    (σ.setSpool p s).ctl = { σ.ctl with ram := update σ.ctl.ram p s.isRam } := by
  simp only [Kernel.ctl, Kernel.setSpool, Function.comp_update]

@[simp] theorem setLoc_ctl (l : Where) :
    (σ.setLoc p l).ctl = { σ.ctl with wait := update σ.ctl.wait p l.waitSeq } := by
  simp only [Kernel.ctl, Kernel.setLoc, Function.comp_update]

@[simp] theorem setJob_ctl (j : Option OutJob) : (σ.setJob p j).ctl = σ.ctl := rfl

@[simp] theorem setSaved_ctl (img : Seg → List UInt8) : (σ.setSaved p img).ctl = σ.ctl := rfl

@[simp] theorem note_ctl (n : Note) : (σ.note n).ctl = { σ.ctl with log := n :: σ.log } := rfl

/-! A slot that is written with what it holds is not changed. -/

theorem setEnt_same {e : SrEnt} (h : e.e_live = (σ.sr_tab p).e_live) :
    (σ.setEnt p e).ctl = σ.ctl := by
  have hself : update σ.ctl.live p e.e_live = σ.ctl.live := by
    rw [h]
    exact Function.update_eq_self p σ.ctl.live
  rw [setEnt_ctl, hself]

theorem setProc_same {r : Proc} (hl : r.p_large = (σ.proc p).p_large)
    (hs : r.p_stat = (σ.proc p).p_stat) : (σ.setProc p r).ctl = σ.ctl := by
  have hlarge : update σ.ctl.large p r.p_large = σ.ctl.large := by
    rw [hl]
    exact Function.update_eq_self p σ.ctl.large
  have hstat : update σ.ctl.stat p r.p_stat = σ.ctl.stat := by
    rw [hs]
    exact Function.update_eq_self p σ.ctl.stat
  rw [setProc_ctl, hlarge, hstat]

/-- A process gets another image. -/
theorem become_ctl (img : Image) : (σ.setProc p ((σ.proc p).become img)).ctl = σ.ctl :=
  setProc_same σ p rfl rfl

theorem setSpool_same {s : Spool} (h : s.isRam = (σ.spool p).isRam) :
    (σ.setSpool p s).ctl = σ.ctl := by
  have hself : update σ.ctl.ram p s.isRam = σ.ctl.ram := by
    rw [h]
    exact Function.update_eq_self p σ.ctl.ram
  rw [setSpool_ctl, hself]

theorem swapoutEnd_ctl (a : Seg → Nat) : (swapoutEnd σ p a).ctl = σ.ctl :=
  setProc_same σ p rfl rfl

theorem swapinEnd_ctl (cfg : Conf) (got : Seg → List UInt8) :
    (swapinEnd cfg σ p got).ctl = { σ.ctl with swapper := .idle } :=
  setProc_same { σ with swapper := .idle } p rfl rfl

theorem clobber_ctl (pool : Nat → UInt8) : (clobber σ p pool).ctl = σ.ctl := by
  unfold clobber
  split <;> rfl

end

/-- A routine that touches neither the control state nor a swapout in progress. -/
structure Quiet (σ σ' : Kernel) : Prop where
  ctl : σ'.ctl = σ.ctl
  job : σ'.job = σ.job
  proc : σ'.proc = σ.proc

theorem Quiet.refl (σ : Kernel) : Quiet σ σ := ⟨rfl, rfl, rfl⟩

theorem Quiet.trans {σ σ₁ σ₂ : Kernel} (h : Quiet σ σ₁) (h' : Quiet σ₁ σ₂) : Quiet σ σ₂ :=
  ⟨h'.ctl.trans h.ctl, h'.job.trans h.job, h'.proc.trans h.proc⟩

section
variable {cfg : Conf} {σ σ' : Kernel} {p : Slot}

/-! ## Swapping out -/

theorem swapramOut_quiet {dsrc ssrc : List UInt8} {ulen : Nat} {ram : Bool}
    (h : swapramOut cfg σ p dsrc ssrc ulen = .ok (ram, σ')) :
    Quiet σ σ' ∧ (ram = true → σ.sr_admit = true) := by
  obtain ⟨_, ⟨rfl, rfl⟩ | ⟨rfl, htake, _, dn, sn, off, mp, _, _, _, rfl⟩⟩ := swapramOut_ok h
  · exact ⟨Quiet.refl σ', fun h => nomatch h⟩
  · refine ⟨⟨?_, rfl, rfl⟩, fun _ => htake⟩
    exact setEnt_same { σ with sr_map := mp } p rfl

theorem swapramPut_quiet {seg : Seg} {src : List UInt8} (h : swapramPut cfg σ p seg src = .ok σ') :
    Quiet σ σ' := by
  obtain ⟨_, bytes, _, _, _, rfl⟩ := swapramPut_ok h
  exact ⟨setEnt_same { σ with sr_pool := _ } p rfl, rfl, rfl⟩

/-- The tier takes the image: the entry is live and nothing else changed. -/
theorem swapoutRam_ctl {u : List UInt8} (h : swapoutRam cfg σ p u = .ok σ') :
    σ'.ctl = { σ.ctl with live := update σ.ctl.live p true } ∧ σ'.job = σ.job := by
  have hput : ∀ {τ τ' : Kernel} {seg : Seg}, (if (σ.proc p).len seg ≠ 0 then
      swapramPut cfg τ p seg ((σ.proc p).core seg) else .ok τ) = .ok τ' → Quiet τ τ' := by
    intro τ τ' seg hτ
    split at hτ
    · exact swapramPut_quiet hτ
    · cases hτ
      exact Quiet.refl τ
  obtain ⟨σ₁, h₁, h⟩ := bind_ok h
  obtain ⟨σ₂, h₂, h⟩ := bind_ok h
  obtain ⟨σ₃, h₃, h⟩ := bind_ok h
  obtain ⟨σ₄, h₄, h⟩ := bind_ok h
  have hq := ((hput h₁).trans (hput h₂)).trans (swapramPut_quiet h₃)
  obtain ⟨mp, _, rfl⟩ := swapramCommit_ok h₄
  cases h
  refine ⟨?_, hq.job⟩
  rw [swapoutEnd_ctl, setSaved_ctl, setEnt_ctl, ← hq.ctl]
  rfl

/-- Flash takes it: the process is locked with a run reserved. -/
theorem swapoutFlash_ctl (h : swapoutFlash σ p = .ok σ') :
    σ'.ctl = σ.ctl ∧ ∃ j, σ'.job = update σ.job p (some j) := by
  obtain ⟨⟨span, next, a, mp⟩, _, h⟩ := bind_ok h
  simp only at h
  split at h
  · cases h
  · cases h
    refine ⟨?_, _, rfl⟩
    rw [setJob_ctl]
    exact setProc_same { σ with swapmap := mp, swapnext := next } p rfl rfl

/-- `swapout`, up to its end or its first sleep. -/
theorem swapoutBegin_ctl {u : List UInt8} (h : swapoutBegin cfg σ p u = .ok σ') :
    (σ.sr_admit = true ∧ σ'.ctl = { σ.ctl with live := update σ.ctl.live p true } ∧
      σ'.job = σ.job) ∨
    (σ'.ctl = σ.ctl ∧ ∃ j, σ'.job = update σ.job p (some j)) := by
  obtain ⟨⟨ram, σ₁⟩, hout, h⟩ := bind_ok h
  obtain ⟨hq, htake⟩ := swapramOut_quiet hout
  simp only at h
  split at h
  · rename_i hram
    obtain ⟨hctl, hjob⟩ := swapoutRam_ctl h
    exact .inl ⟨htake hram, by rw [hctl, hq.ctl], hjob.trans hq.job⟩
  · obtain ⟨hctl, j, hjob⟩ := swapoutFlash_ctl h
    exact .inr ⟨hctl.trans hq.ctl, j, by rw [hjob, hq.job]⟩

theorem swapoutResume_ctl (σ : Kernel) (p : Slot) (u : List UInt8) (j : OutJob) :
    (swapoutResume σ p u j).ctl = σ.ctl := by
  unfold swapoutResume
  split
  · rw [setJob_ctl, swapoutEnd_ctl]
  · rfl

/-! ## Swapping in -/

/-- The image is back from the tier, or is going to be read from flash. -/
theorem swapinLoad_ctl (h : swapinLoad cfg σ p = .ok σ') :
    σ'.ctl = { σ.ctl with live := update σ.ctl.live p false, swapper := .idle } ∨
    ∃ todo got, σ'.ctl = { σ.ctl with swapper := .reading p todo got } := by
  unfold swapinLoad at h
  split at h
  · obtain ⟨⟨got, σ₁⟩, hin, h⟩ := bind_ok h
    obtain ⟨_, _, _, mp, _, rfl⟩ := swapramIn_ok hin
    cases h
    refine .inl ?_
    rw [swapinEnd_ctl, setEnt_ctl]
    rfl
  · cases h
    exact .inr ⟨_, _, rfl⟩

theorem swapinResume_ctl {pool : Nat → UInt8} {got : Seg → List UInt8} {todo : List Seg}
    (h : swapinResume cfg σ p pool got todo = .ok σ') :
    σ'.ctl = { σ.ctl with swapper := .idle } ∨
    ∃ todo' got', σ'.ctl = { σ.ctl with swapper := .reading p todo' got' } := by
  cases todo with
  | nil =>
    obtain ⟨⟨lost, mp⟩, _, h⟩ := bind_ok h
    cases h
    exact .inl (swapinEnd_ctl { σ with swapmap := mp } p cfg got)
  | cons seg todo =>
    cases h
    have hctl := clobber_ctl σ p pool
    exact .inr ⟨todo, update got seg (readAt σ.flash ((σ.proc p).p_at seg * devBsize)
      ((σ.proc p).len seg)), by rw [← hctl]; rfl⟩

/-! ## Spools -/

theorem execSpoolReserveFlash_ctl {size : Nat} {run : Option (Nat × Nat)}
    (h : execSpoolReserveFlash σ size = .ok (run, σ')) : σ'.ctl = σ.ctl ∧ σ'.spool = σ.spool := by
  obtain ⟨⟨span, next, a, mp⟩, _, h⟩ := bind_ok h
  simp only at h
  split at h
  · cases h
    exact ⟨rfl, rfl⟩
  · cases h
    exact ⟨rfl, rfl⟩

theorem execSpoolAlloc_ctl {size : Nat} (h : execSpoolAlloc σ p size = .ok σ') :
    (σ.sr_admit = true ∧ σ.swapram_epoch = .small ∧
      σ'.ctl = { σ.ctl with spools := σ.ctl.spools + 1, ram := update σ.ctl.ram p true }) ∨
    σ'.ctl = σ.ctl ∨ σ'.ctl = { σ.ctl with ram := update σ.ctl.ram p false } := by
  rcases swapramSpoolAlloc_cases σ size with hnone | ⟨htake, hepoch, off, mp, _, hsome⟩
  · rw [execSpoolAlloc, hnone] at h
    obtain ⟨⟨run, σ₁⟩, hres, h⟩ := bind_ok h
    obtain ⟨hctl, _⟩ := execSpoolReserveFlash_ctl hres
    cases run with
    | none =>
      cases h
      exact .inr (.inl hctl)
    | some run =>
      cases h
      refine .inr (.inr ?_)
      rw [setSpool_ctl, hctl]
      rfl
  · rw [execSpoolAlloc, hsome] at h
    cases h
    refine .inl ⟨htake, hepoch, ?_⟩
    rw [setSpool_ctl]
    rfl

theorem execSpoolWrite_ctl {pos : Nat} {src : List UInt8}
    (h : execSpoolWrite cfg σ p pos src = .ok σ') : σ'.ctl = σ.ctl := by
  unfold execSpoolWrite at h
  split at h
  · cases h
    rfl
  · split at h
    · cases h
    · unfold swapramSpoolWrite at h
      split at h
      · cases h
      · cases h
        rfl
  · cases h
    rfl

theorem execSpoolToFlash_ctl {size : Nat} (h : execSpoolToFlash σ p size = .ok σ') :
    σ'.ctl = σ.ctl ∨ σ'.ctl = { σ.ctl with wait := update σ.ctl.wait p none } := by
  obtain ⟨⟨run, σ₁⟩, hres, h⟩ := bind_ok h
  obtain ⟨hctl, _⟩ := execSpoolReserveFlash_ctl hres
  cases run with
  | none =>
    cases h
    exact .inl hctl
  | some run =>
    cases h
    refine .inr ?_
    rw [setLoc_ctl, hctl]
    rfl

theorem execSpoolMove_ctl {off size blkno span position : Nat}
    (h : execSpoolMove cfg σ p off size blkno span position = .ok σ') :
    σ'.ctl = { σ.ctl with wait := update σ.ctl.wait p none } ∨
    (σ.ctl.spools ≠ 0 ∧
      σ'.ctl = { σ.ctl with
        spools := σ.ctl.spools - 1, ram := update σ.ctl.ram p false
        wait := update σ.ctl.wait p none }) := by
  unfold execSpoolMove at h
  split at h
  · obtain ⟨bytes, _, h⟩ := bind_ok h
    cases h
    refine .inl ?_
    rw [setLoc_ctl]
    rfl
  · obtain ⟨σ₁, hfree, h⟩ := bind_ok h
    obtain ⟨hne, mp, _, rfl⟩ := swapramSpoolFree_ok hfree
    cases h
    refine .inr ⟨hne, ?_⟩
    rw [setLoc_ctl, setSpool_ctl]
    rfl

theorem execSpoolDiscard_ctl (h : execSpoolDiscard σ p = .ok σ') :
    ((σ.spool p).isRam = true ∧ σ.ctl.spools ≠ 0 ∧
      σ'.ctl = { σ.ctl with spools := σ.ctl.spools - 1, ram := update σ.ctl.ram p false }) ∨
    ((σ.spool p).isRam = false ∧ σ'.ctl = σ.ctl) := by
  unfold execSpoolDiscard at h
  cases hs : σ.spool p with
  | none =>
    rw [hs] at h
    cases h
    exact .inr ⟨rfl, rfl⟩
  | swapram off size =>
    rw [hs] at h
    obtain ⟨σ₁, hfree, rfl⟩ := exists_of_map_eq_ok h
    obtain ⟨hne, mp, _, rfl⟩ := swapramSpoolFree_ok hfree
    refine .inl ⟨rfl, hne, ?_⟩
    rw [setSpool_ctl]
    rfl
  | flash blkno span =>
    rw [hs] at h
    obtain ⟨⟨lost, mp⟩, _, rfl⟩ := exists_of_map_eq_ok h
    refine .inr ⟨rfl, ?_⟩
    exact setSpool_same { σ with swapmap := mp } p (by rw [hs]; rfl)

/-! ## Evacuating -/

theorem readdress_ctl (σ : Kernel) (mp : Map) (addr : Slot → Seg → Nat) :
    (σ.readdress mp addr).ctl = σ.ctl := rfl

/-- The images the reservation loop counts are the live slots among those it passes. -/
theorem evacReserve_images {done todo : List Slot} {next images next' n : Nat}
    (h : evacReserve done next images σ todo = .ok (some (next', n), σ')) :
    images ≤ n ∧ (n = images ↔ ∀ i ∈ todo, σ.ctl.live i = false) := by
  induction todo generalizing done next images σ with
  | nil =>
    cases h
    exact ⟨Nat.le_refl _, fun _ i hi => (nomatch hi), fun _ => rfl⟩
  | cons i rest ih =>
    simp only [evacReserve] at h
    split at h
    · rename_i hdead
      obtain ⟨hle, hcount⟩ := ih h
      refine ⟨hle, ?_⟩
      rw [hcount, List.forall_mem_cons]
      exact (and_iff_right hdead).symm
    rename_i hlive
    split at h
    · cases h
    split at h
    · cases h
    obtain ⟨⟨span, next₁, blocks, mp⟩, _, h⟩ := bind_ok h
    simp only at h
    split at h
    · obtain ⟨σ₁, _, h⟩ := bind_ok h
      cases h
    · have hle := (ih h).1
      exact ⟨by omega, fun hn => by omega, fun hdead => absurd (hdead i (by simp)) hlive⟩

/-- `swapram_evacuate` up to its first sleep: a success without a sleep means that there was nothing
    to move, and a sleep that there was. -/
theorem evacuateBegin_ctl {r : Option Bool} (h : evacuateBegin σ = .ok (r, σ')) :
    σ'.ctl = σ.ctl ∧ (r = some true → ∀ i, σ.ctl.live i = false) ∧
      (r = none → ¬∀ i, σ.ctl.live i = false) := by
  obtain ⟨mp, addr, next, hframe⟩ := evacuateBegin_frame h
  refine ⟨by rw [hframe]; exact readdress_ctl σ mp addr, ?_⟩
  obtain ⟨⟨reserved, σ₁⟩, hres, h⟩ := bind_ok h
  cases reserved with
  | none =>
    cases h
    exact ⟨(nomatch ·), (nomatch ·)⟩
  | some q =>
    have hdead := (evacReserve_images hres).2
    simp only at h
    split at h
    · rename_i h0
      cases h
      exact ⟨fun _ i => hdead.mp h0 i (List.mem_finRange i), (nomatch ·)⟩
    · rename_i h0
      cases h
      exact ⟨(nomatch ·), fun _ hall => h0 (hdead.mpr fun i _ => hall i)⟩

theorem drain_ctl (σ : Kernel) (flash : Nat → UInt8) (mp : SwapramPool) (tab : Slot → SrEnt)
    (owner : Option Codec) :
    (σ.drain flash mp tab owner).ctl =
      { σ.ctl with live := SrEnt.e_live ∘ tab, owner := owner } := rfl

/-- Where the swapper goes on: past the slots that no longer hold an image. `live` is the table it
    leaves. -/
structure Moved (c : Ctl) (r : Option ExpandAt) (c' : Ctl) : Prop where
  frame : ∃ live, c' = { c with live := live, owner := r.map fun _ => .decoder } ∧
    ∀ p, live p = true → c.live p = true
  left : ∀ p, c'.live p = true → ∃ loc, r = some loc ∧ p ∈ loc.slot :: loc.rest

/-- An image is done with, and the loop goes on with the later slots. -/
theorem evacRelease_moved {i : Slot} {rest : List Slot} {r : Option ExpandAt} {τ : Kernel}
    (hfree : σ.ctl.owner = none) (hlive : ∀ p, σ.ctl.live p = true → p ∈ i :: rest)
    (hrel : evacRelease σ i = .ok τ)
    (hnext : τ.ctl.owner = none → (∀ p, τ.ctl.live p = true → p ∈ rest) →
      Moved τ.ctl r σ'.ctl) : Moved σ.ctl r σ'.ctl := by
  obtain ⟨mp, _, rfl⟩ := evacRelease_ok hrel
  have hctl : ({ σ with sr_map := mp }.setEnt i
      { σ.sr_tab i with e_live := false, e_res := 0 }).ctl =
      { σ.ctl with live := update σ.ctl.live i false } := setEnt_ctl _ i _
  have hother : ∀ p, update σ.ctl.live i false p = true → p ≠ i ∧ σ.ctl.live p = true := by
    intro p hp
    by_cases hpi : p = i
    · subst hpi
      simp at hp
    · exact ⟨hpi, by rwa [Function.update_of_ne hpi] at hp⟩
  rw [hctl] at hnext
  obtain ⟨⟨live, hframe, hsub⟩, hleft⟩ := hnext hfree fun p hp => by
    obtain ⟨hne, hp⟩ := hother p hp
    exact (List.mem_cons.mp (hlive p hp)).resolve_left hne
  exact ⟨⟨live, hframe, fun p hp => (hother p (hsub p hp)).2⟩, hleft⟩

theorem evacNext_ctl {slots : List Slot} {r : Option ExpandAt} (hfree : σ.ctl.owner = none)
    (hlive : ∀ p, σ.ctl.live p = true → p ∈ slots) (h : evacNext σ slots = .ok (r, σ')) :
    Moved σ.ctl r σ'.ctl := by
  induction slots generalizing σ with
  | nil =>
    cases h
    refine ⟨⟨σ'.ctl.live, ?_, fun p hp => hp⟩, fun p hp => absurd (hlive p hp) (by simp)⟩
    rw [Option.map_none, ← hfree]
  | cons i rest ih =>
    simp only [evacNext] at h
    split at h
    · rename_i hdead
      refine ih hfree (fun p hp => ?_) h
      rcases List.mem_cons.mp (hlive p hp) with rfl | hmem
      · exact absurd hp (by rw [show σ.ctl.live p = false from hdead]; decide)
      · exact hmem
    · split at h
      · rename_i seg todo _
        obtain ⟨_, ⟨loc, rfl, hslot, hrest⟩, flash, rfl⟩ := evacSeg_frame h
        refine ⟨⟨σ.ctl.live, rfl, fun p hp => hp⟩, fun p hp => ⟨loc, rfl, ?_⟩⟩
        rw [hslot, hrest]
        exact hlive p hp
      · obtain ⟨σ₁, hrel, h⟩ := bind_ok h
        exact evacRelease_moved hfree hlive hrel fun hfree' hlive' => ih hfree' hlive' h

/-- From one block to the next: inside an image, to its next segment, or past it. -/
theorem evacResume_ctl {loc : ExpandAt} {r : Option ExpandAt}
    (hlive : ∀ p, σ.ctl.live p = true → p ∈ loc.slot :: loc.rest)
    (hown : σ.ctl.owner = some .decoder) (h : evacResume σ loc = .ok (r, σ')) :
    Moved σ.ctl r σ'.ctl := by
  simp only [evacResume] at h
  split at h
  · obtain ⟨⟨loc', rfl, hslot, hrest⟩, flash, rfl⟩ := evacBlock_frame h
    refine ⟨⟨σ.ctl.live, ?_, fun p hp => hp⟩, fun p hp => ⟨loc', rfl, ?_⟩⟩
    · rw [drain_ctl, Option.map_some, ← hown]
      rfl
    · rw [hslot, hrest]
      exact hlive p hp
  · obtain ⟨σ₁, hrel, h⟩ := bind_ok h
    obtain ⟨_, rfl⟩ := swapramCodecRelease_ok hrel
    split at h
    · obtain ⟨_, ⟨loc', rfl, hslot, hrest⟩, flash, rfl⟩ := evacSeg_frame h
      refine ⟨⟨σ.ctl.live, rfl, fun p hp => hp⟩, fun p hp => ⟨loc', rfl, ?_⟩⟩
      rw [hslot, hrest]
      exact hlive p hp
    · obtain ⟨σ₂, hfree, h⟩ := bind_ok h
      obtain ⟨⟨live, hframe, hsub⟩, hleft⟩ := evacRelease_moved (σ := { σ with sr_codec_owner := none })
        rfl hlive hfree fun hfree' hlive' => evacNext_ctl hfree' hlive' h
      exact ⟨⟨live, hframe, hsub⟩, hleft⟩

end

end DiscoBSD.Swap
