import Mathlib
import DiscoBSD.Swap.Ranges
import DiscoBSD.Swap.Spec

/-!
# Long runs

A run given as a list of events is checked by evaluating it, and most of that would go into the decoder, one
byte of a u area after the other. **What comes out of the stream of a zeroed u area is known**, so a
swapin of such an image need not run it.
-/

set_option autoImplicit false

namespace DiscoBSD.Swap

open DiscoBSD.Lib DiscoBSD.Rmap DiscoBSD.Hsx DiscoBSD.Swapram

variable {cfg : Conf} {σ : Kernel} {ok : Kernel → Event → Bool}

/-- The decoder makes a zeroed u area of its stream. -/
theorem expanded_zero {off clen : Nat} (hread : readAt σ.sr_pool off clen = zeroStream) :
    expanded σ off clen usize = zeroU := by
  have hready := (Ready.init lookaheadBits (2 ^ 32) fun _ => 0).feed rfl zeroStream
  obtain ⟨n, d, mem, bytes, hcall, hbytes, hn, hle, hrest, hshort⟩ :=
    @Ready.run lookaheadBits (2 ^ 32) 32 usize _ _ _ _ (by decide) rfl (Nat.le_refl _) (by decide) hready
      (by decide) (by decide)
  have hall : refDecode lookaheadBits ([] ++ bytesBits zeroStream) [] = zeroU := refDecode_zeroStream
  have hlen : zeroU.length = usize := List.length_replicate
  have hfull : n = usize := by
    by_contra hne
    have heq := (hshort (Nat.lt_of_le_of_ne hle hne)).2
    rw [hall, List.nil_append] at heq
    rw [heq, ← hn] at hlen
    exact hne hlen
  have hprefix := hrest.out_begins
  rw [hall, List.nil_append] at hprefix
  have heq : bytes = zeroU := hprefix.eq_of_length (by rw [← hn, hfull, hlen])
  simp only [expanded, hread]
  rw [hcall, ← heq, hbytes]
  rfl

/-- The image is that of a zeroed u area, and of nothing else. -/
def Zeroed (σ : Kernel) (p : Slot) : Prop :=
  let e := σ.sr_tab p
  swaptext (σ.proc p) = 0 ∧ e.e_live = true ∧ e.e_rlen srData = 0 ∧ e.e_rlen srStack = 0 ∧ e.e_rlen srU = usize ∧
    σ.sr_codec_owner = none ∧ readAt σ.sr_pool e.e_off (e.e_clen srU) = zeroStream

instance (σ : Kernel) (p : Slot) : Decidable (Zeroed σ p) := inferInstanceAs (Decidable (_ ∧ _))

/-- `swapinBegin`, without the decoder where the image is `Zeroed`. -/
def swapinZero (cfg : Conf) (σ : Kernel) (p : Slot) : Except Fault Kernel :=
  if Zeroed σ p then
    let e := σ.sr_tab p
    match swapramPoolFree σ.sr_map e.e_off e.e_res with
    | (false, _) => .error (.panic "swapram: free")
    | (true, mp) =>
      .ok (swapinEnd cfg ({ σ with sr_map := mp }.setEnt p { e with e_live := false, e_res := 0 }) p
        (Function.update (fun _ => []) srU zeroU))
  else swapinBegin cfg σ p

theorem expandSegs_zero {p : Slot} (h : Zeroed σ p) :
    expandSegs σ (σ.sr_tab p) (σ.sr_tab p).e_off segs = .ok (Function.update (fun _ => []) srU zeroU, σ) := by
  obtain ⟨-, -, hdata, hstack, hu, hfree, hread⟩ := h
  have hne : usize ≠ 0 := by decide
  have hlen : zeroU.length = usize := List.length_replicate
  have hexp : srExpand σ (σ.sr_tab p).e_off ((σ.sr_tab p).e_clen srU) usize = .ok (zeroU, σ) := by
    rw [srExpand_of_free hfree, expanded_zero hread]
  have hsegs : segs = [srData, srStack, srU] := rfl
  rw [hsegs, expandSegs, if_pos hdata, expandSegs, if_pos hstack, expandSegs, hu, if_neg hne, hexp]
  simp only [bind, Except.bind, pure, Except.pure, hlen, ne_eq, not_true_eq_false, if_false, expandSegs]

theorem swapinZero_eq (p : Slot) : swapinZero cfg σ p = swapinBegin cfg σ p := by
  unfold swapinZero
  by_cases h : Zeroed σ p
  · have hlive := h.2.1
    have hpresent : swapramPresent σ p = true := hlive
    rw [if_pos h, swapinBegin, if_neg (not_not_intro h.1), swapinLoad, if_pos hpresent, swapramIn,
      if_neg (by rw [hlive]; decide), expandSegs_zero h]
    simp only [bind, Except.bind, pure, Except.pure]
    cases swapramPoolFree σ.sr_map (σ.sr_tab p).e_off (σ.sr_tab p).e_res with
    | mk done mp =>
      cases done with
      | false => rfl
      | true => rfl
  · rw [if_neg h]

/-- `Kernel.step`, with `swapinZero`. -/
def Kernel.stepZero (cfg : Conf) (σ : Kernel) : Event → Except Fault Kernel
  | .swapin p => swapinZero cfg σ p
  | e => σ.step cfg e

theorem stepZero_eq (e : Event) : σ.stepZero cfg e = σ.step cfg e := by
  cases e with
  | swapin p => exact swapinZero_eq p
  | _ => rfl

/-- `Kernel.exec`, with `swapinZero`. -/
def Kernel.execZero (cfg : Conf) (ok : Kernel → Event → Bool) (σ : Kernel) : List Event → Option Kernel
  | [] => some σ
  | e :: es =>
    if σ.Enabled cfg e ∧ ok σ e = true then
      match σ.stepZero cfg e with
      | .ok σ' => σ'.execZero cfg ok es
      | .error _ => none
    else none

theorem execZero_eq (es : List Event) : σ.execZero cfg ok es = σ.exec cfg ok es := by
  induction es generalizing σ with
  | nil => rfl
  | cons e es ih =>
    rw [Kernel.execZero, Kernel.exec, stepZero_eq]
    refine if_congr Iff.rfl ?_ rfl
    cases σ.step cfg e with
    | ok σ' => exact ih
    | error f => exact Eq.refl none

/-- A given run that is a long one. -/
theorem Runs.givenZero (cfg : Conf) (ok : Kernel → Event → Bool) (es : List Event) (P : Kernel → Bool)
    (hboot : initSwapmap cfg.dev = .ok (none, picoMap))
    (h : ((Swap.boot cfg picoMap 4).execZero cfg ok es).any P) :
    ∃ σ, Runs cfg (fun σ e => ok σ e = true) σ ∧ P σ = true :=
  Runs.given cfg ok es P hboot (by rwa [execZero_eq] at h)

end DiscoBSD.Swap

/-!
# How many ranges the segment table serves

`sr_seg` has `NPROC + 1` entries, one more than there are images. But an exec spool holds a range of its
own, and a process that is swapped out in its exec holds two. A table of `n` slots is sure to take back
any of `n` ranges and no more: **the panics on a refused free are out of reach while the images and
the spools together are no more than the entries of the table**, and within reach when they are.
-/

namespace DiscoBSD.Swap

open DiscoBSD.Lib DiscoBSD.Rmap DiscoBSD.Hsx DiscoBSD.Swapram

section
variable {cfg : Conf} {σ : Kernel}

/-- What is held is counted by `swapram_images` and `sr_spools`. -/
theorem held_length (h : EpochInv σ.ctl) : σ.held.length = swapramImages σ + σ.sr_spools := by
  have himage : ∀ e : SrEnt, e.range.isSome = e.e_live := by
    intro e
    unfold SrEnt.range
    split
    · rename_i hlive
      exact hlive.symm
    · rename_i hlive
      exact (Bool.eq_false_iff.mpr hlive).symm
  have hspool : ∀ s : Spool, s.range.isSome = s.isRam := by
    intro s
    cases s <;> rfl
  have hcount : σ.sr_spools = tally σ.ctl.ram := h.spools
  rw [hcount, Kernel.held, List.length_append, Kernel.imageRanges, Kernel.spoolRanges,
    List.length_filterMap_eq_countP, List.length_filterMap_eq_countP]
  simp only [Function.comp_apply, himage, hspool]
  rfl

/-- The pool takes back whatever is held of it. -/
theorem TierInv.freesAll (h : TierInv cfg σ) (he : EpochInv σ.ctl)
    (hroom : swapramImages σ + σ.sr_spools ≤ nproc + 1) : FreesAll σ := by
  have hle : σ.held.length ≤ σ.sr_map.p_nseg := by
    rw [held_length he, h.table.2]
    exact hroom
  refine ⟨fun p hlive => ?_, fun p hlive => ?_, fun p off size hs => ?_, fun why loc hs => ?_⟩
  · refine h.pool.frees ((held_image σ p).mem_iff.mpr (List.mem_append_left _ ?_)) hle
    rw [SrEnt.range, hlive]
    exact List.mem_singleton.mpr rfl
  · have hp : p ≠ 0 := by
      rintro rfl
      exact absurd (hlive.symm.trans h.zero.1) (by rintro ⟨⟩)
    rw [((h.slot p hp).live hlive).2.2.2.1 srU]
    exact (by decide : usize ≠ 0)
  · refine h.pool.frees ((held_spool σ p).mem_iff.mpr (List.mem_append_left _ ?_)) hle
    rw [hs]
    exact List.mem_singleton.mpr rfl
  · have hok := h.swapper
    rw [hs] at hok
    exact hok

theorem roundgrain_mono {m n : Nat} (hle : m ≤ n) (hlt : n + 3 < 2 ^ 32) :
    roundgrain m ≤ roundgrain n := by
  rw [roundgrain_eq hlt, roundgrain_eq (by omega)]
  exact roundUp_mono hle

/-- An image that the tier has taken in the worst case can be cut to what its streams need. -/
theorem TierInv.trimsAll (h : TierInv cfg σ) (he : EpochInv σ.ctl)
    (hroom : swapramImages σ + σ.sr_spools < nproc) : TrimsAll σ.sr_map := by
  intro want off mp hlt halloc used hle
  obtain ⟨hinv, htable⟩ := h.pool.allocated halloc
  refine hinv.trims List.mem_cons_self (roundgrain_mono hle hlt) ?_
  rw [List.length_cons, held_length he, htable.nseg, h.table.2]
  omega

theorem TierInv.small {p : Slot} (h : TierInv cfg σ) (hp : σ.Awake p) : (σ.proc p).Small := by
  obtain ⟨_, _, _, hslot⟩ := h.awake hp
  intro seg
  rw [hslot.core hp.2.1 (.inl hp.2.2.1) seg]
  exact hslot.len_le hp.2.1 seg

end

/-- A step that may give a range back finds no more ranges held than the table has entries, and one
    that puts an image into the tier finds two fewer. -/
def Kernel.Roomy (σ : Kernel) (e : Event) : Prop :=
  (e.givesBack = true → swapramImages σ + σ.sr_spools ≤ nproc + 1) ∧
    (e.swapsOut = true → σ.sr_admit = true → swapramImages σ + σ.sr_spools < nproc)

instance (σ : Kernel) (e : Event) : Decidable (σ.Roomy e) := inferInstanceAs (Decidable (_ ∧ _))

/-- **In every run whose steps all find room, no free is refused**: none of the four panics is
    reached. -/
theorem segment_table_serves {cfg : Conf} {σ : Kernel} {e : Event} (h : Runs cfg Kernel.Roomy σ)
    (hen : σ.Enabled cfg e) (hroom : σ.Roomy e) :
    σ.step cfg e ≠ .error (.panic "swapram: free") ∧
    σ.step cfg e ≠ .error (.panic "swapram: spool free") ∧
    σ.step cfg e ≠ .error (.panic "swapram: evacuate free") ∧
    σ.step cfg e ≠ .error (.panic "swapram: trim") := by
  have hepoch := h.reachable.epochInv
  have htier := h.tierInv
  have havoid : Avoids [freePanic, spoolFreePanic, evacFreePanic, trimPanic] (σ.step cfg e) := by
    refine step_avoids (by decide) hepoch hen (fun hf => absurd hf (by decide)) (fun _ hback => ?_)
      (fun _ hout htake => ⟨?_, fun p hp => htier.small hp⟩)
    · exact htier.freesAll hepoch (hroom.1 hback)
    · exact htier.trimsAll hepoch (hroom.2 hout htake)
  exact ⟨havoid freePanic (by decide), havoid spoolFreePanic (by decide),
    havoid evacFreePanic (by decide), havoid trimPanic (by decide)⟩

/-- Process 2 is swapped in from the tier with one other image there. -/
theorem segment_table_serves_pair : ∃ σ, Runs pico Kernel.Roomy σ ∧ swapramImages σ = 2 ∧
    σ.step pico (.swapin 2) ≠ .error (.panic "swapram: free") := by
  obtain ⟨σ, hrun, hσ⟩ := Runs.given pico (fun σ e => decide (σ.Roomy e))
    [.fork 1 2 zeroU, .swapout 1 zeroU]
    (fun σ => decide (σ.Enabled pico (.swapin 2)) && decide (σ.Roomy (.swapin 2)) &&
      decide (swapramImages σ = 2)) rfl (by decide +kernel)
  simp only [Bool.and_eq_true, decide_eq_true_eq] at hσ
  obtain ⟨⟨hen, hroom⟩, hcount⟩ := hσ
  have hroomy := hrun.mono fun σ e hmeet => of_decide_eq_true hmeet
  exact ⟨σ, hroomy, hcount, (segment_table_serves hroomy hen hroom).1⟩

/-! ## The table is too small

Every second process has an image and a spool, and the images that lie between what is held are given
back. -/

/-- A configuration with a pool of 64 KB. -/
def wide : Conf := { pico with pool := 64 * 1024, pool_pos := by decide, pool_le := by decide }

/-- Every user process but the first. -/
def others : List Slot := (List.finRange nproc).drop 2

/-- Every second process but the first. -/
def evens : List Slot := others.filter fun p => p.val % 2 = 0 ∧ p ≠ 2

/-- The children are forked, and every second one starts an exec and is swapped out in it. Then images come
    back and leave again: the new ones go where there is room behind the spools. -/
def crowd : List Event :=
  others.map (fun p => .fork 1 p zeroU) ++ [.swapout 1 zeroU] ++
    evens.flatMap (fun p => [.swapin p, .spoolAlloc p 740, .swapout p zeroU]) ++
    evens.dropLast.flatMap (fun p => [.swapin p, .swapout p zeroU]) ++
    [1, 6, 10, 14, 18].flatMap (fun p => [.swapin p, .swapout p zeroU])

/-- The table is full, and the image of process 2 lies between the pool's start and another image. -/
theorem segment_table_refuses : ∃ σ e, Reachable wide σ ∧ σ.Enabled wide e ∧
    σ.step wide e = .error (.panic "swapram: free") := by
  obtain ⟨σ, hrun, hσ⟩ := Runs.givenZero wide (fun _ _ => true) crowd
    (fun σ => decide (σ.Enabled wide (.swapin 2)) &&
      (match σ.step wide (.swapin 2) with
        | .error f => decide (f = .panic "swapram: free")
        | .ok _ => false)) rfl (by decide +kernel)
  simp only [Bool.and_eq_true, decide_eq_true_eq] at hσ
  refine ⟨σ, .swapin 2, hrun.reachable, hσ.1, ?_⟩
  cases hstep : σ.step wide (.swapin 2) with
  | ok τ =>
    rw [hstep] at hσ
    exact absurd hσ.2 nofun
  | error f =>
    rw [hstep] at hσ
    rw [of_decide_eq_true hσ.2]

end DiscoBSD.Swap
