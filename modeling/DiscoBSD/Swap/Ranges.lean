import Mathlib
import DiscoBSD.Swap.Panic
import DiscoBSD.Swap.Swapout
import DiscoBSD.Swapram.PoolTable

/-!
# Who holds the pool

A range of the pool belongs to a live entry of `sr_tab` or to a spool of an exec. Nothing records this
in the kernel: the ranges are in two tables that the segment table does not know of. The invariant
says that the two tables together are what the allocator has given out, and **what the fields of a
process slot say about each other**: a live image is that of a process that is swapped out, and its
lengths are the process's.
-/

set_option autoImplicit false

namespace DiscoBSD.Swap

open DiscoBSD.Lib DiscoBSD.Rmap DiscoBSD.Hsx DiscoBSD.Swapram
open Function (update)

/-! ## The ranges -/

/-- The range of an image. -/
def SrEnt.range (e : SrEnt) : Option Extent :=
  if e.e_live then some ⟨e.e_off, roundgrain e.e_res⟩ else none

/-- The range of a spool. -/
def Spool.range : Spool → Option Extent
  | .swapram off size => some ⟨off, roundgrain size⟩
  | _ => Option.none

def Kernel.imageRanges (σ : Kernel) : List Extent :=
  (List.finRange nproc).filterMap (SrEnt.range ∘ σ.sr_tab)

def Kernel.spoolRanges (σ : Kernel) : List Extent :=
  (List.finRange nproc).filterMap (Spool.range ∘ σ.spool)

/-- What is held of the pool. -/
def Kernel.held (σ : Kernel) : List Extent := σ.imageRanges ++ σ.spoolRanges

/-- What the other slots hold. -/
def Kernel.heldButImage (σ : Kernel) (p : Slot) : List Extent :=
  ((List.finRange nproc).erase p).filterMap (SrEnt.range ∘ σ.sr_tab) ++ σ.spoolRanges

def Kernel.heldButSpool (σ : Kernel) (p : Slot) : List Extent :=
  σ.imageRanges ++ ((List.finRange nproc).erase p).filterMap (Spool.range ∘ σ.spool)

section
variable (σ : Kernel) (p : Slot)

theorem held_image : σ.held.Perm ((σ.sr_tab p).range.toList ++ σ.heldButImage p) := by
  rw [Kernel.held, Kernel.heldButImage, ← List.append_assoc]
  exact (filterMap_split _ (List.nodup_finRange nproc) (List.mem_finRange p)).append_right _

theorem held_spool : σ.held.Perm ((σ.spool p).range.toList ++ σ.heldButSpool p) := by
  have hsplit := filterMap_split (Spool.range ∘ σ.spool) (List.nodup_finRange nproc)
    (List.mem_finRange p)
  refine (hsplit.append_left σ.imageRanges).trans ?_
  rw [← List.append_assoc]
  exact (List.perm_append_comm.append_right _).trans (by rw [List.append_assoc]; exact .refl _)

theorem setEnt_held (e : SrEnt) : (σ.setEnt p e).held.Perm (e.range.toList ++ σ.heldButImage p) := by
  refine (held_image (σ.setEnt p e) p).trans ?_
  have hrest : (σ.setEnt p e).heldButImage p = σ.heldButImage p := by
    refine congrArg (· ++ σ.spoolRanges) (List.filterMap_congr fun i hi => ?_)
    exact congrArg SrEnt.range (update_of_mem_erase σ.sr_tab e (List.nodup_finRange nproc) hi)
  have hself : (σ.setEnt p e).sr_tab p = e := Function.update_self ..
  rw [hrest, hself]

theorem setSpool_held (s : Spool) :
    (σ.setSpool p s).held.Perm (s.range.toList ++ σ.heldButSpool p) := by
  refine (held_spool (σ.setSpool p s) p).trans ?_
  have hrest : (σ.setSpool p s).heldButSpool p = σ.heldButSpool p := by
    refine congrArg (σ.imageRanges ++ ·) (List.filterMap_congr fun i hi => ?_)
    exact congrArg Spool.range (update_of_mem_erase σ.spool s (List.nodup_finRange nproc) hi)
  have hself : (σ.setSpool p s).spool p = s := Function.update_self ..
  rw [hrest, hself]

end

/-! ## The invariant -/

/-- What the fields of one slot say about each other. -/
structure SlotOk (cfg : Conf) (r : Proc) (e : SrEnt) (j : Option OutJob) : Prop where
  fits : r.p_stat = .run → r.p_dsize + r.p_ssize ≤ maxmem + cfg.pool
  core : r.p_stat = .run → (r.sload = true ∨ j ≠ none) → ∀ seg, (r.core seg).length = r.len seg
  job : j ≠ none → r.p_stat = .run ∧ r.slock = true ∧ e.e_live = false
  live : e.e_live = true → r.p_stat = .run ∧ r.sload = false ∧ j = none ∧
    (∀ seg, e.e_rlen seg = r.len seg) ∧ e.e_res = srCompressedSize e

/-- Swapped out, with nothing under way. -/
structure Kernel.Away (σ : Kernel) (p : Slot) : Prop where
  slot : p ≠ 0
  run : (σ.proc p).p_stat = .run
  out : (σ.proc p).sload = false
  job : σ.job p = none

/-- What the place where the swapper sleeps says about the slot it works on. -/
def SwapperOk (σ : Kernel) : Swapper → Prop
  | .expanding _ loc => (σ.sr_tab loc.slot).e_live = true
  | .text p | .packed p => σ.Away p
  | .reading p todo got => σ.Away p ∧ (σ.sr_tab p).e_live = false ∧
      ∀ seg, seg ∉ todo → (got seg).length = (σ.proc p).len seg
  | _ => True

structure TierInv (cfg : Conf) (σ : Kernel) : Prop where
  pool : PoolInv ⟨σ.sr_map, σ.held⟩
  table : σ.sr_map.p_size = cfg.pool / 4 * 4 ∧ σ.sr_map.p_nseg = nproc + 1
  slot : ∀ p, p ≠ 0 → SlotOk cfg (σ.proc p) (σ.sr_tab p) (σ.job p)
  zero : (σ.sr_tab 0).e_live = false ∧ σ.job 0 = none
  busy : ∀ p, σ.job p ≠ none → (σ.proc p).sload = true ∨ σ.swapper = .swapout p
  swapper : SwapperOk σ σ.swapper

section
variable {cfg : Conf} {σ σ' : Kernel} {p : Slot}

/-! ## Frames -/

theorem held_eq (htab : σ'.sr_tab = σ.sr_tab) (hspool : σ'.spool = σ.spool) : σ'.held = σ.held := by
  simp only [Kernel.held, Kernel.imageRanges, Kernel.spoolRanges, htab, hspool]

/-- One slot changes, and perhaps what is held and where the swapper sleeps. -/
theorem TierInv.update (h : TierInv cfg σ) (hp : p ≠ 0) (hpool : PoolInv ⟨σ'.sr_map, σ'.held⟩)
    (htable : SameTable σ.sr_map σ'.sr_map) (htab : ∀ q, q ≠ p → σ'.sr_tab q = σ.sr_tab q)
    (hproc : ∀ q, q ≠ p → σ'.proc q = σ.proc q) (hjob : ∀ q, q ≠ p → σ'.job q = σ.job q)
    (hslot : SlotOk cfg (σ'.proc p) (σ'.sr_tab p) (σ'.job p))
    (hbusy : ∀ q, σ'.job q ≠ none → (σ'.proc q).sload = true ∨ σ'.swapper = .swapout q)
    (hsw : SwapperOk σ' σ'.swapper) : TierInv cfg σ' := by
  refine ⟨hpool, ?_, ?_, ?_, hbusy, hsw⟩
  · rw [htable.size, htable.nseg]
    exact h.table
  · intro q hq
    by_cases hqp : q = p
    · exact hqp ▸ hslot
    · rw [hproc q hqp, htab q hqp, hjob q hqp]
      exact h.slot q hq
  · rw [htab 0 hp.symm, hjob 0 hp.symm]
    exact h.zero

/-- The swapper stays where it is, and the slot it works on is not the one that changed. -/
theorem SwapperOk.other {s : Swapper} (h : SwapperOk σ s) (hp : ¬σ.Away p)
    (hlive : ∀ q, (σ.sr_tab q).e_live = true → (σ'.sr_tab q).e_live = true)
    (htab : ∀ q, q ≠ p → σ'.sr_tab q = σ.sr_tab q) (hproc : ∀ q, q ≠ p → σ'.proc q = σ.proc q)
    (hjob : ∀ q, q ≠ p → σ'.job q = σ.job q) : SwapperOk σ' s := by
  have hne : ∀ q, σ.Away q → q ≠ p := by
    rintro q hq rfl
    exact hp hq
  have haway : ∀ q, σ.Away q → σ'.Away q := by
    intro q hq
    refine ⟨hq.slot, ?_, ?_, ?_⟩
    · rw [hproc q (hne q hq)]
      exact hq.run
    · rw [hproc q (hne q hq)]
      exact hq.out
    · rw [hjob q (hne q hq)]
      exact hq.job
  cases s with
  | expanding why loc => exact hlive _ h
  | text q => exact haway q h
  | packed q => exact haway q h
  | reading q todo got =>
    obtain ⟨hq, hdead, hgot⟩ := h
    refine ⟨haway q hq, ?_, ?_⟩
    · rw [htab q (hne q hq)]
      exact hdead
    · rw [hproc q (hne q hq)]
      exact hgot
  | idle => trivial
  | geteblk why => trivial
  | swapout q => trivial

/-- Nothing that the invariant reads changes. -/
theorem TierInv.same (h : TierInv cfg σ) (hmap : σ'.sr_map = σ.sr_map) (htab : σ'.sr_tab = σ.sr_tab)
    (hspool : σ'.spool = σ.spool) (hproc : σ'.proc = σ.proc) (hjob : σ'.job = σ.job)
    (hsw : σ'.swapper = σ.swapper) : TierInv cfg σ' := by
  have haway : ∀ q, σ.Away q → σ'.Away q := fun q hq =>
    ⟨hq.slot, by rw [hproc]; exact hq.run, by rw [hproc]; exact hq.out, by rw [hjob]; exact hq.job⟩
  refine ⟨?_, ?_, ?_, ?_, ?_, ?_⟩
  · rw [hmap, held_eq htab hspool]
    exact h.pool
  · rw [hmap]
    exact h.table
  · rw [hproc, htab, hjob]
    exact h.slot
  · rw [htab, hjob]
    exact h.zero
  · rw [hproc, hjob, hsw]
    exact h.busy
  · have hok := h.swapper
    rw [hsw]
    revert hok
    cases σ.swapper with
    | expanding why loc => exact fun hok => by simpa only [SwapperOk, htab] using hok
    | text q => exact haway q
    | packed q => exact haway q
    | reading q todo got =>
      rintro ⟨hq, hdead, hgot⟩
      exact ⟨haway q hq, by rw [htab]; exact hdead, by rw [hproc]; exact hgot⟩
    | idle => exact id
    | geteblk why => exact id
    | swapout q => exact id

/-- A process that is not away changes, and its slot has no swapout under way. -/
theorem TierInv.ofProc (h : TierInv cfg σ) (hp : p ≠ 0) (haway : ¬σ.Away p) (hnone : σ.job p = none)
    (hmap : σ'.sr_map = σ.sr_map) (htab : σ'.sr_tab = σ.sr_tab) (hspool : σ'.spool = σ.spool)
    (hjob : σ'.job = σ.job) (hsw : σ'.swapper = σ.swapper)
    (hproc : ∀ q, q ≠ p → σ'.proc q = σ.proc q)
    (hslot : SlotOk cfg (σ'.proc p) (σ.sr_tab p) none) : TierInv cfg σ' := by
  refine h.update hp ?_ ?_ (fun q _ => by rw [htab]) hproc (fun q _ => by rw [hjob]) ?_ ?_ ?_
  · rw [hmap, held_eq htab hspool]
    exact h.pool
  · rw [hmap]
    exact .refl _
  · rw [htab, hjob, hnone]
    exact hslot
  · intro q hq
    rw [hjob] at hq
    have hqp : q ≠ p := by
      rintro rfl
      exact hq hnone
    rw [hproc q hqp, hsw]
    exact h.busy q hq
  · rw [hsw]
    exact h.swapper.other haway (fun q hq => by rw [htab]; exact hq) (fun q _ => by rw [htab])
      hproc (fun q _ => by rw [hjob])

/-- A process that can run has no swapout under way. -/
theorem TierInv.awake (h : TierInv cfg σ) (hp : σ.Awake p) :
    p ≠ 0 ∧ ¬σ.Away p ∧ σ.job p = none ∧ SlotOk cfg (σ.proc p) (σ.sr_tab p) (σ.job p) := by
  obtain ⟨hne, _, hload, hlock⟩ := hp
  have hslot := h.slot p hne
  refine ⟨hne, fun haway => ?_, ?_, hslot⟩
  · exact absurd (hload.symm.trans haway.out) nofun
  · by_contra hjob
    exact absurd (hlock.symm.trans (hslot.job hjob).2.1) nofun

/-- A slot that is not in use has nothing in the tier. -/
theorem TierInv.unused (h : TierInv cfg σ) (hs : (σ.proc p).p_stat ≠ .run) :
    ¬σ.Away p ∧ σ.job p = none ∧ (σ.sr_tab p).e_live = false := by
  refine ⟨fun haway => hs haway.run, ?_, ?_⟩
  · by_cases hp : p = 0
    · subst hp
      exact h.zero.2
    · by_contra hjob
      exact hs ((h.slot p hp).job hjob).1
  · by_cases hp : p = 0
    · subst hp
      exact h.zero.1
    · by_contra hlive
      exact hs ((h.slot p hp).live (by simpa using hlive)).1

/-! ## Swapping out -/

/-- The lengths the swap code works with are far from the end of their type. -/
theorem SlotOk.len_le {r : Proc} {e : SrEnt} {j : Option OutJob} (h : SlotOk cfg r e j)
    (hrun : r.p_stat = .run) (seg : Seg) : r.len seg ≤ maxmem + sram := by
  have hfits := h.fits hrun
  have hpool := cfg.pool_le
  have hu : usize ≤ maxmem + sram := by decide
  fin_cases seg
  · show r.p_dsize - swaptext r ≤ _
    omega
  · show r.p_ssize ≤ _
    omega
  · exact hu

theorem RamOut.want_lt {u : List UInt8} (o : RamOut cfg σ p u)
    (hlen : ∀ seg, ((σ.proc p).core seg).length = (σ.proc p).len seg)
    (hle : ∀ seg, (σ.proc p).len seg ≤ maxmem + sram) :
    (o.stream srData).length + (o.stream srStack).length + srWorst usize + 3 < 2 ^ 32 := by
  have hworst : ∀ n, n ≤ maxmem + sram → srWorst n ≤ 1000000 := by
    intro n hn
    unfold srWorst
    unfold maxmem sram at hn
    omega
  have hd := (o.streams srData).length_le
  have hs := (o.streams srStack).length_le
  rw [captured_length hlen o.ulen] at hd hs
  have h1 := hworst _ (hle srData)
  have h2 := hworst _ (hle srStack)
  have h3 := hworst usize (by decide)
  omega

/-- A range that is not empty rounds to one that is not. -/
theorem roundgrain_pos {n : Nat} (h0 : 0 < n) (hlt : n + 3 < 2 ^ 32) : roundgrain n ≠ 0 := by
  have hle := le_roundUp (a := swapramGrain) (by decide) n
  rw [roundgrain_eq hlt, grainCeil]
  omega

/-- The tier takes the image of a process. -/
theorem RamOut.tier {u : List UInt8} (o : RamOut cfg σ p u) (h : TierInv cfg σ) (hp : p ≠ 0)
    (hrun : (σ.proc p).p_stat = .run) (hjob : σ.job p = none)
    (hdead : (σ.sr_tab p).e_live = false)
    (hlen : ∀ seg, ((σ.proc p).core seg).length = (σ.proc p).len seg)
    (hsw : ∀ todo got, σ.swapper ≠ .reading p todo got) : TierInv cfg o.after := by
  have hslot := h.slot p hp
  have hlt := o.want_lt hlen (hslot.len_le hrun)
  have hworst := o.worst
  have hpos := o.stream_pos
  have hother : ∀ q, q ≠ p → o.after.proc q = σ.proc q := fun q hq => Function.update_of_ne hq _ _
  have htab : ∀ q, q ≠ p → o.after.sr_tab q = σ.sr_tab q := fun q hq => Function.update_of_ne hq _ _
  have hproc : o.after.proc p = { σ.proc p with p_at := fun _ => 0, sload := false, slock := false } :=
    Function.update_self ..
  have hent : o.after.sr_tab p = o.ent := Function.update_self ..
  have haway : o.after.Away p := ⟨hp, by rw [hproc]; exact hrun, by rw [hproc], hjob⟩
  -- First the worst case is taken, and then all of it but what the streams need goes back.
  obtain ⟨h₁, t₁⟩ := h.pool.allocated o.alloc
  obtain ⟨_, h₂, t₂⟩ := h₁.trimmed List.mem_cons_self (roundgrain_pos (by omega) (by omega)) o.trim
  rw [List.erase_cons_head] at h₂
  refine h.update hp ?_ (t₁.trans t₂) htab hother (fun q _ => rfl) ?_ ?_ ?_
  · have hheld : o.after.held.Perm (o.ent.range.toList ++ σ.heldButImage p) := setEnt_held σ p o.ent
    have hbefore := held_image σ p
    have hnone : (σ.sr_tab p).range = none := by rw [SrEnt.range, hdead]; rfl
    rw [hnone] at hbefore
    exact h₂.perm ((hbefore.cons _).trans hheld.symm)
  · rw [hproc, hent, show o.after.job p = none from hjob]
    refine ⟨hslot.fits, fun _ hor => ?_, fun hne => absurd rfl hne, fun _ => ?_⟩
    · exact absurd hor (by simp)
    · exact ⟨hrun, rfl, rfl, captured_length hlen o.ulen, o.ent_size⟩
  · intro q hq
    have hqp : q ≠ p := by
      rintro rfl
      exact hq hjob
    rw [hother q hqp]
    exact h.busy q hq
  · show SwapperOk o.after σ.swapper
    have hok := h.swapper
    have hkeep : ∀ q, σ.Away q → o.after.Away q := by
      intro q hq
      by_cases hqp : q = p
      · exact hqp ▸ haway
      · exact ⟨hq.slot, by rw [hother q hqp]; exact hq.run, by rw [hother q hqp]; exact hq.out, hq.job⟩
    cases hs : σ.swapper with
    | expanding why loc =>
      rw [hs] at hok
      by_cases hqp : loc.slot = p
      · show (o.after.sr_tab loc.slot).e_live = true
        rw [hqp, hent]
        rfl
      · show (o.after.sr_tab loc.slot).e_live = true
        rw [htab _ hqp]
        exact hok
    | text q =>
      rw [hs] at hok
      exact hkeep q hok
    | packed q =>
      rw [hs] at hok
      exact hkeep q hok
    | reading q todo got =>
      rw [hs] at hok
      obtain ⟨hq, hqdead, hgot⟩ := hok
      have hqp : q ≠ p := by
        rintro rfl
        exact hsw todo got hs
      refine ⟨hkeep q hq, ?_, ?_⟩
      · rw [htab q hqp]
        exact hqdead
      · rw [hother q hqp]
        exact hgot
    | idle => trivial
    | geteblk why => trivial
    | swapout q => trivial

/-- Flash takes it. The swapper may go to sleep in the swapout, and then the process is not loaded. -/
theorem FlashOut.tier {o : FlashOut σ p} (h : TierInv cfg σ) (hp : p ≠ 0)
    (hrun : (σ.proc p).p_stat = .run) (hjob : σ.job p = none)
    (hdead : (σ.sr_tab p).e_live = false)
    (hlen : ∀ seg, ((σ.proc p).core seg).length = (σ.proc p).len seg)
    (hsw : (σ'.swapper = .swapout p ∧ σ.swapper = .idle) ∨
      (σ'.swapper = σ.swapper ∧ (σ.proc p).sload = true))
    (hσ' : σ' = { o.after with swapper := σ'.swapper }) : TierInv cfg σ' := by
  have hslot := h.slot p hp
  have hother : ∀ q, q ≠ p → σ'.proc q = σ.proc q := by
    intro q hq
    rw [hσ']
    exact Function.update_of_ne hq _ _
  have hjobs : ∀ q, q ≠ p → σ'.job q = σ.job q := by
    intro q hq
    rw [hσ']
    exact Function.update_of_ne hq _ _
  have hproc : σ'.proc p = { σ.proc p with slock := true } := by
    rw [hσ']
    exact Function.update_self ..
  have hself : σ'.job p = some ⟨o.a, o.span, (σ.proc p).toMove⟩ := by
    rw [hσ']
    exact Function.update_self ..
  have htab : σ'.sr_tab = σ.sr_tab := by rw [hσ']; rfl
  have hspool : σ'.spool = σ.spool := by rw [hσ']; rfl
  have hmap : σ'.sr_map = σ.sr_map := by rw [hσ']; rfl
  refine h.update hp ?_ ?_ (fun q _ => by rw [htab]) hother hjobs ?_ ?_ ?_
  · rw [hmap, held_eq htab hspool]
    exact h.pool
  · rw [hmap]
    exact .refl _
  · rw [hproc, htab, hself]
    exact ⟨hslot.fits, fun _ _ => hlen, fun _ => ⟨hrun, rfl, hdead⟩,
      fun hlive => absurd (hlive.symm.trans hdead) nofun⟩
  · intro q hq
    by_cases hqp : q = p
    · subst hqp
      rcases hsw with ⟨hs, _⟩ | ⟨_, hload⟩
      · exact .inr hs
      · exact .inl (by rw [hproc]; exact hload)
    · rw [hjobs q hqp] at hq
      rw [hother q hqp]
      rcases hsw with ⟨_, hidle⟩ | ⟨hs, _⟩
      · refine .inl ((h.busy q hq).resolve_right fun hout => ?_)
        exact absurd (hout.symm.trans hidle) nofun
      · rw [hs]
        exact h.busy q hq
  · rcases hsw with ⟨hs, _⟩ | ⟨hs, hload⟩
    · rw [hs]
      trivial
    · rw [hs]
      have hnot : ¬σ.Away p := fun haway => absurd (hload.symm.trans haway.out) nofun
      exact h.swapper.other hnot (fun q hq => by rw [htab]; exact hq) (fun q _ => by rw [htab])
        hother hjobs

/-- From one block of a swapout to the next: nothing but the list of what is left changes. -/
theorem swapoutResume_tier {u : List UInt8} {j : OutJob} {seg : Seg} {todo : List Seg}
    (h : TierInv cfg σ) (hjob : σ.job p = some j) (htodo : j.todo = seg :: todo) :
    TierInv cfg (swapoutResume σ p u j) := by
  have hp : p ≠ 0 := by
    rintro rfl
    exact absurd (hjob.symm.trans h.zero.2) nofun
  have hslot := h.slot p hp
  rw [hjob] at hslot
  have hjobs : ∀ q, q ≠ p → (swapoutResume σ p u j).job q = σ.job q := by
    intro q hq
    simp only [swapoutResume, htodo]
    exact Function.update_of_ne hq _ _
  have hself : (swapoutResume σ p u j).job p = some { j with todo := todo } := by
    simp only [swapoutResume, htodo]
    exact Function.update_self ..
  have hproc : (swapoutResume σ p u j).proc = σ.proc := by
    simp only [swapoutResume, htodo]
    rfl
  have htab : (swapoutResume σ p u j).sr_tab = σ.sr_tab := by
    simp only [swapoutResume, htodo]
    rfl
  have hsw : (swapoutResume σ p u j).swapper = σ.swapper := by
    simp only [swapoutResume, htodo]
    rfl
  have hnot : ¬σ.Away p := fun haway => absurd (hjob.symm.trans haway.job) nofun
  refine h.update hp ?_ ?_ (fun q _ => by rw [htab]) (fun q _ => by rw [hproc]) hjobs ?_ ?_ ?_
  · simp only [swapoutResume, htodo]
    exact h.pool
  · simp only [swapoutResume, htodo]
    exact .refl _
  · rw [hproc, htab, hself]
    exact ⟨hslot.fits, fun hr _ => hslot.core hr (.inr nofun), fun _ => hslot.job nofun, fun hl =>
      absurd (hslot.live hl).2.2.1 nofun⟩
  · intro q hq
    rw [hproc, hsw]
    refine h.busy q fun hnone => hq ?_
    by_cases hqp : q = p
    · subst hqp
      exact absurd (hjob.symm.trans hnone) nofun
    · rw [hjobs q hqp]
      exact hnone
  · rw [hsw]
    exact h.swapper.other hnot (fun q hq => by rw [htab]; exact hq) (fun q _ => by rw [htab])
      (fun q _ => by rw [hproc]) hjobs

/-- The end of a swapout to flash. -/
theorem swapoutDone_tier {u : List UInt8} {j : OutJob} (h : TierInv cfg σ) (hjob : σ.job p = some j)
    (htodo : j.todo = []) (hsw : (σ'.swapper = .idle ∧ σ.swapper = .swapout p) ∨
      σ'.swapper = σ.swapper)
    (hσ' : σ' = { swapoutResume σ p u j with swapper := σ'.swapper }) : TierInv cfg σ' := by
  have hp : p ≠ 0 := by
    rintro rfl
    exact absurd (hjob.symm.trans h.zero.2) nofun
  have hslot := h.slot p hp
  rw [hjob] at hslot
  have hend : swapoutResume σ p u j = (swapoutEnd σ p j.a).setJob p none := by
    simp only [swapoutResume, htodo]
  rw [hend] at hσ'
  have hjobs : ∀ q, q ≠ p → σ'.job q = σ.job q := by
    intro q hq
    rw [hσ']
    exact Function.update_of_ne hq _ _
  have hproc : ∀ q, q ≠ p → σ'.proc q = σ.proc q := by
    intro q hq
    rw [hσ']
    exact Function.update_of_ne hq _ _
  have hself : σ'.job p = none := by
    rw [hσ']
    exact Function.update_self ..
  have hme : σ'.proc p = { σ.proc p with p_at := j.a, sload := false, slock := false } := by
    rw [hσ']
    exact Function.update_self ..
  have htab : σ'.sr_tab = σ.sr_tab := by rw [hσ']; rfl
  have hspool : σ'.spool = σ.spool := by rw [hσ']; rfl
  have hmap : σ'.sr_map = σ.sr_map := by rw [hσ']; rfl
  have hnot : ¬σ.Away p := fun haway => absurd (hjob.symm.trans haway.job) nofun
  refine h.update hp ?_ ?_ (fun q _ => by rw [htab]) hproc hjobs ?_ ?_ ?_
  · rw [hmap, held_eq htab hspool]
    exact h.pool
  · rw [hmap]
    exact .refl _
  · rw [hme, htab, hself]
    have hdead := (hslot.job nofun).2.2
    exact ⟨hslot.fits, fun _ hor => absurd hor (by simp), fun hne => absurd rfl hne,
      fun hlive => absurd (hlive.symm.trans hdead) nofun⟩
  · intro q hq
    have hqp : q ≠ p := by
      rintro rfl
      exact hq hself
    rw [hjobs q hqp] at hq
    rw [hproc q hqp]
    rcases hsw with ⟨_, hs⟩ | hs
    · refine .inl ((h.busy q hq).resolve_right fun hout => hqp ?_)
      rw [hs] at hout
      exact (Swapper.swapout.inj hout).symm
    · rw [hs]
      exact h.busy q hq
  · rcases hsw with ⟨hs, _⟩ | hs
    · rw [hs]
      trivial
    · rw [hs]
      exact h.swapper.other hnot (fun q hq => by rw [htab]; exact hq) (fun q _ => by rw [htab])
        hproc hjobs

/-! ## Spools -/

/-- A spool changes and the pool with it. -/
theorem TierInv.ofSpool (h : TierInv cfg σ) (hpool : PoolInv ⟨σ'.sr_map, σ'.held⟩)
    (htable : SameTable σ.sr_map σ'.sr_map) (htab : σ'.sr_tab = σ.sr_tab) (hproc : σ'.proc = σ.proc)
    (hjob : σ'.job = σ.job) (hsw : σ'.swapper = σ.swapper) : TierInv cfg σ' := by
  have hsame : TierInv cfg { σ' with sr_map := σ.sr_map, spool := σ.spool } :=
    h.same rfl htab rfl hproc hjob hsw
  refine ⟨hpool, ?_, hsame.slot, hsame.zero, hsame.busy, ?_⟩
  · rw [htable.size, htable.nseg]
    exact h.table
  · have hok := hsame.swapper
    revert hok
    show SwapperOk _ σ'.swapper → SwapperOk σ' σ'.swapper
    cases σ'.swapper with
    | text q => exact fun hq => ⟨hq.slot, hq.run, hq.out, hq.job⟩
    | packed q => exact fun hq => ⟨hq.slot, hq.run, hq.out, hq.job⟩
    | reading q todo got =>
      exact fun hq => ⟨⟨hq.1.slot, hq.1.run, hq.1.out, hq.1.job⟩, hq.2⟩
    | expanding why loc => exact id
    | idle => exact id
    | geteblk why => exact id
    | swapout q => exact id

theorem spoolTaken_tier {off size : Nat} {mp : SwapramPool} (h : TierInv cfg σ)
    (hnone : σ.spool p = .none) (halloc : swapramPoolAlloc σ.sr_map size = (some off, mp))
    (hmap : σ'.sr_map = mp) (htab : σ'.sr_tab = σ.sr_tab) (hproc : σ'.proc = σ.proc)
    (hjob : σ'.job = σ.job) (hsw : σ'.swapper = σ.swapper)
    (hspool : σ'.spool = update σ.spool p (.swapram off size)) : TierInv cfg σ' := by
  obtain ⟨hinv, htable⟩ := h.pool.allocated halloc
  refine h.ofSpool ?_ (hmap ▸ htable) htab hproc hjob hsw
  have hheld : σ'.held = (σ.setSpool p (.swapram off size)).held := held_eq htab hspool
  have hbefore := held_spool σ p
  rw [hnone] at hbefore
  rw [hmap, hheld]
  exact hinv.perm ((hbefore.cons _).trans (setSpool_held σ p (.swapram off size)).symm)

/-- The pool takes the range of a spool back. -/
theorem spoolFreed_tier {off size : Nat} {mp : SwapramPool} {s : Spool} (h : TierInv cfg σ)
    (hs : σ.spool p = .swapram off size) (hram : s.range = none)
    (hfree : swapramPoolFree σ.sr_map off size = (true, mp))
    (hmap : σ'.sr_map = mp) (htab : σ'.sr_tab = σ.sr_tab) (hproc : σ'.proc = σ.proc)
    (hjob : σ'.job = σ.job) (hsw : σ'.swapper = σ.swapper)
    (hspool : σ'.spool = update σ.spool p s) : TierInv cfg σ' := by
  have hbefore := held_spool σ p
  rw [hs] at hbefore
  have hmem : ⟨off, roundgrain size⟩ ∈ σ.held := hbefore.mem_iff.mpr (by simp [Spool.range])
  obtain ⟨hinv, htable⟩ := h.pool.freed hmem hfree
  refine h.ofSpool ?_ (hmap ▸ htable) htab hproc hjob hsw
  have hheld : σ'.held = (σ.setSpool p s).held := held_eq htab hspool
  have hafter := setSpool_held σ p s
  rw [hram] at hafter
  have hrest := hbefore.erase ⟨off, roundgrain size⟩
  rw [show ((Spool.swapram off size).range.toList ++ σ.heldButSpool p) =
    ⟨off, roundgrain size⟩ :: σ.heldButSpool p from rfl, List.erase_cons_head] at hrest
  rw [hmap, hheld]
  exact hinv.perm (hrest.trans hafter.symm)

/-- A spool that is not in the pool changes. -/
theorem spoolFlash_tier {s : Spool} (h : TierInv cfg σ) (hs : (σ.spool p).range = none)
    (hram : s.range = none) (hmap : σ'.sr_map = σ.sr_map) (htab : σ'.sr_tab = σ.sr_tab)
    (hproc : σ'.proc = σ.proc) (hjob : σ'.job = σ.job) (hsw : σ'.swapper = σ.swapper)
    (hspool : σ'.spool = update σ.spool p s) : TierInv cfg σ' := by
  refine h.ofSpool ?_ (hmap ▸ .refl _) htab hproc hjob hsw
  have hheld : σ'.held = (σ.setSpool p s).held := held_eq htab hspool
  have hbefore := held_spool σ p
  have hafter := setSpool_held σ p s
  rw [hs] at hbefore
  rw [hram] at hafter
  rw [hmap, hheld]
  exact h.pool.perm (hbefore.trans hafter.symm)

/-! ## Swapping in -/

theorem entry_freed {e : SrEnt} {mp : SwapramPool} (h : PoolInv ⟨σ.sr_map, σ.held⟩)
    (hlive : (σ.sr_tab p).e_live = true)
    (hfree : swapramPoolFree σ.sr_map (σ.sr_tab p).e_off (σ.sr_tab p).e_res = (true, mp))
    (he : e.e_live = false) :
    PoolInv ⟨mp, (σ.setEnt p e).held⟩ ∧ SameTable σ.sr_map mp := by
  have hbefore := held_image σ p
  have hrange : (σ.sr_tab p).range =
      some ⟨(σ.sr_tab p).e_off, roundgrain (σ.sr_tab p).e_res⟩ := by rw [SrEnt.range, hlive]; rfl
  rw [hrange] at hbefore
  have hmem := hbefore.mem_iff.mpr List.mem_cons_self
  obtain ⟨hinv, htable⟩ := h.freed hmem hfree
  have hafter := setEnt_held σ p e
  have hnone : e.range = none := by rw [SrEnt.range, he]; rfl
  rw [hnone] at hafter
  have hrest := hbefore.erase ⟨(σ.sr_tab p).e_off, roundgrain (σ.sr_tab p).e_res⟩
  rw [Option.toList_some, List.singleton_append, List.erase_cons_head] at hrest
  exact ⟨hinv.perm (hrest.trans hafter.symm), htable⟩

theorem toMove_empty {r : Proc} {seg : Seg} (h : seg ∉ r.toMove) : r.len seg = 0 := by
  by_contra hne
  exact h (List.mem_filter.mpr ⟨mem_segs seg, by simpa using hne⟩)

/-- After the text: the image is back from the tier, or flash is going to be read. -/
theorem swapinLoad_tier (h : TierInv cfg σ) (haway : σ.Away p)
    (hsw : ∀ q, σ.swapper ≠ .swapout q) (hcall : swapinLoad cfg σ p = .ok σ') : TierInv cfg σ' := by
  have hslot := h.slot p haway.slot
  unfold swapinLoad at hcall
  split at hcall
  · obtain ⟨⟨got, σ₁⟩, hin, hcall⟩ := bind_ok hcall
    obtain ⟨hlive, _, hgot, mp, hfree, rfl⟩ := swapramIn_ok hin
    cases hcall
    obtain ⟨hpool, htable⟩ := entry_freed h.pool hlive hfree
      (e := { σ.sr_tab p with e_live := false, e_res := 0 }) rfl
    obtain ⟨_, _, _, hrlen, _⟩ := hslot.live hlive
    refine h.update haway.slot hpool htable (fun q hq => Function.update_of_ne hq _ _)
      (fun q hq => Function.update_of_ne hq _ _) (fun q _ => rfl) ?_ ?_ trivial
    · simp only [swapinEnd, Kernel.setProc, Kernel.setEnt, Function.update_self]
      refine ⟨hslot.fits, fun _ _ seg => (hgot seg).trans (hrlen seg), fun hne => ?_, by rintro ⟨⟩⟩
      exact absurd haway.job hne
    · intro q hq
      have hqp : q ≠ p := by
        rintro rfl
        exact hq haway.job
      have hload := (h.busy q hq).resolve_right (hsw q)
      refine .inl ?_
      simpa only [swapinEnd, Kernel.setProc, Kernel.setEnt, Function.update_of_ne hqp] using hload
  · rename_i hdead
    cases hcall
    refine ⟨h.pool, h.table, h.slot, h.zero, fun q hq => .inl ((h.busy q hq).resolve_right (hsw q)), ?_⟩
    exact ⟨⟨haway.slot, haway.run, haway.out, haway.job⟩, Bool.eq_false_iff.mpr hdead,
      fun seg hseg => (toMove_empty hseg).symm⟩

/-- From one block of a swapin to the next, or to its end. -/
theorem swapinResume_tier {pool : Nat → UInt8} {got : Seg → List UInt8} {todo : List Seg}
    (h : TierInv cfg σ) (hs : σ.swapper = .reading p todo got)
    (hcall : swapinResume cfg σ p pool got todo = .ok σ') : TierInv cfg σ' := by
  have hok := h.swapper
  rw [hs] at hok
  obtain ⟨haway, hdead, hgot⟩ := hok
  have hslot := h.slot p haway.slot
  have hload : ∀ q, σ.job q ≠ none → (σ.proc q).sload = true := fun q hq =>
    (h.busy q hq).resolve_right (by rw [hs]; rintro ⟨⟩)
  cases todo with
  | nil =>
    obtain ⟨⟨lost, mp⟩, _, hcall⟩ := bind_ok hcall
    cases hcall
    refine h.update haway.slot h.pool (.refl _) (fun q _ => rfl)
      (fun q hq => Function.update_of_ne hq _ _) (fun q _ => rfl) ?_ ?_ trivial
    · simp only [swapinEnd, Kernel.setProc, Function.update_self]
      refine ⟨hslot.fits, fun _ _ seg => hgot seg (by simp), fun hne => absurd haway.job hne,
        fun hlive => absurd (hlive.symm.trans hdead) (by rintro ⟨⟩)⟩
    · intro q hq
      have hqp : q ≠ p := by
        rintro rfl
        exact hq haway.job
      exact .inl (by simpa only [swapinEnd, Kernel.setProc, Function.update_of_ne hqp] using hload q hq)
  | cons seg todo =>
    cases hcall
    have hsame : TierInv cfg (clobber σ p pool) := by
      unfold clobber
      split
      · exact h.same rfl rfl rfl rfl rfl rfl
      · exact h
    have hproc : (clobber σ p pool).proc = σ.proc := by
      unfold clobber
      split <;> rfl
    have hjob : (clobber σ p pool).job = σ.job := by
      unfold clobber
      split <;> rfl
    have htab : (clobber σ p pool).sr_tab = σ.sr_tab := by
      unfold clobber
      split <;> rfl
    refine ⟨hsame.pool, hsame.table, hsame.slot, hsame.zero, fun q hq => .inl ?_, ?_⟩
    · show ((clobber σ p pool).proc q).sload = true
      rw [hproc]
      exact hload q (by simpa only [hjob] using hq)
    · refine ⟨⟨haway.slot, ?_, ?_, ?_⟩, ?_, fun s hsegs => ?_⟩
      · exact hproc ▸ haway.run
      · exact hproc ▸ haway.out
      · exact hjob ▸ haway.job
      · exact htab ▸ hdead
      · show (Function.update got seg _ s).length = ((clobber σ p pool).proc p).len s
        rw [hproc]
        by_cases hss : s = seg
        · subst hss
          rw [Function.update_self, readAt_length]
        · rw [Function.update_of_ne hss]
          exact hgot s (by simpa [hss] using hsegs)

/-! ## Evacuating

The evacuation runs with the swapper recorded where it last slept. The lemmas take the invariant with the
swapper at the top of its loop: what its place says is used up when it resumes. -/

theorem TierInv.toIdle (h : TierInv cfg σ) (hsw : ∀ q, σ.swapper ≠ .swapout q) :
    TierInv cfg { σ with swapper := .idle } :=
  ⟨h.pool, h.table, h.slot, h.zero, fun q hq => .inl ((h.busy q hq).resolve_right (hsw q)), trivial⟩

/-- Asleep in an evacuation, at a live image. -/
theorem TierInv.toEvac {s : Swapper} (h : TierInv cfg { σ with swapper := .idle })
    (hs : s.isEvacuating = true) (hok : SwapperOk σ s) : TierInv cfg { σ with swapper := s } := by
  refine ⟨h.pool, h.table, h.slot, h.zero, fun q hq => .inl ((h.busy q hq).resolve_right nofun), ?_⟩
  cases s with
  | expanding why loc => exact hok
  | geteblk why => trivial
  | _ => cases hs

theorem TierInv.readdress (h : TierInv cfg { σ with swapper := .idle }) (mp : Map)
    (addr : Slot → Seg → Nat) : TierInv cfg { σ.readdress mp addr with swapper := .idle } := by
  refine ⟨h.pool, h.table, fun q hq => ?_, h.zero, h.busy, trivial⟩
  have hslot := h.slot q hq
  exact ⟨hslot.fits, hslot.core, hslot.job, hslot.live⟩

theorem evacRelease_tier (h : TierInv cfg { σ with swapper := .idle })
    (hlive : (σ.sr_tab p).e_live = true) (hcall : evacRelease σ p = .ok σ') :
    TierInv cfg { σ' with swapper := .idle } := by
  obtain ⟨mp, hfree, rfl⟩ := evacRelease_ok hcall
  have hp : p ≠ 0 := by
    rintro rfl
    exact absurd (hlive.symm.trans h.zero.1) (by rintro ⟨⟩)
  have hslot := h.slot p hp
  have hjob := (hslot.live hlive).2.2.1
  obtain ⟨hpool, htable⟩ := entry_freed (σ := { σ with swapper := .idle }) h.pool hlive hfree
    (e := { σ.sr_tab p with e_live := false, e_res := 0 }) rfl
  refine h.update hp hpool htable (fun q hq => Function.update_of_ne hq _ _) (fun q _ => rfl)
    (fun q _ => rfl) ?_ h.busy trivial
  simp only [Kernel.setEnt, Function.update_self]
  exact ⟨hslot.fits, hslot.core, fun hne => absurd hjob hne, by rintro ⟨⟩⟩

theorem evacNext_tier {slots : List Slot} {r : Option ExpandAt}
    (h : TierInv cfg { σ with swapper := .idle }) (hcall : evacNext σ slots = .ok (r, σ')) :
    TierInv cfg { σ' with swapper := .idle } ∧
      ∀ loc, r = some loc → (σ'.sr_tab loc.slot).e_live = true := by
  induction slots generalizing σ with
  | nil =>
    cases hcall
    exact ⟨h, nofun⟩
  | cons i rest ih =>
    simp only [evacNext] at hcall
    split at hcall
    · exact ih h hcall
    rename_i hlive
    split at hcall
    · obtain ⟨_, ⟨loc, rfl, hslot, _⟩, flash, rfl⟩ := evacSeg_frame hcall
      refine ⟨h.same rfl rfl rfl rfl rfl rfl, ?_⟩
      rintro _ ⟨⟩
      rw [hslot]
      exact Bool.not_eq_false _ |>.mp hlive
    · obtain ⟨σ₁, hrel, hcall⟩ := bind_ok hcall
      exact ih (evacRelease_tier h (Bool.not_eq_false _ |>.mp hlive) hrel) hcall

theorem evacResume_tier {loc : ExpandAt} {r : Option ExpandAt}
    (h : TierInv cfg { σ with swapper := .idle }) (hlive : (σ.sr_tab loc.slot).e_live = true)
    (hcall : evacResume σ loc = .ok (r, σ')) :
    TierInv cfg { σ' with swapper := .idle } ∧
      ∀ loc, r = some loc → (σ'.sr_tab loc.slot).e_live = true := by
  simp only [evacResume] at hcall
  split at hcall
  · obtain ⟨⟨loc', rfl, hslot, _⟩, flash, rfl⟩ := evacBlock_frame hcall
    refine ⟨h.same rfl rfl rfl rfl rfl rfl, ?_⟩
    rintro _ ⟨⟩
    rw [hslot]
    exact hlive
  obtain ⟨σ₁, hrel, hcall⟩ := bind_ok hcall
  obtain ⟨_, rfl⟩ := swapramCodecRelease_ok hrel
  split at hcall
  · obtain ⟨_, ⟨loc', rfl, hslot, _⟩, flash, rfl⟩ := evacSeg_frame hcall
    refine ⟨h.same rfl rfl rfl rfl rfl rfl, ?_⟩
    rintro _ ⟨⟩
    rw [hslot]
    exact hlive
  · obtain ⟨σ₂, hfree, hcall⟩ := bind_ok hcall
    exact evacNext_tier (evacRelease_tier (σ := { σ with sr_codec_owner := none })
      (h.same rfl rfl rfl rfl rfl rfl) hlive hfree) hcall

/-! ## The service routine -/

theorem serviceSmall_tier (h : TierInv cfg { σ with swapper := .idle }) :
    TierInv cfg (serviceSmall σ) := by
  unfold serviceSmall
  split
  · exact h.same rfl rfl rfl rfl rfl rfl
  · exact h.same rfl rfl rfl rfl rfl rfl

theorem finishLarge_tier {ok : Bool} (h : TierInv cfg { σ with swapper := .idle }) :
    TierInv cfg (finishLarge σ ok) := by
  refine serviceSmall_tier ?_
  cases ok <;> exact h.same rfl rfl rfl rfl rfl rfl

theorem serviceLarge_tier (h : TierInv cfg { σ with swapper := .idle })
    (hcall : serviceLarge σ = .ok σ') : TierInv cfg σ' := by
  unfold serviceLarge at hcall
  split at hcall
  · simp only at hcall
    split at hcall
    · obtain ⟨⟨r, σ₁⟩, hbegin, hcall⟩ := bind_ok hcall
      obtain ⟨mp, addr, next, hσ₁⟩ := evacuateBegin_frame hbegin
      have h₁ : TierInv cfg { σ₁ with swapper := .idle } := by
        rw [hσ₁]
        exact (h.readdress mp addr).same rfl rfl rfl rfl rfl rfl
      cases r with
      | none =>
        cases hcall
        exact h₁.toEvac rfl trivial
      | some ok =>
        cases hcall
        exact finishLarge_tier h₁
    · cases hcall
      exact serviceSmall_tier (h.same rfl rfl rfl rfl rfl rfl)
  · split at hcall
    · cases hcall
      exact serviceSmall_tier (h.same rfl rfl rfl rfl rfl rfl)
    · cases hcall
      exact serviceSmall_tier h

theorem finishEvac_tier {ok : Bool} (h : TierInv cfg { σ with swapper := .idle })
    (hcall : finishEvac σ ok = .ok σ') : TierInv cfg σ' :=
  serviceLarge_tier (σ := evacAnswer σ ok) (h.same rfl rfl rfl rfl rfl rfl) hcall

theorem swapramService_tier (h : TierInv cfg { σ with swapper := .idle })
    (hcall : swapramService σ = .ok σ') : TierInv cfg σ' := by
  unfold swapramService at hcall
  split at hcall
  · obtain ⟨⟨r, σ₁⟩, hbegin, hcall⟩ := bind_ok hcall
    obtain ⟨mp, addr, next, hσ₁⟩ := evacuateBegin_frame hbegin
    have h₁ : TierInv cfg { σ₁ with swapper := .idle } := by
      rw [hσ₁]
      exact (h.readdress mp addr).same rfl rfl rfl rfl rfl rfl
    cases r with
    | none =>
      cases hcall
      exact h₁.toEvac rfl trivial
    | some ok => exact finishEvac_tier h₁ hcall
  · exact serviceLarge_tier h hcall

theorem evacContinue_tier {why : Purpose} {r : Option ExpandAt}
    (h : TierInv cfg { σ with swapper := .idle })
    (hlive : ∀ loc, r = some loc → (σ.sr_tab loc.slot).e_live = true)
    (hcall : evacContinue why (r, σ) = .ok σ') : TierInv cfg σ' := by
  cases r with
  | some loc =>
    cases hcall
    exact h.toEvac rfl (hlive loc rfl)
  | none =>
    cases why with
    | evac => exact finishEvac_tier h hcall
    | large =>
      cases hcall
      exact finishLarge_tier h

/-! ## Steps and runs -/

/-- A process that runs gets another image, within its ceiling. -/
theorem become_tier {img : Image} (h : TierInv cfg σ) (hp : σ.Awake p) (hwf : img.WF (σ.proc p))
    (hfits : img.dsize + img.ssize ≤ maxmem + cfg.pool)
    (hmap : σ'.sr_map = σ.sr_map) (htab : σ'.sr_tab = σ.sr_tab) (hspool : σ'.spool = σ.spool)
    (hjob : σ'.job = σ.job) (hsw : σ'.swapper = σ.swapper)
    (hother : ∀ q, q ≠ p → σ'.proc q = σ.proc q) {b : Bool}
    (hproc : σ'.proc p = { (σ.proc p).become img with p_large := b }) : TierInv cfg σ' := by
  obtain ⟨hne, haway, hnone, hslot⟩ := h.awake hp
  refine h.ofProc hne haway hnone hmap htab hspool hjob hsw hother ?_
  rw [hproc]
  refine ⟨fun _ => hfits, fun _ _ => hwf, fun hj => absurd rfl hj, fun hlive => ?_⟩
  exact absurd (hp.2.2.1.symm.trans (hslot.live hlive).2.1) nofun

/-- Only fields that the invariant does not read change. -/
theorem reflag_tier {large : Bool} (h : TierInv cfg σ) (hp : p ≠ 0) (haway : ¬σ.Away p)
    (hnone : σ.job p = none) (hmap : σ'.sr_map = σ.sr_map) (htab : σ'.sr_tab = σ.sr_tab)
    (hspool : σ'.spool = σ.spool) (hjob : σ'.job = σ.job) (hsw : σ'.swapper = σ.swapper)
    (hother : ∀ q, q ≠ p → σ'.proc q = σ.proc q)
    (hproc : σ'.proc p = { σ.proc p with p_large := large }) : TierInv cfg σ' := by
  refine h.ofProc hp haway hnone hmap htab hspool hjob hsw hother ?_
  have hslot := h.slot p hp
  rw [hnone] at hslot
  rw [hproc]
  exact ⟨hslot.fits, hslot.core, hslot.job, hslot.live⟩

theorem enterLoop_tier (h : TierInv cfg σ) (hp : σ.Awake p) : TierInv cfg (enterLoop σ p) := by
  obtain ⟨hne, haway, hnone, _⟩ := h.awake hp
  unfold enterLoop
  split
  · exact reflag_tier h hne haway hnone rfl rfl rfl rfl rfl
      (fun q hq => Function.update_of_ne hq _ _) (Function.update_self ..)
  · exact h.same rfl rfl rfl rfl rfl rfl

theorem swapramLeaveLarge_proc (σ : Kernel) (p : Slot) :
    (∀ q, q ≠ p → (swapramLeaveLarge σ p).proc q = σ.proc q) ∧
      ∃ large, (swapramLeaveLarge σ p).proc p = { σ.proc p with p_large := large } := by
  unfold swapramLeaveLarge
  split
  · exact ⟨fun q _ => rfl, _, rfl⟩
  · simp only
    split
    · exact ⟨fun q hq => Function.update_of_ne hq _ _, false, Function.update_self ..⟩
    · exact ⟨fun q hq => Function.update_of_ne hq _ _, false, Function.update_self ..⟩

/-- What giving the bonus back leaves alone. -/
theorem swapramLeaveLarge_rest (σ : Kernel) (p : Slot) :
    (swapramLeaveLarge σ p).sr_map = σ.sr_map ∧ (swapramLeaveLarge σ p).sr_tab = σ.sr_tab ∧
      (swapramLeaveLarge σ p).spool = σ.spool ∧ (swapramLeaveLarge σ p).job = σ.job ∧
      (swapramLeaveLarge σ p).swapper = σ.swapper := by
  unfold swapramLeaveLarge
  split
  · exact ⟨rfl, rfl, rfl, rfl, rfl⟩
  · simp only
    split <;> exact ⟨rfl, rfl, rfl, rfl, rfl⟩

theorem newproc_tier {child : Slot} {u : List UInt8} (h : TierInv cfg σ) (hp : σ.Awake p)
    (hc : child ≠ 0) (hfree : (σ.proc child).p_stat = .free)
    (hcall : newproc cfg σ p child u = .ok σ') : TierInv cfg σ' := by
  obtain ⟨_, _, _, hparent⟩ := h.awake hp
  obtain ⟨haway, hnone, hdead⟩ := h.unused (p := child) (by rw [hfree]; rintro ⟨⟩)
  obtain ⟨σ₂, hout, hcall⟩ := bind_ok hcall
  -- The child is a loaded process with the parent's memory, large or not.
  generalize hσ₁ : swapramInherit (σ.setProc child { σ.proc p with
    p_stat := .run, sload := true, slock := false, p_large := false }) child p = σ₁ at hout
  obtain ⟨large, hproc⟩ : ∃ large, σ₁.proc child = { σ.proc p with
      p_stat := .run, sload := true, slock := false, p_large := large } := by
    rw [← hσ₁]
    unfold swapramInherit
    split
    · refine ⟨true, ?_⟩
      simp only [Kernel.setProc, Function.update_self]
    · exact ⟨false, Function.update_self ..⟩
  have hother : ∀ q, q ≠ child → σ₁.proc q = σ.proc q := by
    intro q hq
    rw [← hσ₁]
    unfold swapramInherit
    split
    · simp only [Kernel.setProc, Function.update_of_ne hq]
    · exact Function.update_of_ne hq _ _
  have hrest : σ₁.sr_map = σ.sr_map ∧ σ₁.sr_tab = σ.sr_tab ∧ σ₁.spool = σ.spool ∧ σ₁.job = σ.job ∧
      σ₁.swapper = σ.swapper := by
    rw [← hσ₁]
    unfold swapramInherit
    split <;> exact ⟨rfl, rfl, rfl, rfl, rfl⟩
  obtain ⟨hmap, htab, hspool, hjob, hsw⟩ := hrest
  have hlen : ∀ seg, ((σ₁.proc child).core seg).length = (σ₁.proc child).len seg := by
    rw [hproc]
    exact hparent.core hp.2.1 (.inl hp.2.2.1)
  have h₁ : TierInv cfg σ₁ := by
    refine h.ofProc hc haway hnone hmap htab hspool hjob hsw hother ?_
    rw [hproc]
    exact ⟨fun _ => hparent.fits hp.2.1, fun _ _ => hparent.core hp.2.1 (.inl hp.2.2.1),
      fun hne => absurd rfl hne, fun hlive => absurd (hlive.symm.trans hdead) (by rintro ⟨⟩)⟩
  have hload : (σ₁.proc child).sload = true := by rw [hproc]
  have hnot : ∀ todo got, σ₁.swapper ≠ .reading child todo got := by
    intro todo got hs
    have hok := h₁.swapper
    rw [hs] at hok
    exact absurd (hload.symm.trans hok.1.out) (by rintro ⟨⟩)
  have h₂ : TierInv cfg σ₂ := by
    obtain ⟨_, ⟨_, o, rfl⟩ | ⟨o, rfl⟩⟩ := swapoutBegin_ok hlen hout
    · exact o.tier h₁ hc (by rw [hproc]) (by rw [hjob]; exact hnone) (by rw [htab]; exact hdead)
        hlen hnot
    · exact FlashOut.tier h₁ hc (by rw [hproc]) (by rw [hjob]; exact hnone)
        (by rw [htab]; exact hdead) hlen (.inr ⟨rfl, hload⟩) rfl
  cases hcall
  split
  · exact h₂.same rfl rfl rfl rfl rfl rfl
  · exact h₂

/-- A swapout by the swapper. -/
theorem swapout_tier {u : List UInt8} (h : TierInv cfg σ) (hidle : σ.swapper = .idle)
    (hp : σ.Awake p) (hcall : σ.step cfg (.swapout p u) = .ok σ') : TierInv cfg σ' := by
  obtain ⟨hne, haway, hnone, hslot⟩ := h.awake hp
  obtain ⟨σ₂, hout, hcall⟩ := bind_ok hcall
  generalize hσ₁ : σ.setProc p { σ.proc p with sload := false } = σ₁ at hout
  have hproc : σ₁.proc p = { σ.proc p with sload := false } := by
    rw [← hσ₁]
    exact Function.update_self ..
  have hdead : (σ.sr_tab p).e_live = false := by
    by_contra hlive
    exact absurd (hp.2.2.1.symm.trans (hslot.live (by simpa using hlive)).2.1) nofun
  have h₁ : TierInv cfg σ₁ := by
    subst hσ₁
    refine h.ofProc hne haway hnone rfl rfl rfl rfl rfl (fun q hq => Function.update_of_ne hq _ _) ?_
    rw [hproc]
    exact ⟨hslot.fits, fun _ hor => absurd hor (by simp), fun hj => absurd rfl hj,
      fun hlive => absurd (hlive.symm.trans hdead) nofun⟩
  have hlen : ∀ seg, ((σ₁.proc p).core seg).length = (σ₁.proc p).len seg := by
    rw [hproc]
    exact hslot.core hp.2.1 (.inl hp.2.2.1)
  have hjob : σ₁.job p = none := by subst hσ₁; exact hnone
  have hdead₁ : (σ₁.sr_tab p).e_live = false := by subst hσ₁; exact hdead
  have hsw : σ₁.swapper = .idle := by subst hσ₁; exact hidle
  have hrun : (σ₁.proc p).p_stat = .run := by rw [hproc]; exact hp.2.1
  obtain ⟨_, ⟨_, o, rfl⟩ | ⟨o, rfl⟩⟩ := swapoutBegin_ok hlen hout
  · have hno : (o.after.job p).isSome = false := by
      rw [show o.after.job p = none from hjob]
      rfl
    cases hcall
    rw [if_neg (by rw [hno]; nofun)]
    exact o.tier h₁ hne hrun hjob hdead₁ hlen (fun _ _ hs => by rw [hsw] at hs; cases hs)
  · have hyes : (o.after.job p).isSome = true := by
      rw [FlashOut.after, Kernel.setJob]
      simp only [Function.update_self, Option.isSome_some]
    cases hcall
    rw [if_pos hyes]
    exact FlashOut.tier h₁ hne hrun hjob hdead₁ hlen (.inl ⟨rfl, hsw⟩) rfl

/-- A swapin by the swapper finds the process away. -/
theorem swapin_away (h : TierInv cfg σ) (hen : σ.Enabled cfg (.swapin p)) : σ.Away p := by
  obtain ⟨hidle, hp, hrun, hempty⟩ := hen
  have hout := hempty p hp hrun
  refine ⟨hp, hrun, hout, ?_⟩
  by_contra hjob
  rcases h.busy p hjob with hload | hs
  · exact absurd (hload.symm.trans hout) nofun
  · rw [hs] at hidle
    cases hidle

theorem execSpoolReserveFlash_ok {size : Nat} {run : Option (Nat × Nat)}
    (hcall : execSpoolReserveFlash σ size = .ok (run, σ')) :
    ∃ mp next, σ' = { σ with swapmap := mp, swapnext := next } := by
  obtain ⟨⟨span, next, a, mp⟩, _, hcall⟩ := bind_ok hcall
  simp only at hcall
  split at hcall
  · cases hcall
    exact ⟨mp, σ.swapnext, rfl⟩
  · cases hcall
    exact ⟨mp, next, rfl⟩

theorem execSpoolAlloc_tier {size : Nat} (h : TierInv cfg σ) (hnone : σ.spool p = .none)
    (hcall : execSpoolAlloc σ p size = .ok σ') : TierInv cfg σ' := by
  simp only [execSpoolAlloc] at hcall
  rcases swapramSpoolAlloc_cases σ size with hram | ⟨_, _, off, mp, halloc, hram⟩
  · rw [hram] at hcall
    obtain ⟨⟨run, σ₁⟩, hres, hcall⟩ := bind_ok hcall
    obtain ⟨mp, next, rfl⟩ := execSpoolReserveFlash_ok hres
    cases run with
    | none =>
      cases hcall
      exact h.same rfl rfl rfl rfl rfl rfl
    | some run =>
      cases hcall
      exact spoolFlash_tier (s := .flash run.1 run.2) h (by rw [hnone]; rfl) rfl rfl rfl rfl rfl rfl rfl
  · rw [hram] at hcall
    cases hcall
    exact spoolTaken_tier h hnone halloc rfl rfl rfl rfl rfl rfl

theorem execSpoolDiscard_tier (h : TierInv cfg σ) (hcall : execSpoolDiscard σ p = .ok σ') :
    TierInv cfg σ' := by
  unfold execSpoolDiscard at hcall
  split at hcall
  · cases hcall
    exact h
  · rename_i off size hs
    obtain ⟨σ₁, hfree, rfl⟩ := exists_of_map_eq_ok hcall
    obtain ⟨_, mp, hback, rfl⟩ := swapramSpoolFree_ok hfree
    exact spoolFreed_tier (s := .none) h hs rfl hback rfl rfl rfl rfl rfl rfl
  · rename_i blkno span hs
    obtain ⟨⟨lost, mp⟩, _, rfl⟩ := exists_of_map_eq_ok hcall
    exact spoolFlash_tier (s := .none) h (by rw [hs]; rfl) rfl rfl rfl rfl rfl rfl rfl

theorem execSpoolMove_tier {off size blkno span position : Nat} (h : TierInv cfg σ)
    (hs : σ.spool p = .swapram off size)
    (hcall : execSpoolMove cfg σ p off size blkno span position = .ok σ') : TierInv cfg σ' := by
  unfold execSpoolMove at hcall
  split at hcall
  · obtain ⟨bytes, _, hcall⟩ := bind_ok hcall
    cases hcall
    exact h.same rfl rfl rfl rfl rfl rfl
  · obtain ⟨σ₁, hfree, hcall⟩ := bind_ok hcall
    obtain ⟨_, mp, hback, rfl⟩ := swapramSpoolFree_ok hfree
    cases hcall
    exact spoolFreed_tier (s := .flash blkno span) h hs rfl hback rfl rfl rfl rfl rfl rfl

theorem execSpoolWrite_tier {pos : Nat} {src : List UInt8} (h : TierInv cfg σ)
    (hcall : execSpoolWrite cfg σ p pos src = .ok σ') : TierInv cfg σ' := by
  unfold execSpoolWrite at hcall
  split at hcall
  · cases hcall
    exact h
  · split at hcall
    · cases hcall
    · unfold swapramSpoolWrite at hcall
      split at hcall
      · cases hcall
      · cases hcall
        exact h.same rfl rfl rfl rfl rfl rfl
  · cases hcall
    exact h.same rfl rfl rfl rfl rfl rfl

theorem execSpoolToFlash_tier {size : Nat} (h : TierInv cfg σ)
    (hcall : execSpoolToFlash σ p size = .ok σ') : TierInv cfg σ' := by
  obtain ⟨⟨run, σ₁⟩, hres, hcall⟩ := bind_ok hcall
  obtain ⟨mp, next, rfl⟩ := execSpoolReserveFlash_ok hres
  cases run with
  | none =>
    cases hcall
    exact h.same rfl rfl rfl rfl rfl rfl
  | some run =>
    cases hcall
    exact h.same rfl rfl rfl rfl rfl rfl

theorem exit_tier (h : TierInv cfg σ) (hp : σ.Awake p) : TierInv cfg (Swap.exit σ p) := by
  obtain ⟨hne, haway, hnone, hslot⟩ := h.awake hp
  obtain ⟨hmap, htab, hspool, hjob, hsw⟩ := swapramLeaveLarge_rest σ p
  obtain ⟨hother, large, hproc⟩ := swapramLeaveLarge_proc σ p
  refine h.ofProc hne haway hnone hmap htab hspool hjob hsw
    (fun q hq => (Function.update_of_ne hq _ _).trans (hother q hq)) ?_
  have hself : (Swap.exit σ p).proc p = { σ.proc p with p_large := large, p_stat := .zomb } := by
    simp only [Swap.exit, Kernel.setProc, Function.update_self, hproc]
  rw [hself]
  refine ⟨by rintro ⟨⟩, by rintro ⟨⟩, fun hne => absurd rfl hne, fun hlive => ?_⟩
  exact absurd (hp.2.2.1.symm.trans (hslot.live hlive).2.1) (by rintro ⟨⟩)

theorem reap_tier (h : TierInv cfg σ) (hz : (σ.proc p).p_stat = .zomb) : TierInv cfg (Swap.reap σ p) := by
  obtain ⟨haway, hnone, hdead⟩ := h.unused (p := p) (by rw [hz]; rintro ⟨⟩)
  by_cases hp : p = 0
  · -- Slot 0 is not a zombie, but the invariant need not know: it says nothing about its fields.
    subst hp
    have hother : ∀ q, q ≠ 0 → (Swap.reap σ 0).proc q = σ.proc q := fun q hq =>
      Function.update_of_ne hq _ _
    refine ⟨h.pool, h.table, fun q hq => ?_, h.zero, fun q hq => ?_, ?_⟩
    · rw [hother q hq]
      exact h.slot q hq
    · have hq0 : q ≠ 0 := by
        rintro rfl
        exact hq hnone
      rw [hother q hq0]
      exact h.busy q hq
    · exact h.swapper.other haway (fun _ hl => hl) (fun _ _ => rfl) hother (fun _ _ => rfl)
  · refine h.ofProc hp haway hnone rfl rfl rfl rfl rfl (fun q hq => Function.update_of_ne hq _ _) ?_
    simp only [Swap.reap, Kernel.setProc, Function.update_self]
    exact ⟨by rintro ⟨⟩, by rintro ⟨⟩, fun hne => absurd rfl hne, fun hlive => absurd (hlive.symm.trans hdead) (by rintro ⟨⟩)⟩

/-- A swapout's next block, for whoever sleeps in it. -/
theorem swapoutAny_tier {u : List UInt8} {j : OutJob} (h : TierInv cfg σ) (hjob : σ.job p = some j) :
    TierInv cfg (swapoutResume σ p u j) := by
  cases htodo : j.todo with
  | nil =>
    have hsw : (swapoutResume σ p u j).swapper = σ.swapper := by
      simp only [swapoutResume, htodo]
      rfl
    exact swapoutDone_tier h hjob htodo (.inr hsw) rfl
  | cons seg todo => exact swapoutResume_tier h hjob htodo

theorem TierInv.step {e : Event} (h : TierInv cfg σ) (hen : σ.Enabled cfg e)
    (hstep : σ.step cfg e = .ok σ') : TierInv cfg σ' := by
  cases e with
  | store p img pool =>
    obtain ⟨hrun, hwf, hfits⟩ := hen
    have hle : img.dsize + img.ssize ≤ maxmem + cfg.pool := by
      refine hfits.trans ?_
      unfold swapramCeiling
      split <;> omega
    have hbecome : TierInv cfg (σ.setProc p ((σ.proc p).become img)) :=
      become_tier (b := (σ.proc p).p_large) h hrun.1 hwf hle rfl rfl rfl rfl rfl
        (fun q hq => Function.update_of_ne hq _ _) (Function.update_self ..)
    cases hstep
    unfold clobber
    split
    · exact hbecome.same rfl rfl rfl rfl rfl rfl
    · exact hbecome
  | estabSmall p img =>
    obtain ⟨hrun, hwf, hfits⟩ := hen
    obtain ⟨hmap, htab, hspool, hjob, hsw⟩ := swapramLeaveLarge_rest σ p
    obtain ⟨hother, large, hproc⟩ := swapramLeaveLarge_proc σ p
    cases hstep
    refine become_tier (b := large) h hrun.1 hwf (hfits.trans (Nat.le_add_right _ _)) hmap htab
      hspool hjob hsw (fun q hq => (Function.update_of_ne hq _ _).trans (hother q hq)) ?_
    simp only [Kernel.setProc, Function.update_self, hproc]
    rfl
  | spoolAlloc p size => exact execSpoolAlloc_tier h hen.2.1 hstep
  | spoolWrite p pos src => exact execSpoolWrite_tier h hstep
  | spoolToFlash p =>
    simp only [Kernel.step] at hstep
    split at hstep
    · exact execSpoolToFlash_tier h hstep
    · cases hstep
      exact h
  | spoolMove p =>
    simp only [Kernel.step] at hstep
    split at hstep
    · rename_i hs
      exact execSpoolMove_tier h hs hstep
    · cases hstep
      exact h
  | spoolDiscard p => exact execSpoolDiscard_tier h hstep
  | enterLarge p =>
    cases hstep
    unfold swapramEnterLarge
    split
    · exact h.same rfl rfl rfl rfl rfl rfl
    · exact enterLoop_tier (h.same rfl rfl rfl rfl rfl rfl) hen.1.1
  | enterWake p =>
    simp only [Kernel.step] at hstep
    split at hstep
    · cases hstep
      unfold enterWake
      split
      · exact h.same rfl rfl rfl rfl rfl rfl
      · exact enterLoop_tier h hen.1
    · cases hstep
      exact h
  | fork p child u => exact newproc_tier h hen.1.1 hen.2.2.1 hen.2.2.2.1 hstep
  | forkResume p u =>
    simp only [Kernel.step] at hstep
    split at hstep
    · split at hstep
      · rename_i child _ _ j hjob
        have hres := swapoutAny_tier (u := u) h hjob
        cases hstep
        unfold newprocResume
        simp only
        split
        · exact hres
        · exact hres.same rfl rfl rfl rfl rfl rfl
      · cases hstep
        exact h
    · cases hstep
      exact h
  | exit p =>
    cases hstep
    exact exit_tier h hen.1.1
  | reap p =>
    cases hstep
    exact reap_tier h hen
  | postEvac p =>
    cases hstep
    exact h.same rfl rfl rfl rfl rfl rfl
  | setEpoch p e =>
    cases hstep
    cases e <;> exact h.same rfl rfl rfl rfl rfl rfl
  | fillFromU p q =>
    simp only [Kernel.step] at hstep
    split at hstep
    · obtain ⟨⟨bytes, σ₁⟩, hpre, rfl⟩ := exists_of_map_eq_ok hstep
      cases swapramUareaPrefix_ok hpre
      exact h
    · cases hstep
      exact h
  | service =>
    have hidle := Swapper.eq_idle hen
    exact swapramService_tier (h.toIdle (by rw [hidle]; rintro _ ⟨⟩)) hstep
  | evacResume =>
    simp only [Kernel.step] at hstep
    split at hstep
    · rename_i why hs
      obtain ⟨⟨r, σ₁⟩, hnext, hcont⟩ := bind_ok hstep
      obtain ⟨h₁, hlive⟩ := evacNext_tier (h.toIdle (by rw [hs]; rintro _ ⟨⟩)) hnext
      exact evacContinue_tier h₁ hlive hcont
    · rename_i why loc hs
      obtain ⟨⟨r, σ₁⟩, hnext, hcont⟩ := bind_ok hstep
      have hok := h.swapper
      rw [hs] at hok
      obtain ⟨h₁, hlive⟩ := evacResume_tier (h.toIdle (by rw [hs]; rintro _ ⟨⟩)) hok hnext
      exact evacContinue_tier h₁ hlive hcont
    · cases hstep
      exact h
  | swapout p u => exact swapout_tier h (Swapper.eq_idle hen.1) hen.2.1 hstep
  | swapoutResume u =>
    simp only [Kernel.step] at hstep
    split at hstep
    · split at hstep
      · rename_i p hs _ j hjob
        cases hstep
        cases htodo : j.todo with
        | cons seg todo =>
          have hsome : ((swapoutResume σ p u j).job p).isSome = true := by
            simp only [swapoutResume, htodo, Kernel.setJob, Function.update_self, Option.isSome_some]
          rw [if_pos hsome]
          exact swapoutResume_tier h hjob htodo
        | nil =>
          have hnone : ¬((swapoutResume σ p u j).job p).isSome = true := by
            simp only [swapoutResume, htodo, Kernel.setJob, Function.update_self, Option.isSome_none]
            rintro ⟨⟩
          rw [if_neg hnone]
          exact swapoutDone_tier h hjob htodo (.inl ⟨rfl, hs⟩) rfl
      · cases hstep
        exact h
    · cases hstep
      exact h
  | swapin p =>
    have haway := swapin_away h hen
    have hidle := Swapper.eq_idle hen.1
    simp only [Kernel.step, swapinBegin] at hstep
    split at hstep
    · cases hstep
      refine ⟨h.pool, h.table, h.slot, h.zero, fun q hq => .inl ?_, ?_⟩
      · exact (h.busy q hq).resolve_right (by rw [hidle]; rintro ⟨⟩)
      · exact ⟨haway.slot, haway.run, haway.out, haway.job⟩
    · exact swapinLoad_tier h haway (by rw [hidle]; rintro _ ⟨⟩) hstep
  | textRestore isPacked =>
    simp only [Kernel.step] at hstep
    split at hstep
    · rename_i p hs
      have haway := h.swapper
      rw [hs] at haway
      unfold textRestore at hstep
      split at hstep
      · obtain ⟨σ₁, hacq, rfl⟩ := exists_of_map_eq_ok hstep
        obtain ⟨_, rfl⟩ := swapramCodecAcquire_ok hacq
        refine ⟨h.pool, h.table, h.slot, h.zero, fun q hq => .inl ?_, ?_⟩
        · exact (h.busy q hq).resolve_right (by rw [hs]; rintro ⟨⟩)
        · exact ⟨haway.slot, haway.run, haway.out, haway.job⟩
      · exact swapinLoad_tier h haway (by rw [hs]; rintro _ ⟨⟩) hstep
    · cases hstep
      exact h
  | packedEnd =>
    simp only [Kernel.step] at hstep
    split at hstep
    · rename_i p hs
      have haway := h.swapper
      rw [hs] at haway
      obtain ⟨σ₁, hrel, hload⟩ := bind_ok hstep
      obtain ⟨_, rfl⟩ := swapramCodecRelease_ok hrel
      exact swapinLoad_tier (σ := { σ with sr_codec_owner := none })
        (h.same rfl rfl rfl rfl rfl rfl) ⟨haway.slot, haway.run, haway.out, haway.job⟩
        (fun q => by rw [hs]; rintro ⟨⟩) hload
    · cases hstep
      exact h
  | swapinResume pool =>
    simp only [Kernel.step] at hstep
    split at hstep
    · rename_i p todo got hs
      exact swapinResume_tier h hs hstep
    · cases hstep
      exact h

theorem TierInv.boot (cfg : Conf) (mp : Map) (next : Nat) : TierInv cfg (Swap.boot cfg mp next) := by
  have hsize : cfg.pool < 2 ^ 32 := by
    have hle := cfg.pool_le
    unfold sram at hle
    omega
  refine ⟨?_, ?_, fun p hp => ?_, ⟨rfl, rfl⟩, fun p hjob => absurd rfl hjob, trivial⟩
  · have hheld : (Swap.boot cfg mp next).held = [] := by
      simp only [Kernel.held, Kernel.imageRanges, Kernel.spoolRanges, List.append_eq_nil_iff,
        List.filterMap_eq_nil_iff]
      exact ⟨fun _ _ => rfl, fun _ _ => rfl⟩
    rw [hheld]
    exact PoolInv.init hsize (Nat.succ_pos _)
  · have hmask : maskDown 32 cfg.pool swapramGrain = cfg.pool / 4 * 4 :=
      maskDown_eq (k := 2) (by omega) hsize
    simp only [Swap.boot, swapramPoolInit, hmask]
    split <;> exact ⟨rfl, rfl⟩
  · simp only [Swap.boot, if_neg hp]
    split
    · refine ⟨fun _ => Nat.zero_le _, fun _ _ seg => ?_, fun hne => absurd rfl hne, by rintro ⟨⟩⟩
      fin_cases seg
      · rfl
      · rfl
      · exact List.length_replicate
    · exact ⟨by rintro ⟨⟩, by rintro ⟨⟩, fun hne => absurd rfl hne, by rintro ⟨⟩⟩

theorem Runs.tierInv {ok : Kernel → Event → Prop} (h : Runs cfg ok σ) : TierInv cfg σ := by
  induction h with
  | boot next hmap => exact TierInv.boot cfg _ next
  | step e _ hen _ hstep ih => exact ih.step hen hstep

end

end DiscoBSD.Swap
