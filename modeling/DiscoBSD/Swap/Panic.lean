import Mathlib
import DiscoBSD.Swap.Epoch

/-!
# Which panics a step can end in

The panics of the tier that this development is about are the one for a busy codec workspace and the four
for a pool segment table that is full. Each routine avoids those of them whose cause is absent, and
the other panics and the faults of the resource map are none of them.

The lemmas are stated for any part `bad` of the five, with a hypothesis for each of the five that a
routine could raise, so that one walk over the routines serves both questions.
-/

set_option autoImplicit false

namespace DiscoBSD.Swap

open DiscoBSD.Lib DiscoBSD.Rmap DiscoBSD.Hsx DiscoBSD.Swapram

def busyPanic : Fault := .panic "swapram: codec workspace busy"
def freePanic : Fault := .panic "swapram: free"
def spoolFreePanic : Fault := .panic "swapram: spool free"
def evacFreePanic : Fault := .panic "swapram: evacuate free"
def trimPanic : Fault := .panic "swapram: trim"

/-- The panics in question. -/
def tierPanics : List Fault := [busyPanic, freePanic, spoolFreePanic, evacFreePanic, trimPanic]

/-- The faults of the resource map. -/
def rmapFaults : List Fault :=
  [.outside, .panic "mfree: addr = 0", .panic "malloc3_contiguous_next: bad alignment",
    .panic "malloc3_contiguous_next: no cursor", .panic "malloc3_contiguous_next: unaligned map",
    .panic "malloc3_contiguous_next: corrupt map"]

/-! ## The resource map -/

section
variable {bad : List Fault} (hmap : ∀ e ∈ rmapFaults, e ∉ bad)
include hmap

theorem avoids_outside {α : Type} : Avoids bad (.error .outside : Except Fault α) :=
  .error (hmap _ (by decide))

theorem closeUp_avoids (m : List Extent) : Avoids bad (closeUp m) := by
  fun_induction closeUp m with
  | case1 x bp rest h => exact .ok _
  | case2 x bp rest h ih => exact ih.map _
  | case3 => exact avoids_outside hmap

theorem openUp_avoids (new : Extent) (m : List Extent) : Avoids bad (openUp new m) := by
  fun_induction openUp new m with
  | case1 => exact avoids_outside hmap
  | case2 => exact .ok _
  | case3 => exact .ok _
  | case4 _ _ _ _ ih => exact ih.map _

theorem mfree_avoids (mp : Map) (size addr : Nat) : Avoids bad (mfree mp size addr) := by
  have hfinish : ∀ before bp rest, Avoids bad (mfree.finish mp size addr before bp rest) := by
    intro before bp rest
    unfold mfree.finish freeRight
    refine Avoids.map ?_ _
    split
    · exact .ok _
    · exact (openUp_avoids hmap _ _).map _
  unfold mfree
  split
  · exact .ok _
  split
  · exact .error (hmap _ (by decide))
  simp only
  split
  · exact avoids_outside hmap
  split
  · split
    · refine Avoids.map ?_ _
      simp only [freeLeft]
      split
      · exact (closeUp_avoids hmap _).map _
      · exact .ok _
    · exact hfinish _ _ _
  · exact hfinish _ _ _

theorem hasSpare_avoids (m : List Extent) : Avoids bad (hasSpare m) := by
  fun_induction hasSpare m with
  | case1 => exact avoids_outside hmap
  | case2 => exact .ok _
  | case3 _ _ _ ih => exact ih

theorem nextPass_avoids (wrapped spare : Bool) (next align span i : Nat) (m : List Extent) :
    Avoids bad (nextPass wrapped spare next align span i m) := by
  fun_induction nextPass wrapped spare next align span i m with
  | case1 => exact avoids_outside hmap
  | case2 => exact .ok _
  | case3 => exact .error (hmap _ (by decide))
  | case4 => exact .error (hmap _ (by decide))
  | case5 _ _ _ _ _ _ _ ih => exact ih
  | case6 _ _ _ _ _ _ _ _ ih => exact ih
  | case7 => exact .ok _

theorem placeAt_avoids (w span base : Nat) (m : List Extent) : Avoids bad (placeAt w span base m) := by
  cases m with
  | nil => exact avoids_outside hmap
  | cons bp rest =>
    simp only [placeAt]
    split
    · split
      · exact closeUp_avoids hmap _
      · exact .ok _
    · split
      · exact .ok _
      · refine (openUp_avoids hmap _ _).bind fun m _ => ?_
        cases m with
        | none => exact avoids_outside hmap
        | some m => exact .ok _

theorem malloc3ContiguousNext_avoids (mp : Map) (d_size s_size u_size align : Nat)
    (nextp : Option Nat) (a : Fin 3 → Nat) :
    Avoids bad (malloc3ContiguousNext mp d_size s_size u_size align nextp a) := by
  unfold malloc3ContiguousNext
  split
  · exact .error (hmap _ (by decide))
  split
  · exact .error (hmap _ (by decide))
  split
  · exact .ok _
  refine (hasSpare_avoids hmap _).bind fun spare _ => Avoids.bind ?_ fun sel _ => ?_
  · unfold nextSelect
    split
    · exact nextPass_avoids hmap _ _ _ _ _ _ _
    · exact nextPass_avoids hmap _ _ _ _ _ _ _
  · cases sel with
    | none => exact .ok _
    | some sel => exact (placeAt_avoids hmap _ _ _ _).bind fun m _ => .ok _

theorem execSpoolReserveFlash_avoids {σ : Kernel} {size : Nat} : Avoids bad (execSpoolReserveFlash σ size) := by
  refine (malloc3ContiguousNext_avoids hmap _ _ _ _ _ _ _).bind fun ⟨span, next, a, mp⟩ _ => ?_
  simp only
  split
  · exact .ok _
  · exact .ok _

end

section
variable {bad : List Fault} (hbad : ∀ e ∈ bad, e ∈ tierPanics)
include hbad

/-- Any other error. -/
theorem avoids_other {α : Type} {e : Fault} (h : e ∉ tierPanics) :
    Avoids bad (.error e : Except Fault α) := .error fun he => h (hbad e he)

theorem not_rmapFaults : ∀ e ∈ rmapFaults, e ∉ bad := by
  have hdisj : ∀ e ∈ rmapFaults, e ∉ tierPanics := by decide
  intro e he hm
  exact hdisj e he (hbad e hm)

variable {cfg : Conf} {σ : Kernel} {p : Slot}

/-! ## The codec workspace -/

omit hbad in
theorem swapramCodecAcquire_avoids {owner : Codec}
    (hbusy : busyPanic ∈ bad → σ.sr_codec_owner = none) :
    Avoids bad (swapramCodecAcquire σ owner) := by
  unfold swapramCodecAcquire
  split
  · rename_i hne
    exact .error fun he => hne (hbusy he)
  · exact .ok _

theorem swapramCodecRelease_avoids {owner : Codec} : Avoids bad (swapramCodecRelease σ owner) := by
  unfold swapramCodecRelease
  split
  · exact avoids_other hbad (by decide)
  · exact .ok _

theorem srEncode_avoids {src : List UInt8} {cap : Option Nat}
    (hbusy : busyPanic ∈ bad → σ.sr_codec_owner = none) : Avoids bad (srEncode cfg σ src cap) :=
  (swapramCodecAcquire_avoids hbusy).bind fun _ _ =>
    (swapramCodecRelease_avoids hbad).bind fun _ _ => .ok _

theorem srExpand_avoids {off clen rlen : Nat} (hbusy : busyPanic ∈ bad → σ.sr_codec_owner = none) :
    Avoids bad (srExpand σ off clen rlen) :=
  (swapramCodecAcquire_avoids hbusy).bind fun _ _ =>
    (swapramCodecRelease_avoids hbad).bind fun _ _ => .ok _

/-! ## Swapping out -/

theorem srCount_avoids {src : List UInt8} (hbusy : busyPanic ∈ bad → σ.sr_codec_owner = none) :
    Avoids bad (srCount cfg σ src) := by
  unfold srCount
  split
  · exact .ok _
  · exact (srEncode_avoids hbad hbusy).map _

theorem swapramOut_avoids {dsrc ssrc : List UInt8} {ulen : Nat}
    (hbusy : busyPanic ∈ bad → σ.sr_admit = true → σ.sr_codec_owner ≠ some .packedText →
      σ.sr_codec_owner = none) :
    Avoids bad (swapramOut cfg σ p dsrc ssrc ulen) := by
  unfold swapramOut
  split
  · exact avoids_other hbad (by decide)
  split
  · exact .ok _
  rename_i hopen
  rw [not_or, Bool.not_eq_false] at hopen
  have hbusy' : busyPanic ∈ bad → σ.sr_codec_owner = none := fun he => hbusy he hopen.1 hopen.2
  refine (srCount_avoids hbad hbusy').bind fun ⟨dn, σ₁⟩ hd => ?_
  obtain ⟨_, rfl⟩ := srCount_ok hd
  cases dn with
  | none => exact .ok _
  | some dn =>
    refine (srCount_avoids hbad hbusy').bind fun ⟨sn, σ₂⟩ _ => ?_
    cases sn with
    | none => exact .ok _
    | some sn =>
      simp only
      split
      · exact .ok _
      · exact .ok _

theorem swapramPut_avoids {seg : Seg} {src : List UInt8}
    (hbusy : busyPanic ∈ bad → σ.sr_codec_owner = none) : Avoids bad (swapramPut cfg σ p seg src) := by
  simp only [swapramPut]
  split
  · exact avoids_other hbad (by decide)
  split
  · exact .ok _
  refine (srEncode_avoids hbad hbusy).bind ?_
  rintro ⟨n, σ₁⟩ -
  cases n with
  | none => exact avoids_other hbad (by decide)
  | some bytes =>
    simp only
    split
    · exact avoids_other hbad (by decide)
    · exact .ok _

omit hbad in
theorem swapramCommit_avoids
    (htrim : trimPanic ∈ bad → (swapramPoolTrim σ.sr_map (σ.sr_tab p).e_off (σ.sr_tab p).e_res
      (srCompressedSize (σ.sr_tab p))).1 = true) : Avoids bad (swapramCommit σ p) := by
  simp only [swapramCommit]
  split
  · rename_i hfail
    refine .error fun he => ?_
    have htrue := htrim he
    rw [hfail] at htrue
    cases htrue
  · exact .ok _

theorem swapoutRam_avoids {u : List UInt8} (hbusy : busyPanic ∈ bad → σ.sr_codec_owner = none)
    (htrim : trimPanic ∈ bad → ∀ used ≤ srCompressedSize (σ.sr_tab p),
      (swapramPoolTrim σ.sr_map (σ.sr_tab p).e_off (σ.sr_tab p).e_res used).1 = true) :
    Avoids bad (swapoutRam cfg σ p u) := by
  -- The three puts leave what the two hypotheses are about as it was.
  have hput : ∀ (τ : Kernel) (seg : Seg), (busyPanic ∈ bad → τ.sr_codec_owner = none) →
      Avoids bad (if (σ.proc p).len seg ≠ 0 then swapramPut cfg τ p seg ((σ.proc p).core seg)
        else .ok τ) := by
    intro τ seg hτ
    split
    · exact swapramPut_avoids hbad hτ
    · exact .ok _
  have hframe : ∀ {τ τ' : Kernel} {seg : Seg}, (if (σ.proc p).len seg ≠ 0 then
      swapramPut cfg τ p seg ((σ.proc p).core seg) else .ok τ) = .ok τ' →
      PutFrame p τ τ' := by
    intro τ τ' seg h
    split at h
    · exact swapramPut_frame h
    · cases h
      exact .refl p τ
  refine (hput σ srData hbusy).bind fun σ₁ h₁ => ?_
  have f₁ := hframe h₁
  refine (hput σ₁ srStack (by rw [f₁.owner]; exact hbusy)).bind fun σ₂ h₂ => ?_
  have f₂ := f₁.trans (hframe h₂)
  refine (swapramPut_avoids hbad (by rw [f₂.owner]; exact hbusy)).bind fun σ₃ h₃ => ?_
  have f₃ := f₂.trans (swapramPut_frame h₃)
  refine (swapramCommit_avoids fun he => ?_).bind fun σ₄ _ => .ok _
  rw [f₃.map, f₃.off, f₃.res]
  exact htrim he _ f₃.used

theorem swapoutFlash_avoids : Avoids bad (swapoutFlash σ p) := by
  refine (malloc3ContiguousNext_avoids (not_rmapFaults hbad) _ _ _ _ _ _ _).bind fun ⟨span, next, a, mp⟩ _ => ?_
  simp only
  split
  · exact avoids_other hbad (by decide)
  · exact .ok _

/-- After an allocation for an image the range can be trimmed to any smaller size. -/
def TrimsAll (mp : SwapramPool) : Prop :=
  ∀ want off mp', want + 3 < 2 ^ 32 → swapramPoolAlloc mp want = (some off, mp') →
    ∀ used ≤ want, (swapramPoolTrim mp' off want used).1 = true

/-- The lengths of an image are far from the end of their type. -/
def Proc.Small (r : Proc) : Prop := ∀ seg, (r.core seg).length ≤ maxmem + sram

omit hbad in
theorem want_lt {dn sn : Nat} (h : (σ.proc p).Small)
    (hd : counted cfg ((σ.proc p).core srData) = some dn)
    (hs : counted cfg ((σ.proc p).core srStack) = some sn) : dn + sn + srWorst usize + 3 < 2 ^ 32 := by
  have hworst : ∀ n, n ≤ maxmem + sram → srWorst n ≤ 1000000 := by
    intro n hn
    unfold srWorst
    unfold maxmem sram at hn
    omega
  have h1 := (counted_le hd).trans (hworst _ (h srData))
  have h2 := (counted_le hs).trans (hworst _ (h srStack))
  have h3 := hworst usize (by decide)
  omega

theorem swapoutBegin_avoids {u : List UInt8}
    (hbusy : busyPanic ∈ bad → σ.sr_admit = true → σ.sr_codec_owner ≠ some .packedText →
      σ.sr_codec_owner = none)
    (htrim : trimPanic ∈ bad → σ.sr_admit = true → TrimsAll σ.sr_map ∧ (σ.proc p).Small) :
    Avoids bad (swapoutBegin cfg σ p u) := by
  refine (swapramOut_avoids hbad hbusy).bind fun ⟨ram, σ₁⟩ hout => ?_
  simp only
  split
  · rename_i hram
    obtain ⟨_, ⟨hfalse, _⟩ | ⟨_, htake, hpacked, dn, sn, off, mp, hd, hs, halloc, rfl⟩⟩ :=
      swapramOut_ok hout
    · exact absurd (hram.symm.trans hfalse) nofun
    · refine swapoutRam_avoids hbad (fun he => hbusy he htake hpacked) fun he used hle => ?_
      simp only [Kernel.setEnt, Function.update_self] at hle ⊢
      obtain ⟨hall, hsmall⟩ := htrim he htake
      exact hall _ _ _ (want_lt hsmall hd hs) halloc used (by simpa [reserved_size] using hle)
  · exact swapoutFlash_avoids hbad

theorem newproc_avoids {child : Slot} {u : List UInt8}
    (hbusy : busyPanic ∈ bad → σ.sr_admit = true → σ.sr_codec_owner ≠ some .packedText →
      σ.sr_codec_owner = none)
    (htrim : trimPanic ∈ bad → σ.sr_admit = true → TrimsAll σ.sr_map ∧ (σ.proc p).Small) :
    Avoids bad (newproc cfg σ p child u) := by
  have hsame : ∀ (τ : Kernel), Kernel.sr_admit (swapramInherit τ child p) = τ.sr_admit ∧
      (swapramInherit τ child p).sr_codec_owner = τ.sr_codec_owner ∧
      (swapramInherit τ child p).sr_map = τ.sr_map ∧
      ((swapramInherit τ child p).proc child).core = (τ.proc child).core := by
    intro τ
    unfold swapramInherit
    split
    · refine ⟨rfl, rfl, rfl, ?_⟩
      simp only [Kernel.setProc, Function.update_self]
    · exact ⟨rfl, rfl, rfl, rfl⟩
  refine (swapoutBegin_avoids hbad ?_ ?_).bind fun σ₂ _ => .ok _
  · rw [(hsame _).1, (hsame _).2.1]
    exact hbusy
  · rw [(hsame _).1, (hsame _).2.2.1]
    intro he ht
    obtain ⟨hall, hsmall⟩ := htrim he ht
    refine ⟨hall, fun seg => ?_⟩
    rw [(hsame _).2.2.2]
    simp only [Kernel.setProc, Function.update_self]
    exact hsmall seg

/-! ## Swapping in -/

/-- The pool takes the range back. -/
def Frees (mp : SwapramPool) (off size : Nat) : Prop := (swapramPoolFree mp off size).1 = true

theorem expandSegs_avoids {e : SrEnt} {off : Nat} (todo : List Seg)
    (hbusy : busyPanic ∈ bad → σ.sr_codec_owner = none) : Avoids bad (expandSegs σ e off todo) := by
  induction todo generalizing off with
  | nil => exact .ok _
  | cons seg rest ih =>
    simp only [expandSegs]
    split
    · exact ih
    · refine (srExpand_avoids hbad hbusy).bind ?_
      rintro ⟨bytes, σ₁⟩ hexp
      obtain ⟨_, _, rfl⟩ := srExpand_ok hexp
      simp only
      split
      · exact avoids_other hbad (by decide)
      · exact ih.bind fun _ _ => .ok _

theorem swapramIn_avoids (hbusy : busyPanic ∈ bad → σ.sr_codec_owner = none)
    (hfree : freePanic ∈ bad → (σ.sr_tab p).e_live = true →
      Frees σ.sr_map (σ.sr_tab p).e_off (σ.sr_tab p).e_res) : Avoids bad (swapramIn σ p) := by
  simp only [swapramIn]
  split
  · exact avoids_other hbad (by decide)
  rename_i hlive
  refine (expandSegs_avoids hbad _ hbusy).bind ?_
  rintro ⟨dst, σ₁⟩ hsegs
  obtain ⟨_, rfl⟩ := expandSegs_ok hsegs
  simp only
  split
  · rename_i hfail
    refine .error fun he => ?_
    have htrue := hfree he (Bool.not_eq_false _ |>.mp hlive)
    rw [Frees, hfail] at htrue
    cases htrue
  · exact .ok _

theorem swapinLoad_avoids (hbusy : busyPanic ∈ bad → σ.sr_codec_owner = none)
    (hfree : freePanic ∈ bad → (σ.sr_tab p).e_live = true →
      Frees σ.sr_map (σ.sr_tab p).e_off (σ.sr_tab p).e_res) :
    Avoids bad (swapinLoad cfg σ p) := by
  unfold swapinLoad
  split
  · exact (swapramIn_avoids hbad hbusy hfree).bind fun _ _ => .ok _
  · exact .ok _

theorem swapinResume_avoids {pool : Nat → UInt8} {got : Seg → List UInt8} {todo : List Seg} :
    Avoids bad (swapinResume cfg σ p pool got todo) := by
  cases todo with
  | nil => exact (mfree_avoids (not_rmapFaults hbad) _ _ _).bind fun _ _ => .ok _
  | cons seg todo => exact .ok _

theorem swapramUareaPrefix_avoids {len : Nat}
    (hbusy : busyPanic ∈ bad → (σ.sr_tab p).e_live = true → len ≤ (σ.sr_tab p).e_rlen srU →
      σ.sr_codec_owner = none) : Avoids bad (swapramUareaPrefix σ p len) := by
  simp only [swapramUareaPrefix]
  split
  · exact .ok _
  · rename_i hguard
    rw [not_or, Bool.not_eq_false, Nat.not_lt] at hguard
    exact (srExpand_avoids hbad fun he => hbusy he hguard.1 hguard.2).bind fun _ _ => .ok _

/-! ## Spools -/

omit hbad in
theorem swapramSpoolFree_avoids {off size : Nat}
    (hfree : spoolFreePanic ∈ bad → σ.sr_spools ≠ 0 ∧ Frees σ.sr_map off size) :
    Avoids bad (swapramSpoolFree σ off size) := by
  unfold swapramSpoolFree
  split
  · rename_i h0
    exact .error fun he => (hfree he).1 h0
  split
  · rename_i hfail
    refine .error fun he => ?_
    have htrue := (hfree he).2
    rw [Frees, hfail] at htrue
    cases htrue
  · exact .ok _

theorem execSpoolAlloc_avoids {size : Nat} : Avoids bad (execSpoolAlloc σ p size) := by
  unfold execSpoolAlloc
  split
  · exact .ok _
  · refine (execSpoolReserveFlash_avoids (not_rmapFaults hbad)).bind fun ⟨run, σ₁⟩ _ => ?_
    cases run with
    | none => exact .ok _
    | some run => exact .ok _

theorem execSpoolWrite_avoids {pos : Nat} {src : List UInt8} :
    Avoids bad (execSpoolWrite cfg σ p pos src) := by
  unfold execSpoolWrite
  split
  · exact .ok _
  · split
    · exact avoids_other hbad (by decide)
    · unfold swapramSpoolWrite
      split
      · exact avoids_other hbad (by decide)
      · exact .ok _
  · exact .ok _

theorem execSpoolToFlash_avoids {size : Nat} : Avoids bad (execSpoolToFlash σ p size) := by
  refine (execSpoolReserveFlash_avoids (not_rmapFaults hbad)).bind fun ⟨run, σ₁⟩ _ => ?_
  cases run with
  | none => exact .ok _
  | some run => exact .ok _

theorem execSpoolMove_avoids {off size blkno span position : Nat}
    (hfree : spoolFreePanic ∈ bad → σ.sr_spools ≠ 0 ∧ Frees σ.sr_map off size) :
    Avoids bad (execSpoolMove cfg σ p off size blkno span position) := by
  unfold execSpoolMove
  split
  · refine Avoids.bind ?_ fun _ _ => .ok _
    unfold swapramSpoolRead
    split
    · exact avoids_other hbad (by decide)
    · exact .ok _
  · exact (swapramSpoolFree_avoids hfree).bind fun _ _ => .ok _

theorem execSpoolDiscard_avoids
    (hfree : spoolFreePanic ∈ bad → ∀ off size, σ.spool p = .swapram off size →
      σ.sr_spools ≠ 0 ∧ Frees σ.sr_map off size) : Avoids bad (execSpoolDiscard σ p) := by
  unfold execSpoolDiscard
  split
  · exact .ok _
  · rename_i off size hspool
    exact (swapramSpoolFree_avoids fun he => hfree he off size hspool).map _
  · exact (mfree_avoids (not_rmapFaults hbad) _ _ _).map _

/-! ## Evacuating -/

theorem evacUndo_avoids (done : List Slot) : Avoids bad (evacUndo σ done) := by
  induction done generalizing σ with
  | nil => exact .ok _
  | cons j rest ih =>
    simp only [evacUndo]
    split
    · exact ih
    · exact (mfree_avoids (not_rmapFaults hbad) _ _ _).bind fun _ _ => ih

theorem evacReserve_avoids (done todo : List Slot) (next images : Nat) :
    Avoids bad (evacReserve done next images σ todo) := by
  induction todo generalizing done next images σ with
  | nil => exact .ok _
  | cons i rest ih =>
    simp only [evacReserve]
    split
    · exact ih _ _ _
    split
    · exact avoids_other hbad (by decide)
    split
    · exact avoids_other hbad (by decide)
    refine (malloc3ContiguousNext_avoids (not_rmapFaults hbad) _ _ _ _ _ _ _).bind ?_
    rintro ⟨span, next₁, a, mp⟩ -
    simp only
    split
    · exact (evacUndo_avoids hbad _).bind fun _ _ => .ok _
    · exact ih _ _ _

theorem evacuateBegin_avoids : Avoids bad (evacuateBegin σ) := by
  refine (evacReserve_avoids hbad _ _ _ _).bind fun ⟨r, σ₁⟩ _ => ?_
  cases r with
  | none => exact .ok _
  | some r =>
    simp only
    split
    · exact .ok _
    · exact .ok _

theorem evacBlock_avoids {loc : ExpandAt} : Avoids bad (evacBlock σ loc) := by
  simp only [evacBlock]
  split
  · exact avoids_other hbad (by decide)
  · exact .ok _

theorem evacSeg_avoids {i : Slot} {off : Nat} {seg : Seg} {todo : List Seg} {rest : List Slot}
    (hbusy : busyPanic ∈ bad → σ.sr_codec_owner = none) :
    Avoids bad (evacSeg σ i off seg todo rest) :=
  (swapramCodecAcquire_avoids hbusy).bind fun _ _ => evacBlock_avoids hbad

omit hbad in
theorem evacRelease_avoids {i : Slot}
    (hfree : evacFreePanic ∈ bad → Frees σ.sr_map (σ.sr_tab i).e_off (σ.sr_tab i).e_res) :
    Avoids bad (evacRelease σ i) := by
  simp only [evacRelease]
  split
  · rename_i hfail
    refine .error fun he => ?_
    have htrue := hfree he
    rw [Frees, hfail] at htrue
    cases htrue
  · exact .ok _

/-- A live image has something to move, so the loop sleeps at it before it releases anything. -/
theorem evacNext_avoids (slots : List Slot) (hbusy : busyPanic ∈ bad → σ.sr_codec_owner = none)
    (hfree : evacFreePanic ∈ bad → ∀ i, (σ.sr_tab i).e_live = true → (σ.sr_tab i).e_rlen srU ≠ 0) :
    Avoids bad (evacNext σ slots) := by
  induction slots generalizing σ with
  | nil => exact .ok _
  | cons i rest ih =>
    simp only [evacNext]
    split
    · exact ih hbusy hfree
    rename_i hlive
    split
    · exact evacSeg_avoids hbad hbusy
    · rename_i hempty
      have hnot : evacFreePanic ∉ bad := by
        intro he
        have hu := List.dropWhile_eq_nil_iff.mp hempty srU (by decide)
        exact hfree he i (Bool.not_eq_false _ |>.mp hlive) (of_decide_eq_true hu)
      refine (evacRelease_avoids fun he => absurd he hnot).bind fun σ₁ hrel => ?_
      obtain ⟨mp, _, rfl⟩ := evacRelease_ok hrel
      exact ih hbusy fun he => absurd he hnot

theorem evacResume_avoids {loc : ExpandAt} (hfree : evacFreePanic ∈ bad →
      Frees σ.sr_map (σ.sr_tab loc.slot).e_off (σ.sr_tab loc.slot).e_res ∧
      ∀ i, (σ.sr_tab i).e_live = true → (σ.sr_tab i).e_rlen srU ≠ 0) :
    Avoids bad (evacResume σ loc) := by
  simp only [evacResume]
  split
  · exact evacBlock_avoids hbad
  refine (swapramCodecRelease_avoids hbad).bind fun σ₁ hrel => ?_
  obtain ⟨_, rfl⟩ := swapramCodecRelease_ok hrel
  split
  · exact evacSeg_avoids hbad fun _ => rfl
  · refine (evacRelease_avoids (σ := { σ with sr_codec_owner := none })
      fun he => (hfree he).1).bind fun σ₂ hrel => ?_
    obtain ⟨mp, _, rfl⟩ := evacRelease_ok hrel
    refine evacNext_avoids hbad _ (fun _ => rfl) fun he i hlive => ?_
    by_cases hi : i = loc.slot
    · subst hi
      simp [Kernel.setEnt] at hlive
    · simp only [Kernel.setEnt, Function.update_of_ne hi] at hlive ⊢
      exact (hfree he).2 i hlive

theorem serviceLarge_avoids : Avoids bad (serviceLarge σ) := by
  unfold serviceLarge
  split
  · simp only
    split
    · refine (evacuateBegin_avoids hbad).bind fun ⟨r, σ₁⟩ _ => ?_
      cases r with
      | none => exact .ok _
      | some ok => exact .ok _
    · exact .ok _
  · split
    · exact .ok _
    · exact .ok _

theorem swapramService_avoids : Avoids bad (swapramService σ) := by
  unfold swapramService
  split
  · refine (evacuateBegin_avoids hbad).bind fun ⟨r, σ₁⟩ _ => ?_
    cases r with
    | none => exact .ok _
    | some ok => exact serviceLarge_avoids hbad
  · exact serviceLarge_avoids hbad

theorem evacContinue_avoids (why : Purpose) (r : Option ExpandAt × Kernel) :
    Avoids bad (evacContinue why r) := by
  obtain ⟨loc, σ₁⟩ := r
  cases loc with
  | some loc => exact .ok _
  | none =>
    cases why with
    | evac => exact serviceLarge_avoids hbad
    | large => exact .ok _

/-! ## A step -/

omit hbad in
/-- Nobody but the swapper sleeps with the workspace, and not while the tier takes images. -/
theorem EpochInv.owner_free (h : EpochInv σ.ctl) (ht : σ.sr_admit = true)
    (hp : σ.sr_codec_owner ≠ some .packedText) : σ.sr_codec_owner = none := by
  have hown : σ.sr_codec_owner = σ.swapper.codec := h.owner
  cases hs : σ.swapper with
  | expanding why loc =>
    have hclosed := (h.evac why (loc.slot :: loc.rest) (by
      rw [show σ.ctl.swapper = _ from hs]
      rfl)).1
    exact absurd (hclosed.symm.trans ht) nofun
  | packed q => exact absurd (hown.trans (by rw [hs]; rfl)) hp
  | idle => exact hown.trans (by rw [hs]; rfl)
  | geteblk why => exact hown.trans (by rw [hs]; rfl)
  | swapout q => exact hown.trans (by rw [hs]; rfl)
  | text q => exact hown.trans (by rw [hs]; rfl)
  | reading q todo got => exact hown.trans (by rw [hs]; rfl)

end

/-- A sysctl reader asks for the u area of an image in the tier while the swapper sleeps with the
    workspace. -/
def Kernel.Collides (σ : Kernel) : Event → Prop
  | .fillFromU _ q => (σ.sr_tab q).e_live = true ∧ devBsize ≤ (σ.sr_tab q).e_rlen srU ∧
      σ.swapper.codec ≠ none
  | _ => False

/-- The pool would take back any range that is held. -/
structure FreesAll (σ : Kernel) : Prop where
  image : ∀ p, (σ.sr_tab p).e_live = true → Frees σ.sr_map (σ.sr_tab p).e_off (σ.sr_tab p).e_res
  uarea : ∀ p, (σ.sr_tab p).e_live = true → (σ.sr_tab p).e_rlen srU ≠ 0
  spool : ∀ p off size, σ.spool p = .swapram off size → Frees σ.sr_map off size
  moving : ∀ why loc, σ.swapper = .expanding why loc → (σ.sr_tab loc.slot).e_live = true

/-- The events that put an image into the tier. -/
def Event.swapsOut : Event → Bool
  | .swapout _ _ | .fork _ _ _ => true
  | _ => false

/-- The events that may give a range of the pool back. -/
def Event.givesBack : Event → Bool
  | .spoolMove _ | .spoolDiscard _ | .evacResume | .swapin _ | .textRestore _ | .packedEnd => true
  | _ => false

theorem step_avoids {cfg : Conf} {σ : Kernel} {e : Event} {bad : List Fault}
    (hbad : ∀ e ∈ bad, e ∈ tierPanics) (hinv : EpochInv σ.ctl) (hen : σ.Enabled cfg e)
    (hbusy : busyPanic ∈ bad → ¬σ.Collides e)
    (hfree : (∃ f ∈ bad, f ≠ busyPanic) → e.givesBack = true → FreesAll σ)
    (htrim : trimPanic ∈ bad → e.swapsOut = true → σ.sr_admit = true →
      TrimsAll σ.sr_map ∧ ∀ p, σ.Awake p → (σ.proc p).Small) :
    Avoids bad (σ.step cfg e) := by
  have hown : ∀ {s : Swapper}, σ.swapper = s → s.codec = none → σ.sr_codec_owner = none := by
    intro s hs hc
    have howner : σ.sr_codec_owner = σ.swapper.codec := hinv.owner
    rw [howner, hs, hc]
  have himage : e.givesBack = true → ∀ p, freePanic ∈ bad → (σ.sr_tab p).e_live = true →
      Frees σ.sr_map (σ.sr_tab p).e_off (σ.sr_tab p).e_res :=
    fun he p hf hlive => (hfree ⟨_, hf, by decide⟩ he).image p hlive
  have hspool : e.givesBack = true → ∀ p off size, spoolFreePanic ∈ bad →
      σ.spool p = .swapram off size → σ.sr_spools ≠ 0 ∧ Frees σ.sr_map off size := by
    intro he p off size hf hs
    refine ⟨?_, (hfree ⟨_, hf, by decide⟩ he).spool p off size hs⟩
    have hcount : σ.sr_spools = tally σ.ctl.ram := hinv.spools
    have hpos : 0 < tally σ.ctl.ram := tally_pos (p := p) (by simp [Kernel.ctl, hs, Spool.isRam])
    omega
  cases e with
  | spoolAlloc p size => exact execSpoolAlloc_avoids hbad
  | spoolWrite p pos src => exact execSpoolWrite_avoids hbad
  | spoolToFlash p =>
    simp only [Kernel.step]
    split
    · exact execSpoolToFlash_avoids hbad
    · exact .ok _
  | spoolMove p =>
    simp only [Kernel.step]
    split
    · rename_i hs
      exact execSpoolMove_avoids hbad fun hf => hspool rfl p _ _ hf hs
    · exact .ok _
  | spoolDiscard p => exact execSpoolDiscard_avoids hbad fun hf off size hs => hspool rfl p off size hf hs
  | enterWake p =>
    simp only [Kernel.step]
    split
    · exact .ok _
    · exact .ok _
  | fork p child u =>
    refine newproc_avoids hbad (fun _ => hinv.owner_free) fun hf ht => ?_
    obtain ⟨hall, hsmall⟩ := htrim hf rfl ht
    exact ⟨hall, hsmall p hen.1.1⟩
  | forkResume p u =>
    simp only [Kernel.step]
    split
    · split
      · exact .ok _
      · exact .ok _
    · exact .ok _
  | fillFromU p q =>
    simp only [Kernel.step]
    split
    · refine (swapramUareaPrefix_avoids hbad fun hf hlive hlen => ?_).map _
      have hcodec : σ.swapper.codec = none := by
        by_contra hne
        exact hbusy hf ⟨hlive, hlen, hne⟩
      exact hown rfl hcodec
    · exact .ok _
  | service => exact swapramService_avoids hbad
  | evacResume =>
    simp only [Kernel.step]
    split
    · rename_i hs
      refine (evacNext_avoids hbad _ (fun _ => hown hs rfl) fun hf => ?_).bind
        fun r _ => evacContinue_avoids hbad _ r
      exact (hfree ⟨_, hf, by decide⟩ rfl).uarea
    · rename_i why loc hs
      refine (evacResume_avoids hbad fun hf => ?_).bind fun r _ => evacContinue_avoids hbad _ r
      have hall := hfree ⟨_, hf, by decide⟩ rfl
      exact ⟨hall.image _ (hall.moving why loc hs), hall.uarea⟩
    · exact .ok _
  | swapout p u =>
    refine (swapoutBegin_avoids (σ := σ.setProc p { σ.proc p with sload := false }) hbad
      (fun _ _ _ => ?_) fun hf ht => ?_).bind fun _ _ => .ok _
    · exact hown (Swapper.eq_idle hen.1) rfl
    · obtain ⟨hall, hsmall⟩ := htrim hf rfl ht
      refine ⟨hall, fun seg => ?_⟩
      simp only [Kernel.setProc, Function.update_self]
      exact hsmall p hen.2.1 seg
  | swapoutResume u =>
    simp only [Kernel.step]
    split
    · split
      · exact .ok _
      · exact .ok _
    · exact .ok _
  | swapin p =>
    simp only [Kernel.step, swapinBegin]
    split
    · exact .ok _
    · exact swapinLoad_avoids hbad (fun _ => hown (Swapper.eq_idle hen.1) rfl) (himage rfl p)
  | textRestore isPacked =>
    simp only [Kernel.step]
    split
    · rename_i p hs
      unfold textRestore
      split
      · exact (swapramCodecAcquire_avoids fun _ => hown hs rfl).map _
      · exact swapinLoad_avoids hbad (fun _ => hown hs rfl) (himage rfl p)
    · exact .ok _
  | packedEnd =>
    simp only [Kernel.step]
    split
    · rename_i p hs
      refine (swapramCodecRelease_avoids hbad).bind fun σ₁ hrel => ?_
      obtain ⟨_, rfl⟩ := swapramCodecRelease_ok hrel
      exact swapinLoad_avoids hbad (fun _ => rfl) (himage rfl p)
    · exact .ok _
  | swapinResume pool =>
    simp only [Kernel.step]
    split
    · exact swapinResume_avoids hbad
    · exact .ok _
  | _ => exact .ok _

/-! ## The codec workspace -/

/-- **A step meets a busy workspace exactly when a sysctl reader asks for the u area of an image in the
    tier while the swapper sleeps with the workspace**, in every reachable state. -/
theorem codec_busy_iff {cfg : Conf} {σ : Kernel} {e : Event} (h : Reachable cfg σ)
    (hen : σ.Enabled cfg e) :
    σ.step cfg e ≠ .error (.panic "swapram: codec workspace busy") ↔
      ¬∃ p q, e = .fillFromU p q ∧ (σ.sr_tab q).e_live = true ∧
        devBsize ≤ (σ.sr_tab q).e_rlen srU ∧
        ((∃ why loc, σ.swapper = .expanding why loc) ∨ ∃ r, σ.swapper = .packed r) := by
  have hinv := h.epochInv
  have hcodec : σ.swapper.codec ≠ none ↔
      (∃ why loc, σ.swapper = .expanding why loc) ∨ ∃ r, σ.swapper = .packed r := by
    cases σ.swapper <;> simp [Swapper.codec]
  constructor
  · rintro hne ⟨p, q, rfl, hlive, hlen, hsleep⟩
    refine hne ?_
    have hown : σ.sr_codec_owner ≠ none := by
      rw [show σ.sr_codec_owner = σ.swapper.codec from hinv.owner]
      exact hcodec.mpr hsleep
    have hacq : swapramCodecAcquire σ .decoder = .error busyPanic := if_pos hown
    have hguard : ¬((σ.sr_tab q).e_live = false ∨ (σ.sr_tab q).e_rlen srU < devBsize) := by
      rw [hlive, not_or]
      exact ⟨nofun, Nat.not_lt.mpr hlen⟩
    have hpresent : swapramPresent σ q = true := hlive
    simp only [Kernel.step]
    rw [if_pos hpresent]
    simp only [swapramUareaPrefix]
    rw [if_neg hguard]
    simp only [srExpand, hacq]
    rfl
  · intro hcol
    refine step_avoids (show ∀ f ∈ [busyPanic], f ∈ tierPanics by decide) hinv hen (fun _ => ?_) (fun hf => ?_)
      (fun hf => absurd hf (by decide)) busyPanic (by decide)
    · intro hc
      cases e with
      | fillFromU p q => exact hcol ⟨p, q, rfl, hc.1, hc.2.1, hcodec.mp hc.2.2⟩
      | _ => exact hc
    · obtain ⟨f, hf, hne⟩ := hf
      exact absurd (List.mem_singleton.mp hf) hne

/-- With the swapper at the top of its loop a reader may ask for process 2, whose image is in the
    tier. -/
theorem codec_busy_iff_idle : ∃ σ, Reachable pico σ ∧ (σ.sr_tab 2).e_live = true ∧
    σ.step pico (.fillFromU 1 2) ≠ .error (.panic "swapram: codec workspace busy") := by
  obtain ⟨σ, hrun, hσ⟩ := Runs.given pico (fun _ _ => true) [.fork 1 2 zeroU]
    (fun σ => decide (σ.Enabled pico (.fillFromU 1 2)) && σ.swapper.isIdle && (σ.sr_tab 2).e_live)
    rfl (by decide +kernel)
  simp only [Bool.and_eq_true, decide_eq_true_eq] at hσ
  obtain ⟨⟨hen, hidle⟩, hlive⟩ := hσ
  refine ⟨σ, hrun.reachable, hlive, (codec_busy_iff hrun.reachable hen).mpr ?_⟩
  rintro ⟨_, _, _, _, _, ⟨_, _, hs⟩ | ⟨_, hs⟩⟩
  · rw [hs] at hidle
    cases hidle
  · rw [hs] at hidle
    cases hidle

/-- Process 1 asks for process 2's u area while the evacuation of its image sleeps after the first
    block. -/
theorem codec_busy_reached : ∃ σ e, Reachable pico σ ∧ σ.Enabled pico e ∧
    σ.step pico e = .error (.panic "swapram: codec workspace busy") := by
  obtain ⟨σ, hrun, hσ⟩ := Runs.given pico (fun _ _ => true)
    [.fork 1 2 zeroU, .postEvac 1, .service, .evacResume]
    (fun σ => decide (σ.Enabled pico (.fillFromU 1 2)) &&
      (match σ.step pico (.fillFromU 1 2) with
        | .error f => decide (f = .panic "swapram: codec workspace busy")
        | .ok _ => false)) rfl (by decide +kernel)
  simp only [Bool.and_eq_true, decide_eq_true_eq] at hσ
  refine ⟨σ, .fillFromU 1 2, hrun.reachable, hσ.1, ?_⟩
  cases hstep : σ.step pico (.fillFromU 1 2) with
  | ok τ =>
    rw [hstep] at hσ
    exact absurd hσ.2 nofun
  | error f =>
    rw [hstep] at hσ
    rw [of_decide_eq_true hσ.2]

end DiscoBSD.Swap
