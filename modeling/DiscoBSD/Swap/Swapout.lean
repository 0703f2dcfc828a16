import DiscoBSD.Swap.Spec

/-!
# What a swapout does

`swapout` asks the tier first. The counting pass, the reservation, the three puts and the commit are five
calls, and between them the entry says things that are not so yet; at the end the image is **one run of
bytes in the pool**, the streams of the three segments one behind the other, in a range that was first
as large as the worst case and then cut to size. When the tier does not take the image, `swapout` has
a run of flash and goes to sleep.

Both outcomes are records: what was decided on the way, and the kernel after.
-/

set_option autoImplicit false

namespace DiscoBSD.Swap

open DiscoBSD.Lib DiscoBSD.Rmap DiscoBSD.Hsx DiscoBSD.Swapram
open Function (update)

/-- What a swapout reads of the process: its memory, and the u area as it is when it is captured. -/
def captured (r : Proc) (u : List UInt8) : Seg → List UInt8 := ![r.core srData, r.core srStack, u]

/-- A swapout to the tier. -/
structure RamOut (cfg : Conf) (σ : Kernel) (p : Slot) (u : List UInt8) where
  off : Nat
  mp₁ : SwapramPool
  mp : SwapramPool
  stream : Seg → List UInt8
  streams : ∀ seg, Stream cfg (captured (σ.proc p) u seg) (stream seg)
  ulen : u.length = usize
  worst : (stream srU).length ≤ srWorst usize
  alloc : swapramPoolAlloc σ.sr_map
    ((stream srData).length + (stream srStack).length + srWorst usize) = (some off, mp₁)
  trim : swapramPoolTrim mp₁ off
      ((stream srData).length + (stream srStack).length + srWorst usize)
      ((stream srData).length + (stream srStack).length + (stream srU).length) = (true, mp)

section
variable {cfg : Conf} {σ : Kernel} {p : Slot} {u : List UInt8}

/-- What the image takes of the pool. -/
def RamOut.bytes (o : RamOut cfg σ p u) : List UInt8 :=
  o.stream srData ++ (o.stream srStack ++ o.stream srU)

/-- The entry of the image. -/
def RamOut.ent (o : RamOut cfg σ p u) : SrEnt where
  e_rlen := fun seg => (captured (σ.proc p) u seg).length
  e_off := o.off
  e_res := (o.stream srData).length + (o.stream srStack).length + (o.stream srU).length
  e_clen := fun seg => (o.stream seg).length
  e_live := true

/-- The kernel after it. -/
def RamOut.after (o : RamOut cfg σ p u) : Kernel :=
  swapoutEnd
    (({ σ with sr_pool := writeAt σ.sr_pool o.off o.bytes, sr_map := o.mp }.setEnt p o.ent).setSaved p
      (captured (σ.proc p) u)) p fun _ => 0

end

/-- A swapout to flash, up to its first sleep. -/
structure FlashOut (σ : Kernel) (p : Slot) where
  span : Nat
  next : Nat
  a : Seg → Nat
  mp : Map
  call : malloc3ContiguousNext σ.swapmap (btod ((σ.proc p).len srData))
    (btod ((σ.proc p).len srStack)) (btod ((σ.proc p).len srU)) swapImageAlign (some σ.swapnext) 0 =
      .ok (span, next, a, mp)
  placed : span ≠ 0

/-- The kernel after it. -/
def FlashOut.after {σ : Kernel} {p : Slot} (o : FlashOut σ p) : Kernel :=
  ({ σ with swapmap := o.mp, swapnext := o.next }.setProc p { σ.proc p with slock := true }).setJob p
    (some ⟨o.a, o.span, (σ.proc p).toMove⟩)

section
variable {cfg : Conf} {σ σ' : Kernel} {p : Slot} {u : List UInt8}

theorem swapoutFlash_ok (h : swapoutFlash σ p = .ok σ') : ∃ o : FlashOut σ p, σ' = o.after := by
  obtain ⟨⟨span, next, a, mp⟩, hcall, h⟩ := bind_ok h
  simp only at h
  split at h
  · cases h
  · rename_i hne
    cases h
    exact ⟨⟨span, next, a, mp, hcall, hne⟩, rfl⟩

/-- A put of a segment whose stream was counted exactly. -/
theorem putCounted_ok {τ τ' : Kernel} {seg : Seg}
    (hlen : ((σ.proc p).core seg).length = (σ.proc p).len seg)
    (hcount : counted cfg ((σ.proc p).core seg) = some ((τ.sr_tab p).e_clen seg))
    (h : (if (σ.proc p).len seg ≠ 0 then swapramPut cfg τ p seg ((σ.proc p).core seg) else .ok τ) =
      .ok τ') :
    ∃ bytes, Stream cfg ((σ.proc p).core seg) bytes ∧ bytes.length = (τ.sr_tab p).e_clen seg ∧
      τ' = τ.put p (writeAt τ.sr_pool
        ((τ.sr_tab p).e_off + srCompressedBefore (τ.sr_tab p) seg) bytes) (τ.sr_tab p).e_clen := by
  split at h
  · obtain ⟨_, bytes, hstream, _, _, rfl⟩ := swapramPut_ok h
    have hn := hstream.counted hcount
    refine ⟨bytes, hstream, hn, ?_⟩
    rw [hn, Function.update_eq_self]
  · rename_i h0
    have h0 : ((σ.proc p).core seg).length = 0 := hlen.trans (of_not_not h0)
    cases h
    have hstream : Stream cfg ((σ.proc p).core seg) [] := .nil h0
    refine ⟨[], hstream, hstream.counted hcount, ?_⟩
    rw [writeAt_nil, Kernel.put_self]

/-- **The image is laid down as one run**, and its range is what it needs. -/
theorem swapoutRam_ok {off dn sn : Nat} {mp₁ : SwapramPool}
    (hlen : ∀ seg, ((σ.proc p).core seg).length = (σ.proc p).len seg)
    (hdn : counted cfg ((σ.proc p).core srData) = some dn)
    (hsn : counted cfg ((σ.proc p).core srStack) = some sn)
    (halloc : swapramPoolAlloc σ.sr_map (dn + sn + srWorst usize) = (some off, mp₁))
    (h : swapoutRam cfg ({ σ with sr_map := mp₁ }.setEnt p (reserved (σ.sr_tab p) off dn sn
      ((σ.proc p).core srData).length ((σ.proc p).core srStack).length usize)) p u = .ok σ') :
    ∃ o : RamOut cfg σ p u, σ' = o.after := by
  generalize he : reserved (σ.sr_tab p) off dn sn ((σ.proc p).core srData).length
    ((σ.proc p).core srStack).length usize = e at h
  generalize hτ : ({ σ with sr_map := mp₁ } : Kernel).setEnt p e = τ at h
  have htab : τ.sr_tab p = e := by
    rw [← hτ]
    exact Function.update_self ..
  have hproc : τ.proc = σ.proc := by rw [← hτ]; rfl
  have hoff : e.e_off = off := by rw [← he]; rfl
  have hclen : e.e_clen = ![dn, sn, srWorst usize] := by rw [← he]; rfl
  -- The calls one after the other, each as a write to the pool.
  obtain ⟨σ₁, h₁, h⟩ := bind_ok h
  obtain ⟨σ₂, h₂, h⟩ := bind_ok h
  obtain ⟨σ₃, h₃, h⟩ := bind_ok h
  obtain ⟨σ₄, h₄, h⟩ := bind_ok h
  simp only [hproc] at h₁ h₂ h
  obtain ⟨ds, hds, hdl, hσ₁⟩ := putCounted_ok (hlen srData)
    (by rw [htab, hclen]; exact hdn) h₁
  rw [htab] at hdl hσ₁
  have htab₁ : σ₁.sr_tab p = e := by rw [hσ₁, Kernel.put_tab, htab]
  obtain ⟨ss, hss, hsl, hσ₂⟩ := putCounted_ok (hlen srStack)
    (by rw [htab₁, hclen]; exact hsn) h₂
  rw [htab₁] at hsl hσ₂
  have htab₂ : σ₂.sr_tab p = e := by rw [hσ₂, Kernel.put_tab, htab₁]
  obtain ⟨hul, us, hus, hworst, _, hσ₃⟩ := swapramPut_ok h₃
  rw [htab₂] at hul hworst hσ₃
  obtain ⟨mp, htrim, hσ₄⟩ := swapramCommit_ok h₄
  have hpool : σ₃ = τ.put p (writeAt σ.sr_pool off (ds ++ (ss ++ us)))
      (update e.e_clen srU us.length) := by
    have hb₀ : e.e_off + srCompressedBefore e srData = off := by rw [hoff]; rfl
    have hb₁ : e.e_off + srCompressedBefore e srStack = off + ds.length := by
      rw [hoff, hdl]
      rfl
    have hb₂ : e.e_off + srCompressedBefore e srU = off + ds.length + ss.length := by
      rw [hoff, hdl, hsl, Nat.add_assoc]
      rfl
    have hτpool : τ.sr_pool = σ.sr_pool := by rw [← hτ]; rfl
    rw [hσ₃, hσ₂, hσ₁, Kernel.put_put, Kernel.put_put, hb₀, hb₁, hb₂, writeAt_append, writeAt_append,
      ← hτpool]
    rfl
  have htab₃ : σ₃.sr_tab p = { e with e_clen := update e.e_clen srU us.length } := by
    rw [hpool, Kernel.put_tab, htab]
  have hd : ds.length = dn := by rw [hdl, hclen]; rfl
  have hs : ss.length = sn := by rw [hsl, hclen]; rfl
  have hw : us.length ≤ srWorst usize := by rw [hclen] at hworst; exact hworst
  have hu : u.length = usize := by rw [hul, ← he]; rfl
  have hused : srCompressedSize (σ₃.sr_tab p) = ds.length + ss.length + us.length := by
    rw [htab₃, srCompressedSize_eq, hclen, hd, hs]
    rfl
  have hmap : σ₃.sr_map = mp₁ := by rw [hpool, ← hτ]; rfl
  have hrlen : e.e_rlen = fun seg => (captured (σ.proc p) u seg).length := by
    rw [← he]
    funext seg
    fin_cases seg
    exacts [rfl, rfl, hu.symm]
  have hlens : update e.e_clen srU us.length = fun seg => (![ds, ss, us] seg).length := by
    rw [hclen]
    funext seg
    fin_cases seg
    exacts [hd.symm, hs.symm, rfl]
  rw [hused, hmap, htab₃] at htrim
  refine ⟨⟨off, mp₁, mp, ![ds, ss, us], ?_, hu, hw, ?_, ?_⟩, ?_⟩
  · intro seg
    fin_cases seg
    exacts [hds, hss, hus]
  · rw [← hd, ← hs] at halloc
    exact halloc
  · have hres : e.e_res = ds.length + ss.length + srWorst usize := by rw [← he, hd, hs]; rfl
    rw [hres, hoff] at htrim
    exact htrim
  · cases h
    have hent : σ₄ = { σ with
        sr_pool := writeAt σ.sr_pool off (ds ++ (ss ++ us)), sr_map := mp }.setEnt p
        ⟨fun seg => (captured (σ.proc p) u seg).length, off, ds.length + ss.length + us.length,
          fun seg => (![ds, ss, us] seg).length, true⟩ := by
      rw [hσ₄, hused, htab₃, hpool, ← hτ, hrlen, hlens, hoff]
      simp only [Kernel.put, Kernel.setEnt, Function.update_idem]
    rw [hent]
    rfl

/-- **A swapout goes to the tier or to flash**, and in both cases the slot had no image in the tier. -/
theorem swapoutBegin_ok (hlen : ∀ seg, ((σ.proc p).core seg).length = (σ.proc p).len seg)
    (h : swapoutBegin cfg σ p u = .ok σ') :
    (σ.sr_tab p).e_live = false ∧
      ((σ.sr_admit = true ∧ ∃ o : RamOut cfg σ p u, σ' = o.after) ∨ ∃ o : FlashOut σ p, σ' = o.after) := by
  obtain ⟨⟨ram, σ₁⟩, hout, hrest⟩ := bind_ok h
  obtain ⟨hdead, hcases⟩ := swapramOut_ok hout
  refine ⟨hdead, ?_⟩
  rcases hcases with ⟨rfl, rfl⟩ | ⟨rfl, htake, _, dn, sn, off, mp₁, hdn, hsn, halloc, rfl⟩
  · exact .inr (swapoutFlash_ok hrest)
  · exact .inl ⟨htake, swapoutRam_ok hlen hdn hsn halloc hrest⟩

/-! ## The image of a swapout to the tier -/

theorem captured_length (hlen : ∀ seg, ((σ.proc p).core seg).length = (σ.proc p).len seg)
    (hu : u.length = usize) (seg : Seg) :
    (captured (σ.proc p) u seg).length = (σ.proc p).len seg := by
  fin_cases seg
  exacts [hlen srData, hlen srStack, hu]

theorem RamOut.ent_size (o : RamOut cfg σ p u) : o.ent.e_res = srCompressedSize o.ent := by
  rw [srCompressedSize_eq]
  rfl

/-- The u area is not empty, so its stream is not. -/
theorem RamOut.stream_pos (o : RamOut cfg σ p u) : 0 < (o.stream srU).length := by
  have hstream : Stream cfg u (o.stream srU) := o.streams srU
  have hne : u.length ≠ 0 := by
    rw [o.ulen]
    decide
  rw [Stream, if_neg hne] at hstream
  have hdec := cfg.decodes _ _ hstream
  rw [List.length_pos_iff]
  intro hnil
  rw [hnil] at hdec
  rw [← hdec] at hne
  exact hne (by simp [bytesBits, refDecode])

/-- The streams of an image are no longer than the encoder's worst case for a full window. -/
theorem Stream.length_le {src bytes : List UInt8} (h : Stream cfg src bytes) :
    bytes.length ≤ srWorst src.length := by
  unfold Stream at h
  split at h
  · rw [h]
    exact Nat.zero_le _
  · exact cfg.worst _ _ h

end

end DiscoBSD.Swap
