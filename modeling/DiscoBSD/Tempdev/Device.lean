import DiscoBSD.Flash.Swap
import DiscoBSD.Rmap.Swapmap

/-!
# The device below

`swap`, for the two devices that can be below it. The PSRAM takes bytes where they are sent. On the raw flash a write
with `B_SWAPIMAGE` goes to `flash_swap_append`, which erases a sector when it comes to its first byte and programs
without looking; any other goes to `flash_swap_rewrite`, which saves the sector in a spare one first.

**An append reads back if what is ahead of it in its sector is erased**, and leaves the rest of its last sector
erased; a rewrite always does.
-/

set_option autoImplicit false

namespace DiscoBSD.Tempdev

open DiscoBSD.Lib DiscoBSD.Rmap DiscoBSD.Flash
open DiscoBSD.Swap (devBsize)

abbrev Mem := Nat → UInt8

/-! ## `flash_swap.c` on a chip's memory -/

/-- `flswap_ops`. -/
def norOps : FlashSwapOps Mem where
  erase m off len := (true, (NorOp.erase off len).apply m)
  program m off data := (true, (NorOp.program off data).apply m)

/-- The pages of an erase sector. -/
def sectorPages : Nat := flashSectorBytes / flashProgBytes

/-- `for (page = 0; ...)`: a program for each page, with what is there to be programmed now. -/
def programPages (dst : Nat) (page : Mem → Nat → List UInt8) (n : Nat) (m : Mem) : Mem :=
  (List.range n).foldl (fun m p => (NorOp.program (dst + p * flashProgBytes) (page m p)).apply m) m

/-- The body of `flash_swap_rewrite`'s loop, for what of the source is in one sector. -/
def rewriteSector (spare sector offset : Nat) (source : List UInt8) (m : Mem) : Mem :=
  let m := (NorOp.erase spare flashSectorBytes).apply m
  let m := programPages spare (fun m p => readAt m (sector + p * flashProgBytes) flashProgBytes) sectorPages m
  let m := (NorOp.erase sector flashSectorBytes).apply m
  programPages sector
    (fun m p =>
      let page_offset := sector + p * flashProgBytes
      if offset ≤ page_offset ∧ page_offset < offset + source.length then
        (source.drop (page_offset - offset)).take flashProgBytes
      else readAt m (spare + p * flashProgBytes) flashProgBytes)
    sectorPages m

/-- `while (length != 0)`. Every turn takes at least a byte. -/
def rewriteLoop (spare : Nat) : Nat → Mem → Nat → List UInt8 → Option Mem
  | 0, m, _, source => if source.length = 0 then some m else none
  | turns + 1, m, offset, source =>
    if source.length = 0 then some m
    else
      let sector := offset / flashSectorBytes * flashSectorBytes
      if sector = spare then none
      else
        let chunk := min (flashSectorBytes - (offset - sector)) source.length
        rewriteLoop spare turns (rewriteSector spare sector offset (source.take chunk) m) (offset + chunk)
          (source.drop chunk)

/-- `flash_swap_rewrite`. -/
def flashSwapRewrite (m : Mem) (offset : Nat) (source : List UInt8) (spare : Nat) : Option Mem :=
  if offset % flashProgBytes ≠ 0 ∨ source.length % flashProgBytes ≠ 0 ∨ spare % flashSectorBytes ≠ 0 ∨
      wrap 32 (offset + source.length) < offset then none
  else rewriteLoop spare source.length m offset source

/-! ## `swap` -/

/-- Where the swap device begins in the memory that holds it. -/
def base : SwapDev → Nat
  | .fl1 => flashSwapOffset
  | .psram => 0

def addr (dev : SwapDev) (blk : Nat) : Nat := base dev + blk * devBsize

/-- The transfer is inside the device. -/
def Inside (dev : SwapDev) (blk : Int) (count : Nat) : Prop :=
  0 ≤ blk ∧ blk * devBsize + count ≤ dev.psize * devBsize

instance (dev : SwapDev) (blk : Int) (count : Nat) : Decidable (Inside dev blk count) :=
  inferInstanceAs (Decidable (_ ∧ _))

/-- `swap` with `B_READ`. `none` is the panic that an error of the device ends in. (The flash driver would cut a
    transfer that crosses the end of the device, but none is ever sent there.) -/
def swapRead (dev : SwapDev) (m : Mem) (blk : Int) (count : Nat) : Option (List UInt8) :=
  if count = 0 then some []
  else if Inside dev blk count then some (readAt m (addr dev blk.toNat) count)
  else none

/-- `swap` with `B_WRITE`, and with `B_SWAPIMAGE` if `image`. -/
def swapWrite (dev : SwapDev) (m : Mem) (blk : Int) (source : List UInt8) (image : Bool) : Option Mem :=
  if source.length = 0 then some m
  else if Inside dev blk source.length then
    match dev with
    | .psram => some (writeAt m (addr .psram blk.toNat) source)
    | .fl1 =>
      if blk.toNat * devBsize < flashSectorBytes then none
      else if image then
        match flashSwapAppend norOps m (addr .fl1 blk.toNat) source with
        | (true, m) => some m
        | (false, _) => none
      else flashSwapRewrite m (addr .fl1 blk.toNat) source flashSwapOffset
  else none

/-! ## What a rewrite does -/

theorem program_at {m : Mem} {off x : Nat} {data : List UInt8} (hoff : off ≤ x) (hblank : m x = 0xff)
    (hx : x < off + data.length) : (NorOp.program off data).apply m x = data.getD (x - off) 0xff := by
  have hones : ∀ b : UInt8, (0xff : UInt8) &&& b = b := fun b => UInt8.neg_one_and
  have hlt : x - off < data.length := by omega
  simp only [NorOp.apply, if_pos hoff, List.getElem?_eq_getElem hlt, Option.elim_some, hblank, hones,
    List.getD_eq_getElem?_getD, Option.getD_some]

/-- Pages programmed one after the other into erased memory. -/
theorem programPages_spec {dst n : Nat} {page : Mem → Nat → List UInt8} {m : Mem} {g : Nat → List UInt8}
    (hlen : ∀ p < n, (g p).length = flashProgBytes)
    (hpage : ∀ p < n, ∀ m', (∀ x, x < dst ∨ dst + n * flashProgBytes ≤ x → m' x = m x) → page m' p = g p)
    (hblank : ∀ x, dst ≤ x → x < dst + n * flashProgBytes → m x = 0xff) (k : Nat) (hk : k ≤ n) (x : Nat) :
    programPages dst page k m x =
      if dst ≤ x ∧ x < dst + k * flashProgBytes then
        (g ((x - dst) / flashProgBytes)).getD ((x - dst) % flashProgBytes) 0xff
      else m x := by
  have hsize : flashProgBytes = 256 := rfl
  simp only [hsize] at hlen hpage hblank ⊢
  induction k generalizing x with
  | zero =>
    rw [if_neg (by omega)]
    rfl
  | succ k ih =>
    have ih := fun x => ih (by omega) x
    have hsame : ∀ x, x < dst ∨ dst + n * 256 ≤ x → programPages dst page k m x = m x := by
      intro x hx
      rw [ih x, if_neg (by omega)]
    have hg := hpage k (by omega) _ hsame
    have hgl := hlen k (by omega)
    have hstep : programPages dst page (k + 1) m =
        (NorOp.program (dst + k * 256) (g k)).apply (programPages dst page k m) := by
      simp only [programPages, List.range_succ, List.foldl_append, List.foldl_cons, List.foldl_nil, hsize]
      rw [← hg]
      simp only [programPages, hsize]
    rw [hstep]
    by_cases hin : dst + k * 256 ≤ x ∧ x < dst + (k + 1) * 256
    · have hone : programPages dst page k m x = 0xff := by
        rw [ih x, if_neg (by omega)]
        exact hblank x (by omega) (by omega)
      have hdiv : (x - dst) / 256 = k := by omega
      have hmod : (x - dst) % 256 = x - (dst + k * 256) := by omega
      rw [program_at hin.1 hone (by omega), if_pos (by omega), hdiv, hmod]
    · rw [program_outside (by omega), ih x]
      by_cases hold : dst ≤ x ∧ x < dst + k * 256
      · have hgrow : dst + k * 256 ≤ dst + (k + 1) * 256 := by omega
        have hnew : dst ≤ x ∧ x < dst + (k + 1) * 256 := ⟨hold.1, hold.2.trans_le hgrow⟩
        simp only [hold, hnew, and_self, if_true]
      · have hnew : ¬(dst ≤ x ∧ x < dst + (k + 1) * 256) := fun h =>
          hin ⟨Nat.le_of_not_lt fun hlt => hold ⟨h.1, hlt⟩, h.2⟩
        simp only [hold, hnew, if_false]

/-- A sector is rewritten: it has the source where that goes and is the same elsewhere, and so is all but the spare. -/
theorem rewriteSector_spec {spare sector offset : Nat} {source : List UInt8} {m : Mem}
    (hsector : flashSectorBytes ∣ sector) (hspare : flashSectorBytes ∣ spare) (hne : sector ≠ spare)
    (hoffset : flashProgBytes ∣ offset) (hlen : flashProgBytes ∣ source.length) (hlow : sector ≤ offset)
    (hhigh : offset + source.length ≤ sector + flashSectorBytes) {x : Nat}
    (hx : x < spare ∨ spare + flashSectorBytes ≤ x) :
    rewriteSector spare sector offset source m x = writeAt m offset source x := by
  have hs : flashSectorBytes = 4096 := rfl
  have hp : flashProgBytes = 256 := rfl
  have hn : sectorPages = 16 := rfl
  rw [hs] at hsector hspare hhigh hx
  rw [hp] at hoffset hlen
  -- The sector and the spare are apart.
  have hapart : ∀ y, sector ≤ y → y < sector + 4096 → y < spare ∨ spare + 4096 ≤ y := by
    intro y hy₁ hy₂
    omega
  -- The spare gets the sector's pages.
  let m₁ := (NorOp.erase spare flashSectorBytes).apply m
  let m₂ := programPages spare (fun m p => readAt m (sector + p * flashProgBytes) flashProgBytes) sectorPages m₁
  have hm₁ : ∀ y, y < spare ∨ spare + 4096 ≤ y → m₁ y = m y := fun y hy => erase_outside hy
  have hm₂ : ∀ y, m₂ y =
      if spare ≤ y ∧ y < spare + 16 * 256 then
        (readAt m (sector + (y - spare) / 256 * 256) 256).getD ((y - spare) % 256) 0xff
      else m₁ y := by
    intro y
    refine programPages_spec (g := fun p => readAt m (sector + p * 256) 256) (fun p _ => readAt_length _ _ _) ?_ ?_
      sectorPages (Nat.le_refl _) y
    · intro p hlt m' hm'
      rw [hn] at hlt
      simp only [hp, hn] at hm' ⊢
      refine List.map_congr_left fun i hi => ?_
      rw [List.mem_range] at hi
      have hin := hapart (sector + p * 256 + i) (by omega) (by omega)
      rw [hm' _ (by omega), hm₁ _ hin]
    · intro y hy₁ hy₂
      rw [hp, hn] at hy₂
      exact erase_inside hy₁ (by omega)
  have hkept : ∀ y, y < spare ∨ spare + 4096 ≤ y → m₂ y = m y := by
    intro y hy
    rw [hm₂, if_neg (by omega), hm₁ y hy]
  have hsaved : ∀ p < 16, readAt m₂ (spare + p * 256) 256 = readAt m (sector + p * 256) 256 := by
    intro p hlt
    refine List.map_congr_left fun i hi => ?_
    rw [List.mem_range] at hi
    have hdiv : (spare + p * 256 + i - spare) / 256 = p := by omega
    have hmod : (spare + p * 256 + i - spare) % 256 = i := by omega
    rw [hm₂, if_pos (by omega), hdiv, hmod, List.getD_eq_getElem?_getD, getElem?_readAt, if_pos hi]
    rfl
  -- The sector gets the source, and the spare's pages where there is none.
  let m₃ := (NorOp.erase sector flashSectorBytes).apply m₂
  let g : Nat → List UInt8 := fun p =>
    if offset ≤ sector + p * 256 ∧ sector + p * 256 < offset + source.length then
      (source.drop (sector + p * 256 - offset)).take 256
    else readAt m (sector + p * 256) 256
  have hm₄ : rewriteSector spare sector offset source m x =
      if sector ≤ x ∧ x < sector + 16 * 256 then (g ((x - sector) / 256)).getD ((x - sector) % 256) 0xff else m₃ x := by
    refine programPages_spec (g := g) ?_ ?_ ?_ sectorPages (Nat.le_refl _) x
    · intro p hlt
      by_cases hin : offset ≤ sector + p * 256 ∧ sector + p * 256 < offset + source.length
      · simp only [g, if_pos hin, List.length_take, List.length_drop, hp]
        omega
      · simp only [g, if_neg hin]
        exact readAt_length _ _ _
    · intro p hlt m' hm'
      rw [hn] at hlt
      simp only [hp, hn] at hm' ⊢
      by_cases hin : offset ≤ sector + p * 256 ∧ sector + p * 256 < offset + source.length
      · simp only [g, if_pos hin]
      · simp only [g, if_neg hin]
        rw [← hsaved p hlt]
        refine List.map_congr_left fun i hi => ?_
        rw [List.mem_range] at hi
        rw [hm' _ (by omega)]
        exact erase_outside (by omega)
    · intro y hy₁ hy₂
      rw [hp, hn] at hy₂
      exact erase_inside hy₁ (by omega)
  rw [hm₄]
  by_cases hin : sector ≤ x ∧ x < sector + 16 * 256
  · rw [if_pos hin]
    have hpage : sector + (x - sector) / 256 * 256 + (x - sector) % 256 = x := by omega
    by_cases hnew : offset ≤ sector + (x - sector) / 256 * 256 ∧
        sector + (x - sector) / 256 * 256 < offset + source.length
    · simp only [g, if_pos hnew]
      have hat : sector + (x - sector) / 256 * 256 - offset + (x - sector) % 256 = x - offset := by omega
      have hlt : (x - sector) % 256 < 256 := Nat.mod_lt _ (by omega)
      have hget : x - offset < source.length := by omega
      rw [writeAt, if_pos (show offset ≤ x by omega), List.getD_eq_getElem?_getD, List.getElem?_take_of_lt hlt,
        List.getElem?_drop, hat, List.getElem?_eq_getElem hget]
      rfl
    · simp only [g, if_neg hnew]
      have hout : Same ⟨x, 1⟩ m (writeAt m offset source) := writeAt_same m (by simp only []; omega)
      rw [hout x (Nat.le_refl _) (Nat.lt_succ_self _), List.getD_eq_getElem?_getD, getElem?_readAt,
        if_pos (Nat.mod_lt _ (by omega)), hpage]
      rfl
  · rw [if_neg hin]
    have hout : Same ⟨x, 1⟩ m (writeAt m offset source) := writeAt_same m (by simp only []; omega)
    rw [hout x (Nat.le_refl _) (Nat.lt_succ_self _), ← hkept x hx]
    exact erase_outside (by omega)

/-- **A rewrite writes the source, and nothing else but the spare sector changes.** -/
theorem rewriteLoop_spec {spare : Nat} (hspare : flashSectorBytes ∣ spare) (turns : Nat) {m : Mem} {offset : Nat}
    {source : List UInt8} (hturns : source.length ≤ turns) (hoffset : flashProgBytes ∣ offset)
    (hlen : flashProgBytes ∣ source.length) (habove : spare + flashSectorBytes ≤ offset) :
    ∃ m', rewriteLoop spare turns m offset source = some m' ∧
      ∀ x, x < spare ∨ spare + flashSectorBytes ≤ x → m' x = writeAt m offset source x := by
  have hs : flashSectorBytes = 4096 := rfl
  have hp : flashProgBytes = 256 := rfl
  induction turns generalizing m offset source with
  | zero =>
    have hnil : source = [] := List.length_eq_zero_iff.mp (by omega)
    subst hnil
    exact ⟨m, rfl, fun x _ => by rw [writeAt_nil]⟩
  | succ turns ih =>
    by_cases hzero : source.length = 0
    · have hnil := List.length_eq_zero_iff.mp hzero
      subst hnil
      exact ⟨m, rfl, fun x _ => by rw [writeAt_nil]⟩
    · rw [hs] at hspare habove ih ⊢
      rw [hp] at hoffset hlen ih
      unfold rewriteLoop
      rw [if_neg hzero, hs]
      dsimp only
      set sector := offset / 4096 * 4096 with hsector
      set chunk := min (4096 - (offset - sector)) source.length with hchunk
      have hsec : 4096 ∣ sector := Dvd.intro_left _ rfl
      have hne : sector ≠ spare := by omega
      have hdvd : 256 ∣ chunk := by omega
      have hpos : 0 < chunk := by omega
      have hle : chunk ≤ source.length := Nat.min_le_right _ _
      have hfirst : sector ≤ offset := Nat.div_mul_le_self _ _
      have hend : offset + chunk ≤ sector + 4096 := by omega
      clear_value sector chunk
      clear hsector hchunk
      rw [if_neg hne]
      have htake : (source.take chunk).length = chunk := by
        rw [List.length_take]
        omega
      obtain ⟨m', hrun, hm'⟩ := @ih (rewriteSector spare sector offset (source.take chunk) m) (offset + chunk)
        (source.drop chunk) (by rw [List.length_drop]; omega) (by omega) (by rw [List.length_drop]; omega) (by omega)
      refine ⟨m', hrun, fun x hx => ?_⟩
      rw [hm' x hx]
      have hone : ∀ y, y < spare ∨ spare + 4096 ≤ y →
          rewriteSector spare sector offset (source.take chunk) m y = writeAt m offset (source.take chunk) y :=
        fun y hy => rewriteSector_spec hsec hspare hne hoffset (by rw [htake]; exact hdvd) (by omega)
          (by rw [htake, hs]; omega) hy
      have hsplit := writeAt_append m offset (source.take chunk) (source.drop chunk)
      rw [List.take_append_drop, htake] at hsplit
      rw [hsplit, writeAt, writeAt, hone x hx]

/-! ## What an append does -/

/-- From here to the end of the sector all is erased, or an append erases it as it comes here. -/
def Blank (m : Mem) (a : Nat) : Prop :=
  flashSectorBytes ∣ a ∨ ∀ x, a ≤ x → x / flashSectorBytes = a / flashSectorBytes → m x = 0xff

theorem progPage_of_dvd {source : List UInt8} (hpos : source.length ≠ 0) (hlen : 256 ∣ source.length) :
    progPage source = source.take 256 := by
  have hmin : min source.length flashProgBytes = flashProgBytes := Nat.min_eq_right (Nat.le_of_dvd (by omega) hlen)
  rw [progPage, if_pos hmin]
  rfl

/-- A page is programmed, after the erase of the sector if it is the first. -/
theorem appendPage_spec {m : Mem} {offset : Nat} {page : List UInt8} (hoffset : 256 ∣ offset) (hlen : page.length = 256)
    (hblank : Blank m offset) :
    let m₁ := if 4096 ∣ offset then (NorOp.erase offset flashSectorBytes).apply m else m
    let m₂ := (NorOp.program offset page).apply m₁
    (∀ x, offset ≤ x → x < offset + 256 → m₂ x = page.getD (x - offset) 0xff) ∧
      (∀ x, x < offset ∨ x / 4096 ≠ offset / 4096 → m₂ x = m x) ∧ Blank m₂ (offset + 256) := by
  intro m₁ m₂
  have hs : flashSectorBytes = 4096 := rfl
  have hahead : ∀ x, offset ≤ x → x / 4096 = offset / 4096 → m₁ x = 0xff := by
    intro x hx hsame
    by_cases hfirst : 4096 ∣ offset
    · simp only [m₁, if_pos hfirst]
      exact erase_inside hx (by rw [hs]; omega)
    · simp only [m₁, if_neg hfirst]
      rcases hblank with hdvd | hff
      · exact absurd hdvd hfirst
      · exact hff x hx hsame
  have houtside : ∀ x, x < offset ∨ x / 4096 ≠ offset / 4096 → m₁ x = m x := by
    intro x hx
    by_cases hfirst : 4096 ∣ offset
    · simp only [m₁, if_pos hfirst]
      exact erase_outside (by rw [hs]; omega)
    · simp only [m₁, if_neg hfirst]
  refine ⟨?_, ?_, ?_⟩
  · intro x hx₁ hx₂
    exact program_at hx₁ (hahead x hx₁ (by omega)) (by rw [hlen]; exact hx₂)
  · intro x hx
    rw [← houtside x hx]
    exact program_outside (by rw [hlen]; omega)
  · by_cases hnext : 4096 ∣ offset + 256
    · exact .inl hnext
    · refine .inr fun x hx hsame => ?_
      rw [hs] at hsame
      rw [← hahead x (by omega) (by omega)]
      exact program_outside (by rw [hlen]; omega)

theorem appendLoop_spec (turns : Nat) {m : Mem} {offset : Nat} {source : List UInt8} (hturns : source.length ≤ turns)
    (hoffset : 256 ∣ offset) (hlen : 256 ∣ source.length) (hend : offset + source.length < 2 ^ 32)
    (hblank : Blank m offset) :
    ∃ m', appendLoop norOps turns m offset source = (true, m') ∧
      (∀ x, offset ≤ x → x < offset + source.length → m' x = source.getD (x - offset) 0xff) ∧
      (∀ x, x < offset ∨ offset + source.length ≤ x ∧ x / 4096 ≠ (offset + source.length - 1) / 4096 →
        m' x = m x) ∧ Blank m' (offset + source.length) := by
  induction turns generalizing m offset source with
  | zero =>
    have hnil : source = [] := List.length_eq_zero_iff.mp (by omega)
    subst hnil
    exact ⟨m, rfl, fun x h₁ h₂ => absurd h₂ (by simpa using h₁), fun _ _ => rfl, hblank⟩
  | succ turns ih =>
    by_cases hzero : source.length = 0
    · have hnil := List.length_eq_zero_iff.mp hzero
      subst hnil
      exact ⟨m, rfl, fun x h₁ h₂ => absurd h₂ (by simpa using h₁), fun _ _ => rfl, hblank⟩
    · have hlow : 256 ≤ source.length := Nat.le_of_dvd (by omega) hlen
      have htake : (source.take 256).length = 256 := by
        rw [List.length_take]
        omega
      have hmask : offset &&& (flashSectorBytes - 1) = 0 ↔ 4096 ∣ offset := by
        rw [show offset &&& (flashSectorBytes - 1) = offset % 2 ^ 12 from and_sub_one_eq_mod _ 12]
        omega
      obtain ⟨hpage, hkept, hnext⟩ := appendPage_spec hoffset htake hblank
      set m₂ := (NorOp.program offset (source.take 256)).apply
        (if 4096 ∣ offset then (NorOp.erase offset flashSectorBytes).apply m else m) with hm₂
      have hstep : appendLoop norOps (turns + 1) m offset source =
          appendLoop norOps turns m₂ (offset + 256) (source.drop 256) := by
        rw [appendLoop, if_neg hzero, progPage_of_dvd hzero hlen, hm₂]
        by_cases hfirst : 4096 ∣ offset
        · simp only [if_pos (hmask.mpr hfirst), if_pos hfirst, norOps]
          rw [show flashProgBytes = 256 from rfl, wrap_of_lt (by omega)]
        · simp only [if_neg (mt hmask.mp hfirst), if_neg hfirst, norOps]
          rw [show flashProgBytes = 256 from rfl, wrap_of_lt (by omega)]
      have hdrop : (source.drop 256).length = source.length - 256 := List.length_drop
      obtain ⟨m', hrun, hread, hsame, hafter⟩ := ih (m := m₂)
        (show (source.drop 256).length ≤ turns by omega) (show 256 ∣ offset + 256 by omega) (by omega) (by omega) hnext
      rw [hdrop] at hread hsame hafter
      have hstop : offset + 256 + (source.length - 256) = offset + source.length := by omega
      rw [hstop] at hread hsame hafter
      refine ⟨m', hstep.trans hrun, ?_, ?_, hafter⟩
      · intro x hx₁ hx₂
        by_cases hfirst : x < offset + 256
        · rw [hsame x (.inl hfirst), hpage x hx₁ hfirst, List.getD_eq_getElem?_getD, List.getD_eq_getElem?_getD,
            List.getElem?_take_of_lt (by omega)]
        · have hat : 256 + (x - (offset + 256)) = x - offset := by omega
          rw [hread x (by omega) hx₂, List.getD_eq_getElem?_getD, List.getD_eq_getElem?_getD, List.getElem?_drop, hat]
      · intro x hx
        rcases hx with hx | ⟨hx, hsector⟩
        · rw [hsame x (.inl (by omega)), hkept x (.inl hx)]
        · rw [hsame x (.inr ⟨hx, hsector⟩), hkept x (.inr (by omega))]

/-! ## `swap` writes what it is given -/

theorem writeAt_inside {m : Mem} {a x : Nat} {bs : List UInt8} (hlow : a ≤ x) (hhigh : x < a + bs.length) :
    writeAt m a bs x = bs.getD (x - a) 0xff := by
  have hlt : x - a < bs.length := by omega
  rw [writeAt, if_pos hlow, List.getD_eq_getElem?_getD, List.getElem?_eq_getElem hlt]
  rfl

/-- `Blank`, where the device is the flash. -/
def Ahead (dev : SwapDev) (m : Mem) (a : Nat) : Prop := dev = .fl1 → Blank m a

/-- **What a write leaves.** The bytes are there. Nothing else changes past the first sector, but that an append may
    erase the rest of its last sector, and then that is erased. -/
theorem swapWrite_spec {dev : SwapDev} {m : Mem} {blk : Nat} {source : List UInt8} {image : Bool}
    (hlow : swapImageAlign ≤ blk) (hin : blk * devBsize + source.length ≤ dev.psize * devBsize)
    (hlen : dev = .fl1 → flashProgBytes ∣ source.length) (hahead : image = true → Ahead dev m (addr dev blk)) :
    ∃ m', swapWrite dev m blk source image = some m' ∧
      (∀ x, addr dev blk ≤ x → x < addr dev blk + source.length →
        m' x = source.getD (x - addr dev blk) 0xff) ∧
      (∀ x, addr dev swapImageAlign ≤ x → x < addr dev blk ∨ addr dev blk + source.length ≤ x ∧
        (image = true → x / flashSectorBytes ≠ (addr dev blk + source.length - 1) / flashSectorBytes) →
        m' x = m x) ∧
      (image = true → Ahead dev m' (addr dev blk + source.length)) := by
  by_cases hzero : source.length = 0
  · refine ⟨m, ?_, ?_, fun _ _ _ => rfl, ?_⟩
    · rw [swapWrite.eq_def, if_pos hzero]
    · intro x hx₁ hx₂
      omega
    · intro himage
      rw [hzero]
      exact hahead himage
  · have hinside : Inside dev blk source.length := ⟨Int.natCast_nonneg blk, by exact_mod_cast hin⟩
    have hplain : ∀ m' : Mem, (∀ x, addr dev swapImageAlign ≤ x → m' x = writeAt m (addr dev blk) source x) →
        (∀ x, addr dev blk ≤ x → x < addr dev blk + source.length →
          m' x = source.getD (x - addr dev blk) 0xff) ∧
        (∀ x, addr dev swapImageAlign ≤ x → x < addr dev blk ∨ addr dev blk + source.length ≤ x → m' x = m x) := by
      intro m' hm'
      have hfirst : addr dev swapImageAlign ≤ addr dev blk := Nat.add_le_add_left (Nat.mul_le_mul_right _ hlow) _
      refine ⟨fun x hx₁ hx₂ => ?_, fun x hx₁ hx₂ => ?_⟩
      · rw [hm' x (hfirst.trans hx₁), writeAt_inside hx₁ hx₂]
      · rw [hm' x hx₁]
        exact writeAt_same (e := ⟨x, 1⟩) m (by simp only []; omega) x (Nat.le_refl _) (Nat.lt_succ_self _)
    cases dev with
    | psram =>
      refine ⟨writeAt m (addr .psram blk) source, ?_, ?_, ?_, fun _ => nofun⟩
      · rw [swapWrite, if_neg hzero, if_pos hinside]
        rfl
      · exact (hplain _ fun _ _ => rfl).1
      · exact fun x hx₁ hx₂ => (hplain _ fun _ _ => rfl).2 x hx₁ (hx₂.imp_right And.left)
    | fl1 =>
      have hoffset : 256 ∣ addr .fl1 blk := by
        rw [addr, base, devBsize, show flashSwapOffset = 1703936 from rfl]
        omega
      have hfirst : ¬blk * devBsize < flashSectorBytes := by
        rw [devBsize, show flashSectorBytes = 4096 from rfl]
        rw [swapImageAlign] at hlow
        omega
      have hend : addr .fl1 blk + source.length < 2 ^ 32 := by
        have hsize : SwapDev.psize .fl1 = 384 := rfl
        rw [hsize, devBsize] at hin
        rw [addr, base, devBsize, show flashSwapOffset = 1703936 from rfl]
        omega
      have hmask : ¬(addr .fl1 blk &&& (flashProgBytes - 1) ≠ 0) := by
        rw [show addr .fl1 blk &&& (flashProgBytes - 1) = addr .fl1 blk % 2 ^ 8 from and_sub_one_eq_mod _ 8]
        omega
      have hdvd := hlen rfl
      cases image with
      | true =>
        obtain ⟨m', hrun, hread, hsame, hafter⟩ := appendLoop_spec source.length (Nat.le_refl _) hoffset hdvd hend
          (hahead rfl rfl)
        refine ⟨m', ?_, hread, ?_, fun _ _ => hafter⟩
        · rw [swapWrite, if_neg hzero, if_pos hinside]
          simp only [Int.toNat_natCast, if_neg hfirst, if_true, flashSwapAppend, if_neg hmask, hrun]
        · intro x _ hx
          exact hsame x (hx.imp_right fun hout => ⟨hout.1, hout.2 rfl⟩)
      | false =>
        have hspare : flashSectorBytes ∣ flashSwapOffset := by decide
        have habove : flashSwapOffset + flashSectorBytes ≤ addr .fl1 blk := Nat.add_le_add_left (by omega) _
        obtain ⟨m', hrun, hm'⟩ := rewriteLoop_spec hspare source.length (m := m) (Nat.le_refl _) hoffset hdvd habove
        have hall := hplain m' fun x hx => hm' x (.inr hx)
        refine ⟨m', ?_, hall.1, fun x hx₁ hx₂ => hall.2 x hx₁ (hx₂.imp_right And.left), nofun⟩
        have hguard : ¬(addr .fl1 blk % flashProgBytes ≠ 0 ∨ source.length % flashProgBytes ≠ 0 ∨
            flashSwapOffset % flashSectorBytes ≠ 0 ∨ wrap 32 (addr .fl1 blk + source.length) < addr .fl1 blk) := by
          rw [wrap_of_lt hend, show flashProgBytes = 256 from rfl]
          rw [show flashProgBytes = 256 from rfl] at hdvd
          have hzero' : flashSwapOffset % flashSectorBytes = 0 := rfl
          omega
        rw [swapWrite, if_neg hzero, if_pos hinside]
        simp only [Int.toNat_natCast, if_neg hfirst, Bool.false_eq_true, if_false, flashSwapRewrite, if_neg hguard,
          hrun]

theorem swapRead_spec {dev : SwapDev} {m : Mem} {blk count : Nat}
    (hin : blk * devBsize + count ≤ dev.psize * devBsize) :
    swapRead dev m blk count = some (readAt m (addr dev blk) count) := by
  unfold swapRead
  by_cases hzero : count = 0
  · subst hzero
    rw [if_pos rfl]
    rfl
  · have hinside : Inside dev blk count := ⟨Int.natCast_nonneg blk, by exact_mod_cast hin⟩
    rw [if_neg hzero, if_pos hinside]
    rfl

end DiscoBSD.Tempdev
