import Mathlib
import DiscoBSD.Sd.Spi

/-!
# Sector addresses

The CSD gives the card's size and the OCR, with the answer to CMD8, how it is addressed. Nothing makes
the two agree. The size itself never overflows on a card that is accepted: the one register whose size
does comes out as no sectors, and that is refused. **A byte address is 32 bits, though, and a card that
is not block addressed may say it is larger than that.**
-/

set_option autoImplicit false

namespace DiscoBSD.Sd

open DiscoBSD.Lib

/-! ## Bounds of the fields -/

section
variable {csd : List UInt8}

theorem csdByte_lt (i : Nat) : csdByte csd i < 2 ^ 8 := UInt8.toNat_lt _

theorem and_lt {x m n : Nat} (h : m < 2 ^ n) : x &&& m < 2 ^ n := Nat.lt_of_le_of_lt Nat.and_le_right h

theorem shl_lt {x k n : Nat} (h : x < 2 ^ n) : x <<< k < 2 ^ (n + k) := by
  rw [Nat.shiftLeft_eq, Nat.pow_add]
  exact Nat.mul_lt_mul_of_pos_right h (Nat.two_pow_pos k)

theorem cSizeV2_lt : cSizeV2 csd < 2 ^ 22 := by
  have hhigh : (csdByte csd 7 &&& 0x3f) <<< 16 < 2 ^ 22 := shl_lt (n := 6) (and_lt (by decide))
  have hmid : csdByte csd 8 <<< 8 < 2 ^ 22 :=
    Nat.lt_of_lt_of_le (shl_lt (csdByte_lt 8)) (by decide)
  have hlow : csdByte csd 9 < 2 ^ 22 := Nat.lt_of_lt_of_le (csdByte_lt 9) (by decide)
  exact Nat.or_lt_two_pow (Nat.or_lt_two_pow hhigh hmid) hlow

theorem cSizeV1_lt : cSizeV1 csd < 2 ^ 12 := by
  have hhigh : (csdByte csd 6 &&& 3) <<< 10 < 2 ^ 12 := shl_lt (n := 2) (and_lt (by decide))
  have hmid : csdByte csd 7 <<< 2 < 2 ^ 12 :=
    Nat.lt_of_lt_of_le (shl_lt (csdByte_lt 7)) (by decide)
  have hlow : csdByte csd 8 >>> 6 < 2 ^ 12 :=
    Nat.lt_of_le_of_lt (Nat.shiftRight_le _ _) (Nat.lt_of_lt_of_le (csdByte_lt 8) (by decide))
  exact Nat.or_lt_two_pow (Nat.or_lt_two_pow hhigh hmid) hlow

theorem cSizeMult_lt : cSizeMult csd < 2 ^ 3 := by
  have hhigh : (csdByte csd 9 &&& 3) <<< 1 < 2 ^ 3 := shl_lt (n := 2) (and_lt (by decide))
  have hlow : csdByte csd 10 >>> 7 < 2 ^ 3 := by
    have hbyte := @csdByte_lt csd 10
    rw [Nat.shiftRight_eq_div_pow]
    omega
  exact Nat.or_lt_two_pow hhigh hlow

theorem readBlLen_lt : readBlLen csd < 2 ^ 4 := and_lt (by decide)

/-- Version 1.0 never comes near 2^32 sectors. -/
theorem csdV1_lt : (cSizeV1 csd + 1) <<< (cSizeMult csd + 2 + readBlLen csd - 9) < 2 ^ 32 := by
  have hsize := @cSizeV1_lt csd
  have hmult := @cSizeMult_lt csd
  have hlen := @readBlLen_lt csd
  have hshift : (cSizeV1 csd + 1) <<< (cSizeMult csd + 2 + readBlLen csd - 9) <
      2 ^ (13 + (cSizeMult csd + 2 + readBlLen csd - 9)) := shl_lt (by omega)
  exact Nat.lt_of_lt_of_le hshift (Nat.pow_le_pow_right (by decide) (by omega))

/-- The size a register comes out with is the size it describes, unless it comes out as nothing. -/
theorem csdSectors_exact (h : csdSectors csd ≠ 0) : csdSectors csd * sdSector = csdBytes csd := by
  unfold csdSectors at h ⊢
  unfold csdBytes sdSector
  split
  · rename_i hver
    rw [hver] at h
    simp only [Nat.shiftLeft_eq] at h ⊢
    have hsize := @cSizeV2_lt csd
    have hne : cSizeV2 csd + 1 ≠ 2 ^ 22 := by
      intro heq
      rw [heq] at h
      exact h (by decide)
    rw [wrap_of_lt (by omega)]
    omega
  · rename_i hver
    rw [hver] at h
    simp only at h
    split
    · rename_i hlen
      exact absurd (if_pos hlen) h
    · rename_i hlen
      rw [wrap_of_lt csdV1_lt, Nat.shiftLeft_eq, Nat.mul_assoc, Nat.mul_assoc, ← Nat.pow_add,
        show (512 : Nat) = 2 ^ 9 from rfl, ← Nat.pow_add]
      congr 2
      omega
  · rename_i hv1 hv0
    have hzero : csdSectors csd = 0 := by
      unfold csdSectors
      split
      · rename_i h1
        exact absurd h1 hv1
      · rename_i h0
        exact absurd h0 hv0
      · rfl
    exact absurd hzero h

end

/-! ## What an accepted card leaves -/

section
variable {σ α β : Type} {o : SdspiOps σ}

theorem bind_some {m : Spi σ α} {f : α → Spi σ β} {s s' : σ} {b : β} (h : (m >>= f) s = some (b, s')) :
    ∃ a t, m s = some (a, t) ∧ f a t = some (b, s') := by
  obtain ⟨⟨a, t⟩, hm, hf⟩ := Option.bind_eq_some_iff.mp h
  exact ⟨a, t, hm, hf⟩

theorem pure_some {a b : α} {s s' : σ} (h : (pure a : Spi σ α) s = some (b, s')) : b = a :=
  (congrArg Prod.fst (Option.some.inj h)).symm

theorem sdRx_error {turns n : Nat} {s s' : σ} {err : Sde}
    (h : sdRx o turns n s = some (.error err, s')) : err ≠ .ok := by
  obtain ⟨t0, t, _, h⟩ := bind_some h
  obtain ⟨token, t, _, h⟩ := bind_some h
  cases token with
  | none =>
    rw [Except.error.inj (pure_some h)]
    decide
  | some b =>
    simp only at h
    split at h
    · rw [Except.error.inj (pure_some h)]
      decide
    · obtain ⟨buf, t, _, h⟩ := bind_some h
      obtain ⟨_, t, _, h⟩ := bind_some h
      obtain ⟨_, t, _, h⟩ := bind_some h
      cases pure_some h

theorem sendCsd_error {turns : Nat} {s s' : σ} {err : Sde}
    (h : sendCsd o turns s = some (.error err, s')) : err ≠ .ok := by
  obtain ⟨r, t, _, h⟩ := bind_some h
  split at h
  · obtain ⟨csd, t', hrx, h⟩ := bind_some h
    obtain ⟨_, t'', _, h⟩ := bind_some h
    rw [← pure_some h] at hrx
    exact sdRx_error hrx
  · obtain ⟨csd, t', hio, h⟩ := bind_some h
    obtain ⟨_, t'', _, h⟩ := bind_some h
    rw [← pure_some h] at hio
    rw [Except.error.inj (pure_some hio)]
    decide

theorem sendIfCond_error {turns : Nat} {s s' : σ} {err : Sde}
    (h : sendIfCond o turns s = some (.error err, s')) : err ≠ .ok := by
  obtain ⟨r, t, _, h⟩ := bind_some h
  split at h
  · obtain ⟨echo, t, _, h⟩ := bind_some h
    obtain ⟨_, t, _, h⟩ := bind_some h
    split at h
    · rw [Except.error.inj (pure_some h)]
      decide
    · cases pure_some h
  · obtain ⟨_, t, _, h⟩ := bind_some h
    split at h
    · rw [Except.error.inj (pure_some h)]
      decide
    · cases pure_some h

/-- The record an accepted card is left with. -/
structure Accepted (i : Init) : Prop where
  sd : i.sd = ⟨cardType i.v2 i.ocr, csdSectors i.csd⟩
  size : csdSectors i.csd ≠ 0

theorem identify_accepted {turns : Nat} {v2 : Bool} {s s' : σ} {i : Init}
    (h : identify o turns v2 s = some (i, s')) (hok : i.err = .ok) : Accepted i := by
  obtain ⟨ocr, t, _, h⟩ := bind_some h
  cases ocr with
  | none =>
    rw [pure_some h] at hok
    exact absurd hok (by simp [refuse])
  | some ocr =>
    obtain ⟨set, t, _, h⟩ := bind_some h
    cases set with
    | false =>
      rw [pure_some h] at hok
      exact absurd hok (by simp)
    | true =>
      obtain ⟨_, t, _, h⟩ := bind_some h
      obtain ⟨csd, t', hcsd, h⟩ := bind_some h
      cases csd with
      | error err =>
        rw [pure_some h] at hok
        exact absurd hok (sendCsd_error hcsd)
      | ok csd =>
        simp only at h
        split at h
        · rw [pure_some h] at hok
          exact absurd hok (by simp)
        · rename_i hsize
          rw [pure_some h]
          exact ⟨rfl, hsize⟩

theorem sdspiInit_accepted {turns : Nat} {s s' : σ} {i : Init}
    (h : sdspiInit o turns s = some (i, s')) (hok : i.err = .ok) : Accepted i := by
  obtain ⟨_, t, _, h⟩ := bind_some h
  obtain ⟨_, t, _, h⟩ := bind_some h
  obtain ⟨_, t, _, h⟩ := bind_some h
  obtain ⟨r, t, _, h⟩ := bind_some h
  split at h
  · rw [pure_some h] at hok
    simp only [refuse] at hok
    split at hok
    · cases hok
    · cases hok
  · obtain ⟨cond, t', hcond, h⟩ := bind_some h
    cases cond with
    | error err =>
      rw [pure_some h] at hok
      exact absurd hok (sendIfCond_error hcond)
    | ok v2 =>
      obtain ⟨t0, t', _, h⟩ := bind_some h
      obtain ⟨err, t', _, h⟩ := bind_some h
      split at h
      · exact identify_accepted h hok
      · rename_i hne
        rw [pure_some h] at hok
        exact absurd hok hne

end

/-! ## The addresses -/

/-- What the transfers rely on: the size is the card's, and two sectors below it have two addresses, both
    on the card. -/
structure Addressed (sd : Sdspi) (csd : List UInt8) : Prop where
  exact : sd.nsectors * sdSector = csdBytes csd
  within : ∀ a, a < sd.nsectors →
    (if sd.type = .hc then sdAddr sd a < sd.nsectors else sdAddr sd a + sdSector ≤ csdBytes csd)
  apart : ∀ a b, a < sd.nsectors → b < sd.nsectors → a ≠ b → sdAddr sd a ≠ sdAddr sd b

/-- The card takes block addresses, or it says it is no larger than 2^32 bytes. -/
def Spans (v2 : Bool) (ocr csd : List UInt8) : Prop := cardType v2 ocr = .hc ∨ csdBytes csd ≤ 2 ^ 32

instance (v2 : Bool) (ocr csd : List UInt8) : Decidable (Spans v2 ocr csd) :=
  inferInstanceAs (Decidable (_ ∨ _))

theorem sdAddr_hc {sd : Sdspi} (h : sd.type = .hc) (a : Nat) : sdAddr sd a = a := if_pos h

theorem sdAddr_bytes {sd : Sdspi} (h : sd.type ≠ .hc) (a : Nat) :
    sdAddr sd a = wrap 32 (a * sdSector) := if_neg h

theorem Accepted.addressed {i : Init} (h : Accepted i) : Addressed i.sd i.csd ↔ Spans i.v2 i.ocr i.csd := by
  obtain ⟨hsd, hsize⟩ := h
  have hexact := csdSectors_exact hsize
  rw [hsd]
  constructor
  · rintro ⟨_, _, hapart⟩
    by_cases htype : cardType i.v2 i.ocr = .hc
    · exact .inl htype
    · refine .inr (Nat.le_of_not_lt fun hlarge => ?_)
      -- Sector 2^23 is the first one whose address wraps, and it wraps to sector 0.
      have hn : 2 ^ 23 < csdSectors i.csd := by
        unfold sdSector at hexact
        omega
      refine hapart 0 (2 ^ 23) (Nat.lt_trans (by decide) hn) hn (by decide) ?_
      rw [sdAddr_bytes htype, sdAddr_bytes htype]
      rfl
  · intro hspans
    by_cases htype : cardType i.v2 i.ocr = .hc
    · refine ⟨hexact, fun a ha => ?_, fun a b _ _ hne => ?_⟩
      · rw [if_pos htype, sdAddr_hc htype]
        exact ha
      · rw [sdAddr_hc htype, sdAddr_hc htype]
        exact hne
    · have hbytes := hspans.resolve_left htype
      have hfits : ∀ a, a < csdSectors i.csd → a * sdSector + sdSector ≤ csdBytes i.csd := by
        intro a ha
        rw [← hexact]
        unfold sdSector
        omega
      have haddr : ∀ a, a < csdSectors i.csd →
          sdAddr ⟨cardType i.v2 i.ocr, csdSectors i.csd⟩ a = a * sdSector := by
        intro a ha
        have hfit := hfits a ha
        rw [sdAddr_bytes htype]
        refine wrap_of_lt ?_
        unfold sdSector at hfit ⊢
        omega
      refine ⟨hexact, fun a ha => ?_, fun a b ha hb hne => ?_⟩
      · rw [if_neg htype, haddr a ha]
        exact hfits a ha
      · rw [haddr a ha, haddr b hb]
        exact fun heq => hne (Nat.eq_of_mul_eq_mul_right (by decide) heq)

/-! ## A card -/

/-- A card by what it holds: it collects the six bytes of a command and has its answer ready for the bytes
    after them. -/
structure Card where
  selected : Bool
  frame : List UInt8
  out : List UInt8
  deriving DecidableEq, Repr

/-- The answer to a command. -/
def answer (v2 : Bool) (ocr csd : List UInt8) : UInt8 → List UInt8
  | 8 => if v2 then [0x01, 0x00, 0x00, 0x01, 0xaa] else [0x05]
  | 9 => [0x00, 0xfe] ++ csd ++ [0xaa, 0xaa]
  | 16 => [0x00]
  | 41 => [0x00]
  | 55 => [0x01]
  | 58 => 0x00 :: ocr
  | _ => [0x01]

def Card.clocked (reply : UInt8 → List UInt8) (b : UInt8) (c : Card) : Card :=
  if !c.selected ∨ (c.frame = [] ∧ b &&& 0xc0 ≠ 0x40) then { c with out := c.out.tail }
  else if c.frame.length = 5 then { c with frame := [], out := reply (c.frame.headD 0 &&& 0x3f) }
  else { c with frame := c.frame ++ [b], out := c.out.tail }

def cardOps (reply : UInt8 → List UInt8) : SdspiOps Card where
  xfer b c := (c.out.headD 0xff, c.clocked reply b)
  select on c := if on then { c with selected := true } else ⟨false, [], []⟩
  speed _ c := c
  micros c := (0, c)

/-- The driver on a card that holds these registers. -/
def initOn (v2 : Bool) (ocr csd : List UInt8) : Option (Init × Card) :=
  sdspiInit (cardOps (answer v2 ocr csd)) 3 ⟨false, [], []⟩

/-- **On a card that is accepted the addresses are the card's own and apart exactly when it is block
    addressed or at most 2^32 bytes large.** -/
theorem sd_addresses {σ : Type} (o : SdspiOps σ) (turns : Nat) (s s' : σ) (i : Init)
    (h : sdspiInit o turns s = some (i, s')) (hok : i.err = .ok) :
    Addressed i.sd i.csd ↔ Spans i.v2 i.ocr i.csd :=
  (sdspiInit_accepted h hok).addressed

/-- The registers of an SDHC card of 64 MiB, and of a card of the same version that is byte addressed and
    says it has 2^23 + 1024 sectors. -/
def ocrHc : List UInt8 := [0xc0, 0xff, 0x80, 0x00]
def csdSmall : List UInt8 := [0x40, 0, 0, 0, 0, 0x09, 0, 0x00, 0x00, 0x7f, 0, 0, 0, 0, 0, 0]
def ocrBytes : List UInt8 := [0x80, 0xff, 0x80, 0x00]
def csdLarge : List UInt8 := [0x40, 0, 0, 0, 0, 0x09, 0, 0x00, 0x20, 0x00, 0, 0, 0, 0, 0, 0]

theorem initOn_hc : initOn true ocrHc csdSmall =
    some (⟨.ok, ⟨.hc, 131072⟩, true, ocrHc, csdSmall⟩, ⟨false, [], []⟩) := by decide +kernel

theorem initOn_bytes : initOn true ocrBytes csdLarge =
    some (⟨.ok, ⟨.v2, 8389632⟩, true, ocrBytes, csdLarge⟩, ⟨false, [], []⟩) := by decide +kernel

theorem sd_addresses_hc : Addressed ⟨.hc, 131072⟩ csdSmall ↔ Spans true ocrHc csdSmall :=
  sd_addresses (cardOps (answer true ocrHc csdSmall)) 3 ⟨false, [], []⟩ _ _ initOn_hc rfl

/-- Sector 2^23 of the large card has the address of sector 0. -/
theorem sd_addresses_wrapped : ∃ i c, initOn true ocrBytes csdLarge = some (i, c) ∧ i.err = .ok ∧
    ¬ Addressed i.sd i.csd :=
  ⟨_, _, initOn_bytes, rfl, fun h => h.apart 0 (2 ^ 23) (by decide) (by decide) (by decide) (by decide)⟩

end DiscoBSD.Sd
