import Mathlib
import DiscoBSD.Tempdev.Inv

/-!
# The calls on a device

The loops of `swcread` and `swcwrite` and the two transfers of `swstrategy`, each on a device that is good. **Neither
loop runs out of turns**: a turn is a block, and a loop ends at the end of the device.
-/

set_option autoImplicit false

namespace DiscoBSD.Tempdev

open DiscoBSD.Lib DiscoBSD.Rmap DiscoBSD.Flash
open DiscoBSD.Swap (devBsize)

variable {dev : SwapDev} {e : Extent} {x : Temp}

/-- The transfer is of blocks of the device. -/
def InDevice (e : Extent) (size : Nat) (a : Io) : Prop :=
  (e.off : Int) ≤ a.1 ∧ a.1 * devBsize + a.2 ≤ (e.off + size) * devBsize

theorem inDevice_block {size block : Nat} (h : block < size) : InDevice e size ((e.off + block : Nat), devBsize) := by
  unfold InDevice devBsize
  push_cast
  constructor <;> omega

/-! ## `swcread` -/

/-- A block of the device is read. -/
theorem Good.swapRead (h : Good dev e x) {block : Nat} (hblock : block < x.t.t_size) :
    swapRead dev x.disk ((x.t.t_start + block : Nat) : Int) devBsize =
      some (readAt x.disk (addr dev (e.off + block)) devBsize) := by
  have hin : block * devBsize + devBsize ≤ x.t.t_size * devBsize := by
    unfold devBsize
    omega
  rw [h.start]
  exact swapRead_spec (h.placed.inside hin).1

theorem Good.readLoop (h : Good dev e x) (turns block boff rlen : Nat) (hturns : x.t.t_size ≤ block + turns)
    (hboff : boff ≤ devBsize) :
    ∃ data io, readLoop dev x turns block boff rlen = some (data, io) ∧
      (∀ i < rlen, block * devBsize + boff + i < x.t.t_size * devBsize →
        data[i]? = some (x.disk (addr dev e.off + (block * devBsize + boff + i)))) ∧
      ∀ a ∈ io, InDevice e x.t.t_size a := by
  induction turns generalizing block boff rlen with
  | zero =>
    refine ⟨[], [], rfl, fun i _ hin => ?_, nofun⟩
    unfold devBsize at hin
    omega
  | succ turns ih =>
    unfold Tempdev.readLoop
    by_cases hmore : 0 < rlen ∧ block < x.t.t_size
    · rw [if_pos hmore]
      have hread := h.swapRead hmore.2
      obtain ⟨data, io, hrest, hdata, hio⟩ := ih (block + 1) 0
        (rlen - min (devBsize - boff) rlen) (by omega) (by omega)
      refine ⟨((readAt x.disk (addr dev (e.off + block)) devBsize).drop boff).take (min (devBsize - boff) rlen) ++ data,
        (((x.t.t_start + block : Nat) : Int), devBsize) :: io, ?_, ?_, ?_⟩
      · simp only [hread, hrest, Option.bind_eq_bind, Option.bind_some]
      · intro i hi hlt
        have hpart : ((readAt x.disk (addr dev (e.off + block)) devBsize).drop boff).take (min (devBsize - boff) rlen) =
            readAt x.disk (addr dev (e.off + block) + boff) (min (devBsize - boff) rlen) :=
          readAt_drop_take _ _ (by omega)
        rw [hpart]
        by_cases hfirst : i < min (devBsize - boff) rlen
        · rw [List.getElem?_append_left (by rw [readAt_length]; exact hfirst), getElem?_readAt, if_pos hfirst]
          congr 2
          rw [addr_add]
          omega
        · rw [List.getElem?_append_right (by rw [readAt_length]; omega), readAt_length]
          have hfull : min (devBsize - boff) rlen = devBsize - boff := by omega
          have hnext : (block + 1) * devBsize + 0 + (i - min (devBsize - boff) rlen) = block * devBsize + boff + i := by
            rw [hfull, Nat.add_mul]
            omega
          have hi' := hdata (i - min (devBsize - boff) rlen) (by omega) (by rw [hnext]; exact hlt)
          rw [hi', hnext]
      · intro a ha
        rcases List.mem_cons.mp ha with rfl | hmem
        · rw [h.start]
          exact inDevice_block hmore.2
        · exact hio a hmem
    · rw [if_neg hmore]
      refine ⟨[], [], rfl, fun i hi hin => ?_, nofun⟩
      unfold devBsize at hin hboff
      omega

/-! ## `swcwrite` -/

/-- What a write leaves of the device it goes to. -/
structure Written (dev : SwapDev) (e : Extent) (x x' : Temp) (io : List Io) : Prop where
  good : Good dev e x'
  kept : Kept dev e x.disk x'.disk
  size : x'.t.t_size = x.t.t_size
  inside : ∀ a ∈ io, InDevice e x.t.t_size a

theorem Good.writeTurn (h : Good dev e x) {block : Nat} (boff : Nat) (chunk : List UInt8) (hblock : block < x.t.t_size)
    (hpart : boff + chunk.length ≤ devBsize) :
    ∃ x' io, writeTurn dev x block boff chunk = some (x', io) ∧ Written dev e x x' io ∧
      ∃ image, x'.writes = x.writes ++ [⟨block * devBsize + boff, chunk, image⟩] := by
  unfold Tempdev.writeTurn
  dsimp only
  by_cases hpiece : boff ≠ 0 ∨ chunk.length ≠ devBsize
  · rw [if_pos hpiece]
    have hread := h.swapRead hblock
    obtain ⟨disk, hwrite, hgood, hkept⟩ := h.splice hblock hpart
    refine ⟨_, [(((x.t.t_start + block : Nat) : Int), devBsize), (((x.t.t_start + block : Nat) : Int), devBsize)], ?_,
      ⟨hgood, hkept, rfl, ?_⟩, false, rfl⟩
    · simp only [hread, Option.bind_eq_bind, Option.bind_some, hwrite]
    · intro a ha
      have heq : a = (((x.t.t_start + block : Nat) : Int), devBsize) := by simpa using ha
      rw [heq, h.start]
      exact inDevice_block hblock
  · rw [if_neg hpiece]
    have hwhole : boff = 0 ∧ chunk.length = devBsize := by
      by_contra hno
      exact hpiece (by omega)
    obtain ⟨rfl, hlen⟩ := hwhole
    have hone : chunk.length / devBsize = 1 := by
      rw [hlen]
      rfl
    have hflag := writeFlags_flagged h.size_lt block 1
    obtain ⟨disk, hwrite, hgood, hkept⟩ := h.put chunk (by rw [hone]; exact hflag)
      (fun _ => by rw [hlen]) (by rw [hlen]; unfold devBsize; omega) (fun _ => by rw [hlen]; decide)
    refine ⟨_, [(((x.t.t_start + block : Nat) : Int), devBsize)], ?_, ⟨hgood, hkept, hflag.size, ?_⟩, _,
      by rw [Nat.add_zero]⟩
    · simp only [hwrite, Option.bind_eq_bind, Option.bind_some]
    · intro a ha
      have heq : a = (((x.t.t_start + block : Nat) : Int), devBsize) := by simpa using ha
      rw [heq, h.start]
      exact inDevice_block hblock

theorem Written.trans {x x₁ x₂ : Temp} {io io' : List Io} (h : Written dev e x x₁ io) (h' : Written dev e x₁ x₂ io') :
    Written dev e x x₂ (io ++ io') where
  good := h'.good
  kept := h.kept.trans h'.kept
  size := h'.size.trans h.size
  inside := fun a ha => by
    rcases List.mem_append.mp ha with hmem | hmem
    · exact h.inside a hmem
    · rw [← h.size]
      exact h'.inside a hmem

theorem Good.writeLoop (h : Good dev e x) (turns block boff : Nat) (bytes : List UInt8)
    (hturns : x.t.t_size ≤ block + turns) (hboff : boff < devBsize) :
    ∃ x' io, writeLoop dev turns x block boff bytes = some (x', io) ∧ Written dev e x x' io ∧
      (∀ i < block * devBsize + boff, value x'.writes i = value x.writes i) ∧
      ∀ i b, bytes[i]? = some b → block * devBsize + boff + i < x.t.t_size * devBsize →
        value x'.writes (block * devBsize + boff + i) = some b := by
  have hnothing : Written dev e x x [] := ⟨h, .refl _ _ _, rfl, nofun⟩
  induction turns generalizing x block boff bytes with
  | zero =>
    refine ⟨x, [], rfl, hnothing, fun _ _ => rfl, fun i b _ hin => ?_⟩
    unfold devBsize at hin
    omega
  | succ turns ih =>
    unfold Tempdev.writeLoop
    by_cases hmore : 0 < bytes.length ∧ block < x.t.t_size
    · rw [if_pos hmore]
      set rsize := min (devBsize - boff) bytes.length with hrsize
      have htake : (bytes.take rsize).length = rsize := by
        rw [List.length_take]
        omega
      obtain ⟨x₁, io, hturn, hw, image, hwrites⟩ := h.writeTurn boff (bytes.take rsize) hmore.2
        (by rw [htake]; omega)
      obtain ⟨x₂, io', hrest, hw', hbelow, hthere⟩ := ih (x := x₁) hw.good (block + 1) 0
        (bytes.drop rsize) (by rw [hw.size]; omega) (by unfold devBsize; omega)
        ⟨hw.good, .refl _ _ _, rfl, nofun⟩
      rw [hw.size] at hthere
      refine ⟨x₂, io ++ io', ?_, hw.trans hw', ?_, ?_⟩
      · simp only [hturn, hrest, Option.bind_eq_bind, Option.bind_some]
      · intro i hi
        have hlast : i < (block + 1) * devBsize + 0 := by
          rw [Nat.add_mul]
          omega
        rw [hbelow i hlast, hwrites]
        exact value_snoc_outside (.inl hi)
      · intro i b hi hin
        obtain ⟨hlt, -⟩ := List.getElem?_eq_some_iff.mp hi
        by_cases hfirst : i < rsize
        · have hlast : block * devBsize + boff + i < (block + 1) * devBsize + 0 := by
            rw [Nat.add_mul]
            omega
          rw [hbelow _ hlast, hwrites]
          refine value_snoc_inside (w := ⟨block * devBsize + boff, bytes.take rsize, image⟩) ?_
          rw [List.getElem?_take_of_lt hfirst]
          exact hi
        · have hnext : (block + 1) * devBsize + 0 + (i - rsize) = block * devBsize + boff + i := by
            rw [Nat.add_mul]
            omega
          have hi' := hthere (i - rsize) b
            (by rw [List.getElem?_drop, Nat.add_sub_cancel' (Nat.le_of_not_lt hfirst)]; exact hi)
            (by rw [hnext]; exact hin)
          rwa [hnext] at hi'
    · rw [if_neg hmore]
      refine ⟨x, [], rfl, hnothing, fun _ _ => rfl, fun i b hi hin => ?_⟩
      obtain ⟨hlt, -⟩ := List.getElem?_eq_some_iff.mp hi
      unfold devBsize at hin hboff
      omega

/-! ## `swstrategy` -/

theorem btod32_of_dvd {n : Nat} (hlt : n < 2 ^ 31) (hdvd : devBsize ∣ n) : btod32 n = n / devBsize := by
  unfold btod32
  rw [wrap_of_lt (by unfold devBsize; omega)]
  unfold devBsize at hdvd ⊢
  omega

theorem Good.strategyWrite (h : Good dev e x) {b_blkno : Int} {bytes : List UInt8} (hlt : b_blkno < x.t.t_size)
    (hlow : 0 ≤ b_blkno ∨ bytes.length = 0) (hfit : (bytes.length : Int) ≤ (x.t.t_size - b_blkno) * devBsize)
    (hpage : dev = .fl1 → flashProgBytes ∣ bytes.length) :
    ∃ x', strategyWrite dev x b_blkno bytes = some x' ∧ Written dev e x x' [] ∧
      ∃ image, x'.writes = x.writes ++ [⟨(b_blkno * devBsize).toNat, bytes, image⟩] := by
  have hsize := h.size_lt
  by_cases hzero : bytes.length = 0
  · have hnil := List.length_eq_zero_iff.mp hzero
    subst hnil
    have hflags : swtempWriteFlags x.t (b_blkno % 2 ^ 32).toNat (btod32 0) =
        (false, { x.t with t_next := tdAppendDisabled }) := if_pos (.inl rfl)
    have hwrite : swapWrite dev x.disk (x.t.t_start + b_blkno) [] false = some x.disk := by
      rw [swapWrite.eq_def, if_pos List.length_nil]
    have hoff : (b_blkno * devBsize).toNat ≤ x.t.t_size * devBsize := by
      unfold devBsize
      omega
    have hgood : Good dev e ⟨{ x.t with t_next := tdAppendDisabled }, x.disk,
        x.writes ++ [⟨(b_blkno * devBsize).toNat, [], false⟩]⟩ :=
      h.snoc rfl rfl hoff (fun _ _ hb => absurd hb (by simp)) (fun _ _ _ _ => rfl) (fun hnext => absurd rfl hnext) (by rintro ⟨⟩)
    refine ⟨_, ?_, ⟨hgood, .refl _ _ _, rfl, by rintro _ ⟨⟩⟩, false, rfl⟩
    simp only [Tempdev.strategyWrite, List.length_nil, Nat.zero_mod, if_true, hflags, hwrite, Option.bind_eq_bind,
      Option.bind_some]
  · obtain ⟨block, rfl⟩ := Int.eq_ofNat_of_zero_le (hlow.resolve_right hzero)
    have hblock : block < x.t.t_size := by omega
    have hin : block * devBsize + bytes.length ≤ x.t.t_size * devBsize := by
      unfold devBsize at hfit ⊢
      omega
    have hoff : ((block : Int) * devBsize).toNat = block * devBsize := by
      rw [← Nat.cast_mul, Int.toNat_natCast]
    have hwrap : ((block : Int) % 2 ^ 32).toNat = block := by omega
    have hblk : (x.t.t_start : Int) + block = ((x.t.t_start + block : Nat) : Int) := (Nat.cast_add _ _).symm
    unfold Tempdev.strategyWrite
    by_cases hwhole : bytes.length % devBsize = 0
    · have hdvd : devBsize ∣ bytes.length := Nat.dvd_of_mod_eq_zero hwhole
      have hbtod : btod32 bytes.length = bytes.length / devBsize :=
        btod32_of_dvd (by unfold devBsize at hin; omega) hdvd
      have hflag := writeFlags_flagged hsize block (bytes.length / devBsize)
      obtain ⟨disk, hwrite, hgood, hkept⟩ := h.put _ hflag (fun _ => hdvd) hin hpage
      refine ⟨_, ?_, ⟨hgood, hkept, hflag.size, by rintro _ ⟨⟩⟩, _, by rw [hoff]⟩
      simp only [if_pos hwhole, hwrap, hbtod, hblk, hwrite, hoff, Option.bind_eq_bind, Option.bind_some]
    · obtain ⟨disk, hwrite, hgood, hkept⟩ := h.put _ (flagged_plain x.t block (bytes.length / devBsize)) (by rintro ⟨⟩) hin hpage
      refine ⟨_, ?_, ⟨hgood, hkept, rfl, by rintro _ ⟨⟩⟩, _, by rw [hoff]⟩
      simp only [if_neg hwhole, hblk, hwrite, hoff, Option.bind_eq_bind, Option.bind_some]

/-! ## What others do -/

/-- Nothing in the extent changed. -/
theorem Good.frame (h : Good dev e x) {m : Mem}
    (hsame : ∀ y, addr dev e.off ≤ y → y < addr dev (e.off + e.size) → m y = x.disk y) :
    Good dev e ⟨x.t, m, x.writes⟩ := by
  have hfits := h.placed.fits
  refine ⟨h.start, h.placed, ?_, ?_, h.ordered⟩
  · intro i v hv
    obtain ⟨hlt, hdisk⟩ := h.values i v hv
    refine ⟨hlt, ?_⟩
    have hbelow : addr dev e.off + i < addr dev (e.off + e.size) := by
      rw [addr_add]
      have hle := Nat.mul_le_mul_right devBsize hfits
      change i < x.t.t_size * devBsize at hlt
      omega
    exact (hsame _ (Nat.le_add_right _ _) hbelow).trans hdisk
  · intro hnext
    obtain ⟨hle, horder, hahead⟩ := h.next hnext
    refine ⟨hle, horder, fun hfl => ?_⟩
    rcases hahead hfl with hdvd | hblank
    · exact .inl hdvd
    · by_cases hdvd : flashSectorBytes ∣ addr dev (e.off + x.t.t_next)
      · exact .inl hdvd
      · refine .inr fun y hy hsector => ?_
        dsimp only at hy hsector
        rw [← hblank y hy hsector]
        -- The sector of the mark ends inside the extent.
        have hend := sector_dvd_addr dev (Nat.dvd_add h.placed.start h.placed.whole)
        have hmark : addr dev (e.off + x.t.t_next) ≤ addr dev (e.off + e.size) := addr_mono dev (by omega)
        have hlow : addr dev e.off ≤ addr dev (e.off + x.t.t_next) := addr_mono dev (Nat.le_add_right _ _)
        rw [show flashSectorBytes = 4096 from rfl] at hend hsector hdvd
        exact hsame y (hlow.trans hy) (by omega)

end DiscoBSD.Tempdev
