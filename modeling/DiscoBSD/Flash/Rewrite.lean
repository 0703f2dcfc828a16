import DiscoBSD.Flash.Image

/-!
# Rewriting part of a sector

`flash_swap_rewrite` of `sys/arch/rp2040/dev/flash_swap.c`, and `fl_raw` for the writes that come to it. A
sector that is rewritten is first copied to a spare one; then it is erased and filled again, from the
source where the range covers it and from the copy elsewhere. Both fillings are the same loop over the
sixteen pages of a sector, and **a page loop over an erased sector leaves what its pages were fetched
from**.

The operations may fail. What a driver has to promise is about the calls that succeed: the chip is then
what it was with that operation done to it.
-/

set_option autoImplicit false

namespace DiscoBSD.Flash

open DiscoBSD.Lib DiscoBSD.Rmap

/-! ## flash_swap_rewrite -/

/-- `struct flash_swap_ops`. A read that fails gives no bytes. -/
structure RewriteOps (σ : Type) extends FlashSwapOps σ where
  read : σ → Nat → Nat → Option (List UInt8) × σ

section
variable {σ : Type} (ops : RewriteOps σ)

/-- `for (page = 0; page < FLASH_SECTOR_BYTES; page += FLASH_PROG_BYTES)`, programming what is fetched for
    each page. -/
def pageLoop (base : Nat) (fetch : Nat → σ → Option (List UInt8) × σ) : Nat → Nat → σ → Bool × σ
  | 0, _, s => (true, s)
  | n + 1, page, s =>
    match fetch page s with
    | (none, s) => (false, s)
    | (some data, s) =>
      match ops.program s (base + page) data with
      | (false, s) => (false, s)
      | (true, s) => pageLoop base fetch n (page + flashProgBytes) s

/-- The copy's page, out of the destination. -/
def fetchOld (dst : Nat) (page : Nat) (s : σ) : Option (List UInt8) × σ :=
  ops.read s (dst + page) flashProgBytes

/-- The destination's page, out of the source or out of the copy. -/
def fetchNew (dst spare offset chunk : Nat) (source : List UInt8) (page : Nat) (s : σ) :
    Option (List UInt8) × σ :=
  if offset ≤ dst + page ∧ dst + page < offset + chunk then
    (some ((source.drop (dst + page - offset)).take flashProgBytes), s)
  else ops.read s (spare + page) flashProgBytes

/-- One turn of the loop over the sectors: the copy, the erase and the pages back. -/
def rewriteSector (s : σ) (offset : Nat) (source : List UInt8) (chunk spare : Nat) : Bool × σ :=
  let dst := sectorOf offset
  let pages := flashSectorBytes / flashProgBytes
  match ops.erase s spare flashSectorBytes with
  | (false, s) => (false, s)
  | (true, s) =>
    match pageLoop ops spare (fetchOld ops dst) pages 0 s with
    | (false, s) => (false, s)
    | (true, s) =>
      match ops.erase s dst flashSectorBytes with
      | (false, s) => (false, s)
      | (true, s) => pageLoop ops dst (fetchNew ops dst spare offset chunk source) pages 0 s

/-- `FLASH_SECTOR_BYTES - (offset - destination_sector)`, and not more than is left. -/
def chunkOf (offset length : Nat) : Nat := min (flashSectorBytes - (offset - sectorOf offset)) length

/-- `while (length != 0)`. -/
def rewriteLoop (spare : Nat) : Nat → σ → Nat → List UInt8 → Bool × σ
  | 0, s, _, source => (decide (source.length = 0), s)
  | turns + 1, s, offset, source =>
    if source.length = 0 then (true, s)
    else if sectorOf offset = spare then (false, s)
    else
      let chunk := chunkOf offset source.length
      match rewriteSector ops s offset source chunk spare with
      | (false, s) => (false, s)
      | (true, s) => rewriteLoop spare turns s (wrap 32 (offset + chunk)) (source.drop chunk)

/-- What `flash_swap_rewrite` refuses at once. -/
def Misplaced (offset length spare : Nat) : Prop :=
  offset &&& (flashProgBytes - 1) ≠ 0 ∨ length &&& (flashProgBytes - 1) ≠ 0 ∨
    spare &&& (flashSectorBytes - 1) ≠ 0 ∨ wrap 32 (offset + length) < offset

instance (offset length spare : Nat) : Decidable (Misplaced offset length spare) :=
  inferInstanceAs (Decidable (_ ∨ _))

/-- `flash_swap_rewrite`. Every turn takes at least a byte. -/
def flashSwapRewrite (s : σ) (offset : Nat) (source : List UInt8) (spare : Nat) : Bool × σ :=
  if Misplaced offset source.length spare then (false, s)
  else rewriteLoop ops spare source.length s offset source

end

/-- `flash_read`. -/
def flashRead (c : Chip) (off len : Nat) : Option (List UInt8) × Chip :=
  if flashTotalBytes < off ∨ flashTotalBytes - off < len then (none, c)
  else (some (readAt c.mem off len), c)

/-- `flswap_ops`, with the read. -/
def flswapAll : RewriteOps Chip := { flswapOps with read := flashRead }

/-- `fl_raw` for a write without `B_SWAPIMAGE`. The spare sector is the region's first. -/
def flRawBlocks (c : Chip) (off : Nat) (source : List UInt8) : Bool × Chip :=
  if flashSwapBytes < off ∨ flashSwapBytes - off < source.length then (false, c)
  else if off < flashSectorBytes then (false, c)
  else flashSwapRewrite flswapAll c (flashSwapOffset + off) source flashSwapOffset

/-! ## Operations on a chip -/

/-- The second chip is the first after some more operations, each of them legal when it was done. -/
def Went (c c' : Chip) : Prop :=
  ∃ ops, c'.log = c.log ++ ops ∧ c'.mem = replay c.mem ops ∧ Legal c.mem ops

theorem Went.refl (c : Chip) : Went c c := ⟨[], (List.append_nil _).symm, rfl, .nil _⟩

theorem Went.perform {c c' : Chip} {op : NorOp} (h : Went c c') (hop : op.Legal c'.mem) :
    Went c (c'.perform op) := by
  obtain ⟨ops, hlog, hmem, hlegal⟩ := h
  refine ⟨ops ++ [op], ?_, ?_, hlegal.snoc (hmem ▸ hop)⟩
  · rw [Chip.perform, hlog, List.append_assoc]
  · rw [Chip.perform, replay_snoc, hmem]

/-- What the operations promise of the chip behind the driver's state. -/
structure NorDriver {σ : Type} (ops : RewriteOps σ) (view : σ → Chip) : Prop where
  erase : ∀ {s off len s'}, ops.erase s off len = (true, s') → view s' = (view s).perform (.erase off len)
  program : ∀ {s off data s'}, ops.program s off data = (true, s') →
    view s' = (view s).perform (.program off data)
  read : ∀ {s off len data s'}, ops.read s off len = (some data, s') →
    view s' = view s ∧ data = readAt (view s).mem off len

theorem flswapAll_nor : NorDriver flswapAll id := by
  refine ⟨fun h => ?_, fun h => ?_, fun h => ?_⟩
  · exact (congrArg Prod.snd h).symm
  · exact (congrArg Prod.snd h).symm
  · simp only [flswapAll, flashRead] at h
    split at h
    · cases h
    · cases h
      exact ⟨rfl, rfl⟩

/-! ## Filling a sector -/

/-- A sector that starts at `base` is filled with `want` as far as `page`, and erased from there on. Elsewhere
    the memory is `mem₁`. -/
structure Filling (mem₁ want : Nat → UInt8) (base page : Nat) (mem : Nat → UInt8) : Prop where
  outside : ∀ x, x < base ∨ base + flashSectorBytes ≤ x → mem x = mem₁ x
  filled : ∀ x, base ≤ x → x < base + page → mem x = want x
  blank : ∀ x, base + page ≤ x → x < base + flashSectorBytes → mem x = 0xff

section
variable {mem₁ want mem : Nat → UInt8} {base page : Nat}

theorem Filling.start : Filling mem want base 0 ((NorOp.erase base flashSectorBytes).apply mem) :=
  ⟨fun _ h => erase_outside h, fun _ h₁ h₂ => absurd h₁ (by omega), fun _ h₁ h₂ => erase_inside h₁ h₂⟩

theorem Filling.program (h : Filling mem₁ want base page mem)
    (hroom : page + flashProgBytes ≤ flashSectorBytes) :
    (NorOp.program (base + page) (readAt want (base + page) flashProgBytes)).Legal mem ∧
      Filling mem₁ want base (page + flashProgBytes)
        ((NorOp.program (base + page) (readAt want (base + page) flashProgBytes)).apply mem) := by
  generalize hdata : readAt want (base + page) flashProgBytes = data
  have hlen : data.length = flashProgBytes := by rw [← hdata, readAt_length]
  have hblank : ∀ x, base + page ≤ x → x < base + page + data.length → mem x = 0xff :=
    fun x h₁ h₂ => h.blank x h₁ (by omega)
  obtain ⟨hlegal, hread⟩ := program_blank hblank
  refine ⟨hlegal, fun x hx => ?_, fun x h₁ h₂ => ?_, fun x h₁ h₂ => ?_⟩
  · rw [program_outside (by omega)]
    exact h.outside x hx
  · by_cases hx : x < base + page
    · rw [program_outside (.inl hx)]
      exact h.filled x h₁ hx
    · -- The page just programmed: byte by byte what was fetched.
      have hcell := congrArg (·[x - (base + page)]?) (hread.trans hdata.symm)
      rw [hlen] at hcell
      simp only [getElem?_readAt, if_pos (show x - (base + page) < flashProgBytes by omega),
        Nat.add_sub_cancel' (Nat.le_of_not_lt hx)] at hcell
      exact Option.some.inj hcell
  · rw [program_outside (.inr (by omega))]
    exact h.blank x (by omega) h₂

end

section
variable {σ : Type} {ops : RewriteOps σ} {view : σ → Chip} {c₀ : Chip} {mem₁ want : Nat → UInt8} {base : Nat}
  {fetch : Nat → σ → Option (List UInt8) × σ}

/-- What a page loop fetches is `want`, as long as nothing changed outside its sector. -/
def Fetches (view : σ → Chip) (mem₁ want : Nat → UInt8) (base : Nat)
    (fetch : Nat → σ → Option (List UInt8) × σ) : Prop :=
  ∀ {page s data s'}, flashProgBytes ∣ page → page + flashProgBytes ≤ flashSectorBytes →
    (∀ x, x < base ∨ base + flashSectorBytes ≤ x → (view s).mem x = mem₁ x) →
    fetch page s = (some data, s') →
    view s' = view s ∧ data = readAt want (base + page) flashProgBytes

/-- **A page loop fills the rest of its sector with legal programs.** -/
theorem pageLoop_fills (hops : NorDriver ops view) (hfetch : Fetches view mem₁ want base fetch) (n : Nat)
    {page : Nat} {s s' : σ} (hpage : flashProgBytes ∣ page)
    (hrest : page + n * flashProgBytes = flashSectorBytes) (hfill : Filling mem₁ want base page (view s).mem)
    (hwent : Went c₀ (view s)) (h : pageLoop ops base fetch n page s = (true, s')) :
    Filling mem₁ want base flashSectorBytes (view s').mem ∧ Went c₀ (view s') := by
  induction n generalizing page s with
  | zero =>
    cases h
    rw [Nat.zero_mul, Nat.add_zero] at hrest
    exact ⟨hrest ▸ hfill, hwent⟩
  | succ n ih =>
    have hroom : page + flashProgBytes ≤ flashSectorBytes := by
      rw [Nat.succ_mul] at hrest
      omega
    unfold pageLoop at h
    split at h
    · cases h
    · rename_i data t hdata
      obtain ⟨hview, hbytes⟩ := hfetch hpage hroom hfill.outside hdata
      split at h
      · cases h
      · rename_i t' hprogram
        obtain ⟨hlegal, hnext⟩ := hfill.program hroom
        have hchip := hops.program hprogram
        rw [hview, hbytes] at hchip
        refine ih (Nat.dvd_add hpage (Nat.dvd_refl _)) ?_ ?_ ?_ h
        · rw [Nat.succ_mul] at hrest
          omega
        · rw [hchip]
          exact hnext
        · rw [hchip]
          exact hwent.perform hlegal

end

end DiscoBSD.Flash
