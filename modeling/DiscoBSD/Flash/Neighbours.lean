import DiscoBSD.Flash.Rewrite

/-!
# A rewrite keeps the neighbours

Seen from outside the spare sector, a rewrite is one write into a byte store: **the memory after it is the
memory before it with the source laid down at the offset**. One sector's turn is that for the part of the
range in its sector, and the loop puts the turns together.

The loop knows the spare sector only as a destination it must not come to. A range that begins before the
spare sector and reaches it is rewritten as far as that and then refused, and which range lies in the
swap region is for `fl_raw` to say.
-/

set_option autoImplicit false

namespace DiscoBSD.Flash

open DiscoBSD.Lib DiscoBSD.Rmap

/-- An address outside the sector at `base`. -/
def Outside (base x : Nat) : Prop := x < base ∨ base + flashSectorBytes ≤ x

section
variable {mem : Nat → UInt8} {dst spare offset page chunk : Nat} {source bytes : List UInt8}

/-- Two sectors are apart. -/
theorem sectors_apart {a b x : Nat} (ha : flashSectorBytes ∣ a) (hb : flashSectorBytes ∣ b) (hne : a ≠ b)
    (h₁ : a ≤ x) (h₂ : x < a + flashSectorBytes) : Outside b x := by
  obtain ⟨i, rfl⟩ := ha
  obtain ⟨j, rfl⟩ := hb
  unfold Outside flashSectorBytes at *
  lia

theorem writeAt_outside {a x : Nat} (h : x < a ∨ a + bytes.length ≤ x) : writeAt mem a bytes x = mem x :=
  writeAt_same (e := ⟨x, 1⟩) mem (by simp only; lia) x (Nat.le_refl _) (Nat.lt_succ_self _)

/-- A page lies in the range or outside it. -/
theorem page_in_or_out (hdst : flashProgBytes ∣ dst) (hpage : flashProgBytes ∣ page)
    (hoff : flashProgBytes ∣ offset) (hchunk : flashProgBytes ∣ chunk) :
    (offset ≤ dst + page ∧ dst + page < offset + chunk → dst + page + flashProgBytes ≤ offset + chunk) ∧
      (¬(offset ≤ dst + page ∧ dst + page < offset + chunk) →
        dst + page + flashProgBytes ≤ offset ∨ offset + chunk ≤ dst + page) := by
  obtain ⟨i, rfl⟩ := hdst
  obtain ⟨j, rfl⟩ := hpage
  obtain ⟨k, rfl⟩ := hoff
  obtain ⟨l, rfl⟩ := hchunk
  unfold flashProgBytes
  lia

theorem take_drop_take {i n k : Nat} (h : i + n ≤ k) :
    ((source.take k).drop i).take n = (source.drop i).take n := by
  rw [List.drop_take, List.take_take, Nat.min_eq_left (by lia)]

theorem sector_page (x : Nat) : flashProgBytes ∣ sectorOf x :=
  Nat.dvd_trans (by decide) (sectorOf_dvd x)

/-- Where a chunk lies, and what is left after it. -/
structure Chunk (offset length chunk : Nat) : Prop where
  page : flashProgBytes ∣ chunk
  pos : 0 < chunk
  le : chunk ≤ length
  room : offset + chunk ≤ sectorOf offset + flashSectorBytes
  edge : chunk = length ∨ sectorOf (offset + chunk) = sectorOf offset + flashSectorBytes

theorem chunkOf_spec {length : Nat} (hoff : flashProgBytes ∣ offset) (hlen : flashProgBytes ∣ length)
    (hpos : length ≠ 0) : Chunk offset length (chunkOf offset length) := by
  have hle := sectorOf_le offset
  have hlt := lt_sectorOf offset
  have hedge : sectorOf (sectorOf offset + flashSectorBytes) = sectorOf offset + flashSectorBytes :=
    sectorOf_of_dvd (Nat.dvd_add (sectorOf_dvd offset) (Nat.dvd_refl _))
  have hrest : flashProgBytes ∣ flashSectorBytes - (offset - sectorOf offset) :=
    Nat.dvd_sub (by decide) (Nat.dvd_sub hoff (sector_page offset))
  unfold chunkOf
  rcases Nat.le_total (flashSectorBytes - (offset - sectorOf offset)) length with hmin | hmin
  · rw [Nat.min_eq_left hmin]
    refine ⟨hrest, by lia, hmin, by lia, .inr ?_⟩
    rw [show offset + (flashSectorBytes - (offset - sectorOf offset)) =
      sectorOf offset + flashSectorBytes by lia]
    exact hedge
  · rw [Nat.min_eq_right hmin]
    exact ⟨hlen, Nat.pos_of_ne_zero hpos, Nat.le_refl _, by lia, .inl rfl⟩

end

section
variable {σ : Type} {ops : RewriteOps σ} {view : σ → Chip} {c₀ : Chip} {mem : Nat → UInt8}
  {dst spare offset chunk : Nat} {source : List UInt8}

/-- The copy is fetched from the destination. -/
theorem fetchOld_fetches (hops : NorDriver ops view) (hdst : flashSectorBytes ∣ dst)
    (hspare : flashSectorBytes ∣ spare) (hne : dst ≠ spare) :
    Fetches view mem (fun x => mem (x - spare + dst)) spare (fetchOld ops dst) := by
  intro page s data s' _ hroom hsame h
  obtain ⟨hview, hdata⟩ := hops.read h
  refine ⟨hview, hdata.trans (List.map_congr_left fun i hi => ?_)⟩
  have hi := List.mem_range.mp hi
  rw [hsame (dst + page + i) (sectors_apart hdst hspare hne (by lia) (by lia))]
  exact congrArg mem (by lia)

/-- What is put back is the destination with the source in it. -/
theorem fetchNew_fetches (hops : NorDriver ops view) (hdst : flashSectorBytes ∣ dst)
    (hspare : flashSectorBytes ∣ spare) (hne : dst ≠ spare) (hoff : flashProgBytes ∣ offset)
    (hchunk : flashProgBytes ∣ chunk) (hle : chunk ≤ source.length) {mem₁ : Nat → UInt8}
    (hcopy : ∀ x, spare ≤ x → x < spare + flashSectorBytes → mem₁ x = mem (x - spare + dst)) :
    Fetches view mem₁ (writeAt mem offset (source.take chunk)) dst
      (fetchNew ops dst spare offset chunk source) := by
  intro page s data s' hpage hroom hsame h
  have hlen : (source.take chunk).length = chunk := by rw [List.length_take, Nat.min_eq_left hle]
  have hpages : flashProgBytes ∣ dst := Nat.dvd_trans (by decide) hdst
  obtain ⟨hin, hout⟩ := page_in_or_out hpages hpage hoff hchunk
  unfold fetchNew at h
  split at h
  · rename_i hrange
    cases h
    have hend := hin hrange
    refine ⟨rfl, ?_⟩
    rw [readAt_writeAt_inside hrange.1 (by rw [hlen]; exact hend), take_drop_take (by lia)]
  · rename_i hrange
    obtain ⟨hview, hdata⟩ := hops.read h
    refine ⟨hview, hdata.trans (List.map_congr_left fun i hi => ?_)⟩
    have hi := List.mem_range.mp hi
    have houtside := hout hrange
    rw [hsame (spare + page + i) (sectors_apart hspare hdst (Ne.symm hne) (by lia) (by lia)),
      hcopy (spare + page + i) (by lia) (by lia), writeAt_outside (by rw [hlen]; lia)]
    exact congrArg mem (by lia)

/-- **One turn is one write, seen from outside the spare sector.** -/
theorem rewriteSector_spec (hops : NorDriver ops view) (hspare : flashSectorBytes ∣ spare)
    (hne : sectorOf offset ≠ spare) (hoff : flashProgBytes ∣ offset) {length : Nat}
    (hchunk : Chunk offset length chunk) (hle : chunk ≤ source.length) {s s' : σ}
    (hwent : Went c₀ (view s)) (h : rewriteSector ops s offset source chunk spare = (true, s')) :
    Went c₀ (view s') ∧ ∀ x, Outside spare x →
      (view s').mem x = writeAt (view s).mem offset (source.take chunk) x := by
  have hdst := sectorOf_dvd offset
  have hpages : 0 + flashSectorBytes / flashProgBytes * flashProgBytes = flashSectorBytes := by decide
  simp only [rewriteSector] at h
  split at h
  · cases h
  · rename_i t₁ herase
    have hchip₁ := hops.erase herase
    split at h
    · cases h
    · rename_i t₂ hcopy
      have hblank : Filling (view s).mem (fun x => (view s).mem (x - spare + sectorOf offset)) spare 0
          (view t₁).mem := by
        rw [hchip₁]
        exact .start
      obtain ⟨hspared, hwent₂⟩ := pageLoop_fills hops (fetchOld_fetches hops hdst hspare hne) _ (Nat.dvd_zero _) hpages
        hblank (by rw [hchip₁]; exact hwent.perform trivial) hcopy
      split at h
      · cases h
      · rename_i t₃ herase₂
        have hchip₃ := hops.erase herase₂
        have hblank₃ : Filling (view t₂).mem (writeAt (view s).mem offset (source.take chunk)) (sectorOf offset) 0
            (view t₃).mem := by
          rw [hchip₃]
          exact .start
        obtain ⟨hfilled, hwent₃⟩ := pageLoop_fills hops
          (fetchNew_fetches hops hdst hspare hne hoff hchunk.page hle hspared.filled) _ (Nat.dvd_zero _)
          hpages hblank₃ (by rw [hchip₃]; exact hwent₂.perform trivial) h
        refine ⟨hwent₃, fun x hx => ?_⟩
        by_cases hin : sectorOf offset ≤ x ∧ x < sectorOf offset + flashSectorBytes
        · exact hfilled.filled x hin.1 hin.2
        · have hlow := sectorOf_le offset
          have hroom := hchunk.room
          have hlen : (source.take chunk).length = chunk := by rw [List.length_take, Nat.min_eq_left hle]
          rw [hfilled.outside x (by lia), hspared.outside x hx, writeAt_outside (by rw [hlen]; lia)]

/-- A sector that the rest of a range begins in is its first, or lies behind the turn before. -/
theorem loop_apart {length : Nat} (h : Chunk offset length chunk) (hne : sectorOf offset ≠ spare)
    (hspare : flashSectorBytes ∣ spare)
    (hrest : ∀ x, offset + chunk ≤ x → x < offset + length → Outside spare x) :
    ∀ x, offset ≤ x → x < offset + length → Outside spare x := by
  intro x h₁ h₂
  by_cases hx : x < offset + chunk
  · have hlow := sectorOf_le offset
    exact sectors_apart (sectorOf_dvd offset) hspare hne (by lia) (by have := h.room; lia)
  · exact hrest x (by lia) h₂

/-- **The loop: a call that succeeds has written the range and not met the spare sector.** -/
theorem rewriteLoop_spec (hops : NorDriver ops view) (hspare : flashSectorBytes ∣ spare) (turns : Nat)
    {s s' : σ} (hoff : flashProgBytes ∣ offset) (hlen : flashProgBytes ∣ source.length)
    (hturns : source.length ≤ turns) (htop : offset + source.length < 2 ^ 32) (hwent : Went c₀ (view s))
    (h : rewriteLoop ops spare turns s offset source = (true, s')) :
    Went c₀ (view s') ∧ (∀ x, offset ≤ x → x < offset + source.length → Outside spare x) ∧
      ∀ x, Outside spare x → (view s').mem x = writeAt (view s).mem offset source x := by
  induction turns generalizing s offset source with
  | zero =>
    have hnil : source = [] := List.length_eq_zero_iff.mp (Nat.le_zero.mp hturns)
    subst hnil
    cases h
    refine ⟨hwent, fun x h₁ h₂ => absurd h₁ (Nat.not_le.mpr h₂), fun x _ => ?_⟩
    rw [writeAt_nil]
  | succ turns ih =>
    unfold rewriteLoop at h
    split at h
    · rename_i hzero
      have hnil := List.length_eq_zero_iff.mp hzero
      subst hnil
      cases h
      refine ⟨hwent, fun x h₁ h₂ => absurd h₁ (Nat.not_le.mpr h₂), fun x _ => ?_⟩
      rw [writeAt_nil]
    · rename_i hpos
      split at h
      · cases h
      · rename_i hne
        have hchunk := chunkOf_spec hoff hlen hpos
        generalize chunkOf offset source.length = chunk at h hchunk
        simp only at h
        split at h
        · cases h
        · rename_i t hsector
          obtain ⟨hwent₁, hmem₁⟩ := rewriteSector_spec hops hspare hne hoff hchunk hchunk.le hwent hsector
          have hle := hchunk.le
          have hpos' := hchunk.pos
          rw [wrap_of_lt (by lia)] at h
          have hleft : (source.drop chunk).length = source.length - chunk := List.length_drop
          obtain ⟨hwent₂, hapart, hmem₂⟩ := ih (Nat.dvd_add hoff hchunk.page)
            (by rw [hleft]; exact Nat.dvd_sub hlen hchunk.page) (by lia) (by lia) hwent₁ h
          refine ⟨hwent₂, loop_apart hchunk hne hspare fun x h₁ h₂ => hapart x h₁ (by lia),
            fun x hx => ?_⟩
          have hsplit : writeAt (view s).mem offset source =
              writeAt (writeAt (view s).mem offset (source.take chunk)) (offset + chunk)
                (source.drop chunk) := by
            conv_lhs => rw [← List.take_append_drop chunk source, writeAt_append]
            rw [List.length_take, Nat.min_eq_left hle]
          rw [hmem₂ x hx, hsplit]
          simp only [writeAt, hmem₁ x hx]

end

/-! ## Ranges that come to the spare sector later -/

section
variable {σ : Type} {ops : RewriteOps σ} {spare offset chunk : Nat} {source : List UInt8}

theorem pageLoop_congr {base : Nat} {fetch fetch' : Nat → σ → Option (List UInt8) × σ}
    (h : ∀ page s, flashProgBytes ∣ page → fetch page s = fetch' page s) (n : Nat) {page : Nat}
    (hpage : flashProgBytes ∣ page) (s : σ) :
    pageLoop ops base fetch n page s = pageLoop ops base fetch' n page s := by
  induction n generalizing page s with
  | zero => rfl
  | succ n ih =>
    unfold pageLoop
    rw [h page s hpage]
    split
    · rfl
    · split
      · rfl
      · exact ih (Nat.dvd_add hpage (Nat.dvd_refl _)) _

/-- A turn reads no more of the source than its chunk. -/
theorem rewriteSector_take (hoff : flashProgBytes ∣ offset) (hchunk : flashProgBytes ∣ chunk) {k : Nat}
    (hle : chunk ≤ k) (s : σ) :
    rewriteSector ops s offset (source.take k) chunk spare = rewriteSector ops s offset source chunk spare := by
  have hfetch : ∀ page (s : σ), flashProgBytes ∣ page →
      fetchNew ops (sectorOf offset) spare offset chunk (source.take k) page s =
        fetchNew ops (sectorOf offset) spare offset chunk source page s := by
    intro page s hpage
    have hin := (page_in_or_out (sector_page offset) hpage hoff hchunk).1
    unfold fetchNew
    split
    · rename_i hrange
      have hend := hin hrange
      rw [take_drop_take (by lia)]
    · rfl
  simp only [rewriteSector]
  split
  · rfl
  · split
    · rfl
    · split
      · rfl
      · exact pageLoop_congr hfetch _ (Nat.dvd_zero _) _

/-- The loop on a range that runs into the spare sector does what it does on the part before it, and
    fails. -/
theorem rewriteLoop_runs_into (hspare : flashSectorBytes ∣ spare) (turns : Nat) {turns' : Nat} {s : σ}
    (hoff : flashProgBytes ∣ offset) (hlen : flashProgBytes ∣ source.length) (hbefore : offset ≤ spare)
    (hover : spare < offset + source.length) (htop : offset + source.length < 2 ^ 32)
    (hturns : source.length ≤ turns) (hturns' : spare - offset ≤ turns') :
    rewriteLoop ops spare turns s offset source =
      (false, (rewriteLoop ops spare turns' s offset (source.take (spare - offset))).2) := by
  induction turns generalizing s offset source turns' with
  | zero => lia
  | succ turns ih =>
    have hpart : (source.take (spare - offset)).length = spare - offset := by
      rw [List.length_take, Nat.min_eq_left (by lia)]
    by_cases heq : offset = spare
    · subst heq
      have hnil : source.take (offset - offset) = [] := by rw [Nat.sub_self, List.take_zero]
      rw [hnil, rewriteLoop, if_neg (by lia), if_pos (sectorOf_of_dvd hspare)]
      cases turns' <;> rfl
    · obtain ⟨m, rfl⟩ : ∃ m, turns' = m + 1 := ⟨turns' - 1, by lia⟩
      have hlow := sectorOf_le offset
      have hhigh := lt_sectorOf offset
      -- The spare sector begins where the sector of the offset ends, or later.
      have hnext : sectorOf offset + flashSectorBytes ≤ spare := by
        obtain ⟨i, hi⟩ := hspare
        obtain ⟨j, hj⟩ := sectorOf_dvd offset
        unfold flashSectorBytes at *
        lia
      have hpos : 0 < flashSectorBytes := by decide
      have hchunk := chunkOf_spec hoff hlen (by lia)
      have hsame : chunkOf offset (spare - offset) = chunkOf offset source.length := by
        unfold chunkOf
        rw [Nat.min_eq_left (by lia), Nat.min_eq_left (by lia)]
      have hroom : offset + chunkOf offset source.length ≤ spare := Nat.le_trans hchunk.room hnext
      rw [rewriteLoop, if_neg (by lia), if_neg (by lia), rewriteLoop, hpart, if_neg (by lia),
        if_neg (by lia), hsame]
      simp only [rewriteSector_take hoff hchunk.page (show chunkOf offset source.length ≤ spare - offset by
        lia)]
      generalize chunkOf offset source.length = chunk at *
      split
      · rfl
      · rename_i t _
        have hle := hchunk.le
        have hmove := hchunk.pos
        have hleft : (source.drop chunk).length = source.length - chunk := List.length_drop
        rw [wrap_of_lt (by lia), List.drop_take, Nat.sub_sub]
        exact ih (Nat.dvd_add hoff hchunk.page) (by rw [hleft]; exact Nat.dvd_sub hlen hchunk.page) hroom
          (by lia) (by lia) (by lia) (by lia)

end

/-! ## The chip's own operations -/

section
variable {c : Chip} {spare offset chunk : Nat} {source : List UInt8}

theorem flashRead_some {off : Nat} (h : off + flashProgBytes ≤ flashTotalBytes) :
    flashRead c off flashProgBytes = (some (readAt c.mem off flashProgBytes), c) := by
  rw [flashRead, if_neg (by lia)]

theorem pageLoop_true (base : Nat) {fetch : Nat → Chip → Option (List UInt8) × Chip}
    (h : ∀ page c, page + flashProgBytes ≤ flashSectorBytes → ∃ data, fetch page c = (some data, c)) (n : Nat)
    {page : Nat} (hpage : page + n * flashProgBytes = flashSectorBytes) (c : Chip) :
    ∃ c', pageLoop flswapAll base fetch n page c = (true, c') := by
  induction n generalizing page c with
  | zero => exact ⟨c, rfl⟩
  | succ n ih =>
    rw [Nat.succ_mul] at hpage
    obtain ⟨data, hdata⟩ := h page c (by lia)
    unfold pageLoop
    rw [hdata]
    exact ih (by lia) _

theorem rewriteSector_true (c : Chip) (source : List UInt8) (chunk : Nat) (hoff : offset < flashTotalBytes)
    (hspare : spare + flashSectorBytes ≤ flashTotalBytes) :
    ∃ c', rewriteSector flswapAll c offset source chunk spare = (true, c') := by
  have hpages : 0 + flashSectorBytes / flashProgBytes * flashProgBytes = flashSectorBytes := by decide
  have hdst : sectorOf offset + flashSectorBytes ≤ flashTotalBytes := by
    unfold sectorOf flashSectorBytes
    unfold flashTotalBytes at *
    lia
  have hold : ∀ page c, page + flashProgBytes ≤ flashSectorBytes →
      ∃ data, fetchOld flswapAll (sectorOf offset) page c = (some data, c) :=
    fun page c hpage => ⟨_, flashRead_some (by lia)⟩
  have hnew : ∀ page c, page + flashProgBytes ≤ flashSectorBytes →
      ∃ data, fetchNew flswapAll (sectorOf offset) spare offset chunk source page c = (some data, c) := by
    intro page c hpage
    unfold fetchNew
    split
    · exact ⟨_, rfl⟩
    · exact ⟨_, flashRead_some (by lia)⟩
  obtain ⟨c₁, hcopy⟩ := pageLoop_true spare hold _ hpages (c.perform (.erase spare flashSectorBytes))
  obtain ⟨c₂, hback⟩ := pageLoop_true (sectorOf offset) hnew _ hpages
    (c₁.perform (.erase (sectorOf offset) flashSectorBytes))
  have hcopied : pageLoop flswapAll spare (fetchOld flswapAll (sectorOf offset))
      (flashSectorBytes / flashProgBytes) 0 (c.perform (.erase spare flashSectorBytes)) = (true, c₁) := hcopy
  refine ⟨c₂, ?_⟩
  simp only [rewriteSector, flswapAll, flswapOps] at hcopied hback ⊢
  rw [hcopied]
  exact hback

theorem rewriteLoop_true (c : Chip) (spare turns : Nat) (hoff : flashProgBytes ∣ offset)
    (hlen : flashProgBytes ∣ source.length) (hturns : source.length ≤ turns)
    (hlow : spare + flashSectorBytes ≤ offset) (htop : offset + source.length ≤ flashTotalBytes) :
    ∃ c', rewriteLoop flswapAll spare turns c offset source = (true, c') := by
  induction turns generalizing c offset source with
  | zero => exact ⟨c, by rw [rewriteLoop, Nat.le_zero.mp hturns]; rfl⟩
  | succ turns ih =>
    unfold rewriteLoop
    split
    · exact ⟨c, rfl⟩
    · rename_i hpos
      have hpast : sectorOf offset ≠ spare := by
        have hhigh := lt_sectorOf offset
        lia
      have hin : offset < flashTotalBytes ∧ spare + flashSectorBytes ≤ flashTotalBytes := by lia
      obtain ⟨c₁, hsector⟩ := rewriteSector_true c source (chunkOf offset source.length) hin.1 hin.2
      have hchunk := chunkOf_spec hoff hlen hpos
      rw [if_neg hpast]
      simp only [hsector]
      generalize chunkOf offset source.length = chunk at *
      have hle := hchunk.le
      have hmove := hchunk.pos
      have hleft : (source.drop chunk).length = source.length - chunk := List.length_drop
      have htotal : flashTotalBytes < 2 ^ 32 := by decide
      rw [wrap_of_lt (by lia)]
      exact ih c₁ (Nat.dvd_add hoff hchunk.page) (by rw [hleft]; exact Nat.dvd_sub hlen hchunk.page) (by lia)
        (by lia) (by lia)

end

/-! ## The function -/

/-- The range is made of pages, the spare sector is a sector, and the range ends below 2^32. -/
structure Placed (offset length spare : Nat) : Prop where
  page : flashProgBytes ∣ offset
  pages : flashProgBytes ∣ length
  sector : flashSectorBytes ∣ spare
  top : offset + length < 2 ^ 32

theorem not_misplaced_iff {offset length spare : Nat} (hoffset : offset < 2 ^ 32) (hlength : length < 2 ^ 32) :
    ¬Misplaced offset length spare ↔ Placed offset length spare := by
  have hpage : ∀ x, x &&& (flashProgBytes - 1) = 0 ↔ flashProgBytes ∣ x := fun x => by
    rw [show x &&& (flashProgBytes - 1) = x % flashProgBytes from and_sub_one_eq_mod x 8]
    exact Nat.dvd_iff_mod_eq_zero.symm
  simp only [Misplaced, not_or, not_not, hpage, and_sector, Nat.not_lt]
  constructor
  · rintro ⟨h₁, h₂, h₃, h₄⟩
    refine ⟨h₁, h₂, h₃, Nat.lt_of_not_le fun htop => ?_⟩
    unfold wrap at h₄
    lia
  · rintro ⟨h₁, h₂, h₃, h₄⟩
    exact ⟨h₁, h₂, h₃, by rw [wrap_of_lt h₄]; lia⟩

/-- What a rewrite does to the chip. -/
structure Rewritten (spare offset : Nat) (source : List UInt8) (c c' : Chip) : Prop where
  target : readAt c'.mem offset source.length = source
  elsewhere : ∀ x, x < offset ∨ offset + source.length ≤ x → Outside spare x → c'.mem x = c.mem x
  legal : Went c c'

section
variable {σ : Type} {ops : RewriteOps σ} {view : σ → Chip} {s s' : σ} {offset spare : Nat}
  {source : List UInt8}

theorem flashSwapRewrite_rewritten (hops : NorDriver ops view) (hoffset : offset < 2 ^ 32)
    (hlength : source.length < 2 ^ 32) (h : flashSwapRewrite ops s offset source spare = (true, s')) :
    Rewritten spare offset source (view s) (view s') := by
  unfold flashSwapRewrite at h
  split at h
  · cases h
  · rename_i hplaced
    obtain ⟨hoff, hlen, hspare, htop⟩ := (not_misplaced_iff hoffset hlength).mp hplaced
    obtain ⟨hwent, hapart, hmem⟩ := rewriteLoop_spec hops hspare _ hoff hlen (Nat.le_refl _) htop
      (Went.refl _) h
    refine ⟨?_, fun x hx hout => ?_, hwent⟩
    · conv_rhs => rw [← readAt_writeAt (view s).mem offset source]
      refine List.map_congr_left fun i hi => ?_
      have hi := List.mem_range.mp hi
      exact hmem _ (hapart _ (by lia) (by lia))
    · rw [hmem x hout, writeAt_outside hx]

theorem flashSwapRewrite_refuses (hoffset : offset < 2 ^ 32) (hlength : source.length < 2 ^ 32)
    (h : ¬Placed offset source.length spare ∨ (source ≠ [] ∧ sectorOf offset = spare)) :
    flashSwapRewrite ops s offset source spare = (false, s) := by
  unfold flashSwapRewrite
  split
  · rfl
  · rename_i hplaced
    obtain ⟨hne, hsector⟩ := h.resolve_left (not_not.mpr ((not_misplaced_iff hoffset hlength).mp hplaced))
    obtain ⟨n, hn⟩ := Nat.exists_eq_succ_of_ne_zero (fun h0 => hne (List.length_eq_zero_iff.mp h0))
    rw [hn, rewriteLoop, if_neg (by lia), if_pos hsector]

theorem flashSwapRewrite_runs_into (h : Placed offset source.length spare) (hbefore : offset < spare)
    (hover : spare < offset + source.length) :
    flashSwapRewrite ops s offset source spare =
      (false, (flashSwapRewrite ops s offset (source.take (spare - offset)) spare).2) := by
  have hpart : (source.take (spare - offset)).length = spare - offset := by
    rw [List.length_take, Nat.min_eq_left (by lia)]
  have htop := h.top
  have hplaced : Placed offset (source.take (spare - offset)).length spare := by
    rw [hpart]
    exact ⟨h.page, Nat.dvd_sub (Nat.dvd_trans (by decide) h.sector) h.page, h.sector, by lia⟩
  rw [flashSwapRewrite, if_neg ((not_misplaced_iff (by lia) (by lia)).mpr h), flashSwapRewrite,
    if_neg ((not_misplaced_iff (by lia) (by lia)).mpr hplaced)]
  exact rewriteLoop_runs_into h.sector _ h.page h.pages (Nat.le_of_lt hbefore) hover htop (Nat.le_refl _)
    (by lia)

end

/-- A range of the swap region, behind its first sector and made of pages. -/
structure InRegion (off length : Nat) : Prop where
  spare : flashSectorBytes ≤ off
  stop : off + length ≤ flashSwapBytes
  offset : flashProgBytes ∣ off
  pages : flashProgBytes ∣ length

theorem flRawBlocks_refuses {c : Chip} {off : Nat} {source : List UInt8}
    (h : ¬InRegion off source.length) : flRawBlocks c off source = (false, c) := by
  unfold flRawBlocks
  split
  · rfl
  · split
    · rfl
    · have hbase : flashSwapOffset = 1703936 := rfl
      have hsize : flashSwapBytes = 393216 := rfl
      refine flashSwapRewrite_refuses (by lia) (by lia) (.inl fun hplaced => h ?_)
      have hoff := (Nat.dvd_add_right (show flashProgBytes ∣ flashSwapOffset by decide)).mp hplaced.page
      exact ⟨by lia, by lia, hoff, hplaced.pages⟩

theorem flRawBlocks_rewrites {c : Chip} {off : Nat} {source : List UInt8} (h : InRegion off source.length) :
    ∃ c', flRawBlocks c off source = (true, c') ∧
      Rewritten flashSwapOffset (flashSwapOffset + off) source c c' := by
  have hbase : flashSwapOffset = 1703936 := rfl
  have hsize : flashSwapBytes = 393216 := rfl
  have htotal : flashTotalBytes = 2097152 := rfl
  obtain ⟨hlow, hstop, hoff, hlen⟩ := h
  have hplaced : Placed (flashSwapOffset + off) source.length flashSwapOffset :=
    ⟨Nat.dvd_add (by decide) hoff, hlen, by decide, by lia⟩
  obtain ⟨c', hloop⟩ := rewriteLoop_true c flashSwapOffset source.length hplaced.page hlen (Nat.le_refl _)
    (by lia) (by lia)
  have hcall : flashSwapRewrite flswapAll c (flashSwapOffset + off) source flashSwapOffset = (true, c') := by
    rw [flashSwapRewrite, if_neg ((not_misplaced_iff (by lia) (by lia)).mpr hplaced), hloop]
  refine ⟨c', ?_, flashSwapRewrite_rewritten flswapAll_nor (by lia) (by lia) hcall⟩
  rw [flRawBlocks, if_neg (by lia), if_neg (by lia), hcall]

/-- **`flash_swap_rewrite` over any operations**: what a success has done, what is refused untouched, and what a
    range that runs into the spare sector comes to; and **`fl_raw`, which lets no range through that
    leaves the region or meets the spare sector**. -/
theorem flash_rewrite {σ : Type} (ops : RewriteOps σ) (view : σ → Chip) (hops : NorDriver ops view) (s : σ)
    (offset spare : Nat) (source : List UInt8) (hoffset : offset < 2 ^ 32) (hlength : source.length < 2 ^ 32) :
    (∀ s', flashSwapRewrite ops s offset source spare = (true, s') →
      Rewritten spare offset source (view s) (view s')) ∧
    (¬Placed offset source.length spare ∨ (source ≠ [] ∧ sectorOf offset = spare) →
      flashSwapRewrite ops s offset source spare = (false, s)) ∧
    (Placed offset source.length spare → offset < spare → spare < offset + source.length →
      flashSwapRewrite ops s offset source spare =
        (false, (flashSwapRewrite ops s offset (source.take (spare - offset)) spare).2)) ∧
    (∀ c off, ¬InRegion off source.length → flRawBlocks c off source = (false, c)) ∧
    ∀ c off, InRegion off source.length → ∃ c', flRawBlocks c off source = (true, c') ∧
      Rewritten flashSwapOffset (flashSwapOffset + off) source c c' :=
  ⟨fun _ h => flashSwapRewrite_rewritten hops hoffset hlength h, flashSwapRewrite_refuses hoffset hlength,
    flashSwapRewrite_runs_into, fun _ _ => flRawBlocks_refuses, fun _ _ => flRawBlocks_rewrites⟩

/-- Two pages, the first below the swap region and the second in its spare sector. -/
def acrossSpare : Bool × Chip :=
  flashSwapRewrite flswapAll ⟨fun _ => 0, []⟩ (flashSwapOffset - 256) (List.replicate 512 1) flashSwapOffset

/-- The call fails, with the spare sector and the one before it erased and programmed. -/
theorem flash_rewrite_touched : acrossSpare.1 = false ∧ acrossSpare.2.log.length = 34 := by decide +kernel

/-- Four pages in the second sector of the region. -/
def oneBlock : Bool × Chip :=
  flashSwapRewrite flswapAll ⟨fun _ => 0, []⟩ (flashSwapOffset + 5120) (List.replicate 1024 7) flashSwapOffset

theorem flash_rewrite_block :
    oneBlock.1 = true ∧ Rewritten flashSwapOffset (flashSwapOffset + 5120) (List.replicate 1024 7)
      ⟨fun _ => 0, []⟩ oneBlock.2 := by
  have hok : oneBlock.1 = true := by decide +kernel
  have hcall : oneBlock = (true, oneBlock.2) := by
    rw [← hok]
  exact ⟨hok, (flash_rewrite flswapAll id flswapAll_nor ⟨fun _ => 0, []⟩ (flashSwapOffset + 5120) flashSwapOffset
    (List.replicate 1024 7) (by decide) (by rw [List.length_replicate]; decide)).1 oneBlock.2 hcall⟩

end DiscoBSD.Flash
