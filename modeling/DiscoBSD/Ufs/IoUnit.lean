import Mathlib.Data.Finset.Card
import Mathlib.Data.Finset.Lattice.Basic
import DiscoBSD.Ufs.Cut

/-!
# Writing a unit

`rwip` of `sys/kern/sys_inode.c` for a write with `IO_UNIT`, with what it makes of the offset and the residual count,
and what it returns. The rollback is behind the loop, and **a `bmap` without space returns from inside it**. A failed
copy gets there, but its error is still pending then, and `itrunc` does nothing for a size that is not one of whole
blocks. The offset of `IO_APPEND` is never put back.

The transfers of the loop succeed. What `syncip` and `ufs_sync` say at its end is given.
-/

set_option autoImplicit false

namespace DiscoBSD.Ufs

/-- `struct uio`, as the loop moves it. -/
structure Uio where
  uio_offset : Int
  uio_resid : Nat
  deriving DecidableEq, Repr

/-- What `uiomove` does to it. -/
def Uio.move (u : Uio) (n : Nat) : Uio := ⟨offT (u.uio_offset + n), u.uio_resid - n⟩

/-- `n` of a turn. -/
def Uio.count (u : Uio) : Nat := min (devBsize - blkoff u.uio_offset) u.uio_resid

/-- What `rwip` returns for a write. -/
inductive WriteError where
  | eperm
  | efbig
  | enospc
  | efault
  | esync
  deriving DecidableEq, Repr

/-- A write with what its callers see: how many bytes a failing copy moves, whether it is to be synchronous, and
    whether it is out on the disk then. -/
structure UnitWrite extends Write where
  part : Nat → Nat
  ioSync : Bool
  flush : Bool

/-- Where the write begins. -/
def UnitWrite.uio (w : UnitWrite) (ip : File) : Uio :=
  ⟨if ip.kind = some .reg ∧ w.ioAppend then ip.i_size else w.offset, w.resid⟩

/-- The loop of `rwip`. -/
def unitLoop (w : UnitWrite) : Nat → Nat → Volume → File → Uio → Wrote × File × Volume × Uio
  | 0, _, v, ip, u => (.all, ip, v, u)
  | turns + 1, t, v, ip, u =>
    match bmap v ip (lblkno u.uio_offset) true (u.count ≠ devBsize) with
    | (.blk bn, ip, v) =>
      let ip := if ip.i_size < offT (u.uio_offset + u.count) then
        { ip with i_size := offT (u.uio_offset + u.count) } else ip
      let v := v.setBlk bn (w.chunk t).1
      if (w.chunk t).2 = false then (.fault, ip, v, u.move (min (w.part t) u.count))
      else if (u.move u.count).uio_resid = 0 then (.all, ip, v, u.move u.count)
      else unitLoop w turns (t + 1) v ip (u.move u.count)
    | (_, ip, v) => (.nospace, ip, v, u)

/-- `rwip`. -/
def rwipUnit (v : Volume) (ip : File) (w : UnitWrite) : Option WriteError × File × Volume × Uio :=
  let u := w.uio ip
  if ip.kind = some .reg ∧ ip.append ∧ u.uio_offset ≠ ip.i_size then (some .eperm, ip, v, u)
  else if u.uio_resid = 0 then (none, ip, v, u)
  else if ip.kind = some .reg ∧ (w.rlim : Int) < (u.uio_offset + u.uio_resid) % 2 ^ 32 then (some .efbig, ip, v, u)
  else
    match unitLoop w w.resid 0 v ip u with
    | (.nospace, ip', v, u') => (some .enospc, ip', v, u')
    | (.fault, ip', v, u') =>
      if w.ioUnit then
        let r := itrunc true v ip' ip.i_size
        (some .efault, r.1, r.2, ⟨offT (u'.uio_offset - (w.resid - u'.uio_resid : Nat)), w.resid⟩)
      else (some .efault, ip', v, u')
    | (.all, ip', v, u') => if w.ioSync ∧ w.flush = false then (some .esync, ip', v, u') else (none, ip', v, u')

/-- The loop does to the file and the volume what the one without the counts does. -/
theorem unitLoop_rwip (w : UnitWrite) (turns t : Nat) (v : Volume) (ip : File) (u : Uio) :
    ((unitLoop w turns t v ip u).1, (unitLoop w turns t v ip u).2.1, (unitLoop w turns t v ip u).2.2.1) =
      rwipLoop w.chunk turns t v ip u.uio_offset u.uio_resid := by
  induction turns generalizing t v ip u with
  | zero => rfl
  | succ turns ih =>
    unfold unitLoop rwipLoop
    dsimp only
    rw [← Uio.count]
    generalize bmap v ip (lblkno u.uio_offset) true (u.count ≠ devBsize) = r
    obtain ⟨x, ip', v'⟩ := r
    cases x with
    | blk bn =>
      dsimp only
      split
      · rfl
      · have hresid : (u.move u.count).uio_resid = u.uio_resid - u.count := rfl
        rw [hresid]
        split
        · rfl
        · exact ih ..
    | none => rfl
    | efbig => rfl

theorem rwipUnit_rwip (v : Volume) (ip : File) (w : UnitWrite) :
    ((rwipUnit v ip w).2.1, (rwipUnit v ip w).2.2.1) = rwip v ip w.toWrite := by
  unfold rwipUnit rwip
  have hu : w.uio ip = ⟨if ip.kind = some .reg ∧ w.ioAppend = true then ip.i_size else w.offset, w.resid⟩ := rfl
  have hloop := unitLoop_rwip w w.resid 0 v ip (w.uio ip)
  rw [hu] at hloop ⊢
  dsimp only at hloop ⊢
  generalize (if ip.kind = some .reg ∧ w.ioAppend = true then ip.i_size else w.offset) = offset at hloop ⊢
  split
  · rfl
  · split
    · rfl
    · split
      · rfl
      · rw [← hloop]
        obtain ⟨x, ip', v', u', hx⟩ : ∃ x ip' v' u', unitLoop w w.resid 0 v ip ⟨offset, w.resid⟩ = (x, ip', v', u') :=
          ⟨_, _, _, _, rfl⟩
        rw [hx]
        cases x with
        | all =>
          dsimp only
          split <;> rfl
        | nospace => rfl
        | fault =>
          dsimp only
          split <;> rfl

/-! ## What the turns need -/

/-- Where the write is after so many turns. -/
def Uio.pos (u : Uio) : Nat → Uio
  | 0 => u
  | t + 1 => (u.pos t).move (u.pos t).count

/-- The block of a turn. -/
def Uio.lbn (u : Uio) (t : Nat) : Nat := lblkno (u.pos t).uio_offset

/-- The size of the file after so many turns. -/
def Uio.sizeAt (u : Uio) (size : Int) : Nat → Int
  | 0 => size
  | t + 1 =>
    if u.sizeAt size t < offT ((u.pos t).uio_offset + (u.pos t).count) then
      offT ((u.pos t).uio_offset + (u.pos t).count) else u.sizeAt size t

/-- The places of the file that so many turns have to fill. -/
def File.places (ip : File) (blk : Nat → Nat → Nat) (u : Uio) : Nat → Finset (Nat × Nat)
  | 0 => ∅
  | t + 1 => ip.places blk u t ∪ (missingOf blk ip.i_addr (u.lbn t)).toFinset

/-- There are not enough free blocks for the turns up to this one. -/
def Short (v : Volume) (ip : File) (u : Uio) (t : Nat) : Prop := v.fs.fs_tfree < (ip.places v.blk u (t + 1)).card

/-- The turns before are through, and the write is not. -/
def Through (v : Volume) (ip : File) (w : UnitWrite) (u : Uio) (t : Nat) : Prop :=
  ∀ i < t, ¬Short v ip u i ∧ (w.chunk i).2 = true ∧ 0 < (u.pos (i + 1)).uio_resid

/-- Size, offset and residual count are as they were, and no block is new beyond the old size. -/
structure Undone (v : Volume) (ip : File) (w : UnitWrite) (r : Option WriteError × File × Volume × Uio) : Prop where
  size : r.2.1.i_size = ip.i_size
  uio : r.2.2.2 = ⟨w.offset, w.resid⟩
  beyond : ∀ m ∈ nodesOf r.2.2.1.blk r.2.1.i_addr, blocksIn ip.i_size ≤ m.first → m ∈ nodesOf v.blk ip.i_addr

/-- What the turn at which the write ends has to be like. -/
structure EndsWell (v : Volume) (ip : File) (w : UnitWrite) (u : Uio) (t : Nat) : Prop where
  short : Short v ip u t → u.uio_offset = w.offset ∧ t = 0 ∧
    ∀ p ∈ (missingOf v.blk ip.i_addr (u.lbn 0)).take v.fs.fs_tfree, p.1 < blocksIn ip.i_size
  fault : ¬Short v ip u t → (w.chunk t).2 = false → u.uio_offset = w.offset ∧
    (ip.i_size < u.sizeAt ip.i_size (t + 1) → blkoff ip.i_size = 0) ∧
    (u.sizeAt ip.i_size (t + 1) = ip.i_size → ∀ p ∈ ip.places v.blk u (t + 1), p.1 < blocksIn ip.i_size)
  done : ¬Short v ip u t → (w.chunk t).2 = true → (u.pos (t + 1)).uio_resid = 0 → w.ioSync = true → w.flush = true

/-- The write is refused for an append-only file, or is empty; or it is refused for its size, and `IO_APPEND` did not
    move it; or it ends well. -/
def Undoable (v : Volume) (ip : File) (w : UnitWrite) : Prop :=
  (ip.append = true ∧ (w.uio ip).uio_offset ≠ ip.i_size) ∨ w.resid = 0 ∨
    if (w.rlim : Int) < ((w.uio ip).uio_offset + w.resid) % 2 ^ 32 then (w.uio ip).uio_offset = w.offset
    else ∀ t, Through v ip w (w.uio ip) t → EndsWell v ip w (w.uio ip) t

section

variable {v v₀ : Volume} {ip ip₀ : File} {l l₀ : List Nat} {w : UnitWrite} {u : Uio} {t : Nat}

theorem count_pos (h : 0 < u.uio_resid) : 0 < u.count := by
  unfold Uio.count blkoff devBsize
  omega

theorem sizeAt_le (size : Int) : size ≤ u.sizeAt size t := by
  induction t with
  | zero => exact Int.le_refl _
  | succ t ih =>
    unfold Uio.sizeAt
    split <;> omega

/-- Every turn that is through moved something. -/
theorem pos_resid (h : Through v ip w u t) (hr : 0 < u.uio_resid) :
    0 < (u.pos t).uio_resid ∧ (0 < t → (u.pos t).uio_resid < u.uio_resid) := by
  induction t with
  | zero => exact ⟨hr, fun h => absurd h (Nat.lt_irrefl 0)⟩
  | succ t ih =>
    obtain ⟨hpos, hlt⟩ := ih fun i hi => h i (Nat.lt_succ_of_lt hi)
    refine ⟨(h t (Nat.lt_succ_self t)).2.2, fun _ => ?_⟩
    have hmoved := count_pos hpos
    have hle : (u.pos t).uio_resid ≤ u.uio_resid := by
      rcases Nat.eq_zero_or_pos t with rfl | ht
      · exact Nat.le_refl _
      · exact Nat.le_of_lt (hlt ht)
    have hstep : (u.pos (t + 1)).uio_resid = (u.pos t).uio_resid - (u.pos t).count := rfl
    omega

/-- The state of the loop before turn `t`, against that at its beginning. -/
structure Going (v₀ : Volume) (ip₀ : File) (l₀ : List Nat) (u : Uio) (t : Nat) (v : Volume) (ip : File) (l : List Nat) :
    Prop where
  owned : Owned v l (treeOf v.blk ip.i_addr)
  size : ip.i_size = u.sizeAt ip₀.i_size t
  pipe : ip.pipe = ip₀.pipe
  free : l.length + (ip₀.places v₀.blk u t).card = l₀.length
  sub : ∀ b ∈ l, b ∈ l₀
  grows : ∀ m ∈ nodesOf v₀.blk ip₀.i_addr, m ∈ nodesOf v.blk ip.i_addr
  path : ∀ m ∈ nodesOf v.blk ip.i_addr, m ∈ nodesOf v₀.blk ip₀.i_addr ∨ m.place ∈ ip₀.places v₀.blk u t
  hung : ∀ p ∈ ip₀.places v₀.blk u t, ∃ m ∈ nodesOf v.blk ip.i_addr, m.place = p ∧ m.block ∈ l₀

/-- What a later turn misses is what it missed at the beginning, less what the turns have filled. -/
theorem Going.missing (h : Going v₀ ip₀ l₀ u t v ip l) (bn : Nat) (p : Nat × Nat) :
    p ∈ missingOf v.blk ip.i_addr bn ↔ p ∈ missingOf v₀.blk ip₀.i_addr bn ∧ p ∉ ip₀.places v₀.blk u t := by
  rw [mem_missingOf, @mem_missingOf v₀.blk, and_assoc]
  refine and_congr_right fun _ => ⟨fun hno => ⟨fun m hm => hno m (h.grows m hm), fun hp => ?_⟩, fun hno m hm heq => ?_⟩
  · obtain ⟨m, hm, heq, -⟩ := h.hung p hp
    exact hno m hm heq
  · rcases h.path m hm with hold | hplace
    · exact hno.1 m hold heq
    · exact hno.2 (heq ▸ hplace)

/-- And so is their number. -/
theorem Going.card (h : Going v₀ ip₀ l₀ u t v ip l) : (ip₀.places v₀.blk u (t + 1)).card =
    (ip₀.places v₀.blk u t).card + (missingOf v.blk ip.i_addr (u.lbn t)).length := by
  have hset : (missingOf v.blk ip.i_addr (u.lbn t)).toFinset =
      (missingOf v₀.blk ip₀.i_addr (u.lbn t)).toFinset \ ip₀.places v₀.blk u t := by
    ext p
    rw [Finset.mem_sdiff, List.mem_toFinset, List.mem_toFinset]
    exact h.missing _ p
  rw [← List.toFinset_card_of_nodup (missingOf_nodup ..), hset, File.places, Finset.union_comm,
    ← Finset.card_sdiff_add_card, Nat.add_comm]

theorem Going.first (h : Owned v₀ l₀ (treeOf v₀.blk ip₀.i_addr)) : Going v₀ ip₀ l₀ u 0 v₀ ip₀ l₀ where
  owned := h
  size := rfl
  pipe := rfl
  free := rfl
  sub := fun _ => id
  grows := fun _ => id
  path := fun _ => .inl
  hung := fun p hp => absurd hp (Finset.notMem_empty p)

/-- **A turn finds its block** exactly if there are enough free ones, and fills the places it misses. -/
theorem Going.turn (h : Going v₀ ip₀ l₀ u t v ip l) (clr : Bool) :
    (l₀.length < (ip₀.places v₀.blk u (t + 1)).card ∧ ∃ ip' v', bmap v ip (u.lbn t) true clr = (.none, ip', v') ∧
      ip'.i_size = ip.i_size ∧ Remaps v l ip.i_addr (u.lbn t) (.nospace, ip', v') l.length) ∨
    ((ip₀.places v₀.blk u (t + 1)).card ≤ l₀.length ∧ ∃ b ip' v', bmap v ip (u.lbn t) true clr = (.blk b, ip', v') ∧
      ∀ data, Going v₀ ip₀ l₀ u (t + 1) (v'.setBlk b data)
        (if ip'.i_size < offT ((u.pos t).uio_offset + (u.pos t).count) then
          { ip' with i_size := offT ((u.pos t).uio_offset + (u.pos t).count) } else ip')
        (l.drop (missingOf v.blk ip.i_addr (u.lbn t)).length)) := by
  have hcard := h.card
  have hfree := h.free
  obtain ⟨addr, hfile⟩ := bmap_file v ip (u.lbn t) true clr
  obtain ⟨x, ip', v', hx⟩ : ∃ x ip' v', bmap v ip (u.lbn t) true clr = (x, ip', v') := ⟨_, _, _, rfl⟩
  have hplain := @bmap_plain v ip l (u.lbn t) h.owned clr (slot_lblkno _)
  rw [hx] at hplain hfile
  rw [hx]
  simp only at hfile hplain
  rcases hplain with ⟨b, j, rfl, hr⟩ | ⟨j, rfl, hr⟩
  · obtain ⟨hfound, hbz, hj⟩ := hr.found b rfl
    have hbound := hr.bound
    refine .inr ⟨by omega, b, ip', v', rfl, fun data => ?_⟩
    obtain ⟨ip₂, hip, haddr, hsize, hpipe⟩ : ∃ ip₂ : File,
        (if ip'.i_size < offT ((u.pos t).uio_offset + (u.pos t).count) then
          { ip' with i_size := offT ((u.pos t).uio_offset + (u.pos t).count) } else ip') = ip₂ ∧
        ip₂.i_addr = ip'.i_addr ∧ ip₂.i_size = u.sizeAt ip₀.i_size (t + 1) ∧ ip₂.pipe = ip₀.pipe := by
      have hold : ip'.i_size = u.sizeAt ip₀.i_size t := by rw [hfile, ← h.size]
      have hpipe : ip'.pipe = ip₀.pipe := by rw [hfile, ← h.pipe]
      rw [Uio.sizeAt, ← hold]
      split
      · exact ⟨_, rfl, rfl, rfl, hpipe⟩
      · exact ⟨_, rfl, rfl, rfl, hpipe⟩
    rw [hip]
    have hown₁ := h.owned.moves hr.moves
    simp only at hown₁ hfound
    subst hfound
    have hnodes : nodesOf (v'.setBlk (lookup v'.blk ip'.i_addr (u.lbn t)) data).blk ip₂.i_addr =
        nodesOf v'.blk ip'.i_addr := by
      rw [haddr]
      exact nodesOf_write (List.nodup_append.mp hown₁.nodup).2.1 hbz data
    have hleaf : lookup v'.blk ip'.i_addr (u.lbn t) ∈ treeOf v'.blk ip'.i_addr := by
      rw [← nodesOf_blocks]
      exact List.mem_map_of_mem (mem_nodesOf.mpr ⟨rfl, hbz⟩)
    have hown₂ := hown₁.moves (setBlk_moves hown₁ hleaf data)
    rw [hj]
    refine ⟨?_, hsize, hpipe, ?_, fun b hb => h.sub b (List.mem_of_mem_drop hb), fun m hm => ?_, fun m hm => ?_,
      fun p hp => ?_⟩
    · rw [← nodesOf_blocks, hnodes, nodesOf_blocks]
      exact hown₂
    · rw [List.length_drop, hcard, hj]
      omega
    · rw [hnodes]
      exact hr.grows m (h.grows m hm)
    · rw [hnodes] at hm
      rw [File.places, Finset.mem_union, List.mem_toFinset]
      rcases hr.path m hm with hold | ⟨-, hplace⟩
      · exact (h.path m hold).imp_right .inl
      · exact .inr (.inr ((h.missing _ _).mp (List.mem_of_mem_take hplace)).1)
    · rw [hnodes]
      by_cases hold : p ∈ ip₀.places v₀.blk u t
      · obtain ⟨m, hm, hplace⟩ := h.hung p hold
        exact ⟨m, hr.grows m hm, hplace⟩
      · rw [File.places, Finset.mem_union, List.mem_toFinset] at hp
        have hmiss := (h.missing _ p).mpr ⟨hp.resolve_left hold, hold⟩
        obtain ⟨m, hm, hplace, hbl⟩ := hr.hung p (by rwa [List.take_of_length_le (Nat.le_of_eq hj)])
        exact ⟨m, hm, hplace, h.sub _ hbl⟩
  · obtain ⟨hj, hshort⟩ := hr.dry rfl
    exact .inl ⟨by omega, ip', v', rfl, by rw [hfile], hj ▸ hr⟩

/-- How the loop ends at turn `t`: without space, with the size and the blocks of the turns before; with a failed copy,
    with the size and the blocks of its own; or through. -/
inductive Ends (v : Volume) (ip : File) (l : List Nat) (w : UnitWrite) (u : Uio) (t : Nat) :
    Wrote × File × Volume × Uio → Prop where
  | nospace {ip₁ ip' : File} {v₁ v' : Volume} {l₁ : List Nat} (hg : Going v ip l u t v₁ ip₁ l₁) (hs : Short v ip u t)
      (hsize : ip'.i_size = ip₁.i_size)
      (hr : Remaps v₁ l₁ ip₁.i_addr (u.lbn t) (.nospace, ip', v') l₁.length) (hfirst : t = 0 → v₁ = v ∧ ip₁ = ip ∧ l₁ = l) :
      Ends v ip l w u t (.nospace, ip', v', u.pos t)
  | fault {ip' : File} {v' : Volume} {l' : List Nat} {n : Nat} (hs : ¬Short v ip u t) (hf : (w.chunk t).2 = false)
      (hg : Going v ip l u (t + 1) v' ip' l') (hn : n ≤ (u.pos t).count) :
      Ends v ip l w u t (.fault, ip', v', (u.pos t).move n)
  | all {ip' : File} {v' : Volume} (hs : ¬Short v ip u t) (hf : (w.chunk t).2 = true)
      (hz : (u.pos (t + 1)).uio_resid = 0) : Ends v ip l w u t (.all, ip', v', u.pos (t + 1))

/-- **The loop ends at a turn**, all those before being through. -/
theorem unitLoop_ends (hown : Owned v₀ l₀ (treeOf v₀.blk ip₀.i_addr)) (turns t : Nat)
    (hg : Going v₀ ip₀ l₀ u t v ip l) (hfirst : t = 0 → v = v₀ ∧ ip = ip₀ ∧ l = l₀) (ht : Through v₀ ip₀ w u t)
    (hr : 0 < (u.pos t).uio_resid) (hle : (u.pos t).uio_resid ≤ turns) :
    ∃ t', Through v₀ ip₀ w u t' ∧ Ends v₀ ip₀ l₀ w u t' (unitLoop w turns t v ip (u.pos t)) := by
  have hfree : v₀.fs.fs_tfree = l₀.length := hown.refines.count
  induction turns generalizing t v ip l with
  | zero => omega
  | succ turns ih =>
    unfold unitLoop
    rcases hg.turn ((u.pos t).count ≠ devBsize) with ⟨hshort, ip', v', hb, hsize, hm⟩ | ⟨hroom, b, ip', v', hb, hnext⟩
    · rw [← Uio.lbn, hb]
      refine ⟨t, ht, .nospace hg (by rwa [Short, hfree]) hsize hm hfirst⟩
    · rw [← Uio.lbn, hb]
      have hs : ¬Short v₀ ip₀ u t := by
        rw [Short, hfree]
        omega
      dsimp only
      cases hok : (w.chunk t).2 with
      | false =>
        rw [if_pos rfl]
        exact ⟨t, ht, .fault hs hok (hnext _) (Nat.min_le_right _ _)⟩
      | true =>
        simp only [Bool.true_eq_false, if_false]
        have hpos : (u.pos t).move (u.pos t).count = u.pos (t + 1) := rfl
        rw [hpos]
        split
        · next hz => exact ⟨t, ht, .all hs hok hz⟩
        · next hnz =>
          have hmoved := count_pos hr
          have hstep : (u.pos (t + 1)).uio_resid = (u.pos t).uio_resid - (u.pos t).count := rfl
          refine ih (t + 1) (hnext _) (fun h0 => absurd h0 (Nat.succ_ne_zero t)) (fun i hi => ?_) (by omega) (by omega)
          rcases Nat.lt_succ_iff_lt_or_eq.mp hi with hlt | rfl
          · exact ht i hlt
          · exact ⟨hs, hok, by omega⟩

/-- The turn at which the write ends is the only one. -/
theorem Through.unique {t' : Nat} (h : Through v ip w u t) (h' : Through v ip w u t')
    (he : Short v ip u t ∨ (w.chunk t).2 = false ∨ (u.pos (t + 1)).uio_resid = 0)
    (he' : Short v ip u t' ∨ (w.chunk t').2 = false ∨ (u.pos (t' + 1)).uio_resid = 0) : t = t' := by
  have hlt : ∀ {a b : Nat}, Through v ip w u b → (Short v ip u a ∨ (w.chunk a).2 = false ∨
      (u.pos (a + 1)).uio_resid = 0) → ¬ a < b := by
    intro a b hb ha hab
    obtain ⟨h₁, h₂, h₃⟩ := hb a hab
    rcases ha with ha | ha | ha
    · exact h₁ ha
    · rw [h₂] at ha
      cases ha
    · omega
  have := hlt h' he
  have := hlt h he'
  omega

/-! ## The rollback -/

theorem offT_self {n : Int} (h : -2 ^ 31 ≤ n) (h' : n < 2 ^ 31) : offT n = n := by
  unfold offT
  rw [Int.bmod_def]
  split <;> omega

/-- What was moved leads back to where the write began. -/
theorem pos_back (u : Uio) (t : Nat) : (u.pos t).uio_resid ≤ u.uio_resid ∧
    offT ((u.pos t).uio_offset - (u.uio_resid - (u.pos t).uio_resid : Nat)) = offT u.uio_offset := by
  induction t with
  | zero =>
    refine ⟨Nat.le_refl _, ?_⟩
    simp only [Uio.pos, Nat.sub_self, Nat.cast_zero, Int.sub_zero]
  | succ t ih =>
    obtain ⟨hle, hback⟩ := ih
    have hcount : (u.pos t).count ≤ (u.pos t).uio_resid := Nat.min_le_right _ _
    simp only [Uio.pos, Uio.move]
    refine ⟨by omega, ?_⟩
    rw [← hback]
    unfold offT
    rw [Int.bmod_sub_bmod]
    congr 1
    omega

theorem move_back (u : Uio) (t : Nat) {n : Nat} (hn : n ≤ (u.pos t).count) :
    offT (((u.pos t).move n).uio_offset - (u.uio_resid - ((u.pos t).move n).uio_resid : Nat)) = offT u.uio_offset := by
  obtain ⟨hle, hback⟩ := pos_back u t
  have hcount : (u.pos t).count ≤ (u.pos t).uio_resid := Nat.min_le_right _ _
  simp only [Uio.move]
  rw [← hback]
  unfold offT
  rw [Int.bmod_sub_bmod]
  congr 1
  omega

/-- New blocks are on the free list, and in places that were to be filled. -/
theorem beyond_iff {v' : Volume} {ip' : File} {n : Nat} {S : Nat × Nat → Prop} (h : Owned v l (treeOf v.blk ip.i_addr))
    (hpath : ∀ m ∈ nodesOf v'.blk ip'.i_addr, m ∈ nodesOf v.blk ip.i_addr ∨ S m.place)
    (hhung : ∀ p, S p → ∃ m ∈ nodesOf v'.blk ip'.i_addr, m.place = p ∧ m.block ∈ l) :
    (∀ m ∈ nodesOf v'.blk ip'.i_addr, n ≤ m.first → m ∈ nodesOf v.blk ip.i_addr) ↔ ∀ p, S p → p.1 < n := by
  constructor
  · intro hall p hp
    obtain ⟨m, hm, rfl, hbl⟩ := hhung p hp
    by_contra hge
    have hold := hall m hm (Nat.not_lt.mp hge)
    have hin : m.block ∈ treeOf v.blk ip.i_addr := by
      rw [← nodesOf_blocks]
      exact List.mem_map_of_mem hold
    exact (List.nodup_append.mp h.nodup).2.2 _ hbl _ hin rfl
  · intro hall m hm hle
    exact (hpath m hm).resolve_right fun hp => Nat.not_lt_of_le hle (hall _ hp)

/-- **The truncation after a failed copy**: nothing for a file that did not grow, nothing either if the old size is not
    one of whole blocks, and else the file has that size again and no block beyond it. -/
theorem itrunc_pending (size : Int) (h : Owned v l (treeOf v.blk ip.i_addr)) (hp : ip.pipe = false) (h0 : 0 ≤ size)
    (hmax : size < 2 ^ 31) :
    (size = ip.i_size → itrunc true v ip size = (ip, v)) ∧
    (size < ip.i_size → blkoff size ≠ 0 → (itrunc true v ip size).1.i_size = ip.i_size) ∧
    (size < ip.i_size → blkoff size = 0 → (itrunc true v ip size).1.i_size = size ∧
      ∀ m ∈ nodesOf (itrunc true v ip size).2.blk (itrunc true v ip size).1.i_addr, m.first < blocksIn size) := by
  have hext : ip.extent = ip.i_size := by
    rw [File.extent, hp]
    rfl
  have hfull : ip.full = ip := by
    rw [File.full, hp]
    rfl
  refine ⟨fun heq => ?_, fun hlt hoff => ?_, fun hlt hoff => ?_⟩
  · unfold itrunc
    rw [if_neg (Int.not_lt.mpr h0), if_pos ⟨hp, heq.symm⟩]
  · obtain ⟨addr, hfile⟩ := bmap_file v ip (lblkno size) true true
    rw [itrunc_below h0 (by rw [hext]; exact hlt), if_pos hoff, hfull]
    generalize bmap v ip (lblkno size) true true = r at hfile ⊢
    obtain ⟨x, ip', v'⟩ := r
    simp only at hfile
    subst hfile
    cases x <;> rfl
  · rw [itrunc_below h0 (by rw [hext]; exact hlt), if_neg (by simpa using hoff), hfull]
    exact ⟨shrink_size .., fun m hm => ((shrink_truncated h0 hmax h).kept m).mp hm |>.2⟩

/-- There was no space at turn `t`. -/
theorem undone_nospace {ip₁ ip' : File} {v₁ v' : Volume} {l₁ : List Nat} (h : Owned v l (treeOf v.blk ip.i_addr))
    (ht : Through v ip w (w.uio ip) t) (hz : 0 < w.resid)
    (huio : w.uio ip = ⟨w.offset, w.resid⟩ ↔ (w.uio ip).uio_offset = w.offset)
    (hg : Going v ip l (w.uio ip) t v₁ ip₁ l₁) (hs : Short v ip (w.uio ip) t) (hsize : ip'.i_size = ip₁.i_size)
    (hr : Remaps v₁ l₁ ip₁.i_addr ((w.uio ip).lbn t) (.nospace, ip', v') l₁.length)
    (hfirst : t = 0 → v₁ = v ∧ ip₁ = ip ∧ l₁ = l) :
    (some WriteError.enospc ≠ none → Undone v ip w (some .enospc, ip', v', (w.uio ip).pos t)) ↔
      EndsWell v ip w (w.uio ip) t := by
  have hfree : v.fs.fs_tfree = l.length := h.refines.count
  have hbeyond : t = 0 → ((∀ m ∈ nodesOf v'.blk ip'.i_addr, blocksIn ip.i_size ≤ m.first → m ∈ nodesOf v.blk ip.i_addr) ↔
      ∀ p ∈ (missingOf v.blk ip.i_addr ((w.uio ip).lbn 0)).take v.fs.fs_tfree, p.1 < blocksIn ip.i_size) := by
    rintro rfl
    obtain ⟨rfl, rfl, rfl⟩ := hfirst rfl
    rw [hfree]
    exact beyond_iff h (fun m hm => (hr.path m hm).imp_right And.right) hr.hung
  constructor
  · intro hundone
    have hd := hundone (by simp)
    refine ⟨fun _ => ?_, fun hc => absurd hs hc, fun hc => absurd hs hc⟩
    have ht0 : t = 0 := by
      by_contra hne
      have hlt := (pos_resid ht hz).2 (Nat.pos_of_ne_zero hne)
      have heq : ((w.uio ip).pos t).uio_resid = w.resid := congrArg Uio.uio_resid hd.uio
      rw [heq] at hlt
      exact Nat.lt_irrefl _ hlt
    have heq := hd.uio
    simp only [ht0, Uio.pos] at heq
    exact ⟨huio.mp heq, ht0, (hbeyond ht0).mp hd.beyond⟩
  · intro hw _
    obtain ⟨hoff, ht0, hplaces⟩ := hw.short hs
    refine ⟨?_, ?_, (hbeyond ht0).mpr hplaces⟩
    · simp only [hsize]
      rw [(hfirst ht0).2.1]
    · simp only [ht0, Uio.pos]
      exact huio.mpr hoff

/-- A copy failed at turn `t`. -/
theorem undone_fault {ip' : File} {v' : Volume} {l' : List Nat} {n : Nat} (h : Owned v l (treeOf v.blk ip.i_addr))
    (hp : ip.pipe = false) (h0 : 0 ≤ ip.i_size) (hmax : ip.i_size < 2 ^ 31)
    (hin : offT (w.uio ip).uio_offset = (w.uio ip).uio_offset) (hs : ¬Short v ip (w.uio ip) t)
    (hf : (w.chunk t).2 = false) (hg : Going v ip l (w.uio ip) (t + 1) v' ip' l') (hn : n ≤ ((w.uio ip).pos t).count) :
    (some WriteError.efault ≠ none → Undone v ip w (some .efault, (itrunc true v' ip' ip.i_size).1,
        (itrunc true v' ip' ip.i_size).2, ⟨offT ((((w.uio ip).pos t).move n).uio_offset -
          (w.resid - (((w.uio ip).pos t).move n).uio_resid : Nat)), w.resid⟩)) ↔
      EndsWell v ip w (w.uio ip) t := by
  have hback : offT ((((w.uio ip).pos t).move n).uio_offset -
      (w.resid - (((w.uio ip).pos t).move n).uio_resid : Nat)) = (w.uio ip).uio_offset := (move_back _ t hn).trans hin
  rw [hback]
  obtain ⟨hsame, hpart, hwhole⟩ := itrunc_pending ip.i_size hg.owned (hg.pipe.trans hp) h0 hmax
  have hgrown := hg.size
  have hle : ip.i_size ≤ (w.uio ip).sizeAt ip.i_size (t + 1) := sizeAt_le _
  have hbeyond : (∀ m ∈ nodesOf v'.blk ip'.i_addr, blocksIn ip.i_size ≤ m.first → m ∈ nodesOf v.blk ip.i_addr) ↔
      ∀ p ∈ ip.places v.blk (w.uio ip) (t + 1), p.1 < blocksIn ip.i_size := beyond_iff h hg.path hg.hung
  constructor
  · intro hundone
    have hd := hundone (by simp)
    refine ⟨fun hc => absurd hc hs, fun _ _ => ⟨congrArg Uio.uio_offset hd.uio, fun hlt => ?_, fun heq => ?_⟩,
      fun _ hc => absurd (hf.symm.trans hc) (by simp)⟩
    · by_contra hoff
      rw [← hgrown] at hlt
      have hbad := hd.size
      simp only [hpart hlt hoff] at hbad
      omega
    · have hkeep := hd.beyond
      rw [← hgrown] at heq
      simp only [hsame heq.symm] at hkeep
      exact hbeyond.mp hkeep
  · intro hw _
    obtain ⟨hoff, haligned, hplaces⟩ := hw.fault hs hf
    rcases Int.lt_or_eq_of_le hle with hlt | heq
    · have hcut := haligned hlt
      rw [← hgrown] at hlt
      obtain ⟨hsize, hnodes⟩ := hwhole hlt hcut
      exact ⟨hsize, congrArg (Uio.mk · w.resid) hoff, fun m hm hge => absurd (hnodes m hm) (Nat.not_lt_of_le hge)⟩
    · have hkeep := hbeyond.mpr (hplaces heq.symm)
      rw [← hgrown] at heq
      rw [hsame heq]
      exact ⟨heq.symm, congrArg (Uio.mk · w.resid) hoff, hkeep⟩

/-- All turns are through. -/
theorem undone_all {ip' : File} {v' : Volume} (hz : w.resid ≠ 0) (hs : ¬Short v ip (w.uio ip) t)
    (hf : (w.chunk t).2 = true) (hr : ((w.uio ip).pos (t + 1)).uio_resid = 0) :
    ((if w.ioSync = true ∧ w.flush = false then
        (some WriteError.esync, ip', v', (w.uio ip).pos (t + 1)) else (none, ip', v', (w.uio ip).pos (t + 1))).1 ≠ none →
      Undone v ip w (if w.ioSync = true ∧ w.flush = false then
        (some .esync, ip', v', (w.uio ip).pos (t + 1)) else (none, ip', v', (w.uio ip).pos (t + 1)))) ↔
      EndsWell v ip w (w.uio ip) t := by
  by_cases hflush : w.ioSync = true ∧ w.flush = false
  · rw [if_pos hflush]
    constructor
    · intro hundone
      have heq : ((w.uio ip).pos (t + 1)).uio_resid = w.resid := congrArg Uio.uio_resid (hundone (by simp)).uio
      exact absurd (heq.symm.trans hr) hz
    · intro hw
      have hgood := hw.done hs hf hr hflush.1
      rw [hflush.2] at hgood
      cases hgood
  · rw [if_neg hflush]
    refine ⟨fun _ => ⟨fun hc => absurd hc hs, fun _ hc => absurd (hf.symm.trans hc) (by simp), fun _ _ _ hsync => ?_⟩,
      fun _ hc => absurd rfl hc⟩
    cases hb : w.flush with
    | true => rfl
    | false => exact absurd ⟨hsync, hb⟩ hflush

/-- **A write of a unit that fails leaves everything as it was** exactly if it fails before it begins, and not after
    `IO_APPEND` moved it; at its first block, with nothing hung in beyond the end; or by a failed copy, while the file
    still has its size or the size is one of whole blocks. -/
theorem rwipUnit_undone (h : Owned v l (treeOf v.blk ip.i_addr)) (hk : ip.kind = some .reg) (hu : w.ioUnit = true)
    (hp : ip.pipe = false) (h0 : 0 ≤ ip.i_size) (hmax : ip.i_size < 2 ^ 31) (ho : -2 ^ 31 ≤ w.offset)
    (ho' : w.offset < 2 ^ 31) :
    ((rwipUnit v ip w).1 ≠ none → Undone v ip w (rwipUnit v ip w)) ↔ Undoable v ip w := by
  have hresid : (w.uio ip).uio_resid = w.resid := rfl
  have hin : offT (w.uio ip).uio_offset = (w.uio ip).uio_offset := by
    unfold UnitWrite.uio
    dsimp only
    split
    · exact offT_self (by omega) hmax
    · exact offT_self ho ho'
  have huio : w.uio ip = ⟨w.offset, w.resid⟩ ↔ (w.uio ip).uio_offset = w.offset :=
    ⟨fun he => congrArg Uio.uio_offset he, fun he => by rw [← he]; rfl⟩
  have hnone : ∀ {e}, Undone v ip w (some e, ip, v, w.uio ip) ↔ (w.uio ip).uio_offset = w.offset := fun {e} =>
    ⟨fun hd => huio.mp hd.uio, fun he => ⟨rfl, huio.mpr he, fun m hm _ => hm⟩⟩
  unfold rwipUnit Undoable
  simp only [hk, true_and]
  by_cases hperm : ip.append = true ∧ (w.uio ip).uio_offset ≠ ip.i_size
  · rw [if_pos hperm]
    refine ⟨fun _ => .inl hperm, fun _ _ => hnone.mpr ?_⟩
    have hne := hperm.2
    unfold UnitWrite.uio at hne ⊢
    dsimp only at hne ⊢
    split at hne
    · exact absurd rfl hne
    · next hno => rw [if_neg hno]
  · rw [if_neg hperm]
    by_cases hz : w.resid = 0
    · rw [hresid, if_pos hz]
      exact ⟨fun _ => .inr (.inl hz), fun _ hc => absurd rfl hc⟩
    · rw [hresid, if_neg hz]
      simp only [hperm, hz, false_or]
      by_cases hlim : (w.rlim : Int) < ((w.uio ip).uio_offset + w.resid) % 2 ^ 32
      · rw [if_pos hlim, if_pos hlim, hnone]
        exact ⟨fun hc => hc (by simp), fun hc _ => hc⟩
      · rw [if_neg hlim, if_neg hlim]
        obtain ⟨t, ht, hends⟩ := unitLoop_ends (w := w) (u := w.uio ip) h w.resid 0 (Going.first h)
          (fun _ => ⟨rfl, rfl, rfl⟩) (fun i hi => absurd hi (Nat.not_lt_zero i)) (Nat.pos_of_ne_zero hz) (Nat.le_refl _)
        have honly : (Short v ip (w.uio ip) t ∨ (w.chunk t).2 = false ∨ ((w.uio ip).pos (t + 1)).uio_resid = 0) →
            (EndsWell v ip w (w.uio ip) t ↔ ∀ t, Through v ip w (w.uio ip) t → EndsWell v ip w (w.uio ip) t) := by
          intro he
          refine ⟨fun hw t' ht' => ?_, fun hall => hall t ht⟩
          by_cases he' : Short v ip (w.uio ip) t' ∨ (w.chunk t').2 = false ∨ ((w.uio ip).pos (t' + 1)).uio_resid = 0
          · rwa [← ht.unique ht' he he']
          · rw [not_or, not_or] at he'
            obtain ⟨h₁, h₂, h₃⟩ := he'
            exact ⟨fun hc => absurd hc h₁, fun _ hc => absurd hc h₂, fun _ _ hc => absurd hc h₃⟩
        have hloop : Ends v ip l w (w.uio ip) t (unitLoop w w.resid 0 v ip (w.uio ip)) := hends
        generalize unitLoop w w.resid 0 v ip (w.uio ip) = r at hloop ⊢
        cases hloop with
        | nospace hg hs hsize hr hfirst =>
          rw [← honly (.inl hs)]
          exact undone_nospace h ht (Nat.pos_of_ne_zero hz) huio hg hs hsize hr hfirst
        | fault hs hf hg hn =>
          rw [← honly (.inr (.inl hf))]
          simp only [hu, if_true]
          exact undone_fault h hp h0 hmax hin hs hf hg hn
        | all hs hf hr =>
          rw [← honly (.inr (.inr hr))]
          exact undone_all hz hs hf hr

end

/-- A file of 100 bytes that are a hole. -/
def smallFile : File := ⟨some .reg, 1, 100, fun _ => 0, false, false⟩

theorem smallFile_owned : Owned oneBlock.vol [2] (treeOf oneBlock.vol.blk smallFile.i_addr) := holes_owned

/-- A byte at its end, from a page that is not there. -/
def badByte (rlim : Nat) : UnitWrite where
  toWrite := ⟨100, 1, false, true, rlim, fun _ => (fun _ => 0, false)⟩
  part := fun _ => 0
  ioSync := false
  flush := true

/-- The file has 101 bytes after the failed write. -/
theorem rwipUnit_undone_grown : (rwipUnit oneBlock.vol smallFile (badByte (2 ^ 31 - 1))).1 = some .efault ∧
    ¬Undone oneBlock.vol smallFile (badByte (2 ^ 31 - 1)) (rwipUnit oneBlock.vol smallFile (badByte (2 ^ 31 - 1))) :=
  ⟨by decide +kernel, fun h => absurd h.size (by decide +kernel)⟩

/-- It keeps its 100 if that is as much as it may have. -/
theorem rwipUnit_undone_limit : (rwipUnit oneBlock.vol smallFile (badByte 100)).1 = some .efbig ∧
    Undone oneBlock.vol smallFile (badByte 100) (rwipUnit oneBlock.vol smallFile (badByte 100)) := by
  have hlimit : Undoable oneBlock.vol smallFile (badByte 100) := by
    refine .inr (.inr ?_)
    rw [if_pos (by decide)]
    rfl
  have hundone := @rwipUnit_undone _ _ _ (badByte 100) smallFile_owned rfl rfl rfl (by decide) (by decide) (by decide)
    (by decide)
  exact ⟨by decide +kernel, hundone.mpr hlimit (by decide +kernel)⟩

end DiscoBSD.Ufs
