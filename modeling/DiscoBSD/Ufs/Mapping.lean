import DiscoBSD.Ufs.Lookup

/-!
# bmap on a device that fails

`bmap` of `sys/kern/ufs_bmap.c` with every way it can fail: no space, a block of pointers that cannot be read, a new
block that cannot be written. **A block is initialized before a pointer leads to it**, and one whose write failed goes
back to the free list. What was hung into the tree before stays there.

The transfers of `balloc` and `free` succeed. `rablock` is left out.
-/

set_option autoImplicit false

namespace DiscoBSD.Ufs

/-- Which blocks can be read and written. -/
structure Device where
  reads : Nat → Bool
  writes : Nat → Bool

/-- How `bmap` is called: `rwflg`, `B_SYNC` and `B_CLRBUF` of `flags`, and `MNT_ASYNC` of the mount. -/
structure BmapCall where
  write : Bool
  sync : Bool
  clrbuf : Bool
  mnt_async : Bool

/-- `async`. -/
def BmapCall.async (c : BmapCall) : Bool := c.mnt_async && !c.sync

/-- What `bmap` returns: a block, -1 for a hole, -1 with an error, or 0 with one. -/
inductive Mapping where
  | blk (nb : Nat)
  | hole
  | nospace
  | unwritten
  | efbig
  | unread
  deriving DecidableEq, Repr

/-- A block is allocated and initialized, by a write that is waited for or a delayed one. `write_failed` frees it. -/
def Volume.fresh (v : Volume) (dev : Device) (wait clrbuf : Bool) : Mapping × Volume :=
  match v.balloc clrbuf with
  | (none, v) => (.nospace, v)
  | (some nb, v) => if wait = true ∧ dev.writes nb = false then (.unwritten, v.free nb) else (.blk nb, v)

namespace Device

/-- `for(;j <= 3;j++)`, from an indirect block with `k` levels of pointers on. -/
def fetch (dev : Device) (c : BmapCall) : Nat → Nat → Nat → Volume → Mapping × Volume
  | 0, nb, _, v => (.blk nb, v)
  | k + 1, nb, bn, v =>
    if dev.reads nb = false then (.unread, v)
    else
      let i := bn / nindir ^ k % nindir
      if v.blk nb i = 0 then
        if c.write then
          -- `!async && (j < 3 || (flags & B_SYNC))`
          match v.fresh dev (!c.async && (k ≠ 0 || c.sync)) true with
          | (.blk b, v) => dev.fetch c k b bn (v.setBlk nb (Function.update (v.blk nb) i b))
          | (e, v) => (e, v)
        else (.hole, v)
      else dev.fetch c k (v.blk nb i) bn v

/-- `bmap`. -/
def bmap (dev : Device) (c : BmapCall) (v : Volume) (ip : File) (bn : Int) : Mapping × File × Volume :=
  if bn < 0 then (.efbig, ip, v)
  else if bn < ndaddr then
    if ip.i_addr bn.toNat = 0 then
      if c.write then
        match v.fresh dev c.sync c.clrbuf with
        | (.blk nb, v) => (.blk nb, ip.setAddr bn.toNat nb, v)
        | (e, v) => (e, ip, v)
      else (.hole, ip, v)
    else (.blk (ip.i_addr bn.toNat), ip, v)
  else
    match indirection (bn.toNat - ndaddr) with
    | none => (.efbig, ip, v)
    | some (k, bn) =>
      let top := ndaddr - 1 + k
      if ip.i_addr top = 0 then
        if c.write then
          match v.fresh dev (!c.async) true with
          | (.blk nb, v) =>
            let r := dev.fetch c k nb bn v
            (r.1, ip.setAddr top nb, r.2)
          | (e, v) => (e, ip, v)
        else (.hole, ip, v)
      else
        let r := dev.fetch c k (ip.i_addr top) bn v
        (r.1, ip, r.2)

end Device

/-! ## Reading -/

section

variable {dev : Device} {c : BmapCall} {v : Volume} {ip : File} {k nb bn : Nat}

/-- What a lookup returns that leads to the given block. -/
def Mapping.Read (unread : Prop) (x : Mapping) (b : Nat) : Prop :=
  (x = .blk b ∧ b ≠ 0) ∨ (x = .hole ∧ b = 0) ∨ (x = .unread ∧ unread)

/-- Reading changes nothing, and follows the pointers as far as they can be read. -/
theorem fetch_read (hr : c.write = false) (hz : nb ≠ 0) :
    (dev.fetch c k nb bn v).2 = v ∧
      (dev.fetch c k nb bn v).1.Read (∃ b ∈ blocksAt v.blk k nb, dev.reads b = false) (entry v.blk k nb bn) := by
  induction k generalizing nb with
  | zero => exact ⟨rfl, .inl ⟨rfl, hz⟩⟩
  | succ k ih =>
    have hidx : bn / nindir ^ k % nindir < nindir := Nat.mod_lt _ (by decide)
    rw [entry_succ hz]
    unfold Device.fetch
    split
    · next hbad => exact ⟨rfl, .inr (.inr ⟨rfl, nb, mem_blocksAt_self hz, hbad⟩)⟩
    · dsimp only
      generalize bn / nindir ^ k % nindir = i at hidx ⊢
      split
      · next hc =>
        rw [if_neg (by rw [hr]; exact Bool.false_ne_true), hc, entry_zero]
        exact ⟨rfl, .inr (.inl ⟨rfl, rfl⟩)⟩
      · next hc =>
        obtain ⟨hv, hx⟩ := ih hc
        refine ⟨hv, hx.imp_right (Or.imp_right fun h => ⟨h.1, ?_⟩)⟩
        obtain ⟨b, hb, hbad⟩ := h.2
        refine ⟨b, ?_, hbad⟩
        rw [blocksAt_succ hz]
        exact List.mem_cons_of_mem _ (List.mem_flatMap.mpr ⟨i, List.mem_range.mpr hidx, hb⟩)

/-- `bmap` below address `i`. -/
def Device.walk (dev : Device) (c : BmapCall) (v : Volume) (ip : File) (i n : Nat) : Mapping × File × Volume :=
  if ip.i_addr i = 0 then
    if c.write then
      match v.fresh dev (if i < ndaddr then c.sync else !c.async) (if i < ndaddr then c.clrbuf else true) with
      | (.blk nb, v) => ((dev.fetch c (i - 3) nb n v).1, ip.setAddr i nb, (dev.fetch c (i - 3) nb n v).2)
      | (e, v) => (e, ip, v)
    else (.hole, ip, v)
  else ((dev.fetch c (i - 3) (ip.i_addr i) n v).1, ip, (dev.fetch c (i - 3) (ip.i_addr i) n v).2)

/-- **A block number has its address, or is refused.** -/
theorem bmap_slot (bn : Nat) : dev.bmap c v ip bn =
    match slot bn with
    | none => (.efbig, ip, v)
    | some (i, n) => dev.walk c v ip i n := by
  unfold Device.bmap slot
  rw [if_neg (Int.not_lt.mpr (Int.natCast_nonneg bn)), Int.toNat_natCast]
  simp only [Nat.cast_lt]
  split
  · next hlt =>
    have hlevel : bn - 3 = 0 := by simp only [ndaddr] at hlt; omega
    simp only [Device.walk, if_pos hlt, hlevel, Device.fetch]
  · cases hind : indirection (bn - ndaddr) with
    | none => rfl
    | some p =>
      obtain ⟨k, n⟩ := p
      have hlevel : ndaddr - 1 + k - 3 = k := by simp only [ndaddr]; omega
      have htop : ¬ ndaddr - 1 + k < ndaddr := by
        unfold indirection at hind
        simp only [ndaddr]
        split at hind
        · cases hind
          omega
        · split at hind
          · cases hind
            omega
          · split at hind
            · cases hind
              omega
            · cases hind
      simp only [Option.map_some, Device.walk, hlevel, if_neg htop]

/-- Numbers that are negative or past the triple indirect range are refused. -/
theorem bmap_refused {bn : Int} (h : bn < 0 ∨ slot bn.toNat = none) : dev.bmap c v ip bn = (.efbig, ip, v) := by
  by_cases hneg : bn < 0
  · rw [Device.bmap, if_pos hneg]
  · obtain ⟨n, rfl⟩ := Int.eq_ofNat_of_zero_le (Int.not_lt.mp hneg)
    have hnone := h.resolve_left hneg
    rw [Int.toNat_natCast] at hnone
    rw [bmap_slot, hnone]

/-- **`bmap` for reading changes nothing**, and finds the block or the hole, but for a block that cannot be read. -/
theorem bmap_read (hr : c.write = false) (hbn : slot bn ≠ none) :
    (dev.bmap c v ip bn).2 = (ip, v) ∧
      (dev.bmap c v ip bn).1.Read (∃ b ∈ treeOf v.blk ip.i_addr, dev.reads b = false) (lookup v.blk ip.i_addr bn) := by
  rw [bmap_slot, lookup]
  cases h : slot bn with
  | none => exact absurd h hbn
  | some p =>
    obtain ⟨i, n⟩ := p
    obtain ⟨hi, -, -⟩ := slot_some h
    simp only [Device.walk]
    split
    · next hz =>
      rw [hr, hz, entry_zero]
      exact ⟨rfl, .inr (.inl ⟨rfl, rfl⟩)⟩
    · next hz =>
      obtain ⟨hv, hx⟩ := @fetch_read dev c v (i - 3) _ n hr hz
      refine ⟨by rw [hv], hx.imp_right (Or.imp_right fun h => ⟨h.1, ?_⟩)⟩
      obtain ⟨b, hb, hbad⟩ := h.2
      exact ⟨b, List.mem_flatMap.mpr ⟨i, List.mem_range.mpr hi, hb⟩, hbad⟩

end

/-! ## Writing -/

section

variable {dev : Device} {c : BmapCall} {v v' : Volume} {l : List Nat} {k nb bn : Nat}

/-- A fresh block comes from the stack, initialized; and if there is none, the stack keeps what it had. -/
theorem fresh_moves (h : Refines v l) (dev : Device) (wait clr : Bool) :
    (∃ x v', v.fresh dev wait clr = (x, v') ∧ (∀ b, x ≠ .blk b) ∧ (x = .nospace → l = []) ∧ Moves v l [] v' l []) ∨
    ∃ b t v', l = b :: t ∧ v.fresh dev wait clr = (.blk b, v') ∧ Moves v (b :: t) [] v' t [b] ∧
      (clr = true → ∀ i, v'.blk b i = 0) := by
  unfold Volume.fresh
  rcases balloc_moves h clr with ⟨rfl, v', hb, -, hm⟩ | ⟨b, t, v₁, rfl, hb, hm, hclr⟩
  · rw [hb]
    exact .inl ⟨_, _, rfl, by simp, fun _ => rfl, hm⟩
  · rw [hb]
    dsimp only
    split
    · have hown : Owned v (b :: t) [] := ⟨h, by rw [List.append_nil]; exact h.nodup, by simp⟩
      exact .inl ⟨_, _, rfl, by simp, by simp, hm.trans (free_moves (hown.moves hm))⟩
    · exact .inr ⟨b, t, v₁, rfl, rfl, hm, hclr⟩

/-- What the loop of `bmap` does under a block: the first `j` blocks of the stack take the first `j` of the missing
    places, all of them if it ends in a block, which is that of its number then. -/
structure Reaches (v : Volume) (l : List Nat) (k nb bn : Nat) (r : Mapping × Volume) (j : Nat) : Prop where
  moves : Moves v l (blocksAt v.blk k nb) r.2 (l.drop j) (blocksAt r.2.blk k nb)
  bound : j ≤ l.length
  grows : ∀ first, ∀ m ∈ nodes v.blk k nb first, m ∈ nodes r.2.blk k nb first
  path : ∀ first, ∀ m ∈ nodes r.2.blk k nb first, m ∈ nodes v.blk k nb first ∨
    m.block ∈ l ∧ m.place ∈ (missing v.blk k nb first bn).take j
  hung : ∀ first, ∀ p ∈ (missing v.blk k nb first bn).take j,
    ∃ m ∈ nodes r.2.blk k nb first, m.place = p ∧ m.block ∈ l
  found : ∀ b, r.1 = .blk b → entry r.2.blk k nb bn = b ∧ b ≠ 0 ∧ ∀ first, (missing v.blk k nb first bn).length = j
  dry : r.1 = .nospace → j = l.length ∧ ∀ first, j < (missing v.blk k nb first bn).length

/-- Nothing is hung in. -/
theorem Reaches.fail {x : Mapping} {v' : Volume} (h : Owned v l (blocksAt v.blk k nb)) (hx : ∀ b, x ≠ .blk b)
    (hdry : x = .nospace → l = [] ∧ ∀ first, 0 < (missing v.blk k nb first bn).length) (hm : Moves v l [] v' l []) :
    Reaches v l k nb bn (x, v') 0 := by
  have hsame : ∀ b ∈ blocksAt v.blk k nb, v'.blk b = v.blk b := fun b hb => hm.same b (by simpa using h.not_mem hb)
  have hnodes : ∀ first, nodes v'.blk k nb first = nodes v.blk k nb first := fun first =>
    nodes_frame fun m hm _ => hsame m.block (mem_blocksAt hm)
  refine ⟨?_, Nat.zero_le _, fun first m hm => by rwa [hnodes], fun first m hm => .inl (by rwa [hnodes] at hm),
    fun first p hp => absurd hp List.not_mem_nil, fun b hb => absurd hb (hx b), fun he => ⟨?_, (hdry he).2⟩⟩
  · simp only [List.drop_zero, blocksAt_frame hsame]
    exact hm.frame (blocksAt v.blk k nb)
  · rw [(hdry he).1]
    rfl

/-- The trees under a block of pointers that the call does not go down. -/
theorem Moves.other {l' : List Nat} {i j : Nat} (hz : nb ≠ 0) (h : Owned v l (blocksAt v.blk (k + 1) nb))
    (hi : i < nindir) (hj : j < nindir) (hji : j ≠ i)
    (hm : Moves v l (blocksAt v.blk k (v.blk nb i)) v' l' (blocksAt v'.blk k (v.blk nb i))) :
    ∀ b ∈ blocksAt v.blk k (v.blk nb j), v'.blk b = v.blk b := by
  intro b hb
  rw [blocksAt_succ hz] at h
  have hforest := (h.congr (List.perm_append_singleton nb _)).left
  have hpick := hforest.congr (forest_pick (List.mem_range.mpr hi)).symm
  refine hm.same b (hpick.apart (List.mem_flatMap.mpr ⟨j, ?_, hb⟩))
  exact (List.nodup_range.mem_erase_iff).mpr ⟨hji, List.mem_range.mpr hj⟩

/-- The loop goes down a pointer. -/
theorem Reaches.down {r : Mapping × Volume} {j : Nat} (hz : nb ≠ 0) (h : Owned v l (blocksAt v.blk (k + 1) nb))
    (hr : Reaches v l k (v.blk nb (bn / nindir ^ k % nindir)) bn r j) : Reaches v l (k + 1) nb bn r j := by
  have hidx : bn / nindir ^ k % nindir < nindir := Nat.mod_lt _ (by decide)
  have hroot := List.mem_range.mpr hidx
  have hforest : Owned v l (forest v.blk (List.range nindir) (fun _ => k) (v.blk nb)) := by
    have h' := h
    rw [blocksAt_succ hz] at h'
    exact (h'.congr (List.perm_append_singleton nb _)).left
  obtain ⟨hup, hsame⟩ := Moves.under hz h (Moves.tree hroot List.nodup_range hforest hr.moves)
  have hother : ∀ {i first}, i < nindir → i ≠ bn / nindir ^ k % nindir →
      nodes r.2.blk k (v.blk nb i) first = nodes v.blk k (v.blk nb i) first := fun hi hne =>
    nodes_frame fun m hm _ => Moves.other hz h hidx hi hne hr.moves m.block (mem_blocksAt hm)
  refine ⟨hup, hr.bound, fun first m hm => ?_, fun first m hm => ?_, fun first p hp => ?_, fun b hb => ?_, fun he => ?_⟩
  · rw [nodes_succ hz] at hm ⊢
    rw [hsame]
    refine (List.mem_cons.mp hm).elim (fun h => h ▸ List.mem_cons_self) fun hm => List.mem_cons_of_mem _ ?_
    obtain ⟨i, hi, hm⟩ := List.mem_flatMap.mp hm
    refine List.mem_flatMap.mpr ⟨i, hi, ?_⟩
    by_cases hne : i = bn / nindir ^ k % nindir
    · subst hne
      exact hr.grows _ m hm
    · rwa [hother (List.mem_range.mp hi) hne]
  · rw [nodes_succ hz] at hm ⊢
    rw [hsame] at hm
    rw [missing_succ hz]
    rcases List.mem_cons.mp hm with rfl | hm
    · exact .inl List.mem_cons_self
    · obtain ⟨i, hi, hm⟩ := List.mem_flatMap.mp hm
      by_cases hne : i = bn / nindir ^ k % nindir
      · subst hne
        refine (hr.path _ m hm).imp_left fun hm => List.mem_cons_of_mem _ ?_
        exact List.mem_flatMap.mpr ⟨_, hi, hm⟩
      · rw [hother (List.mem_range.mp hi) hne] at hm
        exact .inl (List.mem_cons_of_mem _ (List.mem_flatMap.mpr ⟨i, hi, hm⟩))
  · rw [missing_succ hz] at hp
    obtain ⟨m, hm, hplace⟩ := hr.hung _ p hp
    refine ⟨m, ?_, hplace⟩
    rw [nodes_succ hz, hsame]
    exact List.mem_cons_of_mem _ (List.mem_flatMap.mpr ⟨_, hroot, hm⟩)
  · obtain ⟨he, hbz, hlen⟩ := hr.found b hb
    refine ⟨by rw [entry_succ hz, hsame]; exact he, hbz, fun first => ?_⟩
    rw [missing_succ hz]
    exact hlen _
  · obtain ⟨hj, hlen⟩ := hr.dry he
    refine ⟨hj, fun first => ?_⟩
    rw [missing_succ hz]
    exact hlen _

/-- One more block was hung in before. -/
theorem Reaches.hang {r : Mapping × Volume} {j b i : Nat} {t : List Nat} {v₂ : Volume} (hz : nb ≠ 0)
    (hi : i = bn / nindir ^ k % nindir) (hc : v.blk nb i = 0) (hbz : b ≠ 0) (hclr : ∀ i, v₂.blk b i = 0)
    (hnb : v₂.blk nb = Function.update (v.blk nb) i b)
    (hsame : ∀ j < nindir, j ≠ i → ∀ c ∈ blocksAt v.blk k (v.blk nb j), v₂.blk c = v.blk c)
    (hm : Moves v (b :: t) (blocksAt v.blk (k + 1) nb) v₂ t (blocksAt v₂.blk (k + 1) nb))
    (hr : Reaches v₂ t (k + 1) nb bn r j) : Reaches v (b :: t) (k + 1) nb bn r (j + 1) := by
  have hidx : i < nindir := by
    rw [hi]
    exact Nat.mod_lt _ (by decide)
  have hnodes : ∀ first m, m ∈ nodes v₂.blk (k + 1) nb first ↔
      m ∈ nodes v.blk (k + 1) nb first ∨ m = ⟨b, first + i * nindir ^ k, k⟩ := fun first m =>
    mem_nodes_hung hz hidx hbz hc hnb (.inr hclr) hsame
  have hmiss : ∀ first, missing v.blk (k + 1) nb first bn =
      (first + i * nindir ^ k, k) :: missing v₂.blk (k + 1) nb first bn := by
    intro first
    rw [missing_succ hz, missing_succ hz, ← hi, hc, hnb, Function.update_self]
    exact missing_hung hbz (.inr hclr)
  refine ⟨hm.trans hr.moves, Nat.succ_le_succ hr.bound, fun first m hm => ?_, fun first m hm => ?_,
    fun first p hp => ?_, fun b hb => ?_, fun he => ?_⟩
  · exact hr.grows first m ((hnodes first m).mpr (.inl hm))
  · rw [hmiss, List.take_succ_cons]
    rcases hr.path first m hm with hm | ⟨hbl, hp⟩
    · rcases (hnodes first m).mp hm with hm | rfl
      · exact .inl hm
      · exact .inr ⟨List.mem_cons_self, List.mem_cons_self⟩
    · exact .inr ⟨List.mem_cons_of_mem _ hbl, List.mem_cons_of_mem _ hp⟩
  · rw [hmiss, List.take_succ_cons] at hp
    rcases List.mem_cons.mp hp with rfl | hp
    · exact ⟨_, hr.grows first _ ((hnodes first _).mpr (.inr rfl)), rfl, List.mem_cons_self⟩
    · obtain ⟨m, hm, hplace, hbl⟩ := hr.hung first p hp
      exact ⟨m, hm, hplace, List.mem_cons_of_mem _ hbl⟩
  · obtain ⟨he, hb0, hlen⟩ := hr.found b hb
    refine ⟨he, hb0, fun first => ?_⟩
    rw [hmiss, List.length_cons, hlen]
  · obtain ⟨hj, hlen⟩ := hr.dry he
    refine ⟨by rw [hj, List.length_cons], fun first => ?_⟩
    rw [hmiss, List.length_cons]
    exact Nat.succ_lt_succ (hlen first)

/-- **The loop of `bmap`, writing**: it allocates what is missing on the way down. -/
theorem fetch_reaches (dev : Device) (bn : Nat) (hw : c.write = true) (hz : nb ≠ 0) (h : Owned v l (blocksAt v.blk k nb)) :
    ∃ j, Reaches v l k nb bn (dev.fetch c k nb bn v) j := by
  induction k generalizing nb v l with
  | zero =>
    have hnone : ∀ first, missing v.blk 0 nb first bn = [] := fun first => if_neg hz
    refine ⟨0, .refl h.refines _, Nat.zero_le _, fun _ _ => id, fun _ _ => .inl, ?_, ?_, ?_⟩
    · intro first p hp
      cases hp
    · intro b hb
      cases hb
      exact ⟨rfl, hz, fun first => by rw [hnone]; rfl⟩
    · intro he
      cases he
  | succ k ih =>
    have hchild : ∀ {u : Volume} {m : List Nat} {i : Nat}, i < nindir →
        Owned u m (blocksAt u.blk (k + 1) nb) → Owned u m (blocksAt u.blk k (u.blk nb i)) := by
      intro u m i hi hu
      rw [blocksAt_succ hz] at hu
      exact ((hu.congr (List.perm_append_singleton nb _)).left.congr (forest_pick (List.mem_range.mpr hi)).symm).left
    have hidx : bn / nindir ^ k % nindir < nindir := Nat.mod_lt _ (by decide)
    unfold Device.fetch
    split
    · exact ⟨0, .fail h (by simp) (by simp) (.refl h.refines [])⟩
    · dsimp only
      split
      · next hc =>
        rcases fresh_moves h.refines dev (!c.async && (k ≠ 0 || c.sync)) true with
          ⟨x, v', hf, hx, hdry, hm⟩ | ⟨b, t, v₁, rfl, hf, hm, hclr⟩
        · have hfail : Reaches v l (k + 1) nb bn (x, v') 0 := .fail h hx (fun he => ⟨hdry he, fun first => ?_⟩) hm
          · refine ⟨0, ?_⟩
            rw [hf]
            cases x with
            | blk b => exact absurd rfl (hx b)
            | _ => exact hfail
          · rw [missing_succ hz, hc]
            exact missing_pos ..
        · rw [hf]
          dsimp only
          obtain ⟨hstep, hnb₂, hother⟩ := hang_under hz hidx hc h hm (hclr rfl)
          have hbz : b ≠ 0 := h.refines.ne_zero (h.refines.good b (by simp))
          have hbnb : b ≠ nb := fun he => h.not_mem (mem_blocksAt_self hz) (by simp [he])
          generalize v₁.setBlk nb (Function.update (v₁.blk nb) _ b) = v₂ at hstep hnb₂ hother ⊢
          have hown₂ := h.moves hstep
          have hptr : v₂.blk nb (bn / nindir ^ k % nindir) = b := by rw [hnb₂, Function.update_self]
          obtain ⟨j, hrest⟩ := ih hbz (hptr ▸ hchild hidx hown₂)
          have hdown := Reaches.down hz hown₂ (by rwa [hptr])
          refine ⟨j + 1, hdown.hang hz rfl hc hbz (fun i => ?_) hnb₂ (fun i hi _ x hx => ?_) hstep⟩
          · rw [hother b hbnb]
            exact hclr rfl i
          · have htree : x ∈ forest v.blk (List.range nindir) (fun _ => k) (v.blk nb) :=
              List.mem_flatMap.mpr ⟨i, List.mem_range.mpr hi, hx⟩
            rw [blocksAt_succ hz] at h
            have hxnb : x ≠ nb := by
              rintro rfl
              exact (List.nodup_cons.mp (List.nodup_append.mp h.nodup).2.1).1 htree
            rw [hother x hxnb]
            exact hm.same x (by simpa using h.not_mem (List.mem_cons_of_mem _ htree))
      · next hc =>
        obtain ⟨j, hr⟩ := ih hc (hchild hidx h)
        exact ⟨j, Reaches.down hz h hr⟩

/-- What `bmap` does to a file: the first `j` blocks of the stack take the first `j` places that its number misses. -/
structure Remaps (v : Volume) (l : List Nat) (addr : Nat → Nat) (bn : Nat) (r : Mapping × File × Volume) (j : Nat) :
    Prop where
  moves : Moves v l (treeOf v.blk addr) r.2.2 (l.drop j) (treeOf r.2.2.blk r.2.1.i_addr)
  bound : j ≤ l.length
  grows : ∀ m ∈ nodesOf v.blk addr, m ∈ nodesOf r.2.2.blk r.2.1.i_addr
  path : ∀ m ∈ nodesOf r.2.2.blk r.2.1.i_addr, m ∈ nodesOf v.blk addr ∨
    m.block ∈ l ∧ m.place ∈ (missingOf v.blk addr bn).take j
  hung : ∀ p ∈ (missingOf v.blk addr bn).take j,
    ∃ m ∈ nodesOf r.2.2.blk r.2.1.i_addr, m.place = p ∧ m.block ∈ l
  found : ∀ b, r.1 = .blk b → lookup r.2.2.blk r.2.1.i_addr bn = b ∧ b ≠ 0 ∧ (missingOf v.blk addr bn).length = j
  dry : r.1 = .nospace → j = l.length ∧ j < (missingOf v.blk addr bn).length

theorem Remaps.fail {ip : File} {x : Mapping} (h : Owned v l (treeOf v.blk ip.i_addr)) (hx : ∀ b, x ≠ .blk b)
    (hdry : x = .nospace → l = [] ∧ 0 < (missingOf v.blk ip.i_addr bn).length) (hm : Moves v l [] v' l []) :
    Remaps v l ip.i_addr bn (x, ip, v') 0 := by
  have hsame : ∀ b ∈ treeOf v.blk ip.i_addr, v'.blk b = v.blk b := fun b hb => hm.same b (by simpa using h.not_mem hb)
  have hnodes : nodesOf v'.blk ip.i_addr = nodesOf v.blk ip.i_addr := by
    refine nodesOf_frame fun m hm _ => hsame m.block ?_
    rw [← nodesOf_blocks]
    exact List.mem_map_of_mem hm
  refine ⟨?_, Nat.zero_le _, fun m hm => by rwa [hnodes], fun m hm => .inl (by rwa [hnodes] at hm),
    fun p hp => absurd hp List.not_mem_nil, fun b hb => absurd hb (hx b), fun he => ⟨?_, (hdry he).2⟩⟩
  · simp only [List.drop_zero, ← nodesOf_blocks, hnodes]
    exact hm.frame _
  · rw [(hdry he).1]
    rfl

/-- `bmap` below an address that is there. -/
theorem Remaps.under {ip : File} {r : Mapping × Volume} {i n j : Nat} (hi : i < naddr) (hn : n < nindir ^ (i - 3))
    (h : Owned v l (treeOf v.blk ip.i_addr)) (hr : Reaches v l (i - 3) (ip.i_addr i) n r j) :
    Remaps v l ip.i_addr (start i + n) (r.1, ip, r.2) j := by
  have hroot : i ∈ List.range naddr := List.mem_range.mpr hi
  have hpick := h.congr (@forest_pick _ _ (· - 3) ip.i_addr _ hroot).symm
  have hother : ∀ {q}, q ∈ List.range naddr → q ≠ i →
      nodes r.2.blk (q - 3) (ip.i_addr q) (start q) = nodes v.blk (q - 3) (ip.i_addr q) (start q) := fun hq hne =>
    nodes_frame fun m hm _ => hr.moves.same m.block
      (hpick.apart (List.mem_flatMap.mpr ⟨_, (List.nodup_range.mem_erase_iff).mpr ⟨hne, hq⟩, mem_blocksAt hm⟩))
  have hmiss := @missingOf_start v.blk ip.i_addr i n hi hn
  refine ⟨@Moves.tree _ _ _ _ _ (· - 3) _ _ hroot List.nodup_range h hr.moves, hr.bound, fun m hm => ?_,
    fun m hm => ?_, fun p hp => ?_, fun b hb => ?_, fun he => ?_⟩
  · obtain ⟨q, hq, hm⟩ := List.mem_flatMap.mp hm
    refine List.mem_flatMap.mpr ⟨q, hq, ?_⟩
    by_cases hne : q = i
    · subst hne
      exact hr.grows _ m hm
    · rwa [hother hq hne]
  · rw [hmiss]
    obtain ⟨q, hq, hm⟩ := List.mem_flatMap.mp hm
    by_cases hne : q = i
    · subst hne
      exact (hr.path _ m hm).imp_left fun hm => List.mem_flatMap.mpr ⟨q, hq, hm⟩
    · rw [hother hq hne] at hm
      exact .inl (List.mem_flatMap.mpr ⟨q, hq, hm⟩)
  · rw [hmiss] at hp
    obtain ⟨m, hm, hplace⟩ := hr.hung _ p hp
    exact ⟨m, List.mem_flatMap.mpr ⟨i, hroot, hm⟩, hplace⟩
  · obtain ⟨he, hbz, hlen⟩ := hr.found b hb
    rw [lookup_start hi hn, hmiss]
    exact ⟨he, hbz, hlen _⟩
  · obtain ⟨hj, hlen⟩ := hr.dry he
    rw [hmiss]
    exact ⟨hj, hlen _⟩

/-- `bmap` below an address that gets its first block. -/
theorem Remaps.hang {ip : File} {i n b : Nat} {t : List Nat} (hw : c.write = true) (hi : i < naddr)
    (hn : n < nindir ^ (i - 3)) (hz : ip.i_addr i = 0) (h : Owned v (b :: t) (treeOf v.blk ip.i_addr))
    (hm : Moves v (b :: t) [] v' t [b]) (hclr : i - 3 = 0 ∨ ∀ j, v'.blk b j = 0) :
    ∃ j, Remaps v (b :: t) ip.i_addr (start i + n)
      ((dev.fetch c (i - 3) b n v').1, ip.setAddr i b, (dev.fetch c (i - 3) b n v').2) j := by
  have hroot : i ∈ List.range naddr := List.mem_range.mpr hi
  have hbz : b ≠ 0 := h.refines.ne_zero (h.refines.good b (by simp))
  have hmf := hang_moves hi hz h hm hclr
  have hown := h.moves hmf
  have haddr : (ip.setAddr i b).i_addr i = b := by simp [File.setAddr]
  have hsub : Owned v' t (blocksAt v'.blk (i - 3) b) := by
    have := (hown.congr (@forest_pick _ _ (· - 3) (ip.setAddr i b).i_addr _ hroot).symm).left
    rwa [haddr] at this
  obtain ⟨j, hreach⟩ := fetch_reaches dev n hw hbz hsub
  have hunder := Remaps.under hi hn hown (by rw [haddr]; exact hreach)
  -- The new block is the only node that came with it.
  have hnew : nodes v'.blk (i - 3) b (start i) = [⟨b, start i, i - 3⟩] := by
    cases hk : i - 3 with
    | zero => simp only [nodes, if_neg hbz]
    | succ k =>
      rw [nodes_succ hbz, List.flatMap_eq_nil_iff.mpr fun j _ => ?_]
      rw [hclr.resolve_left (by omega), nodes_zero]
  have hold : ∀ q ∈ List.range naddr, q ≠ i → nodes v'.blk (q - 3) ((ip.setAddr i b).i_addr q) (start q) =
      nodes v.blk (q - 3) (ip.i_addr q) (start q) := by
    intro q hq hne
    simp only [File.setAddr, Function.update_of_ne hne]
    refine nodes_frame fun m hmem _ => hm.same m.block ?_
    have hin : m.block ∈ treeOf v.blk ip.i_addr := List.mem_flatMap.mpr ⟨q, hq, mem_blocksAt hmem⟩
    simpa using h.not_mem hin
  have hnodes : ∀ m, m ∈ nodesOf v'.blk (ip.setAddr i b).i_addr ↔
      m ∈ nodesOf v.blk ip.i_addr ∨ m = ⟨b, start i, i - 3⟩ := by
    intro m
    constructor
    · intro hmem
      obtain ⟨q, hq, hmem⟩ := List.mem_flatMap.mp hmem
      by_cases hne : q = i
      · subst hne
        rw [haddr, hnew, List.mem_singleton] at hmem
        exact .inr hmem
      · rw [hold q hq hne] at hmem
        exact .inl (List.mem_flatMap.mpr ⟨q, hq, hmem⟩)
    · rintro (hmem | rfl)
      · obtain ⟨q, hq, hmem⟩ := List.mem_flatMap.mp hmem
        refine List.mem_flatMap.mpr ⟨q, hq, ?_⟩
        rwa [hold q hq fun hne => by rw [hne, hz, nodes_zero] at hmem; cases hmem]
      · refine List.mem_flatMap.mpr ⟨i, hroot, ?_⟩
        rw [haddr, hnew]
        exact List.mem_singleton.mpr rfl
  have hmiss : missingOf v.blk ip.i_addr (start i + n) =
      (start i, i - 3) :: missingOf v'.blk (ip.setAddr i b).i_addr (start i + n) := by
    rw [missingOf_start hi hn, missingOf_start hi hn, haddr, hz]
    exact missing_hung hbz hclr
  refine ⟨j + 1, hmf.trans hunder.moves, Nat.succ_le_succ hunder.bound, fun m hm => ?_, fun m hm => ?_,
    fun p hp => ?_, fun b hb => ?_, fun he => ?_⟩
  · exact hunder.grows m ((hnodes m).mpr (.inl hm))
  · rw [hmiss, List.take_succ_cons]
    rcases hunder.path m hm with hm | ⟨hbl, hp⟩
    · rcases (hnodes m).mp hm with hm | rfl
      · exact .inl hm
      · exact .inr ⟨List.mem_cons_self, List.mem_cons_self⟩
    · exact .inr ⟨List.mem_cons_of_mem _ hbl, List.mem_cons_of_mem _ hp⟩
  · rw [hmiss, List.take_succ_cons] at hp
    rcases List.mem_cons.mp hp with rfl | hp
    · exact ⟨_, hunder.grows _ ((hnodes _).mpr (.inr rfl)), rfl, List.mem_cons_self⟩
    · obtain ⟨m, hm, hplace, hbl⟩ := hunder.hung p hp
      exact ⟨m, hm, hplace, List.mem_cons_of_mem _ hbl⟩
  · obtain ⟨he, hb0, hlen⟩ := hunder.found b hb
    exact ⟨he, hb0, by rw [hmiss, List.length_cons, hlen]⟩
  · obtain ⟨hj, hlen⟩ := hunder.dry he
    exact ⟨by rw [hj, List.length_cons], by rw [hmiss, List.length_cons]; exact Nat.succ_lt_succ hlen⟩

/-- **`bmap` for writing** fills the places that its number misses, from the top down, as long as there are blocks. -/
theorem bmap_remaps (dev : Device) (bn : Nat) {ip : File} (hw : c.write = true) (h : Owned v l (treeOf v.blk ip.i_addr)) :
    ∃ j, Remaps v l ip.i_addr bn (dev.bmap c v ip bn) j := by
  rw [bmap_slot]
  cases hs : slot bn with
  | none => exact ⟨0, .fail h (by simp) (by simp) (.refl h.refines [])⟩
  | some p =>
    obtain ⟨i, n⟩ := p
    obtain ⟨hi, hn, rfl⟩ := slot_some hs
    simp only [Device.walk, hw, if_true]
    split
    · next hz =>
      rcases fresh_moves h.refines dev (if i < ndaddr then c.sync else !c.async) (if i < ndaddr then c.clrbuf else true)
        with ⟨x, v', hf, hx, hdry, hm⟩ | ⟨b, t, v₁, rfl, hf, hm, hclr⟩
      · have hmiss : 0 < (missingOf v.blk ip.i_addr (start i + n)).length := by
          rw [missingOf_start hi hn, hz]
          exact missing_pos ..
        have hfail := Remaps.fail h hx (fun he => ⟨hdry he, hmiss⟩) hm
        refine ⟨0, ?_⟩
        rw [hf]
        cases x with
        | blk b => exact absurd rfl (hx b)
        | _ => exact hfail
      · rw [hf]
        refine Remaps.hang hw hi hn hz h hm ?_
        by_cases hlt : i < ndaddr
        · exact .inl (by simp only [ndaddr] at hlt; omega)
        · exact .inr (hclr (if_neg hlt))
    · next hz =>
      have hsub := (h.congr (@forest_pick _ _ (· - 3) ip.i_addr _ (List.mem_range.mpr hi)).symm).left
      obtain ⟨j, hr⟩ := fetch_reaches dev n hw hz hsub
      exact ⟨j, .under hi hn h hr⟩

/-- What is mapped stays, and what is not, but for the number itself. -/
theorem Remaps.kept {addr : Nat → Nat} {r : Mapping × File × Volume} {j n : Nat} (hr : Remaps v l addr bn r j)
    (hn : n = bn → lookup v.blk addr n ≠ 0 ∨ r.1 = .nospace) :
    lookup r.2.2.blk r.2.1.i_addr n = lookup v.blk addr n := by
  by_cases hz : lookup v.blk addr n = 0
  · rw [hz]
    by_contra hp
    rcases hr.path _ (mem_nodesOf.mpr ⟨rfl, hp⟩) with hold | ⟨-, hplace⟩
    · exact (mem_nodesOf.mp hold).2 ((mem_nodesOf.mp hold).1.symm.trans hz)
    · obtain ⟨rfl, hlen⟩ := missingOf_data hplace
      rcases hn rfl with hne | he
      · exact hne hz
      · exact Nat.not_le_of_lt (hr.dry he).2 hlen
  · exact (mem_nodesOf.mp (hr.grows _ (mem_nodesOf.mpr ⟨rfl, hz⟩))).1

end

/-! ## A device that does not fail -/

/-- Everything can be read and written. -/
def Device.fine : Device := ⟨fun _ => true, fun _ => true⟩

/-- The same, without the reasons. -/
def Mapping.plain : Mapping → Bmap
  | .blk nb => .blk nb
  | .hole | .nospace | .unwritten => .none
  | .efbig | .unread => .efbig

section

variable {c : BmapCall} {v : Volume} {ip : File} {l : List Nat} {bn : Nat}

theorem fresh_fine (v : Volume) (wait clr : Bool) : v.fresh .fine wait clr =
    ((v.balloc clr).1.elim .nospace .blk, (v.balloc clr).2) := by
  unfold Volume.fresh
  obtain ⟨b, w, hb⟩ : ∃ b w, v.balloc clr = (b, w) := ⟨_, _, rfl⟩
  rw [hb]
  cases b with
  | none => rfl
  | some nb => exact if_neg (by simp [Device.fine])

theorem fetch_fine (k nb bn : Nat) (v : Volume) :
    ((Device.fine.fetch c k nb bn v).1.plain, (Device.fine.fetch c k nb bn v).2) = Ufs.fetch c.write k nb bn v := by
  induction k generalizing nb v with
  | zero => rfl
  | succ k ih =>
    simp only [Device.fetch, Ufs.fetch, fresh_fine]
    rw [if_neg (show ¬ Device.fine.reads nb = false by simp [Device.fine])]
    by_cases hc : v.blk nb (bn / nindir ^ k % nindir) = 0
    · rw [if_pos hc, if_pos hc]
      cases hw : c.write with
      | false => rfl
      | true =>
        simp only [if_true]
        obtain ⟨b, w, hb⟩ : ∃ b w, v.balloc true = (b, w) := ⟨_, _, rfl⟩
        rw [hb]
        cases b with
        | none => rfl
        | some b =>
          have := ih b (w.setBlk nb (Function.update (w.blk nb) (bn / nindir ^ k % nindir) b))
          rwa [hw] at this
    · rw [if_neg hc, if_neg hc]
      exact ih _ _

/-- On such a device it is the `bmap` that knows of no errors. -/
theorem bmap_fine (v : Volume) (ip : File) (bn : Nat) :
    ((Device.fine.bmap c v ip bn).1.plain, (Device.fine.bmap c v ip bn).2) = Ufs.bmap v ip bn c.write c.clrbuf := by
  unfold Device.bmap Ufs.bmap
  rw [if_neg (Int.not_lt.mpr (Int.natCast_nonneg bn)), Int.toNat_natCast]
  simp only [Nat.cast_lt, fresh_fine]
  split
  · split
    · cases hw : c.write with
      | false => rfl
      | true =>
        simp only [if_true]
        obtain ⟨b, w, hb⟩ : ∃ b w, v.balloc c.clrbuf = (b, w) := ⟨_, _, rfl⟩
        rw [hb]
        cases b <;> rfl
    · rfl
  · cases indirection (bn - ndaddr) with
    | none => rfl
    | some p =>
      obtain ⟨k, n⟩ := p
      simp only
      split
      · cases hw : c.write with
        | false => rfl
        | true =>
          simp only [if_true]
          obtain ⟨b, w, hb⟩ : ∃ b w, v.balloc true = (b, w) := ⟨_, _, rfl⟩
          rw [hb]
          cases b with
          | none => rfl
          | some b =>
            have := @fetch_fine c k b n w
            rw [hw] at this
            simp only [Option.elim_some, ← this]
      · simp only [← fetch_fine]

/-- Writing, it fails only for want of a block. -/
theorem fetch_nospace (hw : c.write = true) (k nb bn : Nat) (v : Volume) :
    (∃ b, (Device.fine.fetch c k nb bn v).1 = .blk b) ∨ (Device.fine.fetch c k nb bn v).1 = .nospace := by
  induction k generalizing nb v with
  | zero => exact .inl ⟨nb, rfl⟩
  | succ k ih =>
    simp only [Device.fetch, fresh_fine, hw, if_true]
    rw [if_neg (show ¬ Device.fine.reads nb = false by simp [Device.fine])]
    split
    · obtain ⟨b, w, hb⟩ : ∃ b w, v.balloc true = (b, w) := ⟨_, _, rfl⟩
      rw [hb]
      cases b with
      | none => exact .inr rfl
      | some b => exact ih _ _
    · exact ih _ _

theorem bmap_nospace (hw : c.write = true) (hbn : slot bn ≠ none) :
    (∃ b, (Device.fine.bmap c v ip bn).1 = .blk b) ∨ (Device.fine.bmap c v ip bn).1 = .nospace := by
  rw [bmap_slot]
  cases hs : slot bn with
  | none => exact absurd hs hbn
  | some p =>
    simp only [Device.walk, fresh_fine, hw, if_true]
    split
    · generalize (if p.1 < ndaddr then c.clrbuf else true) = clr
      obtain ⟨b, w, hb⟩ : ∃ b w, v.balloc clr = (b, w) := ⟨_, _, rfl⟩
      rw [hb]
      cases b with
      | none => exact .inr rfl
      | some b => exact fetch_nospace hw ..
    · exact fetch_nospace hw ..

/-- So does the other one. -/
theorem bmap_plain (h : Owned v l (treeOf v.blk ip.i_addr)) (clr : Bool) (hbn : slot bn ≠ none) :
    (∃ b j, (Ufs.bmap v ip bn true clr).1 = .blk b ∧ Remaps v l ip.i_addr bn (.blk b, (Ufs.bmap v ip bn true clr).2) j) ∨
    ∃ j, (Ufs.bmap v ip bn true clr).1 = .none ∧ Remaps v l ip.i_addr bn (.nospace, (Ufs.bmap v ip bn true clr).2) j := by
  have hfine := @bmap_fine ⟨true, false, clr, false⟩ v ip bn
  obtain ⟨j, hr⟩ := bmap_remaps .fine bn (c := ⟨true, false, clr, false⟩) rfl h
  obtain ⟨x, y, hxy⟩ : ∃ x y, Device.fine.bmap ⟨true, false, clr, false⟩ v ip bn = (x, y) := ⟨_, _, rfl⟩
  have hx := @bmap_nospace ⟨true, false, clr, false⟩ v ip bn rfl hbn
  rw [hxy] at hfine hr hx
  rw [← hfine]
  rcases hx with ⟨b, rfl⟩ | rfl
  · exact .inl ⟨b, j, rfl, hr⟩
  · exact .inr ⟨j, rfl, hr⟩

end

end DiscoBSD.Ufs
