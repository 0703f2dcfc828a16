import Mathlib.Logic.Relation
import DiscoBSD.Ufs.Cut

/-!
# A mapping lasts

What `bmap` maps stays mapped to the same block over whatever happens to the file and around it, **until a truncation
takes the block away**. No two logical blocks ever share one.
-/

set_option autoImplicit false

namespace DiscoBSD.Ufs

/-- `itrunc` cuts a file to the length: one that is longer, or a pipe of that very length. -/
def File.Cuts (ip : File) (length : Int) : Prop := length < ip.extent ∨ ip.pipe = true ∧ length = ip.extent

/-- What can happen to a file and its volume: `bmap` is called, a block of the file is written, the file is cut, but to
    no fewer than `lim` blocks, or something happens elsewhere. -/
inductive MapStep (lim : Nat) : Volume × File → Volume × File → Prop where
  | bmap {v : Volume} {ip : File} (dev : Device) (c : BmapCall) (bn : Int) :
      MapStep lim (v, ip) ((dev.bmap c v ip bn).2.2, (dev.bmap c v ip bn).2.1)
  | write {v : Volume} {ip : File} (bn : Nat) (w : Nat → Nat) (hz : lookup v.blk ip.i_addr bn ≠ 0) :
      MapStep lim (v, ip) (v.setBlk (lookup v.blk ip.i_addr bn) w, ip)
  | cut {v : Volume} {ip : File} (u_error : Bool) (length : Int) (hmax : ip.extent < 2 ^ 31)
      (hkeep : 0 ≤ length → ip.Cuts length → lim ≤ blocksIn length) :
      MapStep lim (v, ip) ((itrunc u_error v ip length).2, (itrunc u_error v ip length).1)
  | elsewhere {v v' : Volume} {ip ip' : File} {l' : List Nat} (haddr : ip'.i_addr = ip.i_addr)
      (hsame : ∀ b ∈ treeOf v.blk ip.i_addr, v'.blk b = v.blk b) (ho : Owned v' l' (treeOf v.blk ip.i_addr)) :
      MapStep lim (v, ip) (v', ip')

/-- The tree of the file and the free list are apart. -/
def Apart (s : Volume × File) : Prop := ∃ l, Owned s.1 l (treeOf s.1.blk s.2.i_addr)

section

variable {lim bn : Nat} {v : Volume} {ip : File} {l : List Nat} {s s' : Volume × File}

theorem bmap_steady (bn : Nat) {dev : Device} {c : BmapCall} (h : Owned v l (treeOf v.blk ip.i_addr)) (n : Int) :
    Apart ((dev.bmap c v ip n).2.2, (dev.bmap c v ip n).2.1) ∧
      (lookup v.blk ip.i_addr bn ≠ 0 →
        lookup (dev.bmap c v ip n).2.2.blk (dev.bmap c v ip n).2.1.i_addr bn = lookup v.blk ip.i_addr bn) := by
  by_cases hr : n < 0 ∨ slot n.toNat = none
  · rw [bmap_refused hr]
    exact ⟨⟨l, h⟩, fun _ => rfl⟩
  · rw [not_or, Int.not_lt] at hr
    obtain ⟨hn, hs⟩ := hr
    obtain ⟨m, rfl⟩ := Int.eq_ofNat_of_zero_le hn
    rw [Int.toNat_natCast] at hs
    cases hw : c.write with
    | false =>
      rw [(bmap_read hw hs).1]
      exact ⟨⟨l, h⟩, fun _ => rfl⟩
    | true =>
      obtain ⟨j, hm⟩ := bmap_remaps dev m hw h
      exact ⟨⟨_, h.moves hm.moves⟩, fun hz => hm.kept fun _ => .inl hz⟩

/-- The `bmap` of a truncation. -/
theorem bmap_plain_steady (h : Owned v l (treeOf v.blk ip.i_addr)) (hz : lookup v.blk ip.i_addr bn ≠ 0) (n : Int) :
    ∃ x ip' v', Ufs.bmap v ip (lblkno n) true true = (x, ip', v') ∧ (∃ l', Owned v' l' (treeOf v'.blk ip'.i_addr)) ∧
      lookup v'.blk ip'.i_addr bn = lookup v.blk ip.i_addr bn ∧
      ∀ b, x = .blk b → lookup v'.blk ip'.i_addr (lblkno n) = b ∧ b ≠ 0 := by
  obtain ⟨x, ip', v', hx⟩ : ∃ x ip' v', Ufs.bmap v ip (lblkno n) true true = (x, ip', v') := ⟨_, _, _, rfl⟩
  have hplain := bmap_plain h true (slot_lblkno n)
  rw [hx] at hplain
  refine ⟨x, ip', v', hx, ?_⟩
  rcases hplain with ⟨b, j, rfl, hr⟩ | ⟨j, rfl, hr⟩
  · refine ⟨⟨_, h.moves hr.moves⟩, hr.kept fun _ => .inl hz, fun c hc => ?_⟩
    cases hc
    exact ⟨(hr.found b rfl).1, (hr.found b rfl).2.1⟩
  · exact ⟨⟨_, h.moves hr.moves⟩, hr.kept fun _ => .inl hz, fun c hc => by cases hc⟩

/-- A truncation leaves the blocks below the new end, whatever becomes of it. -/
theorem itrunc_steady {u_error : Bool} {length : Int} (h : Owned v l (treeOf v.blk ip.i_addr)) (hmax : ip.extent < 2 ^ 31)
    (hkeep : 0 ≤ length → ip.Cuts length → bn < blocksIn length) (hz : lookup v.blk ip.i_addr bn ≠ 0) :
    lookup (itrunc u_error v ip length).2.blk (itrunc u_error v ip length).1.i_addr bn = lookup v.blk ip.i_addr bn := by
  have haddr := full_addr ip
  have hsize := full_size ip
  have hfull : (if ip.pipe = true then { ip with i_size := maxpipsiz } else ip) = ip.full := rfl
  rw [← haddr] at h hz ⊢
  -- The cut itself, of a file that still maps the block.
  have hshrink : ∀ {u : Volume} {fp : File} {m : List Nat}, 0 ≤ length → ip.Cuts length →
      Owned u m (treeOf u.blk fp.i_addr) →
      lookup (shrink u fp length).2.blk (shrink u fp length).1.i_addr bn = lookup u.blk fp.i_addr bn := by
    intro u fp m h0 hlt hu
    have hle : length ≤ ip.extent := hlt.elim Int.le_of_lt fun h => Int.le_of_eq h.2
    rw [(shrink_truncated h0 (Int.lt_of_le_of_lt hle hmax) hu).mapped, if_pos (hkeep h0 hlt)]
  unfold itrunc
  split
  · rw [haddr]
  · next hneg =>
    have h0 := Int.not_lt.mp hneg
    split
    · rw [haddr]
    · next hsame =>
      dsimp only
      rw [hfull]
      split
      · obtain ⟨x, ip', v', hx, -, hmap, -⟩ := bmap_plain_steady h hz (length - 1)
        rw [hx]
        cases x with
        | blk b => cases u_error <;> exact hmap
        | none => exact hmap
        | efbig => exact hmap
      · next hbelow =>
        have hlt : ip.Cuts length := by
          rcases Int.lt_or_eq_of_le (Int.not_lt.mp hbelow) with hlt | heq
          · exact .inl (by rwa [hsize] at hlt)
          · rw [hsize] at heq
            cases hp : ip.pipe with
            | true => exact .inr ⟨hp, heq⟩
            | false =>
              refine absurd ⟨hp, ?_⟩ hsame
              rw [heq, File.extent, hp]
              rfl
        split
        · obtain ⟨x, ip', v', hx, ⟨l', hown⟩, hmap, hfound⟩ := bmap_plain_steady h hz length
          rw [hx]
          cases x with
          | blk b =>
            cases u_error with
            | true => exact hmap
            | false =>
              obtain ⟨rfl, hbz⟩ := hfound b rfl
              simp only [Bool.false_eq_true, if_false]
              generalize clearFrom (blkoff length) _ = w
              have hn := (List.nodup_append.mp hown.nodup).2.1
              have hnodes : nodesOf (v'.setBlk (lookup v'.blk ip'.i_addr (lblkno length)) w).blk ip'.i_addr =
                  nodesOf v'.blk ip'.i_addr := nodesOf_write hn hbz w
              have hleaf : lookup v'.blk ip'.i_addr (lblkno length) ∈ treeOf v'.blk ip'.i_addr := by
                rw [← nodesOf_blocks]
                exact List.mem_map_of_mem (mem_nodesOf.mpr ⟨rfl, hbz⟩)
              have hown' := hown.moves (setBlk_moves hown hleaf w)
              rw [← nodesOf_blocks, ← hnodes, nodesOf_blocks] at hown'
              rw [hshrink h0 hlt hown', lookup_congr hnodes, hmap]
          | none => exact hmap
          | efbig => exact hmap
        · exact hshrink h0 hlt h

/-- **One step** keeps the free list apart and what is mapped below `lim`. -/
theorem MapStep.steady (hs : MapStep lim s s') (h : Apart s) :
    Apart s' ∧ ∀ bn < lim, lookup s.1.blk s.2.i_addr bn ≠ 0 →
      lookup s'.1.blk s'.2.i_addr bn = lookup s.1.blk s.2.i_addr bn := by
  obtain ⟨l, h⟩ := h
  cases hs with
  | bmap dev c n =>
    exact ⟨(bmap_steady 0 h n).1, fun bn _ => (bmap_steady bn h n).2⟩
  | @write v ip n w hz =>
    have hn := (List.nodup_append.mp h.nodup).2.1
    have hnodes := nodesOf_write hn hz w
    have hleaf : lookup v.blk ip.i_addr n ∈ treeOf v.blk ip.i_addr := by
      rw [← nodesOf_blocks]
      exact List.mem_map_of_mem (mem_nodesOf.mpr ⟨rfl, hz⟩)
    refine ⟨⟨l, ?_⟩, fun bn _ _ => lookup_congr hnodes bn⟩
    have hown := h.moves (setBlk_moves h hleaf w)
    rw [← nodesOf_blocks] at hown ⊢
    have hsame : nodesOf (v.setBlk (lookup v.blk ip.i_addr n) w).blk ip.i_addr = nodesOf v.blk ip.i_addr := hnodes
    simp only [hsame]
    exact hown
  | cut u_error length hmax hkeep =>
    obtain ⟨l', hm⟩ := (itrunc_keeps u_error length h).moves
    exact ⟨⟨l', h.moves hm⟩, fun bn hbn hz => itrunc_steady h hmax (fun h0 hlt => Nat.lt_of_lt_of_le hbn (hkeep h0 hlt)) hz⟩
  | @elsewhere v v' ip ip' l' haddr hsame ho =>
    have hnodes : nodesOf v'.blk ip'.i_addr = nodesOf v.blk ip.i_addr := by
      rw [haddr]
      refine nodesOf_frame fun m hm _ => hsame m.block ?_
      rw [← nodesOf_blocks]
      exact List.mem_map_of_mem hm
    refine ⟨⟨l', ?_⟩, fun bn _ _ => lookup_congr hnodes bn⟩
    simp only [← nodesOf_blocks, hnodes]
    rwa [← nodesOf_blocks] at ho

/-- And so does a run. -/
theorem MapStep.run (hs : Relation.ReflTransGen (MapStep lim) s s') (h : Apart s) :
    Apart s' ∧ ∀ bn < lim, lookup s.1.blk s.2.i_addr bn ≠ 0 →
      lookup s'.1.blk s'.2.i_addr bn = lookup s.1.blk s.2.i_addr bn := by
  induction hs with
  | refl => exact ⟨h, fun _ _ _ => rfl⟩
  | tail _ hstep ih =>
    obtain ⟨hapart, hmap⟩ := ih
    obtain ⟨hapart', hmap'⟩ := hstep.steady hapart
    refine ⟨hapart', fun bn hbn hz => ?_⟩
    have hold := hmap bn hbn hz
    rw [← hold] at hz
    rw [hmap' bn hbn hz, hold]

end

end DiscoBSD.Ufs
