import DiscoBSD.Tty.Queue

/-!
# What the calls do to the characters

One lemma a call, for a clist and the free list: what the call returns, and the characters it leaves. **A call
that finds the free list empty has queued a prefix, and nothing that was queued before has moved.** How much
goes into a clist is known beforehand from the free blocks and the room in its last one.
-/

set_option autoImplicit false

namespace DiscoBSD.Tty

open DiscoBSD.Lib
open Function (update)

/-- A call on a clist with the blocks `bs` has left it with the characters `cs'`. -/
def Became (σ : Mem) (fs bs : List ℕ) (σ' : Mem) (q' : Clist) (cs' : List UInt8) : Prop :=
  ∃ fs' bs', Queue σ' q' fs' bs' cs' ∧ Moved σ fs bs σ' fs' bs'

/-- The characters that went from the first block of a clist. -/
def lead (q : Clist) : ℕ := offset q.c_cf - linkSize

/-- The characters that still go into the last block of a clist. -/
def room (q : Clist) : ℕ := if offset q.c_cl = 0 then 0 else cblock - offset q.c_cl

section

variable {σ : Mem} {q : Clist} {fs bs : List ℕ} {cs : List UInt8} {b : ℕ}

theorem Queue.same (h : Queue σ q fs bs cs) : Became σ fs bs σ q cs := ⟨fs, bs, h, Moved.refl ..⟩

theorem Queue.emptied (h : Queue σ q fs bs []) : bs = [] ∧ q = .empty := by
  have hbs := h.nil_iff.mpr rfl
  subst hbs
  exact ⟨rfl, h.holds.1⟩

/-- The blocks of a clist are as many as it needs. -/
theorem Queue.capacity (h : Queue σ q fs (b :: bs) cs) :
    lead q + cs.length + room q = cbsize * (b :: bs).length ∧ lead q < cbsize ∧ room q < cbsize := by
  have hlen := h.chained.length
  rw [h.length] at hlen
  obtain ⟨hoff, -⟩ := h.block
  obtain ⟨hlo, hhi⟩ := h.chained.first
  have hlead : lead q = q.c_cf - (b + linkSize) := by
    unfold lead
    rw [offset_of hoff (by lia) hhi]
    lia
  have hroom : room q = lastBlock b bs + cblock - q.c_cl := by
    obtain ⟨-, -, hlo', hhi'⟩ := h.last
    unfold room
    rcases h.offset_cl with ⟨hz, hcl⟩ | ⟨ho, hz, -⟩
    · rw [if_pos hz]
      lia
    · rw [if_neg hz, ho]
      lia
  obtain ⟨-, -, hlo', hhi'⟩ := h.last
  have hsize : cblock - linkSize = cbsize := rfl
  have hlink : linkSize = 4 := rfl
  have hcb : cbsize = 28 := rfl
  have hblk : cblock = 32 := rfl
  rw [hlead, hroom, List.length_cons, Nat.mul_comm, ← hsize]
  exact ⟨hlen, by lia, by lia⟩

/-! ## The front -/

theorem getc_spec (h : Queue σ q fs bs cs) :
    (σ.getc q).1 = (cs.head?.map fun c => (c.toNat : ℤ)).getD (-1) ∧
      Became σ fs bs (σ.getc q).2.1 (σ.getc q).2.2 cs.tail := by
  cases cs with
  | nil =>
    obtain ⟨rfl, rfl⟩ := h.emptied
    exact ⟨rfl, h.same⟩
  | cons c cs =>
    cases bs with
    | nil => exact absurd h.holds.2 (List.cons_ne_nil c cs)
    | cons b bs =>
      have hpos := h.c_cc_pos
      have hlt := h.chained.first.2
      obtain ⟨fs', bs', hq, hm, hload, -⟩ := h.advance Nat.one_pos (Nat.le_add_left ..) hlt
      have hbyte : σ.byte q.c_cf = c := List.cons.inj hload |>.1
      simp only [Mem.getc, if_neg (Int.not_le.mpr hpos), hbyte]
      exact ⟨rfl, fs', bs', hq, hm⟩

theorem qToBLoop_spec (turns : ℕ) : ∀ {σ : Mem} {q : Clist} {fs bs : List ℕ} {cs : List UInt8} {b : ℕ},
    Queue σ q fs (b :: bs) cs → ∀ cc ≤ turns, ∃ σ' q', Mem.qToBLoop turns σ q cc = some (cs.take cc, σ', q') ∧
      Became σ fs (b :: bs) σ' q' (cs.drop cc) ∧ (cs.drop cc ≠ [] → q'.c_cl = q.c_cl) := by
  induction turns with
  | zero =>
    intro σ q fs bs cs b h cc hcc
    obtain rfl : cc = 0 := Nat.le_zero.mp hcc
    exact ⟨σ, q, rfl, h.same, fun _ => rfl⟩
  | succ turns ih =>
    intro σ q fs bs cs b h cc hcc
    cases cc with
    | zero => exact ⟨σ, q, rfl, h.same, fun _ => rfl⟩
    | succ cc =>
      obtain ⟨hoff, -⟩ := h.block
      obtain ⟨hlo, hhi⟩ := h.chained.first
      have hlen := h.c_cc
      have hpos := h.c_cc_pos
      generalize hn : min (min (cblock - offset q.c_cf) (cc + 1)) q.c_cc.toNat = n
      rw [offset_of hoff (by lia) hhi] at hn
      obtain ⟨fs', bs', hq, hm, hload, hcl⟩ := h.advance (n := n) (by lia) (by lia) (by lia)
      have hcc' := hq.c_cc
      unfold Mem.qToBLoop
      rw [offset_of hoff (by lia) hhi]
      simp only [hn]
      have hnpos : 0 < n := by lia
      have hncc : n ≤ cc + 1 := by lia
      have hnlen : n ≤ cs.length := by lia
      clear hn
      by_cases hdone : cs.drop n = []
      · -- Everything is taken.
        have hall : n = cs.length := by
          have := List.drop_eq_nil_iff.mp hdone
          lia
        have hzero : (σ.advance q n).2.c_cc ≤ 0 := by
          rw [hcc', hdone]
          exact le_rfl
        have htake : cs.take (cc + 1) = cs.take n := by
          rw [hall, List.take_length, List.take_of_length_le (by lia)]
        have hdrop : cs.drop (cc + 1) = cs.drop n := by
          rw [hdone, List.drop_eq_nil_of_le (by lia)]
        rw [if_pos hzero, htake, hdrop, hload]
        exact ⟨_, _, rfl, ⟨fs', bs', hq, hm⟩, fun hne => absurd hdone hne⟩
      · have hmore : ¬ (σ.advance q n).2.c_cc ≤ 0 := by
          have := List.length_pos_iff.mpr hdone
          rw [hcc']
          lia
        cases bs' with
        | nil => exact absurd hq.holds.2 hdone
        | cons b' bs' =>
          obtain ⟨σ', q', hloop, ⟨fs₂, bs₂, hq₂, hm₂⟩, hcl₂⟩ := ih hq (cc + 1 - n) (by lia)
          have hsplit : cc + 1 = n + (cc + 1 - n) := by lia
          rw [if_neg hmore, hloop, hload]
          rw [List.drop_drop, ← hsplit] at hq₂ hcl₂
          refine ⟨σ', q', ?_, ⟨fs₂, bs₂, hq₂, hm.trans hm₂⟩, fun hne => (hcl₂ hne).trans (hcl hdone)⟩
          rw [Option.map_some, ← List.take_add, ← hsplit]

theorem qToB_spec (h : Queue σ q fs bs cs) (cc : ℤ) :
    ∃ σ' q', σ.qToB q cc = some (cs.take cc.toNat, σ', q') ∧ Became σ fs bs σ' q' (cs.drop cc.toNat) ∧
      (cs.drop cc.toNat ≠ [] → q'.c_cl = q.c_cl) := by
  unfold Mem.qToB
  by_cases hcc : cc ≤ 0
  · rw [if_pos hcc, Int.toNat_of_nonpos hcc]
    exact ⟨σ, q, rfl, h.same, fun _ => rfl⟩
  · rw [if_neg hcc]
    cases bs with
    | nil =>
      obtain ⟨rfl, rfl⟩ := h.holds
      rw [if_pos (show Clist.empty.c_cc ≤ 0 from le_rfl), List.take_nil, List.drop_nil]
      exact ⟨σ, .empty, rfl, h.same, fun _ => rfl⟩
    | cons b bs =>
      rw [if_neg (Int.not_le.mpr h.c_cc_pos)]
      exact qToBLoop_spec cc.toNat h cc.toNat le_rfl

/-- Once the clist is empty nothing more is flushed. -/
theorem ndflushLoop_empty (turns : ℕ) (hzero : q.c_cc = 0) (cc : ℕ) :
    Mem.ndflushLoop turns σ q cc = some (σ, q) := by
  cases cc with
  | zero => rw [Mem.ndflushLoop]
  | succ cc =>
    rw [Mem.ndflushLoop]
    exact if_pos hzero

theorem ndflushLoop_spec (turns : ℕ) : ∀ {σ : Mem} {q : Clist} {fs bs : List ℕ} {cs : List UInt8} {b : ℕ},
    Queue σ q fs (b :: bs) cs → ∀ cc ≤ turns, ∃ σ' q', Mem.ndflushLoop turns σ q cc = some (σ', q') ∧
      Became σ fs (b :: bs) σ' (if q'.c_cc ≤ 0 then .empty else q') (cs.drop cc) := by
  induction turns with
  | zero =>
    intro σ q fs bs cs b h cc hcc
    obtain rfl : cc = 0 := Nat.le_zero.mp hcc
    refine ⟨σ, q, by rw [Mem.ndflushLoop], ?_⟩
    rw [if_neg (Int.not_le.mpr h.c_cc_pos)]
    exact h.same
  | succ turns ih =>
    intro σ q fs bs cs b h cc hcc
    cases cc with
    | zero =>
      refine ⟨σ, q, by rw [Mem.ndflushLoop], ?_⟩
      rw [if_neg (Int.not_le.mpr h.c_cc_pos)]
      exact h.same
    | succ cc =>
      obtain ⟨hoff, -⟩ := h.block
      obtain ⟨hlo, hhi⟩ := h.chained.first
      obtain ⟨hoffl, -, hlol, hhil⟩ := h.last
      have hlen := h.c_cc
      have hpos := h.c_cc_pos
      have hbcf : blockOf q.c_cf = b := blockOf_of hoff (by lia) hhi
      have hbcl : blockOf (q.c_cl - 1) = lastBlock b bs := blockOf_of hoffl (by lia) (by lia)
      unfold Mem.ndflushLoop
      rw [if_neg (Int.ne_of_gt hpos), hbcf, hbcl]
      -- `cc + 1` characters are fewer than the first block has.
      have hpart : cc + 1 < cs.length → q.c_cf + (cc + 1) < b + cblock →
          ∃ σ' q', some (if (q.c_cc - (cc + 1 : ℕ)) ≤ 0 then σ.release b else σ,
              (⟨q.c_cc - (cc + 1 : ℕ), q.c_cf + (cc + 1), q.c_cl⟩ : Clist)) = some (σ', q') ∧
            Became σ fs (b :: bs) σ' (if q'.c_cc ≤ 0 then .empty else q') (cs.drop (cc + 1)) := by
        intro hlt hin
        obtain ⟨hq, -⟩ := h.inside hlt hin
        have hmore : ¬ q.c_cc - (cc + 1 : ℕ) ≤ 0 := by lia
        refine ⟨_, _, rfl, ?_⟩
        rw [if_neg hmore, if_neg hmore]
        exact hq.same
      cases bs with
      | nil =>
        have hcells := h.length
        simp only [Lib.cells, List.length_range'] at hcells
        simp only [lastBlock, if_true, hcells]
        simp only [lastBlock] at hhil
        by_cases hall : cs.length ≤ cc + 1
        · obtain ⟨-, -, hq, hm, -⟩ := h.all (by lia)
          have hzero : q.c_cc - cs.length = 0 := by lia
          rw [if_pos hall, ndflushLoop_empty turns hzero]
          refine ⟨_, _, rfl, ?_⟩
          rw [if_pos hzero.le, List.drop_eq_nil_of_le hall]
          exact ⟨b :: fs, [], hq, hm⟩
        · rw [if_neg hall]
          exact hpart (by lia) (by lia)
      | cons b₂ bs₂ =>
        obtain ⟨-, hbs, -⟩ := List.nodup_append.mp h.nodup
        have hne : b ≠ lastBlock b (b₂ :: bs₂) := by
          intro he
          exact (List.nodup_cons.mp hbs).1 (he ▸ lastBlock_mem b₂ bs₂)
        have hrest := h.chained.2.2.2.length_pos
        have hcells := h.length
        simp only [Lib.cells, List.length_append, List.length_range'] at hcells
        simp only [if_neg hne]
        by_cases hfew : b + cblock - q.c_cf ≤ cc + 1
        · obtain ⟨hq, hm, -⟩ := h.over (n := b + cblock - q.c_cf) (by lia) (by lia)
          obtain ⟨σ', q', hloop, fs₂, bs₃, hq₂, hm₂⟩ := ih hq (cc + 1 - (b + cblock - q.c_cf)) (by lia)
          have hsplit : b + cblock - q.c_cf + (cc + 1 - (b + cblock - q.c_cf)) = cc + 1 := by lia
          rw [List.drop_drop, hsplit] at hq₂
          simp only [if_pos hfew]
          exact ⟨σ', q', hloop, fs₂, bs₃, hq₂, hm.trans hm₂⟩
        · simp only [if_neg hfew]
          exact hpart (by lia) (by lia)

theorem ndflush_spec (h : Queue σ q fs bs cs) (cc : ℤ) :
    ∃ σ' q', σ.ndflush q cc = some (σ', q') ∧ Became σ fs bs σ' q' (cs.drop cc.toNat) := by
  unfold Mem.ndflush
  cases bs with
  | nil =>
    obtain ⟨rfl, rfl⟩ := h.holds
    rw [if_pos (show Clist.empty.c_cc ≤ 0 from le_rfl), List.drop_nil]
    exact ⟨σ, .empty, rfl, h.same⟩
  | cons b bs =>
    obtain ⟨σ', q', hloop, hb⟩ := ndflushLoop_spec cc.toNat h cc.toNat le_rfl
    rw [if_neg (Int.not_le.mpr h.c_cc_pos), hloop]
    exact ⟨σ', _, rfl, hb⟩

/-- `ndqb` counts characters that lie one behind the other, up to a flagged one or the end of the block. -/
theorem ndqb_spec (h : Queue σ q fs bs cs) (flag : ℕ) :
    ∃ n, σ.ndqb q flag = (n : ℕ) ∧ n ≤ cs.length ∧ σ.load q.c_cf n = cs.take n ∧
      (flag ≠ 0 → ∀ c ∈ cs.take n, c.toNat &&& flag = 0) ∧
      (n = cs.length ∨ offset (q.c_cf + n) = 0 ∨ flag ≠ 0 ∧ ∃ c, cs[n]? = some c ∧ c.toNat &&& flag ≠ 0) := by
  cases bs with
  | nil =>
    obtain ⟨rfl, rfl⟩ := h.holds
    exact ⟨0, rfl, le_rfl, rfl, by simp, .inl rfl⟩
  | cons b bs =>
    obtain ⟨hoff, -⟩ := h.block
    obtain ⟨hlo, hhi⟩ := h.chained.first
    have hlen := h.c_cc
    have hpos := h.c_cc_pos
    have hlink : linkSize = 4 := rfl
    have hcb : cbsize = 28 := rfl
    have hblk : cblock = 32 := rfl
    have hend : blockOf (q.c_cf + cbsize) = b + cblock := blockOf_of (offset_end hoff) (by lia) (by lia)
    generalize hm : (if q.c_cc < (b + cblock - q.c_cf : ℕ) then q.c_cc.toNat else b + cblock - q.c_cf) = m
    have hmin : m = min cs.length (b + cblock - q.c_cf) := by
      rw [← hm]
      split_ifs <;> lia
    -- The first `m` characters are the rest of the block, or all.
    have hload : ∀ n ≤ m, σ.load q.c_cf n = cs.take n := by
      intro n hn
      rcases Nat.lt_or_ge n cs.length with hlt | hge
      · rcases Nat.lt_or_ge (q.c_cf + n) (b + cblock) with hin | hout
        · exact (h.inside hlt hin).2
        · exact (h.over hlt (by lia)).2.2
      · obtain rfl : n = cs.length := by lia
        rw [(h.all (by lia)).2.2.2.2, List.take_length]
    have hstop : m = cs.length ∨ offset (q.c_cf + m) = 0 := by
      rcases Nat.lt_or_ge m cs.length with hlt | hge
      · refine .inr ?_
        rw [show q.c_cf + m = b + cblock by lia]
        exact offset_end hoff
      · exact .inl (by lia)
    simp only [Mem.ndqb, if_neg (Int.not_le.mpr hpos), hend, hm]
    by_cases hflag : flag = 0
    · rw [if_pos hflag]
      exact ⟨m, rfl, by lia, hload m le_rfl, fun hne => absurd hflag hne, hstop.imp_right .inl⟩
    · rw [if_neg hflag]
      refine ⟨_, rfl, ?_⟩
      have hbyte : ∀ i < m, cs[i]? = some (σ.byte (q.c_cf + i)) := by
        intro i hi
        have hat := congrArg (·[i]?) (hload m le_rfl)
        simp only [Mem.load, List.getElem?_map, List.getElem?_take_of_lt hi] at hat
        rw [← hat, List.getElem?_range' hi]
        simp
      generalize hp : (fun i => decide ((σ.byte (q.c_cf + i)).toNat &&& flag ≠ 0)) = p
      have hle : (List.range m).findIdx p ≤ m := by
        have : (List.range m).findIdx p ≤ (List.range m).length := List.findIdx_le_length
        rwa [List.length_range] at this
      refine ⟨by lia, hload _ hle, fun _ c hc => ?_, ?_⟩
      · -- No character before the index is flagged.
        obtain ⟨i, hi⟩ := List.mem_iff_getElem?.mp hc
        have hin : i < (List.range m).findIdx p := by
          have := (List.getElem?_eq_some_iff.mp hi).1
          rw [List.length_take] at this
          lia
        have hnot := List.not_of_lt_findIdx hin
        rw [List.getElem?_take_of_lt hin, hbyte i (by lia)] at hi
        rw [List.getElem_range, ← hp] at hnot
        simpa [Option.some.inj hi] using hnot
      · rcases Nat.eq_or_lt_of_le hle with heq | hlt
        · rw [heq]
          exact hstop.imp_right .inl
        · refine .inr (.inr ⟨hflag, _, hbyte _ hlt, ?_⟩)
          have hlt' : (List.range m).findIdx p < (List.range m).length := by rwa [List.length_range]
          have hat := List.findIdx_getElem (w := hlt')
          rw [List.getElem_range, ← hp] at hat
          rw [← hp]
          simpa using hat

/-! ## The back -/

theorem offset_info {f : ℕ} (hf : offset f = 0) : offset (info f) = linkSize := by
  have hin := offset_of hf (a := info f) (Nat.le_add_right ..) (Nat.add_lt_add_left (by decide) f)
  rw [hin]
  exact Nat.add_sub_cancel_left f linkSize

/-- The link of the last block is cleared when no block is free. -/
theorem Queue.linkFree (h : Queue σ q [] (b :: bs) cs) :
    Queue (σ.linkFree (lastBlock b bs)) q [] (b :: bs) cs ∧
      Moved σ [] (b :: bs) (σ.linkFree (lastBlock b bs)) [] (b :: bs) := by
  obtain ⟨-, hbs, -⟩ := List.nodup_append.mp h.nodup
  refine ⟨⟨h.free, h.count, ⟨?_, h.cells, h.c_cc⟩, h.nodup, h.aligned⟩, .refl _, ?_, fun _ _ => rfl⟩
  · exact h.chained.congr hbs fun x _ hx => Function.update_of_ne hx ..
  · intro x hx
    refine Function.update_of_ne ?_ ..
    rintro rfl
    exact hx (lastBlock_mem b bs)

theorem putc_spec (h : Queue σ q fs bs cs) (c : ℕ) :
    ((σ.putc q c).1 = 0 ∧ Became σ fs bs (σ.putc q c).2.1 (σ.putc q c).2.2 (cs ++ [UInt8.ofNat c])) ∨
      ((σ.putc q c).1 = -1 ∧ fs = [] ∧ room q = 0 ∧ Became σ fs bs (σ.putc q c).2.1 (σ.putc q c).2.2 cs) := by
  cases bs with
  | nil =>
    obtain ⟨rfl, rfl⟩ := h.holds
    unfold Mem.putc
    rw [if_pos (.inl rfl)]
    cases fs with
    | nil =>
      rw [pop_none h.free]
      exact .inr ⟨rfl, rfl, rfl, h.same⟩
    | cons f fs =>
      obtain ⟨σ', hpop, hq, hm⟩ := h.start [UInt8.ofNat c] Nat.one_pos (Nat.le_of_lt_succ (by decide : 1 < cbsize + 1))
      rw [hpop]
      exact .inl ⟨rfl, fs, [f], hq, hm⟩
  | cons b bs =>
    obtain ⟨-, hpos, hlo, hhi⟩ := h.last
    have hsome : ¬ (q.c_cl = 0 ∨ q.c_cc < 0) := by
      have := h.c_cc_pos
      lia
    unfold Mem.putc
    rw [if_neg hsome]
    rcases h.offset_cl with ⟨hoff, hfull⟩ | ⟨-, hoff, hin⟩
    · rw [if_pos hoff]
      cases fs with
      | nil =>
        have hlast : q.c_cl - cblock = lastBlock b bs := by lia
        rw [hlast, pop_none (σ := σ.linkFree (lastBlock b bs)) h.free]
        exact .inr ⟨rfl, rfl, if_pos hoff, [], b :: bs, h.linkFree⟩
      | cons f fs =>
        obtain ⟨σ', hpop, hq, hm⟩ := h.append hfull [UInt8.ofNat c] Nat.one_pos (Nat.le_of_lt_succ (by decide : 1 < cbsize + 1))
        rw [hpop]
        exact .inl ⟨rfl, fs, _, hq, hm⟩
    · rw [if_neg hoff]
      obtain ⟨hq, hm⟩ := h.store [UInt8.ofNat c] hin
      exact .inl ⟨rfl, fs, _, hq, hm⟩

/-- The loop of `b_to_q`, from a clist that has a block. What is left is left for want of a free block. -/
theorem bToQLoop_spec (turns : ℕ) : ∀ {σ : Mem} {q : Clist} {fs bs : List ℕ} {cs : List UInt8} {b : ℕ},
    Queue σ q fs (b :: bs) cs → ∀ ds : List UInt8, ds.length ≤ turns → ∃ taken left σ' cl fs' bs',
      ds = taken ++ left ∧ Mem.bToQLoop turns σ q.c_cl ds = some (left, σ', cl) ∧
        Queue σ' ⟨q.c_cc + taken.length, q.c_cf, cl⟩ fs' (b :: bs') (cs ++ taken) ∧
        Moved σ fs (b :: bs) σ' fs' (b :: bs') ∧ (left ≠ [] → fs' = [] ∧ offset cl = 0) := by
  induction turns with
  | zero =>
    intro σ q fs bs cs b h ds hds
    obtain rfl : ds = [] := List.length_eq_zero_iff.mp (Nat.le_zero.mp hds)
    refine ⟨[], [], σ, q.c_cl, fs, bs, rfl, by rw [Mem.bToQLoop], ?_, Moved.refl .., fun hne => absurd rfl hne⟩
    rw [List.append_nil, List.length_nil, Nat.cast_zero, Int.add_zero]
    exact h
  | succ turns ih =>
    intro σ q fs bs cs b h ds hds
    cases hd : ds with
    | nil =>
      refine ⟨[], [], σ, q.c_cl, fs, bs, rfl, by rw [Mem.bToQLoop], ?_, Moved.refl .., fun hne => absurd rfl hne⟩
      rw [List.append_nil, List.length_nil, Nat.cast_zero, Int.add_zero]
      exact h
    | cons d ds' =>
      rw [← hd]
      have hlen : 0 < ds.length := by simp [hd]
      obtain ⟨-, -, hlo, hhi⟩ := h.last
      -- After the first `nc` bytes the loop goes on with the rest.
      have hrest : ∀ {σ₁ : Mem} {fs₁ bs₁ : List ℕ} {cl : ℕ} (nc : ℕ), 0 < nc → nc ≤ ds.length →
          Queue σ₁ ⟨q.c_cc + (ds.take nc).length, q.c_cf, cl⟩ fs₁ (b :: bs₁) (cs ++ ds.take nc) →
          Moved σ fs (b :: bs) σ₁ fs₁ (b :: bs₁) → ∃ taken left σ' cl' fs' bs', ds = taken ++ left ∧
            Mem.bToQLoop turns σ₁ cl (ds.drop nc) = some (left, σ', cl') ∧
            Queue σ' ⟨q.c_cc + taken.length, q.c_cf, cl'⟩ fs' (b :: bs') (cs ++ taken) ∧
            Moved σ fs (b :: bs) σ' fs' (b :: bs') ∧ (left ≠ [] → fs' = [] ∧ offset cl' = 0) := by
        intro σ₁ fs₁ bs₁ cl nc hnc hle hq hm
        obtain ⟨taken, left, σ', cl', fs', bs', hds', hloop, hq', hm', hleft⟩ := ih hq (ds.drop nc) (by
          rw [List.length_drop]
          lia)
        refine ⟨ds.take nc ++ taken, left, σ', cl', fs', bs', ?_, hloop, ?_, hm.trans hm', hleft⟩
        · rw [List.append_assoc, ← hds', List.take_append_drop]
        · rw [List.length_append, Nat.cast_add, ← Int.add_assoc, ← List.append_assoc]
          exact hq'
      rw [Mem.bToQLoop.eq_3 _ _ _ _ (by simp [hd])]
      rcases h.offset_cl with ⟨hoff, hfull⟩ | ⟨hin, hoff, hlt⟩
      · rw [if_pos hoff]
        cases fs with
        | nil =>
          have hlast : q.c_cl - cblock = lastBlock b bs := by lia
          rw [hlast, pop_none (σ := σ.linkFree (lastBlock b bs)) h.free]
          obtain ⟨hq, hm⟩ := h.linkFree
          refine ⟨[], ds, _, q.c_cl, [], bs, rfl, rfl, ?_, hm, fun _ => ⟨rfl, hoff⟩⟩
          rw [List.append_nil, List.length_nil, Nat.cast_zero, Int.add_zero]
          exact hq
        | cons f fs =>
          have hfoff := (h.aligned f (List.mem_append_left _ (List.mem_cons_self ..))).1
          have hnc : cblock - offset (info f) = cbsize := by
            rw [offset_info hfoff]
            rfl
          have hcb : cbsize = 28 := rfl
          have htake : (ds.take (min ds.length cbsize)).length = min ds.length cbsize := by
            rw [List.length_take]
            lia
          obtain ⟨σ₁, hpop, hq, hm⟩ := h.append hfull (ds.take (min ds.length cbsize)) (by lia) (by lia)
          rw [hpop]
          simp only [hnc]
          rw [htake] at hq
          exact hrest _ (by lia) (by lia) (by rw [htake]; exact hq) hm
      · rw [if_neg hoff]
        have htake : (ds.take (min ds.length (cblock - offset q.c_cl))).length =
            min ds.length (cblock - offset q.c_cl) := by
          rw [List.length_take]
          lia
        obtain ⟨hq, hm⟩ := h.store (ds.take (min ds.length (cblock - offset q.c_cl))) (by lia)
        rw [htake] at hq
        exact hrest _ (by lia) (by lia) (by rw [htake]; exact hq) hm

/-- The blocks that are left when a clist has taken what it could. -/
theorem Queue.full {cc : ℤ} {cl : ℕ} {σ' : Mem} {bs' : List ℕ} {taken : List UInt8} (h : Queue σ q fs (b :: bs) cs)
    (h' : Queue σ' ⟨cc, q.c_cf, cl⟩ [] (b :: bs') (cs ++ taken))
    (hm : Moved σ fs (b :: bs) σ' [] (b :: bs')) (hoff : offset cl = 0) :
    taken.length = room q + cbsize * fs.length := by
  have hcap := h.capacity.1
  have hcap' := h'.capacity.1
  have hlead : lead ⟨cc, q.c_cf, cl⟩ = lead q := rfl
  have hroom : room ⟨cc, q.c_cf, cl⟩ = 0 := if_pos hoff
  have hlen := hm.perm.length_eq
  simp only [List.nil_append, List.length_append, List.length_cons] at hlen hcap hcap'
  rw [hlead, hroom, show bs'.length + 1 = fs.length + (bs.length + 1) by lia, Nat.mul_add] at hcap'
  lia

theorem bToQ_spec (h : Queue σ q fs bs cs) (ds : List UInt8) : ∃ taken left σ' q', ds = taken ++ left ∧
    σ.bToQ q ds = some (left.length, σ', q') ∧ Became σ fs bs σ' q' (cs ++ taken) ∧
      (left ≠ [] → taken.length = room q + cbsize * fs.length) := by
  by_cases hds : ds = []
  · subst hds
    refine ⟨[], [], σ, q, rfl, if_pos rfl, ?_, fun hne => absurd rfl hne⟩
    rw [List.append_nil]
    exact h.same
  have hlen : 0 < ds.length := List.length_pos_iff.mpr hds
  unfold Mem.bToQ
  rw [if_neg hds]
  cases bs with
  | cons b bs =>
    have hsome : ¬ (q.c_cl = 0 ∨ q.c_cc < 0) := by
      have := h.c_cc_pos
      have := h.last
      lia
    obtain ⟨taken, left, σ', cl, fs', bs', hsplit, hloop, hq, hm, hleft⟩ := bToQLoop_spec ds.length h ds le_rfl
    have htaken : ds.length - left.length = taken.length := by
      rw [hsplit, List.length_append, Nat.add_sub_cancel]
    rw [if_neg hsome, hloop, Option.map_some]
    simp only [htaken]
    refine ⟨taken, left, σ', _, hsplit, rfl, ⟨fs', _, hq, hm⟩, fun hne => ?_⟩
    obtain ⟨rfl, hoff⟩ := hleft hne
    exact h.full hq hm hoff
  | nil =>
    obtain ⟨rfl, rfl⟩ := h.holds
    rw [if_pos (.inl rfl)]
    cases fs with
    | nil =>
      rw [pop_none h.free]
      refine ⟨[], ds, σ, .empty, rfl, rfl, h.same, fun _ => rfl⟩
    | cons f fs =>
      obtain ⟨k, hk⟩ := Nat.exists_eq_add_of_lt hlen
      have hfoff := (h.aligned f (List.mem_append_left _ (List.mem_cons_self ..))).1
      have hinfo := offset_info hfoff
      have hnc : cblock - offset (info f) = cbsize := by
        rw [hinfo]
        rfl
      have htake : (ds.take (min ds.length cbsize)).length = min ds.length cbsize := by
        rw [List.length_take]
        lia
      have hcb : cbsize = 28 := rfl
      obtain ⟨σ₁, hpop, hq₁, hm₁⟩ := h.start (ds.take (min ds.length cbsize)) (by lia) (by lia)
      -- The first turn fills the new block, the others go on from there.
      obtain ⟨taken, left, σ', cl, fs', bs', hsplit, hloop, hq, hm, hleft⟩ :=
        bToQLoop_spec k hq₁ (ds.drop (min ds.length cbsize)) (by
          rw [List.length_drop]
          lia)
      have hds' : ds = ds.take (min ds.length cbsize) ++ taken ++ left := by
        rw [List.append_assoc, ← hsplit, List.take_append_drop]
      have htaken : ds.length - left.length = (ds.take (min ds.length cbsize) ++ taken).length := by
        conv_lhs => rw [hds', List.length_append]
        exact Nat.add_sub_cancel ..
      have hturn : Mem.bToQLoop ds.length σ₁ (info f) ds = some (left, σ', cl) := by
        rw [show ds.length = k + 1 by lia, Mem.bToQLoop.eq_3 _ _ _ _ hds, hinfo, if_neg (by decide)]
        rw [hinfo] at hnc
        simp only [hnc]
        rw [← hloop, htake]
      rw [hpop]
      simp only [hturn, Option.map_some, htaken]
      refine ⟨_, left, σ', _, hds', rfl, ⟨fs', f :: bs', ?_, hm₁.trans hm⟩, fun hne => ?_⟩
      · rw [List.nil_append, List.length_append, Nat.cast_add, show Clist.empty.c_cc = 0 from rfl, Int.zero_add]
        exact hq
      · obtain ⟨rfl, hoff⟩ := hleft hne
        have hfull := hq₁.full hq hm hoff
        have hcap := hq₁.capacity.1
        have hlead : lead ⟨((ds.take (min ds.length cbsize)).length : ℕ), info f,
            info f + (ds.take (min ds.length cbsize)).length⟩ = 0 := by
          rw [lead, hinfo]
          exact Nat.sub_self _
        rw [hlead, List.length_singleton] at hcap
        rw [List.length_append, List.length_cons, show room .empty = 0 from rfl, Nat.mul_add]
        lia

/-! ## unputc -/

/-- The search for the block before the last one. -/
theorem before_spec {next : ℕ → ℕ} (hnext : σ.c_next = next) {z : ℕ} (turns : ℕ) : ∀ {cf cl b : ℕ} {bs : List ℕ},
    Chained linkSize cblock next cl cf b (bs ++ [z]) → (b :: (bs ++ [z])).Nodup → bs.length < turns →
      σ.before z turns b = some (lastBlock b bs) := by
  induction turns with
  | zero => exact fun _ _ hlt => absurd hlt (Nat.not_lt_zero _)
  | succ turns ih =>
    intro cf cl b bs hch hnd hlt
    cases bs with
    | nil =>
      have hz : σ.c_next b = z := hnext ▸ hch.2.2.1
      rw [Mem.before, if_pos hz]
      rfl
    | cons b₂ bs =>
      obtain ⟨-, -, hb, hch'⟩ := hch
      have hb : σ.c_next b = b₂ := hnext ▸ hb
      obtain ⟨-, hnd'⟩ := List.nodup_cons.mp hnd
      have hne : b₂ ≠ z := by
        rintro rfl
        exact (List.nodup_cons.mp hnd').1 (List.mem_append_right bs (List.mem_singleton_self _))
      rw [Mem.before, hb, if_neg hne]
      exact ih hch' hnd' (Nat.lt_of_succ_lt_succ hlt)

/-- The last character, and the characters and cells before it. -/
theorem Queue.last_cell {cl : ℕ} {l : List ℕ} (h : Queue σ q fs (b :: bs) cs)
    (hcells : Lib.cells linkSize cblock q.c_cl q.c_cf b bs = l ++ [cl]) :
    cs.getLast? = some (σ.byte cl) ∧ cs.dropLast = l.map σ.byte := by
  have hcs := h.cells
  rw [hcells, List.map_append, List.map_singleton] at hcs
  rw [hcs]
  exact ⟨List.getLast?_concat, List.dropLast_concat⟩

theorem unputc_spec (h : Queue σ q fs bs cs) : ∃ r σ' q', σ.unputc q = some (r, σ', q') ∧
    r = (cs.getLast?.map fun c => (c.toNat : ℤ)).getD (-1) ∧ Became σ fs bs σ' q' cs.dropLast := by
  cases bs with
  | nil =>
    obtain ⟨rfl, rfl⟩ := h.holds
    exact ⟨-1, σ, .empty, rfl, rfl, h.same⟩
  | cons b bs =>
    obtain ⟨hoff, -⟩ := h.block
    obtain ⟨hlo, hhi⟩ := h.chained.first
    obtain ⟨hoffl, hposl, hlol, hhil⟩ := h.last
    obtain ⟨hfs, hbs, hdisj⟩ := List.nodup_append.mp h.nodup
    have hcc := h.c_cc
    have hpos := h.c_cc_pos
    have hlink : linkSize = 4 := rfl
    have hblock : blockOf (q.c_cl - 1) = lastBlock b bs := blockOf_of hoffl (by lia) (by lia)
    have hoffset : offset (q.c_cl - 1) = q.c_cl - 1 - lastBlock b bs := offset_of hoffl (by lia) (by lia)
    unfold Mem.unputc
    rw [if_neg (Int.not_le.mpr hpos)]
    by_cases hone : q.c_cc - 1 ≤ 0
    · -- The only character.
      have hlen : cs.length = 1 := by lia
      obtain ⟨rfl, hend, hq, hm, -⟩ := h.all (by lia)
      have hcells : Lib.cells linkSize cblock q.c_cl q.c_cf b [] = [] ++ [q.c_cl - 1] := by
        simp only [Lib.cells, show q.c_cl - q.c_cf = 1 by lia, List.range'_one, List.nil_append]
        rw [show q.c_cl - 1 = q.c_cf by lia]
      obtain ⟨hlast, hdrop⟩ := h.last_cell hcells
      have hzero : q.c_cc - 1 = 0 := by lia
      simp only [hzero, le_refl, if_true, hblock]
      refine ⟨_, _, _, rfl, ?_, b :: fs, [], ⟨hq.free, hq.count, ⟨rfl, ?_⟩, hq.nodup, hq.aligned⟩,
        hm.perm, hm.next, hm.byte⟩
      · rw [hlast]
        rfl
      · rw [hdrop]
        rfl
    · simp only [if_neg hone, hoffset]
      by_cases hfirst : q.c_cl - 1 - lastBlock b bs = linkSize
      · -- The only character of the last block.
        rw [if_pos hfirst, hblock, blockOf_of hoff (by lia) hhi]
        rcases List.eq_nil_or_concat bs with rfl | ⟨bs', z, rfl⟩
        · have hcells := h.length
          simp only [lastBlock] at hfirst
          simp only [Lib.cells, List.length_range'] at hcells
          lia
        · rw [List.concat_eq_append] at *
          rw [lastBlock_append] at *
          obtain ⟨hnext, hch, hcells⟩ := h.chained.unsnoc
          rw [show q.c_cl - (z + linkSize) = 1 by lia, List.range'_one,
            show z + linkSize = q.c_cl - 1 by lia] at hcells
          obtain ⟨hlast, hdrop⟩ := h.last_cell hcells
          have hturns : bs'.length < q.c_cc.toNat := by
            have hcap := h.capacity
            rw [List.length_cons, List.length_append, List.length_singleton] at hcap
            unfold cbsize at hcap
            lia
          rw [before_spec rfl _ h.chained hbs hturns, Option.map_some, hnext]
          have hz : z ∈ b :: (bs' ++ [z]) :=
            List.mem_cons_of_mem b (List.mem_append_right bs' (List.mem_singleton_self z))
          have hzb : z ∉ b :: bs' := by
            rw [← List.cons_append] at hbs
            exact fun hm => (List.nodup_append.mp hbs).2.2 z hm z (List.mem_singleton_self z) rfl
          have hzfs : z ∉ fs := fun hm => hdisj z hm z hz rfl
          have hy : lastBlock b bs' ∉ z :: fs := by
            intro hm
            rcases List.mem_cons.mp hm with he | hm
            · exact hzb (he ▸ lastBlock_mem b bs')
            · exact hdisj _ hm _ (by
                rw [← List.cons_append]
                exact List.mem_append_left _ (lastBlock_mem b bs')) rfl
          have hperm : (z :: fs ++ b :: bs').Perm (fs ++ b :: (bs' ++ [z])) := by
            rw [← List.cons_append, ← List.append_assoc]
            exact (List.perm_append_singleton z _).symm
          have hmoved : Moved σ fs (b :: (bs' ++ [z]))
              { σ.push z with c_next := update (σ.push z).c_next (lastBlock b bs') 0 } (z :: fs) (b :: bs') := by
            refine ⟨hperm, fun x hx => ?_, fun _ _ => rfl⟩
            have hxy : x ≠ lastBlock b bs' := by
              rintro rfl
              refine hx (List.mem_append_right fs ?_)
              rw [← List.cons_append]
              exact List.mem_append_left _ (lastBlock_mem b bs')
            have hxz : x ≠ z := by
              rintro rfl
              exact hx (List.mem_append_right fs hz)
            exact (Function.update_of_ne hxy ..).trans (Function.update_of_ne hxz ..)
          refine ⟨_, _, _, rfl, ?_, z :: fs, b :: bs', ⟨?_, ?_, ⟨?_, hdrop, ?_⟩, hmoved.nodup h.nodup,
            hmoved.aligned h.aligned⟩, hmoved⟩
          · rw [hlast]
            rfl
          · exact (h.free.push hzfs).congr fun x hx => update_of_mem _ 0 hx hy
          · show σ.cfreecount + cbsize = cbsize * ((z :: fs).length : ℕ)
            rw [h.count, List.length_cons]
            unfold cbsize
            lia
          · refine hch.congr (List.nodup_cons.mpr ⟨?_, ?_⟩) fun x hx hxl => ?_
            · exact fun hm => (List.nodup_cons.mp hbs).1 (List.mem_append_left _ hm)
            · exact (List.nodup_append.mp (List.nodup_cons.mp hbs).2).1
            · have hxz : x ≠ z := by
                rintro rfl
                exact hzb hx
              exact (Function.update_of_ne hxl ..).trans (Function.update_of_ne hxz ..)
          · show q.c_cc - 1 = (cs.dropLast.length : ℤ)
            rw [List.length_dropLast]
            lia
      · -- The last block has more.
        rw [if_neg hfirst]
        have hch : Chained linkSize cblock σ.c_next (q.c_cl - 1) q.c_cf b bs := by
          refine h.chained.shrink (by lia) (fun hnil => ?_) (Nat.sub_le ..)
          subst hnil
          have hcells := h.length
          simp only [Lib.cells, List.length_range'] at hcells
          lia
        obtain ⟨-, hcells⟩ := hch.grow (Nat.sub_le q.c_cl 1) hhil
        rw [show q.c_cl - (q.c_cl - 1) = 1 by lia, List.range'_one] at hcells
        obtain ⟨hlast, hdrop⟩ := h.last_cell hcells
        refine ⟨_, _, _, rfl, ?_, fs, b :: bs, ⟨h.free, h.count, ⟨hch, hdrop, ?_⟩, h.nodup, h.aligned⟩, Moved.refl ..⟩
        · rw [hlast]
          rfl
        · show q.c_cc - 1 = (cs.dropLast.length : ℤ)
          rw [List.length_dropLast]
          lia

/-! ## The cells in order -/

/-- `nextc` goes from each cell to the one behind it, and from the last to nowhere. -/
theorem nextc_cells (hcc : q.c_cc ≠ 0) (n : ℕ) : ∀ {cf b : ℕ} {bs : List ℕ},
    Chained linkSize cblock σ.c_next q.c_cl cf b bs → (b :: bs).Nodup → (∀ x ∈ b :: bs, offset x = 0) →
      (cells linkSize cblock q.c_cl cf b bs).length = n → ∀ i < n,
        σ.nextc q ((cells linkSize cblock q.c_cl cf b bs).getD i 0) =
          (cells linkSize cblock q.c_cl cf b bs).getD (i + 1) 0 := by
  induction n with
  | zero => exact fun _ _ _ _ i hi => absurd hi (Nat.not_lt_zero i)
  | succ n ih =>
    intro cf b bs hch hnd halign hlen i hi
    have hoff := halign b (List.mem_cons_self ..)
    obtain ⟨hlo, hhi⟩ := hch.first
    obtain ⟨hlol, hhil⟩ := hch.last
    have hlink : linkSize = 4 := rfl
    -- The cells behind the first, and where `nextc` finds them.
    have hstep : ∃ rest, cells linkSize cblock q.c_cl cf b bs = cf :: rest ∧ σ.nextc q cf = rest.headD 0 ∧
        ∀ j, i = j + 1 → σ.nextc q (rest.getD j 0) = rest.getD (j + 1) 0 := by
      rcases Nat.eq_zero_or_pos n with rfl | hn
      · obtain ⟨-, hend, hcells⟩ := hch.only (n := 1) hhi hlen.symm
        refine ⟨[], hcells, ?_, fun j hj => by lia⟩
        unfold Mem.nextc
        rw [if_neg fun h => h.2 hend]
        rfl
      · have hne : cf + 1 ≠ q.c_cl := by
          intro he
          have hoffl := halign _ (lastBlock_mem b bs)
          have hlast : lastBlock b bs = b :=
            (blockOf_of hoffl (a := cf) (by lia) (by lia)).symm.trans (blockOf_of hoff (by lia) hhi)
          have hnil := eq_nil_of_lastBlock hnd hlast
          subst hnil
          simp only [cells, List.length_range'] at hlen
          lia
        rcases Nat.eq_or_lt_of_le (Nat.succ_le_of_lt hhi) with hend | hin
        · obtain ⟨b₂, bs₂, rfl, hnext, hch₂, hcells⟩ := hch.over (by lia)
          rw [show b + cblock - cf = 1 by lia, List.range'_one, List.singleton_append] at hcells
          refine ⟨_, hcells, ?_, fun j hj => ?_⟩
          · rw [hch₂.head]
            unfold Mem.nextc
            rw [if_pos ⟨hcc, hne⟩, show cf + 1 = b + cblock from hend, if_pos (offset_end hoff), Nat.add_sub_cancel,
              hnext]
            rfl
          · have hlen₂ := congrArg List.length hcells
            rw [hlen, List.length_cons] at hlen₂
            exact ih hch₂ (List.nodup_cons.mp hnd).2 (fun x hx => halign x (List.mem_cons_of_mem b hx)) (by lia) j
              (by lia)
        · obtain ⟨hch₂, hcells⟩ := hch.inside (n := 1) hin (by lia)
          rw [List.range'_one, List.singleton_append] at hcells
          refine ⟨_, hcells, ?_, fun j hj => ?_⟩
          · have hoff₂ : offset (cf + 1) ≠ 0 := by
              rw [offset_of hoff (by lia) hin]
              lia
            rw [hch₂.head]
            unfold Mem.nextc
            rw [if_pos ⟨hcc, hne⟩, if_neg hoff₂]
          · have hlen₂ := congrArg List.length hcells
            rw [hlen, List.length_cons] at hlen₂
            exact ih hch₂ hnd halign (by lia) j (by lia)
    obtain ⟨rest, hcells, hfirst, hrest⟩ := hstep
    rw [hcells]
    cases i with
    | zero =>
      rw [List.getD_cons_zero, List.getD_cons_succ, hfirst]
      cases rest <;> rfl
    | succ j =>
      rw [List.getD_cons_succ, List.getD_cons_succ]
      exact hrest j rfl

end

end DiscoBSD.Tty
