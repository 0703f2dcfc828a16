import DiscoBSD.Dir.Enter

/-!
# Creating and deleting an entry

**A new entry adds one entry, and a deleted one takes one away**; the directory stays well formed. What a lookup leaves is
enough for `direnter` and `dirremove` to do it in the block the lookup was in.

The one directory that cannot take another entry is the largest one: when none of its 2^21 - 1 blocks has room, the new
block brings the size to 2^31, and `direnter` leaves a size that is negative.
-/

set_option autoImplicit false

namespace DiscoBSD.Dir

open DiscoBSD.Lib
open DiscoBSD.Ufs (offT)

section
variable {dp : Directory} {bs : List (List Rec)} {dent : Direct} {ndp : Nameidata} {i : Nat}

/-! ## The blocks of a directory -/

theorem split_at {α : Type} {l : List α} {k : Nat} {x : α} (h : l[k]? = some x) :
    ∃ front back, l = front ++ x :: back ∧ front.length = k := by
  obtain ⟨hk, hx⟩ := List.getElem?_eq_some_iff.mp h
  refine ⟨l.take k, l.drop (k + 1), ?_, List.length_take_of_le (Nat.le_of_lt hk)⟩
  rw [← hx, List.getElem_cons_drop, List.take_append_drop]

/-- The last blocks are cut off. -/
theorem Holds.cut (h : Holds dp bs) {n : Nat} (hn : n ≤ bs.length) :
    Holds { dp with i_size := (n * dirblksiz : Nat) } (bs.take n) := by
  have hlen : (bs.take n).length = n := List.length_take_of_le hn
  refine ⟨by rw [hlen], ?_, fun k rs hk => ?_⟩
  · rw [hlen]
    exact Nat.lt_of_le_of_lt (Nat.mul_le_mul_right _ hn) h.fits
  · have hlt : k < n := by
      rw [← hlen]
      exact (List.getElem?_eq_some_iff.mp hk).1
    rw [List.getElem?_take_of_lt hlt] at hk
    exact h.block k rs hk

/-- Blocks without a record in use hold no entry. -/
theorem entries_cut {n : Nat} (hlive : ∀ k rs, bs[k]? = some rs → (∃ r ∈ rs, r.ino ≠ 0) → k < n) :
    entries (bs.take n).flatten = entries bs.flatten := by
  have hrest : entries (bs.drop n).flatten = [] := by
    refine List.eq_nil_iff_forall_not_mem.mpr fun e he => ?_
    obtain ⟨r, hr, hino, -⟩ := mem_entries.mp he
    obtain ⟨rs, hrs, hr⟩ := List.mem_flatten.mp hr
    obtain ⟨j, hj⟩ := List.getElem?_of_mem hrs
    rw [List.getElem?_drop] at hj
    have := hlive (n + j) rs hj ⟨r, hr, hino⟩
    lia
  conv_rhs => rw [← List.take_append_drop n bs, List.flatten_append, entries_append, hrest, List.append_nil]

/-- One part of one block is replaced. -/
theorem Holds.replace {front back : List (List Rec)} {pre mid mid' post : List Rec} {m : Nat → UInt8}
    (h : Holds dp (front ++ (pre ++ mid ++ post) :: back)) (hlays : Lays m (front.length * dirblksiz + span pre) mid')
    (hok : ∀ r ∈ mid', r.Ok) (hspan : span mid' = span mid)
    (hs : ∀ x, x < front.length * dirblksiz + span pre ∨ front.length * dirblksiz + span pre + span mid ≤ x →
      m x = dp.data x) :
    Holds { dp with data := m } (front ++ (pre ++ mid' ++ post) :: back) := by
  have hb := h.block front.length (pre ++ mid ++ post) (by simp)
  have hfull := hb.full
  rw [span_append, span_append] at hfull
  refine h.set (hb.replace hlays hok hspan hs) fun x hx => hs x ?_
  rw [Nat.succ_mul] at hx
  lia

theorem entries_replace (front back : List (List Rec)) (pre mid post : List Rec) :
    entries (front ++ (pre ++ mid ++ post) :: back).flatten =
      entries front.flatten ++ entries pre ++ entries mid ++ (entries post ++ entries back.flatten) := by
  simp [List.append_assoc]

theorem perm_insert {α : Type} (l m n : List α) (e : α) : (l ++ (m ++ [e]) ++ n).Perm (e :: (l ++ m ++ n)) := by
  rw [← List.append_assoc l, List.append_assoc _ [e], List.singleton_append]
  exact List.perm_middle

/-- Without a repeated entry, the one that goes is gone. -/
theorem perm_without {α : Type} {l l' : List α} {x : α} (h : l.Perm (x :: l')) (hn : l.Nodup) (e : α) :
    e ∈ l' ↔ e ∈ l ∧ e ≠ x := by
  have hout := (List.nodup_cons.mp (h.nodup hn)).1
  rw [h.mem_iff, List.mem_cons]
  constructor
  · intro he
    refine ⟨.inr he, ?_⟩
    rintro rfl
    exact hout he
  · rintro ⟨rfl | he, hne⟩
    · exact absurd rfl hne
    · exact he

/-! ## A new entry -/

/-- The entry goes into a place with room for it. -/
theorem Holds.placed (h : Holds dp bs) (io : Io) (hg : Given bs (dirsiz dent.d_namlen) ndp) (hdent : ndp.ni_dent = dent)
    (hname : dent.d_namlen ≤ maxnamlen) (hi : i ≠ 0) (hi' : i < 2 ^ 32) (hcount : ndp.ni_count ≠ 0) :
    (direnter io i ndp dp = .error .error ∧ ∃ b, io.reads b = false ∨ io.writes b = false) ∨
      ∃ dp' bs', direnter io i ndp dp = .ok dp' ∧ Holds dp' bs' ∧
        (entries bs'.flatten).Perm ((dent.name, i) :: entries bs.flatten) := by
  have hneed : 0 < dirsiz dent.d_namlen := Nat.lt_of_le_of_lt (Nat.zero_le _) (lt_dirsiz _)
  have hslot := hg.place hcount
  obtain ⟨-, -, hin⟩ := hslot.within h hneed
  obtain ⟨n, hn, hendoff, hcover, hlive⟩ := hg.useful
  obtain ⟨k, pre, mid, post, hk, hoff, hsize, hroom⟩ := hslot
  obtain ⟨front, back, rfl, rfl⟩ := split_at hk
  obtain ⟨hlays, hok, hfull⟩ := h.block front.length _ hk
  rw [Lays.append, Lays.append] at hlays
  rw [span_append, span_append] at hfull
  have hokmid : ∀ r ∈ mid, r.Ok := fun r hr => hok r (by simp [hr])
  have hne : mid ≠ [] := by
    rintro rfl
    rw [room_nil] at hroom
    lia
  have hcnt : ndp.ni_count = span mid := Int.ofNat.inj hsize
  have hdirbuf : ndp.ni_offset.toNat = front.length * dirblksiz + span pre := by rw [hoff, Int.toNat_natCast]
  obtain ⟨c, m', hloop, hplace, hlays', hsame⟩ := @compact_place dp.data (front.length * dirblksiz + span pre) mid
    { dent with d_ino := i } hlays.1.2 hokmid hne (by lia) hroom hname hi'
  have hkeep : (if ndp.ni_offset + ndp.ni_count > dp.i_size then
      { dp with i_size := ndp.ni_offset + ndp.ni_count } else dp) = dp := if_neg (by rw [h.size]; lia)
  unfold direnter
  dsimp only
  rw [if_neg hcount, hkeep, hdent, hdirbuf, hcnt, hloop]
  split
  · next hbad => exact .inl ⟨rfl, _, .inl hbad⟩
  · dsimp only
    rw [hplace]
    dsimp only
    split
    · next hbad => exact .inl ⟨rfl, _, .inr hbad⟩
    · refine .inr ?_
      have hall := span_packed hokmid
      have hspan : span (packed mid ++ [⟨i, dent.name, room mid⟩]) = span mid := by
        rw [span_append, span_cons, span_nil]
        exact hall
      have hnew : ∀ r ∈ packed mid ++ [⟨i, dent.name, room mid⟩], r.Ok := by
        intro r hr
        rcases List.mem_append.mp hr with hr | hr
        · exact ok_packed r hr
        · rw [List.mem_singleton.mp hr]
          have hdvd : 4 ∣ span mid := dvd_span hokmid
          have hdvd' : 4 ∣ span (packed mid) := dvd_span ok_packed
          refine ⟨by simp only; lia, ?_⟩
          simp only [Direct.name, readAt_length]
          exact hroom
      have hset := h.replace hlays' hnew hspan hsame
      have hbs : (entries (front ++ (pre ++ (packed mid ++ [⟨i, dent.name, room mid⟩]) ++ post) :: back).flatten).Perm
          ((dent.name, i) :: entries (front ++ (pre ++ mid ++ post) :: back).flatten) := by
        rw [entries_replace, entries_replace, entries_append, entries_packed, entries_cons, if_neg hi, entries_nil,
          List.append_nil]
        exact perm_insert ..
      have hlen : (front ++ (pre ++ mid ++ post) :: back).length =
          (front ++ (pre ++ (packed mid ++ [⟨i, dent.name, room mid⟩]) ++ post) :: back).length := by simp
      split
      · next hcut =>
        rw [hlen] at hn
        rw [hendoff]
        refine ⟨_, _, rfl, hset.cut hn, ?_⟩
        rw [entries_cut]
        · exact hbs
        · intro j rs hj hl
          by_cases hjf : j = front.length
          · have hpos := span_pos hokmid hne
            have hover := hcover hcount
            rw [hoff, hcnt, hendoff] at hover
            have hlt : front.length * dirblksiz < n * dirblksiz := by lia
            rw [hjf]
            exact Nat.lt_of_mul_lt_mul_right hlt
          · exact hlive j rs ((getElem?_other hjf _ _).trans hj) hl
      · exact ⟨_, _, rfl, hset, hbs⟩

/-- The size with a new block. -/
theorem roundup_next {n k : Nat} (h : n + 1 < 2 ^ 21) (hpos : 0 < k) (hk : k ≤ dirblksiz) :
    Dir.roundup (n * dirblksiz + k : Nat) = ((n + 1) * dirblksiz : Nat) := by
  have hround : (n * dirblksiz + k + (dirblksiz - 1)) / dirblksiz * dirblksiz = (n + 1) * dirblksiz := by
    clear h
    unfold dirblksiz at hk ⊢
    lia
  rw [roundup_eq, hround]
  unfold dirblksiz at hk ⊢
  lia

/-- At 2^31 it is not an `off_t`. -/
theorem roundup_limit {n k : Nat} (h : n + 1 = 2 ^ 21) (hpos : 0 < k) (hk : k ≤ dirblksiz) :
    Dir.roundup (n * dirblksiz + k : Nat) < 0 := by
  obtain rfl : n = 2097151 := by lia
  unfold dirblksiz at hk
  have hoff : offT (((2097151 * dirblksiz + k : Nat) : Int) + ((dirblksiz : Nat) - 1)) =
      -((2147483649 - k : Nat) : Int) := by
    unfold offT dirblksiz
    rw [Int.bmod_def]
    split <;> lia
  rw [Dir.roundup, hoff, Int.neg_tdiv, ← Int.ofNat_tdiv]
  have hdiv : 1 ≤ (2147483649 - k) / dirblksiz := by
    unfold dirblksiz
    lia
  unfold dirblksiz at hdiv ⊢
  lia

/-- A block of its own. -/
theorem Holds.grown (h : Holds dp bs) (io : Io) (hg : Given bs (dirsiz dent.d_namlen) ndp) (hdent : ndp.ni_dent = dent)
    (hname : dent.d_namlen ≤ maxnamlen) (hi' : i < 2 ^ 32) (hcount : ndp.ni_count = 0) :
    (direnter io i ndp dp = .error .error ∧ ∃ b, io.writes b = false) ∨
      ∃ dp', direnter io i ndp dp = .ok dp' ∧
        (bs.length + 1 < 2 ^ 21 → Holds dp' (bs ++ [[⟨i, dent.name, dirblksiz⟩]])) ∧
        (bs.length + 1 = 2 ^ 21 → dp'.i_size < 0) := by
  obtain ⟨hoff, -⟩ := hg.fresh hcount
  have hmany := h.length_lt
  have hsmall := dirsiz_le hname
  have hneed := lt_dirsiz dent.d_namlen
  have hmod : ¬ ndp.ni_offset % dirblksiz ≠ 0 := by
    rw [hoff]
    push_cast
    simp
  have hsize : offT (ndp.ni_offset + dirsiz dent.d_namlen) = (bs.length * dirblksiz + dirsiz dent.d_namlen : Nat) := by
    rw [hoff, offT, Int.bmod_def]
    unfold dirblksiz
    push_cast
    split <;> lia
  unfold direnter
  dsimp only
  rw [if_pos hcount, if_neg hmod, hdent, Directory.rdwri, hsize]
  by_cases hbad : ndp.ni_offset < 0 ∨ io.writes (ndp.ni_offset.toNat / dirblksiz) = false
  · rw [if_pos hbad]
    exact .inl ⟨rfl, _, hbad.resolve_left (by rw [hoff]; lia)⟩
  · have hgrows : dp.i_size < (bs.length * dirblksiz + dirsiz dent.d_namlen : Nat) := by
      rw [h.size]
      lia
    rw [if_neg hbad, if_pos hgrows, hoff, Int.toNat_natCast]
    refine .inr ⟨_, rfl, fun hlt => ⟨?_, ?_, fun k rs hk => ?_⟩, fun heq => ?_⟩
    · rw [List.length_append, List.length_singleton]
      exact roundup_next hlt (by lia) (by unfold dirblksiz; lia)
    · rw [List.length_append, List.length_singleton]
      exact Nat.mul_lt_mul_of_pos_right hlt (by decide)
    · rcases Nat.lt_or_ge k bs.length with hlt | hge
      · rw [List.getElem?_append_left hlt] at hk
        refine (h.block k rs hk).congr (writeAt_same dp.data (.inr ?_))
        simp only
        rw [← Nat.succ_mul]
        exact Nat.mul_le_mul_right _ hlt
      · rw [List.getElem?_append_right hge] at hk
        have hnil := (List.getElem?_eq_some_iff.mp hk).1
        rw [List.length_singleton] at hnil
        have hkeq : k = bs.length := by lia
        rw [List.mem_singleton.mp (List.mem_of_getElem? hk), hkeq]
        have hnew := @At.write { dent with d_ino := i, d_reclen := dirblksiz } dp.data (bs.length * dirblksiz) hname hi'
          (show dirblksiz < 2 ^ 16 by decide)
        refine ⟨⟨hnew, trivial⟩, fun r hr => ?_, by simp⟩
        rw [List.mem_singleton.mp hr]
        refine ⟨(by decide : 4 ∣ dirblksiz), ?_⟩
        simp only [Direct.name, readAt_length]
        unfold dirblksiz
        lia
    · exact roundup_limit heq (by lia) (by unfold dirblksiz; lia)

/-! ## A deleted entry -/

/-- **The record that was found is free, or its space goes to the one before it.** -/
theorem Holds.removed {front back : List (List Rec)} {pre post : List Rec} {r : Rec}
    (h : Holds dp (front ++ (pre ++ r :: post) :: back)) (io : Io) (hp : Points front pre r dent ndp) (hused : r.ino ≠ 0)
    (hsame : r.name = dent.name) (hname : dent.d_namlen ≤ maxnamlen) :
    (dirremove io ndp dp = .error .error ∧ ∃ b, io.reads b = false ∨ io.writes b = false) ∨
      ∃ dp' bs', dirremove io ndp dp = .ok dp' ∧ Holds dp' bs' ∧
        (entries (front ++ (pre ++ r :: post) :: back).flatten).Perm ((dent.name, r.ino) :: entries bs'.flatten) := by
  have hb := h.block front.length (pre ++ r :: post) (by simp)
  obtain ⟨hlays, hok, hfull⟩ := hb
  have hr : r.Ok := hok r (by simp)
  have hfits := hr.fits
  have hlen : r.name.length = dent.d_namlen := by rw [hsame, Direct.name, readAt_length]
  rw [hlen] at hfits
  have hblock : dirblksiz = 1024 := rfl
  rw [span_append, span_cons] at hfull
  have hshort : r.reclen < 2 ^ 16 := by lia
  have hsize : (front.length + 1) * dirblksiz ≤ (front ++ (pre ++ r :: post) :: back).length * dirblksiz := by
    refine Nat.mul_le_mul_right _ ?_
    rw [List.length_append, List.length_cons]
    lia
  rw [Nat.succ_mul] at hsize
  rw [Lays.append] at hlays
  rcases List.eq_nil_or_concat pre with rfl | ⟨ds, p, hpre⟩
  · -- The first record of its block.
    have hcount := hp.first rfl
    have hoff := hp.offset
    rw [span_nil, Nat.add_zero] at hoff
    have hstop : offT (ndp.ni_offset + dirsiz dent.d_namlen) =
        (front.length * dirblksiz + dirsiz dent.d_namlen : Nat) := by
      have hlimit := h.fits
      rw [hoff, offT, Int.bmod_def]
      push_cast
      split <;> lia
    unfold dirremove
    rw [if_pos hcount, Directory.rdwri, hp.dent]
    dsimp only
    by_cases hbad : ndp.ni_offset < 0 ∨ io.writes (ndp.ni_offset.toNat / dirblksiz) = false
    · rw [if_pos hbad]
      exact .inl ⟨rfl, _, .inr (hbad.resolve_left (by rw [hoff]; lia))⟩
    · have hinside : ¬ dp.i_size < (front.length * dirblksiz + dirsiz dent.d_namlen : Nat) := by
        rw [h.size, Int.not_lt, Int.ofNat_le]
        lia
      rw [if_neg hbad, hstop, if_neg hinside, hoff, Int.toNat_natCast]
      have hnew := @At.write { dent with d_ino := 0, d_reclen := r.reclen } dp.data (front.length * dirblksiz) hname
        (show 0 < 2 ^ 32 by decide) hshort
      have hold : Holds dp (front ++ ([] ++ [r] ++ post) :: back) := h
      have hplace : Lays (writeAt dp.data (front.length * dirblksiz)
          ((⟨0, r.reclen, dent.d_namlen, dent.d_name⟩ : Direct).bytes.take (dirsiz dent.d_namlen)))
          (front.length * dirblksiz + span []) [⟨0, dent.name, r.reclen⟩] := by
        rw [span_nil, Nat.add_zero]
        exact ⟨hnew, trivial⟩
      have hfree : ∀ r' ∈ [(⟨0, dent.name, r.reclen⟩ : Rec)], r'.Ok := by
        intro r' hr'
        rw [List.mem_singleton.mp hr']
        refine ⟨hr.dvd, ?_⟩
        simp only [Direct.name, readAt_length]
        exact hfits
      have hkept : ∀ x, x < front.length * dirblksiz + span [] ∨ front.length * dirblksiz + span [] + span [r] ≤ x →
          writeAt dp.data (front.length * dirblksiz)
            ((⟨0, r.reclen, dent.d_namlen, dent.d_name⟩ : Direct).bytes.take (dirsiz dent.d_namlen)) x = dp.data x := by
        intro x hx
        refine writeAt_same (e := ⟨x, 1⟩) dp.data ?_ x (Nat.le_refl _) (Nat.lt_succ_self _)
        rw [List.length_take]
        simp only [span_nil, span_cons] at hx ⊢
        lia
      refine .inr ⟨_, _, rfl, hold.replace hplace hfree (by rw [span_cons, span_cons]) hkept, ?_⟩
      rw [show ([] ++ r :: post : List Rec) = [] ++ [r] ++ post from rfl, entries_replace, entries_replace, entries_cons,
        if_neg hused, hsame, entries_cons, if_pos rfl, entries_nil, List.append_nil, List.append_nil]
      exact perm_insert _ [] _ _
  · -- Its space goes to the record before it.
    rw [List.concat_eq_append] at hpre
    subst hpre
    have hcount := hp.count ds p rfl
    have hoff := hp.offset
    have hpok : p.Ok := hok p (by simp)
    have hpos := hpok.pos
    rw [span_append, span_cons, span_nil, Nat.add_zero] at hoff hfull
    rw [Lays.append] at hlays
    have hat : At dp.data (front.length * dirblksiz + span ds) p := hlays.1.2.1
    have hep : (ndp.ni_offset - ndp.ni_count).toNat = front.length * dirblksiz + span ds := by
      rw [hoff, hcount]
      lia
    have hwrap : wrap 16 (p.reclen + r.reclen) = p.reclen + r.reclen := wrap_of_lt (by lia)
    unfold dirremove
    rw [if_neg (by lia), hep, hp.dent]
    dsimp only
    rw [hat.reclen, hwrap]
    split
    · next hbad => exact .inl ⟨rfl, _, hbad⟩
    · have hold : Holds dp (front ++ (ds ++ [p, r] ++ post) :: back) := by
        rw [List.append_assoc]
        rw [List.append_assoc] at h
        exact h
      have hplace : Lays (setReclen dp.data (front.length * dirblksiz + span ds) (p.reclen + r.reclen))
          (front.length * dirblksiz + span ds) [{ p with reclen := p.reclen + r.reclen }] :=
        ⟨hat.setReclen (by lia), trivial⟩
      refine .inr ⟨_, _, rfl, hold.replace hplace (fun r' hr' => ?_) (by simp) fun x hx => ?_, ?_⟩
      · rw [List.mem_singleton.mp hr']
        exact ⟨Nat.dvd_add hpok.dvd hr.dvd, Nat.le_trans hpok.fits (Nat.le_add_right _ _)⟩
      · have hpfits := hpok.fits
        have hlt := lt_dirsiz p.name.length
        refine setReclen_same (e := ⟨x, 1⟩) dp.data _ ?_ x (Nat.le_refl _) (Nat.lt_succ_self _)
        simp only [span_cons, span_nil] at hx ⊢
        lia
      · rw [show ds ++ [p] ++ r :: post = ds ++ [p, r] ++ post by simp, entries_replace, entries_replace]
        have hboth : entries [p, r] = entries [{ p with reclen := p.reclen + r.reclen }] ++ [(dent.name, r.ino)] := by
          rw [entries_cons, entries_cons, if_neg hused, hsame, entries_nil, entries_cons, entries_nil, List.append_nil,
            List.append_nil]
        rw [hboth]
        exact perm_insert ..

/-! ## The two calls -/

/-- The lookup and `direnter` come through, and add the entry. -/
def Enters (dp : Directory) (bs : List (List Rec)) (dent : Direct) (i : Nat) : Prop :=
  ∃ ndp dp' bs', nameiAt .create .fine true dp dent = .slot ndp ∧ direnter .fine i ndp dp = .ok dp' ∧ Holds dp' bs' ∧
    (entries bs'.flatten).Perm ((dent.name, i) :: entries bs.flatten)

/-- What creating and deleting a name do to a directory. -/
structure Works (dp : Directory) (bs : List (List Rec)) (dent : Direct) (i : Nat) : Prop where
  enters : Absent bs dent.name → Enters dp bs dent i
  sound : ∀ io write ndp, nameiAt .create io write dp dent = .slot ndp →
    (∀ io' e, direnter io' i ndp dp = .error e → e = .error) ∧
      ∀ k rs, bs[k]? = some rs → (∃ r ∈ rs, r.ino ≠ 0) → ((k + 1) * dirblksiz : Nat) ≤ ndp.ni_endoff
  finds : ¬ Absent bs dent.name → ∃ ndp, nameiAt .delete .fine true dp dent = .entry ndp dp
  removes : ∀ io write ndp dp', nameiAt .delete io write dp dent = .entry ndp dp' → dp' = dp ∧
    ∃ ino, (dent.name, ino) ∈ entries bs.flatten ∧
      (∃ dp'', dirremove .fine ndp dp = .ok dp'') ∧
      ∀ io' dp'', dirremove io' ndp dp = .ok dp'' → ∃ bs', Holds dp'' bs' ∧
        (entries bs.flatten).Perm ((dent.name, ino) :: entries bs'.flatten) ∧
        ((entries bs.flatten).Nodup → ∀ e, e ∈ entries bs'.flatten ↔ e ∈ entries bs.flatten ∧ e ≠ (dent.name, ino))

theorem absent_iff (bs : List (List Rec)) (name : List UInt8) :
    Absent bs name ↔ ¬ ∃ rs ∈ bs, ∃ r ∈ rs, r.ino ≠ 0 ∧ r.name = name := by
  simp only [Absent, not_exists, not_and, ne_eq]

/-- The largest directory, with no room, cannot take the entry. -/
theorem full_stays (h : Holds dp bs) (hname : dent.d_namlen ≤ maxnamlen) (hi' : i < 2 ^ 32)
    (hmany : bs.length + 1 = 2 ^ 21) (hfull : ∀ rs ∈ bs, room rs < dirsiz dent.d_namlen) : ¬ Enters dp bs dent i := by
  rintro ⟨ndp, dp', bs', hslot, hcall, hholds, -⟩
  obtain ⟨hdent, hg, -⟩ := h.slot hslot
  have hcount : ndp.ni_count = 0 := by
    by_contra hne
    obtain ⟨k, pre, mid, post, hk, -, -, hroom⟩ := hg.place hne
    have hlt := hfull _ (List.mem_of_getElem? hk)
    simp only [room_append] at hlt
    lia
  rcases h.grown .fine hg hdent hname hi' hcount with ⟨hbad, -⟩ | ⟨dp'', hok, -, hneg⟩
  · rw [hcall] at hbad
    cases hbad
  · rw [hcall] at hok
    obtain rfl := Except.ok.inj hok
    have hsize := hholds.size
    have hlow := hneg hmany
    lia

/-- **A name is created and deleted as it should be, exactly if a new block would not bring the directory to 2^31 bytes**,
    or a block has room. -/
theorem directory_works (h : Holds dp bs) (hl : dp.i_nlink ≠ 0) (dent : Direct) (hname : dent.d_namlen ≤ maxnamlen)
    (hi : i ≠ 0) (hi' : i < 2 ^ 32) :
    Works dp bs dent i ↔
      (Absent bs dent.name → bs.length + 1 < 2 ^ 21 ∨ ∃ rs ∈ bs, dirsiz dent.d_namlen ≤ room rs) := by
  have hmany := h.length_lt
  constructor
  · intro hw habsent
    by_contra hnot
    rw [not_or, not_exists] at hnot
    refine full_stays h hname hi' (by lia) (fun rs hrs => ?_) (hw.enters habsent)
    have hrs' := hnot.2 rs
    rw [not_and] at hrs'
    exact Nat.not_le.mp (hrs' hrs)
  · intro hroom
    refine ⟨fun habsent => ?_, fun io write ndp hslot => ⟨fun io' e he => ?_, fun k rs hk hlive => ?_⟩, fun hthere => ?_,
      fun io write ndp dp' hentry => ?_⟩
    · have hio : ∀ b, Io.fine.reads b = true := fun _ => rfl
      obtain ⟨ndp, hslot⟩ := h.creates hio rfl hl habsent
      obtain ⟨hdent, hg, -⟩ := h.slot hslot
      by_cases hcount : ndp.ni_count = 0
      · have hsmall : bs.length + 1 < 2 ^ 21 := by
          refine (hroom habsent).resolve_right ?_
          rintro ⟨rs, hrs, hle⟩
          have hlt := (hg.fresh hcount).2 rs hrs
          lia
        rcases h.grown .fine hg hdent hname hi' hcount with ⟨-, b, hb⟩ | ⟨dp', hok, hholds, -⟩
        · cases hb
        · refine ⟨ndp, dp', _, hslot, hok, hholds hsmall, ?_⟩
          rw [List.flatten_append, entries_append]
          simp only [List.flatten_cons, List.flatten_nil, List.append_nil]
          rw [entries_cons, if_neg hi, entries_nil, List.append_nil]
          exact List.perm_append_comm
      · rcases h.placed .fine hg hdent hname hi hi' hcount with ⟨-, b, hb | hb⟩ | ⟨dp', bs', hok, hholds, hperm⟩
        · cases hb
        · cases hb
        · exact ⟨ndp, dp', bs', hslot, hok, hholds, hperm⟩
    · obtain ⟨hdent, hg, -⟩ := h.slot hslot
      by_cases hcount : ndp.ni_count = 0
      · rcases h.grown io' hg hdent hname hi' hcount with ⟨hbad, -⟩ | ⟨dp', hok, -⟩
        · rw [hbad] at he
          exact (Except.error.inj he).symm
        · rw [hok] at he
          cases he
      · rcases h.placed io' hg hdent hname hi hi' hcount with ⟨hbad, -⟩ | ⟨dp', bs', hok, -⟩
        · rw [hbad] at he
          exact (Except.error.inj he).symm
        · rw [hok] at he
          cases he
    · obtain ⟨-, ⟨-, -, n, -, hendoff, -, hbelow⟩, -⟩ := h.slot hslot
      rw [hendoff]
      exact Int.ofNat_le.mpr (Nat.mul_le_mul_right _ (hbelow k rs hk hlive))
    · rw [absent_iff, not_not] at hthere
      obtain ⟨rs, hrs, r, hr, hino, hnamed⟩ := hthere
      have hio : ∀ b, Io.fine.reads b = true := fun _ => rfl
      obtain ⟨ndp, dp', hentry⟩ := h.finds hio rfl hrs hr hino hnamed
      obtain ⟨rfl, -⟩ := h.entry hentry
      exact ⟨ndp, hentry⟩
    · obtain ⟨rfl, front, pre, r, post, back, rfl, hino, hnamed, hp⟩ := h.entry hentry
      refine ⟨rfl, r.ino, ?_, ?_, fun io' dp'' hok => ?_⟩
      · rw [← hnamed]
        exact mem_entries.mpr ⟨r, by simp, hino, rfl⟩
      · rcases h.removed .fine hp hino hnamed hname with ⟨-, b, hb | hb⟩ | ⟨dp'', -, hok, -⟩
        · cases hb
        · cases hb
        · exact ⟨dp'', hok⟩
      · rcases h.removed io' hp hino hnamed hname with ⟨hbad, -⟩ | ⟨dp₁, bs', hok', hholds, hperm⟩
        · rw [hok] at hbad
          cases hbad
        · rw [hok] at hok'
          obtain rfl := Except.ok.inj hok'
          exact ⟨bs', hholds, hperm, perm_without hperm⟩

end

/-! ## The full directory -/

/-- Letters that spell a number. -/
def spelled (n len : Nat) : List UInt8 := (List.range len).map fun j => UInt8.ofNat (97 + n / 16 ^ j % 16)

/-- Fourteen links with names of 63 letters and one of 7, no two of them the same in all blocks. -/
def fullBlock (k : Nat) : List Rec :=
  (List.range 14).map (fun j => ⟨k / 1024 + 3, spelled (16 * k + j) 63, 72⟩) ++
    [⟨k / 1024 + 3, spelled (16 * k + 14) 7, 16⟩]

/-- A directory of so many of them. -/
def fullBlocks (n : Nat) : List (List Rec) := (List.range n).map fullBlock

/-- The name `z`. -/
def newName : Direct := ⟨0, 0, 1, fun _ => 122⟩

theorem mem_fullBlock {k : Nat} {r : Rec} (h : r ∈ fullBlock k) :
    r.ino = k / 1024 + 3 ∧ r.free = 0 ∧ r.Ok ∧ r.name ≠ newName.name := by
  have hused : k / 1024 + 3 ≠ 0 := Nat.succ_ne_zero _
  have hlen : ∀ n len, (spelled n len).length = len := fun n len => by simp [spelled]
  have hnew : newName.name.length = 1 := rfl
  rcases List.mem_append.mp h with h | h
  · obtain ⟨j, -, rfl⟩ := List.mem_map.mp h
    refine ⟨rfl, ?_, ⟨(by decide : 4 ∣ 72), by simp only [hlen]; decide⟩, fun heq => ?_⟩
    · simp only [Rec.free, if_neg hused, hlen]
      decide
    · rw [← heq, hlen] at hnew
      cases hnew
  · rw [List.mem_singleton.mp h]
    refine ⟨rfl, ?_, ⟨(by decide : 4 ∣ 16), by simp only [hlen]; decide⟩, fun heq => ?_⟩
    · simp only [Rec.free, if_neg hused, hlen]
      decide
    · rw [← heq, hlen] at hnew
      cases hnew

theorem span_fullBlock (k : Nat) : span (fullBlock k) = dirblksiz := by
  simp [span, fullBlock, dirblksiz, Function.comp_def]

theorem full_holds {n : Nat} (h : n < 2 ^ 21) : Holds (ofBlocks (fullBlocks n)) (fullBlocks n) := by
  have hlen : (fullBlocks n).length = n := by rw [fullBlocks, List.length_map, List.length_range]
  refine holds_ofBlocks (fun rs hrs => ?_) (by rw [hlen]; exact Nat.mul_lt_mul_of_pos_right h (by decide))
  obtain ⟨k, hk, rfl⟩ := List.mem_map.mp hrs
  refine ⟨span_fullBlock k, fun r hr => ?_⟩
  obtain ⟨hino, -, hok, -⟩ := mem_fullBlock hr
  have hlt := List.mem_range.mp hk
  exact ⟨hok, by lia⟩

theorem full_absent (n : Nat) : Absent (fullBlocks n) newName.name := by
  intro rs hrs r hr _
  obtain ⟨k, -, rfl⟩ := List.mem_map.mp hrs
  exact (mem_fullBlock hr).2.2.2

theorem full_room {n : Nat} {rs : List Rec} (hrs : rs ∈ fullBlocks n) : room rs = 0 := by
  obtain ⟨k, -, rfl⟩ := List.mem_map.mp hrs
  refine List.sum_eq_zero fun x hx => ?_
  obtain ⟨r, hr, rfl⟩ := List.mem_map.mp hx
  exact (mem_fullBlock hr).2.1

/-- A full directory of 2^31 - 1024 bytes does not get the entry. -/
theorem directory_full : ¬ Works (ofBlocks (fullBlocks 2097151)) (fullBlocks 2097151) newName 3 := by
  intro hw
  have hlen : (fullBlocks 2097151).length = 2097151 := by rw [fullBlocks, List.length_map, List.length_range]
  refine full_stays (full_holds (by decide)) (by decide) (by decide) (by lia) (fun rs hrs => ?_)
    (hw.enters (full_absent _))
  rw [full_room hrs]
  decide

/-- A directory with `.` and `..`. -/
def freshBlock : List Rec := [⟨5, [46], 12⟩, ⟨2, [46, 46], 1012⟩]

theorem fresh_holds : Holds (ofBlocks [freshBlock]) [freshBlock] := by
  refine holds_ofBlocks (fun rs hrs => ?_) (by decide)
  rw [List.mem_singleton.mp hrs]
  refine ⟨rfl, fun r hr => ?_⟩
  rcases List.mem_cons.mp hr with rfl | hr
  · exact ⟨⟨by decide, by decide⟩, by decide⟩
  · rw [List.mem_singleton.mp hr]
    exact ⟨⟨by decide, by decide⟩, by decide⟩

theorem directory_works_fresh : Works (ofBlocks [freshBlock]) [freshBlock] newName 3 :=
  (directory_works fresh_holds (by decide) newName (by decide) (by decide) (by decide)).mpr fun _ => .inl (by decide)

end DiscoBSD.Dir
