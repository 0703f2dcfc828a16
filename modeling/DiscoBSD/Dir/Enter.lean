import DiscoBSD.Dir.Search

/-!
# What an entry makes of a block

`direnter` packs the records of the place it was given: those in use move down, each as long as its name needs, and the
new one takes what is left. **All that is left is the room of the place** (`span_packed`), so the entry fits whenever the
scan found the place, and the two checks of the compaction hold.
-/

set_option autoImplicit false

namespace DiscoBSD.Dir

open DiscoBSD.Lib
open DiscoBSD.Ufs (offT)

/-- The record is as long as its name needs. -/
def Rec.trim (r : Rec) : Rec := { r with reclen := dirsiz r.name.length }

/-- The records in use, one right behind the other. -/
def packed (rs : List Rec) : List Rec := (rs.filter (·.ino ≠ 0)).map Rec.trim

section
variable {rs : List Rec} {r : Rec}

@[simp] theorem packed_nil : packed [] = [] := rfl
@[simp] theorem packed_append (rs rs' : List Rec) : packed (rs ++ rs') = packed rs ++ packed rs' := by simp [packed]

theorem packed_used (h : r.ino ≠ 0) : packed [r] = [r.trim] := by simp [packed, h]

theorem packed_free (h : r.ino = 0) : packed [r] = [] := by simp [packed, h]

@[simp] theorem entries_packed (rs : List Rec) : entries (packed rs) = entries rs := by
  induction rs with
  | nil => rfl
  | cons r rs ih =>
    rw [← List.singleton_append, packed_append, entries_append, entries_append, ih]
    by_cases h : r.ino = 0
    · rw [packed_free h, entries_nil, entries_cons, if_pos h, entries_nil, List.append_nil]
    · rw [packed_used h, entries_cons, entries_cons, if_neg h, Rec.trim, if_neg h]

theorem Rec.Ok.trim (r : Rec) : r.trim.Ok := ⟨dvd_dirsiz _, Nat.le_refl _⟩

theorem ok_packed : ∀ r ∈ packed rs, r.Ok := by
  intro r hr
  obtain ⟨r', -, rfl⟩ := List.mem_map.mp hr
  exact .trim r'

/-- **A run of records is what it needs and what it has room for.** -/
theorem span_packed (hok : ∀ r ∈ rs, r.Ok) : span (packed rs) + room rs = span rs := by
  induction rs with
  | nil => rfl
  | cons r rs ih =>
    have hfits := (hok r List.mem_cons_self).fits
    have hrest := ih fun r hr => hok r (List.mem_cons_of_mem _ hr)
    rw [← List.singleton_append, packed_append, span_append, room_append, span_append]
    by_cases h : r.ino = 0
    · rw [packed_free h]
      simp only [span_cons, span_nil, room_cons, room_nil, Rec.free, if_pos h]
      lia
    · rw [packed_used h]
      simp only [span_cons, span_nil, room_cons, room_nil, Rec.free, if_neg h, Rec.trim]
      lia

end

/-! ## The compaction -/

section
variable {m : Nat → UInt8} {a : Nat} {seen rest : List Rec} {cur : Rec} {c : Compaction}

/-- The loop has moved the records before `cur` down and has `cur` at `ep`. -/
structure Moved (m : Nat → UInt8) (a : Nat) (seen : List Rec) (cur : Rec) (rest : List Rec) (c : Compaction) : Prop where
  lays : Lays c.m a (packed seen)
  ep : c.ep = a + span (packed seen)
  here : At c.m c.ep cur
  dsize : c.dsize = dirsiz cur.name.length
  loc : c.loc = span seen + cur.reclen
  space : span (packed seen) + c.dsize + c.spacefree = c.loc
  ahead : Lays c.m (a + c.loc) rest
  same : ∀ x, x < a ∨ a + c.loc ≤ x → c.m x = m x

/-- A record is copied down, to where those before it end. -/
theorem copied {done : List Rec} {r : Rec} {ep nep : Nat} (hd : Lays m a done) (hdone : ∀ r ∈ done, r.Ok)
    (hep : ep = a + span done) (hle : ep ≤ nep) (hr : At m nep r) (hok : r.Ok) (hrest : Lays m (nep + r.reclen) rest)
    (hall : ∀ r ∈ rest, r.Ok) :
    Lays (writeAt m ep (readAt m nep (dirsiz r.name.length))) a done ∧
      At (writeAt m ep (readAt m nep (dirsiz r.name.length))) ep r ∧
      Lays (writeAt m ep (readAt m nep (dirsiz r.name.length))) (nep + r.reclen) rest ∧
      ∀ x, x < ep ∨ nep + r.reclen ≤ x → writeAt m ep (readAt m nep (dirsiz r.name.length)) x = m x := by
  have hfits := hok.fits
  have hsame : ∀ x, x < ep ∨ nep + r.reclen ≤ x → writeAt m ep (readAt m nep (dirsiz r.name.length)) x = m x := by
    intro x hx
    refine writeAt_same (e := ⟨x, 1⟩) m ?_ x (Nat.le_refl _) (Nat.lt_succ_self _)
    rw [readAt_length]
    simp only
    lia
  refine ⟨hd.congr hdone fun x _ hx => hsame x (.inl ?_), hr.copy m ep, ?_, hsame⟩
  · simp only at hx
    lia
  · exact hrest.congr hall fun x hx _ => hsame x (.inr hx)

theorem move_used (h : dIno c.m c.ep ≠ 0) : c.move a =
    ⟨writeAt (setReclen c.m c.ep c.dsize) (c.ep + c.dsize)
        (readAt (setReclen c.m c.ep c.dsize) (a + c.loc) (dirsiz (dNamlen (setReclen c.m c.ep c.dsize) (a + c.loc)))),
      c.ep + c.dsize, dirsiz (dNamlen (setReclen c.m c.ep c.dsize) (a + c.loc)),
      c.spacefree + (dReclen (setReclen c.m c.ep c.dsize) (a + c.loc) -
        dirsiz (dNamlen (setReclen c.m c.ep c.dsize) (a + c.loc))),
      c.loc + dReclen (setReclen c.m c.ep c.dsize) (a + c.loc)⟩ := by
  rw [Compaction.move, if_pos h]

theorem move_free (h : dIno c.m c.ep = 0) : c.move a =
    ⟨writeAt c.m c.ep (readAt c.m (a + c.loc) (dirsiz (dNamlen c.m (a + c.loc)))), c.ep,
      dirsiz (dNamlen c.m (a + c.loc)),
      c.spacefree + c.dsize + (dReclen c.m (a + c.loc) - dirsiz (dNamlen c.m (a + c.loc))),
      c.loc + dReclen c.m (a + c.loc)⟩ := by
  rw [Compaction.move, if_neg (not_not.mpr h)]

/-- The record at `ep` is cut to what its name needs. -/
theorem Moved.trimmed (h : Moved m a seen cur rest c) (hok : ∀ r ∈ seen ++ cur :: rest, r.Ok) (hused : cur.ino ≠ 0)
    (hcur : cur.reclen < 2 ^ 16) :
    Lays (setReclen c.m c.ep c.dsize) a (packed (seen ++ [cur])) ∧
      c.ep + c.dsize = a + span (packed (seen ++ [cur])) ∧ c.ep + c.dsize ≤ a + c.loc ∧
      Lays (setReclen c.m c.ep c.dsize) (a + c.loc) rest ∧
      ∀ x, x < c.ep ∨ a + c.loc ≤ x → setReclen c.m c.ep c.dsize x = c.m x := by
  have hseen := span_packed fun r hr => hok r (List.mem_append_left _ hr)
  have hfits := (hok cur (by simp)).fits
  have hlt := lt_dirsiz cur.name.length
  have hep := h.ep
  have hloc := h.loc
  have hdsize := h.dsize
  have hsame : ∀ x, x < c.ep ∨ a + c.loc ≤ x → setReclen c.m c.ep c.dsize x = c.m x := by
    intro x hx
    refine writeAt_same (e := ⟨x, 1⟩) c.m ?_ x (Nat.le_refl _) (Nat.lt_succ_self _)
    rw [leBytes_length]
    simp only
    lia
  refine ⟨?_, ?_, by lia, h.ahead.congr (fun r hr => hok r (by simp [hr])) fun x hx _ => hsame x (.inr hx), hsame⟩
  · rw [packed_append, packed_used hused, Lays.append]
    refine ⟨h.lays.congr ok_packed fun x _ hx => hsame x (.inl ?_), ?_, trivial⟩
    · simp only at hx
      lia
    · rw [← hep, Rec.trim, ← hdsize]
      exact h.here.setReclen (by lia)
  · rw [packed_append, packed_used hused, span_append, span_cons, span_nil, Rec.trim, hep, hdsize]
    simp only
    lia

/-- One more record moves. -/
theorem Moved.move {r : Rec} (h : Moved m a seen cur (r :: rest) c) (hok : ∀ r' ∈ seen ++ cur :: r :: rest, r'.Ok)
    (hcur : cur.reclen < 2 ^ 16) : Moved m a (seen ++ [cur]) r rest (c.move a) := by
  have hr : r.Ok := hok r (by simp)
  have hall : ∀ r' ∈ rest, r'.Ok := fun r' hr' => hok r' (by simp [hr'])
  have hseen := span_packed fun r hr => hok r (List.mem_append_left _ hr)
  have hfits := (hok cur (by simp)).fits
  have hep := h.ep
  have hloc := h.loc
  have hspace := h.space
  by_cases hz : cur.ino = 0
  · obtain ⟨hat, hrest⟩ := h.ahead
    have hpack : packed (seen ++ [cur]) = packed seen := by rw [packed_append, packed_free hz, List.append_nil]
    rw [move_free (h.here.ino.trans hz), hat.namlen, hat.reclen]
    obtain ⟨hlays, hhere, hahead, hsame⟩ := copied h.lays ok_packed hep (by lia) hat hr hrest hall
    refine ⟨by rw [hpack]; exact hlays, by rw [hpack]; exact hep, hhere, rfl, ?_, ?_, ?_, fun x hx => ?_⟩
    · simp only [span_append, span_cons, span_nil]
      lia
    · rw [hpack]
      push_cast
      lia
    · rw [← Nat.add_assoc]
      exact hahead
    · simp only at hx ⊢
      rw [hsame x (by lia)]
      exact h.same x (by lia)
  · obtain ⟨htrim, hnext, hle, ⟨hat, hrest⟩, hkept⟩ := h.trimmed hok hz hcur
    rw [move_used (by rw [h.here.ino]; exact hz), hat.namlen, hat.reclen]
    obtain ⟨hlays, hhere, hahead, hsame⟩ := copied htrim ok_packed hnext hle hat hr hrest hall
    have hpack : span (packed (seen ++ [cur])) = span (packed seen) + c.dsize := by lia
    refine ⟨hlays, hnext, hhere, rfl, ?_, ?_, ?_, fun x hx => ?_⟩
    · simp only [span_append, span_cons, span_nil]
      lia
    · rw [hpack]
      push_cast
      lia
    · rw [← Nat.add_assoc]
      exact hahead
    · simp only at hx ⊢
      rw [hsame x (by lia), hkept x (by lia)]
      exact h.same x (by lia)

/-- **The loop** ends, with the last record at `ep`. -/
theorem compactLoop_moved {n : Nat} (h : Moved m a seen cur rest c) (hok : ∀ r ∈ seen ++ cur :: rest, r.Ok)
    (hlen : span (seen ++ cur :: rest) ≤ dirblksiz) (hfuel : rest.length < n) :
    ∃ seen' cur' c', seen ++ cur :: rest = seen' ++ [cur'] ∧
      compactLoop a (span (seen ++ cur :: rest)) n c = some c' ∧ Moved m a seen' cur' [] c' := by
  induction rest generalizing seen cur c n with
  | nil =>
    obtain ⟨n, rfl⟩ := Nat.exists_eq_succ_of_ne_zero (Nat.ne_of_gt hfuel)
    refine ⟨seen, cur, c, rfl, ?_, h⟩
    rw [compactLoop, if_neg]
    rw [h.loc, span_append, span_cons, span_nil]
    lia
  | cons r rest ih =>
    rw [List.length_cons] at hfuel
    obtain ⟨n, rfl⟩ := Nat.exists_eq_succ_of_ne_zero (Nat.ne_of_gt (Nat.lt_of_le_of_lt (Nat.zero_le _) hfuel))
    have hpos := (hok r (by simp)).pos
    have hmoved := h.move hok (by rw [span_append, span_cons] at hlen; unfold dirblksiz at hlen; lia)
    have hsplit : seen ++ cur :: r :: rest = seen ++ [cur] ++ r :: rest := by
      rw [List.append_assoc, List.singleton_append]
    rw [compactLoop, if_pos (by rw [h.loc, span_append, span_cons, span_cons]; lia)]
    rw [hsplit] at hok hlen ⊢
    exact ih hmoved hok hlen (by lia)

/-- The new record is written behind the others. -/
theorem put_record {done : List Rec} {dent : Direct} {ep stop : Nat} (hd : Lays m a done) (hdone : ∀ r ∈ done, r.Ok)
    (hep : ep = a + span done) (hname : dent.d_namlen ≤ maxnamlen) (hino : dent.d_ino < 2 ^ 32)
    (hlen : dent.d_reclen < 2 ^ 16) (hstop : ep + dirsiz dent.d_namlen ≤ stop) :
    Lays (writeAt m ep (dent.bytes.take (dirsiz dent.d_namlen))) a (done ++ [⟨dent.d_ino, dent.name, dent.d_reclen⟩]) ∧
      ∀ x, x < ep ∨ stop ≤ x → writeAt m ep (dent.bytes.take (dirsiz dent.d_namlen)) x = m x := by
  have hsame : ∀ x, x < ep ∨ stop ≤ x → writeAt m ep (dent.bytes.take (dirsiz dent.d_namlen)) x = m x := by
    intro x hx
    refine writeAt_same (e := ⟨x, 1⟩) m ?_ x (Nat.le_refl _) (Nat.lt_succ_self _)
    rw [List.length_take]
    simp only
    lia
  refine ⟨?_, hsame⟩
  rw [Lays.append, ← hep]
  refine ⟨hd.congr hdone fun x _ hx => hsame x (.inl ?_), At.write m ep hname hino hlen, trivial⟩
  simp only at hx
  lia

/-- **The records of the place are packed, and the new one takes the room that was left**; nothing else changes. -/
theorem compact_place {mid : List Rec} {dent : Direct} (hlays : Lays m a mid) (hok : ∀ r ∈ mid, r.Ok) (hne : mid ≠ [])
    (hlen : span mid ≤ dirblksiz) (hroom : dirsiz dent.d_namlen ≤ room mid) (hname : dent.d_namlen ≤ maxnamlen)
    (hino : dent.d_ino < 2 ^ 32) :
    ∃ c m', compactLoop a (span mid) (span mid + 1)
        ⟨m, a, dirsiz (dNamlen m a), dReclen m a - dirsiz (dNamlen m a), dReclen m a⟩ = some c ∧
      c.place dent = .ok m' ∧ Lays m' a (packed mid ++ [⟨dent.d_ino, dent.name, room mid⟩]) ∧
      ∀ x, x < a ∨ a + span mid ≤ x → m' x = m x := by
  obtain ⟨r, rest, rfl⟩ := List.exists_cons_of_ne_nil hne
  obtain ⟨hat, hahead⟩ := hlays
  have hfits := (hok r List.mem_cons_self).fits
  have hstart : Moved m a [] r rest
      ⟨m, a, dirsiz (dNamlen m a), dReclen m a - dirsiz (dNamlen m a), dReclen m a⟩ := by
    rw [hat.namlen, hat.reclen]
    refine ⟨trivial, rfl, hat, rfl, by simp, ?_, hahead, fun _ _ => rfl⟩
    simp only [packed_nil, span_nil]
    lia
  have hmany : rest.length < span (r :: rest) + 1 := by
    have hle : ∀ rs : List Rec, (∀ r ∈ rs, r.Ok) → rs.length ≤ span rs := by
      intro rs hall
      induction rs with
      | nil => exact Nat.zero_le _
      | cons r rs ih =>
        have hpos := (hall r List.mem_cons_self).pos
        have hrest := ih fun r hr => hall r (List.mem_cons_of_mem _ hr)
        rw [List.length_cons, span_cons]
        lia
    have hrest := hle rest fun r hr => hok r (List.mem_cons_of_mem _ hr)
    rw [span_cons]
    lia
  obtain ⟨seen, cur, c, hsplit, hloop, hmoved⟩ := compactLoop_moved hstart hok hlen hmany
  simp only [List.nil_append] at hsplit hloop
  rw [hsplit] at hok hlen hroom
  have hall := span_packed hok
  have hep := hmoved.ep
  have hloc := hmoved.loc
  have hspace := hmoved.space
  have hspan : span (seen ++ [cur]) = span seen + cur.reclen := by simp
  rw [hloop, hsplit]
  unfold dirblksiz at hlen
  by_cases hz : cur.ino = 0
  · have hpack : packed (seen ++ [cur]) = packed seen := by rw [packed_append, packed_free hz, List.append_nil]
    rw [hpack] at hall ⊢
    have hleft : c.spacefree + c.dsize = room (seen ++ [cur]) := by lia
    have hsize : wrap 16 (c.spacefree + c.dsize).toNat = room (seen ++ [cur]) := by
      rw [hleft, Int.toNat_natCast]
      exact wrap_of_lt (by lia)
    obtain ⟨hput, hsame⟩ := @put_record c.m a (packed seen) { dent with d_reclen := room (seen ++ [cur]) } c.ep
      (a + span (seen ++ [cur])) hmoved.lays ok_packed hep hname hino (show room (seen ++ [cur]) < 2 ^ 16 by lia)
      (show c.ep + dirsiz dent.d_namlen ≤ _ by lia)
    refine ⟨c, _, rfl, ?_, hput, fun x hx => ?_⟩
    · rw [Compaction.place]
      simp only [hsize]
      rw [if_pos (hmoved.here.ino.trans hz), if_neg]
      rw [hleft, Int.emod_eq_of_lt (by lia) (by lia)]
      lia
    · rw [hsame x (by lia)]
      exact hmoved.same x (by lia)
  · obtain ⟨htrim, hnext, hle, -, hkept⟩ := hmoved.trimmed hok hz (by lia)
    have hpack : span (packed (seen ++ [cur])) = span (packed seen) + c.dsize := by lia
    have hleft : c.spacefree = room (seen ++ [cur]) := by lia
    have hsize : wrap 16 c.spacefree.toNat = room (seen ++ [cur]) := by
      rw [hleft, Int.toNat_natCast]
      exact wrap_of_lt (by lia)
    obtain ⟨hput, hsame⟩ := @put_record _ a _ { dent with d_reclen := room (seen ++ [cur]) } (c.ep + c.dsize)
      (a + span (seen ++ [cur])) htrim ok_packed hnext hname hino (show room (seen ++ [cur]) < 2 ^ 16 by lia)
      (show c.ep + c.dsize + dirsiz dent.d_namlen ≤ _ by lia)
    refine ⟨c, _, rfl, ?_, hput, fun x hx => ?_⟩
    · rw [Compaction.place]
      simp only [hsize]
      rw [if_neg (by rw [hmoved.here.ino]; exact hz), if_neg]
      rw [hleft]
      lia
    · rw [hsame x (by lia), hkept x (by lia)]
      exact hmoved.same x (by lia)

end

end DiscoBSD.Dir
