import DiscoBSD.Dir.Records
import Mathlib.Tactic.SplitIfs

/-!
# What the scan of a directory finds

The scan goes over the records of a well-formed directory one by one. **What it has seen is a prefix of the directory**:
whole blocks, and the records of the block it is in. `Seen` says where the scan stands after them and how far the
records in use go, `Watched` what it knows of the room among them. A step adds one record to the prefix, so a whole
scan ends at the first record in use with the name, or has seen every block.

Room is looked for in one block at a time, and is found exactly when a block has enough of it in all
(`Watched.none`): either in one record, or in a run of records that can be compacted.
-/

set_option autoImplicit false

namespace DiscoBSD.Dir

open DiscoBSD.Lib
open DiscoBSD.Ufs (offT)

/-- The place is a run of records of one block, with room for the entry. -/
def Slotted (bs : List (List Rec)) (slotneeded : Nat) (slotoffset slotsize : Int) : Prop :=
  ∃ k pre mid post, bs[k]? = some (pre ++ mid ++ post) ∧ slotoffset = (k * dirblksiz + span pre : Nat) ∧
    slotsize = span mid ∧ slotneeded ≤ room mid

/-- The scan has seen the blocks of `front` and then `done`; `entered` says that the block is in the buffer. -/
structure Seen (name : List UInt8) (entered : Bool) (front : List (List Rec)) (done : List Rec) (s : Scan) : Prop where
  offset : s.ni_offset = front.length * dirblksiz + span done
  buffer : entered = true ∨ done ≠ [] → s.bp = front.length ∧ s.entryoffsetinblock = span done
  prev : ∀ ds p, done = ds ++ [p] → s.prevoff = front.length * dirblksiz + span ds
  absent : ∀ rs ∈ front ++ [done], ∀ r ∈ rs, r.ino ≠ 0 → r.name ≠ name
  useful : ∀ k rs, (front ++ [done])[k]? = some rs → (∃ r ∈ rs, r.ino ≠ 0) → k * dirblksiz < s.enduseful
  bound : s.enduseful ≤ s.ni_offset

/-- What is known of the room: there is not enough in any block, or there is a place for the entry. -/
structure Watched (slotneeded : Nat) (front : List (List Rec)) (done : List Rec) (s : Scan) : Prop where
  none : s.slotstatus = .none → ∀ rs ∈ front ++ [done], room rs < slotneeded
  some : s.slotstatus ≠ .none → Slotted (front ++ [done]) slotneeded s.slotoffset s.slotsize

/-- The room added up in the block so far, from the first record on that has some. -/
structure Tracked (front : List (List Rec)) (done : List Rec) (s : Scan) : Prop where
  space : s.slotfreespace = room done
  since : (s.slotoffset = -1 ∧ room done = 0) ∨
    ∃ pre mid, done = pre ++ mid ∧ room pre = 0 ∧ s.slotoffset = (front.length * dirblksiz + span pre : Nat)

section
variable {m : Nat → UInt8} {name : List UInt8} {slotneeded : Nat} {entered : Bool} {front : List (List Rec)}
  {done : List Rec} {r : Rec} {s : Scan}

/-! ## Places -/

theorem Slotted.record {bs : List (List Rec)} {off size : Int} (h : Slotted (bs ++ [done]) slotneeded off size) (r : Rec) :
    Slotted (bs ++ [done ++ [r]]) slotneeded off size := by
  obtain ⟨k, pre, mid, post, hk, hoff, hsize, hroom⟩ := h
  rcases Nat.lt_trichotomy k bs.length with hlt | rfl | hgt
  · rw [List.getElem?_append_left hlt] at hk
    exact ⟨k, pre, mid, post, by rw [List.getElem?_append_left hlt, hk], hoff, hsize, hroom⟩
  · rw [List.getElem?_append_right (Nat.le_refl _), Nat.sub_self, List.getElem?_cons_zero, Option.some.injEq] at hk
    refine ⟨bs.length, pre, mid, post ++ [r], ?_, hoff, hsize, hroom⟩
    rw [List.getElem?_append_right (Nat.le_refl _), Nat.sub_self, List.getElem?_cons_zero, hk, List.append_assoc]
  · rw [List.getElem?_eq_none (by rw [List.length_append, List.length_singleton]; omega)] at hk
    cases hk

theorem Slotted.block {bs : List (List Rec)} {off size : Int} (h : Slotted bs slotneeded off size) (rs : List Rec) :
    Slotted (bs ++ [rs]) slotneeded off size := by
  obtain ⟨k, pre, mid, post, hk, hoff, hsize, hroom⟩ := h
  have hlt : k < bs.length := (List.getElem?_eq_some_iff.mp hk).1
  exact ⟨k, pre, mid, post, by rw [List.getElem?_append_left hlt, hk], hoff, hsize, hroom⟩

/-- A run at the end of what was seen. -/
theorem Slotted.here {pre mid : List Rec} {off size : Int} (hoff : off = (front.length * dirblksiz + span pre : Nat))
    (hsize : size = span mid) (h : slotneeded ≤ room mid) : Slotted (front ++ [pre ++ mid]) slotneeded off size := by
  refine ⟨front.length, pre, mid, [], ?_, hoff, hsize, h⟩
  rw [List.getElem?_append_right (Nat.le_refl _), Nat.sub_self, List.getElem?_cons_zero, List.append_nil]

/-! ## One record -/

/-- The size the scan computes. -/
theorem free_eq (h : At m s.ep r) (hok : r.Ok) :
    (dReclen m s.ep - if dIno m s.ep ≠ 0 then (dirsiz (dNamlen m s.ep) : Int) else 0) = r.free := by
  have hfits := hok.fits
  rw [h.ino, h.reclen, h.namlen, Rec.free]
  by_cases hz : r.ino = 0
  · simp [hz]
  · rw [if_pos hz, if_neg hz]
    omega

theorem watch_fields (s : Scan) (m : Nat → UInt8) (slotneeded : Nat) :
    (s.watch m slotneeded).ni_offset = s.ni_offset ∧ (s.watch m slotneeded).bp = s.bp ∧
      (s.watch m slotneeded).entryoffsetinblock = s.entryoffsetinblock ∧
      (s.watch m slotneeded).prevoff = s.prevoff ∧ (s.watch m slotneeded).enduseful = s.enduseful := by
  unfold Scan.watch
  dsimp only
  split_ifs <;> exact ⟨rfl, rfl, rfl, rfl, rfl⟩

/-- A record is added to the room. -/
theorem Watched.record (hw : Watched slotneeded front done s) (ht : s.slotstatus = .none → Tracked front done s)
    (hoff : s.ni_offset = front.length * dirblksiz + span done) (h : At m s.ep r) (hok : r.Ok) :
    Watched slotneeded front (done ++ [r]) (s.watch m slotneeded) ∧
      ((s.watch m slotneeded).slotstatus = .none → Tracked front (done ++ [r]) (s.watch m slotneeded)) := by
  have hspan : span [r] = r.reclen := by simp
  have hroom : room [r] = r.free := by simp
  unfold Scan.watch
  simp only [free_eq h hok]
  simp only [h.reclen]
  split
  · next hst =>
    exact ⟨⟨fun hn => absurd hn (by rw [hst]; decide), fun hn => (hw.some hn).record r⟩,
      fun hn => absurd hn (by rw [hst]; decide)⟩
  · split
    · next hpos =>
      split
      · next hfit =>
        refine ⟨⟨fun h => (by cases h), fun _ => .here ?_ ?_ ?_⟩, fun h => (by cases h)⟩
        · rw [hoff]
        · rw [hspan]
        · rw [hroom]
          exact Int.ofNat_le.mp hfit
      · next hfit =>
        split
        · next hn =>
          obtain ⟨hspace, hsince⟩ := ht hn
          rw [hspace]
          obtain ⟨pre, mid, hdone, hpre, hplace⟩ : ∃ pre mid, done ++ [r] = pre ++ mid ∧ room pre = 0 ∧
              (if s.slotoffset = -1 then (s.ni_offset : Int) else s.slotoffset) =
                (front.length * dirblksiz + span pre : Nat) := by
            rcases hsince with ⟨hnone, hzero⟩ | ⟨pre, mid, rfl, hzero, hplace⟩
            · exact ⟨done, [r], rfl, hzero, by rw [if_pos hnone, hoff]⟩
            · exact ⟨pre, mid ++ [r], List.append_assoc .., hzero, by rw [if_neg (by omega), hplace]⟩
          have hall : room pre + room mid = room done + r.free := by
            rw [← room_append, ← hdone, room_append, hroom]
          have hlong : span pre + span mid = span done + r.reclen := by
            rw [← span_append, ← hdone, span_append, hspan]
          rw [hplace]
          split
          · next hsum =>
            refine ⟨⟨fun h => (by cases h), fun _ => ?_⟩, fun h => (by cases h)⟩
            rw [hdone]
            refine .here rfl ?_ ?_
            · simp only
              omega
            · omega
          · next hsum =>
            refine ⟨⟨fun _ rs hrs => ?_, fun h => absurd hn h⟩, fun _ => ⟨?_, .inr ⟨pre, mid, hdone, hpre, rfl⟩⟩⟩
            · rcases List.mem_append.mp hrs with hrs | hrs
              · exact hw.none hn rs (List.mem_append_left _ hrs)
              · rw [List.mem_singleton.mp hrs, room_append, hroom]
                omega
            · rw [room_append, hroom]
              push_cast
              rfl
        · next hn =>
          exact ⟨⟨fun h => absurd h hn, fun h => (hw.some h).record r⟩, fun h => absurd h hn⟩
    · next hpos =>
      have hzero : r.free = 0 := by omega
      refine ⟨⟨fun hn rs hrs => ?_, fun hn => (hw.some hn).record r⟩, fun hn => ?_⟩
      · rcases List.mem_append.mp hrs with hrs | hrs
        · exact hw.none hn rs (List.mem_append_left _ hrs)
        · rw [List.mem_singleton.mp hrs, room_append, hroom, hzero]
          exact hw.none hn done (List.mem_append_right _ (List.mem_singleton_self _))
      · obtain ⟨hspace, hsince⟩ := ht hn
        refine ⟨by rw [hspace, room_append, hroom, hzero, Nat.add_zero], ?_⟩
        rcases hsince with ⟨hnone, hnil⟩ | ⟨pre, mid, rfl, hpre, hplace⟩
        · exact .inl ⟨hnone, by rw [room_append, hroom, hzero, hnil]⟩
        · exact .inr ⟨pre, mid ++ [r], List.append_assoc .., hpre, hplace⟩

theorem Seen.watch (h : Seen name entered front done s) (m : Nat → UInt8) (slotneeded : Nat) :
    Seen name entered front done (s.watch m slotneeded) := by
  obtain ⟨hoff, hbp, hentry, hprev, huse⟩ := watch_fields s m slotneeded
  exact ⟨hoff ▸ h.offset, fun hb => by rw [hbp, hentry]; exact h.buffer hb, fun ds p hd => hprev ▸ h.prev ds p hd,
    h.absent, fun k rs hk hlive => huse ▸ h.useful k rs hk hlive, by rw [hoff, huse]; exact h.bound⟩

theorem watch_ep (s : Scan) (m : Nat → UInt8) (slotneeded : Nat) : (s.watch m slotneeded).ep = s.ep := by
  obtain ⟨-, hbp, hentry, -⟩ := watch_fields s m slotneeded
  rw [Scan.ep, Scan.ep, hbp, hentry]

theorem enter_fields (s : Scan) :
    s.enter.ni_offset = s.ni_offset ∧ s.enter.slotstatus = s.slotstatus ∧ s.enter.slotsize = s.slotsize ∧
      s.enter.prevoff = s.prevoff ∧ s.enter.enduseful = s.enduseful := by
  unfold Scan.enter
  dsimp only
  split_ifs <;> exact ⟨rfl, rfl, rfl, rfl, rfl⟩

/-- Between two records of a block nothing happens; at its start the block is read and the room counted anew. -/
theorem enter_eq (hoff : s.ni_offset = front.length * dirblksiz + span done)
    (hbuf : done ≠ [] → s.bp = front.length ∧ s.entryoffsetinblock = span done) (hok : ∀ r ∈ done, r.Ok)
    (hlt : span done < dirblksiz) :
    (done ≠ [] → s.enter = s) ∧
      (done = [] → s.enter.bp = front.length ∧ s.enter.entryoffsetinblock = 0 ∧
        (s.slotstatus = .none → s.enter.slotoffset = -1 ∧ s.enter.slotfreespace = 0) ∧
        (s.slotstatus ≠ .none → s.enter.slotoffset = s.slotoffset)) := by
  constructor
  · intro hne
    have hpos := span_pos hok hne
    obtain ⟨-, hentry⟩ := hbuf hne
    have hmod : s.ni_offset % dirblksiz = span done := by
      rw [hoff, Nat.mul_add_mod_self_right, Nat.mod_eq_of_lt hlt]
    have hne0 : span done ≠ 0 := Nat.pos_iff_ne_zero.mp hpos
    unfold Scan.enter
    simp only [hmod, if_neg hne0]
    rw [if_neg]
    rintro ⟨-, hzero⟩
    rw [hentry, Nat.mod_eq_of_lt hlt] at hzero
    exact hne0 hzero
  · rintro rfl
    rw [span_nil, Nat.add_zero] at hoff
    have hmod : s.ni_offset % dirblksiz = 0 := by rw [hoff, Nat.mul_mod_left]
    have hdiv : s.ni_offset / dirblksiz = front.length := by rw [hoff, Nat.mul_div_cancel _ (by decide)]
    unfold Scan.enter
    rw [if_pos hmod, hdiv]
    dsimp only
    split
    · next h => exact ⟨rfl, rfl, fun _ => ⟨rfl, rfl⟩, fun hn => absurd h.1 hn⟩
    · next h => exact ⟨rfl, rfl, fun hn => absurd ⟨hn, rfl⟩ h, fun _ => rfl⟩

/-! ## Steps and runs -/

/-- The scan stands before a record, or at the end of a block; `watching` for room. -/
structure Stands (watching : Prop) (name : List UInt8) (slotneeded : Nat) (front : List (List Rec)) (done : List Rec)
    (s : Scan) : Prop where
  seen : Seen name false front done s
  watched : watching → Watched slotneeded front done s
  tracked : watching → done ≠ [] → s.slotstatus = .none → Tracked front done s

/-- The block is in the buffer. -/
theorem Stands.enter {watching : Prop} (h : Stands watching name slotneeded front done s) (hok : ∀ r ∈ done, r.Ok)
    (hlt : span done < dirblksiz) :
    Seen name true front done s.enter ∧ (watching → Watched slotneeded front done s.enter) ∧
      (watching → s.enter.slotstatus = .none → Tracked front done s.enter) := by
  obtain ⟨hseen, hwatched, htracked⟩ := h
  have hbuf : done ≠ [] → s.bp = front.length ∧ s.entryoffsetinblock = span done := fun hne => hseen.buffer (.inr hne)
  obtain ⟨hinside, hstart⟩ := enter_eq hseen.offset hbuf hok hlt
  obtain ⟨hoff, hst, hsize, hprev, huse⟩ := enter_fields s
  by_cases hne : done = []
  · obtain ⟨hbp, hentry, hnone, hsome⟩ := hstart hne
    refine ⟨⟨hoff ▸ hseen.offset, fun _ => ⟨hbp, by rw [hentry, hne, span_nil]⟩, fun ds p hd => hprev ▸ hseen.prev ds p hd,
      hseen.absent, fun k rs hk hr => huse ▸ hseen.useful k rs hk hr, by rw [huse, hoff]; exact hseen.bound⟩, ?_, ?_⟩
    · intro hw
      refine ⟨fun hn => (hwatched hw).none (hst ▸ hn), fun hn => ?_⟩
      rw [hst] at hn
      rw [hsize, hsome hn]
      exact (hwatched hw).some hn
    · intro _ hn
      rw [hst] at hn
      obtain ⟨hplace, hspace⟩ := hnone hn
      rw [hne]
      exact ⟨hspace, .inl ⟨hplace, rfl⟩⟩
  · rw [hinside hne]
    exact ⟨⟨hseen.offset, fun _ => hbuf hne, hseen.prev, hseen.absent, hseen.useful, hseen.bound⟩, hwatched,
      fun hw => htracked hw hne⟩

/-- The record has another name. -/
theorem Seen.advance (h : Seen name true front done s) (hr : At m s.ep r) (hok : r.Ok)
    (hname : r.ino ≠ 0 → r.name ≠ name) :
    Seen name false front (done ++ [r]) (s.advance m) := by
  obtain ⟨hbp, hentry⟩ := h.buffer (.inl rfl)
  have hspan : span (done ++ [r]) = span done + r.reclen := by simp
  have hreclen := hr.reclen
  refine ⟨?_, fun _ => ⟨hbp, ?_⟩, fun ds p hd => ?_, fun rs hrs => ?_, fun k rs hk hlive => ?_, ?_⟩
  · simp only [Scan.advance]
    rw [h.offset, hspan, hreclen, Nat.add_assoc]
  · simp only [Scan.advance]
    rw [hentry, hspan, hreclen]
  · obtain ⟨rfl, -⟩ := List.append_inj' hd rfl
    exact h.offset
  · rcases List.mem_append.mp hrs with hrs | hrs
    · exact h.absent rs (List.mem_append_left _ hrs)
    · rw [List.mem_singleton.mp hrs]
      intro r' hr'
      rcases List.mem_append.mp hr' with hr' | hr'
      · exact h.absent done (List.mem_append_right _ (List.mem_singleton_self _)) r' hr'
      · rw [List.mem_singleton.mp hr']
        exact hname
  · simp only [Scan.advance]
    have hbound := h.bound
    have hpos := hok.pos
    have hstart : front.length * dirblksiz ≤ s.ni_offset := by
      rw [h.offset]
      exact Nat.le_add_right _ _
    have hold : k * dirblksiz < s.enduseful →
        k * dirblksiz < if dIno m s.ep ≠ 0 then s.ni_offset + dReclen m s.ep else s.enduseful := by
      intro hlt
      split <;> omega
    rcases Nat.lt_trichotomy k front.length with hlt | rfl | hgt
    · rw [List.getElem?_append_left hlt] at hk
      exact hold (h.useful k rs (by rw [List.getElem?_append_left hlt, hk]) hlive)
    · rw [List.getElem?_append_right (Nat.le_refl _), Nat.sub_self, List.getElem?_cons_zero, Option.some.injEq] at hk
      obtain ⟨r', hr', hino⟩ := hlive
      rw [← hk] at hr'
      rcases List.mem_append.mp hr' with hr' | hr'
      · refine hold (h.useful front.length done ?_ ⟨r', hr', hino⟩)
        rw [List.getElem?_append_right (Nat.le_refl _), Nat.sub_self, List.getElem?_cons_zero]
      · rw [List.mem_singleton.mp hr', ← hr.ino] at hino
        rw [if_pos hino, hreclen]
        omega
    · rw [List.getElem?_eq_none (by rw [List.length_append, List.length_singleton]; omega)] at hk
      cases hk
  · simp only [Scan.advance]
    have hbound := h.bound
    split <;> omega

/-- The next block begins. -/
theorem Stands.next {watching : Prop} {rs : List Rec} (h : Stands watching name slotneeded front rs s)
    (hfull : span rs = dirblksiz) (hneed : 0 < slotneeded) : Stands watching name slotneeded (front ++ [rs]) [] s := by
  obtain ⟨⟨hoff, -, -, habsent, huse, hbound⟩, hwatched, -⟩ := h
  have hend : ∀ ks ∈ (front ++ [rs]) ++ [[]], ks ∈ front ++ [rs] ∨ ks = [] := by
    intro ks hks
    rcases List.mem_append.mp hks with hks | hks
    · exact .inl hks
    · exact .inr (List.mem_singleton.mp hks)
  refine ⟨⟨?_, fun hb => absurd rfl (hb.resolve_left (by decide)), fun ds p hd => ?_, fun ks hks r hr => ?_,
    fun k ks hk hlive => ?_, hbound⟩, fun hw => ⟨fun hn ks hks => ?_, fun hn => ((hwatched hw).some hn).block []⟩,
    fun _ hne => absurd rfl hne⟩
  · rw [hoff, hfull, List.length_append, List.length_singleton, Nat.succ_mul, span_nil, Nat.add_zero]
  · exact absurd hd.symm (by simp)
  · rcases hend ks hks with hks | rfl
    · exact habsent ks hks r hr
    · cases hr
  · rcases Nat.lt_or_ge k (front ++ [rs]).length with hlt | hge
    · rw [List.getElem?_append_left hlt] at hk
      exact huse k ks hk hlive
    · obtain ⟨r, hr, -⟩ := hlive
      rcases hend ks (List.mem_of_getElem? hk) with hks | rfl
      · rw [List.getElem?_append_right hge] at hk
        have hnil : ks = [] := List.mem_singleton.mp (List.mem_of_getElem? hk)
        rw [hnil] at hr
        cases hr
      · cases hr
  · rcases hend ks hks with hks | rfl
    · exact (hwatched hw).none hn ks hks
    · exact hneed

/-- What a scan from here comes to: a block cannot be read, the first record in use with the name is reached, or the scan
    goes on at another place. -/
inductive Reaches (io : Io) (m : Nat → UInt8) (watching : Prop) (name : List UInt8) (slotneeded : Nat) (endsearch : Int)
    (bs : List (List Rec)) (front' : List (List Rec)) (done' : List Rec) : Scanned → Prop
  | bad (h : ∃ b, io.reads b = false) : Reaches io m watching name slotneeded endsearch bs front' done' .bad
  | found {front back : List (List Rec)} {done rest : List Rec} {r : Rec} {s : Scan}
      (hbs : bs = front ++ (done ++ r :: rest) :: back) (hino : r.ino ≠ 0) (hname : r.name = name)
      (hseen : Seen name true front done s) :
      Reaches io m watching name slotneeded endsearch bs front' done' (.found s)
  | on {n : Nat} {s : Scan} (h : Stands watching name slotneeded front' done' s) (hfuel : endsearch ≤ s.ni_offset + n) :
      Reaches io m watching name slotneeded endsearch bs front' done'
        (searchloop io m name slotneeded endsearch n s)

/-- **The records of a block**, one by one. -/
theorem searchloop_records (io : Io) {watching : Prop} {endsearch : Int} {bs back : List (List Rec)} (todo : List Rec)
    {n : Nat} (hbs : bs = front ++ (done ++ todo) :: back) (hb : Block m (front.length * dirblksiz) (done ++ todo))
    (hstop : ((front.length + 1) * dirblksiz : Nat) ≤ endsearch)
    (h : Stands watching name slotneeded front done s) (hfuel : endsearch ≤ s.ni_offset + n) :
    Reaches io m watching name slotneeded endsearch bs front (done ++ todo)
      (searchloop io m name slotneeded endsearch n s) := by
  induction todo generalizing done n s with
  | nil =>
    rw [List.append_nil]
    exact .on h hfuel
  | cons r todo ih =>
    obtain ⟨hlays, hall, hfull⟩ := hb
    have hlays' := hlays
    rw [Lays.append] at hlays'
    obtain ⟨-, hr, -⟩ := hlays'
    have hok : r.Ok := hall r (by simp)
    have hdone : ∀ r ∈ done, r.Ok := fun r hr => hall r (List.mem_append_left _ hr)
    have hpos := hok.pos
    rw [span_append, span_cons] at hfull
    have hoff := h.seen.offset
    rw [Nat.succ_mul] at hstop
    obtain ⟨n, rfl⟩ : ∃ k, n = k + 1 := Nat.exists_eq_succ_of_ne_zero (by omega)
    unfold searchloop
    rw [if_pos (by omega)]
    split
    · next hbad => exact .bad ⟨_, hbad.2⟩
    · obtain ⟨hseen, hwatched, htracked⟩ := h.enter hdone (by omega)
      have hep : s.enter.ep = front.length * dirblksiz + span done := by
        obtain ⟨hbp, hentry⟩ := hseen.buffer (.inl rfl)
        rw [Scan.ep, hbp, hentry]
      have hat : At m s.enter.ep r := by
        rw [hep]
        exact hr
      have hlen := hat.reclen
      dsimp only
      rw [if_neg (by omega)]
      have hat' : At m (s.enter.watch m slotneeded).ep r := by
        rw [watch_ep]
        exact hat
      have hseen' := hseen.watch m slotneeded
      have hmatch : (dIno m (s.enter.watch m slotneeded).ep ≠ 0 ∧ dNamlen m (s.enter.watch m slotneeded).ep = name.length ∧
          dName m (s.enter.watch m slotneeded).ep = name) ↔ r.ino ≠ 0 ∧ r.name = name := by
        rw [hat'.ino, hat'.namlen, hat'.dName]
        exact ⟨fun h => ⟨h.1, h.2.2⟩, fun h => ⟨h.1, by rw [h.2], h.2⟩⟩
      split
      · next hfound =>
        obtain ⟨hino, hname⟩ := hmatch.mp hfound
        exact .found hbs hino hname hseen'
      · next hother =>
        have hstands : Stands watching name slotneeded front (done ++ [r]) ((s.enter.watch m slotneeded).advance m) := by
          have hname : r.ino ≠ 0 → r.name ≠ name := fun hino hname => hother (hmatch.mpr ⟨hino, hname⟩)
          refine ⟨hseen'.advance hat' hok hname, fun hw => ?_, fun hw _ => ?_⟩
          · obtain ⟨hnone, hsome⟩ := ((hwatched hw).record (htracked hw) hseen.offset hat hok).1
            exact ⟨hnone, hsome⟩
          · intro hn
            obtain ⟨hspace, hsince⟩ := ((hwatched hw).record (htracked hw) hseen.offset hat hok).2 hn
            exact ⟨hspace, hsince⟩
        have hblk : Block m (front.length * dirblksiz) (done ++ [r] ++ todo) := by
          rw [List.append_assoc]
          exact ⟨hlays, hall, by rw [span_append, List.singleton_append, span_cons]; exact hfull⟩
        have hleft : endsearch ≤ (((s.enter.watch m slotneeded).advance m).ni_offset + n : Int) := by
          have hmove := hstands.seen.offset
          rw [span_append, span_cons, span_nil] at hmove
          push_cast at hfuel
          omega
        have hrest := ih (by rw [List.append_assoc]; exact hbs) hblk hstands hleft
        rw [List.append_assoc] at hrest
        exact hrest

/-- **The blocks**, one by one. -/
theorem searchloop_blocks (io : Io) {watching : Prop} {bs back : List (List Rec)} {n : Nat} (hbs : bs = front ++ back)
    (hb : ∀ k rs, bs[k]? = some rs → Block m (k * dirblksiz) rs) (hneed : 0 < slotneeded)
    (h : Stands watching name slotneeded front [] s) (hfuel : (bs.length * dirblksiz : Nat) ≤ (s.ni_offset + n : Int)) :
    Reaches io m watching name slotneeded (bs.length * dirblksiz : Nat) bs bs []
      (searchloop io m name slotneeded (bs.length * dirblksiz : Nat) n s) := by
  induction back generalizing front n s with
  | nil =>
    rw [List.append_nil] at hbs
    rw [← hbs] at h
    exact .on h hfuel
  | cons rs back ih =>
    have hblk : Block m (front.length * dirblksiz) rs := by
      refine hb _ _ ?_
      rw [hbs, List.getElem?_append_right (Nat.le_refl _), Nat.sub_self, List.getElem?_cons_zero]
    have hstop : (front.length + 1) * dirblksiz ≤ bs.length * dirblksiz := by
      refine Nat.mul_le_mul_right _ ?_
      rw [hbs, List.length_append, List.length_cons]
      omega
    have hrun := searchloop_records io rs hbs hblk (Int.ofNat_le.mpr hstop) h hfuel
    generalize searchloop io m name slotneeded (bs.length * dirblksiz : Nat) n s = x at hrun ⊢
    cases hrun with
    | bad hbad => exact .bad hbad
    | found hbs hino hname hseen => exact .found hbs hino hname hseen
    | on h hfuel =>
      rw [List.nil_append] at h
      exact ih (by rw [hbs, List.append_assoc, List.singleton_append]) (h.next hblk.full hneed) hfuel

end

/-! ## What the lookups return -/

section
variable {dp : Directory} {bs : List (List Rec)} {dent : Direct} {ndp : Nameidata} {io : Io} {write : Bool}

theorem roundup_eq {n : Nat} (h : n + (dirblksiz - 1) < 2 ^ 31) :
    roundup n = ((n + (dirblksiz - 1)) / dirblksiz * dirblksiz : Nat) := by
  have hoff : offT ((n : Int) + ((dirblksiz : Nat) - 1)) = ((n + (dirblksiz - 1) : Nat) : Int) := by
    unfold offT
    rw [show (dirblksiz : Nat) = 1024 from rfl] at h ⊢
    rw [Int.bmod_def]
    split <;> omega
  rw [roundup, hoff, ← Int.ofNat_tdiv]
  rfl

theorem le_howmany (n : Nat) : n ≤ (n + (dirblksiz - 1)) / dirblksiz * dirblksiz := by
  unfold dirblksiz
  omega

theorem roundup_mul {n : Nat} (h : n < 2 ^ 21) : Dir.roundup (n * dirblksiz : Nat) = (n * dirblksiz : Nat) := by
  have hlimit : n * dirblksiz + (dirblksiz - 1) < 2 ^ 31 := by
    unfold dirblksiz
    omega
  have hround : (n * dirblksiz + (dirblksiz - 1)) / dirblksiz * dirblksiz = n * dirblksiz := by
    clear hlimit
    unfold dirblksiz
    omega
  rw [roundup_eq hlimit, hround]

theorem Holds.length_lt (h : Holds dp bs) : bs.length < 2 ^ 21 := Nat.lt_of_mul_lt_mul_right (a := 1024) h.fits

theorem Holds.roundup (h : Holds dp bs) : Dir.roundup dp.i_size = (bs.length * dirblksiz : Nat) := by
  rw [h.size, roundup_mul h.length_lt]

/-- The place a lookup gives for a new entry. -/
structure Given (bs : List (List Rec)) (slotneeded : Nat) (ndp : Nameidata) : Prop where
  fresh : ndp.ni_count = 0 → ndp.ni_offset = (bs.length * dirblksiz : Nat) ∧ ∀ rs ∈ bs, room rs < slotneeded
  place : ndp.ni_count ≠ 0 → Slotted bs slotneeded ndp.ni_offset ndp.ni_count
  useful : ∃ n ≤ bs.length, ndp.ni_endoff = (n * dirblksiz : Nat) ∧
    (ndp.ni_count ≠ 0 → ndp.ni_offset + ndp.ni_count ≤ ndp.ni_endoff) ∧
    ∀ k rs, bs[k]? = some rs → (∃ r ∈ rs, r.ino ≠ 0) → k < n

theorem stands_start (watching : Prop) (name : List UInt8) {slotneeded : Nat} (hneed : 0 < slotneeded) (status : SlotStatus)
    (hst : watching → status = .none) : Stands watching name slotneeded [] [] ⟨0, 0, 0, status, -1, 0, 0, 0, 0⟩ := by
  refine ⟨⟨rfl, fun _ => ⟨rfl, rfl⟩, fun ds p hd => absurd hd.symm (by simp), ?_, ?_, Nat.le_refl _⟩, fun hw => ⟨?_, ?_⟩,
    fun _ hne => absurd rfl hne⟩
  · intro rs hrs r hr
    rw [List.mem_singleton.mp hrs] at hr
    cases hr
  · rintro k rs hk ⟨r, hr, -⟩
    rw [List.mem_singleton.mp (List.mem_of_getElem? hk)] at hr
    cases hr
  · intro _ rs hrs
    rw [List.mem_singleton.mp hrs]
    exact hneed
  · intro hn
    exact absurd (hst hw) hn

/-- **The whole scan** of a well-formed directory. -/
theorem Holds.scan (h : Holds dp bs) (io : Io) (name : List UInt8) (namlen : Nat) (watching : Prop) (status : SlotStatus)
    (hst : watching → status = .none) :
    ∃ x, searchloop io dp.data name (dirsiz namlen) (Dir.roundup dp.i_size) (Dir.roundup dp.i_size).toNat
        ⟨0, 0, 0, status, -1, 0, 0, 0, 0⟩ = x ∧
      ((x = .bad ∧ ∃ b, io.reads b = false) ∨
        (∃ s, x = .found s ∧ ∃ front done r rest back, bs = front ++ (done ++ r :: rest) :: back ∧ r.ino ≠ 0 ∧
          r.name = name ∧ Seen name true front done s) ∨
        ∃ s, x = .notfound s ∧ Stands watching name (dirsiz namlen) bs [] s) := by
  have hneed : 0 < dirsiz namlen := Nat.lt_of_le_of_lt (Nat.zero_le _) (lt_dirsiz namlen)
  rw [h.roundup, Int.toNat_natCast]
  have hfuel : ((bs.length * dirblksiz : Nat) : Int) ≤ ((0 : Nat) + (bs.length * dirblksiz : Nat) : Int) := by simp
  have hstart := stands_start watching name hneed status hst
  have hrun := searchloop_blocks io (List.nil_append bs).symm h.block hneed hstart hfuel
  generalize searchloop io dp.data name (dirsiz namlen) (bs.length * dirblksiz : Nat) (bs.length * dirblksiz)
    ⟨0, 0, 0, status, -1, 0, 0, 0, 0⟩ = x at hrun ⊢
  refine ⟨x, rfl, ?_⟩
  cases hrun with
  | bad hbad => exact .inl ⟨rfl, hbad⟩
  | @found front back done rest r s hbs hino hname hseen =>
    exact .inr (.inl ⟨s, rfl, front, done, r, rest, back, hbs, hino, hname, hseen⟩)
  | @on n s hs hfuel =>
    refine .inr (.inr ⟨s, ?_, hs⟩)
    have hoff := hs.seen.offset
    rw [span_nil, Nat.add_zero] at hoff
    cases n with
    | zero => rfl
    | succ n =>
      unfold searchloop
      rw [if_neg (by omega)]

/-- No record in use has the name. -/
def Absent (bs : List (List Rec)) (name : List UInt8) : Prop := ∀ rs ∈ bs, ∀ r ∈ rs, r.ino ≠ 0 → r.name ≠ name

/-- A place lies in its block. -/
theorem Slotted.within {needed : Nat} {off size : Int} (h : Holds dp bs) (hneed : 0 < needed)
    (hs : Slotted bs needed off size) : 0 < size ∧ size ≤ dirblksiz ∧ off + size ≤ (bs.length * dirblksiz : Nat) := by
  obtain ⟨k, pre, mid, post, hk, rfl, rfl, hroom⟩ := hs
  obtain ⟨-, hok, hfull⟩ := h.block k _ hk
  have hlt : k < bs.length := (List.getElem?_eq_some_iff.mp hk).1
  have hmid : mid ≠ [] := by
    rintro rfl
    rw [room_nil] at hroom
    omega
  have hpos := span_pos (fun r hr => hok r (List.mem_append_left _ (List.mem_append_right _ hr))) hmid
  simp only [span_append] at hfull
  have hle : (k + 1) * dirblksiz ≤ bs.length * dirblksiz := Nat.mul_le_mul_right _ hlt
  rw [Nat.succ_mul] at hle
  refine ⟨by omega, by omega, by push_cast; omega⟩

/-- At the end of the scan the place is in a block of the directory. -/
theorem Slotted.closed {needed : Nat} {off size : Int} (hneed : 0 < needed) (hs : Slotted (bs ++ [[]]) needed off size) :
    Slotted bs needed off size := by
  obtain ⟨k, pre, mid, post, hk, hoff, hsize, hroom⟩ := hs
  rcases Nat.lt_or_ge k bs.length with hlt | hge
  · rw [List.getElem?_append_left hlt] at hk
    exact ⟨k, pre, mid, post, hk, hoff, hsize, hroom⟩
  · rw [List.getElem?_append_right hge] at hk
    have hnil : pre ++ mid ++ post = [] := List.mem_singleton.mp (List.mem_of_getElem? hk)
    have hmid : mid = [] := (List.append_eq_nil_iff.mp (List.append_eq_nil_iff.mp hnil).1).2
    rw [hmid, room_nil] at hroom
    omega

/-- **A place for a name that is not there.** -/
theorem Holds.slot (h : Holds dp bs) (hr : nameiAt .create io write dp dent = .slot ndp) :
    ndp.ni_dent = dent ∧ Given bs (dirsiz dent.d_namlen) ndp ∧ Absent bs dent.name := by
  have hneed : 0 < dirsiz dent.d_namlen := Nat.lt_of_le_of_lt (Nat.zero_le _) (lt_dirsiz _)
  obtain ⟨x, hx, hscan⟩ := h.scan io dent.name dent.d_namlen True .none fun _ => rfl
  unfold nameiAt at hr
  simp only [if_true, hx] at hr
  rcases hscan with ⟨rfl, -⟩ | ⟨s, rfl, -⟩ | ⟨s, rfl, hs⟩
  · cases hr
  · cases hr
  · dsimp only at hr
    obtain ⟨⟨hoff, -, -, habsent, huse, hbound⟩, hwatched, -⟩ := hs
    obtain ⟨hnone, hsome⟩ := hwatched trivial
    have hout : Absent bs dent.name := fun rs hrs => habsent rs (List.mem_append_left _ hrs)
    rw [span_nil, Nat.add_zero] at hoff
    have hlive : ∀ k rs, bs[k]? = some rs → (∃ r ∈ rs, r.ino ≠ 0) → k * dirblksiz < s.enduseful := fun k rs hk hl => by
      refine huse k rs ?_ hl
      rw [List.getElem?_append_left (List.getElem?_eq_some_iff.mp hk).1, hk]
    split at hr
    · split at hr
      · cases hr
      · split at hr
        · next hst =>
          rw [h.roundup, roundup_mul h.length_lt] at hr
          obtain rfl := Lookup.slot.inj hr
          refine ⟨rfl, ⟨fun _ => ⟨rfl, fun rs hrs => hnone hst rs (List.mem_append_left _ hrs)⟩, fun hz => absurd rfl hz,
            bs.length, Nat.le_refl _, rfl, fun hz => absurd rfl hz, ?_⟩, hout⟩
          exact fun k rs hk _ => (List.getElem?_eq_some_iff.mp hk).1
        · next hst =>
          have hslot := (hsome hst).closed hneed
          obtain ⟨hpos, hle, hin⟩ := hslot.within h hneed
          have hstart : 0 ≤ s.slotoffset := by
            obtain ⟨k, pre, mid, post, -, hp, -⟩ := hslot
            rw [hp]
            exact Int.natCast_nonneg _
          obtain ⟨e, he⟩ : ∃ e : Nat, max (s.enduseful : Int) (s.slotoffset + s.slotsize) = e :=
            ⟨_, (Int.toNat_of_nonneg (by omega)).symm⟩
          have hetop : e ≤ bs.length * dirblksiz := by omega
          have hcount : wrap 16 s.slotsize.toNat = s.slotsize.toNat := wrap_of_lt (by unfold dirblksiz at hle; omega)
          have hmany := h.length_lt
          have hend : Dir.roundup (e : Int) = ((e + (dirblksiz - 1)) / dirblksiz * dirblksiz : Nat) := by
            refine roundup_eq ?_
            unfold dirblksiz at hetop ⊢
            omega
          rw [he, hcount, hend] at hr
          obtain rfl := Lookup.slot.inj hr
          dsimp only
          have hsize : ((s.slotsize.toNat : Nat) : Int) = s.slotsize := Int.toNat_of_nonneg (by omega)
          have hreach : e ≤ (e + (dirblksiz - 1)) / dirblksiz * dirblksiz := le_howmany e
          refine ⟨rfl, ⟨fun hz => ?_, fun _ => ?_, (e + (dirblksiz - 1)) / dirblksiz, ?_, rfl, fun _ => ?_, ?_⟩, hout⟩
          · have hz : s.slotsize.toNat = 0 := hz
            omega
          · rw [hsize]
            exact hslot
          · unfold dirblksiz at hetop ⊢
            omega
          · simp only [hsize]
            omega
          · intro k rs hk hl
            have hlt := hlive k rs hk hl
            have hle : k * dirblksiz < (e + (dirblksiz - 1)) / dirblksiz * dirblksiz := by omega
            exact Nat.lt_of_mul_lt_mul_right hle
    · cases hr

/-- The name is not there, and may be created: the lookup gives a place. -/
theorem Holds.creates (h : Holds dp bs) (hio : ∀ b, io.reads b = true) (hw : write = true) (hl : dp.i_nlink ≠ 0)
    (habsent : Absent bs dent.name) : ∃ ndp, nameiAt .create io write dp dent = .slot ndp := by
  obtain ⟨x, hx, hscan⟩ := h.scan io dent.name dent.d_namlen True .none fun _ => rfl
  unfold nameiAt
  simp only [if_true, hx, hw]
  rcases hscan with ⟨rfl, b, hb⟩ | ⟨s, rfl, front, done, r, rest, back, hbs, hino, hname, -⟩ | ⟨s, rfl, -⟩
  · rw [hio b] at hb
    cases hb
  · refine absurd hname (habsent (done ++ r :: rest) ?_ r (by simp) hino)
    rw [hbs]
    simp
  · dsimp only
    rw [if_pos ⟨trivial, hl⟩]
    simp only [Bool.true_eq_false, if_false]
    split
    · exact ⟨_, rfl⟩
    · exact ⟨_, rfl⟩

/-- What a lookup leaves of the record it found: `r`, behind `pre` in the block after `front`. -/
structure Points (front : List (List Rec)) (pre : List Rec) (r : Rec) (dent : Direct) (ndp : Nameidata) : Prop where
  offset : ndp.ni_offset = (front.length * dirblksiz + span pre : Nat)
  first : pre = [] → ndp.ni_count = 0
  count : ∀ ds p, pre = ds ++ [p] → ndp.ni_count = p.reclen
  dent : ndp.ni_dent = { dent with d_ino := r.ino, d_reclen := r.reclen }

/-- **A record with the name.** -/
theorem Holds.entry {dp' : Directory} (h : Holds dp bs) (hr : nameiAt .delete io write dp dent = .entry ndp dp') :
    dp' = dp ∧ ∃ front pre r post back, bs = front ++ (pre ++ r :: post) :: back ∧ r.ino ≠ 0 ∧ r.name = dent.name ∧
      Points front pre r dent ndp := by
  obtain ⟨x, hx, hscan⟩ := h.scan io dent.name dent.d_namlen False .found False.elim
  unfold nameiAt at hr
  simp only [reduceCtorEq, if_false, hx] at hr
  rcases hscan with ⟨rfl, -⟩ | ⟨s, rfl, front, pre, r, post, back, hbs, hino, hname, hseen⟩ | ⟨s, rfl, -⟩
  · cases hr
  · obtain ⟨hbp, hentry⟩ := hseen.buffer (.inl rfl)
    have hk : bs[front.length]? = some (pre ++ r :: post) := by
      rw [hbs, List.getElem?_append_right (Nat.le_refl _), Nat.sub_self, List.getElem?_cons_zero]
    obtain ⟨hlays, hok, hfull⟩ := h.block _ _ hk
    rw [Lays.append] at hlays
    have hat : At dp.data s.ep r := by
      rw [Scan.ep, hbp, hentry]
      exact hlays.2.1
    have hfits := (hok r (by simp)).fits
    have hpos := (hok r (by simp)).pos
    rw [span_append, span_cons] at hfull
    have hsize : dirblksiz ≤ bs.length * dirblksiz := Nat.le_mul_of_pos_left _ (by rw [hbs]; simp)
    have hsame : dp.reaches (s.entryoffsetinblock + dirsiz (dNamlen dp.data s.ep)) = dp := by
      rw [Directory.reaches, h.size, hentry, hat.namlen, if_neg (by omega)]
    dsimp only at hr
    rw [hsame] at hr
    split at hr
    · cases hr
    · obtain ⟨hndp, hdp⟩ := Lookup.entry.inj hr
      refine ⟨hdp.symm, front, pre, r, post, back, hbs, hino, hname, ?_⟩
      rw [← hndp]
      have hoff := hseen.offset
      refine ⟨by rw [hoff], ?_, ?_, by rw [hat.ino, hat.reclen]⟩
      · rintro rfl
        rw [span_nil, Nat.add_zero] at hoff
        dsimp only
        rw [if_pos (by rw [hoff, Nat.mul_mod_left])]
      · intro ds p hpre
        have hprev := hseen.prev ds p hpre
        have hppos := (hok p (by rw [hpre]; simp)).pos
        rw [hpre, span_append, span_cons, span_nil] at hoff hfull
        have hmod : s.ni_offset % dirblksiz = span ds + p.reclen := by
          rw [hoff, Nat.mul_add_mod_self_right, Nat.add_zero, Nat.mod_eq_of_lt (by omega)]
        dsimp only
        rw [if_neg (by omega), hprev, hoff, Nat.add_zero, ← Nat.add_assoc, Nat.add_sub_cancel_left]
        refine wrap_of_lt ?_
        unfold dirblksiz at hfull
        omega
  · dsimp only at hr
    split at hr
    · next hc => exact absurd hc.1 (by decide)
    · cases hr

/-- The name is there, and may be deleted: the lookup finds a record. -/
theorem Holds.finds (h : Holds dp bs) (hio : ∀ b, io.reads b = true) (hw : write = true) {rs : List Rec} {r : Rec}
    (hrs : rs ∈ bs) (hr : r ∈ rs) (hino : r.ino ≠ 0) (hname : r.name = dent.name) :
    ∃ ndp dp', nameiAt .delete io write dp dent = .entry ndp dp' := by
  obtain ⟨x, hx, hscan⟩ := h.scan io dent.name dent.d_namlen False .found False.elim
  unfold nameiAt
  simp only [reduceCtorEq, if_false, hx, hw]
  rcases hscan with ⟨rfl, b, hb⟩ | ⟨s, rfl, -⟩ | ⟨s, rfl, hs⟩
  · rw [hio b] at hb
    cases hb
  · exact ⟨_, _, rfl⟩
  · exact absurd hname (hs.seen.absent rs (List.mem_append_left _ hrs) r hr hino)

end

end DiscoBSD.Dir
