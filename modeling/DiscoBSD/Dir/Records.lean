import DiscoBSD.Dir.State
import Mathlib.Algebra.BigOperators.Group.List.Basic

/-!
# What a directory holds

**A directory is well formed when its blocks are records from end to end**: `Holds dp bs` says so of the blocks `bs`,
each a list of records, and the entries of the directory are the records with an inode. The records are read off the bytes, so
there is one such list for a directory (`Holds.unique`).

Whatever writes to a directory is described by what it does to the lists: the records before and after the place keep
their bytes (`Lays.congr`), and the place holds new ones.
-/

set_option autoImplicit false

namespace DiscoBSD.Dir

open DiscoBSD.Lib

/-- A record: its inode, its name and its length. -/
@[ext]
structure Rec where
  ino : Nat
  name : List UInt8
  reclen : Nat
  deriving DecidableEq, Repr

/-- The name fits, and the length is a multiple of 4. -/
structure Rec.Ok (r : Rec) : Prop where
  dvd : 4 ∣ r.reclen
  fits : dirsiz r.name.length ≤ r.reclen

/-- The record can be used for. -/
def Rec.free (r : Rec) : Nat := if r.ino = 0 then r.reclen else r.reclen - dirsiz r.name.length

/-- How far a run of records goes. -/
def span (rs : List Rec) : Nat := (rs.map Rec.reclen).sum

/-- The room in a run of records. -/
def room (rs : List Rec) : Nat := (rs.map Rec.free).sum

/-- The names and inodes of the records in use. -/
def entries (rs : List Rec) : List (List UInt8 × Nat) := (rs.filter (·.ino ≠ 0)).map fun r => (r.name, r.ino)

/-- The record at an address. -/
structure At (m : Nat → UInt8) (a : Nat) (r : Rec) : Prop where
  ino : dIno m a = r.ino
  reclen : dReclen m a = r.reclen
  namlen : dNamlen m a = r.name.length
  name : readAt m (a + 8) r.name.length = r.name

/-- The records from an address on, one behind the other. -/
def Lays (m : Nat → UInt8) : Nat → List Rec → Prop
  | _, [] => True
  | a, r :: rs => At m a r ∧ Lays m (a + r.reclen) rs

/-- A block is records from end to end. -/
structure Block (m : Nat → UInt8) (a : Nat) (rs : List Rec) : Prop where
  lays : Lays m a rs
  ok : ∀ r ∈ rs, r.Ok
  full : span rs = dirblksiz

/-- **The directory is well formed and holds these blocks.** Its size is an `off_t`. -/
structure Holds (dp : Directory) (bs : List (List Rec)) : Prop where
  size : dp.i_size = (bs.length * dirblksiz : Nat)
  fits : bs.length * dirblksiz < 2 ^ 31
  block : ∀ k rs, bs[k]? = some rs → Block dp.data (k * dirblksiz) rs

section
variable {m m' : Nat → UInt8} {a : Nat} {r : Rec} {rs : List Rec}

/-! ## Runs of records -/

@[simp] theorem span_nil : span [] = 0 := rfl
@[simp] theorem span_cons (r : Rec) (rs : List Rec) : span (r :: rs) = r.reclen + span rs := by simp [span]
@[simp] theorem span_append (rs rs' : List Rec) : span (rs ++ rs') = span rs + span rs' := by simp [span]

@[simp] theorem room_nil : room [] = 0 := rfl
@[simp] theorem room_cons (r : Rec) (rs : List Rec) : room (r :: rs) = r.free + room rs := by simp [room]
@[simp] theorem room_append (rs rs' : List Rec) : room (rs ++ rs') = room rs + room rs' := by simp [room]

@[simp] theorem entries_nil : entries [] = [] := rfl
@[simp] theorem entries_append (rs rs' : List Rec) : entries (rs ++ rs') = entries rs ++ entries rs' := by simp [entries]

theorem entries_cons (r : Rec) (rs : List Rec) :
    entries (r :: rs) = (if r.ino = 0 then [] else [(r.name, r.ino)]) ++ entries rs := by
  unfold entries
  by_cases h : r.ino = 0
  · simp [h]
  · simp [h]

theorem mem_entries {e : List UInt8 × Nat} : e ∈ entries rs ↔ ∃ r ∈ rs, r.ino ≠ 0 ∧ (r.name, r.ino) = e := by
  simp [entries, and_assoc]

/-! ## The fields -/

theorem lt_dirsiz (n : Nat) : 8 + n < dirsiz n := le_roundUp (by decide) _

theorem dvd_dirsiz (n : Nat) : 4 ∣ dirsiz n := dvd_roundUp _ _

theorem dirsiz_le {n : Nat} (h : n ≤ maxnamlen) : dirsiz n ≤ 72 := by
  have hle : 8 + n + 1 ≤ 72 := by
    unfold maxnamlen at h
    lia
  exact roundUp_mono hle

theorem Rec.Ok.pos (h : r.Ok) : 0 < r.reclen :=
  Nat.lt_of_lt_of_le (Nat.lt_of_le_of_lt (Nat.zero_le _) (lt_dirsiz _)) h.fits

theorem At.dName (h : At m a r) : dName m a = r.name := by
  rw [Dir.dName, h.namlen, h.name]

/-- The record is as long as its bytes are the same. -/
theorem At.congr (h : At m a r) (hs : Same ⟨a, dirsiz r.name.length⟩ m m') : At m' a r := by
  have hlt := lt_dirsiz r.name.length
  have hread : ∀ i k, i + k ≤ 8 + r.name.length → readAt m' (a + i) k = readAt m (a + i) k :=
    fun i k hik => readAt_congr hs (Nat.le_add_right _ _) (by simp only; lia)
  exact ⟨(congrArg leNat (hread 0 4 (by lia))).trans h.ino, (congrArg leNat (hread 4 2 (by lia))).trans h.reclen,
    (congrArg leNat (hread 6 2 (by lia))).trans h.namlen, (hread 8 _ (Nat.le_refl _)).trans h.name⟩

/-- A copy of a record is the record. -/
theorem At.copy (h : At m a r) (m' : Nat → UInt8) (ep : Nat) :
    At (writeAt m' ep (readAt m a (dirsiz r.name.length))) ep r := by
  have hlt := lt_dirsiz r.name.length
  have hread : ∀ i k, i + k ≤ 8 + r.name.length →
      readAt (writeAt m' ep (readAt m a (dirsiz r.name.length))) (ep + i) k = readAt m (a + i) k := by
    intro i k hik
    rw [readAt_writeAt_inside (Nat.le_add_right _ _) (by rw [readAt_length]; lia), Nat.add_sub_cancel_left,
      readAt_drop_take m a (by lia)]
  exact ⟨(congrArg leNat (hread 0 4 (by lia))).trans h.ino, (congrArg leNat (hread 4 2 (by lia))).trans h.reclen,
    (congrArg leNat (hread 6 2 (by lia))).trans h.namlen, (hread 8 _ (Nat.le_refl _)).trans h.name⟩

/-- The length of a record is set. -/
theorem At.setReclen (h : At m a r) {n : Nat} (hn : n < 2 ^ 16) : At (setReclen m a n) a { r with reclen := n } := by
  have hsame : ∀ i k, i + k ≤ 4 ∨ 6 ≤ i → readAt (Dir.setReclen m a n) (a + i) k = readAt m (a + i) k := by
    intro i k hik
    refine readAt_congr (e := ⟨a + i, k⟩) (writeAt_same m ?_) (Nat.le_refl _) (Nat.le_refl _)
    rw [leBytes_length]
    simp only
    lia
  have hlen : readAt (Dir.setReclen m a n) (a + 4) 2 = leBytes 2 n := by
    have hread := readAt_writeAt m (a + 4) (leBytes 2 n)
    rw [leBytes_length] at hread
    exact hread
  exact ⟨(congrArg leNat (hsame 0 4 (by lia))).trans h.ino, (congrArg leNat hlen).trans (leNat_leBytes hn),
    (congrArg leNat (hsame 6 2 (by lia))).trans h.namlen, (hsame 8 _ (by lia)).trans h.name⟩

theorem setReclen_same {e : Extent} (m : Nat → UInt8) {a : Nat} (n : Nat) (h : a + 8 ≤ e.off ∨ e.off + e.size ≤ a) :
    Same e m (setReclen m a n) :=
  writeAt_same m (by rw [leBytes_length]; lia)

@[simp] theorem Direct.bytes_length (ep : Direct) : ep.bytes.length = 72 := by
  simp [Direct.bytes, maxnamlen]

/-- A part of the bytes of the structure. -/
theorem Direct.bytes_part {ep : Direct} {n i k : Nat} (hn : i + k ≤ n) (hle : n ≤ 72) (m : Nat → UInt8) (a : Nat) :
    readAt (writeAt m a (ep.bytes.take n)) (a + i) k = (ep.bytes.drop i).take k := by
  rw [readAt_writeAt_inside (Nat.le_add_right _ _) (by rw [List.length_take, Direct.bytes_length]; lia),
    Nat.add_sub_cancel_left, List.drop_take, List.take_take, Nat.min_eq_left (by lia)]

/-- The structure makes a record. -/
theorem At.write {ep : Direct} (m : Nat → UInt8) (a : Nat) (hname : ep.d_namlen ≤ maxnamlen) (hino : ep.d_ino < 2 ^ 32)
    (hlen : ep.d_reclen < 2 ^ 16) :
    At (writeAt m a (ep.bytes.take (dirsiz ep.d_namlen))) a ⟨ep.d_ino, ep.name, ep.d_reclen⟩ := by
  have hle := dirsiz_le hname
  have hlt := lt_dirsiz ep.d_namlen
  unfold maxnamlen at hname
  have hnam : ep.name.length = ep.d_namlen := readAt_length ..
  have hpart : ∀ i k, i + k ≤ 8 + ep.d_namlen → readAt (writeAt m a (ep.bytes.take (dirsiz ep.d_namlen))) (a + i) k =
      (ep.bytes.drop i).take k := fun i k hik => ep.bytes_part (by lia) hle m a
  have hfirst : (ep.bytes.drop 0).take 4 = leBytes 4 ep.d_ino := rfl
  have hsecond : (ep.bytes.drop 4).take 2 = leBytes 2 ep.d_reclen := rfl
  have hthird : (ep.bytes.drop 6).take 2 = leBytes 2 ep.d_namlen := rfl
  have hlast : (ep.bytes.drop 8).take ep.name.length = ep.name := by
    rw [hnam]
    exact readAt_drop_take ep.d_name 0 (n := maxnamlen + 1) (i := 0) (by unfold maxnamlen; lia)
  refine ⟨?_, ?_, ?_, ?_⟩
  · exact (congrArg leNat ((hpart 0 4 (by lia)).trans hfirst)).trans (leNat_leBytes hino)
  · exact (congrArg leNat ((hpart 4 2 (by lia)).trans hsecond)).trans (leNat_leBytes hlen)
  · refine (congrArg leNat ((hpart 6 2 (by lia)).trans hthird)).trans ((leNat_leBytes ?_).trans hnam.symm)
    lia
  · exact (hpart 8 _ (by simp only [hnam]; lia)).trans hlast

/-! ## Runs at an address -/

theorem Lays.append {rs' : List Rec} : Lays m a (rs ++ rs') ↔ Lays m a rs ∧ Lays m (a + span rs) rs' := by
  induction rs generalizing a with
  | nil => simp [Lays]
  | cons r rs ih => simp only [List.cons_append, Lays, ih, span_cons, Nat.add_assoc, and_assoc]

/-- A run is as long as its bytes are the same. -/
theorem Lays.congr (h : Lays m a rs) (hok : ∀ r ∈ rs, r.Ok) (hs : Same ⟨a, span rs⟩ m m') : Lays m' a rs := by
  induction rs generalizing a with
  | nil => trivial
  | cons r rs ih =>
    obtain ⟨hr, hrs⟩ := h
    have hfits := (hok r List.mem_cons_self).fits
    simp only [span_cons] at hs
    have hall : ∀ r ∈ rs, r.Ok := fun r hr => hok r (List.mem_cons_of_mem _ hr)
    refine ⟨hr.congr fun x h₁ h₂ => hs x h₁ ?_, ih hrs hall fun x h₁ h₂ => hs x ?_ ?_⟩
    · simp only at h₂ ⊢
      lia
    · simp only at h₁ ⊢
      lia
    · simp only at h₁ h₂ ⊢
      lia

/-- Two runs of the same length from the same address are the same records. -/
theorem Lays.unique {rs' : List Rec} (h : Lays m a rs) (h' : Lays m a rs') (hok : ∀ r ∈ rs, r.Ok)
    (hok' : ∀ r ∈ rs', r.Ok) (hspan : span rs = span rs') : rs = rs' := by
  induction rs generalizing a rs' with
  | nil =>
    cases rs' with
    | nil => rfl
    | cons r' rs' =>
      have hpos := (hok' r' List.mem_cons_self).pos
      rw [span_nil, span_cons] at hspan
      lia
  | cons r rs ih =>
    cases rs' with
    | nil =>
      have hpos := (hok r List.mem_cons_self).pos
      rw [span_nil, span_cons] at hspan
      lia
    | cons r' rs' =>
      obtain ⟨hr, hrs⟩ := h
      obtain ⟨hr', hrs'⟩ := h'
      have hlen : r.reclen = r'.reclen := hr.reclen.symm.trans hr'.reclen
      have hnam : r.name.length = r'.name.length := hr.namlen.symm.trans hr'.namlen
      have hname : r.name = r'.name := by rw [← hr.name, hnam, hr'.name]
      have heq : r = r' := Rec.ext (hr.ino.symm.trans hr'.ino) hname hlen
      rw [← hlen] at hrs'
      rw [span_cons, span_cons, hlen] at hspan
      rw [heq, ih hrs hrs' (fun r hr => hok r (List.mem_cons_of_mem _ hr))
        (fun r hr => hok' r (List.mem_cons_of_mem _ hr)) (by lia)]

theorem span_le {r : Rec} (h : r ∈ rs) : r.reclen ≤ span rs := by
  induction rs with
  | nil => cases h
  | cons r' rs ih =>
    rw [span_cons]
    rcases List.mem_cons.mp h with rfl | h
    · lia
    · have := ih h
      lia

theorem span_pos (hok : ∀ r ∈ rs, r.Ok) (h : rs ≠ []) : 0 < span rs := by
  obtain ⟨r, hr⟩ := List.exists_mem_of_ne_nil rs h
  exact Nat.lt_of_lt_of_le (hok r hr).pos (span_le hr)

theorem dvd_span (hok : ∀ r ∈ rs, r.Ok) : 4 ∣ span rs := by
  induction rs with
  | nil => exact Nat.dvd_zero 4
  | cons r rs ih =>
    rw [span_cons]
    exact Nat.dvd_add (hok r List.mem_cons_self).dvd (ih fun r hr => hok r (List.mem_cons_of_mem _ hr))

/-! ## Blocks -/

theorem Block.congr (h : Block m a rs) (hs : Same ⟨a, dirblksiz⟩ m m') : Block m' a rs :=
  ⟨h.lays.congr h.ok (h.full ▸ hs), h.ok, h.full⟩

/-- A part of a block is replaced by another one of its length. -/
theorem Block.replace {pre mid mid' post : List Rec} (h : Block m a (pre ++ mid ++ post))
    (hlays : Lays m' (a + span pre) mid') (hok : ∀ r ∈ mid', r.Ok) (hspan : span mid' = span mid)
    (hs : ∀ x, x < a + span pre ∨ a + span pre + span mid ≤ x → m' x = m x) : Block m' a (pre ++ mid' ++ post) := by
  obtain ⟨hl, hall, hfull⟩ := h
  rw [Lays.append, Lays.append] at hl
  obtain ⟨⟨hpre, -⟩, hpost⟩ := hl
  simp only [List.mem_append, span_append] at hall hfull hpost
  refine ⟨?_, ?_, ?_⟩
  · rw [Lays.append, Lays.append]
    refine ⟨⟨hpre.congr (fun r hr => hall r (.inl (.inl hr))) fun x _ hx => hs x (.inl hx), hlays⟩, ?_⟩
    rw [span_append, hspan]
    exact hpost.congr (fun r hr => hall r (.inr hr)) fun x hx _ => hs x (.inr (by simp only at hx; lia))
  · intro r hr
    rcases List.mem_append.mp hr with hr | hr
    · rcases List.mem_append.mp hr with hr | hr
      · exact hall r (.inl (.inl hr))
      · exact hok r hr
    · exact hall r (.inr hr)
  · simp only [span_append, hspan]
    exact hfull

end

/-! ## Directories -/

section
variable {dp : Directory} {bs : List (List Rec)}

/-- **A directory holds one list of blocks.** -/
theorem Holds.unique {bs' : List (List Rec)} (h : Holds dp bs) (h' : Holds dp bs') : bs = bs' := by
  have hlen : bs.length = bs'.length := by
    have heq := Int.ofNat.inj (h.size.symm.trans h'.size)
    exact Nat.eq_of_mul_eq_mul_right (by decide) heq
  refine List.ext_getElem hlen fun k h₁ h₂ => ?_
  have hb := h.block k _ (List.getElem?_eq_getElem h₁)
  have hb' := h'.block k _ (List.getElem?_eq_getElem h₂)
  exact hb.lays.unique hb'.lays hb.ok hb'.ok (hb.full.trans hb'.full.symm)

theorem getElem?_other {α : Type} {front back : List α} {k : Nat} (hk : k ≠ front.length) (x y : α) :
    (front ++ x :: back)[k]? = (front ++ y :: back)[k]? := by
  rcases Nat.lt_or_gt_of_ne hk with hlt | hgt
  · rw [List.getElem?_append_left hlt, List.getElem?_append_left hlt]
  · obtain ⟨j, rfl⟩ := Nat.exists_eq_add_of_lt hgt
    rw [List.getElem?_append_right (by lia), List.getElem?_append_right (by lia),
      show front.length + j + 1 - front.length = j + 1 by lia, List.getElem?_cons_succ, List.getElem?_cons_succ]

/-- One block is replaced, and the others keep their bytes. -/
theorem Holds.set {front back : List (List Rec)} {rs rs' : List Rec} {m : Nat → UInt8} 
    (h : Holds dp (front ++ rs :: back)) (hb : Block m (front.length * dirblksiz) rs')
    (hs : ∀ x, x < front.length * dirblksiz ∨ (front.length + 1) * dirblksiz ≤ x → m x = dp.data x) :
    Holds { dp with data := m } (front ++ rs' :: back) := by
  have hlen : (front ++ rs' :: back).length = (front ++ rs :: back).length := by simp
  refine ⟨?_, ?_, fun k ks hk => ?_⟩
  · rw [hlen]
    exact h.size
  · rw [hlen]
    exact h.fits
  · by_cases hkf : k = front.length
    · subst hkf
      rw [List.getElem?_append_right (Nat.le_refl _), Nat.sub_self, List.getElem?_cons_zero, Option.some.injEq] at hk
      rw [← hk]
      exact hb
    · have hold : (front ++ rs :: back)[k]? = some ks := (getElem?_other hkf rs rs').trans hk
      refine (h.block k ks hold).congr fun x h₁ h₂ => hs x ?_
      simp only at h₁ h₂
      rcases Nat.lt_or_gt_of_ne hkf with hlt | hgt
      · exact .inl (Nat.lt_of_lt_of_le h₂ (by rw [← Nat.succ_mul]; exact Nat.mul_le_mul_right _ hlt))
      · exact .inr (Nat.le_trans (Nat.mul_le_mul_right _ hgt) h₁)

end

/-! ## The directory of some blocks -/

/-- A record as it lies on the disk. -/
def Rec.bytes (r : Rec) : List UInt8 :=
  leBytes 4 r.ino ++ leBytes 2 r.reclen ++ leBytes 2 r.name.length ++ r.name ++
    List.replicate (r.reclen - (8 + r.name.length)) 0

/-- The directory with these blocks. -/
def ofBlocks (bs : List (List Rec)) : Directory where
  i_size := (bs.length * dirblksiz : Nat)
  i_nlink := 2
  data := fun x => ((((bs[x / dirblksiz]?).getD []).flatMap Rec.bytes)[x % dirblksiz]?).getD 0

section
variable {m : Nat → UInt8} {a : Nat} {r : Rec} {rs : List Rec} {bs : List (List Rec)}

theorem Rec.bytes_length (hok : r.Ok) : r.bytes.length = r.reclen := by
  have hlt := lt_dirsiz r.name.length
  have hfits := hok.fits
  simp only [Rec.bytes, List.length_append, leBytes_length, List.length_replicate]
  lia

theorem flatMap_bytes_length (hok : ∀ r ∈ rs, r.Ok) : (rs.flatMap Rec.bytes).length = span rs := by
  induction rs with
  | nil => rfl
  | cons r rs ih =>
    rw [List.flatMap_cons, List.length_append, Rec.bytes_length (hok r List.mem_cons_self),
      ih fun r hr => hok r (List.mem_cons_of_mem _ hr), span_cons]

theorem At.of_bytes (h : readAt m a r.reclen = r.bytes) (hok : r.Ok) (hino : r.ino < 2 ^ 32) (hlen : r.reclen < 2 ^ 16) :
    At m a r := by
  have hlt := lt_dirsiz r.name.length
  have hfits := hok.fits
  have hpart : ∀ i k, i + k ≤ 8 + r.name.length → readAt m (a + i) k = (r.bytes.drop i).take k := by
    intro i k hik
    rw [← h, readAt_drop_take m a (by lia)]
  have hname : (r.bytes.drop 8).take r.name.length = r.name := List.take_left
  have hfirst : (r.bytes.drop 0).take 4 = leBytes 4 r.ino := rfl
  have hsecond : (r.bytes.drop 4).take 2 = leBytes 2 r.reclen := rfl
  have hthird : (r.bytes.drop 6).take 2 = leBytes 2 r.name.length := rfl
  refine ⟨?_, ?_, ?_, ?_⟩
  · exact (congrArg leNat ((hpart 0 4 (by lia)).trans hfirst)).trans (leNat_leBytes hino)
  · exact (congrArg leNat ((hpart 4 2 (by lia)).trans hsecond)).trans (leNat_leBytes hlen)
  · exact (congrArg leNat ((hpart 6 2 (by lia)).trans hthird)).trans (leNat_leBytes (by lia))
  · exact (hpart 8 _ (Nat.le_refl _)).trans hname

theorem Lays.of_bytes (h : readAt m a (span rs) = rs.flatMap Rec.bytes) (hok : ∀ r ∈ rs, r.Ok ∧ r.ino < 2 ^ 32)
    (hlen : span rs < 2 ^ 16) : Lays m a rs := by
  induction rs generalizing a with
  | nil => trivial
  | cons r rs ih =>
    obtain ⟨hr, hino⟩ := hok r List.mem_cons_self
    rw [span_cons] at hlen
    rw [span_cons, readAt_add, List.flatMap_cons] at h
    obtain ⟨hfirst, hrest⟩ := List.append_inj h (by rw [readAt_length, Rec.bytes_length hr])
    exact ⟨.of_bytes hfirst hr hino (by lia), ih hrest (fun r hr => hok r (List.mem_cons_of_mem _ hr)) (by lia)⟩

/-- **Blocks of records from end to end are a directory.** -/
theorem holds_ofBlocks (hok : ∀ rs ∈ bs, span rs = dirblksiz ∧ ∀ r ∈ rs, r.Ok ∧ r.ino < 2 ^ 32)
    (hlen : bs.length * dirblksiz < 2 ^ 31) : Holds (ofBlocks bs) bs := by
  refine ⟨rfl, hlen, fun k rs hk => ?_⟩
  obtain ⟨hfull, hall⟩ := hok rs (List.mem_of_getElem? hk)
  have hsize := flatMap_bytes_length fun r hr => (hall r hr).1
  refine ⟨.of_bytes (List.ext_getElem? fun i => ?_) hall (by rw [hfull]; decide), fun r hr => (hall r hr).1, hfull⟩
  rw [getElem?_readAt, hfull]
  split
  · next hi =>
    have hdiv : (k * dirblksiz + i) / dirblksiz = k := by
      rw [Nat.add_comm, Nat.add_mul_div_right _ _ (by decide), Nat.div_eq_of_lt hi, Nat.zero_add]
    have hmod : (k * dirblksiz + i) % dirblksiz = i := by rw [Nat.mul_add_mod_self_right, Nat.mod_eq_of_lt hi]
    simp only [ofBlocks, hdiv, hmod, hk, Option.getD_some]
    rw [List.getElem?_eq_getElem (by rw [hsize, hfull]; exact hi), Option.getD_some]
  · next hi => rw [List.getElem?_eq_none (by rw [hsize, hfull]; exact Nat.not_lt.mp hi)]

end

end DiscoBSD.Dir
