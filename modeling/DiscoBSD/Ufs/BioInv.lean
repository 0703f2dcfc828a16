import Mathlib.Data.List.Nodup
import DiscoBSD.Ufs.Bio

/-!
# One buffer for a block

**As long as nobody is given a buffer for a block that is in core**, no block has two, and what is read is
what was written last. The search and the claim of a buffer are one step unless the process slept in
between, so the proviso is about the sleep in `getnewbuf` alone; without it two processes that both missed
the block each get a buffer for it.
-/

set_option autoImplicit false

namespace DiscoBSD.Bio

variable {D : Type}

/-- The process waits for the transfer of the buffer. -/
def Pc.Waits (pc : Pc) (i : Nat) : Prop := pc = .bwrite i ∨ ∃ dev blkno, pc = .bread dev blkno i

@[simp] theorem Pc.not_waits_user (i : Nat) : ¬Pc.user.Waits i := by simp [Pc.Waits]

@[simp] theorem Pc.not_waits_getblk (dev blkno : Nat) (k : Call) (i : Nat) :
    ¬(Pc.getblk dev blkno k).Waits i := by simp [Pc.Waits]

@[simp] theorem Pc.not_waits_getnewbuf (dev blkno : Nat) (k : Call) (i : Nat) :
    ¬(Pc.getnewbuf dev blkno k).Waits i := by simp [Pc.Waits]

@[simp] theorem Pc.not_waits_geteblk (i : Nat) : ¬Pc.geteblk.Waits i := by simp [Pc.Waits]

@[simp] theorem Pc.waits_bwrite (i j : Nat) : (Pc.bwrite i).Waits j ↔ i = j := by simp [Pc.Waits]

@[simp] theorem Pc.waits_bread (dev blkno i j : Nat) : (Pc.bread dev blkno i).Waits j ↔ i = j := by
  simp [Pc.Waits]

/-- What a buffer has to do with the contents of its block: a write that is delayed or under way has them
    in the buffer, and otherwise the device has them, with what was transferred from or to it. -/
def Buf.Holds (bp : Buf D) (disk x : D) : Prop :=
  if bp.delwri = true ∨ (bp.io = true ∧ bp.read = false) then bp.data = x
  else disk = x ∧ (bp.done = true → bp.error = false → bp.data = x)

/-- A buffer with its owner and the processes. -/
structure BufOk (bp : Buf D) (own : Option Nat) (pc : Nat → Pc) (i : Nat) : Prop where
  idle : bp.busy = false →
    own = none ∧ bp.io = false ∧ bp.async = false ∧ (bp.error = true → bp.b_dev = none)
  io : bp.io = true → bp.b_dev ≠ none ∧ bp.inval = false ∧ bp.done = false ∧ bp.delwri = false ∧
    bp.error = false ∧ ((bp.async = true ∧ own = none) ∨
      (bp.async = false ∧ ∃ p, own = some p ∧ (pc p).Waits i))
  delwri : bp.delwri = true → bp.error = false ∧ bp.b_dev ≠ none ∧ bp.inval = false
  dev : own ≠ none → bp.inval = false → bp.b_dev ≠ none
  busy : own ≠ none → bp.busy = true

structure Inv (s : Cache D) (c : Nat → Nat → D) : Prop where
  ok : ∀ i < s.nbuf, BufOk (s.buf i) (s.owner i) s.pc i
  free : ∀ i, i ∈ s.age ++ s.lru ↔ i < s.nbuf ∧ (s.buf i).busy = false
  nodup : (s.age ++ s.lru).Nodup
  own : ∀ p i, s.owner i = some p → i < s.nbuf
  wait : ∀ p i, (s.pc p).Waits i → s.owner i = some p ∧ ((s.buf i).io = true ∨ (s.buf i).done = true) ∧
    ∀ dev blkno, s.pc p = .bread dev blkno i → (s.buf i).At dev blkno
  one : ∀ i < s.nbuf, ∀ j < s.nbuf, ∀ dev blkno, (s.buf i).At dev blkno → (s.buf j).At dev blkno → i = j
  holds : ∀ i < s.nbuf, ∀ dev blkno, (s.buf i).At dev blkno →
    (s.buf i).Holds (s.disk dev blkno) (c dev blkno)
  clean : ∀ dev blkno, (∀ i < s.nbuf, ¬(s.buf i).At dev blkno) → s.disk dev blkno = c dev blkno

section

variable {s : Cache D} {c c' : Nat → Nat → D} {i : Nat}

/-- One buffer changes, with its place on the free lists, its owner, the process that has to do with it and
    its block on the device. -/
theorem Inv.change (h : Inv s c) (hi : i < s.nbuf) {bp : Buf D} {own : Option Nat} {pc : Nat → Pc}
    {age lru : List Nat} {disk : Nat → Nat → D}
    (hok : BufOk bp own pc i)
    (hfree : ∀ j, j ∈ age ++ lru ↔ (j ≠ i ∧ j ∈ s.age ++ s.lru) ∨ (j = i ∧ bp.busy = false))
    (hnodup : (age ++ lru).Nodup)
    (hpc : ∀ p, pc p = s.pc p ∨ ∀ j ≠ i, ¬(s.pc p).Waits j ∧ ¬(pc p).Waits j)
    (hwait : ∀ p, (pc p).Waits i → own = some p ∧ (bp.io = true ∨ bp.done = true) ∧
      ∀ dev blkno, pc p = .bread dev blkno i → bp.At dev blkno)
    (hone : ∀ dev blkno, bp.At dev blkno → ∀ j < s.nbuf, j ≠ i → ¬(s.buf j).At dev blkno)
    (hholds : ∀ dev blkno, bp.At dev blkno → bp.Holds (disk dev blkno) (c' dev blkno))
    (hgone : ∀ dev blkno, (s.buf i).At dev blkno → ¬bp.At dev blkno → disk dev blkno = c' dev blkno)
    (hframe : ∀ dev blkno, ¬(s.buf i).At dev blkno → ¬bp.At dev blkno →
      disk dev blkno = s.disk dev blkno ∧ c' dev blkno = c dev blkno) :
    Inv ⟨s.nbuf, Function.update s.buf i bp, age, lru, disk, pc, Function.update s.owner i own⟩ c' := by
  have hother : ∀ j < s.nbuf, j ≠ i → ∀ dev blkno, (s.buf j).At dev blkno →
      ¬(s.buf i).At dev blkno ∧ ¬bp.At dev blkno := fun j hj hji dev blkno hat =>
    ⟨fun hold => hji (h.one j hj i hi dev blkno hat hold), fun hnew => hone dev blkno hnew j hj hji hat⟩
  constructor
  · intro j hj
    by_cases hji : j = i
    · subst hji
      simpa only [Function.update_self] using hok
    · simp only [Function.update_of_ne hji]
      have hold := h.ok j hj
      refine ⟨hold.idle, fun hio => ?_, hold.delwri, hold.dev, hold.busy⟩
      obtain ⟨h₁, h₂, h₃, h₄, h₅, h₆⟩ := hold.io hio
      refine ⟨h₁, h₂, h₃, h₄, h₅, h₆.imp_right ?_⟩
      rintro ⟨ha, p, hp, hw⟩
      refine ⟨ha, p, hp, ?_⟩
      rcases hpc p with he | hno
      · rwa [he]
      · exact absurd hw (hno j hji).1
  · intro j
    rw [hfree, h.free]
    by_cases hji : j = i
    · subst hji
      simp [hi]
    · simp [hji]
  · exact hnodup
  · intro p j hown
    by_cases hji : j = i
    · exact hji ▸ hi
    · simp only [Function.update_of_ne hji] at hown
      exact h.own p j hown
  · intro p j hw
    by_cases hji : j = i
    · subst hji
      simpa only [Function.update_self] using hwait p hw
    · simp only [Function.update_of_ne hji]
      rcases hpc p with he | hno
      · have hold : (s.pc p).Waits j := he ▸ hw
        simpa only [he] using h.wait p j hold
      · exact absurd hw (hno j hji).2
  · intro j hj k hk dev blkno hat hat'
    by_cases hji : j = i <;> by_cases hki : k = i
    · rw [hji, hki]
    · subst hji
      simp only [Function.update_self, Function.update_of_ne hki] at hat hat'
      exact absurd hat' (hone dev blkno hat k hk hki)
    · subst hki
      simp only [Function.update_self, Function.update_of_ne hji] at hat hat'
      exact absurd hat (hone dev blkno hat' j hj hji)
    · simp only [Function.update_of_ne hji, Function.update_of_ne hki] at hat hat'
      exact h.one j hj k hk dev blkno hat hat'
  · intro j hj dev blkno hat
    by_cases hji : j = i
    · subst hji
      simp only [Function.update_self] at hat ⊢
      exact hholds dev blkno hat
    · simp only [Function.update_of_ne hji] at hat ⊢
      obtain ⟨hold, hnew⟩ := hother j hj hji dev blkno hat
      obtain ⟨hd, hc⟩ := hframe dev blkno hold hnew
      rw [hd, hc]
      exact h.holds j hj dev blkno hat
  · intro dev blkno hnone
    have hnew : ¬bp.At dev blkno := by
      have := hnone i hi
      simpa only [Function.update_self] using this
    by_cases hold : (s.buf i).At dev blkno
    · exact hgone dev blkno hold hnew
    · obtain ⟨hd, hc⟩ := hframe dev blkno hold hnew
      simp only
      rw [hd, hc]
      refine h.clean dev blkno fun j hj hat => ?_
      by_cases hji : j = i
      · exact hold (hji ▸ hat)
      · have := hnone j hj
        simp only [Function.update_of_ne hji] at this
        exact this hat

/-- A process moves that waits for nothing before and after. -/
theorem Inv.setPc (h : Inv s c) {p : Nat} {x : Pc} (hold : ∀ j, ¬(s.pc p).Waits j) (hnew : ∀ j, ¬x.Waits j) :
    Inv (s.setPc p x) c := by
  have hpc : ∀ q j, (Function.update s.pc p x q).Waits j ↔ (s.pc q).Waits j := by
    intro q j
    by_cases hq : q = p
    · subst hq
      simp [hold j, hnew j]
    · rw [Function.update_of_ne hq]
  have hread : ∀ q dev blkno j, Function.update s.pc p x q = .bread dev blkno j → s.pc q = .bread dev blkno j := by
    intro q dev blkno j he
    by_cases hq : q = p
    · subst hq
      rw [Function.update_self] at he
      exact absurd (.inr ⟨dev, blkno, he⟩) (hnew j)
    · rwa [Function.update_of_ne hq] at he
  refine ⟨fun j hj => ?_, h.free, h.nodup, h.own, fun q j hw => ?_, h.one, h.holds, h.clean⟩
  · have hok := h.ok j hj
    refine ⟨hok.idle, fun hio => ?_, hok.delwri, hok.dev, hok.busy⟩
    obtain ⟨h₁, h₂, h₃, h₄, h₅, h₆⟩ := hok.io hio
    refine ⟨h₁, h₂, h₃, h₄, h₅, h₆.imp_right ?_⟩
    rintro ⟨ha, q, hq, hw⟩
    exact ⟨ha, q, hq, (hpc q j).mpr hw⟩
  · obtain ⟨h₁, h₂, h₃⟩ := h.wait q j ((hpc q j).mp hw)
    exact ⟨h₁, h₂, fun dev blkno he => h₃ dev blkno (hread q dev blkno j he)⟩

/-- A buffer on its way from the free lists to a process. -/
structure Transit (s : Cache D) (i : Nat) : Prop where
  lt : i < s.nbuf
  busy : (s.buf i).busy = true
  own : s.owner i = none
  io : (s.buf i).io = false
  async : (s.buf i).async = false

theorem Inv.not_waits (h : Inv s c) (ho : s.owner i = none) (p : Nat) : ¬(s.pc p).Waits i := fun hw => by
  rw [(h.wait p i hw).1] at ho
  cases ho

theorem Inv.not_free (h : Inv s c) (hb : (s.buf i).busy = true) : i ∉ s.age ++ s.lru := fun hm => by
  have := ((h.free i).mp hm).2
  rw [hb] at this
  cases this

/-- The free lists are as they were for a buffer that is on neither and stays busy. -/
theorem mem_of_busy (hno : i ∉ s.age ++ s.lru) {bp : Buf D} (hb : bp.busy = true) (j : Nat) :
    j ∈ s.age ++ s.lru ↔ (j ≠ i ∧ j ∈ s.age ++ s.lru) ∨ (j = i ∧ bp.busy = false) := by
  by_cases hji : j = i
  · subst hji
    simp only [hno, hb, Bool.true_eq_false, and_false, or_self]
  · simp only [hji, ne_eq, not_false_eq_true, true_and, false_and, or_false]

/-- One process moves, and waits for no other buffer. -/
theorem pc_of_update {p : Nat} {x : Pc} (hold : ∀ j ≠ i, ¬(s.pc p).Waits j) (hx : ∀ j ≠ i, ¬x.Waits j) (q : Nat) :
    Function.update s.pc p x q = s.pc q ∨
      ∀ j ≠ i, ¬(s.pc q).Waits j ∧ ¬(Function.update s.pc p x q).Waits j := by
  by_cases hq : q = p
  · subst hq
    rw [Function.update_self]
    exact .inr fun j hji => ⟨hold j hji, hx j hji⟩
  · exact .inl (Function.update_of_ne hq ..)

/-- A buffer in transit changes under the processes' feet. -/
theorem Inv.transit (h : Inv s c) (ht : Transit s i) {bp : Buf D} (hbusy : bp.busy = true)
    (hio : bp.io = true → bp.b_dev ≠ none ∧ bp.inval = false ∧ bp.done = false ∧ bp.delwri = false ∧
      bp.error = false ∧ bp.async = true)
    (hdel : bp.delwri = true → bp.error = false ∧ bp.b_dev ≠ none ∧ bp.inval = false)
    (hone : ∀ dev blkno, bp.At dev blkno → ∀ j < s.nbuf, j ≠ i → ¬(s.buf j).At dev blkno)
    (hholds : ∀ dev blkno, bp.At dev blkno → bp.Holds (s.disk dev blkno) (c dev blkno))
    (hgone : ∀ dev blkno, (s.buf i).At dev blkno → ¬bp.At dev blkno → s.disk dev blkno = c dev blkno) :
    Inv (s.setBuf i bp) c := by
  have hself : s.owner = Function.update s.owner i none := by
    rw [← ht.own, Function.update_eq_self]
  change Inv ⟨s.nbuf, Function.update s.buf i bp, s.age, s.lru, s.disk, s.pc, s.owner⟩ c
  rw [hself]
  refine h.change ht.lt ⟨?_, fun h1 => ?_, hdel, fun hn => absurd rfl hn, fun hn => absurd rfl hn⟩ ?_ h.nodup
    (fun _ => .inl rfl) (fun p hw => absurd hw (h.not_waits ht.own p)) hone hholds hgone
    fun _ _ _ _ => ⟨rfl, rfl⟩
  · intro hb
    rw [hbusy] at hb
    cases hb
  · obtain ⟨h₁, h₂, h₃, h₄, h₅, h₆⟩ := hio h1
    exact ⟨h₁, h₂, h₃, h₄, h₅, .inl ⟨h₆, rfl⟩⟩
  · exact mem_of_busy (h.not_free ht.busy) hbusy

/-- A free buffer is taken off its list. -/
theorem Inv.notavail (h : Inv s c) (hi : i ∈ s.age ++ s.lru) :
    Inv (s.notavail i) c ∧ Transit (s.notavail i) i := by
  obtain ⟨hlt, hb⟩ := (h.free i).mp hi
  obtain ⟨hown, hio, has, herr⟩ := (h.ok i hlt).idle hb
  have hself : s.owner = Function.update s.owner i none := by
    rw [← hown, Function.update_eq_self]
  have hnd := List.nodup_append.mp h.nodup
  have hmem : ∀ j, j ∈ s.age.erase i ++ s.lru.erase i ↔ j ≠ i ∧ j ∈ s.age ++ s.lru := by
    intro j
    rw [List.mem_append, List.mem_append, hnd.1.mem_erase_iff, hnd.2.1.mem_erase_iff]
    tauto
  have hsub : (s.age.erase i ++ s.lru.erase i).Nodup :=
    h.nodup.sublist (List.Sublist.append List.erase_sublist List.erase_sublist)
  refine ⟨?_, ⟨hlt, by simp [Cache.notavail, Cache.setBuf], hown, by simpa [Cache.notavail, Cache.setBuf] using hio,
    by simpa [Cache.notavail, Cache.setBuf] using has⟩⟩
  change Inv ⟨s.nbuf, Function.update s.buf i { s.buf i with busy := true }, s.age.erase i, s.lru.erase i,
    s.disk, s.pc, s.owner⟩ c
  rw [hself]
  have hok := h.ok i hlt
  refine h.change hlt ⟨by simp, fun h1 => ?_, hok.delwri, fun hn => absurd rfl hn, fun hn => absurd rfl hn⟩ ?_
    hsub (fun _ => .inl rfl) (fun p hw => absurd hw (h.not_waits hown p)) ?_ ?_ ?_ fun _ _ _ _ => ⟨rfl, rfl⟩
  · rw [hio] at h1
    cases h1
  · intro j
    rw [hmem]
    simp
  · intro dev blkno hat j hj hji hat'
    exact hji (h.one j hj i hlt dev blkno hat' hat)
  · exact h.holds i hlt
  · exact fun dev blkno hold hnew => absurd hold hnew

/-- The write of a delayed buffer is started and left to itself. -/
theorem Inv.evict (h : Inv s c) (ht : Transit s i) (hd : (s.buf i).delwri = true) : Inv (s.strategy i true) c := by
  obtain ⟨herr, hdev, hval⟩ := (h.ok i ht.lt).delwri hd
  refine h.transit ht ht.busy (fun _ => ⟨hdev, hval, rfl, rfl, rfl, rfl⟩) (fun hc => by cases hc) ?_ ?_ ?_
  · intro dev blkno hat j hj hji hat'
    exact hji (h.one j hj i ht.lt dev blkno hat' hat)
  · intro dev blkno hat
    have hold := h.holds i ht.lt dev blkno hat
    simp only [Buf.Holds, hd, true_or, if_true] at hold
    simpa [Buf.Holds] using hold
  · exact fun dev blkno hold hnew => absurd hold hnew

/-- The block of a buffer is the device's own, if no write is delayed or under way. -/
theorem Inv.disk_eq (h : Inv s c) (hi : i < s.nbuf) (hd : (s.buf i).delwri = false) (hio : (s.buf i).io = false)
    {dev blkno : Nat} (hat : (s.buf i).At dev blkno) : s.disk dev blkno = c dev blkno := by
  have hold := h.holds i hi dev blkno hat
  simp only [Buf.Holds, hd, hio, Bool.false_eq_true, false_and, or_self, if_false] at hold
  exact hold.1

/-! ## getblk -/

theorem incore_none {dev blkno : Nat} (h : s.incore dev blkno = none) {j : Nat} (hj : j < s.nbuf) :
    ¬(s.buf j).At dev blkno := by
  have := List.find?_eq_none.mp h j (List.mem_range.mpr hj)
  simpa using this

theorem incore_some {dev blkno : Nat} (h : s.incore dev blkno = some i) :
    i < s.nbuf ∧ (s.buf i).At dev blkno := by
  have hp := List.find?_some h
  exact ⟨List.mem_range.mp (List.mem_of_find?_eq_some h), by simpa using hp⟩

/-- What `getnewbuf` does: it starts writes, and finds a buffer without one or does not. Every block has
    the buffer it had. -/
theorem takeBuf_spec (l : List Nat) (h : Inv s c) (hl : ∀ i ∈ l, i ∈ s.age ++ s.lru) (hd : l.Nodup) :
    ∃ s₀ : Cache D, Inv s₀ c ∧ s₀.nbuf = s.nbuf ∧ s₀.pc = s.pc ∧
      (∀ j dev blkno, (s₀.buf j).At dev blkno ↔ (s.buf j).At dev blkno) ∧
      (Cache.takeBuf l s = (none, s₀) ∨ ∃ i, Transit s₀ i ∧ (s₀.buf i).delwri = false ∧
        Cache.takeBuf l s = (some i, s₀.setBuf i (s₀.buf i).claimed)) := by
  induction l generalizing s with
  | nil => exact ⟨s, h, rfl, rfl, fun _ _ _ => Iff.rfl, .inl rfl⟩
  | cons i rest ih =>
    obtain ⟨hn, ht⟩ := h.notavail (hl i (by simp))
    have hat : ∀ (bp : Buf D) j dev blkno, bp.b_dev = (s.buf i).b_dev → bp.b_blkno = (s.buf i).b_blkno →
        bp.inval = (s.buf i).inval →
        ((Function.update s.buf i bp j).At dev blkno ↔ (s.buf j).At dev blkno) := by
      intro bp j dev blkno h₁ h₂ h₃
      by_cases hji : j = i
      · subst hji
        simp only [Function.update_self, Buf.At, h₁, h₂, h₃]
      · rw [Function.update_of_ne hji]
    by_cases hdel : ((s.notavail i).buf i).delwri = true
    · have hrest : ∀ j ∈ rest, j ∈ ((s.notavail i).strategy i true).age ++ ((s.notavail i).strategy i true).lru := by
        intro j hj
        have hji : j ≠ i := fun he => (List.nodup_cons.mp hd).1 (he ▸ hj)
        have hm := hl j (List.mem_cons_of_mem _ hj)
        simp only [Cache.strategy, Cache.setBuf, Cache.notavail, List.mem_append,
          List.mem_erase_of_ne hji] at hm ⊢
        exact hm
      obtain ⟨s₀, h₀, hnb, hpc, hsame, hres⟩ := ih (hn.evict ht hdel) hrest (List.nodup_cons.mp hd).2
      refine ⟨s₀, h₀, hnb, hpc, fun j dev blkno => (hsame j dev blkno).trans ?_, ?_⟩
      · have hbuf : ((s.notavail i).strategy i true).buf =
            Function.update s.buf i (((s.notavail i).strategy i true).buf i) := by
          simp only [Cache.strategy, Cache.notavail, Cache.setBuf, Function.update_self, Function.update_idem]
        rw [hbuf]
        apply hat <;> simp [Cache.strategy, Cache.notavail, Cache.setBuf]
      · simpa only [Cache.takeBuf, hdel, if_true] using hres
    · refine ⟨s.notavail i, hn, rfl, rfl, fun j dev blkno => hat _ j dev blkno rfl rfl rfl, .inr ⟨i, ht, ?_, ?_⟩⟩
      · simpa using hdel
      · simp only [Cache.takeBuf, hdel, if_false, Bool.false_eq_true]

/-- What a call that returns a buffer to `bread` says: the buffer is the block's, with its contents. -/
def Delivers (r : Option (Nat × Nat × Nat) × Cache D) (c : Nat → Nat → D) : Prop :=
  ∀ dev blkno i, r.1 = some (dev, blkno, i) →
    (r.2.buf i).At dev blkno ∧ ((r.2.buf i).error = false → (r.2.buf i).data = c dev blkno)

theorem Delivers.none {s : Cache D} : Delivers (none, s) c := fun _ _ _ h => by cases h

/-- A buffer that is done has the contents of its block. -/
theorem Inv.data_eq (h : Inv s c) (hi : i < s.nbuf) {dev blkno : Nat} (hat : (s.buf i).At dev blkno)
    (hdone : (s.buf i).done = true ∨ (s.buf i).delwri = true) (herr : (s.buf i).error = false) :
    (s.buf i).data = c dev blkno := by
  have hold := h.holds i hi dev blkno hat
  unfold Buf.Holds at hold
  split at hold
  · exact hold
  · next hno =>
    refine hold.2 ?_ herr
    rcases hdone with hd | hd
    · exact hd
    · exact absurd (.inl hd) hno

/-- The buffer is given to the process, for `getblk` or for `bread`. -/
theorem finish_spec (h : Inv s c) (ht : Transit s i) {p dev blkno : Nat} (hat : (s.buf i).At dev blkno)
    (herr : (s.buf i).error = false) (hp : ∀ j, ¬(s.pc p).Waits j) (k : Call) :
    Inv (s.finish p dev blkno i k).2 c ∧ Delivers (s.finish p dev blkno i k) c := by
  have hok := h.ok i ht.lt
  have hdev : (s.buf i).b_dev ≠ none := by rw [hat.2.1]; simp
  have hself : s.buf = Function.update s.buf i (s.buf i) := (Function.update_eq_self ..).symm
  have hfree := mem_of_busy (h.not_free ht.busy) ht.busy
  have hone : ∀ d b, (s.buf i).At d b → ∀ j < s.nbuf, j ≠ i → ¬(s.buf j).At d b :=
    fun d b hat j hj hji hat' => hji (h.one j hj i ht.lt d b hat' hat)
  -- What `getblk` returns, and `bread` if there is nothing to read.
  have hkeep : Inv ((s.setOwner i (some p)).setPc p .user) c := by
    change Inv ⟨s.nbuf, s.buf, s.age, s.lru, s.disk, Function.update s.pc p .user,
      Function.update s.owner i (some p)⟩ c
    rw [hself]
    refine h.change ht.lt ⟨fun hb => ?_, fun hio => ?_, hok.delwri, fun _ _ => hdev, fun _ => ht.busy⟩ hfree
      h.nodup (pc_of_update (fun j _ => hp j) (by simp)) (fun q hw => ?_) hone
      (h.holds i ht.lt) (fun _ _ hold hnew => absurd hold hnew) fun _ _ _ _ => ⟨rfl, rfl⟩
    · rw [ht.busy] at hb
      cases hb
    · rw [ht.io] at hio
      cases hio
    · by_cases hq : q = p
      · subst hq
        simp at hw
      · rw [Function.update_of_ne hq] at hw
        exact absurd hw (h.not_waits ht.own q)
  cases k with
  | getblk => exact ⟨hkeep, .none⟩
  | bread =>
    by_cases hdone : (s.buf i).done = true ∨ (s.buf i).delwri = true
    · simp only [Cache.finish, if_pos hdone]
      refine ⟨hkeep, fun d b j he => ?_⟩
      cases he
      exact ⟨hat, h.data_eq ht.lt hat hdone⟩
    · simp only [Cache.finish, if_neg hdone]
      have hno : (s.buf i).done = false ∧ (s.buf i).delwri = false := by simpa using hdone
      refine ⟨?_, .none⟩
      change Inv ⟨s.nbuf, Function.update s.buf i { s.buf i with read := true, io := true }, s.age, s.lru, s.disk,
        Function.update s.pc p (.bread dev blkno i), Function.update s.owner i (some p)⟩ c
      refine h.change ht.lt ⟨fun hb => ?_, fun _ => ?_, hok.delwri, fun _ _ => hdev, fun _ => ht.busy⟩ hfree
        h.nodup (pc_of_update (fun j _ => hp j) fun j hji hw => ?_) (fun q hw => ?_) hone (fun d b hat' => ?_)
        (fun _ _ hold hnew => absurd hold hnew) fun _ _ _ _ => ⟨rfl, rfl⟩
      · rw [ht.busy] at hb
        cases hb
      · refine ⟨hdev, hat.2.2, hno.1, hno.2, herr, .inr ⟨ht.async, p, rfl, ?_⟩⟩
        rw [Function.update_self]
        exact .inr ⟨dev, blkno, rfl⟩
      · simp only [Pc.waits_bread] at hw
        exact hji hw.symm
      · by_cases hq : q = p
        · subst hq
          refine ⟨rfl, .inl rfl, fun d b he => ?_⟩
          rw [Function.update_self] at he
          cases he
          exact hat
        · rw [Function.update_of_ne hq] at hw
          exact absurd hw (h.not_waits ht.own q)
      · have hd := h.disk_eq ht.lt hno.2 ht.io hat'
        simp [Buf.Holds, hno.1, hno.2, hd]

/-- The buffer found for a block that is nowhere becomes the block's. -/
theorem newblk_spec (h : Inv s c) {p dev blkno : Nat} (hmiss : ∀ j < s.nbuf, ¬(s.buf j).At dev blkno)
    (hp : ∀ j, ¬(s.pc p).Waits j) (k : Call) :
    Inv (s.newblk p dev blkno k).2 c ∧ Delivers (s.newblk p dev blkno k) c := by
  obtain ⟨s₀, h₀, hnb, hpc, hsame, hres⟩ :=
    takeBuf_spec (s.age ++ s.lru) h (fun _ hm => hm) h.nodup
  have hp₀ : ∀ j, ¬(s₀.pc p).Waits j := hpc ▸ hp
  have hmiss₀ : ∀ j < s₀.nbuf, ¬(s₀.buf j).At dev blkno := fun j hj hat =>
    hmiss j (hnb ▸ hj) ((hsame j dev blkno).mp hat)
  unfold Cache.newblk Cache.getnewbuf
  rcases hres with hres | ⟨i, ht, hdel, hres⟩
  · rw [hres]
    exact ⟨h₀.setPc hp₀ (by simp), .none⟩
  · rw [hres]
    dsimp only
    -- One change instead of two: the flags and the block.
    have hset : (s₀.setBuf i (s₀.buf i).claimed).setBuf i
        { (s₀.setBuf i (s₀.buf i).claimed).buf i with b_dev := some dev, b_blkno := blkno } =
        s₀.setBuf i { (s₀.buf i).claimed with b_dev := some dev, b_blkno := blkno } := by
      simp only [Cache.setBuf, Function.update_self, Function.update_idem]
    rw [hset]
    have hnew : Inv (s₀.setBuf i { (s₀.buf i).claimed with b_dev := some dev, b_blkno := blkno }) c := by
      refine h₀.transit ht rfl (fun hio => ?_) (fun hd => (by cases hd)) ?_ ?_ ?_
      · have : (s₀.buf i).io = true := hio
        rw [ht.io] at this
        cases this
      · rintro d b ⟨hb, hd, -⟩ j hj -
        cases hb
        cases hd
        exact hmiss₀ j hj
      · rintro d b ⟨hb, hd, -⟩
        cases hb
        cases hd
        have hd := h₀.clean dev blkno hmiss₀
        simp [Buf.Holds, Buf.claimed, ht.io, hd]
      · exact fun d b hold _ => h₀.disk_eq ht.lt hdel ht.io hold
    refine finish_spec hnew ⟨ht.lt, ?_, ht.own, ?_, ?_⟩ ?_ ?_ hp₀ k
    · simp [Cache.setBuf, Buf.claimed]
    · simpa [Cache.setBuf, Buf.claimed] using ht.io
    · simp [Cache.setBuf, Buf.claimed]
    · simp [Cache.setBuf, Buf.claimed, Buf.At]
    · simp [Cache.setBuf, Buf.claimed]

theorem getblk_spec (h : Inv s c) {p dev blkno : Nat} (hp : ∀ j, ¬(s.pc p).Waits j) (k : Call) :
    Inv (s.getblk p dev blkno k).2 c ∧ Delivers (s.getblk p dev blkno k) c := by
  unfold Cache.getblk
  cases hc : s.incore dev blkno with
  | none => exact newblk_spec h (fun j hj => incore_none hc hj) hp k
  | some i =>
    obtain ⟨hi, hat⟩ := incore_some hc
    by_cases hb : (s.buf i).busy = true
    · simp only [if_pos hb]
      exact ⟨h.setPc hp (by simp), .none⟩
    · simp only [if_neg hb]
      have hb : (s.buf i).busy = false := by simpa using hb
      obtain ⟨hn, ht⟩ := h.notavail ((h.free i).mpr ⟨hi, hb⟩)
      have herr : (s.buf i).error = false := by
        by_contra he
        have := ((h.ok i hi).idle hb).2.2.2 (by simpa using he)
        rw [hat.2.1] at this
        cases this
      refine finish_spec hn ht ?_ ?_ hp k
      · simpa [Cache.notavail, Cache.setBuf, Buf.At] using hat
      · simpa [Cache.notavail, Cache.setBuf] using herr

theorem geteblk_spec (h : Inv s c) {p : Nat} (hp : ∀ j, ¬(s.pc p).Waits j) : Inv (s.geteblk p) c := by
  obtain ⟨s₀, h₀, hnb, hpc, hsame, hres⟩ :=
    takeBuf_spec (s.age ++ s.lru) h (fun _ hm => hm) h.nodup
  have hp₀ : ∀ j, ¬(s₀.pc p).Waits j := hpc ▸ hp
  unfold Cache.geteblk Cache.getnewbuf
  rcases hres with hres | ⟨i, ht, hdel, hres⟩
  · rw [hres]
    exact h₀.setPc hp₀ (by simp)
  · rw [hres]
    dsimp only
    have hset : (s₀.setBuf i (s₀.buf i).claimed).setBuf i
        { (s₀.setBuf i (s₀.buf i).claimed).buf i with inval := true, b_dev := none } =
        s₀.setBuf i { (s₀.buf i).claimed with inval := true, b_dev := none } := by
      simp only [Cache.setBuf, Function.update_self, Function.update_idem]
    rw [hset]
    change Inv ⟨s₀.nbuf, Function.update s₀.buf i { (s₀.buf i).claimed with inval := true, b_dev := none },
      s₀.age, s₀.lru, s₀.disk, Function.update s₀.pc p .user, Function.update s₀.owner i (some p)⟩ c
    have hnone : ∀ d b, ¬Buf.At { (s₀.buf i).claimed with inval := true, b_dev := none } d b := by
      simp [Buf.At]
    refine h₀.change ht.lt ⟨by simp [Buf.claimed], fun hio => ?_, by simp [Buf.claimed], by simp, fun _ => rfl⟩ ?_
      h₀.nodup (pc_of_update (fun j _ => hp₀ j) (by simp)) (fun q hw => ?_) (fun d b hat => absurd hat (hnone d b))
      (fun d b hat => absurd hat (hnone d b)) (fun d b hold _ => h₀.disk_eq ht.lt hdel ht.io hold)
      fun _ _ _ _ => ⟨rfl, rfl⟩
    · have : (s₀.buf i).io = true := hio
      rw [ht.io] at this
      cases this
    · exact mem_of_busy (h₀.not_free ht.busy) rfl
    · by_cases hq : q = p
      · subst hq
        simp at hw
      · rw [Function.update_of_ne hq] at hw
        exact absurd hw (h₀.not_waits ht.own q)

/-! ## Release -/

/-- The free lists after a release. -/
theorem brelse_eq (s : Cache D) (i : Nat) : ∃ age lru : List Nat,
    s.brelse i = ⟨s.nbuf, Function.update s.buf i { s.buf i with
      b_dev := if (s.buf i).error then none else (s.buf i).b_dev, busy := false, async := false, age := false },
      age, lru, s.disk, s.pc, Function.update s.owner i none⟩ ∧ (age ++ lru).Perm (i :: (s.age ++ s.lru)) := by
  unfold Cache.brelse
  by_cases hbad : (s.buf i).error = true ∨ (s.buf i).inval = true
  · simp only [if_pos hbad]
    exact ⟨i :: s.age, s.lru, rfl, .refl _⟩
  · simp only [if_neg hbad]
    by_cases hage : (s.buf i).age = true
    · simp only [if_pos hage]
      refine ⟨s.age ++ [i], s.lru, rfl, ?_⟩
      rw [List.append_assoc]
      exact List.perm_middle
    · simp only [if_neg hage]
      refine ⟨s.age, s.lru ++ [i], rfl, ?_⟩
      rw [← List.append_assoc]
      exact List.perm_append_singleton ..

/-- A busy buffer without a transfer is released, and whoever waited for it goes on. -/
theorem Inv.brelse (h : Inv s c) (hi : i < s.nbuf) (hb : (s.buf i).busy = true) (hio : (s.buf i).io = false)
    {pc : Nat → Pc} (hpc : ∀ q, pc q = s.pc q ∨ ∀ j ≠ i, ¬(s.pc q).Waits j ∧ ¬(pc q).Waits j)
    (hno : ∀ q, ¬(pc q).Waits i) : Inv { s.brelse i with pc := pc } c := by
  obtain ⟨age, lru, heq, hperm⟩ := brelse_eq s i
  have hok := h.ok i hi
  have hout := h.not_free hb
  rw [heq]
  refine h.change hi ⟨fun _ => ⟨rfl, hio, rfl, fun he => ?_⟩, fun h1 => ?_, fun hd => ?_, by simp, by simp⟩ ?_
    (hperm.nodup_iff.mpr (List.nodup_cons.mpr ⟨hout, h.nodup⟩)) hpc (fun q hw => absurd hw (hno q)) ?_ ?_ ?_
    fun _ _ _ _ => ⟨rfl, rfl⟩
  · simp only at he
    simp [he]
  · have : (s.buf i).io = true := h1
    rw [hio] at this
    cases this
  · obtain ⟨he, hdev, hval⟩ := hok.delwri hd
    simp only [he, Bool.false_eq_true, if_false]
    exact ⟨trivial, hdev, hval⟩
  · intro j
    rw [hperm.mem_iff, List.mem_cons]
    by_cases hji : j = i
    · subst hji
      simp
    · simp [hji]
  · rintro d b ⟨hb, hd, hv⟩ j hj hji hat'
    have hat : (s.buf i).At d b := by
      refine ⟨hb, ?_, hv⟩
      simp only at hd
      split at hd
      · cases hd
      · exact hd
    exact hji (h.one j hj i hi d b hat' hat)
  · rintro d b ⟨hb, hd, hv⟩
    have hat : (s.buf i).At d b := by
      refine ⟨hb, ?_, hv⟩
      simp only at hd
      split at hd
      · cases hd
      · exact hd
    exact h.holds i hi d b hat
  · rintro d b hold hnew
    have he : (s.buf i).error = true := by
      by_contra hne
      have hf : (s.buf i).error = false := by simpa using hne
      refine hnew ⟨hold.1, ?_, hold.2.2⟩
      simpa [hf] using hold.2.1
    have hdel : (s.buf i).delwri = false := by
      by_contra hne
      have := (hok.delwri (by simpa using hne)).1
      rw [he] at this
      cases this
    exact h.disk_eq hi hdel hio hold

/-! ## Writes and the end of transfers -/

/-- A running process and a buffer of its own. -/
theorem Inv.has (h : Inv s c) {p : Nat} (hh : s.Has p i) :
    i < s.nbuf ∧ (s.buf i).busy = true ∧ (s.buf i).io = false ∧ (∀ q, ¬(s.pc q).Waits i) ∧
      i ∉ s.age ++ s.lru := by
  obtain ⟨hpc, hown⟩ := hh
  have hi := h.own p i hown
  have hok := h.ok i hi
  have hb : (s.buf i).busy = true := hok.busy (by rw [hown]; simp)
  have hno : ∀ q, ¬(s.pc q).Waits i := fun q hw => by
    have ho := (h.wait q i hw).1
    rw [hown] at ho
    cases ho
    rw [hpc] at hw
    simp at hw
  refine ⟨hi, hb, ?_, hno, h.not_free hb⟩
  by_contra hne
  rcases (hok.io (by simpa using hne)).2.2.2.2.2 with ⟨-, ho⟩ | ⟨-, q, ho, hw⟩
  · rw [hown] at ho
    cases ho
  · exact hno q hw

/-- What is put into a buffer that belongs to a block is put into the block. -/
theorem put_of_at {bp : Buf D} {x : D} {dev blkno : Nat} (hat : bp.At dev blkno) :
    Cache.written.put bp c x dev blkno = x := by
  simp [Cache.written.put, hat.1, hat.2.1]

theorem put_of_not_at {bp : Buf D} {x : D} {dev blkno : Nat} (hv : bp.inval = false) (hat : ¬bp.At dev blkno) :
    Cache.written.put bp c x dev blkno = c dev blkno := by
  simp only [Cache.written.put]
  rw [if_neg fun hc => hat ⟨hc.2, hc.1, hv⟩]

/-- A process writes a buffer of its own: the buffer has the new contents of its block. -/
theorem Inv.put (h : Inv s c) {p : Nat} (hh : s.Has p i) (hv : (s.buf i).inval = false) {x : D} {bp : Buf D}
    {own : Option Nat} {pc : Nat → Pc} (hdev : bp.b_dev = (s.buf i).b_dev) (hblk : bp.b_blkno = (s.buf i).b_blkno)
    (hval : bp.inval = (s.buf i).inval) (hok : BufOk bp own pc i) (hb : bp.busy = true) (hx : bp.data = x)
    (hnew : bp.delwri = true ∨ (bp.io = true ∧ bp.read = false))
    (hpc : ∀ q, pc q = s.pc q ∨ ∀ j ≠ i, ¬(s.pc q).Waits j ∧ ¬(pc q).Waits j)
    (hwait : ∀ q, (pc q).Waits i → own = some q ∧ (bp.io = true ∨ bp.done = true) ∧
      ∀ dev blkno, pc q = .bread dev blkno i → bp.At dev blkno) :
    Inv ⟨s.nbuf, Function.update s.buf i bp, s.age, s.lru, s.disk, pc, Function.update s.owner i own⟩
      (Cache.written.put (s.buf i) c x) := by
  obtain ⟨hi, -, -, -, hout⟩ := h.has hh
  have hat : ∀ d b, bp.At d b ↔ (s.buf i).At d b := fun d b => by simp only [Buf.At, hdev, hblk, hval]
  refine h.change hi hok (mem_of_busy hout hb) h.nodup hpc hwait ?_ ?_ ?_ ?_
  · intro d b hb j hj hji hat'
    exact hji (h.one j hj i hi d b hat' ((hat d b).mp hb))
  · intro d b hb
    rw [put_of_at ((hat d b).mp hb)]
    simp only [Buf.Holds, if_pos hnew, hx]
  · exact fun d b hold hgone => absurd ((hat d b).mpr hold) hgone
  · exact fun d b hold _ => ⟨rfl, put_of_not_at hv hold⟩

theorem Inv.busy_of_io (h : Inv s c) (hi : i < s.nbuf) (hio : (s.buf i).io = true) :
    (s.buf i).busy = true ∧ i ∉ s.age ++ s.lru := by
  have hb : (s.buf i).busy = true := by
    by_contra hne
    have := ((h.ok i hi).idle (by simpa using hne)).2.1
    rw [hio] at this
    cases this
  exact ⟨hb, h.not_free hb⟩

/-- The buffer after a read: what the transfer brought. -/
theorem Inv.read_done (h : Inv s c) (hi : i < s.nbuf) (hio : (s.buf i).io = true) (hr : (s.buf i).read = true)
    {dev : Nat} (hd : (s.buf i).b_dev = some dev) (x : Option D) :
    Inv (s.setBuf i { s.buf i with
      data := x.getD (s.disk dev (s.buf i).b_blkno), error := x.isSome, done := true, io := false }) c := by
  have hok := h.ok i hi
  obtain ⟨hdev, hval, hdone, hdel, herr, hwho⟩ := hok.io hio
  obtain ⟨hb, hout⟩ := h.busy_of_io hi hio
  have hown : s.owner = Function.update s.owner i (s.owner i) := (Function.update_eq_self ..).symm
  change Inv ⟨s.nbuf, Function.update s.buf i _, s.age, s.lru, s.disk, s.pc, s.owner⟩ c
  rw [hown]
  refine h.change hi ⟨fun h0 => ?_, by simp, fun h0 => ?_, hok.dev, hok.busy⟩ (mem_of_busy hout hb) h.nodup
    (fun _ => .inl rfl) (fun q hw => ⟨(h.wait q i hw).1, .inr rfl, (h.wait q i hw).2.2⟩) ?_ ?_
    (fun _ _ hold hnew => absurd hold hnew) fun _ _ _ _ => ⟨rfl, rfl⟩
  · simp only [hb] at h0
    cases h0
  · simp only [hdel] at h0
    cases h0
  · exact fun d b hat j hj hji hat' => hji (h.one j hj i hi d b hat' hat)
  · intro d b hat
    have hold := h.holds i hi d b hat
    simp only [Buf.Holds, hdel, hio, hr, Bool.false_eq_true, Bool.true_eq_false, and_false, or_self, if_false] at hold
    obtain ⟨hblk, hdv, -⟩ := hat
    simp only at hblk hdv
    rw [hd] at hdv
    cases hdv
    subst hblk
    simp only [Buf.Holds, hdel, Bool.false_eq_true, false_and, or_self, if_false]
    refine ⟨hold.1, fun _ hx => ?_⟩
    cases x with
    | none => exact hold.1
    | some y => cases hx

/-- The buffer after a write, with the block on the device. -/
theorem Inv.write_done (h : Inv s c) (hi : i < s.nbuf) (hio : (s.buf i).io = true) (hr : (s.buf i).read = false)
    {dev : Nat} (hd : (s.buf i).b_dev = some dev) (x : Option D) :
    Inv { s.setBuf i { s.buf i with error := x.isSome, done := true, io := false } with
      disk := Function.update s.disk dev
        (Function.update (s.disk dev) (s.buf i).b_blkno (x.getD (s.buf i).data)) }
      (match x with
        | none => c
        | some y => Cache.written.put (s.buf i) c y) := by
  have hok := h.ok i hi
  obtain ⟨hdev, hval, hdone, hdel, herr, hwho⟩ := hok.io hio
  obtain ⟨hb, hout⟩ := h.busy_of_io hi hio
  have hown : s.owner = Function.update s.owner i (s.owner i) := (Function.update_eq_self ..).symm
  have hself : (s.buf i).At dev (s.buf i).b_blkno := ⟨rfl, hd, hval⟩
  have hdata : (s.buf i).data = c dev (s.buf i).b_blkno := by
    have hold := h.holds i hi dev _ hself
    simpa only [Buf.Holds, hio, hr, and_self, or_true, if_true] using hold
  change Inv ⟨s.nbuf, Function.update s.buf i _, s.age, s.lru, _, s.pc, s.owner⟩ _
  rw [hown]
  refine h.change hi ⟨fun h0 => ?_, by simp, fun h0 => ?_, hok.dev, hok.busy⟩ (mem_of_busy hout hb) h.nodup
    (fun _ => .inl rfl) (fun q hw => ⟨(h.wait q i hw).1, .inr rfl, (h.wait q i hw).2.2⟩) ?_ ?_
    (fun _ _ hold hnew => absurd hold hnew) ?_
  · simp only [hb] at h0
    cases h0
  · simp only [hdel] at h0
    cases h0
  · exact fun d b hat j hj hji hat' => hji (h.one j hj i hi d b hat' hat)
  · rintro d b ⟨hblk, hdv, -⟩
    simp only at hblk hdv
    rw [hd] at hdv
    cases hdv
    subst hblk
    simp only [Buf.Holds, hdel, Bool.false_eq_true, false_and, or_self, if_false, Function.update_self]
    cases x with
    | none => exact ⟨hdata, fun _ _ => hdata⟩
    | some y => exact ⟨(put_of_at hself).symm, fun _ he => by cases he⟩
  · intro d b hold _
    constructor
    · by_cases hdd : d = dev
      · subst hdd
        rw [Function.update_self, Function.update_of_ne]
        rintro rfl
        exact hold hself
      · rw [Function.update_of_ne hdd]
    · cases x with
      | none => rfl
      | some y => exact put_of_not_at hval hold

theorem biodone_spec (h : Inv s c) (hi : i < s.nbuf) (hio : (s.buf i).io = true) (x : Option D) :
    Inv (s.biodone i x) (s.written c (.biodone i x)) := by
  have hok := h.ok i hi
  obtain ⟨hdev, hval, hdone, hdel, herr, hwho⟩ := hok.io hio
  obtain ⟨dev, hd⟩ := Option.ne_none_iff_exists'.mp hdev
  have hb := (h.busy_of_io hi hio).1
  -- A transfer nobody waits for ends with the release of the buffer.
  have hrel : ∀ {t : Cache D} {c' : Nat → Nat → D}, Inv t c' → t.nbuf = s.nbuf → t.pc = s.pc →
      t.owner = s.owner → (t.buf i).busy = true → (t.buf i).io = false →
      Inv (if (s.buf i).async then t.brelse i else t) c' := by
    intro t c' ht hn hpc ho htb htio
    split
    · next has =>
      have hown : t.owner i = none := by
        rcases hwho with ⟨-, ho'⟩ | ⟨hna, -⟩
        · rw [ho, ho']
        · rw [has] at hna
          cases hna
      have hres := ht.brelse (hn ▸ hi) htb htio (fun _ => .inl rfl) (ht.not_waits hown)
      obtain ⟨age, lru, heq, -⟩ := brelse_eq t i
      rw [heq] at hres ⊢
      exact hres
    · exact ht
  unfold Cache.biodone
  dsimp only
  split
  · next hn =>
    rw [hd] at hn
    cases hn
  · next dev' hd' =>
    by_cases hr : (s.buf i).read = true
    · have hc : s.written c (.biodone i x) = c := by
        cases x with
        | none => rfl
        | some y => simp only [Cache.written, hr, if_true]
      rw [if_pos hr, hc]
      refine hrel (h.read_done hi hio hr hd' x) rfl rfl rfl ?_ ?_
      · simpa [Cache.setBuf] using hb
      · simp [Cache.setBuf]
    · have hr' : (s.buf i).read = false := by simpa using hr
      have hc : s.written c (.biodone i x) = (match x with
          | none => c
          | some y => Cache.written.put (s.buf i) c y) := by
        cases x with
        | none => rfl
        | some y => simp [Cache.written, hr']
      rw [if_neg hr, hc]
      refine hrel (h.write_done hi hio hr' hd' x) rfl rfl rfl ?_ ?_
      · simpa [Cache.setBuf] using hb
      · simp [Cache.setBuf]

/-! ## Runs -/

/-- A process goes on after a sleep. -/
theorem resume_spec (h : Inv s c) {p : Nat} (hm : s.StillMissing (.resume p)) :
    Inv (s.resume p).2 c ∧ Delivers (s.resume p) c := by
  unfold Cache.resume
  split
  · exact ⟨h, .none⟩
  · next dev blkno k hp => exact getblk_spec h (by simp [hp]) k
  · next dev blkno k hp =>
    exact newblk_spec h (fun j hj => incore_none (hm dev blkno k hp) hj) (by simp [hp]) k
  · next hp => exact ⟨geteblk_spec h (by simp [hp]), .none⟩
  · next dev blkno i hp =>
    obtain ⟨hown, -, hat⟩ := h.wait p i (by simp [hp])
    have hi := h.own p i hown
    have hat := hat dev blkno hp
    split
    · next hdone =>
      refine ⟨?_, fun d b j he => ?_⟩
      · have hok := h.ok i hi
        have hb : (s.buf i).busy = true := hok.busy (by rw [hown]; simp)
        have hself : s.buf = Function.update s.buf i (s.buf i) := (Function.update_eq_self ..).symm
        have hown' : s.owner = Function.update s.owner i (s.owner i) := (Function.update_eq_self ..).symm
        change Inv ⟨s.nbuf, s.buf, s.age, s.lru, s.disk, Function.update s.pc p .user, s.owner⟩ c
        rw [hself, hown']
        refine h.change hi ⟨hok.idle, fun hio => ?_, hok.delwri, hok.dev, hok.busy⟩
          (mem_of_busy (h.not_free hb) hb) h.nodup
          (pc_of_update (fun j hji hw => ?_) (by simp)) (fun q hw => ?_)
          (fun d b hat j hj hji hat' => hji (h.one j hj i hi d b hat' hat)) (h.holds i hi)
          (fun _ _ hold hnew => absurd hold hnew) fun _ _ _ _ => ⟨rfl, rfl⟩
        · rw [(hok.io hio).2.2.1] at hdone
          cases hdone
        · rw [hp, Pc.waits_bread] at hw
          exact hji hw.symm
        · by_cases hq : q = p
          · subst hq
            simp at hw
          · rw [Function.update_of_ne hq] at hw ⊢
            exact h.wait q i hw
      · cases he
        exact ⟨hat, h.data_eq hi hat (.inl hdone)⟩
    · exact ⟨h, .none⟩
  · next i hp =>
    obtain ⟨hown, -, -⟩ := h.wait p i (by simp [hp])
    have hi := h.own p i hown
    have hok := h.ok i hi
    split
    · next hdone =>
      refine ⟨?_, .none⟩
      have hio : (s.buf i).io = false := by
        by_contra hne
        rw [(hok.io (by simpa using hne)).2.2.1] at hdone
        cases hdone
      have hres := h.brelse hi (hok.busy (by rw [hown]; simp)) hio
        (pc_of_update (p := p) (x := .user) (fun j hji hw => ?_) (by simp)) fun q hw => ?_
      · obtain ⟨age, lru, heq, -⟩ := brelse_eq s i
        rw [heq] at hres ⊢
        exact hres
      · rw [hp, Pc.waits_bwrite] at hw
        exact hji hw.symm
      · by_cases hq : q = p
        · subst hq
          simp at hw
        · rw [Function.update_of_ne hq] at hw
          have ho := (h.wait q i hw).1
          rw [hown] at ho
          cases ho
          exact hq rfl
    · exact ⟨h, .none⟩

theorem step_spec (h : Inv s c) {e : Event D} (hl : s.Legal e) (hm : s.StillMissing e) :
    Inv (s.step e).2 (s.written c e) ∧ Delivers (s.step e) (s.written c e) := by
  cases e with
  | getblk p dev blkno => exact getblk_spec h (by simp [show s.pc p = .user from hl]) .getblk
  | bread p dev blkno => exact getblk_spec h (by simp [show s.pc p = .user from hl]) .bread
  | geteblk p => exact ⟨geteblk_spec h (by simp [show s.pc p = .user from hl]), .none⟩
  | resume p => exact resume_spec h hm
  | bwrite p i x =>
    obtain ⟨hh, hv⟩ := hl
    obtain ⟨hi, hb, hio, hno, hout⟩ := h.has hh
    have hok := h.ok i hi
    have hdev := hok.dev (by rw [hh.2]; simp) hv
    refine ⟨?_, .none⟩
    have hown : s.owner = Function.update s.owner i (some p) := by
      rw [← hh.2, Function.update_eq_self]
    simp only [Cache.step, Cache.strategy, Cache.setBuf, Cache.setPc, Function.update_self, Function.update_idem,
      Cache.written, Bool.false_and, Bool.false_eq_true, if_false]
    rw [hown]
    refine h.put hh hv rfl rfl rfl ⟨fun h0 => ?_, fun _ => ⟨hdev, hv, rfl, rfl, rfl, .inr ⟨rfl, p, rfl, by simp⟩⟩,
      fun h0 => (by cases h0), fun _ _ => hdev, fun _ => hb⟩ hb rfl (.inr ⟨rfl, rfl⟩)
      (pc_of_update (by simp [hh.1]) (by simp; tauto)) fun q hw => ?_
    · rw [hb] at h0
      cases h0
    · by_cases hq : q = p
      · subst hq
        exact ⟨rfl, .inl rfl, by simp⟩
      · rw [Function.update_of_ne hq] at hw
        exact absurd hw (hno q)
  | bawrite p i x =>
    obtain ⟨hh, hv⟩ := hl
    obtain ⟨hi, hb, hio, hno, hout⟩ := h.has hh
    have hdev := (h.ok i hi).dev (by rw [hh.2]; simp) hv
    refine ⟨?_, .none⟩
    simp only [Cache.step, Cache.strategy, Cache.setBuf, Cache.setOwner, Function.update_self,
      Function.update_idem, Cache.written]
    refine h.put hh hv rfl rfl rfl ⟨fun h0 => ?_, fun _ => ⟨hdev, hv, rfl, rfl, rfl, .inl ⟨rfl, rfl⟩⟩,
      fun h0 => (by cases h0), by simp, by simp⟩ hb rfl (.inr ⟨rfl, rfl⟩) (fun _ => .inl rfl)
      fun q hw => absurd hw (hno q)
    rw [hb] at h0
    cases h0
  | bdwrite p i x =>
    obtain ⟨hh, hv, herr⟩ := hl
    obtain ⟨hi, hb, hio, hno, hout⟩ := h.has hh
    have hok := h.ok i hi
    have hdev := hok.dev (by rw [hh.2]; simp) hv
    have hown : s.owner = Function.update s.owner i (some p) := by
      rw [← hh.2, Function.update_eq_self]
    have hput : Inv (s.setBuf i { s.buf i with data := x, delwri := true, done := true })
        (Cache.written.put (s.buf i) c x) := by
      change Inv ⟨s.nbuf, Function.update s.buf i _, s.age, s.lru, s.disk, s.pc, s.owner⟩ _
      rw [hown]
      refine h.put hh hv rfl rfl rfl ⟨fun h0 => ?_, fun h0 => ?_, fun _ => ⟨herr, hdev, hv⟩, fun _ _ => hdev,
        fun _ => hb⟩ hb rfl (.inl rfl) (fun _ => .inl rfl) fun q hw => absurd hw (hno q)
      · simp only [hb] at h0
        cases h0
      · simp only [hio] at h0
        cases h0
    refine ⟨?_, .none⟩
    have hres := hput.brelse hi (by simpa [Cache.setBuf] using hb) (by simpa [Cache.setBuf] using hio)
      (fun _ => .inl rfl) hno
    obtain ⟨age, lru, heq, -⟩ := brelse_eq (s.setBuf i { s.buf i with data := x, delwri := true, done := true }) i
    simp only [Cache.step]
    rw [heq] at hres ⊢
    exact hres
  | brelse p i =>
    obtain ⟨hi, hb, hio, hno, hout⟩ := h.has hl
    refine ⟨?_, .none⟩
    have hres := h.brelse hi hb hio (fun _ => .inl rfl) hno
    obtain ⟨age, lru, heq, -⟩ := brelse_eq s i
    simp only [Cache.step]
    rw [heq] at hres ⊢
    exact hres
  | biodone i x => exact ⟨biodone_spec h hl.1 hl.2 x, .none⟩

theorem Inv.boot (nbuf : Nat) (disk : Nat → Nat → D) (x : D) : Inv (Cache.boot nbuf disk x) disk where
  ok := fun i _ => ⟨fun _ => ⟨rfl, rfl, rfl, fun _ => rfl⟩, fun h => (by cases h), fun h => (by cases h),
    fun h => absurd rfl h, fun h => absurd rfl h⟩
  free := by simp [Cache.boot]
  nodup := by simpa [Cache.boot] using List.nodup_range
  own := fun p i h => by cases h
  wait := fun p i h => absurd h (Pc.not_waits_user i)
  one := fun i _ j _ dev blkno h => by cases h.2.1
  holds := fun i _ dev blkno h => by cases h.2.1
  clean := fun _ _ _ => rfl

theorem Inv.run {s₀ : Cache D} {c₀ : Nat → Nat → D} (h : Inv s₀ c₀)
    (hr : Run Cache.StillMissing s₀ c₀ s c) : Inv s c := by
  induction hr with
  | refl => exact h
  | step _ hl hm ih => exact (step_spec ih hl hm).1

/-- No block has two buffers, and whatever `bread` returns without an error has the contents written last,
    in every run where no process that slept for a free buffer is given one for a block in core. -/
theorem one_buffer {nbuf : Nat} {disk : Nat → Nat → D} {x : D}
    (hr : Run Cache.StillMissing (Cache.boot nbuf disk x) disk s c) :
    (∀ i < s.nbuf, ∀ j < s.nbuf, ∀ dev blkno,
      (s.buf i).At dev blkno → (s.buf j).At dev blkno → i = j) ∧
    ∀ e, s.Legal e → s.StillMissing e → ∀ dev blkno i,
      (s.step e).1 = some (dev, blkno, i) → ((s.step e).2.buf i).At dev blkno ∧
        (((s.step e).2.buf i).error = false → ((s.step e).2.buf i).data = s.written c e dev blkno) := by
  have h := (Inv.boot nbuf disk x).run hr
  exact ⟨h.one, fun e hl hm => (step_spec h hl hm).2⟩

end

instance Cache.decidableLegal (s : Cache D) (e : Event D) : Decidable (s.Legal e) :=
  match e with
  | .getblk _ _ _ => inferInstanceAs (Decidable (_ = _))
  | .bread _ _ _ => inferInstanceAs (Decidable (_ = _))
  | .geteblk _ => inferInstanceAs (Decidable (_ = _))
  | .resume _ => inferInstanceAs (Decidable True)
  | .bwrite _ _ _ => inferInstanceAs (Decidable ((_ ∧ _) ∧ _))
  | .bawrite _ _ _ => inferInstanceAs (Decidable ((_ ∧ _) ∧ _))
  | .bdwrite _ _ _ => inferInstanceAs (Decidable ((_ ∧ _) ∧ _ ∧ _))
  | .brelse _ _ => inferInstanceAs (Decidable (_ ∧ _))
  | .biodone _ _ => inferInstanceAs (Decidable (_ ∧ _))

/-- Legal events, one after the other. -/
def Cache.run (s : Cache D) (c : Nat → Nat → D) : List (Event D) → Option (Cache D × (Nat → Nat → D))
  | [] => some (s, c)
  | e :: es => if s.Legal e then (s.step e).2.run (s.written c e) es else none

theorem Cache.run_run {P : Cache D → Event D → Prop} (hP : ∀ s e, P s e) {s₀ s s' : Cache D}
    {c₀ c c' : Nat → Nat → D} (h : Run P s₀ c₀ s c) {es : List (Event D)}
    (hr : s.run c es = some (s', c')) : Run P s₀ c₀ s' c' := by
  induction es generalizing s c with
  | nil =>
    cases hr
    exact h
  | cons e es ih =>
    simp only [Cache.run] at hr
    split at hr
    · next hl => exact ih (h.step hl (hP _ _)) hr
    · cases hr

/-- Two processes miss a block and sleep for a buffer. The one that wrote the block delayed its write, and
    the other read it from the device. -/
def twoMissed : List (Event Nat) :=
  [.geteblk 0, .geteblk 0, .getblk 1 0 5, .bread 2 0 5, .brelse 0 1, .brelse 0 0, .resume 2, .resume 1,
    .bdwrite 1 1 7, .biodone 0 none, .resume 2, .brelse 2 0]

theorem one_buffer_twice : ∃ s c,
    Run (fun _ _ => True) (Cache.boot 2 (fun _ _ => 0) 0) (fun _ _ => 0) s c ∧
      ((s.buf 0).At 0 5 ∧ (s.buf 1).At 0 5) ∧ s.Legal (.bread 3 0 5) ∧
      (s.step (.bread 3 0 5)).1 = some (0, 5, 0) ∧ c 0 5 = 7 ∧
      ((s.step (.bread 3 0 5)).2.buf 0).data = 0 := by
  obtain ⟨⟨s, c⟩, hs⟩ : ∃ r, (Cache.boot 2 (fun _ _ => 0) 0).run (fun _ _ => 0) twoMissed = some r :=
    Option.isSome_iff_exists.mp (by decide +kernel)
  refine ⟨s, c, Cache.run_run (fun _ _ => trivial) .refl hs, ?_⟩
  have hd : ((Cache.boot 2 (fun _ _ => 0) 0).run (fun _ _ => 0) twoMissed).all (fun r =>
      decide (((r.1.buf 0).At 0 5 ∧ (r.1.buf 1).At 0 5) ∧ r.1.Legal (.bread 3 0 5) ∧
        (r.1.step (.bread 3 0 5)).1 = some (0, 5, 0) ∧ r.2 0 5 = 7 ∧
        ((r.1.step (.bread 3 0 5)).2.buf 0).data = 0)) = true := by
    decide +kernel
  rw [hs] at hd
  simpa using hd

/-- One process writes a block and reads it again. -/
theorem one_buffer_single : ∃ s c,
    Run Cache.StillMissing (Cache.boot 2 (fun _ _ => 0) 0) (fun _ _ => 0) s c ∧
      (s.step (.bread 1 0 5)).1 = some (0, 5, 1) ∧ ((s.step (.bread 1 0 5)).2.buf 1).data = 7 := by
  have hrun : Run Cache.StillMissing (Cache.boot 2 (fun _ _ => 0) (0 : Nat)) (fun _ _ => 0) _ _ :=
    (Run.refl.step (e := .getblk 1 0 5) (by decide +kernel) trivial).step (e := .bdwrite 1 1 7)
      (by decide +kernel) trivial
  refine ⟨_, _, hrun, by decide +kernel, ?_⟩
  have hread := (one_buffer hrun).2 (.bread 1 0 5) (by decide +kernel) trivial 0 5 1 (by decide +kernel)
  rw [hread.2 (by decide +kernel)]
  decide +kernel

end DiscoBSD.Bio
