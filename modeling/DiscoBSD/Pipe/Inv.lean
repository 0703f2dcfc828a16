import DiscoBSD.Pipe.State

/-!
# What a pipe keeps

**The chunks put into the pipe are what the reads took from it and then what it holds.** Whoever is in `rwip`
has the inode locked, so nobody else moves a byte or an offset; what it has moved so far is in the file, behind
the offset for a read and before `i_size` for a write.

A call of `writep` puts its data into the pipe from the front, and only its last chunk is smaller than the
pipe. This is said of calls in which no transfer failed, since `rwip` raises `i_size` before it moves a block.
-/

set_option autoImplicit false

namespace DiscoBSD.Pipe

open DiscoBSD.Lib
open Function (update)

/-! ## What the states say -/

/-- The process is in `rwip`. -/
def Pc.moving : Pc → Bool
  | .rmove .. | .wmove .. => true
  | _ => false

/-- The call of `writep` the process is in, what the chunk under way has sent, and the count it has left. -/
def Pc.write : Pc → Option (Write × List UInt8 × ℕ)
  | .wlock k _ | .wsleep k _ => some (k, [], 0)
  | .wmove k _ _ _ sent => some (k, sent, k.resid)
  | _ => none

namespace World

/-- All bytes put into the pipe. -/
def stored (w : World) : List UInt8 := w.chunks.flatMap Chunk.bytes

/-- All bytes taken from it. -/
def taken (w : World) : List UInt8 := w.reads.flatten

/-- The bytes in it. -/
def held (w : World) : List UInt8 := readAt w.file w.f_offset (w.i_size - w.f_offset)

/-- The chunks of a call. -/
def bytesOf (w : World) (call : ℕ) : List (List UInt8) :=
  (w.chunks.filter fun ch => ch.call = call).map Chunk.bytes

end World

/-- A call goes on: its data is what it put into the pipe and what it has left. -/
def Going (w : World) : Write × List UInt8 × ℕ → Prop
  | (k, sent, left) =>
    ∃ data, w.calls[k.call]? = some data ∧ k.total = data.length ∧ left + k.c ≤ k.iov.length ∧
      (w.failed k.call = false →
        (w.bytesOf k.call).flatten ++ (sent ++ k.iov) = data ∧ k.iov.length = left + k.c ∧
          (sent.length + left + k.c ≠ 0 → ∀ b ∈ w.bytesOf k.call, b.length = maxpipsiz))

/-- What holds of some of the processes, and of no two of them. -/
structure Procs (nproc : ℕ) (S : ℕ → Prop) (w : World) : Prop where
  lt : ∀ q, S q → w.proc q ≠ .user → q < nproc
  isopen : ∀ q, S q → ∀ wend, (w.proc q).inside wend = true → w.isopen wend = true
  going : ∀ q, S q → ∀ x, (w.proc q).write = some x → Going w x
  distinct : ∀ q, S q → ∀ r, S r → ∀ x y, (w.proc q).write = some x → (w.proc r).write = some y →
    x.1.call = y.1.call → q = r

/-- What holds of the chunks. -/
structure Chunks (w : World) : Prop where
  lt : ∀ ch ∈ w.chunks, ch.call < w.calls.length
  room : ∀ ch ∈ w.chunks, ch.bytes.length ≤ maxpipsiz
  kept : ∀ call data, w.calls[call]? = some data → w.failed call = false →
    (w.bytesOf call).flatten <+: data ∧ ∀ b ∈ (w.bytesOf call).dropLast, b.length = maxpipsiz

/-- The offset and the size. -/
structure Sizes (w : World) : Prop where
  offset : w.f_offset < w.i_size ∨ w.f_offset = 0 ∧ w.i_size = 0
  size : w.i_size < 2 * maxpipsiz

/-- What a read in `rwip` has got. -/
structure Reading (w : World) (want resid off : ℕ) (got : List UInt8) : Prop where
  low : w.f_offset ≤ off
  high : off ≤ w.i_size
  filled : w.f_offset < w.i_size
  want : want = got.length + resid
  got : got = readAt w.file w.f_offset (off - w.f_offset)
  still : w.stored = w.taken ++ w.held

/-- What a write in `rwip` has sent: the bytes in the file past the size before. -/
structure Writing (w : World) (k : Write) (osize resid off : ℕ) (sent : List UInt8) : Prop where
  low : w.f_offset < osize ∨ w.f_offset = 0 ∧ osize = 0
  room : osize < maxpipsiz
  offset : off = osize + sent.length
  size : w.i_size = off
  count : resid = sent.length + k.resid
  pos : 0 < resid
  le : resid ≤ maxpipsiz
  full : k.c ≠ 0 → resid = maxpipsiz
  sent : sent = readAt w.file osize sent.length
  still : w.stored = w.taken ++ readAt w.file w.f_offset (osize - w.f_offset)

/-- What a process in `rwip` knows. -/
def Moves (w : World) : Pc → Prop
  | .rmove want resid off got => Reading w want resid off got
  | .wmove k osize resid off sent => Writing w k osize resid off sent
  | _ => True

/-- What holds of the pipe between two steps. -/
structure Inv (nproc : ℕ) (w : World) : Prop where
  procs : Procs nproc (fun _ => True) w
  chunks : Chunks w
  sizes : Sizes w
  count : w.i_count = w.ropen.toNat + w.wopen.toNat + if w.ilocked = .sync then 1 else 0
  holder : ∀ p, (w.proc p).moving = true ↔ w.ilocked = .held p
  still : (∀ p, w.ilocked ≠ .held p) → w.stored = w.taken ++ w.held
  moves : ∀ p, Moves w (w.proc p)

/-- The same with the inode in the hands of `p`, wherever `p` is. -/
structure Others (nproc p : ℕ) (w : World) : Prop where
  lt : p < nproc
  procs : Procs nproc (fun q => q ≠ p) w
  chunks : Chunks w
  sizes : Sizes w
  count : w.i_count = w.ropen.toNat + w.wopen.toNat
  unlocked : ∀ q ≠ p, (w.proc q).moving = false

/-- And nothing half done. -/
structure Rest (nproc p : ℕ) (w : World) : Prop extends Others nproc p w where
  still : w.stored = w.taken ++ w.held

/-- The call of `p` is on the write end, and it is the only one that is in the call. -/
structure Mine (p : ℕ) (w : World) (x : Write × List UInt8 × ℕ) : Prop where
  going : Going w x
  wopen : w.wopen = true
  only : ∀ q ≠ p, ∀ y, (w.proc q).write = some y → y.1.call ≠ x.1.call

section

variable {nproc p : ℕ} {w : World} {x : Write × List UInt8 × ℕ} {pc : Pc}

theorem setProc_self (w : World) (p : ℕ) (pc : Pc) : (w.setProc p pc).proc p = pc := Function.update_self ..

theorem setProc_ne (w : World) {q : ℕ} (h : q ≠ p) (pc : Pc) : (w.setProc p pc).proc q = w.proc q :=
  Function.update_of_ne h ..

/-- A call goes on as long as its data, its failures and its chunks are the same. -/
theorem Going.congr {w' : World} (h : Going w x) (hcalls : w'.calls[x.1.call]? = w.calls[x.1.call]?)
    (hfailed : w'.failed x.1.call = w.failed x.1.call) (hbytes : w'.bytesOf x.1.call = w.bytesOf x.1.call) :
    Going w' x := by
  obtain ⟨k, sent, left⟩ := x
  obtain ⟨data, hdata, htotal, hleft, hok⟩ := h
  refine ⟨data, hcalls.trans hdata, htotal, hleft, fun hnot => ?_⟩
  rw [hbytes]
  exact hok (hfailed.symm.trans hnot)

/-! ## Wakeups -/

theorem wakeReader_inside (pc : Pc) (wend : Bool) : pc.wakeReader.inside wend = pc.inside wend := by
  cases pc <;> rfl

theorem wakeReader_write (pc : Pc) : pc.wakeReader.write = pc.write := by
  cases pc <;> rfl

theorem wakeReader_moving (pc : Pc) : pc.wakeReader.moving = pc.moving := by
  cases pc <;> rfl

theorem wakeReader_user (pc : Pc) : pc.wakeReader = .user ↔ pc = .user := by
  cases pc <;> simp [Pc.wakeReader]

theorem wakeWriter_inside (pc : Pc) (wend : Bool) : pc.wakeWriter.inside wend = pc.inside wend := by
  cases pc <;> rfl

theorem wakeWriter_write (pc : Pc) : pc.wakeWriter.write = pc.write := by
  cases pc <;> rfl

theorem wakeWriter_moving (pc : Pc) : pc.wakeWriter.moving = pc.moving := by
  cases pc <;> rfl

theorem wakeWriter_user (pc : Pc) : pc.wakeWriter = .user ↔ pc = .user := by
  cases pc <;> simp [Pc.wakeWriter]

theorem Procs.wakeReaders {S : ℕ → Prop} (h : Procs nproc S w) : Procs nproc S w.wakeReaders where
  lt q hq hne := h.lt q hq fun hu => hne ((wakeReader_user _).mpr hu)
  isopen q hq wend hin := h.isopen q hq wend (by rwa [World.wakeReaders, wakeReader_inside] at hin)
  going q hq x hx := h.going q hq x (by rwa [World.wakeReaders, wakeReader_write] at hx)
  distinct q hq r hr x y hx hy := h.distinct q hq r hr x y
    (by rwa [World.wakeReaders, wakeReader_write] at hx) (by rwa [World.wakeReaders, wakeReader_write] at hy)

theorem Procs.wakeWriters {S : ℕ → Prop} (h : Procs nproc S w) : Procs nproc S w.wakeWriters where
  lt q hq hne := h.lt q hq fun hu => hne ((wakeWriter_user _).mpr hu)
  isopen q hq wend hin := h.isopen q hq wend (by rwa [World.wakeWriters, wakeWriter_inside] at hin)
  going q hq x hx := h.going q hq x (by rwa [World.wakeWriters, wakeWriter_write] at hx)
  distinct q hq r hr x y hx hy := h.distinct q hq r hr x y
    (by rwa [World.wakeWriters, wakeWriter_write] at hx) (by rwa [World.wakeWriters, wakeWriter_write] at hy)

theorem Rest.wakeReaders (h : Rest nproc p w) : Rest nproc p w.wakeReaders where
  lt := h.lt
  procs := h.procs.wakeReaders
  chunks := ⟨h.chunks.lt, h.chunks.room, h.chunks.kept⟩
  sizes := ⟨h.sizes.offset, h.sizes.size⟩
  count := h.count
  unlocked q hq := (wakeReader_moving _).trans (h.unlocked q hq)
  still := h.still

theorem Rest.wakeWriters (h : Rest nproc p w) : Rest nproc p w.wakeWriters where
  lt := h.lt
  procs := h.procs.wakeWriters
  chunks := ⟨h.chunks.lt, h.chunks.room, h.chunks.kept⟩
  sizes := ⟨h.sizes.offset, h.sizes.size⟩
  count := h.count
  unlocked q hq := (wakeWriter_moving _).trans (h.unlocked q hq)
  still := h.still

theorem Mine.wakeReaders (h : Mine p w x) : Mine p w.wakeReaders x :=
  ⟨h.going, h.wopen, fun q hq y hy => h.only q hq y (by rwa [World.wakeReaders, wakeReader_write] at hy)⟩

/-! ## One process -/

/-- A process among the others. -/
theorem Procs.setProc (h : Procs nproc (fun q => q ≠ p) w) (hlt : p < nproc)
    (hopen : ∀ wend, pc.inside wend = true → w.isopen wend = true)
    (hmine : ∀ x, pc.write = some x → Mine p w x) : Procs nproc (fun _ => True) (w.setProc p pc) := by
  have hne : ∀ {q}, q ≠ p → (w.setProc p pc).proc q = w.proc q := fun hq => setProc_ne w hq pc
  refine ⟨fun q _ hq => ?_, fun q _ wend hin => ?_, fun q _ x hx => ?_, fun q _ r _ x y hx hy hxy => ?_⟩
  · by_cases hqp : q = p
    · rwa [hqp]
    · rw [hne hqp] at hq
      exact h.lt q hqp hq
  · by_cases hqp : q = p
    · rw [hqp, setProc_self] at hin
      exact hopen wend hin
    · rw [hne hqp] at hin
      exact h.isopen q hqp wend hin
  · by_cases hqp : q = p
    · rw [hqp, setProc_self] at hx
      exact (hmine x hx).going
    · rw [hne hqp] at hx
      exact h.going q hqp x hx
  · by_cases hqp : q = p
    · rw [hqp, setProc_self] at hx
      by_cases hrp : r = p
      · rw [hqp, hrp]
      · rw [hne hrp] at hy
        exact absurd hxy.symm ((hmine x hx).only r hrp y hy)
    · rw [hne hqp] at hx
      by_cases hrp : r = p
      · rw [hrp, setProc_self] at hy
        exact absurd hxy ((hmine y hy).only q hqp x hx)
      · rw [hne hrp] at hy
        exact h.distinct q hqp r hrp x y hx hy hxy

theorem Procs.others (h : Procs nproc (fun _ => True) w) : Procs nproc (fun q => q ≠ p) w :=
  ⟨fun q _ => h.lt q trivial, fun q _ => h.isopen q trivial, fun q _ => h.going q trivial,
    fun q _ r _ => h.distinct q trivial r trivial⟩

theorem inside_of_write (h : pc.write = some x) : pc.inside true = true := by
  cases pc <;> first | rfl | cases h

/-- The call a process is in is its own. -/
theorem Procs.mine (h : Procs nproc (fun _ => True) w) (hx : (w.proc p).write = some x) : Mine p w x where
  going := h.going p trivial x hx
  wopen := h.isopen p trivial true (inside_of_write hx)
  only q hq y hy hxy := hq (h.distinct q trivial p trivial y x hy hx hxy)

theorem moves_of_not_moving (h : pc.moving = false) (w : World) : Moves w pc := by
  cases pc with
  | rmove | wmove => cases h
  | _ => trivial

/-- What is known in `rwip` is about the file, the offset and the size. -/
theorem Moves.congr {w' : World} (h : Moves w pc) (hoff : w'.f_offset = w.f_offset) (hsize : w'.i_size = w.i_size)
    (hfile : w'.file = w.file) (hstored : w'.stored = w.stored) (htaken : w'.taken = w.taken) : Moves w' pc := by
  have hheld : w'.held = w.held := by
    unfold World.held
    rw [hoff, hsize, hfile]
  cases pc with
  | rmove want resid off got =>
    refine ⟨?_, ?_, ?_, h.want, ?_, ?_⟩
    · rw [hoff]
      exact h.low
    · rw [hsize]
      exact h.high
    · rw [hoff, hsize]
      exact h.filled
    · rw [hoff, hfile]
      exact h.got
    · rw [hstored, htaken, hheld]
      exact h.still
  | wmove k osize resid off sent =>
    refine ⟨?_, h.room, h.offset, hsize.trans h.size, h.count, h.pos, h.le, h.full, ?_, ?_⟩
    · rw [hoff]
      exact h.low
    · rw [hfile]
      exact h.sent
    · rw [hstored, htaken, hfile, hoff]
      exact h.still
  | _ => trivial

/-- A process does something without the inode. -/
theorem Inv.setProc (h : Inv nproc w) (hp : (w.proc p).moving = false) (hpc : pc.moving = false)
    (hlt : p < nproc) (hopen : ∀ wend, pc.inside wend = true → w.isopen wend = true)
    (hmine : ∀ x, pc.write = some x → Mine p w x) : Inv nproc (w.setProc p pc) := by
  refine ⟨h.procs.others.setProc hlt hopen hmine, ⟨h.chunks.lt, h.chunks.room, h.chunks.kept⟩,
    ⟨h.sizes.offset, h.sizes.size⟩, h.count, fun q => ?_, h.still, fun q => ?_⟩
  · by_cases hqp : q = p
    · rw [hqp, setProc_self, hpc]
      refine iff_of_false Bool.false_ne_true fun hheld => ?_
      rw [(h.holder p).mpr hheld] at hp
      cases hp
    · rw [setProc_ne w hqp]
      exact h.holder q
  · by_cases hqp : q = p
    · rw [hqp, setProc_self]
      exact moves_of_not_moving hpc _
    · rw [setProc_ne w hqp]
      exact (h.moves q).congr rfl rfl rfl rfl rfl

/-- The flags are for the sleepers only. -/
theorem Inv.flags (h : Inv nproc w) (iread iwrite : Bool) :
    Inv nproc { w with iread := iread, iwrite := iwrite } where
  procs := ⟨h.procs.lt, h.procs.isopen, h.procs.going, h.procs.distinct⟩
  chunks := ⟨h.chunks.lt, h.chunks.room, h.chunks.kept⟩
  sizes := ⟨h.sizes.offset, h.sizes.size⟩
  count := h.count
  holder := h.holder
  still := h.still
  moves q := (h.moves q).congr rfl rfl rfl rfl rfl

/-! ## The inode changes hands -/

/-- Nobody had the inode, and `p` gets it. -/
theorem Inv.rest (h : Inv nproc w) (hfree : w.ilocked = .free) (hlt : p < nproc) : Rest nproc p w := by
  have hno : ∀ q, w.ilocked ≠ .held q := fun q hq => by
    rw [hfree] at hq
    cases hq
  have hcount := h.count
  rw [hfree, if_neg nofun] at hcount
  refine ⟨⟨hlt, h.procs.others, h.chunks, h.sizes, hcount, fun q _ => ?_⟩, h.still hno⟩
  exact Bool.eq_false_iff.mpr fun hq => hno q ((h.holder q).mp hq)

/-- It gives the inode back. -/
theorem Rest.release (h : Rest nproc p w) (hpc : pc.moving = false)
    (hopen : ∀ wend, pc.inside wend = true → w.isopen wend = true)
    (hmine : ∀ x, pc.write = some x → Mine p w x) :
    Inv nproc ({ w with ilocked := .free }.setProc p pc) := by
  have hprocs := h.procs.setProc h.lt hopen hmine
  have hidle : ∀ q, (update w.proc p pc q).moving = false := by
    intro q
    by_cases hqp : q = p
    · rwa [hqp, Function.update_self]
    · rw [Function.update_of_ne hqp]
      exact h.unlocked q hqp
  refine ⟨⟨hprocs.lt, hprocs.isopen, hprocs.going, hprocs.distinct⟩,
    ⟨h.chunks.lt, h.chunks.room, h.chunks.kept⟩, ⟨h.sizes.offset, h.sizes.size⟩, h.count, fun q => ?_,
    fun _ => h.still, fun q => moves_of_not_moving (hidle q) _⟩
  show (update w.proc p pc q).moving = true ↔ Lock.free = .held q
  rw [hidle q]
  exact iff_of_false Bool.false_ne_true nofun

/-- It is in `rwip` with the inode. -/
theorem Others.hold (h : Others nproc p w) (hpc : pc.moving = true)
    (hopen : ∀ wend, pc.inside wend = true → w.isopen wend = true)
    (hmine : ∀ x, pc.write = some x → Mine p w x) (hmoves : Moves w pc) :
    Inv nproc ({ w with ilocked := .held p }.setProc p pc) := by
  have hprocs := h.procs.setProc h.lt hopen hmine
  refine ⟨⟨hprocs.lt, hprocs.isopen, hprocs.going, hprocs.distinct⟩,
    ⟨h.chunks.lt, h.chunks.room, h.chunks.kept⟩, ⟨h.sizes.offset, h.sizes.size⟩, h.count, fun q => ?_,
    fun hno => absurd rfl (hno p), fun q => ?_⟩
  · show (update w.proc p pc q).moving = true ↔ Lock.held p = .held q
    by_cases hqp : q = p
    · rw [hqp, Function.update_self]
      exact iff_of_true hpc rfl
    · rw [Function.update_of_ne hqp, h.unlocked q hqp]
      refine iff_of_false Bool.false_ne_true fun he => hqp ?_
      cases he
      rfl
  · by_cases hqp : q = p
    · rw [hqp, setProc_self]
      exact hmoves.congr rfl rfl rfl rfl rfl
    · rw [setProc_ne _ hqp]
      exact moves_of_not_moving (h.unlocked q hqp) _

end

end DiscoBSD.Pipe
