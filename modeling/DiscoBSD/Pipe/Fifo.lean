import DiscoBSD.Pipe.Inv

/-!
# A pipe is a queue

Every step keeps what `Inv` says. **What the reads took, one after the other, is what the writes put into the
pipe, from the first byte on**, and what is left is in the pipe. A read that ends with nothing, and no error,
has found the write end closed and the pipe empty.

The size is not bounded by that of the pipe: a write goes when there is less than that in the pipe, and then
all of its chunk goes.
-/

set_option autoImplicit false

namespace DiscoBSD.Pipe

open DiscoBSD.Lib
open Function (update)

/-- The bytes a read reports. -/
def Answer.got : Answer → List UInt8
  | .read _ _ got _ => got
  | _ => []

/-- What the answer of a step says about the pipe after it. -/
structure Told (w w' : World) (a : Answer) : Prop where
  got : w'.taken = w.taken ++ a.got
  eof : ∀ p want, a = .read p want [] none → 0 < want → w'.wopen = false ∧ w'.taken = w'.stored
  wrote : ∀ p call count, a = .wrote p call count none → w'.failed call = false →
    ∃ data, w'.calls[call]? = some data ∧ count = data.length ∧ (w'.bytesOf call).flatten = data

section

variable {nproc p : ℕ} {w w' : World} {k : Write}

theorem told_none (h : w'.taken = w.taken) : Told w w' .none :=
  ⟨h.trans (List.append_nil _).symm, nofun, nofun⟩

/-! ## readp -/

theorem Inv.readp (h : Inv nproc w) (hfree : w.ilocked = .free) {want : ℕ} {nb : Bool}
    (hp : w.proc p = .rlock want nb) :
    Inv nproc (w.readp p want nb).2 ∧ Told w (w.readp p want nb).2 (w.readp p want nb).1 := by
  have hlt : p < nproc := h.procs.lt p trivial (by rw [hp]; nofun)
  have hidle : (w.proc p).moving = false := by rw [hp]; rfl
  have hropen : w.ropen = true := h.procs.isopen p trivial false (by rw [hp]; rfl)
  have hrest := h.rest hfree hlt
  have hopen : ∀ wend, (!wend) = true → w.isopen wend = true := by
    rintro (_ | _) hw
    · exact hropen
    · cases hw
  have huser : Inv nproc (w.setProc p .user) := h.setProc hidle rfl hlt nofun nofun
  unfold World.readp
  by_cases hempty : w.i_size = 0
  · rw [if_pos hempty]
    by_cases hcount : w.i_count ≠ 2
    · rw [if_pos hcount]
      refine ⟨huser, (List.append_nil _).symm, fun _ _ _ _ => ⟨?_, ?_⟩, nofun⟩
      · -- The read end is open, and the count is not two.
        have := hrest.count
        rw [hropen] at this
        cases hw : w.wopen with
        | false => exact hw
        | true =>
          rw [hw] at this
          exact absurd this hcount
      · have hheld : w.held = [] := by
          unfold World.held
          rw [hempty, Nat.zero_sub, readAt_zero]
        have hstill := hrest.still
        rw [hheld, List.append_nil] at hstill
        exact hstill.symm
    · rw [if_neg hcount]
      cases nb with
      | true => exact ⟨huser, (List.append_nil _).symm, nofun, nofun⟩
      | false =>
        have hsleep : Inv nproc (w.setProc p (.rsleep want false false)) := h.setProc hidle rfl hlt hopen nofun
        rw [if_neg Bool.false_ne_true]
        exact ⟨hsleep.flags true w.iwrite, told_none rfl⟩
  · rw [if_neg hempty]
    refine ⟨hrest.toOthers.hold rfl hopen nofun ⟨le_rfl, ?_, ?_, (Nat.zero_add _).symm, ?_, hrest.still⟩,
      told_none rfl⟩
    · have := h.sizes.offset
      lia
    · exact h.sizes.offset.resolve_right fun hz => hempty hz.2
    · rw [Nat.sub_self, readAt_zero]

/-- Who is in `rwip` has the inode. -/
theorem Inv.others (h : Inv nproc w) (hp : (w.proc p).moving = true) : Others nproc p w := by
  have hheld := (h.holder p).mp hp
  have hcount := h.count
  rw [hheld, if_neg nofun] at hcount
  have hne : w.proc p ≠ .user := fun hu => by
    rw [hu] at hp
    cases hp
  refine ⟨h.procs.lt p trivial hne, h.procs.others, h.chunks, h.sizes, hcount, fun q hq => ?_⟩
  refine Bool.eq_false_iff.mpr fun hm => hq ?_
  have hq' := (h.holder q).mp hm
  rw [hheld] at hq'
  cases hq'
  rfl

/-- It stays there. -/
theorem Others.goOn (h : Others nproc p w) (hheld : w.ilocked = .held p) {pc : Pc} (hpc : pc.moving = true)
    (hopen : ∀ wend, pc.inside wend = true → w.isopen wend = true)
    (hmine : ∀ x, pc.write = some x → Mine p w x) (hmoves : Moves w pc) : Inv nproc (w.setProc p pc) := by
  have hsame : { w with ilocked := .held p } = w := by rw [← hheld]
  have hinv := h.hold hpc hopen hmine hmoves
  rwa [hsame] at hinv

theorem readAt_split (m : ℕ → UInt8) {a b c : ℕ} (hab : a ≤ b) (hbc : b ≤ c) :
    readAt m a (c - a) = readAt m a (b - a) ++ readAt m b (c - b) := by
  have hlen : c - a = b - a + (c - b) := by lia
  rw [hlen, readAt_add, Nat.add_sub_cancel' hab]

theorem Inv.reading (h : Inv nproc w) {want resid off : ℕ} {got : List UInt8}
    (hp : w.proc p = .rmove want resid off got) : Reading w want resid off got := by
  have := h.moves p
  rwa [hp] at this

theorem Inv.writing (h : Inv nproc w) {osize resid off : ℕ} {sent : List UInt8}
    (hp : w.proc p = .wmove k osize resid off sent) : Writing w k osize resid off sent := by
  have := h.moves p
  rwa [hp] at this

theorem Inv.readBlock (h : Inv nproc w) {want resid off : ℕ} {got : List UInt8}
    (hp : w.proc p = .rmove want resid off got) : Inv nproc (w.readBlock p want resid off got) := by
  have hmove : (w.proc p).moving = true := by rw [hp]; rfl
  have hread := h.reading hp
  have hopen : ∀ wend, (!wend) = true → w.isopen wend = true := fun wend hw =>
    h.procs.isopen p trivial wend (by rwa [hp])
  refine (h.others hmove).goOn ((h.holder p).mp hmove) rfl hopen nofun ?_
  generalize hn : min (min (devBsize - off % devBsize) resid) (w.i_size - off) = n
  have hlow := hread.low
  have hhigh := hread.high
  refine ⟨Nat.le_add_right_of_le hlow, by lia, hread.filled, ?_, ?_, hread.still⟩
  · have := hread.want
    rw [List.length_append, readAt_length]
    lia
  · have hsplit := readAt_split w.file hlow (Nat.le_add_right off n)
    rw [Nat.add_sub_cancel_left] at hsplit
    rw [hsplit, ← hread.got]

/-- The end of a read that came to `rwip`. -/
theorem Inv.readDone (h : Inv nproc w) {want resid off : ℕ} {got : List UInt8} {error : Option Errno}
    (hp : w.proc p = .rmove want resid off got) (hend : error = none → resid = 0 ∨ w.i_size ≤ off) :
    Inv nproc (w.readDone p want off got error).2 ∧
      Told w (w.readDone p want off got error).2 (w.readDone p want off got error).1 := by
  have hmove : (w.proc p).moving = true := by rw [hp]; rfl
  have hread := h.reading hp
  have hothers := h.others hmove
  have hlow := hread.low
  have hhigh := hread.high
  have hfilled := hread.filled
  have htaken : (w.reads ++ [got]).flatten = w.taken ++ got := by
    rw [List.flatten_append, List.flatten_singleton]
    rfl
  have hheld : w.held = got ++ readAt w.file off (w.i_size - off) := by
    unfold World.held
    rw [readAt_split w.file hlow hhigh, ← hread.got]
  have hstored : w.stored = (w.reads ++ [got]).flatten ++ readAt w.file off (w.i_size - off) := by
    rw [htaken, List.append_assoc, ← hheld]
    exact hread.still
  -- A read that got nothing was not asked for anything.
  have heof : ∀ q n, Answer.read p want got error = .read q n [] none → 0 < n → False := by
    rintro q n ⟨⟩ hn
    have hwant := hread.want
    have hlen := congrArg List.length hread.got
    rw [readAt_length] at hlen
    simp only [List.length_nil] at hwant hlen
    have := hend rfl
    lia
  have hrest : ∀ v : World, Rest nproc p v → v.taken = w.taken ++ got →
      Inv nproc ({ v with ilocked := .free }.setProc p .user) ∧
        Told w ({ v with ilocked := .free }.setProc p .user) (.read p want got error) := fun v hv ht =>
    ⟨hv.release rfl nofun nofun, ht, fun q n ha hn => absurd (heof q n ha hn) id, nofun⟩
  have hprocs := hothers.procs
  have hchunks := hothers.chunks
  have hempty : 0 < 2 * maxpipsiz := by decide
  unfold World.readDone
  by_cases hcaught : off = w.i_size
  · have hnone : w.stored = (w.reads ++ [got]).flatten := by
      rw [hstored, hcaught, Nat.sub_self, readAt_zero, List.append_nil]
    have hv : Rest nproc p { w with f_offset := 0, i_size := 0, reads := w.reads ++ [got] } :=
      ⟨⟨hothers.lt, ⟨hprocs.lt, hprocs.isopen, hprocs.going, hprocs.distinct⟩,
        ⟨hchunks.lt, hchunks.room, hchunks.kept⟩, ⟨.inr ⟨rfl, rfl⟩, hempty⟩, hothers.count, hothers.unlocked⟩,
        hnone.trans (List.append_nil _).symm⟩
    simp only [if_pos hcaught, World.caughtUp]
    by_cases hw : w.iwrite = true
    · simp only [if_pos hw]
      exact hrest _ hv.wakeWriters htaken
    · simp only [if_neg hw]
      exact hrest _ hv htaken
  · simp only [if_neg hcaught]
    refine hrest { w with f_offset := off, reads := w.reads ++ [got] } ?_ htaken
    exact ⟨⟨hothers.lt, ⟨hprocs.lt, hprocs.isopen, hprocs.going, hprocs.distinct⟩,
      ⟨hchunks.lt, hchunks.room, hchunks.kept⟩, ⟨.inl (by show off < w.i_size; lia), hothers.sizes.size⟩,
      hothers.count, hothers.unlocked⟩, hstored⟩

/-! ## writep -/

theorem Rest.loop (h : Rest nproc p w) (hk : Mine p w (k, [], 0)) :
    Inv nproc (w.loop p k).2 ∧ Told w (w.loop p k).2 (w.loop p k).1 := by
  obtain ⟨data, hdata, htotal, hleft, hok⟩ := hk.going
  have huser : Inv nproc ({ w with ilocked := .free }.setProc p .user) := h.release rfl nofun nofun
  have hopen : ∀ wend, wend = true → w.isopen wend = true := by
    rintro _ rfl
    exact hk.wopen
  unfold World.loop
  by_cases hc : k.c = 0
  · rw [if_pos hc]
    refine ⟨huser, (List.append_nil _).symm, nofun, ?_⟩
    intro q call count ha hnot
    injection ha with _ hcall hcount _
    subst hcall hcount
    obtain ⟨hsent, hlen, -⟩ := hok hnot
    have hnil : k.iov = [] := List.length_eq_zero_iff.mp (by simpa [hc] using hlen)
    have hall : (w.bytesOf k.call).flatten = data := by simpa [hnil] using hsent
    exact ⟨data, hdata, htotal, hall⟩
  · rw [if_neg hc]
    by_cases hcount : w.i_count ≠ 2
    · rw [if_pos hcount]
      exact ⟨huser, (List.append_nil _).symm, nofun, nofun⟩
    · rw [if_neg hcount]
      by_cases hfull : maxpipsiz ≤ w.i_size
      · rw [if_pos hfull]
        have hsleep : Inv nproc ({ w with ilocked := .free }.setProc p (.wsleep k false)) := by
          refine h.release rfl hopen fun x hx => ?_
          cases hx
          exact hk
        exact ⟨hsleep.flags w.iread true, told_none rfl⟩
      · rw [if_neg hfull]
        have hpos : 0 < min k.c maxpipsiz := lt_min (Nat.pos_of_ne_zero hc) (by decide)
        refine ⟨h.toOthers.hold rfl hopen (fun x hx => ?_) ?_, told_none rfl⟩
        · cases hx
          have hsum : min k.c maxpipsiz + (k.c - min k.c maxpipsiz) = 0 + k.c := by lia
          refine ⟨⟨data, hdata, htotal, hsum.le.trans hleft, fun hnot => ?_⟩, hk.wopen, hk.only⟩
          obtain ⟨hsent, hlen, hall⟩ := hok hnot
          exact ⟨hsent, hlen.trans hsum.symm, fun _ => hall (by simpa using hc)⟩
        · have hoff := h.sizes.offset
          refine ⟨hoff, Nat.lt_of_not_le hfull, rfl, rfl, (Nat.zero_add _).symm, hpos, Nat.min_le_right .., ?_, rfl,
            h.still⟩
          intro hne
          have : k.c - min k.c maxpipsiz ≠ 0 := hne
          lia

theorem Inv.writeBlock (h : Inv nproc w) {osize resid off : ℕ} {sent : List UInt8}
    (hp : w.proc p = .wmove k osize resid off sent) : Inv nproc (w.writeBlock p k osize resid off sent) := by
  have hmove : (w.proc p).moving = true := by rw [hp]; rfl
  have hwrite := h.writing hp
  have hmine : Mine p w (k, sent, k.resid) := h.procs.mine (by rw [hp]; rfl)
  have hopen : ∀ wend, wend = true → w.isopen wend = true := by
    rintro _ rfl
    exact hmine.wopen
  have hothers := h.others hmove
  obtain ⟨data, hdata, htotal, hleft, hok⟩ := hmine.going
  have hsize := hwrite.size
  have hoffset := hwrite.offset
  have hcount := hwrite.count
  have hroom := hwrite.room
  have hle := hwrite.le
  unfold World.writeBlock
  generalize hn : min (devBsize - off % devBsize) k.resid = n
  have hnle : n ≤ k.resid := hn ▸ Nat.min_le_right _ _
  clear hn
  have htake : (k.iov.take n).length = n := by
    rw [List.length_take]
    lia
  have hmax : max w.i_size (off + n) = off + n := by lia
  dsimp only
  rw [hmax]
  have hiov : k.iov.take n ++ k.iov.drop n = k.iov := List.take_append_drop n k.iov
  generalize k.iov.take n = ds at htake hiov
  -- The block goes past the end of the file.
  have hold : ∀ a b, a + b ≤ off → readAt (writeAt w.file off ds) a b = readAt w.file a b := fun a b hab =>
    readAt_congr (e := ⟨a, b⟩) (writeAt_same w.file (.inr hab)) le_rfl le_rfl
  have hlow := hwrite.low
  have hothers' : Others nproc p { w with file := writeAt w.file off ds, i_size := off + n } := by
    have hoff : w.f_offset < off + n ∨ w.f_offset = 0 ∧ off + n = 0 := by lia
    have hbound : off + n < 2 * maxpipsiz := by lia
    exact ⟨hothers.lt, ⟨hothers.procs.lt, hothers.procs.isopen, hothers.procs.going, hothers.procs.distinct⟩,
      ⟨hothers.chunks.lt, hothers.chunks.room, hothers.chunks.kept⟩, ⟨hoff, hbound⟩, hothers.count,
      hothers.unlocked⟩
  refine hothers'.goOn ((h.holder p).mp hmove) rfl hopen (fun x hx => ?_) ?_
  · cases hx
    refine ⟨⟨data, hdata, htotal, ?_, fun hnot => ?_⟩, hmine.wopen, hmine.only⟩
    · show k.resid - n + k.c ≤ (k.iov.drop n).length
      rw [List.length_drop]
      lia
    · obtain ⟨hsent, hlen, hall⟩ := hok hnot
      refine ⟨?_, ?_, fun _ => hall (by have := hwrite.pos; lia)⟩
      · rw [List.append_assoc, hiov]
        exact hsent
      · show (k.iov.drop n).length = k.resid - n + k.c
        rw [List.length_drop]
        lia
  · have hlen : (sent ++ ds).length = sent.length + n := by rw [List.length_append, htake]
    refine ⟨hlow, hroom, ?_, rfl, ?_, hwrite.pos, hle, hwrite.full, ?_, ?_⟩
    · rw [hlen, hoffset, Nat.add_assoc]
    · show resid = (sent ++ ds).length + (k.resid - n)
      lia
    · show sent ++ ds = readAt (writeAt w.file off ds) osize (sent ++ ds).length
      rw [List.length_append, readAt_add, hold osize sent.length hoffset.ge, ← hwrite.sent, ← hoffset,
        readAt_writeAt]
    · show w.stored = w.taken ++ readAt (writeAt w.file off ds) w.f_offset (osize - w.f_offset)
      rw [hold w.f_offset (osize - w.f_offset) (by lia)]
      exact hwrite.still

/-! ## The end of a chunk -/

/-- The world with a chunk of the call in the pipe. -/
def World.put (w : World) (call : ℕ) (file : ℕ → UInt8) (i_size : ℕ) (failed : ℕ → Bool) (bytes : List UInt8) :
    World :=
  { w with file := file, i_size := i_size, failed := failed, chunks := w.chunks ++ [⟨call, bytes⟩] }

section put

variable {call : ℕ} {file : ℕ → UInt8} {i_size : ℕ} {failed : ℕ → Bool} {bytes : List UInt8}

theorem put_bytesOf (w : World) : (w.put call file i_size failed bytes).bytesOf call = w.bytesOf call ++ [bytes] := by
  unfold World.put World.bytesOf
  dsimp only
  rw [List.filter_append, List.map_append, List.filter_cons_of_pos (by simp)]
  rfl

theorem put_bytesOf_ne (w : World) {call' : ℕ} (h : call' ≠ call) :
    (w.put call file i_size failed bytes).bytesOf call' = w.bytesOf call' := by
  unfold World.put World.bytesOf
  dsimp only
  rw [List.filter_append, List.map_append, List.filter_cons_of_neg (by simpa using h.symm)]
  exact List.append_nil _

theorem put_stored (w : World) : (w.put call file i_size failed bytes).stored = w.stored ++ bytes := by
  unfold World.put World.stored
  dsimp only
  rw [List.flatMap_append, List.flatMap_singleton]

end put

/-- A chunk has come to its end, well or not, and what is in the file past the size before is in the pipe. -/
theorem Inv.chunk (h : Inv nproc w) {osize resid off : ℕ} {sent : List UInt8}
    (hp : w.proc p = .wmove k osize resid off sent) {file : ℕ → UInt8} {i_size : ℕ} {failed : ℕ → Bool}
    (hfile : ∀ a b, a + b ≤ osize → readAt file a b = readAt w.file a b) (hge : osize ≤ i_size)
    (hle : i_size - osize ≤ maxpipsiz) (hothers : ∀ call, call ≠ k.call → failed call = w.failed call)
    (hgood : failed k.call = false → w.failed k.call = false ∧ file = w.file ∧ i_size = off ∧ k.resid = 0)
    (left : ℕ) (error : Option Errno) :
    Rest nproc p (w.put k.call file i_size failed (readAt file osize (i_size - osize))) ∧
      Mine p (w.put k.call file i_size failed (readAt file osize (i_size - osize)))
        ({ k with resid := left, error := error }, [], 0) := by
  have hmove : (w.proc p).moving = true := by rw [hp]; rfl
  have hwrite := h.writing hp
  have hmine : Mine p w (k, sent, k.resid) := h.procs.mine (by rw [hp]; rfl)
  have hrest := h.others hmove
  obtain ⟨data, hdata, htotal, hleft, hok⟩ := hmine.going
  have hlow := hwrite.low
  have hroom := hwrite.room
  generalize hbytes : readAt file osize (i_size - osize) = bytes
  have hlen : bytes.length = i_size - osize := by rw [← hbytes, readAt_length]
  -- A chunk that went well is what was sent.
  have hwell : failed k.call = false → (w.bytesOf k.call).flatten ++ (bytes ++ k.iov) = data ∧
      k.iov.length = k.c ∧ (∀ b ∈ w.bytesOf k.call, b.length = maxpipsiz) ∧
        (k.c ≠ 0 → bytes.length = maxpipsiz) := by
    intro hnot
    obtain ⟨hnot', hf, hs, hz⟩ := hgood hnot
    obtain ⟨hsent, hiov, hall⟩ := hok hnot'
    have hoffset := hwrite.offset
    have hcount := hwrite.count
    have hpos := hwrite.pos
    have hfull := hwrite.full
    have hlength : i_size - osize = sent.length := by lia
    have heq : bytes = sent := by
      rw [← hbytes, hf, hlength]
      exact hwrite.sent.symm
    rw [heq]
    refine ⟨hsent, by lia, hall (by lia), fun hc => ?_⟩
    have := hfull hc
    lia
  have hbound : i_size < 2 * maxpipsiz := by lia
  have hoff : w.f_offset < i_size ∨ w.f_offset = 0 ∧ i_size = 0 := by lia
  refine ⟨⟨⟨hrest.lt, ⟨hrest.procs.lt, hrest.procs.isopen, ?_, hrest.procs.distinct⟩, ⟨?_, ?_, ?_⟩,
    ⟨hoff, hbound⟩, hrest.count, hrest.unlocked⟩, ?_⟩, ⟨?_, hmine.wopen, hmine.only⟩⟩
  · intro q hq x hx
    have hne := hmine.only q hq x hx
    exact (hrest.procs.going q hq x hx).congr rfl (hothers _ hne) (put_bytesOf_ne w hne)
  · intro ch hch
    rcases List.mem_append.mp hch with hch | hch
    · exact hrest.chunks.lt ch hch
    · rw [List.mem_singleton.mp hch]
      exact (List.getElem?_eq_some_iff.mp hdata).1
  · intro ch hch
    rcases List.mem_append.mp hch with hch | hch
    · exact hrest.chunks.room ch hch
    · rw [List.mem_singleton.mp hch]
      exact hlen.trans_le hle
  · intro call data' hdata' hnot
    by_cases hc : call = k.call
    · subst hc
      obtain ⟨hsent, -, hall, -⟩ := hwell hnot
      have heq : data' = data := Option.some.inj (hdata'.symm.trans hdata)
      rw [put_bytesOf, List.flatten_append, List.flatten_singleton, List.dropLast_concat, heq]
      exact ⟨⟨k.iov, by rw [List.append_assoc, hsent]⟩, hall⟩
    · rw [put_bytesOf_ne w hc]
      exact hrest.chunks.kept call data' hdata' ((hothers call hc).symm.trans hnot)
  · have hheld : (w.put k.call file i_size failed bytes).held =
        readAt w.file w.f_offset (osize - w.f_offset) ++ bytes := by
      show readAt file w.f_offset (i_size - w.f_offset) = _
      rw [readAt_split file (by lia : w.f_offset ≤ osize) hge, hfile w.f_offset (osize - w.f_offset) (by lia),
        hbytes]
    have hstill := hwrite.still
    rw [put_stored, hheld, hstill, List.append_assoc]
    rfl
  · refine ⟨data, hdata, htotal, (?_ : 0 + k.c ≤ k.iov.length), fun hnot => ?_⟩
    · lia
    · obtain ⟨hsent, hiov, hall, hfull⟩ := hwell hnot
      rw [put_bytesOf, List.flatten_append, List.flatten_singleton, List.nil_append, List.append_assoc]
      refine ⟨hsent, hiov.trans (Nat.zero_add _).symm, fun hc b hb => ?_⟩
      rcases List.mem_append.mp hb with hb | hb
      · exact hall b hb
      · rw [List.mem_singleton.mp hb]
        refine hfull fun hz => hc ?_
        simp [hz]

/-- `writep` goes on after a chunk. -/
theorem Rest.writeDone {osize : ℕ} {error : Option Errno}
    (h : Rest nproc p (w.put k.call w.file w.i_size w.failed (readAt w.file osize (w.i_size - osize))))
    (hk : Mine p (w.put k.call w.file w.i_size w.failed (readAt w.file osize (w.i_size - osize)))
      ({ k with error := error }, [], 0)) :
    Inv nproc (w.writeDone p k osize error).2 ∧
      Told w (w.writeDone p k osize error).2 (w.writeDone p k osize error).1 := by
  have hsplit : ∀ v : World, v.taken = w.taken → Rest nproc p v → Mine p v ({ k with error := error }, [], 0) →
      Inv nproc (v.loop p { k with error := error }).2 ∧
        Told w (v.loop p { k with error := error }).2 (v.loop p { k with error := error }).1 := by
    intro v hv hr hm
    obtain ⟨hinv, htold⟩ := hr.loop hm
    exact ⟨hinv, htold.got.trans (by rw [hv]), htold.eof, htold.wrote⟩
  unfold World.writeDone
  by_cases hi : w.iread = true
  · simp only [if_pos hi]
    exact hsplit _ rfl h.wakeReaders hk.wakeReaders
  · simp only [if_neg hi]
    exact hsplit _ rfl h hk

end

end DiscoBSD.Pipe
