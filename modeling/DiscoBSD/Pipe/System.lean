import Mathlib
import DiscoBSD.Pipe.Fifo

/-!
# Runs of a pipe

Each step keeps the invariant, whoever takes it, so it holds in the states of every run. The size has no
better bound than twice that of the pipe: two writes, each smaller than the pipe, go one after the other.
-/

set_option autoImplicit false

namespace DiscoBSD.Pipe

open DiscoBSD.Lib
open Function (update)

section

variable {nproc p : ℕ} {file : ℕ → UInt8} {w w' : World} {a : Answer} {k : Write}

/-! ## The steps -/

theorem inv_pipe (nproc : ℕ) (file : ℕ → UInt8) : Inv nproc (World.pipe file) where
  procs := by
    refine ⟨fun _ _ h => absurd rfl h, fun _ _ wend h => ?_, fun _ _ x h => ?_, fun _ _ _ _ x y h => ?_⟩
    · cases h
    · cases h
    · cases h
  chunks := by
    refine ⟨fun ch h => ?_, fun ch h => ?_, fun call data h => ?_⟩
    · cases h
    · cases h
    · cases h
  sizes := ⟨.inr ⟨rfl, rfl⟩, (by decide : 0 < 2 * maxpipsiz)⟩
  count := rfl
  holder _ := iff_of_false Bool.false_ne_true nofun
  still _ := rfl
  moves _ := trivial

theorem Going.lt {x : Write × List UInt8 × ℕ} (h : Going w x) : x.1.call < w.calls.length := by
  obtain ⟨k, sent, left⟩ := x
  obtain ⟨data, hdata, -⟩ := h
  exact (List.getElem?_eq_some_iff.mp hdata).1

/-- A call that has just begun has no chunks. -/
theorem Chunks.bytesOf_new (h : Chunks w) : w.bytesOf w.calls.length = [] := by
  unfold World.bytesOf
  rw [List.map_eq_nil_iff, List.filter_eq_nil_iff]
  intro ch hch
  have := h.lt ch hch
  simp only [decide_eq_true_eq]
  omega

/-- One more call. -/
theorem Inv.newCall (h : Inv nproc w) (data : List UInt8) : Inv nproc { w with calls := w.calls ++ [data] } := by
  refine ⟨⟨h.procs.lt, h.procs.isopen, fun q hq x hx => ?_, h.procs.distinct⟩, ⟨fun ch hch => ?_, h.chunks.room, ?_⟩,
    ⟨h.sizes.offset, h.sizes.size⟩, h.count, h.holder, h.still, fun q => (h.moves q).congr rfl rfl rfl rfl rfl⟩
  · have hgoing := h.procs.going q hq x hx
    exact hgoing.congr (List.getElem?_append_left hgoing.lt) rfl rfl
  · rw [List.length_append]
    exact Nat.lt_add_right _ (h.chunks.lt ch hch)
  · intro call data' hdata' hnot
    by_cases hc : call < w.calls.length
    · exact h.chunks.kept call data' ((List.getElem?_append_left hc).symm.trans hdata') hnot
    · have hlt := (List.getElem?_eq_some_iff.mp hdata').1
      rw [List.length_append, List.length_singleton] at hlt
      have hcall : call = w.calls.length := by omega
      have hnone : World.bytesOf { w with calls := w.calls ++ [data] } call = [] := by
        rw [hcall]
        exact h.chunks.bytesOf_new
      rw [hnone]
      exact ⟨List.nil_prefix, nofun⟩

theorem Inv.write (h : Inv nproc w) (hp : w.proc p = .user) (hlt : p < nproc) (hopen : w.wopen = true)
    (data : List UInt8) (nb unit : Bool) :
    Inv nproc ({ w with calls := w.calls ++ [data] }.setProc p
      (.wlock ⟨w.calls.length, data.length, nb, unit, data, data.length, data.length, none⟩ true)) := by
  have hidle : (w.proc p).moving = false := by rw [hp]; rfl
  refine (h.newCall data).setProc hidle rfl hlt ?_ fun x hx => ?_
  · rintro _ rfl
    exact hopen
  · cases hx
    refine ⟨⟨data, ?_, rfl, (Nat.zero_add _).le, fun _ => ⟨?_, (Nat.zero_add _).symm, fun _ b hb => ?_⟩⟩, hopen, ?_⟩
    · exact List.getElem?_concat_length
    · rw [show World.bytesOf { w with calls := w.calls ++ [data] } w.calls.length = [] from h.chunks.bytesOf_new]
      rfl
    · rw [show World.bytesOf { w with calls := w.calls ++ [data] } w.calls.length = [] from h.chunks.bytesOf_new] at hb
      cases hb
    · intro q _ y hy
      exact Nat.ne_of_lt (h.procs.going q trivial y hy).lt

theorem Inv.writep (h : Inv nproc w) (hfree : w.ilocked = .free) {first : Bool} (hp : w.proc p = .wlock k first) :
    Inv nproc (w.writep p k first).2 ∧ Told w (w.writep p k first).2 (w.writep p k first).1 := by
  have hlt : p < nproc := h.procs.lt p trivial (by rw [hp]; nofun)
  have hidle : (w.proc p).moving = false := by rw [hp]; rfl
  unfold World.writep
  by_cases hblock : (first && k.nb && decide (maxpipsiz ≤ w.i_size + k.c)) = true
  · rw [if_pos hblock]
    exact ⟨h.setProc hidle rfl hlt nofun nofun, (List.append_nil _).symm, nofun, nofun⟩
  · rw [if_neg hblock]
    exact (h.rest hfree hlt).loop (h.procs.mine (by rw [hp]; rfl))

theorem Writing.grown {osize resid off : ℕ} {sent : List UInt8} (h : Writing w k osize resid off sent) :
    osize ≤ w.i_size ∧ w.i_size - osize ≤ maxpipsiz := by
  have := h.size
  have := h.offset
  have := h.count
  have := h.le
  omega

/-- The end of a chunk without an error. -/
theorem Inv.done (h : Inv nproc w) {osize resid off : ℕ} {sent : List UInt8}
    (hp : w.proc p = .wmove k osize resid off sent) (hz : k.resid = 0) :
    Inv nproc (w.writeDone p k osize none).2 ∧
      Told w (w.writeDone p k osize none).2 (w.writeDone p k osize none).1 := by
  have hwrite := h.writing hp
  obtain ⟨hrest, hmine⟩ := h.chunk hp (fun _ _ _ => rfl) hwrite.grown.1 hwrite.grown.2
    (fun _ _ => rfl) (fun hnot => ⟨hnot, rfl, hwrite.size, hz⟩) k.resid none
  exact hrest.writeDone hmine

/-- The end of a chunk with an error. -/
theorem Inv.fail (h : Inv nproc w) {osize resid off : ℕ} {sent : List UInt8}
    (hp : w.proc p = .wmove k osize resid off sent) (error : Errno) :
    Inv nproc ((w.fails k).writeDone p k osize (some error)).2 ∧
      Told w ((w.fails k).writeDone p k osize (some error)).2
        ((w.fails k).writeDone p k osize (some error)).1 := by
  have hwrite := h.writing hp
  obtain ⟨hrest, hmine⟩ := h.chunk hp (fun _ _ _ => rfl) hwrite.grown.1 hwrite.grown.2
    (fun call hc => Function.update_of_ne hc true w.failed) (by simp) k.resid (some error)
  obtain ⟨hinv, htold⟩ := Rest.writeDone (w := w.fails k) hrest hmine
  exact ⟨hinv, htold.got, htold.eof, htold.wrote⟩

theorem Inv.blockError (h : Inv nproc w) {osize resid off : ℕ} {sent : List UInt8}
    (hp : w.proc p = .wmove k osize resid off sent) (trunc : Bool) (junk : ℕ → UInt8) :
    Inv nproc (w.blockError p k osize resid off trunc junk).2 ∧
      Told w (w.blockError p k osize resid off trunc junk).2 (w.blockError p k osize resid off trunc junk).1 := by
  have hwrite := h.writing hp
  have hsize := hwrite.size
  have hoffset := hwrite.offset
  have hcount := hwrite.count
  have hle := hwrite.le
  have hroom := hwrite.room
  have hfile : ∀ a b, a + b ≤ osize →
      readAt (fun x => if x < off then w.file x else junk x) a b = readAt w.file a b := by
    intro a b hab
    refine List.map_congr_left fun i hi => if_pos ?_
    rw [List.mem_range] at hi
    omega
  have hfailed : ∀ call, call ≠ k.call → update w.failed k.call true call = w.failed call := fun call hc =>
    Function.update_of_ne hc true w.failed
  have hbad : ∀ P : Prop, update w.failed k.call true k.call = false → P := fun P hf => by
    rw [Function.update_self] at hf
    cases hf
  -- Whatever the size is in the end, the chunk is what the file has between the sizes.
  have hend : ∀ s left, osize ≤ s → s - osize ≤ maxpipsiz →
      ∀ v : World, v = { w.fails k with file := fun x => if x < off then w.file x else junk x, i_size := s } →
        Inv nproc (v.writeDone p { k with resid := left } osize (some .eio)).2 ∧
          Told w (v.writeDone p { k with resid := left } osize (some .eio)).2
            (v.writeDone p { k with resid := left } osize (some .eio)).1 := by
    rintro s left hge hle v rfl
    obtain ⟨hrest, hmine⟩ := h.chunk hp hfile hge hle hfailed (hbad _) left (some .eio)
    obtain ⟨hinv, htold⟩ := @Rest.writeDone nproc p
      { w.fails k with file := fun x => if x < off then w.file x else junk x, i_size := s }
      { k with resid := left } osize (some .eio) hrest hmine
    exact ⟨hinv, htold.got, htold.eof, htold.wrote⟩
  unfold World.blockError
  dsimp only
  by_cases hunit : k.unit = true
  · rw [if_pos hunit]
    cases trunc with
    | true => exact hend osize resid le_rfl (by omega) _ rfl
    | false => exact hend maxpipsiz resid hroom.le (Nat.sub_le _ _) _ rfl
  · rw [if_neg hunit]
    have hmax : max w.i_size (off + min (devBsize - off % devBsize) k.resid) - osize ≤ maxpipsiz := by omega
    exact hend _ k.resid (le_max_of_le_left (by omega)) hmax _ rfl

theorem Inv.pipe_close (h : Inv nproc w) (hfree : w.ilocked = .free) {wend : Bool} (hopen : w.isopen wend = true)
    (hnone : ∀ p < nproc, (w.proc p).inside wend = false) : Inv nproc (w.pipe_close wend) := by
  have hprocs := h.procs.wakeWriters.wakeReaders
  have hcount := h.count
  rw [hfree, if_neg (by rintro ⟨⟩)] at hcount
  have hidle : ∀ q, ((w.proc q).wakeWriter.wakeReader).moving = false := by
    intro q
    rw [wakeReader_moving, wakeWriter_moving]
    refine Bool.eq_false_iff.mpr fun hm => ?_
    have := (h.holder q).mp hm
    rw [hfree] at this
    cases this
  refine ⟨⟨hprocs.lt, fun q hq end' hin => ?_, hprocs.going, hprocs.distinct⟩,
    ⟨h.chunks.lt, h.chunks.room, h.chunks.kept⟩, ⟨h.sizes.offset, h.sizes.size⟩, ?_, fun q => ?_, h.still,
    fun q => moves_of_not_moving (hidle q) _⟩
  · -- A call on an end that is closed would be on the other.
    have hopen' := hprocs.isopen q hq end' hin
    have hin' : (w.proc q).inside end' = true := by
      rwa [World.pipe_close, World.wakeReaders, World.wakeWriters, wakeReader_inside, wakeWriter_inside] at hin
    have hother : end' ≠ wend := by
      rintro rfl
      by_cases hlt : q < nproc
      · rw [hnone q hlt] at hin'
        cases hin'
      · refine absurd (h.procs.lt q trivial fun hu => ?_) hlt
        rw [hu] at hin'
        cases hin'
    revert hopen' hother
    cases wend <;> cases end' <;> simp [World.isopen, World.pipe_close, World.wakeReaders, World.wakeWriters]
  · show w.i_count - 1 = _
    rw [hcount]
    revert hopen
    cases wend <;> simp +contextual [World.isopen, World.pipe_close, World.wakeReaders, World.wakeWriters, hfree]
  · show ((w.proc q).wakeWriter.wakeReader).moving = true ↔ w.ilocked = .held q
    rw [hidle q, hfree]
    exact iff_of_false Bool.false_ne_true (by rintro ⟨⟩)

/-- `syncinodes` takes the inode, or puts it back. -/
theorem Inv.relock (h : Inv nproc w) {l : Lock} {n : ℕ} (hold : ∀ p, w.ilocked ≠ .held p) (hnew : ∀ p, l ≠ .held p)
    (hcount : n = w.ropen.toNat + w.wopen.toNat + if l = .sync then 1 else 0) :
    Inv nproc { w with ilocked := l, i_count := n } where
  procs := ⟨h.procs.lt, h.procs.isopen, h.procs.going, h.procs.distinct⟩
  chunks := ⟨h.chunks.lt, h.chunks.room, h.chunks.kept⟩
  sizes := ⟨h.sizes.offset, h.sizes.size⟩
  count := hcount
  holder q := iff_of_false (fun hm => hold q ((h.holder q).mp hm)) (hnew q)
  still _ := h.still hold
  moves q := (h.moves q).congr rfl rfl rfl rfl rfl

/-- A process goes on after a sleep, or is ended there. -/
theorem Inv.awake (h : Inv nproc w) {pc pc' : Pc} (hp : w.proc p = pc) (hne : pc ≠ .user) (hpc : pc.moving = false)
    (hpc' : pc'.moving = false) (hinside : ∀ wend, pc'.inside wend = true → pc.inside wend = true)
    (hwrite : ∀ x, pc'.write = some x → pc.write = some x) : Inv nproc (w.setProc p pc') := by
  subst hp
  exact h.setProc hpc hpc' (h.procs.lt p trivial hne) (fun wend hin => h.procs.isopen p trivial wend (hinside wend hin))
    fun x hx => h.procs.mine (hwrite x hx)

theorem Inv.step (h : Inv nproc w) {e : Event} (he : w.step nproc e = some (a, w')) :
    Inv nproc w' ∧ Told w w' a := by
  have hcall : ∀ {r : Answer × World}, some r = some (a, w') → Inv nproc r.2 ∧ Told w r.2 r.1 →
      Inv nproc w' ∧ Told w w' a := by
    intro r hs hr
    cases Option.some.inj hs
    exact hr
  have hquiet : ∀ {v : World}, some (Answer.none, v) = some (a, w') → Inv nproc v → v.taken = w.taken →
      Inv nproc w' ∧ Told w w' a := fun hs hv ht => hcall hs ⟨hv, told_none ht⟩
  cases e
  all_goals dsimp only [World.step] at he
  case read p want nb =>
    split_ifs at he with hp
    obtain ⟨huser, hlt, hopen⟩ := hp
    refine hquiet he (h.setProc (by rw [huser]; rfl) rfl hlt ?_ nofun) rfl
    rintro (_ | _) hw
    · exact hopen
    · cases hw
  case write p data nb unit =>
    split_ifs at he with hp
    obtain ⟨huser, hlt, hopen⟩ := hp
    exact hquiet he (h.write huser hlt hopen data nb unit) rfl
  case lock p =>
    split at he
    · next hfree hp => exact hcall he (h.readp hfree hp)
    · next hfree hp => exact hcall he (h.writep hfree hp)
    · cases he
  case block p =>
    split at he
    · next hp =>
      split_ifs at he
      exact hquiet he (h.readBlock hp) rfl
    · next hp =>
      split_ifs at he
      exact hquiet he (h.writeBlock hp) rfl
    · cases he
  case done p =>
    split at he
    · next hp =>
      split_ifs at he with hend
      exact hcall he (h.readDone hp fun _ => hend)
    · next hp =>
      split_ifs at he with hend
      exact hcall he (h.done hp hend)
    · cases he
  case fail p error =>
    split at he
    · next hp =>
      split_ifs at he
      exact hcall he (h.readDone hp nofun)
    · next hp => exact hcall he (h.fail hp error)
    · cases he
  case eio p trunc junk =>
    split at he
    · next hp => exact hcall he (h.blockError hp trunc junk)
    · cases he
  case resume p =>
    split at he
    · next hp => exact hquiet he (h.awake hp nofun rfl rfl (fun _ hin => hin) fun _ hx => hx) rfl
    · next hp => exact hquiet he (h.awake hp nofun rfl rfl (fun _ hin => hin) fun _ hx => hx) rfl
    · cases he
  case signal p =>
    -- A sleep that a signal ends leaves the pipe as it is.
    have hend : ∀ {pc : Pc}, w.proc p = pc → pc ≠ .user → pc.moving = false → Inv nproc (w.setProc p .user) :=
      fun hp hne hpc => h.awake hp hne hpc rfl (fun _ hin => absurd hin Bool.false_ne_true) fun _ hx =>
        absurd hx (Option.some_ne_none _).symm
    split at he
    · next hp => exact hcall he ⟨hend hp nofun rfl, (List.append_nil _).symm, nofun, nofun⟩
    · next hp =>
      split_ifs at he
      · exact hcall he ⟨hend hp nofun rfl, (List.append_nil _).symm, nofun, nofun⟩
      · exact hcall he ⟨hend hp nofun rfl, (List.append_nil _).symm, nofun, nofun⟩
    · cases he
  case close wend =>
    obtain ⟨⟨hfree, hopen, hnone⟩, he⟩ := Option.ite_none_right_eq_some.mp he
    exact hquiet he (h.pipe_close hfree hopen hnone) rfl
  case sync =>
    split_ifs at he with hp
    have hcount := h.count
    rw [hp.1, if_neg nofun] at hcount
    refine hquiet he (h.relock (by rw [hp.1]; nofun) nofun ?_) rfl
    rw [if_pos rfl, hcount]
  case synced =>
    split_ifs at he with hp
    have hcount := h.count
    rw [hp, if_pos rfl] at hcount
    refine hquiet he (h.relock (by rw [hp]; nofun) nofun ?_) rfl
    rw [if_neg nofun, hcount]
    rfl

theorem Reach.inv (h : Reach nproc file w) : Inv nproc w := by
  induction h with
  | pipe => exact inv_pipe nproc file
  | step e _ he ih => exact (ih.step he).1

/-! ## A write up to the size of the pipe -/

/-- `rwip` comes to its end when no transfer fails. -/
theorem Reach.blocks (left : ℕ) (h : Reach nproc file w) {osize resid off : ℕ} {sent : List UInt8}
    (hp : w.proc p = .wmove k osize resid off sent) (hleft : k.resid ≤ left) :
    ∃ w' k' off' sent', Reach nproc file w' ∧ w'.proc p = .wmove k' osize resid off' sent' ∧ k'.resid = 0 ∧
      k'.c = k.c ∧ w'.ropen = w.ropen ∧ w'.wopen = w.wopen := by
  induction left generalizing w k off sent with
  | zero => exact ⟨w, k, off, sent, h, hp, Nat.le_zero.mp hleft, rfl, rfl, rfl⟩
  | succ left ih =>
    by_cases hz : k.resid = 0
    · exact ⟨w, k, off, sent, h, hp, hz, rfl, rfl, rfl⟩
    · have hstep : w.step nproc (.block p) = some (.none, w.writeBlock p k osize resid off sent) := by
        simp only [World.step, hp, if_pos hz]
      have hpos : 0 < devBsize - off % devBsize := Nat.sub_pos_of_lt (Nat.mod_lt off (by decide))
      have hless : k.resid - min (devBsize - off % devBsize) k.resid ≤ left := by omega
      obtain ⟨w', k', off', sent', hr, hw, hz', hc, hro, hwo⟩ := ih (h.step _ hstep) (setProc_self ..) hless
      exact ⟨w', k', off', sent', hr, hw, hz', hc, hro, hwo⟩

/-- A write that is not larger than the pipe goes when the pipe is not full, all of it. -/
theorem Reach.write_goes (h : Reach nproc file w) (hp : w.proc p = .user) (hlt : p < nproc)
    (hropen : w.ropen = true) (hwopen : w.wopen = true) (hfree : w.ilocked = .free) (hroom : w.i_size < maxpipsiz)
    {data : List UInt8} (hpos : data ≠ []) (hle : data.length ≤ maxpipsiz) :
    ∃ w', Reach nproc file w' ∧ w'.i_size = w.i_size + data.length ∧ w'.proc p = .user ∧ w'.ropen = true ∧
      w'.wopen = true ∧ w'.ilocked = .free := by
  have hcount := h.inv.count
  rw [hropen, hwopen, hfree] at hcount
  have hlen : data.length ≠ 0 := fun hz => hpos (List.length_eq_zero_iff.mp hz)
  generalize hk : Write.mk w.calls.length data.length false false data data.length data.length none = k
  generalize hv : { w with calls := w.calls ++ [data] }.setProc p (.wlock k true) = v
  have hcall : w.step nproc (.write p data false false) = some (.none, v) := by
    rw [← hv, ← hk]
    simp only [World.step, hp, hlt, hwopen, and_self, if_true]
  have hvp : v.proc p = .wlock k true := by
    rw [← hv]
    exact setProc_self ..
  have hsize : v.i_size = w.i_size := by
    rw [← hv]
    rfl
  have hvcount : v.i_count = 2 := by
    rw [← hv]
    exact hcount
  have hvfree : v.ilocked = .free := by
    rw [← hv]
    exact hfree
  have hc : k.c = data.length := by rw [← hk]
  have hnb : k.nb = false := by rw [← hk]
  -- The chunk is all of the data.
  have hchunk : v.step nproc (.lock p) = some (.none, { v with ilocked := .held p }.setProc p
      (.wmove { k with c := 0, resid := data.length } v.i_size data.length v.i_size [])) := by
    have hfull : ¬ maxpipsiz ≤ v.i_size := by omega
    have hmin : min k.c maxpipsiz = data.length := by omega
    have hzero : k.c - data.length = 0 := by omega
    have hwritep : v.writep p k true = v.loop p k := if_neg (by rw [hnb]; exact Bool.false_ne_true)
    have hloop : v.loop p k = (.none, { v with ilocked := .held p }.setProc p
        (.wmove { k with c := 0, resid := data.length } v.i_size data.length v.i_size [])) := by
      unfold World.loop
      rw [if_neg (by omega), if_neg (by omega), if_neg hfull, hmin]
      dsimp only
      rw [hzero]
    simp only [World.step, hvfree, hvp, hwritep, hloop]
  have hr := (h.step _ hcall).step _ hchunk
  obtain ⟨v', k', off', sent', hr', hvp', hz, hc', hro, hwo⟩ := hr.blocks _ (setProc_self ..) le_rfl
  have hwrite := hr'.inv.writing hvp'
  have hdone : v'.step nproc (.done p) = some (v'.writeDone p k' v.i_size none) := by
    simp only [World.step, hvp', if_pos hz]
  have hreach : Reach nproc file (v'.writeDone p k' v.i_size none).2 := hr'.step _ hdone
  refine ⟨_, hreach, ?_⟩
  have hsize' : v'.i_size = w.i_size + data.length := by
    have := hwrite.size
    have := hwrite.offset
    have := hwrite.count
    omega
  have hro' : v'.ropen = true := by
    rw [hro, ← hv]
    exact hropen
  have hwo' : v'.wopen = true := by
    rw [hwo, ← hv]
    exact hwopen
  unfold World.writeDone World.loop
  dsimp only
  rw [if_pos hc']
  cases v'.iread with
  | true => exact ⟨hsize', setProc_self .., hro', hwo', rfl⟩
  | false => exact ⟨hsize', setProc_self .., hro', hwo', rfl⟩

end

/-- **A pipe is a queue, for any number of processes and in every state of every run.** What the reads took is
    the front of what the writes put into it, in whole chunks, and the rest is in the pipe. A call of `writep`
    in which no transfer failed has put the front of its data into the pipe, in chunks of the size of the pipe
    but for the last. In the pipe there are less than twice as many bytes as its size. -/
theorem pipe_fifo {nproc : ℕ} {file : ℕ → UInt8} {w : World} (h : Reach nproc file w) :
    w.taken <+: w.stored ∧
    ((∀ p, w.ilocked ≠ .held p) → w.stored = w.taken ++ w.held) ∧
    (∀ ch ∈ w.chunks, ch.call < w.calls.length ∧ ch.bytes.length ≤ maxpipsiz) ∧
    (∀ call data, w.calls[call]? = some data → w.failed call = false →
      (w.bytesOf call).flatten <+: data ∧ ∀ b ∈ (w.bytesOf call).dropLast, b.length = maxpipsiz) ∧
    w.i_size < 2 * maxpipsiz ∧
    ∀ e a w', w.step nproc e = some (a, w') → Told w w' a := by
  have hinv := h.inv
  refine ⟨?_, hinv.still, fun ch hch => ⟨hinv.chunks.lt ch hch, hinv.chunks.room ch hch⟩, hinv.chunks.kept,
    hinv.sizes.size, fun e a w' he => (hinv.step he).2⟩
  by_cases hheld : ∃ p, w.ilocked = .held p
  · obtain ⟨p, hp⟩ := hheld
    have hmoves := hinv.moves p
    have hmoving := (hinv.holder p).mpr hp
    cases hpc : w.proc p with
    | rmove want resid off got =>
      rw [hpc] at hmoves
      exact ⟨_, hmoves.still.symm⟩
    | wmove k osize resid off sent =>
      rw [hpc] at hmoves
      exact ⟨_, hmoves.still.symm⟩
    | _ =>
      rw [hpc] at hmoving
      cases hmoving
  · exact ⟨_, (hinv.still fun p hp => hheld ⟨p, hp⟩).symm⟩

/-- A byte goes into a new pipe and out of it. -/
theorem pipe_fifo_byte : ∃ w, Reach 2 (fun _ => 0) w ∧ w.stored = [7] ∧ w.taken = [7] ∧ w.taken <+: w.stored := by
  have hwrite : Reach 2 (fun _ => 0) _ := .step (.write 0 [7] false false) .pipe rfl
  have hsent : Reach 2 (fun _ => 0) _ := .step (.done 0) (.step (.block 0) (.step (.lock 0) hwrite rfl) rfl) rfl
  have hread : Reach 2 (fun _ => 0) _ := .step (.lock 1) (.step (.read 1 9 false) hsent rfl) rfl
  have hgot : Reach 2 (fun _ => 0) _ := .step (.done 1) (.step (.block 1) hread rfl) rfl
  exact ⟨_, hgot, rfl, rfl, (pipe_fifo hgot).1⟩

/-- A write of a byte less than the pipe, and then one of two bytes. -/
theorem pipe_overfull : ∃ w, Reach 1 (fun _ => 0) w ∧ maxpipsiz < w.i_size := by
  have hlen : (List.replicate (maxpipsiz - 1) (0 : UInt8)).length = maxpipsiz - 1 := List.length_replicate
  have hone : 1 ≤ maxpipsiz - 1 := by decide
  have hempty : (World.pipe fun _ => 0).i_size = 0 := rfl
  have hnew : Reach 1 (fun _ => 0) _ := .pipe
  have hsome : List.replicate (maxpipsiz - 1) (0 : UInt8) ≠ [] := fun hz => by
    rw [hz] at hlen
    cases hlen
  obtain ⟨w, hr, hsize, hp, hro, hwo, hfree⟩ :=
    hnew.write_goes rfl Nat.one_pos rfl rfl rfl (by decide) hsome (by omega)
  have htwo : [(0 : UInt8), 0] ≠ [] := by decide
  obtain ⟨w', hr', hsize', -⟩ := hr.write_goes hp Nat.one_pos hro hwo hfree (by omega) htwo (by decide)
  have hsum : w'.i_size = maxpipsiz - 1 + 2 := by rw [hsize', hsize, hlen, hempty, Nat.zero_add]; rfl
  exact ⟨w', hr', by omega⟩

end DiscoBSD.Pipe
