import DiscoBSD.Klog.Log

/-!
# The log is a queue, up to the last byte

**As long as no write brings the writer's position to the reader's, the log is a queue of `MSG_BSIZE` bytes.** A
write that fills it does so unless the reader is at the very start, and then the log looks empty. With the reader
at the start a full log is told from an empty one by the position, but the next write forgets it.
-/

set_option autoImplicit false

namespace DiscoBSD.Klog

open DiscoBSD.Lib

/-- The positions are inside the buffer, or at its end. -/
structure Bounded (m : Msgbuf) : Prop where
  magic : m.msg_magic = msgMagic
  bufx : m.msg_bufx ≤ msgBsize
  bufr : m.msg_bufr ≤ msgBsize

/-- A write that the log takes like a queue: nothing, or too much to be looked at; or the reader is at the start and
    the log is not full; or the reader is elsewhere, and the data neither fills the room that is left nor is as long
    as the log. -/
def Safe (m : Msgbuf) : Call → Prop
  | .read _ => True
  | .write buf => buf = [] ∨ msgBsize < buf.length ∨ m.msg_bufr = 0 ∧ m.msg_bufx ≠ msgBsize ∨
      m.msg_bufr ≠ 0 ∧ m.unread.length + buf.length ≠ msgBsize ∧ buf.length ≠ msgBsize

def SafeRun (m : Msgbuf) : List Call → Prop
  | [] => True
  | k :: ks => Safe m k ∧ ∀ m' got, m.call k = some (m', got) → SafeRun m' ks

section

variable {m m' : Msgbuf} {buf : List UInt8} {n resid : ℕ}

/-! ## What is unread -/

theorem unread_of_le (h : m.msg_bufr ≤ m.msg_bufx) :
    m.unread = readAt m.msg_bufc m.msg_bufr (m.msg_bufx - m.msg_bufr) := if_pos h

theorem unread_of_lt (h : m.msg_bufx < m.msg_bufr) :
    m.unread = readAt m.msg_bufc m.msg_bufr (msgBsize - m.msg_bufr) ++ readAt m.msg_bufc 0 m.msg_bufx :=
  if_neg (Nat.not_le_of_lt h)

theorem unread_eq_nil (h : m.msg_bufr = m.msg_bufx) : m.unread = [] := by
  rw [unread_of_le (Nat.le_of_eq h), h, Nat.sub_self]
  rfl

theorem length_unread (m : Msgbuf) : m.unread.length =
    if m.msg_bufr ≤ m.msg_bufx then m.msg_bufx - m.msg_bufr else msgBsize - m.msg_bufr + m.msg_bufx := by
  unfold Msgbuf.unread
  split_ifs <;> simp

/-! ## One round of a write -/

/-- The writer is behind the reader in the buffer, and the data fits. -/
theorem round_lt (hlt : m.msg_bufx < m.msg_bufr) (hr : m.msg_bufr ≤ msgBsize)
    (hfit : m.msg_bufx + buf.length ≤ m.msg_bufr) :
    m.round buf = ({ m with msg_bufc := writeAt m.msg_bufc m.msg_bufx buf, msg_bufx := m.msg_bufx + buf.length }, []) := by
  have hwrap : m.wrap = (m, msgBsize - m.msg_bufx) := if_neg (by lia)
  have hwriter : m.writer = m.msg_bufr - m.msg_bufx := by
    unfold Msgbuf.writer
    rw [if_neg (by lia), if_neg (by lia)]
  have hmin : min (m.msg_bufr - m.msg_bufx) buf.length = buf.length := Nat.min_eq_right (by lia)
  unfold Msgbuf.round
  rw [hwrap]
  dsimp only
  rw [if_pos hlt, hwriter, if_neg (by lia), hmin, List.take_length, List.drop_length]

/-- At the end of the buffer the writer goes to its start. -/
theorem round_wrap (hx : m.msg_bufx = msgBsize) (hr : 0 < m.msg_bufr) :
    m.round buf = { m with msg_bufx := 0 }.round buf := by
  have hwrap : m.wrap = ({ m with msg_bufx := 0 }, msgBsize - m.msg_bufr) := if_pos (by lia)
  have hwrap' : ({ m with msg_bufx := 0 } : Msgbuf).wrap = ({ m with msg_bufx := 0 }, msgBsize) :=
    if_neg (show ¬ msgBsize = 0 by decide)
  unfold Msgbuf.round
  rw [hwrap, hwrap']
  dsimp only
  rw [if_pos hr, if_pos hr]

/-- The writer is in front of the reader, or with it, and the data fits. -/
theorem round_le (hle : m.msg_bufr ≤ m.msg_bufx) (hx : m.msg_bufx < msgBsize)
    (hfit : m.unread.length + buf.length ≤ msgBsize) :
    m.round buf =
      ({ m with
          msg_bufc := writeAt m.msg_bufc m.msg_bufx (buf.take (min (msgBsize - m.msg_bufx) buf.length))
          msg_bufx := m.msg_bufx + min (msgBsize - m.msg_bufx) buf.length },
        buf.drop (min (msgBsize - m.msg_bufx) buf.length)) := by
  have hwrap : m.wrap = (m, msgBsize - m.msg_bufx) := if_neg (by lia)
  have hwriter : ¬ m.writer < buf.length := by
    rw [unread_of_le hle, readAt_length] at hfit
    unfold Msgbuf.writer
    split_ifs <;> lia
  unfold Msgbuf.round
  rw [hwrap]
  dsimp only
  rw [if_neg hwriter, if_neg (by lia)]

/-- The data does not fit. -/
theorem round_overrun (h : Bounded m) (hfull : ¬ (m.msg_bufx = msgBsize ∧ m.msg_bufr = 0))
    (hover : msgBsize < m.unread.length + buf.length) :
    m.round buf = ({ m with sc_overrun := m.sc_overrun + 1, msg_bufx := m.msg_bufr }, buf) := by
  have hx := h.bufx
  have hr := h.bufr
  rw [length_unread] at hover
  by_cases hend : m.msg_bufx = msgBsize
  · have hr0 : 0 < m.msg_bufr := by lia
    have hwriter : ({ m with msg_bufx := 0 } : Msgbuf).writer < buf.length := by
      unfold Msgbuf.writer
      dsimp only
      rw [if_neg (by lia), if_neg (by lia)]
      rw [if_pos (by lia)] at hover
      lia
    have hwrap' : ({ m with msg_bufx := 0 } : Msgbuf).wrap = ({ m with msg_bufx := 0 }, msgBsize) :=
    if_neg (show ¬ msgBsize = 0 by decide)
    rw [round_wrap hend hr0]
    unfold Msgbuf.round
    rw [hwrap']
    dsimp only
    rw [if_pos hwriter]
  · have hwrap : m.wrap = (m, msgBsize - m.msg_bufx) := if_neg (by lia)
    have hwriter : m.writer < buf.length := by
      unfold Msgbuf.writer
      split_ifs at hover ⊢ <;> lia
    unfold Msgbuf.round
    rw [hwrap]
    dsimp only
    rw [if_pos hwriter]

theorem rounds_nil (m : Msgbuf) (n : ℕ) : m.rounds n [] = some m := by
  cases n <;> rfl

theorem rounds_succ (m : Msgbuf) (n : ℕ) (hbuf : buf ≠ []) :
    m.rounds (n + 1) buf = (m.round buf).1.rounds n (m.round buf).2 := if_neg hbuf

/-! ## A write -/

/-- A write that fits, with the writer behind the reader in the buffer. The reader's position is what it must not
    come to. -/
theorem rounds_lt (h : Bounded m) (hlt : m.msg_bufx < m.msg_bufr) (hbuf : buf ≠ [])
    (hfit : m.msg_bufx + buf.length ≤ m.msg_bufr) :
    ∃ m', m.rounds (n + 1) buf = some m' ∧ Bounded m' ∧ m'.sc_overrun = m.sc_overrun ∧
      m'.unread = if m.msg_bufx + buf.length = m.msg_bufr then [] else m.unread ++ buf := by
  have hr := h.bufr
  rw [rounds_succ m n hbuf, round_lt hlt hr hfit]
  refine ⟨_, rounds_nil _ n, ⟨h.magic, Nat.le_trans hfit hr, hr⟩, rfl, ?_⟩
  split_ifs with hmeet
  · exact unread_eq_nil hmeet.symm
  · have hlt' : m.msg_bufx + buf.length < m.msg_bufr := by lia
    have hsame : readAt (writeAt m.msg_bufc m.msg_bufx buf) m.msg_bufr (msgBsize - m.msg_bufr) =
        readAt m.msg_bufc m.msg_bufr (msgBsize - m.msg_bufr) :=
      readAt_congr (e := ⟨m.msg_bufr, msgBsize - m.msg_bufr⟩) (writeAt_same m.msg_bufc (.inl hfit)) le_rfl le_rfl
    have hnew : readAt (writeAt m.msg_bufc m.msg_bufx buf) 0 (m.msg_bufx + buf.length) =
        readAt m.msg_bufc 0 m.msg_bufx ++ buf := by
      have hend := readAt_writeAt_end m.msg_bufc 0 m.msg_bufx buf
      rwa [Nat.zero_add] at hend
    rw [unread_of_lt hlt, List.append_assoc, ← hnew, ← hsame]
    exact unread_of_lt hlt'

/-- The writer is at the end of the buffer, and the reader is not at its start. -/
theorem rounds_wrap (h : Bounded m) (hx : m.msg_bufx = msgBsize) (hr : 0 < m.msg_bufr) (hbuf : buf ≠ [])
    (hfit : buf.length ≤ m.msg_bufr) :
    ∃ m', m.rounds (n + 1) buf = some m' ∧ Bounded m' ∧ m'.sc_overrun = m.sc_overrun ∧
      m'.unread = if buf.length = m.msg_bufr then [] else m.unread ++ buf := by
  have hstart : Bounded { m with msg_bufx := 0 } := ⟨h.magic, Nat.zero_le _, h.bufr⟩
  obtain ⟨m', hok, hb, hover, hun⟩ := rounds_lt (n := n) hstart hr hbuf (by simpa using hfit)
  refine ⟨m', ?_, hb, hover, ?_⟩
  · rw [rounds_succ m n hbuf, round_wrap hx hr, ← rounds_succ _ n hbuf]
    exact hok
  · have hsame : ({ m with msg_bufx := 0 } : Msgbuf).unread = m.unread := by
      rw [unread_of_lt hr, unread_of_le (by rw [hx]; exact h.bufr), hx]
      exact List.append_nil _
    rw [hun, hsame]
    simp only [Nat.zero_add]

/-- A write that fits. -/
theorem rounds_fit (h : Bounded m) (hbuf : buf ≠ [])
    (hfit : m.unread.length + buf.length ≤ msgBsize) :
    ∃ m', m.rounds (n + 2) buf = some m' ∧ Bounded m' ∧ m'.sc_overrun = m.sc_overrun ∧
      m'.unread = if m.msg_bufr ≠ 0 ∧ m.unread.length + buf.length = msgBsize then [] else m.unread ++ buf := by
  have hx := h.bufx
  have hr := h.bufr
  have hlen := length_unread m
  have hpos := List.length_pos_of_ne_nil hbuf
  by_cases hle : m.msg_bufr ≤ m.msg_bufx
  · rw [if_pos hle] at hlen
    by_cases hend : m.msg_bufx = msgBsize
    · obtain ⟨m', hok, hb, hover, hun⟩ := rounds_wrap (n := n + 1) h hend (by lia) hbuf (by lia)
      refine ⟨m', hok, hb, hover, hun.trans (if_congr ?_ rfl rfl)⟩
      lia
    · -- It goes up to the end of the buffer first.
      rw [rounds_succ m (n + 1) hbuf, round_le hle (by lia) hfit]
      generalize hk : min (msgBsize - m.msg_bufx) buf.length = k
      have hk₁ : k ≤ buf.length := by lia
      have hk₂ : m.msg_bufx + k ≤ msgBsize := by lia
      have hk₃ : k = buf.length ∨ m.msg_bufx + k = msgBsize := by lia
      clear hk
      have htake : (buf.take k).length = k := List.length_take_of_le hk₁
      generalize hm₁ : ({ m with
        msg_bufc := writeAt m.msg_bufc m.msg_bufx (buf.take k), msg_bufx := m.msg_bufx + k } : Msgbuf) = m₁
      have hx₁ : m₁.msg_bufx = m.msg_bufx + k := by rw [← hm₁]
      have hr₁ : m₁.msg_bufr = m.msg_bufr := by rw [← hm₁]
      have hover₁ : m₁.sc_overrun = m.sc_overrun := by rw [← hm₁]
      have hb₁ : Bounded m₁ := by
        rw [← hm₁]
        exact ⟨h.magic, by dsimp only; lia, hr⟩
      have hun₁ : m₁.unread = m.unread ++ buf.take k := by
        have hend' := readAt_writeAt_end m.msg_bufc m.msg_bufr (m.msg_bufx - m.msg_bufr) (buf.take k)
        rw [Nat.add_sub_cancel' hle, htake] at hend'
        rw [unread_of_le (m := m₁) (by lia), unread_of_le hle, ← hend', hx₁, hr₁, ← hm₁]
        congr 1
        lia
      by_cases hrest : k = buf.length
      · refine ⟨m₁, ?_, hb₁, hover₁, ?_⟩
        · dsimp only
          rw [hrest, List.drop_length, rounds_nil]
        · rw [hun₁, if_neg (by lia), hrest, List.take_length]
      · have hdrop : (buf.drop k).length = buf.length - k := List.length_drop
        have hne : buf.drop k ≠ [] := List.ne_nil_of_length_pos (by lia)
        obtain ⟨m', hok, hb, hover, hun⟩ := rounds_wrap (n := n) hb₁ (by lia) (by lia) hne (by lia)
        refine ⟨m', hok, hb, hover.trans hover₁, ?_⟩
        rw [hun, hun₁, List.append_assoc, List.take_append_drop]
        refine if_congr ?_ rfl rfl
        lia
  · rw [if_neg hle] at hlen
    obtain ⟨m', hok, hb, hover, hun⟩ := rounds_lt (n := n + 1) h (by lia) hbuf (by lia)
    refine ⟨m', hok, hb, hover, hun.trans (if_congr ?_ rfl rfl)⟩
    lia

/-- A write that does not fit empties the log first. -/
theorem rounds_overrun (h : Bounded m) (hfull : ¬ (m.msg_bufx = msgBsize ∧ m.msg_bufr = 0)) (hbuf : buf ≠ [])
    (hlen : buf.length ≤ msgBsize) (hover : msgBsize < m.unread.length + buf.length) :
    ∃ m', m.rounds (n + 3) buf = some m' ∧ Bounded m' ∧ m'.sc_overrun = m.sc_overrun + 1 ∧
      m'.unread = if m.msg_bufr ≠ 0 ∧ buf.length = msgBsize then [] else buf := by
  have hb : Bounded { m with sc_overrun := m.sc_overrun + 1, msg_bufx := m.msg_bufr } := ⟨h.magic, h.bufr, h.bufr⟩
  have hempty : ({ m with sc_overrun := m.sc_overrun + 1, msg_bufx := m.msg_bufr } : Msgbuf).unread = [] :=
    unread_eq_nil rfl
  obtain ⟨m', hok, hb', hover', hun⟩ := rounds_fit (n := n) hb hbuf (by rw [hempty, List.length_nil]; lia)
  refine ⟨m', ?_, hb', hover', ?_⟩
  · rw [rounds_succ m (n + 2) hbuf, round_overrun h hfull hover]
    exact hok
  · rw [hun, hempty]
    simp only [List.length_nil, Nat.zero_add, List.nil_append]

/-- A log that is full with the reader at the start looks empty to the next write. -/
theorem rounds_full (h : Bounded m) (hx : m.msg_bufx = msgBsize) (hr : m.msg_bufr = 0) (hbuf : buf ≠ [])
    (hlen : buf.length ≤ msgBsize) :
    ∃ m', m.rounds (n + 1) buf = some m' ∧ Bounded m' ∧ m'.sc_overrun = m.sc_overrun := by
  have hwrap : m.wrap = ({ m with msg_bufx := 0 }, msgBsize - m.msg_bufr) := if_pos (by lia)
  have hwriter : ({ m with msg_bufx := 0 } : Msgbuf).writer = msgBsize := by
    unfold Msgbuf.writer
    rw [hr]
    rfl
  have hround : m.round buf = ({ m with msg_bufc := writeAt m.msg_bufc 0 buf, msg_bufx := buf.length }, []) := by
    have hmin : min msgBsize buf.length = buf.length := Nat.min_eq_right hlen
    unfold Msgbuf.round
    rw [hwrap]
    dsimp only
    rw [hwriter, if_neg (by lia), if_neg (by lia), hr, Nat.sub_zero, hmin, List.take_length, List.drop_length,
      Nat.zero_add]
  rw [rounds_succ m n hbuf, hround]
  exact ⟨_, rounds_nil _ n, ⟨h.magic, hlen, h.bufr⟩, rfl⟩

theorem ne_succ (n : BitVec 32) : n ≠ n + 1 := by
  intro h
  have hn := congrArg BitVec.toNat h
  rw [BitVec.toNat_add] at hn
  have hlt := n.isLt
  have hone : (1 : BitVec 32).toNat = 1 := rfl
  lia

theorem write_fit {f : Fifo} (hfit : f.unread.length + buf.length ≤ msgBsize) :
    f.write buf = ⟨f.unread ++ buf, f.overrun⟩ := by
  unfold Fifo.write
  rw [if_neg (by lia), if_pos hfit]

theorem write_over {f : Fifo} (hlen : buf.length ≤ msgBsize) (hover : msgBsize < f.unread.length + buf.length) :
    f.write buf = ⟨buf, f.overrun + 1⟩ := by
  unfold Fifo.write
  rw [if_neg (by lia), if_neg (by lia)]

/-- **A write ends, and the log takes it as the queue does exactly when it is safe.** -/
theorem Bounded.logwrt (h : Bounded m) (buf : List UInt8) :
    ∃ m', m.logwrt buf = some m' ∧ Bounded m' ∧
      (Agrees m' (Fifo.write ⟨m.unread, m.sc_overrun⟩ buf) ↔ Safe m (.write buf)) := by
  have hx := h.bufx
  have hr := h.bufr
  have hlen : m.unread.length ≤ msgBsize ∧ (m.unread.length = msgBsize → m.msg_bufr = 0 → m.msg_bufx = msgBsize) := by
    have hl := length_unread m
    split_ifs at hl <;> lia
  unfold Msgbuf.logwrt
  by_cases hlong : msgBsize < buf.length
  · rw [if_pos (.inr hlong)]
    refine ⟨m, rfl, h, fun _ => .inr (.inl hlong), fun _ => ?_⟩
    unfold Fifo.write
    rw [if_pos hlong]
    exact ⟨rfl, rfl⟩
  rw [if_neg (by rintro (hm | hl); exacts [hm h.magic, hlong hl])]
  by_cases hbuf : buf = []
  · subst hbuf
    refine ⟨m, rounds_nil m _, h, fun _ => .inl rfl, fun _ => ?_⟩
    rw [write_fit (by simpa using hlen.1)]
    exact ⟨(List.append_nil _).symm, rfl⟩
  have hpos := List.length_pos_of_ne_nil hbuf
  have hsafe : Safe m (.write buf) ↔ m.msg_bufr = 0 ∧ m.msg_bufx ≠ msgBsize ∨
      m.msg_bufr ≠ 0 ∧ m.unread.length + buf.length ≠ msgBsize ∧ buf.length ≠ msgBsize := by
    unfold Safe
    simp only [hbuf, hlong, false_or]
  rw [hsafe]
  by_cases hfull : m.msg_bufx = msgBsize ∧ m.msg_bufr = 0
  · -- The count does not go up.
    have hl := length_unread m
    rw [if_pos (by lia)] at hl
    obtain ⟨m', hok, hb, hover⟩ := rounds_full (n := buf.length + 1) h hfull.1 hfull.2 hbuf (by lia)
    refine ⟨m', hok, hb, fun hag => ?_, fun hs => by lia⟩
    rw [write_over (by lia) (by dsimp only; lia)] at hag
    exact absurd (hover.symm.trans hag.2) (ne_succ m.sc_overrun)
  by_cases hfit : m.unread.length + buf.length ≤ msgBsize
  · obtain ⟨m', hok, hb, hover, hun⟩ := rounds_fit (n := buf.length) h hbuf hfit
    refine ⟨m', hok, hb, ?_⟩
    rw [write_fit hfit]
    split_ifs at hun with hmeet
    · refine ⟨fun hag => ?_, fun hs => by lia⟩
      have hnil := congrArg List.length (hun.symm.trans hag.1)
      rw [List.length_nil, List.length_append] at hnil
      lia
    · exact ⟨fun _ => by lia, fun _ => ⟨hun, hover⟩⟩
  · obtain ⟨m', hok, hb, hover, hun⟩ := rounds_overrun (n := buf.length - 1) h hfull hbuf (by lia) (by lia)
    refine ⟨m', ?_, hb, ?_⟩
    · rwa [show buf.length + 2 = buf.length - 1 + 3 by lia]
    · rw [write_over (by lia) (by dsimp only; lia)]
      split_ifs at hun with hmeet
      · exact ⟨fun hag => absurd (hag.1.symm.trans hun) hbuf, fun hs => by lia⟩
      · exact ⟨fun _ => by lia, fun _ => ⟨hun, hover⟩⟩

/-! ## A read -/

theorem moves_stop (n : ℕ) (h : resid = 0 ∨ m.msg_bufx = m.msg_bufr) : m.moves (n + 1) resid = some (m, []) :=
  if_pos h

/-- What a read leaves: the bytes of the log in their order, some of them read. -/
def Reads (m : Msgbuf) (resid : ℕ) (m' : Msgbuf) (got : List UInt8) : Prop :=
  Bounded m' ∧ m'.sc_overrun = m.sc_overrun ∧ got = m.unread.take resid ∧ m'.unread = m.unread.drop resid

theorem Reads.stop (h : Bounded m) (hstop : resid = 0 ∨ m.msg_bufx = m.msg_bufr) : Reads m resid m [] := by
  refine ⟨h, rfl, ?_, ?_⟩
  · rcases hstop with rfl | heq
    · rfl
    · rw [unread_eq_nil heq.symm, List.take_nil]
  · rcases hstop with rfl | heq
    · rfl
    · rw [unread_eq_nil heq.symm, List.drop_nil]

/-- A piece is read, and then the rest. -/
theorem Reads.piece {m₁ : Msgbuf} {l : ℕ} {got : List UInt8} (hl : l ≤ resid) (hover : m₁.sc_overrun = m.sc_overrun)
    {piece : List UInt8} (hpiece : piece.length = l) (hun : m.unread = piece ++ m₁.unread)
    (hrest : Reads m₁ (resid - l) m' got) : Reads m resid m' (piece ++ got) := by
  obtain ⟨hb, hover', hgot, hun'⟩ := hrest
  refine ⟨hb, hover'.trans hover, ?_, ?_⟩
  · rw [hgot, hun, List.take_append, List.take_of_length_le (l := piece) (by lia), hpiece]
  · rw [hun', hun, List.drop_append, List.drop_of_length_le (l := piece) (by lia), hpiece, List.nil_append]

/-- The piece of a round is the first of what is unread. -/
theorem unread_piece (h : Bounded m) {l : ℕ}
    (hl : l ≤ if m.msg_bufx < m.msg_bufr then msgBsize - m.msg_bufr else m.msg_bufx - m.msg_bufr) :
    m.unread = readAt m.msg_bufc m.msg_bufr l ++ { m with msg_bufr := m.msg_bufr + l }.unread := by
  have hr := h.bufr
  split_ifs at hl with hlt
  · rw [unread_of_lt hlt, unread_of_lt (m := { m with msg_bufr := m.msg_bufr + l }) (by dsimp only; lia),
      ← List.append_assoc, ← readAt_add]
    congr 2
    dsimp only
    lia
  · rw [unread_of_le (by lia), unread_of_le (m := { m with msg_bufr := m.msg_bufr + l }) (by dsimp only; lia),
      ← readAt_add]
    congr 1
    dsimp only
    lia

/-- A round reads a piece that is not empty. -/
theorem moves_piece (hgo : ¬ (resid = 0 ∨ m.msg_bufx = m.msg_bufr))
    (hwrap : ¬ (m.msg_bufx < m.msg_bufr ∧ msgBsize - m.msg_bufr = 0)) :
    ∃ l, 0 < l ∧ l ≤ resid ∧
      (l ≤ if m.msg_bufx < m.msg_bufr then msgBsize - m.msg_bufr else m.msg_bufx - m.msg_bufr) ∧
      m.moves (n + 1) resid = ({ m with msg_bufr := m.msg_bufr + l }.moves n (resid - l)).map
        fun (m', got) => (m', readAt m.msg_bufc m.msg_bufr l ++ got) := by
  refine ⟨_, ?_, ?_, ?_, (if_neg hgo).trans (if_neg hwrap)⟩
  · split_ifs <;> lia
  · split_ifs <;> lia
  · split_ifs <;> lia

/-- At the end of the buffer the reader goes to its start. -/
theorem moves_wrap (hresid : resid ≠ 0) (hlt : m.msg_bufx < m.msg_bufr) (hend : m.msg_bufr = msgBsize) :
    m.moves (n + 1) resid = { m with msg_bufr := 0 }.moves n resid :=
  (if_neg (by lia)).trans (if_pos ⟨hlt, by lia⟩)

theorem unread_wrap (hlt : m.msg_bufx < m.msg_bufr) (hend : m.msg_bufr = msgBsize) :
    m.unread = { m with msg_bufr := 0 }.unread := by
  rw [unread_of_lt hlt, hend, Nat.sub_self]
  exact (unread_of_le (m := { m with msg_bufr := 0 }) (Nat.zero_le _)).symm

/-- The loop of a read ends: each round but one moves a byte at least. -/
theorem Bounded.moves (h : Bounded m) (hfuel : resid + (if m.msg_bufx < m.msg_bufr then 1 else 0) < n) :
    ∃ m' got, m.moves n resid = some (m', got) ∧ Reads m resid m' got := by
  induction n generalizing m resid with
  | zero => lia
  | succ n ih =>
    by_cases hstop : resid = 0 ∨ m.msg_bufx = m.msg_bufr
    · exact ⟨m, [], moves_stop n hstop, .stop h hstop⟩
    by_cases hwrap : m.msg_bufx < m.msg_bufr ∧ msgBsize - m.msg_bufr = 0
    · have hend : m.msg_bufr = msgBsize := by
        have hr := h.bufr
        lia
      rw [if_pos hwrap.1] at hfuel
      have hb : Bounded { m with msg_bufr := 0 } := ⟨h.magic, h.bufx, Nat.zero_le _⟩
      have hfuel' : resid + (if m.msg_bufx < 0 then 1 else 0) < n := by
        rw [if_neg (Nat.not_lt_zero _)]
        lia
      obtain ⟨m', got, hok, hb', hover, hgot, hun⟩ := ih hb hfuel'
      refine ⟨m', got, ?_, hb', hover, ?_, ?_⟩
      · rw [moves_wrap (by lia) hwrap.1 hend]
        exact hok
      · rw [unread_wrap hwrap.1 hend]
        exact hgot
      · rw [unread_wrap hwrap.1 hend]
        exact hun
    · obtain ⟨l, hpos, hresid, hle, hmoves⟩ := moves_piece (n := n) hstop hwrap
      have hb : Bounded { m with msg_bufr := m.msg_bufr + l } := by
        refine ⟨h.magic, h.bufx, ?_⟩
        have hx := h.bufx
        have hr := h.bufr
        dsimp only
        split_ifs at hle <;> lia
      have hfuel' : resid - l + (if m.msg_bufx < m.msg_bufr + l then 1 else 0) < n := by
        split_ifs at hle hfuel ⊢ <;> lia
      obtain ⟨m', got, hok, hrest⟩ := ih hb hfuel'
      refine ⟨m', readAt m.msg_bufc m.msg_bufr l ++ got, ?_, ?_⟩
      · rw [hmoves, hok]
        rfl
      · refine Reads.piece hresid ?_ (readAt_length ..) (unread_piece h hle) hrest
        rfl

theorem Bounded.logread (h : Bounded m) (resid : ℕ) :
    ∃ m' got, m.logread resid = some (m', got) ∧ Reads m resid m' got := by
  unfold Msgbuf.logread
  by_cases heq : m.msg_bufr = m.msg_bufx
  · rw [if_pos heq]
    exact ⟨m, [], rfl, .stop h (.inr heq.symm)⟩
  · rw [if_neg heq]
    refine h.moves ?_
    split_ifs <;> lia

/-! ## A run -/

/-- One call, on a log that holds what the queue holds. -/
theorem Bounded.call (h : Bounded m) {f : Fifo} (hag : Agrees m f) (k : Call) :
    ∃ m' got, m.call k = some (m', got) ∧ Bounded m' ∧ got = (f.call k).2 ∧ (Agrees m' (f.call k).1 ↔ Safe m k) := by
  obtain ⟨unread, overrun⟩ := f
  obtain ⟨rfl, rfl⟩ := hag
  cases k with
  | write buf =>
    obtain ⟨m', hok, hb, hiff⟩ := h.logwrt buf
    refine ⟨m', [], ?_, hb, rfl, hiff⟩
    unfold Msgbuf.call
    dsimp only
    rw [hok]
    rfl
  | read resid =>
    obtain ⟨m', got, hok, hb, hover, hgot, hun⟩ := h.logread resid
    exact ⟨m', got, hok, hb, hgot, fun _ => trivial, fun _ => ⟨hun, hover⟩⟩

/-- Each call of a run ends. -/
theorem Bounded.run (h : Bounded m) (ks : List Call) : ∃ r, m.run ks = some r := by
  induction ks generalizing m with
  | nil => exact ⟨_, rfl⟩
  | cons k ks ih =>
    obtain ⟨m', got, hok, hb, -⟩ := h.call ⟨rfl, rfl⟩ (f := ⟨m.unread, m.sc_overrun⟩) k
    obtain ⟨⟨m'', rest⟩, hrest⟩ := ih hb
    refine ⟨(m'', got ++ rest), ?_⟩
    unfold Msgbuf.run
    rw [hok]
    simp [hrest]

theorem agrees_of_tracks {f : Fifo} {ks : List Call} (h : Tracks m f ks) : Agrees m f := by
  cases ks with
  | nil => exact h
  | cons k ks => exact h.1

theorem Bounded.tracks (h : Bounded m) {f : Fifo} (hag : Agrees m f) (ks : List Call) :
    Tracks m f ks ↔ SafeRun m ks := by
  induction ks generalizing m f with
  | nil => exact ⟨fun _ => trivial, fun _ => hag⟩
  | cons k ks ih =>
    obtain ⟨m', got, hok, hb, hgot, hiff⟩ := h.call hag k
    constructor
    · rintro ⟨-, m₁, got₁, hok₁, -, hrest⟩
      obtain ⟨rfl, rfl⟩ : m' = m₁ ∧ got = got₁ := by
        simpa using hok.symm.trans hok₁
      have hag' := agrees_of_tracks hrest
      refine ⟨hiff.mp hag', fun m₂ got₂ hok₂ => ?_⟩
      obtain ⟨rfl, rfl⟩ : m' = m₂ ∧ got = got₂ := by
        simpa using hok.symm.trans hok₂
      exact (ih hb hag').mp hrest
    · rintro ⟨hsafe, hrest⟩
      have hag' := hiff.mpr hsafe
      exact ⟨hag, m', got, hok, hgot, (ih hb hag').mpr (hrest m' got hok)⟩

end

theorem bounded_loginit (msg_bufc : ℕ → UInt8) : Bounded (loginit msg_bufc) := ⟨rfl, Nat.zero_le _, Nat.zero_le _⟩

/-- **From `loginit` on each call ends, and the log is a queue exactly as long as its writes are safe.** -/
theorem log_fifo (msg_bufc : ℕ → UInt8) (ks : List Call) :
    (∃ r, (loginit msg_bufc).run ks = some r) ∧
      (Tracks (loginit msg_bufc) Fifo.init ks ↔ SafeRun (loginit msg_bufc) ks) :=
  ⟨(bounded_loginit msg_bufc).run ks, (bounded_loginit msg_bufc).tracks ⟨rfl, rfl⟩ ks⟩

/-- A byte is written and read, and a write of `MSG_BSIZE` bytes then brings the positions together: the log that
    is full looks empty. -/
theorem log_meets :
    ¬ Tracks (loginit fun _ => 0) Fifo.init [.write [1], .read 1, .write (List.replicate msgBsize 2)] := by
  intro htracks
  have hsafe := ((bounded_loginit fun _ => 0).tracks ⟨rfl, rfl⟩ _).mp htracks
  have hwrite : (loginit fun _ => 0).call (.write [1]) =
      some ({ loginit (writeAt (fun _ => 0) 0 [1]) with msg_bufx := 1 }, []) := rfl
  have hread : ({ loginit (writeAt (fun _ => 0) 0 [1]) with msg_bufx := 1 } : Msgbuf).call (.read 1) =
      some ({ loginit (writeAt (fun _ => 0) 0 [1]) with msg_bufx := 1, msg_bufr := 1 }, [1]) := rfl
  obtain hnil | hlong | hstart | hmeet := ((hsafe.2 _ _ hwrite).2 _ _ hread).1
  · exact List.replicate_succ_ne_nil hnil
  · rw [List.length_replicate] at hlong
    exact Nat.lt_irrefl _ hlong
  · exact Nat.one_ne_zero hstart.1
  · exact hmeet.2.2 List.length_replicate

end DiscoBSD.Klog
