import Mathlib
import DiscoBSD.Usb.Ep0

/-!
# A reply goes out packet by packet

What is left of a reply is in `in_ptr` and `in_zlp`, and its packets with those that were sent are all of them. **Each
packet waits for a completion of the one before**, so the reply is right as long as only the completions of its own
transfer are served.
-/

set_option autoImplicit false

namespace DiscoBSD.Usb

open DiscoBSD.Lib

/-! ## Chunks -/

theorem chunks_of_ne_nil {data : List UInt8} (h : data ≠ []) :
    chunks data = data.take usbPacketMax :: chunks (data.drop usbPacketMax) := by
  cases data with
  | nil => exact absurd rfl h
  | cons c cs => rw [chunks]

namespace Ep0

variable {s s' : Ep0}

/-- The packets that are left. -/
def left (s : Ep0) : List (List UInt8) := chunks s.in_ptr ++ if s.in_zlp then [[]] else []

/-- With the one that `usb_ep0_in_next` sends though nothing is left. -/
def toSend (s : Ep0) : List (List UInt8) := if s.in_ptr = [] then [[]] else s.left

theorem take_next (s : Ep0) : s.in_ptr.take s.next = s.in_ptr.take usbPacketMax := by
  unfold next
  split
  · rfl
  · next hsmall =>
    rw [List.take_length, List.take_of_length_le (Nat.le_of_not_lt hsmall)]

theorem drop_next (s : Ep0) : s.in_ptr.drop s.next = s.in_ptr.drop usbPacketMax := by
  unfold next
  split
  · rfl
  · next hsmall =>
    rw [List.drop_length, List.drop_eq_nil_of_le (Nat.le_of_not_lt hsmall)]

theorem in_next_in_ptr (s : Ep0) : s.usb_ep0_in_next.in_ptr = s.in_ptr.drop usbPacketMax := drop_next s

theorem in_next_sent (s : Ep0) :
    s.usb_ep0_in_next.sent = s.sent ++ [⟨s.in_ptr.take usbPacketMax, s.ep0_in_pid⟩] := by
  rw [← take_next]
  rfl

/-- A zero-length packet is owed until a packet is sent that is not full. -/
theorem in_next_zlp (s : Ep0) :
    s.usb_ep0_in_next.in_zlp = if s.in_ptr.length < usbPacketMax then false else s.in_zlp := by
  show (if (s.in_ptr.drop s.next).length = 0 ∧ s.next < usbPacketMax then false else s.in_zlp) = _
  refine if_congr ?_ rfl rfl
  rw [List.length_drop]
  unfold next
  split <;> omega

/-- **A packet is sent**, and the toggle is the other one. -/
theorem in_next_sends (hzlp : s.in_zlp = true → s.in_ptr.length % usbPacketMax = 0) :
    s.usb_ep0_in_next.sent ++ alternate (!s.ep0_in_pid) s.usb_ep0_in_next.left =
      s.sent ++ alternate s.ep0_in_pid s.toSend ∧
    (s.usb_ep0_in_next.in_zlp = true → s.usb_ep0_in_next.in_ptr.length % usbPacketMax = 0) := by
  have hsplit : s.in_ptr.take usbPacketMax :: s.usb_ep0_in_next.left = s.toSend ∧
      (s.usb_ep0_in_next.in_zlp = true → s.usb_ep0_in_next.in_ptr.length % usbPacketMax = 0) := by
    unfold left toSend
    rw [in_next_in_ptr, in_next_zlp]
    by_cases hnil : s.in_ptr = []
    · rw [hnil, if_pos rfl, List.drop_nil, chunks]
      exact ⟨rfl, by rintro ⟨⟩⟩
    · rw [if_neg hnil, left, chunks_of_ne_nil hnil]
      have hpos := List.length_pos_iff.mpr hnil
      by_cases hshort : s.in_ptr.length < usbPacketMax
      · -- a packet that is not full ends a reply, and nothing is owed
        have hnone : s.in_zlp = false := by
          refine Bool.eq_false_iff.mpr fun hz => ?_
          have hmod := hzlp hz
          rw [Nat.mod_eq_of_lt hshort] at hmod
          omega
        rw [if_pos hshort, hnone]
        exact ⟨rfl, by rintro ⟨⟩⟩
      · rw [if_neg hshort]
        refine ⟨rfl, fun hz => ?_⟩
        rw [List.length_drop, ← Nat.mod_eq_sub_mod (Nat.le_of_not_lt hshort)]
        exact hzlp hz
  refine ⟨?_, hsplit.2⟩
  rw [in_next_sent, ← hsplit.1, List.append_assoc]
  rfl

/-- What `usb_ep0_send` starts with are the packets of the reply. -/
theorem toSend_send (p : List UInt8) (w : ℕ) (hptr : s.in_ptr = p.take w)
    (hzlp : s.in_zlp = (decide ((p.take w).length < w) && decide ((p.take w).length % usbPacketMax = 0))) :
    alternate true s.toSend = packets p w := by
  unfold packets toSend left
  dsimp only
  rw [hptr, hzlp]
  refine congrArg (alternate true) ?_
  by_cases hw : w = 0
  · rw [hw, List.take_zero, if_pos rfl, if_pos rfl]
  · rw [if_neg hw]
    have hif : (if (decide ((p.take w).length < w) && decide ((p.take w).length % usbPacketMax = 0)) = true then
        [[]] else ([] : List (List UInt8))) =
        if (p.take w).length < w ∧ (p.take w).length % usbPacketMax = 0 then [[]] else [] := by
      refine if_congr ?_ rfl rfl
      rw [Bool.and_eq_true, decide_eq_true_iff, decide_eq_true_iff]
    by_cases hnil : p.take w = []
    · rw [if_pos hnil, hnil, chunks, if_pos ⟨Nat.pos_of_ne_zero hw, rfl⟩]
      rfl
    · rw [if_neg hnil, hif]

/-! ## The invariant -/

/-- The EP0 bits that the service has read and not served yet. -/
def Pc.inDone : Pc → Option ℕ
  | .epIn done _ => done
  | _ => none

def Pc.outDone : Pc → Option ℕ
  | .epIn _ done | .epOut done => done
  | _ => none

/-- No buffer belongs to a transfer that is still to come. -/
structure Tags (s : Ep0) : Prop where
  inOf : s.in_of ≤ s.xfer
  outOf : s.out_of ≤ s.xfer
  inDone : ∀ n ∈ s.in_done, n ≤ s.xfer
  outDone : ∀ n ∈ s.out_done, n ≤ s.xfer
  pcIn : ∀ n ∈ s.pc.inDone, n ≤ s.xfer
  pcOut : ∀ n ∈ s.pc.outDone, n ≤ s.xfer

/-- A reply is being sent: its packets are sent or left, the last one is with the controller or has been taken, and no
status has been asked for. -/
structure Sending (s : Ep0) : Prop where
  sends : ∃ r w, s.reply = some (r, w) ∧ s.sent ++ alternate s.ep0_in_pid s.left = packets r w
  count : s.sent.length = s.served + 1
  zlp : s.in_zlp = true → s.in_ptr.length % usbPacketMax = 0
  out : s.ctrl_out.avail = true → s.out_of ≠ s.xfer
  outDone : s.out_done ≠ some s.xfer
  pcOut : s.pc.outDone ≠ some s.xfer
  inDone : s.in_done = some s.xfer → s.ctrl_in.avail = true → s.in_of ≠ s.xfer
  pcIn : s.pc.inDone = some s.xfer → s.in_done ≠ some s.xfer ∧ (s.ctrl_in.avail = true → s.in_of ≠ s.xfer)

structure Inv (s : Ep0) : Prop where
  tags : s.Tags
  sending : s.stage = .inData → s.Sending
  finished : s.stage ≠ .inData → ∀ r w, s.reply = some (r, w) → s.sent = packets r w ∧ s.sent.length ≤ s.served + 1
  address : s.address ≠ 0 → ∃ p, s.asked = some p ∧ p.request = reqSetAddress ∧ p.wvalue = s.address
  rearmed : s.rearmed = false

theorem Inv.sound (h : s.Inv) : s.Sound := by
  refine ⟨fun r w hreply => ?_, h.rearmed⟩
  by_cases hstage : s.stage = .inData
  · obtain ⟨⟨r', w', hreply', hsends⟩, hcount⟩ := h.sending hstage
    rw [hreply] at hreply'
    cases hreply'
    rw [← hsends, List.take_left' hcount]
  · obtain ⟨hsent, hlen⟩ := h.finished hstage r w hreply
    rw [← hsent, List.take_of_length_le hlen]

/-- Only the place in the service changes, with what is pending of the other kinds. -/
theorem Inv.moves (h : s.Inv) (pc : Pc) (hin : pc.inDone = none)
    (hout : pc.outDone = none ∨ pc.outDone = s.pc.outDone) (bus_reset : Bool) (setup : Option Setup) :
    Inv { s with pc := pc, bus_reset := bus_reset, setup := setup } := by
  obtain ⟨htags, hsending, hfinished, haddress, hover⟩ := h
  refine ⟨⟨htags.inOf, htags.outOf, htags.inDone, htags.outDone, ?_, ?_⟩, fun hstage => ?_, hfinished, haddress, hover⟩
  · show ∀ n ∈ pc.inDone, n ≤ s.xfer
    rw [hin]
    nofun
  · show ∀ n ∈ pc.outDone, n ≤ s.xfer
    rcases hout with hout | hout
    · rw [hout]
      nofun
    · rw [hout]
      exact htags.pcOut
  · obtain ⟨sends, count, zlp, out, outDone, pcOut, inDone, pcIn⟩ := hsending hstage
    refine ⟨sends, count, zlp, out, outDone, ?_, inDone, fun hpc => ?_⟩
    · show pc.outDone ≠ some s.xfer
      rcases hout with hout | hout
      · rw [hout]
        nofun
      · rw [hout]
        exact pcOut
    · have hpc' : pc.inDone = some s.xfer := hpc
      rw [hin] at hpc'
      contradiction

/-! ## The steps of a transfer -/

/-- The next packet of a reply may go out: all before it have been taken, and `cs` are left. -/
structure Ready (s : Ep0) (cs : List (List UInt8)) : Prop where
  sends : ∃ r w, s.reply = some (r, w) ∧ s.sent ++ alternate s.ep0_in_pid cs = packets r w
  count : s.sent.length = s.served
  zlp : s.in_zlp = true → s.in_ptr.length % usbPacketMax = 0
  out : s.ctrl_out.avail = true → s.out_of ≠ s.xfer
  outDone : s.out_done ≠ some s.xfer
  pcOut : s.pc.outDone ≠ some s.xfer
  inDone : s.in_done ≠ some s.xfer
  pcIn : s.pc.inDone ≠ some s.xfer
  own : s.ctrl_in.avail = true → s.in_of ≠ s.xfer

theorem Ready.in_next (h : s.Ready s.toSend) (htags : s.Tags) (hstage : s.stage = .inData)
    (haddress : s.address ≠ 0 → ∃ p, s.asked = some p ∧ p.request = reqSetAddress ∧ p.wvalue = s.address)
    (hover : s.rearmed = false) : s.usb_ep0_in_next.Inv := by
  obtain ⟨⟨r, w, hreply, hsends⟩, count, zlp, out, outDone, pcOut, inDone, pcIn, own⟩ := h
  obtain ⟨hnext, hzlp⟩ := in_next_sends zlp
  have hlen : s.usb_ep0_in_next.sent.length = s.served + 1 := by
    rw [in_next_sent, List.length_append, count]
    rfl
  refine ⟨⟨Nat.le_refl _, htags.outOf, htags.inDone, htags.outDone, htags.pcIn, htags.pcOut⟩,
    fun _ => ⟨⟨r, w, hreply, hnext.trans hsends⟩, hlen, hzlp, out, outDone, pcOut,
      fun hdone => absurd hdone inDone, fun hdone => absurd hdone pcIn⟩,
    fun hne => absurd hstage hne, haddress, ?_⟩
  show (s.rearmed || (s.ctrl_in.avail && decide (s.in_of = s.xfer))) = false
  rw [hover, Bool.false_or, Bool.and_eq_false_iff]
  by_cases havail : s.ctrl_in.avail = true
  · exact .inr (decide_eq_false (own havail))
  · exact .inl (Bool.eq_false_iff.mpr havail)

/-- Another stage than the data stage, of a transfer whose reply has gone out. -/
theorem Inv.leaves (htags : s.Tags) (hstage : s.stage ≠ .inData)
    (hfinished : ∀ r w, s.reply = some (r, w) → s.sent = packets r w ∧ s.sent.length ≤ s.served + 1)
    (haddress : s.address ≠ 0 → ∃ p, s.asked = some p ∧ p.request = reqSetAddress ∧ p.wvalue = s.address)
    (hover : s.rearmed = false) : s.Inv :=
  ⟨htags, fun h => absurd h hstage, fun _ => hfinished, haddress, hover⟩

/-- The stage goes on after a packet of the reply. -/
theorem Ready.goes (h : s.Ready s.left) (htags : s.Tags) (hstage : s.stage = .inData) (haddress : s.address = 0)
    (hover : s.rearmed = false) : s.goes.Inv := by
  have hnone : s.address ≠ 0 → ∃ p, s.asked = some p ∧ p.request = reqSetAddress ∧ p.wvalue = s.address :=
    fun hne => absurd haddress hne
  unfold Ep0.goes
  rw [hstage]
  dsimp only
  by_cases hmore : s.in_ptr.length ≠ 0
  · rw [if_pos hmore]
    have hto : s.toSend = s.left := if_neg fun hnil => hmore (by rw [hnil]; rfl)
    rw [← hto] at h
    exact h.in_next htags hstage hnone hover
  rw [if_neg hmore]
  obtain ⟨⟨r, w, hreply, hsends⟩, count, zlp, out, outDone, pcOut, inDone, pcIn, own⟩ := h
  have hnil : s.in_ptr = [] := List.length_eq_zero_iff.mp (not_not.mp hmore)
  unfold left at hsends
  rw [hnil, chunks, List.nil_append] at hsends
  by_cases howed : s.in_zlp = true
  · rw [if_pos howed] at hsends
    rw [if_pos howed]
    have hready : Ready { s with stage := .inData, in_zlp := false } [[]] :=
      ⟨⟨r, w, hreply, hsends⟩, count, by rintro ⟨⟩, out, outDone, pcOut, inDone, pcIn, own⟩
    have hto : toSend { s with stage := .inData, in_zlp := false } = [[]] := if_pos hnil
    rw [← hto] at hready
    exact hready.in_next ⟨htags.inOf, htags.outOf, htags.inDone, htags.outDone, htags.pcIn, htags.pcOut⟩ rfl hnone
      hover
  · rw [if_neg howed, alternate, List.append_nil] at hsends
    rw [if_neg howed]
    refine Inv.leaves ⟨htags.inOf, Nat.le_refl _, htags.inDone, htags.outDone, htags.pcIn, htags.pcOut⟩ (by rintro ⟨⟩) ?_ hnone
      hover
    intro r' w' hreply'
    have hsame : some (r, w) = some (r', w') := hreply.symm.trans hreply'
    cases hsame
    exact ⟨hsends, Nat.le_succ_of_le (Nat.le_of_eq count)⟩

/-- **An IN completion of this transfer is served.** -/
theorem Inv.goes (h : s.Inv) (hpc : s.pc.inDone = none)
    (hown : s.stage = .inData → s.in_done ≠ some s.xfer ∧ (s.ctrl_in.avail = true → s.in_of ≠ s.xfer)) :
    (s.taken s.xfer).goes.Inv := by
  obtain ⟨htags, hsending, hfinished, haddress, hover⟩ := h
  have hserved : (s.taken s.xfer).served = s.served + 1 := if_pos rfl
  have htags' : (s.taken s.xfer).Tags :=
    ⟨htags.inOf, htags.outOf, htags.inDone, htags.outDone, htags.pcIn, htags.pcOut⟩
  by_cases hstage : s.stage = .inData
  · obtain ⟨hdone, hown⟩ := hown hstage
    obtain ⟨sends, count, zlp, out, outDone, pcOut, inDone, -⟩ := hsending hstage
    have hpc' : s.pc.inDone ≠ some s.xfer := by
      rw [hpc]
      nofun
    have hready : (s.taken s.xfer).Ready (s.taken s.xfer).left :=
      ⟨sends, count.trans hserved.symm, zlp, out, outDone, pcOut, hdone, hpc', hown⟩
    exact hready.goes htags' hstage rfl hover
  · have hgoes : (s.taken s.xfer).goes = { s.taken s.xfer with stage := .idle } := by
      unfold Ep0.goes
      have hsame : (s.taken s.xfer).stage = s.stage := rfl
      rw [hsame]
      cases hs : s.stage with
      | inData => exact absurd hs hstage
      | idle | inStatus | outData | outStatus => rfl
    rw [hgoes]
    refine Inv.leaves ⟨htags.inOf, htags.outOf, htags.inDone, htags.outDone, htags.pcIn, htags.pcOut⟩ nofun
      (fun r w hreply => ?_) nofun hover
    obtain ⟨hsent, hlen⟩ := hfinished hstage r w hreply
    refine ⟨hsent, ?_⟩
    show s.sent.length ≤ (s.taken s.xfer).served + 1
    rw [hserved]
    exact Nat.le_succ_of_le hlen

/-- An OUT completion of this transfer is served. -/
theorem Inv.outDone (h : s.Inv) (hstage : s.stage ≠ .inData) : s.outDone.Inv := by
  obtain ⟨htags, hsending, hfinished, haddress, hover⟩ := h
  have hfinished := hfinished hstage
  have hidle : Inv { s with stage := .idle } :=
    .leaves ⟨htags.inOf, htags.outOf, htags.inDone, htags.outDone, htags.pcIn, htags.pcOut⟩ nofun hfinished haddress
      hover
  unfold Ep0.outDone
  cases hs : s.stage with
  | outData =>
    dsimp only
    split
    · exact .leaves ⟨htags.inOf, htags.outOf, htags.inDone, htags.outDone, htags.pcIn, htags.pcOut⟩ nofun hfinished
        haddress hover
    · exact .leaves ⟨Nat.le_refl _, htags.outOf, htags.inDone, htags.outDone, htags.pcIn, htags.pcOut⟩ nofun hfinished
        haddress hover
  | inData => exact absurd hs hstage
  | idle | inStatus | outStatus => exact hidle

/-! ## A new transfer -/

/-- The state in which `usb_setup` looks at the request. -/
def begun (p : Setup) (s : Ep0) : Ep0 :=
  { s with
    ep0_in_pid := true, stage := .idle
    xfer := s.xfer + 1, asked := some p, reply := none, sent := [], served := 0 }

theorem Tags.begun (h : s.Tags) (p : Setup) : (s.begun p).Tags :=
  ⟨Nat.le_succ_of_le h.inOf, Nat.le_succ_of_le h.outOf, fun n hn => Nat.le_succ_of_le (h.inDone n hn),
    fun n hn => Nat.le_succ_of_le (h.outDone n hn), fun n hn => Nat.le_succ_of_le (h.pcIn n hn),
    fun n hn => Nat.le_succ_of_le (h.pcOut n hn)⟩

/-- A buffer of an earlier transfer is none of the next one's. -/
theorem ne_of_le {o : Option ℕ} {x : ℕ} (h : ∀ n ∈ o, n ≤ x) : o ≠ some (x + 1) := by
  rintro rfl
  exact absurd (h _ rfl) (Nat.not_succ_le_self x)

/-- `SET_ADDRESS` is what it takes to set an address. -/
theorem standard_setAddress {configured : Bool} {p : Setup} {a : ℕ} (h : standard configured p = .setAddress a) :
    p.request = reqSetAddress ∧ p.wvalue = a := by
  have hstring : ∀ i, usb_string_desc i ≠ .setAddress a := by
    intro i
    unfold usb_string_desc
    dsimp only
    split
    · nofun
    · split <;> nofun
  unfold standard at h
  by_cases hdesc : p.request = reqGetDescriptor
  · rw [if_pos hdesc] at h
    split at h
    · contradiction
    · split at h
      · contradiction
      · split at h
        · contradiction
        · split at h
          · exact absurd h (hstring _)
          · split at h <;> contradiction
  rw [if_neg hdesc] at h
  by_cases hset : p.request = reqSetAddress
  · rw [if_pos hset] at h
    split at h
    · contradiction
    · cases h
      exact ⟨hset, rfl⟩
  rw [if_neg hset] at h
  repeat' split at h
  all_goals contradiction

theorem answer_setAddress {configured : Bool} {line_coding : List UInt8} {p : Setup} {a : ℕ}
    (h : answer configured line_coding p = .setAddress a) : p.request = reqSetAddress ∧ p.wvalue = a := by
  unfold answer at h
  split at h
  · exact standard_setAddress h
  · split at h
    · contradiction
    · split at h
      · split at h <;> contradiction
      · split at h
        · unfold cdc at h
          repeat' split at h
          all_goals contradiction
        · contradiction

/-- The first packet of a reply. -/
theorem send_inv (htags : s.Tags) (haddress : s.address = 0) (hover : s.rearmed = false) (p : Setup) (bytes : List UInt8)
    (w : ℕ) : ((s.begun p).usb_ep0_send bytes w).Inv := by
  have htake : bytes.take (if bytes.length > w then w else bytes.length) = bytes.take w := by
    split
    · rfl
    · next hshort =>
      rw [List.take_length, List.take_of_length_le (Nat.le_of_not_lt hshort)]
  have hlen : (if bytes.length > w then w else bytes.length) = (bytes.take w).length := by
    rw [List.length_take]
    split <;> omega
  have hbegun := htags.begun p
  have hlate : ∀ {n}, n ≤ s.xfer → n ≠ s.xfer + 1 := fun hle heq => absurd (heq ▸ hle) (Nat.not_succ_le_self _)
  obtain ⟨t, ht⟩ : ∃ t, t = { s.begun p with
      in_ptr := bytes.take (if bytes.length > w then w else bytes.length)
      in_zlp := (if bytes.length > w then w else bytes.length) < w &&
        (if bytes.length > w then w else bytes.length) % usbPacketMax = 0
      stage := .inData, reply := some (bytes, w) } := ⟨_, rfl⟩
  have hptr : t.in_ptr = bytes.take w := by
    rw [ht]
    exact htake
  have hzlp : t.in_zlp = (decide ((bytes.take w).length < w) && decide ((bytes.take w).length % usbPacketMax = 0)) := by
    rw [ht, ← hlen]
  have hsends := toSend_send bytes w hptr hzlp
  have hready : t.Ready t.toSend := by
    refine ⟨⟨bytes, w, by rw [ht], ?_⟩, by rw [ht]; rfl, fun hz => ?_, ?_, ?_, ?_, ?_, ?_, ?_⟩
    · have hpid : t.ep0_in_pid = true := by
        rw [ht]
        rfl
      have hsent : t.sent = [] := by
        rw [ht]
        rfl
      rw [hpid, hsent, hsends]
      rfl
    · rw [hzlp, Bool.and_eq_true, decide_eq_true_iff, decide_eq_true_iff] at hz
      rw [hptr]
      exact hz.2
    · rw [ht]
      exact fun _ => hlate htags.outOf
    · rw [ht]
      exact ne_of_le htags.outDone
    · rw [ht]
      exact ne_of_le htags.pcOut
    · rw [ht]
      exact ne_of_le htags.inDone
    · rw [ht]
      exact ne_of_le htags.pcIn
    · rw [ht]
      exact fun _ => hlate htags.inOf
  have hinv : t.usb_ep0_in_next.Inv := by
    refine hready.in_next ?_ ?_ ?_ ?_
    · rw [ht]
      exact ⟨hbegun.inOf, hbegun.outOf, hbegun.inDone, hbegun.outDone, hbegun.pcIn, hbegun.pcOut⟩
    · rw [ht]
    · rw [ht]
      exact fun hne => absurd haddress hne
    · rw [ht]
      exact hover
  rw [ht] at hinv
  exact hinv

/-- **A SETUP is served**, with no address pending from before. -/
theorem setup_inv {p : Setup} (h : s.Inv) (hsafe : s.SafeSetup p) (hs' : s.usb_setup p = some s') : s'.Inv := by
  obtain ⟨htags, hsending, hfinished, haddress, hover⟩ := h
  have hbegun := htags.begun p
  have hlater : ∀ {t : Ep0}, t.Tags → t.stage ≠ .inData → t.reply = none → t.address = 0 → t.rearmed = false → t.Inv := by
    intro t ht hstage hreply haddr hov
    refine .leaves ht hstage (fun r w hsome => ?_) (fun hne => absurd haddr hne) hov
    exact absurd (hreply.symm.trans hsome) nofun
  unfold SafeSetup at hsafe
  unfold usb_setup at hs'
  dsimp only at hs'
  cases hanswer : answer s.configured s.line_coding p with
  | send bytes =>
    rw [hanswer] at hs' hsafe
    have hsafe := hsafe rfl
    cases hs'
    exact send_inv htags hsafe hover p bytes p.wlength
  | ack =>
    rw [hanswer] at hs' hsafe
    have hsafe := hsafe rfl
    cases hs'
    exact hlater ⟨Nat.le_refl _, hbegun.outOf, hbegun.inDone, hbegun.outDone, hbegun.pcIn, hbegun.pcOut⟩ nofun rfl hsafe
      hover
  | setAddress a =>
    rw [hanswer] at hs'
    cases hs'
    refine .leaves ⟨Nat.le_refl _, hbegun.outOf, hbegun.inDone, hbegun.outDone, hbegun.pcIn, hbegun.pcOut⟩ nofun nofun
      (fun _ => ⟨p, rfl, answer_setAddress hanswer⟩) hover
  | configure on =>
    rw [hanswer] at hs' hsafe
    have hsafe := hsafe rfl
    cases hs'
    exact hlater ⟨Nat.le_refl _, hbegun.outOf, hbegun.inDone, hbegun.outDone, hbegun.pcIn, hbegun.pcOut⟩ nofun rfl hsafe
      hover
  | outData =>
    rw [hanswer] at hs' hsafe
    have hsafe := hsafe rfl
    cases hs'
    exact hlater ⟨hbegun.inOf, Nat.le_refl _, hbegun.inDone, hbegun.outDone, hbegun.pcIn, hbegun.pcOut⟩ nofun rfl hsafe
      hover
  | stall =>
    rw [hanswer] at hs' hsafe
    have hsafe := hsafe rfl
    cases hs'
    exact hlater ⟨hbegun.inOf, hbegun.outOf, hbegun.inDone, hbegun.outDone, hbegun.pcIn, hbegun.pcOut⟩ nofun rfl hsafe
      hover
  | reset =>
    rw [hanswer] at hs'
    contradiction

theorem busReset_inv (h : s.Inv) : s.busReset.Inv := by
  obtain ⟨htags, -, -, -, hover⟩ := h
  have hbegun := htags.begun fun _ => 0
  exact .leaves ⟨hbegun.inOf, hbegun.outOf, hbegun.inDone, hbegun.outDone, hbegun.pcIn, hbegun.pcOut⟩ nofun nofun nofun
    hover

/-! ## The controller and the service -/

theorem completeIn_inv (h : s.Inv) (havail : s.ctrl_in.avail = true) : s.completeIn.Inv := by
  obtain ⟨htags, hsending, hfinished, haddress, hover⟩ := h
  refine ⟨⟨htags.inOf, htags.outOf, fun n hn => ?_, htags.outDone, htags.pcIn, htags.pcOut⟩, fun hstage => ?_, hfinished,
    haddress, hover⟩
  · cases hn
    exact htags.inOf
  · obtain ⟨sends, count, zlp, out, outDone, pcOut, inDone, pcIn⟩ := hsending hstage
    refine ⟨sends, count, zlp, out, outDone, pcOut, nofun, fun hpc => ⟨fun hdone => ?_, nofun⟩⟩
    exact (pcIn hpc).2 havail (Option.some.inj hdone)

theorem completeOut_inv (h : s.Inv) (havail : s.ctrl_out.avail = true) (bytes : List UInt8) :
    (s.completeOut bytes).Inv := by
  obtain ⟨htags, hsending, hfinished, haddress, hover⟩ := h
  refine ⟨⟨htags.inOf, htags.outOf, htags.inDone, fun n hn => ?_, htags.pcIn, htags.pcOut⟩, fun hstage => ?_, hfinished,
    haddress, hover⟩
  · cases hn
    exact htags.outOf
  · obtain ⟨sends, count, zlp, out, outDone, pcOut, inDone, pcIn⟩ := hsending hstage
    exact ⟨sends, count, zlp, nofun, fun hdone => out havail (Option.some.inj hdone), pcOut, inDone, pcIn⟩

/-- The stage does not go on with the place in the service. -/
theorem goes_moves (s : Ep0) (of : ℕ) (pc : Pc) :
    { (s.taken of).goes with pc := pc } = (taken of { s with pc := pc }).goes := by
  have hstage : (taken of { s with pc := pc }).stage = (s.taken of).stage := rfl
  unfold Ep0.goes
  rw [hstage]
  cases (s.taken of).stage with
  | inData =>
    dsimp only
    by_cases hmore : (s.taken of).in_ptr.length ≠ 0
    · rw [if_pos hmore]
      exact (if_pos hmore).symm
    · rw [if_neg hmore]
      refine Eq.trans ?_ (if_neg hmore).symm
      by_cases howed : (s.taken of).in_zlp = true
      · rw [if_pos howed]
        exact (if_pos howed).symm
      · rw [if_neg howed]
        exact (if_neg howed).symm
  | idle | inStatus | outData | outStatus => rfl

/-- Nothing is in progress, and a completion changes nothing. -/
theorem goes_idle (hstage : s.stage = .idle) (haddress : s.address = 0) {of : ℕ} (hof : of ≠ s.xfer) :
    (s.taken of).goes = s := by
  have hsame : (s.taken of).stage = .idle := hstage
  unfold Ep0.goes
  rw [hsame]
  dsimp only
  unfold taken
  rw [if_neg hof, haddress, if_neg (not_not.mpr rfl), ← haddress, ← hstage]

theorem status_inv (h : s.Inv) : Inv { s with in_done := none, out_done := none, pc := .epIn s.in_done s.out_done } := by
  obtain ⟨htags, hsending, hfinished, haddress, hover⟩ := h
  refine ⟨⟨htags.inOf, htags.outOf, nofun, nofun, htags.inDone, htags.outDone⟩, fun hstage => ?_, hfinished, haddress,
    hover⟩
  obtain ⟨sends, count, zlp, out, outDone, pcOut, inDone, pcIn⟩ := hsending hstage
  exact ⟨sends, count, zlp, out, nofun, outDone, nofun, fun hdone => ⟨nofun, inDone hdone⟩⟩

/-- **A step of the service** that is safe. -/
theorem service_inv (h : s.Inv) {other : Bool} (hsafe : s.SafeAt s.pc) (hs' : s.usb_service other = some s') :
    s'.Inv := by
  unfold usb_service at hs'
  cases hpc : s.pc with
  | out =>
    rw [hpc] at hs'
    cases hs'
    exact h.moves (.reset s.bus_reset s.setup.isSome (s.in_done.isSome || s.out_done.isSome || other)) rfl (.inl rfl)
      s.bus_reset s.setup
  | reset bus_reset setup buff =>
    rw [hpc] at hs'
    cases hs'
    cases bus_reset with
    | false => exact h.moves (.setup setup buff) rfl (.inl rfl) s.bus_reset s.setup
    | true => exact (busReset_inv h).moves (.setup setup buff) rfl (.inl rfl) false s.setup
  | setup setup buff =>
    have hnext : ∀ {t : Ep0}, t.Inv → Inv { t with pc := if buff then .status else .out } := by
      intro t ht
      cases buff with
      | false => exact ht.moves .out rfl (.inl rfl) t.bus_reset t.setup
      | true => exact ht.moves .status rfl (.inl rfl) t.bus_reset t.setup
    rw [hpc] at hs' hsafe
    dsimp only at hs'
    split at hs'
    · next p hsetup =>
      obtain ⟨t, ht, hs'⟩ := Option.map_eq_some_iff.mp hs'
      rw [← hs']
      have hcleared := h.moves (.setup true buff) rfl (.inl rfl) s.bus_reset none
      exact hnext (setup_inv hcleared (hsafe rfl p hsetup) ht)
    · cases hs'
      exact hnext h
  | status =>
    rw [hpc] at hs'
    cases hs'
    exact status_inv h
  | epIn done outDone =>
    have hout : (Pc.epOut outDone).outDone = s.pc.outDone := by
      rw [hpc]
      rfl
    have hmoved := h.moves (.epOut outDone) rfl (.inr hout) s.bus_reset s.setup
    rw [hpc] at hs' hsafe
    cases hs'
    cases done with
    | none => exact hmoved
    | some of =>
      by_cases hof : of = s.xfer
      · rw [goes_moves]
        rw [hof] at hpc ⊢
        refine hmoved.goes rfl fun hstage => ?_
        exact (h.sending hstage).pcIn (by rw [hpc]; rfl)
      · obtain ⟨hidle, hzero⟩ := (hsafe of rfl).resolve_left hof
        dsimp only
        rw [goes_idle hidle hzero hof]
        exact hmoved
  | epOut done =>
    rw [hpc] at hs' hsafe
    cases hs'
    cases done with
    | none => exact h.moves .out rfl (.inl rfl) s.bus_reset s.setup
    | some of =>
      have hstage : s.stage ≠ .inData := by
        intro hdata
        rcases hsafe of rfl with hof | hidle
        · exact (h.sending hdata).pcOut (by rw [hpc, ← hof]; rfl)
        · rw [hdata] at hidle
          contradiction
      exact (h.outDone hstage).moves .out rfl (.inl rfl) s.outDone.bus_reset s.outDone.setup

theorem outDone_idle (hstage : s.stage = .idle) : s.outDone = s := by
  unfold Ep0.outDone
  rw [hstage]
  dsimp only
  rw [← hstage]

theorem goes_addr_endp (s : Ep0) : s.goes.addr_endp = s.addr_endp := by
  unfold Ep0.goes
  cases s.stage with
  | inData =>
    dsimp only
    split
    · rfl
    · split <;> rfl
  | idle | inStatus | outData | outStatus => rfl

theorem outDone_addr_endp (s : Ep0) : s.outDone.addr_endp = s.addr_endp := by
  unfold Ep0.outDone
  cases s.stage with
  | outData =>
    dsimp only
    split <;> rfl
  | inData | idle | inStatus | outStatus => rfl

theorem setup_addr_endp {p : Setup} (hs' : s.usb_setup p = some s') : s'.addr_endp = s.addr_endp := by
  unfold usb_setup at hs'
  dsimp only at hs'
  split at hs' <;> cases hs' <;> rfl

/-- Nothing about EP0 goes on. -/
theorem Keeps.of_progress (hprogress : s'.progress = s.progress) : Keeps s s' :=
  ⟨fun _ _ _ _ => hprogress, fun _ _ _ => hprogress, fun hne => absurd (congrArg (·.2.2.2.2.1) hprogress) hne⟩

/-- **What a safe step does** with the completions of others, and with an address. -/
theorem service_keeps (h : s.Inv) {other : Bool} (hsafe : s.SafeAt s.pc) (hs' : s.usb_service other = some s') :
    Keeps s s' := by
  unfold usb_service at hs'
  cases hpc : s.pc with
  | out =>
    rw [hpc] at hs'
    cases hs'
    exact .of_progress rfl
  | reset bus_reset setup buff =>
    rw [hpc] at hs'
    cases hs'
    cases bus_reset with
    | false => exact .of_progress rfl
    | true =>
      refine ⟨fun _ _ hin => ?_, fun _ hout => ?_, fun _ hne => absurd rfl hne⟩
      · exact absurd (hpc.symm.trans hin) nofun
      · exact absurd (hpc.symm.trans hout) nofun
  | setup setup buff =>
    rw [hpc] at hs'
    refine ⟨fun _ _ hin => ?_, fun _ hout => ?_, fun hne => ?_⟩
    · exact absurd (hpc.symm.trans hin) nofun
    · exact absurd (hpc.symm.trans hout) nofun
    · refine absurd ?_ hne
      dsimp only at hs'
      split at hs'
      · obtain ⟨t, ht, hs'⟩ := Option.map_eq_some_iff.mp hs'
        have hsame := setup_addr_endp ht
        rw [← hs']
        exact hsame
      · cases hs'
        rfl
  | status =>
    rw [hpc] at hs'
    cases hs'
    exact .of_progress rfl
  | epIn done outDone =>
    have hpc' := hpc
    rw [hpc] at hs' hsafe
    cases hs'
    cases done with
    | none => exact .of_progress rfl
    | some of =>
      by_cases hof : of = s.xfer
      · refine ⟨fun of' out hin hne => ?_, fun _ hout => ?_, fun hne hnz => ?_⟩
        · have hsame := hpc.symm.trans hin
          cases hsame
          exact absurd hof hne
        · exact absurd (hpc.symm.trans hout) nofun
        · have haddr : (s.taken of).goes.addr_endp = if s.address ≠ 0 then s.address else s.addr_endp :=
            goes_addr_endp _
          have hset : s.address ≠ 0 := by
            intro hzero
            rw [if_neg (not_not.mpr hzero)] at haddr
            exact hne haddr
          rw [if_pos hset] at haddr
          obtain ⟨p, hasked, hrequest, hvalue⟩ := h.address hset
          exact ⟨outDone, p, by rw [hpc, hof], hasked, hrequest, hvalue.trans haddr.symm⟩
      · obtain ⟨hidle, hzero⟩ := (hsafe of rfl).resolve_left hof
        dsimp only
        rw [goes_idle hidle hzero hof]
        exact .of_progress rfl
  | epOut done =>
    rw [hpc] at hs' hsafe
    cases hs'
    cases done with
    | none => exact .of_progress rfl
    | some of =>
      refine ⟨fun _ _ hin => ?_, fun of' hout hne => ?_, fun hne => absurd (outDone_addr_endp s) hne⟩
      · exact absurd (hpc.symm.trans hin) nofun
      · have hsame := hpc.symm.trans hout
        cases hsame
        have hidle := (hsafe of rfl).resolve_left hne
        show s.outDone.progress = s.progress
        rw [outDone_idle hidle]

/-- What is pending is no part of the transfer. -/
theorem pending_inv (h : s.Inv) (bus_reset : Bool) (setup : Option Setup) :
    Inv { s with bus_reset := bus_reset, setup := setup } := by
  obtain ⟨htags, hsending, hfinished, haddress, hover⟩ := h
  refine ⟨⟨htags.inOf, htags.outOf, htags.inDone, htags.outDone, htags.pcIn, htags.pcOut⟩, fun hstage => ?_, hfinished,
    haddress, hover⟩
  obtain ⟨sends, count, zlp, out, outDone, pcOut, inDone, pcIn⟩ := hsending hstage
  exact ⟨sends, count, zlp, out, outDone, pcOut, inDone, pcIn⟩

theorem step_inv {e : Event} (h : s.Inv) (hstep : s.step e = some s') (hsafe : s.Safe e) :
    s'.Inv ∧ Keeps s s' := by
  cases e with
  | service other => exact ⟨service_inv h hsafe hstep, service_keeps h hsafe hstep⟩
  | completeIn =>
    rw [step] at hstep
    by_cases havail : s.ctrl_in.avail = true
    · rw [if_pos havail] at hstep
      cases hstep
      exact ⟨completeIn_inv h havail, .of_progress rfl⟩
    · rw [if_neg havail] at hstep
      contradiction
  | completeOut bytes =>
    rw [step] at hstep
    by_cases havail : s.ctrl_out.avail = true
    · rw [if_pos havail] at hstep
      cases hstep
      exact ⟨completeOut_inv h havail bytes, .of_progress rfl⟩
    · rw [if_neg havail] at hstep
      contradiction
  | setup p =>
    cases hstep
    exact ⟨pending_inv h s.bus_reset (some p), .of_progress rfl⟩
  | busReset =>
    cases hstep
    exact ⟨pending_inv h true s.setup, .of_progress rfl⟩

theorem init_inv : Ep0.init.Inv :=
  .leaves ⟨Nat.le_refl _, Nat.le_refl _, nofun, nofun, nofun, nofun⟩ nofun nofun (fun hne => absurd rfl hne) rfl

/-- A step that is safe keeps what is claimed of it. -/
theorem each_fair {es : List Event} (h : s.Inv) (hsafe : Each step Safe s es) : Each step Fair s es := by
  induction es generalizing s with
  | nil => trivial
  | cons e es ih =>
    intro s' hs
    obtain ⟨hnow, hrest⟩ := hsafe s' hs
    refine ⟨fun s₁ hs₁ => (step_inv h hs₁ hnow).2, ih (step_inv h hs hnow).1 hrest⟩

/-- **The control transfers**, in a run that serves the completions of the present transfer only, and no SETUP while an
address is pending. -/
theorem transfers_sound (es : List Event) (hsafe : Each step Safe Ep0.init es) :
    Always step Sound Ep0.init es ∧ Each step Fair Ep0.init es :=
  ⟨always_of_each (fun _ h => h.sound) (fun _ _ _ h hstep hsafe => (step_inv h hstep hsafe).1) init_inv hsafe,
    each_fair init_inv hsafe⟩

/-- Passes of the service with nothing else between their steps. -/
def services (n : ℕ) : List Event := List.replicate n (.service false)

def getDevice : Setup := .ofBytes [0x80, 6, 0, 1, 0, 0, 18, 0]
def getConfiguration : Setup := .ofBytes [0x80, 6, 0, 2, 0, 0, 255, 0]

/-- An enumeration: the device descriptor, an address, and the configuration descriptor in two packets. -/
theorem transfers_sound_enumeration :
    let es := [.setup getDevice] ++ services 3 ++ [.completeIn] ++ services 6 ++ [.completeOut []] ++ services 6 ++
      [.setup (.ofBytes [0, 5, 7, 0, 0, 0, 0, 0])] ++ services 3 ++ [.completeIn] ++ services 6 ++
      [.setup getConfiguration] ++ services 3 ++ [.completeIn] ++ services 6 ++ [.completeIn] ++ services 6
    Always step Sound Ep0.init es ∧ Each step Fair Ep0.init es :=
  transfers_sound _ (by decide +kernel)

/-- The status of one transfer and the SETUP of the next are seen in the same pass: the completion makes the stage idle,
and the second packet of the configuration descriptor is not sent. -/
theorem reply_cut_short : ¬ Always step Sound Ep0.init ([.setup getDevice] ++ services 3 ++ [.completeIn] ++
    services 6 ++ [.completeOut [], .setup getConfiguration] ++ services 6 ++ [.completeIn] ++ services 6) := by
  intro halways
  have hends : (runOn step Ep0.init ([.setup getDevice] ++ services 3 ++ [.completeIn] ++
      services 6 ++ [.completeOut [], .setup getConfiguration] ++ services 6 ++ [.completeIn] ++ services 6)).map
        (fun s => (s.reply, s.sent.length, s.served)) = some (some (usb_config_desc, 255), 1, 1) := by
    decide +kernel
  obtain ⟨s, hrun, hends⟩ := Option.map_eq_some_iff.mp hends
  simp only [Prod.mk.injEq] at hends
  obtain ⟨hreply, hsent, hserved⟩ := hends
  have hlen := congrArg List.length ((halways.runOn hrun).reply _ _ hreply)
  have htwo : (packets usb_config_desc 255).length = 2 := by decide +kernel
  rw [hsent, hserved, List.length_take, htwo] at hlen
  contradiction

end Ep0

end DiscoBSD.Usb
