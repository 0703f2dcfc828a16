import DiscoBSD.Swap.System
import DiscoBSD.Swapram.PoolInv

/-!
# What each routine does

One lemma per routine of the tier: from a call that returned, everything that happened. The proofs
about runs use these and do not open the routines again.

The codec workspace is taken and given back inside a routine that does not sleep, so `sr_encode` and
`sr_expand` **leave the kernel as they found it**; what remains of the workspace in their callers is that
it was free.
-/

set_option autoImplicit false

namespace DiscoBSD.Swap

open DiscoBSD.Lib DiscoBSD.Rmap DiscoBSD.Hsx DiscoBSD.Swapram

section
variable {cfg : Conf} {σ σ' : Kernel} {p : Slot}

/-! ## The codec workspace -/

theorem swapramCodecAcquire_ok {owner : Codec} (h : swapramCodecAcquire σ owner = .ok σ') :
    σ.sr_codec_owner = none ∧ σ' = { σ with sr_codec_owner := some owner } := by
  unfold swapramCodecAcquire at h
  split at h
  · cases h
  · rename_i hfree
    exact ⟨of_not_not hfree, (Except.ok.inj h).symm⟩

theorem swapramCodecRelease_ok {owner : Codec} (h : swapramCodecRelease σ owner = .ok σ') :
    σ.sr_codec_owner = some owner ∧ σ' = { σ with sr_codec_owner := none } := by
  unfold swapramCodecRelease at h
  split at h
  · cases h
  · rename_i hown
    exact ⟨of_not_not hown, (Except.ok.inj h).symm⟩

theorem swapramCodecAcquire_of_free (owner : Codec) (h : σ.sr_codec_owner = none) :
    swapramCodecAcquire σ owner = .ok { σ with sr_codec_owner := some owner } := by
  rw [swapramCodecAcquire, if_neg (fun hne => hne h)]

theorem owner_self (h : σ.sr_codec_owner = none) : { σ with sr_codec_owner := none } = σ := by
  cases σ
  cases h
  rfl

/-- The stream `sr_encode` leaves, if any. -/
def encoded (cfg : Conf) (src : List UInt8) (cap : Option Nat) : Option (List UInt8) :=
  (cfg.encode src).filter fun bytes => cap.all fun c => decide (bytes.length ≤ c)

theorem encoded_some {src bytes : List UInt8} {cap : Option Nat}
    (h : encoded cfg src cap = some bytes) :
    cfg.encode src = some bytes ∧ ∀ c, cap = some c → bytes.length ≤ c := by
  obtain ⟨henc, hcap⟩ := Option.filter_eq_some_iff.mp h
  refine ⟨henc, ?_⟩
  rintro c rfl
  simpa using hcap

/-- What `sr_expand` leaves at its destination. -/
def expanded (σ : Kernel) (off clen rlen : Nat) : List UInt8 :=
  let d := hsxDecInput (hsxDecInit lookaheadBits) (readAt σ.sr_pool off clen)
  let r := hsxDecRun d (fun _ => 0) (2 ^ 32 - 1) rlen
  readAt r.2.2 0 r.1

theorem srEncode_of_free {src : List UInt8} {cap : Option Nat} (h : σ.sr_codec_owner = none) :
    srEncode cfg σ src cap = .ok (encoded cfg src cap, σ) := by
  simp only [srEncode, swapramCodecAcquire_of_free _ h, swapramCodecRelease, bind, Except.bind, pure,
    Except.pure, ne_eq, not_true_eq_false, if_false, owner_self h]
  rfl

theorem srEncode_ok {src : List UInt8} {cap : Option Nat} {r : Option (List UInt8)}
    (h : srEncode cfg σ src cap = .ok (r, σ')) :
    σ.sr_codec_owner = none ∧ r = encoded cfg src cap ∧ σ' = σ := by
  obtain ⟨σ₁, hacq, _⟩ := bind_ok h
  have hfree := (swapramCodecAcquire_ok hacq).1
  rw [srEncode_of_free hfree] at h
  cases h
  exact ⟨hfree, rfl, rfl⟩

theorem srExpand_of_free {off clen rlen : Nat} (h : σ.sr_codec_owner = none) :
    srExpand σ off clen rlen = .ok (expanded σ off clen rlen, σ) := by
  simp only [srExpand, swapramCodecAcquire_of_free _ h, swapramCodecRelease, bind, Except.bind, pure,
    Except.pure, ne_eq, not_true_eq_false, if_false, owner_self h]
  rfl

theorem srExpand_ok {off clen rlen : Nat} {bytes : List UInt8}
    (h : srExpand σ off clen rlen = .ok (bytes, σ')) :
    σ.sr_codec_owner = none ∧ bytes = expanded σ off clen rlen ∧ σ' = σ := by
  obtain ⟨σ₁, hacq, _⟩ := bind_ok h
  have hfree := (swapramCodecAcquire_ok hacq).1
  rw [srExpand_of_free hfree] at h
  cases h
  exact ⟨hfree, rfl, rfl⟩

/-! ## Swapping out -/

/-- What the counting pass answers: the length of the stream, and zero for an empty segment. -/
def counted (cfg : Conf) (src : List UInt8) : Option Nat :=
  if src.length = 0 then some 0 else (cfg.encode src).map List.length

theorem srCount_ok {src : List UInt8} {n : Option Nat} (h : srCount cfg σ src = .ok (n, σ')) :
    n = counted cfg src ∧ σ' = σ := by
  unfold srCount at h
  unfold counted
  split at h
  · rename_i h0
    cases h
    exact ⟨(if_pos h0).symm, rfl⟩
  · rename_i h0
    obtain ⟨⟨r, σ₁⟩, hcall, heq⟩ := exists_of_map_eq_ok h
    obtain ⟨_, rfl, rfl⟩ := srEncode_ok hcall
    cases heq
    refine ⟨?_, rfl⟩
    rw [if_neg h0]
    cases henc : cfg.encode src <;> simp [encoded, henc]

theorem counted_le {src : List UInt8} {n : Nat} (h : counted cfg src = some n) :
    n ≤ srWorst src.length := by
  unfold counted at h
  split at h
  · cases h
    exact Nat.zero_le _
  · obtain ⟨bytes, henc, rfl⟩ := Option.map_eq_some_iff.mp h
    exact cfg.worst _ _ henc

/-- The entry `swapram_out` writes. -/
def reserved (e : SrEnt) (off dn sn dlen slen ulen : Nat) : SrEnt :=
  { e with
    e_off := off, e_res := dn + sn + srWorst ulen
    e_rlen := ![dlen, slen, ulen], e_clen := ![dn, sn, srWorst ulen] }

theorem swapramOut_ok {dsrc ssrc : List UInt8} {ulen : Nat} {ram : Bool}
    (h : swapramOut cfg σ p dsrc ssrc ulen = .ok (ram, σ')) :
    (σ.sr_tab p).e_live = false ∧
    ((ram = false ∧ σ' = σ) ∨
      (ram = true ∧ σ.sr_admit = true ∧ σ.sr_codec_owner ≠ some .packedText ∧
        ∃ dn sn off mp, counted cfg dsrc = some dn ∧
        counted cfg ssrc = some sn ∧
        swapramPoolAlloc σ.sr_map (dn + sn + srWorst ulen) = (some off, mp) ∧
        σ' = { σ with sr_map := mp }.setEnt p
          (reserved (σ.sr_tab p) off dn sn dsrc.length ssrc.length ulen))) := by
  unfold swapramOut at h
  split at h
  · cases h
  rename_i hlive
  refine ⟨Bool.eq_false_iff.mpr hlive, ?_⟩
  split at h
  · cases h
    exact .inl ⟨rfl, rfl⟩
  rename_i hopen
  obtain ⟨⟨dn, σ₁⟩, hd, h⟩ := bind_ok h
  obtain ⟨hdn, rfl⟩ := srCount_ok hd
  cases dn with
  | none =>
    cases h
    exact .inl ⟨rfl, rfl⟩
  | some dn =>
    obtain ⟨⟨sn, σ₂⟩, hs, h⟩ := bind_ok h
    obtain ⟨hsn, rfl⟩ := srCount_ok hs
    cases sn with
    | none =>
      cases h
      exact .inl ⟨rfl, rfl⟩
    | some sn =>
      simp only at h
      split at h
      · rename_i mp halloc
        have hmp := swapramPoolAlloc_unchanged (congrArg Prod.fst halloc)
        rw [halloc] at hmp
        cases h
        refine .inl ⟨rfl, ?_⟩
        simp only at hmp
        rw [hmp]
      · rename_i off mp halloc
        cases h
        refine .inr ⟨rfl, ?_, fun hp => hopen (.inr hp), dn, sn, off, mp, hdn.symm, hsn.symm, halloc,
          rfl⟩
        exact Bool.not_eq_false _ |>.mp fun hf => hopen (.inl hf)

/-- The stream that stands for a segment: none at all for an empty one. -/
def Stream (cfg : Conf) (src bytes : List UInt8) : Prop :=
  if src.length = 0 then bytes = [] else cfg.encode src = some bytes

theorem Stream.nil {src : List UInt8} (h : src.length = 0) : Stream cfg src [] := by
  rw [Stream, if_pos h]

theorem Stream.counted {src bytes : List UInt8} {n : Nat} (h : Stream cfg src bytes)
    (hn : counted cfg src = some n) : bytes.length = n := by
  unfold Stream at h
  unfold Swap.counted at hn
  split at h
  · rename_i h0
    rw [if_pos h0] at hn
    cases hn
    rw [h]
    rfl
  · rename_i h0
    rw [if_neg h0, h] at hn
    exact Option.some.inj hn

/-- Other bytes in the pool, and other lengths of the streams of one entry. -/
def Kernel.put (σ : Kernel) (p : Slot) (pool : Nat → UInt8) (clen : Seg → Nat) : Kernel :=
  { σ with sr_pool := pool }.setEnt p { σ.sr_tab p with e_clen := clen }

theorem Kernel.put_self (σ : Kernel) (p : Slot) : σ.put p σ.sr_pool (σ.sr_tab p).e_clen = σ := by
  simp only [Kernel.put, Kernel.setEnt, Function.update_eq_self]

theorem Kernel.put_tab (σ : Kernel) (p : Slot) (pool : Nat → UInt8) (clen : Seg → Nat) :
    (σ.put p pool clen).sr_tab p = { σ.sr_tab p with e_clen := clen } := Function.update_self ..

theorem Kernel.put_put (σ : Kernel) (p : Slot) (pool pool' : Nat → UInt8) (clen clen' : Seg → Nat) :
    (σ.put p pool clen).put p pool' clen' = σ.put p pool' clen' := by
  rw [Kernel.put, Kernel.put_tab]
  simp only [Kernel.put, Kernel.setEnt, Function.update_idem]

theorem swapramPut_ok {seg : Seg} {src : List UInt8} (h : swapramPut cfg σ p seg src = .ok σ') :
    src.length = (σ.sr_tab p).e_rlen seg ∧ ∃ bytes, Stream cfg src bytes ∧
      bytes.length ≤ (σ.sr_tab p).e_clen seg ∧
      (src.length ≠ 0 → seg ≠ srU → bytes.length = (σ.sr_tab p).e_clen seg) ∧
      σ' = σ.put p (writeAt σ.sr_pool
          ((σ.sr_tab p).e_off + srCompressedBefore (σ.sr_tab p) seg) bytes)
        (Function.update (σ.sr_tab p).e_clen seg bytes.length) := by
  simp only [swapramPut] at h
  split at h
  · cases h
  rename_i hlen
  refine ⟨of_not_not hlen, ?_⟩
  split at h
  · rename_i h0
    cases h
    refine ⟨[], .nil h0, Nat.zero_le _, fun hne => absurd h0 hne, ?_⟩
    rw [writeAt_nil]
    rfl
  rename_i h0
  obtain ⟨⟨r, σ₁⟩, henc, h⟩ := bind_ok h
  obtain ⟨_, hr, rfl⟩ := srEncode_ok henc
  cases r with
  | none => cases h
  | some bytes =>
    obtain ⟨hbytes, hcap⟩ := encoded_some hr.symm
    simp only at h
    split at h
    · cases h
    · rename_i hexact
      cases h
      refine ⟨bytes, ?_, hcap _ rfl, fun _ hseg => ?_, rfl⟩
      · rw [Stream, if_neg h0]
        exact hbytes
      · exact of_not_not fun hne => hexact ⟨hseg, hne⟩

/-- What a put keeps: the workspace, the pool's table and the range of the entry, in which no segment
    gets longer. -/
structure PutFrame (p : Slot) (σ σ' : Kernel) : Prop where
  owner : σ'.sr_codec_owner = σ.sr_codec_owner
  map : σ'.sr_map = σ.sr_map
  off : (σ'.sr_tab p).e_off = (σ.sr_tab p).e_off
  res : (σ'.sr_tab p).e_res = (σ.sr_tab p).e_res
  used : srCompressedSize (σ'.sr_tab p) ≤ srCompressedSize (σ.sr_tab p)

theorem PutFrame.refl (p : Slot) (σ : Kernel) : PutFrame p σ σ := ⟨rfl, rfl, rfl, rfl, Nat.le_refl _⟩

theorem PutFrame.trans {σ₁ σ₂ : Kernel} (h : PutFrame p σ σ₁) (h' : PutFrame p σ₁ σ₂) :
    PutFrame p σ σ₂ :=
  ⟨h'.owner.trans h.owner, h'.map.trans h.map, h'.off.trans h.off, h'.res.trans h.res,
    h'.used.trans h.used⟩

theorem srCompressedSize_eq (e : SrEnt) :
    srCompressedSize e = e.e_clen srData + e.e_clen srStack + e.e_clen srU := by
  simp only [srCompressedSize, srCompressedBefore, segs, List.take, List.map, List.sum_cons,
    List.sum_nil]
  omega

/-- A segment of the entry gets shorter. -/
theorem srCompressedSize_shrink {e : SrEnt} {seg : Seg} {n : Nat} (h : n ≤ e.e_clen seg) :
    srCompressedSize { e with e_clen := Function.update e.e_clen seg n } ≤ srCompressedSize e := by
  have hle : ∀ s, Function.update e.e_clen seg n s ≤ e.e_clen s := by
    intro s
    by_cases hs : s = seg
    · subst hs
      rwa [Function.update_self]
    · rw [Function.update_of_ne hs]
  have h1 := hle srData
  have h2 := hle srStack
  have h3 := hle srU
  rw [srCompressedSize_eq, srCompressedSize_eq]
  simp only
  omega

theorem reserved_size (e : SrEnt) (off dn sn dlen slen ulen : Nat) :
    srCompressedSize (reserved e off dn sn dlen slen ulen) = dn + sn + srWorst ulen :=
  srCompressedSize_eq _

theorem swapramPut_frame {seg : Seg} {src : List UInt8} (h : swapramPut cfg σ p seg src = .ok σ') :
    PutFrame p σ σ' := by
  obtain ⟨_, bytes, _, hle, _, rfl⟩ := swapramPut_ok h
  refine ⟨rfl, rfl, ?_, ?_, ?_⟩ <;> rw [Kernel.put_tab]
  exact srCompressedSize_shrink hle

theorem swapramCommit_ok (h : swapramCommit σ p = .ok σ') :
    ∃ mp, swapramPoolTrim σ.sr_map (σ.sr_tab p).e_off (σ.sr_tab p).e_res
        (srCompressedSize (σ.sr_tab p)) = (true, mp) ∧
      σ' = { σ with sr_map := mp }.setEnt p
        { σ.sr_tab p with e_res := srCompressedSize (σ.sr_tab p), e_live := true } := by
  unfold swapramCommit at h
  simp only at h
  split at h
  · cases h
  · rename_i mp htrim
    exact ⟨mp, htrim, (Except.ok.inj h).symm⟩

/-! ## Swapping in -/

/-- What the loop of `swapram_in` leaves, by segment. -/
def expandedSegs (σ : Kernel) (e : SrEnt) (off : Nat) : List Seg → Seg → List UInt8
  | [] => fun _ => []
  | seg :: rest =>
    if e.e_rlen seg = 0 then expandedSegs σ e off rest
    else Function.update (expandedSegs σ e (off + e.e_clen seg) rest) seg
      (expanded σ off (e.e_clen seg) (e.e_rlen seg))

theorem expandSegs_ok {e : SrEnt} {off : Nat} {todo : List Seg} {dst : Seg → List UInt8}
    (h : expandSegs σ e off todo = .ok (dst, σ')) :
    dst = expandedSegs σ e off todo ∧ σ' = σ := by
  induction todo generalizing off dst σ' with
  | nil =>
    cases h
    exact ⟨rfl, rfl⟩
  | cons seg rest ih =>
    simp only [expandSegs] at h
    simp only [expandedSegs]
    split at h
    · rename_i h0
      rw [if_pos h0]
      exact ih h
    · rename_i h0
      rw [if_neg h0]
      obtain ⟨⟨bytes, σ₁⟩, hexp, h⟩ := bind_ok h
      obtain ⟨_, rfl, rfl⟩ := srExpand_ok hexp
      simp only at h
      split at h
      · cases h
      · obtain ⟨⟨dst', σ₂⟩, hrest, h⟩ := bind_ok h
        obtain ⟨rfl, rfl⟩ := ih hrest
        cases h
        exact ⟨rfl, rfl⟩

/-- Every segment comes back at its length, or the loop panics. -/
theorem expandSegs_length {e : SrEnt} {off : Nat} {todo : List Seg} {dst : Seg → List UInt8}
    (h : expandSegs σ e off todo = .ok (dst, σ')) :
    ∀ seg, (seg ∈ todo → (dst seg).length = e.e_rlen seg) ∧ (seg ∉ todo → dst seg = []) := by
  induction todo generalizing off dst σ σ' with
  | nil =>
    cases h
    exact fun seg => ⟨(nomatch ·), fun _ => rfl⟩
  | cons s rest ih =>
    simp only [expandSegs] at h
    split at h
    · rename_i h0
      intro seg
      obtain ⟨hin, hout⟩ := ih h seg
      refine ⟨fun hmem => ?_, fun hmem => hout fun hr => hmem (List.mem_cons_of_mem _ hr)⟩
      by_cases hr : seg ∈ rest
      · exact hin hr
      · rcases List.mem_cons.mp hmem with rfl | hr'
        · rw [hout hr, h0]
          rfl
        · exact absurd hr' hr
    · obtain ⟨⟨bytes, σ₁⟩, hexp, h⟩ := bind_ok h
      simp only at h
      split at h
      · cases h
      · rename_i hlen
        obtain ⟨⟨dst', σ₂⟩, hrest, h⟩ := bind_ok h
        cases h
        intro seg
        by_cases hs : seg = s
        · subst hs
          rw [Function.update_self]
          exact ⟨fun _ => of_not_not hlen, fun hmem => absurd List.mem_cons_self hmem⟩
        · rw [Function.update_of_ne hs]
          obtain ⟨hin, hout⟩ := ih hrest seg
          exact ⟨fun hmem => hin ((List.mem_cons.mp hmem).resolve_left hs),
            fun hmem => hout fun hr => hmem (List.mem_cons_of_mem _ hr)⟩

theorem mem_segs (seg : Seg) : seg ∈ segs := by fin_cases seg <;> decide

theorem swapramIn_ok {dst : Seg → List UInt8} (h : swapramIn σ p = .ok (dst, σ')) :
    (σ.sr_tab p).e_live = true ∧
    dst = expandedSegs σ (σ.sr_tab p) (σ.sr_tab p).e_off segs ∧
    (∀ seg, (dst seg).length = (σ.sr_tab p).e_rlen seg) ∧
    ∃ mp, swapramPoolFree σ.sr_map (σ.sr_tab p).e_off (σ.sr_tab p).e_res = (true, mp) ∧
      σ' = { σ with sr_map := mp }.setEnt p { σ.sr_tab p with e_live := false, e_res := 0 } := by
  simp only [swapramIn] at h
  split at h
  · cases h
  rename_i hlive
  obtain ⟨⟨d, σ₁⟩, hsegs, h⟩ := bind_ok h
  have hlen := fun seg => (expandSegs_length hsegs seg).1 (mem_segs seg)
  obtain ⟨rfl, rfl⟩ := expandSegs_ok hsegs
  simp only at h
  split at h
  · cases h
  · rename_i mp hfree
    cases h
    exact ⟨Bool.not_eq_false _ |>.mp hlive, rfl, hlen, mp, hfree, rfl⟩

theorem swapramUareaPrefix_ok {len : Nat} {r : Option (List UInt8)}
    (h : swapramUareaPrefix σ p len = .ok (r, σ')) : σ' = σ := by
  simp only [swapramUareaPrefix] at h
  split at h
  · cases h
    rfl
  · obtain ⟨⟨bytes, σ₁⟩, hexp, hret⟩ := bind_ok h
    obtain ⟨_, _, heq⟩ := srExpand_ok hexp
    cases hret
    exact heq

/-! ## Spools -/

theorem swapramSpoolAlloc_cases (σ : Kernel) (size : Nat) :
    swapramSpoolAlloc σ size = (none, σ) ∨
    (σ.sr_admit = true ∧ σ.swapram_epoch = .small ∧ ∃ off mp,
      swapramPoolAlloc σ.sr_map size = (some off, mp) ∧
      swapramSpoolAlloc σ size =
        (some off, { σ with sr_map := mp, sr_spools := σ.sr_spools + 1 })) := by
  unfold swapramSpoolAlloc
  split
  · exact .inl rfl
  · rename_i hopen
    rw [not_or, not_not, Bool.not_eq_false] at hopen
    split
    · rename_i mp halloc
      have hmp := swapramPoolAlloc_unchanged (congrArg Prod.fst halloc)
      rw [halloc] at hmp
      simp only at hmp
      rw [hmp]
      exact .inl rfl
    · rename_i off mp halloc
      exact .inr ⟨hopen.1, hopen.2, off, mp, halloc, rfl⟩

theorem swapramSpoolFree_ok {off size : Nat} (h : swapramSpoolFree σ off size = .ok σ') :
    σ.sr_spools ≠ 0 ∧ ∃ mp, swapramPoolFree σ.sr_map off size = (true, mp) ∧
      σ' = { σ with sr_map := mp, sr_spools := σ.sr_spools - 1 } := by
  unfold swapramSpoolFree at h
  split at h
  · cases h
  rename_i hne
  refine ⟨hne, ?_⟩
  split at h
  · cases h
  · rename_i mp hfree
    exact ⟨mp, hfree, (Except.ok.inj h).symm⟩

theorem evacRelease_ok {i : Slot} (h : evacRelease σ i = .ok σ') :
    ∃ mp, swapramPoolFree σ.sr_map (σ.sr_tab i).e_off (σ.sr_tab i).e_res = (true, mp) ∧
      σ' = { σ with sr_map := mp }.setEnt i { σ.sr_tab i with e_live := false, e_res := 0 } := by
  unfold evacRelease at h
  simp only at h
  split at h
  · cases h
  · rename_i mp hfree
    exact ⟨mp, hfree, (Except.ok.inj h).symm⟩

/-! ## Evacuating -/

/-- The kernel with other flash addresses. -/
def Kernel.readdress (σ : Kernel) (mp : Map) (addr : Slot → Seg → Nat) : Kernel :=
  { σ with swapmap := mp, proc := fun i => { σ.proc i with p_at := addr i } }

theorem Kernel.readdress_self (σ : Kernel) :
    σ.readdress σ.swapmap (fun i => (σ.proc i).p_at) = σ := rfl

theorem Kernel.readdress_setProc (σ : Kernel) (mp : Map) (i : Slot) (a : Seg → Nat) :
    { σ with swapmap := mp }.setProc i { σ.proc i with p_at := a } =
      σ.readdress mp (Function.update (fun j => (σ.proc j).p_at) i a) := by
  have hproc : Function.update σ.proc i { σ.proc i with p_at := a } =
      fun j => { σ.proc j with p_at := Function.update (fun j => (σ.proc j).p_at) i a j } := by
    funext j
    by_cases hj : j = i
    · subst hj
      simp
    · simp only [Function.update_of_ne hj]
  simp only [Kernel.setProc, Kernel.readdress, hproc]

theorem evacUndo_frame {done : List Slot} (h : evacUndo σ done = .ok σ') :
    ∃ mp addr, σ' = σ.readdress mp addr := by
  induction done generalizing σ with
  | nil =>
    cases h
    exact ⟨σ'.swapmap, _, σ'.readdress_self.symm⟩
  | cons j rest ih =>
    simp only [evacUndo] at h
    split at h
    · exact ih h
    · obtain ⟨⟨lost, mp⟩, _, h⟩ := bind_ok h
      obtain ⟨mp', addr, rfl⟩ := ih h
      rw [Kernel.readdress_setProc]
      exact ⟨mp', addr, rfl⟩

theorem evacReserve_frame {done todo : List Slot} {next images : Nat} {r : Option (Nat × Nat)}
    (h : evacReserve done next images σ todo = .ok (r, σ')) :
    ∃ mp addr, σ' = σ.readdress mp addr := by
  induction todo generalizing done next images σ with
  | nil =>
    cases h
    exact ⟨σ'.swapmap, _, σ'.readdress_self.symm⟩
  | cons i rest ih =>
    simp only [evacReserve] at h
    split at h
    · exact ih h
    split at h
    · cases h
    split at h
    · cases h
    obtain ⟨⟨span, next₁, blocks, mp⟩, _, h⟩ := bind_ok h
    simp only at h
    split at h
    · obtain ⟨σ₁, hundo, h⟩ := bind_ok h
      obtain ⟨mp', addr, rfl⟩ := evacUndo_frame hundo
      cases h
      exact ⟨mp', addr, rfl⟩
    · obtain ⟨mp', addr, rfl⟩ := ih h
      rw [Kernel.readdress_setProc]
      exact ⟨mp', addr, rfl⟩

/-- The reservation moves flash addresses and the cursor, and nothing else. -/
theorem evacuateBegin_frame {r : Option Bool} (h : evacuateBegin σ = .ok (r, σ')) :
    ∃ mp addr next, σ' = { σ.readdress mp addr with swapnext := next } := by
  obtain ⟨⟨reserved, σ₁⟩, hres, h⟩ := bind_ok h
  obtain ⟨mp, addr, rfl⟩ := evacReserve_frame hres
  cases reserved with
  | none =>
    cases h
    exact ⟨mp, addr, σ.swapnext, rfl⟩
  | some q =>
    simp only at h
    split at h
    · cases h
      exact ⟨mp, addr, σ.swapnext, rfl⟩
    · cases h
      exact ⟨mp, addr, q.1, rfl⟩

/-- What moving the images can change. -/
def Kernel.drain (σ : Kernel) (flash : Nat → UInt8) (mp : SwapramPool) (tab : Slot → SrEnt)
    (owner : Option Codec) : Kernel :=
  { σ with flash := flash, sr_map := mp, sr_tab := tab, sr_codec_owner := owner }

theorem evacBlock_frame {loc : ExpandAt} {r : Option ExpandAt} (h : evacBlock σ loc = .ok (r, σ')) :
    (∃ loc', r = some loc' ∧ loc'.slot = loc.slot ∧ loc'.rest = loc.rest) ∧
      ∃ flash, σ' = σ.drain flash σ.sr_map σ.sr_tab σ.sr_codec_owner := by
  simp only [evacBlock] at h
  split at h
  · cases h
  · cases h
    exact ⟨⟨_, rfl, rfl, rfl⟩, _, rfl⟩

theorem evacSeg_frame {i : Slot} {off : Nat} {seg : Seg} {todo : List Seg} {rest : List Slot}
    {r : Option ExpandAt} (h : evacSeg σ i off seg todo rest = .ok (r, σ')) :
    σ.sr_codec_owner = none ∧ (∃ loc', r = some loc' ∧ loc'.slot = i ∧ loc'.rest = rest) ∧
      ∃ flash, σ' = σ.drain flash σ.sr_map σ.sr_tab (some .decoder) := by
  obtain ⟨σ₁, hacq, h⟩ := bind_ok h
  obtain ⟨hfree, rfl⟩ := swapramCodecAcquire_ok hacq
  obtain ⟨hloc, flash, rfl⟩ := evacBlock_frame h
  exact ⟨hfree, hloc, flash, rfl⟩

theorem evacNext_frame {slots : List Slot} {r : Option ExpandAt}
    (h : evacNext σ slots = .ok (r, σ')) : ∃ flash mp tab owner, σ' = σ.drain flash mp tab owner := by
  induction slots generalizing σ with
  | nil =>
    cases h
    exact ⟨σ'.flash, σ'.sr_map, σ'.sr_tab, σ'.sr_codec_owner, rfl⟩
  | cons i rest ih =>
    simp only [evacNext] at h
    split at h
    · exact ih h
    split at h
    · obtain ⟨_, _, flash, rfl⟩ := evacSeg_frame h
      exact ⟨flash, σ.sr_map, σ.sr_tab, some .decoder, rfl⟩
    · obtain ⟨σ₁, hrel, h⟩ := bind_ok h
      obtain ⟨mp, _, rfl⟩ := evacRelease_ok hrel
      obtain ⟨flash, mp', tab, owner, rfl⟩ := ih h
      exact ⟨flash, mp', tab, owner, rfl⟩

theorem evacResume_frame {loc : ExpandAt} {r : Option ExpandAt}
    (h : evacResume σ loc = .ok (r, σ')) : ∃ flash mp tab owner, σ' = σ.drain flash mp tab owner := by
  simp only [evacResume] at h
  split at h
  · obtain ⟨_, flash, rfl⟩ := evacBlock_frame h
    exact ⟨flash, σ.sr_map, σ.sr_tab, σ.sr_codec_owner, rfl⟩
  obtain ⟨σ₁, hrel, h⟩ := bind_ok h
  obtain ⟨_, rfl⟩ := swapramCodecRelease_ok hrel
  split at h
  · obtain ⟨_, _, flash, rfl⟩ := evacSeg_frame h
    exact ⟨flash, σ.sr_map, σ.sr_tab, some .decoder, rfl⟩
  · obtain ⟨σ₂, hfree, h⟩ := bind_ok h
    obtain ⟨mp, _, rfl⟩ := evacRelease_ok hfree
    obtain ⟨flash, mp', tab, owner, rfl⟩ := evacNext_frame h
    exact ⟨flash, mp', tab, owner, rfl⟩

end

end DiscoBSD.Swap
