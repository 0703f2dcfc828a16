import DiscoBSD.Swap.State

/-!
# The RAM tier

`sys/arch/rp2040/rp2040/swapram.c`, function by function and in its order: the codec workspace, the exec
spools, the two passes of a swapout and the swapin, the evacuation, the service routine and the epoch
requests. A panic is `Fault.panic` with the source's text. The `printf`s under `swapramdebug` and the
`storage_note` counters are left out, and `wakeup` changes nothing here: a sleeper may resume whenever
it is loaded.

`sr_pool_init_once` is the initial state: every routine that reads `sr_map` is behind it.
-/

set_option autoImplicit false

namespace DiscoBSD.Swap

open DiscoBSD.Lib DiscoBSD.Rmap DiscoBSD.Hsx DiscoBSD.Swapram

/-! ## The codec workspace -/

def swapramCodecAcquire (σ : Kernel) (owner : Codec) : Except Fault Kernel :=
  if σ.sr_codec_owner ≠ none then .error (.panic "swapram: codec workspace busy")
  else .ok { σ with sr_codec_owner := some owner }

def swapramCodecRelease (σ : Kernel) (owner : Codec) : Except Fault Kernel :=
  if σ.sr_codec_owner ≠ some owner then .error (.panic "swapram: codec workspace owner")
  else .ok { σ with sr_codec_owner := none }

/-! ## Exec spools -/

/-- `swapram_spool_alloc`: the offset, or `none` for `-1`. -/
def swapramSpoolAlloc (σ : Kernel) (size : Nat) : Option Nat × Kernel :=
  if σ.sr_admit = false ∨ σ.swapram_epoch ≠ .small then (none, σ)
  else
    match swapramPoolAlloc σ.sr_map size with
    | (none, mp) => (none, { σ with sr_map := mp })
    | (some off, mp) => (some off, { σ with sr_map := mp, sr_spools := σ.sr_spools + 1 })

def swapramSpoolWrite (cfg : Conf) (σ : Kernel) (off pos : Nat) (src : List UInt8) :
    Except Fault Kernel :=
  if cfg.pool < off ∨ cfg.pool - off < pos ∨ cfg.pool - off - pos < src.length then
    .error (.panic "swapram: spool write")
  else .ok { σ with sr_pool := writeAt σ.sr_pool (off + pos) src }

def swapramSpoolRead (cfg : Conf) (σ : Kernel) (off pos len : Nat) : Except Fault (List UInt8) :=
  if cfg.pool < off ∨ cfg.pool - off < pos ∨ cfg.pool - off - pos < len then
    .error (.panic "swapram: spool read")
  else .ok (readAt σ.sr_pool (off + pos) len)

def swapramSpoolFree (σ : Kernel) (off size : Nat) : Except Fault Kernel :=
  if σ.sr_spools = 0 then .error (.panic "swapram: spool free")
  else
    match swapramPoolFree σ.sr_map off size with
    | (false, _) => .error (.panic "swapram: spool free")
    | (true, mp) => .ok { σ with sr_map := mp, sr_spools := σ.sr_spools - 1 }

/-! ## The codec -/

/-- `sr_encode`. `cap` is `none` for the counting pass, which keeps nothing. The result is the stream
    for its caller to store, or `none` for `-1`: the encoder failed or the stream is past `cap`. -/
def srEncode (cfg : Conf) (σ : Kernel) (src : List UInt8) (cap : Option Nat) :
    Except Fault (Option (List UInt8) × Kernel) := do
  let σ ← swapramCodecAcquire σ .encoder
  let result := (cfg.encode src).filter fun bytes => cap.all fun c => decide (bytes.length ≤ c)
  let σ ← swapramCodecRelease σ .encoder
  pure (result, σ)

/-- `sr_expand` with a destination: the bytes it leaves there. What the destination held before is
    never read. -/
def srExpand (σ : Kernel) (off clen rlen : Nat) : Except Fault (List UInt8 × Kernel) := do
  let σ ← swapramCodecAcquire σ .decoder
  let d := hsxDecInput (hsxDecInit lookaheadBits) (readAt σ.sr_pool off clen)
  let (n, _, dst) := hsxDecRun d (fun _ => 0) (2 ^ 32 - 1) rlen
  let σ ← swapramCodecRelease σ .decoder
  pure (readAt dst 0 n, σ)

/-- `sr_compressed_before`. -/
def srCompressedBefore (e : SrEnt) (stop : Nat) : Nat := ((segs.take stop).map e.e_clen).sum

/-- `sr_compressed_size`. -/
def srCompressedSize (e : SrEnt) : Nat := srCompressedBefore e 3

/-- `sr_flash_span`. -/
def srFlashSpan (e : SrEnt) : Nat :=
  roundUp swapImageAlign
    (btod (e.e_rlen srData) + btod (e.e_rlen srStack) + btod (e.e_rlen srU))

/-! ## Swapping out -/

/-- The counting pass over one segment: nothing to count when it is empty. -/
def srCount (cfg : Conf) (σ : Kernel) (src : List UInt8) : Except Fault (Option Nat × Kernel) :=
  if src.length = 0 then .ok (some 0, σ)
  else (srEncode cfg σ src none).map fun r => (r.1.map List.length, r.2)

/-- `swapram_out`: whether the tier takes the image. -/
def swapramOut (cfg : Conf) (σ : Kernel) (p : Slot) (dsrc ssrc : List UInt8) (ulen : Nat) :
    Except Fault (Bool × Kernel) :=
  if (σ.sr_tab p).e_live then .error (.panic "swapram: image already resident")
  else if σ.sr_admit = false ∨ σ.sr_codec_owner = some .packedText then .ok (false, σ)
  else do
    let (dn, σ) ← srCount cfg σ dsrc
    match dn with
    | none => pure (false, σ)
    | some dn =>
      let (sn, σ) ← srCount cfg σ ssrc
      match sn with
      | none => pure (false, σ)
      | some sn =>
        let want := dn + sn + srWorst ulen
        match swapramPoolAlloc σ.sr_map want with
        | (none, mp) => pure (false, { σ with sr_map := mp })
        | (some off, mp) =>
          pure (true, { σ with sr_map := mp }.setEnt p
            { σ.sr_tab p with
              e_off := off, e_res := want
              e_rlen := ![dsrc.length, ssrc.length, ulen]
              e_clen := ![dn, sn, srWorst ulen] })

/-- `swapram_put`. -/
def swapramPut (cfg : Conf) (σ : Kernel) (p : Slot) (seg : Seg) (src : List UInt8) :
    Except Fault Kernel :=
  let e := σ.sr_tab p
  if src.length ≠ e.e_rlen seg then .error (.panic "swapram: segment length changed")
  else if src.length = 0 then
    .ok (σ.setEnt p { e with e_clen := Function.update e.e_clen seg 0 })
  else do
    let cap := e.e_clen seg
    let fill := srCompressedBefore e seg
    let (n, σ) ← srEncode cfg σ src (some cap)
    match n with
    | none => .error (.panic "swapram: reservation overflow")
    | some bytes =>
      if seg ≠ srU ∧ bytes.length ≠ cap then .error (.panic "swapram: count mismatch")
      else
        pure ({ σ with sr_pool := writeAt σ.sr_pool (e.e_off + fill) bytes }.setEnt p
          { e with e_clen := Function.update e.e_clen seg bytes.length })

/-- `swapram_commit`. -/
def swapramCommit (σ : Kernel) (p : Slot) : Except Fault Kernel :=
  let e := σ.sr_tab p
  let used := srCompressedSize e
  match swapramPoolTrim σ.sr_map e.e_off e.e_res used with
  | (false, _) => .error (.panic "swapram: trim")
  | (true, mp) => .ok ({ σ with sr_map := mp }.setEnt p { e with e_res := used, e_live := true })

/-! ## Swapping in -/

/-- `swapram_present`. -/
def swapramPresent (σ : Kernel) (p : Slot) : Bool := (σ.sr_tab p).e_live

/-- `swapram_uarea_prefix`: the prefix, or `none` for `-1`. -/
def swapramUareaPrefix (σ : Kernel) (p : Slot) (len : Nat) :
    Except Fault (Option (List UInt8) × Kernel) :=
  let e := σ.sr_tab p
  if e.e_live = false ∨ e.e_rlen srU < len then .ok (none, σ)
  else do
    let off := e.e_off + e.e_clen srData + e.e_clen srStack
    let (bytes, σ) ← srExpand σ off (e.e_clen srU) len
    pure (if bytes.length = len then some bytes else none, σ)

/-- The loop of `swapram_in` over the segments. -/
def expandSegs (σ : Kernel) (e : SrEnt) (off : Nat) :
    List Seg → Except Fault ((Seg → List UInt8) × Kernel)
  | [] => .ok (fun _ => [], σ)
  | seg :: rest =>
    if e.e_rlen seg = 0 then expandSegs σ e off rest
    else do
      let (bytes, σ) ← srExpand σ off (e.e_clen seg) (e.e_rlen seg)
      if bytes.length ≠ e.e_rlen seg then .error (.panic "swapram: short expand")
      else
        let (dst, σ) ← expandSegs σ e (off + e.e_clen seg) rest
        pure (Function.update dst seg bytes, σ)

/-- `swapram_in`: what it leaves at the three destinations. -/
def swapramIn (σ : Kernel) (p : Slot) : Except Fault ((Seg → List UInt8) × Kernel) :=
  let e := σ.sr_tab p
  if e.e_live = false then .error (.panic "swapram: no image")
  else do
    let (dst, σ) ← expandSegs σ e e.e_off segs
    match swapramPoolFree σ.sr_map e.e_off e.e_res with
    | (false, _) => .error (.panic "swapram: free")
    | (true, mp) =>
      pure (dst, { σ with sr_map := mp }.setEnt p { e with e_live := false, e_res := 0 })

/-- `swapram_admit`. -/
def swapramAdmit (σ : Kernel) (on : Bool) : Kernel := { σ with sr_admit := on }

/-- `swapram_images`. -/
def swapramImages (σ : Kernel) : Nat := (List.finRange nproc).countP fun i => (σ.sr_tab i).e_live

end DiscoBSD.Swap

/-!
# Evacuation, the service routine and the epoch

The rest of `swapram.c`. `swapram_evacuate` sleeps, so it is cut at its sleep points: `evacuateBegin`
runs from the call to the `geteblk`, `evacNext` from there to the first `swap_with_buf`, and
`evacResume` from one `swap_with_buf` to the next. **The reservation loop and its rollback do not
sleep**, which is why a failed evacuation is one step.

`swapram_service` calls `swapram_evacuate` in two places and goes on after it; what comes after each
call is a function of its own (`finishEvac`, `finishLarge`), run at once when the evacuation did not
sleep and on the swapper's last resume when it did.
-/

namespace DiscoBSD.Swap

open DiscoBSD.Lib DiscoBSD.Rmap DiscoBSD.Hsx DiscoBSD.Swapram

/-! ## Reserving -/

/-- The rollback: what was reserved for the live images among the slots already passed goes back. -/
def evacUndo (σ : Kernel) : List Slot → Except Fault Kernel
  | [] => .ok σ
  | j :: rest =>
    if (σ.sr_tab j).e_live = false then evacUndo σ rest
    else do
      let (_, mp) ← mfree σ.swapmap (srFlashSpan (σ.sr_tab j)) ((σ.proc j).p_at srData)
      evacUndo ({ σ with swapmap := mp }.setProc j { σ.proc j with p_at := fun _ => 0 }) rest

/-- The first loop of `swapram_evacuate`: the cursor and the number of images, or `none` when there is
    no flash for one of them. `done` are the slots already passed. -/
def evacReserve (done : List Slot) (next images : Nat) (σ : Kernel) :
    List Slot → Except Fault (Option (Nat × Nat) × Kernel)
  | [] => .ok (some (next, images), σ)
  | i :: rest =>
    let e := σ.sr_tab i
    let p := σ.proc i
    if e.e_live = false then evacReserve (done ++ [i]) next images σ rest
    else if p.sload then .error (.panic "swapram: evacuate loaded")
    else if p.p_at srData ≠ 0 ∨ p.p_at srStack ≠ 0 ∨ p.p_at srU ≠ 0 then
      .error (.panic "swapram: flash blocks already assigned")
    else do
      let (span, next, blocks, mp) ← malloc3ContiguousNext σ.swapmap (btod (e.e_rlen srData))
        (btod (e.e_rlen srStack)) (btod (e.e_rlen srU)) swapImageAlign (some next) 0
      if span = 0 then
        let σ ← evacUndo { σ with swapmap := mp } done
        pure (none, σ)
      else
        evacReserve (done ++ [i]) next (images + 1)
          ({ σ with swapmap := mp }.setProc i { p with p_at := blocks }) rest

/-- `swapram_evacuate` up to its first sleep: its result, or `none` when it is asleep in `geteblk`. -/
def evacuateBegin (σ : Kernel) : Except Fault (Option Bool × Kernel) := do
  let (reserved, σ) ← evacReserve [] σ.swapnext 0 σ (List.finRange nproc)
  match reserved with
  | none => pure (some false, σ)
  | some (next, images) =>
    if images = 0 then pure (some true, σ) else pure (none, { σ with swapnext := next })

/-! ## Moving -/

/-- The loop of `sr_expand` without a destination, up to the next full block: pieces that cross neither
    the end of the ring nor the end of the block. `fill` is what the block holds. The flag is set
    when the stream came up short. -/
def expandBlock (rlen : Nat) : Nat → HsxDec → (Nat → UInt8) → Nat → List UInt8 →
    HsxDec × (Nat → UInt8) × List UInt8 × Bool
  | 0, d, win, _, fill => (d, win, fill, true)
  | pieces + 1, d, win, out, fill =>
    let ring := out &&& (window - 1)
    let room := min (min (rlen - out) (devBsize - fill.length)) (window - ring)
    let (n, d, win) := hsxDecRun d win (window - 1) room
    let fill := fill ++ readAt win ring n
    if fill.length = devBsize ∨ out + n = rlen then (d, win, fill, false)
    else if n < room then (d, win, fill, true)
    else expandBlock rlen pieces d win (out + n) fill

/-- One block of an image to flash. Every piece puts at least a byte into the block. -/
def evacBlock (σ : Kernel) (loc : ExpandAt) : Except Fault (Option ExpandAt × Kernel) :=
  let rlen := (σ.sr_tab loc.slot).e_rlen loc.seg
  let (d, win, fill, short) := expandBlock rlen devBsize loc.dec loc.win loc.out []
  if short then .error (.panic "swapram: evacuate expand")
  else
    .ok (some { loc with dec := d, win := win, out := loc.out + fill.length,
                         blk := loc.blk + btod fill.length },
      { σ with flash := writeAt σ.flash (loc.blk * devBsize) fill })

/-- The call of `sr_expand` for one segment of an image, up to its first block. -/
def evacSeg (σ : Kernel) (i : Slot) (off : Nat) (seg : Seg) (todo : List Seg) (rest : List Slot) :
    Except Fault (Option ExpandAt × Kernel) := do
  let σ ← swapramCodecAcquire σ .decoder
  let stream := readAt σ.sr_pool off ((σ.sr_tab i).e_clen seg)
  evacBlock σ ⟨i, seg, off, (σ.proc i).p_at seg, 0,
    hsxDecInput (hsxDecInit lookaheadBits) stream, fun _ => 0, todo, rest⟩

/-- The end of an image: its pool range goes back and the entry is no longer live. -/
def evacRelease (σ : Kernel) (i : Slot) : Except Fault Kernel :=
  let e := σ.sr_tab i
  match swapramPoolFree σ.sr_map e.e_off e.e_res with
  | (false, _) => .error (.panic "swapram: evacuate free")
  | (true, mp) => .ok ({ σ with sr_map := mp }.setEnt i { e with e_live := false, e_res := 0 })

/-- The second loop, over the slots from here on, up to the next sleep: the locals there, or `none`
    when the loop has ended. -/
def evacNext (σ : Kernel) : List Slot → Except Fault (Option ExpandAt × Kernel)
  | [] => .ok (none, σ)
  | i :: rest =>
    let e := σ.sr_tab i
    if e.e_live = false then evacNext σ rest
    else
      match segs.dropWhile fun seg => decide (e.e_rlen seg = 0) with
      | seg :: todo => evacSeg σ i e.e_off seg todo rest
      | [] => do
        let σ ← evacRelease σ i
        evacNext σ rest

/-- From one `swap_with_buf` to the next. -/
def evacResume (σ : Kernel) (loc : ExpandAt) : Except Fault (Option ExpandAt × Kernel) :=
  let e := σ.sr_tab loc.slot
  if loc.out < e.e_rlen loc.seg then evacBlock σ loc
  else do
    let σ ← swapramCodecRelease σ .decoder
    match loc.todo.dropWhile fun seg => decide (e.e_rlen seg = 0) with
    | seg :: todo => evacSeg σ loc.slot (loc.off + e.e_clen loc.seg) seg todo loc.rest
    | [] =>
      let σ ← evacRelease σ loc.slot
      evacNext σ loc.rest

/-! ## The service routine -/

/-- The request for SMALL is granted: the epoch is LARGE and no large process remains. -/
def grantsSmall (σ : Kernel) : Prop :=
  σ.sr_small_want = true ∧ σ.swapram_epoch = .large ∧ σ.sr_nlarge = 0

instance (σ : Kernel) : Decidable (grantsSmall σ) := inferInstanceAs (Decidable (_ ∧ _ ∧ _))

/-- The end of `swapram_service`: the request for SMALL. -/
def serviceSmall (σ : Kernel) : Kernel :=
  if grantsSmall σ then
    { σ with sr_small_want := false, swapram_epoch := .small, sr_admit := true, swapper := .idle }
  else { σ with sr_small_want := false, swapper := .idle }

/-- A completed attempt at LARGE. -/
def stepLargeSeq (σ : Kernel) : Kernel := { σ with sr_large_seq := wrap 32 (σ.sr_large_seq + 1) }

/-- After the evacuation of the LARGE branch: what is left of it, up to the request for SMALL. -/
def largeAnswer (σ : Kernel) (ok : Bool) : Kernel :=
  let σ := σ.note (.evacuated ok)
  stepLargeSeq (if ok then { σ with swapram_epoch := .large } else swapramAdmit σ true)

def finishLarge (σ : Kernel) (ok : Bool) : Kernel := serviceSmall (largeAnswer σ ok)

/-- `swapram_service` from the request for LARGE on. -/
def serviceLarge (σ : Kernel) : Except Fault Kernel :=
  if σ.sr_large_want ∧ (σ.swapram_epoch ≠ .small ∨ σ.sr_spools = 0) then
    let σ := { σ with sr_large_want := false }
    if σ.swapram_epoch = .small then do
      let (r, σ) ← evacuateBegin (swapramAdmit σ false)
      match r with
      | some ok => pure (finishLarge σ ok)
      | none => pure { σ with swapper := .geteblk .large }
    else .ok (serviceSmall (stepLargeSeq σ))
  else if σ.sr_large_want then .ok (serviceSmall (swapramAdmit σ false))
  else .ok (serviceSmall σ)

/-- After the evacuation the sysctl asked for. -/
def evacAnswer (σ : Kernel) (ok : Bool) : Kernel :=
  let σ := { σ.note (.evacuated ok) with swapram_evac := if ok then .done else .noflash }
  swapramAdmit σ (decide (σ.swapram_epoch = .small))

def finishEvac (σ : Kernel) (ok : Bool) : Except Fault Kernel := serviceLarge (evacAnswer σ ok)

/-- `swapram_service`, up to its end or to the first sleep. -/
def swapramService (σ : Kernel) : Except Fault Kernel :=
  if σ.swapram_evac = .pending then do
    let (r, σ) ← evacuateBegin (swapramAdmit σ false)
    match r with
    | some ok => finishEvac σ ok
    | none => pure { σ with swapper := .geteblk .evac }
  else serviceLarge σ

/-- Where the swapper goes on when `swapram_evacuate` sleeps again or returns. -/
def evacContinue (why : Purpose) : Option ExpandAt × Kernel → Except Fault Kernel
  | (some loc, σ) => .ok { σ with swapper := .expanding why loc }
  | (none, σ) =>
    match why with
    | .evac => finishEvac σ true
    | .large => .ok (finishLarge σ true)

/-! ## The epoch -/

/-- The loop of `swapram_enter_large`, up to its return or its sleep. -/
def enterLoop (σ : Kernel) (p : Slot) : Kernel :=
  if σ.swapram_epoch = .large then
    (({ σ with sr_nlarge := σ.sr_nlarge + 1 }.setProc p
      { σ.proc p with p_large := true }).setLoc p .user).note (.entered p)
  else { σ with sr_large_want := true }.setLoc p (.waiting σ.sr_large_seq)

/-- `swapram_enter_large`. -/
def swapramEnterLarge (σ : Kernel) (p : Slot) : Kernel :=
  if (σ.proc p).p_large then σ.note (.entered p) else enterLoop (σ.note (.request p)) p

/-- `swapram_enter_large` after its sleep. -/
def enterWake (σ : Kernel) (p : Slot) (seq : Nat) : Kernel :=
  if σ.swapram_epoch = .small ∧ seq ≠ σ.sr_large_seq then
    (σ.setLoc p .user).note (.refused p)
  else enterLoop σ p

/-- `swapram_leave_large`. -/
def swapramLeaveLarge (σ : Kernel) (p : Slot) : Kernel :=
  if (σ.proc p).p_large = false then σ
  else
    let σ := { σ with sr_nlarge := σ.sr_nlarge - 1 }.setProc p { σ.proc p with p_large := false }
    if σ.sr_nlarge = 0 then { σ with sr_small_want := true } else σ

/-- `swapram_inherit`. -/
def swapramInherit (σ : Kernel) (child parent : Slot) : Kernel :=
  if (σ.proc parent).p_large then
    { σ with sr_nlarge := σ.sr_nlarge + 1 }.setProc child { σ.proc child with p_large := true }
  else σ

/-- `swapram_set_epoch`. -/
def swapramSetEpoch (σ : Kernel) : Epoch → Kernel
  | .large => { σ with sr_large_want := true }
  | .small => { σ with sr_small_want := true }

/-- `swapram_ceiling`. -/
def swapramCeiling (cfg : Conf) (σ : Kernel) (p : Slot) : Nat :=
  maxmem + if (σ.proc p).p_large then cfg.pool else 0

end DiscoBSD.Swap
