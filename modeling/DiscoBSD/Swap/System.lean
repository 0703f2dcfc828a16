import DiscoBSD.Swap.Vm

/-!
# Runs of the swap system

An event is one thread running from where it sleeps to where it sleeps next. Any thread that can run
may be next, so a run is any sequence of events. What the scheduler would choose among them, and
when a sleeper is woken, is left open: `sched` runs `swapram_service`, a `swapout` and a `swapin` in turn,
and here the swapper may start any of the three whenever it is at the top of its loop.

**One user process is loaded at a time**, as in the kernel: a `swapin` starts on an empty window.
-/

set_option autoImplicit false

namespace DiscoBSD.Swap

open DiscoBSD.Lib DiscoBSD.Rmap DiscoBSD.Hsx DiscoBSD.Swapram

/-- What the threads do. The first group is process context, the second is the swapper. -/
inductive Event where
  /-- The process runs: its memory and its sizes change, within its ceiling. -/
  | store (p : Slot) (img : Image) (pool : Nat → UInt8)
  /-- `exec_estab` with an image that fits the window: the bonus goes back. -/
  | estabSmall (p : Slot) (img : Image)
  | spoolAlloc (p : Slot) (size : Nat)
  | spoolWrite (p : Slot) (pos : Nat) (src : List UInt8)
  | spoolToFlash (p : Slot)
  | spoolMove (p : Slot)
  | spoolDiscard (p : Slot)
  | enterLarge (p : Slot)
  | enterWake (p : Slot)
  | fork (p child : Slot) (u : List UInt8)
  | forkResume (p : Slot) (u : List UInt8)
  | exit (p : Slot)
  | reap (p : Slot)
  /-- A write to `machdep.swapram_evacuate`. -/
  | postEvac (p : Slot)
  /-- A write to `machdep.swapram_epoch`. -/
  | setEpoch (p : Slot) (e : Epoch)
  /-- `fill_from_u` for the process in `q`, past its `geteblk`. -/
  | fillFromU (p q : Slot)
  | service
  | evacResume
  | swapout (p : Slot) (u : List UInt8)
  | swapoutResume (u : List UInt8)
  | swapin (p : Slot)
  | textRestore (isPacked : Bool)
  | packedEnd
  | swapinResume (pool : Nat → UInt8)

/-- Loaded and not being swapped: the process can be given the processor. Slot 0 is the swapper. -/
def Kernel.Awake (σ : Kernel) (p : Slot) : Prop :=
  p ≠ 0 ∧ (σ.proc p).p_stat = .run ∧ (σ.proc p).sload = true ∧ (σ.proc p).slock = false

/-- Awake, and asleep in none of the places that matter here. -/
def Kernel.Running (σ : Kernel) (p : Slot) : Prop := σ.Awake p ∧ σ.loc p = .user

instance (σ : Kernel) (p : Slot) : Decidable (σ.Awake p) := inferInstanceAs (Decidable (_ ∧ _ ∧ _ ∧ _))

instance (σ : Kernel) (p : Slot) : Decidable (σ.Running p) := inferInstanceAs (Decidable (_ ∧ _))

def Spool.isRam : Spool → Bool
  | .swapram _ _ => true
  | _ => false

/-- A write of `len` bytes at `pos` is inside the spool; on the RAM tier the code checks the end. -/
def Spool.accepts : Spool → Nat → Nat → Bool
  | .none, _, _ => false
  | .swapram _ size, pos, _ => decide (pos ≤ size)
  | .flash _ span, pos, len => decide (pos + len ≤ span * devBsize)

def Where.isWaiting : Where → Bool
  | .waiting _ => true
  | _ => false

def Where.isMoving : Where → Bool
  | .moving _ _ _ => true
  | _ => false

def Where.isForking : Where → Bool
  | .forking _ => true
  | _ => false

def Swapper.isIdle : Swapper → Bool
  | .idle => true
  | _ => false

/-- Asleep under `swapram_evacuate`. -/
def Swapper.isEvacuating : Swapper → Bool
  | .geteblk _ => true
  | .expanding _ _ => true
  | _ => false

def Swapper.isSwapout : Swapper → Bool
  | .swapout _ => true
  | _ => false

def Swapper.isText : Swapper → Bool
  | .text _ => true
  | _ => false

def Swapper.isPacked : Swapper → Bool
  | .packed _ => true
  | _ => false

def Swapper.isReading : Swapper → Bool
  | .reading _ _ _ => true
  | _ => false

/-- The event can happen in this state. -/
def Kernel.Enabled (cfg : Conf) (σ : Kernel) : Event → Prop
  | .store p img _ =>
    σ.Running p ∧ img.WF (σ.proc p) ∧ img.dsize + img.ssize ≤ swapramCeiling cfg σ p
  | .estabSmall p img => σ.Running p ∧ img.WF (σ.proc p) ∧ img.dsize + img.ssize ≤ maxmem
  | .spoolAlloc p size => σ.Running p ∧ σ.spool p = .none ∧ 0 < size ∧ size < 2 ^ 32
  | .spoolWrite p pos src => σ.Running p ∧ (σ.spool p).accepts pos src.length = true
  | .spoolToFlash p => σ.Running p ∧ (σ.spool p).isRam = true
  | .spoolMove p => σ.Awake p ∧ (σ.loc p).isMoving = true
  | .spoolDiscard p => σ.Running p ∧ σ.spool p ≠ .none
  | .enterLarge p => σ.Running p ∧ (σ.spool p).isRam = false
  | .enterWake p => σ.Awake p ∧ (σ.loc p).isWaiting = true
  | .fork p child u =>
    σ.Running p ∧ σ.spool p = .none ∧ child ≠ 0 ∧ (σ.proc child).p_stat = .free ∧ u.length = usize
  | .forkResume p u => (σ.loc p).isForking = true ∧ u.length = usize
  | .exit p => σ.Running p ∧ p ≠ 1 ∧ σ.spool p = .none
  | .reap p => (σ.proc p).p_stat = .zomb
  | .postEvac p => σ.Running p
  | .setEpoch p _ => σ.Running p
  | .fillFromU p _ => σ.Running p
  | .service => σ.swapper.isIdle = true
  | .evacResume => σ.swapper.isEvacuating = true
  | .swapout p u =>
    σ.swapper.isIdle = true ∧ σ.Awake p ∧ (σ.loc p).isForking = false ∧ u.length = usize
  | .swapoutResume u => σ.swapper.isSwapout = true ∧ u.length = usize
  | .swapin p =>
    σ.swapper.isIdle = true ∧ p ≠ 0 ∧ (σ.proc p).p_stat = .run ∧
      ∀ q, q ≠ 0 → (σ.proc q).p_stat = .run → (σ.proc q).sload = false
  | .textRestore _ => σ.swapper.isText = true
  | .packedEnd => σ.swapper.isPacked = true
  | .swapinResume _ => σ.swapper.isReading = true

instance (cfg : Conf) (σ : Kernel) (e : Event) : Decidable (σ.Enabled cfg e) := by
  cases e <;> unfold Kernel.Enabled <;> infer_instance

/-- The event happens. -/
def Kernel.step (cfg : Conf) (σ : Kernel) : Event → Except Fault Kernel
  | .store p img pool => .ok (clobber (σ.setProc p ((σ.proc p).become img)) p pool)
  | .estabSmall p img =>
    let σ := swapramLeaveLarge σ p
    .ok (σ.setProc p ((σ.proc p).become img))
  | .spoolAlloc p size => execSpoolAlloc σ p size
  | .spoolWrite p pos src => execSpoolWrite cfg σ p pos src
  | .spoolToFlash p =>
    match σ.spool p with
    | .swapram _ size => execSpoolToFlash σ p size
    | _ => .ok σ
  | .spoolMove p =>
    match σ.loc p, σ.spool p with
    | .moving blkno span position, .swapram off size =>
      execSpoolMove cfg σ p off size blkno span position
    | _, _ => .ok σ
  | .spoolDiscard p => execSpoolDiscard σ p
  | .enterLarge p => .ok (swapramEnterLarge σ p)
  | .enterWake p =>
    match σ.loc p with
    | .waiting seq => .ok (enterWake σ p seq)
    | _ => .ok σ
  | .fork p child u => newproc cfg σ p child u
  | .forkResume p u =>
    match σ.loc p with
    | .forking child =>
      match σ.job child with
      | some j => .ok (newprocResume σ p child u j)
      | none => .ok σ
    | _ => .ok σ
  | .exit p => .ok (Swap.exit σ p)
  | .reap p => .ok (Swap.reap σ p)
  | .postEvac _ => .ok { σ with swapram_evac := .pending }
  | .setEpoch _ e => .ok (swapramSetEpoch σ e)
  | .fillFromU _ q =>
    if swapramPresent σ q then (swapramUareaPrefix σ q devBsize).map Prod.snd else .ok σ
  | .service => swapramService σ
  | .evacResume =>
    match σ.swapper with
    | .geteblk why => evacNext σ (List.finRange nproc) >>= evacContinue why
    | .expanding why loc => Swap.evacResume σ loc >>= evacContinue why
    | _ => .ok σ
  | .swapout p u => do
    let σ ← swapoutBegin cfg (σ.setProc p { σ.proc p with sload := false }) p u
    pure (if (σ.job p).isSome then { σ with swapper := .swapout p } else σ)
  | .swapoutResume u =>
    match σ.swapper with
    | .swapout p =>
      match σ.job p with
      | some j =>
        let σ := Swap.swapoutResume σ p u j
        .ok (if (σ.job p).isSome then σ else { σ with swapper := .idle })
      | none => .ok σ
    | _ => .ok σ
  | .swapin p => swapinBegin cfg σ p
  | .textRestore isPacked =>
    match σ.swapper with
    | .text p => Swap.textRestore cfg σ p isPacked
    | _ => .ok σ
  | .packedEnd =>
    match σ.swapper with
    | .packed p => Swap.packedEnd cfg σ p
    | _ => .ok σ
  | .swapinResume pool =>
    match σ.swapper with
    | .reading p todo got => Swap.swapinResume cfg σ p pool got todo
    | _ => .ok σ

/-! ## The start -/

def Proc.unused : Proc := ⟨.free, false, false, false, 0, 0, 0, false, fun _ => 0, fun _ => []⟩

/-- Process 1 as `init_main` leaves it: loaded, with no executable to read text from. -/
def Proc.init : Proc := ⟨.run, true, false, false, 0, 0, 0, false, fun _ => 0,
  ![[], [], List.replicate usize 0]⟩

/-- The swapper's own slot, which is never swapped. -/
def Proc.swapper : Proc := ⟨.run, true, false, false, 0, 0, 0, false, fun _ => 0, fun _ => []⟩

/-- The kernel once process 1 runs: the pool empty, the swap map holding the whole device, and the
    cursor wherever `swap_cursor_init` found it. -/
def boot (cfg : Conf) (mp : Map) (next : Nat) : Kernel where
  sr_pool := fun _ => 0
  sr_map := swapramPoolInit cfg.pool (nproc + 1)
  sr_spools := 0
  sr_tab := fun _ => ⟨fun _ => 0, 0, 0, fun _ => 0, false⟩
  sr_admit := true
  swapram_evac := .idle
  swapram_epoch := .small
  sr_nlarge := 0
  sr_large_want := false
  sr_small_want := false
  sr_large_seq := 0
  sr_codec_owner := none
  proc := fun p => if p = 0 then .swapper else if p = 1 then .init else .unused
  swapmap := mp
  swapnext := next
  flash := fun _ => 0
  swapper := .idle
  spool := fun _ => .none
  loc := fun _ => .user
  job := fun _ => none
  saved := fun _ _ => []
  log := []

/-- The states of every run all of whose steps meet `ok`. -/
inductive Runs (cfg : Conf) (ok : Kernel → Event → Prop) : Kernel → Prop
  | boot {lost : Option Lost} {mp : Map} (next : Nat) : initSwapmap cfg.dev = .ok (lost, mp) →
      Runs cfg ok (boot cfg mp next)
  | step {σ σ' : Kernel} (e : Event) : Runs cfg ok σ → σ.Enabled cfg e → ok σ e →
      σ.step cfg e = .ok σ' → Runs cfg ok σ'

/-- The states of every run. -/
abbrev Reachable (cfg : Conf) : Kernel → Prop := Runs cfg fun _ _ => True

theorem Runs.mono {cfg : Conf} {ok ok' : Kernel → Event → Prop} {σ : Kernel} (h : Runs cfg ok σ)
    (hok : ∀ σ e, ok σ e → ok' σ e) : Runs cfg ok' σ := by
  induction h with
  | boot next hmap => exact .boot next hmap
  | step e _ hen hmeet hstep ih => exact ih.step e hen (hok _ _ hmeet) hstep

theorem Runs.reachable {cfg : Conf} {ok : Kernel → Event → Prop} {σ : Kernel}
    (h : Runs cfg ok σ) : Reachable cfg σ := h.mono fun _ _ _ => trivial

/-! ## Given runs -/

/-- A run given as the list of its events: where it ends, or nothing when one of them cannot happen,
    does not meet `ok`, or panics. -/
def Kernel.exec (cfg : Conf) (ok : Kernel → Event → Bool) (σ : Kernel) : List Event → Option Kernel
  | [] => some σ
  | e :: es =>
    if σ.Enabled cfg e ∧ ok σ e = true then
      match σ.step cfg e with
      | .ok σ' => σ'.exec cfg ok es
      | .error _ => none
    else none

theorem Runs.exec {cfg : Conf} {ok : Kernel → Event → Bool} {σ σ' : Kernel} {es : List Event}
    (h : Runs cfg (fun σ e => ok σ e = true) σ) (hes : σ.exec cfg ok es = some σ') :
    Runs cfg (fun σ e => ok σ e = true) σ' := by
  induction es generalizing σ with
  | nil =>
    cases hes
    exact h
  | cons e es ih =>
    simp only [Kernel.exec] at hes
    split at hes
    · rename_i hen
      split at hes
      · rename_i hstep
        exact ih (h.step e hen.1 hen.2 hstep) hes
      · cases hes
    · cases hes

/-- A u area of zeros. -/
def zeroU : List UInt8 := List.replicate usize 0

/-- Its stream: one literal, eleven back-references of 256 bytes and one of 255. -/
def zeroStream : List UInt8 :=
  [128, 0, 31, 224, 7, 248, 1, 254, 0, 127, 128, 31, 224, 7, 248, 1, 254, 0, 127, 128, 31, 224, 7,
    248, 1, 254, 0, 127, 0]

/-- The stream after its literal, with `b` of the longer back-references left. -/
def zeroTail (b : Nat) : List Bool :=
  (List.replicate b refBits).flatten ++
    false :: (List.replicate 9 false ++ (natBits 8 254 ++ List.replicate 7 false))

theorem refDecode_zeroTail (b : Nat) {n : Nat} (hn : 0 < n) :
    refDecode 8 (zeroTail b) (List.replicate n 0) = List.replicate (n + 256 * b + 255) 0 := by
  induction b generalizing n with
  | zero =>
    have hlast : zeroTail 0 =
      false :: (List.replicate 9 false ++ (natBits 8 254 ++ List.replicate 7 false)) := rfl
    rw [hlast, refDecode_repeat 0 hn (natBits_length 8 254), refDecode_short (.inl (by decide)),
      show bitsVal (natBits 8 254) + 1 = 255 by decide]
  | succ b ih =>
    have htail : zeroTail (b + 1) =
        false :: (List.replicate 9 false ++ (List.replicate 8 true ++ zeroTail b)) := rfl
    rw [htail, refDecode_repeat 0 hn (List.length_replicate : _ = 8),
      show bitsVal (List.replicate 8 true) + 1 = 256 by decide, ih (by omega)]
    congr 1
    omega

theorem refDecode_zeroStream : refDecode lookaheadBits (bytesBits zeroStream) [] = zeroU := by
  have hbits : bytesBits zeroStream = true :: (natBits 8 0 ++ zeroTail 11) := by
    decide +kernel
  rw [hbits, refDecode_literal (natBits_length 8 0)]
  exact refDecode_zeroTail 11 Nat.one_pos

/-- The PICO configuration, with an encoder for the one u area that the given runs swap. -/
def pico : Conf where
  pool := 16 * 1024
  pool_pos := by decide
  pool_le := by decide
  dev := .fl1
  u0 := 0x20030000
  encode := fun src => if src = zeroU then some zeroStream else none
  decodes := by
    intro src bytes h
    split at h
    · rename_i hsrc
      cases h
      rw [hsrc]
      exact refDecode_zeroStream
    · cases h
  worst := by
    intro src bytes h
    split at h
    · rename_i hsrc
      cases h
      rw [hsrc, zeroU, List.length_replicate]
      decide
    · cases h

/-- The swap map of the flash unit after `init_main`. -/
def picoMap : Map := ⟨⟨4, 380⟩ :: List.replicate 28 ⟨0, 0⟩, "swapmap", 16⟩

/-- A given run from boot, and a property of where it ends. -/
theorem Runs.given (cfg : Conf) (ok : Kernel → Event → Bool) (es : List Event) (P : Kernel → Bool)
    (hboot : initSwapmap cfg.dev = .ok (none, picoMap))
    (h : ((Swap.boot cfg picoMap 4).exec cfg ok es).any P) :
    ∃ σ, Runs cfg (fun σ e => ok σ e = true) σ ∧ P σ = true := by
  cases hes : (Swap.boot cfg picoMap 4).exec cfg ok es with
  | none => rw [hes] at h; cases h
  | some σ =>
    rw [hes] at h
    exact ⟨σ, (Runs.boot 4 hboot).exec hes, h⟩

end DiscoBSD.Swap
