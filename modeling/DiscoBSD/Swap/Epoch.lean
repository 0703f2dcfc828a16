import Mathlib
import DiscoBSD.Swap.Control

/-!
# The epoch machine

The epoch is asked for by one process and granted by another, and everything the two rely on happens at
sleep points in between. The invariant over the control state ties the three counters to the
tables they count, and says what each epoch and each place the swapper sleeps in stands for:

* under LARGE the tier is closed and empty, and no spool is left in the pool;
* while an evacuation sleeps the tier is closed, the epoch is still SMALL, and **every image that is
  left is in a slot the loop has not passed**, so that the end of the loop is an empty tier.

The same invariant says who owns the codec workspace: whoever sleeps with it, and nobody else.
-/

set_option autoImplicit false

namespace DiscoBSD.Swap

open DiscoBSD.Lib DiscoBSD.Rmap DiscoBSD.Hsx DiscoBSD.Swapram
open Function (update)

/-- The slots `swapram_evacuate` has still to pass, when the swapper sleeps under it. -/
def Swapper.pending : Swapper → Option (Purpose × List Slot)
  | .geteblk why => some (why, List.finRange nproc)
  | .expanding why loc => some (why, loc.slot :: loc.rest)
  | _ => none

/-- The workspace, as long as the swapper sleeps. -/
def Swapper.codec : Swapper → Option Codec
  | .expanding _ _ => some .decoder
  | .packed _ => some .packedText
  | _ => none

theorem Swapper.eq_idle {s : Swapper} (h : s.isIdle = true) : s = .idle := by
  cases s <;> first | rfl | cases h

/-- How many slots pass a test. -/
def tally (f : Slot → Bool) : Nat := (List.finRange nproc).countP f

/-- What an evacuation relies on while it sleeps. -/
def Evacuating (c : Ctl) (why : Purpose) (slots : List Slot) : Prop :=
  c.takes = false ∧ c.epoch = .small ∧ (why = .large → ∀ p, c.ram p = false) ∧
    ∀ p, c.live p = true → p ∈ slots

structure EpochInv (c : Ctl) : Prop where
  count : c.nlarge = tally c.large
  granted : 0 < c.nlarge → c.epoch = .large
  closed : c.epoch = .large → c.takes = false
  empty : c.epoch = .large → ∀ p, c.live p = false
  noSpool : c.epoch = .large → ∀ p, c.ram p = false
  spools : c.spools = tally c.ram
  evac : ∀ why slots, c.swapper.pending = some (why, slots) → Evacuating c why slots
  owner : c.owner = c.swapper.codec
  used : ∀ p, c.large p = true → c.stat p = .run
  waiting : ∀ p, c.wait p ≠ none → c.large p = false ∧ c.stat p = .run

/-! ## Counting -/

theorem tally_true {f : Slot → Bool} {p : Slot} (h : f p = false) :
    tally (update f p true) = tally f + 1 := by
  have h₁ := countP_update f true (List.nodup_finRange nproc) (List.mem_finRange p)
  have h₂ := countP_split f (List.nodup_finRange nproc) (List.mem_finRange p)
  rw [h] at h₂
  exact h₁.trans (by rw [tally, h₂]; rfl)

theorem tally_false {f : Slot → Bool} {p : Slot} (h : f p = true) :
    tally (update f p false) + 1 = tally f := by
  have h₁ := countP_update f false (List.nodup_finRange nproc) (List.mem_finRange p)
  have h₂ := countP_split f (List.nodup_finRange nproc) (List.mem_finRange p)
  rw [h] at h₂
  rw [tally, tally, h₁, h₂]
  rfl

theorem tally_eq_zero {f : Slot → Bool} (h : tally f = 0) (p : Slot) : f p = false := by
  have := List.countP_eq_zero.mp h p (List.mem_finRange p)
  simpa using this

theorem tally_pos {f : Slot → Bool} {p : Slot} (h : f p = true) : 0 < tally f :=
  List.countP_pos_iff.mpr ⟨p, List.mem_finRange p, h⟩

/-- A slot whose entry is written over with what it holds. -/
theorem update_same {β : Type} {f : Slot → β} {p : Slot} {b : β} (h : f p = b) : update f p b = f := by
  rw [← h]
  exact Function.update_eq_self p f

/-! ## What leaves the invariant alone -/

section
variable {c : Ctl}

theorem EpochInv.log (h : EpochInv c) (l : List Note) : EpochInv { c with log := l } :=
  ⟨h.count, h.granted, h.closed, h.empty, h.noSpool, h.spools, h.evac, h.owner, h.used, h.waiting⟩

theorem EpochInv.seq (h : EpochInv c) (n : Nat) : EpochInv { c with largeSeq := n } :=
  ⟨h.count, h.granted, h.closed, h.empty, h.noSpool, h.spools, h.evac, h.owner, h.used, h.waiting⟩

/-- A process that is not large may wait or stop waiting. -/
theorem EpochInv.wait (h : EpochInv c) {p : Slot} {w : Option Nat}
    (hw : w ≠ none → c.large p = false ∧ c.stat p = .run) :
    EpochInv { c with wait := update c.wait p w } := by
  refine ⟨h.count, h.granted, h.closed, h.empty, h.noSpool, h.spools, h.evac, h.owner, h.used,
    fun q hq => ?_⟩
  by_cases hqp : q = p
  · subst hqp
    exact hw (by simpa using hq)
  · exact h.waiting q (by simpa [Function.update_of_ne hqp] using hq)

/-- The swapper may go to sleep anywhere outside an evacuation, with the workspace it then owns. -/
theorem EpochInv.swapperOwns (h : EpochInv c) {s : Swapper} (hp : s.pending = none) :
    EpochInv { c with swapper := s, owner := s.codec } :=
  ⟨h.count, h.granted, h.closed, h.empty, h.noSpool, h.spools,
    fun why slots hs => absurd hs (by rw [hp]; exact fun h => nomatch h), rfl, h.used, h.waiting⟩

theorem EpochInv.swapperAt (h : EpochInv c) {s : Swapper} (hp : s.pending = none)
    (ho : s.codec = c.owner) : EpochInv { c with swapper := s } := by
  have h₁ := h.swapperOwns hp
  rwa [ho] at h₁

/-- The tier may close at any time. -/
theorem EpochInv.close (h : EpochInv c) : EpochInv { c with takes := false } :=
  ⟨h.count, h.granted, fun _ => rfl, h.empty, h.noSpool, h.spools,
    fun why slots hp => ⟨rfl, (h.evac why slots hp).2⟩, h.owner, h.used, h.waiting⟩

/-- It opens under SMALL, when no evacuation is under way. -/
theorem EpochInv.reopen (h : EpochInv c) (hs : c.epoch = .small) (hp : c.swapper.pending = none) :
    EpochInv { c with takes := true } :=
  ⟨h.count, h.granted, fun he => absurd (hs.symm.trans he) (fun h => nomatch h), h.empty, h.noSpool, h.spools,
    fun why slots hq => absurd hq (by rw [hp]; exact fun h => nomatch h), h.owner, h.used,
    h.waiting⟩

/-- An image leaves the tier. -/
theorem EpochInv.release (h : EpochInv c) (p : Slot) :
    EpochInv { c with live := update c.live p false } := by
  have hsub : ∀ q, update c.live p false q = true → c.live q = true := by
    intro q hq
    by_cases hqp : q = p
    · subst hqp
      simp at hq
    · rwa [Function.update_of_ne hqp] at hq
  refine ⟨h.count, h.granted, h.closed, fun he q => ?_, h.noSpool, h.spools, fun why slots hp => ?_,
    h.owner, h.used, h.waiting⟩
  swap
  · obtain ⟨ha, hs, hr, hleft⟩ := h.evac why slots hp
    exact ⟨ha, hs, hr, fun q hq => hleft q (hsub q hq)⟩
  by_contra hq
  exact absurd (h.empty he q) (by simpa using hsub q (by simpa using hq))

/-- An image enters the tier while it is open. -/
theorem EpochInv.admitImage (h : EpochInv c) (p : Slot) (ha : c.takes = true) :
    EpochInv { c with live := update c.live p true } :=
  ⟨h.count, h.granted, h.closed,
    fun he => absurd ((h.closed he).symm.trans ha) (fun h => nomatch h), h.noSpool, h.spools,
    fun why slots hp => absurd ((h.evac why slots hp).1.symm.trans ha) (fun h => nomatch h),
    h.owner, h.used, h.waiting⟩

/-- A spool enters the pool while it is open. -/
theorem EpochInv.admitSpool (h : EpochInv c) {p : Slot} (ha : c.takes = true) (hr : c.ram p = false) :
    EpochInv { c with spools := c.spools + 1, ram := update c.ram p true } :=
  ⟨h.count, h.granted, h.closed, h.empty,
    fun he => absurd ((h.closed he).symm.trans ha) (fun h => nomatch h),
    by simp only [tally_true hr, h.spools],
    fun why slots hp => absurd ((h.evac why slots hp).1.symm.trans ha) (fun h => nomatch h),
    h.owner, h.used, h.waiting⟩

/-- A spool leaves it. -/
theorem EpochInv.dropSpool (h : EpochInv c) {p : Slot} (hr : c.ram p = true) :
    EpochInv { c with spools := c.spools - 1, ram := update c.ram p false } := by
  have hsub : ∀ q, c.ram q = false → update c.ram p false q = false := by
    intro q hq
    by_cases hqp : q = p
    · subst hqp
      simp
    · rwa [Function.update_of_ne hqp]
  refine ⟨h.count, h.granted, h.closed, h.empty, fun he q => hsub q (h.noSpool he q), ?_,
    fun why slots hp => ?_, h.owner, h.used, h.waiting⟩
  · have := tally_false hr
    simp only [h.spools]
    omega
  · obtain ⟨ha, hs, hram, hleft⟩ := h.evac why slots hp
    exact ⟨ha, hs, fun hw q => hsub q (hram hw q), hleft⟩

/-! ## The bonus -/

/-- A process is admitted to LARGE. -/
theorem EpochInv.enter (h : EpochInv c) {p : Slot} (he : c.epoch = .large) (hl : c.large p = false)
    (hs : c.stat p = .run) :
    EpochInv { c with
      nlarge := c.nlarge + 1, large := update c.large p true, wait := update c.wait p none } := by
  have hother : ∀ q, q ≠ p → update c.large p true q = c.large q := fun q hq =>
    Function.update_of_ne hq _ _
  refine ⟨?_, fun _ => he, h.closed, h.empty, h.noSpool, h.spools, h.evac, h.owner,
    fun q hq => ?_, fun q hq => ?_⟩
  · simp only [tally_true hl, h.count]
    rfl
  · by_cases hqp : q = p
    · exact hqp ▸ hs
    · exact h.used q (hother q hqp ▸ hq)
  · by_cases hqp : q = p
    · subst hqp
      simp at hq
    · simp only [Function.update_of_ne hqp] at hq ⊢
      exact h.waiting q hq

/-- A process gives the bonus back. -/
theorem EpochInv.leave (h : EpochInv c) {p : Slot} (hl : c.large p = true) :
    EpochInv { c with nlarge := c.nlarge - 1, large := update c.large p false } := by
  have hsub : ∀ q, update c.large p false q = true → c.large q = true := by
    intro q hq
    by_cases hqp : q = p
    · subst hqp
      simp at hq
    · rwa [Function.update_of_ne hqp] at hq
  have hcount := tally_false hl
  have he : c.epoch = .large := h.granted (by
    rw [h.count, ← hcount]
    omega)
  refine ⟨?_, fun _ => he, h.closed, h.empty, h.noSpool, h.spools, h.evac, h.owner,
    fun q hq => h.used q (hsub q hq), fun q hq => ⟨?_, (h.waiting q hq).2⟩⟩
  · simp only [h.count, ← hcount]
    omega
  · by_contra hq'
    exact absurd (h.waiting q hq).1 (by simpa using hsub q (by simpa using hq'))

/-- The slot of a process that is neither large nor waiting changes hands. -/
theorem EpochInv.setStat (h : EpochInv c) {p : Slot} (s : Stat) (hl : c.large p = false)
    (hw : c.wait p = none) : EpochInv { c with stat := update c.stat p s } := by
  refine ⟨h.count, h.granted, h.closed, h.empty, h.noSpool, h.spools, h.evac, h.owner,
    fun q hq => ?_, fun q hq => ?_⟩
  · by_cases hqp : q = p
    · subst hqp
      exact absurd hq (by rw [hl]; decide)
    · simp only [Function.update_of_ne hqp]
      exact h.used q hq
  · by_cases hqp : q = p
    · subst hqp
      exact absurd hw hq
    · simp only [Function.update_of_ne hqp]
      exact h.waiting q hq

/-- LARGE is granted on a tier that is closed and empty. -/
theorem EpochInv.toLarge (h : EpochInv c) (ha : c.takes = false) (hl : ∀ p, c.live p = false)
    (hr : ∀ p, c.ram p = false) (hp : c.swapper.pending = none) :
    EpochInv { c with epoch := .large } :=
  ⟨h.count, fun _ => rfl, fun _ => ha, fun _ => hl, fun _ => hr, h.spools,
    fun why slots hq => absurd hq (by rw [hp]; exact fun h => nomatch h), h.owner, h.used, h.waiting⟩

/-- An evacuation has reserved its flash and sleeps. -/
theorem EpochInv.toEvac {why : Purpose} (h : EpochInv { c with swapper := .idle })
    (ha : c.takes = false) (hs : c.epoch = .small) (hr : why = .large → ∀ p, c.ram p = false) :
    EpochInv { c with swapper := .geteblk why } := by
  refine ⟨h.count, h.granted, h.closed, h.empty, h.noSpool, h.spools, fun why' slots hp => ?_,
    h.owner, h.used, h.waiting⟩
  cases hp
  exact ⟨ha, hs, hr, fun q _ => List.mem_finRange q⟩

/-- SMALL is granted when no large process is left. -/
theorem EpochInv.toSmall (h : EpochInv c) (h0 : c.nlarge = 0) (hp : c.swapper.pending = none) :
    EpochInv { c with epoch := .small, takes := true } :=
  ⟨h.count, fun hpos => absurd hpos (by simp only [h0]; decide), (nomatch ·), (nomatch ·),
    (nomatch ·), h.spools,
    fun why slots hq => absurd hq (by rw [hp]; exact fun h => nomatch h), h.owner, h.used, h.waiting⟩

end

/-! ## The service routine

The swapper runs `swapram_service` from its own loop or from inside an evacuation, and in both cases ends
at the top of its loop or asleep in an evacuation. The lemmas take the invariant with the swapper
already at the top. -/

section
variable {cfg : Conf} {σ σ' : Kernel} {p : Slot}

theorem serviceSmall_inv (h : EpochInv { σ.ctl with swapper := .idle }) :
    EpochInv (serviceSmall σ).ctl := by
  unfold serviceSmall
  split
  · rename_i hgrant
    exact h.toSmall hgrant.2.2 rfl
  · exact h

theorem largeAnswer_inv {ok : Bool} (h : EpochInv { σ.ctl with swapper := .idle })
    (ha : σ.sr_admit = false) (hs : σ.swapram_epoch = .small)
    (hok : ok = true → (∀ p, σ.ctl.live p = false) ∧ ∀ p, σ.ctl.ram p = false) :
    EpochInv { (largeAnswer σ ok).ctl with swapper := .idle } := by
  cases ok with
  | true => exact ((h.toLarge ha (hok rfl).1 (hok rfl).2 rfl).log _).seq _
  | false => exact ((h.reopen hs rfl).log _).seq _

theorem finishLarge_inv {ok : Bool} (h : EpochInv { σ.ctl with swapper := .idle })
    (ha : σ.sr_admit = false) (hs : σ.swapram_epoch = .small)
    (hok : ok = true → (∀ p, σ.ctl.live p = false) ∧ ∀ p, σ.ctl.ram p = false) :
    EpochInv (finishLarge σ ok).ctl := serviceSmall_inv (largeAnswer_inv h ha hs hok)

theorem serviceLarge_inv (h : EpochInv { σ.ctl with swapper := .idle })
    (hcall : serviceLarge σ = .ok σ') : EpochInv σ'.ctl := by
  unfold serviceLarge at hcall
  split at hcall
  · rename_i hwant
    simp only at hcall
    split at hcall
    · rename_i hs
      have hram : ∀ p, σ.ctl.ram p = false := by
        have h0 : σ.sr_spools = 0 := hwant.2.resolve_left (fun hne => hne hs)
        exact tally_eq_zero (h.spools.symm.trans h0)
      obtain ⟨⟨r, σ₁⟩, hbegin, hcall⟩ := bind_ok hcall
      obtain ⟨hctl, hempty, _⟩ := evacuateBegin_ctl hbegin
      have h₁ : EpochInv { σ₁.ctl with swapper := .idle } := by
        rw [hctl]
        exact h.close
      cases r with
      | none =>
        cases hcall
        refine h₁.toEvac (c := σ₁.ctl) ?_ ?_ fun _ => ?_
        · rw [hctl]
          rfl
        · rw [hctl]
          exact hs
        · rw [hctl]
          exact hram
      | some ok =>
        cases hcall
        refine finishLarge_inv h₁ ?_ ?_ fun hok => ?_
        · exact congrArg Ctl.takes hctl
        · exact (congrArg Ctl.epoch hctl).trans hs
        · rw [hctl]
          exact ⟨fun q => hempty (by rw [hok]) q, hram⟩
    · cases hcall
      exact serviceSmall_inv (h.seq _)
  · split at hcall
    · cases hcall
      exact serviceSmall_inv h.close
    · cases hcall
      exact serviceSmall_inv h

theorem finishEvac_inv {ok : Bool} (h : EpochInv { σ.ctl with swapper := .idle })
    (hcall : finishEvac σ ok = .ok σ') : EpochInv σ'.ctl := by
  refine serviceLarge_inv ?_ hcall
  have h₁ := h.log (.evacuated ok :: σ.log)
  cases he : σ.swapram_epoch with
  | small =>
    have hctl : { (evacAnswer σ ok).ctl with swapper := .idle } =
        { σ.ctl with swapper := .idle, log := .evacuated ok :: σ.log, takes := true } := by
      simp only [evacAnswer, swapramAdmit, Kernel.note, Kernel.ctl, he]
      rfl
    rw [hctl]
    exact h₁.reopen he rfl
  | large =>
    have hctl : { (evacAnswer σ ok).ctl with swapper := .idle } =
        { σ.ctl with swapper := .idle, log := .evacuated ok :: σ.log, takes := false } := by
      simp only [evacAnswer, swapramAdmit, Kernel.note, Kernel.ctl, he]
      rfl
    rw [hctl]
    exact h₁.close

theorem swapramService_inv (h : EpochInv σ.ctl) (hidle : σ.swapper.isIdle = true)
    (hcall : swapramService σ = .ok σ') : EpochInv σ'.ctl := by
  have hsw := Swapper.eq_idle hidle
  have h₀ : EpochInv { σ.ctl with swapper := .idle } := by
    have hctl : { σ.ctl with swapper := .idle } = σ.ctl := by
      rw [← hsw]
      rfl
    rw [hctl]
    exact h
  unfold swapramService at hcall
  split at hcall
  · obtain ⟨⟨r, σ₁⟩, hbegin, hcall⟩ := bind_ok hcall
    obtain ⟨hctl, _, hsome⟩ := evacuateBegin_ctl hbegin
    have h₁ : EpochInv { σ₁.ctl with swapper := .idle } := by
      rw [hctl]
      exact h₀.close
    cases r with
    | none =>
      cases hcall
      refine h₁.toEvac (c := σ₁.ctl) ?_ ?_ (nomatch ·)
      · rw [hctl]
        rfl
      · rw [hctl]
        -- An image is live, so the epoch is not LARGE.
        cases he : σ.swapram_epoch with
        | small => exact he
        | large => exact absurd (h.empty he) (hsome rfl)
    | some ok => exact finishEvac_inv h₁ hcall
  · exact serviceLarge_inv h₀ hcall

/-! ## Evacuation -/

/-- A resumed evacuation sleeps again, or has emptied the tier and goes on in its caller. -/
theorem evacContinue_inv {why : Purpose} {slots : List Slot} {c : Ctl} {r : Option ExpandAt}
    (h : EpochInv c) (hp : c.swapper.pending = some (why, slots)) (hm : Moved c r σ.ctl)
    (hcall : evacContinue why (r, σ) = .ok σ') : EpochInv σ'.ctl := by
  obtain ⟨ha, hs, hram, _⟩ := h.evac why slots hp
  obtain ⟨⟨live, hframe, hsub⟩, hleft⟩ := hm
  have hempty : c.epoch = .large → ∀ p, live p = false := fun he => absurd (hs.symm.trans he) nofun
  cases r with
  | some loc =>
    cases hcall
    have hctl : { σ with swapper := Swapper.expanding why loc }.ctl =
        { c with live := live, owner := some .decoder, swapper := .expanding why loc } :=
      congrArg (fun c => { c with swapper := Swapper.expanding why loc }) hframe
    rw [hctl]
    refine ⟨h.count, h.granted, h.closed, hempty, h.noSpool, h.spools, fun why' slots' hp' => ?_,
      rfl, h.used, h.waiting⟩
    cases hp'
    refine ⟨ha, hs, hram, fun q hq => ?_⟩
    obtain ⟨loc', hloc, hmem⟩ := hleft q (by rw [hframe]; exact hq)
    cases hloc
    exact hmem
  | none =>
    have hdead : ∀ p, live p = false := by
      intro q
      by_contra hq
      obtain ⟨loc, hloc, _⟩ := hleft q (by rw [hframe]; simpa using hq)
      cases hloc
    have h₁ : EpochInv { σ.ctl with swapper := .idle } := by
      rw [hframe]
      exact ⟨h.count, h.granted, h.closed, hempty, h.noSpool, h.spools, fun _ _ => (nomatch ·),
        rfl, h.used, h.waiting⟩
    cases why with
    | evac => exact finishEvac_inv h₁ hcall
    | large =>
      cases hcall
      refine finishLarge_inv h₁ ?_ ?_ fun _ => ?_
      · exact (congrArg Ctl.takes hframe).trans ha
      · exact (congrArg Ctl.epoch hframe).trans hs
      · rw [hframe]
        exact ⟨hdead, hram rfl⟩

/-! ## The bonus -/

theorem enterLoop_inv (h : EpochInv σ.ctl) (hl : σ.ctl.large p = false) (hs : σ.ctl.stat p = .run) :
    EpochInv (enterLoop σ p).ctl := by
  unfold enterLoop
  split
  · rename_i he
    have hctl : ((({ σ with sr_nlarge := σ.sr_nlarge + 1 }.setProc p
        { σ.proc p with p_large := true }).setLoc p .user).note (.entered p)).ctl =
        { σ.ctl with
          nlarge := σ.ctl.nlarge + 1, large := update σ.ctl.large p true
          wait := update σ.ctl.wait p none, log := .entered p :: σ.log } := by
      have hstat : update σ.ctl.stat p (σ.proc p).p_stat = σ.ctl.stat := update_same rfl
      rw [note_ctl, setLoc_ctl, setProc_ctl]
      exact congrArg (fun s => { σ.ctl with
        nlarge := σ.ctl.nlarge + 1, large := update σ.ctl.large p true, stat := s
        wait := update σ.ctl.wait p none, log := .entered p :: σ.log }) hstat
    rw [hctl]
    exact (h.enter he hl hs).log _
  · rw [setLoc_ctl]
    exact h.wait fun _ => ⟨hl, hs⟩

theorem swapramEnterLarge_inv (h : EpochInv σ.ctl) (hs : σ.ctl.stat p = .run) :
    EpochInv (swapramEnterLarge σ p).ctl := by
  unfold swapramEnterLarge
  split
  · exact h.log _
  · rename_i hl
    exact enterLoop_inv (σ := σ.note (.request p)) (h.log _) (Bool.eq_false_iff.mpr hl) hs

theorem enterWake_inv {seq : Nat} (h : EpochInv σ.ctl) (hloc : σ.loc p = .waiting seq)
    (hs : σ.ctl.stat p = .run) : EpochInv (enterWake σ p seq).ctl := by
  have hl := (h.waiting p (by simp [Kernel.ctl, hloc, Where.waitSeq])).1
  unfold enterWake
  split
  · rw [note_ctl, setLoc_ctl]
    exact (h.wait (p := p) (w := none) fun hne => absurd rfl hne).log _
  · exact enterLoop_inv h hl hs

theorem swapramLeaveLarge_ctl (σ : Kernel) (p : Slot) :
    (σ.ctl.large p = false ∧ swapramLeaveLarge σ p = σ) ∨
    (σ.ctl.large p = true ∧ (swapramLeaveLarge σ p).ctl =
      { σ.ctl with nlarge := σ.ctl.nlarge - 1, large := update σ.ctl.large p false }) := by
  unfold swapramLeaveLarge
  split
  · rename_i hl
    exact .inl ⟨hl, rfl⟩
  · rename_i hl
    refine .inr ⟨Bool.not_eq_false _ |>.mp hl, ?_⟩
    have hctl : ({ σ with sr_nlarge := σ.sr_nlarge - 1 }.setProc p
        { σ.proc p with p_large := false }).ctl =
        { σ.ctl with nlarge := σ.ctl.nlarge - 1, large := update σ.ctl.large p false } := by
      have hstat : update σ.ctl.stat p (σ.proc p).p_stat = σ.ctl.stat := update_same rfl
      rw [setProc_ctl]
      exact congrArg (fun s => { σ.ctl with
        nlarge := σ.ctl.nlarge - 1, large := update σ.ctl.large p false, stat := s }) hstat
    simp only
    split
    · exact hctl
    · exact hctl

theorem swapramLeaveLarge_inv (h : EpochInv σ.ctl) (p : Slot) :
    EpochInv (swapramLeaveLarge σ p).ctl ∧ (swapramLeaveLarge σ p).ctl.large p = false ∧
      (swapramLeaveLarge σ p).ctl.wait = σ.ctl.wait := by
  rcases swapramLeaveLarge_ctl σ p with ⟨hl, heq⟩ | ⟨hl, hctl⟩
  · rw [heq]
    exact ⟨h, hl, rfl⟩
  · rw [hctl]
    exact ⟨h.leave hl, Function.update_self .., rfl⟩

/-! ## Steps and runs -/

theorem swapramInherit_inv {child parent : Slot} (h : EpochInv σ.ctl)
    (hl : σ.ctl.large child = false) (hw : σ.ctl.wait child = none)
    (hs : σ.ctl.stat child = .run) : EpochInv (swapramInherit σ child parent).ctl := by
  unfold swapramInherit
  split
  · rename_i hparent
    have he : σ.ctl.epoch = .large := h.granted (by
      rw [h.count]
      exact_mod_cast tally_pos (f := σ.ctl.large) hparent)
    have hctl : ({ σ with sr_nlarge := σ.sr_nlarge + 1 }.setProc child
        { σ.proc child with p_large := true }).ctl =
        { σ.ctl with
          nlarge := σ.ctl.nlarge + 1, large := update σ.ctl.large child true
          wait := update σ.ctl.wait child none } := by
      have hstat : update σ.ctl.stat child (σ.proc child).p_stat = σ.ctl.stat := update_same rfl
      rw [setProc_ctl, update_same hw]
      exact congrArg (fun s => { σ.ctl with
        nlarge := σ.ctl.nlarge + 1, large := update σ.ctl.large child true, stat := s }) hstat
    rw [hctl]
    exact h.enter he hl hs
  · exact h

/-- A slot that is not in use belongs to nobody. -/
theorem EpochInv.unused {c : Ctl} (h : EpochInv c) (hs : c.stat p ≠ .run) :
    c.large p = false ∧ c.wait p = none := by
  constructor
  · by_contra hl
    exact hs (h.used p (by simpa using hl))
  · by_contra hw
    exact hs (h.waiting p hw).2

/-- A child takes a slot that is not large, and is large when its parent is. -/
theorem newproc_inv {child : Slot} {u : List UInt8} (h : EpochInv σ.ctl)
    (hfree : σ.ctl.stat child = .free) (hcall : newproc cfg σ p child u = .ok σ') :
    EpochInv σ'.ctl := by
  obtain ⟨hl, hw⟩ := h.unused (p := child) (by rw [hfree]; decide)
  obtain ⟨σ₂, hout, hcall⟩ := bind_ok hcall
  have hctl : (σ.setProc child { σ.proc p with
      p_stat := .run, sload := true, slock := false, p_large := false }).ctl =
      { σ.ctl with stat := update σ.ctl.stat child .run } := by
    rw [setProc_ctl]
    exact congrArg (fun l => { σ.ctl with large := l, stat := update σ.ctl.stat child .run })
      (update_same hl)
  generalize σ.setProc child _ = τ at hctl hout
  have h₂ : EpochInv (swapramInherit τ child p).ctl := by
    refine swapramInherit_inv ?_ ?_ ?_ ?_
    · rw [hctl]
      exact h.setStat .run hl hw
    · rw [hctl]
      exact hl
    · rw [hctl]
      exact hw
    · rw [hctl]
      exact Function.update_self ..
  have h₃ : EpochInv σ₂.ctl := by
    rcases swapoutBegin_ctl hout with ⟨ha, hctl', _⟩ | ⟨hctl', _⟩
    · rw [hctl']
      exact h₂.admitImage child ha
    · rw [hctl']
      exact h₂
  cases hcall
  split
  · rw [setLoc_ctl]
    exact h₃.wait fun hne => absurd rfl hne
  · exact h₃

theorem Kernel.Running.wait_eq (h : σ.Running p) : σ.ctl.wait p = none := by
  simp [Kernel.ctl, h.2, Where.waitSeq]

/-- A swapout by the swapper. -/
theorem swapout_inv {u : List UInt8} (h : EpochInv σ.ctl) (hidle : σ.swapper.isIdle = true)
    (hcall : σ.step cfg (.swapout p u) = .ok σ') : EpochInv σ'.ctl := by
  obtain ⟨σ₁, hout, hcall⟩ := bind_ok hcall
  have hctl : (σ.setProc p { σ.proc p with sload := false }).ctl = σ.ctl :=
    setProc_same σ p rfl rfl
  have hsw : σ.ctl.swapper = .idle := Swapper.eq_idle hidle
  have hown : σ.ctl.owner = none := by
    rw [h.owner, hsw]
    rfl
  have h₁ : EpochInv σ₁.ctl ∧ σ₁.ctl.owner = none := by
    rcases swapoutBegin_ctl hout with ⟨ha, hctl', _⟩ | ⟨hctl', _⟩
    · rw [hctl', hctl]
      exact ⟨h.admitImage p ha, hown⟩
    · rw [hctl', hctl]
      exact ⟨h, hown⟩
  cases hcall
  split
  · exact h₁.1.swapperAt rfl h₁.2.symm
  · exact h₁.1

/-- After the text, with the workspace free. -/
theorem swapinLoad_inv (h : EpochInv { σ.ctl with swapper := .idle })
    (hcall : swapinLoad cfg σ p = .ok σ') : EpochInv σ'.ctl := by
  rcases swapinLoad_ctl hcall with hctl | ⟨todo, got, hctl⟩
  · rw [hctl]
    exact h.release p
  · rw [hctl]
    exact h.swapperAt rfl h.owner.symm

/-- **One step keeps the invariant**, whichever thread takes it. -/
theorem EpochInv.step {e : Event} (h : EpochInv σ.ctl) (hen : σ.Enabled cfg e)
    (hcall : σ.step cfg e = .ok σ') : EpochInv σ'.ctl := by
  cases e with
  | store p img pool =>
    cases hcall
    rw [clobber_ctl, become_ctl]
    exact h
  | estabSmall p img =>
    cases hcall
    rw [become_ctl]
    exact (swapramLeaveLarge_inv h p).1
  | spoolAlloc p size =>
    have hram : σ.ctl.ram p = false := by simp [Kernel.ctl, hen.2.1, Spool.isRam]
    rcases execSpoolAlloc_ctl hcall with ⟨ha, _, hctl⟩ | hctl | hctl
    · rw [hctl]
      exact h.admitSpool ha hram
    · rw [hctl]
      exact h
    · rw [hctl, update_same hram]
      exact h
  | spoolWrite p pos src =>
    rw [execSpoolWrite_ctl hcall]
    exact h
  | spoolToFlash p =>
    simp only [Kernel.step] at hcall
    split at hcall
    · rcases execSpoolToFlash_ctl hcall with hctl | hctl
      · rw [hctl]
        exact h
      · rw [hctl]
        exact h.wait fun hne => absurd rfl hne
    · cases hcall
      exact h
  | spoolMove p =>
    simp only [Kernel.step] at hcall
    split at hcall
    · rename_i hspool
      have hram : σ.ctl.ram p = true := by simp [Kernel.ctl, hspool, Spool.isRam]
      rcases execSpoolMove_ctl hcall with hctl | ⟨_, hctl⟩
      · rw [hctl]
        exact h.wait fun hne => absurd rfl hne
      · rw [hctl]
        exact (h.dropSpool hram).wait (p := p) (w := none) fun hne => absurd rfl hne
    · cases hcall
      exact h
  | spoolDiscard p =>
    rcases execSpoolDiscard_ctl hcall with ⟨hram, _, hctl⟩ | ⟨_, hctl⟩
    · rw [hctl]
      exact h.dropSpool hram
    · rw [hctl]
      exact h
  | enterLarge p =>
    cases hcall
    exact swapramEnterLarge_inv h hen.1.1.2.1
  | enterWake p =>
    simp only [Kernel.step] at hcall
    split at hcall
    · rename_i hloc
      cases hcall
      exact enterWake_inv h hloc hen.1.2.1
    · cases hcall
      exact h
  | fork p child u => exact newproc_inv h hen.2.2.2.1 hcall
  | forkResume p u =>
    simp only [Kernel.step] at hcall
    split at hcall
    · split at hcall
      · cases hcall
        unfold newprocResume
        simp only
        split
        · rw [swapoutResume_ctl]
          exact h
        · rw [setLoc_ctl, swapoutResume_ctl]
          exact h.wait fun hne => absurd rfl hne
      · cases hcall
        exact h
    · cases hcall
      exact h
  | exit p =>
    cases hcall
    obtain ⟨h₁, hl, hw⟩ := swapramLeaveLarge_inv h p
    rw [Swap.exit, setProc_ctl]
    have hself : update (swapramLeaveLarge σ p).ctl.large p ((swapramLeaveLarge σ p).proc p).p_large =
        (swapramLeaveLarge σ p).ctl.large := update_same rfl
    rw [hself]
    exact h₁.setStat .zomb hl (by rw [hw]; exact hen.1.wait_eq)
  | reap p =>
    cases hcall
    obtain ⟨hl, hw⟩ := h.unused (p := p) (by rw [show σ.ctl.stat p = .zomb from hen]; decide)
    rw [reap, setProc_ctl]
    simp only [update_same hl]
    exact h.setStat .free hl hw
  | postEvac p =>
    cases hcall
    exact h
  | setEpoch p e =>
    cases hcall
    cases e <;> exact h
  | fillFromU p q =>
    simp only [Kernel.step] at hcall
    split at hcall
    · obtain ⟨⟨r, τ⟩, hu, rfl⟩ := exists_of_map_eq_ok hcall
      rw [swapramUareaPrefix_ok hu]
      exact h
    · cases hcall
      exact h
  | service => exact swapramService_inv h hen hcall
  | evacResume =>
    simp only [Kernel.step] at hcall
    split at hcall
    · rename_i why hsw
      obtain ⟨⟨r, σ₁⟩, hnext, hcont⟩ := bind_ok hcall
      have hown : σ.ctl.owner = none := by rw [h.owner, show σ.ctl.swapper = _ from hsw]; rfl
      exact evacContinue_inv h (by rw [show σ.ctl.swapper = _ from hsw]; rfl)
        (evacNext_ctl hown (fun q _ => List.mem_finRange q) hnext) hcont
    · rename_i why loc hsw
      obtain ⟨⟨r, σ₁⟩, hres, hcont⟩ := bind_ok hcall
      have hpend : σ.ctl.swapper.pending = some (why, loc.slot :: loc.rest) := by
        rw [show σ.ctl.swapper = _ from hsw]; rfl
      have hown : σ.ctl.owner = some .decoder := by
        rw [h.owner, show σ.ctl.swapper = _ from hsw]; rfl
      exact evacContinue_inv h hpend
        (evacResume_ctl (h.evac _ _ hpend).2.2.2 hown hres) hcont
    · cases hcall
      exact h
  | swapout p u => exact swapout_inv h hen.1 hcall
  | swapoutResume u =>
    simp only [Kernel.step] at hcall
    split at hcall
    · rename_i p hsw
      have hown : σ.ctl.owner = none := by rw [h.owner, show σ.ctl.swapper = _ from hsw]; rfl
      split at hcall
      · rename_i j _
        have hctl := swapoutResume_ctl σ p u j
        cases hcall
        split
        · rw [hctl]
          exact h
        · show EpochInv { (swapoutResume σ p u j).ctl with swapper := .idle }
          rw [hctl]
          exact h.swapperAt rfl hown.symm
      · cases hcall
        exact h
    · cases hcall
      exact h
  | swapin p =>
    have hown : σ.ctl.owner = none := by
      rw [h.owner, show σ.ctl.swapper = _ from Swapper.eq_idle hen.1]; rfl
    simp only [Kernel.step, swapinBegin] at hcall
    split at hcall
    · cases hcall
      exact h.swapperAt rfl hown.symm
    · exact swapinLoad_inv (h.swapperAt rfl hown.symm) hcall
  | textRestore isPacked =>
    simp only [Kernel.step] at hcall
    split at hcall
    · rename_i p hsw
      have hown : σ.ctl.owner = none := by rw [h.owner, show σ.ctl.swapper = _ from hsw]; rfl
      unfold textRestore at hcall
      split at hcall
      · obtain ⟨σ₁, hacq, rfl⟩ := exists_of_map_eq_ok hcall
        obtain ⟨_, rfl⟩ := swapramCodecAcquire_ok hacq
        exact h.swapperOwns (s := .packed p) rfl
      · exact swapinLoad_inv (h.swapperAt rfl hown.symm) hcall
    · cases hcall
      exact h
  | packedEnd =>
    simp only [Kernel.step] at hcall
    split at hcall
    · rename_i p hsw
      obtain ⟨σ₁, hrel, hload⟩ := bind_ok hcall
      obtain ⟨_, rfl⟩ := swapramCodecRelease_ok hrel
      exact swapinLoad_inv (h.swapperOwns (s := .idle) rfl) hload
    · cases hcall
      exact h
  | swapinResume pool =>
    simp only [Kernel.step] at hcall
    split at hcall
    · rename_i p todo got hsw
      have hown : σ.ctl.owner = none := by rw [h.owner, show σ.ctl.swapper = _ from hsw]; rfl
      rcases swapinResume_ctl hcall with hctl | ⟨todo', got', hctl⟩
      · rw [hctl]
        exact h.swapperAt rfl hown.symm
      · rw [hctl]
        exact h.swapperAt rfl hown.symm
    · cases hcall
      exact h

theorem EpochInv.boot (cfg : Conf) (mp : Map) (next : Nat) : EpochInv (boot cfg mp next).ctl := by
  have hlarge : ∀ q, (Swap.boot cfg mp next).ctl.large q = false := by
    intro q
    simp only [Kernel.ctl, Swap.boot, Function.comp]
    split
    · rfl
    · split <;> rfl
  refine ⟨?_, by rintro ⟨⟩, by rintro ⟨⟩, by rintro ⟨⟩, by rintro ⟨⟩, ?_,
    by rintro _ _ ⟨⟩, rfl, fun q hq => ?_, fun q hq => absurd rfl hq⟩
  · have h0 : tally (Swap.boot cfg mp next).ctl.large = 0 :=
      List.countP_eq_zero.mpr fun q _ => by rw [hlarge q]; decide
    rw [h0]
    rfl
  · exact (List.countP_eq_zero.mpr fun q _ => Bool.false_ne_true).symm
  · exact absurd hq (by rw [hlarge q]; decide)

theorem Runs.epochInv {ok : Kernel → Event → Prop} (h : Runs cfg ok σ) : EpochInv σ.ctl := by
  induction h with
  | boot next _ => exact EpochInv.boot cfg _ next
  | step e _ hen _ hcall ih => exact ih.step hen hcall

/-- **The epoch machine is sound, over every interleaving.** Under LARGE the tier holds no image and no
    spool and takes neither; the large-process counter counts the processes with the flag; and a
    process holds the bonus only under LARGE. -/
theorem epoch_sound (h : Reachable cfg σ) :
    (σ.swapram_epoch = .large →
      (∀ p, (σ.sr_tab p).e_live = false) ∧ σ.sr_spools = 0 ∧ σ.sr_admit = false ∧
      (∀ p, (σ.spool p).isRam = false) ∧
      (∀ p dsrc ssrc ulen, swapramOut cfg σ p dsrc ssrc ulen = .ok (false, σ)) ∧
      (∀ size, swapramSpoolAlloc σ size = (none, σ))) ∧
    σ.sr_nlarge = (List.finRange nproc).countP (fun p => (σ.proc p).p_large) ∧
    (0 < σ.sr_nlarge → σ.swapram_epoch = .large) := by
  have hinv := h.epochInv
  refine ⟨fun he => ?_, hinv.count, hinv.granted⟩
  have hlive := hinv.empty he
  have hclosed : σ.sr_admit = false := hinv.closed he
  refine ⟨hlive, ?_, hclosed, hinv.noSpool he, fun p dsrc ssrc ulen => ?_, fun size => ?_⟩
  · exact hinv.spools.trans (List.countP_eq_zero.mpr fun q _ => by
      rw [hinv.noSpool he q]; decide)
  · rw [swapramOut, if_neg (by rw [show (σ.sr_tab p).e_live = false from hlive p]; decide),
      if_pos (.inl hclosed)]
  · rw [swapramSpoolAlloc, if_pos (.inl hclosed)]

end

/-- Process 1 asks for LARGE, the swapper grants it on an empty tier, and the process is admitted. -/
theorem epoch_sound_granted : ∃ σ, Reachable pico σ ∧ σ.sr_nlarge = 1 ∧ σ.swapram_epoch = .large ∧
    σ.sr_admit = false := by
  obtain ⟨σ, hrun, hlarge⟩ := Runs.given pico (fun _ _ => true)
    [.enterLarge 1, .service, .enterWake 1] (fun σ => decide (σ.sr_nlarge = 1)) rfl
    (by decide +kernel)
  have h1 := of_decide_eq_true hlarge
  have hsound := epoch_sound hrun.reachable
  have he := hsound.2.2 (by rw [h1]; decide)
  exact ⟨σ, hrun.reachable, h1, he, (hsound.1 he).2.2.1⟩

end DiscoBSD.Swap
