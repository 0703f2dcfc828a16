import Mathlib
import DiscoBSD.Tempdev.System

/-!
# Runs

The block interface and the processes' moves, and then every run. **`swstrategy` returns without a word from each
request it refuses**, and who waits for it waits forever; but for that, and for a block number below zero, which no
check looks at, a device is an array of bytes whatever is done to it and around it.
-/

set_option autoImplicit false

namespace DiscoBSD.Tempdev

open DiscoBSD.Lib DiscoBSD.Rmap DiscoBSD.Flash
open DiscoBSD.Swap (devBsize)
open Function (update)

variable {dev : SwapDev} {s s' : State} {u : Nat} {e : Extent} {x : Temp}

/-! ## The block interface -/

/-- The bounds that `swstrategy` checks, if there is anything to move. -/
def Request.Passes (t : Swtemp) (b_blkno : Int) (request : Request) : Prop :=
  b_blkno < t.t_size ∧ (btod32 request.b_bcount : Int) ≤ t.t_size - b_blkno

theorem State.swstrategy_passes {unit : Nat} {b_blkno : Int} {request : Request} (hunit : unit < ntmp)
    (hstart : (s.td unit).t_start ≠ 0) (hpass : request.Passes (s.td unit) b_blkno) :
    s.swstrategy dev unit b_blkno request = s.transfer dev unit b_blkno request := by
  obtain ⟨hlt, hle⟩ := hpass
  have hin : ¬(((s.td unit).t_size : Int) ≤ b_blkno ∨
      ((s.td unit).t_size : Int) - b_blkno < btod32 request.b_bcount) := by omega
  unfold State.swstrategy
  rw [if_neg (Nat.not_le.mpr hunit), if_neg hstart, if_neg hin]

/-- A request that is refused is not completed. -/
theorem State.swstrategy_done {unit : Nat} {b_blkno : Int} {request : Request}
    (hdone : (s.swstrategy dev unit b_blkno request).1.done = true) :
    unit < ntmp ∧ (s.td unit).t_start ≠ 0 ∧ request.Passes (s.td unit) b_blkno := by
  unfold State.swstrategy at hdone
  by_cases hunit : ntmp ≤ unit
  · rw [if_pos hunit] at hdone
    cases hdone
  · by_cases hstart : (s.td unit).t_start = 0
    · rw [if_neg hunit, if_pos hstart] at hdone
      cases hdone
    · by_cases hout : ((s.td unit).t_size : Int) ≤ b_blkno ∨
          ((s.td unit).t_size : Int) - b_blkno < btod32 request.b_bcount
      · rw [if_neg hunit, if_neg hstart, if_pos hout] at hdone
        cases hdone
      · refine ⟨by omega, hstart, ?_, ?_⟩ <;> omega

theorem passes_of_fits {t : Swtemp} {b_blkno : Int} {request : Request} (hsize : t.t_size < 2 ^ 15)
    (hlt : b_blkno < t.t_size) (hlow : 0 ≤ b_blkno ∨ request.b_bcount = 0)
    (hfit : (request.b_bcount : Int) ≤ (t.t_size - b_blkno) * devBsize) : request.Passes t b_blkno := by
  refine ⟨hlt, ?_⟩
  rcases hlow with hpos | hzero
  · have hsmall : request.b_bcount + devBsize - 1 < 2 ^ 32 := by
      unfold devBsize at hfit ⊢
      omega
    unfold btod32
    rw [wrap_of_lt hsmall]
    unfold devBsize at hfit ⊢
    omega
  · rw [hzero]
    have hbtod : btod32 0 = 0 := by decide
    rw [hbtod]
    omega

/-- The transfer of a safe request is inside the device. -/
theorem inDevice_request {size : Nat} {b_blkno : Int} {count : Nat} (hlow : 0 ≤ b_blkno ∨ count = 0)
    (hfit : (count : Int) ≤ (size - b_blkno) * devBsize) {start : Nat} (hstart : start = e.off) {a : Io}
    (ha : a ∈ (if count = 0 then [] else [((start : Int) + b_blkno, count)] : List Io)) : InDevice e size a := by
  by_cases hzero : count = 0
  · rw [if_pos hzero] at ha
    cases ha
  · rw [if_neg hzero, List.mem_singleton] at ha
    subst ha
    have hpos := hlow.resolve_right hzero
    unfold InDevice devBsize at *
    omega

theorem State.Inv.proper_strategy (h : s.Inv dev) {unit : Nat} {b_blkno : Int} {request : Request}
    (hsafe : s.Safe dev (.strategy unit b_blkno request)) :
    Proper s (.strategy unit b_blkno request) (s.swstrategy dev unit b_blkno request).1
        (s.swstrategy dev unit b_blkno request).2 ∧
      (s.swstrategy dev unit b_blkno request).2.Inv dev := by
  obtain ⟨hunit, hstart, hlt, hlow, hfit, hpage⟩ := hsafe
  obtain ⟨e, he⟩ := h.start_pos hstart
  have hgood := h.good unit e he
  have hoff : (s.td unit).t_start = e.off := hgood.start
  have hpass := passes_of_fits hgood.size_lt hlt hlow hfit
  have hinside : ∀ a ∈ (if request.b_bcount = 0 then [] else [(((s.td unit).t_start : Int) + b_blkno, request.b_bcount)] :
      List Io), InDevice e (s.td unit).t_size a := fun a => inDevice_request hlow hfit hoff
  rw [State.swstrategy_passes hunit hstart hpass]
  unfold State.transfer
  cases request with
  | read count =>
    dsimp only
    by_cases hzero : count = 0
    · subst hzero
      have hread : swapRead dev s.disk ((s.td unit).t_start + b_blkno) 0 = some [] := if_pos rfl
      rw [hread]
      refine ⟨⟨rfl, fun a ha => ⟨e, he, hinside a ha⟩, nofun, nofun, ?_, nofun, nofun, h.ordered, fun _ _ _ _ => rfl⟩, h⟩
      rintro _ _ _ ⟨⟩ - i v hi
      cases hi
    · obtain ⟨block, rfl⟩ := Int.eq_ofNat_of_zero_le (hlow.resolve_right hzero)
      have hblk : ((s.td unit).t_start : Int) + block = ((e.off + block : Nat) : Int) := by
        rw [hoff]
        exact (Nat.cast_add _ _).symm
      have hin : block * devBsize + count ≤ (s.td unit).t_size * devBsize := by
        have hfit' : (count : Int) ≤ ((s.td unit).t_size - (block : Int)) * devBsize := hfit
        unfold devBsize at hfit' ⊢
        omega
      have hread : swapRead dev s.disk ((s.td unit).t_start + (block : Int)) count =
          some (readAt s.disk (addr dev (e.off + block)) count) := by
        rw [hblk]
        exact swapRead_spec (hgood.placed.inside hin).1
      rw [hread]
      refine ⟨⟨rfl, fun a ha => ⟨e, he, hinside a ha⟩, nofun, nofun, ?_, nofun, nofun, h.ordered, fun _ _ _ _ => rfl⟩, h⟩
      rintro _ _ _ ⟨⟩ - i v hi hv
      have hat : ((block : Int) * devBsize).toNat = block * devBsize := by
        rw [← Nat.cast_mul, Int.toNat_natCast]
      rw [hat] at hv
      obtain ⟨-, hdisk⟩ := hgood.values _ v hv
      rw [getElem?_readAt, if_pos hi, addr_add, Nat.add_assoc, ← hdisk]
      rfl
  | write bytes =>
    dsimp only
    obtain ⟨x', hwrite, hw, image, hwrites⟩ := hgood.strategyWrite hlt hlow hfit (hpage bytes rfl)
    rw [hwrite]
    have hinv := h.setTemp he hw
    refine ⟨⟨rfl, fun a ha => ⟨e, he, hinside a ha⟩, nofun, nofun, nofun, ?_, nofun, hinv.ordered, fun _ _ _ _ => rfl⟩, hinv⟩
    rintro _ _ _ ⟨⟩ - i b hi -
    simp only [State.setTemp, Function.update_self, hwrites]
    exact value_snoc_inside (w := ⟨(b_blkno * devBsize).toNat, bytes, image⟩) hi

theorem swapWrite_pages {m m' : Mem} {blk : Int} {source : List UInt8}
    (h : swapWrite .fl1 m blk source false = some m') : flashProgBytes ∣ source.length := by
  unfold swapWrite at h
  by_cases hzero : source.length = 0
  · rw [hzero]
    exact Nat.dvd_zero _
  · rw [if_neg hzero] at h
    by_cases hin : Inside .fl1 blk source.length
    · rw [if_pos hin] at h
      simp only [Bool.false_eq_true, if_false] at h
      by_cases hfirst : blk.toNat * devBsize < flashSectorBytes
      · rw [if_pos hfirst] at h
        cases h
      · rw [if_neg hfirst] at h
        unfold flashSwapRewrite at h
        split at h
        · cases h
        · rename_i hok
          refine Nat.dvd_of_mod_eq_zero ?_
          by_contra hno
          exact hok (.inr (.inl hno))
    · rw [if_neg hin] at h
      cases h

/-- The flash driver writes whole pages. -/
theorem strategyWrite_pages {x x' : Temp} {b_blkno : Int} {bytes : List UInt8}
    (h : strategyWrite .fl1 x b_blkno bytes = some x') : flashProgBytes ∣ bytes.length := by
  unfold strategyWrite at h
  by_cases hwhole : bytes.length % devBsize = 0
  · exact Nat.dvd_trans (by decide) (Nat.dvd_of_mod_eq_zero hwhole)
  · simp only [if_neg hwhole, Option.bind_eq_bind] at h
    obtain ⟨m, hwrite, -⟩ := Option.bind_eq_some_iff.mp h
    exact swapWrite_pages hwrite

/-- What does as it should was safe. -/
theorem State.Inv.safe_of_proper (h : s.Inv dev) {unit : Nat} {b_blkno : Int} {request : Request}
    (hproper : Proper s (.strategy unit b_blkno request) (s.swstrategy dev unit b_blkno request).1 s') :
    s.Safe dev (.strategy unit b_blkno request) := by
  have hdone := hproper.completed _ _ _ rfl
  obtain ⟨hunit, hstart, hpass⟩ := State.swstrategy_done hdone
  have hinside := hproper.inside
  rw [State.swstrategy_passes hunit hstart hpass] at hdone hinside
  unfold State.transfer at hdone hinside
  have hio : ∀ a ∈ (if request.b_bcount = 0 then [] else
      [(((s.td unit).t_start : Int) + b_blkno, request.b_bcount)] : List Io), ∃ e ∈ s.given unit,
        (e.off : Int) ≤ a.1 ∧ a.1 * devBsize + a.2 ≤ (e.off + (s.td unit).t_size) * devBsize := by
    cases request with
    | read count =>
      cases hread : swapRead dev s.disk ((s.td unit).t_start + b_blkno) count with
      | none => simp [hread, Out.panics, Out.nothing] at hdone
      | some data =>
        simp only [hread] at hinside
        exact hinside
    | write bytes =>
      cases hwrite : strategyWrite dev (s.temp unit) b_blkno bytes with
      | none => simp [hwrite, Out.panics, Out.nothing] at hdone
      | some x =>
        simp only [hwrite] at hinside
        exact hinside
  have hbounds : (0 ≤ b_blkno ∨ request.b_bcount = 0) ∧
      (request.b_bcount : Int) ≤ ((s.td unit).t_size - b_blkno) * devBsize := by
    obtain ⟨hlt, -⟩ := hpass
    by_cases hzero : request.b_bcount = 0
    · refine ⟨.inr hzero, ?_⟩
      rw [hzero]
      unfold devBsize
      omega
    · obtain ⟨e, he, hlow, hhigh⟩ := hio _ (by rw [if_neg hzero]; exact List.mem_singleton_self _)
      have hoff : (s.td unit).t_start = e.off := (h.good unit e he).start
      rw [hoff] at hlow hhigh
      unfold devBsize at hhigh ⊢
      dsimp only at hlow hhigh
      omega
  refine ⟨hunit, hstart, hpass.1, hbounds.1, hbounds.2, ?_⟩
  rintro bytes rfl rfl
  cases hwrite : strategyWrite .fl1 (s.temp unit) b_blkno bytes with
  | none => simp [hwrite, Out.panics, Out.nothing] at hdone
  | some x => exact strategyWrite_pages hwrite

/-! ## Processes -/

/-- What processes do leaves the devices' own fields and writes alone. -/
theorem State.Inv.of_held (h : s.Inv dev) (swapnext : Nat) {mp : Map} {held : List Extent}
    (hmap : ∃ free, SwapInv dev ⟨mp, (List.range ntmp).filterMap s.given ++ held⟩ free) (hmost : held.length ≤ heldMost) :
    State.Inv dev { s with mp := mp, swapnext := swapnext, held := held } :=
  ⟨hmap, hmost, h.units, h.bare, h.good, h.span⟩

theorem State.Inv.alloc (h : s.Inv dev) {d_size s_size u_size next span next' : Nat} {a : Fin 3 → Nat} {mp : Map}
    (hroom : s.held.length < heldMost)
    (hcall : malloc3ContiguousNext s.mp d_size s_size u_size swapImageAlign (some next) (fun _ => 0) =
      .ok (span, next', a, mp)) :
    State.Inv dev { s with mp := mp, swapnext := next', held := if span = 0 then s.held else ⟨a 0, span⟩ :: s.held } := by
  obtain ⟨free, hfree⟩ := h.map
  have hlen : s.live.length < smapExtents := by
    have hle := List.length_filterMap_le s.given (List.range ntmp)
    rw [List.length_range] at hle
    unfold State.live
    rw [List.length_append]
    unfold heldMost smapExtents ntmp at *
    omega
  obtain ⟨span', next'', a', mp', hcall', hcases⟩ := swapInv_take hfree hlen d_size s_size u_size next fun _ => 0
  cases hcall.symm.trans hcall'
  rcases hcases with ⟨rfl, rfl⟩ | ⟨-, -, hpos, free', hinv⟩
  · rw [if_pos rfl]
    exact h.of_held _ ⟨free, hfree⟩ h.most
  · rw [if_neg (Nat.ne_of_gt hpos)]
    exact h.of_held _ ⟨free', swapInv_perm hinv List.perm_middle.symm⟩ hroom

theorem State.Inv.free (h : s.Inv dev) {r : Extent} (hr : r ∈ s.held) {lost : Option Lost} {mp : Map}
    (hcall : mfree s.mp r.size r.off = .ok (lost, mp)) :
    State.Inv dev { s with mp := mp, held := s.held.erase r } := by
  obtain ⟨free, hfree⟩ := h.map
  obtain ⟨mp', free', hcall', hinv⟩ := hfree.mfree (List.mem_append_right _ hr)
  cases hcall.symm.trans hcall'
  refine h.of_held s.swapnext ⟨free', swapInv_perm hinv ?_⟩
    ((List.length_erase_le ..).trans h.most)
  have hlive : s.live.Perm (r :: ((List.range ntmp).filterMap s.given ++ s.held.erase r)) :=
    ((List.perm_cons_erase hr).append_left _).trans List.perm_middle
  have herase := hlive.erase r
  rw [List.erase_cons_head] at herase
  exact herase

theorem State.Inv.store (h : s.Inv dev) {r : Extent} (hr : r ∈ s.held) (bytes : Mem) :
    State.Inv dev { s with disk := fun x => if InBytes dev r x then bytes x else s.disk x } := by
  refine ⟨h.map, h.most, h.units, h.bare, fun u e he => ?_, h.span⟩
  have hkept : Kept dev r s.disk fun x => if InBytes dev r x then bytes x else s.disk x := by
    intro x hlow hout
    refine if_neg fun hin => ?_
    rcases hin with hin | hin
    · omega
    · omega
  exact h.frame he (List.mem_append_right _ hr) hkept

/-! ## Every call -/

theorem State.Inv.call (h : s.Inv dev) {c : Call} {out : Out} (hc : s.call dev c = some (out, s')) :
    (Proper s c out s' ↔ s.Safe dev c) ∧ (Proper s c out s' → s'.Inv dev) := by
  -- All but the block requests are safe.
  have hboth : ∀ {P : Prop}, P ∧ s'.Inv dev → (P ↔ True) ∧ (P → s'.Inv dev) :=
    fun hp => ⟨iff_true_intro hp.1, fun _ => hp.2⟩
  cases c with
  | tfalloc unit requested =>
    simp only [State.call, Option.ite_none_right_eq_some, Option.some.injEq] at hc
    obtain ⟨-, hcall⟩ := hc
    have hp := h.proper_tfalloc unit requested
    rw [hcall] at hp
    exact hboth hp
  | read unit offset len =>
    simp only [State.call, Option.ite_none_right_eq_some, Option.some.injEq, Prod.mk.injEq] at hc
    obtain ⟨hlong, rfl, rfl⟩ := hc
    exact hboth ⟨h.proper_swcread hlong len, h⟩
  | write unit offset bytes =>
    simp only [State.call, Option.ite_none_right_eq_some, Option.some.injEq] at hc
    obtain ⟨hlong, hcall⟩ := hc
    have hp := h.proper_swcwrite unit hlong bytes
    rw [hcall] at hp
    exact hboth hp
  | strategy unit b_blkno request =>
    simp only [State.call, Option.ite_none_right_eq_some, Option.some.injEq] at hc
    obtain ⟨-, hcall⟩ := hc
    have hout : (s.swstrategy dev unit b_blkno request).1 = out := by rw [hcall]
    have hs' : (s.swstrategy dev unit b_blkno request).2 = s' := by rw [hcall]
    have hback : Proper s (.strategy unit b_blkno request) out s' → s.Safe dev (.strategy unit b_blkno request) := by
      rw [← hout]
      exact h.safe_of_proper
    have hforth : s.Safe dev (.strategy unit b_blkno request) →
        Proper s (.strategy unit b_blkno request) out s' ∧ s'.Inv dev := by
      rw [← hout, ← hs']
      exact h.proper_strategy
    exact ⟨⟨hback, fun hsafe => (hforth hsafe).1⟩, fun hp => (hforth (hback hp)).2⟩
  | alloc d_size s_size u_size next =>
    simp only [State.call] at hc
    split at hc
    · rename_i hroom
      split at hc
      · cases hc
      · rename_i hcall
        cases hc
        have hinv := h.alloc hroom hcall
        exact hboth ⟨proper_quiet rfl rfl hinv nofun nofun nofun nofun, hinv⟩
    · cases hc
  | free r =>
    simp only [State.call] at hc
    split at hc
    · rename_i hr
      split at hc
      · cases hc
      · rename_i hcall
        cases hc
        have hinv := h.free hr hcall
        exact hboth ⟨proper_quiet rfl rfl hinv nofun nofun nofun nofun, hinv⟩
    · cases hc
  | store r bytes =>
    simp only [State.call, Option.ite_none_right_eq_some, Option.some.injEq, Prod.mk.injEq] at hc
    obtain ⟨hr, rfl, rfl⟩ := hc
    have hinv := h.store hr bytes
    exact hboth ⟨proper_quiet rfl rfl hinv nofun nofun nofun nofun, hinv⟩

theorem start_inv (dev : SwapDev) (swapnext : Nat) (disk : Mem) : (State.start dev swapnext disk).Inv dev := by
  have hboot : ∃ lost, initSwapmap dev = .ok (lost, bootMap dev) := by cases dev <;> exact ⟨_, rfl⟩
  obtain ⟨lost, hboot⟩ := hboot
  obtain ⟨free, hfree⟩ := SwapInv.init hboot
  exact ⟨⟨free, hfree⟩, Nat.zero_le _, fun _ _ => rfl, fun _ _ => ⟨rfl, rfl⟩, nofun, nofun⟩

/-- **The temporary devices are arrays of bytes exactly as long as each block request is in its device.** -/
theorem devices_are_arrays (dev : SwapDev) (swapnext : Nat) (disk : Mem) (calls : List Call) :
    Each (State.step dev) (State.Fine dev) (State.start dev swapnext disk) calls ↔
      Each (State.step dev) (State.Safe dev) (State.start dev swapnext disk) calls := by
  refine each_iff ?_ (start_inv dev swapnext disk) calls
  intro s c s' h hstep
  obtain ⟨⟨out, s₁⟩, hc, rfl⟩ := Option.map_eq_some_iff.mp hstep
  obtain ⟨hiff, hkeeps⟩ := h.call hc
  refine ⟨⟨fun hfine => hiff.mp (hfine out s₁ hc), ?_⟩, fun hsafe => hkeeps (hiff.mpr hsafe)⟩
  intro hsafe out' s'' hc'
  cases hc.symm.trans hc'
  exact hiff.mpr hsafe

/-- A block is read from a device that has no extent. -/
theorem request_never_completed :
    ¬ ∀ dev swapnext disk calls,
      Each (State.step dev) (State.Fine dev) (State.start dev swapnext disk) calls := by
  intro h
  have hfine := (h .fl1 4 (fun _ => 0) [.strategy 0 0 (.read 1024)] _ rfl).1 _ _ rfl
  exact absurd (hfine.completed 0 0 (.read 1024) rfl) (by decide)

/-- A block number below zero: what is before the extent is read. -/
example :
    ((State.start .fl1 8 fun _ => 7).tfalloc 0 2).2.swstrategy .fl1 0 (-1) (.read 2) =
      ({ Out.nothing with data := [7, 7], io := [(7, 2)], done := true }, ((State.start .fl1 8 fun _ => 7).tfalloc 0 2).2) :=
  rfl

end DiscoBSD.Tempdev
