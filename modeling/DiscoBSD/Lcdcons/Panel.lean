import DiscoBSD.Lcdcons.Steps
import DiscoBSD.Lib.Runs

/-!
# The panel has one driver

What every run of the protocol keeps, said of the panel: who draws, what has become of the deferred bytes, and what
output that is queued waits for. **Output waits for a renderer, or has been stopped by `TS_TTSTOP`.**
-/

set_option autoImplicit false

namespace DiscoBSD.Lcdcons

open DiscoBSD.Lib

namespace Cons

/-- Every deferred byte is drawn once and in order, is in the ring, or has been dropped and waits for its marker. -/
structure Drawn (s : Cons) : Prop where
  now : ∃ pre lost, s.puts = pre ++ s.queued ++ lost ∧ s.defer_lost = lost.length ∧
    Covers pre (s.drawn ++ s.stack.flatMap Act.hand)
  /-- With no activation left, all of them have been drawn. -/
  done : s.stack = [] → Covers s.puts s.drawn

/-- What holds of the panel at any time. -/
structure Panel (s : Cons) : Prop where
  one : s.stack.countP Act.drives ≤ 1
  drawn : s.wrapped = false → s.Drawn
  /-- Ownership is given up by a step that finds the ring empty and no byte lost. -/
  empty : ∀ e s', s.step e = some s' → s.lcd_owned = true → s'.lcd_owned = false → s'.queued = [] ∧ s'.defer_lost = 0
  /-- Queued output is stopped, or has a renderer, or has been put there by an activation that has yet to start it. -/
  waits : s.t_outq ≠ [] → s.ttstop = true ∨ s.scheduled ∨ ∃ a ∈ s.stack, a.renders = true ∨ a.writes = true

variable {s s' : Cons} {a : Act} {below : List Act}

theorem holds_of_drives (hdrives : a.drives = true) : a.holds = true := by
  cases a <;> first | rfl | exact hdrives

theorem Owner.drives (h : s.Owner) : s.stack.countP Act.drives ≤ 1 := by
  refine Nat.le_trans (List.countP_mono_left fun a _ => holds_of_drives) ?_
  rw [h.one]
  split <;> decide

theorem Inv.drawn (h : s.Inv) (hwrapped : s.wrapped = false) : s.Drawn := by
  refine ⟨h.deferred.logs hwrapped, fun hidle => ?_⟩
  obtain ⟨pre, lost, hputs, hlost, hcovers⟩ := h.deferred.logs hwrapped
  have hfree : s.lcd_owned = false := by
    have hone := h.owner.one
    rw [hidle] at hone
    refine Bool.eq_false_iff.mpr fun howned => ?_
    rw [if_pos howned] at hone
    contradiction
  have hunowned := h.deferred.unowned hfree
  rw [hidle] at hunowned hcovers
  obtain ⟨hqueued, hzero⟩ := hunowned.resolve_right (List.not_mem_nil)
  rw [hzero] at hlost
  have hnil : lost = [] := List.length_eq_zero_iff.mp hlost.symm
  rw [hqueued, hnil, List.append_nil, List.append_nil] at hputs
  rw [hputs]
  simpa using hcovers

theorem lcdstart_owned (s : Cons) : s.lcdstart.lcd_owned = s.lcd_owned := (lcdstart_frame s).2.1

/-- Only the last turn of `lcd_release` clears the flag. -/
theorem act_owned (h : s.Inv) (howned : s.lcd_owned = true) {timeUp : Bool} {echo : List Char}
    (hfree : (s.act timeUp echo below a).lcd_owned = false) :
    (s.act timeUp echo below a).queued = [] ∧ (s.act timeUp echo below a).defer_lost = 0 := by
  have hkept : ∀ {t : Cons}, t.lcd_owned = s.lcd_owned → t.lcd_owned = false → t.queued = [] ∧ t.defer_lost = 0 := by
    intro t ht htfree
    rw [ht, howned] at htfree
    contradiction
  match a with
  | .putc c => exact hkept (defer_put_frame s c).2.1 hfree
  | .acquire | .renderAcquire =>
    rw [act, if_pos howned] at hfree ⊢
    exact hkept rfl hfree
  | .renderWant | .renderDraw _ | .releaseDraw _ _ [] | .releaseDraw _ _ (_ :: _) | .releaseShow _ =>
    exact hkept rfl hfree
  | .render =>
    refine hkept ?_ hfree
    show (s.render timeUp below).lcd_owned = s.lcd_owned
    rcases render_cases timeUp below s with ⟨sliced, hleaves⟩ | ⟨c, q, -, hdraws⟩
    · rw [hleaves]
    · rw [hdraws]
  | .release who cursor_drawn =>
    rw [act] at hfree ⊢
    unfold release at hfree ⊢
    split_ifs at hfree ⊢ with hmore hlost hshow
    · exact hkept rfl hfree
    · exact hkept rfl hfree
    · exact hkept rfl hfree
    · have hempty : s.defer_tail = s.defer_head := not_not.mp hmore
      exact ⟨queued_eq_nil h.deferred.head h.deferred.tail hempty, not_not.mp hlost⟩
  | .flush who =>
    refine hkept ?_ hfree
    rw [act]
    split_ifs
    · exact lcdstart_owned _
    · rfl
  | .last .putc =>
    refine hkept ?_ hfree
    rw [act]
    split_ifs
    · exact lcdstart_owned _
    · rfl
  | .last (.render true) => exact hkept rfl hfree
  | .last (.render false) => exact hkept (lcdstart_owned _) hfree
  | .write [] => exact hkept (lcdstart_owned _) hfree
  | .write (_ :: _) => exact hkept rfl hfree

theorem Inv.empty (h : s.Inv) {e : Event} (hstep : s.step e = some s') (howned : s.lcd_owned = true)
    (hfree : s'.lcd_owned = false) : s'.queued = [] ∧ s'.defer_lost = 0 := by
  have hkept : s'.lcd_owned = s.lcd_owned → s'.queued = [] ∧ s'.defer_lost = 0 := by
    intro hsame
    rw [hsame, howned] at hfree
    contradiction
  cases e with
  | run timeUp echo =>
    cases hs : s.stack with
    | nil =>
      rw [step, hs] at hstep
      contradiction
    | cons a below =>
      rw [step, hs] at hstep
      cases hstep
      exact act_owned h howned hfree
  | lcdputc c | stop | ttyflush =>
    cases hstep
    exact hkept rfl
  | start =>
    cases hstep
    exact hkept (lcdstart_owned _)
  | irq | render_resume | write bs | lcdclose =>
    rw [step] at hstep
    split_ifs at hstep
    cases hstep
    exact hkept rfl
  | lcdopen =>
    cases hstep
    refine hkept ?_
    split_ifs <;> rfl

theorem Inv.panel (h : s.Inv) : s.Panel := by
  refine ⟨h.owner.drives, h.drawn, fun e s' => h.empty, fun hne => ?_⟩
  rcases h.output.queue hne with hstop | (hsched | ⟨a, ha, hrenders⟩) | ⟨a, ha, hwrites⟩
  · exact .inl hstop
  · exact .inr (.inl hsched)
  · exact .inr (.inr ⟨a, ha, .inl hrenders⟩)
  · exact .inr (.inr ⟨a, ha, .inr hwrites⟩)

end Cons

end DiscoBSD.Lcdcons
