import DiscoBSD.Lcdcons.Inv

/-!
# The steps of the panel's protocol

`Inv` is kept by whatever the activation on top does next, and by whatever comes in on top of it. **A case for each
place where an activation may be interrupted**, and one for each event.
-/

set_option autoImplicit false

namespace DiscoBSD.Lcdcons

open DiscoBSD.Lib

namespace Cons

variable {s s' : Cons} {a a' : Act} {below : List Act}

/-! ## An activation that goes on or returns -/

/-- The renderers below are still there, and the one on top has seen to it. -/
theorem Rendering.goes (h : s.Rendering) (hs : s.stack = a :: below) (hsched : s.scheduled → s'.scheduled)
    (hbelow : below ⊆ s'.stack) (htop : a.renders = true → s'.Rendering) : s'.Rendering := by
  refine h.mono (fun hscheduled => .inl (hsched hscheduled)) fun b hb hrenders => ?_
  rw [hs] at hb
  rcases List.mem_cons.mp hb with rfl | hb
  · exact htop hrenders
  · exact .inr ⟨b, hbelow hb, hrenders⟩

theorem Output.goes (h : s.Output) (hs : s.stack = a :: below) (hs' : s'.stack = a' :: below)
    (houtputs : s'.outputs = s.outputs) (hsched : s.scheduled → s'.scheduled)
    (hrenders : a.renders = true → a'.renders = true) (hwrites : a.writes = false) (hwrites' : a'.writes = false) :
    s'.Output := by
  have hbelow : below ⊆ s'.stack := by
    rw [hs']
    exact List.subset_cons_self ..
  refine h.keeps houtputs (fun hr => hr.goes hs hsched hbelow fun hr => ?_) (fun b hb hw => ?_) fun b hb hw => ?_
  · exact .inr ⟨a', by rw [hs']; exact List.mem_cons_self .., hrenders hr⟩
  · rw [hs] at hb
    rcases List.mem_cons.mp hb with rfl | hb
    · rw [hwrites] at hw
      contradiction
    · exact hbelow hb
  · rw [hs'] at hb
    rcases List.mem_cons.mp hb with rfl | hb
    · rw [hwrites'] at hw
      contradiction
    · rw [hs]
      exact .inl (List.mem_cons_of_mem _ hb)

theorem Output.returns (h : s.Output) (hs : s.stack = a :: below) (hs' : s'.stack = below)
    (houtputs : s'.outputs = s.outputs) (hsched : s.scheduled → s'.scheduled)
    (hrenders : a.renders = true → s'.Rendering) (hwrites : a.writes = false) : s'.Output := by
  have hbelow : below ⊆ s'.stack := by
    rw [hs']
    exact List.Subset.refl _
  refine h.keeps houtputs (fun hr => hr.goes hs hsched hbelow hrenders) (fun b hb hw => ?_) fun b hb hw => ?_
  · rw [hs] at hb
    rcases List.mem_cons.mp hb with rfl | hb
    · rw [hwrites] at hw
      contradiction
    · exact hbelow hb
  · rw [hs'] at hb
    rw [hs]
    exact .inl (List.mem_cons_of_mem _ hb)

/-- A renderer is there. -/
theorem Output.rendering (hr : s.Rendering)
    (hclosed : s.isopen = false → s.t_outq = [] ∧ ∀ a ∈ s.stack, a.writes = false) : s.Output :=
  ⟨fun _ => hr, fun _ => .inr (.inl hr), hclosed⟩

/-- With the line closed nobody below writes either. -/
theorem Output.closed_below (h : s.Output) (hs : s.stack = a :: below) (hclosed : s.isopen = false) :
    s.t_outq = [] ∧ ∀ b ∈ below, b.writes = false := by
  refine ⟨(h.closed hclosed).1, fun b hb => (h.closed hclosed).2 b ?_⟩
  rw [hs]
  exact List.mem_cons_of_mem _ hb

/-- An activation of the same kind is on top, and nothing else is different. -/
theorem Inv.goes (h : s.Inv) (hs : s.stack = a :: below) (hs' : s'.stack = a' :: below)
    (hholds : a'.holds = a.holds) (hhand : a'.hand = a.hand) (hrenders : a'.renders = a.renders)
    (hwrites : a.writes = false) (hwrites' : a'.writes = false) (hacquire : a ≠ .acquire) (hwant : a' ≠ .renderWant)
    (hring : s'.ring = s.ring) (houtputs : s'.outputs = s.outputs) (hsched : s.scheduled → s'.scheduled)
    (howned : s'.lcd_owned = s.lcd_owned) : s'.Inv := by
  refine ⟨h.owner.goes hs hs' hholds hwant howned, h.deferred.keeps hring ?_ fun hfree => .inl ⟨?_, ?_⟩,
    h.output.goes hs hs' houtputs hsched (fun hr => hrenders.trans hr) hwrites hwrites'⟩
  · rw [hs', hs, List.flatMap_cons, List.flatMap_cons, hhand]
  · exact howned.symm.trans hfree
  · rw [hs, hs']
    intro hin
    exact List.mem_cons_of_mem _ ((List.mem_cons.mp hin).resolve_left (Ne.symm hacquire))

/-! ## Taking the flag and giving it up -/

theorem defer_put_outputs (s : Cons) (c : Char) :
    (s.defer_put c).outputs = s.outputs ∧ ((s.defer_put c).scheduled ↔ s.scheduled) := by
  unfold defer_put
  dsimp only
  split <;> exact ⟨rfl, Iff.rfl⟩

theorem putc_inv (h : s.Inv) {c : Char} (hs : s.stack = .putc c :: below) :
    Inv { s.defer_put c with stack := .acquire :: below } := by
  obtain ⟨-, howned, -, -⟩ := defer_put_frame s c
  obtain ⟨houtputs, hsched⟩ := defer_put_outputs s c
  exact ⟨h.owner.goes hs rfl rfl nofun howned, h.deferred.put c hs,
    h.output.goes hs rfl houtputs hsched.mpr nofun rfl rfl⟩

theorem acquire_inv (h : s.Inv) (hs : s.stack = .acquire :: below) {timeUp : Bool} {echo : List Char} :
    (s.act timeUp echo below .acquire).Inv := by
  have hhand : below.flatMap Act.hand = s.stack.flatMap Act.hand := by
    rw [hs]
    rfl
  by_cases howned : s.lcd_owned = true
  · rw [show s.act timeUp echo below .acquire = { s with stack := below } from if_pos howned]
    -- the owner will see the byte
    refine ⟨h.owner.returns hs rfl rfl rfl, h.deferred.keeps rfl hhand fun hfree => ?_,
      h.output.returns hs rfl rfl id nofun rfl⟩
    exact absurd (howned.symm.trans hfree) nofun
  · rw [show s.act timeUp echo below .acquire = _ from if_neg howned]
    have hfree : s.lcd_owned = false := Bool.eq_false_iff.mpr howned
    refine ⟨h.owner.takes hs rfl hfree rfl rfl nofun rfl, h.deferred.keeps rfl hhand nofun,
      h.output.goes hs rfl rfl ?_ nofun rfl rfl⟩
    rintro (hp | ht | ⟨-, hown⟩)
    · exact .inl hp
    · exact .inr (.inl ht)
    · exact absurd hown howned

theorem renderAcquire_inv (h : s.Inv) (hs : s.stack = .renderAcquire :: below) {timeUp : Bool} {echo : List Char} :
    (s.act timeUp echo below .renderAcquire).Inv := by
  have hhand : below.flatMap Act.hand = s.stack.flatMap Act.hand := by
    rw [hs]
    rfl
  by_cases howned : s.lcd_owned = true
  · rw [show s.act timeUp echo below .renderAcquire = { s with stack := .renderWant :: below } from if_pos howned]
    have hwants := h.owner.wants
    rw [hs] at hwants
    refine ⟨⟨?_, ⟨fun _ => h.owner.held hs rfl howned, hwants.2⟩⟩, h.deferred.keeps rfl hhand fun hfree => ?_,
      h.output.goes hs rfl rfl id (fun _ => rfl) rfl rfl⟩
    · have hone := h.owner.one
      rw [hs] at hone
      exact hone
    · exact absurd (howned.symm.trans hfree) nofun
  · rw [show s.act timeUp echo below .renderAcquire = _ from if_neg howned]
    have hfree : s.lcd_owned = false := Bool.eq_false_iff.mpr howned
    refine ⟨h.owner.takes hs rfl hfree rfl rfl nofun rfl, h.deferred.keeps rfl hhand nofun,
      h.output.goes hs rfl rfl ?_ (fun _ => rfl) rfl rfl⟩
    rintro (hp | ht | ⟨-, hown⟩)
    · exact .inl hp
    · exact .inr (.inl ht)
    · exact absurd hown howned

/-- The owner below will start the renderer again. -/
theorem renderWant_inv (h : s.Inv) (hs : s.stack = .renderWant :: below) :
    Inv { s with render_wanted := true, stack := below } := by
  have hhand : below.flatMap Act.hand = s.stack.flatMap Act.hand := by
    rw [hs]
    rfl
  have howned : s.lcd_owned = true := by
    have hwants := h.owner.wants
    rw [hs] at hwants
    obtain ⟨b, hb, hholds⟩ := hwants.1 rfl
    exact h.owner.owned (hs ▸ List.mem_cons_of_mem _ hb) hholds
  refine ⟨h.owner.returns hs rfl rfl rfl, h.deferred.keeps rfl hhand fun hfree => ?_,
    .rendering (.inl (.inr (.inr ⟨rfl, howned⟩))) fun hclosed => h.output.closed_below hs hclosed⟩
  exact absurd (howned.symm.trans hfree) nofun

/-- The loop of `lcdrender` ends, or draws one character more. -/
theorem render_cases (timeUp : Bool) (below : List Act) (s : Cons) :
    (∃ sliced, s.render timeUp below = { s with stack := .release (.render sliced) false :: below }) ∨
      ∃ c q, s.t_outq = c :: q ∧ s.render timeUp below = { s with t_outq := q, stack := .renderDraw c :: below } := by
  unfold render
  cases s.t_outq with
  | nil => exact .inl ⟨false, rfl⟩
  | cons c q =>
    dsimp only
    split_ifs
    · exact .inl ⟨false, rfl⟩
    · exact .inl ⟨true, rfl⟩
    · exact .inr ⟨c, q, rfl, rfl⟩

theorem render_inv (h : s.Inv) (hs : s.stack = .render :: below) (timeUp : Bool) : (s.render timeUp below).Inv := by
  rcases render_cases timeUp below s with ⟨sliced, hleaves⟩ | ⟨c, q, hq, hdraws⟩
  · rw [hleaves]
    exact h.goes hs rfl rfl rfl rfl rfl rfl nofun nofun rfl rfl id rfl
  · rw [hdraws]
    have hhand : (Act.renderDraw c :: below).flatMap Act.hand = s.stack.flatMap Act.hand := by
      rw [hs]
      rfl
    refine ⟨h.owner.goes hs rfl rfl nofun rfl, h.deferred.keeps rfl hhand fun hfree => .inl ⟨hfree, ?_⟩,
      .rendering (.inr ⟨_, List.mem_cons_self .., rfl⟩) fun hclosed => ?_⟩
    · rw [hs]
      intro hin
      exact List.mem_cons_of_mem _ ((List.mem_cons.mp hin).resolve_left nofun)
    · exact absurd (hq.symm.trans (h.output.closed hclosed).1) nofun

/-- `release` and `flush` are renderers where the caller is. -/
theorem renders_release (who : Who) (cursor_drawn : Bool) :
    (Act.release who cursor_drawn).renders = (Act.flush who).renders := by
  cases who <;> rfl

theorem renders_releaseDraw (who : Who) (c : Char) (rest : List Char) :
    (Act.releaseDraw who c rest).renders = (Act.flush who).renders := by
  cases who <;> rfl

theorem renders_releaseShow (who : Who) : (Act.releaseShow who).renders = (Act.flush who).renders := by
  cases who <;> rfl

theorem renders_last (who : Who) : (Act.last who).renders = (Act.flush who).renders := by
  cases who <;> rfl

/-- **The flag is given up with the ring empty**, or a byte more is drawn first. -/
theorem release_inv (h : s.Inv) {who : Who} {cursor_drawn : Bool} (hs : s.stack = .release who cursor_drawn :: below) :
    (s.release who cursor_drawn below).Inv := by
  have hbelow := h.owner.hand hs rfl
  have howned : s.lcd_owned = true := h.owner.owned (hs ▸ List.mem_cons_self ..) rfl
  have hdraws : ∀ c rest, (Act.release who cursor_drawn).renders = true →
      (Act.releaseDraw who c rest).renders = true := fun c rest hr => by
    rw [renders_releaseDraw, ← renders_release who cursor_drawn]
    exact hr
  unfold release
  by_cases hmore : s.defer_tail ≠ s.defer_head
  · rw [if_pos hmore]
    exact ⟨h.owner.goes hs rfl rfl nofun rfl, h.deferred.take hs hbelow howned hmore,
      h.output.goes hs rfl rfl id (hdraws _ _) rfl rfl⟩
  · rw [if_neg hmore]
    have hempty : s.defer_tail = s.defer_head := not_not.mp hmore
    by_cases hlost : s.defer_lost ≠ 0
    · rw [if_pos hlost]
      exact ⟨h.owner.goes hs rfl rfl nofun rfl, h.deferred.mark hs hbelow howned hempty hlost,
        h.output.goes hs rfl rfl id (hdraws _ _) rfl rfl⟩
    · rw [if_neg hlost]
      by_cases hshow : (!cursor_drawn) = true
      · rw [if_pos hshow]
        exact h.goes hs rfl rfl rfl ((renders_releaseShow who).trans (renders_release who _).symm) rfl rfl nofun nofun
          rfl rfl id rfl
      · rw [if_neg hshow]
        have hqueued : s.queued = [] := queued_eq_nil h.deferred.head h.deferred.tail hempty
        have hhand : (Act.flush who :: below).flatMap Act.hand = s.stack.flatMap Act.hand := by
          rw [hs]
          rfl
        refine ⟨h.owner.gives hs rfl rfl rfl nofun rfl,
          h.deferred.keeps rfl hhand fun _ => .inr ⟨hqueued, not_not.mp hlost⟩,
          h.output.goes hs rfl rfl ?_ (fun hr => (renders_release who _).symm.trans hr) rfl rfl⟩
        rintro (hp | ht | ⟨hwanted, -⟩)
        · exact .inl (Bool.or_eq_true_iff.mpr (.inl hp))
        · exact .inr (.inl ht)
        · exact .inl (Bool.or_eq_true_iff.mpr (.inr hwanted))

/-! ## After the flag -/

/-- `lcdstart` has no part in who draws. -/
theorem lcdstart_inv (howner : s.Owner) (hdeferred : s.Deferred) (hbusy : s.busy = true → s.Rendering)
    (hclosed : s.isopen = false → s.t_outq = [] ∧ ∀ a ∈ s.stack, a.writes = false) : s.lcdstart.Inv := by
  obtain ⟨hstack, howned, hring⟩ := lcdstart_frame s
  refine ⟨howner.same hstack howned, hdeferred.keeps hring (by rw [hstack]) fun hfree => .inl ⟨?_, fun hin => ?_⟩,
    lcdstart_output hbusy hclosed⟩
  · rwa [howned] at hfree
  · rwa [hstack]

theorem flush_inv (h : s.Inv) {who : Who} (hs : s.stack = .flush who :: below) {timeUp : Bool} {echo : List Char} :
    (s.act timeUp echo below (.flush who)).Inv := by
  have hlast : Inv { s with stack := .last who :: below } :=
    h.goes hs rfl rfl rfl (renders_last who) rfl rfl nofun nofun rfl rfl id rfl
  unfold act
  dsimp only
  by_cases hopen : s.isopen = true
  · rw [if_pos hopen]
    refine lcdstart_inv (hlast.owner.same rfl rfl) (hlast.deferred.keeps rfl rfl fun hfree => .inl ⟨hfree, id⟩)
      (fun hb => hlast.output.busy hb) fun hclosed => ?_
    exact absurd (hopen.symm.trans hclosed) nofun
  · rw [if_neg hopen]
    exact hlast

theorem last_inv (h : s.Inv) {who : Who} (hs : s.stack = .last who :: below) {timeUp : Bool} {echo : List Char} :
    (s.act timeUp echo below (.last who)).Inv := by
  have howner : ∀ t : Cons, t.stack = below → t.lcd_owned = s.lcd_owned → t.Owner := fun t ht hto =>
    h.owner.returns hs rfl ht hto
  have hdeferred : ∀ t : Cons, t.stack = below → t.lcd_owned = s.lcd_owned → t.ring = s.ring → t.Deferred := by
    intro t ht hto htr
    refine h.deferred.keeps htr ?_ fun hfree => .inl ⟨hto.symm.trans hfree, fun hin => ?_⟩
    · rw [ht, hs]
      rfl
    · rw [hs] at hin
      rw [ht]
      exact (List.mem_cons.mp hin).resolve_left nofun
  have hclosed := fun hc => h.output.closed_below hs hc
  match who with
  | .putc =>
    have houtput : Output { s with stack := below } := h.output.returns hs rfl rfl id nofun rfl
    unfold act
    dsimp only
    by_cases hstart : s.t_outq ≠ [] ∧ s.isopen = true
    · rw [if_pos hstart]
      exact lcdstart_inv (howner _ rfl rfl) (hdeferred _ rfl rfl rfl) houtput.busy hclosed
    · rw [if_neg hstart]
      exact ⟨howner _ rfl rfl, hdeferred _ rfl rfl rfl, houtput⟩
  | .render true =>
    exact ⟨howner _ rfl rfl, hdeferred _ rfl rfl rfl, .rendering (.inl (.inr (.inl (Nat.succ_pos _)))) hclosed⟩
  | .render false => exact lcdstart_inv (howner _ rfl rfl) (hdeferred _ rfl rfl rfl) nofun hclosed

theorem write_inv (h : s.Inv) {bs : List Char} (hs : s.stack = .write bs :: below) {timeUp : Bool} {echo : List Char} :
    (s.act timeUp echo below (.write bs)).Inv := by
  have hopen : s.isopen ≠ false := by
    intro hclosed
    have hwrites : (Act.write bs).writes = false := (h.output.closed hclosed).2 _ (hs ▸ List.mem_cons_self ..)
    contradiction
  have hstay : .acquire ∈ s.stack → .acquire ∈ below := by
    rw [hs]
    intro hin
    exact (List.mem_cons.mp hin).resolve_left nofun
  cases bs with
  | nil =>
    have hhand : below.flatMap Act.hand = s.stack.flatMap Act.hand := by
      rw [hs]
      rfl
    have hbusy : s.busy = true → Rendering { s with stack := below } := fun hb =>
      (h.output.busy hb).goes hs id (List.Subset.refl _) nofun
    exact lcdstart_inv (h.owner.returns hs rfl rfl rfl) (h.deferred.keeps rfl hhand fun hfree => .inl ⟨hfree, hstay⟩)
      hbusy fun hclosed => absurd hclosed hopen
  | cons b bs =>
    have hhand : (Act.write bs :: below).flatMap Act.hand = s.stack.flatMap Act.hand := by
      rw [hs]
      rfl
    refine ⟨h.owner.goes hs rfl rfl nofun rfl,
      h.deferred.keeps rfl hhand fun hfree => .inl ⟨hfree, fun hin => List.mem_cons_of_mem _ (hstay hin)⟩,
      ⟨fun hb => ?_, fun _ => .inr (.inr ⟨.write bs, List.mem_cons_self .., rfl⟩), fun hclosed => absurd hclosed hopen⟩⟩
    exact (h.output.busy hb).goes hs id (List.subset_cons_self ..) nofun

/-! ## All the steps -/

theorem releaseDraw_inv (h : s.Inv) {who : Who} {c : Char} {rest : List Char}
    (hs : s.stack = .releaseDraw who c rest :: below) (hholds : a'.holds = true) (hhand : a'.hand = rest)
    (hrenders : a'.renders = (Act.flush who).renders) (hwrites : a'.writes = false) (hwant : a' ≠ .renderWant) :
    Inv { s with drawn := s.drawn ++ [c], stack := a' :: below } := by
  have howned : s.lcd_owned = true := h.owner.owned (hs ▸ List.mem_cons_self ..) rfl
  refine ⟨h.owner.goes hs rfl hholds hwant rfl, h.deferred.drew hs howned hhand,
    h.output.goes hs rfl rfl id (fun hr => ?_) rfl hwrites⟩
  rwa [hrenders, ← renders_releaseDraw who c rest]

/-- What an activation does next. -/
theorem act_inv (h : s.Inv) (hs : s.stack = a :: below) (timeUp : Bool) (echo : List Char) :
    (s.act timeUp echo below a).Inv := by
  match a with
  | .putc c => exact putc_inv h hs
  | .acquire => exact acquire_inv h hs
  | .renderAcquire => exact renderAcquire_inv h hs
  | .renderWant => exact renderWant_inv h hs
  | .render => exact render_inv h hs timeUp
  | .renderDraw c => exact h.goes hs rfl rfl rfl rfl rfl rfl nofun nofun rfl rfl id rfl
  | .release who cursor_drawn => exact release_inv h hs
  | .releaseDraw who c [] => exact releaseDraw_inv h hs rfl rfl (renders_release who false) rfl nofun
  | .releaseDraw who c (c' :: rest) => exact releaseDraw_inv h hs rfl rfl (renders_releaseDraw who c' rest) rfl nofun
  | .releaseShow who =>
    exact h.goes hs rfl rfl rfl ((renders_release who true).trans (renders_releaseShow who).symm) rfl rfl nofun nofun
      rfl rfl id rfl
  | .flush who => exact flush_inv h hs
  | .last who => exact last_inv h hs
  | .write bs => exact write_inv h hs

/-- What comes in. -/
theorem comes_inv (h : s.Inv) (hs' : s'.stack = a :: s.stack) (hholds : a.holds = false) (hhand : a.hand = [])
    (hwant : a ≠ .renderWant) (hring : s'.ring = s.ring) (howned : s'.lcd_owned = s.lcd_owned)
    (houtput : s'.Output) : s'.Inv := by
  refine ⟨h.owner.comes hholds hwant hs' howned, h.deferred.keeps hring ?_ fun hfree => .inl ⟨?_, fun hin => ?_⟩, houtput⟩
  · rw [hs', List.flatMap_cons, hhand]
    rfl
  · rwa [howned] at hfree
  · rw [hs']
    exact List.mem_cons_of_mem _ hin

/-- Nothing but the output changes. -/
theorem outputs_inv (h : s.Inv) (hs' : s'.stack = s.stack) (hring : s'.ring = s.ring)
    (howned : s'.lcd_owned = s.lcd_owned) (houtput : s'.Output) : s'.Inv := by
  refine ⟨h.owner.same hs' howned, h.deferred.keeps hring (by rw [hs']) fun hfree => .inl ⟨?_, fun hin => ?_⟩, houtput⟩
  · rwa [howned] at hfree
  · rwa [hs']

theorem Output.comes (h : s.Output) (hs' : s'.stack = a :: s.stack) (houtputs : s'.outputs = s.outputs)
    (hsched : s.scheduled → s'.scheduled) (hwrites : a.writes = true → s.isopen = true) : s'.Output := by
  have hbelow : s.stack ⊆ s'.stack := by
    rw [hs']
    exact List.subset_cons_self ..
  refine h.keeps houtputs (fun hr => hr.mono (fun hsc => .inl (hsched hsc)) fun b hb hr => .inr ⟨b, hbelow hb, hr⟩)
    (fun b hb _ => hbelow hb) fun b hb hw => ?_
  rw [hs'] at hb
  rcases List.mem_cons.mp hb with rfl | hb
  · exact .inr (hwrites hw)
  · exact .inl hb

theorem step_inv (h : s.Inv) {e : Event} (hstep : s.step e = some s') : s'.Inv := by
  cases e with
  | run timeUp echo =>
    cases hs : s.stack with
    | nil =>
      rw [step, hs] at hstep
      contradiction
    | cons a below =>
      rw [step, hs] at hstep
      cases hstep
      exact act_inv h hs timeUp echo
  | lcdputc c =>
    cases hstep
    exact comes_inv h rfl rfl rfl nofun rfl rfl (h.output.comes rfl rfl id nofun)
  | irq =>
    rw [step] at hstep
    split_ifs at hstep with hp
    cases hstep
    refine comes_inv h rfl rfl rfl nofun rfl rfl
      (.rendering (.inr ⟨_, List.mem_cons_self .., rfl⟩) fun hclosed => ⟨(h.output.closed hclosed).1, fun b hb => ?_⟩)
    rcases List.mem_cons.mp hb with rfl | hb
    · rfl
    · exact (h.output.closed hclosed).2 b hb
  | render_resume =>
    rw [step] at hstep
    split_ifs at hstep with ht
    cases hstep
    exact outputs_inv h rfl rfl rfl (.rendering (.inl (.inl rfl)) h.output.closed)
  | write bs =>
    rw [step] at hstep
    split_ifs at hstep with hopen
    cases hstep
    exact comes_inv h rfl rfl rfl nofun rfl rfl (h.output.comes rfl rfl id fun _ => hopen)
  | stop =>
    cases hstep
    exact outputs_inv h rfl rfl rfl ⟨h.output.busy, fun _ => .inl rfl, h.output.closed⟩
  | start =>
    cases hstep
    exact lcdstart_inv (h.owner.same rfl rfl) (h.deferred.keeps rfl rfl fun hfree => .inl ⟨hfree, id⟩) h.output.busy
      h.output.closed
  | ttyflush =>
    cases hstep
    exact outputs_inv h rfl rfl rfl
      ⟨h.output.busy, fun hne => absurd rfl hne, fun hclosed => ⟨rfl, (h.output.closed hclosed).2⟩⟩
  | lcdopen =>
    cases hstep
    by_cases hopen : s.isopen = true
    · rw [if_pos hopen]
      exact h
    · rw [if_neg hopen]
      refine outputs_inv h rfl rfl rfl ⟨nofun, fun hne => absurd ?_ hne, nofun⟩
      exact (h.output.closed (Bool.eq_false_iff.mpr hopen)).1
  | lcdclose =>
    rw [step] at hstep
    split_ifs at hstep with hnone
    cases hstep
    refine outputs_inv h rfl rfl rfl ⟨nofun, fun hne => absurd rfl hne, fun _ => ⟨rfl, fun a ha => ?_⟩⟩
    have hwrites := List.all_eq_true.mp hnone a ha
    exact Bool.eq_false_iff.mpr fun hw => by rw [hw] at hwrites; contradiction

theorem init_inv : Cons.init.Inv := by
  have hqueued : Cons.init.queued = [] := queued_eq_nil word_pos word_pos rfl
  refine ⟨⟨rfl, trivial⟩, ⟨word_pos, word_pos, word_pos, ?_, fun _ => ⟨[], [], ?_, rfl, .nil⟩, fun _ => .inl ⟨hqueued, rfl⟩⟩,
    ⟨nofun, fun hne => absurd rfl hne, fun _ => ⟨rfl, nofun⟩⟩⟩
  · show ahead word 0 0 ≤ deferRing
    rw [(ahead_eq_zero word_pos word_pos).mpr rfl]
    exact Nat.zero_le _
  · rw [hqueued]
    rfl

end Cons

end DiscoBSD.Lcdcons
