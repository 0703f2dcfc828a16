/-!
# When a property holds all along a run

A system takes one event after the other; an event that it cannot take now ends the run. **Where each step keeps
the property exactly when it is safe, a run has the property all along exactly when all its steps are safe.**
-/

set_option autoImplicit false

namespace DiscoBSD.Lib

variable {σ ε : Type}

/-- The property holds now and after each event of the run. -/
def Always (step : σ → ε → Option σ) (P : σ → Prop) : σ → List ε → Prop
  | s, [] => P s
  | s, e :: es => P s ∧ ∀ s', step s e = some s' → Always step P s' es

/-- Each step of the run is safe where it is taken. -/
def Each (step : σ → ε → Option σ) (Safe : σ → ε → Prop) : σ → List ε → Prop
  | _, [] => True
  | s, e :: es => ∀ s', step s e = some s' → Safe s e ∧ Each step Safe s' es

/-- The state after the events, if each of them can be taken. -/
def runOn (step : σ → ε → Option σ) : σ → List ε → Option σ
  | s, [] => some s
  | s, e :: es => (step s e).bind fun s' => runOn step s' es

variable {step : σ → ε → Option σ} {P Inv : σ → Prop} {Safe : σ → ε → Prop}

theorem Always.now {s : σ} {es : List ε} (h : Always step P s es) : P s := by
  cases es with
  | nil => exact h
  | cons e es => exact h.1

/-- What an invariant says of one step, said of a run. -/
theorem always_iff_each (hP : ∀ s, Inv s → P s)
    (hstep : ∀ s e s', Inv s → step s e = some s' → (P s' → Safe s e) ∧ (Safe s e → Inv s'))
    {s : σ} (h : Inv s) (es : List ε) : Always step P s es ↔ Each step Safe s es := by
  induction es generalizing s with
  | nil => exact ⟨fun _ => trivial, fun _ => hP s h⟩
  | cons e es ih =>
    constructor
    · rintro ⟨-, hrest⟩ s' hs
      obtain ⟨hneeds, hkeeps⟩ := hstep s e s' h hs
      have hsafe := hneeds (hrest s' hs).now
      exact ⟨hsafe, (ih (hkeeps hsafe)).mp (hrest s' hs)⟩
    · intro heach
      refine ⟨hP s h, fun s' hs => ?_⟩
      obtain ⟨hsafe, hrest⟩ := heach s' hs
      exact (ih ((hstep s e s' h hs).2 hsafe)).mpr hrest

/-- Where every step is safe. -/
theorem always_of_inv (hP : ∀ s, Inv s → P s) (hstep : ∀ s e s', Inv s → step s e = some s' → Inv s') {s : σ}
    (h : Inv s) (es : List ε) : Always step P s es := by
  induction es generalizing s with
  | nil => exact hP s h
  | cons e es ih => exact ⟨hP s h, fun s' hs => ih (hstep s e s' h hs)⟩

theorem each_cons {s s' : σ} {e : ε} {es : List ε} (hs : step s e = some s') :
    Each step Safe s (e :: es) ↔ Safe s e ∧ Each step Safe s' es := by
  constructor
  · intro heach
    exact heach s' hs
  · intro heach s₁ hs₁
    rw [hs] at hs₁
    cases hs₁
    exact heach

/-- The steps of a given run can be checked. -/
def decideEach [∀ s e, Decidable (Safe s e)] : (s : σ) → (es : List ε) → Decidable (Each step Safe s es)
  | _, [] => isTrue trivial
  | s, e :: es =>
    match hs : step s e with
    | none => isTrue fun _ hs' => nomatch hs.symm.trans hs'
    | some s' => @decidable_of_iff _ _ (each_cons hs).symm (@instDecidableAnd _ _ _ (decideEach s' es))

instance [∀ s e, Decidable (Safe s e)] (s : σ) (es : List ε) : Decidable (Each step Safe s es) := decideEach s es

/-- Where a step may break the property, a run of safe steps. -/
theorem always_of_each (hP : ∀ s, Inv s → P s)
    (hstep : ∀ s e s', Inv s → step s e = some s' → Safe s e → Inv s') {s : σ} (h : Inv s) {es : List ε}
    (hsafe : Each step Safe s es) : Always step P s es := by
  induction es generalizing s with
  | nil => exact hP s h
  | cons e es ih =>
    refine ⟨hP s h, fun s' hs => ?_⟩
    obtain ⟨hnow, hrest⟩ := hsafe s' hs
    exact ih (hstep s e s' h hs hnow) hrest

/-- Two conditions on a step that are the same where the run has kept to one of them. -/
theorem each_iff {Safe' : σ → ε → Prop}
    (hstep : ∀ s e s', Inv s → step s e = some s' → (Safe s e ↔ Safe' s e) ∧ (Safe' s e → Inv s')) {s : σ} (h : Inv s)
    (es : List ε) : Each step Safe s es ↔ Each step Safe' s es := by
  induction es generalizing s with
  | nil => exact Iff.rfl
  | cons e es ih =>
    constructor
    · intro heach s' hs
      obtain ⟨hsafe, hrest⟩ := heach s' hs
      obtain ⟨hiff, hkeeps⟩ := hstep s e s' h hs
      exact ⟨hiff.mp hsafe, (ih (hkeeps (hiff.mp hsafe))).mp hrest⟩
    · intro heach s' hs
      obtain ⟨hsafe, hrest⟩ := heach s' hs
      obtain ⟨hiff, hkeeps⟩ := hstep s e s' h hs
      exact ⟨hiff.mpr hsafe, (ih (hkeeps hsafe)).mpr hrest⟩

/-- What holds all along a run holds where it ends. -/
theorem Always.runOn {s s' : σ} {es : List ε} (h : Always step P s es) (hrun : runOn step s es = some s') : P s' := by
  induction es generalizing s with
  | nil =>
    cases hrun
    exact h
  | cons e es ih =>
    obtain ⟨s₁, hs, hrest⟩ := Option.bind_eq_some_iff.mp hrun
    exact ih (h.2 s₁ hs) hrest

/-- One event more. -/
theorem runOn_snoc {s s₁ s' : σ} {es : List ε} {e : ε} (hrun : runOn step s es = some s₁)
    (he : step s₁ e = some s') : runOn step s (es ++ [e]) = some s' := by
  induction es generalizing s with
  | nil =>
    cases hrun
    exact Option.bind_eq_some_iff.mpr ⟨s', he, rfl⟩
  | cons e' es ih =>
    obtain ⟨s₂, hs, hrest⟩ := Option.bind_eq_some_iff.mp hrun
    exact Option.bind_eq_some_iff.mpr ⟨s₂, hs, ih hrest⟩

end DiscoBSD.Lib
