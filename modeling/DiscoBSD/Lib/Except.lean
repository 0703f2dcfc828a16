/-!
# Computations that may fail

How a computation in `Except` is taken apart: what a result says about the calls before it, and which
errors a computation cannot end in. The second goes through the calls in order, and a later call may
use what the earlier ones returned.
-/

set_option autoImplicit false

namespace DiscoBSD.Lib

variable {ε α β : Type}

/-- A computation that returned, taken apart at its first call. -/
theorem bind_ok {x : Except ε α} {f : α → Except ε β} {b : β} (h : x >>= f = .ok b) :
    ∃ a, x = .ok a ∧ f a = .ok b := by
  cases x with
  | error e => cases h
  | ok a => exact ⟨a, rfl, h⟩

theorem ok_bind (a : α) (f : α → Except ε β) : (Except.ok a >>= f) = f a := rfl

/-- A branch that gives a result before the rest of the body. -/
theorem ite_bind_ok {c : Prop} [Decidable c] {x y : Except ε α} {f : α → Except ε β} {a : α}
    (h : (if c then x else y) = .ok a) : (if c then x >>= f else y >>= f) = f a := by
  split at h
  · rw [if_pos ‹c›, h]
    rfl
  · rw [if_neg ‹¬c›, h]
    rfl

theorem exists_of_map_eq_ok {x : Except ε α} {f : α → β} {y : β} (h : x.map f = .ok y) :
    ∃ a, x = .ok a ∧ f a = y := by
  cases x with
  | error e => cases h
  | ok a => exact ⟨a, rfl, Except.ok.inj h⟩

/-- The computation ends in none of the errors in `bad`. -/
def Avoids (bad : List ε) (x : Except ε α) : Prop := ∀ e ∈ bad, x ≠ .error e

variable {bad : List ε}

theorem Avoids.ok (a : α) : Avoids bad (.ok a : Except ε α) := fun _ _ => nofun

theorem Avoids.error {e : ε} (h : e ∉ bad) : Avoids bad (.error e : Except ε α) := by
  rintro e' he' ⟨⟩
  exact h he'

theorem Avoids.bind {x : Except ε α} {f : α → Except ε β} (hx : Avoids bad x)
    (hf : ∀ a, x = .ok a → Avoids bad (f a)) : Avoids bad (x >>= f) := by
  cases x with
  | error e =>
    rintro e' he' ⟨⟩
    exact hx e he' rfl
  | ok a => exact hf a rfl

theorem Avoids.map {x : Except ε α} (hx : Avoids bad x) (f : α → β) : Avoids bad (x.map f) := by
  cases x with
  | error e =>
    rintro e' he' ⟨⟩
    exact hx e he' rfl
  | ok a => exact .ok (f a)

/-! ## One error -/

/-- The computation can fail in one way only. -/
def Only (e : ε) (x : Except ε α) : Prop := ∀ e', x = .error e' → e' = e

variable {e : ε}

theorem Only.ok (a : α) : Only e (.ok a : Except ε α) := nofun

theorem Only.error : Only e (.error e : Except ε α) := by
  rintro e' ⟨⟩
  rfl

theorem Only.bind {x : Except ε α} {f : α → Except ε β} (hx : Only e x) (hf : ∀ a, Only e (f a)) :
    Only e (x >>= f) := by
  cases x with
  | error e₁ =>
    rintro e' ⟨⟩
    exact hx e₁ rfl
  | ok a => exact hf a

theorem Only.map {x : Except ε α} (hx : Only e x) (f : α → β) : Only e (x.map f) := by
  cases x with
  | error e₁ =>
    rintro e' ⟨⟩
    exact hx e₁ rfl
  | ok a => exact .ok (f a)

/-- Which of two computations goes first does not matter when both fail in the same way. -/
theorem Only.comm {γ : Type} {x : Except ε α} {y : Except ε β} (hx : Only e x) (hy : Only e y)
    (f : α → β → Except ε γ) :
    (x >>= fun a => y >>= fun b => f a b) = (y >>= fun b => x >>= fun a => f a b) := by
  cases x with
  | ok a => rfl
  | error e₁ =>
    cases y with
    | ok b => rfl
    | error e₂ => exact congrArg Except.error ((hx e₁ rfl).trans (hy e₂ rfl).symm)

end DiscoBSD.Lib
