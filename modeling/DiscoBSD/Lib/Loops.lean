import Mathlib.Data.Nat.Notation

/-!
# Counted loops

A loop that counts up and one that counts down. **What a turn keeps, with the number of turns made, holds after the
loop.**
-/

set_option autoImplicit false

namespace DiscoBSD.Lib

variable {σ : Type}

/-- `f l`, `f (l + 1)` and so on, `n` turns. -/
def countUp (f : ℕ → σ → σ) (l : ℕ) : ℕ → σ → σ
  | 0, s => s
  | n + 1, s => countUp f (l + 1) n (f l s)

/-- The same turns, the last first. -/
def countDown (f : ℕ → σ → σ) (l : ℕ) : ℕ → σ → σ
  | 0, s => s
  | n + 1, s => countDown f l n (f (l + n) s)

variable {f : ℕ → σ → σ} {l n : ℕ} {s : σ}

@[simp] theorem countUp_zero : countUp f l 0 s = s := rfl
@[simp] theorem countDown_zero : countDown f l 0 s = s := rfl

theorem countUp_succ : countUp f l (n + 1) s = f (l + n) (countUp f l n s) := by
  induction n generalizing l s with
  | zero => rfl
  | succ n ih =>
    rw [countUp, ih, Nat.add_right_comm, Nat.add_assoc]
    rfl

/-- `P k` after `k` turns. -/
theorem countUp_inv (P : ℕ → σ → Prop) (hstart : P 0 s) (hturn : ∀ k < n, ∀ x, P k x → P (k + 1) (f (l + k) x)) :
    P n (countUp f l n s) := by
  induction n with
  | zero => exact hstart
  | succ n ih =>
    rw [countUp_succ]
    exact hturn n (Nat.lt_succ_self n) _ (ih fun k hk => hturn k (Nat.lt_succ_of_lt hk))

/-- `P k` where `k` turns are left. -/
theorem countDown_inv (P : ℕ → σ → Prop) (hstart : P n s) (hturn : ∀ k < n, ∀ x, P (k + 1) x → P k (f (l + k) x)) :
    P 0 (countDown f l n s) := by
  induction n generalizing s with
  | zero => exact hstart
  | succ n ih =>
    exact ih (hturn n (Nat.lt_succ_self n) s hstart) fun k hk => hturn k (Nat.lt_succ_of_lt hk)

/-- Two loops side by side. -/
theorem countUp_rel {τ : Type} {f' : ℕ → τ → τ} {s' : τ} (R : σ → τ → Prop) (hstart : R s s')
    (hturn : ∀ k < n, ∀ x x', R x x' → R (f (l + k) x) (f' (l + k) x')) : R (countUp f l n s) (countUp f' l n s') := by
  induction n with
  | zero => exact hstart
  | succ n ih =>
    rw [countUp_succ, countUp_succ]
    exact hturn n (Nat.lt_succ_self n) _ _ (ih fun k hk => hturn k (Nat.lt_succ_of_lt hk))

/-! ## What is seen on the way -/

variable {α : Type}

/-- What `w` sees before each turn of `countUp`. -/
def trailUp (f : ℕ → σ → σ) (w : ℕ → σ → List α) (l : ℕ) : ℕ → σ → List α
  | 0, _ => []
  | n + 1, s => w l s ++ trailUp f w (l + 1) n (f l s)

/-- What `w` sees before each turn of `countDown`. -/
def trailDown (f : ℕ → σ → σ) (w : ℕ → σ → List α) (l : ℕ) : ℕ → σ → List α
  | 0, _ => []
  | n + 1, s => w (l + n) s ++ trailDown f w l n (f (l + n) s)

variable {w : ℕ → σ → List α} {Q : α → Prop}

/-- With an invariant that does not count the turns. -/
theorem trailUp_forall (P : σ → Prop) (hstart : P s) (hturn : ∀ i x, P x → P (f i x)) (hseen : ∀ i x, P x → ∀ t ∈ w i x, Q t) :
    ∀ t ∈ trailUp f w l n s, Q t := by
  induction n generalizing l s with
  | zero => exact fun t ht => absurd ht List.not_mem_nil
  | succ n ih =>
    intro t ht
    rcases List.mem_append.mp ht with hnow | hlater
    · exact hseen l s hstart t hnow
    · exact ih (hturn l s hstart) t hlater

/-- With `P k` where `k` turns are left. -/
theorem trailDown_forall (P : ℕ → σ → Prop) (hstart : P n s) (hturn : ∀ k < n, ∀ x, P (k + 1) x → P k (f (l + k) x))
    (hseen : ∀ k < n, ∀ x, P (k + 1) x → ∀ t ∈ w (l + k) x, Q t) : ∀ t ∈ trailDown f w l n s, Q t := by
  induction n generalizing s with
  | zero => exact fun t ht => absurd ht List.not_mem_nil
  | succ n ih =>
    intro t ht
    rcases List.mem_append.mp ht with hnow | hlater
    · exact hseen n (Nat.lt_succ_self n) s hstart t hnow
    · exact ih (hturn n (Nat.lt_succ_self n) s hstart) (fun k hk => hturn k (Nat.lt_succ_of_lt hk))
        (fun k hk => hseen k (Nat.lt_succ_of_lt hk)) t hlater

end DiscoBSD.Lib
