import Mathlib.Data.List.Range
import Mathlib.Data.List.Sort
import Mathlib.Logic.Equiv.Basic

/-!
# Arrays rearranged

An array is a function of the index. `Rearr l h a b` says that `b` has the elements of `a` in another order between `l`
and `h`, and the same ones elsewhere. **Whatever holds of all elements of a stretch holds of all of them still.**
-/

set_option autoImplicit false

namespace DiscoBSD.Lib

variable {α : Type} {a b c : ℕ → α} {l h l' h' n : ℕ}

def Rearr (l h : ℕ) (a b : ℕ → α) : Prop := ∃ σ : Equiv.Perm ℕ, (∀ k, k < l ∨ h ≤ k → σ k = k) ∧ b = a ∘ σ

theorem Rearr.refl (l h : ℕ) (a : ℕ → α) : Rearr l h a a := ⟨Equiv.refl ℕ, fun _ _ => rfl, rfl⟩

theorem Rearr.trans (h₁ : Rearr l h a b) (h₂ : Rearr l h b c) : Rearr l h a c := by
  obtain ⟨σ, hσ, rfl⟩ := h₁
  obtain ⟨τ, hτ, rfl⟩ := h₂
  refine ⟨τ.trans σ, fun k hk => ?_, rfl⟩
  rw [Equiv.trans_apply, hτ k hk, hσ k hk]

theorem Rearr.mono (hr : Rearr l h a b) (hl : l' ≤ l) (hh : h ≤ h') : Rearr l' h' a b := by
  obtain ⟨σ, hσ, heq⟩ := hr
  exact ⟨σ, fun k hk => hσ k (by omega), heq⟩

theorem Rearr.swap (i j : ℕ) (hi : l ≤ i ∧ i < h) (hj : l ≤ j ∧ j < h) (a : ℕ → α) :
    Rearr l h a (a ∘ Equiv.swap i j) :=
  ⟨Equiv.swap i j, fun _ hk => Equiv.swap_apply_of_ne_of_ne (by omega) (by omega), rfl⟩

theorem Rearr.outside (hr : Rearr l h a b) {k : ℕ} (hk : k < l ∨ h ≤ k) : b k = a k := by
  obtain ⟨σ, hσ, rfl⟩ := hr
  rw [Function.comp_apply, hσ k hk]

/-- An element of the stretch was in the stretch. -/
theorem Rearr.origin (hr : Rearr l h a b) {k : ℕ} (hk : l ≤ k ∧ k < h) : ∃ k', (l ≤ k' ∧ k' < h) ∧ b k = a k' := by
  obtain ⟨σ, hσ, rfl⟩ := hr
  refine ⟨σ k, ?_, rfl⟩
  by_contra hout
  have hfix := σ.injective (hσ (σ k) (by omega))
  omega

theorem Rearr.forall (hr : Rearr l h a b) {P : α → Prop} (hP : ∀ k, l ≤ k → k < h → P (a k)) :
    ∀ k, l ≤ k → k < h → P (b k) := by
  intro k hl hh
  obtain ⟨k', hk', heq⟩ := hr.origin ⟨hl, hh⟩
  rw [heq]
  exact hP k' hk'.1 hk'.2

/-- The elements as a list. -/
def elems (a : ℕ → α) (n : ℕ) : List α := (List.range n).map a

theorem Rearr.perm (hr : Rearr 0 n a b) : (elems b n).Perm (elems a n) := by
  obtain ⟨σ, hσ, rfl⟩ := hr
  have hrange : ((List.range n).map σ).Perm (List.range n) := by
    refine (List.perm_ext_iff_of_nodup (List.nodup_range.map σ.injective) List.nodup_range).mpr fun k => ?_
    have hin : ∀ k, k < n ↔ σ k < n := by
      intro k
      constructor
      · intro hk
        by_contra hout
        have hfix := σ.injective (hσ (σ k) (by omega))
        omega
      · intro hk
        by_contra hout
        rw [hσ k (by omega)] at hk
        exact hout hk
    rw [List.mem_map, List.mem_range]
    constructor
    · rintro ⟨j, hj, rfl⟩
      exact (hin j).mp (List.mem_range.mp hj)
    · intro hk
      refine ⟨σ.symm k, List.mem_range.mpr ((hin _).mpr ?_), σ.apply_symm_apply k⟩
      rwa [σ.apply_symm_apply]
  rw [elems, ← List.map_map]
  exact hrange.map a

/-- Where the elements come from when the one at `hi + k` moves down to `hi`. -/
def turned (hi k x : ℕ) : ℕ := if x = hi then hi + k else if hi < x ∧ x ≤ hi + k then x - 1 else x

theorem turned_zero (hi x : ℕ) : turned hi 0 x = x := by
  unfold turned
  split
  · omega
  · exact if_neg (by omega)

/-- The element moves one place first. -/
theorem turned_succ (hi k x : ℕ) : turned hi (k + 1) x = Equiv.swap (hi + k) (hi + k + 1) (turned hi k x) := by
  unfold turned
  by_cases hx : x = hi
  · rw [if_pos hx, if_pos hx, Equiv.swap_apply_left]
    rfl
  · rw [if_neg hx, if_neg hx]
    by_cases hle : hi < x ∧ x ≤ hi + k
    · rw [if_pos ⟨hle.1, by omega⟩, if_pos hle, Equiv.swap_apply_of_ne_of_ne (by omega) (by omega)]
    · rw [if_neg hle]
      by_cases hlast : x = hi + k + 1
      · rw [if_pos (by omega), hlast, Equiv.swap_apply_right]
        rfl
      · rw [if_neg (by omega), Equiv.swap_apply_of_ne_of_ne (by omega) (by omega)]

theorem Rearr.turned (a : ℕ → α) (hi k : ℕ) : Rearr hi (hi + k + 1) a (a ∘ turned hi k) := by
  induction k generalizing a with
  | zero =>
    have hsame : a ∘ Lib.turned hi 0 = a := funext fun x => congrArg a (turned_zero hi x)
    rw [hsame]
    exact .refl ..
  | succ k ih =>
    have hstep : a ∘ Lib.turned hi (k + 1) = (a ∘ Equiv.swap (hi + k) (hi + k + 1)) ∘ Lib.turned hi k :=
      funext fun x => congrArg a (turned_succ hi k x)
    rw [hstep]
    exact (Rearr.swap _ _ ⟨by omega, by omega⟩ ⟨by omega, by omega⟩ a).trans ((ih _).mono (le_refl _) (by omega))

end DiscoBSD.Lib
