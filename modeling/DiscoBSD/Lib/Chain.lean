import Mathlib

/-!
# Chains of addresses

Each place points to a later one, and what lies between the two is a block. **The blocks of one chain are apart**: of two
places on it, the first block ends where the second one begins or before.
-/

set_option autoImplicit false

namespace DiscoBSD.Lib

open Relation (ReflTransGen)

variable {α : Type} [LinearOrder α] {next next' : α → α} {a b c d t x y : α}

/-- The chain from `a` comes by `b`. -/
def Path (next : α → α) : α → α → Prop := ReflTransGen fun x y => next x = y ∧ x < y

namespace Path

theorem refl (a : α) : Path next a a := ReflTransGen.refl

theorem trans (h₁ : Path next a b) (h₂ : Path next b c) : Path next a c := ReflTransGen.trans h₁ h₂

theorem step (h : next a = b) (hlt : a < b) : Path next a b := ReflTransGen.single ⟨h, hlt⟩

theorem le (h : Path next a b) : a ≤ b := by
  induction h with
  | refl => exact le_refl _
  | tail _ hstep ih => exact le_trans ih (le_of_lt hstep.2)

/-- A chain is the places it comes by; what lies elsewhere does not matter. -/
theorem congr (hsame : ∀ x, a ≤ x → x < b → next' x = next x) (h : Path next a b) : Path next' a b := by
  induction h with
  | refl => exact refl _
  | tail hpath hstep ih =>
    have hbefore := ih fun x hx hlt => hsame x hx (lt_trans hlt hstep.2)
    exact hbefore.trans (ReflTransGen.single ⟨(hsame _ (le hpath) hstep.2).trans hstep.1, hstep.2⟩)

theorem total (h₁ : Path next a b) (h₂ : Path next a c) (hle : b ≤ c) : Path next b c := by
  have hunique : Relator.RightUnique fun x y => next x = y ∧ x < y := fun _ _ _ h₁ h₂ => h₁.1.symm.trans h₂.1
  rcases ReflTransGen.total_of_right_unique hunique h₁ h₂ with h | h
  · exact h
  · rw [le_antisymm hle (le h)]
    exact refl _

/-- The rest of a chain that goes on. -/
theorem tail (h : Path next a b) (hlt : a < b) : a < next a ∧ Path next (next a) b := by
  rcases ReflTransGen.cases_head h with rfl | ⟨c, ⟨rfl, hc⟩, hrest⟩
  · exact absurd hlt (lt_irrefl _)
  · exact ⟨hc, hrest⟩

/-- Two places on one chain. -/
theorem apart (hx : Path next a x) (hy : Path next a y) (hlt : x < y) : x < next x ∧ next x ≤ y := by
  obtain ⟨hnext, hrest⟩ := (total hx hy (le_of_lt hlt)).tail hlt
  exact ⟨hnext, hrest.le⟩

end Path

/-- A place on the chain from `a` to `t`. -/
structure On (next : α → α) (a t x : α) : Prop where
  before : Path next a x
  after : Path next x t

namespace On

theorem first (h : Path next a t) : On next a t a := ⟨.refl a, h⟩

theorem final (h : Path next a t) : On next a t t := ⟨h, .refl t⟩

theorem ge (h : On next a t x) : a ≤ x := h.before.le

theorem le (h : On next a t x) : x ≤ t := h.after.le

/-- The place after it. -/
theorem succ (h : On next a t x) (hlt : x < t) : x < next x ∧ On next a t (next x) := by
  obtain ⟨hnext, hrest⟩ := h.after.tail hlt
  exact ⟨hnext, h.before.trans (.step rfl hnext), hrest⟩

theorem apart (hx : On next a t x) (hy : On next a t y) (hlt : x < y) : x < next x ∧ next x ≤ y :=
  hx.before.apart hy.before hlt

/-- A stretch of the chain is replaced. -/
theorem splice (hc : On next a t c) (hd : On next a t d) (hleft : ∀ x, a ≤ x → x < c → next' x = next x)
    (hright : ∀ x, d ≤ x → x < t → next' x = next x) (hnew : Path next' c d) :
    (∀ x, On next a t x → x ≤ c ∨ d ≤ x → On next' a t x) ∧ ∀ x, Path next' c x → Path next' x d → On next' a t x := by
  have hbefore : Path next' a c := hc.before.congr hleft
  have hafter : Path next' d t := hd.after.congr hright
  constructor
  · intro x hx hwhere
    rcases hwhere with hle | hge
    · have hxc : Path next' x c := (hx.before.total hc.before hle).congr fun y hy hlt => hleft y (le_trans hx.ge hy) hlt
      have hax : Path next' a x := hx.before.congr fun y hy hlt => hleft y hy (lt_of_lt_of_le hlt hle)
      exact ⟨hax, (hxc.trans hnew).trans hafter⟩
    · have hdx : Path next' d x := (hd.before.total hx.before hge).congr fun y hy hlt =>
        hright y hy (lt_of_lt_of_le hlt hx.le)
      have hxt : Path next' x t := hx.after.congr fun y hy hlt => hright y (le_trans hge hy) hlt
      exact ⟨(hbefore.trans hnew).trans hdx, hxt⟩
  · intro x hcx hxd
    exact ⟨hbefore.trans hcx, hxd.trans hafter⟩

end On

end DiscoBSD.Lib
