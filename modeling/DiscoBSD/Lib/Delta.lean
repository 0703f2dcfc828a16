import Mathlib.Data.List.Pairwise
import Mathlib.Order.MinMax

/-!
# Delta lists

A timer queue that stores each time **relative to the entry before it**. `dues` reads the absolute times
back: an entry is due after the positive times ahead of it and its own. An entry that is overdue has a
negative time and holds up nobody behind it, so only the positive times ahead count.

One tick takes one off every due time by touching a prefix of the list. To insert or to remove an entry
touches one neighbour, and the due times of the others stay what they were.
-/

set_option autoImplicit false

namespace DiscoBSD.Lib

variable {α β : Type} {δ : α → Int} {κ : α → β}

/-- The due times of a delta list with what they are for, `ahead` being the positive times before its first
    entry. -/
def dues (δ : α → Int) (κ : α → β) : Int → List α → List (Int × β)
  | _, [] => []
  | ahead, p :: rest => (ahead + δ p, κ p) :: dues δ κ (ahead + max (δ p) 0) rest

@[simp] theorem dues_nil (ahead : Int) : dues δ κ ahead [] = [] := rfl

@[simp] theorem dues_cons (ahead : Int) (p : α) (rest : List α) :
    dues δ κ ahead (p :: rest) = (ahead + δ p, κ p) :: dues δ κ (ahead + max (δ p) 0) rest := rfl

/-- All due times are moved. -/
def shift (c : Int) (l : List (Int × β)) : List (Int × β) := l.map fun d => (d.1 + c, d.2)

@[simp] theorem shift_cons (c : Int) (d : Int × β) (l : List (Int × β)) :
    shift c (d :: l) = (d.1 + c, d.2) :: shift c l := rfl

/-- What is ahead of a list moves all its due times. -/
theorem dues_shift (c ahead : Int) (l : List α) : dues δ κ (ahead + c) l = shift c (dues δ κ ahead l) := by
  induction l generalizing ahead with
  | nil => rfl
  | cons p rest ih =>
    have h₁ : ahead + c + δ p = ahead + δ p + c := by omega
    have h₂ : ahead + c + max (δ p) 0 = ahead + max (δ p) 0 + c := by omega
    rw [dues_cons, dues_cons, shift_cons, h₁, h₂, ih]

/-- The list is in the order of its due times. -/
def Ordered (l : List (Int × β)) : Prop := l.Pairwise fun d e => d.1 ≤ e.1

/-- Due times in order: an entry behind a positive one is not overdue. -/
theorem Ordered.nonneg {ahead : Int} {p q : α} {rest : List α}
    (h : Ordered (dues δ κ ahead (p :: q :: rest))) (hp : 0 < δ p) : 0 ≤ δ q := by
  have hle := (List.pairwise_cons.mp h).1 _ (List.mem_cons_self ..)
  simp only at hle
  omega

/-- The entry `p` is taken out, and the rest of its time is handed to the one behind it. -/
theorem dues_remove {ahead : Int} {p q q' : α} {rest : List α}
    (h : Ordered (dues δ κ ahead (p :: q :: rest))) (hq : δ q' = δ q + max (δ p) 0) (hκ : κ q' = κ q) :
    dues δ κ ahead (q' :: rest) = dues δ κ (ahead + max (δ p) 0) (q :: rest) := by
  have hnext : ahead + max (δ q') 0 = ahead + max (δ p) 0 + max (δ q) 0 := by
    by_cases hp : 0 < δ p
    · have := h.nonneg hp
      omega
    · omega
  have hfirst : ahead + δ q' = ahead + max (δ p) 0 + δ q := by omega
  rw [dues_cons, dues_cons, hnext, hfirst, hκ]

/-- A new entry goes in before `q`, whose time is no less than that of the new one. -/
theorem dues_insert {ahead : Int} {p q q' : α} {rest : List α} (hp : 0 < δ p) (hle : δ p ≤ δ q)
    (hq : δ q' = δ q - δ p) (hκ : κ q' = κ q) :
    dues δ κ ahead (p :: q' :: rest) = (ahead + δ p, κ p) :: dues δ κ ahead (q :: rest) := by
  have hfirst : ahead + max (δ p) 0 + δ q' = ahead + δ q := by omega
  have hnext : ahead + max (δ p) 0 + max (δ q') 0 = ahead + max (δ q) 0 := by omega
  rw [dues_cons, dues_cons, dues_cons, hfirst, hnext, hκ]

/-! ## Entering a due time -/

/-- A due time goes in before the first that is no earlier. -/
def enter (d : Int × β) (l : List (Int × β)) : List (Int × β) :=
  l.takeWhile (·.1 < d.1) ++ d :: l.dropWhile (·.1 < d.1)

theorem enter_cons_of_lt {d e : Int × β} {l : List (Int × β)} (h : e.1 < d.1) :
    enter d (e :: l) = e :: enter d l := by
  unfold enter
  rw [List.takeWhile_cons_of_pos (by simpa using h), List.dropWhile_cons_of_pos (by simpa using h)]
  rfl

theorem enter_cons_of_le {d e : Int × β} {l : List (Int × β)} (h : d.1 ≤ e.1) :
    enter d (e :: l) = d :: e :: l := by
  unfold enter
  have hn : ¬e.1 < d.1 := Int.not_lt.mpr h
  rw [List.takeWhile_cons_of_neg (by simpa using h), List.dropWhile_cons_of_neg (by simpa using h)]
  rfl

theorem enter_perm (d : Int × β) (l : List (Int × β)) : (enter d l).Perm (d :: l) := by
  have h := List.takeWhile_append_dropWhile (p := fun e : Int × β => decide (e.1 < d.1)) (l := l)
  refine List.perm_middle.trans ?_
  rw [h]

/-- A new due time keeps any order that is by due times first, and by age among equals. -/
theorem pairwise_enter {R : Int × β → Int × β → Prop} {d : Int × β} {l : List (Int × β)}
    (h : l.Pairwise R) (hlt : ∀ e ∈ l, e.1 < d.1 → R e d) (hle : ∀ e ∈ l, d.1 ≤ e.1 → R d e)
    (ho : Ordered l) : (enter d l).Pairwise R := by
  induction l with
  | nil => exact List.pairwise_singleton R d
  | cons e l ih =>
    obtain ⟨he, hl⟩ := List.pairwise_cons.mp h
    obtain ⟨heo, hlo⟩ := List.pairwise_cons.mp ho
    by_cases hd : e.1 < d.1
    · rw [enter_cons_of_lt hd]
      refine List.pairwise_cons.mpr ⟨fun x hx => ?_, ih hl (fun x hx => hlt x (List.mem_cons_of_mem _ hx))
        (fun x hx => hle x (List.mem_cons_of_mem _ hx)) hlo⟩
      rcases List.mem_cons.mp ((enter_perm d l).mem_iff.mp hx) with rfl | hx
      · exact hlt e (List.mem_cons_self ..) hd
      · exact he x hx
    · have hge : d.1 ≤ e.1 := Int.not_lt.mp hd
      rw [enter_cons_of_le hge]
      refine List.pairwise_cons.mpr ⟨fun x hx => ?_, h⟩
      rcases List.mem_cons.mp hx with rfl | hx'
      · exact hle x (List.mem_cons_self ..) hge
      · exact hle x hx (Int.le_trans hge (heo x hx'))

end DiscoBSD.Lib
