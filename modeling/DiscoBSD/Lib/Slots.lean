import Mathlib.Data.List.Nodup
import Mathlib.Data.List.Count
import Mathlib.Logic.Function.Basic

/-!
# Tables over a list of slots

A table gives a value to every slot, and what the slots hold together is a count or a list over the
slots. An update of one slot changes its own share and nothing else: **each lemma takes one slot out of
the list and leaves the others as they were**, so that two tables which differ in that slot are
compared by what is in it.
-/

set_option autoImplicit false

namespace DiscoBSD.Lib

open Function (update)

variable {ι α : Type} [DecidableEq ι] {l : List ι} {i : ι}

theorem update_of_mem_erase {β : Type} (f : ι → β) (b : β) (hl : l.Nodup) {j : ι}
    (hj : j ∈ l.erase i) : update f i b j = f j :=
  Function.update_of_ne (fun h => hl.not_mem_erase (h ▸ hj)) b f

/-- The slots that satisfy a test, with slot `i` taken out. -/
theorem countP_update (f : ι → Bool) (b : Bool) (hl : l.Nodup) (hi : i ∈ l) :
    l.countP (update f i b) = (l.erase i).countP f + b.toNat := by
  rw [(List.perm_cons_erase hi).countP_eq, List.countP_cons, Function.update_self,
    List.countP_congr (fun j hj => by rw [update_of_mem_erase f b hl hj])]
  cases b <;> rfl

theorem countP_split (f : ι → Bool) (hl : l.Nodup) (hi : i ∈ l) :
    l.countP f = (l.erase i).countP f + (f i).toNat := by
  have h := countP_update f (f i) hl hi
  rwa [Function.update_eq_self] at h

/-- What the slots hold, with slot `i` taken out. -/
theorem filterMap_update (f : ι → Option α) (x : Option α) (hl : l.Nodup) (hi : i ∈ l) :
    (l.filterMap (update f i x)).Perm (x.toList ++ (l.erase i).filterMap f) := by
  refine ((List.perm_cons_erase hi).filterMap _).trans ?_
  rw [List.filterMap_cons, Function.update_self,
    List.filterMap_congr (fun j hj => update_of_mem_erase f x hl hj)]
  cases x <;> rfl

theorem filterMap_split (f : ι → Option α) (hl : l.Nodup) (hi : i ∈ l) :
    (l.filterMap f).Perm ((f i).toList ++ (l.erase i).filterMap f) := by
  have h := filterMap_update f (f i) hl hi
  rwa [Function.update_eq_self] at h

/-- What lists in the slots hold, with slot `i` taken out. -/
theorem flatMap_update (f : ι → List α) (x : List α) (hl : l.Nodup) (hi : i ∈ l) :
    (l.flatMap (update f i x)).Perm (x ++ (l.erase i).flatMap f) := by
  refine ((List.perm_cons_erase hi).flatMap_right _).trans ?_
  rw [List.flatMap_cons, Function.update_self,
    List.flatMap_congr (fun j hj => update_of_mem_erase f x hl hj)]

theorem flatMap_split (f : ι → List α) (hl : l.Nodup) (hi : i ∈ l) :
    (l.flatMap f).Perm (f i ++ (l.erase i).flatMap f) := by
  have h := flatMap_update f (f i) hl hi
  rwa [Function.update_eq_self] at h

end DiscoBSD.Lib
