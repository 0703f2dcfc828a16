import Mathlib.Data.List.Nodup
import Mathlib.Data.List.Basic
import Mathlib.Logic.Function.Basic

/-!
# Queues threaded through their nodes

Several queues of nodes. Each has a pointer to its first node, and each node has one pointer to the next, which
all the queues share. A *place* is where a pointer is kept, at a head or in a node: a node is taken out of its
queue by a write to the place that points to it.

**As long as no node is in two queues, or in one twice, each operation is one on a list**: `push` puts a node in
front of one, and a write past the place takes the node at it away. `find` walks to the place that points to a
node, as a loop over pointers does; it has fuel, and a queue of `n` nodes needs no more than that.
-/

set_option autoImplicit false

namespace DiscoBSD.Lib

open Function (update)

/-- The pointers. -/
structure Links (κ ν : Type) where
  head : κ → Option ν
  next : ν → Option ν

/-- Where a pointer is. -/
inductive Place (κ ν : Type) where
  | head (k : κ)
  | next (v : ν)

variable {κ ν : Type}

namespace Links

def get (L : Links κ ν) : Place κ ν → Option ν
  | .head k => L.head k
  | .next v => L.next v

/-- The nodes from a pointer on. -/
def nodes (L : Links κ ν) : ℕ → Option ν → List ν
  | 0, _ => []
  | _, none => []
  | fuel + 1, some v => v :: nodes L fuel (L.next v)

variable [DecidableEq κ] [DecidableEq ν]

def set (L : Links κ ν) (at' : Place κ ν) (x : Option ν) : Links κ ν :=
  match at' with
  | .head k => { L with head := update L.head k x }
  | .next v => { L with next := update L.next v x }

/-- Put a node in front. -/
def push (L : Links κ ν) (k : κ) (v : ν) : Links κ ν :=
  ⟨update L.head k (some v), update L.next v (L.head k)⟩

/-- Take the node at a place out of the queue. -/
def skip (L : Links κ ν) (at' : Place κ ν) (v : ν) : Links κ ν := L.set at' (L.next v)

/-- Walk to the place that points to a node. -/
def find (L : Links κ ν) (v : ν) : ℕ → Place κ ν → Option (Place κ ν)
  | 0, _ => none
  | fuel + 1, at' =>
    match L.get at' with
    | none => none
    | some x => if x = v then some at' else find L v fuel (.next x)

end Links

/-- The pointer leads through the nodes of the list and then nowhere. -/
def Linked (next : ν → Option ν) : Option ν → List ν → Prop
  | a, [] => a = none
  | a, v :: l => a = some v ∧ Linked next (next v) l

/-- The queues are these lists. -/
structure Threads (L : Links κ ν) (Q : κ → List ν) : Prop where
  linked : ∀ k, Linked L.next (L.head k) (Q k)
  nodup : ∀ k, (Q k).Nodup
  apart : ∀ k k' v, v ∈ Q k → v ∈ Q k' → k = k'

/-- The place behind some nodes of a queue. -/
def Place.after (k : κ) : List ν → Place κ ν
  | [] => .head k
  | v :: l => .next ((v :: l).getLast (List.cons_ne_nil v l))

section

variable {L : Links κ ν} {Q : κ → List ν} {k : κ} {v : ν} {a b l : List ν} {next next' : ν → Option ν}
  {x : Option ν}

theorem Place.after_concat (k : κ) (l : List ν) (v : ν) : Place.after k (l ++ [v]) = .next v := by
  cases l with
  | nil => rfl
  | cons u l => exact congrArg Place.next (List.getLast_concat (l := u :: l))

/-! ## One queue -/

theorem Linked.congr (h : Linked next x l) (heq : ∀ u ∈ l, next' u = next u) : Linked next' x l := by
  induction l generalizing x with
  | nil => exact h
  | cons u l ih =>
    refine ⟨h.1, ?_⟩
    rw [heq u (List.mem_cons_self ..)]
    exact ih h.2 fun u' hu' => heq u' (List.mem_cons_of_mem u hu')

theorem Linked.head (h : Linked next x l) : x = l.head? := by
  cases l with
  | nil => exact h
  | cons u l => exact h.1

theorem Linked.drop (h : Linked next x (a ++ b)) (hne : a ≠ []) : Linked next (next (a.getLast hne)) b := by
  induction a generalizing x with
  | nil => exact absurd rfl hne
  | cons u a ih =>
    cases a with
    | nil => exact h.2
    | cons u' a => exact ih h.2 (List.cons_ne_nil u' a)

theorem Linked.nodes (h : Linked L.next x l) {fuel : ℕ} (hfuel : l.length ≤ fuel) : L.nodes fuel x = l := by
  induction l generalizing x fuel with
  | nil =>
    rw [show x = none from h]
    cases fuel <;> rfl
  | cons u l ih =>
    cases fuel with
    | zero => exact absurd hfuel (Nat.not_succ_le_zero _)
    | succ fuel =>
      rw [h.1]
      exact congrArg (u :: ·) (ih h.2 (Nat.le_of_succ_le_succ hfuel))

/-! ## All of them -/

/-- What the place behind some nodes points to. -/
theorem Threads.get (h : Threads L Q) (hk : Q k = a ++ b) : L.get (.after k a) = b.head? := by
  have hlink := h.linked k
  rw [hk] at hlink
  cases a with
  | nil => exact hlink.head
  | cons u a => exact (hlink.drop (List.cons_ne_nil u a)).head

theorem Threads.nodes (h : Threads L Q) {fuel : ℕ} (hfuel : (Q k).length ≤ fuel) :
    L.nodes fuel (L.head k) = Q k := (h.linked k).nodes hfuel

/-! ## Writes -/

variable [DecidableEq ν]

/-- The walk ends at the node. -/
theorem Threads.find (h : Threads L Q) {fuel : ℕ} (hk : Q k = l ++ (a ++ v :: b)) (hfuel : a.length < fuel) :
    L.find v fuel (.after k l) = some (.after k (l ++ a)) := by
  induction a generalizing l fuel with
  | nil =>
    cases fuel with
    | zero => cases hfuel
    | succ fuel =>
      unfold Links.find
      rw [h.get hk]
      simp
  | cons u a ih =>
    cases fuel with
    | zero => cases hfuel
    | succ fuel =>
      have hne : u ≠ v := by
        rintro rfl
        have hnodup := h.nodup k
        rw [hk] at hnodup
        have hn := (List.nodup_cons.mp (List.nodup_append.mp hnodup).2.1).1
        exact hn (List.mem_append_right a (List.mem_cons_self ..))
      have hk' : Q k = (l ++ [u]) ++ (a ++ v :: b) := by
        rw [hk, List.append_assoc]
        rfl
      have hrest := ih hk' (Nat.lt_of_succ_lt_succ hfuel)
      unfold Links.find
      rw [h.get hk]
      simp only [List.cons_append, List.head?_cons, if_neg hne]
      rw [← Place.after_concat k l u, hrest, List.append_assoc]
      rfl

/-- The link behind `u` is led past `v`. -/
theorem Linked.skip (h : Linked next x (a ++ v :: b)) (hn : (a ++ v :: b).Nodup) (hne : a ≠ []) :
    Linked (update next (a.getLast hne) (next v)) x (a ++ b) := by
  induction a generalizing x with
  | nil => exact absurd rfl hne
  | cons u a ih =>
    have hnu := List.nodup_cons.mp hn
    cases a with
    | nil =>
      refine ⟨h.1, ?_⟩
      show Linked (update next u (next v)) (update next u (next v) u) b
      rw [Function.update_self]
      refine h.2.2.congr fun w hw => Function.update_of_ne ?_ ..
      rintro rfl
      exact hnu.1 (List.mem_cons_of_mem v hw)
    | cons u' a =>
      refine ⟨h.1, ?_⟩
      have hne' := List.cons_ne_nil u' a
      have hlast : u ≠ (u' :: a).getLast hne' := by
        intro he
        exact hnu.1 (List.mem_append_left _ (he ▸ List.getLast_mem hne'))
      have hrest := ih h.2 hnu.2 hne'
      rwa [List.getLast_cons hne', Function.update_of_ne hlast]

variable [DecidableEq κ]

theorem Threads.push (h : Threads L Q) (hv : ∀ k', v ∉ Q k') (k : κ) :
    Threads (L.push k v) (update Q k (v :: Q k)) := by
  have hsame : ∀ k', Linked (update L.next v (L.head k)) (L.head k') (Q k') := fun k' =>
    (h.linked k').congr fun u hu => Function.update_of_ne (fun he => hv k' (by rwa [he] at hu)) ..
  refine ⟨fun k' => ?_, fun k' => ?_, fun k₁ k₂ u h₁ h₂ => ?_⟩
  · by_cases hk : k' = k
    · subst hk
      simp only [Links.push, Function.update_self]
      refine ⟨rfl, ?_⟩
      rw [Function.update_self]
      exact hsame k'
    · simp only [Links.push, Function.update_of_ne hk]
      exact hsame k'
  · by_cases hk : k' = k
    · subst hk
      rw [Function.update_self]
      exact List.nodup_cons.mpr ⟨hv k', h.nodup k'⟩
    · rw [Function.update_of_ne hk]
      exact h.nodup k'
  · -- The node is in no other queue.
    have hmem : ∀ k', u ∈ update Q k (v :: Q k) k' → u ∈ Q k' ∨ u = v ∧ k' = k := by
      intro k' hu
      by_cases hk : k' = k
      · subst hk
        rw [Function.update_self] at hu
        rcases List.mem_cons.mp hu with rfl | hu
        · exact .inr ⟨rfl, rfl⟩
        · exact .inl hu
      · rw [Function.update_of_ne hk] at hu
        exact .inl hu
    rcases hmem k₁ h₁ with hu₁ | ⟨rfl, rfl⟩
    · rcases hmem k₂ h₂ with hu₂ | ⟨rfl, rfl⟩
      · exact h.apart k₁ k₂ u hu₁ hu₂
      · exact absurd hu₁ (hv k₁)
    · rcases hmem k₂ h₂ with hu₂ | ⟨-, rfl⟩
      · exact absurd hu₂ (hv k₂)
      · rfl

theorem Threads.skip (h : Threads L Q) (hk : Q k = a ++ v :: b) :
    Threads (L.skip (.after k a) v) (update Q k (a ++ b)) := by
  have hlink := h.linked k
  have hnodup := h.nodup k
  rw [hk] at hlink hnodup
  have hsub : (a ++ b).Sublist (a ++ v :: b) := (List.Sublist.refl a).append (List.sublist_cons_self v b)
  have hmem : ∀ k' u, u ∈ update Q k (a ++ b) k' → u ∈ Q k' := by
    intro k' u hu
    by_cases hk' : k' = k
    · subst hk'
      rw [Function.update_self] at hu
      rw [hk]
      exact hsub.subset hu
    · rwa [Function.update_of_ne hk'] at hu
  refine ⟨fun k' => ?_, fun k' => ?_, fun k₁ k₂ u h₁ h₂ => h.apart k₁ k₂ u (hmem k₁ u h₁) (hmem k₂ u h₂)⟩
  · by_cases hk' : k' = k
    · subst hk'
      rw [Function.update_self]
      cases a with
      | nil =>
        simp only [Links.skip, Links.set, Place.after, Function.update_self]
        exact hlink.2
      | cons u a => exact hlink.skip hnodup (List.cons_ne_nil u a)
    · rw [Function.update_of_ne hk']
      cases a with
      | nil =>
        simp only [Links.skip, Links.set, Place.after, Function.update_of_ne hk']
        exact h.linked k'
      | cons u a =>
        -- The link that changes is in another queue.
        refine (h.linked k').congr fun w hw => Function.update_of_ne ?_ ..
        rintro rfl
        refine hk' (h.apart k' k _ hw ?_)
        rw [hk]
        exact List.mem_append_left _ (List.getLast_mem _)
  · by_cases hk' : k' = k
    · subst hk'
      rw [Function.update_self]
      exact hnodup.sublist hsub
    · rw [Function.update_of_ne hk']
      exact h.nodup k'

end

end DiscoBSD.Lib
