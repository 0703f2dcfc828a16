import Mathlib.Data.List.Basic
import DiscoBSD.Lib.Store

/-!
# NOR arrays

Two things can be done to a NOR array: an erase sets every bit of a range, and a program clears bits. A
program that would have to set a bit leaves something else than it was given, so it is only legal
where every bit it wants set is set. What was done is a list of operations in order, and **a list is
legal when each of its operations is legal in the memory the ones before it leave**.
-/

set_option autoImplicit false

namespace DiscoBSD.Lib

inductive NorOp where
  | erase (off len : Nat)
  | program (off : Nat) (data : List UInt8)
  deriving DecidableEq, Repr

/-- The bytes an operation is about. -/
def NorOp.range : NorOp → Extent
  | .erase off len => ⟨off, len⟩
  | .program off data => ⟨off, data.length⟩

def NorOp.apply (mem : Nat → UInt8) : NorOp → Nat → UInt8
  | .erase off len => fun x => if off ≤ x ∧ x < off + len then 0xff else mem x
  | .program off data => fun x => if off ≤ x then (data[x - off]?).elim (mem x) (mem x &&& ·) else mem x

/-- No bit has to be set. -/
def NorOp.Legal (mem : Nat → UInt8) : NorOp → Prop
  | .erase _ _ => True
  | .program off data => ∀ i b, data[i]? = some b → mem (off + i) &&& b = b

/-- The memory after a list of operations. -/
def replay (mem : Nat → UInt8) (ops : List NorOp) : Nat → UInt8 := ops.foldl NorOp.apply mem

def Legal (mem : Nat → UInt8) (ops : List NorOp) : Prop :=
  ∀ pre op post, ops = pre ++ op :: post → op.Legal (replay mem pre)

@[simp] theorem replay_snoc (mem : Nat → UInt8) (ops : List NorOp) (op : NorOp) :
    replay mem (ops ++ [op]) = op.apply (replay mem ops) := by
  simp [replay, List.foldl_append]

/-- A list with one element more, split at some element: at the last one or before it. -/
theorem split_snoc {α : Type} {xs pre post : List α} {x y : α} (h : xs ++ [x] = pre ++ y :: post) :
    (pre = xs ∧ y = x ∧ post = []) ∨ ∃ post', xs = pre ++ y :: post' ∧ post = post' ++ [x] := by
  rcases List.eq_nil_or_concat post with rfl | ⟨post', z, rfl⟩
  · obtain ⟨hpre, hy⟩ := List.append_inj' h rfl
    exact .inl ⟨hpre.symm, (List.singleton_inj.mp hy).symm, rfl⟩
  · rw [List.concat_eq_append, ← List.cons_append, ← List.append_assoc] at h
    obtain ⟨hpre, hz⟩ := List.append_inj' h rfl
    rw [List.concat_eq_append, List.singleton_inj.mp hz]
    exact .inr ⟨post', hpre, rfl⟩

theorem Legal.nil (mem : Nat → UInt8) : Legal mem [] := by
  intro pre op post h
  exact absurd (congrArg List.length h) (by simp)

theorem Legal.snoc {mem : Nat → UInt8} {ops : List NorOp} {op : NorOp} (h : Legal mem ops)
    (hop : op.Legal (replay mem ops)) : Legal mem (ops ++ [op]) := by
  intro pre op' post hsplit
  rcases split_snoc hsplit with ⟨rfl, rfl, _⟩ | ⟨post', hops, _⟩
  · exact hop
  · exact h pre op' post' hops

section
variable {mem : Nat → UInt8} {off len : Nat} {data : List UInt8}

theorem erase_inside {x : Nat} (h : off ≤ x) (hlt : x < off + len) :
    (NorOp.erase off len).apply mem x = 0xff := if_pos ⟨h, hlt⟩

theorem erase_outside {x : Nat} (h : x < off ∨ off + len ≤ x) :
    (NorOp.erase off len).apply mem x = mem x := if_neg (by omega)

theorem program_outside {x : Nat} (h : x < off ∨ off + data.length ≤ x) :
    (NorOp.program off data).apply mem x = mem x := by
  simp only [NorOp.apply]
  split
  · rw [List.getElem?_eq_none (by omega)]
    rfl
  · rfl

/-- In erased memory a program is legal and leaves what it was given. -/
theorem program_blank (h : ∀ x, off ≤ x → x < off + data.length → mem x = 0xff) :
    (NorOp.program off data).Legal mem ∧
      readAt ((NorOp.program off data).apply mem) off data.length = data := by
  have hones : ∀ b : UInt8, (0xff : UInt8) &&& b = b := fun b => UInt8.neg_one_and
  constructor
  · intro i b hb
    obtain ⟨hi, _⟩ := List.getElem?_eq_some_iff.mp hb
    rw [h (off + i) (Nat.le_add_right _ _) (by omega)]
    exact hones b
  · refine List.ext_getElem? fun i => ?_
    rw [getElem?_readAt]
    split
    · rename_i hi
      simp only [NorOp.apply, if_pos (Nat.le_add_right off i), Nat.add_sub_cancel_left,
        h (off + i) (Nat.le_add_right _ _) (by omega), List.getElem?_eq_getElem hi, Option.elim_some,
        hones]
    · rename_i hi
      exact (List.getElem?_eq_none (Nat.le_of_not_lt hi)).symm

end

end DiscoBSD.Lib
