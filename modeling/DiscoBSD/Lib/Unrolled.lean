import Mathlib.Data.List.Range
import Mathlib.Data.List.Basic
import Mathlib.Logic.Function.Basic

/-!
# Chains of blocks

A sequence of cells kept in a chain of blocks. A block of `size` addresses begins with a header of `hdr`, which
`next` reads as the block that follows; the other addresses are cells. The sequence starts at a cell `cf` of the
first block and ends before `cl` in the last one, and every block in between is full.

**The cells in order are a list of addresses**, and both ends move by lists: a prefix goes with the blocks that
it empties, a suffix comes or goes with the last block. `next` of the last block means nothing.
-/

set_option autoImplicit false

namespace DiscoBSD.Lib

section

variable (hdr size : ℕ)

/-- The cells from `cf` in block `b` through the blocks `bs` to the end `cl`. -/
def cells (cl : ℕ) : ℕ → ℕ → List ℕ → List ℕ
  | cf, _, [] => List.range' cf (cl - cf)
  | cf, b, b' :: bs => List.range' cf (b + size - cf) ++ cells cl (b' + hdr) b' bs

/-- The first cell is in block `b`, the blocks `bs` follow it, and the end is in the last of them. -/
def Chained (next : ℕ → ℕ) (cl : ℕ) : ℕ → ℕ → List ℕ → Prop
  | cf, b, [] => b + hdr ≤ cf ∧ cf < cl ∧ cl ≤ b + size
  | cf, b, b' :: bs => b + hdr ≤ cf ∧ cf < b + size ∧ next b = b' ∧ Chained next cl (b' + hdr) b' bs

/-- The last block. -/
def lastBlock : ℕ → List ℕ → ℕ
  | b, [] => b
  | _, b' :: bs => lastBlock b' bs

end

section

variable {hdr size cl cf b : ℕ} {bs : List ℕ} {next next' : ℕ → ℕ}

theorem lastBlock_mem (b : ℕ) (bs : List ℕ) : lastBlock b bs ∈ b :: bs := by
  induction bs generalizing b with
  | nil => exact List.mem_singleton_self b
  | cons b' bs ih => exact List.mem_cons_of_mem b (ih b')

theorem lastBlock_append (b : ℕ) (bs : List ℕ) (z : ℕ) : lastBlock b (bs ++ [z]) = z := by
  induction bs generalizing b with
  | nil => rfl
  | cons b' bs ih => exact ih b'

theorem eq_nil_of_lastBlock (hn : (b :: bs).Nodup) (h : lastBlock b bs = b) : bs = [] := by
  cases bs with
  | nil => rfl
  | cons b' bs => exact absurd (h ▸ lastBlock_mem b' bs) (List.nodup_cons.mp hn).1

theorem Chained.first (h : Chained hdr size next cl cf b bs) : b + hdr ≤ cf ∧ cf < b + size := by
  cases bs with
  | nil =>
    obtain ⟨h₁, h₂, h₃⟩ := h
    omega
  | cons b' bs => exact ⟨h.1, h.2.1⟩

/-- The end is past the first cell of the last block. -/
theorem Chained.last (h : Chained hdr size next cl cf b bs) :
    lastBlock b bs + hdr < cl ∧ cl ≤ lastBlock b bs + size := by
  induction bs generalizing cf b with
  | nil =>
    obtain ⟨h₁, h₂, h₃⟩ := h
    simp only [lastBlock]
    omega
  | cons b' bs ih => exact ih h.2.2.2

/-- What the chain does not contain, and the header of the last block, may change. -/
theorem Chained.congr (h : Chained hdr size next cl cf b bs) (hn : (b :: bs).Nodup)
    (heq : ∀ x ∈ b :: bs, x ≠ lastBlock b bs → next' x = next x) : Chained hdr size next' cl cf b bs := by
  induction bs generalizing cf b with
  | nil => exact h
  | cons b' bs ih =>
    obtain ⟨h₁, h₂, h₃, h₄⟩ := h
    obtain ⟨hb, hn⟩ := List.nodup_cons.mp hn
    have hne : b ≠ lastBlock b' bs := fun hlast => hb (hlast ▸ lastBlock_mem b' bs)
    exact ⟨h₁, h₂, (heq b (List.mem_cons_self ..) hne).trans h₃,
      ih h₄ hn fun x hx => heq x (List.mem_cons_of_mem b hx)⟩

/-- Every cell is in a block of the chain. -/
theorem Chained.mem_cells (h : Chained hdr size next cl cf b bs) {a : ℕ} (ha : a ∈ cells hdr size cl cf b bs) :
    ∃ x ∈ b :: bs, x + hdr ≤ a ∧ a < x + size := by
  induction bs generalizing cf b with
  | nil =>
    obtain ⟨h₁, h₂, h₃⟩ := h
    obtain ⟨hlo, hhi⟩ := List.mem_range'_1.mp ha
    exact ⟨b, List.mem_singleton_self b, by omega, by omega⟩
  | cons b' bs ih =>
    obtain ⟨h₁, h₂, -, h₄⟩ := h
    rcases List.mem_append.mp ha with ha | ha
    · obtain ⟨hlo, hhi⟩ := List.mem_range'_1.mp ha
      exact ⟨b, List.mem_cons_self .., by omega, by omega⟩
    · obtain ⟨x, hx, hax⟩ := ih h₄ ha
      exact ⟨x, List.mem_cons_of_mem b hx, hax⟩

/-- In the last block the cells are before the end. -/
theorem Chained.mem_before (h : Chained hdr size next cl cf b bs) (hn : (b :: bs).Nodup) {a : ℕ}
    (ha : a ∈ cells hdr size cl cf b bs) :
    ∃ x ∈ b :: bs, x + hdr ≤ a ∧ a < x + size ∧ (x = lastBlock b bs → a < cl) := by
  induction bs generalizing cf b with
  | nil =>
    obtain ⟨h₁, h₂, h₃⟩ := h
    obtain ⟨hlo, hhi⟩ := List.mem_range'_1.mp ha
    exact ⟨b, List.mem_singleton_self b, by omega, by omega, fun _ => by omega⟩
  | cons b' bs ih =>
    obtain ⟨h₁, h₂, -, h₄⟩ := h
    obtain ⟨hb, hn⟩ := List.nodup_cons.mp hn
    rcases List.mem_append.mp ha with ha | ha
    · obtain ⟨hlo, hhi⟩ := List.mem_range'_1.mp ha
      exact ⟨b, List.mem_cons_self .., by omega, by omega, fun he => absurd (he ▸ lastBlock_mem b' bs) hb⟩
    · obtain ⟨x, hx, hax⟩ := ih h₄ hn ha
      exact ⟨x, List.mem_cons_of_mem b hx, hax⟩

theorem Chained.length_pos (h : Chained hdr size next cl cf b bs) : 0 < (cells hdr size cl cf b bs).length := by
  cases bs with
  | nil =>
    simp only [cells, List.length_range']
    exact Nat.sub_pos_of_lt h.2.1
  | cons b' bs =>
    simp only [cells, List.length_append, List.length_range']
    have := h.2.1
    omega

/-- The first cell. -/
theorem Chained.head (h : Chained hdr size next cl cf b bs) : (cells hdr size cl cf b bs).headD 0 = cf := by
  cases bs with
  | nil =>
    obtain ⟨n, hn⟩ := Nat.exists_eq_add_of_lt h.2.1
    simp only [cells, show cl - cf = n + 1 by omega, List.range'_succ, List.headD_cons]
  | cons b' bs =>
    obtain ⟨n, hn⟩ := Nat.exists_eq_add_of_lt h.2.1
    simp only [cells, show b + size - cf = n + 1 by omega, List.range'_succ, List.cons_append, List.headD_cons]

/-- What the chain has room for is used up in front of it, by it, and behind it. -/
theorem Chained.length (h : Chained hdr size next cl cf b bs) :
    cf - (b + hdr) + (cells hdr size cl cf b bs).length + (lastBlock b bs + size - cl) =
      (bs.length + 1) * (size - hdr) := by
  induction bs generalizing cf b with
  | nil =>
    obtain ⟨h₁, h₂, h₃⟩ := h
    simp only [cells, lastBlock, List.length_range', List.length_nil]
    omega
  | cons b' bs ih =>
    obtain ⟨h₁, h₂, -, h₄⟩ := h
    have hrest := ih h₄
    simp only [cells, lastBlock, List.length_append, List.length_range', List.length_cons]
    rw [Nat.sub_self, Nat.zero_add] at hrest
    rw [Nat.succ_mul, ← hrest]
    omega

/-! ## The front -/

/-- The cells of the first block, and the others. -/
theorem Chained.inside {n : ℕ} (h : Chained hdr size next cl cf b bs) (hn : cf + n < b + size)
    (hc : n < (cells hdr size cl cf b bs).length) :
    Chained hdr size next cl (cf + n) b bs ∧
      cells hdr size cl cf b bs = List.range' cf n ++ cells hdr size cl (cf + n) b bs := by
  cases bs with
  | nil =>
    obtain ⟨h₁, h₂, h₃⟩ := h
    simp only [cells, List.length_range'] at hc
    refine ⟨⟨by omega, by omega, h₃⟩, ?_⟩
    simp only [cells]
    rw [show cl - cf = n + (cl - (cf + n)) by omega, ← List.range'_append_1]
  | cons b' bs =>
    obtain ⟨h₁, h₂, h₃, h₄⟩ := h
    refine ⟨⟨by omega, hn, h₃, h₄⟩, ?_⟩
    simp only [cells]
    rw [show b + size - cf = n + (b + size - (cf + n)) by omega, ← List.range'_append_1, List.append_assoc]

/-- The first block is used up. -/
theorem Chained.over (h : Chained hdr size next cl cf b bs)
    (hc : b + size - cf < (cells hdr size cl cf b bs).length) :
    ∃ b' bs', bs = b' :: bs' ∧ next b = b' ∧ Chained hdr size next cl (b' + hdr) b' bs' ∧
      cells hdr size cl cf b bs = List.range' cf (b + size - cf) ++ cells hdr size cl (b' + hdr) b' bs' := by
  cases bs with
  | nil =>
    obtain ⟨h₁, h₂, h₃⟩ := h
    simp only [cells, List.length_range'] at hc
    omega
  | cons b' bs => exact ⟨b', bs, rfl, h.2.2.1, h.2.2.2, rfl⟩

/-- A chain with no cells past the first block has no other block. -/
theorem Chained.only {n : ℕ} (h : Chained hdr size next cl cf b bs) (hn : cf + n ≤ b + size)
    (hc : n = (cells hdr size cl cf b bs).length) :
    bs = [] ∧ cf + n = cl ∧ cells hdr size cl cf b bs = List.range' cf n := by
  cases bs with
  | nil =>
    obtain ⟨h₁, h₂, h₃⟩ := h
    simp only [cells, List.length_range'] at hc ⊢
    exact ⟨trivial, by omega, by rw [hc]⟩
  | cons b' bs =>
    have hpos := h.2.2.2.length_pos
    simp only [cells, List.length_append, List.length_range'] at hc
    omega

/-! ## The back -/

/-- The end moves up in the last block. -/
theorem Chained.grow {cl' : ℕ} (h : Chained hdr size next cl cf b bs) (hle : cl ≤ cl')
    (hroom : cl' ≤ lastBlock b bs + size) :
    Chained hdr size next cl' cf b bs ∧
      cells hdr size cl' cf b bs = cells hdr size cl cf b bs ++ List.range' cl (cl' - cl) := by
  induction bs generalizing cf b with
  | nil =>
    obtain ⟨h₁, h₂, h₃⟩ := h
    refine ⟨⟨h₁, by omega, hroom⟩, ?_⟩
    simp only [cells]
    rw [show cl' - cf = cl - cf + (cl' - cl) by omega, ← List.range'_append_1, show cf + (cl - cf) = cl by omega]
  | cons b' bs ih =>
    obtain ⟨h₁, h₂, h₃, h₄⟩ := h
    obtain ⟨hch, hcells⟩ := ih h₄ hroom
    exact ⟨⟨h₁, h₂, h₃, hch⟩, by simp only [cells, hcells, List.append_assoc]⟩

/-- The end moves down in the last block. -/
theorem Chained.shrink {cl' : ℕ} (h : Chained hdr size next cl cf b bs) (hlo : lastBlock b bs + hdr < cl')
    (hone : bs = [] → cf < cl') (hle : cl' ≤ cl) : Chained hdr size next cl' cf b bs := by
  induction bs generalizing cf b with
  | nil => exact ⟨h.1, hone rfl, hle.trans h.2.2⟩
  | cons b' bs ih =>
    obtain ⟨h₁, h₂, h₃, h₄⟩ := h
    refine ⟨h₁, h₂, h₃, ih h₄ hlo fun hnil => ?_⟩
    subst hnil
    exact hlo

/-- A block comes behind the last one, which is full. -/
theorem Chained.snoc {z cl' : ℕ} (h : Chained hdr size next cl cf b bs) (hfull : cl = lastBlock b bs + size)
    (hz : next (lastBlock b bs) = z) (hlo : z + hdr < cl') (hhi : cl' ≤ z + size) :
    Chained hdr size next cl' cf b (bs ++ [z]) ∧
      cells hdr size cl' cf b (bs ++ [z]) =
        cells hdr size cl cf b bs ++ List.range' (z + hdr) (cl' - (z + hdr)) := by
  induction bs generalizing cf b with
  | nil =>
    obtain ⟨h₁, h₂, h₃⟩ := h
    simp only [lastBlock] at hfull hz
    refine ⟨⟨h₁, by omega, hz, le_rfl, hlo, hhi⟩, ?_⟩
    simp only [List.nil_append, cells, hfull]
  | cons b' bs ih =>
    obtain ⟨h₁, h₂, h₃, h₄⟩ := h
    obtain ⟨hch, hcells⟩ := ih h₄ hfull hz
    exact ⟨⟨h₁, h₂, h₃, hch⟩, by simp only [List.cons_append, cells, hcells, List.append_assoc]⟩

/-- The last block goes, and the one before it is full. -/
theorem Chained.unsnoc {z : ℕ} (h : Chained hdr size next cl cf b (bs ++ [z])) :
    next (lastBlock b bs) = z ∧ Chained hdr size next (lastBlock b bs + size) cf b bs ∧
      cells hdr size cl cf b (bs ++ [z]) =
        cells hdr size (lastBlock b bs + size) cf b bs ++ List.range' (z + hdr) (cl - (z + hdr)) := by
  induction bs generalizing cf b with
  | nil =>
    obtain ⟨h₁, h₂, h₃, -⟩ := h
    exact ⟨h₃, ⟨h₁, h₂, le_rfl⟩, rfl⟩
  | cons b' bs ih =>
    obtain ⟨h₁, h₂, h₃, h₄⟩ := h
    obtain ⟨hnext, hch, hcells⟩ := ih h₄
    exact ⟨hnext, ⟨h₁, h₂, h₃, hch⟩, by simp only [List.cons_append, cells, hcells, lastBlock, List.append_assoc]⟩

end

end DiscoBSD.Lib
