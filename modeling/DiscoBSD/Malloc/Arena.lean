import Mathlib
import DiscoBSD.Lib.Chain
import DiscoBSD.Lib.Runs

/-!
# The user allocator

`malloc`, `free` and `realloc` of `lib/libc/gen/malloc.c`, over a memory of words. **The arena is a chain of headers
through the words themselves**, so a word is what it is as a pointer and the bit that marks a block busy; what a
program stores in a block is such a word too.

Addresses count words. A loop of the source that follows the chain has a bound here, and `none` is a loop that goes on
beyond it.
-/

set_option autoImplicit false

namespace DiscoBSD.Malloc

open Function (update)

/-- `union store`: the word as a pointer, and its lowest bit. -/
structure Store where
  ptr : ℕ
  busy : Bool
  deriving DecidableEq

abbrev Mem := ℕ → Store

/-- `sizeof(union store)`. -/
def word : ℕ := 4

def block : ℕ := 1024

def intMax : ℕ := 2 ^ 31 - 1

def maxbytes : ℕ := intMax / 2 - block - 2 * word

/-- The address of `allocs[0]`; where the linker puts it does not matter. -/
def allocs : ℕ := 1

structure Heap where
  mem : Mem
  allocp : ℕ
  alloct : ℕ
  allocx : Store

/-- The `while` of the search: the free blocks after `p` become part of it. -/
def coalesce : ℕ → Mem → ℕ → Option (Mem × ℕ)
  | 0, _, _ => none
  | n + 1, mem, p =>
    let q := (mem p).ptr
    if (mem q).busy then some (mem, q) else coalesce n (update mem p (mem q)) p

/-- How the inner `for` ends. -/
inductive Search where
  | found (mem : Mem) (p q : ℕ)
  /-- The arena is corrupt, and `NULL` is returned. -/
  | null (mem : Mem)
  /-- The search has gone over the arena. -/
  | round (mem : Mem) (p : ℕ)

/-- The inner `for` of `malloc`. -/
def search (nw alloct : ℕ) : ℕ → Mem → ℕ → ℕ → Option Search
  | 0, _, _, _ => none
  | n + 1, mem, p, temp =>
    match if (mem p).busy then some (mem, p) else coalesce n mem p with
    | none => none
    | some (mem', q) =>
      if (mem p).busy = false ∧ q - p ≥ nw then some (.found mem' p q)
      else
        let next := (mem' p).ptr
        if next > p then search nw alloct n mem' next temp
        else if p ≠ alloct ∨ next ≠ allocs then some (.null mem')
        else if temp + 1 > 1 then some (.round mem' next)
        else search nw alloct n mem' next (temp + 1)

/-- The words that `sbrk` is asked for, with the break at `q`. -/
def extension (nw q : ℕ) : ℕ := ((word * q + word * nw + block - 1) / block * block - word * q) / word

/-- What `sbrk` grants is put behind `alloct`, and a gap is noted as a busy block. -/
def extend (mem : Mem) (alloct q temp : ℕ) : Mem :=
  update (update (update mem alloct ⟨q, q ≠ alloct + 1⟩) q ⟨q + temp - 1, false⟩) (q + temp - 1) ⟨allocs, true⟩

/-- Turns enough for a search. -/
def turns (alloct : ℕ) : ℕ := 4 * (alloct + 1)

/-- The outer `for` of `malloc`. `gaps` are the grants of `sbrk`, each with the words between the arena and the break;
after them it refuses. -/
def mallocLoop (nw : ℕ) (gaps : List ℕ) (mem : Mem) (alloct p : ℕ) : Option (Mem × ℕ × Option (ℕ × ℕ)) :=
  match search nw alloct (turns alloct) mem p 0 with
  | none => none
  | some (.found mem p q) => some (mem, alloct, some (p, q))
  | some (.null mem) => some (mem, alloct, none)
  | some (.round mem p) =>
    match gaps with
    | [] => some (mem, alloct, none)
    | gap :: gaps =>
      let q := alloct + 1 + gap
      let temp := extension nw q
      if word * q + temp * word ≥ 2 ^ 32 then some (mem, alloct, none)
      else mallocLoop nw gaps (extend mem alloct q temp) (q + temp - 1) p

namespace Heap

/-- After the program has been loaded. -/
def init (mem : Mem) : Heap where
  mem := update (update mem allocs ⟨0, false⟩) (allocs + 1) ⟨0, false⟩
  allocp := 0
  alloct := 0
  allocx := ⟨0, false⟩

/-- The first time. -/
def start (h : Heap) : Heap :=
  if h.mem allocs = ⟨0, false⟩ then
    { h with
      mem := update (update h.mem allocs ⟨allocs + 1, true⟩) (allocs + 1) ⟨allocs, true⟩
      alloct := allocs + 1
      allocp := allocs }
  else h

/-- From `found` on. -/
def take (h : Heap) (p q nw : ℕ) : Heap :=
  let allocp := p + nw
  let h := { h with allocp := allocp }
  let h := if q > allocp then { h with allocx := h.mem allocp, mem := update h.mem allocp (h.mem p) } else h
  { h with mem := update h.mem p ⟨allocp, true⟩ }

/-- The result is 0 for `NULL`. -/
def malloc (nbytes : ℕ) (gaps : List ℕ) (h : Heap) : Option (Heap × ℕ) :=
  if nbytes = 0 ∨ nbytes > maxbytes then some (h, 0)
  else
    let h := h.start
    let nw := (nbytes + word + word - 1) / word
    match mallocLoop nw gaps h.mem h.alloct h.allocp with
    | none => none
    | some (mem, alloct, none) => some ({ h with mem := mem, alloct := alloct }, 0)
    | some (mem, alloct, some (p, q)) => some (take { h with mem := mem, alloct := alloct } p q nw, p + 1)

def free (ap : ℕ) (h : Heap) : Heap :=
  if ap = 0 then h
  else { h with allocp := ap - 1, mem := update h.mem (ap - 1) ⟨(h.mem (ap - 1)).ptr, false⟩ }

end Heap

/-- The first busy block from `q` on. -/
def pastFree : ℕ → Mem → ℕ → Option ℕ
  | 0, _, _ => none
  | n + 1, mem, q => if (mem q).busy then some q else pastFree n mem (mem q).ptr

/-- `n` words are copied, the first one first. -/
def copyWords : ℕ → Mem → ℕ → ℕ → Mem
  | 0, mem, _, _ => mem
  | n + 1, mem, t, s => copyWords n (update mem t (mem s)) (t + 1) (s + 1)

namespace Heap

/-- `realloc` of a block that the caller has freed. -/
def reallocFreed (p nbytes nw onw : ℕ) (gaps : List ℕ) (h : Heap) : Option (Heap × ℕ) :=
  match h.malloc nbytes gaps with
  | none => none
  | some (h, q) =>
    if q = 0 ∨ q = p then some (h, q)
    else
      let mem := copyWords (if nw < onw then nw else onw) h.mem q p
      let mem := if q < p ∧ q + nw ≥ p then update mem (q + (q + nw - p)) h.allocx else mem
      some ({ h with mem := mem }, q)

/-- `realloc` of a block that is moved. -/
def reallocMoved (p nbytes onw : ℕ) (gaps : List ℕ) (h : Heap) : Option (Heap × ℕ) :=
  match h.malloc nbytes gaps with
  | none => none
  | some (h, q) =>
    if q = 0 then some (h, 0)
    else some (free p { h with mem := copyWords onw h.mem q p }, q)

def realloc (p nbytes : ℕ) (gaps : List ℕ) (h : Heap) : Option (Heap × ℕ) :=
  if p = 0 then h.malloc nbytes gaps
  else if nbytes = 0 then some (if (h.mem (p - 1)).busy then h.free p else h, 0)
  else if nbytes > maxbytes then some (h, 0)
  else
    let nw := (nbytes + word - 1) / word
    let next := (h.mem (p - 1)).ptr
    let onw := next - p
    if (h.mem (p - 1)).busy then
      if nw ≤ onw then
        if nw < onw then
          let mem := update h.mem (p + nw) ⟨next, false⟩
          some ({ h with mem := update mem (p - 1) ⟨p + nw, true⟩, allocp := p - 1 }, p)
        else some (h, p)
      else
        match pastFree (turns h.alloct) h.mem next with
        | none => none
        | some q =>
          if q - p ≥ nw then
            let mem := if q > p + nw then update h.mem (p + nw) ⟨q, false⟩ else h.mem
            some ({ h with mem := update mem (p - 1) ⟨p + nw, true⟩, allocp := p - 1 }, p)
          else h.reallocMoved p nbytes onw gaps
    else h.reallocFreed p nbytes nw onw gaps

end Heap

/-! ## A program that allocates -/

structure Prog where
  heap : Heap
  /-- The blocks that are live, each with the bytes that were asked for. -/
  live : List (ℕ × ℕ)
  /-- What the last call returned. -/
  ret : ℕ

def Prog.init (mem : Mem) : Prog := ⟨.init mem, [], 0⟩

inductive Event where
  | malloc (nbytes : ℕ) (gaps : List ℕ)
  | free (p : ℕ)
  | realloc (p nbytes : ℕ) (gaps : List ℕ)
  /-- The program stores a word in a block. -/
  | write (p i : ℕ) (w : Store)

namespace Prog

def drop (s : Prog) (p : ℕ) : List (ℕ × ℕ) := s.live.filter fun b => b.1 ≠ p

/-- Calls of `free` and `realloc` are of live blocks, and a program writes inside what it asked for. -/
def step (s : Prog) : Event → Option Prog
  | .malloc nbytes gaps =>
    (s.heap.malloc nbytes gaps).map fun (h, r) => ⟨h, if r = 0 then s.live else (r, nbytes) :: s.live, r⟩
  | .free p => if s.live.any (fun b => b.1 = p) then some ⟨s.heap.free p, s.drop p, 0⟩ else none
  | .realloc p nbytes gaps =>
    if s.live.any (fun b => b.1 = p) then
      (s.heap.realloc p nbytes gaps).map fun (h, r) =>
        ⟨h, if r = 0 then (if nbytes = 0 then s.drop p else s.live) else (r, nbytes) :: s.drop p, r⟩
    else none
  | .write p i w =>
    if s.live.any (fun b => b.1 = p ∧ word * i < b.2) then
      some { s with heap := { s.heap with mem := update s.heap.mem (p + i) w } }
    else none

end Prog

end DiscoBSD.Malloc

/-!
# Blocks of the arena

**What a step does to the arena it does between two headers, and every block elsewhere stays as it is.** A free block
that the search pointer is at may be swallowed exactly when the block before it is free too.
-/

namespace DiscoBSD.Malloc

open Function (update)
open Lib (Path On)

/-- Where the word at `x` points to. -/
def Mem.next (mem : Mem) (x : ℕ) : ℕ := (mem x).ptr

/-- The arena is a chain of blocks from `allocs` to the header at `t`, which is the last one. -/
structure Arena (mem : Mem) (t : ℕ) : Prop where
  chain : Path mem.next allocs t
  above : allocs < t
  top : mem t = ⟨allocs, true⟩

/-- A header on the chain, the one of the empty block at the end included. -/
abbrev Header (mem : Mem) (t x : ℕ) : Prop := On mem.next allocs t x

/-- The block with the header `x` is left as it is. -/
structure Stays (mem : Mem) (t : ℕ) (mem' : Mem) (t' x : ℕ) : Prop where
  header : Header mem' t' x
  before : x < t'
  words : ∀ i, x ≤ i → i < mem.next x → mem' i = mem i

/-- The block at `p` is free and so is the one right before it. -/
def Exposed (mem : Mem) (t p : ℕ) : Prop :=
  (mem p).busy = false ∧ ∃ w, Header mem t w ∧ w < t ∧ (mem w).busy = false ∧ mem.next w = p

/-- The blocks from `b` to `d` are free, and large enough together. -/
structure Room (nw : ℕ) (mem : Mem) (t b d : ℕ) : Prop where
  first : Header mem t b
  last : Header mem t d
  large : nw ≤ d - b
  free : ∀ x, Header mem t x → b ≤ x → x < d → (mem x).busy = false

/-- The busy blocks but the one at `e` are left as they are. -/
def KeptBut (e : ℕ) (mem : Mem) (t : ℕ) (mem' : Mem) (t' : ℕ) : Prop :=
  ∀ x, Header mem t x → x < t → (mem x).busy = true → x ≠ e → Stays mem t mem' t' x

section

variable {mem mem' mem'' : Mem} {t t' t'' x y p q e c d : ℕ}

theorem Header.pos (h : Header mem t x) : 0 < x := h.ge

/-- The block after a header. -/
theorem Header.follow (hx : Header mem t x) (hlt : x < t) :
    x < mem.next x ∧ Header mem t (mem.next x) ∧ mem.next x ≤ t := by
  obtain ⟨hnext, hon⟩ := On.succ hx hlt
  exact ⟨hnext, hon, hon.le⟩

theorem Stays.same (h : Stays mem t mem' t' x) (hx : x < mem.next x) : mem' x = mem x :=
  h.words x (le_refl x) hx

theorem KeptBut.refl (e : ℕ) (mem : Mem) (t : ℕ) : KeptBut e mem t mem t :=
  fun _ hx hlt _ _ => ⟨hx, hlt, fun _ _ _ => rfl⟩

theorem Stays.trans (h₁ : Stays mem t mem' t' x) (hx : x < mem.next x) (h₂ : Stays mem' t' mem'' t'' x) :
    Stays mem t mem'' t'' x := by
  refine ⟨h₂.header, h₂.before, fun i hle hi => ?_⟩
  have hnext : mem'.next x = mem.next x := congrArg Store.ptr (h₁.same hx)
  rw [h₂.words i hle (hnext ▸ hi), h₁.words i hle hi]

/-- A busy block that has stayed so far, and stays. -/
theorem Stays.kept (h₁ : Stays mem t mem' t' x) (hx : Header mem t x) (hlt : x < t) (hbusy : (mem x).busy = true)
    (hk : KeptBut e mem' t' mem'' t'') (hne : x ≠ e) : Stays mem t mem'' t'' x := by
  have hnext := (Header.follow hx hlt).1
  exact h₁.trans hnext (hk x h₁.header h₁.before (h₁.same hnext ▸ hbusy) hne)

theorem KeptBut.trans (h₁ : KeptBut e mem t mem' t') (h₂ : KeptBut e mem' t' mem'' t'') :
    KeptBut e mem t mem'' t'' := by
  intro x hx hlt hbusy hne
  exact (h₁ x hx hlt hbusy hne).kept hx hlt hbusy h₂ hne

theorem KeptBut.weaken (h : KeptBut 0 mem t mem' t') (e : ℕ) : KeptBut e mem t mem' t' :=
  fun x hx hlt hbusy _ => h x hx hlt hbusy hx.pos.ne'

/-- The words from `c` to `d` are made into blocks anew. -/
structure Respliced (mem : Mem) (t : ℕ) (mem' : Mem) (c d : ℕ) : Prop where
  arena : Arena mem' t
  elsewhere : ∀ x, Header mem t x → x ≤ c ∨ d ≤ x → Header mem' t x
  within : ∀ x, Path mem'.next c x → Path mem'.next x d → Header mem' t x
  back : ∀ x, Header mem' t x → x ≤ c ∨ d ≤ x → Header mem t x

theorem Arena.resplice (ha : Arena mem t) (hc : Header mem t c) (hd : Header mem t d)
    (hsame : ∀ x, x < c ∨ d ≤ x → mem' x = mem x) (hnew : Path mem'.next c d) : Respliced mem t mem' c d := by
  have hnext : ∀ x, x < c ∨ d ≤ x → mem'.next x = mem.next x := fun x hx => congrArg Store.ptr (hsame x hx)
  obtain ⟨helse, hwithin⟩ := On.splice hc hd (fun x _ hlt => hnext x (.inl hlt)) (fun x hle _ => hnext x (.inr hle)) hnew
  have hfirst := helse allocs (.first ha.chain) (.inl hc.ge)
  have hc' := hwithin c (.refl c) hnew
  have hd' := hwithin d hnew (.refl d)
  obtain ⟨hback, -⟩ := On.splice hc' hd' (fun x _ hlt => (hnext x (.inl hlt)).symm)
    (fun x hle _ => (hnext x (.inr hle)).symm) (hc.before.total hd.before hnew.le)
  exact ⟨⟨hfirst.after, ha.above, (hsame t (.inr hd.le)).trans ha.top⟩, helse, hwithin, hback⟩

/-- A block that does not lie in the stretch. -/
theorem Respliced.stays (h : Respliced mem t mem' c d) (hc : Header mem t c)
    (hsame : ∀ x, x < c ∨ d ≤ x → mem' x = mem x) (hx : Header mem t x) (hlt : x < t) (hwhere : x < c ∨ d ≤ x) :
    Stays mem t mem' t x := by
  refine ⟨h.elsewhere x hx (hwhere.imp_left le_of_lt), hlt, fun i hle hi => hsame i ?_⟩
  rcases hwhere with hbefore | hafter
  · exact .inl (lt_of_lt_of_le hi (On.apart hx hc hbefore).2)
  · exact .inr (hafter.trans hle)

end

end DiscoBSD.Malloc
