import DiscoBSD.Lib.Extent
import DiscoBSD.Lib.Word

/-!
# The SwapRAM pool allocator

`sys/arch/rp2040/rp2040/swapram_pool.c`: a first-fit byte allocator over an address-ordered array of
free segments kept outside the pool. The array is modelled by its first `p_used` entries, as a list,
with `p_nseg` bounding its length; entries past `p_used` are never read. `p_base` plays no part in
the allocation and is left out. Every sum an `unsigned int` holds is wrapped where the code forms
it, so a stray offset near the top of the type behaves here as it does there.

The file's own return convention is `0` or `-1`; it becomes `some off`/`none` for the allocation,
which also returns an offset, and `true`/`false` for the other two. Each routine returns the pool it
leaves, on failure too: "unchanged" is a theorem and not a convention.
-/

set_option autoImplicit false

namespace DiscoBSD.Swapram

open DiscoBSD.Lib

/-- `SWAPRAM_GRAIN`: every offset and size is a multiple of it. -/
def swapramGrain : Nat := 4

/-- `struct swapram_pool`, its segment array cut at `p_used`. -/
structure SwapramPool where
  p_size : Nat
  p_nseg : Nat
  p_seg : List Extent
  deriving DecidableEq, Repr

/-- Round up to the grain, in `unsigned int` arithmetic. -/
def roundgrain (n : Nat) : Nat := maskDown 32 (wrap 32 (n + (swapramGrain - 1))) swapramGrain

/-- The end of a segment, in `unsigned int` arithmetic. -/
def segEnd (s : Extent) : Nat := wrap 32 (s.off + s.size)

/-- Start with the whole pool free. -/
def swapramPoolInit (size nseg : Nat) : SwapramPool :=
  let psize := maskDown 32 size swapramGrain
  if nseg = 0 ∨ psize = 0 then ⟨psize, nseg, []⟩ else ⟨psize, nseg, [⟨0, psize⟩]⟩

/-- The scan of `swapram_pool_alloc`: skip the segments that are too small, take the front of the
first that is not, and close the array over it when nothing of it is left. -/
def allocScan (want : Nat) : List Extent → Option (Nat × List Extent)
  | [] => none
  | s :: rest =>
    if s.size < want then (allocScan want rest).map fun r => (r.1, s :: r.2)
    else
      let s' : Extent := ⟨wrap 32 (s.off + want), s.size - want⟩
      some (s.off, if s'.size = 0 then rest else s' :: rest)

/-- First fit. -/
def swapramPoolAlloc (mp : SwapramPool) (size : Nat) : Option Nat × SwapramPool :=
  let want := roundgrain size
  if want = 0 ∨ mp.p_size < want then (none, mp)
  else
    match allocScan want mp.p_seg with
    | none => (none, mp)
    | some (off, seg) => (some off, { mp with p_seg := seg })

/-- The segments before the first that starts at or after `off`: `p_seg[0 .. i)`. -/
def segBelow (mp : SwapramPool) (off : Nat) : List Extent :=
  mp.p_seg.takeWhile fun s => decide (s.off < off)

/-- The segments from there on: `p_seg[i .. p_used)`. -/
def segAbove (mp : SwapramPool) (off : Nat) : List Extent :=
  mp.p_seg.dropWhile fun s => decide (s.off < off)

/-- Grow the segment `s` below the range, and merge it with the segment above when the two now
touch. `lo` are the segments below `s`. -/
def growBelow (mp : SwapramPool) (lo : List Extent) (s : Extent) (want : Nat) (hi : List Extent) :
    SwapramPool :=
  let s' : Extent := ⟨s.off, wrap 32 (s.size + want)⟩
  match hi with
  | [] => { mp with p_seg := lo ++ [s'] }
  | t :: rest =>
    if segEnd s' = t.off then
      { mp with p_seg := lo ++ ⟨s'.off, wrap 32 (s'.size + t.size)⟩ :: rest }
    else { mp with p_seg := lo ++ s' :: t :: rest }

/-- Neither neighbour touches: the range needs a slot of its own. -/
def newSlot (mp : SwapramPool) (off want : Nat) (lo hi : List Extent) : Bool × SwapramPool :=
  if mp.p_seg.length = mp.p_nseg then (false, mp)
  else (true, { mp with p_seg := lo ++ ⟨off, want⟩ :: hi })

/-- Extend the segment above when it starts exactly at the end of the range. -/
def growAbove (mp : SwapramPool) (off want : Nat) (lo hi : List Extent) : Bool × SwapramPool :=
  match hi with
  | [] => newSlot mp off want lo hi
  | t :: rest =>
    if wrap 32 (off + want) = t.off then
      (true, { mp with p_seg := lo ++ ⟨off, wrap 32 (t.size + want)⟩ :: rest })
    else newSlot mp off want lo hi

/-- Return `size` bytes at `off`, coalescing with the neighbours the address order makes adjacent. -/
def swapramPoolFree (mp : SwapramPool) (off size : Nat) : Bool × SwapramPool :=
  let want := roundgrain size
  if want = 0 ∨ off % swapramGrain ≠ 0 ∨ mp.p_size < wrap 32 (off + want) then (false, mp)
  else
    let lo := segBelow mp off
    let hi := segAbove mp off
    -- `lo.getLast?` is `p_seg[i - 1]` when `i > 0`, `hi.head?` is `p_seg[i]` when `i < p_used`.
    if lo.getLast?.any fun s => decide (off < segEnd s) then (false, mp)
    else if hi.head?.any fun s => decide (s.off < wrap 32 (off + want)) then (false, mp)
    else
      match lo.getLast? with
      | some s =>
        if segEnd s = off then (true, growBelow mp lo.dropLast s want hi)
        else growAbove mp off want lo hi
      | none => growAbove mp off want lo hi

/-- Release the tail of an allocation. -/
def swapramPoolTrim (mp : SwapramPool) (off oldsize newsize : Nat) : Bool × SwapramPool :=
  let keep := roundgrain newsize
  let had := roundgrain oldsize
  if had < keep then (false, mp)
  else if keep = had then (true, mp)
  else swapramPoolFree mp (wrap 32 (off + keep)) (had - keep)

/-- Bytes free anywhere in the pool. -/
def swapramPoolAvail (mp : SwapramPool) : Nat :=
  mp.p_seg.foldl (fun n s => wrap 32 (n + s.size)) 0

/-- The largest single allocation the pool can still satisfy. -/
def swapramPoolLargest (mp : SwapramPool) : Nat :=
  mp.p_seg.foldl (fun n s => if n < s.size then s.size else n) 0

/-! ## Rounding -/

/-- The grain-rounded size as arithmetic, with no type to wrap in. -/
def grainCeil (n : Nat) : Nat := roundUp swapramGrain n

theorem roundgrain_eq {n : Nat} (h : n + 3 < 2 ^ 32) : roundgrain n = grainCeil n := by
  unfold roundgrain
  rw [wrap_of_lt (show n + (swapramGrain - 1) < 2 ^ 32 from h)]
  exact maskDown_add (w := 32) (n := n) (k := 2) (by omega) (by omega)

/-- A size whose rounding leaves the type rounds to zero. -/
theorem roundgrain_eq_zero {n : Nat} (h : 2 ^ 32 ≤ n + 3) (hn : n < 2 ^ 32) :
    roundgrain n = 0 := by
  have hw : wrap 32 (n + (swapramGrain - 1)) = n + 3 - 2 ^ 32 := by
    show (n + 3) % 2 ^ 32 = _
    omega
  unfold roundgrain
  rw [hw, show swapramGrain = 2 ^ 2 from rfl, maskDown_eq (by omega) (by omega)]
  omega

theorem roundgrain_mod (n : Nat) : roundgrain n % 4 = 0 := by
  unfold roundgrain
  rw [show swapramGrain = 2 ^ 2 from rfl, maskDown_eq (by omega) (wrap_lt _ _)]
  omega

theorem roundgrain_lt (n : Nat) : roundgrain n < 2 ^ 32 :=
  Nat.lt_of_le_of_lt (maskDown_le _ _ _) (wrap_lt _ _)

theorem roundgrain_of_mod {n : Nat} (h : n % 4 = 0) (hn : n < 2 ^ 32) : roundgrain n = n := by
  rw [roundgrain_eq (by omega)]
  exact roundUp_of_dvd (by decide) (Nat.dvd_of_mod_eq_zero h)

end DiscoBSD.Swapram
