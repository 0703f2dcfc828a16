import Mathlib.Data.Fin.VecNotation
import DiscoBSD.Lib.Extent
import DiscoBSD.Lib.Word

/-!
# Resource maps

`sys/kern/subr_rmap.c`: the allocator the swap code takes flash blocks from. A map is a fixed array
of descriptors in address order, the free runs first, then one descriptor of size zero that ends the
list, then whatever earlier operations left behind. The functions walk the array with a pointer and
shift it in place, so the model is **the whole array**, terminator and stale slots included, and
a walk is a recursion on the suffix that the pointer addresses.

Reading or writing past `m_limit` is undefined in C. It is `Fault.outside` here, next to the panics,
so that a proof that a call returns is a proof that it stays inside the table.
-/

set_option autoImplicit false

namespace DiscoBSD.Rmap

open DiscoBSD.Lib

/-- How a call ends when it does not return. -/
inductive Fault where
  | panic (msg : String)
  | outside
  deriving DecidableEq, Repr

/-- `struct map`. A descriptor is an `Extent`: `m_addr` is `off` and `m_size` is `size`. The list holds
    the slots from `m_map` to `m_limit` inclusive; `m_width` is the width of a descriptor's fields,
    16 bits under `COMPACT_SWAPMAP` and 32 otherwise. -/
structure Map where
  m_map : List Extent
  m_name : String
  m_width : Nat
  deriving DecidableEq, Repr

/-- `struct mapent swapent[slots]`, all zero, as the loader leaves it. -/
def Map.zeroed (name : String) (width slots : Nat) : Map :=
  ⟨List.replicate slots ⟨0, 0⟩, name, width⟩

/-! ## Shifting the table -/

/-- The loop `*ep = *++bp` up to and including the terminator: the slot at the pointer is dropped and
    everything after it moves down by one. The terminator's old slot keeps its copy. -/
def closeUp : List Extent → Except Fault (List Extent)
  | _ :: bp :: rest =>
    if bp.size = 0 then .ok (bp :: bp :: rest)
    else (closeUp (bp :: rest)).map (bp :: ·)
  | _ => .error .outside

/-- Everything from the pointer to the terminator moves up by one and `new` takes the slot at the
    pointer. `none` when the terminator already sits in the last slot. -/
def openUp (new : Extent) : List Extent → Except Fault (Option (List Extent))
  | [] => .error .outside
  | bp :: rest =>
    if bp.size = 0 then
      match rest with
      | [] => .ok none
      | _ :: stale => .ok (some (new :: bp :: stale))
    else (openUp bp rest).map (Option.map (new :: ·))

/-! ## malloc -/

/-- The search loop of `malloc`: first fit, and on an exact fit the table closes up. -/
def mallocScan (w size : Nat) : List Extent → Except Fault (Nat × List Extent)
  | [] => .error .outside
  | bp :: rest =>
    if bp.size = 0 then .ok (0, bp :: rest)
    else if size ≤ bp.size then
      if bp.size - size ≠ 0 then
        .ok (bp.off, ⟨wrap w (bp.off + size), bp.size - size⟩ :: rest)
      else (closeUp (⟨bp.off, 0⟩ :: rest)).map fun m => (bp.off, m)
    else (mallocScan w size rest).map fun r => (r.1, bp :: r.2)

/-- `malloc`. The address, or `0` when no run is large enough. -/
def malloc (mp : Map) (size : Nat) : Except Fault (Nat × Map) :=
  if size = 0 then .error (.panic "malloc: size = 0")
  else (mallocScan mp.m_width size mp.m_map).map fun r => (r.1, { mp with m_map := r.2 })

/-! ## mfree -/

/-- What the overflow branch prints: `"%s: overflow, lost %u clicks at 0%o\n"`. -/
structure Lost where
  name : String
  size : Nat
  addr : Nat
  deriving DecidableEq, Repr

/-- The descriptors `mfree` skips: those that start at or below `addr`. -/
def startsBelow (addr : Nat) (e : Extent) : Bool := e.size ≠ 0 && e.off ≤ addr

/-- The piece on the left abuts: grow it, and when it now reaches the piece on the right, take that
    in too and close the table up. -/
def freeLeft (w size addr : Nat) (before : List Extent) (ep bp : Extent) (rest : List Extent) :
    Except Fault (List Extent) :=
  let grown : Extent := ⟨ep.off, wrap w (ep.size + size)⟩
  if bp.size ≠ 0 ∧ bp.off ≤ wrap 32 (addr + size) then
    (closeUp (bp :: rest)).map fun m => before ++ ⟨grown.off, wrap w (grown.size + bp.size)⟩ :: m
  else .ok (before ++ grown :: bp :: rest)

/-- Nothing abuts on the left: grow the piece on the right downwards, or open a slot. -/
def freeRight (w size addr : Nat) (before : List Extent) (bp : Extent) (rest : List Extent) :
    Except Fault (Option (List Extent)) :=
  if bp.size ≠ 0 ∧ bp.off ≤ wrap 32 (addr + size) then
    .ok (some (before ++ ⟨wrap w addr, wrap w (bp.size + size)⟩ :: rest))
  else (openUp ⟨wrap w addr, wrap w size⟩ (bp :: rest)).map (Option.map (before ++ ·))

/-- `mfree`, with the overflow message it printed, if any. -/
def mfree (mp : Map) (size addr : Nat) : Except Fault (Option Lost × Map) :=
  if size = 0 then .ok (none, mp)
  else if addr = 0 then .error (.panic "mfree: addr = 0")
  else
    let before := mp.m_map.takeWhile (startsBelow addr)
    match mp.m_map.dropWhile (startsBelow addr) with
    | [] => .error .outside
    | bp :: rest =>
      match before.getLast? with
      | some ep =>
        if addr ≤ wrap 32 (ep.off + ep.size) then
          (freeLeft mp.m_width size addr before.dropLast ep bp rest).map
            fun m => (none, { mp with m_map := m })
        else finish before bp rest
      | none => finish before bp rest
where
  finish (before : List Extent) (bp : Extent) (rest : List Extent) :
      Except Fault (Option Lost × Map) :=
    (freeRight mp.m_width size addr before bp rest).map fun
      | some m => (none, { mp with m_map := m })
      | none => (some ⟨mp.m_name, size, addr⟩, mp)

/-! ## malloc3 -/

instance (priority := 1100) segments_ne_zero : NeZero (3 : Nat) := ⟨by decide⟩

/-- The locals of `malloc3`'s search: where each segment was placed, the first descriptor that was
    used up, and how many segments are placed. A pointer into the map is the slot's index. -/
structure Pick where
  madd : Fin 3 → Option Nat
  remap : Option Nat
  found : Nat

/-- The body of the inner loop, at the descriptor with index `i`. With all three segments placed the
    `goto` has left both loops. -/
def pickAt (sizes : Fin 3 → Nat) (i : Nat) (st : Pick × Extent) (next : Fin 3) : Pick × Extent :=
  let (p, bp) := st
  if p.found = 3 then st
  else if p.madd next = none ∧ sizes next ≤ bp.size then
    (⟨Function.update p.madd next (some i),
      if bp.size - sizes next = 0 ∧ p.remap = none then some i else p.remap, p.found + 1⟩,
     ⟨bp.off, bp.size - sizes next⟩)
  else st

/-- The search loop: sizes are taken off the descriptors as segments are placed, addresses not yet. -/
def pickLoop (sizes : Fin 3 → Nat) (i : Nat) (p : Pick) :
    List Extent → Except Fault (Pick × List Extent)
  | [] => .error .outside
  | bp :: rest =>
    if p.found = 3 ∨ bp.size = 0 then .ok (p, bp :: rest)
    else
      let (p', bp') := [0, 1, 2].foldl (pickAt sizes i) (p, bp)
      (pickLoop sizes (i + 1) p' rest).map fun r => (r.1, bp' :: r.2)

/-- Give a placed segment's size back to its descriptor. -/
def restoreAt (w : Nat) (sizes : Fin 3 → Nat) (madd : Fin 3 → Option Nat) (m : List Extent)
    (next : Fin 3) : List Extent :=
  match madd next with
  | none => m
  | some i => m.modify i fun e => ⟨e.off, wrap w (e.size + sizes next)⟩

/-- Read a segment's address off its descriptor and move the descriptor's start past it. -/
def resolveAt (w : Nat) (sizes : Fin 3 → Nat) (madd : Fin 3 → Option Nat)
    (st : (Fin 3 → Nat) × List Extent) (next : Fin 3) : Except Fault ((Fin 3 → Nat) × List Extent) :=
  match (madd next).bind (fun i => (st.2)[i]?.map (i, ·)) with
  | none => .error .outside
  | some (i, bp) =>
    .ok (Function.update st.1 next bp.off,
      st.2.modify i fun e => ⟨wrap w (e.off + sizes next), e.size⟩)

/-- The descriptors the compaction keeps: the nonempty ones, up to the first with address zero. -/
def keptFrom : List Extent → Except Fault (List Extent)
  | [] => .error .outside
  | bp :: rest =>
    if bp.size ≠ 0 ∨ bp.off = 0 then
      if bp.off = 0 then .ok [bp]
      else (keptFrom rest).map (bp :: ·)
    else keptFrom rest

/-- `*remap++ = *bp` over the kept descriptors: they land from `remap` on and the slots behind them
    keep their old contents. -/
def compactAt (remap : Nat) (m : List Extent) : Except Fault (List Extent) :=
  (keptFrom (m.drop (remap + 1))).map fun kept =>
    m.take remap ++ (kept ++ m.drop (remap + kept.length))

/-- `malloc3`. The returned address of the u area (`0` on failure), the array `a`, and the map. -/
def malloc3 (mp : Map) (sizes a : Fin 3 → Nat) : Except Fault (Nat × (Fin 3 → Nat) × Map) := do
  let (p, m) ← pickLoop sizes 0 ⟨fun _ => none, none, 0⟩ mp.m_map
  if p.found = 3 then
    let (a, m) ← [0, 1, 2].foldlM (resolveAt mp.m_width sizes p.madd) (a, m)
    match p.remap with
    | none => pure (a 2, a, { mp with m_map := m })
    | some r =>
      let m ← compactAt r m
      pure (a 2, a, { mp with m_map := m })
  else
    pure (0, a, { mp with m_map := [0, 1, 2].foldl (restoreAt mp.m_width sizes p.madd) m })

/-! ## malloc3_contiguous -/

/-- `align == 0 || (align & (align - 1)) != 0`, the bad alignments. -/
def badAlign (align : Nat) : Prop := align = 0 ∨ align &&& (align - 1) ≠ 0

instance (align : Nat) : Decidable (badAlign align) := inferInstanceAs (Decidable (_ ∨ _))

/-- `(n + align - 1) & ~(align - 1)` on a `size_t`. -/
def alignUp (align n : Nat) : Nat := maskDown 32 (wrap 32 (n + align - 1)) align

/-- The guards both contiguous allocators share and the rounded run they ask for; `none` is the
    early `return 0`. -/
def runSpan (d_size s_size u_size align : Nat) : Option Nat :=
  if 2 ^ 32 - 1 - s_size < d_size ∨ 2 ^ 32 - 1 - u_size < d_size + s_size then none
  else if d_size + s_size + u_size = 0 ∨ 2 ^ 32 - 1 - (align - 1) < d_size + s_size + u_size then none
  else some (alignUp align (d_size + s_size + u_size))

/-- The three addresses inside a run that starts at `base`. -/
def segmentsAt (base d_size s_size : Nat) : Fin 3 → Nat :=
  ![base, wrap 32 (base + d_size), wrap 32 (wrap 32 (base + d_size) + s_size)]

/-- `malloc3_contiguous`. The returned span (`0` on failure), the array `a`, and the map. -/
def malloc3Contiguous (mp : Map) (d_size s_size u_size align : Nat) (a : Fin 3 → Nat) :
    Except Fault (Nat × (Fin 3 → Nat) × Map) :=
  if badAlign align then .error (.panic "malloc3_contiguous: bad alignment")
  else match runSpan d_size s_size u_size align with
  | none => .ok (0, a, mp)
  | some span => do
    let (base, mp) ← malloc mp span
    if base = 0 then pure (0, a, mp)
    else if base &&& (align - 1) ≠ 0 then
      throw (.panic "malloc3_contiguous: unaligned map")
    else pure (span, segmentsAt base d_size s_size, mp)

/-! ## malloc3_contiguous_next -/

/-- Where a run of `span` may start in the descriptor `bp`, searching at and above the cursor
    (`wrapped = false`) or below it; `none` is `continue`. -/
def candidateIn (wrapped : Bool) (next align span : Nat) (bp : Extent) : Option Nat :=
  let endp := wrap 32 (bp.off + bp.size)
  if wrapped then
    if next ≤ bp.off then none else some bp.off
  else
    let from' := if bp.off < next then next else bp.off
    if 2 ^ 32 - 1 - (align - 1) < from' then none
    else if endp - span < alignUp align from' then none
    else some (alignUp align from')

/-- Without a spare slot an interior start would need one: use the end of the descriptor instead,
    if it is on the side of the cursor this pass searches. -/
def avoidSplit (wrapped spare : Bool) (next span : Nat) (bp : Extent) (candidate : Nat) :
    Option Nat :=
  let last := wrap 32 (bp.off + bp.size) - span
  if !spare && candidate ≠ bp.off && candidate ≠ last then
    if (!wrapped && last < next) || (wrapped && next ≤ last) then none else some last
  else some candidate

/-- One pass of the search: the index of the selected slot and the selected start. -/
def nextPass (wrapped spare : Bool) (next align span : Nat) (i : Nat) :
    List Extent → Except Fault (Option (Nat × Nat))
  | [] => .error .outside
  | bp :: rest =>
    if bp.size = 0 then .ok none
    else if bp.off &&& (align - 1) ≠ 0 ∨ bp.size &&& (align - 1) ≠ 0 then
      .error (.panic "malloc3_contiguous_next: unaligned map")
    else if wrap 32 (bp.off + bp.size) < bp.off then
      .error (.panic "malloc3_contiguous_next: corrupt map")
    else if bp.size < span then nextPass wrapped spare next align span (i + 1) rest
    else match (candidateIn wrapped next align span bp).bind
        (avoidSplit wrapped spare next span bp) with
      | none => nextPass wrapped spare next align span (i + 1) rest
      | some base => .ok (some (i, base))

/-- Pass zero searches at and above the cursor; pass one wraps below it. -/
def nextSelect (spare : Bool) (next align span : Nat) (m : List Extent) :
    Except Fault (Option (Nat × Nat)) :=
  match nextPass false spare next align span 0 m with
  | .ok none => nextPass true spare next align span 0 m
  | selected => selected

/-- `endp < mp->m_limit`, where `endp` is the terminator. -/
def hasSpare : List Extent → Except Fault Bool
  | [] => .error .outside
  | endp :: rest => if endp.size = 0 then .ok !rest.isEmpty else hasSpare rest

/-- Take `span` units at `base` out of the descriptor the list starts with. -/
def placeAt (w span base : Nat) : List Extent → Except Fault (List Extent)
  | [] => .error .outside
  | bp :: rest =>
    let endp := wrap 32 (bp.off + bp.size)
    if base = bp.off then
      if bp.size - span = 0 then closeUp (⟨wrap w (bp.off + span), bp.size - span⟩ :: rest)
      else .ok (⟨wrap w (bp.off + span), bp.size - span⟩ :: rest)
    else if base = endp - span then .ok (⟨bp.off, bp.size - span⟩ :: rest)
    else do
      match ← openUp ⟨wrap w (base + span), wrap w (endp - wrap w (base + span))⟩ rest with
      | none => throw .outside
      | some m => pure (⟨bp.off, wrap w (base - bp.off)⟩ :: m)

/-- `malloc3_contiguous_next`. The returned span (`0` on failure), the cursor, the array `a` and the
    map. `nextp` is `none` for a null pointer. -/
def malloc3ContiguousNext (mp : Map) (d_size s_size u_size align : Nat) (nextp : Option Nat)
    (a : Fin 3 → Nat) : Except Fault (Nat × Nat × (Fin 3 → Nat) × Map) :=
  if badAlign align then .error (.panic "malloc3_contiguous_next: bad alignment")
  else match nextp with
  | none => .error (.panic "malloc3_contiguous_next: no cursor")
  | some next =>
    match runSpan d_size s_size u_size align with
    | none => .ok (0, next, a, mp)
    | some span => do
      let spare ← hasSpare mp.m_map
      match ← nextSelect spare next align span mp.m_map with
      | none => pure (0, next, a, mp)
      | some (i, base) =>
        let m ← placeAt mp.m_width span base (mp.m_map.drop i)
        pure (span, wrap 32 (base + span), segmentsAt base d_size s_size,
          { mp with m_map := mp.m_map.take i ++ m })

end DiscoBSD.Rmap
