import DiscoBSD.Lib.Store
import Mathlib.Tactic.SplitIfs

/-!
# Visible text

`lib/libc/gen/vis.c`, which writes bytes as printing text, and `lib/libc/gen/unvis.c`, which reads the text back with
a state machine. Memory is a map from the index behind the pointer that is passed.
-/

set_option autoImplicit false

namespace DiscoBSD.Vis

open Lib

def visOctal : UInt32 := 0x01
def visCstyle : UInt32 := 0x02
def visSp : UInt32 := 0x04
def visTab : UInt32 := 0x08
def visNl : UInt32 := 0x10
def visSafe : UInt32 := 0x20
def visNoslash : UInt32 := 0x40

inductive Errno
  | enospc
  deriving DecidableEq

def chr (c : Char) : UInt8 := c.toNat.toUInt8

def backslash : UInt8 := 0x5c

/-- `(int)` of a length. -/
def int (n : ℕ) : ℤ := Int.bmod n (2 ^ 32)

abbrev Mem := ℕ → UInt8

/-! ## vis -/

/-- The first test of `encode_byte`: the byte stands for itself. -/
def Plain (character : UInt8) (flags : UInt32) : Prop :=
  (chr '!' ≤ character ∧ character ≤ chr '~') ∨ (flags &&& visSp = 0 ∧ character = 0x20) ∨
    (flags &&& visTab = 0 ∧ character = 0x09) ∨ (flags &&& visNl = 0 ∧ character = 0x0a) ∨
    (flags &&& visSafe ≠ 0 ∧ (character = 0x08 ∨ character = 0x07 ∨ character = 0x0d))

instance (character : UInt8) (flags : UInt32) : Decidable (Plain character flags) := by
  unfold Plain
  infer_instance

/-- The letter of a C escape, from `"abtnvfr"`. -/
def escapeCharacter (character : UInt8) : Option UInt8 :=
  if 0x07 ≤ character ∧ character ≤ 0x0d then
    some (([chr 'a', chr 'b', chr 't', chr 'n', chr 'v', chr 'f', chr 'r'] : List UInt8).getD (character - 0x07).toNat 0)
  else if character = 0x20 then some (chr 's')
  else none

def isoctal (c : UInt8) : Bool := chr '0' ≤ c && c ≤ chr '7'

def octal (character : UInt8) : List UInt8 :=
  [backslash, (character >>> 6 &&& 7) + chr '0', (character >>> 3 &&& 7) + chr '0', (character &&& 7) + chr '0']

/-- What `encode_byte` writes of a byte without its meta bit. -/
def caret (character : UInt8) : List UInt8 :=
  if character < 0x20 ∨ character = 0x7f then
    [chr '^', if character = 0x7f then chr '?' else character + chr '@']
  else [chr '-', character]

def encodeByte (character : UInt8) (flags : UInt32) (nextCharacter : UInt8) : List UInt8 :=
  if Plain character flags then
    character :: if character = backslash ∧ flags &&& visNoslash = 0 then [backslash] else []
  else
    match if flags &&& visCstyle ≠ 0 then escapeCharacter character else none with
    | some letter => [backslash, letter]
    | none =>
      if flags &&& visCstyle ≠ 0 ∧ character = 0 then
        [backslash, chr '0'] ++ if isoctal nextCharacter then [chr '0', chr '0'] else []
      else if character &&& 0x7f = 0x20 ∨ flags &&& visOctal ≠ 0 then octal character
      else
        (if flags &&& visNoslash = 0 then [backslash] else []) ++
          if character &&& 0x80 ≠ 0 then chr 'M' :: caret (character &&& 0x7f) else caret character

/-- The byte after the one at hand. -/
def nextOf (rest : List UInt8) : UInt8 := rest.headD 0

/-- The first pass of `encode_string`. The index stays below the room. -/
def measure (room : ℕ) (flags : UInt32) : List UInt8 → ℕ → Option ℕ
  | [], outputIndex => some outputIndex
  | character :: rest, outputIndex =>
    let encodedLength := (encodeByte character flags (nextOf rest)).length
    if encodedLength ≥ room - outputIndex then none else measure room flags rest (outputIndex + encodedLength)

/-- The second pass. -/
def commit (flags : UInt32) : List UInt8 → Mem × ℕ → Mem × ℕ
  | [], s => s
  | character :: rest, (destination, outputIndex) =>
    let encoded := encodeByte character flags (nextOf rest)
    commit flags rest (writeAt destination outputIndex encoded, outputIndex + encoded.length)

/-- The destination after the call, the value that is returned, and `errno` if it is set. -/
structure Result where
  destination : Mem
  ret : ℤ
  errno : Option Errno

def noSpace (destination : Mem) : Result := ⟨destination, -1, some .enospc⟩

def encodeString (destination : Mem) (destinationLength : ℕ) (source : List UInt8) (flags : UInt32) : Result :=
  if destinationLength = 0 then noSpace destination
  else
    match measure destinationLength flags source 0 with
    | none => noSpace destination
    | some _ =>
      let (destination, outputIndex) := commit flags source (destination, 0)
      ⟨writeAt destination outputIndex [0], int outputIndex, none⟩

/-- With a room of `(size_t)-1`. -/
def strvisx (destination : Mem) (source : List UInt8) (flags : UInt32) : Result :=
  encodeString destination (2 ^ 32 - 1) source flags

def strnvisx (destination : Mem) (destinationLength : ℕ) (source : List UInt8) (flags : UInt32) : Result :=
  encodeString destination destinationLength source flags

/-! ## unvis -/

inductive State
  | sGround | sStart | sMeta | sMeta1 | sCtrl | sOctal2 | sOctal3
  deriving DecidableEq

/-- `more` is the 0 that asks for another character. -/
inductive Code
  | valid | validpush | nochar | synbad | more
  deriving DecidableEq

/-- The letters that stand for a byte after a backslash. -/
def letters : List (UInt8 × UInt8) :=
  [(chr 'n', 0x0a), (chr 'r', 0x0d), (chr 'b', 0x08), (chr 'a', 0x07), (chr 'v', 0x0b), (chr 't', 0x09),
    (chr 'f', 0x0c), (chr 's', 0x20), (chr 'E', 0x1b)]

/-- The `switch` of `S_START`. -/
def unvisStart (cp c : UInt8) : Code × UInt8 × State :=
  if c = backslash then (.valid, c, .sGround)
  else if isoctal c then (.more, c - chr '0', .sOctal2)
  else if c = chr 'M' then (.more, 0x80, .sMeta)
  else if c = chr '^' then (.more, cp, .sCtrl)
  else
    match letters.lookup c with
    | some character => (.valid, character, .sGround)
    -- A hidden newline and a hidden marker.
    | none => (if c = 0x0a ∨ c = chr '$' then .nochar else .synbad, cp, .sGround)

/-- What the call returns, the byte at `cp` and the state. -/
def unvis (cp c : UInt8) : State → Code × UInt8 × State
  | .sGround => if c = backslash then (.more, 0, .sStart) else (.valid, c, .sGround)
  | .sStart => unvisStart cp c
  | .sMeta => if c = chr '-' then (.more, cp, .sMeta1) else if c = chr '^' then (.more, cp, .sCtrl) else (.synbad, cp, .sGround)
  | .sMeta1 => (.valid, cp ||| c, .sGround)
  | .sCtrl => (.valid, if c = chr '?' then cp ||| 0x7f else cp ||| (c &&& 0x1f), .sGround)
  | .sOctal2 => if isoctal c then (.more, (cp <<< 3) + (c - chr '0'), .sOctal3) else (.validpush, cp, .sGround)
  | .sOctal3 => if isoctal c then (.valid, (cp <<< 3) + (c - chr '0'), .sGround) else (.validpush, cp, .sGround)

/-- With `UNVIS_END`. -/
def unvisEnd : State → Code × State
  | .sOctal2 | .sOctal3 => (.valid, .sGround)
  | .sGround => (.nochar, .sGround)
  | s => (.synbad, s)

/-- What `strunvis` has written, where it writes next, and the state. -/
structure Decoder where
  mem : Mem
  dst : ℕ
  state : State

theorem unvisStart_validpush (cp c : UInt8) : (unvisStart cp c).1 ≠ .validpush := by
  rw [unvisStart]
  repeat' split
  all_goals intro h; cases h

theorem unvis_validpush {cp c : UInt8} {s : State} (h : (unvis cp c s).1 = .validpush) :
    (unvis cp c s).2.2 = .sGround ∧ s ≠ .sGround := by
  cases s
  case sStart => exact absurd h (unvisStart_validpush cp c)
  all_goals
    rw [unvis] at h ⊢
    repeat' split at h
    all_goals simp_all

/-- The body of the `while` of `strunvis`, from `again` on. -/
def again (d : Decoder) (c : UInt8) : Except Mem Decoder :=
  match h : unvis (d.mem d.dst) c d.state with
  | (.valid, cp, state) => .ok ⟨Function.update d.mem d.dst cp, d.dst + 1, state⟩
  | (.validpush, cp, state) => again ⟨Function.update d.mem d.dst cp, d.dst + 1, state⟩ c
  | (.more, cp, state) => .ok ⟨Function.update d.mem d.dst cp, d.dst, state⟩
  | (.nochar, cp, state) => .ok ⟨Function.update d.mem d.dst cp, d.dst, state⟩
  | (.synbad, cp, _) => .error (Function.update d.mem d.dst cp)
termination_by if d.state = .sGround then 0 else 1
decreasing_by
  have hpush := unvis_validpush (congrArg Prod.fst h)
  rw [h] at hpush
  rw [if_pos hpush.1, if_neg hpush.2]
  exact Nat.one_pos

/-- The `while` up to the NUL. -/
def unvisLoop : List UInt8 → Decoder → Except Mem Decoder
  | [], d => .ok d
  | c :: src, d =>
    if c = 0 then .ok d
    else
      match again d c with
      | .error mem => .error mem
      | .ok d => unvisLoop src d

/-- After the NUL. -/
def unvisFinish (d : Decoder) : Decoder :=
  if (unvisEnd d.state).1 = .valid then { d with dst := d.dst + 1, state := (unvisEnd d.state).2 }
  else { d with state := (unvisEnd d.state).2 }

/-- `src` lists what lies at the pointer. -/
def strunvis (dst : Mem) (src : List UInt8) : Mem × ℤ :=
  match unvisLoop src ⟨dst, 0, .sGround⟩ with
  | .error mem => (mem, -1)
  | .ok d =>
    let d := unvisFinish d
    (Function.update d.mem d.dst 0, int d.dst)

end DiscoBSD.Vis
