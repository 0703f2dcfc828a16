import Mathlib
import DiscoBSD.Lib.Except

/-!
# Strings to integers

`lib/libc/stdlib/strtol.c` and `strtoul.c`. A cursor is **the bytes from it to the end of the string**, the
terminating NUL the last of them, so that a read behind the NUL is one of the empty list. Arithmetic that
C leaves undefined, or that an `unsigned long` of 32 bits does not hold, is a fault as well.
-/

set_option autoImplicit false

namespace DiscoBSD.Strtol

open Lib

inductive Fault where
  | outside
  | overflow
  deriving DecidableEq, Repr

inductive Errno where
  | einval
  | erange
  deriving DecidableEq, Repr

/-- What the functions return, what they leave in `*end_pointer`, and what they store in `errno`. -/
structure Result where
  value : Int
  end_pointer : Nat
  errno : Option Errno
  deriving DecidableEq, Repr

/-- `*cursor++`. -/
def next : List UInt8 → Except Fault (UInt8 × List UInt8)
  | [] => .error .outside
  | character :: cursor => .ok (character, cursor)

/-- `cursor[i]`. -/
def peek (cursor : List UInt8) (i : Nat) : Except Fault UInt8 :=
  match cursor[i]? with
  | some character => .ok character
  | none => .error .outside

/-- A space, `\t`, `\n`, `\v`, `\f` or `\r`. -/
def isSpace (character : UInt8) : Bool :=
  character = 0x20 || character = 0x09 || character = 0x0a || character = 0x0b || character = 0x0c ||
    character = 0x0d

def skipSpaces : List UInt8 → Except Fault (UInt8 × List UInt8)
  | [] => .error .outside
  | character :: cursor => if isSpace character then skipSpaces cursor else .ok (character, cursor)

/-- The optional sign, `negative` first. -/
def sign (character : UInt8) (cursor : List UInt8) : Except Fault (Bool × UInt8 × List UInt8) :=
  if character = 0x2d then (next cursor).map (true, ·)
  else if character = 0x2b then (next cursor).map (false, ·)
  else .ok (false, character, cursor)

def isHexDigit (c : UInt8) : Bool :=
  (0x30 ≤ c && c ≤ 0x39) || (0x61 ≤ c && c ≤ 0x66) || (0x41 ≤ c && c ≤ 0x46)

/-- An `x` and a hexadecimal digit at the cursor. The digit is looked at only behind an `x`. -/
def hexFollows (cursor : List UInt8) : Except Fault Bool := do
  let x ← peek cursor 0
  if x = 0x78 ∨ x = 0x58 then do
    let digit ← peek cursor 1
    pure (isHexDigit digit)
  else pure false

/-- The prefix of base 16, and the base that 0 stands for. -/
def radix (base : Nat) (character : UInt8) (cursor : List UInt8) :
    Except Fault (Nat × UInt8 × List UInt8) := do
  let hex ← if (base = 0 ∨ base = 16) ∧ character = 0x30 then hexFollows cursor else pure false
  if hex then do
    let character ← peek cursor 1
    pure (16, character, cursor.drop 2)
  else if base = 0 then pure (if character = 0x30 then 8 else 10, character, cursor)
  else pure (base, character, cursor)

/-- The value of a digit or a letter. -/
def digitOf (character : UInt8) : Option Nat :=
  if 0x30 ≤ character ∧ character ≤ 0x39 then some (character.toNat - 0x30)
  else if 0x61 ≤ character ∧ character ≤ 0x7a then some (character.toNat - 0x61 + 10)
  else if 0x41 ≤ character ∧ character ≤ 0x5a then some (character.toNat - 0x41 + 10)
  else none

/-- `value` and `converted` of the loop, and what it has stored in `errno`. -/
structure Loop where
  value : Nat
  converted : Int
  errno : Option Errno

/-- A result of arithmetic on `unsigned long`. -/
def ulong (n : Nat) : Except Fault Nat := if n < 2 ^ 32 then .ok n else .error .overflow

/-- A value that is converted to `long`. -/
def long (n : Nat) : Except Fault Int := if n < 2 ^ 31 then .ok n else .error .overflow

/-- A digit of the loop. -/
def accumulate (limit base : Nat) (l : Loop) (digit : Nat) : Except Fault Loop :=
  let cutoff := limit / base
  let cutoff_digit := limit % base
  if l.converted < 0 then .ok l
  else if cutoff < l.value ∨ (l.value = cutoff ∧ cutoff_digit < digit) then
    .ok ⟨limit, -1, some .erange⟩
  else do
    let value ← ulong (l.value * base)
    let value ← ulong (value + digit)
    pure ⟨value, 1, l.errno⟩

/-- The loop over the digits, with the cursor behind the character that ends it. -/
def digits (limit base : Nat) (character : UInt8) (cursor : List UInt8) (l : Loop) :
    Except Fault (Loop × List UInt8) :=
  match digitOf character with
  | none => .ok (l, cursor)
  | some digit =>
    if base ≤ digit then .ok (l, cursor)
    else
      match accumulate limit base l digit, cursor with
      | .error fault, _ => .error fault
      | .ok _, [] => .error .outside
      | .ok l, character :: cursor => digits limit base character cursor l

/-- What the two functions do alike: the sign, the loop's result and its cursor. -/
def convert (limit : Bool → Nat) (string : List UInt8) (base : Nat) :
    Except Fault (Bool × Loop × List UInt8) := do
  let (character, cursor) ← skipSpaces string
  let (negative, character, cursor) ← sign character cursor
  let (base, character, cursor) ← radix base character cursor
  let (l, cursor) ← digits (limit negative) base character cursor ⟨0, 0, none⟩
  pure (negative, l, cursor)

/-- `converted ? cursor - 1 : string`. -/
def endPointer (string : List UInt8) (l : Loop) (cursor : List UInt8) : Nat :=
  if l.converted ≠ 0 then string.length - cursor.length - 1 else 0

/-- `LONG_MAX` or the magnitude of `LONG_MIN`. -/
def longLimit (negative : Bool) : Nat := if negative then 2 ^ 31 else 2 ^ 31 - 1

def strtol (string : List UInt8) (base : Int) : Except Fault Result :=
  if base ≠ 0 ∧ (base < 2 ∨ 36 < base) then .ok ⟨0, 0, some .einval⟩
  else do
    let (negative, l, cursor) ← convert longLimit string base.toNat
    let end_pointer := endPointer string l cursor
    if l.converted < 0 then
      pure ⟨if negative then -2 ^ 31 else 2 ^ 31 - 1, end_pointer, l.errno⟩
    else if negative ∧ 0 < l.converted then
      if l.value = 2 ^ 31 then pure ⟨-2 ^ 31, end_pointer, l.errno⟩
      else do
        let value ← long l.value
        pure ⟨-value, end_pointer, l.errno⟩
    else do
      let value ← long l.value
      pure ⟨value, end_pointer, l.errno⟩

/-- `ULONG_MAX`. -/
def ulongMax : Nat := 2 ^ 32 - 1

def strtoul (string : List UInt8) (base : Int) : Except Fault Result :=
  if base ≠ 0 ∧ (base < 2 ∨ 36 < base) then .ok ⟨0, 0, some .einval⟩
  else do
    let (negative, l, cursor) ← convert (fun _ => ulongMax) string base.toNat
    let value := if negative ∧ 0 < l.converted then (2 ^ 32 - l.value) % 2 ^ 32 else l.value
    pure ⟨value, endPointer string l cursor, l.errno⟩

end DiscoBSD.Strtol
