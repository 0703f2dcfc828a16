import DiscoBSD.Calc.Crc
import DiscoBSD.Lib.Store

/-!
# Base64

`lib/libcalc/calc_base64.c`. The decoder walks over the text twice, first to check and count and then to store. **A
call returns its status with the memory behind `out` and `written`**, so that a refusal is seen to leave both alone.
-/

set_option autoImplicit false

namespace DiscoBSD.Calc

open Lib

def chr (c : Char) : UInt8 := c.toNat.toUInt8

def alphabet : List UInt8 :=
  List.map chr [
    'A', 'B', 'C', 'D', 'E', 'F', 'G', 'H', 'I', 'J', 'K', 'L', 'M', 'N', 'O', 'P', 'Q', 'R', 'S', 'T', 'U', 'V', 'W', 'X', 'Y', 'Z',
    'a', 'b', 'c', 'd', 'e', 'f', 'g', 'h', 'i', 'j', 'k', 'l', 'm', 'n', 'o', 'p', 'q', 'r', 's', 't', 'u', 'v', 'w', 'x', 'y', 'z',
    '0', '1', '2', '3', '4', '5', '6', '7', '8', '9', '+', '/']

/-- `alphabet[v & 63]` of a value that is shifted down. -/
def letter (v : ℕ) : UInt8 := alphabet.getD (v &&& 63) 0

/-- `(size_t)-1` -/
def sizeMax : ℕ := 2 ^ 32 - 1

/-- What lies behind the pointers of the caller, and which of them are null. -/
structure Caller where
  inNull : Bool
  outNull : Bool
  writtenNull : Bool
  out : ℕ → UInt8
  written : ℕ

/-- The status, where `none` is `CALC_OK`, and what the caller finds. -/
abbrev Outcome := Option Status × Caller

/-! ## calc_b64_encode -/

def value3 (x y z : UInt8) : ℕ := (x.toNat <<< 16 ||| y.toNat <<< 8) ||| z.toNat

/-- The groups of three bytes. The bytes that are left over come with the memory and the index. -/
def b64Groups : List UInt8 → (ℕ → UInt8) → ℕ → List UInt8 × (ℕ → UInt8) × ℕ
  | x :: y :: z :: rest, out, o =>
    let v := value3 x y z
    b64Groups rest (writeAt out o [letter (v >>> 18), letter (v >>> 12), letter (v >>> 6), letter v]) (o + 4)
  | rest, out, o => (rest, out, o)

def calcB64Encode (io : Caller) (input : List UInt8) (cap : ℕ) : Outcome :=
  let n := input.length
  let groups := n / 3 + if n % 3 ≠ 0 then 1 else 0
  if (io.inNull ∧ n ≠ 0) ∨ (io.outNull ∧ cap ≠ 0) ∨ io.writtenNull then (some .arg, io)
  else if groups > sizeMax / 4 then (some .size, io)
  else
    let need := groups * 4
    if cap < need then (some .size, io)
    else
      match b64Groups input io.out 0 with
      | ([x], out, o) =>
        let v := x.toNat <<< 16
        (none, { io with
          out := writeAt out o [letter (v >>> 18), letter (v >>> 12), chr '=', chr '=']
          written := o + 4 })
      | ([x, y], out, o) =>
        let v := x.toNat <<< 16 ||| y.toNat <<< 8
        (none, { io with
          out := writeAt out o [letter (v >>> 18), letter (v >>> 12), letter (v >>> 6), chr '=']
          written := o + 4 })
      | (_, out, o) => (none, { io with out := out, written := o })

/-! ## calc_b64_decode -/

/-- 64 for `=`, and nothing for the -1. -/
def b64Value (c : UInt8) : Option ℕ :=
  if chr 'A' ≤ c ∧ c ≤ chr 'Z' then some (c - chr 'A').toNat
  else if chr 'a' ≤ c ∧ c ≤ chr 'z' then some ((c - chr 'a').toNat + 26)
  else if chr '0' ≤ c ∧ c ≤ chr '9' then some ((c - chr '0').toNat + 52)
  else if c = chr '+' then some 62
  else if c = chr '/' then some 63
  else if c = chr '=' then some 64
  else none

def b64Space (c : UInt8) : Bool := c = 0x20 ∨ c = 0x09 ∨ c = 0x0a ∨ c = 0x0d

/-- The locals of `b64_walk`, with `have` as `held`. -/
structure Walk where
  acc : ℕ
  held : ℕ
  pad : ℕ
  o : ℕ
  out : ℕ → UInt8

/-- What a character leads to: a refusal, the next character, or the padded end. -/
inductive Turn
  | bad
  | more (w : Walk)
  | last (w : Walk)

def u8 (v : ℕ) : UInt8 := v.toUInt8

/-- A group of four is complete. -/
def b64Close (store : Bool) (w : Walk) : Turn :=
  if w.held = 4 then
    if w.pad > 2 then .bad
    else
      let out :=
        if store then
          let out := Function.update w.out w.o (u8 (w.acc >>> 16))
          let out := if w.pad < 2 then Function.update out (w.o + 1) (u8 (w.acc >>> 8)) else out
          if w.pad < 1 then Function.update out (w.o + 2) (u8 w.acc) else out
        else w.out
      let w' : Walk := ⟨0, 0, w.pad, w.o + (3 - w.pad), out⟩
      if w.pad ≠ 0 then .last w' else .more w'
  else .more w

def b64Char (store : Bool) (c : UInt8) (w : Walk) : Turn :=
  match b64Value c with
  | none => .bad
  | some v =>
    if v = 64 then
      if w.held < 2 then .bad
      else b64Close store { w with pad := w.pad + 1, acc := (w.acc <<< 6) % 2 ^ 32, held := w.held + 1 }
    else if w.pad ≠ 0 then .bad
    else b64Close store { w with acc := (w.acc <<< 6) % 2 ^ 32 ||| v, held := w.held + 1 }

/-- `b64_walk`: the memory and the count, or the memory at a refusal. -/
def b64Walk (store : Bool) : List UInt8 → Walk → Except (ℕ → UInt8) ((ℕ → UInt8) × ℕ)
  | [], w => if w.held ≠ 0 then .error w.out else .ok (w.out, w.o)
  | c :: rest, w =>
    if b64Space c then b64Walk store rest w
    else
      match b64Char store c w with
      | .bad => .error w.out
      | .more w => b64Walk store rest w
      | .last w => if rest.all b64Space then .ok (w.out, w.o) else .error w.out

def calcB64Decode (io : Caller) (input : List UInt8) (cap : ℕ) : Outcome :=
  if (io.inNull ∧ input.length ≠ 0) ∨ io.writtenNull then (some .arg, io)
  else
    match b64Walk false input ⟨0, 0, 0, 0, io.out⟩ with
    | .error _ => (some .invalid, io)
    | .ok (_, count) =>
      if count > cap then (some .size, io)
      else if count ≠ 0 ∧ io.outNull then (some .arg, io)
      else
        match b64Walk (!io.outNull) input ⟨0, 0, 0, 0, io.out⟩ with
        | .error out => (some .invalid, { io with out := out })
        | .ok (out, count) => (none, { io with out := out, written := count })

end DiscoBSD.Calc
