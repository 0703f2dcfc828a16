import Mathlib

/-!
# setmode and getmode

`lib/libc/gen/setmode.c`. A mode string is compiled to an array of commands, which `getmode` carries out on a mode.
**The array is a block of `malloc`, with whatever it contains before it is written**; an access outside it is an error
here, and so is a return of `NULL`, which the caller sees.
-/

set_option autoImplicit false

namespace DiscoBSD.Modes

/-- `mode_t` -/
abbrev Mode := BitVec 32

inductive Stop
  /-- An access outside the block. -/
  | outside
  /-- More turns than there are characters. -/
  | running
  /-- `return (NULL)` -/
  | null
  deriving DecidableEq

def chr (c : Char) : UInt8 := c.toNat.toUInt8

def S_ISUID : Mode := 0o4000

def S_ISGID : Mode := 0o2000

def S_ISVTX : Mode := 0o1000

def S_IRWXU : Mode := 0o700

def S_IRWXG : Mode := 0o70

def S_IRWXO : Mode := 0o7

def S_IFDIR : Mode := 0o40000

/-- `S_IXUSR|S_IXGRP|S_IXOTH` -/
def S_IX : Mode := 0o111

def STANDARD_BITS : Mode := S_ISUID ||| S_ISGID ||| S_IRWXU ||| S_IRWXG ||| S_IRWXO

/-- `BITCMD` -/
@[ext]
structure Bitcmd where
  cmd : UInt8
  cmd2 : UInt8
  bits : Mode
  deriving DecidableEq

def CMD2_CLR : UInt8 := 0x01

def CMD2_SET : UInt8 := 0x02

def CMD2_GBITS : UInt8 := 0x04

def CMD2_OBITS : UInt8 := 0x08

def CMD2_UBITS : UInt8 := 0x10

/-- What is in a block. -/
abbrev Cmds := ℕ → Bitcmd

/-! ## getmode -/

/-- The part from `common` on, for a copy of bits. -/
def common (set : Bitcmd) (value newmode : Mode) : Mode :=
  let newmode :=
    if set.cmd2 &&& CMD2_CLR ≠ 0 then
      let clrval := if set.cmd2 &&& CMD2_SET ≠ 0 then S_IRWXO else value
      let newmode := if set.cmd2 &&& CMD2_UBITS ≠ 0 then newmode &&& ~~~(clrval <<< 6 &&& set.bits) else newmode
      let newmode := if set.cmd2 &&& CMD2_GBITS ≠ 0 then newmode &&& ~~~(clrval <<< 3 &&& set.bits) else newmode
      if set.cmd2 &&& CMD2_OBITS ≠ 0 then newmode &&& ~~~(clrval &&& set.bits) else newmode
    else newmode
  if set.cmd2 &&& CMD2_SET ≠ 0 then
    let newmode := if set.cmd2 &&& CMD2_UBITS ≠ 0 then newmode ||| (value <<< 6 &&& set.bits) else newmode
    let newmode := if set.cmd2 &&& CMD2_GBITS ≠ 0 then newmode ||| (value <<< 3 &&& set.bits) else newmode
    if set.cmd2 &&& CMD2_OBITS ≠ 0 then newmode ||| (value &&& set.bits) else newmode
  else newmode

/-- One command, or the end of them. -/
def command (omode : Mode) (set : Bitcmd) (newmode : Mode) : Option Mode :=
  if set.cmd = chr 'u' then some (common set ((newmode &&& S_IRWXU) >>> 6) newmode)
  else if set.cmd = chr 'g' then some (common set ((newmode &&& S_IRWXG) >>> 3) newmode)
  else if set.cmd = chr 'o' then some (common set (newmode &&& S_IRWXO) newmode)
  else if set.cmd = chr '+' then some (newmode ||| set.bits)
  else if set.cmd = chr '-' then some (newmode &&& ~~~set.bits)
  else if set.cmd = chr 'X' then some (if omode &&& (S_IFDIR ||| S_IX) ≠ 0 then newmode ||| set.bits else newmode)
  else none

/-- The commands from the index `i` on, with so many in the block. -/
def commands (omode : Mode) (cmds : Cmds) : ℕ → ℕ → Mode → Except Stop Mode
  | 0, _, _ => .error .outside
  | left + 1, i, newmode =>
    match command omode (cmds i) newmode with
    | some newmode => commands omode cmds left (i + 1) newmode
    | none => .ok newmode

/-- The block that `setmode` returns. -/
structure Block where
  cmds : Cmds
  setlen : ℕ

/-- `getmode` -/
def getmode (bbox : Block) (omode : Mode) : Except Stop Mode := commands omode bbox.cmds bbox.setlen 0 omode

/-! ## addcmd -/

/-- `saveset`, `set`, `setlen`, and how often memory has been asked for. -/
structure Out where
  cmds : Cmds
  set : ℕ
  setlen : ℕ
  asked : ℕ

/-- A command is written, and `set` goes on. -/
def Out.put (out : Out) (f : Bitcmd → Bitcmd) : Except Stop Out :=
  if out.set < out.setlen then
    .ok { out with cmds := Function.update out.cmds out.set (f (out.cmds out.set)), set := out.set + 1 }
  else .error .outside

def cmd2Of (who : Mode) (oparg : UInt8) : UInt8 :=
  let cmd2 :=
    if who ≠ 0 then
      (if who &&& 0o400 ≠ 0 then CMD2_UBITS else 0) ||| (if who &&& 0o40 ≠ 0 then CMD2_GBITS else 0) |||
        (if who &&& 0o4 ≠ 0 then CMD2_OBITS else 0)
    else CMD2_UBITS ||| CMD2_GBITS ||| CMD2_OBITS
  if oparg = chr '+' then cmd2 ||| CMD2_SET
  else if oparg = chr '-' then cmd2 ||| CMD2_CLR
  else if oparg = chr '=' then cmd2 ||| (CMD2_SET ||| CMD2_CLR)
  else cmd2

/-- `addcmd` for `=`, `+`, `-` and `X`. -/
def addBits (out : Out) (op : UInt8) (who oparg mask : Mode) : Except Stop Out := do
  let (out, op) ←
    if op = chr '=' then do
      let out ← out.put fun set => { set with cmd := chr '-', bits := if who ≠ 0 then who else STANDARD_BITS }
      pure (out, chr '+')
    else pure (out, op)
  out.put fun set => { set with cmd := op, bits := (if who ≠ 0 then who else mask) &&& oparg }

/-- `addcmd` for `u`, `g` and `o`. -/
def addCopy (out : Out) (op : UInt8) (who : Mode) (oparg : UInt8) (mask : Mode) : Except Stop Out :=
  out.put fun _ => { cmd := op, cmd2 := cmd2Of who oparg, bits := if who ≠ 0 then ~~~0 else mask }

/-- What `malloc` and `realloc` give when they are asked: a block with its content, or nothing. -/
abbrev Allocator := ℕ → Option Cmds

/-- The first part of `ADDCMD`: room for two commands. -/
def room (al : Allocator) (out : Out) : Except Stop Out :=
  if out.set ≥ out.setlen - 2 then
    match al out.asked with
    | none => .error .null
    | some junk =>
      .ok { out with
        cmds := fun i => if i < out.setlen then out.cmds i else junk i, setlen := out.setlen + 4
        asked := out.asked + 1 }
  else .ok out

/-! ## setmode -/

/-- The variables of the loop over the clauses. -/
structure Work where
  who : Mode
  perm : Mode
  permXbits : Mode
  equalopdone : Bool
  out : Out

/-- `for (who = 0;; ++p)` -/
def whoLoop : List UInt8 → Mode → Mode × List UInt8
  | [], who => (who, [])
  | c :: p, who =>
    if c = chr 'a' then whoLoop p (who ||| STANDARD_BITS)
    else if c = chr 'u' then whoLoop p (who ||| (S_ISUID ||| S_IRWXU))
    else if c = chr 'g' then whoLoop p (who ||| (S_ISGID ||| S_IRWXG))
    else if c = chr 'o' then whoLoop p (who ||| S_IRWXO)
    else (who, c :: p)

/-- `ADDCMD(op, who, perm, mask)` and `perm = 0` -/
def flushPerm (al : Allocator) (mask : Mode) (op : UInt8) (w : Work) : Except Stop Work := do
  let out ← room al w.out
  let out ← addBits out op w.who w.perm mask
  pure { w with perm := 0, out := out }

/-- `ADDCMD('X', who, permXbits, mask)` and `permXbits = 0` -/
def flushX (al : Allocator) (mask : Mode) (w : Work) : Except Stop Work := do
  let out ← room al w.out
  let out ← addBits out (chr 'X') w.who w.permXbits mask
  pure { w with permXbits := 0, out := out }

/-- The permission letters `u`, `g` and `o`. -/
def copyPerm (al : Allocator) (mask : Mode) (op : UInt8) (c : UInt8) (w : Work) : Except Stop Work := do
  let w ← if w.perm ≠ 0 then flushPerm al mask op w else pure w
  let w := if op = chr '=' then { w with equalopdone := true } else w
  let w ← if op = chr '+' ∧ w.permXbits ≠ 0 then flushX al mask w else pure w
  let out ← room al w.out
  let out ← addCopy out c w.who op mask
  pure { w with out := out }

/-- The end of the permission letters. -/
def lastPerm (al : Allocator) (mask : Mode) (op : UInt8) (w : Work) : Except Stop Work := do
  let w ←
    if w.perm ≠ 0 ∨ op = chr '=' ∧ ¬w.equalopdone then
      flushPerm al mask op (if op = chr '=' then { w with equalopdone := true } else w)
    else pure w
  if w.permXbits ≠ 0 then flushX al mask w else pure w

/-- `for (perm = 0, permXbits = 0;; ++p)` -/
def permLoop (al : Allocator) (mask : Mode) (op : UInt8) : List UInt8 → Work → Except Stop (Work × List UInt8)
  | [], w => do
    let w ← lastPerm al mask op w
    pure (w, [])
  | c :: p, w =>
    if c = chr 'r' then permLoop al mask op p { w with perm := w.perm ||| 0o444 }
    else if c = chr 's' then
      if w.who &&& ~~~S_IRWXO ≠ 0 then permLoop al mask op p { w with perm := w.perm ||| (S_ISUID ||| S_ISGID) }
      else permLoop al mask op p w
    else if c = chr 't' then
      if w.who &&& ~~~S_IRWXO ≠ 0 then
        permLoop al mask op p { w with who := w.who ||| S_ISVTX, perm := w.perm ||| S_ISVTX }
      else permLoop al mask op p w
    else if c = chr 'w' then permLoop al mask op p { w with perm := w.perm ||| 0o222 }
    else if c = chr 'X' then permLoop al mask op p { w with permXbits := S_IX }
    else if c = chr 'x' then permLoop al mask op p { w with perm := w.perm ||| S_IX }
    else if c = chr 'u' ∨ c = chr 'g' ∨ c = chr 'o' then do
      let w ← copyPerm al mask op c w
      permLoop al mask op p w
    else do
      let w ← lastPerm al mask op w
      pure (w, c :: p)

/-- `getop`, and the clauses after it. -/
def getop (al : Allocator) (mask : Mode) : ℕ → List UInt8 → Work → Except Stop Work
  | 0, _, _ => .error .running
  | _ + 1, [], _ => .error .null
  | turns + 1, op :: p, w =>
    if op ≠ chr '+' ∧ op ≠ chr '-' ∧ op ≠ chr '=' then .error .null
    else do
      let w := if op = chr '=' then { w with equalopdone := false } else w
      let (w, p) ← permLoop al mask op p { w with who := w.who &&& ~~~S_ISVTX, perm := 0, permXbits := 0 }
      match p with
      | [] => pure w
      | c :: rest =>
        if c ≠ chr ',' then getop al mask turns (c :: rest) w
        else
          let (who, rest) := whoLoop rest 0
          getop al mask turns rest { w with who := who }

/-! ## compress_mode -/

/-- The run of `+`, `-` and `X` commands from `nset` on: its end, `setbits`, `clrbits` and `Xbits`. -/
def gather (cmds : Cmds) : ℕ → ℕ → Mode → Mode → Mode → Except Stop (ℕ × Mode × Mode × Mode)
  | 0, _, _, _, _ => .error .outside
  | left + 1, nset, setbits, clrbits, Xbits =>
    let op := (cmds nset).cmd
    let bits := (cmds nset).bits
    if op = chr '-' then gather cmds left (nset + 1) (setbits &&& ~~~bits) (clrbits ||| bits) (Xbits &&& ~~~bits)
    else if op = chr '+' then gather cmds left (nset + 1) (setbits ||| bits) (clrbits &&& ~~~bits) (Xbits &&& ~~~bits)
    else if op = chr 'X' then gather cmds left (nset + 1) setbits clrbits (Xbits ||| (bits &&& ~~~setbits))
    else .ok (nset, setbits, clrbits, Xbits)

/-- `if (bits) { set->cmd = op; set->cmd2 = 0; set->bits = bits; set++; }` -/
def emit (out : Out) (op : UInt8) (bits : Mode) : Except Stop Out :=
  if bits ≠ 0 then out.put fun _ => { cmd := op, cmd2 := 0, bits := bits } else pure out

/-- `compress_mode`, with `nset` beside `set`. -/
def compressMode : ℕ → Out → ℕ → Except Stop Out
  | 0, _, _ => .error .running
  | turns + 1, out, nset =>
    if nset < out.setlen then
      let op := (out.cmds nset).cmd
      if op ≠ chr '+' ∧ op ≠ chr '-' ∧ op ≠ chr 'X' then do
        let out ← out.put fun _ => out.cmds nset
        if op = 0 then pure out else compressMode turns out (nset + 1)
      else do
        let (nset, setbits, clrbits, Xbits) ← gather out.cmds (out.setlen - nset) nset 0 0 0
        let out ← emit out (chr '-') clrbits
        let out ← emit out (chr '+') setbits
        let out ← emit out (chr 'X') Xbits
        compressMode turns out nset
    else .error .outside

/-! ## The call -/

def isdigit (c : UInt8) : Bool := chr '0' ≤ c ∧ c ≤ chr '9'

def isoctal (c : UInt8) : Bool := chr '0' ≤ c ∧ c ≤ chr '7'

/-- `strtol` with base 8, for a string without sign. -/
def strtol (p : List UInt8) : ℕ :=
  min ((p.takeWhile isoctal).foldl (fun v c => v * 8 + (c - chr '0').toNat) 0) (2 ^ 31 - 1)

/-- An absolute number. -/
def setmodeOctal (al : Allocator) (mask : Mode) (p : List UInt8) (out : Out) : Except Stop Block := do
  let perm := BitVec.ofNat 32 (strtol p)
  if perm &&& ~~~(STANDARD_BITS ||| S_ISVTX) ≠ 0 then .error .null
  else if ¬p.tail.all isoctal then .error .null
  else
    let out ← room al out
    let out ← addBits out (chr '=') (STANDARD_BITS ||| S_ISVTX) perm mask
    pure ⟨out.cmds, out.setlen⟩

/-- The clauses of a symbolic mode. -/
def setmodeSymbolic (al : Allocator) (mask : Mode) (p : List UInt8) (out : Out) : Except Stop Block := do
  let (who, rest) := whoLoop p 0
  let w ← getop al mask (rest.length + 1) rest ⟨who, 0, 0, false, out⟩
  -- `set->cmd = 0`; `compress_mode` starts again at `saveset`.
  let out ← w.out.put fun set => { set with cmd := 0 }
  let out ← compressMode (out.setlen + 1) { out with set := 0 } 0
  pure ⟨out.cmds, out.setlen⟩

/-- `setmode`, under the `umask` of the caller. -/
def setmode (al : Allocator) (umask : Mode) (p : List UInt8) : Except Stop Block :=
  match p with
  | [] => .error .null
  | c :: _ =>
    let mask := ~~~umask
    match al 0 with
    | none => .error .null
    | some junk =>
      let out : Out := ⟨junk, 0, 8, 1⟩
      if isdigit c then setmodeOctal al mask p out else setmodeSymbolic al mask p out

end DiscoBSD.Modes
