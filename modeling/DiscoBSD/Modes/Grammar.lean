import DiscoBSD.Modes.Setmode

/-!
# What mode strings mean

The modes of `chmod(1)`: an octal number, or clauses of a `who` and actions on its bits. **A clause is applied to the mode
that the clauses before it have left**; only the condition of `X` looks at the old mode.
-/

set_option autoImplicit false

namespace DiscoBSD.Modes

/-! ## The grammar -/

inductive Who
  | u | g | o | a
  deriving DecidableEq

inductive Class
  | u | g | o
  deriving DecidableEq

inductive Op
  | plus | minus | equal
  deriving DecidableEq

inductive Perm
  | r | w | x | X | s | t
  | copy (c : Class)
  deriving DecidableEq

structure Action where
  op : Op
  perms : List Perm
  deriving DecidableEq

/-- A clause has one action or more. -/
structure Clause where
  who : List Who
  first : Action
  more : List Action
  deriving DecidableEq

/-- A symbolic mode has one clause or more. -/
structure Symbolic where
  first : Clause
  more : List Clause
  deriving DecidableEq

def Who.char : Who → UInt8
  | u => chr 'u'
  | g => chr 'g'
  | o => chr 'o'
  | a => chr 'a'

def Class.char : Class → UInt8
  | u => chr 'u'
  | g => chr 'g'
  | o => chr 'o'

def Op.char : Op → UInt8
  | plus => chr '+'
  | minus => chr '-'
  | equal => chr '='

def Perm.char : Perm → UInt8
  | r => chr 'r'
  | w => chr 'w'
  | x => chr 'x'
  | X => chr 'X'
  | s => chr 's'
  | t => chr 't'
  | copy c => c.char

def Action.text (a : Action) : List UInt8 := a.op.char :: a.perms.map Perm.char

/-- Actions, and clauses after a comma each. -/
def tailText (actions : List Action) (clauses : List (List UInt8)) : List UInt8 :=
  actions.flatMap Action.text ++ clauses.flatMap (chr ',' :: ·)

def Clause.text (c : Clause) : List UInt8 := c.who.map Who.char ++ tailText (c.first :: c.more) []

def Symbolic.text (m : Symbolic) : List UInt8 := m.first.text ++ tailText [] (m.more.map Clause.text)

/-- The value of octal digits. -/
def octalValue (s : List UInt8) : ℕ := s.foldl (fun v c => v * 8 + (c - chr '0').toNat) 0

/-- An absolute mode: octal digits, and no bit but those of a mode. -/
def IsOctal (s : List UInt8) : Prop := s ≠ [] ∧ (∀ c ∈ s, isoctal c = true) ∧ octalValue s < 0o10000

def InGrammar (s : List UInt8) : Prop := IsOctal s ∨ ∃ m : Symbolic, s = m.text

/-! ## The meaning -/

def Who.bits : Who → Mode
  | u => S_ISUID ||| S_IRWXU
  | g => S_ISGID ||| S_IRWXG
  | o => S_IRWXO
  | a => STANDARD_BITS

/-- The bits of some classes; none if no class is given. -/
def whoBits (ws : List Who) : Mode := ws.foldl (fun b w => b ||| w.bits) 0

/-- The bits that an action may set: those of its classes and the sticky bit, or what the `umask` leaves of all. -/
def reach (umask who : Mode) : Mode := if who = 0 then ~~~umask else who ||| S_ISVTX

/-- Three bits, in the place of each of the classes. -/
def triple (v : Mode) : Mode := v <<< 6 ||| v <<< 3 ||| v

/-- The bits of a class in a mode, as those of the others. -/
def Class.value (c : Class) (m : Mode) : Mode :=
  match c with
  | u => (m &&& S_IRWXU) >>> 6
  | g => (m &&& S_IRWXG) >>> 3
  | o => m &&& S_IRWXO

/-- The letters `s` and `t` are ignored if only the others are meant. -/
def Special (who : Mode) : Prop := who = 0 ∨ who &&& ~~~S_IRWXO ≠ 0

instance (who : Mode) : Decidable (Special who) := inferInstanceAs (Decidable (_ ∨ _))

/-- The bits that a letter names itself. -/
def Perm.bits (who : Mode) : Perm → Mode
  | r => 0o444
  | w => 0o222
  | x => S_IX
  | s => if Special who then S_ISUID ||| S_ISGID else 0
  | t => if Special who then S_ISVTX else 0
  | X => 0
  | copy _ => 0

/-- The bits that it takes from the mode `m`, or, for an `X` with `+`, from the old mode. -/
def Perm.taken (omode m : Mode) (op : Op) : Perm → Mode
  | copy c => triple (c.value m)
  | X => if op = .plus ∧ omode &&& (S_IFDIR ||| S_IX) ≠ 0 then S_IX else 0
  | _ => 0

def bitsOf (who : Mode) : List Perm → Mode
  | [] => 0
  | p :: ps => p.bits who ||| bitsOf who ps

def takenOf (omode m : Mode) (op : Op) : List Perm → Mode
  | [] => 0
  | p :: ps => p.taken omode m op ||| takenOf omode m op ps

def Perm.isCopy : Perm → Bool
  | copy _ => true
  | _ => false

/-- What an assignment clears: read, write and execute only if it is a mere copy. -/
def Action.cleared (umask who : Mode) (a : Action) : Mode :=
  if a.perms.any Perm.isCopy ∧ bitsOf who a.perms = 0 then reach umask who &&& triple S_IRWXO
  else if who = 0 then STANDARD_BITS else who

def Action.apply (umask omode who : Mode) (a : Action) (m : Mode) : Mode :=
  let asked := reach umask who &&& (bitsOf who a.perms ||| takenOf omode m a.op a.perms)
  match a.op with
  | .plus => m ||| asked
  | .minus => m &&& ~~~asked
  | .equal => (m &&& ~~~a.cleared umask who) ||| asked

def Clause.apply (umask omode : Mode) (c : Clause) (m : Mode) : Mode :=
  (c.first :: c.more).foldl (fun m a => a.apply umask omode (whoBits c.who) m) m

def Symbolic.apply (umask omode : Mode) (s : Symbolic) (m : Mode) : Mode :=
  (s.first :: s.more).foldl (fun m c => c.apply umask omode m) m

/-! ## The strings that are compiled right -/

/-- `X` stands with `+`, `s` and `t` where a class is given, and an assignment is of bits or of one class. -/
structure Action.Plain (a : Action) (who : Mode) : Prop where
  execute : .X ∈ a.perms → a.op = .plus
  special : who = 0 → .s ∉ a.perms ∧ .t ∉ a.perms
  assign : a.op = .equal → (∀ c, .copy c ∉ a.perms) ∨
    bitsOf who a.perms = 0 ∧ ∃ c, ∀ d, .copy d ∈ a.perms → d = c

def Symbolic.Plain (m : Symbolic) : Prop :=
  ∀ c ∈ m.first :: m.more, ∀ a ∈ c.first :: c.more, a.Plain (whoBits c.who)

end DiscoBSD.Modes
