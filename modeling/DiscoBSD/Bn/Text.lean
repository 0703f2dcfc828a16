import DiscoBSD.Bn.Compare
import DiscoBSD.Lib.Numeral

/-!
# Numbers as text

`BN_bn2dec` and `BN_bn2hex` of `lib/libbn/bn.c`. Decimal digits come four at a time from the end of the buffer. **An
index outside the buffer is a fault**, so that a result shows that there was none.
-/

set_option autoImplicit false

namespace DiscoBSD.Bn

open Lib

inductive Fault
  | outside

/-! ## Buffers -/

/-- What the allocator leaves in a buffer. -/
def fill (junk : ℕ → UInt8) (size : ℕ) : List UInt8 := readAt junk 0 size

end DiscoBSD.Bn
