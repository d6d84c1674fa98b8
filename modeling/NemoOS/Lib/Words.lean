import Mathlib

/-!
# Unsigned 32-bit arithmetic on natural numbers

Machine words are natural numbers below `2 ^ 32`; an operation that can leave
that range is followed by `u32`, the reduction modulo `2 ^ 32`. The lemmas here
remove the reduction where the operands are known to be in range.
-/

namespace Words

/-- Reduction to 32 bits, as the conversion to `uint32_t` performs it. -/
def u32 (n : Nat) : Nat := n % 4294967296

/-- Subtraction of `uint32_t` values. -/
def sub32 (a b : Nat) : Nat := u32 (a + 4294967296 - b)

theorem u32_lt (n : Nat) : u32 n < 4294967296 := Nat.mod_lt _ (by decide)

theorem u32_of_lt {n : Nat} (h : n < 4294967296) : u32 n = n := Nat.mod_eq_of_lt h

theorem sub32_of_le {a b : Nat} (hle : b ≤ a) (ha : a < 4294967296) : sub32 a b = a - b := by
  unfold sub32 u32
  omega

end Words
