/-
# Conversions between C integers

The integer types of a machine with 64 bit addresses and an `int` of 32 bits,
as numbers: a value converted to a type is the one of that type that is the
same modulo its size. Where it fits it stays as it is.
-/
import Mathlib.Algebra.Ring.Int.Defs
import Mathlib.Algebra.Ring.Nat

namespace DaatMcs
namespace CInt

/-- The conversion to `size_t` (and to `uint64_t`). -/
def sizeT (i : ℤ) : ℕ := (i % 2 ^ 64).toNat

/-- The conversion to `int`. -/
def int32 (i : ℤ) : ℤ := (i + 2 ^ 31) % 2 ^ 32 - 2 ^ 31

theorem sizeT_lt (i : ℤ) : sizeT i < 2 ^ 64 := by
  unfold sizeT
  omega

theorem sizeT_of_nat {n : ℕ} (h : n < 2 ^ 64) : sizeT n = n := by
  unfold sizeT
  omega

theorem int32_of_nat {n : ℕ} (h : n < 2 ^ 31) : int32 n = n := by
  unfold int32
  omega

end CInt
end DaatMcs
