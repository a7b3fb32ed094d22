/-
# Rounded arithmetic

An operation on floats is the exact operation followed by a rounding. All
that is asked of the rounding is what IEEE 754 promises while nothing
overflows or underflows: it respects the order and the sign, keeps the
integers up to `2 ^ 53`, and makes nothing zero that is not. With no rounding at all the same
program computes in exact arithmetic (`Rounding.rationals`).
-/
import Mathlib.Data.Rat.Cast.Order
import Mathlib.Order.Monotone.Basic

namespace DaatMcs

structure Rounding where
  round : ℚ → ℚ
  mono : Monotone round
  natCast : ∀ n : ℕ, n ≤ 2 ^ 53 → round n = n
  pos : ∀ x, 0 < x → 0 < round x
  neg : ∀ x, round (-x) = -round x

namespace Rounding

/-- Exact arithmetic. -/
def rationals : Rounding where
  round := id
  mono := monotone_id
  natCast _ _ := rfl
  pos _ h := h
  neg _ := rfl

@[simp] theorem rationals_round (x : ℚ) : rationals.round x = x := rfl

variable (r : Rounding)

@[simp] theorem zero : r.round 0 = 0 := by
  simpa using r.natCast 0 (Nat.zero_le _)

theorem nonneg {x : ℚ} (h : 0 ≤ x) : 0 ≤ r.round x := by
  rw [← r.zero]
  exact r.mono h

theorem eq_zero_iff {x : ℚ} (h : 0 ≤ x) : r.round x = 0 ↔ x = 0 := by
  refine ⟨fun hround => ?_, fun hx => by rw [hx, r.zero]⟩
  by_contra hx
  exact (r.pos x (lt_of_le_of_ne h (Ne.symm hx))).ne' hround

/-- Rounded after every operation, `c (x - y) / b` keeps its sign. -/
theorem quot_pos {c x y b : ℚ} (hc : 0 < c) (hxy : y < x) (hb : 0 < b) :
    0 < r.round (r.round (c * r.round (x - y)) / b) :=
  r.pos _ (div_pos (r.pos _ (mul_pos hc (r.pos _ (sub_pos.mpr hxy)))) hb)

theorem quot_nonneg {c x y b : ℚ} (hc : 0 ≤ c) (hxy : y ≤ x) (hb : 0 ≤ b) :
    0 ≤ r.round (r.round (c * r.round (x - y)) / b) :=
  r.nonneg (div_nonneg (r.nonneg (mul_nonneg hc (r.nonneg (sub_nonneg.mpr hxy)))) hb)

theorem quot_self (c x b : ℚ) : r.round (r.round (c * r.round (x - x)) / b) = 0 := by
  rw [sub_self, r.zero, mul_zero, r.zero, zero_div, r.zero]

end Rounding
end DaatMcs
