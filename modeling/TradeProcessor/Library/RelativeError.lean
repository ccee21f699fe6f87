/-
  Library/RelativeError.lean --- a calculus of relative errors.

  Two nonnegative numbers are within `k` errors of each other when each is at least
  `(1 - u) ^ k` times the other.  The relation is symmetric, errors add up along a
  chain, and sums, products and quotients of such numbers are as close as their
  parts: so the error of a computation is the number of its roundings.
-/
import Mathlib

set_option autoImplicit false

namespace TradeProcessor.Library

/-- Within `k` relative errors of `u`. -/
structure Within (u : ℚ) (k : Nat) (x y : ℚ) : Prop where
  lower : (1 - u) ^ k * x ≤ y
  upper : (1 - u) ^ k * y ≤ x

namespace Within

variable {u x y z w : ℚ} {j k : Nat}

theorem symm (h : Within u k x y) : Within u k y x := ⟨h.upper, h.lower⟩

section Unit

variable (hu : 0 ≤ u) (hu' : u < 1)
include hu hu'

theorem factor_pos (k : Nat) : 0 < (1 - u) ^ k := by
  have := hu
  exact pow_pos (sub_pos.mpr hu') k

theorem factor_le_one (k : Nat) : (1 - u) ^ k ≤ 1 :=
  pow_le_one₀ (sub_nonneg.mpr hu'.le) (by linarith)

theorem factor_anti (h : j ≤ k) : (1 - u) ^ k ≤ (1 - u) ^ j :=
  pow_le_pow_of_le_one (sub_nonneg.mpr hu'.le) (by linarith) h

theorem refl (hx : 0 ≤ x) (k : Nat) : Within u k x x := by
  have h := mul_le_mul_of_nonneg_right (factor_le_one hu hu' k) hx
  rw [one_mul] at h
  exact ⟨h, h⟩

theorem mono (h : Within u j x y) (hx : 0 ≤ x) (hy : 0 ≤ y) (hjk : j ≤ k) : Within u k x y :=
  ⟨(mul_le_mul_of_nonneg_right (factor_anti hu hu' hjk) hx).trans h.lower,
    (mul_le_mul_of_nonneg_right (factor_anti hu hu' hjk) hy).trans h.upper⟩

/-- Errors add up. -/
theorem trans (hxy : Within u j x y) (hyz : Within u k y z) : Within u (j + k) x z := by
  constructor
  · calc (1 - u) ^ (j + k) * x = (1 - u) ^ k * ((1 - u) ^ j * x) := by ring
      _ ≤ (1 - u) ^ k * y := mul_le_mul_of_nonneg_left hxy.lower (factor_pos hu hu' k).le
      _ ≤ z := hyz.lower
  · calc (1 - u) ^ (j + k) * z = (1 - u) ^ j * ((1 - u) ^ k * z) := by ring
      _ ≤ (1 - u) ^ j * y := mul_le_mul_of_nonneg_left hyz.upper (factor_pos hu hu' j).le
      _ ≤ x := hxy.upper

theorem mul (hxy : Within u j x y) (hzw : Within u k z w) (hx : 0 ≤ x) (hy : 0 ≤ y)
    (hz : 0 ≤ z) (hw : 0 ≤ w) : Within u (j + k) (x * z) (y * w) := by
  have hj := (factor_pos hu hu' j).le
  have hk := (factor_pos hu hu' k).le
  constructor
  · calc (1 - u) ^ (j + k) * (x * z) = ((1 - u) ^ j * x) * ((1 - u) ^ k * z) := by ring
      _ ≤ y * w := mul_le_mul hxy.lower hzw.lower (mul_nonneg hk hz) hy
  · calc (1 - u) ^ (j + k) * (y * w) = ((1 - u) ^ j * y) * ((1 - u) ^ k * w) := by ring
      _ ≤ x * z := mul_le_mul hxy.upper hzw.upper (mul_nonneg hk hw) hx

theorem pos (h : Within u k x y) (hx : 0 < x) : 0 < y :=
  (mul_pos (factor_pos hu hu' k) hx).trans_le h.lower

theorem inv (h : Within u k x y) (hx : 0 < x) : Within u k x⁻¹ y⁻¹ := by
  have hy := h.pos hu hu' hx
  constructor
  · rw [← div_eq_mul_inv, div_le_iff₀ hx, inv_mul_eq_div, le_div_iff₀ hy]
    exact h.upper
  · rw [← div_eq_mul_inv, div_le_iff₀ hy, inv_mul_eq_div, le_div_iff₀ hx]
    exact h.lower

theorem div (hxy : Within u j x y) (hzw : Within u k z w) (hx : 0 ≤ x) (hy : 0 ≤ y)
    (hz : 0 < z) : Within u (j + k) (x / z) (y / w) := by
  have hw := hzw.pos hu hu' hz
  rw [div_eq_mul_inv, div_eq_mul_inv]
  exact hxy.mul hu hu' (hzw.inv hu hu' hz) hx hy (inv_nonneg.mpr hz.le) (inv_nonneg.mpr hw.le)

/-- One error. -/
theorem of_abs_sub_le (hx : 0 ≤ x) (h : |y - x| ≤ u * |x|) : Within u 1 x y := by
  rw [abs_of_nonneg hx, abs_le] at h
  constructor
  · rw [pow_one]
    linarith
  · rw [pow_one]
    have hsquare : 0 ≤ u * u * x := mul_nonneg (mul_nonneg hu hu) hx
    have hupper : (1 - u) * y ≤ (1 - u) * ((1 + u) * x) :=
      mul_le_mul_of_nonneg_left (by linarith) (sub_nonneg.mpr hu'.le)
    nlinarith

/-- A few errors are a small difference. -/
theorem abs_sub_le (h : Within u k x y) (hx : 0 ≤ x) (hy : 0 ≤ y) (hk : k * u ≤ 1 / 2) :
    |y - x| ≤ 2 * (k * u) * x := by
  have hfactor : 1 - k * u ≤ (1 - u) ^ k := by
    have := one_add_mul_le_pow (a := -u) (by linarith) k
    linarith [sub_eq_add_neg 1 u ▸ this]
  have hlower : (1 - k * u) * x ≤ y := (mul_le_mul_of_nonneg_right hfactor hx).trans h.lower
  have hupper : (1 - k * u) * y ≤ x := (mul_le_mul_of_nonneg_right hfactor hy).trans h.upper
  have hku : 0 ≤ k * u := mul_nonneg (Nat.cast_nonneg k) hu
  rw [abs_le]
  constructor <;> nlinarith

end Unit

theorem add (hxy : Within u k x y) (hzw : Within u k z w) : Within u k (x + z) (y + w) := by
  constructor
  · rw [mul_add]
    exact add_le_add hxy.lower hzw.lower
  · rw [mul_add]
    exact add_le_add hxy.upper hzw.upper

end Within

end TradeProcessor.Library
