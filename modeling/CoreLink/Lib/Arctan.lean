/-
# `CoreLink.Lib.Arctan` — the arctangent by polynomials, and by one step of the subtraction formula from an approximation.
-/
import Mathlib

namespace CoreLink.Lib

open Real

/-- Moving the argument moves the arctangent by no more. -/
theorem abs_arctan_sub_le (x y : ℝ) : |arctan x - arctan y| ≤ |x - y| := by
  have hlipschitz : LipschitzWith 1 arctan := by
    apply lipschitzWith_of_nnnorm_deriv_le differentiable_arctan
    intro z
    rw [(hasDerivAt_arctan z).deriv, ← NNReal.coe_le_coe, coe_nnnorm, norm_eq_abs, NNReal.coe_one]
    have hpos : (0 : ℝ) < 1 + z ^ 2 := by positivity
    rw [abs_of_pos (by positivity), div_le_one hpos]
    nlinarith [sq_nonneg z]
  simpa [dist_eq] using hlipschitz.dist_le_mul x y

/-- What the first two terms of the series leave. -/
noncomputable def cubicRest (x : ℝ) : ℝ := arctan x - (x - x ^ 3 / 3)

theorem hasDerivAt_cubicRest (x : ℝ) : HasDerivAt cubicRest (x ^ 4 / (1 + x ^ 2)) x := by
  have hpoly : HasDerivAt (fun x : ℝ => x - x ^ 3 / 3) (1 - x ^ 2) x := by
    have hcube := (hasDerivAt_pow 3 x).div_const 3
    have hsum := (hasDerivAt_id x).sub hcube
    exact hsum.congr_deriv (by norm_num)
  have hpos : (1 : ℝ) + x ^ 2 ≠ 0 := by positivity
  apply ((hasDerivAt_arctan x).sub hpoly).congr_deriv
  field_simp
  ring

theorem cubicRest_zero : cubicRest 0 = 0 := by simp [cubicRest]

theorem cubicRest_monotone : Monotone cubicRest := by
  apply monotone_of_deriv_nonneg fun x => (hasDerivAt_cubicRest x).differentiableAt
  intro x
  rw [(hasDerivAt_cubicRest x).deriv]
  positivity

theorem fifth_sub_cubicRest_monotone : Monotone fun x => x ^ 5 / 5 - cubicRest x := by
  have hderiv (x : ℝ) : HasDerivAt (fun x => x ^ 5 / 5 - cubicRest x) (x ^ 4 - x ^ 4 / (1 + x ^ 2)) x := by
    have hpow := (hasDerivAt_pow 5 x).div_const 5
    exact (hpow.sub (hasDerivAt_cubicRest x)).congr_deriv (by norm_num)
  apply monotone_of_deriv_nonneg fun x => (hderiv x).differentiableAt
  intro x
  rw [(hderiv x).deriv, sub_nonneg]
  apply div_le_self (by positivity)
  nlinarith [sq_nonneg x]

/-- **The first two terms** leave at most a fifth of the fifth power. -/
theorem abs_cubicRest_le (x : ℝ) : |cubicRest x| ≤ |x| ^ 5 / 5 := by
  have hlast := fifth_sub_cubicRest_monotone
  rcases le_total 0 x with hx | hx
  · have hlow := cubicRest_monotone hx
    have hhigh := hlast hx
    simp only [cubicRest_zero] at hlow hhigh
    rw [abs_of_nonneg hlow, abs_of_nonneg hx]
    linarith
  · have hlow := cubicRest_monotone hx
    have hhigh := hlast hx
    simp only [cubicRest_zero] at hlow hhigh
    rw [abs_of_nonpos hlow, abs_of_nonpos hx]
    have hodd : (-x) ^ 5 = -x ^ 5 := by ring
    rw [hodd]
    linarith

/-- A small arctangent is that of a small number. -/
theorem abs_le_of_abs_arctan {x b : ℝ} (hb : 0 ≤ b) (h : |arctan x| < b - b ^ 3 / 3) : |x| ≤ b := by
  by_contra hlt
  have hrest : 0 ≤ cubicRest b := by
    have hlow := cubicRest_monotone hb
    rwa [cubicRest_zero] at hlow
  have hmono : arctan b < arctan |x| := arctan_lt_arctan_iff.mpr (not_le.mp hlt)
  have habs : arctan |x| = |arctan x| := by
    rcases le_total 0 x with hx | hx
    · rw [abs_of_nonneg hx, abs_of_nonneg (arctan_nonneg.mpr hx)]
    · rw [abs_of_nonpos hx, abs_of_nonpos (arctan_le_zero.mpr hx), arctan_neg]
  unfold cubicRest at hrest
  linarith

/-- **A step**: from an approximation `A` to the arctangent of what the subtraction formula leaves. -/
theorem arctan_step {Z A T X E F : ℝ} (hA : |A| < π / 2) (hT : |T - tan A| ≤ E) (hZT : -1 < Z * T)
    (hX : |X - (Z - T) / (1 + Z * T)| ≤ F) : |arctan Z - A - arctan X| ≤ E + F := by
  obtain ⟨hlow, hhigh⟩ := abs_lt.mp hA
  have hsub : arctan Z - arctan T = arctan ((Z - T) / (1 + Z * T)) := by
    have hadd := arctan_add (x := Z) (y := -T) (by linarith)
    rw [arctan_neg, mul_neg, sub_neg_eq_add, ← sub_eq_add_neg, ← sub_eq_add_neg] at hadd
    exact hadd
  have hT' : |arctan T - A| ≤ E := by
    have hlipschitz := abs_arctan_sub_le T (tan A)
    rw [arctan_tan hlow hhigh] at hlipschitz
    exact hlipschitz.trans hT
  have hX' : |arctan X - arctan ((Z - T) / (1 + Z * T))| ≤ F := (abs_arctan_sub_le _ _).trans hX
  calc |arctan Z - A - arctan X| = |(arctan T - A) - (arctan X - arctan ((Z - T) / (1 + Z * T)))| := by
        rw [← hsub]
        ring_nf
    _ ≤ |arctan T - A| + |arctan X - arctan ((Z - T) / (1 + Z * T))| := abs_sub _ _
    _ ≤ E + F := add_le_add hT' hX'

end CoreLink.Lib
