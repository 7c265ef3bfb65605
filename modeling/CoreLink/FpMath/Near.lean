/-
# `CoreLink.FpMath.Near` — how near a fixed point number is to a real one, through sums, products and shifts.
-/
import CoreLink.FpMath.Arith
import Mathlib.Data.Real.Basic
import Mathlib.Tactic.Positivity

namespace CoreLink.FpMath

/-- A fixed point number is within `E` of the real number `Y`. -/
def Near (y : ℤ) (Y E : ℝ) : Prop := |(y : ℝ) / 2 ^ 32 - Y| ≤ E

/-- The number `r` is `f` of the number `x`, up to `2 ^ (-n)`. -/
def NearAt (f : ℝ → ℝ) (x r : ℤ) (n : ℕ) : Prop := Near r (f (x / 2 ^ 32)) (1 / 2 ^ n)

variable {y z : ℤ} {Y Z E F A B : ℝ}

theorem near_self (y : ℤ) : Near y (y / 2 ^ 32) 0 := by simp [Near]

theorem Near.mono (h : Near y Y E) (hE : E ≤ F) : Near y Y F := le_trans h hE

theorem Near.abs_le (h : Near y Y E) (hY : |Y| ≤ A) : |(y : ℝ) / 2 ^ 32| ≤ A + E := by
  calc |(y : ℝ) / 2 ^ 32| = |Y + (y / 2 ^ 32 - Y)| := by rw [add_sub_cancel]
    _ ≤ |Y| + |y / 2 ^ 32 - Y| := abs_add_le _ _
    _ ≤ A + E := add_le_add hY h

theorem abs_le_of_value {n : ℕ} (h : |(y : ℝ) / 2 ^ 32| ≤ 2 ^ n) : |y| ≤ 2 ^ (n + 32) := by
  rw [abs_div, abs_of_pos (by positivity : (0 : ℝ) < 2 ^ 32), div_le_iff₀ (by positivity), ← pow_add] at h
  exact_mod_cast h

/-- What is near to a number in the range fits. -/
theorem Near.fits (h : Near y Y E) (hY : |Y| ≤ A) (hA : A + E ≤ 2 ^ 30) : Fits y :=
  fits_of_abs (abs_le_of_value ((h.abs_le hY).trans hA)) (by norm_num)

/-- Rounding a quotient down takes less than a unit. -/
theorem near_ediv (y : ℤ) {k : ℤ} (hk : 0 < k) : Near (y / k) (y / k / 2 ^ 32) (1 / 2 ^ 32) := by
  have hlow : (y : ℝ) / k - 1 < (y / k : ℤ) := by
    have hdiv := Int.lt_ediv_add_one_mul_self y hk
    have hcast : (y : ℝ) < ((y / k : ℤ) + 1) * k := by exact_mod_cast hdiv
    have hkpos : (0 : ℝ) < k := by exact_mod_cast hk
    rw [sub_lt_iff_lt_add, div_lt_iff₀ hkpos]
    exact hcast
  have hhigh : ((y / k : ℤ) : ℝ) ≤ y / k := by
    have hkpos : (0 : ℝ) < k := by exact_mod_cast hk
    rw [le_div_iff₀ hkpos]
    exact_mod_cast Int.ediv_mul_le y hk.ne'
  rw [Near, ← sub_div, abs_div, abs_of_pos (by positivity : (0 : ℝ) < 2 ^ 32)]
  apply div_le_div_of_nonneg_right _ (by positivity)
  rw [abs_le]
  constructor <;> linarith

theorem Near.trans (h : Near y Y E) (hZ : |Y - Z| ≤ F) : Near y Z (E + F) := by
  calc |(y : ℝ) / 2 ^ 32 - Z| = |(y / 2 ^ 32 - Y) + (Y - Z)| := by rw [sub_add_sub_cancel]
    _ ≤ |y / 2 ^ 32 - Y| + |Y - Z| := abs_add_le _ _
    _ ≤ E + F := add_le_add h hZ

/-- **A product.** -/
theorem Near.sllmul (hy : Near y Y E) (hz : Near z Z F) (hY : |Y| ≤ A) (hZ : |Z| ≤ B) (hA : A + E ≤ 2 ^ 15) (hB : B + F ≤ 2 ^ 15) :
    Near (sllmul y z) (Y * Z) (E * (B + F) + A * F + 1 / 2 ^ 32) := by
  have hyvalue := hy.abs_le hY
  have hzvalue := hz.abs_le hZ
  have hyint : |y| ≤ 2 ^ 47 := abs_le_of_value (hyvalue.trans hA)
  have hzint : |z| ≤ 2 ^ 47 := abs_le_of_value (hzvalue.trans hB)
  have hprod : |y * z| ≤ 2 ^ 62 * 2 ^ 32 := by
    calc |y * z| = |y| * |z| := abs_mul y z
      _ ≤ 2 ^ 47 * 2 ^ 47 := mul_le_mul hyint hzint (abs_nonneg z) (by norm_num)
      _ = 2 ^ 62 * 2 ^ 32 := by norm_num
  have heq := (sllmul_bounded (fits_of_abs hyint (by norm_num)) (fits_of_abs hzint (by norm_num)) hprod (by norm_num)).1
  have hround := near_ediv (y * z) (by norm_num : (0 : ℤ) < 2 ^ 32)
  have hvalue : (((y * z : ℤ) : ℝ) / ((2 ^ 32 : ℤ) : ℝ) / 2 ^ 32) = y / 2 ^ 32 * (z / 2 ^ 32) := by
    push_cast
    ring
  rw [hvalue, ← heq] at hround
  have hA0 : 0 ≤ A := (abs_nonneg Y).trans hY
  have hE0 : 0 ≤ E := (abs_nonneg _).trans hy
  have hdistance : |(y : ℝ) / 2 ^ 32 * (z / 2 ^ 32) - Y * Z| ≤ E * (B + F) + A * F := by
    calc |(y : ℝ) / 2 ^ 32 * (z / 2 ^ 32) - Y * Z|
        = |(y / 2 ^ 32 - Y) * (z / 2 ^ 32) + Y * (z / 2 ^ 32 - Z)| := by ring_nf
      _ ≤ |(y : ℝ) / 2 ^ 32 - Y| * |(z : ℝ) / 2 ^ 32| + |Y| * |(z : ℝ) / 2 ^ 32 - Z| := by
        rw [← abs_mul, ← abs_mul]
        exact abs_add_le _ _
      _ ≤ E * (B + F) + A * F := add_le_add (mul_le_mul hy hzvalue (abs_nonneg _) hE0) (mul_le_mul hY hz (abs_nonneg _) hA0)
  exact (hround.trans hdistance).mono (by rw [add_comm])

theorem Near.add (hy : Near y Y E) (hz : Near z Z F) : Near (y + z) (Y + Z) (E + F) := by
  have hsplit : ((y + z : ℤ) : ℝ) / 2 ^ 32 - (Y + Z) = (y / 2 ^ 32 - Y) + (z / 2 ^ 32 - Z) := by
    push_cast
    ring
  rw [Near, hsplit]
  exact (abs_add_le _ _).trans (add_le_add hy hz)

theorem Near.neg (hy : Near y Y E) : Near (-y) (-Y) E := by
  have hsplit : ((-y : ℤ) : ℝ) / 2 ^ 32 - -Y = -(y / 2 ^ 32 - Y) := by
    push_cast
    ring
  rw [Near, hsplit, abs_neg]
  exact hy

/-- **A sum.** -/
theorem Near.slladd (hy : Near y Y E) (hz : Near z Z F) (h : |Y + Z| ≤ A) (hA : A + (E + F) ≤ 2 ^ 30) :
    ∃ w, slladd y z = some w ∧ Near w (Y + Z) (E + F) :=
  ⟨y + z, slladd_of_fits ((hy.add hz).fits h hA), hy.add hz⟩

/-- **A difference.** -/
theorem Near.sllsub (hy : Near y Y E) (hz : Near z Z F) (h : |Y - Z| ≤ A) (hA : A + (E + F) ≤ 2 ^ 30) :
    ∃ w, sllsub y z = some w ∧ Near w (Y - Z) (E + F) := by
  have hsub : Near (y - z) (Y - Z) (E + F) := by
    rw [sub_eq_add_neg, sub_eq_add_neg]
    exact hy.add hz.neg
  exact ⟨y - z, sllsub_of_fits (hsub.fits h hA), hsub⟩

/-- **The half.** -/
theorem Near.slldiv2 (hy : Near y Y E) : Near (slldiv2 y) (Y / 2) (1 / 2 ^ 32 + E / 2) := by
  have hround := near_ediv y (by norm_num : (0 : ℤ) < 2)
  have hdistance : |(y : ℝ) / ((2 : ℤ) : ℝ) / 2 ^ 32 - Y / 2| ≤ E / 2 := by
    have hsplit : (y : ℝ) / ((2 : ℤ) : ℝ) / 2 ^ 32 - Y / 2 = (y / 2 ^ 32 - Y) / 2 := by
      push_cast
      ring
    rw [hsplit, abs_div, abs_two]
    exact div_le_div_of_nonneg_right hy (by norm_num)
  exact hround.trans hdistance

/-! ## The series of the cosine and of the sine -/

/-- The cosine of Taylor up to the power 12, as it is computed. -/
noncomputable def cosSeries (u : ℝ) : ℝ :=
  1 - u * u * (1 - u * u * (1 - u * u * (1 - u * u * (1 - u * u * (1 - u * u * (1 / 132)) * (1 / 90)) * (1 / 56)) * (1 / 30)) *
    (1 / 12)) / 2

/-- The sine, with the innermost term as it is computed. -/
noncomputable def sinSeries (u : ℝ) : ℝ :=
  u - u * u * (u - u * u * (u - u * u * (u - u * u * (u - u * u * (u - u * u * (1 / 156)) * (1 / 110)) * (1 / 72)) * (1 / 42)) *
    (1 / 20)) * (1 / 6)

/-- The polynomials of Taylor. -/
noncomputable def cosTaylor (u : ℝ) : ℝ :=
  1 - u ^ 2 / 2 + u ^ 4 / 24 - u ^ 6 / 720 + u ^ 8 / 40320 - u ^ 10 / 3628800 + u ^ 12 / 479001600

noncomputable def sinTaylor (u : ℝ) : ℝ := u - u ^ 3 / 6 + u ^ 5 / 120 - u ^ 7 / 5040 + u ^ 9 / 362880 - u ^ 11 / 39916800

end CoreLink.FpMath
