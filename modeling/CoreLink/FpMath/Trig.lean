/-
# `CoreLink.FpMath.Trig` — `sllsin` and `sllcos`: the quadrant, and the two series.

The argument is brought next to zero by a multiple of a quarter turn; for large arguments the quarter turn has too few digits, and
what is left is up to 1.11 instead of 0.79. Both series are good to `2 ^ (-27)` there, so that their squares add up to 1.
-/
import CoreLink.FpMath.Near
import Mathlib.Analysis.Complex.Trigonometric

namespace CoreLink.FpMath

open CoreLink.Lib

/-! ## The functions -/

def CONST_PI_2 : ℤ := 0x1921fb544
def CONST_2_PI : ℤ := 0xa2f9836e

/-- `retval = _sllsub(first, sllmul(sllmul(x2, retval), c))`. -/
def seriesStep (first x2 retval c : ℤ) : Option ℤ := sllsub first (sllmul (sllmul x2 retval) c)

/-- `_sllcos`. -/
def sllcosReduced (x : ℤ) : Option ℤ := do
  let x2 := sllmul x x
  let retval ← sllsub CONST_1 (sllmul x2 CONST_1_132)
  let retval ← seriesStep CONST_1 x2 retval CONST_1_90
  let retval ← seriesStep CONST_1 x2 retval CONST_1_56
  let retval ← seriesStep CONST_1 x2 retval CONST_1_30
  let retval ← seriesStep CONST_1 x2 retval CONST_1_12
  sllsub CONST_1 (slldiv2 (sllmul x2 retval))

/-- `_sllsin`. The innermost term is `x2 / 156`, without the factor `x` that it has in the series. -/
def sllsinReduced (x : ℤ) : Option ℤ := do
  let x2 := sllmul x x
  let retval ← sllsub x (sllmul x2 CONST_1_156)
  let retval ← seriesStep x x2 retval CONST_1_110
  let retval ← seriesStep x x2 retval CONST_1_72
  let retval ← seriesStep x x2 retval CONST_1_42
  let retval ← seriesStep x x2 retval CONST_1_20
  seriesStep x x2 retval CONST_1_6

/-- The quadrant, and what is left of the argument. -/
def quadrant (x : ℤ) : Option (ℤ × ℤ) := do
  let s ← slladd (sllmul x CONST_2_PI) CONST_1_2
  let i := sll2int s
  let x ← sllsub x (sllmul (int2sll i) CONST_PI_2)
  some (i, x)

/-- **`sllcos`.** -/
def sllcos (x : ℤ) : Option ℤ := do
  let (i, x) ← quadrant x
  if i % 4 = 1 then (sllsinReduced x).bind sllneg
  else if i % 4 = 2 then (sllcosReduced x).bind sllneg
  else if i % 4 = 3 then sllsinReduced x
  else sllcosReduced x

/-- **`sllsin`.** -/
def sllsin (x : ℤ) : Option ℤ := do
  let (i, x) ← quadrant x
  if i % 4 = 1 then sllcosReduced x
  else if i % 4 = 2 then (sllsinReduced x).bind sllneg
  else if i % 4 = 3 then (sllcosReduced x).bind sllneg
  else sllsinReduced x

/-! ## The quadrant -/

/-- **What is left** of the argument is at most 1.11. -/
theorem quadrant_spec {x : ℤ} (hx : Fits x) : ∃ i r, quadrant x = some (i, r) ∧ |r| ≤ 4761387782 := by
  obtain ⟨hlow, hhigh⟩ := hx
  obtain ⟨s, hs⟩ : ∃ s, s = x * 0xa2f9836e / 2 ^ 32 := ⟨_, rfl⟩
  obtain ⟨i, hi⟩ : ∃ i, i = (s + 0x80000000) / 2 ^ 32 := ⟨_, rfl⟩
  have hmul : sllmul x CONST_2_PI = s := by
    rw [hs]
    exact sllmul_of_fits ⟨hlow, hhigh⟩ (by decide) ⟨by unfold CONST_2_PI; omega, by unfold CONST_2_PI; omega⟩
  have hsum : Fits (s + CONST_1_2) := ⟨by unfold CONST_1_2; omega, by unfold CONST_1_2; omega⟩
  have hint : sll2int (s + CONST_1_2) = i := by
    rw [sll2int_eq hsum, hi]
    rfl
  have hbound : -1367130551 ≤ i ∧ i ≤ 1367130551 := by omega
  have hquarters : sllmul (int2sll i) CONST_PI_2 = i * 0x1921fb544 := by
    have hdiv : int2sll i * CONST_PI_2 / 2 ^ 32 = i * 0x1921fb544 := by
      unfold int2sll CONST_PI_2
      omega
    rw [← hdiv]
    apply sllmul_of_fits ⟨by unfold int2sll; omega, by unfold int2sll; omega⟩ (by decide)
    rw [hdiv]
    exact ⟨by omega, by omega⟩
  have hrest : |x - i * 0x1921fb544| ≤ 4761387782 := by
    rw [abs_le]
    omega
  refine ⟨i, x - i * 0x1921fb544, ?_, hrest⟩
  have hsub : sllsub x (i * 0x1921fb544) = some (x - i * 0x1921fb544) := sllsub_of_fits (fits_of_abs hrest (by norm_num))
  simp only [quadrant, hmul, slladd_of_fits hsum, hint, hquarters, hsub, Option.bind_eq_bind, Option.bind_some]

/-! ## The series -/

/-- A constant of the table. -/
theorem near_recip {c : ℤ} {K : ℝ} (k : ℤ) (hk : 0 < k) (hK : (k : ℝ) = K) (hc : c = 2 ^ 32 / k) : Near c (1 / K) (1 / 2 ^ 32) := by
  have hdiv := near_ediv (2 ^ 32) hk
  rw [← hc] at hdiv
  have hvalue : (((2 ^ 32 : ℤ) : ℝ) / k / 2 ^ 32) = 1 / K := by
    rw [← hK]
    push_cast
    field_simp
    norm_num
  rwa [hvalue] at hdiv

/-- **One step** of a series. -/
theorem seriesStep_spec {first x2 retval c : ℤ} {B v S C : ℝ} (hfirst : Near first B 0) (hB : |B| ≤ 111 / 100)
    (hx2 : Near x2 v (1 / 2 ^ 32)) (hv : |v| ≤ 5 / 4) (hretval : Near retval S (4 / 2 ^ 32)) (hS : |S| ≤ 5 / 4)
    (hc : Near c C (1 / 2 ^ 32)) (hC : |C| ≤ 1 / 6) :
    ∃ r, seriesStep first x2 retval c = some r ∧ Near r (B - v * S * C) (4 / 2 ^ 32) := by
  have hvS : |v * S| ≤ 25 / 16 := by
    rw [abs_mul]
    calc |v| * |S| ≤ 5 / 4 * (5 / 4) := mul_le_mul hv hS (abs_nonneg S) (by norm_num)
      _ = 25 / 16 := by norm_num
  have hvSC : |v * S * C| ≤ 25 / 96 := by
    rw [abs_mul]
    calc |v * S| * |C| ≤ 25 / 16 * (1 / 6) := mul_le_mul hvS hC (abs_nonneg C) (by norm_num)
      _ = 25 / 96 := by norm_num
  have hproduct := (hx2.sllmul hretval hv hS (by norm_num) (by norm_num)).mono (by norm_num : _ ≤ (8 : ℝ) / 2 ^ 32)
  have hterm := (hproduct.sllmul hc hvS hC (by norm_num) (by norm_num)).mono (by norm_num : _ ≤ (4 : ℝ) / 2 ^ 32)
  have hsum : |B - v * S * C| ≤ 2 := (abs_sub _ _).trans (by linarith)
  obtain ⟨r, hr, hnear⟩ := hfirst.sllsub hterm hsum (by norm_num)
  exact ⟨r, hr, hnear.mono (by norm_num)⟩

/-- A step with a small factor leaves the sum small. -/
theorem abs_step_le {B v S C : ℝ} (hB : |B| ≤ 111 / 100) (hv : |v| ≤ 5 / 4) (hS : |S| ≤ 5 / 4) (hC : |C| ≤ 1 / 12) :
    |B - v * S * C| ≤ 5 / 4 := by
  have hvSC : |v * S * C| ≤ 25 / 192 := by
    rw [abs_mul, abs_mul]
    calc |v| * |S| * |C| ≤ 5 / 4 * (5 / 4) * (1 / 12) := by gcongr
      _ = 25 / 192 := by norm_num
  exact (abs_sub _ _).trans (by linarith)

theorem near_one : Near CONST_1 1 0 := by
  unfold Near CONST_1
  norm_num

section Reduced

variable {x : ℤ}

theorem abs_value_le (hx : |x| ≤ 4761387782) : |(x : ℝ) / 2 ^ 32| ≤ 111 / 100 := by
  have hcast : |(x : ℝ)| ≤ 4761387782 := by exact_mod_cast hx
  rw [abs_div, abs_of_pos (by positivity : (0 : ℝ) < 2 ^ 32), div_le_iff₀ (by positivity)]
  exact hcast.trans (by norm_num)

theorem abs_square_le {u : ℝ} (hu : |u| ≤ 111 / 100) : |u * u| ≤ 5 / 4 := by
  rw [abs_mul]
  calc |u| * |u| ≤ 111 / 100 * (111 / 100) := mul_le_mul hu hu (abs_nonneg u) (by norm_num)
    _ ≤ 5 / 4 := by norm_num

theorem near_square (hx : |x| ≤ 4761387782) : Near (sllmul x x) (x / 2 ^ 32 * (x / 2 ^ 32)) (1 / 2 ^ 32) := by
  have hu := abs_value_le hx
  exact ((near_self x).sllmul (near_self x) hu hu (by norm_num) (by norm_num)).mono (by norm_num)

/-- The innermost step. -/
theorem firstStep_spec {first x2 c : ℤ} {B v C : ℝ} (hfirst : Near first B 0) (hB : |B| ≤ 111 / 100)
    (hx2 : Near x2 v (1 / 2 ^ 32)) (hv : |v| ≤ 5 / 4) (hc : Near c C (1 / 2 ^ 32)) (hC : |C| ≤ 1 / 100) :
    ∃ r, sllsub first (sllmul x2 c) = some r ∧ Near r (B - v * C) (4 / 2 ^ 32) ∧ |B - v * C| ≤ 5 / 4 := by
  have hterm := (hx2.sllmul hc hv hC (by norm_num) (by norm_num)).mono (by norm_num : _ ≤ (4 : ℝ) / 2 ^ 32)
  have hvC : |v * C| ≤ 1 / 80 := by
    rw [abs_mul]
    calc |v| * |C| ≤ 5 / 4 * (1 / 100) := mul_le_mul hv hC (abs_nonneg C) (by norm_num)
      _ = 1 / 80 := by norm_num
  have hsum : |B - v * C| ≤ 5 / 4 := (abs_sub _ _).trans (by linarith)
  obtain ⟨r, hr, hnear⟩ := hfirst.sllsub hterm hsum (by norm_num)
  exact ⟨r, hr, hnear.mono (by norm_num), hsum⟩

/-- **The computed cosine** is near to its series. -/
theorem sllcosReduced_series (hx : |x| ≤ 4761387782) :
    ∃ c, sllcosReduced x = some c ∧ Near c (cosSeries (x / 2 ^ 32)) (6 / 2 ^ 32) := by
  have hv := abs_square_le (abs_value_le hx)
  have hx2 := near_square hx
  generalize (x : ℝ) / 2 ^ 32 = u at hv hx2 ⊢
  have hone : |(1 : ℝ)| ≤ 111 / 100 := by norm_num
  have h132 : Near CONST_1_132 (1 / 132) (1 / 2 ^ 32) := near_recip 132 (by norm_num) (by norm_num) rfl
  have h90 : Near CONST_1_90 (1 / 90) (1 / 2 ^ 32) := near_recip 90 (by norm_num) (by norm_num) rfl
  have h56 : Near CONST_1_56 (1 / 56) (1 / 2 ^ 32) := near_recip 56 (by norm_num) (by norm_num) rfl
  have h30 : Near CONST_1_30 (1 / 30) (1 / 2 ^ 32) := near_recip 30 (by norm_num) (by norm_num) rfl
  have h12 : Near CONST_1_12 (1 / 12) (1 / 2 ^ 32) := near_recip 12 (by norm_num) (by norm_num) rfl
  obtain ⟨r₅, hr₅, hnear₅, hS₅⟩ := firstStep_spec near_one hone hx2 hv h132 (by norm_num)
  obtain ⟨r₄, hr₄, hnear₄⟩ := seriesStep_spec near_one hone hx2 hv hnear₅ hS₅ h90 (by norm_num)
  have hS₄ := abs_step_le (C := 1 / 90) hone hv hS₅ (by norm_num)
  obtain ⟨r₃, hr₃, hnear₃⟩ := seriesStep_spec near_one hone hx2 hv hnear₄ hS₄ h56 (by norm_num)
  have hS₃ := abs_step_le (C := 1 / 56) hone hv hS₄ (by norm_num)
  obtain ⟨r₂, hr₂, hnear₂⟩ := seriesStep_spec near_one hone hx2 hv hnear₃ hS₃ h30 (by norm_num)
  have hS₂ := abs_step_le (C := 1 / 30) hone hv hS₃ (by norm_num)
  obtain ⟨r₁, hr₁, hnear₁⟩ := seriesStep_spec near_one hone hx2 hv hnear₂ hS₂ h12 (by norm_num)
  have hS₁ := abs_step_le (C := 1 / 12) hone hv hS₂ (by norm_num)
  have hproduct := (hx2.sllmul hnear₁ hv hS₁ (by norm_num) (by norm_num)).mono (by norm_num : _ ≤ (8 : ℝ) / 2 ^ 32)
  have hsum : |(1 : ℝ) - u * u * (1 - u * u * (1 - u * u * (1 - u * u * (1 - u * u * (1 - u * u * (1 / 132)) * (1 / 90)) * (1 / 56)) *
      (1 / 30)) * (1 / 12)) / 2| ≤ 2 := by
    refine (abs_sub _ _).trans ?_
    rw [abs_div, abs_mul, abs_one, abs_two]
    have hprod := mul_le_mul hv hS₁ (abs_nonneg _) (by norm_num)
    linarith
  obtain ⟨c, hc, hnear⟩ := near_one.sllsub hproduct.slldiv2 hsum (by norm_num)
  refine ⟨c, ?_, hnear.mono (by norm_num)⟩
  simp only [sllcosReduced, hr₅, hr₄, hr₃, hr₂, hr₁, Option.bind_eq_bind, Option.bind_some, hc]

/-- **The computed sine** is near to its series. -/
theorem sllsinReduced_series (hx : |x| ≤ 4761387782) :
    ∃ s, sllsinReduced x = some s ∧ Near s (sinSeries (x / 2 ^ 32)) (4 / 2 ^ 32) := by
  have hu := abs_value_le hx
  have hv := abs_square_le hu
  have hx2 := near_square hx
  have hself := near_self x
  generalize (x : ℝ) / 2 ^ 32 = u at hu hv hx2 hself ⊢
  have h156 : Near CONST_1_156 (1 / 156) (1 / 2 ^ 32) := near_recip 156 (by norm_num) (by norm_num) rfl
  have h110 : Near CONST_1_110 (1 / 110) (1 / 2 ^ 32) := near_recip 110 (by norm_num) (by norm_num) rfl
  have h72 : Near CONST_1_72 (1 / 72) (1 / 2 ^ 32) := near_recip 72 (by norm_num) (by norm_num) rfl
  have h42 : Near CONST_1_42 (1 / 42) (1 / 2 ^ 32) := near_recip 42 (by norm_num) (by norm_num) rfl
  have h20 : Near CONST_1_20 (1 / 20) (1 / 2 ^ 32) := near_recip 20 (by norm_num) (by norm_num) rfl
  have h6 : Near CONST_1_6 (1 / 6) (1 / 2 ^ 32) := near_recip 6 (by norm_num) (by norm_num) rfl
  obtain ⟨r₅, hr₅, hnear₅, hS₅⟩ := firstStep_spec hself hu hx2 hv h156 (by norm_num)
  obtain ⟨r₄, hr₄, hnear₄⟩ := seriesStep_spec hself hu hx2 hv hnear₅ hS₅ h110 (by norm_num)
  have hS₄ := abs_step_le (C := 1 / 110) hu hv hS₅ (by norm_num)
  obtain ⟨r₃, hr₃, hnear₃⟩ := seriesStep_spec hself hu hx2 hv hnear₄ hS₄ h72 (by norm_num)
  have hS₃ := abs_step_le (C := 1 / 72) hu hv hS₄ (by norm_num)
  obtain ⟨r₂, hr₂, hnear₂⟩ := seriesStep_spec hself hu hx2 hv hnear₃ hS₃ h42 (by norm_num)
  have hS₂ := abs_step_le (C := 1 / 42) hu hv hS₃ (by norm_num)
  obtain ⟨r₁, hr₁, hnear₁⟩ := seriesStep_spec hself hu hx2 hv hnear₂ hS₂ h20 (by norm_num)
  have hS₁ := abs_step_le (C := 1 / 20) hu hv hS₂ (by norm_num)
  obtain ⟨s, hs, hnear⟩ := seriesStep_spec hself hu hx2 hv hnear₁ hS₁ h6 (by norm_num)
  refine ⟨s, ?_, hnear⟩
  simp only [sllsinReduced, hr₅, hr₄, hr₃, hr₂, hr₁, Option.bind_eq_bind, Option.bind_some, hs]

end Reduced

/-! ## Taylor -/

section Taylor

open Complex Finset

/-- The two polynomials are the first terms of the exponential on the imaginary axis. -/
theorem sum_exp_imaginary (u : ℝ) :
    ∑ m ∈ range 13, ((u : ℂ) * I) ^ m / m.factorial = (cosTaylor u : ℂ) + (sinTaylor u : ℂ) * I := by
  have heven (j : ℕ) : ((u : ℂ) * I) ^ (2 * j) = (-1) ^ j * u ^ (2 * j) := by
    rw [mul_pow, pow_mul I, I_sq, mul_comm]
  have hodd (j : ℕ) : ((u : ℂ) * I) ^ (2 * j + 1) = (-1) ^ j * u ^ (2 * j + 1) * I := by
    rw [pow_succ, heven, pow_succ]
    ring
  have hpairs : ∑ m ∈ range 13, ((u : ℂ) * I) ^ m / m.factorial =
      ∑ j ∈ range 7, (-1) ^ j * (u : ℂ) ^ (2 * j) / (2 * j).factorial +
        (∑ j ∈ range 6, (-1) ^ j * (u : ℂ) ^ (2 * j + 1) / (2 * j + 1).factorial) * I := by
    simp only [← heven, sum_mul, div_mul_eq_mul_div, ← hodd]
    simp only [sum_range_succ, range_zero, sum_empty]
    norm_num
    ring
  rw [hpairs]
  unfold cosTaylor sinTaylor
  simp only [sum_range_succ, range_zero, sum_empty, Nat.factorial]
  push_cast
  ring

theorem taylor_error {u : ℝ} (hu : |u| ≤ 111 / 100) :
    |Real.cos u - cosTaylor u| ≤ 1 / 2 ^ 29 ∧ |Real.sin u - sinTaylor u| ≤ 1 / 2 ^ 29 := by
  have hnorm : ‖(u : ℂ) * I‖ = |u| := by simp
  have hsmall : ‖(u : ℂ) * I‖ / (13 : ℕ).succ ≤ 1 / 2 := by
    rw [hnorm]
    norm_num
    linarith
  have hbound := exp_bound' hsmall
  have hvalue : exp ((u : ℂ) * I) - ∑ m ∈ range 13, ((u : ℂ) * I) ^ m / m.factorial =
      ((Real.cos u - cosTaylor u : ℝ) : ℂ) + ((Real.sin u - sinTaylor u : ℝ) : ℂ) * I := by
    rw [sum_exp_imaginary, exp_mul_I]
    push_cast
    ring
  have hrest : ‖(u : ℂ) * I‖ ^ 13 / (13 : ℕ).factorial * 2 ≤ 1 / 2 ^ 29 := by
    rw [hnorm]
    have hpow : |u| ^ 13 ≤ (111 / 100) ^ 13 := pow_le_pow_left₀ (abs_nonneg u) hu 13
    calc |u| ^ 13 / (13 : ℕ).factorial * 2 ≤ (111 / 100) ^ 13 / (13 : ℕ).factorial * 2 := by gcongr
      _ ≤ 1 / 2 ^ 29 := by norm_num [Nat.factorial]
  have hparts (a b : ℝ) (h : ‖(a : ℂ) + b * I‖ ≤ 1 / 2 ^ 29) : |a| ≤ 1 / 2 ^ 29 ∧ |b| ≤ 1 / 2 ^ 29 := by
    constructor
    · simpa using (abs_re_le_norm _).trans h
    · simpa using (abs_im_le_norm _).trans h
  exact hparts _ _ (hvalue ▸ hbound.trans hrest)

end Taylor

theorem cosSeries_eq (u : ℝ) : cosSeries u = cosTaylor u := by
  unfold cosSeries cosTaylor
  ring

/-- What the innermost term of the sine lacks is small. -/
theorem sinSeries_near {u : ℝ} (hu : |u| ≤ 111 / 100) : |sinTaylor u - sinSeries u| ≤ 1 / 2 ^ 29 := by
  have hdifference : sinTaylor u - sinSeries u = -(u ^ 12 / 6227020800) := by
    unfold sinSeries sinTaylor
    ring
  rw [hdifference, abs_neg, abs_div, abs_pow]
  have hpow : |u| ^ 12 ≤ (111 / 100) ^ 12 := pow_le_pow_left₀ (abs_nonneg u) hu 12
  calc |u| ^ 12 / |6227020800| ≤ (111 / 100) ^ 12 / |6227020800| := by gcongr
    _ ≤ 1 / 2 ^ 29 := by norm_num [abs_of_pos]

/-! ## The squares -/

/-- **The computed cosine.** -/
theorem sllcosReduced_near {x : ℤ} (hx : |x| ≤ 4761387782) :
    ∃ c, sllcosReduced x = some c ∧ Near c (Real.cos (x / 2 ^ 32)) (1 / 2 ^ 27) := by
  obtain ⟨c, hc, hnear⟩ := sllcosReduced_series hx
  have htaylor := (taylor_error (abs_value_le hx)).1
  rw [cosSeries_eq] at hnear
  rw [abs_sub_comm] at htaylor
  exact ⟨c, hc, (hnear.trans htaylor).mono (by norm_num)⟩

/-- **The computed sine.** -/
theorem sllsinReduced_near {x : ℤ} (hx : |x| ≤ 4761387782) :
    ∃ s, sllsinReduced x = some s ∧ Near s (Real.sin (x / 2 ^ 32)) (1 / 2 ^ 27) := by
  obtain ⟨s, hs, hnear⟩ := sllsinReduced_series hx
  have htaylor := (taylor_error (abs_value_le hx)).2
  have hlast := sinSeries_near (abs_value_le hx)
  rw [abs_sub_comm] at htaylor hlast
  exact ⟨s, hs, ((hnear.trans hlast).trans htaylor).mono (by norm_num)⟩

theorem Near.square {y : ℤ} {Y : ℝ} (h : Near y Y (1 / 2 ^ 27)) (hY : |Y| ≤ 1) : |((y : ℝ) / 2 ^ 32) ^ 2 - Y ^ 2| ≤ 1 / 2 ^ 25 := by
  have hvalue := h.abs_le hY
  have hfactor : ((y : ℝ) / 2 ^ 32) ^ 2 - Y ^ 2 = (y / 2 ^ 32 - Y) * (y / 2 ^ 32 + Y) := by ring
  have hsum : |(y : ℝ) / 2 ^ 32 + Y| ≤ 4 := (abs_add_le _ _).trans (by linarith)
  rw [hfactor, abs_mul]
  calc |(y : ℝ) / 2 ^ 32 - Y| * |(y : ℝ) / 2 ^ 32 + Y| ≤ 1 / 2 ^ 27 * 4 := mul_le_mul h hsum (abs_nonneg _) (by norm_num)
    _ = 1 / 2 ^ 25 := by norm_num

/-- The squares of the two series add up to 1. -/
theorem reduced_squares {x : ℤ} (hx : |x| ≤ 4761387782) : ∃ s c, sllsinReduced x = some s ∧ sllcosReduced x = some c ∧
    Fits (-s) ∧ Fits (-c) ∧ |((s : ℚ) / 2 ^ 32) ^ 2 + ((c : ℚ) / 2 ^ 32) ^ 2 - 1| ≤ 1 / 2 ^ 16 := by
  obtain ⟨s, hs, hsin⟩ := sllsinReduced_near hx
  obtain ⟨c, hc, hcos⟩ := sllcosReduced_near hx
  have hsin1 := Real.abs_sin_le_one ((x : ℝ) / 2 ^ 32)
  have hcos1 := Real.abs_cos_le_one ((x : ℝ) / 2 ^ 32)
  refine ⟨s, c, hs, hc, hsin.neg.fits (abs_neg (Real.sin _) ▸ hsin1) (by norm_num),
    hcos.neg.fits (abs_neg (Real.cos _) ▸ hcos1) (by norm_num), ?_⟩
  have hsinSquare := abs_le.mp (hsin.square hsin1)
  have hcosSquare := abs_le.mp (hcos.square hcos1)
  have hone := Real.sin_sq_add_cos_sq ((x : ℝ) / 2 ^ 32)
  have hreal : |((s : ℝ) / 2 ^ 32) ^ 2 + ((c : ℝ) / 2 ^ 32) ^ 2 - 1| ≤ 1 / 2 ^ 16 := by
    rw [abs_le]
    constructor <;> linarith
  have hcast : ((|((s : ℚ) / 2 ^ 32) ^ 2 + ((c : ℚ) / 2 ^ 32) ^ 2 - 1| : ℚ) : ℝ) ≤ ((1 / 2 ^ 16 : ℚ) : ℝ) := by
    push_cast
    exact hreal
  exact Rat.cast_le.mp hcast

/-- **`sllsin` and `sllcos` choose the same quadrant**: their squares add up to 1, for every argument. -/
theorem sllsin_sllcos {x : ℤ} (hx : Fits x) : ∃ s c, sllsin x = some s ∧ sllcos x = some c ∧
    |((s : ℚ) / 2 ^ 32) ^ 2 + ((c : ℚ) / 2 ^ 32) ^ 2 - 1| ≤ 1 / 2 ^ 16 := by
  obtain ⟨i, r, hquadrant, hr⟩ := quadrant_spec hx
  obtain ⟨s, c, hs, hc, hsneg, hcneg, hsquares⟩ := reduced_squares hr
  have hsneg' : sllneg s = some (-s) := signed_of_fits hsneg
  have hcneg' : sllneg c = some (-c) := signed_of_fits hcneg
  have hneg (a : ℤ) : (((-a : ℤ) : ℚ) / 2 ^ 32) ^ 2 = ((a : ℚ) / 2 ^ 32) ^ 2 := by
    push_cast
    ring
  have hswap : |((c : ℚ) / 2 ^ 32) ^ 2 + ((s : ℚ) / 2 ^ 32) ^ 2 - 1| ≤ 1 / 2 ^ 16 := by
    rwa [add_comm (((c : ℚ) / 2 ^ 32) ^ 2)]
  unfold sllsin sllcos
  simp only [hquadrant, hs, hc, hsneg', hcneg', Option.bind_eq_bind, Option.bind_some]
  split_ifs
  · exact ⟨c, -s, rfl, rfl, by rwa [hneg]⟩
  · exact ⟨-s, -c, rfl, rfl, by rwa [hneg, hneg]⟩
  · exact ⟨-c, s, rfl, rfl, by rwa [hneg]⟩
  · exact ⟨s, c, rfl, rfl, hsquares⟩

/-- The least argument. -/
theorem sllsin_sllcos_least : ∃ s c, sllsin (-2 ^ 63) = some s ∧ sllcos (-2 ^ 63) = some c ∧
    |((s : ℚ) / 2 ^ 32) ^ 2 + ((c : ℚ) / 2 ^ 32) ^ 2 - 1| ≤ 1 / 2 ^ 16 :=
  sllsin_sllcos (by decide)

end CoreLink.FpMath
