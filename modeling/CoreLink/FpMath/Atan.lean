/-
# `CoreLink.FpMath.Atan` — `sllatan`: the fold of the argument, and two iterations of the subtraction formula.

An iteration takes the first two terms of the series for the angle, and goes on with the tangent of what is missing. Beside the
roundings nothing is lost, and after two of them the series is good to `2 ^ (-21)` on arguments up to 1.

The fold is where the function goes wrong. It should leave the arguments between `-1` and 1 as they are, but its first test is
`x < CONST_1`; and where the argument is at most `-1` the angle it adds to is that of the right side.
-/
import CoreLink.FpMath.Inverse
import CoreLink.FpMath.Trig
import CoreLink.Lib.Arctan

namespace CoreLink.FpMath

open CoreLink.Lib

/-! ## The function -/

/-- `sllmul(x, _sllsub(CONST_1, sllmul(x, sllmul(x, CONST_1_3))))`. -/
def atanTerm (x : ℤ) : Option ℤ := (sllsub CONST_1 (sllmul x (sllmul x CONST_1_3))).map (sllmul x)

/-- `t = _slldiv(_sllsin(a), _sllcos(a))`. -/
def tangent (a : ℤ) : Option ℤ := do
  let s ← sllsinReduced a
  let c ← sllcosReduced a
  slldiv s c

/-- `x = _slldiv(_sllsub(x, t), _slladd(CONST_1, sllmul(x, t)))`. -/
def tangentLeft (x t : ℤ) : Option ℤ := do
  let n ← sllsub x t
  let d ← slladd CONST_1 (sllmul x t)
  slldiv n d

/-- The terms for an argument that is folded. -/
def atanSum (x : ℤ) : Option ℤ := do
  let a ← atanTerm x
  let retval := a
  let t ← tangent a
  let x ← tangentLeft x t
  let a ← atanTerm x
  let retval ← slladd retval a
  let t ← tangent a
  let x ← tangentLeft x t
  let a ← atanTerm x
  slladd retval a

/-- **`sllatan`.** Its first test has `CONST_1` where the comment beside it has `-1`. -/
def sllatan (x : ℤ) : Option ℤ :=
  if x < CONST_1 then do
    let x ← sllinv x
    let retval ← atanSum x
    slladd CONST_PI_2 retval
  else if x > CONST_1 then do
    let x ← sllinv x
    let retval ← atanSum x
    sllsub CONST_PI_2 retval
  else atanSum x

/-! ## The terms -/

/-- The cubic polynomial has its greatest value at 1. -/
theorem abs_cubic_le {Z : ℝ} (hZ : |Z| ≤ 101 / 100) : |Z * (1 - Z * (Z * (1 / 3)))| ≤ 2 / 3 := by
  obtain ⟨hlow, hhigh⟩ := abs_le.mp hZ
  have htop : 0 ≤ (Z - 1) ^ 2 * (Z + 2) := mul_nonneg (sq_nonneg _) (by linarith)
  have hbottom : 0 ≤ (Z + 1) ^ 2 * (2 - Z) := mul_nonneg (sq_nonneg _) (by linarith)
  rw [abs_le]
  constructor <;> linarith

/-- **A term** is the cubic polynomial. -/
theorem atanTerm_near {x : ℤ} {Z : ℝ} (hx : Near x Z 0) (hZ : |Z| ≤ 101 / 100) :
    ∃ a, atanTerm x = some a ∧ Near a (Z * (1 - Z * (Z * (1 / 3)))) (8 / 2 ^ 32) := by
  have hthird : Near CONST_1_3 (1 / 3) (1 / 2 ^ 32) := near_recip 3 (by norm_num) (by norm_num) rfl
  have h13 : |(1 / 3 : ℝ)| ≤ 1 / 3 := by norm_num
  have hinner : |Z * (1 / 3)| ≤ 1 / 2 := by
    rw [abs_mul]
    calc |Z| * |(1 / 3 : ℝ)| ≤ 101 / 100 * (1 / 3) := mul_le_mul hZ h13 (abs_nonneg _) (by norm_num)
      _ ≤ 1 / 2 := by norm_num
  have hsquare : |Z * (Z * (1 / 3))| ≤ 1 := by
    rw [abs_mul]
    calc |Z| * |Z * (1 / 3)| ≤ 101 / 100 * (1 / 2) := mul_le_mul hZ hinner (abs_nonneg _) (by norm_num)
      _ ≤ 1 := by norm_num
  have hone : |(1 : ℝ) - Z * (Z * (1 / 3))| ≤ 2 := by
    calc |(1 : ℝ) - Z * (Z * (1 / 3))| ≤ |1| + |Z * (Z * (1 / 3))| := abs_sub _ _
      _ ≤ 2 := by linarith [(abs_one : |(1 : ℝ)| = 1)]
  have hfirst := (hx.sllmul hthird hZ h13 (by norm_num) (by norm_num)).mono (by norm_num : _ ≤ (3 : ℝ) / 2 ^ 32)
  have hsecond := (hx.sllmul hfirst hZ hinner (by norm_num) (by norm_num)).mono (by norm_num : _ ≤ (5 : ℝ) / 2 ^ 32)
  obtain ⟨d, hd, hdiff⟩ := near_one.sllsub hsecond hone (by norm_num)
  refine ⟨sllmul x d, ?_, (hx.sllmul hdiff hZ hone (by norm_num) (by norm_num)).mono (by norm_num)⟩
  rw [atanTerm, hd, Option.map_some]

/-! ## Quotients -/

/-- **A quotient** of numbers of moderate size. -/
theorem slldiv_near {x y : ℤ} {X Y : ℝ} (hx : Near x X 0) (hy : Near y Y 0) (hX : |X| ≤ 2) (hlow : 1 / 16 ≤ Y) (hhigh : Y ≤ 4) :
    ∃ q, slldiv x y = some q ∧ Near q (X / Y) (128 / 2 ^ 32) := by
  have hxvalue : (x : ℝ) = X * 2 ^ 32 := by
    have hzero := abs_nonpos_iff.mp hx
    field_simp at hzero
    linarith
  have hyvalue : (y : ℝ) = Y * 2 ^ 32 := by
    have hzero := abs_nonpos_iff.mp hy
    field_simp at hzero
    linarith
  have hxabs : |x| ≤ 2 ^ 33 := by
    have hreal : |(x : ℝ)| ≤ 2 ^ 33 := by
      rw [hxvalue, abs_mul, abs_of_pos (by positivity : (0 : ℝ) < 2 ^ 32)]
      linarith
    exact_mod_cast hreal
  have hylow : (2 : ℤ) ^ 28 ≤ y := by
    have hreal : (2 : ℝ) ^ 28 ≤ y := by linarith
    exact_mod_cast hreal
  have hyhigh : y ≤ (2 : ℤ) ^ 34 := by
    have hreal : (y : ℝ) ≤ 2 ^ 34 := by linarith
    exact_mod_cast hreal
  obtain ⟨q, hq, hspec⟩ := slldiv_spec (fits_of_abs hxabs (by norm_num)) (by linarith) (by linarith) (by linarith)
  refine ⟨q, hq, ?_⟩
  have hreal : |(y : ℝ) * q - x * 2 ^ 32| * 2 ^ 32 ≤ |(x : ℝ)| * (4 * y + 2 ^ 33) + y * 2 ^ 32 := by exact_mod_cast hspec
  have hYpos : 0 < Y := by linarith
  have hrest : |Y * ((q : ℝ) / 2 ^ 32) - X| * 2 ^ 96 ≤ (|X| * (4 * Y + 2) + Y) * 2 ^ 64 := by
    have hleft : |(y : ℝ) * q - x * 2 ^ 32| = |Y * ((q : ℝ) / 2 ^ 32) - X| * 2 ^ 64 := by
      have hscale : (y : ℝ) * q - x * 2 ^ 32 = (Y * ((q : ℝ) / 2 ^ 32) - X) * 2 ^ 64 := by
        rw [hxvalue, hyvalue]
        ring
      rw [hscale, abs_mul, abs_of_pos (by positivity : (0 : ℝ) < 2 ^ 64)]
    have hright : |(x : ℝ)| = |X| * 2 ^ 32 := by
      rw [hxvalue, abs_mul, abs_of_pos (by positivity : (0 : ℝ) < 2 ^ 32)]
    rw [hleft, hright, hyvalue] at hreal
    linarith
  have hbound : |X| * (4 * Y + 2) + Y ≤ 128 * Y := by
    have hmul : |X| * (4 * Y + 2) ≤ 2 * (4 * Y + 2) := mul_le_mul_of_nonneg_right hX (by linarith)
    linarith
  have hquotient : (q : ℝ) / 2 ^ 32 - X / Y = (Y * ((q : ℝ) / 2 ^ 32) - X) / Y := by field_simp
  rw [Near, hquotient, abs_div, abs_of_pos hYpos, div_le_iff₀ hYpos]
  linarith

/-- Moving both parts of a quotient. -/
theorem quotient_moved {s c S C E : ℝ} (hs : |s - S| ≤ E) (hc : |c - C| ≤ E) (hS : |S| ≤ 1) (hC : |C| ≤ 1)
    (hcC : 1 / 2 ≤ c * C) : |s / c - S / C| ≤ 4 * E := by
  have hcne : c ≠ 0 := by
    rintro rfl
    norm_num at hcC
  have hCne : C ≠ 0 := by
    rintro rfl
    norm_num at hcC
  have hsplit : s / c - S / C = ((s - S) * C - S * (c - C)) / (c * C) := by
    field_simp
    ring
  have htop : |(s - S) * C - S * (c - C)| ≤ 2 * E := by
    have hE : 0 ≤ E := (abs_nonneg _).trans hs
    calc |(s - S) * C - S * (c - C)| ≤ |(s - S) * C| + |S * (c - C)| := abs_sub _ _
      _ = |s - S| * |C| + |S| * |c - C| := by rw [abs_mul, abs_mul]
      _ ≤ E * 1 + 1 * E := add_le_add (mul_le_mul hs hC (abs_nonneg C) hE) (mul_le_mul hS hc (abs_nonneg _) zero_le_one)
      _ = 2 * E := by ring
  have hpos : 0 < c * C := by linarith
  rw [hsplit, abs_div, abs_of_pos hpos, div_le_iff₀ hpos]
  nlinarith [abs_nonneg (s - S)]

/-! ## An iteration -/

/-- The angle of a term. -/
theorem term_angle {a : ℤ} {Z A : ℝ} (ha : Near a (Z * (1 - Z * (Z * (1 / 3)))) (8 / 2 ^ 32)) (hZ : |Z| ≤ 101 / 100)
    (hA : (a : ℝ) / 2 ^ 32 = A) : |A| ≤ 68 / 100 := by
  rw [← hA]
  exact (ha.abs_le (abs_cubic_le hZ)).trans (by norm_num)

section Angle

variable {A : ℝ}

theorem cos_ge (hA : |A| ≤ 68 / 100) : 768 / 1000 ≤ Real.cos A := by
  have hsquare : A ^ 2 ≤ (68 / 100) ^ 2 := by
    rw [← sq_abs]
    exact pow_le_pow_left₀ (abs_nonneg A) hA 2
  have hcos := Real.one_sub_sq_div_two_le_cos (x := A)
  linarith

theorem abs_tan_le (hA : |A| ≤ 68 / 100) : |Real.tan A| ≤ 89 / 100 := by
  have hcos := cos_ge hA
  have hsin : |Real.sin A| ≤ 68 / 100 := Real.abs_sin_le_abs.trans hA
  rw [Real.tan_eq_sin_div_cos, abs_div, abs_of_pos (by linarith : 0 < Real.cos A), div_le_iff₀ (by linarith)]
  linarith

/-- **The computed tangent.** -/
theorem tangent_near {a : ℤ} (ha : (a : ℝ) / 2 ^ 32 = A) (hA : |A| ≤ 68 / 100) :
    ∃ t, tangent a = some t ∧ Near t (Real.tan A) (1 / 2 ^ 24) := by
  have hbound : |a| ≤ 4761387782 := by
    rw [← ha, abs_div, abs_of_pos (by positivity : (0 : ℝ) < 2 ^ 32), div_le_iff₀ (by positivity)] at hA
    have hreal : |(a : ℝ)| ≤ 4761387782 := hA.trans (by norm_num)
    exact_mod_cast hreal
  obtain ⟨s, hs, hsin⟩ := sllsinReduced_near hbound
  obtain ⟨c, hc, hcos⟩ := sllcosReduced_near hbound
  rw [ha] at hsin hcos
  have hsin1 := Real.abs_sin_le_one A
  have hcos1 := Real.abs_cos_le_one A
  have hcosge := cos_ge hA
  have hcclose := abs_le.mp hcos
  have hcge : 767 / 1000 ≤ (c : ℝ) / 2 ^ 32 := by linarith
  have hcle : (c : ℝ) / 2 ^ 32 ≤ 4 := by linarith [(abs_le.mp hcos1).2]
  obtain ⟨t, ht, hquotient⟩ := slldiv_near (near_self s) (near_self c) ((hsin.abs_le hsin1).trans (by norm_num)) (by linarith) hcle
  have hproduct : 1 / 2 ≤ (c : ℝ) / 2 ^ 32 * Real.cos A :=
    calc (1 : ℝ) / 2 ≤ 767 / 1000 * (768 / 1000) := by norm_num
      _ ≤ c / 2 ^ 32 * Real.cos A := mul_le_mul hcge hcosge (by norm_num) (by linarith)
  have hmoved := quotient_moved hsin hcos hsin1 hcos1 hproduct
  rw [← Real.tan_eq_sin_div_cos] at hmoved
  refine ⟨t, ?_, (hquotient.trans hmoved).mono (by norm_num)⟩
  simp only [tangent, hs, hc, Option.bind_eq_bind, Option.bind_some, ht]

/-- **What the angle leaves** of the argument. -/
theorem tangentLeft_near {x t : ℤ} {Z T : ℝ} (hx : Near x Z 0) (ht : Near t T 0) (hZ : |Z| ≤ 101 / 100) (hT : |T| ≤ 9 / 10) :
    ∃ x', tangentLeft x t = some x' ∧ Near x' ((Z - T) / (1 + Z * T)) (640 / 2 ^ 32) := by
  have hZT : |Z * T| ≤ 909 / 1000 := by
    rw [abs_mul]
    calc |Z| * |T| ≤ 101 / 100 * (9 / 10) := mul_le_mul hZ hT (abs_nonneg T) (by norm_num)
      _ = 909 / 1000 := by norm_num
  have hdiff : |Z - T| ≤ 2 := (abs_sub _ _).trans (by linarith)
  obtain ⟨n, hn, hnear⟩ := hx.sllsub ht hdiff (by norm_num)
  have hproduct := (hx.sllmul ht hZ hT (by norm_num) (by norm_num)).mono (by norm_num : _ ≤ (1 : ℝ) / 2 ^ 32)
  have hsum : |1 + Z * T| ≤ 2 := (abs_add_le _ _).trans (by linarith [(abs_one : |(1 : ℝ)| = 1)])
  obtain ⟨d, hd, hdnear⟩ := near_one.slladd hproduct hsum (by norm_num)
  obtain ⟨hZTlow, hZThigh⟩ := abs_le.mp hZT
  obtain ⟨D, hD⟩ : ∃ D, (d : ℝ) / 2 ^ 32 = D := ⟨_, rfl⟩
  have hdclose : |D - (1 + Z * T)| ≤ 1 / 2 ^ 32 := by
    rw [← hD]
    exact hdnear.mono (by norm_num)
  obtain ⟨hdlow, hdhigh⟩ := abs_le.mp hdclose
  have hDlow : 1 / 16 ≤ D := by linarith
  obtain ⟨x', hx', hquotient⟩ := slldiv_near (hnear.mono (by norm_num)) (hD ▸ near_self d) hdiff hDlow (by linarith)
  have hmoved : |(Z - T) / D - (Z - T) / (1 + Z * T)| ≤ 512 / 2 ^ 32 := by
    have hpos : 1 / 16 ≤ 1 + Z * T := by linarith
    have hsplit : (Z - T) / D - (Z - T) / (1 + Z * T) = (Z - T) * (1 + Z * T - D) / (D * (1 + Z * T)) := by
      have hDne : D ≠ 0 := by linarith
      have hne : 1 + Z * T ≠ 0 := by linarith
      field_simp
    have hprod : 1 / 256 ≤ D * (1 + Z * T) :=
      calc (1 : ℝ) / 256 = 1 / 16 * (1 / 16) := by norm_num
        _ ≤ D * (1 + Z * T) := mul_le_mul hDlow hpos (by norm_num) (by linarith)
    have htop : |(Z - T) * (1 + Z * T - D)| ≤ 2 * (1 / 2 ^ 32) := by
      rw [abs_mul, abs_sub_comm (1 + Z * T)]
      exact mul_le_mul hdiff hdclose (abs_nonneg _) (by norm_num)
    have hprodpos : 0 < D * (1 + Z * T) := by linarith
    rw [hsplit, abs_div, abs_of_pos hprodpos, div_le_iff₀ hprodpos]
    linarith
  refine ⟨x', ?_, (hquotient.trans hmoved).mono (by norm_num)⟩
  simp only [tangentLeft, hn, hd, Option.bind_eq_bind, Option.bind_some, hx']

end Angle

/-- **An iteration**: the angle and the arctangent of the new argument add up to that of the old one. -/
theorem iteration {x a : ℤ} {Z : ℝ} (hx : Near x Z 0) (hZ : |Z| ≤ 101 / 100)
    (ha : Near a (Z * (1 - Z * (Z * (1 / 3)))) (8 / 2 ^ 32)) :
    ∃ t x', tangent a = some t ∧ tangentLeft x t = some x' ∧
      |Real.arctan Z - a / 2 ^ 32 - Real.arctan (x' / 2 ^ 32)| ≤ 896 / 2 ^ 32 := by
  obtain ⟨A, hA⟩ : ∃ A, (a : ℝ) / 2 ^ 32 = A := ⟨_, rfl⟩
  have hangle := term_angle ha hZ hA
  obtain ⟨t, ht, htan⟩ := tangent_near hA hangle
  have hT : |(t : ℝ) / 2 ^ 32| ≤ 9 / 10 := (htan.abs_le (abs_tan_le hangle)).trans (by norm_num)
  obtain ⟨x', hx', hleft⟩ := tangentLeft_near hx (near_self t) hZ hT
  have hquarter : |A| < Real.pi / 2 := by linarith [Real.pi_gt_three]
  have hZT : -1 < Z * ((t : ℝ) / 2 ^ 32) := by
    have hproduct : |Z * ((t : ℝ) / 2 ^ 32)| ≤ 101 / 100 * (9 / 10) := by
      rw [abs_mul]
      exact mul_le_mul hZ hT (abs_nonneg _) (by norm_num)
    linarith [(abs_le.mp hproduct).1]
  have hstep := arctan_step hquarter htan hZT hleft
  rw [hA]
  exact ⟨t, x', ht, hx', hstep.trans (by norm_num)⟩

/-! ## The sum -/

/-- What the cubic polynomial leaves. -/
theorem abs_arctan_sub_term_le {a : ℤ} {Z b : ℝ} (hZ : |Z| ≤ b) (ha : Near a (Z * (1 - Z * (Z * (1 / 3)))) (8 / 2 ^ 32)) :
    |Real.arctan Z - a / 2 ^ 32| ≤ b ^ 5 / 5 + 8 / 2 ^ 32 := by
  have hrest : |cubicRest Z| ≤ b ^ 5 / 5 := by
    apply (abs_cubicRest_le Z).trans
    apply div_le_div_of_nonneg_right (pow_le_pow_left₀ (abs_nonneg Z) hZ 5) (by norm_num)
  have hcubic : Z * (1 - Z * (Z * (1 / 3))) = Real.arctan Z - cubicRest Z := by
    unfold cubicRest
    ring
  rw [hcubic] at ha
  have hsplit : Real.arctan Z - a / 2 ^ 32 = cubicRest Z - (a / 2 ^ 32 - (Real.arctan Z - cubicRest Z)) := by ring
  rw [hsplit]
  exact (abs_sub _ _).trans (add_le_add hrest ha)

/-- **The next argument** is far smaller. -/
theorem abs_next_le {x' a : ℤ} {Z b c : ℝ} (hZ : |Z| ≤ b) (ha : Near a (Z * (1 - Z * (Z * (1 / 3)))) (8 / 2 ^ 32))
    (hstep : |Real.arctan Z - a / 2 ^ 32 - Real.arctan (x' / 2 ^ 32)| ≤ 896 / 2 ^ 32) (hc : 0 ≤ c)
    (hbc : b ^ 5 / 5 + 904 / 2 ^ 32 < c - c ^ 3 / 3) : |(x' : ℝ) / 2 ^ 32| ≤ c := by
  have hterm := abs_arctan_sub_term_le hZ ha
  apply abs_le_of_abs_arctan hc
  have hsplit : Real.arctan ((x' : ℝ) / 2 ^ 32) =
      (Real.arctan Z - a / 2 ^ 32) - (Real.arctan Z - a / 2 ^ 32 - Real.arctan (x' / 2 ^ 32)) := by ring
  rw [hsplit]
  exact (abs_sub _ _).trans_lt (by linarith)

/-- **The sum of the terms** is the arctangent, for an argument up to 1. -/
theorem atanSum_near {x : ℤ} (hZ : |(x : ℝ) / 2 ^ 32| ≤ 101 / 100) :
    ∃ r, atanSum x = some r ∧ Near r (Real.arctan (x / 2 ^ 32)) (1 / 2 ^ 21) := by
  obtain ⟨a₀, ha₀, hnear₀⟩ := atanTerm_near (near_self x) hZ
  obtain ⟨t₀, x₁, ht₀, hx₁, hstep₀⟩ := iteration (near_self x) hZ hnear₀
  have hX₁ : |(x₁ : ℝ) / 2 ^ 32| ≤ 1 / 4 := abs_next_le hZ hnear₀ hstep₀ (by norm_num) (by norm_num)
  obtain ⟨a₁, ha₁, hnear₁⟩ := atanTerm_near (near_self x₁) (hX₁.trans (by norm_num))
  obtain ⟨t₁, x₂, ht₁, hx₂, hstep₁⟩ := iteration (near_self x₁) (hX₁.trans (by norm_num)) hnear₁
  have hX₂ : |(x₂ : ℝ) / 2 ^ 32| ≤ 1 / 100 := abs_next_le hX₁ hnear₁ hstep₁ (by norm_num) (by norm_num)
  obtain ⟨a₂, ha₂, hnear₂⟩ := atanTerm_near (near_self x₂) (hX₂.trans (by norm_num))
  have hlast := abs_arctan_sub_term_le hX₂ hnear₂
  -- the terms are added without rounding
  have hangle₀ := term_angle hnear₀ hZ rfl
  have hangle₁ := term_angle hnear₁ (hX₁.trans (by norm_num)) rfl
  have hangle₂ := term_angle hnear₂ (hX₂.trans (by norm_num)) rfl
  have hsum₁ := (abs_add_le _ _).trans (add_le_add hangle₀ hangle₁)
  obtain ⟨r₁, hr₁, hvalue₁⟩ := (near_self a₀).slladd (near_self a₁) hsum₁ (by norm_num)
  have hsum₂ := (abs_add_le _ _).trans (add_le_add hsum₁ hangle₂)
  obtain ⟨r, hr, hvalue⟩ := hvalue₁.slladd (near_self a₂) hsum₂ (by norm_num)
  refine ⟨r, ?_, ?_⟩
  · simp only [atanSum, ha₀, ht₀, hx₁, ha₁, hr₁, ht₁, hx₂, ha₂, Option.bind_eq_bind, Option.bind_some, hr]
  · have hdistance : |(a₀ : ℝ) / 2 ^ 32 + a₁ / 2 ^ 32 + a₂ / 2 ^ 32 - Real.arctan (x / 2 ^ 32)| ≤ 1801 / 2 ^ 32 := by
      have hbounds₀ := abs_le.mp hstep₀
      have hbounds₁ := abs_le.mp hstep₁
      have hbounds₂ := abs_le.mp hlast
      rw [abs_le]
      constructor <;> linarith
    exact (hvalue.trans hdistance).mono (by norm_num)

/-! ## The fold -/

/-- **The reciprocal** of a number that is at least 1, and of its opposite. -/
theorem sllinv_near {x : ℤ} (hlow : 2 ^ 32 ≤ x) (hhigh : x < 2 ^ 63) :
    ∃ u, sllinv x = some u ∧ sllinv (-x) = some (-u) ∧ Near u ((x : ℝ) / 2 ^ 32)⁻¹ (6 / 2 ^ 32) := by
  obtain ⟨u, hinv, hu, hleft, hright⟩ := sllinvPositive_spec (by linarith) hhigh
  have hubound := le_of_left (by linarith) hu hleft
  obtain ⟨hpos, hneg⟩ := sllinv_neg (by linarith) hhigh hinv ⟨by omega, by omega⟩
  refine ⟨u, hpos, hneg, ?_⟩
  have hX : (1 : ℝ) ≤ x / 2 ^ 32 := by
    rw [le_div_iff₀ (by positivity), one_mul]
    exact_mod_cast hlow
  have hleft' : -(2 : ℝ) ^ 33 ≤ 2 ^ 64 - x * u := by
    unfold left at hleft
    exact_mod_cast hleft
  have hright' : (2 : ℝ) ^ 64 - x * u ≤ 4 * x + 2 ^ 33 := by
    unfold left at hright
    exact_mod_cast hright
  obtain ⟨X, hXdef⟩ : ∃ X, (x : ℝ) / 2 ^ 32 = X := ⟨_, rfl⟩
  have hx : (x : ℝ) = X * 2 ^ 32 := by
    rw [← hXdef]
    field_simp
  rw [hXdef] at hX ⊢
  have hXpos : 0 < X := by linarith
  have hscaled : (x : ℝ) * u = X * (u / 2 ^ 32) * 2 ^ 64 := by
    rw [hx]
    ring
  have hquotient : (u : ℝ) / 2 ^ 32 - X⁻¹ = (X * (u / 2 ^ 32) - 1) / X := by field_simp
  rw [hscaled, hx] at hright'
  rw [hscaled] at hleft'
  rw [Near, hquotient, abs_div, abs_of_pos hXpos, div_le_iff₀ hXpos, abs_le]
  constructor <;> linarith

theorem near_quarter : Near CONST_PI_2 (Real.pi / 2) (1 / 2 ^ 20) := by
  have hlow := Real.pi_gt_d6
  have hhigh := Real.pi_lt_d6
  rw [Near, abs_le]
  unfold CONST_PI_2
  constructor <;> norm_num <;> linarith

/-- The terms for a reciprocal, which has been rounded. -/
theorem atanSum_recip {u : ℤ} {Y : ℝ} (hu : Near u Y (6 / 2 ^ 32)) (hY : |Y| ≤ 1) :
    ∃ g, atanSum u = some g ∧ Near g (Real.arctan Y) (1 / 2 ^ 20) := by
  obtain ⟨g, hg, hnear⟩ := atanSum_near ((hu.abs_le hY).trans (by norm_num))
  have hmoved : |Real.arctan ((u : ℝ) / 2 ^ 32) - Real.arctan Y| ≤ 6 / 2 ^ 32 := (abs_arctan_sub_le _ _).trans hu
  exact ⟨g, hg, (hnear.trans hmoved).mono (by norm_num)⟩

theorem value_ge_one {x : ℤ} (hx : 2 ^ 32 ≤ x) : (1 : ℝ) ≤ x / 2 ^ 32 := by
  rw [le_div_iff₀ (by positivity), one_mul]
  exact_mod_cast hx

theorem abs_arctan_le_two (X : ℝ) : |Real.arctan X| ≤ 2 := by
  rw [abs_le]
  constructor <;> linarith [Real.neg_pi_div_two_lt_arctan X, Real.arctan_lt_pi_div_two X, Real.pi_lt_d6]

theorem abs_le_of_range {r : ℤ} (hlow : -1 ≤ (r : ℝ) / 2 ^ 32) (hhigh : (r : ℝ) / 2 ^ 32 ≤ CONST_PI_2 / 2 ^ 32 + 1 / 2 ^ 20) :
    |r| ≤ CONST_PI_2 + 2 ^ 12 := by
  rw [abs_le]
  constructor
  · have hreal : -(2 : ℝ) ^ 32 ≤ r := by linarith
    have hint : -(2 : ℤ) ^ 32 ≤ r := by exact_mod_cast hreal
    unfold CONST_PI_2
    omega
  · have hreal : (r : ℝ) ≤ CONST_PI_2 + 2 ^ 12 := by linarith
    exact_mod_cast hreal

/-- **The right side**: from 1 upward the result is the arctangent. -/
theorem sllatan_right {x : ℤ} (hlow : 2 ^ 32 ≤ x) (hhigh : x < 2 ^ 63) :
    ∃ r, sllatan x = some r ∧ |r| ≤ CONST_PI_2 + 2 ^ 12 ∧ Near r (Real.arctan (x / 2 ^ 32)) (1 / 2 ^ 19) := by
  have hX := value_ge_one hlow
  rcases hlow.eq_or_lt with hone | hlt
  · -- 1 itself is not folded
    obtain ⟨r, hr, hnear⟩ := atanSum_near (x := x) (by rw [← hone]; norm_num)
    have hvalue : Real.arctan ((x : ℝ) / 2 ^ 32) = Real.pi / 4 := by
      rw [← hone, ← Real.arctan_one]
      norm_num
    have hbounds := abs_le.mp hnear
    rw [hvalue] at hbounds
    have hpi := Real.pi_lt_d6
    have hpi' := Real.pi_gt_three
    refine ⟨r, ?_, abs_le_of_range (by linarith) ?_, hnear.mono (by norm_num)⟩
    · rw [sllatan, if_neg (by unfold CONST_1; omega), if_neg (by unfold CONST_1; omega), hr]
    · unfold CONST_PI_2
      norm_num at hbounds ⊢
      linarith
  · obtain ⟨u, hu, -, hrecip⟩ := sllinv_near hlow hhigh
    obtain ⟨X, hXdef⟩ : ∃ X, (x : ℝ) / 2 ^ 32 = X := ⟨_, rfl⟩
    rw [hXdef] at hX hrecip ⊢
    have hinv : 0 < X⁻¹ := by positivity
    have hinv1 : X⁻¹ ≤ 1 := inv_le_one_of_one_le₀ hX
    obtain ⟨g, hg, hnear⟩ := atanSum_recip hrecip (by rw [abs_of_pos hinv]; exact hinv1)
    have hangle : Real.pi / 2 - Real.arctan X⁻¹ = Real.arctan X := by
      rw [Real.arctan_inv_of_pos (by linarith)]
      ring
    obtain ⟨r, hr, hresult⟩ := near_quarter.sllsub hnear (hangle ▸ abs_arctan_le_two X) (by norm_num)
    have hexact : r = CONST_PI_2 - g := by
      unfold sllsub signed at hr
      split at hr
      · exact (Option.some.inj hr).symm
      · cases hr
    have hbounds := abs_le.mp hnear
    have hbounds' := abs_le.mp hresult
    have hpos : 0 < Real.arctan X⁻¹ := Real.arctan_pos.mpr hinv
    have hpos' : 0 < Real.arctan X := Real.arctan_pos.mpr (by linarith)
    refine ⟨r, ?_, abs_le_of_range ?_ ?_, (hangle ▸ hresult).mono (by norm_num)⟩
    · have hfirst : ¬ x < CONST_1 := by
        unfold CONST_1
        omega
      have hsecond : x > CONST_1 := by
        unfold CONST_1
        omega
      rw [sllatan, if_neg hfirst, if_pos hsecond, hu, Option.bind_eq_bind, Option.bind_some, hg,
        Option.bind_some, hr]
    · rw [hangle] at hbounds'
      linarith
    · rw [hexact]
      push_cast
      linarith

/-- **The left side**: from `-1` downward the result is the arctangent with the wrong sign. -/
theorem sllatan_left {x : ℤ} (hlow : 2 ^ 32 ≤ x) (hhigh : x < 2 ^ 63) :
    ∃ r, sllatan (-x) = some r ∧ Near r (Real.arctan (x / 2 ^ 32)) (1 / 2 ^ 19) := by
  have hX := value_ge_one hlow
  obtain ⟨u, -, hu, hrecip⟩ := sllinv_near hlow hhigh
  obtain ⟨X, hXdef⟩ : ∃ X, (x : ℝ) / 2 ^ 32 = X := ⟨_, rfl⟩
  rw [hXdef] at hX hrecip ⊢
  have hinv : 0 < X⁻¹ := by positivity
  have hinv1 : X⁻¹ ≤ 1 := inv_le_one_of_one_le₀ hX
  obtain ⟨g, hg, hnear⟩ := atanSum_recip hrecip.neg (by rw [abs_neg, abs_of_pos hinv]; exact hinv1)
  have hangle : Real.pi / 2 + Real.arctan (-X⁻¹) = Real.arctan X := by
    rw [Real.arctan_neg, Real.arctan_inv_of_pos (by linarith)]
    ring
  obtain ⟨r, hr, hresult⟩ := near_quarter.slladd hnear (hangle ▸ abs_arctan_le_two X) (by norm_num)
  have hfirst : -x < CONST_1 := by
    unfold CONST_1
    omega
  refine ⟨r, ?_, (hangle ▸ hresult).mono (by norm_num)⟩
  rw [sllatan, if_pos hfirst, hu, Option.bind_eq_bind, Option.bind_some, hg, Option.bind_some, hr]

/-! ## What an arctangent would be -/

/-- **An arctangent at one argument**: in the range, accurate, odd up to a unit, and in order with the results at all others. -/
def AtanMeets (x : ℤ) : Prop :=
  ∃ r, sllatan x = some r ∧ |r| ≤ CONST_PI_2 + 2 ^ 12 ∧ NearAt Real.arctan x r 16 ∧
    (∀ r', sllatan (-x) = some r' → |r + r'| ≤ 1) ∧
    ∀ y r', Fits y → sllatan y = some r' → (x ≤ y → r ≤ r' + 2 ^ 16) ∧ (y ≤ x → r' ≤ r + 2 ^ 16)

theorem sllatan_least : sllatan (-2 ^ 63) = none := rfl

theorem quarter_le_arctan {X : ℝ} (hX : 1 ≤ X) : Real.pi / 4 ≤ Real.arctan X := by
  rw [← Real.arctan_one]
  exact Real.arctan_mono hX

/-- From 1 upward the result is not odd. -/
theorem not_meets_right {x : ℤ} (hlow : 2 ^ 32 ≤ x) (hhigh : x < 2 ^ 63) : ¬ AtanMeets x := by
  rintro ⟨r, hr, -, hnear, hodd, -⟩
  obtain ⟨r', hr', hnear'⟩ := sllatan_left hlow hhigh
  have hsum : |((r + r' : ℤ) : ℝ)| ≤ 1 := by exact_mod_cast hodd r' hr'
  have hquarter := quarter_le_arctan (value_ge_one hlow)
  have hbounds := abs_le.mp hnear
  have hbounds' := abs_le.mp hnear'
  have hone := (abs_le.mp hsum).2
  push_cast at hone
  linarith [Real.pi_gt_three]

/-- From `-1` downward the result is not accurate. -/
theorem not_meets_left {x : ℤ} (hlow : 2 ^ 32 ≤ x) (hhigh : x < 2 ^ 63) : ¬ AtanMeets (-x) := by
  rintro ⟨r, hr, -, hnear, -, -⟩
  obtain ⟨r', hr', hnear'⟩ := sllatan_left hlow hhigh
  obtain rfl : r = r' := Option.some.inj (hr.symm.trans hr')
  have hneg : ((-x : ℤ) : ℝ) / 2 ^ 32 = -(x / 2 ^ 32) := by
    push_cast
    ring
  rw [NearAt, hneg, Real.arctan_neg] at hnear
  have hquarter := quarter_le_arctan (value_ge_one hlow)
  have hbounds := abs_le.mp hnear
  have hbounds' := abs_le.mp hnear'
  linarith [Real.pi_gt_three]

/-- Between `-1` and 1 the result is not in order with the one at the least argument. -/
theorem not_meets_middle {x : ℤ} (hx : |x| < 2 ^ 32) : ¬ AtanMeets x := by
  rintro ⟨r, hr, -, hnear, -, horder⟩
  obtain ⟨hxlow, hxhigh⟩ := abs_lt.mp hx
  obtain ⟨r', hr', hnear'⟩ := sllatan_left (x := 2 ^ 63 - 1) (by norm_num) (by norm_num)
  have hle := (horder _ r' (by decide) hr').2 (by omega)
  have hreal : (r' : ℝ) ≤ r + 2 ^ 16 := by exact_mod_cast hle
  -- the arctangent of the argument is at most a half of a quarter turn
  have hX : (x : ℝ) / 2 ^ 32 ≤ 1 := by
    rw [div_le_iff₀ (by positivity), one_mul]
    exact_mod_cast hxhigh.le
  have hsmall : Real.arctan ((x : ℝ) / 2 ^ 32) ≤ Real.pi / 4 := by
    rw [← Real.arctan_one]
    exact Real.arctan_mono hX
  -- the other one is nearly a quarter turn
  have hlarge : Real.pi / 2 - 1 / 2 ≤ Real.arctan (((2 ^ 63 - 1 : ℤ) : ℝ) / 2 ^ 32) := by
    have htwo : (2 : ℝ) ≤ ((2 ^ 63 - 1 : ℤ) : ℝ) / 2 ^ 32 := by norm_num
    have hinv := Real.arctan_inv_of_pos (x := 2) (by norm_num)
    have hhalf := abs_le.mp (abs_arctan_sub_le (2⁻¹ : ℝ) 0)
    rw [Real.arctan_zero] at hhalf
    norm_num at hhalf
    have hmono := Real.arctan_mono htwo
    linarith
  have hbounds := abs_le.mp hnear
  have hbounds' := abs_le.mp hnear'
  linarith [Real.pi_gt_three]

theorem value_mono {x y : ℤ} (h : x ≤ y) : (x : ℝ) / 2 ^ 32 ≤ y / 2 ^ 32 := by
  apply div_le_div_of_nonneg_right _ (by positivity)
  exact_mod_cast h

/-- Accurate results are in order. -/
theorem le_of_arctan_le {r r' : ℤ} {X Y : ℝ} (hr : Near r (Real.arctan X) (1 / 2 ^ 19)) (hr' : Near r' (Real.arctan Y) (1 / 2 ^ 19))
    (h : X ≤ Y) : r ≤ r' + 2 ^ 16 := by
  have hmono := Real.arctan_mono h
  have hbounds := abs_le.mp hr
  have hbounds' := abs_le.mp hr'
  have hreal : (r : ℝ) ≤ r' + 2 ^ 16 := by linarith
  exact_mod_cast hreal

/-- **`sllatan` is an arctangent at no argument.** From 1 upward it is in the range, accurate and in order, and only the other side
makes it fail; from `-1` downward it has the wrong sign. -/
theorem sllatan_meets {x : ℤ} (hx : Fits x) :
    ¬ AtanMeets x ∧
      (2 ^ 32 ≤ x → ∃ r, sllatan x = some r ∧ |r| ≤ CONST_PI_2 + 2 ^ 12 ∧ Near r (Real.arctan (x / 2 ^ 32)) (1 / 2 ^ 16) ∧
        ∀ y r', 2 ^ 32 ≤ y → Fits y → sllatan y = some r' → (x ≤ y → r ≤ r' + 2 ^ 16) ∧ (y ≤ x → r' ≤ r + 2 ^ 16)) ∧
      (x ≤ -2 ^ 32 → x ≠ -2 ^ 63 → ∃ r, sllatan x = some r ∧ Near r (-Real.arctan (x / 2 ^ 32)) (1 / 2 ^ 16)) := by
  obtain ⟨hlow, hhigh⟩ := hx
  refine ⟨?_, fun hright => ?_, fun hleft hne => ?_⟩
  · rcases lt_or_ge |x| (2 ^ 32) with hmiddle | houter
    · exact not_meets_middle hmiddle
    · rcases le_or_gt (2 ^ 32) x with hright | hneg
      · exact not_meets_right hright hhigh
      · rcases hlow.eq_or_lt with hleast | hlt
        · rintro ⟨r, hr, -⟩
          rw [← hleast, sllatan_least] at hr
          cases hr
        · have hside : 2 ^ 32 ≤ -x := by
            rcases abs_cases x with ⟨habs, _⟩ | ⟨habs, _⟩ <;> omega
          exact neg_neg x ▸ not_meets_left hside (by omega)
  · obtain ⟨r, hr, hrange, hnear⟩ := sllatan_right hright hhigh
    refine ⟨r, hr, hrange, hnear.mono (by norm_num), fun y r' hy hyfits hr' => ?_⟩
    obtain ⟨r'', hr'', -, hnear'⟩ := sllatan_right hy hyfits.2
    obtain rfl : r' = r'' := Option.some.inj (hr'.symm.trans hr'')
    constructor
    · exact fun hxy => le_of_arctan_le hnear hnear' (value_mono hxy)
    · exact fun hyx => le_of_arctan_le hnear' hnear (value_mono hyx)
  · obtain ⟨r, hr, hnear⟩ := sllatan_left (x := -x) (by omega) (by omega)
    rw [neg_neg] at hr
    have hneg : ((-x : ℤ) : ℝ) / 2 ^ 32 = -(x / 2 ^ 32) := by
      push_cast
      ring
    rw [hneg, Real.arctan_neg] at hnear
    exact ⟨r, hr, hnear.mono (by norm_num)⟩

/-- At 0. -/
theorem sllatan_meets_zero : ¬ AtanMeets 0 := (sllatan_meets (by decide)).1

/-- The result for `-1` is an eighth of a turn to the wrong side. -/
theorem sllatan_minus_one : ¬ ∀ x, Fits x → ∃ r, sllatan x = some r ∧ Near r (Real.arctan (x / 2 ^ 32)) (1 / 2 ^ 16) := by
  intro hall
  obtain ⟨r, hr, hnear⟩ := hall (-2 ^ 32) (by decide)
  obtain ⟨r', hr', hnear'⟩ := sllatan_left (x := 2 ^ 32) (by norm_num) (by norm_num)
  obtain rfl : r = r' := Option.some.inj (hr.symm.trans hr')
  have hone : ((2 ^ 32 : ℤ) : ℝ) / 2 ^ 32 = 1 := by norm_num
  have hminus : ((-2 ^ 32 : ℤ) : ℝ) / 2 ^ 32 = -1 := by norm_num
  rw [hone, Real.arctan_one] at hnear'
  rw [hminus, Real.arctan_neg, Real.arctan_one] at hnear
  have hbounds := abs_le.mp hnear
  have hbounds' := abs_le.mp hnear'
  linarith [Real.pi_gt_three]

end CoreLink.FpMath
