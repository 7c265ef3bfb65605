/-
# `CoreLink.FpMath.Sqrt` — `sllsqrt`: the square root by scaling and four steps of Newton's method.

The argument is brought between a half and two by powers of four, and the root of what comes out is scaled back. The steps start
at 1; the last one leaves less than 25 units, of which the scaling makes as many as it makes of the root.
-/
import CoreLink.FpMath.Inverse
import Mathlib.Algebra.Order.Ring.Pow
import Mathlib.Analysis.Real.Sqrt

namespace CoreLink.FpMath

open CoreLink.Lib

/-! ## The function -/

/-- `while (x >= CONST_2)`, with a bound on the rounds. -/
def scaleDown : ℕ → ℤ → ℤ → Option (ℤ × ℤ)
  | 0, _, _ => none
  | rounds + 1, x, n =>
    if CONST_2 ≤ x then (sllmul2 n).bind (scaleDown rounds (slldiv4 x)) else some (x, n)

/-- `while (x < CONST_1_2)`, with a bound on the rounds. -/
def scaleUp : ℕ → ℤ → ℤ → Option (ℤ × ℤ)
  | 0, _, _ => none
  | rounds + 1, x, n =>
    if x < CONST_1_2 then (sllmul4 x).bind fun x => scaleUp rounds x (slldiv2 n) else some (x, n)

/-- `xn - (xn - x / xn) / 2`. -/
def sqrtStep (x xn : ℤ) : Option ℤ := do
  let q ← slldiv x xn
  let d ← sllsub xn q
  sllsub xn (slldiv2 d)

/-- `sllsqrt` after the scaling. -/
def sqrtScaled (x n : ℤ) : Option ℤ :=
  if x = CONST_1 then some n
  else do
    let xn ← sqrtStep x CONST_1
    let xn ← sqrtStep x xn
    let xn ← sqrtStep x xn
    let xn ← sqrtStep x xn
    some (sllmul n xn)

/-- **`sllsqrt`**; neither loop takes more rounds than the word has bits. -/
def sllsqrt (x : ℤ) : Option ℤ :=
  if x ≤ CONST_0 ∨ x = CONST_1 then some x
  else do
    let (x, n) ← scaleDown 64 x CONST_1
    let (x, n) ← scaleUp 64 x n
    sqrtScaled x n

/-! ## Scaling -/

theorem scaleDown_eq {m : ℕ} : ∀ {rounds : ℕ} {x n : ℤ}, m < rounds → (m = 0 ∨ 2 ^ 31 * 4 ^ m ≤ x) → x < 2 ^ 33 * 4 ^ m → 0 ≤ n →
    n * 2 ^ m < 2 ^ 63 → scaleDown rounds x n = some (x / 4 ^ m, n * 2 ^ m) := by
  induction m with
  | zero =>
    intro rounds x n hrounds _ hx _ _
    obtain ⟨rounds, rfl⟩ := Nat.exists_eq_succ_of_ne_zero hrounds.ne'
    rw [pow_zero, mul_one] at hx
    rw [scaleDown, if_neg (by unfold CONST_2; omega), pow_zero, pow_zero, Int.ediv_one, mul_one]
  | succ m ih =>
    intro rounds x n hrounds hlow hx hn hfits
    obtain ⟨rounds, rfl⟩ := Nat.exists_eq_succ_of_ne_zero (Nat.ne_of_gt (Nat.zero_lt_of_lt hrounds))
    have hge : 2 ^ 33 * 4 ^ m ≤ x := by
      have h := hlow.resolve_left (Nat.succ_ne_zero m)
      rw [pow_succ (4 : ℤ)] at h
      linarith
    have hpos : (1 : ℤ) ≤ 4 ^ m := one_le_pow₀ (by norm_num)
    have hpos' : (1 : ℤ) ≤ 2 ^ m := one_le_pow₀ (by norm_num)
    have hdouble : n * 2 ^ (m + 1) = n * 2 * 2 ^ m := by ring
    have hmul : sllmul2 n = some (n * 2) := by
      have hle : n * 2 ≤ n * 2 * 2 ^ m := le_mul_of_one_le_right (by omega) hpos'
      exact signed_of_fits ⟨by omega, by omega⟩
    have hquarter : x / 4 < 2 ^ 33 * 4 ^ m := by
      rw [pow_succ (4 : ℤ)] at hx
      omega
    rw [scaleDown, if_pos (by unfold CONST_2; omega), hmul, Option.bind_some, slldiv4, slldiv2n,
      show (2 : ℤ) ^ 2 = 4 by norm_num, ih (by omega) (Or.inr (by omega)) hquarter (by omega) (hdouble ▸ hfits),
      Int.ediv_ediv_of_nonneg (by norm_num), hdouble, pow_succ']

theorem scaleUp_eq {m : ℕ} : ∀ {rounds : ℕ} {x n : ℤ}, m < rounds → 0 < x → 2 ^ 31 ≤ x * 4 ^ m → x * 4 ^ m < 2 ^ 33 →
    scaleUp rounds x n = some (x * 4 ^ m, n / 2 ^ m) := by
  induction m with
  | zero =>
    intro rounds x n hrounds _ hlow _
    obtain ⟨rounds, rfl⟩ := Nat.exists_eq_succ_of_ne_zero hrounds.ne'
    rw [pow_zero, mul_one] at hlow
    rw [scaleUp, if_neg (by unfold CONST_1_2; omega), pow_zero, pow_zero, Int.ediv_one, mul_one]
  | succ m ih =>
    intro rounds x n hrounds hx hlow hhigh
    obtain ⟨rounds, rfl⟩ := Nat.exists_eq_succ_of_ne_zero (Nat.ne_of_gt (Nat.zero_lt_of_lt hrounds))
    have hpos : (1 : ℤ) ≤ 4 ^ m := one_le_pow₀ (by norm_num)
    have hfour : x * 4 ^ (m + 1) = x * 4 * 4 ^ m := by ring
    rw [hfour] at hlow hhigh ⊢
    have hsmall : x * 4 ≤ x * 4 * 4 ^ m := le_mul_of_one_le_right (by omega) hpos
    have hmul : sllmul4 x = some (x * 4) := signed_of_fits ⟨by omega, by omega⟩
    rw [scaleUp, if_pos (by unfold CONST_1_2; omega), hmul, Option.bind_some, ih (by omega) (by omega) hlow hhigh, slldiv2,
      slldiv2n, Int.ediv_ediv_of_nonneg (by norm_num), pow_one, pow_succ']

/-- A number that is not too small is left alone. -/
theorem scaleUp_stop {rounds : ℕ} {x n : ℤ} (hx : 2 ^ 31 ≤ x) : scaleUp (rounds + 1) x n = some (x, n) :=
  if_neg (by unfold CONST_1_2; omega)

/-- A number that is not too great is left alone. -/
theorem scaleDown_stop {rounds : ℕ} {x n : ℤ} (hx : x < 2 ^ 33) : scaleDown (rounds + 1) x n = some (x, n) :=
  if_neg (by unfold CONST_2; omega)

/-- **What scaling does**: the argument is between a half and two, and the factor is a power of two. -/
theorem scale_spec {x : ℤ} (hpos : 0 < x) (hx : x < 2 ^ 63) :
    (∃ m : ℕ, m ≤ 15 ∧ 2 ^ 31 ≤ x / 4 ^ m ∧ x / 4 ^ m < 2 ^ 33 ∧
      (scaleDown 64 x CONST_1).bind (fun p => scaleUp 64 p.1 p.2) = some (x / 4 ^ m, 2 ^ 32 * 2 ^ m)) ∨
    (∃ m : ℕ, m ≤ 16 ∧ 2 ^ 31 ≤ x * 4 ^ m ∧ x * 4 ^ m < 2 ^ 33 ∧
      (scaleDown 64 x CONST_1).bind (fun p => scaleUp 64 p.1 p.2) = some (x * 4 ^ m, 2 ^ 32 / 2 ^ m)) := by
  obtain ⟨n, rfl⟩ := Int.eq_ofNat_of_zero_le hpos.le
  have hn : n ≠ 0 := by
    rintro rfl
    exact absurd hpos (lt_irrefl _)
  have hlow : ((2 ^ Nat.log 2 n : ℕ) : ℤ) ≤ n := Int.ofNat_le.mpr (Nat.pow_log_le_self 2 hn)
  have hhigh : (n : ℤ) < (2 ^ (Nat.log 2 n + 1) : ℕ) := Int.ofNat_lt.mpr (Nat.lt_pow_succ_log_self (by norm_num) n)
  have hlog : Nat.log 2 n < 63 := Nat.log_lt_of_lt_pow hn (by exact_mod_cast hx)
  push_cast at hlow hhigh
  have hfour : ∀ a b k : ℕ, a = b + 2 * k → (2 : ℤ) ^ a = 2 ^ b * 4 ^ k := fun a b k h => by
    rw [h, pow_add, pow_mul]
    norm_num
  rcases le_or_gt 31 (Nat.log 2 n) with hge | hlt
  · left
    obtain ⟨m, hm⟩ : ∃ m, m = (Nat.log 2 n - 31) / 2 := ⟨_, rfl⟩
    have hxlow : 2 ^ 31 * 4 ^ m ≤ (n : ℤ) :=
      ((hfour (31 + 2 * m) 31 m rfl).symm.trans_le (pow_le_pow_right₀ (by norm_num) (by omega))).trans hlow
    have hxhigh : (n : ℤ) < 2 ^ 33 * 4 ^ m :=
      hhigh.trans_le ((pow_le_pow_right₀ (by norm_num) (by omega)).trans_eq (hfour (33 + 2 * m) 33 m rfl))
    have hpow : (2 : ℤ) ^ m ≤ 2 ^ 15 := pow_le_pow_right₀ (by norm_num) (by omega)
    have hzlow : 2 ^ 31 ≤ (n : ℤ) / 4 ^ m := (Int.le_ediv_iff_mul_le (by positivity)).mpr hxlow
    refine ⟨m, by omega, hzlow, Int.ediv_lt_of_lt_mul (by positivity) hxhigh, ?_⟩
    rw [scaleDown_eq (by omega) (Or.inr hxlow) hxhigh (by decide) (by unfold CONST_1; omega), Option.bind_some]
    exact scaleUp_stop hzlow
  · right
    obtain ⟨m, hm⟩ : ∃ m, m = (32 - Nat.log 2 n) / 2 := ⟨_, rfl⟩
    have hxlow : 2 ^ 31 ≤ (n : ℤ) * 4 ^ m := by
      calc (2 : ℤ) ^ 31 ≤ 2 ^ (Nat.log 2 n + 2 * m) := pow_le_pow_right₀ (by norm_num) (by omega)
        _ = 2 ^ Nat.log 2 n * 4 ^ m := hfour _ _ m rfl
        _ ≤ n * 4 ^ m := mul_le_mul_of_nonneg_right hlow (by positivity)
    have hxhigh : (n : ℤ) * 4 ^ m < 2 ^ 33 := by
      calc (n : ℤ) * 4 ^ m < 2 ^ (Nat.log 2 n + 1) * 4 ^ m := mul_lt_mul_of_pos_right hhigh (by positivity)
        _ = 2 ^ (Nat.log 2 n + 1 + 2 * m) := (hfour _ _ m rfl).symm
        _ ≤ 2 ^ 33 := pow_le_pow_right₀ (by norm_num) (by omega)
    have hsmall : (n : ℤ) < 2 ^ 33 := (le_mul_of_one_le_right hpos.le (one_le_pow₀ (by norm_num))).trans_lt hxhigh
    refine ⟨m, by omega, hxlow, hxhigh, ?_⟩
    rw [scaleDown_stop hsmall, Option.bind_some]
    exact scaleUp_eq (by omega) hpos hxlow hxhigh

/-! ## One step -/

/-- **One step**: nothing overflows, and the distance from the root is squared, but for 18 roundings. -/
theorem sqrtStep_spec {z y : ℤ} {R : ℝ} (hz0 : 0 ≤ z) (hz : z < 2 ^ 33) (hylow : 2 ^ 31 ≤ y) (hyhigh : y ≤ 2 ^ 33)
    (hR : R ^ 2 = z * 2 ^ 32) : ∃ y', sqrtStep z y = some y' ∧ |2 * y * (y' - R) - (y - R) ^ 2| ≤ 18 * (y : ℝ) := by
  obtain ⟨q, hdiv, herror⟩ := slldiv_spec (x := z) (y := y) ⟨by omega, by omega⟩ (by omega) (by omega)
    (by rw [abs_of_nonneg hz0]; omega)
  rw [abs_of_nonneg hz0] at herror
  have hyz : z * (4 * y) ≤ 2 ^ 33 * (4 * y) := mul_le_mul_of_nonneg_right hz.le (by omega)
  have hclose : |y * q - z * 2 ^ 32| ≤ 17 * y := by
    have hscaled : |y * q - z * 2 ^ 32| * 2 ^ 32 ≤ 17 * y * 2 ^ 32 := by linarith
    exact le_of_mul_le_mul_right hscaled (by norm_num)
  obtain ⟨hlow, hhigh⟩ := abs_le.mp hclose
  have hqlow : -2 ^ 35 ≤ q := by nlinarith
  have hqhigh : q ≤ 2 ^ 35 := by nlinarith
  obtain ⟨y', hy'⟩ : ∃ y', y' = y - (y - q) / 2 := ⟨_, rfl⟩
  have hround : y + q ≤ 2 * y' ∧ 2 * y' ≤ y + q + 1 := by omega
  refine ⟨y', ?_, ?_⟩
  · have hsub : sllsub y q = some (y - q) := sllsub_of_fits ⟨by omega, by omega⟩
    have hsub' : sllsub y ((y - q) / 2) = some (y - (y - q) / 2) := sllsub_of_fits ⟨by omega, by omega⟩
    simp only [sqrtStep, hdiv, Option.bind_eq_bind, Option.bind_some, hsub, slldiv2, slldiv2n, pow_one, hsub', hy']
  · have hlower : y * (y + q) ≤ y * (2 * y') := mul_le_mul_of_nonneg_left hround.1 (by omega)
    have hupper : y * (2 * y') ≤ y * (y + q + 1) := mul_le_mul_of_nonneg_left hround.2 (by omega)
    have hcentre : |2 * y * y' - y ^ 2 - z * 2 ^ 32| ≤ 18 * y := by
      apply abs_le.mpr
      constructor
      · linarith
      · linarith
    have hcast : |2 * (y : ℝ) * y' - (y : ℝ) ^ 2 - (z : ℝ) * 2 ^ 32| ≤ 18 * (y : ℝ) := by exact_mod_cast hcentre
    rw [← hR] at hcast
    have hsame : 2 * (y : ℝ) * (y' - R) - (y - R) ^ 2 = 2 * y * y' - y ^ 2 - R ^ 2 := by ring
    rwa [hsame]

/-- The distance after a step, from the one before. -/
theorem distance_next {y y' R E Y : ℝ} (hY : 0 < Y) (hy : Y ≤ y) (hE : |y - R| ≤ E)
    (hstep : |2 * y * (y' - R) - (y - R) ^ 2| ≤ 18 * y) : -9 ≤ y' - R ∧ y' - R ≤ E ^ 2 / (2 * Y) + 9 := by
  obtain ⟨hlow, hhigh⟩ := abs_le.mp hstep
  have hsquare : (y - R) ^ 2 ≤ E ^ 2 := sq_le_sq' (abs_le.mp hE).1 (abs_le.mp hE).2
  constructor
  · by_contra hlt
    have hneg : 2 * y * (y' - R + 9) < 0 := mul_neg_of_pos_of_neg (by linarith) (by linarith)
    linarith [sq_nonneg (y - R)]
  · have hquot : E ^ 2 ≤ 2 * y * (E ^ 2 / (2 * Y)) := by
      rw [← mul_div_assoc, le_div_iff₀ (by linarith), mul_comm]
      exact mul_le_mul_of_nonneg_right (by linarith) (sq_nonneg E)
    have hscaled : 2 * y * (y' - R) ≤ 2 * y * (E ^ 2 / (2 * Y) + 9) := by linarith
    exact le_of_mul_le_mul_left hscaled (by linarith)

/-- **Four steps**, from 1. -/
theorem four_steps {z : ℤ} {R : ℝ} (hzlow : 2 ^ 31 ≤ z) (hzhigh : z < 2 ^ 33) (hR0 : 0 ≤ R) (hR : R ^ 2 = z * 2 ^ 32) :
    ∃ y₁ y₂ y₃ xn, sqrtStep z CONST_1 = some y₁ ∧ sqrtStep z y₁ = some y₂ ∧ sqrtStep z y₂ = some y₃ ∧ sqrtStep z y₃ = some xn ∧
      |(xn : ℝ) - R| ≤ 25 := by
  have hzlow' : (2 : ℝ) ^ 31 ≤ z := by exact_mod_cast hzlow
  have hzhigh' : (z : ℝ) < 2 ^ 33 := by exact_mod_cast hzhigh
  have hRlow : 3037000499 ≤ R := by
    by_contra hlt
    nlinarith
  have hRhigh : R ≤ 6074001000 := by
    by_contra hgt
    nlinarith
  have hnear : ∀ (y : ℤ) {E : ℝ}, E ≤ 368450755 → -9 ≤ (y : ℝ) - R → (y : ℝ) - R ≤ E →
      2 ^ 31 ≤ y ∧ y ≤ 2 ^ 33 := fun y E hE hlow hhigh => by
    have hlow' : (2 : ℝ) ^ 31 ≤ y := by linarith
    have hhigh' : (y : ℝ) ≤ 2 ^ 33 := by linarith
    exact ⟨by exact_mod_cast hlow', by exact_mod_cast hhigh'⟩
  have hnext : ∀ (E' : ℝ) {E : ℝ} {y y' : ℤ}, 9 ≤ E → E ^ 2 / 2 ^ 32 + 9 ≤ E' → 2 ^ 31 ≤ y → -9 ≤ (y : ℝ) - R → (y : ℝ) - R ≤ E →
      |2 * (y : ℝ) * (y' - R) - (y - R) ^ 2| ≤ 18 * (y : ℝ) → -9 ≤ (y' : ℝ) - R ∧ (y' : ℝ) - R ≤ E' :=
    fun E' E y y' hE hE' hy hlow hhigh hstep => by
    have hy' : (2 : ℝ) ^ 31 ≤ y := by exact_mod_cast hy
    obtain ⟨hlow', hhigh'⟩ := distance_next (by norm_num) hy' (abs_le.mpr ⟨by linarith, hhigh⟩) hstep
    exact ⟨hlow', hhigh'.trans ((by norm_num : E ^ 2 / (2 * 2 ^ 31) + 9 = E ^ 2 / 2 ^ 32 + 9).trans_le hE')⟩
  -- the first step starts at 1
  obtain ⟨y₁, h₁, hs₁⟩ := sqrtStep_spec (y := CONST_1) (by omega) hzhigh (by decide) (by decide) hR
  have hone : ((CONST_1 : ℤ) : ℝ) = 2 ^ 32 := by norm_num [CONST_1]
  rw [hone] at hs₁
  obtain ⟨hl₁, hu₁⟩ := distance_next (E := 1779033704) (by norm_num) le_rfl (abs_le.mpr ⟨by linarith, by linarith⟩) hs₁
  have hu₁' : (y₁ : ℝ) - R ≤ 368450755 := hu₁.trans (by norm_num)
  obtain ⟨hy₁, hY₁⟩ := hnear y₁ le_rfl hl₁ hu₁'
  obtain ⟨y₂, h₂, hs₂⟩ := sqrtStep_spec (by omega) hzhigh hy₁ hY₁ hR
  obtain ⟨hl₂, hu₂⟩ := hnext 31608200 (by norm_num) (by norm_num) hy₁ hl₁ hu₁' hs₂
  obtain ⟨hy₂, hY₂⟩ := hnear y₂ (by norm_num) hl₂ hu₂
  obtain ⟨y₃, h₃, hs₃⟩ := sqrtStep_spec (by omega) hzhigh hy₂ hY₂ hR
  obtain ⟨hl₃, hu₃⟩ := hnext 232630 (by norm_num) (by norm_num) hy₂ hl₂ hu₂ hs₃
  obtain ⟨hy₃, hY₃⟩ := hnear y₃ (by norm_num) hl₃ hu₃
  obtain ⟨y₄, h₄, hs₄⟩ := sqrtStep_spec (by omega) hzhigh hy₃ hY₃ hR
  obtain ⟨hl₄, hu₄⟩ := hnext 25 (by norm_num) (by norm_num) hy₃ hl₃ hu₃ hs₄
  exact ⟨y₁, y₂, y₃, y₄, h₁, h₂, h₃, h₄, abs_le.mpr ⟨by linarith, hu₄⟩⟩

/-! ## Accuracy -/

/-- **The root of the scaled argument**, times the factor. -/
theorem root_spec {z n : ℤ} {R : ℝ} (hzlow : 2 ^ 31 ≤ z) (hzhigh : z < 2 ^ 33) (hR0 : 0 ≤ R) (hR : R ^ 2 = z * 2 ^ 32)
    (hn0 : 0 ≤ n) (hn : n ≤ 2 ^ 47) :
    ∃ xn : ℤ, sqrtScaled z n = some (n * xn / 2 ^ 32) ∧ |(xn : ℝ) - R| ≤ 25 := by
  by_cases hz : z = CONST_1
  · refine ⟨2 ^ 32, ?_, ?_⟩
    · rw [sqrtScaled, if_pos hz, Int.mul_ediv_cancel _ (by norm_num)]
    · have hroot : R = 2 ^ 32 := by
        rw [hz] at hR
        have hsquare : R ^ 2 = (2 ^ 32) ^ 2 := hR.trans (by norm_num [CONST_1])
        exact (sq_eq_sq₀ hR0 (by norm_num)).mp hsquare
      rw [hroot]
      norm_num
  · obtain ⟨y₁, y₂, y₃, xn, h₁, h₂, h₃, h₄, hclose⟩ := four_steps hzlow hzhigh hR0 hR
    refine ⟨xn, ?_, hclose⟩
    have hzlow' : (2 : ℝ) ^ 31 ≤ z := by exact_mod_cast hzlow
    have hzhigh' : (z : ℝ) < 2 ^ 33 := by exact_mod_cast hzhigh
    obtain ⟨hlow, hhigh⟩ := abs_le.mp hclose
    have hxlow : (0 : ℝ) ≤ xn := by nlinarith
    have hxhigh : (xn : ℝ) ≤ 2 ^ 33 := by nlinarith
    have hxlow' : 0 ≤ xn := by exact_mod_cast hxlow
    have hxhigh' : xn ≤ 2 ^ 33 := by exact_mod_cast hxhigh
    have hprod : n * xn ≤ 2 ^ 47 * 2 ^ 33 := mul_le_mul hn hxhigh' hxlow' (by norm_num)
    have hprod' : 0 ≤ n * xn := mul_nonneg hn0 hxlow'
    have hmul : sllmul n xn = n * xn / 2 ^ 32 :=
      sllmul_of_fits ⟨by omega, by omega⟩ ⟨by omega, by omega⟩ ⟨by omega, by omega⟩
    rw [sqrtScaled, if_neg hz, ← hmul]
    simp only [h₁, h₂, h₃, h₄, Option.bind_eq_bind, Option.bind_some]

/-- The distance after scaling back by `k`, and rounding down. -/
theorem scaled_distance {k R S r xn : ℝ} (hk : 0 < k) (hR : 2 ^ 31 ≤ R) (hS : 0 ≤ S) (hlow : (k * R) ^ 2 ≤ S ^ 2)
    (hhigh : S ^ 2 ≤ k ^ 2 * (R ^ 2 + 2 ^ 32)) (hx : |xn - R| ≤ 25) (hrlow : k * xn - 1 ≤ r) (hrhigh : r ≤ k * xn) :
    |r - S| ≤ 2 ^ (-26 : ℤ) * S + 2 := by
  have hSlow : k * R ≤ S := (sq_le_sq₀ (mul_nonneg hk.le (by linarith)) hS).mp hlow
  have hShigh : S ≤ k * (R + 1) := by
    apply (sq_le_sq₀ hS (mul_nonneg hk.le (by linarith))).mp
    calc S ^ 2 ≤ k ^ 2 * (R ^ 2 + 2 ^ 32) := hhigh
      _ ≤ k ^ 2 * (R + 1) ^ 2 := mul_le_mul_of_nonneg_left (by nlinarith) (sq_nonneg k)
      _ = (k * (R + 1)) ^ 2 := by ring
  have hxlow : k * (R - 25) ≤ k * xn := mul_le_mul_of_nonneg_left (by linarith [(abs_le.mp hx).1]) hk.le
  have hxhigh : k * xn ≤ k * (R + 25) := mul_le_mul_of_nonneg_left (by linarith [(abs_le.mp hx).2]) hk.le
  have hunit : k * 2 ^ 31 ≤ S := (mul_le_mul_of_nonneg_left hR hk.le).trans hSlow
  rw [show (2 : ℝ) ^ (-26 : ℤ) = 1 / 2 ^ 26 by norm_num]
  apply abs_le.mpr
  constructor
  · linarith
  · linarith

/-- **`sllsqrt` is defined and accurate.** -/
theorem sllsqrt_accurate {x : ℤ} (hpos : 0 < x) (hx : x < 2 ^ 63) :
    ∃ r : ℤ, sllsqrt x = some r ∧ |(r : ℝ) - √(x * 2 ^ 32)| ≤ 2 ^ (-26 : ℤ) * √(x * 2 ^ 32) + 2 := by
  have hS : √((x : ℝ) * 2 ^ 32) ^ 2 = x * 2 ^ 32 := Real.sq_sqrt (mul_nonneg (by exact_mod_cast hpos.le) (by norm_num))
  have hS0 : 0 ≤ √((x : ℝ) * 2 ^ 32) := Real.sqrt_nonneg _
  by_cases hone : x = CONST_1
  · refine ⟨x, if_pos (Or.inr hone), ?_⟩
    have hcast : (x : ℝ) = 2 ^ 32 := by
      rw [hone]
      norm_num [CONST_1]
    have hroot : √((x : ℝ) * 2 ^ 32) = 2 ^ 32 := by
      rw [hcast]
      exact Real.sqrt_mul_self (by norm_num)
    rw [hroot, hcast, sub_self, abs_zero]
    positivity
  · have hstart : sllsqrt x = ((scaleDown 64 x CONST_1).bind fun p => scaleUp 64 p.1 p.2).bind fun p => sqrtScaled p.1 p.2 := by
      have hguard : ¬(x ≤ CONST_0 ∨ x = CONST_1) := not_or.mpr ⟨not_le.mpr hpos, hone⟩
      rw [sllsqrt, if_neg hguard, Option.bind_assoc]
      rfl
    have hroot : ∀ z : ℤ, 2 ^ 31 ≤ z → √((z : ℝ) * 2 ^ 32) ^ 2 = z * 2 ^ 32 ∧ 2 ^ 31 ≤ √((z : ℝ) * 2 ^ 32) := fun z hz => by
      have hz' : (2 : ℝ) ^ 31 ≤ z := by exact_mod_cast hz
      exact ⟨Real.sq_sqrt (by linarith), Real.le_sqrt_of_sq_le (by linarith)⟩
    rcases scale_spec hpos hx with ⟨m, hm, hlow, hhigh, hscale⟩ | ⟨m, hm, hlow, hhigh, hscale⟩
    · obtain ⟨hR, hR31⟩ := hroot _ hlow
      have hpow : (2 : ℤ) ^ m ≤ 2 ^ 15 := pow_le_pow_right₀ (by norm_num) (by omega)
      obtain ⟨xn, hrun, hclose⟩ := root_spec hlow hhigh (Real.sqrt_nonneg _) hR (n := 2 ^ 32 * 2 ^ m) (by positivity) (by omega)
      refine ⟨_, by rw [hstart, hscale, Option.bind_some, hrun], ?_⟩
      have hexact : 2 ^ 32 * 2 ^ m * xn / 2 ^ 32 = 2 ^ m * xn := by
        rw [mul_assoc]
        exact Int.mul_ediv_cancel_left _ (by norm_num)
      have hfloor : x / 4 ^ m * 4 ^ m ≤ x ∧ x ≤ (x / 4 ^ m + 1) * 4 ^ m :=
        ⟨Int.ediv_mul_le x (by positivity), (Int.lt_ediv_add_one_mul_self x (by positivity)).le⟩
      have hfloor' : ((x / 4 ^ m : ℤ) : ℝ) * 4 ^ m ≤ x ∧ (x : ℝ) ≤ ((x / 4 ^ m : ℤ) + 1) * 4 ^ m := by exact_mod_cast hfloor
      have hfour : ((2 : ℝ) ^ m) ^ 2 = 4 ^ m := by
        rw [← pow_mul, mul_comm, pow_mul]
        norm_num
      rw [hexact]
      apply scaled_distance (k := 2 ^ m) (by positivity) hR31 hS0 ?_ ?_ hclose
      · push_cast
        linarith
      · push_cast
        exact le_rfl
      · rw [mul_pow, hfour, hR, hS]
        linarith [hfloor'.1]
      · rw [hfour, hR, hS]
        linarith [hfloor'.2]
    · obtain ⟨hR, hR31⟩ := hroot _ hlow
      have hsplit : (2 : ℤ) ^ 32 = 2 ^ (32 - m) * 2 ^ m := by rw [← pow_add, Nat.sub_add_cancel (by omega)]
      have hn : (2 : ℤ) ^ 32 / 2 ^ m = 2 ^ (32 - m) := by
        rw [hsplit]
        exact Int.mul_ediv_cancel _ (by positivity)
      have hpow : (2 : ℤ) ^ (32 - m) ≤ 2 ^ 32 := pow_le_pow_right₀ (by norm_num) (by omega)
      rw [hn] at hscale
      obtain ⟨xn, hrun, hclose⟩ := root_spec hlow hhigh (Real.sqrt_nonneg _) hR (n := 2 ^ (32 - m)) (by positivity) (by omega)
      refine ⟨_, by rw [hstart, hscale, Option.bind_some, hrun], ?_⟩
      obtain ⟨r, hr⟩ : ∃ r, r = 2 ^ (32 - m) * xn / 2 ^ 32 := ⟨_, rfl⟩
      have hfloor : r * 2 ^ 32 ≤ 2 ^ (32 - m) * xn ∧ 2 ^ (32 - m) * xn ≤ (r + 1) * 2 ^ 32 := by omega
      have hfloor' : (r : ℝ) * 2 ^ 32 ≤ 2 ^ (32 - m) * xn ∧ (2 : ℝ) ^ (32 - m) * xn ≤ (r + 1) * 2 ^ 32 := by exact_mod_cast hfloor
      have hscale' : (2 : ℝ) ^ (32 - m) = (2 ^ m)⁻¹ * 2 ^ 32 := by
        rw [eq_inv_mul_iff_mul_eq₀ (by positivity), ← pow_add, Nat.add_sub_cancel' (by omega)]
      rw [hscale'] at hfloor'
      have hfour : ((2 : ℝ) ^ m) ^ 2 = 4 ^ m := by
        rw [← pow_mul, mul_comm, pow_mul]
        norm_num
      have hsame : ((2 : ℝ) ^ m)⁻¹ ^ 2 * √(((x * 4 ^ m : ℤ) : ℝ) * 2 ^ 32) ^ 2 = √((x : ℝ) * 2 ^ 32) ^ 2 := by
        rw [inv_pow, hfour, hR, hS]
        push_cast
        field_simp
      rw [← hr]
      apply scaled_distance (k := (2 ^ m)⁻¹) (by positivity) hR31 hS0 ?_ ?_ hclose
      · linarith [hfloor'.2]
      · linarith [hfloor'.1]
      · rw [mul_pow, hsame]
      · rw [mul_add, hsame]
        exact le_add_of_nonneg_right (by positivity)

/-- The root of the smallest number, which is scaled by `4 ^ 16`. -/
theorem sllsqrt_accurate_one :
    ∃ r : ℤ, sllsqrt 1 = some r ∧ |(r : ℝ) - √((1 : ℤ) * 2 ^ 32)| ≤ 2 ^ (-26 : ℤ) * √((1 : ℤ) * 2 ^ 32) + 2 :=
  sllsqrt_accurate (by norm_num) (by norm_num)

end CoreLink.FpMath
