/-
# `CoreLink.Lib.Binary64` — the values of the bit patterns of IEEE 754 binary64, and truncation.

A pattern is a natural number below `2 ^ 64`. Its value is a rational number; the patterns with the greatest exponent have none
that means anything. `toZero` truncates to an integer, and `truncBits` to a number of significant bits.
-/
import Mathlib.Data.Int.Log
import Mathlib.Data.Rat.Floor

namespace CoreLink.Lib

/-! ## Truncation -/

/-- A rational number truncated toward zero. -/
def toZero (x : ℚ) : ℤ := if x < 0 then -⌊-x⌋ else ⌊x⌋

/-- A rational number truncated toward zero to `p` significant bits. -/
def truncBits (p : ℕ) (x : ℚ) : ℚ := toZero (x / 2 ^ (Int.log 2 |x| + 1 - p)) * 2 ^ (Int.log 2 |x| + 1 - p)

theorem toZero_neg (x : ℚ) : toZero (-x) = -toZero x := by
  unfold toZero
  rcases lt_trichotomy x 0 with hx | rfl | hx
  · rw [if_pos hx, if_neg (not_lt.mpr (neg_nonneg.mpr hx.le)), neg_neg]
  · rw [neg_zero, if_neg (lt_irrefl 0), Int.floor_zero]
    rfl
  · rw [if_pos (neg_lt_zero.mpr hx), if_neg (not_lt.mpr hx.le), neg_neg]

theorem toZero_intCast (n : ℤ) : toZero n = n := by
  unfold toZero
  split
  · rw [← Int.cast_neg, Int.floor_intCast, neg_neg]
  · exact Int.floor_intCast n

theorem toZero_eq_zero {x : ℚ} (hpos : 0 ≤ x) (hlt : x < 1) : toZero x = 0 := by
  rw [toZero, if_neg (not_lt.mpr hpos)]
  exact Int.floor_eq_zero_iff.mpr ⟨hpos, hlt⟩

/-- A fraction is truncated by the division. -/
theorem toZero_natCast_div (n m : ℕ) : toZero ((n : ℚ) / m) = (n / m : ℕ) := by
  have hpos : ¬(n : ℚ) / m < 0 := not_lt.mpr (div_nonneg n.cast_nonneg m.cast_nonneg)
  rw [toZero, if_neg hpos, Rat.floor_natCast_div_natCast]
  exact (Int.natCast_div n m).symm

/-- The truncation is no further from zero. -/
theorem abs_toZero_le (x : ℚ) : |((toZero x : ℤ) : ℚ)| ≤ |x| := by
  unfold toZero
  split
  case isTrue hneg =>
    have hfloor : (0 : ℚ) ≤ ⌊-x⌋ := by exact_mod_cast Int.floor_nonneg.mpr (neg_nonneg.mpr hneg.le)
    rw [Int.cast_neg, abs_neg, abs_of_nonneg hfloor, abs_of_neg hneg]
    exact Int.floor_le (-x)
  case isFalse hpos =>
    have hfloor : (0 : ℚ) ≤ ⌊x⌋ := by exact_mod_cast Int.floor_nonneg.mpr (not_lt.mp hpos)
    rw [abs_of_nonneg hfloor, abs_of_nonneg (not_lt.mp hpos)]
    exact Int.floor_le x

/-- **Rounding down what was truncated to a part of a unit**: a negative number that is less than this part below an integer has
become the integer. -/
theorem toZero_mul_ediv {n : ℕ} (hn : 0 < n) (x : ℚ) :
    toZero (x * n) / n = if x < 0 ∧ ⌈x⌉ - x < 1 / n then ⌈x⌉ else ⌊x⌋ := by
  have hn' : (0 : ℚ) < n := by exact_mod_cast hn
  have hn'' : (0 : ℤ) < n := by exact_mod_cast hn
  have hbetween : ∀ {k : ℤ}, toZero (x * n) / n = k ↔ k * n ≤ toZero (x * n) ∧ toZero (x * n) < (k + 1) * n := fun {k} => by
    rw [← Int.le_ediv_iff_mul_le hn'', ← Int.ediv_lt_iff_lt_mul hn'']
    omega
  rcases lt_or_ge x 0 with hneg | hpos
  · have hceil : toZero (x * n) = ⌈x * n⌉ := by
      rw [toZero, if_pos (mul_neg_of_neg_of_pos hneg hn'), Int.floor_neg, neg_neg]
    rw [hceil] at hbetween ⊢
    split
    case isTrue hnear =>
      have hlt : (⌈x⌉ : ℚ) * n < x * n + 1 := by
        have hscaled := mul_lt_mul_of_pos_right hnear.2 hn'
        rw [sub_mul, one_div, inv_mul_cancel₀ hn'.ne'] at hscaled
        linarith
      refine hbetween.mpr ⟨?_, ?_⟩
      · rw [← Int.sub_one_lt_iff, Int.lt_ceil]
        push_cast
        linarith
      · have hle : x * n ≤ ((⌈x⌉ * n : ℤ) : ℚ) := by
          push_cast
          exact mul_le_mul_of_nonneg_right (Int.le_ceil x) hn'.le
        have hceil' := Int.ceil_le.mpr hle
        linarith
    case isFalse hfar =>
      have hfar' : 1 / (n : ℚ) ≤ ⌈x⌉ - x := not_lt.mp fun h => hfar ⟨hneg, h⟩
      have hge : x * n + 1 ≤ (⌈x⌉ : ℚ) * n := by
        have hscaled := mul_le_mul_of_nonneg_right hfar' hn'.le
        rw [sub_mul, one_div, inv_mul_cancel₀ hn'.ne'] at hscaled
        linarith
      refine hbetween.mpr ⟨?_, ?_⟩
      · have hle : ((⌊x⌋ * n : ℤ) : ℚ) ≤ ⌈x * n⌉ := by
          push_cast
          exact (mul_le_mul_of_nonneg_right (Int.floor_le x) hn'.le).trans (Int.le_ceil _)
        exact_mod_cast hle
      · have hstep : ((⌈x⌉ * n : ℤ) : ℚ) ≤ ((⌊x⌋ + 1) * n : ℤ) := by
          exact_mod_cast mul_le_mul_of_nonneg_right (Int.ceil_le_floor_add_one x) hn''.le
        have hlt : (⌈x * n⌉ : ℚ) < ((⌊x⌋ + 1) * n : ℤ) := by
          push_cast at hstep ⊢
          linarith [Int.ceil_lt_add_one (x * n)]
        exact_mod_cast hlt
  · have hfloor : toZero (x * n) = ⌊x * n⌋ := by rw [toZero, if_neg (not_lt.mpr (mul_nonneg hpos hn'.le))]
    rw [hfloor] at hbetween ⊢
    rw [if_neg fun h => absurd h.1 (not_lt.mpr hpos)]
    refine hbetween.mpr ⟨?_, ?_⟩
    · rw [Int.le_floor]
      push_cast
      exact mul_le_mul_of_nonneg_right (Int.floor_le x) hn'.le
    · rw [Int.floor_lt]
      push_cast
      exact mul_lt_mul_of_pos_right (Int.lt_floor_add_one x) hn'

theorem truncBits_zero (p : ℕ) : truncBits p 0 = 0 := by
  rw [truncBits, zero_div, toZero_eq_zero le_rfl one_pos, Int.cast_zero, zero_mul]

theorem truncBits_neg (p : ℕ) (x : ℚ) : truncBits p (-x) = -truncBits p x := by
  unfold truncBits
  rw [abs_neg, neg_div, toZero_neg, Int.cast_neg, neg_mul]

/-- The truncation of a number between two powers of two. -/
theorem truncBits_eq {p : ℕ} {x : ℚ} {z : ℤ} (hlow : 2 ^ z ≤ x) (hhigh : x < 2 ^ (z + 1)) :
    truncBits p x = toZero (x / 2 ^ (z + 1 - p)) * 2 ^ (z + 1 - p) := by
  have hpos : 0 < x := (zpow_pos (by norm_num) z).trans_le hlow
  have hlog : Int.log 2 |x| = z := by
    rw [abs_of_pos hpos]
    have hle := (Int.zpow_le_iff_le_log (R := ℚ) (b := 2) (by norm_num) hpos).mp (by exact_mod_cast hlow)
    have hlt := (Int.lt_zpow_iff_log_lt (R := ℚ) (b := 2) (by norm_num) hpos).mp (by exact_mod_cast hhigh)
    omega
  rw [truncBits, hlog]

/-- An integer that has no more bits is not changed. -/
theorem truncBits_intCast {p : ℕ} {k : ℤ} (hk : |k| < 2 ^ p) : truncBits p k = k := by
  rcases eq_or_ne k 0 with rfl | hne
  · rw [Int.cast_zero, truncBits_zero]
  · have hpos : (0 : ℚ) < |(k : ℚ)| := abs_pos.mpr (Int.cast_ne_zero.mpr hne)
    have hlog : Int.log 2 |(k : ℚ)| < p := by
      apply (Int.lt_zpow_iff_log_lt (by norm_num) hpos).mp
      exact_mod_cast hk
    obtain ⟨j, hj⟩ : ∃ j : ℕ, (p : ℤ) - (Int.log 2 |(k : ℚ)| + 1) = j := ⟨_, (Int.toNat_of_nonneg (by omega)).symm⟩
    have hscale : Int.log 2 |(k : ℚ)| + 1 - p = -(j : ℤ) := by omega
    have hshift : (k : ℚ) / 2 ^ (-(j : ℤ)) = ((k * 2 ^ j : ℤ) : ℚ) := by
      rw [zpow_neg, div_inv_eq_mul, zpow_natCast]
      push_cast
      rfl
    rw [truncBits, hscale, hshift, toZero_intCast, zpow_neg, zpow_natCast]
    push_cast
    exact mul_inv_cancel_right₀ (by positivity) _

/-! ## Patterns -/

namespace Binary64

/-- The sign bit. -/
def sign (d : ℕ) : Bool := 2 ^ 63 ≤ d

/-- The exponent, as it is stored. -/
def exponent (d : ℕ) : ℕ := d / 2 ^ 52 % 2 ^ 11

/-- The significand without its first bit. -/
def fraction (d : ℕ) : ℕ := d % 2 ^ 52

/-- Neither infinite nor no number. -/
def Finite (d : ℕ) : Prop := exponent d < 2 ^ 11 - 1

/-- The absolute value. -/
def magnitude (d : ℕ) : ℚ :=
  if exponent d = 0 then fraction d * 2 ^ (-1074 : ℤ) else (2 ^ 52 + fraction d : ℕ) * 2 ^ ((exponent d : ℤ) - 1075)

/-- **The value of a pattern.** -/
def value (d : ℕ) : ℚ := if sign d then -magnitude d else magnitude d

theorem magnitude_nonneg (d : ℕ) : 0 ≤ magnitude d := by
  unfold magnitude
  split
  · exact mul_nonneg (Nat.cast_nonneg _) (zpow_nonneg (by norm_num) _)
  · exact mul_nonneg (Nat.cast_nonneg _) (zpow_nonneg (by norm_num) _)

theorem abs_value (d : ℕ) : |value d| = magnitude d := by
  unfold value
  split
  · rw [abs_neg, abs_of_nonneg (magnitude_nonneg d)]
  · rw [abs_of_nonneg (magnitude_nonneg d)]

theorem value_zero : value 0 = 0 := by
  simp [value, magnitude, sign, exponent, fraction]

/-- The pattern with given fields. -/
def pack (s : Bool) (e f : ℕ) : ℕ := (if s then 2 ^ 63 else 0) + e * 2 ^ 52 + f

section Pack

variable {s : Bool} {e f : ℕ}

theorem sign_pack (he : e < 2 ^ 11) (hf : f < 2 ^ 52) : sign (pack s e f) = s := by
  unfold sign pack
  cases s with
  | true => exact decide_eq_true (by simp only [if_true]; omega)
  | false => exact decide_eq_false (by simp only [Bool.false_eq_true, if_false]; omega)

theorem exponent_pack (he : e < 2 ^ 11) (hf : f < 2 ^ 52) : exponent (pack s e f) = e := by
  unfold exponent pack
  split <;> omega

theorem fraction_pack (hf : f < 2 ^ 52) : fraction (pack s e f) = f := by
  unfold fraction pack
  split <;> omega

end Pack

end Binary64

end CoreLink.Lib
