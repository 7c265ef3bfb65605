/-
# `CoreLink.Lib.SignedWord` — signed words as integers.

A C program that computes in `int` is modelled over the integers, with a conversion (`int32`) where a result may not fit; and
with `int16` and `int64` for the other two widths.
-/
import Mathlib.Algebra.Order.Ring.Int

namespace CoreLink.Lib

/-- A conversion to `int` or `long`. -/
def int32 (x : ℤ) : ℤ := (x + 2 ^ 31) % 2 ^ 32 - 2 ^ 31

theorem int32_of_fits {x : ℤ} (hlow : -2 ^ 31 ≤ x) (hhigh : x < 2 ^ 31) : int32 x = x := by
  unfold int32
  omega

theorem int32_range (x : ℤ) : -2 ^ 31 ≤ int32 x ∧ int32 x < 2 ^ 31 := by
  unfold int32
  omega

/-- Wrapping twice is wrapping once. -/
theorem int32_add (x y : ℤ) : int32 (int32 x + y) = int32 (x + y) := by
  unfold int32
  omega

/-- A conversion to `int16_t`. -/
def int16 (x : ℤ) : ℤ := (x + 2 ^ 15) % 2 ^ 16 - 2 ^ 15

/-- A conversion to `int64_t`. -/
def int64 (x : ℤ) : ℤ := (x + 2 ^ 63) % 2 ^ 64 - 2 ^ 63

theorem int64_of_fits {x : ℤ} (hlow : -2 ^ 63 ≤ x) (hhigh : x < 2 ^ 63) : int64 x = x := by
  unfold int64
  omega

/-- Only the residue counts. -/
theorem int64_congr {x y : ℤ} (h : x % 2 ^ 64 = y % 2 ^ 64) : int64 x = int64 y := by
  unfold int64
  omega

theorem int16_eq_iff (x : ℤ) : int16 x = x ↔ -2 ^ 15 ≤ x ∧ x < 2 ^ 15 := by
  unfold int16
  omega

theorem int16_add (x y : ℤ) : int16 (int16 x + y) = int16 (x + y) := by
  unfold int16
  omega

theorem int16_add_int32 (x y : ℤ) : int16 (x + int32 y) = int16 (x + y) := by
  unfold int16 int32
  omega

theorem int16_neg (x : ℤ) : int16 (-int16 x) = int16 (-x) := by
  unfold int16
  omega

end CoreLink.Lib
