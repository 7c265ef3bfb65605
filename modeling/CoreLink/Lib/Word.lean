/-
# `CoreLink.Lib.Word` — unsigned words of `w` bits as natural numbers.

A C program that computes sizes and addresses in an unsigned type of `w` bits is modelled over `Nat`, with
the reductions modulo `2 ^ w` written where they can matter. Two operations recur: the wrapping difference
(`sub`) and rounding to a power of two by masking with `~(align - 1)` (`alignUp`, `alignDown`). The lemmas
say when each agrees with its arithmetic reading.
-/
import Mathlib.Data.Nat.Bitwise
import Mathlib.Tactic.Ring

namespace CoreLink.Lib.Word

/-! ## Wrapping subtraction -/

/-- `a - b` in an unsigned type of `w` bits. -/
def sub (w a b : Nat) : Nat := (a + 2 ^ w - b) % 2 ^ w

theorem sub_lt {w a b : Nat} : sub w a b < 2 ^ w := Nat.mod_lt _ (Nat.two_pow_pos w)

theorem sub_of_le {w a b : Nat} (hba : b ≤ a) (ha : a < 2 ^ w) : sub w a b = a - b := by
  unfold sub
  rw [show a + 2 ^ w - b = a - b + 2 ^ w by omega, Nat.add_mod_right]
  exact Nat.mod_eq_of_lt (by omega)

/-- Below zero the difference wraps to the top of the range. -/
theorem sub_of_lt {w a b : Nat} (hab : a < b) (hb : b ≤ 2 ^ w) : sub w a b = a + 2 ^ w - b := by
  unfold sub
  exact Nat.mod_eq_of_lt (by omega)

/-- Counting a word down: below zero is the top of the range. -/
def pred (w a : Nat) : Nat := if a = 0 then 2 ^ w - 1 else a - 1

theorem pred_lt {w a : Nat} (ha : a < 2 ^ w) : pred w a < 2 ^ w := by
  unfold pred
  split <;> omega

/-- Counting up takes counting down back. -/
theorem pred_succ {w a : Nat} (ha : a < 2 ^ w) : pred w ((a + 1) % 2 ^ w) = a := by
  unfold pred
  by_cases hlt : a + 1 < 2 ^ w
  · rw [Nat.mod_eq_of_lt hlt, if_neg (Nat.succ_ne_zero a), Nat.add_sub_cancel]
  · rw [show a + 1 = 2 ^ w by omega, Nat.mod_self, if_pos rfl]
    omega

/-! ## Rounding to a power of two -/

/-- The `w`-bit word `~(2 ^ k - 1)`. -/
def highMask (w k : Nat) : Nat := 2 ^ w - 2 ^ k

/-- `x & ~(2 ^ k - 1)`. -/
def alignDown (w k x : Nat) : Nat := x &&& highMask w k

/-- `(x + 2 ^ k - 1) & ~(2 ^ k - 1)`; the sum is a `w`-bit word and may wrap. -/
def alignUp (w k x : Nat) : Nat := alignDown w k ((x + 2 ^ k - 1) % 2 ^ w)

theorem highMask_eq {w k : Nat} (hkw : k ≤ w) : highMask w k = (2 ^ (w - k) - 1) * 2 ^ k := by
  unfold highMask
  rw [Nat.sub_mul, ← pow_add, Nat.sub_add_cancel hkw, one_mul]

/-- Masking with `~(2 ^ k - 1)` clears the low `k` bits. -/
theorem alignDown_eq {w k x : Nat} (hkw : k ≤ w) (hx : x < 2 ^ w) :
    alignDown w k x = x / 2 ^ k * 2 ^ k := by
  have hq : x / 2 ^ k < 2 ^ (w - k) := by
    rw [Nat.div_lt_iff_lt_mul (Nat.two_pow_pos k), ← pow_add, Nat.sub_add_cancel hkw]
    exact hx
  apply Nat.eq_of_testBit_eq
  intro i
  rw [alignDown, highMask_eq hkw, Nat.testBit_and, Nat.testBit_mul_two_pow, Nat.testBit_mul_two_pow,
    Nat.testBit_two_pow_sub_one, Nat.testBit_div_two_pow]
  by_cases hki : k ≤ i
  · have hsplit : i - k + k = i := Nat.sub_add_cancel hki
    simp only [hki, decide_true, Bool.true_and, hsplit]
    by_cases hiw : i - k < w - k
    · simp [hiw]
    · have hxi : x < 2 ^ i := lt_of_lt_of_le hx (Nat.pow_le_pow_right (by omega) (by omega))
      simp [Nat.testBit_lt_two_pow hxi]
  · simp [hki]

theorem alignDown_lt (w k x : Nat) : alignDown w k x < 2 ^ w := by
  have hle : alignDown w k x ≤ highMask w k := Nat.and_le_right
  have hk := Nat.two_pow_pos k
  have hw := Nat.two_pow_pos w
  unfold highMask at hle
  omega

theorem alignDown_le {w k x : Nat} (hkw : k ≤ w) (hx : x < 2 ^ w) : alignDown w k x ≤ x := by
  rw [alignDown_eq hkw hx]
  exact Nat.div_mul_le_self x _

theorem dvd_alignDown {w k x : Nat} (hkw : k ≤ w) (hx : x < 2 ^ w) : 2 ^ k ∣ alignDown w k x := by
  rw [alignDown_eq hkw hx]
  exact Nat.dvd_mul_left _ _

theorem dvd_alignUp {w k x : Nat} (hkw : k ≤ w) : 2 ^ k ∣ alignUp w k x :=
  dvd_alignDown hkw (Nat.mod_lt _ (Nat.two_pow_pos w))

/-- Without wrapping, rounding up is the least multiple of `2 ^ k` from `x` on. -/
theorem alignUp_eq {w k x : Nat} (hkw : k ≤ w) (hx : x + 2 ^ k ≤ 2 ^ w) :
    alignUp w k x = (x + 2 ^ k - 1) / 2 ^ k * 2 ^ k := by
  have hpos : 0 < 2 ^ k := Nat.two_pow_pos k
  have hlt : x + 2 ^ k - 1 < 2 ^ w := by omega
  rw [alignUp, Nat.mod_eq_of_lt hlt, alignDown_eq hkw hlt]

theorem le_alignUp {w k x : Nat} (hkw : k ≤ w) (hx : x + 2 ^ k ≤ 2 ^ w) : x ≤ alignUp w k x := by
  have hpos : 0 < 2 ^ k := Nat.two_pow_pos k
  have hdm := Nat.div_add_mod (x + 2 ^ k - 1) (2 ^ k)
  have hml := Nat.mod_lt (x + 2 ^ k - 1) hpos
  rw [alignUp_eq hkw hx, Nat.mul_comm]
  omega

theorem alignUp_lt {w k x : Nat} (hkw : k ≤ w) : alignUp w k x < 2 ^ w := by
  have hlt : (x + 2 ^ k - 1) % 2 ^ w < 2 ^ w := Nat.mod_lt _ (Nat.two_pow_pos w)
  exact lt_of_le_of_lt (alignDown_le hkw hlt) hlt

/-- Rounding up stays at or below any multiple of `2 ^ k` that bounds the argument. -/
theorem alignUp_le {w k x m : Nat} (hkw : k ≤ w) (hxm : x ≤ m) (hdvd : 2 ^ k ∣ m) (hm : m < 2 ^ w) :
    alignUp w k x ≤ m := by
  have hpos : 0 < 2 ^ k := Nat.two_pow_pos k
  obtain ⟨q, rfl⟩ := hdvd
  have hup : x + 2 ^ k ≤ 2 ^ w := by
    obtain ⟨r, hr⟩ := pow_dvd_pow 2 hkw
    rw [hr] at hm ⊢
    have hqr : q < r := Nat.lt_of_mul_lt_mul_left hm
    calc x + 2 ^ k ≤ 2 ^ k * q + 2 ^ k := by omega
      _ = 2 ^ k * (q + 1) := by ring
      _ ≤ 2 ^ k * r := Nat.mul_le_mul_left _ hqr
  rw [alignUp_eq hkw hup, Nat.mul_comm]
  apply Nat.mul_le_mul_left
  rw [Nat.div_le_iff_le_mul_add_pred hpos]
  omega

/-- A positive word that does not wrap rounds up to a positive one. -/
theorem alignUp_pos {w k x : Nat} (hkw : k ≤ w) (hx : x + 2 ^ k ≤ 2 ^ w) (h0 : 0 < x) :
    0 < alignUp w k x :=
  lt_of_lt_of_le h0 (le_alignUp hkw hx)

/-- Above the last multiple of `2 ^ k` rounding up wraps to 0. -/
theorem alignUp_wraps {w k x : Nat} (hkw : k ≤ w) (hx : 2 ^ w - 2 ^ k < x) (hlt : x < 2 ^ w) :
    alignUp w k x = 0 := by
  have hle : 2 ^ k ≤ 2 ^ w := Nat.pow_le_pow_right (by omega) hkw
  have hsum : (x + 2 ^ k - 1) % 2 ^ w = x + 2 ^ k - 1 - 2 ^ w := by
    rw [Nat.mod_eq_sub_mod (by omega), Nat.mod_eq_of_lt (by omega)]
  rw [alignUp, hsum, alignDown_eq hkw (by omega), Nat.div_eq_of_lt (by omega), Nat.zero_mul]

/-- A rounded word is at most the last multiple of `2 ^ k`. -/
theorem alignUp_le_highMask {w k x : Nat} : alignUp w k x ≤ 2 ^ w - 2 ^ k := Nat.and_le_right

end CoreLink.Lib.Word
