/-
# `CoreLink.Lib.Digits` — the digits that a `do`-loop of divisions gives.

The loop gives the lowest digit first, and one digit for zero. `lowFirst` is `Nat.digits` but for that.
-/
import Mathlib.Data.Nat.Digits.Lemmas

namespace CoreLink.Lib

variable {b n k : ℕ}

/-- The digits of a number, the lowest first; zero has one. -/
def lowFirst (b n : ℕ) : List ℕ := if n = 0 then [0] else b.digits n

theorem lowFirst_of_lt (h : n < b) : lowFirst b n = [n] := by
  unfold lowFirst
  split
  next hn => rw [hn]
  next hn => exact Nat.digits_of_lt b n hn h

theorem lowFirst_of_le (hb : 1 < b) (h : b ≤ n) : lowFirst b n = n % b :: lowFirst b (n / b) := by
  have hdiv : n / b ≠ 0 := Nat.ne_of_gt (Nat.div_pos h (by omega))
  rw [lowFirst, if_neg (by omega), lowFirst, if_neg hdiv, Nat.digits_def' hb (by omega)]

theorem lowFirst_ne_nil (b n : ℕ) : lowFirst b n ≠ [] := by
  unfold lowFirst
  split
  next => exact List.cons_ne_nil _ _
  next hn => exact Nat.digits_ne_nil_iff_ne_zero.mpr hn

/-- The digits have the value of the number. -/
theorem ofDigits_lowFirst (b n : ℕ) : Nat.ofDigits b (lowFirst b n) = n := by
  unfold lowFirst
  split
  next hn => rw [hn, Nat.ofDigits_singleton]
  next => exact Nat.ofDigits_digits b n

theorem lt_of_mem_lowFirst (hb : 1 < b) {d : ℕ} (h : d ∈ lowFirst b n) : d < b := by
  unfold lowFirst at h
  split at h
  next =>
    rw [List.mem_singleton.mp h]
    omega
  next => exact Nat.digits_lt_base hb h

/-- How many digits there are. -/
theorem length_lowFirst_le_iff (hb : 1 < b) (hk : 0 < k) : (lowFirst b n).length ≤ k ↔ n < b ^ k := by
  unfold lowFirst
  split
  next hn =>
    rw [hn]
    exact iff_of_true hk (Nat.pow_pos (by omega))
  next => exact Nat.digits_length_le_iff hb n

end CoreLink.Lib
