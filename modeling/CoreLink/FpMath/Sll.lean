/-
# `CoreLink.FpMath.Sll` — `fpmath/math-sll/math-sll.c`: between double and the fixed point format `sll`.

An `sll` is a signed number of 64 bits that stands for as many units of `2 ^ (-32)`. `dbl2sll` and `sll2dbl` take the IEEE 754
pattern of a double apart and put one together. They see it as two words in memory, whose order is exchanged in a build that
defines `BROKEN_IEEE754_DOUBLE`, for a machine that stores a double with its more significant word first.
-/
import CoreLink.Lib.Binary64
import CoreLink.Lib.SignedWord
import CoreLink.Lib.Word
import Mathlib.Tactic.LinearCombination

namespace CoreLink.FpMath

open CoreLink.Lib

/-! ## The union -/

/-- The members `u[0]` and `u[1]` of the union; the latter is the more significant half of `ull`. -/
structure Words where
  u0 : ℕ
  u1 : ℕ
deriving DecidableEq, Repr

namespace Words

def ofUll (ull : ℕ) : Words := ⟨ull % 2 ^ 32, ull / 2 ^ 32⟩

def ull (u : Words) : ℕ := u.u1 * 2 ^ 32 + u.u0

def exchange (u : Words) : Words := ⟨u.u1, u.u0⟩

/-- A double of a given pattern in memory; `broken` tells whether its words stand in the other order. -/
def ofDouble (broken : Bool) (d : ℕ) : Words := if broken then (ofUll d).exchange else ofUll d

/-- The pattern of the double in memory. -/
def double (broken : Bool) (u : Words) : ℕ := if broken then u.exchange.ull else u.ull

/-- What the `#if` before the unpacking leaves. -/
theorem exchange_ofDouble (broken : Bool) (d : ℕ) :
    (if broken then (ofDouble broken d).exchange else ofDouble broken d) = ofUll d := by
  cases broken with
  | true => rfl
  | false => rfl

/-- The double that the `#if` after the packing leaves. -/
theorem double_exchange (broken : Bool) (u : Words) : double broken (if broken then u.exchange else u) = u.ull := by
  cases broken with
  | true => rfl
  | false => rfl

end Words

/-! ## Unpacking -/

/-- `ull >>= n`; undefined where `n` is not smaller than the width. -/
def shiftRight (ull n : ℕ) : Option ℕ := if n < 64 then some (ull >>> n) else none

/-- The significand, with its leading 1 at bit 62. -/
def unpackMantissa (u : Words) : Words where
  u0 := (u.u0 <<< 10) % 2 ^ 32
  u1 := 0x40000000 ||| ((u.u1 <<< 10) % 2 ^ 32 &&& 0x3ffffc00) ||| ((u.u0 >>> 22) &&& 0x3ff)

/-- `(in.u[1] >> 20) & 0x7ff`. -/
def unpackExponent (u : Words) : ℕ := (u.u1 >>> 20) &&& 0x7ff

/-- **`dbl2sll`** on the double of the given pattern. -/
def dbl2sll (broken : Bool) (dbl : ℕ) : Option ℤ :=
  let stored := Words.ofDouble broken dbl
  let input := if broken then stored.exchange else stored
  let exp := unpackExponent input
  if exp ≠ 0 then do
    -- the count wraps where the exponent is greater than 1053
    let ull ← shiftRight (unpackMantissa input).ull (Word.sub 32 (1023 + 30) exp)
    if input.u1 &&& 0x80000000 ≠ 0 then some (int64 (-int64 ull)) else some (int64 ull)
  else some 0

/-! ## Packing -/

/-- The loop that moves the leading 1 to bit 63. It gets as many rounds as the word has bits. -/
def normalize : ℕ → ℕ → ℕ → Option (ℕ × ℕ)
  | 0, _, _ => none
  | rounds + 1, ull, exp =>
    if ull ≠ 0 ∧ (Words.ofUll ull).u1 &&& 0x80000000 = 0 then normalize rounds ((ull <<< 1) % 2 ^ 64) (Word.pred 32 exp)
    else some (ull, exp)

/-- **`sll2dbl`**: the pattern of the double. -/
def sll2dbl (broken : Bool) (s : ℤ) : Option ℕ :=
  if s = 0 then some 0
  else
    let flag := if s < 1 then 0x80000000 else 0
    let ull := if s < 1 then int64 (-s) % 2 ^ 64 else s
    (normalize 64 ull.toNat (1023 + 30)).map fun (ull, exp) =>
      let retval := Words.ofUll (((ull <<< 1) % 2 ^ 64) >>> 12)
      let packed : Words := ⟨retval.u0, retval.u1 ||| (flag ||| ((exp + 1) <<< 20) % 2 ^ 32)⟩
      Words.double broken (if broken then packed.exchange else packed)

/-! ## Fields of words -/

/-- The uppermost bit of a word. -/
theorem highBit_eq_zero_iff {x : ℕ} (hx : x < 2 ^ 32) : x &&& 0x80000000 = 0 ↔ x < 2 ^ 31 := by
  rw [show 0x80000000 = 2 ^ 31 from rfl, Nat.and_two_pow]
  cases hbit : x.testBit 31 with
  | true => exact ⟨fun h => absurd h (by decide), fun h => absurd hbit (by rw [Nat.testBit_lt_two_pow h]; decide)⟩
  | false =>
    refine ⟨fun _ => ?_, fun _ => rfl⟩
    rw [Nat.testBit_eq_decide_div_mod_eq, decide_eq_false_iff_not] at hbit
    omega

theorem ofUll_highBit {x : ℕ} (hx : x < 2 ^ 64) : (Words.ofUll x).u1 &&& 0x80000000 = 0 ↔ x < 2 ^ 63 := by
  show x / 2 ^ 32 &&& 0x80000000 = 0 ↔ x < 2 ^ 63
  rw [highBit_eq_zero_iff (by omega)]
  omega

/-- The significand is the fraction below the leading 1. -/
theorem unpackMantissa_ofUll (d : ℕ) :
    (unpackMantissa (Words.ofUll d)).ull = 2 ^ 62 + Binary64.fraction d * 2 ^ 10 := by
  have hhigh : (d / 2 ^ 32) <<< 10 % 2 ^ 32 &&& 0x3ffffc00 = d / 2 ^ 32 % 2 ^ 20 * 2 ^ 10 := by
    have hshift : (d / 2 ^ 32) <<< 10 % 2 ^ 32 = (d / 2 ^ 32 % 2 ^ 22) <<< 10 := by
      rw [Nat.shiftLeft_eq, Nat.shiftLeft_eq]
      omega
    rw [hshift, show 0x3ffffc00 = (2 ^ 20 - 1) <<< 10 from rfl, ← Nat.shiftLeft_and_distrib, Nat.and_two_pow_sub_one_eq_mod,
      Nat.shiftLeft_eq]
    omega
  have hlow : (d % 2 ^ 32) >>> 22 &&& 0x3ff = d % 2 ^ 32 / 2 ^ 22 := by
    rw [show 0x3ff = 2 ^ 10 - 1 from rfl, Nat.and_two_pow_sub_one_eq_mod, Nat.shiftRight_eq_div_pow]
    omega
  have hlead : 0x40000000 ||| d / 2 ^ 32 % 2 ^ 20 * 2 ^ 10 = 2 ^ 30 + d / 2 ^ 32 % 2 ^ 20 * 2 ^ 10 :=
    (Nat.two_pow_add_eq_or_of_lt (i := 30) (by omega) 1).symm
  have hword : (unpackMantissa (Words.ofUll d)).u1 = 2 ^ 30 + d / 2 ^ 32 % 2 ^ 20 * 2 ^ 10 + d % 2 ^ 32 / 2 ^ 22 := by
    show 0x40000000 ||| ((d / 2 ^ 32) <<< 10 % 2 ^ 32 &&& 0x3ffffc00) ||| ((d % 2 ^ 32) >>> 22 &&& 0x3ff) = _
    rw [hhigh, hlow, hlead, show 2 ^ 30 + d / 2 ^ 32 % 2 ^ 20 * 2 ^ 10 = 2 ^ 10 * (2 ^ 20 + d / 2 ^ 32 % 2 ^ 20) by ring]
    exact (Nat.two_pow_add_eq_or_of_lt (by omega) _).symm
  have hrest : (unpackMantissa (Words.ofUll d)).u0 = d % 2 ^ 32 * 2 ^ 10 % 2 ^ 32 := by
    show (d % 2 ^ 32) <<< 10 % 2 ^ 32 = _
    rw [Nat.shiftLeft_eq]
  unfold Words.ull Binary64.fraction
  rw [hword, hrest]
  omega

theorem unpackExponent_ofUll (d : ℕ) : unpackExponent (Words.ofUll d) = Binary64.exponent d := by
  show (d / 2 ^ 32) >>> 20 &&& 0x7ff = d / 2 ^ 52 % 2 ^ 11
  rw [show 0x7ff = 2 ^ 11 - 1 from rfl, Nat.and_two_pow_sub_one_eq_mod, Nat.shiftRight_eq_div_pow, Nat.div_div_eq_div_mul,
    ← pow_add]

/-! ## The value that `dbl2sll` returns -/

/-- A number with a sign. -/
def withSign (s : Bool) (n : ℕ) : ℤ := if s then -n else n

theorem withSign_int64 {s : Bool} {n : ℕ} (hn : n < 2 ^ 63) : (if s then int64 (-int64 n) else int64 n) = withSign s n := by
  unfold withSign int64
  cases s with
  | true =>
    simp only [if_true]
    omega
  | false =>
    simp only [Bool.false_eq_true, if_false]
    omega

theorem dbl2sll_zero (broken : Bool) {d : ℕ} (he : Binary64.exponent d = 0) : dbl2sll broken d = some 0 := by
  simp only [dbl2sll, Words.exchange_ofDouble, unpackExponent_ofUll]
  exact if_neg (not_not_intro he)

/-- Any other pattern is shifted. -/
theorem dbl2sll_shift (broken : Bool) {d : ℕ} (hd : d < 2 ^ 64) (he : Binary64.exponent d ≠ 0) :
    dbl2sll broken d = (shiftRight (2 ^ 62 + Binary64.fraction d * 2 ^ 10) (Word.sub 32 1053 (Binary64.exponent d))).map
      (withSign (Binary64.sign d)) := by
  have hsign : (Words.ofUll d).u1 &&& 0x80000000 ≠ 0 ↔ Binary64.sign d = true := by
    rw [Ne, ofUll_highBit hd, not_lt]
    exact decide_eq_true_iff.symm
  have hmantissa : 2 ^ 62 + Binary64.fraction d * 2 ^ 10 < 2 ^ 63 := by
    unfold Binary64.fraction
    omega
  simp only [dbl2sll, Words.exchange_ofDouble, unpackExponent_ofUll, unpackMantissa_ofUll, hsign]
  rw [if_pos he]
  unfold shiftRight
  split
  · have hn : (2 ^ 62 + Binary64.fraction d * 2 ^ 10) >>> Word.sub 32 1053 (Binary64.exponent d) < 2 ^ 63 := by
      rw [Nat.shiftRight_eq_div_pow]
      exact (Nat.div_le_self _ _).trans_lt hmantissa
    rw [Option.map_some, ← withSign_int64 hn]
    show (if _ then some _ else some _) = _
    split
    · rfl
    · rfl
  · rfl

/-- The shift is by less than the width. -/
theorem dbl2sll_of_le (broken : Bool) {d : ℕ} (hd : d < 2 ^ 64) (hlow : 990 ≤ Binary64.exponent d)
    (hhigh : Binary64.exponent d ≤ 1053) :
    dbl2sll broken d = some (withSign (Binary64.sign d)
      ((2 ^ 62 + Binary64.fraction d * 2 ^ 10) / 2 ^ (1053 - Binary64.exponent d))) := by
  rw [dbl2sll_shift broken hd (by omega), Word.sub_of_le hhigh (by norm_num), shiftRight, if_pos (by omega),
    Nat.shiftRight_eq_div_pow]
  rfl

/-- The shift is by the width or more. -/
theorem dbl2sll_of_lt (broken : Bool) {d : ℕ} (hd : d < 2 ^ 64) (hpos : Binary64.exponent d ≠ 0)
    (hlow : Binary64.exponent d < 990) : dbl2sll broken d = none := by
  rw [dbl2sll_shift broken hd hpos, Word.sub_of_le (by omega) (by norm_num), shiftRight, if_neg (by omega)]
  rfl

theorem toZero_value (d : ℕ) (y : ℚ) {n : ℕ} (h : toZero (Binary64.magnitude d * y) = n) :
    toZero (Binary64.value d * y) = withSign (Binary64.sign d) n := by
  unfold Binary64.value withSign
  split
  · rw [neg_mul, toZero_neg, h]
  · exact h

/-- A double below `2 ^ 31` has no exponent above 1053. -/
theorem exponent_le {d : ℕ} (h : |Binary64.value d| < 2 ^ 31) : Binary64.exponent d ≤ 1053 := by
  by_contra hgt
  rw [not_le] at hgt
  rw [Binary64.abs_value, Binary64.magnitude, if_neg (by omega)] at h
  have hmantissa : (2 : ℚ) ^ 52 ≤ (2 ^ 52 + Binary64.fraction d : ℕ) := by exact_mod_cast Nat.le_add_right _ _
  have hexponent : (2 : ℚ) ^ (-21 : ℤ) ≤ 2 ^ ((Binary64.exponent d : ℤ) - 1075) :=
    zpow_le_zpow_right₀ (by norm_num) (by omega)
  have hle := mul_le_mul hmantissa hexponent (by positivity) (by positivity)
  norm_num at hle h
  linarith

/-- A double without a leading 1 is less than one unit. -/
theorem toZero_magnitude_zero {d : ℕ} (he : Binary64.exponent d = 0) : toZero (Binary64.magnitude d * 2 ^ 32) = 0 := by
  have hfraction : (Binary64.fraction d : ℚ) < 2 ^ (52 : ℤ) := by
    unfold Binary64.fraction
    exact_mod_cast Nat.mod_lt d (by norm_num)
  apply toZero_eq_zero
  · exact mul_nonneg (Binary64.magnitude_nonneg d) (by norm_num)
  · rw [Binary64.magnitude, if_pos he, ← zpow_natCast]
    calc (Binary64.fraction d : ℚ) * 2 ^ (-1074 : ℤ) * 2 ^ ((32 : ℕ) : ℤ)
        < 2 ^ (52 : ℤ) * 2 ^ (-1074 : ℤ) * 2 ^ ((32 : ℕ) : ℤ) :=
          mul_lt_mul_of_pos_right (mul_lt_mul_of_pos_right hfraction (zpow_pos (by norm_num) _)) (zpow_pos (by norm_num) _)
      _ = 2 ^ (-990 : ℤ) := by rw [← zpow_add₀ (by norm_num), ← zpow_add₀ (by norm_num)]; rfl
      _ < 1 := zpow_lt_one_of_neg₀ (by norm_num) (by norm_num)

/-- **The shift truncates**: what is left of the significand is the number of units in the double. -/
theorem toZero_magnitude {d : ℕ} (hpos : Binary64.exponent d ≠ 0) (hhigh : Binary64.exponent d ≤ 1053) :
    toZero (Binary64.magnitude d * 2 ^ 32) =
      ((2 ^ 62 + Binary64.fraction d * 2 ^ 10) / 2 ^ (1053 - Binary64.exponent d) : ℕ) := by
  rw [← toZero_natCast_div]
  congr 1
  have hsplit : (2 : ℚ) ^ ((Binary64.exponent d : ℤ) - 1075) * 2 ^ (1053 - Binary64.exponent d) * 2 ^ 22 = 1 := by
    rw [← zpow_natCast, ← zpow_natCast, ← zpow_add₀ (by norm_num), ← zpow_add₀ (by norm_num)]
    rw [show (Binary64.exponent d : ℤ) - 1075 + (1053 - Binary64.exponent d : ℕ) + (22 : ℕ) = 0 by omega, zpow_zero]
  rw [Binary64.magnitude, if_neg hpos, Nat.cast_pow, eq_div_iff (by positivity)]
  push_cast
  linear_combination (2 ^ 52 + (Binary64.fraction d : ℚ)) * 2 ^ 10 * hsplit

/-- **When `dbl2sll` is right.** -/
theorem dbl2sll_eq_iff (broken : Bool) {d : ℕ} (hd : d < 2 ^ 64) (hvalue : |Binary64.value d| < 2 ^ 31) :
    dbl2sll broken d = some (toZero (Binary64.value d * 2 ^ 32)) ↔
      Binary64.exponent d = 0 ∨ 990 ≤ Binary64.exponent d := by
  have hhigh := exponent_le hvalue
  by_cases hzero : Binary64.exponent d = 0
  · rw [dbl2sll_zero broken hzero, toZero_value d _ (toZero_magnitude_zero hzero)]
    refine iff_of_true ?_ (Or.inl hzero)
    unfold withSign
    split
    · rfl
    · rfl
  · by_cases hlow : 990 ≤ Binary64.exponent d
    · rw [dbl2sll_of_le broken hd hlow hhigh, toZero_value d _ (toZero_magnitude hzero hhigh)]
      exact iff_of_true rfl (Or.inr hlow)
    · rw [dbl2sll_of_lt broken hd hzero (not_le.mp hlow)]
      exact iff_of_false (Option.some_ne_none _).symm (not_or.mpr ⟨hzero, hlow⟩)

/-! ## The double that `sll2dbl` returns -/

/-- **The loop ends** after `j` rounds, where `j` shifts move the leading 1 to bit 63. -/
theorem normalize_eq {j : ℕ} : ∀ {rounds ull exp : ℕ}, 2 ^ 63 ≤ ull * 2 ^ j → ull * 2 ^ j < 2 ^ 64 → j < rounds → j ≤ exp →
    normalize rounds ull exp = some (ull * 2 ^ j, exp - j) := by
  induction j with
  | zero =>
    intro rounds ull exp hlow hhigh hrounds _
    rw [pow_zero, mul_one] at hlow hhigh ⊢
    obtain ⟨rounds, rfl⟩ := Nat.exists_eq_succ_of_ne_zero hrounds.ne'
    rw [normalize, if_neg]
    · rfl
    · rw [ofUll_highBit hhigh]
      omega
  | succ j ih =>
    intro rounds ull exp hlow hhigh hrounds hexp
    obtain ⟨rounds, rfl⟩ := Nat.exists_eq_succ_of_ne_zero (Nat.ne_of_gt (Nat.zero_lt_of_lt hrounds))
    have hpos : 0 < 2 ^ j := Nat.two_pow_pos j
    have hdouble : ull * 2 ^ (j + 1) = 2 * ull * 2 ^ j := by ring
    have hull : 2 * ull < 2 ^ 64 := (Nat.le_mul_of_pos_right _ hpos).trans_lt (hdouble ▸ hhigh)
    have hne : ull ≠ 0 := by
      rintro rfl
      simp at hlow
    have hshift : (ull <<< 1) % 2 ^ 64 = 2 * ull := by
      rw [Nat.shiftLeft_eq]
      omega
    rw [normalize, if_pos ⟨hne, (ofUll_highBit (by omega)).mpr (by omega)⟩, hshift, Word.pred, if_neg (by omega), hdouble]
    rw [hdouble] at hlow hhigh
    rw [ih hlow hhigh (by omega) (by omega)]
    congr 2
    omega

/-- The sign bit and the exponent are put above the fraction. -/
theorem pack_ull {f exp : ℕ} (s : Bool) (hf : f < 2 ^ 52) (he : exp < 2 ^ 11) :
    Words.ull ⟨(Words.ofUll f).u0, (Words.ofUll f).u1 ||| ((if s then 0x80000000 else 0) ||| (exp <<< 20) % 2 ^ 32)⟩ =
      Binary64.pack s exp f := by
  have hshift : (exp <<< 20) % 2 ^ 32 = 2 ^ 20 * exp := by
    rw [Nat.shiftLeft_eq]
    omega
  have hflag : (if s then 0x80000000 else 0) ||| 2 ^ 20 * exp = 2 ^ 20 * ((if s then 2 ^ 11 else 0) + exp) := by
    cases s with
    | true => exact (Nat.two_pow_add_eq_or_of_lt (i := 31) (by omega) 1).symm.trans (by simp only [if_true]; ring)
    | false => simp
  have hword : f / 2 ^ 32 ||| 2 ^ 20 * ((if s then 2 ^ 11 else 0) + exp) =
      2 ^ 20 * ((if s then 2 ^ 11 else 0) + exp) + f / 2 ^ 32 := by
    rw [Nat.or_comm]
    exact (Nat.two_pow_add_eq_or_of_lt (by omega) _).symm
  show (f / 2 ^ 32 ||| ((if s then 0x80000000 else 0) ||| (exp <<< 20) % 2 ^ 32)) * 2 ^ 32 + f % 2 ^ 32 = Binary64.pack s exp f
  rw [hshift, hflag, hword]
  unfold Binary64.pack
  split
  · omega
  · omega

/-- The significand that the loop leaves of `n` units. -/
def significand (n : ℕ) : ℕ := n * 2 ^ (63 - Nat.log 2 n)

theorem log_le {n : ℕ} (hn : n < 2 ^ 64) : Nat.log 2 n ≤ 63 := by
  rcases Nat.eq_zero_or_pos n with rfl | hpos
  · simp
  · exact Nat.lt_succ_iff.mp (Nat.log_lt_of_lt_pow hpos.ne' hn)

theorem significand_range {n : ℕ} (hpos : n ≠ 0) (hn : n < 2 ^ 64) : 2 ^ 63 ≤ significand n ∧ significand n < 2 ^ 64 := by
  have hlog := log_le hn
  have hsplit : 2 ^ 63 = 2 ^ Nat.log 2 n * 2 ^ (63 - Nat.log 2 n) := by
    rw [← pow_add, Nat.add_sub_cancel' hlog]
  constructor
  · rw [hsplit, significand]
    exact Nat.mul_le_mul_right _ (Nat.pow_log_le_self 2 hpos)
  · rw [pow_succ, hsplit, mul_right_comm, ← pow_succ, significand]
    exact Nat.mul_lt_mul_of_pos_right (Nat.lt_pow_succ_log_self (by norm_num) n) (Nat.two_pow_pos _)

/-- The sign, the place of the first bit, and the 52 bits behind it. -/
def packed (s : ℤ) : ℕ := Binary64.pack (s < 0) (991 + Nat.log 2 s.natAbs) (significand s.natAbs / 2 ^ 11 - 2 ^ 52)

/-- **What `sll2dbl` packs.** -/
theorem sll2dbl_eq (broken : Bool) {s : ℤ} (hs : s ≠ 0) (hlow : -2 ^ 63 ≤ s) (hhigh : s < 2 ^ 63) :
    sll2dbl broken s = some (packed s) := by
  have hull : (if s < 1 then int64 (-s) % 2 ^ 64 else s).toNat = s.natAbs := by
    unfold int64
    split
    · omega
    · omega
  have hbound : s.natAbs < 2 ^ 64 := by omega
  have hlog := log_le hbound
  obtain ⟨hge, hlt⟩ := significand_range (Int.natAbs_ne_zero.mpr hs) hbound
  have hfraction : ((significand s.natAbs <<< 1) % 2 ^ 64) >>> 12 = significand s.natAbs / 2 ^ 11 - 2 ^ 52 := by
    rw [Nat.shiftLeft_eq, Nat.shiftRight_eq_div_pow]
    omega
  have hexponent : 1053 - (63 - Nat.log 2 s.natAbs) + 1 = 991 + Nat.log 2 s.natAbs := by omega
  have hflag : (if s < 1 then 0x80000000 else 0) = if decide (s < 0) = true then 0x80000000 else 0 := by
    congr 1
    rw [decide_eq_true_eq, eq_iff_iff]
    omega
  have hloop : normalize 64 s.natAbs (1023 + 30) = some (significand s.natAbs, 1053 - (63 - Nat.log 2 s.natAbs)) :=
    normalize_eq hge hlt (by omega) (by omega)
  simp only [sll2dbl, if_neg hs, hull, hloop, Option.map_some, Words.double_exchange, hexponent, hflag, hfraction]
  exact congrArg some (pack_ull _ (by omega) (by omega))

/-! ## Its value -/

/-- The first bits of the significand are the units, truncated to as many bits. -/
theorem toZero_significand {n : ℕ} (hn : n < 2 ^ 64) :
    toZero ((n : ℚ) / 2 ^ 32 / 2 ^ ((Nat.log 2 n : ℤ) - 84)) = (significand n / 2 ^ 11 : ℕ) := by
  have hlog := log_le hn
  have hpower : (2 : ℚ) ^ (63 - Nat.log 2 n) * (2 ^ 32 * 2 ^ ((Nat.log 2 n : ℤ) - 84)) = 2 ^ 11 := by
    rw [← zpow_natCast, ← zpow_natCast, ← zpow_natCast, ← zpow_add₀ (by norm_num), ← zpow_add₀ (by norm_num)]
    congr 1
    omega
  rw [← toZero_natCast_div, significand, div_div]
  congr 1
  rw [div_eq_div_iff (mul_ne_zero (by norm_num) (zpow_ne_zero _ (by norm_num))) (by positivity)]
  push_cast
  linear_combination (n : ℚ) * -hpower

/-- **The units are truncated to 53 bits.** -/
theorem truncBits_units {n : ℕ} (hpos : n ≠ 0) (hn : n < 2 ^ 64) :
    truncBits 53 ((n : ℚ) / 2 ^ 32) = (significand n / 2 ^ 11 : ℕ) * 2 ^ ((Nat.log 2 n : ℤ) - 84) := by
  have hdiv : ∀ z : ℤ, (2 : ℚ) ^ (z - 32) = 2 ^ z / 2 ^ 32 := fun z => by
    rw [zpow_sub₀ (by norm_num)]
    rfl
  have hlow : (2 : ℚ) ^ ((Nat.log 2 n : ℤ) - 32) ≤ (n : ℚ) / 2 ^ 32 := by
    rw [hdiv, zpow_natCast]
    gcongr
    exact_mod_cast Nat.pow_log_le_self 2 hpos
  have hhigh : (n : ℚ) / 2 ^ 32 < 2 ^ ((Nat.log 2 n : ℤ) - 32 + 1) := by
    rw [sub_add_eq_add_sub, hdiv]
    gcongr
    exact_mod_cast Nat.lt_pow_succ_log_self (by norm_num) n
  rw [truncBits_eq hlow hhigh]
  have hscale : (Nat.log 2 n : ℤ) - 32 + 1 - (53 : ℕ) = (Nat.log 2 n : ℤ) - 84 := by
    push_cast
    ring
  rw [hscale, toZero_significand hn]
  rfl

section Packed

variable {s : ℤ} (hs : s ≠ 0) (hbound : s.natAbs < 2 ^ 64)
include hs hbound

theorem exponent_packed : Binary64.exponent (packed s) = 991 + Nat.log 2 s.natAbs := by
  have hlog := log_le hbound
  obtain ⟨hge, hlt⟩ := significand_range (Int.natAbs_ne_zero.mpr hs) hbound
  exact Binary64.exponent_pack (by omega) (by omega)

theorem fraction_packed : 2 ^ 52 + Binary64.fraction (packed s) = significand s.natAbs / 2 ^ 11 := by
  obtain ⟨hge, hlt⟩ := significand_range (Int.natAbs_ne_zero.mpr hs) hbound
  rw [packed, Binary64.fraction_pack (by omega)]
  omega

theorem sign_packed : Binary64.sign (packed s) = decide (s < 0) := by
  have hlog := log_le hbound
  obtain ⟨hge, hlt⟩ := significand_range (Int.natAbs_ne_zero.mpr hs) hbound
  exact Binary64.sign_pack (by omega) (by omega)

theorem packed_lt : packed s < 2 ^ 64 := by
  have hlog := log_le hbound
  obtain ⟨hge, hlt⟩ := significand_range (Int.natAbs_ne_zero.mpr hs) hbound
  unfold packed Binary64.pack
  split
  · omega
  · omega

theorem finite_packed : Binary64.Finite (packed s) := by
  have hlog := log_le hbound
  rw [Binary64.Finite, exponent_packed hs hbound]
  omega

/-- **The double of a number of units is this number, truncated.** -/
theorem value_packed : Binary64.value (packed s) = truncBits 53 (s / 2 ^ 32) := by
  have hmagnitude : Binary64.magnitude (packed s) = truncBits 53 ((s.natAbs : ℚ) / 2 ^ 32) := by
    rw [truncBits_units (Int.natAbs_ne_zero.mpr hs) hbound, Binary64.magnitude, exponent_packed hs hbound, if_neg (by omega),
      fraction_packed hs hbound]
    congr 2
    push_cast
    ring
  rw [Binary64.value, sign_packed hs hbound, hmagnitude]
  by_cases hneg : s < 0
  · have habs : (s : ℚ) = -s.natAbs := by
      rw [Nat.cast_natAbs, abs_of_neg hneg, Int.cast_neg, neg_neg]
    rw [if_pos (decide_eq_true hneg), habs, neg_div, truncBits_neg]
  · have habs : (s : ℚ) = s.natAbs := by
      rw [Nat.cast_natAbs, abs_of_nonneg (not_lt.mp hneg)]
    rw [if_neg (by simpa using hneg), habs]

end Packed

/-- **Every number of units has a double.** -/
theorem sll2dbl_spec (broken : Bool) {s : ℤ} (hlow : -2 ^ 63 ≤ s) (hhigh : s < 2 ^ 63) :
    ∃ d, sll2dbl broken s = some d ∧ Binary64.Finite d ∧ Binary64.value d = truncBits 53 (s / 2 ^ 32) := by
  by_cases hs : s = 0
  · refine ⟨0, if_pos hs, ?_, ?_⟩
    · unfold Binary64.Finite
      decide
    · rw [hs, Int.cast_zero, zero_div, truncBits_zero]
      exact Binary64.value_zero
  · have hbound : s.natAbs < 2 ^ 64 := by omega
    exact ⟨packed s, sll2dbl_eq broken hs hlow hhigh, finite_packed hs hbound, value_packed hs hbound⟩

/-- Up to 53 bits nothing of the significand is lost. -/
theorem significand_exact {n : ℕ} (hpos : n ≠ 0) (hn : n ≤ 2 ^ 53) :
    2 ^ 10 * (significand n / 2 ^ 11) / 2 ^ (62 - Nat.log 2 n) = n := by
  have hlog : Nat.log 2 n ≤ 53 := (Nat.log_mono_right hn).trans (Nat.log_pow (by norm_num) 53).le
  have hdvd : 2 ^ 11 ∣ significand n := by
    rcases hlog.lt_or_eq with hlt | heq
    · exact Dvd.dvd.mul_left (pow_dvd_pow 2 (by omega)) n
    · have htop : n = 2 ^ 53 := le_antisymm hn (heq ▸ Nat.pow_log_le_self 2 hpos)
      rw [significand, heq, htop]
      norm_num
  have hsplit : significand n = 2 * (n * 2 ^ (62 - Nat.log 2 n)) := by
    rw [significand, show 63 - Nat.log 2 n = 62 - Nat.log 2 n + 1 by omega]
    ring
  have hhalf : 2 ^ 10 * (significand n / 2 ^ 11) = n * 2 ^ (62 - Nat.log 2 n) := by omega
  rw [hhalf, Nat.mul_div_cancel _ (Nat.two_pow_pos _)]

theorem withSign_natAbs (s : ℤ) : withSign (s < 0) s.natAbs = s := by
  unfold withSign
  by_cases hneg : s < 0
  · rw [if_pos (decide_eq_true hneg)]
    omega
  · rw [if_neg (by simpa using hneg)]
    omega

/-- **And back.** -/
theorem dbl2sll_sll2dbl (broken : Bool) {s : ℤ} (habs : |s| ≤ 2 ^ 53) : (sll2dbl broken s).bind (dbl2sll broken) = some s := by
  by_cases hs : s = 0
  · rw [hs, sll2dbl, if_pos rfl]
    exact dbl2sll_zero broken rfl
  · have hbound : s.natAbs ≤ 2 ^ 53 := by
      rw [Int.abs_eq_natAbs] at habs
      exact_mod_cast habs
    have hword : s.natAbs < 2 ^ 64 := hbound.trans_lt (by norm_num)
    have hlog : Nat.log 2 s.natAbs ≤ 53 := (Nat.log_mono_right hbound).trans (Nat.log_pow (by norm_num) 53).le
    have hexponent := exponent_packed hs hword
    have hmantissa : 2 ^ 62 + Binary64.fraction (packed s) * 2 ^ 10 = 2 ^ 10 * (significand s.natAbs / 2 ^ 11) := by
      rw [← fraction_packed hs hword]
      ring
    have hshift : 1053 - (991 + Nat.log 2 s.natAbs) = 62 - Nat.log 2 s.natAbs := by omega
    rw [sll2dbl_eq broken hs (by omega) (by omega), Option.bind_some,
      dbl2sll_of_le broken (packed_lt hs hword) (by omega) (by omega), sign_packed hs hword, hmantissa, hexponent, hshift,
      significand_exact (Int.natAbs_ne_zero.mpr hs) hbound]
    exact congrArg some (withSign_natAbs s)

/-- **The conversions**: from double exactly where the shift is defined, which leaves out the doubles with a leading 1 below half a
unit; to double always; and there and back up to 53 bits. -/
theorem sll_double_iff (broken : Bool) :
    (∀ d, d < 2 ^ 64 → Binary64.Finite d → |Binary64.value d| < 2 ^ 31 →
      (dbl2sll broken d = some (toZero (Binary64.value d * 2 ^ 32)) ↔
        Binary64.exponent d = 0 ∨ 990 ≤ Binary64.exponent d)) ∧
    (∀ s : ℤ, -2 ^ 63 ≤ s → s < 2 ^ 63 →
      ∃ d, sll2dbl broken s = some d ∧ Binary64.Finite d ∧ Binary64.value d = truncBits 53 (s / 2 ^ 32)) ∧
    (∀ s : ℤ, |s| ≤ 2 ^ 53 → (sll2dbl broken s).bind (dbl2sll broken) = some s) := by
  refine ⟨?_, ?_, ?_⟩
  · intro d hd _ hvalue
    exact dbl2sll_eq_iff broken hd hvalue
  · intro s hlow hhigh
    exact sll2dbl_spec broken hlow hhigh
  · intro s habs
    exact dbl2sll_sll2dbl broken habs

theorem sll_double_three_halves :
    dbl2sll true 0x3ff8000000000000 = some (toZero (Binary64.value 0x3ff8000000000000 * 2 ^ 32)) ∧
    (∃ d, sll2dbl true (-1) = some d ∧ Binary64.Finite d ∧ Binary64.value d = truncBits 53 ((-1 : ℤ) / 2 ^ 32)) ∧
    (sll2dbl false (-(2 ^ 53))).bind (dbl2sll false) = some (-(2 ^ 53)) := by
  have hexponent : Binary64.exponent 0x3ff8000000000000 = 1023 := by decide
  have hvalue : |Binary64.value 0x3ff8000000000000| < 2 ^ 31 := by
    rw [Binary64.abs_value, Binary64.magnitude, hexponent, show Binary64.fraction 0x3ff8000000000000 = 2 ^ 51 from rfl]
    norm_num
  refine ⟨?_, ?_, ?_⟩
  · refine ((sll_double_iff true).1 _ (by norm_num) ?_ hvalue).mpr (Or.inr (by rw [hexponent]; norm_num))
    rw [Binary64.Finite, hexponent]
    norm_num
  · exact (sll_double_iff true).2.1 (-1) (by norm_num) (by norm_num)
  · exact (sll_double_iff false).2.2 _ (by norm_num)

/-- `2 ^ (-40)`, of which no unit is left, asks for a shift by 70. -/
theorem dbl2sll_small : ¬∀ d, d < 2 ^ 64 → Binary64.Finite d → |Binary64.value d| < 2 ^ 31 →
    dbl2sll false d = some (toZero (Binary64.value d * 2 ^ 32)) := by
  intro h
  have hexponent : Binary64.exponent (983 * 2 ^ 52) = 983 := by decide
  have hnone : dbl2sll false (983 * 2 ^ 52) = none :=
    dbl2sll_of_lt false (by norm_num) (by rw [hexponent]; norm_num) (by rw [hexponent]; norm_num)
  have hvalue : |Binary64.value (983 * 2 ^ 52)| < 2 ^ 31 := by
    rw [Binary64.abs_value, Binary64.magnitude, hexponent, show Binary64.fraction (983 * 2 ^ 52) = 0 by decide]
    norm_num
  have hsome := h (983 * 2 ^ 52) (by norm_num) (by rw [Binary64.Finite, hexponent]; norm_num) hvalue
  rw [hnone] at hsome
  exact absurd hsome.symm (Option.some_ne_none _)

end CoreLink.FpMath
