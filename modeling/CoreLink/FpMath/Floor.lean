/-
# `CoreLink.FpMath.Floor` — `cl_floor` and `cl_ceil`: rounding doubles by way of the fixed point format.

The double is truncated to 32 bits behind the point before it is rounded. What the truncation takes away can be all that
distinguishes it from an integer; then it is rounded to that integer, although this is the wrong side of it.
-/
import CoreLink.FpMath.Arith
import CoreLink.FpMath.Sll

namespace CoreLink.FpMath

open CoreLink.Lib

/-! ## The functions -/

/-- `x & 0xffffffff00000000LL`. -/
def sllint (x : ℤ) : ℤ := int64 ((toUll x).toNat &&& 0xffffffff00000000 : ℕ)

def sllfloor (x : ℤ) : Option ℤ :=
  let retval := sllint x
  if retval > x then sllsub retval CONST_1 else some retval

def sllceil (x : ℤ) : Option ℤ :=
  let retval := sllint x
  if retval < x then slladd retval CONST_1 else some retval

/-- **`cl_floor`.** -/
def cl_floor (broken : Bool) (d : ℕ) : Option ℕ := (dbl2sll broken d).bind fun x => (sllfloor x).bind (sll2dbl broken)

/-- **`cl_ceil`.** -/
def cl_ceil (broken : Bool) (d : ℕ) : Option ℕ := (dbl2sll broken d).bind fun x => (sllceil x).bind (sll2dbl broken)

/-! ## Rounding an `sll` -/

/-- The mask rounds down. -/
theorem sllint_eq {x : ℤ} (hx : Fits x) : sllint x = x / 2 ^ 32 * 2 ^ 32 := by
  obtain ⟨hlow, hhigh⟩ := hx
  have hword : (toUll x).toNat < 2 ^ 64 := by
    unfold toUll
    omega
  have hmask : (toUll x).toNat &&& 0xffffffff00000000 = (toUll x).toNat / 2 ^ 32 * 2 ^ 32 :=
    Word.alignDown_eq (w := 64) (k := 32) (by norm_num) hword
  rw [sllint, hmask]
  unfold int64 toUll
  omega

theorem sllfloor_eq {x : ℤ} (hx : Fits x) : sllfloor x = some (x / 2 ^ 32 * 2 ^ 32) := by
  rw [sllfloor, sllint_eq hx]
  exact if_neg (by omega)

theorem sllceil_eq {x : ℤ} (hx : Fits x) (hceil : -(-x / 2 ^ 32) < 2 ^ 31) : sllceil x = some (-(-x / 2 ^ 32) * 2 ^ 32) := by
  obtain ⟨hlow, hhigh⟩ := hx
  rw [sllceil, sllint_eq ⟨hlow, hhigh⟩]
  show (if _ < x then slladd _ CONST_1 else some _) = _
  split
  case isTrue hlt =>
    rw [slladd_of_fits ⟨by unfold CONST_1; omega, by unfold CONST_1; omega⟩]
    unfold CONST_1
    congr 1
    omega
  case isFalse heq =>
    congr 1
    omega

/-- The double of an integer. -/
theorem sll2dbl_integer (broken : Bool) {k : ℤ} (hk : |k| < 2 ^ 31) :
    ∃ r, sll2dbl broken (k * 2 ^ 32) = some r ∧ Binary64.Finite r ∧ Binary64.value r = k := by
  obtain ⟨hlow, hhigh⟩ := abs_lt.mp hk
  obtain ⟨r, hr, hfinite, hvalue⟩ := sll2dbl_spec broken (s := k * 2 ^ 32) (by omega) (by omega)
  refine ⟨r, hr, hfinite, ?_⟩
  have hcast : ((k * 2 ^ 32 : ℤ) : ℚ) / 2 ^ 32 = k := by
    push_cast
    exact mul_div_cancel_right₀ _ (by norm_num)
  rw [hvalue, hcast, truncBits_intCast (hk.trans (by norm_num))]

/-! ## Rounding a double -/

/-- The units of a double fit. -/
theorem fits_toZero {v : ℚ} (hv : |v| < 2 ^ 31) : Fits (toZero (v * 2 ^ 32)) := by
  have habs : |((toZero (v * 2 ^ 32) : ℤ) : ℚ)| < 2 ^ 63 := by
    apply (abs_toZero_le _).trans_lt
    rw [abs_mul, abs_of_pos (by norm_num : (0 : ℚ) < 2 ^ 32)]
    linarith
  obtain ⟨hlow, hhigh⟩ := abs_lt.mp (by exact_mod_cast habs : |toZero (v * 2 ^ 32)| < 2 ^ 63)
  exact ⟨hlow.le, hhigh⟩

/-- What `cl_floor` rounds to: the integer below, but for a negative double that is less than `2 ^ (-32)` below an integer. -/
def floorOf (v : ℚ) : ℤ := if v < 0 ∧ ⌈v⌉ - v < 1 / 2 ^ 32 then ⌈v⌉ else ⌊v⌋

/-- What `cl_ceil` rounds to: the integer above, but for a positive double that is less than `2 ^ (-32)` above an integer. -/
def ceilOf (v : ℚ) : ℤ := if 0 < v ∧ v - ⌊v⌋ < 1 / 2 ^ 32 then ⌊v⌋ else ⌈v⌉

theorem toZero_floor (v : ℚ) : toZero (v * 2 ^ 32) / 2 ^ 32 = floorOf v := by
  exact_mod_cast toZero_mul_ediv (n := 2 ^ 32) (by norm_num) v

theorem toZero_ceil (v : ℚ) : -(-toZero (v * 2 ^ 32) / 2 ^ 32) = ceilOf v := by
  have hmirror : -v < 0 ∧ (⌈-v⌉ : ℚ) - -v < 1 / 2 ^ 32 ↔ 0 < v ∧ v - ⌊v⌋ < 1 / 2 ^ 32 := by
    rw [neg_lt_zero, Int.ceil_neg, Int.cast_neg, neg_sub_neg]
  rw [← toZero_neg, ← neg_mul, toZero_floor, floorOf, ceilOf]
  simp only [hmirror]
  split
  · rw [Int.ceil_neg, neg_neg]
  · rw [Int.floor_neg, neg_neg]

theorem abs_floorOf_lt {v : ℚ} (hv : |v| < 2 ^ 31) (hfloor : |⌊v⌋| < 2 ^ 31) : |floorOf v| < 2 ^ 31 := by
  unfold floorOf
  split
  case isTrue hneg =>
    obtain ⟨hlow, _⟩ := abs_lt.mp hv
    have hceil0 : ⌈v⌉ ≤ 0 := Int.ceil_le.mpr (by exact_mod_cast hneg.1.le)
    have hceil : -2 ^ 31 < ⌈v⌉ := Int.lt_ceil.mpr (by exact_mod_cast hlow)
    exact abs_lt.mpr ⟨hceil, hceil0.trans_lt (by norm_num)⟩
  case isFalse => exact hfloor

theorem abs_ceilOf_lt {v : ℚ} (hv : |v| < 2 ^ 31) (hceil : |⌈v⌉| < 2 ^ 31) : |ceilOf v| < 2 ^ 31 := by
  have hsame : ceilOf v = -floorOf (-v) := by
    rw [← toZero_ceil, ← toZero_floor, neg_mul, toZero_neg]
  rw [hsame, abs_neg]
  exact abs_floorOf_lt (by rwa [abs_neg]) (by rwa [Int.floor_neg, abs_neg])

section Double

variable (broken : Bool) {d : ℕ} (hd : d < 2 ^ 64) (hvalue : |Binary64.value d| < 2 ^ 31)
  (hshift : Binary64.exponent d = 0 ∨ 990 ≤ Binary64.exponent d)
include hd hvalue hshift

theorem cl_floor_eq (hfloor : |⌊Binary64.value d⌋| < 2 ^ 31) :
    ∃ r, cl_floor broken d = some r ∧ Binary64.Finite r ∧ Binary64.value r = floorOf (Binary64.value d) := by
  have hbound := abs_floorOf_lt hvalue hfloor
  rw [cl_floor, (dbl2sll_eq_iff broken hd hvalue).mpr hshift, Option.bind_some, sllfloor_eq (fits_toZero hvalue),
    Option.bind_some, toZero_floor]
  exact sll2dbl_integer broken hbound

theorem cl_ceil_eq (hceil : |⌈Binary64.value d⌉| < 2 ^ 31) :
    ∃ r, cl_ceil broken d = some r ∧ Binary64.Finite r ∧ Binary64.value r = ceilOf (Binary64.value d) := by
  have hbound := abs_ceilOf_lt hvalue hceil
  have htop : -(-toZero (Binary64.value d * 2 ^ 32) / 2 ^ 32) < 2 ^ 31 := by
    rw [toZero_ceil]
    exact (abs_lt.mp hbound).2
  rw [cl_ceil, (dbl2sll_eq_iff broken hd hvalue).mpr hshift, Option.bind_some, sllceil_eq (fits_toZero hvalue) htop,
    Option.bind_some, toZero_ceil]
  exact sll2dbl_integer broken hbound

end Double

/-- **`cl_floor` and `cl_ceil`**: the integers below and above, but for the doubles that truncation moves to an integer. -/
theorem cl_floor_ceil (broken : Bool) {d : ℕ} (hd : d < 2 ^ 64) (hvalue : |Binary64.value d| < 2 ^ 31)
    (hshift : Binary64.exponent d = 0 ∨ 990 ≤ Binary64.exponent d) :
    (|⌊Binary64.value d⌋| < 2 ^ 31 →
      ∃ r, cl_floor broken d = some r ∧ Binary64.Finite r ∧ Binary64.value r = floorOf (Binary64.value d)) ∧
    (|⌈Binary64.value d⌉| < 2 ^ 31 →
      ∃ r, cl_ceil broken d = some r ∧ Binary64.Finite r ∧ Binary64.value r = ceilOf (Binary64.value d)) :=
  ⟨cl_floor_eq broken hd hvalue hshift, cl_ceil_eq broken hd hvalue hshift⟩

/-- The pattern of `-1 - 2 ^ (-40)`. -/
theorem value_below_minus_one :
    Binary64.exponent 0xbff0000000001000 = 1023 ∧ Binary64.value 0xbff0000000001000 = -(1 + 1 / 2 ^ 40) := by
  have hexponent : Binary64.exponent 0xbff0000000001000 = 1023 := by decide
  refine ⟨hexponent, ?_⟩
  rw [Binary64.value, if_pos (by decide), Binary64.magnitude, hexponent,
    show Binary64.fraction 0xbff0000000001000 = 2 ^ 12 by decide]
  norm_num

/-- Both directions at `-1 - 2 ^ (-40)`. -/
theorem cl_floor_ceil_below_minus_one :
    (|⌊Binary64.value 0xbff0000000001000⌋| < 2 ^ 31 → ∃ r, cl_floor true 0xbff0000000001000 = some r ∧ Binary64.Finite r ∧
      Binary64.value r = floorOf (Binary64.value 0xbff0000000001000)) ∧
    (|⌈Binary64.value 0xbff0000000001000⌉| < 2 ^ 31 → ∃ r, cl_ceil true 0xbff0000000001000 = some r ∧ Binary64.Finite r ∧
      Binary64.value r = ceilOf (Binary64.value 0xbff0000000001000)) := by
  obtain ⟨hexponent, hvalue⟩ := value_below_minus_one
  refine cl_floor_ceil true (by norm_num) ?_ (Or.inr (by rw [hexponent]; norm_num))
  rw [hvalue]
  norm_num [abs_neg, abs_of_pos]

/-- `-1 - 2 ^ (-40)` is rounded down to `-1`. -/
theorem cl_floor_above : ¬∀ d, d < 2 ^ 64 → Binary64.Finite d → |Binary64.value d| < 2 ^ 31 → |⌊Binary64.value d⌋| < 2 ^ 31 →
    ∃ r, cl_floor false d = some r ∧ Binary64.value r = ⌊Binary64.value d⌋ := by
  intro h
  obtain ⟨hexponent, hvalue⟩ := value_below_minus_one
  have habs : |Binary64.value 0xbff0000000001000| < 2 ^ 31 := by
    rw [hvalue]
    norm_num [abs_neg, abs_of_pos]
  have hfloor : ⌊Binary64.value 0xbff0000000001000⌋ = -2 := by
    rw [hvalue, Int.floor_eq_iff]
    norm_num
  have hceil : ⌈Binary64.value 0xbff0000000001000⌉ = -1 := by
    rw [hvalue, Int.ceil_eq_iff]
    norm_num
  have hbound : |⌊Binary64.value 0xbff0000000001000⌋| < 2 ^ 31 := by
    rw [hfloor]
    norm_num
  obtain ⟨r, hr, -, hrvalue⟩ := cl_floor_eq false (by norm_num) habs (Or.inr (by rw [hexponent]; norm_num)) hbound
  obtain ⟨r', hr', hrvalue'⟩ := h 0xbff0000000001000 (by norm_num) (by rw [Binary64.Finite, hexponent]; norm_num) habs hbound
  rw [Option.some.inj (hr'.symm.trans hr), hrvalue, hfloor, floorOf, if_pos, hceil] at hrvalue'
  · norm_num at hrvalue'
  · rw [hceil, hvalue]
    norm_num

end CoreLink.FpMath
