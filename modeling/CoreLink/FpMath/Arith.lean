/-
# `CoreLink.FpMath.Arith` — the arithmetic of `fpmath/math-sll`: sums, shifts and the product of fixed point numbers.

An `sll` is an integer between `-2 ^ 63` and `2 ^ 63`, in units of `2 ^ (-32)`. A signed sum or difference that does not fit has
no result, as in C. The product is put together in unsigned words from the halves of the factors, and always has one.
-/
import CoreLink.Lib.SignedWord
import Mathlib.Data.Int.ModEq
import Mathlib.Data.Rat.Floor

namespace CoreLink.FpMath

open CoreLink.Lib

/-! ## Constants -/

def CONST_0 : ℤ := 0
def CONST_1 : ℤ := 0x100000000
def CONST_2 : ℤ := 0x200000000
def CONST_3 : ℤ := 0x300000000
def CONST_1_2 : ℤ := 0x80000000
def CONST_1_3 : ℤ := 0x55555555
def CONST_1_5 : ℤ := 0x33333333
def CONST_1_6 : ℤ := 0x2aaaaaaa
def CONST_1_7 : ℤ := 0x24924924
def CONST_1_9 : ℤ := 0x1c71c71c
def CONST_1_10 : ℤ := 0x19999999
def CONST_1_11 : ℤ := 0x1745d174
def CONST_1_12 : ℤ := 0x15555555
def CONST_1_20 : ℤ := 0xccccccc
def CONST_1_30 : ℤ := 0x8888888
def CONST_1_42 : ℤ := 0x6186186
def CONST_1_56 : ℤ := 0x4924924
def CONST_1_72 : ℤ := 0x38e38e3
def CONST_1_90 : ℤ := 0x2d82d82
def CONST_1_110 : ℤ := 0x253c825
def CONST_1_132 : ℤ := 0x1f07c1f
def CONST_1_156 : ℤ := 0x1a41a41

/-! ## Sums and shifts -/

/-- The range of the type. -/
def Fits (x : ℤ) : Prop := -2 ^ 63 ≤ x ∧ x < 2 ^ 63

instance (x : ℤ) : Decidable (Fits x) := inferInstanceAs (Decidable (_ ∧ _))

/-- The result of a signed operation; undefined where it does not fit. -/
def signed (x : ℤ) : Option ℤ := if Fits x then some x else none

def slladd (x y : ℤ) : Option ℤ := signed (x + y)

def sllsub (x y : ℤ) : Option ℤ := signed (x - y)

def sllneg (s : ℤ) : Option ℤ := signed (-s)

/-- `x << 1`. -/
def sllmul2 (x : ℤ) : Option ℤ := signed (x * 2)

/-- `x << 2`. -/
def sllmul4 (x : ℤ) : Option ℤ := signed (x * 4)

/-- `x >> n`, which rounds down. -/
def slldiv2n (x : ℤ) (n : ℕ) : ℤ := x / 2 ^ n

def slldiv2 (x : ℤ) : ℤ := slldiv2n x 1

def slldiv4 (x : ℤ) : ℤ := slldiv2n x 2

/-- `(int) (s >> 32)`. -/
def sll2int (s : ℤ) : ℤ := int32 (slldiv2n s 32)

/-- `(sll) i << 32`. -/
def int2sll (i : ℤ) : ℤ := i * 2 ^ 32

theorem signed_of_fits {x : ℤ} (hx : Fits x) : signed x = some x := if_pos hx

theorem slladd_of_fits {x y : ℤ} (h : Fits (x + y)) : slladd x y = some (x + y) := signed_of_fits h

theorem sllsub_of_fits {x y : ℤ} (h : Fits (x - y)) : sllsub x y = some (x - y) := signed_of_fits h

theorem sll2int_eq {x : ℤ} (hx : Fits x) : sll2int x = x / 2 ^ 32 := by
  obtain ⟨hlow, hhigh⟩ := hx
  unfold sll2int slldiv2n int32
  omega

/-! ## The product -/

/-- The conversion to `unsigned long long`. -/
def toUll (x : ℤ) : ℤ := x % 2 ^ 64

/-- The conversion to `unsigned int`. -/
def toUint (x : ℤ) : ℤ := x % 2 ^ 32

/-- **`sllmul`**; the product of the upper halves is one of 32 bits. -/
def sllmul (x y : ℤ) : ℤ :=
  let x_hi := int32 (toUll x / 2 ^ 32)
  let x_lo := toUint x
  let y_hi := int32 (toUll y / 2 ^ 32)
  let y_lo := toUint y
  int64 (toUll (toUll (toUll (int32 (x_hi * y_hi)) * 2 ^ 32)
    + toUll (toUll (toUll x_hi * y_lo) + toUll (x_lo * toUll y_hi))
    + toUll (toUll x_lo * y_lo) / 2 ^ 32))

/-- The halves of a number that fits. -/
theorem halves {x : ℤ} (hx : Fits x) : int32 (toUll x / 2 ^ 32) = x / 2 ^ 32 ∧ toUint x = x % 2 ^ 32 := by
  obtain ⟨hlow, hhigh⟩ := hx
  unfold int32 toUll toUint
  omega

/-- The product of the halves. -/
theorem mul_halves (x y : ℤ) :
    x * y / 2 ^ 32 = x / 2 ^ 32 * (y / 2 ^ 32) * 2 ^ 32 + (x / 2 ^ 32 * (y % 2 ^ 32) + x % 2 ^ 32 * (y / 2 ^ 32)) +
      x % 2 ^ 32 * (y % 2 ^ 32) / 2 ^ 32 := by
  have hsplit : x * y = x % 2 ^ 32 * (y % 2 ^ 32) + (x / 2 ^ 32 * (y / 2 ^ 32) * 2 ^ 32 +
      (x / 2 ^ 32 * (y % 2 ^ 32) + x % 2 ^ 32 * (y / 2 ^ 32))) * 2 ^ 32 := by
    conv_lhs => rw [← Int.mul_ediv_add_emod x (2 ^ 32), ← Int.mul_ediv_add_emod y (2 ^ 32)]
    ring
  rw [hsplit, Int.add_mul_ediv_right _ _ (by norm_num)]
  ring

theorem toUll_modEq (x : ℤ) : toUll x ≡ x [ZMOD 2 ^ 64] := Int.mod_modEq x _

theorem int32_shift_modEq (x : ℤ) : int32 x * 2 ^ 32 ≡ x * 2 ^ 32 [ZMOD 2 ^ 64] := by
  show int32 x * 2 ^ 32 % 2 ^ 64 = x * 2 ^ 32 % 2 ^ 64
  unfold int32
  omega

theorem low_product (x y : ℤ) : toUll (toUll (x % 2 ^ 32) * (y % 2 ^ 32)) = x % 2 ^ 32 * (y % 2 ^ 32) := by
  have hx : 0 ≤ x % 2 ^ 32 ∧ x % 2 ^ 32 < 2 ^ 32 := by omega
  have hy : 0 ≤ y % 2 ^ 32 ∧ y % 2 ^ 32 < 2 ^ 32 := by omega
  have hword : toUll (x % 2 ^ 32) = x % 2 ^ 32 := Int.emod_eq_of_lt hx.1 (by omega)
  rw [hword]
  apply Int.emod_eq_of_lt (mul_nonneg hx.1 hy.1)
  calc x % 2 ^ 32 * (y % 2 ^ 32) < 2 ^ 32 * 2 ^ 32 := mul_lt_mul'' hx.2 hy.2 hx.1 hy.1
    _ = 2 ^ 64 := by norm_num

/-- **The product is the one of the integers, rounded down, modulo `2 ^ 64`.** -/
theorem sllmul_eq {x y : ℤ} (hx : Fits x) (hy : Fits y) : sllmul x y = int64 (x * y / 2 ^ 32) := by
  obtain ⟨hxhi, hxlo⟩ := halves hx
  obtain ⟨hyhi, hylo⟩ := halves hy
  have hhigh : toUll (toUll (int32 (x / 2 ^ 32 * (y / 2 ^ 32))) * 2 ^ 32) ≡ x / 2 ^ 32 * (y / 2 ^ 32) * 2 ^ 32 [ZMOD 2 ^ 64] :=
    (toUll_modEq _).trans (((toUll_modEq _).mul_right _).trans (int32_shift_modEq _))
  have hleft : toUll (toUll (x / 2 ^ 32) * (y % 2 ^ 32)) ≡ x / 2 ^ 32 * (y % 2 ^ 32) [ZMOD 2 ^ 64] :=
    (toUll_modEq _).trans ((toUll_modEq _).mul_right _)
  have hright : toUll (x % 2 ^ 32 * toUll (y / 2 ^ 32)) ≡ x % 2 ^ 32 * (y / 2 ^ 32) [ZMOD 2 ^ 64] :=
    (toUll_modEq _).trans ((toUll_modEq _).mul_left _)
  unfold sllmul
  simp only [hxhi, hxlo, hyhi, hylo, low_product]
  apply int64_congr
  rw [mul_halves x y]
  exact (toUll_modEq _).trans ((hhigh.add ((toUll_modEq _).trans (hleft.add hright))).add_right _)

theorem sllmul_of_fits {x y : ℤ} (hx : Fits x) (hy : Fits y) (h : Fits (x * y / 2 ^ 32)) : sllmul x y = x * y / 2 ^ 32 := by
  rw [sllmul_eq hx hy, int64_of_fits h.1 h.2]

/-- **`sllmul` is exact**: the product in units of `2 ^ (-32)`, rounded down, where it fits. -/
theorem sllmul_floor {x y : ℤ} (hx : Fits x) (hy : Fits y) (h : Fits ⌊((x : ℚ) * y) / 2 ^ 32⌋) :
    sllmul x y = ⌊((x : ℚ) * y) / 2 ^ 32⌋ := by
  have hfloor : ⌊((x : ℚ) * y) / 2 ^ 32⌋ = x * y / 2 ^ 32 := by
    exact_mod_cast Rat.floor_intCast_div_natCast (x * y) (2 ^ 32)
  rw [hfloor] at h ⊢
  exact sllmul_of_fits hx hy h

/-- `-1.5 * 2.25`. -/
theorem sllmul_floor_negative : sllmul (-0x180000000) 0x240000000 = ⌊((-0x180000000 : ℤ) : ℚ) * (0x240000000 : ℤ) / 2 ^ 32⌋ := by
  apply sllmul_floor (by decide) (by decide)
  have hfloor : ⌊((-0x180000000 : ℤ) : ℚ) * (0x240000000 : ℤ) / 2 ^ 32⌋ = -0x360000000 := by
    rw [Int.floor_eq_iff]
    norm_num
  rw [hfloor]
  decide

/-! ## Bounds of products -/

theorem fits_of_abs {x B : ℤ} (h : |x| ≤ B) (hB : B < 2 ^ 63) : Fits x := by
  obtain ⟨hlow, hhigh⟩ := abs_le.mp h
  exact ⟨by omega, by omega⟩

theorem abs_ediv_le {x B : ℤ} {n : ℕ} (h : |x| ≤ B * 2 ^ n) : |x / 2 ^ n| ≤ B := by
  have hpos : (0 : ℤ) < 2 ^ n := by positivity
  obtain ⟨hlow, hhigh⟩ := abs_le.mp h
  rw [abs_le]
  constructor
  · rw [Int.le_ediv_iff_mul_le hpos]
    linarith
  · exact Int.ediv_le_of_le_mul hpos hhigh

/-- **A product** that is bounded is exact. -/
theorem sllmul_bounded {x y B : ℤ} (hx : Fits x) (hy : Fits y) (h : |x * y| ≤ B * 2 ^ 32) (hB : B < 2 ^ 63) :
    sllmul x y = x * y / 2 ^ 32 ∧ |sllmul x y| ≤ B := by
  have hbound : |x * y / 2 ^ 32| ≤ B := abs_ediv_le h
  have heq : sllmul x y = x * y / 2 ^ 32 := sllmul_of_fits hx hy (fits_of_abs hbound hB)
  exact ⟨heq, heq ▸ hbound⟩

theorem fits_sllmul {x y : ℤ} (hx : Fits x) (hy : Fits y) : Fits (sllmul x y) := by
  rw [sllmul_eq hx hy]
  unfold Fits int64
  omega

end CoreLink.FpMath
