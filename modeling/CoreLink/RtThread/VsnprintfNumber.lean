/-
# `CoreLink.RtThread.VsnprintfNumber` — the text of a number that `print_number` puts.

`size` counts the padding down: the digits are taken off the width, then one for the sign, and one each time that
`while (size-- > 0)` ends. As long as it does not wrap, the text is a field (`numberText_eq`): the padding is what the width
has over the sign and the digits. If it wraps, which takes a precision near to 2 ^ 31, the text is too long
(`length_numberText_of_wraps`).

The digits are those of base 10 or 16 (`reverse_digitsOf`), also for base 8.
-/
import CoreLink.Lib.Numeral
import CoreLink.RtThread.Vsnprintf

namespace CoreLink.RtThread.Kservice

open CoreLink.Lib

/-! ## The padding -/

/-- The characters of padding: in front of the sign, behind it, and behind the digits. -/
def paddingOf (s p : ℤ) (type : PrintFlags) (sign : Option Char) : ℕ × ℕ × ℕ :=
  let size := int32 (s - p)
  let plain := !(type.zeropad || type.left)
  let size₁ := if plain then counted (blanksOf sign size) else size
  let size₂ := if sign.isSome then int32 (size₁ - 1) else size₁
  let size₃ := if !type.left then counted size₂ else size₂
  (if plain then (blanksOf sign size).toNat else 0, if !type.left then size₂.toNat else 0, size₃.toNat)

/-- The digits and the zeros in front of them. -/
def bodyOf (precision : ℤ) (tmp : List Char) : List Char :=
  List.replicate (digitCount precision tmp - tmp.length).toNat '0' ++ (if precision ≠ 0 then tmp.reverse else [])

/-- What is taken off `size` beside the digits. -/
def countedBelow (type : PrintFlags) (sign : Option Char) : ℤ :=
  (if type.left then 0 else if type.zeropad then 1 else 2) + sign.toList.length

/-- The width that `print_number` gets: -1 if there is none, and the negated -2 ^ 31 is itself. -/
structure IsWidth (s w : ℤ) (type : PrintFlags) : Prop where
  fits : s < 2 ^ 31
  eq : -1 ≤ s ∧ w = s ∨ s = -2 ^ 31 ∧ w = 2 ^ 31 ∧ type.left = true

/-- The text, with its padding counted. -/
theorem numberText_padding (num : BitVec 32) (base : ℕ) (s precision : ℤ) (type : PrintFlags) :
    numberText num base s precision type =
      List.replicate (paddingOf s (digitCount precision (digitsOf type base (magnitude type num))) type (signOf type num)).1 ' ' ++
        ((signOf type num).toList ++ (List.replicate
          (paddingOf s (digitCount precision (digitsOf type base (magnitude type num))) type (signOf type num)).2.1
            (if type.zeropad && !type.left then '0' else ' ') ++
          (bodyOf precision (digitsOf type base (magnitude type num)) ++ List.replicate
            (paddingOf s (digitCount precision (digitsOf type base (magnitude type num))) type (signOf type num)).2.2 ' '))) := by
  unfold numberText paddingOf bodyOf
  rw [List.append_assoc]
  cases type.left <;> cases type.zeropad <;> rfl

section Padding

variable {s w p : ℤ} {type : PrintFlags} {sign : Option Char}

/-- The width without the digits is an `int`. -/
theorem int32_width (hs : IsWidth s w type) (hpos : 0 < p) (hfits : p < 2 ^ 31) : int32 (s - p) = w - p := by
  have hint := hs.fits
  unfold int32
  obtain ⟨hlow, rfl⟩ | ⟨rfl, rfl, -⟩ := hs.eq <;> omega

theorem counted_eq {size : ℤ} (hlow : -2 ^ 31 < size) (hhigh : size < 2 ^ 31) : counted size = min size 0 - 1 := by
  unfold counted
  split
  · omega
  · rw [int32_of_fits (by omega) (by omega)]
    omega

/-- **The padding is what the width has over the digits and the sign**, if `size` does not wrap. -/
theorem paddingOf_eq (hs : IsWidth s w type) (hpos : 0 < p) (hfits : p < 2 ^ 31)
    (hcount : -2 ^ 31 ≤ w - p - countedBelow type sign) :
    paddingOf s p type sign =
      if type.left then (0, 0, (w - p - sign.toList.length).toNat)
      else if type.zeropad then (0, (w - p - sign.toList.length).toNat, 0)
      else ((w - p - sign.toList.length).toNat, 0, 0) := by
  have hint := hs.fits
  have hwidth := hs.eq
  unfold countedBelow at hcount
  unfold paddingOf
  dsimp only
  rw [int32_width hs hpos hfits]
  unfold blanksOf
  cases hl : type.left with
  | true =>
    cases sign with
    | none =>
      simp only [Bool.or_true, Bool.not_true, Bool.false_eq_true, if_true, if_false, Option.isSome_none, Option.toList_none,
        List.length_nil, Nat.cast_zero, sub_zero]
    | some c =>
      rw [hl] at hcount
      simp only [if_true, if_false, Option.toList_some, List.length_singleton, Nat.cast_one, zero_add, Bool.or_true, Bool.not_true,
        Bool.false_eq_true, Option.isSome_some, Prod.mk.injEq, true_and] at hcount ⊢
      rw [int32_of_fits (by omega) (by omega)]
  | false =>
    cases hz : type.zeropad with
    | true =>
      cases sign with
      | none =>
        rw [hl, hz] at hcount
        simp only [if_true, if_false, Bool.false_eq_true, Option.toList_none, List.length_nil, Nat.cast_zero, add_zero, hl, and_false,
          or_false, Bool.or_false, Bool.not_true, Bool.not_false, Option.isSome_none, sub_zero, Prod.mk.injEq, true_and]
          at hcount hwidth ⊢
        rw [counted_eq (by omega) (by omega)]
        omega
      | some c =>
        rw [hl, hz] at hcount
        simp only [if_true, if_false, Bool.false_eq_true, Option.toList_some, List.length_singleton, Nat.cast_one, hl, and_false,
          or_false, Bool.or_false, Bool.not_true, Bool.not_false, Option.isSome_some, Prod.mk.injEq, true_and]
          at hcount hwidth ⊢
        rw [int32_of_fits (by omega) (by omega), counted_eq (by omega) (by omega)]
        omega
    | false =>
      cases sign with
      | none =>
        rw [hl, hz] at hcount
        simp only [if_true, if_false, Bool.false_eq_true, Option.toList_none, List.length_nil, Nat.cast_zero, add_zero, hl, and_false,
          or_false, Bool.or_self, Bool.not_false, Option.isSome_none, Bool.false_and, sub_zero, Prod.mk.injEq, true_and]
          at hcount hwidth ⊢
        rw [counted_eq (by omega) (by omega), counted_eq (by omega) (by omega)]
        omega
      | some c =>
        rw [hl, hz] at hcount
        simp only [if_true, if_false, Bool.false_eq_true, Option.toList_some, List.length_singleton, Nat.cast_one, hl, and_false,
          or_false, Bool.or_self, Bool.not_false, Option.isSome_some, Bool.true_and, decide_eq_true_eq, Prod.mk.injEq]
          at hcount hwidth ⊢
        rw [counted_eq (by split <;> omega) (by split <;> omega), int32_of_fits (by split <;> omega) (by split <;> omega),
          counted_eq (by split <;> omega) (by split <;> omega)]
        split <;> omega

/-- **A `size` that wraps** comes back as a padding of its own. -/
theorem paddingOf_wraps (hs : IsWidth s w type) (hpos : 0 < p) (hfits : p < 2 ^ 31)
    (hcount : w - p - countedBelow type sign < -2 ^ 31) :
    0 < (paddingOf s p type sign).1 + (paddingOf s p type sign).2.1 + (paddingOf s p type sign).2.2 := by
  have hint := hs.fits
  have hwidth := hs.eq
  unfold countedBelow at hcount
  unfold paddingOf
  dsimp only
  rw [int32_width hs hpos hfits]
  unfold blanksOf counted
  cases hl : type.left with
  | true =>
    cases sign with
    | none =>
      rw [hl] at hcount
      simp only [if_true, Option.toList_none, List.length_nil, Nat.cast_zero] at hcount
      omega
    | some c =>
      rw [hl] at hcount
      simp only [if_true, if_false, Option.toList_some, List.length_singleton, Nat.cast_one, Bool.or_true, Bool.not_true,
        Bool.false_eq_true, Option.isSome_some] at hcount ⊢
      unfold int32
      omega
  | false =>
    simp only [hl, Bool.false_eq_true, and_false, or_false] at hwidth
    cases hz : type.zeropad with
    | true =>
      cases sign with
      | none =>
        rw [hl, hz] at hcount
        simp only [if_true, if_false, Bool.false_eq_true, Option.toList_none, List.length_nil, Nat.cast_zero, Bool.or_false,
          Bool.not_true, Bool.not_false, Option.isSome_none] at hcount ⊢
        rw [if_neg (by omega)]
        unfold int32
        omega
      | some c =>
        rw [hl, hz] at hcount
        simp only [if_true, if_false, Bool.false_eq_true, Option.toList_some, List.length_singleton, Nat.cast_one,
          Bool.or_false, Bool.not_true, Bool.not_false, Option.isSome_some] at hcount ⊢
        unfold int32
        split <;> omega
    | false =>
      cases sign with
      | none =>
        rw [hl, hz] at hcount
        simp only [if_true, if_false, Bool.false_eq_true, Option.toList_none, List.length_nil, Nat.cast_zero, Bool.or_self,
          Bool.not_false, Option.isSome_none, Bool.false_and] at hcount ⊢
        rw [if_neg (show ¬0 < w - p by omega)]
        unfold int32
        split <;> omega
      | some c =>
        rw [hl, hz] at hcount
        simp only [if_true, if_false, Bool.false_eq_true, Option.toList_some, List.length_singleton, Nat.cast_one, Bool.or_self,
          Bool.not_false, Option.isSome_some, Bool.true_and, decide_eq_true_eq] at hcount ⊢
        rw [if_neg (show ¬0 < w - p by omega), if_neg (show ¬0 < w - p by omega)]
        unfold int32
        split <;> omega

end Padding

/-! ## The digits -/

/-- The base that `divide` divides by. -/
def radix (base : ℕ) : ℕ := if base = 10 then 10 else 16

def letterCase (large : Bool) : Char → Char := if large then Char.toUpper else id

theorem radix_bounds (base : ℕ) : 10 ≤ radix base ∧ radix base ≤ 16 := by
  unfold radix
  split <;> omega

theorem divide_eq (n base : ℕ) : divide n base = (n % radix base, n / radix base) := by
  unfold divide radix
  split <;> rfl

/-- The tables. -/
theorem getD_digits (large : Bool) {d : ℕ} (hd : d < 16) :
    (if large then largeDigits else smallDigits).getD d ' ' = letterCase large (Nat.digitChar d) := by
  have hall : ∀ large : Bool, ∀ d : Fin 16, (if large then largeDigits else smallDigits).getD d ' ' =
      letterCase large (Nat.digitChar d) := by decide
  exact hall large ⟨d, hd⟩

theorem reverse_digitLoop (large : Bool) (base : ℕ) {n : ℕ} (hn : n ≠ 0) :
    (digitLoop (if large then largeDigits else smallDigits) base n).reverse =
      (Nat.toDigits (radix base) n).map (letterCase large) := by
  have hbounds := radix_bounds base
  induction n using Nat.strongRecOn with
  | ind n ih =>
    have hmod := Nat.mod_lt n (show radix base > 0 by omega)
    rw [digitLoop, dif_neg hn, divide_eq, List.reverse_cons, Nat.toDigits_eq_if (by omega)]
    dsimp only
    rw [getD_digits large (by omega)]
    by_cases hsmall : n < radix base
    · rw [if_pos hsmall, Nat.div_eq_of_lt hsmall, digitLoop, dif_pos rfl, Nat.mod_eq_of_lt hsmall]
      rfl
    · have hrest : n / radix base ≠ 0 := (Nat.div_pos (by omega) (by omega)).ne'
      rw [if_neg hsmall, ih _ (Nat.div_lt_self (by omega) (by omega)) hrest, List.map_append]
      rfl

/-- **The digits of `print_number`**: those of base 10 or 16. -/
theorem reverse_digitsOf (type : PrintFlags) (base : ℕ) (num : BitVec 32) :
    (digitsOf type base num).reverse = (Nat.toDigits (radix base) num.toNat).map (letterCase type.large) := by
  unfold digitsOf
  by_cases hzero : num = 0
  · rw [if_pos hzero, hzero, show (0 : BitVec 32).toNat = 0 from rfl, Nat.toDigits_zero]
    cases type.large <;> rfl
  · rw [if_neg hzero]
    exact reverse_digitLoop type.large base fun h => hzero (BitVec.eq_of_toNat_eq h)

theorem length_digitsOf (type : PrintFlags) (base : ℕ) (num : BitVec 32) :
    0 < (digitsOf type base num).length ∧ (digitsOf type base num).length ≤ 10 := by
  have hlength := congrArg List.length (reverse_digitsOf type base num)
  rw [List.length_reverse, List.length_map] at hlength
  rw [hlength]
  have hbounds := radix_bounds base
  refine ⟨Nat.length_toDigits_pos, (Nat.length_toDigits_le_iff (by omega) (by decide)).mpr ?_⟩
  calc num.toNat < 2 ^ 32 := num.isLt
    _ ≤ 10 ^ 10 := by decide
    _ ≤ radix base ^ 10 := Nat.pow_le_pow_left hbounds.1 10

/-! ## Against a field -/

section Field

variable {num : BitVec 32} {base : ℕ} {s w precision : ℤ} {type : PrintFlags}

/-- The digits that are asked for are some, and an `int`. -/
theorem digitCount_bounds (type : PrintFlags) (base : ℕ) (num : BitVec 32) (hprecision : precision < 2 ^ 31) :
    0 < digitCount precision (digitsOf type base num) ∧ digitCount precision (digitsOf type base num) < 2 ^ 31 := by
  have hlength := length_digitsOf type base num
  unfold digitCount
  split <;> omega

/-- **A field**, if `size` does not wrap. -/
theorem numberText_eq (hs : IsWidth s w type) (hprecision : precision < 2 ^ 31)
    (hcount : -2 ^ 31 ≤ w - digitCount precision (digitsOf type base (magnitude type num)) -
      countedBelow type (signOf type num)) :
    numberText num base s precision type = justify type.left type.zeropad
      (w - digitCount precision (digitsOf type base (magnitude type num)) - (signOf type num).toList.length).toNat
      (signOf type num).toList (bodyOf precision (digitsOf type base (magnitude type num))) := by
  obtain ⟨hpos, hfits⟩ := digitCount_bounds type base (magnitude type num) hprecision
  rw [numberText_padding, paddingOf_eq hs hpos hfits hcount]
  unfold justify
  cases type.left <;> cases type.zeropad <;> simp

theorem length_toList_le (c : Option Char) : c.toList.length ≤ 1 := by
  cases c with
  | none => exact Nat.zero_le 1
  | some c => exact Nat.le_refl 1

/-- The digits and the zeros are those that are asked for, if there is no precision of 0. -/
theorem length_bodyOf {tmp : List Char} (hprecision : precision ≠ 0) : ((bodyOf precision tmp).length : ℤ) = digitCount precision tmp := by
  unfold bodyOf digitCount
  rw [if_pos hprecision, List.length_append, List.length_replicate, List.length_reverse]
  split <;> omega

/-- A text that is longer than its digits and its sign, though no width asks for it, if it does. -/
theorem length_numberText_of_wraps (hs : IsWidth s w type) (hprecision : precision < 2 ^ 31)
    (hcount : w - digitCount precision (digitsOf type base (magnitude type num)) - countedBelow type (signOf type num) <
      -2 ^ 31) :
    max w (digitCount precision (digitsOf type base (magnitude type num)) + (signOf type num).toList.length) <
      (numberText num base s precision type).length := by
  obtain ⟨hpos, hfits⟩ := digitCount_bounds type base (magnitude type num) hprecision
  have hwraps := paddingOf_wraps hs hpos hfits hcount
  have hsign : (signOf type num).toList.length ≤ 1 := length_toList_le (signOf type num)
  have hlow : -1 ≤ w := by
    obtain ⟨h, rfl⟩ | ⟨-, rfl, -⟩ := hs.eq <;> omega
  unfold countedBelow at hcount
  have hlarge : 10 < digitCount precision (digitsOf type base (magnitude type num)) := by
    split_ifs at hcount <;> omega
  have hgiven : precision ≠ 0 := by
    rintro rfl
    have hlength := length_digitsOf type base (magnitude type num)
    unfold digitCount at hlarge
    split at hlarge <;> omega
  have hbody : ((bodyOf precision (digitsOf type base (magnitude type num))).length : ℤ) = _ := length_bodyOf hgiven
  rw [numberText_padding]
  simp only [List.length_append, List.length_replicate]
  split_ifs at hcount <;> omega

/-- **No precision, or one that is not 0**: the text is a field, exactly if `size` does not wrap and the zeros are blanks in a
field with a precision. -/
theorem numberText_eq_field_iff (hs : IsWidth s w type) {prec : Option ℕ}
    (hprec : precision = -1 ∧ prec = none ∨ 0 < precision ∧ precision < 2 ^ 31 ∧ prec = some precision.toNat) :
    numberText num base s precision type = field type.left type.zeropad w.toNat prec (signOf type num).toList
        (digitsOf type base (magnitude type num)).reverse ↔
      -2 ^ 31 ≤ w - digitCount precision (digitsOf type base (magnitude type num)) - countedBelow type (signOf type num) ∧
        (0 < precision → type.zeropad = true → type.left = true ∨
          w ≤ digitCount precision (digitsOf type base (magnitude type num)) + (signOf type num).toList.length) := by
  have hsign : (signOf type num).toList.length ≤ 1 := length_toList_le (signOf type num)
  have hlow : -1 ≤ w := by
    obtain ⟨h, rfl⟩ | ⟨-, rfl, -⟩ := hs.eq <;> omega
  have hlength := length_digitsOf type base (magnitude type num)
  have hfits : precision < 2 ^ 31 := by omega
  -- the body is that of the field
  have hasked : digitCount precision (digitsOf type base (magnitude type num)) =
      max (prec.getD 1) (digitsOf type base (magnitude type num)).length := by
    unfold digitCount
    obtain ⟨rfl, rfl⟩ | ⟨hpos, -, rfl⟩ := hprec
    · rw [Option.getD_none, if_pos (by omega)]
      omega
    · rw [Option.getD_some]
      split <;> omega
  have hbody : bodyOf precision (digitsOf type base (magnitude type num)) =
      List.replicate (prec.getD 1 - (digitsOf type base (magnitude type num)).reverse.length) '0' ++
        (digitsOf type base (magnitude type num)).reverse := by
    unfold bodyOf
    rw [if_pos (by omega), hasked, List.length_reverse]
    congr 2
    omega
  by_cases hcount : -2 ^ 31 ≤ w - digitCount precision (digitsOf type base (magnitude type num)) - countedBelow type (signOf type num)
  · have hpad : w.toNat - ((signOf type num).toList.length +
        (bodyOf precision (digitsOf type base (magnitude type num))).length) =
        (w - digitCount precision (digitsOf type base (magnitude type num)) - (signOf type num).toList.length).toNat := by
      have hlength' : ((bodyOf precision (digitsOf type base (magnitude type num))).length : ℤ) = _ :=
        length_bodyOf (show precision ≠ 0 by omega)
      omega
    rw [numberText_eq hs hfits hcount, field, ← hbody, hpad]
    obtain ⟨hnone, rfl⟩ | ⟨hpos, -, rfl⟩ := hprec
    · rw [Option.isNone_none, Bool.and_true]
      exact iff_of_true rfl ⟨hcount, fun h => absurd h (by omega)⟩
    · rw [Option.isNone_some, Bool.and_false]
      cases hz : type.zeropad with
      | false => exact iff_of_true rfl ⟨hcount, fun _ h => absurd h (by decide)⟩
      | true =>
        rw [justify_zero_iff]
        constructor
        · intro h
          refine ⟨hcount, fun _ _ => h.imp id fun h => ?_⟩
          omega
        · intro h
          refine (h.2 hpos rfl).imp id fun h => ?_
          omega
  · have hlong := length_numberText_of_wraps hs hfits (not_le.mp hcount)
    refine ⟨fun h => ?_, fun h => absurd h.1 hcount⟩
    have heq := congrArg List.length h
    rw [length_field, List.length_reverse] at heq
    omega

/-- **A precision of 0**: no digits are put, but one is taken off the width. So the text is a field only for a 0 that fills it,
with a precision of 0. -/
theorem numberText_zero_eq_field_iff (hs : IsWidth s w type) {prec : Option ℕ} {digits : List Char} (hdigits : digits = [] → prec = some 0) :
    numberText num base s 0 type = field type.left type.zeropad w.toNat prec (signOf type num).toList digits ↔
      digits = [] ∧ w ≤ (signOf type num).toList.length := by
  have hsign : (signOf type num).toList.length ≤ 1 := length_toList_le (signOf type num)
  have hlength := length_digitsOf type base (magnitude type num)
  have hlow : -1 ≤ w := by
    obtain ⟨h, rfl⟩ | ⟨-, rfl, -⟩ := hs.eq <;> omega
  have hasked : digitCount 0 (digitsOf type base (magnitude type num)) = (digitsOf type base (magnitude type num)).length :=
    if_pos (by omega)
  have hbody : bodyOf 0 (digitsOf type base (magnitude type num)) = [] := by
    unfold bodyOf
    rw [hasked, sub_self]
    rfl
  rw [numberText_eq hs (by decide) (by rw [hasked]; unfold countedBelow; split_ifs <;> omega), hbody, hasked]
  constructor
  · intro h
    have heq := congrArg List.length h
    rw [length_field, length_justify, List.length_nil] at heq
    cases digits with
    | nil =>
      rw [hdigits rfl, Option.getD_some, List.length_nil] at heq
      exact ⟨rfl, by omega⟩
    | cons c l =>
      rw [List.length_cons] at heq
      omega
  · rintro ⟨rfl, hw⟩
    rw [hdigits rfl, field, Option.getD_some, List.length_nil, Nat.sub_self, List.replicate_zero, List.append_nil,
      List.length_nil, show w.toNat - ((signOf type num).toList.length + 0) = 0 by omega, justify_zero_pad]
    rw [show (w - (digitsOf type base (magnitude type num)).length - (signOf type num).toList.length).toNat = 0 by omega,
      justify_zero_pad]

/-- The digits of a text without a sign, however its padding came about. -/
theorem significant_numberText (hsign : signOf type num = none) (hprecision : precision ≠ 0)
    (hblank : ' ' ∉ (digitsOf type base (magnitude type num)).reverse)
    (hzero : (digitsOf type base (magnitude type num)).reverse.head? ≠ some '0') :
    significant (numberText num base s precision type) = (digitsOf type base (magnitude type num)).reverse := by
  rw [numberText_padding, hsign, Option.toList_none, List.nil_append, bodyOf, if_pos hprecision, List.append_assoc]
  refine significant_field _ _ _ _ ?_ hblank hzero
  split
  · exact Or.inl rfl
  · exact Or.inr rfl

end Field

end CoreLink.RtThread.Kservice
