/-
# `CoreLink.RtThread.VsnprintfConversion` — the numeric conversions against those of C.

A `Conversion` is one of `d`, `i`, `u`, `o`, `x` and `X` as a format has it: flags, a width, a precision and a qualifier, the
numbers as digits or as an argument. What C makes of it is a field (`Conversion.prescribed`). `rt_vsnprintf` reads the
conversion right (`scanSpec_text`), but not all that it puts is that field: octal numbers get the digits of base 16, a
precision of 0 puts no digits of any number and takes one off the width, a negative precision argument is taken for 0 and not
for none, a precision does not switch the padding with zeros off, and the counter of the padding wraps for precisions near to
2 ^ 31. `Conversion.prescribed_iff` says that nothing else goes wrong.
-/
import CoreLink.RtThread.VsnprintfNumber

namespace CoreLink.RtThread.Kservice

open CoreLink.Lib

/-! ## What C prescribes -/

/-- The flags. -/
inductive Flag where
  | left | zero | plus | space
  deriving DecidableEq

def Flag.char : Flag → Char
  | left => '-'
  | zero => '0'
  | plus => '+'
  | space => ' '

/-- Decimal digits whose value is an `int`. -/
structure Decimal where
  digits : List Char
  isDigit : ∀ c ∈ digits, c.isDigit = true
  fits : Nat.ofDigitChars 10 digits 0 < 2 ^ 31

/-- A width or a precision: digits, or a `*` for an argument. -/
inductive Amount where
  | digits (n : Decimal)
  | argument

inductive Qualifier where
  | h | l

def Qualifier.char : Qualifier → Char
  | h => 'h'
  | l => 'l'

inductive Kind where
  | d | i | u | o | x | X
  deriving DecidableEq

def Kind.char : Kind → Char
  | d => 'd'
  | i => 'i'
  | u => 'u'
  | o => 'o'
  | x => 'x'
  | X => 'X'

/-- A conversion. A width has digits, and does not begin with a 0, which would be a flag. -/
structure Conversion where
  flags : List Flag
  width : Option Amount
  precision : Option Amount
  qualifier : Option Qualifier
  kind : Kind
  widthFirst : ∀ n, width = some (.digits n) → ∃ c l, n.digits = c :: l ∧ c ≠ '0'

def Amount.text : Amount → List Char
  | digits n => n.digits
  | argument => ['*']

/-- The value: of the digits, or of the argument. -/
def Amount.value (word : BitVec 32) : Amount → ℤ
  | digits n => Nat.ofDigitChars 10 n.digits 0
  | argument => word.toInt

/-- The arguments that it takes. -/
def Amount.taken : Amount → ℕ
  | digits _ => 0
  | argument => 1

def Kind.isSigned : Kind → Bool
  | d => true
  | i => true
  | _ => false

def Kind.base : Kind → ℕ
  | o => 8
  | x => 16
  | X => 16
  | _ => 10

namespace Conversion

variable (c : Conversion) (args : Args) (k : ℕ)

/-- The conversion behind its `%`. -/
def text : List Char :=
  c.flags.map Flag.char ++ (c.width.elim [] Amount.text ++ (c.precision.elim [] (fun p => '.' :: p.text) ++
    (c.qualifier.elim [] (fun q => [q.char]) ++ [c.kind.char])))

/-- The width; 0 if there is none. -/
def widthValue : ℤ := c.width.elim 0 (Amount.value (args.word k))

/-- The argument behind that of the width. -/
def afterWidth : ℕ := k + c.width.elim 0 Amount.taken

/-- The argument that is converted. -/
def converted : ℕ := c.afterWidth k + c.precision.elim 0 Amount.taken

/-- The precision. A negative argument is none. -/
def precisionValue : Option ℕ :=
  match c.precision with
  | none => none
  | some p =>
    let v := p.value (args.word (c.afterWidth k))
    if v < 0 then none else some v.toNat

/-- The number, with the type that the qualifier says. -/
def number : ℤ :=
  let w := args.word (c.converted k)
  match c.qualifier with
  | some .h => if c.kind.isSigned then (w.setWidth 16).toInt else (w.setWidth 16).toNat
  | _ => if c.kind.isSigned then w.toInt else w.toNat

/-- The sign. -/
def sign : Option Char :=
  if c.kind.isSigned then
    if c.number args k < 0 then some '-'
    else if .plus ∈ c.flags then some '+'
    else if .space ∈ c.flags then some ' '
    else none
  else none

/-- The digits; a 0 with a precision of 0 has none. -/
def digits : List Char :=
  if c.number args k = 0 ∧ c.precisionValue args k = some 0 then []
  else (Nat.toDigits c.kind.base (c.number args k).natAbs).map (letterCase (decide (c.kind = .X)))

/-- A negative width is one behind the flag `-`. -/
def left : Bool := decide (.left ∈ c.flags) || decide (c.widthValue args k < 0)

/-- **What C prescribes.** -/
def prescribed : List Char :=
  field (c.left args k) (decide (.zero ∈ c.flags)) (c.widthValue args k).natAbs (c.precisionValue args k)
    (c.sign args k).toList (c.digits args k)

end Conversion

/-! ## The scan -/

/-- `scanFlags` ends in front of such a character. -/
def endsFlags (c : Char) : Prop := c ≠ '-' ∧ c ≠ '+' ∧ c ≠ ' ' ∧ c ≠ '#' ∧ c ≠ '0'

theorem scanFlags_ends {c : Char} (hc : endsFlags c) (flags : PrintFlags) (r : List Char) :
    scanFlags flags (c :: r) = (flags, c :: r) := by
  obtain ⟨hleft, hplus, hspace, hspecial, hzero⟩ := hc
  rw [scanFlags, if_neg hleft, if_neg hplus, if_neg hspace, if_neg hspecial, if_neg hzero]

/-- **The flags**: each is set that is there. -/
theorem scanFlags_text {c : Char} (hc : endsFlags c) (r : List Char) (flags : List Flag) (type : PrintFlags) :
    scanFlags type (flags.map Flag.char ++ c :: r) = ({ type with
      left := type.left || decide (.left ∈ flags), zeropad := type.zeropad || decide (.zero ∈ flags)
      plus := type.plus || decide (.plus ∈ flags), space := type.space || decide (.space ∈ flags) }, c :: r) := by
  induction flags generalizing type with
  | nil =>
    rw [List.map_nil, List.nil_append, scanFlags_ends hc]
    simp
  | cons f flags ih =>
    rw [List.map_cons, List.cons_append, scanFlags]
    cases f <;> simp [Flag.char, ih]

/-- The value of digits grows. -/
theorem le_ofDigitChars (l : List Char) (n : ℕ) : n ≤ Nat.ofDigitChars 10 l n := by
  rw [Nat.ofDigitChars_eq_ofDigitChars_zero]
  exact Nat.le_add_right_of_le (Nat.le_mul_of_pos_left n (Nat.pow_pos (by decide)))

/-- **`skip_atoi` is the value of the digits**, if it is an `int`. -/
theorem skipAtoi_digits {c : Char} (hc : c.isDigit = false) (r l : List Char) (hl : ∀ x ∈ l, x.isDigit = true) (n : ℕ)
    (hfits : Nat.ofDigitChars 10 l n < 2 ^ 31) :
    skipAtoi n (l ++ c :: r) = (((Nat.ofDigitChars 10 l n : ℕ) : ℤ), c :: r) := by
  induction l generalizing n with
  | nil =>
    rw [List.nil_append, skipAtoi, hc, Nat.ofDigitChars_nil]
    rfl
  | cons x l ih =>
    have hx := hl x List.mem_cons_self
    have hlow : 48 ≤ x.toNat := (Char.isDigit_iff_toNat.mp hx).1
    rw [Nat.ofDigitChars_cons, show '0'.toNat = 48 from rfl] at hfits ⊢
    have hle := le_ofDigitChars l (10 * n + (x.toNat - 48))
    rw [List.cons_append, skipAtoi, if_pos hx,
      show ((n : ℤ) * 10 + x.toNat - 48) = ((10 * n + (x.toNat - 48) : ℕ) : ℤ) by omega,
      int32_of_fits (by omega) (by omega)]
    exact ih (fun y hy => hl y (List.mem_cons_of_mem x hy)) _ hfits

/-- What `scanNumber` finds where no number is. -/
theorem scanNumber_none {c : Char} (hc : c.isDigit = false) (hstar : c ≠ '*') (args : Args) (k : ℕ) (r : List Char) :
    scanNumber args k (c :: r) = (none, c :: r, k) := by
  rw [scanNumber, hc, if_neg Bool.false_ne_true, if_neg hstar]

/-- **A number**: its value, and the argument behind. -/
theorem scanNumber_text (args : Args) (k : ℕ) (a : Amount) {c : Char} (hc : c.isDigit = false) (hstar : c ≠ '*') (r : List Char) :
    scanNumber args k (a.text ++ c :: r) =
      (if a.text = [] then none else some (a.value (args.word k)), c :: r, k + a.taken) := by
  cases a with
  | argument => rfl
  | digits n =>
    obtain ⟨l, hall, hfits⟩ := n
    cases l with
    | nil => exact scanNumber_none hc hstar args k r
    | cons x l =>
      have hskip := skipAtoi_digits hc r (x :: l) hall 0 hfits
      rw [List.cons_append, Nat.cast_zero] at hskip
      change scanNumber args k (x :: (l ++ c :: r)) = (some _, c :: r, k)
      rw [scanNumber, if_pos (hall x List.mem_cons_self), hskip]
      rfl

/-- **The precision**: none, or no less than 0. -/
theorem scanPrecision_text (args : Args) (k : ℕ) (a : Option Amount) {c : Char} (hc : c.isDigit = false) (hstar : c ≠ '*')
    (hdot : c ≠ '.') (r : List Char) :
    scanPrecision args k (a.elim [] (fun p => '.' :: p.text) ++ c :: r) =
      (a.elim (-1) (fun p => max 0 (p.value (args.word k))), c :: r, k + a.elim 0 Amount.taken) := by
  cases a with
  | none =>
    change scanPrecision args k (c :: r) = (-1, c :: r, k)
    rw [scanPrecision, if_neg hdot]
  | some p =>
    change scanPrecision args k ('.' :: (p.text ++ c :: r)) = (max 0 (p.value (args.word k)), c :: r, k + p.taken)
    rw [scanPrecision, if_pos rfl]
    dsimp only
    rw [scanNumber_text args k p hc hstar r]
    by_cases hempty : p.text = []
    · cases p with
      | argument => exact absurd hempty (List.cons_ne_nil _ _)
      | digits n =>
        -- a `.` alone is a precision of 0
        have hzero : (Amount.digits n).value (args.word k) = 0 := by
          change ((Nat.ofDigitChars 10 n.digits 0 : ℕ) : ℤ) = 0
          rw [show n.digits = [] from hempty, Nat.ofDigitChars_nil, Nat.cast_zero]
        rw [if_pos hempty, hzero]
        rfl
    · rw [if_neg hempty]
      rfl

/-- **The qualifier.** -/
theorem scanQualifier_text (q : Option Qualifier) {c : Char} (hh : c ≠ 'h') (hl : c ≠ 'l') (r : List Char) :
    scanQualifier (q.elim [] (fun q => [q.char]) ++ c :: r) = (q.map Qualifier.char, c :: r) := by
  cases q with
  | none =>
    change scanQualifier (c :: r) = (none, c :: r)
    rw [scanQualifier, if_neg (not_or.mpr ⟨hh, hl⟩)]
  | some q => cases q <;> rfl

/-- The width that `print_number` gets. -/
def Conversion.printedWidth (c : Conversion) (args : Args) (k : ℕ) : ℤ :=
  c.width.elim (-1) fun a => if a.value (args.word k) < 0 then int32 (-a.value (args.word k)) else a.value (args.word k)

/-- The characters behind the flags: none of them is a flag, and behind the width none is a digit or a `*`. -/
theorem text_tail (q : Option Qualifier) (kind : Kind) (rest : List Char) :
    ∃ x t, q.elim [] (fun q => [q.char]) ++ kind.char :: rest = x :: t ∧
      x.isDigit = false ∧ x ≠ '*' ∧ x ≠ '.' ∧ endsFlags x := by
  cases q with
  | none => exact ⟨kind.char, rest, rfl, by cases kind <;> decide, by cases kind <;> decide, by cases kind <;> decide,
      by cases kind <;> exact ⟨by decide, by decide, by decide, by decide, by decide⟩⟩
  | some q => exact ⟨q.char, kind.char :: rest, rfl, by cases q <;> decide, by cases q <;> decide, by cases q <;> decide,
      by cases q <;> exact ⟨by decide, by decide, by decide, by decide, by decide⟩⟩

theorem precision_tail (p : Option Amount) {x : Char} (t : List Char) (hdigit : x.isDigit = false) (hstar : x ≠ '*')
    (hflags : endsFlags x) :
    ∃ y t', p.elim [] (fun p => '.' :: p.text) ++ x :: t = y :: t' ∧ y.isDigit = false ∧ y ≠ '*' ∧ endsFlags y := by
  cases p with
  | none => exact ⟨x, t, rfl, hdigit, hstar, hflags⟩
  | some p => exact ⟨'.', p.text ++ x :: t, rfl, by decide, by decide, by decide, by decide, by decide, by decide, by decide⟩

/-- A digit that is not 0 is no flag. -/
theorem endsFlags_of_isDigit {c : Char} (hc : c.isDigit = true) (hzero : c ≠ '0') : endsFlags c := by
  refine ⟨?_, ?_, ?_, ?_, hzero⟩ <;>
    · rintro rfl
      exact absurd hc (by decide)

theorem scanSpec_eq {args : Args} {k k₁ k₂ : ℕ} {r r₁ r₂ r₃ r₄ : List Char} {flags : PrintFlags} {number : Option ℤ}
    {precision : ℤ} {qualifier : Option Char} (hflags : scanFlags {} r = (flags, r₁))
    (hnumber : scanNumber args k r₁ = (number, r₂, k₁)) (hprecision : scanPrecision args k₁ r₂ = (precision, r₃, k₂))
    (hqualifier : scanQualifier r₃ = (qualifier, r₄)) :
    scanSpec args k r =
      { flags := if r₁.head? = some '*' ∧ number.getD 0 < 0 then { flags with left := true } else flags
        width := if r₁.head? = some '*' ∧ number.getD 0 < 0 then int32 (-number.getD 0) else number.getD (-1)
        precision := precision, qualifier := qualifier, rest := r₄, arg := k₂ } := by
  unfold scanSpec
  simp only [hflags, hnumber, hprecision, hqualifier]

/-- **`rt_vsnprintf` reads the conversion right.** -/
theorem scanSpec_text (c : Conversion) (args : Args) (k : ℕ) (rest : List Char) :
    scanSpec args k (c.text ++ rest) =
      { flags := { zeropad := decide (.zero ∈ c.flags), plus := decide (.plus ∈ c.flags), space := decide (.space ∈ c.flags)
                   left := c.left args k }
        width := c.printedWidth args k
        precision := c.precision.elim (-1) (fun p => max 0 (p.value (args.word (c.afterWidth k))))
        qualifier := c.qualifier.map Qualifier.char, rest := c.kind.char :: rest, arg := c.converted k } := by
  have htext : c.text ++ rest = c.flags.map Flag.char ++ (c.width.elim [] Amount.text ++
      (c.precision.elim [] (fun p => '.' :: p.text) ++ (c.qualifier.elim [] (fun q => [q.char]) ++ c.kind.char :: rest))) := by
    unfold Conversion.text
    simp only [List.append_assoc, List.singleton_append]
  obtain ⟨x, t, htail, hdigit, hstar, hdot, hflags⟩ := text_tail c.qualifier c.kind rest
  have hqualifier := scanQualifier_text c.qualifier (show c.kind.char ≠ 'h' by cases c.kind <;> decide)
    (show c.kind.char ≠ 'l' by cases c.kind <;> decide) rest
  have hprecision := scanPrecision_text args (c.afterWidth k) c.precision hdigit hstar hdot t
  obtain ⟨y, t', htail', hdigit', hstar', hflags'⟩ := precision_tail c.precision t hdigit hstar hflags
  rw [htail] at hqualifier htext
  rw [htail'] at hprecision htext
  have hfirst := c.widthFirst
  unfold Conversion.left Conversion.printedWidth Conversion.widthValue Conversion.converted Conversion.afterWidth at *
  rw [htext]
  cases hwidth : c.width with
  | none =>
    rw [hwidth] at hprecision
    simp only [Option.elim_none, List.nil_append, Nat.add_zero] at hprecision ⊢
    rw [scanSpec_eq (scanFlags_text hflags' t' c.flags {}) (scanNumber_none hdigit' hstar' args k t') hprecision hqualifier]
    simp
  | some a =>
    rw [hwidth] at hprecision
    simp only [Option.elim_some] at hprecision ⊢
    have hnumber := scanNumber_text args k a hdigit' hstar' t'
    cases a with
    | argument =>
      have hends : endsFlags '*' := ⟨by decide, by decide, by decide, by decide, by decide⟩
      rw [show Amount.argument.text ++ y :: t' = '*' :: y :: t' from rfl] at hnumber ⊢
      rw [scanSpec_eq (scanFlags_text hends (y :: t') c.flags {}) hnumber hprecision hqualifier]
      rw [if_neg (show Amount.argument.text ≠ [] from List.cons_ne_nil _ _), Option.getD_some, Option.getD_some, List.head?_cons]
      by_cases hneg : Amount.argument.value (args.word k) < 0
      · rw [if_pos ⟨rfl, hneg⟩, if_pos ⟨rfl, hneg⟩, if_pos hneg]
        simp [hneg]
      · rw [if_neg fun h => hneg h.2, if_neg fun h => hneg h.2, if_neg hneg]
        simp [hneg]
    | digits n =>
      obtain ⟨z, l, hn, hz⟩ := hfirst n hwidth
      have hends : endsFlags z := endsFlags_of_isDigit (n.isDigit z (hn ▸ List.mem_cons_self)) hz
      have htext' : (Amount.digits n).text = z :: l := hn
      rw [htext', List.cons_append] at hnumber ⊢
      rw [scanSpec_eq (scanFlags_text hends (l ++ y :: t') c.flags {}) hnumber hprecision hqualifier]
      have hneg : ¬(Amount.digits n).value (args.word k) < 0 := not_lt.mpr (Int.natCast_nonneg _)
      rw [if_neg (List.cons_ne_nil _ _), Option.getD_some, Option.getD_some, if_neg fun h => hneg h.2,
        if_neg fun h => hneg h.2, if_neg hneg]
      simp [hneg]

/-! ## The number -/

namespace Conversion

variable (c : Conversion) (args : Args) (k : ℕ)

/-- The flags that `print_number` gets. -/
def type : PrintFlags :=
  { zeropad := decide (.zero ∈ c.flags), plus := decide (.plus ∈ c.flags), space := decide (.space ∈ c.flags)
    left := c.left args k, sign := c.kind.isSigned, large := decide (c.kind = .X) }

/-- The number that `print_number` gets. -/
def num : BitVec 32 := numberArg (c.qualifier.map Qualifier.char) c.kind.isSigned (args.word (c.converted k))

/-- The precision that `print_number` gets. -/
def printedPrecision : ℤ := c.precision.elim (-1) (fun p => max 0 (p.value (args.word (c.afterWidth k))))

/-- A conversion is one call of `print_number`. -/
theorem conversion_text (rest : List Char) : Kservice.conversion args (scanSpec args k (c.text ++ rest)) =
    (numberText (c.num args k) c.kind.base (c.printedWidth args k) (c.printedPrecision args k) (c.type args k), rest,
      c.converted k + 1) := by
  rw [scanSpec_text]
  unfold Kservice.conversion num type printedPrecision
  cases c.kind <;> rfl

/-- **The number has the type that the qualifier says.** -/
theorem num_number : if c.kind.isSigned then (c.num args k).toInt = c.number args k else
    ((c.num args k).toNat : ℤ) = c.number args k := by
  unfold num number numberArg
  cases hsigned : c.kind.isSigned
  · cases c.qualifier with
    | none => rfl
    | some q =>
      cases q with
      | h =>
        have hwide : (((args.word (c.converted k)).setWidth 16).setWidth 32).toNat = ((args.word (c.converted k)).setWidth 16).toNat :=
          BitVec.toNat_setWidth_of_le (by decide)
        exact congrArg Nat.cast hwide
      | l => rfl
  · cases c.qualifier with
    | none => rfl
    | some q =>
      cases q with
      | h =>
        have hwide : (((args.word (c.converted k)).setWidth 16).signExtend 32).toInt = ((args.word (c.converted k)).setWidth 16).toInt :=
          BitVec.toInt_signExtend_of_le (by decide)
        exact hwide
      | l => rfl

theorem signOf_num : signOf (c.type args k) (c.num args k) = c.sign args k := by
  have hnum := c.num_number args k
  unfold signOf sign type
  dsimp only
  cases hsigned : c.kind.isSigned
  · rfl
  · rw [hsigned, if_pos rfl] at hnum
    rw [if_pos rfl, if_pos rfl, hnum]
    simp only [decide_eq_true_eq]

theorem magnitude_num : (magnitude (c.type args k) (c.num args k)).toNat = (c.number args k).natAbs := by
  have hnum := c.num_number args k
  have hsmall := (c.num args k).isLt
  unfold magnitude type
  dsimp only
  cases hsigned : c.kind.isSigned
  · rw [hsigned, if_neg Bool.false_ne_true] at hnum
    rw [Bool.false_and, if_neg Bool.false_ne_true, ← hnum]
    rfl
  · rw [hsigned, if_pos rfl] at hnum
    rw [← hnum, Bool.true_and, BitVec.toInt_eq_toNat_cond]
    split
    · rw [if_neg (by rw [decide_eq_true_eq]; omega)]
      omega
    · rw [if_pos (by rw [decide_eq_true_eq]; omega), BitVec.toNat_neg]
      omega

/-- **The digits are those that C prescribes**, except in base 8. -/
theorem reverse_digits : (digitsOf (c.type args k) c.kind.base (magnitude (c.type args k) (c.num args k))).reverse =
    (Nat.toDigits (radix c.kind.base) (c.number args k).natAbs).map (letterCase (decide (c.kind = .X))) := by
  rw [reverse_digitsOf, magnitude_num]
  rfl

end Conversion

/-! ## The conversions that are right -/

/-- **What `rt_vsnprintf` gets right.** The width in `counter` is -1 if there is none. -/
structure Conversion.Right (c : Conversion) (args : Args) (k : ℕ) : Prop where
  octal : c.kind = .o → (c.number args k).natAbs < 8
  argument : c.precision = some .argument → 0 ≤ (args.word (c.afterWidth k)).toInt
  zero : c.precisionValue args k = some 0 → c.number args k = 0 ∧ (c.widthValue args k).natAbs ≤ (c.sign args k).toList.length
  zeros : ∀ p, c.precisionValue args k = some p → 0 < p → .zero ∈ c.flags → c.left args k = true ∨
    (c.widthValue args k).natAbs ≤ max p (c.digits args k).length + (c.sign args k).toList.length
  counter : ∀ p, c.precisionValue args k = some p →
    (p : ℤ) + countedBelow (c.type args k) (c.sign args k) ≤
      2 ^ 31 + c.width.elim (-1) (fun a => ((a.value (args.word k)).natAbs : ℤ))

/-- A value is an `int`. -/
theorem Amount.value_range (a : Amount) (word : BitVec 32) : -2 ^ 31 ≤ a.value word ∧ a.value word < 2 ^ 31 := by
  cases a with
  | digits n =>
    have hfits := n.fits
    have hvalue : (Amount.digits n).value word = ((Nat.ofDigitChars 10 n.digits 0 : ℕ) : ℤ) := rfl
    omega
  | argument => exact ⟨BitVec.le_toInt word, BitVec.toInt_lt⟩

namespace Conversion

variable (c : Conversion) (args : Args) (k : ℕ)

/-- The width as `print_number` takes it. -/
theorem isWidth : IsWidth (c.printedWidth args k) (c.width.elim (-1) (fun a => ((a.value (args.word k)).natAbs : ℤ)))
    (c.type args k) := by
  unfold printedWidth type left widthValue
  cases hwidth : c.width with
  | none => exact ⟨by rw [Option.elim_none]; decide, Or.inl ⟨le_refl _, rfl⟩⟩
  | some a =>
    simp only [Option.elim_some]
    obtain ⟨hlow, hhigh⟩ := a.value_range (args.word k)
    by_cases hneg : a.value (args.word k) < 0
    · rw [if_pos hneg]
      by_cases hleast : a.value (args.word k) = -2 ^ 31
      · exact ⟨by rw [hleast]; decide, Or.inr ⟨by rw [hleast]; decide, by rw [hleast]; decide, by simp [hneg]⟩⟩
      · rw [int32_of_fits (by omega) (by omega)]
        exact ⟨by omega, Or.inl ⟨by omega, by omega⟩⟩
    · rw [if_neg hneg]
      exact ⟨hhigh, Or.inl ⟨by omega, by omega⟩⟩

theorem toNat_width : (c.width.elim (-1) (fun a => ((a.value (args.word k)).natAbs : ℤ))).toNat =
    (c.widthValue args k).natAbs := by
  unfold widthValue
  cases c.width with
  | none => rfl
  | some a => exact Int.toNat_natCast _

theorem width_low : -1 ≤ c.width.elim (-1) (fun a => ((a.value (args.word k)).natAbs : ℤ)) := by
  cases c.width with
  | none => exact le_refl _
  | some a => exact (by omega : (-1 : ℤ) ≤ ((a.value (args.word k)).natAbs : ℤ))

/-- The precision, as `print_number` and as C take it. -/
theorem precision_cases :
    (c.printedPrecision args k = -1 ∧ c.precisionValue args k = none ∧ c.precision = none) ∨
      (c.printedPrecision args k = 0 ∧ c.precisionValue args k = none ∧ c.precision = some .argument ∧
        (args.word (c.afterWidth k)).toInt < 0) ∨
      c.printedPrecision args k = 0 ∧ c.precisionValue args k = some 0 ∧
        (c.precision = some .argument → 0 ≤ (args.word (c.afterWidth k)).toInt) ∨
      (0 < c.printedPrecision args k ∧ c.printedPrecision args k < 2 ^ 31 ∧
        c.precisionValue args k = some (c.printedPrecision args k).toNat ∧
        (c.precision = some .argument → 0 ≤ (args.word (c.afterWidth k)).toInt)) := by
  unfold printedPrecision precisionValue
  cases hprecision : c.precision with
  | none => exact Or.inl ⟨rfl, rfl, rfl⟩
  | some p =>
    right
    dsimp only [Option.elim_some]
    cases p with
    | digits n =>
      have hfits := n.fits
      have hvalue : (Amount.digits n).value (args.word (c.afterWidth k)) = ((Nat.ofDigitChars 10 n.digits 0 : ℕ) : ℤ) := rfl
      have hno : some (Amount.digits n) = some .argument → 0 ≤ (args.word (c.afterWidth k)).toInt := by
        intro h
        cases h
      rw [hvalue, if_neg (by omega), max_eq_right (by omega)]
      by_cases hzero : Nat.ofDigitChars 10 n.digits 0 = 0
      · rw [hzero]
        exact Or.inr (Or.inl ⟨rfl, rfl, hno⟩)
      · exact Or.inr (Or.inr ⟨by omega, by omega, rfl, hno⟩)
    | argument =>
      have hvalue : Amount.argument.value (args.word (c.afterWidth k)) = (args.word (c.afterWidth k)).toInt := rfl
      have hhigh : (args.word (c.afterWidth k)).toInt < 2 ^ 31 := BitVec.toInt_lt
      rw [hvalue]
      generalize (args.word (c.afterWidth k)).toInt = v at hhigh ⊢
      obtain hneg | rfl | hpos := Int.lt_trichotomy v 0
      · rw [if_pos hneg, max_eq_left (by omega)]
        exact Or.inl ⟨rfl, rfl, rfl, hneg⟩
      · exact Or.inr (Or.inl ⟨rfl, rfl, fun _ => le_refl _⟩)
      · rw [if_neg (by omega), max_eq_right (by omega)]
        exact Or.inr (Or.inr ⟨hpos, hhigh, rfl, fun _ => by omega⟩)

theorem digits_eq_nil : c.digits args k = [] ↔ c.number args k = 0 ∧ c.precisionValue args k = some 0 := by
  unfold digits
  split
  · exact iff_of_true rfl ‹_›
  · exact iff_of_false (by rw [List.map_eq_nil_iff]; exact Nat.toDigits_ne_nil) ‹_›

/-- **A precision of 0.** -/
theorem numberText_zero_iff (hprinted : c.printedPrecision args k = 0) :
    numberText (c.num args k) c.kind.base (c.printedWidth args k) 0 (c.type args k) = c.prescribed args k ↔ c.Right args k := by
  have hzero : numberText (c.num args k) c.kind.base (c.printedWidth args k) 0 (c.type args k) = _ ↔ _ :=
    numberText_zero_eq_field_iff (c.isWidth args k) (fun h => ((c.digits_eq_nil args k).mp h).2)
  rw [signOf_num, toNat_width, digits_eq_nil] at hzero
  refine hzero.trans ?_
  rw [← Int.toNat_le, toNat_width]
  have hlow := c.width_low args k
  have hcases := c.precision_cases args k
  constructor
  · rintro ⟨⟨hnumber, hprec⟩, hwidth⟩
    rw [hprinted, hprec] at hcases
    obtain ⟨h, -⟩ | ⟨-, h, -⟩ | ⟨-, -, harg⟩ | ⟨h, -⟩ := hcases
    · exact absurd h (by decide)
    · exact absurd h (by simp)
    · refine ⟨fun _ => by rw [hnumber]; decide, harg, fun _ => ⟨hnumber, hwidth⟩, fun p hp hpos => ?_, fun p hp => ?_⟩
      · rw [hprec] at hp
        exact absurd (Option.some.inj hp) (by omega)
      · rw [hprec] at hp
        have hsign := length_toList_le (c.sign args k)
        rw [← Option.some.inj hp]
        unfold countedBelow
        split_ifs <;> omega
    · exact absurd h (by decide)
  · intro h
    rw [hprinted] at hcases
    obtain ⟨h', -⟩ | ⟨-, -, hargument, hneg⟩ | ⟨-, hprec, -⟩ | ⟨h', -⟩ := hcases
    · exact absurd h' (by decide)
    · exact absurd (h.argument hargument) (by omega)
    · exact ⟨⟨(h.zero hprec).1, hprec⟩, (h.zero hprec).2⟩
    · exact absurd h' (by decide)

/-- **Base 8**: from two digits on they are those of base 16. -/
theorem numberText_octal (hkind : c.kind = .o) (hlarge : 8 ≤ (c.number args k).natAbs) (hprinted : c.printedPrecision args k ≠ 0) :
    numberText (c.num args k) c.kind.base (c.printedWidth args k) (c.printedPrecision args k) (c.type args k) ≠
      c.prescribed args k := by
  intro heq
  have hsign : c.sign args k = none := by
    unfold sign
    rw [hkind]
    rfl
  have hdigits : c.digits args k = Nat.toDigits 8 (c.number args k).natAbs := by
    unfold digits
    rw [if_neg (by omega), hkind]
    exact List.map_id _
  have hprinted' := c.reverse_digits args k
  rw [hkind, show decide (Kind.o = Kind.X) = false from rfl, show letterCase false = id from rfl, List.map_id] at hprinted'
  have hbase : radix Kind.o.base = 16 := rfl
  rw [hbase] at hprinted'
  have hsig := congrArg significant heq
  rw [hkind, significant_numberText (by rw [signOf_num, hsign]) hprinted, prescribed, hsign, Option.toList_none, hdigits,
    significant_of_field _ _ _ _ (blank_notMem_toDigits (by decide) (by decide) _) (head_toDigits (by decide) (by decide) (by omega)),
    hprinted', toDigits_eq_iff (by decide) (by decide) (by decide)] at hsig
  · omega
  · rw [hprinted']
    exact blank_notMem_toDigits (by decide) (by decide) _
  · rw [hprinted']
    exact head_toDigits (by decide) (by decide) (by omega)

/-- **No precision, or one that is not 0.** -/
theorem numberText_given_iff (hoctal : c.kind = .o → (c.number args k).natAbs < 8) (hprinted : c.printedPrecision args k ≠ 0) :
    numberText (c.num args k) c.kind.base (c.printedWidth args k) (c.printedPrecision args k) (c.type args k) =
      c.prescribed args k ↔ c.Right args k := by
  have hcases := c.precision_cases args k
  have hprec : c.printedPrecision args k = -1 ∧ c.precisionValue args k = none ∨
      0 < c.printedPrecision args k ∧ c.printedPrecision args k < 2 ^ 31 ∧
        c.precisionValue args k = some (c.printedPrecision args k).toNat := by
    obtain ⟨hnone, h, -⟩ | ⟨h, -⟩ | ⟨h, -⟩ | ⟨hpos, hfits, h, -⟩ := hcases
    · exact Or.inl ⟨hnone, h⟩
    · exact absurd h hprinted
    · exact absurd h hprinted
    · exact Or.inr ⟨hpos, hfits, h⟩
  have hargument : c.precision = some .argument → 0 ≤ (args.word (c.afterWidth k)).toInt := by
    obtain ⟨-, -, h⟩ | ⟨h, -⟩ | ⟨h, -⟩ | ⟨-, -, -, h⟩ := hcases
    · rw [h]
      intro h'
      cases h'
    · exact absurd h hprinted
    · exact absurd h hprinted
    · exact h
  have hnozero : c.precisionValue args k ≠ some 0 := by
    obtain ⟨-, h⟩ | ⟨hpos, -, h⟩ := hprec
    · rw [h]
      intro h'
      cases h'
    · rw [h]
      exact fun h' => absurd (Option.some.inj h') (by omega)
  -- the digits are those of C
  have hdigits : (digitsOf (c.type args k) c.kind.base (magnitude (c.type args k) (c.num args k))).reverse = c.digits args k := by
    rw [c.reverse_digits, digits, if_neg fun h => hnozero h.2]
    congr 1
    cases hkind : c.kind with
    | o => exact (toDigits_eq_iff (by decide) (by decide) (by decide) _).mpr (hoctal hkind)
    | _ => rfl
  have hfield : numberText (c.num args k) c.kind.base (c.printedWidth args k) (c.printedPrecision args k) (c.type args k) = _ ↔ _ :=
    numberText_eq_field_iff (c.isWidth args k) hprec
  rw [hdigits, signOf_num, toNat_width] at hfield
  refine hfield.trans ?_
  have hlow := c.width_low args k
  have hwidth := c.toNat_width args k
  have hlength := length_digitsOf (c.type args k) c.kind.base (magnitude (c.type args k) (c.num args k))
  have hsame := congrArg List.length hdigits
  rw [List.length_reverse] at hsame
  have hsign := length_toList_le (c.sign args k)
  have hbelow : countedBelow (c.type args k) (c.sign args k) ≤ 3 := by
    unfold countedBelow
    split_ifs <;> omega
  unfold digitCount
  constructor
  · rintro ⟨hcount, hzeros⟩
    refine ⟨hoctal, hargument, fun h => absurd h hnozero, fun p hp hpos hzero => ?_, fun p hp => ?_⟩
    · obtain ⟨-, h⟩ | ⟨hpos', -, h⟩ := hprec
      · rw [h] at hp
        cases hp
      · rw [h] at hp
        have hp' := Option.some.inj hp
        refine (hzeros hpos' (decide_eq_true hzero)).imp id fun hle => ?_
        split_ifs at hle <;> omega
    · obtain ⟨-, h⟩ | ⟨hpos', -, h⟩ := hprec
      · rw [h] at hp
        cases hp
      · rw [h] at hp
        have hp' := Option.some.inj hp
        split_ifs at hcount <;> omega
  · intro hright
    obtain ⟨h, hnone⟩ | ⟨hpos, -, h⟩ := hprec
    · rw [h]
      refine ⟨?_, fun h => absurd h (by decide)⟩
      rw [if_pos (by omega)]
      omega
    · have hcount := hright.counter _ h
      refine ⟨?_, fun _ hzero => ?_⟩
      · split_ifs <;> omega
      · refine (hright.zeros _ h (by omega) (of_decide_eq_true hzero)).imp id fun hle => ?_
        split_ifs <;> omega

/-- The scan gets over a conversion. -/
theorem scan_text_iff (rest l : List Char) :
    scan (fun c l => l ++ [c]) args ('%' :: (c.text ++ rest)) k l =
      scan (fun c l => l ++ [c]) args rest (c.converted k + 1) (l ++ c.prescribed args k) ↔
    numberText (c.num args k) c.kind.base (c.printedWidth args k) (c.printedPrecision args k) (c.type args k) =
      c.prescribed args k := by
  rw [scan_eq, scan_eq, puts_concat, puts_concat, outputFrom, if_neg (fun h => h rfl), List.append_assoc, List.append_cancel_left_eq]
  dsimp only
  rw [c.conversion_text, List.append_cancel_right_eq]

/-- **The numeric conversions**: `rt_vsnprintf` puts what C prescribes, and goes on behind the conversion, exactly if the
conversion is one that it gets right. -/
theorem prescribed_iff (rest l : List Char) :
    scan (fun c l => l ++ [c]) args ('%' :: (c.text ++ rest)) k l =
      scan (fun c l => l ++ [c]) args rest (c.converted k + 1) (l ++ c.prescribed args k) ↔ c.Right args k := by
  rw [scan_text_iff]
  by_cases hprinted : c.printedPrecision args k = 0
  · rw [hprinted]
    exact c.numberText_zero_iff args k hprinted
  · by_cases hoctal : c.kind = .o ∧ 8 ≤ (c.number args k).natAbs
    · exact iff_of_false (c.numberText_octal args k hoctal.1 hoctal.2 hprinted)
        fun h => absurd (h.octal hoctal.1) (not_lt.mpr hoctal.2)
    · exact c.numberText_given_iff args k (fun hkind => not_le.mp fun h => hoctal ⟨hkind, h⟩) hprinted

/-- `"%o"` of 8 puts an `8`, not `10`. -/
theorem octal_eight : ∃ (c : Conversion) (args : Args), c.text = ['o'] ∧ args.word 0 = 8 ∧
    scan (fun c l => l ++ [c]) args ('%' :: (c.text ++ [])) 0 [] ≠
      scan (fun c l => l ++ [c]) args [] (c.converted 0 + 1) ([] ++ c.prescribed args 0) := by
  refine ⟨⟨[], none, none, none, .o, fun n h => by cases h⟩, ⟨fun _ => 8, fun _ => []⟩, rfl, rfl, fun h => ?_⟩
  rw [scan_text_iff] at h
  exact numberText_octal _ _ 0 rfl (by decide) (by decide) h

end Conversion

end CoreLink.RtThread.Kservice
