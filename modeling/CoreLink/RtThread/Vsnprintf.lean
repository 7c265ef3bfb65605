/-
# `CoreLink.RtThread.Vsnprintf` — `rt_vsnprintf` of `src/kservice.c`.

With `RT_PRINTF_PRECISION`, as the file defines it, and without `RT_PRINTF_LONGLONG` and `RT_PRINTF_SPECIAL`; `long` and `int`
have 32 bits and wrap. Every character leaves through `put`, so the functions are written over any sink with that operation:
the buffer of the call is one, a list that only grows is another (`output`). Since no function looks at the sink, the sink
gets the characters of `output` one after the other (`scan_eq`).

The arguments are the words that `va_arg` takes, however many there are; a string argument is the text at its address, which
does not lie in the buffer. The format is the list of its characters in front of the NUL: each `++fmt` stands behind a
character that is not NUL, and the `--fmt` for a conversion that the NUL cuts off takes back the `++fmt` of the loop. So the
recursion is on the length of what is left, and the scan ends for every format.
-/
import CoreLink.Lib.SignedWord
import Mathlib.Data.List.Basic

namespace CoreLink.RtThread.Kservice

open CoreLink.Lib

/-! ## The loops that put characters -/

section Loops

variable {σ : Type*} (put : Char → σ → σ)

/-- Characters one after the other. -/
def puts (l : List Char) (s : σ) : σ := l.foldl (fun s c => put c s) s

/-- `while (size-- > 0)`, with the counter behind it. -/
def padWhile (c : Char) (size : ℤ) (s : σ) : ℤ × σ :=
  if 0 < size then padWhile c (size - 1) (put c s) else (int32 (size - 1), s)
termination_by size.toNat
decreasing_by omega

/-- `while (--field_width > 0)`. -/
def padBefore (width : ℤ) (s : σ) : ℤ × σ :=
  if 0 < int32 (width - 1) then padBefore (int32 (width - 1)) (put ' ' s) else (int32 (width - 1), s)
termination_by (int32 (width - 1)).toNat
decreasing_by
  have hrange := int32_range (width - 1)
  rw [int32_of_fits (by omega) (by omega)]
  omega

/-- `while (len < field_width--)`. -/
def padField (len width : ℤ) (s : σ) : ℤ × σ :=
  if len < width then padField len (width - 1) (put ' ' s) else (int32 (width - 1), s)
termination_by (width - len).toNat
decreasing_by omega

@[simp] theorem puts_nil (s : σ) : puts put [] s = s := rfl

@[simp] theorem puts_cons (c : Char) (l : List Char) (s : σ) : puts put (c :: l) s = puts put l (put c s) := rfl

theorem puts_append (l l' : List Char) (s : σ) : puts put (l ++ l') s = puts put l' (puts put l s) := List.foldl_append

theorem padWhile_eq (c : Char) (size : ℤ) (s : σ) : padWhile put c size s =
    (if 0 < size then -1 else int32 (size - 1), puts put (List.replicate size.toNat c) s) := by
  generalize hn : size.toNat = n
  induction n generalizing size s with
  | zero =>
    rw [padWhile, if_neg (by omega), if_neg (by omega)]
    rfl
  | succ n ih =>
    rw [padWhile, if_pos (by omega), if_pos (by omega), ih (size - 1) (put c s) (by omega), List.replicate_succ, puts_cons]
    split
    · rfl
    · rw [show size - 1 - 1 = -1 by omega]
      rfl

theorem padBefore_eq (width : ℤ) (s : σ) : padBefore put width s =
    (if 0 < int32 (width - 1) then 0 else int32 (width - 1), puts put (List.replicate (int32 (width - 1)).toNat ' ') s) := by
  generalize hn : (int32 (width - 1)).toNat = n
  induction n generalizing width s with
  | zero =>
    rw [padBefore, if_neg (by omega), if_neg (by omega)]
    rfl
  | succ n ih =>
    have hrange := int32_range (width - 1)
    have hnext : int32 (int32 (width - 1) - 1) = int32 (width - 1) - 1 := int32_of_fits (by omega) (by omega)
    rw [padBefore, if_pos (by omega), if_pos (by omega), ih _ _ (by omega), hnext, List.replicate_succ, puts_cons]
    split
    · rfl
    · rw [show int32 (width - 1) - 1 = 0 by omega]

theorem padField_eq (len width : ℤ) (s : σ) : padField put len width s =
    (int32 (min len width - 1), puts put (List.replicate (width - len).toNat ' ') s) := by
  generalize hn : (width - len).toNat = n
  induction n generalizing width s with
  | zero =>
    rw [padField, if_neg (by omega), min_eq_right (by omega)]
    rfl
  | succ n ih =>
    rw [padField, if_pos (by omega), ih (width - 1) (put ' ' s) (by omega), List.replicate_succ, puts_cons,
      min_eq_left (by omega), min_eq_left (by omega)]

end Loops

/-! ## Numbers -/

/-- `flags`. -/
structure PrintFlags where
  zeropad : Bool := false
  sign : Bool := false
  plus : Bool := false
  space : Bool := false
  left : Bool := false
  special : Bool := false
  large : Bool := false
  deriving DecidableEq

def smallDigits : List Char := ['0', '1', '2', '3', '4', '5', '6', '7', '8', '9', 'a', 'b', 'c', 'd', 'e', 'f']

def largeDigits : List Char := ['0', '1', '2', '3', '4', '5', '6', '7', '8', '9', 'A', 'B', 'C', 'D', 'E', 'F']

/-- `divide`: the remainder, and the quotient. Every base but 10 is 16. -/
def divide (n base : ℕ) : ℕ × ℕ := if base = 10 then (n % 10, n / 10) else (n % 16, n / 16)

theorem divide_lt {n : ℕ} (base : ℕ) (hn : n ≠ 0) : (divide n base).2 < n := by
  unfold divide
  split
  · exact Nat.div_lt_self (Nat.pos_of_ne_zero hn) (by decide)
  · exact Nat.div_lt_self (Nat.pos_of_ne_zero hn) (by decide)

/-- `while (num != 0) tmp[i++] = digits[divide(&num, base)]`. -/
def digitLoop (digits : List Char) (base num : ℕ) : List Char :=
  if h : num = 0 then [] else digits.getD (divide num base).1 ' ' :: digitLoop digits base (divide num base).2
termination_by num
decreasing_by exact divide_lt base h

/-- The sign that `print_number` puts. -/
def signOf (type : PrintFlags) (num : BitVec 32) : Option Char :=
  if type.sign then
    if num.toInt < 0 then some '-'
    else if type.plus then some '+'
    else if type.space then some ' '
    else none
  else none

/-- The number without its sign. -/
def magnitude (type : PrintFlags) (num : BitVec 32) : BitVec 32 := if type.sign && decide (num.toInt < 0) then -num else num

/-- `tmp`: the digits from the least one on. -/
def digitsOf (type : PrintFlags) (base : ℕ) (num : BitVec 32) : List Char :=
  if num = 0 then ['0'] else digitLoop (if type.large then largeDigits else smallDigits) base num.toNat

section Numbers

variable {σ : Type*} (put : Char → σ → σ)

/-- `print_number`. -/
def printNumber (num : BitVec 32) (base : ℕ) (s precision : ℤ) (type : PrintFlags) (st : σ) : σ :=
  let zeropad := type.zeropad && !type.left
  let c := if zeropad then '0' else ' '
  let sign := signOf type num
  let tmp := digitsOf type base (magnitude type num)
  let i : ℤ := tmp.length
  let digits := if precision < i then i else precision
  let size := int32 (s - digits)
  let r := if !(zeropad || type.left) then padWhile put ' ' (if sign.isSome && decide (0 < size) then size - 1 else size) st
    else (size, st)
  let r := if sign.isSome then (int32 (r.1 - 1), puts put sign.toList r.2) else r
  let r := if !type.left then padWhile put c r.1 r.2 else r
  -- `while (i < precision--)`: the counter is not used again
  let st := (padWhile put '0' (digits - i) r.2).2
  let st := if precision ≠ 0 then puts put tmp.reverse st else st
  (padWhile put ' ' r.1 st).2

/-- `c`. -/
def printChar (w : BitVec 32) (width : ℤ) (flags : PrintFlags) (st : σ) : σ :=
  let r := if !flags.left then padBefore put width st else (width, st)
  (padBefore put r.1 (put (Char.ofNat (w.toNat % 256)) r.2)).2

/-- `s`; `text` is the string at an address. -/
def printString (text : BitVec 32 → List Char) (w : BitVec 32) (width precision : ℤ) (flags : PrintFlags) (st : σ) : σ :=
  let s := if w = 0 then ['(', 'N', 'U', 'L', 'L', ')'] else text w
  let len : ℤ := if 0 < precision ∧ precision < s.length then precision else s.length
  let r := if !flags.left then padField put len width st else (width, st)
  (padField put len r.1 (puts put (s.take len.toNat) r.2)).2

end Numbers

/-! ## The scan of the format -/

/-- The arguments: the words in order, and the string at an address. -/
structure Args where
  word : ℕ → BitVec 32
  text : BitVec 32 → List Char

/-- A conversion up to its character: `rest` begins with it, and `arg` is the next argument. -/
structure Spec where
  flags : PrintFlags
  width : ℤ
  precision : ℤ
  qualifier : Option Char
  rest : List Char
  arg : ℕ

/-- The loop over the flags. -/
def scanFlags (flags : PrintFlags) : List Char → PrintFlags × List Char
  | [] => (flags, [])
  | c :: r =>
    if c = '-' then scanFlags { flags with left := true } r
    else if c = '+' then scanFlags { flags with plus := true } r
    else if c = ' ' then scanFlags { flags with space := true } r
    else if c = '#' then scanFlags { flags with special := true } r
    else if c = '0' then scanFlags { flags with zeropad := true } r
    else (flags, c :: r)

/-- `skip_atoi`. -/
def skipAtoi (i : ℤ) : List Char → ℤ × List Char
  | [] => (i, [])
  | c :: r => if c.isDigit then skipAtoi (int32 (i * 10 + c.toNat - 48)) r else (i, c :: r)

/-- A number in the format, or the next argument for a `*`. -/
def scanNumber (args : Args) (k : ℕ) (r : List Char) : Option ℤ × List Char × ℕ :=
  match r with
  | [] => (none, [], k)
  | c :: r' =>
    if c.isDigit then (some (skipAtoi 0 r).1, (skipAtoi 0 r).2, k)
    else if c = '*' then (some (args.word k).toInt, r', k + 1)
    else (none, r, k)

/-- The precision: without a number, or with a negative one, it is 0. -/
def scanPrecision (args : Args) (k : ℕ) (r : List Char) : ℤ × List Char × ℕ :=
  match r with
  | [] => (-1, [], k)
  | c :: r' =>
    if c = '.' then
      let number := scanNumber args k r'
      (max 0 (number.1.getD (-1)), number.2)
    else (-1, r, k)

/-- The qualifier. -/
def scanQualifier (r : List Char) : Option Char × List Char :=
  match r with
  | [] => (none, [])
  | c :: r' => if c = 'h' ∨ c = 'l' then (some c, r') else (none, r)

/-- All in front of the conversion character. A width is negated, and the field justified to the left, when it is a negative
argument; digits do not make one. -/
def scanSpec (args : Args) (k : ℕ) (r : List Char) : Spec :=
  let flags := scanFlags {} r
  let width := scanNumber args k flags.2
  let negative := flags.2.head? = some '*' ∧ width.1.getD 0 < 0
  let precision := scanPrecision args width.2.2 width.2.1
  let qualifier := scanQualifier precision.2.1
  { flags := if negative then { flags.1 with left := true } else flags.1
    width := if negative then int32 (-width.1.getD 0) else width.1.getD (-1)
    precision := precision.1, qualifier := qualifier.1, rest := qualifier.2, arg := precision.2.2 }

/-- The base and the flags of a number. -/
def numberKind (flags : PrintFlags) (c : Char) : Option (ℕ × PrintFlags) :=
  if c = 'o' then some (8, flags)
  else if c = 'X' then some (16, { flags with large := true })
  else if c = 'x' then some (16, flags)
  else if c = 'd' ∨ c = 'i' then some (10, { flags with sign := true })
  else if c = 'u' then some (10, flags)
  else none

/-- The number that an argument is. -/
def numberArg (qualifier : Option Char) (sign : Bool) (w : BitVec 32) : BitVec 32 :=
  if qualifier = some 'l' then w
  else if qualifier = some 'h' then if sign then (w.setWidth 16).signExtend 32 else (w.setWidth 16).setWidth 32
  else w

/-- One conversion: the sink, what is left of the format, and the next argument. -/
def convert {σ : Type*} (put : Char → σ → σ) (args : Args) (spec : Spec) (st : σ) : σ × List Char × ℕ :=
  match spec.rest with
  -- `--fmt`, and `++fmt` in the loop
  | [] => (put '%' st, [], spec.arg)
  | c :: rest =>
    let w := args.word spec.arg
    if c = 'c' then (printChar put w spec.width spec.flags st, rest, spec.arg + 1)
    else if c = 's' then (printString put args.text w spec.width spec.precision spec.flags st, rest, spec.arg + 1)
    else if c = 'p' then
      let width := if spec.width = -1 then 8 else spec.width
      let flags := if spec.width = -1 then { spec.flags with zeropad := true } else spec.flags
      (printNumber put w 16 width spec.precision flags st, rest, spec.arg + 1)
    else if c = '%' then (put '%' st, rest, spec.arg)
    else match numberKind spec.flags c with
      | some kind => (printNumber put (numberArg spec.qualifier kind.2.sign w) kind.1 spec.width spec.precision kind.2 st, rest,
          spec.arg + 1)
      | none => (put c (put '%' st), rest, spec.arg)

theorem scanFlags_length (flags : PrintFlags) (r : List Char) : (scanFlags flags r).2.length ≤ r.length := by
  induction r generalizing flags with
  | nil => exact Nat.le_refl 0
  | cons c r ih =>
    unfold scanFlags
    split
    · exact Nat.le_succ_of_le (ih _)
    split
    · exact Nat.le_succ_of_le (ih _)
    split
    · exact Nat.le_succ_of_le (ih _)
    split
    · exact Nat.le_succ_of_le (ih _)
    split
    · exact Nat.le_succ_of_le (ih _)
    · exact Nat.le_refl _

theorem skipAtoi_length (i : ℤ) (r : List Char) : (skipAtoi i r).2.length ≤ r.length := by
  induction r generalizing i with
  | nil => exact Nat.le_refl 0
  | cons c r ih =>
    unfold skipAtoi
    split
    · exact Nat.le_succ_of_le (ih _)
    · exact Nat.le_refl _

theorem scanNumber_length (args : Args) (k : ℕ) (r : List Char) : (scanNumber args k r).2.1.length ≤ r.length := by
  unfold scanNumber
  split
  · exact Nat.le_refl 0
  · split
    · exact skipAtoi_length 0 _
    · split
      · exact Nat.le_succ _
      · exact Nat.le_refl _

theorem scanPrecision_length (args : Args) (k : ℕ) (r : List Char) : (scanPrecision args k r).2.1.length ≤ r.length := by
  unfold scanPrecision
  split
  · exact Nat.le_refl 0
  · split
    · exact Nat.le_succ_of_le (scanNumber_length args k _)
    · exact Nat.le_refl _

theorem scanQualifier_length (r : List Char) : (scanQualifier r).2.length ≤ r.length := by
  unfold scanQualifier
  split
  · exact Nat.le_refl 0
  · split
    · exact Nat.le_succ _
    · exact Nat.le_refl _

/-- **No step goes over the end of the format.** -/
theorem scanSpec_length (args : Args) (k : ℕ) (r : List Char) : (scanSpec args k r).rest.length ≤ r.length :=
  (scanQualifier_length _).trans ((scanPrecision_length args _ _).trans ((scanNumber_length args k _).trans (scanFlags_length {} r)))

theorem convert_length {σ : Type*} (put : Char → σ → σ) (args : Args) (spec : Spec) (st : σ) :
    (convert put args spec st).2.1.length ≤ spec.rest.length := by
  unfold convert
  split
  · exact Nat.zero_le _
  · rename_i c rest heq
    rw [heq, List.length_cons]
    dsimp only
    split
    · exact Nat.le_succ _
    split
    · exact Nat.le_succ _
    split
    · exact Nat.le_succ _
    split
    · exact Nat.le_succ _
    split <;> exact Nat.le_succ _

/-- The loop of `rt_vsnprintf`. -/
def scan {σ : Type*} (put : Char → σ → σ) (args : Args) (fmt : List Char) (k : ℕ) (st : σ) : σ :=
  match fmt with
  | [] => st
  | c :: rest =>
    if c ≠ '%' then scan put args rest k (put c st)
    else
      let r := convert put args (scanSpec args k rest) st
      scan put args r.2.1 r.2.2 r.1
termination_by fmt.length
decreasing_by
  · exact Nat.lt_succ_self _
  · exact Nat.lt_succ_of_le ((convert_length put args _ st).trans (scanSpec_length args k rest))

/-- **The output with an unlimited buffer.** -/
def output (args : Args) (fmt : List Char) : List Char := scan (fun c l => l ++ [c]) args fmt 0 []

/-! ## The characters -/

/-- The counter behind `while (size-- > 0)`. -/
def counted (size : ℤ) : ℤ := if 0 < size then -1 else int32 (size - 1)

/-- The digits that are asked for: the precision, and no less than there are. -/
def digitCount (precision : ℤ) (tmp : List Char) : ℤ := if precision < tmp.length then (tmp.length : ℤ) else precision

/-- The blanks in front of a number that is neither padded with zeros nor justified to the left. -/
def blanksOf (sign : Option Char) (size : ℤ) : ℤ := if sign.isSome && decide (0 < size) then size - 1 else size

/-- **What `print_number` puts**: blanks, the sign, the padding, the zeros of the precision, the digits, and blanks. -/
def numberText (num : BitVec 32) (base : ℕ) (s precision : ℤ) (type : PrintFlags) : List Char :=
  let zeropad := type.zeropad && !type.left
  let sign := signOf type num
  let tmp := digitsOf type base (magnitude type num)
  let size := int32 (s - digitCount precision tmp)
  let plain := !(zeropad || type.left)
  let size₁ := if plain then counted (blanksOf sign size) else size
  let size₂ := if sign.isSome then int32 (size₁ - 1) else size₁
  let size₃ := if !type.left then counted size₂ else size₂
  (if plain then List.replicate (blanksOf sign size).toNat ' ' else []) ++ (sign.toList ++
    ((if !type.left then List.replicate size₂.toNat (if zeropad then '0' else ' ') else []) ++
      (List.replicate (digitCount precision tmp - tmp.length).toNat '0' ++
        ((if precision ≠ 0 then tmp.reverse else []) ++ List.replicate size₃.toNat ' '))))

/-- What `c` puts. -/
def charText (w : BitVec 32) (width : ℤ) (flags : PrintFlags) : List Char :=
  let behind := if !flags.left then (if 0 < int32 (width - 1) then 0 else int32 (width - 1)) else width
  (if !flags.left then List.replicate (int32 (width - 1)).toNat ' ' else []) ++
    (Char.ofNat (w.toNat % 256) :: List.replicate (int32 (behind - 1)).toNat ' ')

/-- What `s` puts. -/
def stringText (text : BitVec 32 → List Char) (w : BitVec 32) (width precision : ℤ) (flags : PrintFlags) : List Char :=
  let s := if w = 0 then ['(', 'N', 'U', 'L', 'L', ')'] else text w
  let len : ℤ := if 0 < precision ∧ precision < s.length then precision else s.length
  let behind := if !flags.left then int32 (min len width - 1) else width
  (if !flags.left then List.replicate (width - len).toNat ' ' else []) ++
    (s.take len.toNat ++ List.replicate (behind - len).toNat ' ')

section Texts

variable {σ : Type*} (put : Char → σ → σ)

theorem puts_ite (p : Prop) [Decidable p] (l : List Char) (s : σ) :
    puts put (if p then l else []) s = if p then puts put l s else s := by
  split <;> rfl

theorem printNumber_eq (num : BitVec 32) (base : ℕ) (s precision : ℤ) (type : PrintFlags) (st : σ) :
    printNumber put num base s precision type st = puts put (numberText num base s precision type) st := by
  unfold printNumber numberText
  simp only [padWhile_eq, puts_append, puts_ite, digitCount, blanksOf, counted]
  cases type.left <;> cases type.zeropad <;> cases signOf type num <;> rfl

theorem printChar_eq (w : BitVec 32) (width : ℤ) (flags : PrintFlags) (st : σ) :
    printChar put w width flags st = puts put (charText w width flags) st := by
  unfold printChar charText
  simp only [padBefore_eq, puts_append, puts_cons, puts_ite]
  cases flags.left <;> rfl

theorem printString_eq (text : BitVec 32 → List Char) (w : BitVec 32) (width precision : ℤ) (flags : PrintFlags) (st : σ) :
    printString put text w width precision flags st = puts put (stringText text w width precision flags) st := by
  unfold printString stringText
  simp only [padField_eq, puts_append, puts_ite]
  cases flags.left <;> rfl

end Texts

/-- **What one conversion puts**, what is left of the format, and the next argument. -/
def conversion (args : Args) (spec : Spec) : List Char × List Char × ℕ :=
  match spec.rest with
  | [] => (['%'], [], spec.arg)
  | c :: rest =>
    let w := args.word spec.arg
    if c = 'c' then (charText w spec.width spec.flags, rest, spec.arg + 1)
    else if c = 's' then (stringText args.text w spec.width spec.precision spec.flags, rest, spec.arg + 1)
    else if c = 'p' then
      let width := if spec.width = -1 then 8 else spec.width
      let flags := if spec.width = -1 then { spec.flags with zeropad := true } else spec.flags
      (numberText w 16 width spec.precision flags, rest, spec.arg + 1)
    else if c = '%' then (['%'], rest, spec.arg)
    else match numberKind spec.flags c with
      | some kind => (numberText (numberArg spec.qualifier kind.2.sign w) kind.1 spec.width spec.precision kind.2, rest,
          spec.arg + 1)
      | none => (['%', c], rest, spec.arg)

theorem convert_eq {σ : Type*} (put : Char → σ → σ) (args : Args) (spec : Spec) (st : σ) :
    convert put args spec st = (puts put (conversion args spec).1 st, (conversion args spec).2) := by
  unfold convert conversion
  cases spec.rest with
  | nil => rfl
  | cons c rest =>
    dsimp only
    split
    · rw [printChar_eq]
    split
    · rw [printString_eq]
    split
    · rw [printNumber_eq]
    split
    · rfl
    cases numberKind spec.flags c with
    | some kind =>
      dsimp only
      rw [printNumber_eq]
    | none => rfl

theorem conversion_length (args : Args) (spec : Spec) : (conversion args spec).2.1.length ≤ spec.rest.length := by
  have h := convert_length (fun _ (u : Unit) => u) args spec ()
  rw [convert_eq] at h
  exact h

/-- The characters that the scan puts from some place of the format and some argument on. -/
def outputFrom (args : Args) (fmt : List Char) (k : ℕ) : List Char :=
  match fmt with
  | [] => []
  | c :: rest =>
    if c ≠ '%' then c :: outputFrom args rest k
    else
      let r := conversion args (scanSpec args k rest)
      r.1 ++ outputFrom args r.2.1 r.2.2
termination_by fmt.length
decreasing_by
  · exact Nat.lt_succ_self _
  · exact Nat.lt_succ_of_le ((conversion_length args _).trans (scanSpec_length args k rest))

/-- **The scan does not look at the sink**: it puts the same characters into any. -/
theorem scan_eq {σ : Type*} (put : Char → σ → σ) (args : Args) (fmt : List Char) (k : ℕ) (st : σ) :
    scan put args fmt k st = puts put (outputFrom args fmt k) st := by
  induction fmt, k using outputFrom.induct args generalizing st with
  | case1 k => rw [scan, outputFrom, puts_nil]
  | case2 k c rest hc ih =>
    rw [scan, if_pos hc, outputFrom, if_pos hc, puts_cons, ih]
  | case3 k c rest hc r ih =>
    rw [scan, if_neg hc, outputFrom, if_neg hc, puts_append]
    dsimp only
    rw [convert_eq]
    exact ih _

theorem puts_concat (l l' : List Char) : puts (fun c l => l ++ [c]) l l' = l' ++ l := by
  induction l generalizing l' with
  | nil => exact (List.append_nil l').symm
  | cons c l ih => rw [puts_cons, ih, List.append_assoc, List.singleton_append]

theorem output_eq (args : Args) (fmt : List Char) : output args fmt = outputFrom args fmt 0 := by
  rw [output, scan_eq, puts_concat, List.nil_append]

/-- Any sink gets the output. -/
theorem scan_output {σ : Type*} (put : Char → σ → σ) (args : Args) (fmt : List Char) (st : σ) :
    scan put args fmt 0 st = puts put (output args fmt) st := by
  rw [scan_eq, output_eq]

/-! ## The buffer -/

/-- The memory, `str` and `end`. -/
structure Out where
  mem : ℕ → Char
  str : ℕ
  stop : ℕ

/-- `if (str < end) *str = c; ++str`. -/
def Out.put (c : Char) (o : Out) : Out :=
  { o with mem := if o.str < o.stop then Function.update o.mem o.str c else o.mem, str := (o.str + 1) % 2 ^ 32 }

/-- `rt_vsnprintf`: the result, and the memory. -/
def rtVsnprintf (mem : ℕ → Char) (buf size : ℕ) (fmt : List Char) (args : Args) : ℤ × (ℕ → Char) :=
  let wraps := decide ((buf + size) % 2 ^ 32 < buf)
  let stop := if wraps then 2 ^ 32 - 1 else (buf + size) % 2 ^ 32
  let size := if wraps then 2 ^ 32 - 1 - buf else size
  let o := scan Out.put args fmt 0 ⟨mem, buf, stop⟩
  let nul := Char.ofNat 0
  (int32 ((o.str : ℤ) - buf),
    if 0 < size then Function.update o.mem (if o.str < o.stop then o.str else o.stop - 1) nul else o.mem)

end CoreLink.RtThread.Kservice
