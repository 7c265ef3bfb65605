/-
# `CoreLink.Xprintf.Xvprintf` — formatted output: `xvprintf` of `src/xprintf/xprintf.c`.

The digits are collected in `s`, the lowest first, and at most 24 of them: of a number with more binary digits the highest ones
are lost. The width is read into 32 bits. And the counter of the padding is one beyond the width when its loop ends: with the
greatest width that there is, it has wrapped around, and the padding behind the number is done as well.

`xvprintf_numeric_iff` says that there is nothing else to be said against the numbers that come out.
-/
import CoreLink.Lib.Block
import CoreLink.Lib.Digits
import CoreLink.Lib.Word

namespace CoreLink.Xprintf

open CoreLink.Lib

/-! ## The source -/

/-- `xputc`, as what goes to the device, with `_CR_CRLF`. -/
def xputc (c : UInt8) : List UInt8 := if c = 0x0a then [0x0d, c] else [c]

/-- `xputs`. -/
def xputs (str : List UInt8) : List UInt8 := str.flatMap xputc

/-- The bits 1 and 2 of `f`. -/
structure Flags where
  zero : Bool
  left : Bool

/-- The flag of a sequence. -/
def readFlag (fmt : List UInt8) : Flags × List UInt8 :=
  if fmt.headD 0 = 0x30 then (⟨true, false⟩, fmt.tail)
  else if fmt.headD 0 = 0x2d then (⟨false, true⟩, fmt.tail)
  else (⟨false, false⟩, fmt)

/-- The loop over the digits of the width. -/
def readWidth : List UInt8 → ℕ → ℕ × List UInt8
  | [], w => (w, [])
  | c :: fmt, w =>
    if 0x30 ≤ c ∧ c ≤ 0x39 then readWidth fmt ((w * 10 + (c.toNat - 0x30)) % 2 ^ 32) else (w, c :: fmt)

/-- The prefix `l`; an `int` has as many bits as a `long`, so that the bit 4 of `f` changes nothing. -/
def readLong (fmt : List UInt8) : List UInt8 := if fmt.headD 0 = 0x6c ∨ fmt.headD 0 = 0x4c then fmt.tail else fmt

/-- `while (j++ < w) xputc(d);`, and `j` behind it. -/
def padLoop (d : UInt8) (w j : ℕ) : List UInt8 × ℕ :=
  if j < w then (xputc d ++ (padLoop d w (j + 1)).1, (padLoop d w (j + 1)).2) else ([], (j + 1) % 2 ^ 32)
termination_by w - j

/-- `s[i] = c`, in an array of 24. -/
def store (s : ℕ → UInt8) (i : ℕ) (c : UInt8) : Option (ℕ → UInt8) := if i < 24 then some (Function.update s i c) else none

/-- The character of a digit, for the conversion `c`. -/
def digitByte (c : UInt8) (d : ℕ) : UInt8 := UInt8.ofNat ((if 9 < d then d + (if c = 0x78 then 0x27 else 0x07) else d) + 0x30)

/-- The loop over the digits of the number. -/
def numeralLoop (c : UInt8) (r : ℕ) : ℕ → ℕ → (ℕ → UInt8) → ℕ → Option ((ℕ → UInt8) × ℕ)
  | 0, _, _, _ => none
  | n + 1, vs, s, i =>
    (store s i (digitByte c (vs % r))).bind fun s =>
      if vs / r ≠ 0 ∧ i + 1 < 24 then numeralLoop c r n (vs / r) s (i + 1) else some (s, i + 1)

/-- `do xputc(s[--i]); while (i != 0);` -/
def emitLoop (s : ℕ → UInt8) : ℕ → List UInt8
  | 0 => []
  | i + 1 => xputc (s i) ++ emitLoop s i

/-- A number, for the conversion `c`, which is `d` in capitals. -/
def putNumber (f : Flags) (w : ℕ) (c d : UInt8) (r v : ℕ) : Option (List UInt8) :=
  let negative := d = 0x44 ∧ 2 ^ 31 ≤ v
  (numeralLoop c r 24 (if negative then Word.sub 32 0 v else v) (fun _ => 0) 0).bind fun number =>
    (if negative then (store number.1 number.2 0x2d).map fun s => (s, number.2 + 1) else some number).map fun number =>
      let front := if f.left then ([], number.2) else padLoop (if f.zero then 0x30 else 0x20) w number.2
      front.1 ++ emitLoop number.1 number.2 ++ (padLoop 0x20 w front.2).1

/-- The radix of a numeric conversion. -/
def radix (d : UInt8) : Option ℕ :=
  if d = 0x42 then some 2
  else if d = 0x4f then some 8
  else if d = 0x44 ∨ d = 0x55 then some 10
  else if d = 0x58 then some 16
  else none

/-- A sequence, from its type `c` on, and the arguments that are left; `str p` is the string at `p`. -/
def putSequence (str : ℕ → List UInt8) (f : Flags) (w : ℕ) (c : UInt8) (args : List ℕ) : Option (List UInt8 × List ℕ) :=
  let d := if 0x61 ≤ c then c - 0x20 else c
  if d = 0x53 then
    args.head?.map fun p =>
      let front := if f.left then ([], (str p).length) else padLoop 0x20 w (str p).length
      (front.1 ++ xputs (str p) ++ (padLoop 0x20 w front.2).1, args.tail)
  else if d = 0x43 then args.head?.map fun v => (xputc (UInt8.ofNat v), args.tail)
  else
    match radix d with
    | some r => args.head?.bind fun v => (putNumber f w c d r v).map fun out => (out, args.tail)
    | none => some (xputc c, args)

/-- The loop of `xvprintf`. -/
def xvprintfLoop (str : ℕ → List UInt8) : ℕ → List UInt8 → List ℕ → Option (List UInt8)
  | 0, _, _ => none
  | n + 1, fmt, args =>
    if fmt.headD 0 = 0 then some []
    else if fmt.headD 0 ≠ 0x25 then (xvprintfLoop str n fmt.tail args).map (xputc (fmt.headD 0) ++ ·)
    else
      let flag := readFlag fmt.tail
      let width := readWidth flag.2 0
      let fmt := readLong width.2
      if fmt.headD 0 = 0 then some []
      else
        (putSequence str flag.1 width.1 (fmt.headD 0) args).bind fun r =>
          (xvprintfLoop str n fmt.tail r.2).map (r.1 ++ ·)

/-- `xvprintf`, as what it gives out. There is nothing if it writes outside of `s`, or has too few arguments. -/
def xvprintf (str : ℕ → List UInt8) (fmt : List UInt8) (args : List ℕ) : Option (List UInt8) :=
  xvprintfLoop str (fmt.length + 1) fmt args

/-! ## What a sequence stands for -/

/-- The numeric conversions. -/
inductive Conversion where
  | b
  | o
  | d
  | u
  | x
  | X
  deriving DecidableEq

/-- The flags. -/
inductive Flag where
  | none
  | zero
  | left
  deriving DecidableEq

def Flag.text : Flag → List UInt8
  | .none => []
  | .zero => [0x30]
  | .left => [0x2d]

/-- The numeral of a width; no width is none at all. -/
def widthText (width : ℕ) : List UInt8 := (Nat.digits 10 width).reverse.map fun d => UInt8.ofNat (d + 0x30)

namespace Conversion

def char : Conversion → UInt8
  | .b => 0x62
  | .o => 0x6f
  | .d => 0x64
  | .u => 0x75
  | .x => 0x78
  | .X => 0x58

def base : Conversion → ℕ
  | .b => 2
  | .o => 8
  | .d | .u => 10
  | .x | .X => 16

/-- The format of a single sequence. -/
def format (conv : Conversion) (flag : Flag) (width : ℕ) (long : Bool) : List UInt8 :=
  0x25 :: (flag.text ++ (widthText width ++ ((if long then [0x6c] else []) ++ [conv.char])))

/-- The value of 32 bits. -/
def value (conv : Conversion) (v : ℕ) : ℤ := if conv = .d ∧ 2 ^ 31 ≤ v then (v : ℤ) - 2 ^ 32 else v

/-- The character of a digit. -/
def digitText (conv : Conversion) (d : ℕ) : UInt8 :=
  ((List.range' 0x30 10 ++ List.range' (if conv = .X then 0x41 else 0x61) 6).map UInt8.ofNat).getD d 0

/-- **The numeral of the value**, with its sign. -/
def numeral (conv : Conversion) (v : ℕ) : List UInt8 :=
  (if conv.value v < 0 then [0x2d] else []) ++ ((lowFirst conv.base (conv.value v).natAbs).map conv.digitText).reverse

end Conversion

/-- A numeral that is padded to a width, on the side that the flag says. -/
def Flag.padded (flag : Flag) (width : ℕ) (num : List UInt8) : List UInt8 :=
  match flag with
  | .none => List.replicate (width - num.length) 0x20 ++ num
  | .zero => List.replicate (width - num.length) 0x30 ++ num
  | .left => num ++ List.replicate (width - num.length) 0x20

/-! ## The loops -/

theorem xputc_of_ne {c : UInt8} (h : c ≠ 0x0a) : xputc c = [c] := if_neg h

/-- The padding, and its counter: one beyond the width, or beyond where it has been before. -/
theorem padLoop_eq {d : UInt8} (hd : d ≠ 0x0a) (w j : ℕ) : padLoop d w j = (List.replicate (w - j) d, (max w j + 1) % 2 ^ 32) := by
  generalize hn : w - j = n
  induction n generalizing j with
  | zero =>
    rw [padLoop, if_neg (by omega), show max w j = j by omega]
    rfl
  | succ n ih =>
    rw [padLoop, if_pos (by omega), ih (j + 1) (by omega), xputc_of_ne hd, show max w (j + 1) = max w j by omega]
    rfl

/-- The loop over the digits stores the 24 lowest. -/
theorem numeralLoop_eq {c : UInt8} {r : ℕ} (hr : 1 < r) (n vs : ℕ) (s : ℕ → UInt8) (i : ℕ) (hn : 24 ≤ i + n) (hi : i < 24) :
    numeralLoop c r n vs s i = some (put s i (((lowFirst r vs).take (24 - i)).map (digitByte c)),
      i + ((lowFirst r vs).take (24 - i)).length) := by
  induction n generalizing vs s i with
  | zero => omega
  | succ n ih =>
    rw [numeralLoop, store, if_pos hi, Option.bind_some, show 24 - i = 23 - i + 1 by omega]
    rcases Nat.lt_or_ge vs r with hlt | hge
    · rw [lowFirst_of_lt hlt, Nat.div_eq_of_lt hlt, Nat.mod_eq_of_lt hlt, if_neg (fun h => h.1 rfl), List.take_succ_cons,
        List.take_nil, List.map_singleton, put_singleton]
      rfl
    · have hdiv : vs / r ≠ 0 := Nat.ne_of_gt (Nat.div_pos hge (by omega))
      rw [lowFirst_of_le hr hge, List.take_succ_cons, List.map_cons, List.length_cons, put_cons]
      by_cases hlast : i + 1 < 24
      · rw [if_pos ⟨hdiv, hlast⟩, ih _ _ _ (by omega) hlast, show 24 - (i + 1) = 23 - i by omega, Nat.add_assoc,
          Nat.add_comm 1]
      · rw [if_neg (fun h => hlast h.2), show 23 - i = 0 by omega, List.take_zero, List.map_nil, put_nil]
        rfl

/-- What has been stored comes out from the end. -/
theorem emitLoop_put (s : ℕ → UInt8) {l : List UInt8} (hl : (0x0a : UInt8) ∉ l) : emitLoop (put s 0 l) l.length = l.reverse := by
  have hemit : ∀ n, n ≤ l.length → emitLoop (put s 0 l) n = (l.take n).reverse := by
    intro n hn
    induction n with
    | zero => rfl
    | succ n ih =>
      have hinside := put_inside (m := s) (p := 0) (l := l) (i := n) hn
      rw [Nat.zero_add] at hinside
      rw [emitLoop, ih (by omega), hinside, xputc_of_ne (fun h => hl (h ▸ List.getElem_mem _)), List.take_add_one,
        List.getElem?_eq_getElem hn, List.reverse_append]
      rfl
  rw [hemit l.length (Nat.le_refl _), List.take_length]

/-! ## Numbers -/

/-- What comes out for a numeral: with the greatest width, the padding behind it, too. -/
def paddedOut (f : Flags) (w : ℕ) (num : List UInt8) : List UInt8 :=
  if f.left then num ++ List.replicate (w - num.length) 0x20
  else List.replicate (w - num.length) (if f.zero then 0x30 else 0x20) ++ num ++ List.replicate (if w = 2 ^ 32 - 1 then w else 0) 0x20

/-- The 24 lowest digits, the highest first. -/
def lowDigits (c : UInt8) (r vs : ℕ) : List UInt8 := (((lowFirst r vs).take 24).map (digitByte c)).reverse

theorem digitByte_ne {c : UInt8} {d : ℕ} (hd : d < 16) : digitByte c d ≠ 0x0a := by
  have hlow : ∀ d : Fin 16, UInt8.ofNat ((if 9 < d.val then d.val + 0x27 else d.val) + 0x30) ≠ 0x0a := by decide
  have hhigh : ∀ d : Fin 16, UInt8.ofNat ((if 9 < d.val then d.val + 0x07 else d.val) + 0x30) ≠ 0x0a := by decide
  unfold digitByte
  by_cases hc : c = 0x78
  · rw [if_pos hc]
    exact hlow ⟨d, hd⟩
  · rw [if_neg hc]
    exact hhigh ⟨d, hd⟩

theorem newline_notMem_lowDigits {c : UInt8} {r : ℕ} (hr : 1 < r) (hr' : r ≤ 16) (vs : ℕ) :
    (0x0a : UInt8) ∉ ((lowFirst r vs).take 24).map (digitByte c) := by
  intro h
  obtain ⟨d, hd, hnewline⟩ := List.mem_map.mp h
  exact digitByte_ne ((lt_of_mem_lowFirst hr (List.mem_of_mem_take hd)).trans_le hr') hnewline

/-- The padding on both sides of what has been stored. -/
theorem padded_eq (f : Flags) {w : ℕ} (hw : w < 2 ^ 32) {num : List UInt8} (hnum : num.length ≤ 24) :
    (if f.left then ([], num.length) else padLoop (if f.zero then 0x30 else 0x20) w num.length).1 ++ num ++
      (padLoop 0x20 w (if f.left then ([], num.length) else padLoop (if f.zero then 0x30 else 0x20) w num.length).2).1 =
        paddedOut f w num := by
  have hpad : (if f.zero then (0x30 : UInt8) else 0x20) ≠ 0x0a := by cases f.zero <;> decide
  unfold paddedOut
  cases hleft : f.left with
  | true =>
    rw [if_pos rfl, if_pos rfl, padLoop_eq (by decide)]
    rfl
  | false =>
    rw [if_neg Bool.false_ne_true, if_neg Bool.false_ne_true, padLoop_eq hpad, padLoop_eq (by decide)]
    dsimp only
    congr 2
    split
    next hmax =>
      rw [hmax, show max (2 ^ 32 - 1) num.length = 2 ^ 32 - 1 by omega]
      decide
    next hmax =>
      rw [Nat.mod_eq_of_lt (by omega)]
      omega

theorem length_lowDigits_le (c : UInt8) (r vs : ℕ) : (lowDigits c r vs).length ≤ 24 := by
  rw [lowDigits, List.length_reverse, List.length_map]
  exact List.length_take_le 24 _

/-- A number that is not below zero. -/
theorem putNumber_of_nonneg (f : Flags) {w r v : ℕ} {c d : UInt8} (hw : w < 2 ^ 32) (hr : 1 < r) (hr' : r ≤ 16)
    (hpos : ¬(d = 0x44 ∧ 2 ^ 31 ≤ v)) : putNumber f w c d r v = some (paddedOut f w (lowDigits c r v)) := by
  have hemit := emitLoop_put (fun _ => 0) (newline_notMem_lowDigits (c := c) hr hr' v)
  have hlength : ((lowFirst r v).take 24).length = (lowDigits c r v).length := by
    rw [lowDigits, List.length_reverse, List.length_map]
  rw [List.length_map, hlength] at hemit
  unfold putNumber
  dsimp only
  rw [if_neg hpos, numeralLoop_eq hr 24 v _ 0 (by decide) (by decide), Option.bind_some, if_neg hpos, Option.map_some]
  dsimp only
  rw [Nat.sub_zero, Nat.zero_add, hlength, hemit, ← padded_eq f hw (length_lowDigits_le c r v)]
  rfl

/-- A number below zero has at most ten digits, so that there is room for the sign. -/
theorem putNumber_of_neg (f : Flags) {w v : ℕ} {c : UInt8} (hw : w < 2 ^ 32) (hneg : 2 ^ 31 ≤ v) (hv : v < 2 ^ 32) :
    putNumber f w c 0x44 10 v = some (paddedOut f w (0x2d :: lowDigits c 10 (2 ^ 32 - v))) := by
  have hvs : Word.sub 32 0 v = 2 ^ 32 - v := by rw [Word.sub_of_lt (by omega) (by omega), Nat.zero_add]
  have hfew : (lowFirst 10 (2 ^ 32 - v)).length ≤ 10 := (length_lowFirst_le_iff (by decide) (by decide)).mpr (by omega)
  have hlength : ((lowFirst 10 (2 ^ 32 - v)).take 24).length = (lowDigits c 10 (2 ^ 32 - v)).length := by
    rw [lowDigits, List.length_reverse, List.length_map]
  have hroom : (lowDigits c 10 (2 ^ 32 - v)).length < 24 := by
    rw [← hlength, List.length_take]
    omega
  have hnewline : (0x0a : UInt8) ∉ ((lowFirst 10 (2 ^ 32 - v)).take 24).map (digitByte c) ++ [0x2d] := by
    rw [List.mem_append, not_or]
    exact ⟨newline_notMem_lowDigits (by decide) (by decide) _, by decide⟩
  have hemit := emitLoop_put (fun _ => 0) hnewline
  rw [List.length_append, List.length_map, List.length_singleton, List.reverse_append, hlength] at hemit
  have hsign := update_put (m := fun _ => (0 : UInt8)) (p := 0) (l := ((lowFirst 10 (2 ^ 32 - v)).take 24).map (digitByte c)) (c := 0x2d)
  rw [Nat.zero_add, List.length_map, hlength] at hsign
  have hpadded := padded_eq f hw (show (0x2d :: lowDigits c 10 (2 ^ 32 - v)).length ≤ 24 from Nat.succ_le_of_lt hroom)
  have hnegative : (0x44 : UInt8) = 0x44 ∧ 2 ^ 31 ≤ v := ⟨rfl, hneg⟩
  rw [List.length_cons] at hpadded
  unfold putNumber
  dsimp only
  rw [if_pos hnegative, numeralLoop_eq (by decide) 24 _ _ 0 (by decide) (by decide), Option.bind_some, if_pos hnegative]
  dsimp only
  rw [Nat.sub_zero, Nat.zero_add, hvs, hlength, store, if_pos hroom, hsign, Option.map_some, Option.map_some]
  dsimp only
  rw [hemit, ← hpadded]
  rfl

/-! ## Formats -/

/-- The width is read into 32 bits. -/
theorem readWidth_digits {ds : List ℕ} (hten : ∀ d ∈ ds, d < 10) {rest : List UInt8}
    (hrest : ¬(0x30 ≤ rest.headD 0 ∧ rest.headD 0 ≤ 0x39)) (w : ℕ) :
    readWidth (ds.map (fun d => UInt8.ofNat (d + 0x30)) ++ rest) (w % 2 ^ 32) =
      (ds.foldl (fun w d => w * 10 + d) w % 2 ^ 32, rest) := by
  induction ds generalizing w with
  | nil =>
    cases rest with
    | nil => rfl
    | cons c rest => exact if_neg hrest
  | cons d ds ih =>
    have hdigit : ∀ d : Fin 10, (0x30 ≤ UInt8.ofNat (d.val + 0x30) ∧ UInt8.ofNat (d.val + 0x30) ≤ 0x39) ∧
        (UInt8.ofNat (d.val + 0x30)).toNat - 0x30 = d.val := by decide
    obtain ⟨hrange, hval⟩ := hdigit ⟨d, hten d List.mem_cons_self⟩
    dsimp only at hrange hval
    rw [List.map_cons, List.cons_append, readWidth, if_pos hrange, hval, List.foldl_cons, ← ih (fun d hd => hten d (List.mem_cons_of_mem _ hd))]
    congr 1
    rw [Nat.add_mod, Nat.mod_mul_mod, ← Nat.add_mod]

theorem readWidth_widthText {rest : List UInt8} (hrest : ¬(0x30 ≤ rest.headD 0 ∧ rest.headD 0 ≤ 0x39)) (width : ℕ) :
    readWidth (widthText width ++ rest) 0 = (width % 2 ^ 32, rest) := by
  have hten : ∀ d ∈ (Nat.digits 10 width).reverse, d < 10 := fun d hd => Nat.digits_lt_base (by decide) (List.mem_reverse.mp hd)
  have hvalue : (Nat.digits 10 width).reverse.foldl (fun w d => w * 10 + d) 0 = width := by
    rw [List.foldl_reverse]
    conv_rhs => rw [← Nat.ofDigits_digits 10 width, Nat.ofDigits_eq_foldr]
    congr 1
    funext d w
    rw [Nat.mul_comm, Nat.add_comm]
    rfl
  have hread := readWidth_digits hten hrest 0
  rwa [hvalue] at hread

/-- A width does not begin with a zero, and so not with a flag. -/
theorem widthText_head (width : ℕ) {rest : List UInt8} (hrest : rest.headD 0 ≠ 0x30 ∧ rest.headD 0 ≠ 0x2d) :
    (widthText width ++ rest).headD 0 ≠ 0x30 ∧ (widthText width ++ rest).headD 0 ≠ 0x2d := by
  by_cases hzero : width = 0
  · subst hzero
    exact hrest
  · have hne : Nat.digits 10 width ≠ [] := Nat.digits_ne_nil_iff_ne_zero.mpr hzero
    have hlast := Nat.getLast_digit_ne_zero 10 hzero
    have hten : (Nat.digits 10 width).getLast hne < 10 := Nat.digits_lt_base (by decide) (List.getLast_mem hne)
    have hdigit : ∀ d : Fin 10, d.val ≠ 0 → UInt8.ofNat (d.val + 0x30) ≠ 0x30 ∧ UInt8.ofNat (d.val + 0x30) ≠ 0x2d := by decide
    have hhead : (widthText width ++ rest).headD 0 = UInt8.ofNat ((Nat.digits 10 width).getLast hne + 0x30) := by
      unfold widthText
      conv_lhs => rw [← List.dropLast_append_getLast hne, List.reverse_append]
      rfl
    rw [hhead]
    exact hdigit ⟨_, hten⟩ hlast

/-- The flags of a format. -/
def Flag.flags (flag : Flag) : Flags := ⟨flag = .zero, flag = .left⟩

theorem readFlag_text (flag : Flag) {rest : List UInt8} (hrest : rest.headD 0 ≠ 0x30 ∧ rest.headD 0 ≠ 0x2d) :
    readFlag (flag.text ++ rest) = (flag.flags, rest) := by
  unfold readFlag
  cases flag with
  | none => exact (if_neg hrest.1).trans (if_neg hrest.2)
  | zero => rfl
  | left => rfl

namespace Conversion

/-- What is behind the width. -/
def tail (conv : Conversion) (long : Bool) : List UInt8 := (if long then [0x6c] else []) ++ [conv.char]

theorem tail_head (conv : Conversion) (long : Bool) : ((conv.tail long).headD 0 ≠ 0x30 ∧ (conv.tail long).headD 0 ≠ 0x2d) ∧
    ¬(0x30 ≤ (conv.tail long).headD 0 ∧ (conv.tail long).headD 0 ≤ 0x39) := by
  cases long <;> cases conv <;> decide

theorem readLong_tail (conv : Conversion) (long : Bool) : readLong (conv.tail long) = [conv.char] := by
  cases long <;> cases conv <;> rfl

/-- The type in capitals. -/
def capital (conv : Conversion) : UInt8 := if 0x61 ≤ conv.char then conv.char - 0x20 else conv.char

theorem putSequence_eq (conv : Conversion) (str : ℕ → List UInt8) (f : Flags) (w v : ℕ) :
    putSequence str f w conv.char [v] = (putNumber f w conv.char conv.capital conv.base v).map fun out => (out, []) := by
  cases conv <;> rfl

/-- A format is taken apart as it has been put together. -/
theorem xvprintf_format (conv : Conversion) (str : ℕ → List UInt8) (flag : Flag) (width : ℕ) (long : Bool) (v : ℕ) :
    xvprintf str (conv.format flag width long) [v] = putNumber flag.flags (width % 2 ^ 32) conv.char conv.capital conv.base v := by
  obtain ⟨hflag, hdigit⟩ := conv.tail_head long
  have hchar : conv.char ≠ 0 := by cases conv <;> decide
  have hrun : ∀ n, xvprintfLoop str (n + 2) (conv.format flag width long) [v] =
      putNumber flag.flags (width % 2 ^ 32) conv.char conv.capital conv.base v := by
    intro n
    have hend : xvprintfLoop str (n + 1) [] [] = some [] := if_pos rfl
    rw [xvprintfLoop, format, List.headD_cons, if_neg (by decide), if_neg (fun h => h rfl), List.tail_cons]
    dsimp only
    rw [← tail, readFlag_text flag (widthText_head width hflag)]
    dsimp only
    rw [readWidth_widthText hdigit]
    dsimp only
    rw [readLong_tail, List.headD_cons, if_neg hchar, putSequence_eq, List.tail_cons]
    cases putNumber flag.flags (width % 2 ^ 32) conv.char conv.capital conv.base v with
    | none => rfl
    | some out =>
      rw [Option.map_some, Option.bind_some]
      dsimp only
      rw [hend, Option.map_some, List.append_nil]
  have hlen : (conv.format flag width long).length + 1 = (conv.format flag width long).length - 1 + 2 := by
    rw [format, List.length_cons]
    omega
  rw [xvprintf, hlen, hrun]

/-! ## What comes out -/

/-- A value below zero. -/
def Negative (conv : Conversion) (v : ℕ) : Prop := conv = .d ∧ 2 ^ 31 ≤ v

instance (conv : Conversion) (v : ℕ) : Decidable (conv.Negative v) := inferInstanceAs (Decidable (_ ∧ _))

/-- The numeral of the 24 lowest digits, with the sign. -/
def lowNumeral (conv : Conversion) (v : ℕ) : List UInt8 :=
  if conv.Negative v then 0x2d :: lowDigits conv.char 10 (2 ^ 32 - v) else lowDigits conv.char conv.base v

theorem base_bounds (conv : Conversion) : 1 < conv.base ∧ conv.base ≤ 16 := by cases conv <;> decide

theorem putNumber_eq (conv : Conversion) (f : Flags) {w v : ℕ} (hw : w < 2 ^ 32) (hv : v < 2 ^ 32) :
    putNumber f w conv.char conv.capital conv.base v = some (paddedOut f w (conv.lowNumeral v)) := by
  unfold lowNumeral
  by_cases hneg : conv.Negative v
  · obtain ⟨rfl, hlarge⟩ := hneg
    rw [if_pos ⟨rfl, hlarge⟩]
    exact putNumber_of_neg f hw hlarge hv
  · obtain ⟨hbase, hbase'⟩ := conv.base_bounds
    rw [if_neg hneg]
    refine putNumber_of_nonneg f hw hbase hbase' fun h => hneg ⟨?_, h.2⟩
    have hcapital := h.1
    revert hcapital
    cases conv <;> decide

/-- The characters of the digits are the right ones. -/
theorem digitText_eq (conv : Conversion) {d : ℕ} (hd : d < conv.base) : conv.digitText d = digitByte conv.char d := by
  have hall : ∀ d : Fin 16, d.val < conv.base → conv.digitText d.val = digitByte conv.char d.val := by cases conv <;> decide
  exact hall ⟨d, hd.trans_le conv.base_bounds.2⟩ hd

/-- The digits of a number, the highest first. -/
theorem map_digitText (conv : Conversion) (n : ℕ) :
    (lowFirst conv.base n).map conv.digitText = (lowFirst conv.base n).map (digitByte conv.char) :=
  List.map_congr_left fun _ hd => conv.digitText_eq (lt_of_mem_lowFirst conv.base_bounds.1 hd)

theorem numeral_of_not_negative {conv : Conversion} {v : ℕ} (h : ¬conv.Negative v) :
    conv.numeral v = ((lowFirst conv.base v).map (digitByte conv.char)).reverse := by
  have hvalue : conv.value v = v := if_neg h
  unfold numeral
  rw [hvalue, if_neg (Int.not_lt.mpr (Int.natCast_nonneg v)), Int.natAbs_natCast, conv.map_digitText]
  rfl

theorem numeral_of_negative {v : ℕ} (h : 2 ^ 31 ≤ v) (hv : v < 2 ^ 32) :
    d.numeral v = 0x2d :: ((lowFirst 10 (2 ^ 32 - v)).map (digitByte d.char)).reverse := by
  have hvalue : d.value v = (v : ℤ) - 2 ^ 32 := if_pos ⟨rfl, h⟩
  have habs : (d.value v).natAbs = 2 ^ 32 - v := by
    rw [hvalue]
    omega
  unfold numeral
  rw [habs, if_pos (by rw [hvalue]; omega), d.map_digitText]
  rfl

/-- Numbers of 24 digits, and all but the binary ones are, come out whole. -/
theorem lowNumeral_eq {conv : Conversion} {v : ℕ} (hv : v < 2 ^ 32) (hfits : ¬(conv = .b ∧ 2 ^ 24 ≤ v)) :
    conv.lowNumeral v = conv.numeral v := by
  unfold lowNumeral
  by_cases hneg : conv.Negative v
  · have hfew : (lowFirst 10 (2 ^ 32 - v)).length ≤ 24 := (length_lowFirst_le_iff (by decide) (by decide)).mpr (by omega)
    obtain ⟨rfl, hlarge⟩ := hneg
    rw [if_pos ⟨rfl, hlarge⟩, numeral_of_negative hlarge hv, lowDigits, List.take_of_length_le hfew]
  · have hfew : (lowFirst conv.base v).length ≤ 24 := by
      rw [length_lowFirst_le_iff conv.base_bounds.1 (by decide)]
      cases conv with
      | b => exact Nat.lt_of_not_le fun h => hfits ⟨rfl, h⟩
      | o | d | u | x | X => exact hv.trans_le (by decide)
    rw [if_neg hneg, numeral_of_not_negative hneg, lowDigits, List.take_of_length_le hfew]

/-- A binary number that is longer has lost a one. -/
theorem count_lowNumeral {v : ℕ} (h : 2 ^ 24 ≤ v) : (b.lowNumeral v).count 0x31 < (b.numeral v).count 0x31 := by
  have hneg : ¬b.Negative v := fun hneg => absurd hneg.1 (by decide)
  have hlong : 24 < (lowFirst 2 v).length := Nat.lt_of_not_le fun hle =>
    absurd ((length_lowFirst_le_iff (by decide) (by decide)).mp hle) (Nat.not_lt.mpr h)
  have htop : (0x31 : UInt8) ∈ ((lowFirst 2 v).drop 24).map (digitByte b.char) := by
    have hlast := Nat.getLast_digit_ne_zero 2 (show v ≠ 0 by omega)
    have hdigits : lowFirst 2 v = Nat.digits 2 v := if_neg (by omega)
    have hne : (Nat.digits 2 v).drop 24 ≠ [] := by
      rw [← hdigits]
      exact List.ne_nil_of_length_pos (by rw [List.length_drop]; omega)
    have hbit := Nat.digits_lt_base (b := 2) (m := v) (by decide) (List.mem_of_mem_drop (List.getLast_mem hne))
    rw [← List.getLast_drop hne] at hlast
    rw [hdigits]
    exact List.mem_map.mpr ⟨_, List.getLast_mem hne, by rw [show ((Nat.digits 2 v).drop 24).getLast hne = 1 by omega]; decide⟩
  have hsplit : (lowFirst 2 v).map (digitByte b.char) =
      ((lowFirst 2 v).take 24).map (digitByte b.char) ++ ((lowFirst 2 v).drop 24).map (digitByte b.char) := by
    rw [← List.map_append, List.take_append_drop]
  rw [lowNumeral, if_neg hneg, numeral_of_not_negative hneg, lowDigits, List.count_reverse, List.count_reverse]
  show _ < List.count 0x31 ((lowFirst 2 v).map (digitByte b.char))
  rw [hsplit, List.count_append]
  exact Nat.lt_add_of_pos_right (List.count_pos_iff.mpr htop)

theorem length_lowNumeral_le (conv : Conversion) {v : ℕ} (hv : v < 2 ^ 32) : (conv.lowNumeral v).length ≤ 24 := by
  unfold lowNumeral
  split
  next hneg =>
    have hfew : (lowFirst 10 (2 ^ 32 - v)).length ≤ 10 := (length_lowFirst_le_iff (by decide) (by decide)).mpr (by omega)
    rw [List.length_cons, lowDigits, List.length_reverse, List.length_map, List.length_take]
    omega
  next => exact length_lowDigits_le _ _ _

end Conversion

/-! ## When it is the numeral -/

theorem count_padded (flag : Flag) (width : ℕ) (num : List UInt8) : (flag.padded width num).count 0x31 = num.count 0x31 := by
  have hblank : ∀ n, (List.replicate n (0x20 : UInt8)).count 0x31 = 0 := fun n => List.count_replicate.trans (if_neg (by decide))
  have hzero : ∀ n, (List.replicate n (0x30 : UInt8)).count 0x31 = 0 := fun n => List.count_replicate.trans (if_neg (by decide))
  cases flag with
  | none => rw [Flag.padded, List.count_append, hblank, Nat.zero_add]
  | zero => rw [Flag.padded, List.count_append, hzero, Nat.zero_add]
  | left => rw [Flag.padded, List.count_append, hblank, Nat.add_zero]

theorem count_paddedOut (f : Flags) (w : ℕ) (num : List UInt8) : (paddedOut f w num).count 0x31 = num.count 0x31 := by
  have hblank : ∀ n, (List.replicate n (0x20 : UInt8)).count 0x31 = 0 := fun n => List.count_replicate.trans (if_neg (by decide))
  have hpad : ∀ n, (List.replicate n (if f.zero then (0x30 : UInt8) else 0x20)).count 0x31 = 0 := fun n =>
    List.count_replicate.trans (if_neg (by cases f.zero <;> decide))
  unfold paddedOut
  split
  · rw [List.count_append, hblank, Nat.add_zero]
  · rw [List.count_append, List.count_append, hblank, hpad, Nat.zero_add, Nat.add_zero]

theorem length_padded (flag : Flag) (width : ℕ) (num : List UInt8) : (flag.padded width num).length = max width num.length := by
  cases flag <;> simp only [Flag.padded, List.length_append, List.length_replicate] <;> omega

/-- The padding is the right one if and only if the width has 32 bits, and is not the greatest of these, or on the left. -/
theorem paddedOut_eq_iff (flag : Flag) (width : ℕ) {num : List UInt8} (hnum : num.length ≤ 24) :
    paddedOut flag.flags (width % 2 ^ 32) num = flag.padded width num ↔ width < 2 ^ 32 ∧ (width = 2 ^ 32 - 1 → flag = .left) := by
  constructor
  · intro h
    have hlength := congrArg List.length h
    rw [length_padded, paddedOut] at hlength
    by_cases hleft : flag = .left
    · subst hleft
      rw [if_pos (show Flag.left.flags.left = true from rfl), List.length_append, List.length_replicate] at hlength
      exact ⟨by omega, fun _ => rfl⟩
    · rw [if_neg (fun hl : flag.flags.left = true => hleft (of_decide_eq_true hl)), List.length_append, List.length_append,
        List.length_replicate, List.length_replicate] at hlength
      by_cases hmax : width % 2 ^ 32 = 2 ^ 32 - 1
      · rw [if_pos hmax] at hlength
        omega
      · rw [if_neg hmax] at hlength
        refine ⟨by omega, fun hw => ?_⟩
        omega
  · rintro ⟨hw, hmax⟩
    rw [Nat.mod_eq_of_lt hw, paddedOut]
    cases flag with
    | left => rfl
    | none | zero =>
      have hne : width ≠ 2 ^ 32 - 1 := fun hw => by cases hmax hw
      rw [if_neg hne, List.replicate_zero, List.append_nil]
      rfl

/-- **Numbers come out as they should** if and only if a binary one has no more than 24 digits, and the width is less than
`2 ^ 32 - 1`, or just this and on the left. Nothing is written outside of the digit buffer in any case. -/
theorem xvprintf_numeric_iff (conv : Conversion) (flag : Flag) (width : ℕ) (long : Bool) {v : ℕ} (hv : v < 2 ^ 32)
    (str : ℕ → List UInt8) :
    xvprintf str (conv.format flag width long) [v] = some (flag.padded width (conv.numeral v)) ↔
      ¬(conv = .b ∧ 2 ^ 24 ≤ v) ∧ width < 2 ^ 32 ∧ (width = 2 ^ 32 - 1 → flag = .left) := by
  rw [conv.xvprintf_format, conv.putNumber_eq _ (Nat.mod_lt _ (Nat.two_pow_pos 32)) hv, Option.some_inj]
  by_cases hfits : conv = .b ∧ 2 ^ 24 ≤ v
  · obtain ⟨rfl, hlong⟩ := hfits
    refine iff_of_false (fun h => ?_) fun h => h.1 ⟨rfl, hlong⟩
    have hcount := congrArg (List.count 0x31) h
    rw [count_padded, count_paddedOut] at hcount
    exact absurd hcount (Nat.ne_of_lt (Conversion.count_lowNumeral hlong))
  · rw [Conversion.lowNumeral_eq hv hfits, paddedOut_eq_iff, and_iff_right hfits]
    rw [← Conversion.lowNumeral_eq hv hfits]
    exact conv.length_lowNumeral_le hv

/-- `%08x` of `0xa3`. -/
theorem xvprintf_a3 :
    xvprintf (fun _ => []) (Conversion.x.format .zero 8 false) [0xa3] = some (Flag.zero.padded 8 (Conversion.x.numeral 0xa3)) :=
  (xvprintf_numeric_iff .x .zero 8 false (by decide) fun _ => []).mpr (by decide)

/-- `%b` of `2 ^ 24` loses its only one. -/
theorem xvprintf_cut : ¬∀ (conv : Conversion) (flag : Flag) (width : ℕ) (v : ℕ) (str : ℕ → List UInt8), v < 2 ^ 32 →
    xvprintf str (conv.format flag width false) [v] = some (flag.padded width (conv.numeral v)) := by
  intro h
  have hout := h .b .none 0 (2 ^ 24) (fun _ => []) (by decide)
  rw [Conversion.xvprintf_format, Conversion.putNumber_eq _ _ (by decide) (by decide)] at hout
  have hcount := congrArg (List.count 0x31) (Option.some.inj hout)
  rw [count_padded, count_paddedOut] at hcount
  exact absurd hcount (Nat.ne_of_lt (Conversion.count_lowNumeral (Nat.le_refl _)))

end CoreLink.Xprintf
