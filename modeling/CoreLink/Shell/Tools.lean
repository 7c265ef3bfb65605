/-
# `CoreLink.Shell.Tools` — numbers and their numerals: `src/shell/tools.c`.

Four loops write digits: `int2str` and `uint2str` the lowest first, and turn the buffer around then; `int2str_r` and `uint2str_r`
from the right end. `str2int` adds the digits up in 16 bits, so that it gives a number back only if it has 16 bits
(`str2int_int2str_iff`). `uint2str_r` takes its argument as an `int32_t`, and all but `uint2str` take the remainder of a negative
number where the argument has the highest bit: then there is a digit only if the remainder is zero (`justified_iff`).
-/
import CoreLink.Lib.Block
import CoreLink.Lib.Digits
import CoreLink.Lib.Scan
import CoreLink.Lib.SignedWord
import CoreLink.Lib.Word

namespace CoreLink.Shell

open CoreLink.Lib

/-! ## The source -/

/-- `digits`, with its NUL. -/
def digits : List UInt8 := (List.range' 48 10 ++ List.range' 65 26 ++ [0]).map UInt8.ofNat

/-- `digits[k]`: none outside of the array. -/
def digitAt (k : ℤ) : Option UInt8 := if 0 ≤ k then digits[k.toNat]? else none

/-- The loop of `int2str` and `uint2str` over the digits; `i` is an `uint8_t`. -/
def digitsUp (base : ℤ) (dstLen : ℕ) : ℕ → ℤ → (ℕ → UInt8) → ℕ → Option ((ℕ → UInt8) × ℕ)
  | 0, _, _, _ => none
  | n + 1, num, dst, i =>
    (digitAt (num.tmod base)).bind fun c =>
      if 0 < num.tdiv base ∧ (i + 1) % 2 ^ 8 < dstLen then
        digitsUp base dstLen n (num.tdiv base) (Function.update dst i c) ((i + 1) % 2 ^ 8)
      else some (Function.update dst i c, (i + 1) % 2 ^ 8)

/-- `int2str`: the memory at `dst` after it. -/
def int2str (num : ℤ) (dst : ℕ → UInt8) (dstLen : ℕ) (base : ℤ) : Option (ℕ → UInt8) :=
  if num < 0 then
    (digitsUp base dstLen (dstLen + 1) (int32 (-num)) dst 0).map fun r =>
      reverseLoop ((r.2 + 1) % 2 ^ 8) (Function.update (Function.update r.1 r.2 0x2d) ((r.2 + 1) % 2 ^ 8) 0) 0
  else
    (digitsUp base dstLen (dstLen + 1) num dst 0).map fun r => reverseLoop r.2 (Function.update r.1 r.2 0) 0

/-- `uint2str`. The base is made unsigned, too. -/
def uint2str (num : ℕ) (dst : ℕ → UInt8) (dstLen : ℕ) (base : ℤ) : Option (ℕ → UInt8) :=
  (digitsUp (base % 2 ^ 32) dstLen (dstLen + 1) num dst 0).map fun r => reverseLoop r.2 (Function.update r.1 r.2 0) 0

/-- The loop of `int2str_r` and `uint2str_r` over the digits. -/
def digitsDown (base : ℤ) : ℕ → ℤ → (ℕ → UInt8) → ℕ → Option ((ℕ → UInt8) × ℕ)
  | 0, _, _, _ => none
  | n + 1, num, dst, i =>
    (digitAt (num.tmod base)).bind fun c =>
      if 0 < num.tdiv base ∧ 0 < Word.pred 8 i then
        digitsDown base n (num.tdiv base) (Function.update dst (Word.pred 8 i) c) (Word.pred 8 i)
      else some (Function.update dst (Word.pred 8 i) c, Word.pred 8 i)

/-- The blanks that both begin with, and the NUL behind them. -/
def blanks (dst : ℕ → UInt8) (dstLen : ℕ) : ℕ → UInt8 := Function.update (put dst 0 (List.replicate dstLen 0x20)) dstLen 0

/-- `int2str_r`. -/
def int2strR (num : ℤ) (dst : ℕ → UInt8) (dstLen : ℕ) (base : ℤ) : Option (ℕ → UInt8) :=
  if num < 0 then
    (digitsDown base (2 ^ 8) (int32 (-num)) (blanks dst dstLen) dstLen).map fun r =>
      if 0 < r.2 then Function.update r.1 (r.2 - 1) 0x2d else r.1
  else (digitsDown base (2 ^ 8) num (blanks dst dstLen) dstLen).map Prod.fst

/-- `uint2str_r`. -/
def uint2strR (num : ℤ) (dst : ℕ → UInt8) (dstLen : ℕ) (base : ℤ) : Option (ℕ → UInt8) :=
  (digitsDown base (2 ^ 8) num (blanks dst dstLen) dstLen).map Prod.fst

/-- `str_len`; it counts in 16 bits. -/
def strLen (str : ℕ → UInt8) : ℕ := scan (fun i => str i == 0) (2 ^ 16 - 1) 0

/-- The loop of `int_pow`. -/
def intPowLoop (n : ℕ) : ℕ → ℤ → ℤ
  | 0, i => i
  | s + 1, i => intPowLoop n s (int64 (i * n))

/-- `int_pow`. -/
def intPow (n s : ℕ) : ℤ := int32 (intPowLoop n s 1)

/-- The loop of `str2int` over the characters of a string of length `l`, from the last to the first. -/
def str2intLoop (str : ℕ → UInt8) (l : ℕ) : ℕ → ℤ → ℤ
  | 0, n => n
  | i + 1, n =>
    str2intLoop str l i
      (if str i ≤ 0x39 ∧ 0x30 ≤ str i then int16 (n + int32 (((str i).toNat - 0x30 : ℤ) * intPow 10 (l - (i + 1)))) else n)

/-- `str2int`. -/
def str2int (str : ℕ → UInt8) : ℤ :=
  let l := strLen str % 2 ^ 8
  let n := str2intLoop str l l 0
  if str 0 = 0x2d then int16 (-n) else n

/-! ## Strings and numerals -/

/-- The memory at `d` is a string. -/
structure IsString (d : ℕ → UInt8) (s : List UInt8) : Prop where
  nonzero : 0 ∉ s
  byte : ∀ i (h : i < s.length), d i = s[i]
  nul : d s.length = 0

/-- The character of a digit. -/
def digitChar (d : ℕ) : UInt8 := digits.getD d 0

/-- The digits of a number, the highest first. -/
def digitString (b n : ℕ) : List UInt8 := ((lowFirst b n).map digitChar).reverse

/-- **The numeral of an integer.** -/
def numeral (b : ℕ) (n : ℤ) : List UInt8 := if n < 0 then 0x2d :: digitString b n.natAbs else digitString b n.natAbs

section Strings

variable {b n d : ℕ} {dst : ℕ → UInt8} {s t : List UInt8}

theorem digitAt_natCast (hd : d < 36) : digitAt d = some (digitChar d) := by
  have hall : ∀ d : Fin 36, digitAt (d.val : ℤ) = some (digitChar d.val) := by decide
  exact hall ⟨d, hd⟩

theorem digitAt_neg {k : ℤ} (hk : k < 0) : digitAt k = none := if_neg (Int.not_le.mpr hk)

/-- The characters of the digits are neither NUL nor a blank nor the sign. -/
theorem digitChar_ne (hd : d < 36) : digitChar d ≠ 0 ∧ digitChar d ≠ 0x20 ∧ digitChar d ≠ 0x2d := by
  have hall : ∀ d : Fin 36, digitChar d.val ≠ 0 ∧ digitChar d.val ≠ 0x20 ∧ digitChar d.val ≠ 0x2d := by decide
  exact hall ⟨d, hd⟩

theorem digitString_ne (hb : 2 ≤ b) (hb' : b ≤ 36) : ∀ c ∈ digitString b n, c ≠ 0 ∧ c ≠ 0x20 ∧ c ≠ 0x2d := by
  intro c hc
  obtain ⟨d, hd, rfl⟩ := List.mem_map.mp (List.mem_reverse.mp hc)
  exact digitChar_ne ((lt_of_mem_lowFirst hb hd).trans_le hb')

theorem length_digitString : (digitString b n).length = (lowFirst b n).length := by
  rw [digitString, List.length_reverse, List.length_map]

theorem digitString_of_lt (h : n < b) : digitString b n = [digitChar n] := by
  rw [digitString, lowFirst_of_lt h]
  rfl

theorem digitString_of_le (hb : 1 < b) (h : b ≤ n) : digitString b n = digitString b (n / b) ++ [digitChar (n % b)] := by
  rw [digitString, lowFirst_of_le hb h, List.map_cons, List.reverse_cons]
  rfl

theorem digitString_ne_nil : digitString b n ≠ [] := by
  intro h
  have hlength := congrArg List.length h
  rw [length_digitString] at hlength
  exact lowFirst_ne_nil b n (List.length_eq_zero_iff.mp hlength)

theorem zero_notMem_numeral (hb : 2 ≤ b) (hb' : b ≤ 36) (n : ℤ) : 0 ∉ numeral b n := by
  have hdigits : ∀ k, 0 ∉ digitString b k := fun k h => (digitString_ne hb hb' 0 h).1 rfl
  unfold numeral
  split
  · rw [List.mem_cons, not_or]
    exact ⟨by decide, hdigits _⟩
  · exact hdigits _

theorem IsString.of_put (h : 0 ∉ s) : IsString (put dst 0 (s ++ [0])) s := by
  have hput : ∀ i (hi : i < (s ++ [0]).length), put dst 0 (s ++ [0]) i = (s ++ [0])[i] := by
    intro i hi
    have hinside := put_inside (m := dst) (p := 0) hi
    rwa [Nat.zero_add] at hinside
  constructor
  · exact h
  · intro i hi
    rw [hput i (by rw [List.length_append]; omega), List.getElem_append_left hi]
  · rw [hput s.length (by rw [List.length_append, List.length_singleton]; omega), List.getElem_concat_length]
    rfl

/-- There is only one string at a place. -/
theorem IsString.unique (h : IsString dst s) (h' : IsString dst t) : s = t := by
  have hle : ∀ {s t : List UInt8}, IsString dst s → IsString dst t → s.length ≤ t.length := by
    intro s t hs ht
    refine Nat.le_of_not_lt fun hlt => hs.nonzero ?_
    rw [← ht.nul, hs.byte _ hlt]
    exact List.getElem_mem hlt
  refine List.ext_getElem (Nat.le_antisymm (hle h h') (hle h' h)) fun i hi hi' => ?_
  rw [← h.byte i hi, ← h'.byte i hi']

end Strings

/-! ## The loops over the digits -/

section Loops

variable {b dstLen : ℕ} (hb : 2 ≤ b) (hb' : b ≤ 36)
include hb hb'

/-- Upwards, the digits come out the lowest first. -/
theorem digitsUp_eq (hlen : dstLen < 2 ^ 8) (n num : ℕ) (dst : ℕ → UInt8) (i : ℕ) (hn : (lowFirst b num).length ≤ n)
    (hi : i + (lowFirst b num).length ≤ dstLen) : digitsUp b dstLen n num dst i =
      some (put dst i ((lowFirst b num).map digitChar), i + (lowFirst b num).length) := by
  induction n generalizing num dst i with
  | zero => exact absurd (List.length_eq_zero_iff.mp (Nat.le_zero.mp hn)) (lowFirst_ne_nil b num)
  | succ n ih =>
    have hmod : num % b < 36 := (Nat.mod_lt num (by omega)).trans_le hb'
    have htmod : (num : ℤ).tmod b = ((num % b : ℕ) : ℤ) := (Int.ofNat_tmod num b).symm
    have htdiv : (num : ℤ).tdiv b = ((num / b : ℕ) : ℤ) := (Int.ofNat_tdiv num b).symm
    have hpos := List.length_pos_iff.mpr (lowFirst_ne_nil b num)
    rw [digitsUp, htmod, htdiv, digitAt_natCast hmod, Option.bind_some, Nat.mod_eq_of_lt (show i + 1 < 2 ^ 8 by omega)]
    rcases Nat.lt_or_ge num b with hlt | hge
    · rw [lowFirst_of_lt hlt, Nat.div_eq_of_lt hlt, Nat.mod_eq_of_lt hlt, if_neg (fun h => absurd h.1 (by decide)),
        List.map_singleton, put_singleton, List.length_singleton]
    · rw [lowFirst_of_le (by omega) hge, List.length_cons] at hn hi ⊢
      have hrest := List.length_pos_iff.mpr (lowFirst_ne_nil b (num / b))
      have hdiv : 0 < num / b := Nat.div_pos hge (by omega)
      rw [if_pos ⟨Int.natCast_pos.mpr hdiv, by omega⟩, ih _ _ _ (by omega) (by omega), List.map_cons, put_cons,
        Nat.add_assoc, Nat.add_comm 1]

/-- Downwards, they end up the highest first. -/
theorem digitsDown_eq (n num : ℕ) (dst : ℕ → UInt8) (i : ℕ) (hn : (lowFirst b num).length ≤ n)
    (hi : (lowFirst b num).length ≤ i) (hi' : i < 2 ^ 8) : digitsDown b n num dst i =
      some (put dst (i - (lowFirst b num).length) (digitString b num), i - (lowFirst b num).length) := by
  induction n generalizing num dst i with
  | zero => exact absurd (List.length_eq_zero_iff.mp (Nat.le_zero.mp hn)) (lowFirst_ne_nil b num)
  | succ n ih =>
    have hmod : num % b < 36 := (Nat.mod_lt num (by omega)).trans_le hb'
    have htmod : (num : ℤ).tmod b = ((num % b : ℕ) : ℤ) := (Int.ofNat_tmod num b).symm
    have htdiv : (num : ℤ).tdiv b = ((num / b : ℕ) : ℤ) := (Int.ofNat_tdiv num b).symm
    have hpos := List.length_pos_iff.mpr (lowFirst_ne_nil b num)
    have hpred : Word.pred 8 i = i - 1 := if_neg (by omega)
    rw [digitsDown, htmod, htdiv, digitAt_natCast hmod, Option.bind_some, hpred]
    rcases Nat.lt_or_ge num b with hlt | hge
    · rw [lowFirst_of_lt hlt, Nat.div_eq_of_lt hlt, Nat.mod_eq_of_lt hlt, if_neg (fun h => absurd h.1 (by decide)),
        digitString_of_lt hlt, put_singleton, List.length_singleton]
    · rw [lowFirst_of_le (by omega) hge, List.length_cons] at hn hi ⊢
      have hrest := List.length_pos_iff.mpr (lowFirst_ne_nil b (num / b))
      have hdiv : 0 < num / b := Nat.div_pos hge (by omega)
      have hplace : i - 1 = i - 1 - (lowFirst b (num / b)).length + (digitString b (num / b)).length := by
        rw [length_digitString]
        omega
      rw [if_pos ⟨Int.natCast_pos.mpr hdiv, by omega⟩, ih _ _ _ (by omega) (by omega) (by omega),
        show i - ((lowFirst b (num / b)).length + 1) = i - 1 - (lowFirst b (num / b)).length by omega]
      generalize i - 1 - (lowFirst b (num / b)).length = q at hplace
      rw [hplace, digitString_of_le (by omega) hge, put_update]

end Loops

/-! ## Numerals -/

section Numerals

variable {b dstLen : ℕ}

theorem numeral_of_nonneg {n : ℤ} (hn : 0 ≤ n) : numeral b n = digitString b n.natAbs := if_neg (Int.not_lt.mpr hn)

theorem numeral_of_neg {n : ℤ} (hn : n < 0) : numeral b n = 0x2d :: digitString b n.natAbs := if_pos hn

/-- What is written behind the blanks, with its NUL. -/
theorem put_blanks {s : List UInt8} (hs : s.length ≤ dstLen) (dst : ℕ → UInt8) : put (blanks dst dstLen) (dstLen - s.length) s =
    put dst 0 (List.replicate (dstLen - s.length) 0x20 ++ s ++ [0]) := by
  have hlen : (List.replicate (dstLen - s.length) (0x20 : UInt8) ++ s).length = dstLen := by
    rw [List.length_append, List.length_replicate]
    omega
  have hdrop : put (put dst 0 (List.replicate dstLen 0x20)) (0 + (dstLen - s.length)) s =
      put dst 0 (List.replicate (dstLen - s.length) 0x20 ++ s) := by
    rw [put_drop (by rw [List.length_replicate]; omega), List.take_replicate, Nat.min_eq_left (Nat.sub_le _ _)]
  rw [Nat.zero_add] at hdrop
  unfold blanks
  rw [put_update_comm (by omega), hdrop, ← update_put, hlen, Nat.zero_add]

/-- A digit in front of the others. -/
theorem update_before {m : ℕ → UInt8} {s : List UInt8} {c : UInt8} {i : ℕ} (hi : 0 < i) :
    Function.update (put m i s) (i - 1) c = put m (i - 1) (c :: s) := by
  rw [put_cons, Nat.sub_add_cancel hi, put_update_comm (by omega)]

/-- Characters that are closed with a NUL and turned around. -/
theorem reverseLoop_nul (dst : ℕ → UInt8) (l : List UInt8) :
    reverseLoop l.length (Function.update (put dst 0 l) l.length 0) 0 = put dst 0 (l.reverse ++ [0]) := by
  have hcomm : Function.update (put dst 0 l) l.length 0 = put (Function.update dst l.length 0) 0 l :=
    (put_update_comm (Or.inr (Nat.le_of_eq (Nat.zero_add _)))).symm
  have hput : put (Function.update dst (0 + l.reverse.length) 0) 0 l.reverse = put dst 0 (l.reverse ++ [0]) := put_update
  rw [Nat.zero_add, List.length_reverse] at hput
  rw [hcomm, reverseLoop_put, hput]

/-- And so are they behind a sign. -/
theorem reverseLoop_sign (dst : ℕ → UInt8) (l : List UInt8) :
    reverseLoop (l.length + 1) (Function.update (Function.update (put dst 0 l) l.length 0x2d) (l.length + 1) 0) 0 =
      put dst 0 (0x2d :: l.reverse ++ [0]) := by
  have hsign : Function.update (put dst 0 l) l.length 0x2d = put dst 0 (l ++ [0x2d]) := by
    have hput := update_put (m := dst) (p := 0) (l := l) (c := 0x2d)
    rwa [Nat.zero_add] at hput
  have hnul := reverseLoop_nul dst (l ++ [0x2d])
  rw [List.length_append, List.length_singleton, List.reverse_append] at hnul
  rw [hsign, hnul]
  rfl

variable (hb : 2 ≤ b) (hb' : b ≤ 36) (hlen : dstLen < 2 ^ 8) (dst : ℕ → UInt8)
include hb hb' hlen

theorem uint2str_eq {x : ℕ} (hx : (numeral b x).length ≤ dstLen) :
    uint2str x dst dstLen b = some (put dst 0 (numeral b x ++ [0])) := by
  rw [numeral_of_nonneg (Int.natCast_nonneg x), Int.natAbs_natCast, length_digitString] at hx
  have hbase : (b : ℤ) % 2 ^ 32 = b := Int.emod_eq_of_lt (by omega) (by omega)
  unfold uint2str
  rw [hbase, digitsUp_eq hb hb' hlen _ _ _ _ (by omega) (by omega), Option.map_some, numeral_of_nonneg (Int.natCast_nonneg x),
    Int.natAbs_natCast]
  have hnul := reverseLoop_nul dst ((lowFirst b x).map digitChar)
  rw [List.length_map] at hnul
  dsimp only
  rw [Nat.zero_add, hnul]
  rfl

/-- **`int2str` writes the numeral**, but of the number that has no opposite. -/
theorem int2str_eq {n : ℤ} (hlow : -2 ^ 31 < n) (hn : (numeral b n).length ≤ dstLen) :
    int2str n dst dstLen b = some (put dst 0 (numeral b n ++ [0])) := by
  unfold int2str
  by_cases hneg : n < 0
  · rw [numeral_of_neg hneg, List.length_cons, length_digitString] at hn
    have habs : int32 (-n) = ((n.natAbs : ℕ) : ℤ) := by
      rw [int32_of_fits (by omega) (by omega)]
      omega
    have hsign := reverseLoop_sign dst ((lowFirst b n.natAbs).map digitChar)
    rw [List.length_map] at hsign
    rw [if_pos hneg, habs, digitsUp_eq hb hb' hlen _ _ _ _ (by omega) (by omega), Option.map_some, numeral_of_neg hneg]
    dsimp only
    rw [Nat.zero_add, Nat.mod_eq_of_lt (by omega), hsign]
    rfl
  · rw [numeral_of_nonneg (Int.not_lt.mp hneg), length_digitString] at hn
    have habs : n = ((n.natAbs : ℕ) : ℤ) := by omega
    have hnul := reverseLoop_nul dst ((lowFirst b n.natAbs).map digitChar)
    rw [List.length_map] at hnul
    rw [if_neg hneg, numeral_of_nonneg (Int.not_lt.mp hneg)]
    conv_lhs => rw [habs]
    rw [digitsUp_eq hb hb' hlen _ _ _ _ (by omega) (by omega), Option.map_some]
    dsimp only
    rw [Nat.zero_add, hnul]
    rfl

/-- **`int2str_r` writes it at the right end.** -/
theorem int2strR_eq {n : ℤ} (hlow : -2 ^ 31 < n) (hn : (numeral b n).length ≤ dstLen) : int2strR n dst dstLen b =
    some (put dst 0 (List.replicate (dstLen - (numeral b n).length) 0x20 ++ numeral b n ++ [0])) := by
  rw [← put_blanks hn]
  unfold int2strR
  by_cases hneg : n < 0
  · rw [numeral_of_neg hneg, List.length_cons, length_digitString] at hn ⊢
    have habs : int32 (-n) = ((n.natAbs : ℕ) : ℤ) := by
      rw [int32_of_fits (by omega) (by omega)]
      omega
    rw [if_pos hneg, habs, digitsDown_eq hb hb' _ _ _ _ (by omega) (by omega) hlen, Option.map_some]
    dsimp only
    rw [if_pos (by omega), update_before (by omega), Nat.sub_sub]
  · rw [numeral_of_nonneg (Int.not_lt.mp hneg), length_digitString] at hn ⊢
    have habs : n = ((n.natAbs : ℕ) : ℤ) := by omega
    rw [if_neg hneg]
    conv_lhs => rw [habs]
    rw [digitsDown_eq hb hb' _ _ _ _ (by omega) (by omega) hlen, Option.map_some]

theorem uint2strR_eq {x : ℕ} (hx : (numeral b x).length ≤ dstLen) : uint2strR x dst dstLen b =
    some (put dst 0 (List.replicate (dstLen - (numeral b x).length) 0x20 ++ numeral b x ++ [0])) := by
  rw [← put_blanks hx]
  rw [numeral_of_nonneg (Int.natCast_nonneg x), Int.natAbs_natCast, length_digitString] at hx ⊢
  unfold uint2strR
  rw [digitsDown_eq hb hb' _ _ _ _ (by omega) (by omega) hlen, Option.map_some]

end Numerals

/-! ## Numbers below zero -/

section Negative

variable {b k : ℕ}

/-- A loop that is given a number below zero has a digit only if there is no remainder, and stops. -/
theorem digitsUp_neg {n : ℕ} (hn : 0 < n) (dstLen : ℕ) (dst : ℕ → UInt8) (i : ℕ) : digitsUp b dstLen n (-(k : ℤ)) dst i =
    if b ∣ k then some (Function.update dst i 0x30, (i + 1) % 2 ^ 8) else none := by
  have htmod : (-(k : ℤ)).tmod b = -((k % b : ℕ) : ℤ) := by rw [Int.neg_tmod, ← Int.ofNat_tmod]
  have htdiv : (-(k : ℤ)).tdiv b = -((k / b : ℕ) : ℤ) := by rw [Int.neg_tdiv, ← Int.ofNat_tdiv]
  have hstop : ¬0 < -((k / b : ℕ) : ℤ) := Int.not_lt.mpr (Int.neg_nonpos_of_nonneg (Int.natCast_nonneg _))
  obtain ⟨n, rfl⟩ := Nat.exists_eq_succ_of_ne_zero hn.ne'
  rw [digitsUp, htmod, htdiv]
  by_cases hdvd : b ∣ k
  · rw [Nat.mod_eq_zero_of_dvd hdvd, show digitAt (-((0 : ℕ) : ℤ)) = some 0x30 from rfl, Option.bind_some,
      if_neg (fun h => hstop h.1), if_pos hdvd]
  · have hmod : 0 < k % b := Nat.pos_of_ne_zero fun h => hdvd (Nat.dvd_of_mod_eq_zero h)
    rw [digitAt_neg (by omega), Option.bind_none, if_neg hdvd]

theorem digitsDown_neg {n : ℕ} (hn : 0 < n) (dst : ℕ → UInt8) (i : ℕ) : digitsDown b n (-(k : ℤ)) dst i =
    if b ∣ k then some (Function.update dst (Word.pred 8 i) 0x30, Word.pred 8 i) else none := by
  have htmod : (-(k : ℤ)).tmod b = -((k % b : ℕ) : ℤ) := by rw [Int.neg_tmod, ← Int.ofNat_tmod]
  have htdiv : (-(k : ℤ)).tdiv b = -((k / b : ℕ) : ℤ) := by rw [Int.neg_tdiv, ← Int.ofNat_tdiv]
  have hstop : ¬0 < -((k / b : ℕ) : ℤ) := Int.not_lt.mpr (Int.neg_nonpos_of_nonneg (Int.natCast_nonneg _))
  obtain ⟨n, rfl⟩ := Nat.exists_eq_succ_of_ne_zero hn.ne'
  rw [digitsDown, htmod, htdiv]
  by_cases hdvd : b ∣ k
  · rw [Nat.mod_eq_zero_of_dvd hdvd, show digitAt (-((0 : ℕ) : ℤ)) = some 0x30 from rfl, Option.bind_some,
      if_neg (fun h => hstop h.1), if_pos hdvd]
  · have hmod : 0 < k % b := Nat.pos_of_ne_zero fun h => hdvd (Nat.dvd_of_mod_eq_zero h)
    rw [digitAt_neg (by omega), Option.bind_none, if_neg hdvd]

end Negative

/-- `int2str` on the number that has no opposite. -/
theorem int2str_min {b dstLen : ℕ} (dst : ℕ → UInt8) :
    int2str (-2 ^ 31) dst dstLen b = if b ∣ 2 ^ 31 then some (put dst 0 [0x2d, 0x30, 0]) else none := by
  have habs : int32 (-(-2 ^ 31)) = -((2 ^ 31 : ℕ) : ℤ) := by decide
  have hsign := reverseLoop_sign dst [0x30]
  rw [put_singleton] at hsign
  unfold int2str
  rw [if_pos (by decide), habs, digitsUp_neg (Nat.succ_pos _)]
  split
  · exact congrArg some hsign
  · rfl

/-- And `int2str_r`. -/
theorem int2strR_min {b dstLen : ℕ} (hpos : 2 ≤ dstLen) (dst : ℕ → UInt8) : int2strR (-2 ^ 31) dst dstLen b =
    if b ∣ 2 ^ 31 then some (put dst 0 (List.replicate (dstLen - 2) 0x20 ++ [0x2d, 0x30] ++ [0])) else none := by
  have habs : int32 (-(-2 ^ 31)) = -((2 ^ 31 : ℕ) : ℤ) := by decide
  have hpred : Word.pred 8 dstLen = dstLen - 1 := if_neg (by omega)
  have hput := put_blanks (show [(0x2d : UInt8), 0x30].length ≤ dstLen from hpos) dst
  unfold int2strR
  rw [if_pos (by decide), habs, digitsDown_neg (Nat.two_pow_pos 8), hpred]
  split
  · rw [Option.map_some]
    dsimp only
    rw [if_pos (by omega), ← put_singleton (m := blanks dst dstLen), update_before (by omega)]
    exact congrArg some hput
  · rfl

/-! ## Justified to the right -/

/-- **The right-justified numeral is the plain one, padded with blanks**, and both keep within `dst[0..dst_len]`. -/
def Justified (dst : ℕ → UInt8) (dstLen : ℕ) (plain right : Option (ℕ → UInt8)) : Prop :=
  ∃ d d' s, plain = some d ∧ right = some d' ∧ IsString d s ∧ s.length ≤ dstLen ∧
    IsString d' (List.replicate (dstLen - s.length) 0x20 ++ s) ∧ ∀ k, dstLen < k → d k = dst k ∧ d' k = dst k

theorem blank_ne_zero (n : ℕ) : (0 : UInt8) ∉ List.replicate n 0x20 := fun h => absurd (List.eq_of_mem_replicate h) (by decide)

theorem Justified.of_put {dst : ℕ → UInt8} {dstLen : ℕ} {s : List UInt8} (hzero : 0 ∉ s) (hs : s.length ≤ dstLen) :
    Justified dst dstLen (some (put dst 0 (s ++ [0]))) (some (put dst 0 (List.replicate (dstLen - s.length) 0x20 ++ s ++ [0]))) := by
  have hpadded : 0 ∉ List.replicate (dstLen - s.length) 0x20 ++ s := by
    rw [List.mem_append, not_or]
    exact ⟨blank_ne_zero _, hzero⟩
  refine ⟨_, _, s, rfl, rfl, IsString.of_put hzero, hs, IsString.of_put hpadded, fun k hk => ⟨?_, ?_⟩⟩
  · exact put_right (by rw [List.length_append, List.length_singleton]; omega)
  · exact put_right (by rw [List.length_append, List.length_append, List.length_replicate, List.length_singleton]; omega)

section Justify

variable {b dstLen x : ℕ} (hb : 2 ≤ b) (hb' : b ≤ 36) (hlen : dstLen < 2 ^ 8) (dst : ℕ → UInt8)
include hb hb' hlen

/-- `uint2str_r` is right about the numbers that are none below zero. -/
theorem justified_uint_iff (hx : x < 2 ^ 32) (hfit : (numeral b x).length ≤ dstLen) :
    Justified dst dstLen (uint2str x dst dstLen b) (uint2strR (int32 x) dst dstLen b) ↔ x < 2 ^ 31 := by
  have hplain := uint2str_eq hb hb' hlen dst hfit
  constructor
  · rintro ⟨d, d', s, hd, hd', hs, hslen, hs', -⟩
    by_contra hlarge
    have hneg : int32 x = -((2 ^ 32 - x : ℕ) : ℤ) := by
      unfold int32
      omega
    have hpred : Word.pred 8 dstLen = dstLen - 1 := by
      have hpos := List.length_pos_iff.mpr (digitString_ne_nil (b := b) (n := x))
      rw [numeral_of_nonneg (Int.natCast_nonneg x), Int.natAbs_natCast] at hfit
      exact if_neg (by omega)
    rw [hplain] at hd
    cases hd
    obtain rfl := hs.unique (IsString.of_put (zero_notMem_numeral hb hb' x))
    unfold uint2strR at hd'
    rw [hneg, digitsDown_neg (Nat.two_pow_pos 8), hpred] at hd'
    split at hd'
    · -- A single zero at the end, where there are at least two digits.
      have hright : IsString d' (List.replicate (dstLen - [(0x30 : UInt8)].length) 0x20 ++ [0x30]) := by
        have hput := put_blanks (show [(0x30 : UInt8)].length ≤ dstLen by
          rw [numeral_of_nonneg (Int.natCast_nonneg x)] at hfit
          exact (List.length_pos_iff.mpr digitString_ne_nil).trans_le hfit) dst
        rw [put_singleton] at hput
        rw [← Option.some.inj hd']
        show IsString (Function.update (blanks dst dstLen) (dstLen - 1) 0x30) _
        rw [show dstLen - 1 = dstLen - [(0x30 : UInt8)].length from rfl, hput]
        exact IsString.of_put (by
          rw [List.mem_append, not_or]
          exact ⟨blank_ne_zero _, by decide⟩)
      have hcount := congrArg (List.count 0x20) (hs'.unique hright)
      have hdigits : List.count 0x20 (numeral b x) = 0 := by
        rw [numeral_of_nonneg (Int.natCast_nonneg x)]
        exact List.count_eq_zero.mpr fun h => (digitString_ne hb hb' _ h).2.1 rfl
      have htwo : 2 ≤ (numeral b x).length := by
        rw [numeral_of_nonneg (Int.natCast_nonneg x), Int.natAbs_natCast, digitString_of_le (by omega) (by omega),
          List.length_append, List.length_singleton]
        exact Nat.succ_le_succ (List.length_pos_iff.mpr digitString_ne_nil)
      rw [List.count_append, List.count_append, List.count_replicate_self, List.count_replicate_self, hdigits] at hcount
      have hone : List.count 0x20 [(0x30 : UInt8)] = 0 := by decide
      rw [hone, List.length_singleton] at hcount
      omega
    · cases hd'
  · intro hsmall
    have hcast : int32 x = (x : ℤ) := int32_of_fits (by omega) (by omega)
    rw [hplain, hcast, uint2strR_eq hb hb' hlen dst hfit]
    exact Justified.of_put (zero_notMem_numeral hb hb' x) hfit

/-- `int2str` and `int2str_r` agree, but for the number that has no opposite; on that one in the bases that leave a remainder, both
read outside of the digits. -/
theorem justified_int_iff (hfit : (numeral b (int32 x)).length ≤ dstLen) :
    Justified dst dstLen (int2str (int32 x) dst dstLen b) (int2strR (int32 x) dst dstLen b) ↔
      int32 x ≠ -2 ^ 31 ∨ b ∣ 2 ^ 31 := by
  obtain ⟨hlow, hhigh⟩ := int32_range x
  generalize int32 x = n at *
  by_cases hmin : n = -2 ^ 31
  · subst hmin
    rw [int2str_min dst]
    by_cases hdvd : b ∣ 2 ^ 31
    · have hpos : 2 ≤ dstLen := by
        rw [numeral_of_neg (by decide), List.length_cons] at hfit
        exact (Nat.succ_le_succ (List.length_pos_iff.mpr digitString_ne_nil)).trans hfit
      rw [if_pos hdvd, int2strR_min hpos dst, if_pos hdvd]
      exact iff_of_true (Justified.of_put (s := [0x2d, 0x30]) (by decide) hpos) (Or.inr hdvd)
    · rw [if_neg hdvd]
      refine iff_of_false ?_ (not_or.mpr ⟨fun h => h rfl, hdvd⟩)
      rintro ⟨d, d', s, hd, -⟩
      cases hd
  · have hlow' : -2 ^ 31 < n := by omega
    rw [int2str_eq hb hb' hlen dst hlow' hfit, int2strR_eq hb hb' hlen dst hlow' hfit]
    exact iff_of_true (Justified.of_put (zero_notMem_numeral hb hb' n) hfit) (Or.inl hmin)

end Justify

/-- **Right-justified conversion agrees with the plain one** for the unsigned numbers that are not negative as signed ones, and for
the signed ones that have an opposite; and for the last one in the bases that divide it. -/
theorem justified_iff {b dstLen x : ℕ} (hb : 2 ≤ b) (hb' : b ≤ 36) (hlen : dstLen < 2 ^ 8) (hx : x < 2 ^ 32) (dst : ℕ → UInt8) :
    ((numeral b x).length ≤ dstLen →
      (Justified dst dstLen (uint2str x dst dstLen b) (uint2strR (int32 x) dst dstLen b) ↔ x < 2 ^ 31)) ∧
    ((numeral b (int32 x)).length ≤ dstLen →
      (Justified dst dstLen (int2str (int32 x) dst dstLen b) (int2strR (int32 x) dst dstLen b) ↔
        int32 x ≠ -2 ^ 31 ∨ b ∣ 2 ^ 31)) :=
  ⟨justified_uint_iff hb hb' hlen dst hx, justified_int_iff hb hb' hlen dst⟩

/-- 255 in base 16, in four characters. -/
theorem justified_255 :
    Justified (fun _ => 0) 4 (uint2str 255 (fun _ => 0) 4 (16 : ℕ)) (uint2strR (int32 (255 : ℕ)) (fun _ => 0) 4 (16 : ℕ)) ∧
      Justified (fun _ => 0) 4 (int2str (int32 (255 : ℕ)) (fun _ => 0) 4 (16 : ℕ)) (int2strR (int32 (255 : ℕ)) (fun _ => 0) 4 (16 : ℕ)) := by
  obtain ⟨huint, hint⟩ := justified_iff (b := 16) (x := 255) (by decide) (by decide) (show 4 < 2 ^ 8 by decide) (by decide) (fun _ => 0)
  exact ⟨(huint (by decide)).mpr (by decide), (hint (by decide)).mpr (by decide)⟩

/-- `uint2str_r` has nothing to write for `2 ^ 31` in base 10. -/
theorem not_justified_top : ¬∀ (b dstLen x : ℕ) (dst : ℕ → UInt8), 2 ≤ b → b ≤ 36 → dstLen < 2 ^ 8 → x < 2 ^ 32 →
    (numeral b x).length ≤ dstLen → Justified dst dstLen (uint2str x dst dstLen b) (uint2strR (int32 x) dst dstLen b) := by
  intro h
  obtain ⟨d, d', s, -, hd', -⟩ := h 10 10 (2 ^ 31) (fun _ => 0) (by decide) (by decide) (by decide) (by decide) (by decide)
  have hneg : int32 ((2 ^ 31 : ℕ) : ℤ) = -((2 ^ 31 : ℕ) : ℤ) := by decide
  unfold uint2strR at hd'
  rw [hneg, digitsDown_neg (Nat.two_pow_pos 8), if_neg (by decide)] at hd'
  cases hd'

/-! ## There and back -/

theorem IsString.strLen_eq {d : ℕ → UInt8} {s : List UInt8} (h : IsString d s) (hs : s.length < 2 ^ 16) : strLen d = s.length := by
  refine scan_eq (Nat.zero_le _) (by omega) (beq_iff_eq.mpr h.nul) fun i _ hi => beq_eq_false_iff_ne.mpr fun hzero => ?_
  rw [h.byte i hi] at hzero
  exact h.nonzero (hzero ▸ List.getElem_mem hi)

theorem intPow_ten {e : ℕ} (he : e < 10) : intPow 10 e = 10 ^ e := by
  have hall : ∀ e : Fin 10, intPow 10 e.val = 10 ^ e.val := by decide
  exact hall ⟨e, he⟩

theorem digitChar_ten {d : ℕ} (hd : d < 10) :
    (digitChar d ≤ 0x39 ∧ 0x30 ≤ digitChar d) ∧ ((digitChar d).toNat : ℤ) - 0x30 = d := by
  have hall : ∀ d : Fin 10, (digitChar d.val ≤ 0x39 ∧ 0x30 ≤ digitChar d.val) ∧
      ((digitChar d.val).toNat : ℤ) - 0x30 = (d.val : ℤ) := by decide
  exact hall ⟨d, hd⟩

/-- The induction is on the digits, the lowest first: `e` of them have been added up already. -/
theorem str2intLoop_digits (str : ℕ → UInt8) (l p : ℕ) (ds : List ℕ) (e : ℕ) (v : ℤ) (hten : ∀ d ∈ ds, d < 10)
    (hl : l = p + ds.length + e) (hlen : e + ds.length ≤ 10)
    (hstr : ∀ j (h : j < ds.length), str (p + (ds.length - 1 - j)) = digitChar ds[j]) :
    str2intLoop str l (p + ds.length) (int16 v) = str2intLoop str l p (int16 (v + 10 ^ e * (Nat.ofDigits 10 ds : ℕ))) := by
  induction ds generalizing e v with
  | nil =>
    rw [Nat.ofDigits_nil, Nat.cast_zero, mul_zero, add_zero]
    rfl
  | cons d ds ih =>
    rw [List.length_cons] at hl hlen ⊢
    have hfirst : str (p + ds.length) = digitChar d := hstr 0 (Nat.succ_pos _)
    obtain ⟨hdigit, hval⟩ := digitChar_ten (hten d List.mem_cons_self)
    have hexp : l - (p + ds.length + 1) = e := by omega
    rw [← Nat.add_assoc, str2intLoop, hfirst, if_pos hdigit, hval, hexp, intPow_ten (by omega), int16_add_int32, int16_add]
    rw [ih (e + 1) _ (fun d hd => hten d (List.mem_cons_of_mem _ hd)) (by omega) (by omega) fun j hj => ?_]
    · congr 2
      rw [Nat.ofDigits_cons, Nat.cast_add, Nat.cast_mul]
      push_cast
      ring
    · have hnext := hstr (j + 1) (Nat.succ_lt_succ hj)
      rwa [List.length_cons, show ds.length + 1 - 1 - (j + 1) = ds.length - 1 - j by omega, List.getElem_cons_succ] at hnext

/-- The characters of the digits, in the string of the numeral from `p` on. -/
theorem IsString.digit {d : ℕ → UInt8} {s : List UInt8} {b n : ℕ} (h : IsString d s) (front : List UInt8)
    (hs : s = front ++ digitString b n) (j : ℕ) (hj : j < (lowFirst b n).length) : d (front.length + ((lowFirst b n).length - 1 - j)) = digitChar (lowFirst b n)[j] := by
  have hlen : front.length + ((lowFirst b n).length - 1 - j) < s.length := by
    rw [hs, List.length_append, length_digitString]
    omega
  rw [h.byte _ hlen]
  simp only [hs]
  rw [List.getElem_append_right (Nat.le_add_right _ _)]
  simp only [Nat.add_sub_cancel_left, digitString, List.getElem_reverse, List.getElem_map, List.length_map]
  congr 2
  omega

/-- Adding up the digits, and only them. -/
theorem str2intLoop_digitString {d : ℕ → UInt8} {s front : List UInt8} {n : ℕ} (h : IsString d s)
    (hs : s = front ++ digitString 10 n) (hn : n < 10 ^ 10) :
    str2intLoop d s.length s.length 0 = str2intLoop d s.length front.length (int16 n) := by
  have hfew : (lowFirst 10 n).length ≤ 10 := (length_lowFirst_le_iff (by decide) (by decide)).mpr hn
  have hlen : s.length = front.length + (lowFirst 10 n).length := by rw [hs, List.length_append, length_digitString]
  have hloop := str2intLoop_digits d s.length front.length (lowFirst 10 n) 0 0 (fun k hk => lt_of_mem_lowFirst (by decide) hk)
    hlen (by omega) (h.digit front hs)
  rwa [← hlen, ofDigits_lowFirst, pow_zero, one_mul, zero_add, show int16 0 = 0 from rfl] at hloop

/-- **`str2int` gives back the low 16 bits.** -/
theorem str2int_numeral {d : ℕ → UInt8} {n : ℤ} (hlow : -2 ^ 31 ≤ n) (hhigh : n < 2 ^ 31) (h : IsString d (numeral 10 n)) :
    str2int d = int16 n := by
  have hfew : (lowFirst 10 n.natAbs).length ≤ 10 := (length_lowFirst_le_iff (by decide) (by decide)).mpr (by omega)
  have hlen := length_digitString (b := 10) (n := n.natAbs)
  unfold str2int
  by_cases hneg : n < 0
  · have hs : numeral 10 n = [0x2d] ++ digitString 10 n.natAbs := numeral_of_neg hneg
    have hlength : (numeral 10 n).length = 1 + (lowFirst 10 n.natAbs).length := by
      rw [hs, List.length_append, List.length_singleton, hlen]
    have hsign : d 0 = 0x2d := by
      rw [h.byte 0 (by omega)]
      simp only [hs, List.cons_append, List.getElem_cons_zero]
    have hstep : str2intLoop d (numeral 10 n).length 1 (int16 n.natAbs) = int16 n.natAbs := by
      rw [str2intLoop, hsign, if_neg (by decide)]
      rfl
    rw [h.strLen_eq (by omega), Nat.mod_eq_of_lt (by omega), if_pos hsign]
    rw [str2intLoop_digitString h hs (by omega), List.length_singleton, hstep, int16_neg]
    congr 1
    omega
  · have hs : numeral 10 n = [] ++ digitString 10 n.natAbs := numeral_of_nonneg (Int.not_lt.mp hneg)
    have hlength : (numeral 10 n).length = (lowFirst 10 n.natAbs).length := by rw [hs, List.nil_append, hlen]
    have hpos := List.length_pos_iff.mpr (lowFirst_ne_nil 10 n.natAbs)
    have hsign : d 0 ≠ 0x2d := by
      have hall : ∀ c ∈ numeral 10 n, c ≠ 0x2d := by
        rw [hs, List.nil_append]
        exact fun c hc => (digitString_ne (by decide) (by decide) c hc).2.2
      rw [h.byte 0 (by omega)]
      exact hall _ (List.getElem_mem _)
    rw [h.strLen_eq (by omega), Nat.mod_eq_of_lt (by omega), if_neg hsign]
    rw [str2intLoop_digitString h hs (by omega)]
    show int16 n.natAbs = int16 n
    congr 1
    omega

/-- **The round trip** is one for the numbers of 16 bits, and for no others. -/
theorem str2int_int2str_iff {n : ℤ} {dstLen : ℕ} (hlow : -2 ^ 31 ≤ n) (hhigh : n < 2 ^ 31) (hlen : dstLen < 2 ^ 8)
    (hfit : (numeral 10 n).length ≤ dstLen) (dst : ℕ → UInt8) :
    (∃ d, int2str n dst dstLen 10 = some d ∧ IsString d (numeral 10 n) ∧ str2int d = n) ↔ -2 ^ 15 ≤ n ∧ n < 2 ^ 15 := by
  by_cases hmin : n = -2 ^ 31
  · have hnone : int2str n dst dstLen 10 = none := by
      rw [hmin]
      exact (int2str_min (b := 10) dst).trans (if_neg (by decide))
    refine iff_of_false ?_ (by omega)
    rintro ⟨d, hd, -⟩
    rw [hnone] at hd
    cases hd
  · have hstr := int2str_eq (b := 10) (by decide) (by decide) hlen dst (by omega) hfit
    have hput : IsString (put dst 0 (numeral 10 n ++ [0])) (numeral 10 n) :=
      IsString.of_put (zero_notMem_numeral (by decide) (by decide) n)
    rw [← int16_eq_iff]
    constructor
    · rintro ⟨d, -, hd, hn⟩
      rwa [str2int_numeral hlow hhigh hd] at hn
    · intro hn
      exact ⟨_, hstr, hput, (str2int_numeral hlow hhigh hput).trans hn⟩

/-- The least of them. -/
theorem str2int_int2str_least : ∃ d, int2str (-2 ^ 15) (fun _ => 0) 6 10 = some d ∧ IsString d (numeral 10 (-2 ^ 15)) ∧
    str2int d = -2 ^ 15 :=
  (str2int_int2str_iff (by decide) (by decide) (by decide) (by decide) (fun _ => 0)).mpr (by decide)

/-- 40000 comes back as a number below zero. -/
theorem str2int_int2str_40000 : ¬∀ (n : ℤ) (dstLen : ℕ) (dst : ℕ → UInt8), -2 ^ 31 ≤ n → n < 2 ^ 31 → dstLen < 2 ^ 8 →
    (numeral 10 n).length ≤ dstLen → ∃ d, int2str n dst dstLen 10 = some d ∧ IsString d (numeral 10 n) ∧ str2int d = n := by
  intro h
  obtain ⟨d, -, hd, hn⟩ := h 40000 5 (fun _ => 0) (by decide) (by decide) (by decide) (by decide)
  rw [str2int_numeral (by decide) (by decide) hd] at hn
  revert hn
  decide

end CoreLink.Shell
