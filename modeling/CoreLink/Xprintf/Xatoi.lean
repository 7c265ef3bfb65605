/-
# `CoreLink.Xprintf.Xatoi` — numbers out of strings: `xatoi` of `src/xprintf/xprintf.c`.

The loop over the digits tests each character against the radix, but does not ask whether there was one: `0x` and `0b` alone
are read as zero. And between `9` and `A` there are seven characters, of which the six from `:` to `?` pass for the
hexadecimal digits 10 to 15.

`xatoi_iff` says that there are no other words on which `xatoi` and its grammar differ.
-/
import CoreLink.Lib.Word
import Mathlib.Data.List.TakeWhile
import Mathlib.Data.Int.ModEq

namespace CoreLink.Xprintf

open CoreLink.Lib

/-! ## The source -/

/-- What `xatoi` leaves: whether it succeeds, the 32 bits of `*res`, and the string from `*str` on. -/
structure Result where
  ok : Bool
  res : ℕ
  str : List UInt8
  deriving DecidableEq

/-- The number that the loop makes of a character, in 8 bits. -/
def digit (c : UInt8) : Option UInt8 :=
  let c := if 0x61 ≤ c then c - 0x20 else c
  let c := c - 0x30
  if 17 ≤ c then
    let c := c - 7
    if c ≤ 9 then none else some c
  else some c

/-- The loop of `xatoi` in radix `r`, and what comes after it. -/
def digitsLoop (s : Bool) (r : UInt8) : List UInt8 → ℕ → Result
  | [], val => ⟨true, if s then Word.sub 32 0 val else val, []⟩
  | c :: str, val =>
    if 0x20 < c then
      match digit c with
      | none => ⟨false, 0, c :: str⟩
      | some d => if r ≤ d then ⟨false, 0, c :: str⟩ else digitsLoop s r str ((val * r.toNat + d.toNat) % 2 ^ 32)
    else ⟨true, if s then Word.sub 32 0 val else val, c :: str⟩

/-- `xatoi` behind the sign. -/
def xatoiUnsigned (s : Bool) (str : List UInt8) : Result :=
  if str.headD 0 = 0x30 then
    let str := str.tail
    if str.headD 0 = 0x78 then digitsLoop s 16 str.tail 0
    else if str.headD 0 = 0x62 then digitsLoop s 2 str.tail 0
    else if str.headD 0 ≤ 0x20 then ⟨true, 0, str⟩
    else if str.headD 0 < 0x30 ∨ 0x39 < str.headD 0 then ⟨false, 0, str⟩
    else digitsLoop s 8 str 0
  else if str.headD 0 < 0x30 ∨ 0x39 < str.headD 0 then ⟨false, 0, str⟩
  else digitsLoop s 10 str 0

/-- `xatoi`. A string is given by its bytes; behind them is a NUL, but a NUL may also be among them. -/
def xatoi (str : List UInt8) : Result :=
  let str := str.dropWhile (· == 0x20)
  if str.headD 0 = 0x2d then xatoiUnsigned true str.tail else xatoiUnsigned false str

/-! ## The grammar -/

/-- The value of a digit, of any of the four bases. -/
def digitValue (c : UInt8) : Option ℕ :=
  if 0x30 ≤ c ∧ c ≤ 0x39 then some (c.toNat - 0x30)
  else if 0x41 ≤ c ∧ c ≤ 0x46 then some (c.toNat - 0x37)
  else if 0x61 ≤ c ∧ c ≤ 0x66 then some (c.toNat - 0x57)
  else none

/-- A digit of base `r`. -/
def IsDigit (r : ℕ) (c : UInt8) : Prop := ∃ v, digitValue c = some v ∧ v < r

/-- The value of digits in base `r`. -/
def valueOf (r : ℕ) (ds : List UInt8) : ℕ := ds.foldl (fun v c => v * r + (digitValue c).getD 0) 0

/-- The numbers without their sign: decimal, `0x` and at least one hexadecimal digit, `0b` and at least one binary one, or `0`
and octal ones. -/
inductive Number : List UInt8 → ℕ → Prop
  | decimal {ds : List UInt8} : ds ≠ [] → ds.head? ≠ some 0x30 → (∀ c ∈ ds, IsDigit 10 c) → Number ds (valueOf 10 ds)
  | hexadecimal {ds : List UInt8} : ds ≠ [] → (∀ c ∈ ds, IsDigit 16 c) → Number (0x30 :: 0x78 :: ds) (valueOf 16 ds)
  | binary {ds : List UInt8} : ds ≠ [] → (∀ c ∈ ds, IsDigit 2 c) → Number (0x30 :: 0x62 :: ds) (valueOf 2 ds)
  | octal {ds : List UInt8} : (∀ c ∈ ds, IsDigit 8 c) → Number (0x30 :: ds) (valueOf 8 ds)

/-- **The words of the grammar**, with their value and what is behind them: the end of the string, or a character that is not
above the blank. -/
inductive Spelled : List UInt8 → ℤ → List UInt8 → Prop
  | plus {ds rest : List UInt8} {v : ℕ} : Number ds v → rest.headD 0 ≤ 0x20 → Spelled (ds ++ rest) v rest
  | minus {ds rest : List UInt8} {v : ℕ} : Number ds v → rest.headD 0 ≤ 0x20 → Spelled (0x2d :: (ds ++ rest)) (-v) rest

/-- **The grammar is accepted.** `xatoi` succeeds if and only if there is a word of it behind the blanks, and then it gives the
value modulo `2 ^ 32` and is behind the word. -/
def Accepts (str : List UInt8) : Prop :=
  ((xatoi str).ok = true ↔ ∃ v rest, Spelled (str.dropWhile (· == 0x20)) v rest) ∧
    ∀ v rest, Spelled (str.dropWhile (· == 0x20)) v rest → ((xatoi str).res : ℤ) = v % 2 ^ 32 ∧ (xatoi str).str = rest

/-- The six characters between `9` and `@`. -/
def Punctuation (c : UInt8) : Prop := 0x3a ≤ c ∧ c ≤ 0x3f

/-- **What passes for a number in addition**: `0b` and `0x` alone, and hexadecimal numbers with one of the six characters. -/
inductive Lax : List UInt8 → Prop
  | binary : Lax [0x30, 0x62]
  | hexadecimal {ds : List UInt8} : (∀ c ∈ ds, IsDigit 16 c ∨ Punctuation c) → (ds = [] ∨ ∃ c ∈ ds, Punctuation c) →
      Lax (0x30 :: 0x78 :: ds)

/-- The first word of a string, without its sign. -/
def unsigned (str : List UInt8) : List UInt8 :=
  if (str.dropWhile (· == 0x20)).headD 0 = 0x2d then (str.dropWhile (· == 0x20)).tail else str.dropWhile (· == 0x20)

def body (str : List UInt8) : List UInt8 := (unsigned str).takeWhile (0x20 < ·)

/-! ## Characters -/

instance (r : ℕ) (c : UInt8) : Decidable (IsDigit r c) :=
  decidable_of_iff ((digitValue c).any (· < r) = true) (by
    unfold IsDigit
    cases digitValue c <;> simp)

instance (c : UInt8) : Decidable (Punctuation c) := inferInstanceAs (Decidable (_ ∧ _))

/-- What the loop takes for a digit of base `r`. -/
def Taken (r : UInt8) (c : UInt8) : Prop := ∃ d, digit c = some d ∧ d < r

instance (r c : UInt8) : Decidable (Taken r c) :=
  decidable_of_iff ((digit c).any (· < r) = true) (by
    unfold Taken
    cases digit c <;> simp)

/-- What holds of 256 bytes holds of all. -/
theorem forall_byte {p : UInt8 → Prop} (h : ∀ n : Fin 256, p (UInt8.ofNat n)) (c : UInt8) : p c := by
  have hc := h ⟨c.toNat, c.toNat_lt⟩
  rwa [UInt8.ofNat_toNat] at hc

/-- **The characters**, all at once: digits have their value, the six others have none, and what is taken for a digit is one in
base 2, 8 and 10. -/
theorem characters (c : UInt8) :
    (digitValue c ≠ none → 0x20 < c ∧ (digit c).map UInt8.toNat = digitValue c) ∧
    (Punctuation c → 0x20 < c ∧ digitValue c = none) ∧
    (Taken 2 c ↔ IsDigit 2 c) ∧ (Taken 8 c ↔ IsDigit 8 c) ∧ (Taken 10 c ↔ IsDigit 10 c) ∧
    (Taken 16 c ↔ IsDigit 16 c ∨ Punctuation c) ∧
    (IsDigit 10 c → ¬(c < 0x30 ∨ 0x39 < c)) ∧
    (¬(c < 0x30 ∨ 0x39 < c) → c ≠ 0x78 ∧ c ≠ 0x62 ∧ ¬c ≤ 0x20) ∧
    (c ≤ 0x20 → c ≠ 0x78 ∧ c ≠ 0x62 ∧ c ≠ 0x30 ∧ c < 0x30 ∧ c ≠ 0x2d) := by
  revert c
  exact forall_byte (by decide +kernel)

theorem IsDigit.value {r : ℕ} {c : UInt8} (h : IsDigit r c) : digitValue c ≠ none := by
  obtain ⟨v, hv, -⟩ := h
  rw [hv]
  exact Option.some_ne_none v

theorem IsDigit.printable {r : ℕ} {c : UInt8} (h : IsDigit r c) : 0x20 < c := ((characters c).1 h.value).1

theorem Punctuation.printable {c : UInt8} (h : Punctuation c) : 0x20 < c := ((characters c).2.1 h).1

theorem Punctuation.not_isDigit {c : UInt8} (h : Punctuation c) (r : ℕ) : ¬IsDigit r c :=
  fun hdigit => hdigit.value ((characters c).2.1 h).2

/-- In the three other bases the loop takes the digits, and nothing else. -/
theorem taken_iff {r : UInt8} (hr : r = 2 ∨ r = 8 ∨ r = 10) (c : UInt8) : Taken r c ↔ IsDigit r.toNat c := by
  obtain ⟨-, -, htwo, height, hten, -⟩ := characters c
  obtain rfl | rfl | rfl := hr
  · exact htwo
  · exact height
  · exact hten

/-- In base 16 it takes six characters more. -/
theorem taken_sixteen_iff (c : UInt8) : Taken 16 c ↔ IsDigit 16 c ∨ Punctuation c := (characters c).2.2.2.2.2.1

/-- The loop gives a digit its value. -/
theorem digit_eq {r : ℕ} {c : UInt8} (h : IsDigit r c) : ∃ d, digit c = some d ∧ d.toNat = (digitValue c).getD 0 := by
  have hmap := ((characters c).1 h.value).2
  obtain ⟨v, hv, -⟩ := h
  rw [hv] at hmap
  obtain ⟨d, hd, rfl⟩ := Option.map_eq_some_iff.mp hmap
  exact ⟨d, hd, by rw [hv]; rfl⟩

/-- The digits of a decimal or octal number are in the range that the code asks for. -/
theorem IsDigit.range {c : UInt8} {r : ℕ} (h : IsDigit r c) (hr : r ≤ 10) : ¬(c < 0x30 ∨ 0x39 < c) := by
  obtain ⟨v, hv, hlt⟩ := h
  exact (characters c).2.2.2.2.2.2.1 ⟨v, hv, by omega⟩

theorem range_ne {c : UInt8} : ¬(c < 0x30 ∨ 0x39 < c) → c ≠ 0x78 ∧ c ≠ 0x62 ∧ ¬c ≤ 0x20 := (characters c).2.2.2.2.2.2.2.1

theorem end_ne {c : UInt8} : c ≤ 0x20 → c ≠ 0x78 ∧ c ≠ 0x62 ∧ c ≠ 0x30 ∧ c < 0x30 ∧ c ≠ 0x2d := (characters c).2.2.2.2.2.2.2.2

/-! ## The loop -/

section Loop

variable {s : Bool} {r : UInt8} {b rest : List UInt8}

/-- The sign is applied at the end. -/
def signed (s : Bool) (val : ℕ) : ℕ := if s then Word.sub 32 0 val else val

theorem digitsLoop_end (hrest : rest.headD 0 ≤ 0x20) (val : ℕ) : digitsLoop s r rest val = ⟨true, signed s val, rest⟩ := by
  cases rest with
  | nil => rfl
  | cons c rest =>
    have hc : c ≤ 0x20 := hrest
    rw [digitsLoop, if_neg (UInt8.not_lt.mpr hc)]
    rfl

/-- The loop succeeds on what it takes. -/
theorem digitsLoop_ok (hb : ∀ c ∈ b, 0x20 < c ∧ Taken r c) (hrest : rest.headD 0 ≤ 0x20) (val : ℕ) :
    (digitsLoop s r (b ++ rest) val).ok = true := by
  induction b generalizing val with
  | nil =>
    rw [List.nil_append, digitsLoop_end hrest]
  | cons c b ih =>
    obtain ⟨hc, d, hd, hlt⟩ := hb c List.mem_cons_self
    rw [List.cons_append, digitsLoop, if_pos hc, hd]
    dsimp only
    rw [if_neg (UInt8.not_le.mpr hlt)]
    exact ih (fun c hmem => hb c (List.mem_cons_of_mem _ hmem)) _

/-- And on nothing else. -/
theorem taken_of_ok (hb : ∀ c ∈ b, 0x20 < c) (val : ℕ) (hok : (digitsLoop s r (b ++ rest) val).ok = true) : ∀ c ∈ b, Taken r c := by
  induction b generalizing val with
  | nil => exact fun c hmem => absurd hmem List.not_mem_nil
  | cons c b ih =>
    rw [List.cons_append, digitsLoop, if_pos (hb c List.mem_cons_self)] at hok
    cases hd : digit c with
    | none =>
      rw [hd] at hok
      cases hok
    | some d =>
      rw [hd] at hok
      dsimp only at hok
      by_cases hlt : r ≤ d
      · rw [if_pos hlt] at hok
        cases hok
      · rw [if_neg hlt] at hok
        exact List.forall_mem_cons.mpr ⟨⟨d, hd, UInt8.not_le.mp hlt⟩, ih (fun c hmem => hb c (List.mem_cons_of_mem _ hmem)) _ hok⟩

/-- On digits, the loop goes on with the value that they have; it is in 32 bits all the time. -/
theorem digitsLoop_digits (hb : ∀ c ∈ b, IsDigit r.toNat c) (hrest : rest.headD 0 ≤ 0x20) (val : ℕ) :
    digitsLoop s r (b ++ rest) (val % 2 ^ 32) =
      ⟨true, signed s (b.foldl (fun v c => v * r.toNat + (digitValue c).getD 0) val % 2 ^ 32), rest⟩ := by
  induction b generalizing val with
  | nil => exact digitsLoop_end hrest _
  | cons c b ih =>
    have hc := hb c List.mem_cons_self
    obtain ⟨d, hd, hval⟩ := digit_eq hc
    obtain ⟨v, hv, hvr⟩ := hc
    have hlt : ¬r ≤ d := by
      rw [UInt8.le_iff_toNat_le, hval, hv]
      exact not_le_of_gt hvr
    rw [List.cons_append, digitsLoop, if_pos (IsDigit.printable ⟨v, hv, hvr⟩), hd]
    dsimp only
    rw [if_neg hlt, hval, List.foldl_cons, ← Nat.mod_add_mod, Nat.mod_mul_mod, Nat.mod_add_mod]
    exact ih (fun c hmem => hb c (List.mem_cons_of_mem _ hmem)) _

end Loop

/-! ## Behind the sign -/

section Unsigned

variable {s : Bool} {b rest : List UInt8} {v : ℕ}

theorem signed_zero (s : Bool) : signed s 0 = 0 := by cases s <;> decide

theorem Number.printable (h : Number b v) : ∀ c ∈ b, 0x20 < c := by
  cases h with
  | decimal _ _ hds => exact fun c hc => (hds c hc).printable
  | hexadecimal _ hds =>
    exact List.forall_mem_cons.mpr ⟨by decide, List.forall_mem_cons.mpr ⟨by decide, fun c hc => (hds c hc).printable⟩⟩
  | binary _ hds =>
    exact List.forall_mem_cons.mpr ⟨by decide, List.forall_mem_cons.mpr ⟨by decide, fun c hc => (hds c hc).printable⟩⟩
  | octal hds => exact List.forall_mem_cons.mpr ⟨by decide, fun c hc => (hds c hc).printable⟩

theorem digitsLoop_valueOf {r : UInt8} (hb : ∀ c ∈ b, IsDigit r.toNat c) (hrest : rest.headD 0 ≤ 0x20) :
    digitsLoop s r (b ++ rest) 0 = ⟨true, signed s (valueOf r.toNat b % 2 ^ 32), rest⟩ :=
  digitsLoop_digits hb hrest 0

/-- **A number of the grammar is read**, with its value. -/
theorem xatoiUnsigned_number (h : Number b v) (hrest : rest.headD 0 ≤ 0x20) :
    xatoiUnsigned s (b ++ rest) = ⟨true, signed s (v % 2 ^ 32), rest⟩ := by
  cases h with
  | decimal hne hhead hds =>
    obtain ⟨c, b, rfl⟩ := List.exists_cons_of_ne_nil hne
    have hc : c ≠ 0x30 := fun h => hhead (congrArg some h)
    unfold xatoiUnsigned
    rw [List.cons_append, List.headD_cons, if_neg hc, if_neg ((hds c List.mem_cons_self).range (Nat.le_refl _))]
    exact digitsLoop_valueOf (r := 10) hds hrest
  | @hexadecimal ds hne hds => exact digitsLoop_valueOf (r := 16) hds hrest
  | @binary ds hne hds => exact digitsLoop_valueOf (r := 2) hds hrest
  | @octal ds hds =>
    unfold xatoiUnsigned
    rw [List.cons_append, List.headD_cons, if_pos rfl, List.tail_cons]
    dsimp only
    cases ds with
    | nil =>
      obtain ⟨hx, hb, -⟩ := end_ne hrest
      rw [List.nil_append, if_neg hx, if_neg hb, if_pos hrest]
      exact congrArg (Result.mk true · rest) (signed_zero s).symm
    | cons c ds =>
      have hrange := (hds c List.mem_cons_self).range (by decide)
      obtain ⟨hx, hb, hend⟩ := range_ne hrange
      rw [List.cons_append, List.headD_cons, if_neg hx, if_neg hb, if_neg hend, if_neg hrange, ← List.cons_append]
      exact digitsLoop_valueOf (r := 8) hds hrest

/-- The words that pass for numbers are read as well. -/
theorem Lax.ok (h : Lax b) (hrest : rest.headD 0 ≤ 0x20) : (xatoiUnsigned s (b ++ rest)).ok = true := by
  cases h with
  | binary => exact digitsLoop_ok (r := 2) (b := []) (fun c hc => absurd hc List.not_mem_nil) hrest 0
  | hexadecimal hds _ =>
    refine digitsLoop_ok (r := 16) (fun c hc => ⟨?_, (taken_sixteen_iff c).mpr (hds c hc)⟩) hrest 0
    exact (hds c hc).elim IsDigit.printable Punctuation.printable

/-- **Nothing else is.** -/
theorem number_or_lax (hb : ∀ c ∈ b, 0x20 < c) (hrest : rest.headD 0 ≤ 0x20) (hok : (xatoiUnsigned s (b ++ rest)).ok = true) :
    (∃ v, Number b v) ∨ Lax b := by
  cases b with
  | nil =>
    obtain ⟨-, -, hzero, hlt, -⟩ := end_ne hrest
    unfold xatoiUnsigned at hok
    rw [List.nil_append, if_neg hzero, if_pos (Or.inl hlt)] at hok
    cases hok
  | cons c b =>
    unfold xatoiUnsigned at hok
    rw [List.cons_append, List.headD_cons, List.tail_cons] at hok
    by_cases hzero : c = 0x30
    · rw [if_pos hzero] at hok
      subst hzero
      dsimp only at hok
      cases b with
      | nil => exact Or.inl ⟨_, Number.octal fun c hc => absurd hc List.not_mem_nil⟩
      | cons d b =>
        have hprint : ∀ c ∈ b, 0x20 < c := fun c hc => hb c (List.mem_cons_of_mem _ (List.mem_cons_of_mem _ hc))
        rw [List.cons_append, List.headD_cons, List.tail_cons] at hok
        by_cases hx : d = 0x78
        · rw [if_pos hx] at hok
          subst hx
          have htaken : ∀ c ∈ b, IsDigit 16 c ∨ Punctuation c := fun c hc =>
            (taken_sixteen_iff c).mp (taken_of_ok hprint 0 hok c hc)
          by_cases hlax : b = [] ∨ ∃ c ∈ b, Punctuation c
          · exact Or.inr (Lax.hexadecimal htaken hlax)
          · rw [not_or] at hlax
            exact Or.inl ⟨_, Number.hexadecimal hlax.1 fun c hc =>
              (htaken c hc).resolve_right fun hp => hlax.2 ⟨c, hc, hp⟩⟩
        rw [if_neg hx] at hok
        by_cases hbin : d = 0x62
        · rw [if_pos hbin] at hok
          subst hbin
          have hds : ∀ c ∈ b, IsDigit 2 c := fun c hc =>
            (taken_iff (r := 2) (Or.inl rfl) c).mp (taken_of_ok hprint 0 hok c hc)
          by_cases hnil : b = []
          · subst hnil
            exact Or.inr Lax.binary
          · exact Or.inl ⟨_, Number.binary hnil hds⟩
        have hd : 0x20 < d := hb d (List.mem_cons_of_mem _ List.mem_cons_self)
        rw [if_neg hbin, if_neg (UInt8.not_le.mpr hd)] at hok
        by_cases hrange : d < 0x30 ∨ 0x39 < d
        · rw [if_pos hrange] at hok
          cases hok
        · rw [if_neg hrange, ← List.cons_append] at hok
          refine Or.inl ⟨_, Number.octal fun c hc => ?_⟩
          exact (taken_iff (r := 8) (Or.inr (Or.inl rfl)) c).mp
            (taken_of_ok (fun c hc => hb c (List.mem_cons_of_mem _ hc)) 0 hok c hc)
    · rw [if_neg hzero] at hok
      by_cases hrange : c < 0x30 ∨ 0x39 < c
      · rw [if_pos hrange] at hok
        cases hok
      · rw [if_neg hrange, ← List.cons_append] at hok
        refine Or.inl ⟨_, Number.decimal (List.cons_ne_nil _ _) (fun h => hzero (Option.some.inj h)) fun c hc => ?_⟩
        exact (taken_iff (r := 10) (Or.inr (Or.inr rfl)) c).mp (taken_of_ok hb 0 hok c hc)

/-- And none of these words is a number. -/
theorem Lax.not_number (h : Lax b) : ¬Number b v := by
  intro hnum
  cases h with
  | binary =>
    cases hnum with
    | decimal _ hhead _ => exact hhead rfl
    | binary hne _ => exact hne rfl
    | octal hds => exact absurd (hds 0x62 List.mem_cons_self) (by decide)
  | hexadecimal hds hlax =>
    cases hnum with
    | decimal _ hhead _ => exact hhead rfl
    | hexadecimal hne hdigits =>
      rcases hlax with hnil | ⟨c, hc, hp⟩
      · exact hne hnil
      · exact hp.not_isDigit 16 (hdigits c hc)
    | octal hds => exact absurd (hds 0x78 List.mem_cons_self) (by decide)

end Unsigned

/-! ## Words -/

/-- A word is split off at the first character that is not above the blank. -/
theorem takeWhile_word {b rest : List UInt8} (hb : ∀ c ∈ b, 0x20 < c) (hrest : rest.headD 0 ≤ 0x20) :
    (b ++ rest).takeWhile (0x20 < ·) = b ∧ (b ++ rest).dropWhile (0x20 < ·) = rest := by
  have hall : ∀ c ∈ b, decide (0x20 < c) = true := fun c hc => decide_eq_true (hb c hc)
  rw [List.takeWhile_append_of_pos hall, List.dropWhile_append_of_pos hall]
  cases rest with
  | nil => exact ⟨List.append_nil b, rfl⟩
  | cons c rest =>
    have hc : ¬decide (0x20 < c) = true := by
      rw [decide_eq_true_eq]
      exact UInt8.not_lt.mpr hrest
    rw [List.takeWhile_cons_of_neg (p := fun a => decide (0x20 < a)) hc, List.dropWhile_cons_of_neg (p := fun a => decide (0x20 < a)) hc]
    exact ⟨List.append_nil b, rfl⟩

theorem dropWhile_word (str : List UInt8) : (str.dropWhile (0x20 < ·)).headD 0 ≤ 0x20 := by
  cases h : str.dropWhile (0x20 < ·) with
  | nil => decide
  | cons c rest =>
    have hne : str.dropWhile (0x20 < ·) ≠ [] := by
      rw [h]
      exact List.cons_ne_nil c rest
    have hc := List.head_dropWhile_not (fun c : UInt8 => decide (0x20 < c)) hne
    simp only [h, List.head_cons, decide_eq_false_iff_not] at hc
    exact UInt8.not_lt.mp hc

theorem takeWhile_printable (str : List UInt8) : ∀ c ∈ str.takeWhile (0x20 < ·), 0x20 < c :=
  fun _ hc => of_decide_eq_true (List.mem_takeWhile_imp (p := fun c : UInt8 => decide (0x20 < c)) hc)

theorem Number.head_ne {b : List UInt8} {v : ℕ} (h : Number b v) (rest : List UInt8) : (b ++ rest).headD 0 ≠ 0x2d := by
  cases h with
  | decimal hne _ hds =>
    obtain ⟨c, b, rfl⟩ := List.exists_cons_of_ne_nil hne
    rintro (rfl : c = 0x2d)
    exact absurd (hds 0x2d List.mem_cons_self) (by decide)
  | hexadecimal _ _ => exact show (0x30 : UInt8) ≠ 0x2d by decide
  | binary _ _ => exact show (0x30 : UInt8) ≠ 0x2d by decide
  | octal _ => exact show (0x30 : UInt8) ≠ 0x2d by decide

/-- A `-` that `xatoi` sees. -/
def negative (str : List UInt8) : Bool := (str.dropWhile (· == 0x20)).headD 0 == 0x2d

theorem xatoi_eq (str : List UInt8) : xatoi str = xatoiUnsigned (negative str) (unsigned str) := by
  unfold xatoi unsigned negative
  dsimp only
  by_cases hneg : (str.dropWhile (· == 0x20)).headD 0 = 0x2d
  · rw [if_pos hneg, if_pos hneg, beq_iff_eq.mpr hneg]
  · rw [if_neg hneg, if_neg hneg, beq_eq_false_iff_ne.mpr hneg]

/-- **There is at most one word**: its sign, and its number, are what `xatoi` looks at. -/
theorem spelled_iff (str rest : List UInt8) (v : ℤ) : Spelled (str.dropWhile (· == 0x20)) v rest ↔
    ∃ n, Number (body str) n ∧ (unsigned str).dropWhile (0x20 < ·) = rest ∧ v = if negative str then -(n : ℤ) else n := by
  unfold body unsigned negative
  generalize str.dropWhile (· == 0x20) = w
  constructor
  · rintro (⟨hnum, hrest⟩ | ⟨hnum, hrest⟩)
    · obtain ⟨htake, hdrop⟩ := takeWhile_word hnum.printable hrest
      rw [if_neg (hnum.head_ne rest), beq_eq_false_iff_ne.mpr (hnum.head_ne rest), htake, hdrop]
      exact ⟨_, hnum, rfl, rfl⟩
    · obtain ⟨htake, hdrop⟩ := takeWhile_word hnum.printable hrest
      rw [List.headD_cons, if_pos rfl, beq_self_eq_true, List.tail_cons, htake, hdrop]
      exact ⟨_, hnum, rfl, rfl⟩
  · rintro ⟨n, hnum, rfl, rfl⟩
    by_cases hneg : w.headD 0 = 0x2d
    · rw [if_pos hneg] at hnum ⊢
      rw [beq_iff_eq.mpr hneg]
      have hspelled := Spelled.minus hnum (dropWhile_word w.tail)
      rw [List.takeWhile_append_dropWhile] at hspelled
      cases w with
      | nil => exact absurd hneg (by decide)
      | cons c w =>
        obtain rfl : c = 0x2d := hneg
        exact hspelled
    · rw [if_neg hneg] at hnum ⊢
      rw [beq_eq_false_iff_ne.mpr hneg]
      have hspelled := Spelled.plus hnum (dropWhile_word w)
      rwa [List.takeWhile_append_dropWhile] at hspelled

/-- The two's complement of a value. -/
theorem signed_eq (s : Bool) (n : ℕ) : ((signed s (n % 2 ^ 32) : ℕ) : ℤ) = (if s then -(n : ℤ) else n) % 2 ^ 32 := by
  cases s with
  | false => exact Int.natCast_emod n (2 ^ 32)
  | true =>
    have hlt : n % 2 ^ 32 < 2 ^ 32 := Nat.mod_lt _ (Nat.two_pow_pos 32)
    simp only [signed, Word.sub, if_true]
    omega

/-- A number of the grammar behind the sign. -/
theorem xatoi_number {str : List UInt8} {n : ℕ} (h : Number (body str) n) :
    xatoi str = ⟨true, signed (negative str) (n % 2 ^ 32), (unsigned str).dropWhile (0x20 < ·)⟩ := by
  rw [xatoi_eq, ← xatoiUnsigned_number h (dropWhile_word _), body, List.takeWhile_append_dropWhile]

/-- **`xatoi` accepts its grammar** if and only if the word behind the blanks and the sign is none of those that pass for numbers
without being any. -/
theorem xatoi_iff (str : List UInt8) : Accepts str ↔ ¬Lax (body str) := by
  have hsplit := (unsigned str).takeWhile_append_dropWhile (p := (0x20 < ·))
  constructor
  · rintro ⟨hiff, -⟩ hlax
    have hok : (xatoi str).ok = true := by
      rw [xatoi_eq, ← hsplit]
      exact hlax.ok (dropWhile_word _)
    obtain ⟨v, rest, hspelled⟩ := hiff.mp hok
    obtain ⟨n, hnum, -, -⟩ := (spelled_iff str rest v).mp hspelled
    exact hlax.not_number hnum
  · intro hlax
    constructor
    · constructor
      · intro hok
        rw [xatoi_eq, ← hsplit] at hok
        obtain ⟨n, hnum⟩ := (number_or_lax (takeWhile_printable _) (dropWhile_word _) hok).resolve_right hlax
        exact ⟨_, _, (spelled_iff str _ _).mpr ⟨n, hnum, rfl, rfl⟩⟩
      · rintro ⟨v, rest, hspelled⟩
        obtain ⟨n, hnum, -, -⟩ := (spelled_iff str rest v).mp hspelled
        rw [xatoi_number hnum]
    · intro v rest hspelled
      obtain ⟨n, hnum, hrest, rfl⟩ := (spelled_iff str rest v).mp hspelled
      rw [xatoi_number hnum]
      exact ⟨signed_eq _ n, hrest⟩

/-- `0x` and nothing else is taken for zero. -/
theorem xatoi_prefix : ¬∀ str : List UInt8, Accepts str := by
  intro h
  obtain ⟨v, rest, hspelled⟩ := (h [0x30, 0x78]).1.mp (by decide)
  obtain ⟨n, hnum, -, -⟩ := (spelled_iff [0x30, 0x78] rest v).mp hspelled
  have hlax : Lax [0x30, 0x78] := Lax.hexadecimal (fun c hc => absurd hc List.not_mem_nil) (Or.inl rfl)
  exact hlax.not_number hnum

end CoreLink.Xprintf
