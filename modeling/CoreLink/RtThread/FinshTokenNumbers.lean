/-
# `CoreLink.RtThread.FinshTokenNumbers` — the integer literals that the tokenizer of finsh decodes.

Each radix has a loop of its own. The loop of the hexadecimal digits takes every letter, so that a suffix is one more digit;
the 0 alone does not look for a suffix; and the digits behind a radix are collected in a buffer of 128 characters.
`FinshToken.tokenProcNumber_iff` says for every literal whether its value is stored and the run goes on behind it.
-/
import Mathlib.Tactic.Ring
import CoreLink.RtThread.FinshTokenRead

namespace CoreLink.RtThread

namespace FinshToken

variable {s t : FinshToken} {ch c : Char} {r : List Char}

/-! ## Integer literals -/

/-- The radix of a literal, with the case of its letter. -/
inductive Radix where
  | dec | oct | hex (upper : Bool) | bin (upper : Bool)

namespace Radix

def base : Radix → ℕ
  | dec => 10
  | oct => 8
  | hex _ => 16
  | bin _ => 2

/-- What stands in front of the digits. -/
def opening : Radix → List Char
  | dec => []
  | oct => ['0']
  | hex upper => ['0', if upper then 'X' else 'x']
  | bin upper => ['0', if upper then 'B' else 'b']

def digit : Radix → Char → Bool
  | dec => isDigit
  | oct => isOctal
  | hex _ => isXdigit
  | bin _ => fun ch => ch == '0' || ch == '1'

end Radix

/-- An integer literal. -/
structure IntLiteral where
  radix : Radix
  digits : List Char
  suffix : List Char

namespace IntLiteral

def text (lit : IntLiteral) : List Char := lit.radix.opening ++ lit.digits ++ lit.suffix

/-- The value in C. -/
def value (lit : IntLiteral) : ℕ := lit.digits.foldl (fun v d => v * lit.radix.base + digitValue d) 0

/-- **An integer literal of C**; the digits behind a 0 can be missing. -/
structure WellFormed (lit : IntLiteral) : Prop where
  digits : ∀ d ∈ lit.digits, lit.radix.digit d = true
  nonempty : lit.radix ≠ .oct → lit.digits ≠ []
  head : lit.radix = .dec → lit.digits.head? ≠ some '0'
  suffix : lit.suffix = [] ∨ lit.suffix = ['l'] ∨ lit.suffix = ['L']

/-- **Which integer literals are decoded.** A hexadecimal one with a suffix is, when taking the suffix for one more digit gives
the same. -/
def Ok (lit : IntLiteral) : Prop :=
  match lit.radix with
  | .dec => True
  | .oct => (lit.digits = [] → lit.suffix = []) ∧ lit.digits.length < numberBufMax
  | .hex _ => lit.digits.length + lit.suffix.length < numberBufMax ∧
      (lit.suffix = ['L'] → lit.value % 2 ^ 32 = 0xDDDDDDDC) ∧ (lit.suffix = ['l'] → lit.value % 2 ^ 32 = 0xFFFFFFFC)
  | .bin _ => lit.digits.length < numberBufMax

end IntLiteral

/-- The token is an integer, with this value. -/
def IsInt (t : FinshToken) (v : ℕ) : Prop := (t.currentToken = .valueInt ∨ t.currentToken = .valueLong) ∧ t.intValue = v

/-- One digit, where it has place in the bits that are shifted in. -/
theorem specDigit_fst {shift : ℕ} (hshift : shift ≤ 32) (bn : ℕ × ℕ) {d : Char} (hd : digitValue d < 2 ^ shift) :
    (specDigit shift bn d).1 = (bn.1 * 2 ^ shift + digitValue d) % 2 ^ 32 := by
  obtain ⟨k, hk⟩ := Nat.exists_eq_add_of_le hshift
  have hpow : 2 ^ 32 = 2 ^ shift * 2 ^ k := by rw [hk, pow_add]
  have hmod : (bn.1 <<< shift) % 2 ^ 32 = 2 ^ shift * (bn.1 % 2 ^ k) := by
    rw [Nat.shiftLeft_eq, Nat.mul_comm, hpow, Nat.mul_mod_mul_left]
  have hsum : (bn.1 * 2 ^ shift + digitValue d) % 2 ^ 32 = 2 ^ shift * (bn.1 % 2 ^ k) + digitValue d := by
    rw [hpow, Nat.mod_mul, Nat.mul_comm bn.1, Nat.mul_add_mod, Nat.mod_eq_of_lt hd, Nat.mul_add_div (Nat.two_pow_pos _),
      Nat.div_eq_of_lt hd, Nat.add_zero, Nat.add_comm]
  change (bn.1 <<< shift) % 2 ^ 32 ||| digitValue d = _
  rw [hmod, hsum, Nat.two_pow_add_eq_or_of_lt hd]

theorem foldl_specDigit {shift : ℕ} (hshift : shift ≤ 32) (ds : List Char) (hds : ∀ d ∈ ds, digitValue d < 2 ^ shift) :
    ∀ (bn : ℕ × ℕ) (v : ℕ), bn.1 = v % 2 ^ 32 →
      (ds.foldl (specDigit shift) bn).1 = ds.foldl (fun v d => v * 2 ^ shift + digitValue d) v % 2 ^ 32 := by
  induction ds with
  | nil => exact fun _ _ h => h
  | cons d ds ih =>
    intro bn v h
    refine ih (fun e he => hds e (List.mem_cons_of_mem _ he)) _ _ ?_
    rw [specDigit_fst hshift bn (hds d List.mem_cons_self), h, Nat.add_mod, Nat.mod_mul_mod, ← Nat.add_mod]

/-- **The number of the digits**, modulo the width of a word. -/
theorem tokenSpecNumber_eq {shift : ℕ} (hshift : shift ≤ 32) {ds : List Char} (hds : ∀ d ∈ ds, digitValue d < 2 ^ shift) :
    tokenSpecNumber ds shift = ds.foldl (fun v d => v * 2 ^ shift + digitValue d) 0 % 2 ^ 32 :=
  foldl_specDigit hshift ds hds (0, 0) 0 rfl

theorem tokenSpecNumber_concat (ds : List Char) (c : Char) (shift : ℕ) :
    tokenSpecNumber (ds ++ [c]) shift = (tokenSpecNumber ds shift <<< shift) % 2 ^ 32 ||| digitValue c := by
  rw [tokenSpecNumber, List.foldl_append]
  rfl

/-- A digit of more than four bits: the bit above them comes to the digit in front of it. -/
theorem shiftLeft_or_twelve (v k : ℕ) : (v <<< 4) % 2 ^ 32 ||| (2 ^ 4 * k + 12) = 2 ^ 4 * (v % 2 ^ 28 ||| k) + 12 := by
  have hmod : (v <<< 4) % 2 ^ 32 = (v % 2 ^ 28) <<< 4 := by
    rw [Nat.shiftLeft_eq, Nat.shiftLeft_eq]
    omega
  have hor : (v % 2 ^ 28) <<< 4 ||| (2 ^ 4 * k + 12) = (v % 2 ^ 28 ||| k) <<< 4 ||| 12 := by
    rw [Nat.two_pow_add_eq_or_of_lt (by decide), ← Nat.or_assoc, Nat.shiftLeft_or_distrib, Nat.shiftLeft_eq k,
      Nat.mul_comm k]
  rw [hmod, hor, Nat.shiftLeft_eq, Nat.mul_comm, ← Nat.two_pow_add_eq_or_of_lt (by decide)]

/-- **A suffix that is taken for a digit** changes all values but one. -/
theorem taken_L_iff {v : ℕ} (hv : v < 2 ^ 32) : (v <<< 4) % 2 ^ 32 ||| digitValue 'L' = v ↔ v = 0xDDDDDDDC := by
  constructor
  · intro h
    have hd : digitValue 'L' = 2 ^ 4 * 1 + 12 := rfl
    rw [hd, shiftLeft_or_twelve] at h
    have h4 : v % 2 ^ 28 = 2 ^ 2 * (v % 2 ^ 28 / 4) := by omega
    rw [h4, ← Nat.two_pow_add_eq_or_of_lt (by decide)] at h
    omega
  · rintro rfl
    decide

theorem taken_l_iff {v : ℕ} (hv : v < 2 ^ 32) : (v <<< 4) % 2 ^ 32 ||| digitValue 'l' = v ↔ v = 0xFFFFFFFC := by
  constructor
  · intro h
    have hd : digitValue 'l' = 2 ^ 4 * 3 + 12 := rfl
    rw [hd, shiftLeft_or_twelve] at h
    have h4 : v % 2 ^ 28 = 2 ^ 2 * (v % 2 ^ 28 / 4) := by omega
    rw [h4, ← Nat.two_pow_add_eq_or_of_lt (by decide)] at h
    omega
  · rintro rfl
    decide

/-- A digit is below the base. -/
theorem digitValue_lt {radix : Radix} {d : Char} (h : radix.digit d = true) : digitValue d < radix.base := by
  have hle : ∀ a b : Char, a ≤ b ↔ a.toNat ≤ b.toNat := fun a b => Iff.rfl
  have hcodes : '0'.toNat = 48 ∧ '7'.toNat = 55 ∧ '9'.toNat = 57 ∧ 'A'.toNat = 65 ∧ 'F'.toNat = 70 ∧ 'a'.toNat = 97 ∧
      'f'.toNat = 102 := by decide
  cases radix with
  | dec =>
    simp only [Radix.digit, isDigit, decide_eq_true_eq, hle, digitValue, Radix.base] at h ⊢
    split_ifs <;> omega
  | oct =>
    simp only [Radix.digit, isOctal, decide_eq_true_eq, hle, digitValue, Radix.base] at h ⊢
    split_ifs <;> omega
  | hex upper =>
    simp only [Radix.digit, isXdigit, decide_eq_true_eq, hle, digitValue, Radix.base] at h ⊢
    split_ifs <;> omega
  | bin upper =>
    simp only [Radix.digit, Bool.or_eq_true, beq_iff_eq] at h
    rcases h with rfl | rfl
    · exact Nat.zero_lt_two
    · exact Nat.one_lt_two

theorem digitValue_of_isDigit {d : Char} (h : isDigit d = true) : digitValue d = d.toNat - '0'.toNat := by
  have hle : ∀ a b : Char, a ≤ b ↔ a.toNat ≤ b.toNat := fun a b => Iff.rfl
  have hcodes : '0'.toNat = 48 ∧ '9'.toNat = 57 ∧ 'A'.toNat = 65 ∧ 'a'.toNat = 97 := by decide
  simp only [isDigit, decide_eq_true_eq, hle] at h
  simp only [digitValue, hle]
  split_ifs <;> omega

theorem isDigit_of_isOctal {d : Char} (h : isOctal d = true) : isDigit d = true := by
  simp only [isOctal, isDigit, decide_eq_true_eq] at h ⊢
  exact ⟨h.1, Nat.le_trans h.2 (by decide : '7'.toNat ≤ '9'.toNat)⟩

theorem isAlnum_of_isXdigit {d : Char} (h : isXdigit d = true) : (isDigit d || isAlpha d) = true := by
  simp only [isXdigit, isDigit, isAlpha, Bool.or_eq_true, decide_eq_true_eq] at h ⊢
  rcases h with h | h | h
  · exact .inl h
  · exact .inr (.inl ⟨h.1, Nat.le_trans h.2 (by decide : 'f'.toNat ≤ 'z'.toNat)⟩)
  · exact .inr (.inr ⟨h.1, Nat.le_trans h.2 (by decide : 'F'.toNat ≤ 'Z'.toNat)⟩)

/-! ## Reading a number -/

/-- A loop that keeps the value of its digits modulo `m`. -/
theorem foldl_digits_mod {b m : ℕ} {f : Char → ℕ} (ds : List Char) (hf : ∀ d ∈ ds, f d = digitValue d) : ∀ v,
    ds.foldl (fun v d => (v * b + f d) % m) (v % m) = ds.foldl (fun v d => v * b + digitValue d) v % m := by
  induction ds with
  | nil => exact fun _ => rfl
  | cons d ds ih =>
    intro v
    rw [List.foldl_cons, List.foldl_cons, ← ih (fun e he => hf e (List.mem_cons_of_mem _ he)), hf d List.mem_cons_self]
    congr 1
    rw [Nat.add_mod, Nat.mod_mul_mod, ← Nat.add_mod]

theorem rest_numberSuffix {suffix : List Char} (hread : Read s ch (suffix ++ r))
    (hsuffix : suffix = [] ∨ suffix = ['l'] ∨ suffix = ['L']) (hr : ∀ c ∈ r.head?, isSeparator c = true) :
    (numberSuffix ch s).rest = r := by
  rcases hsuffix with rfl | rfl | rfl
  · have hne : ¬(ch = 'l' ∨ ch = 'L') := by
      have := hread.not_of (p := fun c => decide (c = 'l' ∨ c = 'L')) ?_ (by decide)
      · exact of_decide_eq_false this
      · intro c hc
        refine decide_eq_false ?_
        rintro (rfl | rfl) <;> exact absurd (hr _ hc) (by decide)
    rw [numberSuffix, if_neg hne]
    exact hread.back
  · rw [numberSuffix, if_pos (.inl hread.eq_of_cons)]
    exact hread.rest_of_cons
  · rw [numberSuffix, if_pos (.inr hread.eq_of_cons)]
    exact hread.rest_of_cons

theorem isInt_numberSuffix (hs : s.currentToken = .valueInt) : IsInt (numberSuffix ch s) s.intValue := by
  rw [numberSuffix]
  split
  · exact ⟨.inr rfl, rfl⟩
  · unfold tokenPrevChar
    split
    · exact ⟨.inl hs, rfl⟩
    · split <;> exact ⟨.inl hs, rfl⟩

/-- **The digits behind a radix.** -/
theorem radixNumber_spec {p : Char → Bool} {shift : ℕ} {ds suffix : List Char} (hread : Read s ch (ds ++ (suffix ++ r)))
    (hds : ∀ d ∈ ds, p d = true) (hp : ∀ c ∈ (suffix ++ r).head?, p c = false) (h0 : p '\x00' = false)
    (hsuffix : suffix = [] ∨ suffix = ['l'] ∨ suffix = ['L']) (hr : ∀ c ∈ r.head?, isSeparator c = true) :
    if ds.length < numberBufMax then
      ∃ t, s.radixNumber p shift ch = some t ∧ IsInt t (tokenSpecNumber ds shift) ∧ t.rest = r
    else s.radixNumber p shift ch = none := by
  obtain ⟨ch', s', heq, hread', -⟩ := hread.scanLoop p (fun buf ch => buf ++ [ch]) [] hds hp h0
  have hbuf : ds.foldl (fun buf ch => buf ++ [ch]) [] = ds := by
    rw [List.foldl_append_eq_append, List.nil_append, ← List.flatMap_def, List.flatMap_singleton']
  rw [radixNumber, heq, Option.bind_some, hbuf]
  split
  · next hlt =>
    refine ⟨_, if_neg (Nat.not_le.mpr hlt), isInt_numberSuffix rfl, rest_numberSuffix ?_ hsuffix hr⟩
    exact hread'.of_eq rfl rfl rfl
  · next hlt => exact if_pos (Nat.not_lt.mp hlt)

/-- What follows an integer literal. -/
def EndsNumber (r : List Char) : Prop := ∀ c ∈ r.head?, isSeparator c = true

theorem suffix_head {suffix : List Char} {p : Char → Bool} (hsuffix : suffix = [] ∨ suffix = ['l'] ∨ suffix = ['L'])
    (hr : EndsNumber r) (hl : p 'l' = false) (hL : p 'L' = false) (hp : ∀ c, isSeparator c = true → p c = false) :
    ∀ c ∈ (suffix ++ r).head?, p c = false := by
  rcases hsuffix with rfl | rfl | rfl
  · exact fun c hc => hp c (hr c hc)
  · rintro c ⟨⟩
    exact hl
  · rintro c ⟨⟩
    exact hL

/-- A decimal number. -/
theorem tokenProcNumber_dec {ds suffix : List Char} (hs : s.rest = ds ++ (suffix ++ r)) (hds : ∀ d ∈ ds, isDigit d = true)
    (hne : ds ≠ []) (hhead : ds.head? ≠ some '0') (hsuffix : suffix = [] ∨ suffix = ['l'] ∨ suffix = ['L'])
    (hr : EndsNumber r) :
    ∃ t, s.tokenProcNumber = some t ∧ IsInt t (ds.foldl (fun v d => v * 10 + digitValue d) 0 % 2 ^ 32) ∧ t.rest = r := by
  have hread := read_next s
  rw [hs] at hread
  have hch : s.tokenNextChar.1 ≠ '0' := by
    obtain ⟨d, ds, rfl⟩ := List.exists_cons_of_ne_nil hne
    rw [hread.eq_of_cons]
    exact fun heq => hhead (congrArg some heq)
  have hp : ∀ c ∈ (suffix ++ r).head?, isDigit c = false :=
    suffix_head hsuffix hr (by decide) (by decide) fun c hc => by simp [isSeparator] at hc; exact hc.1.2
  obtain ⟨ch', s', heq, hread', -⟩ := hread.scanLoop isDigit
    (fun value ch => (value * 10 + (ch.toNat - '0'.toNat)) % 2 ^ 32) 0 hds hp (by decide)
  have hval : ds.foldl (fun value ch => (value * 10 + (ch.toNat - '0'.toNat)) % 2 ^ 32) 0 =
      ds.foldl (fun v d => v * 10 + digitValue d) 0 % 2 ^ 32 := by
    exact foldl_digits_mod ds (fun d hd => (digitValue_of_isDigit (hds d hd)).symm) 0
  rw [tokenProcNumber]
  simp only [if_neg hch, heq, Option.map_some]
  refine ⟨_, rfl, hval ▸ isInt_numberSuffix rfl, rest_numberSuffix ?_ hsuffix hr⟩
  exact hread'.of_eq rfl rfl rfl

theorem EndsNumber.not_of (hr : EndsNumber r) {p : Char → Bool} (hp : ∀ c, isSeparator c = true → p c = false) :
    ∀ c ∈ r.head?, p c = false := fun c hc => hp c (hr c hc)

theorem not_isDigit_of_isSeparator {c : Char} (h : isSeparator c = true) : isDigit c = false := by
  simp only [isSeparator, Bool.not_eq_true', Bool.or_eq_false_iff] at h
  exact h.1.2

theorem not_isAlpha_of_isSeparator {c : Char} (h : isSeparator c = true) : isAlpha c = false := by
  simp only [isSeparator, Bool.not_eq_true', Bool.or_eq_false_iff] at h
  exact h.1.1

/-- The letter behind a 0 chooses the radix. -/
theorem tokenProcNumber_zero {c : Char} {tail : List Char} (hs : s.rest = '0' :: c :: tail) :
    ∃ s₁ s₂ : FinshToken, Read s₁ c (c :: tail) ∧ s₂.rest = tail ∧ s.tokenProcNumber =
      if c = 'x' ∨ c = 'X' then
        s₂.tokenNextChar.2.radixNumber (fun ch => isDigit ch || isAlpha ch) 4 s₂.tokenNextChar.1
      else if c = 'b' ∨ c = 'B' then s₂.tokenNextChar.2.radixNumber (fun ch => ch == '0' || ch == '1') 1 s₂.tokenNextChar.1
      else if isOctal c then s₁.radixNumber isOctal 3 c
      else some { s₁.tokenPrevChar with intValue := 0, currentToken := .valueInt } := by
  have hread := read_next s
  rw [hs] at hread
  have hread₁ := read_next s.tokenNextChar.2
  rw [hread.rest_of_cons] at hread₁
  refine ⟨s.tokenNextChar.2.tokenNextChar.2, s.tokenNextChar.2.tokenNextChar.2, hread₁.eq_of_cons ▸ hread₁,
    hread₁.rest_of_cons, ?_⟩
  rw [tokenProcNumber]
  simp only [hread.eq_of_cons, hread₁.eq_of_cons, if_pos]

/-- A binary number. -/
theorem tokenProcNumber_bin {c : Char} {ds suffix : List Char} (hs : s.rest = '0' :: c :: (ds ++ (suffix ++ r)))
    (hc : c = 'b' ∨ c = 'B') (hds : ∀ d ∈ ds, (d == '0' || d == '1') = true)
    (hsuffix : suffix = [] ∨ suffix = ['l'] ∨ suffix = ['L']) (hr : EndsNumber r) :
    if ds.length < numberBufMax then
      ∃ t, s.tokenProcNumber = some t ∧ IsInt t (tokenSpecNumber ds 1) ∧ t.rest = r
    else s.tokenProcNumber = none := by
  obtain ⟨s₁, s₂, -, hrest, heq⟩ := tokenProcNumber_zero hs
  have hne : ¬(c = 'x' ∨ c = 'X') := by rcases hc with rfl | rfl <;> decide
  have hread := read_next s₂
  rw [hrest] at hread
  rw [heq, if_neg hne, if_pos hc]
  refine radixNumber_spec hread hds (suffix_head hsuffix hr (by decide) (by decide) fun c hc => ?_) (by decide) hsuffix hr
  have hdigit := not_isDigit_of_isSeparator hc
  by_contra hne
  simp only [Bool.not_eq_false, Bool.or_eq_true, beq_iff_eq] at hne
  rcases hne with rfl | rfl <;> exact absurd hdigit (by decide)

/-- A hexadecimal number; the suffix is one of its digits. -/
theorem tokenProcNumber_hex {c : Char} {ds : List Char} (hs : s.rest = '0' :: c :: (ds ++ r)) (hc : c = 'x' ∨ c = 'X')
    (hds : ∀ d ∈ ds, (isDigit d || isAlpha d) = true) (hr : EndsNumber r) :
    if ds.length < numberBufMax then
      ∃ t, s.tokenProcNumber = some t ∧ IsInt t (tokenSpecNumber ds 4) ∧ t.rest = r
    else s.tokenProcNumber = none := by
  obtain ⟨s₁, s₂, -, hrest, heq⟩ := tokenProcNumber_zero hs
  have hread := read_next s₂
  rw [hrest] at hread
  rw [heq, if_pos hc]
  have hread : Read s₂.tokenNextChar.2 s₂.tokenNextChar.1 (ds ++ ([] ++ r)) := hread
  refine radixNumber_spec hread hds (hr.not_of fun c hc => ?_) (by decide) (.inl rfl) hr
  rw [not_isDigit_of_isSeparator hc, not_isAlpha_of_isSeparator hc]
  rfl

/-- An octal number of some digits. -/
theorem tokenProcNumber_oct {ds suffix : List Char} (hs : s.rest = '0' :: (ds ++ (suffix ++ r)))
    (hds : ∀ d ∈ ds, isOctal d = true) (hne : ds ≠ []) (hsuffix : suffix = [] ∨ suffix = ['l'] ∨ suffix = ['L'])
    (hr : EndsNumber r) :
    if ds.length < numberBufMax then
      ∃ t, s.tokenProcNumber = some t ∧ IsInt t (tokenSpecNumber ds 3) ∧ t.rest = r
    else s.tokenProcNumber = none := by
  obtain ⟨d, ds, rfl⟩ := List.exists_cons_of_ne_nil hne
  obtain ⟨s₁, s₂, hread, -, heq⟩ := tokenProcNumber_zero hs
  have hd := hds d List.mem_cons_self
  have hletter : ∀ c, isOctal c = false → d ≠ c := fun c hc heq => by simp [heq ▸ hc] at hd
  rw [heq, if_neg (not_or.mpr ⟨hletter 'x' (by decide), hletter 'X' (by decide)⟩),
    if_neg (not_or.mpr ⟨hletter 'b' (by decide), hletter 'B' (by decide)⟩), if_pos hd]
  refine radixNumber_spec hread hds (suffix_head hsuffix hr (by decide) (by decide) fun c hc => ?_) (by decide) hsuffix hr
  by_contra hne
  rw [Bool.not_eq_false] at hne
  exact Bool.false_ne_true ((not_isDigit_of_isSeparator hc).symm.trans (isDigit_of_isOctal hne))

/-- A character that says something about the radix, behind a 0. -/
def isRadixMark (c : Char) : Bool := decide (c = 'x' ∨ c = 'X' ∨ c = 'b' ∨ c = 'B' ∨ isOctal c = true)

theorem not_isRadixMark_of_isSeparator {c : Char} (h : isSeparator c = true) : isRadixMark c = false := by
  refine decide_eq_false ?_
  rintro (rfl | rfl | rfl | rfl | ho)
  · exact absurd h (by decide)
  · exact absurd h (by decide)
  · exact absurd h (by decide)
  · exact absurd h (by decide)
  · exact Bool.false_ne_true ((not_isDigit_of_isSeparator h).symm.trans (isDigit_of_isOctal ho))

/-- A 0 alone: what stands behind it is not looked at. -/
theorem tokenProcNumber_zero_alone {tail : List Char} (hs : s.rest = '0' :: tail)
    (htail : ∀ c ∈ tail.head?, isRadixMark c = false) :
    ∃ t, s.tokenProcNumber = some t ∧ IsInt t 0 ∧ t.rest = tail := by
  have hread := read_next s
  rw [hs] at hread
  have hread₁ := read_next s.tokenNextChar.2
  rw [hread.rest_of_cons] at hread₁
  have hch := hread₁.not_of htail (by decide)
  simp only [isRadixMark, decide_eq_false_iff_not, not_or] at hch
  obtain ⟨hx, hX, hb, hB, ho⟩ := hch
  refine ⟨{ s.tokenNextChar.2.tokenNextChar.2.tokenPrevChar with intValue := 0, currentToken := .valueInt }, ?_,
    ⟨.inl rfl, rfl⟩, hread₁.back⟩
  rw [tokenProcNumber]
  simp only [hread.eq_of_cons, if_pos, hx, hX, hb, hB, ho, or_self, if_false]
  rfl

/-- What a number of at most so many digits comes to. -/
theorem exists_isInt_iff {run : Option FinshToken} {n v w : ℕ} (h : if n < numberBufMax then
      ∃ t, run = some t ∧ IsInt t v ∧ t.rest = r else run = none) :
    (∃ t, run = some t ∧ IsInt t w ∧ t.rest = r) ↔ n < numberBufMax ∧ v = w := by
  constructor
  · rintro ⟨t, heq, hint, hrest⟩
    split at h
    · next hlt =>
      obtain ⟨t', heq', hint', -⟩ := h
      obtain rfl := Option.some_inj.mp (heq.symm.trans heq')
      exact ⟨hlt, hint'.2.symm.trans hint.2⟩
    · exact absurd (heq.symm.trans h) (Option.some_ne_none t)
  · rintro ⟨hlt, rfl⟩
    rwa [if_pos hlt] at h

/-- **An integer literal** is decoded in exactly these cases. -/
theorem tokenProcNumber_iff {lit : IntLiteral} (hs : s.rest = lit.text ++ r) (hw : lit.WellFormed) (hr : EndsNumber r) :
    (∃ t, s.tokenProcNumber = some t ∧ IsInt t (lit.value % 2 ^ 32) ∧ t.rest = r) ↔ lit.Ok := by
  obtain ⟨radix, digits, suffix⟩ := lit
  have hlt : ∀ d ∈ digits, digitValue d < radix.base := fun d hd => digitValue_lt (hw.digits d hd)
  have hdigits : ∀ d ∈ digits, radix.digit d = true := hw.digits
  have hsuffix : suffix = [] ∨ suffix = ['l'] ∨ suffix = ['L'] := hw.suffix
  simp only [IntLiteral.text, List.append_assoc] at hs
  cases radix with
  | dec =>
    exact iff_of_true (tokenProcNumber_dec hs hdigits (hw.nonempty nofun) (hw.head rfl) hsuffix hr) trivial
  | oct =>
    have hs : s.rest = '0' :: (digits ++ (suffix ++ r)) := hs
    by_cases hnil : digits = []
    · rw [hnil] at hs
      have hs : s.rest = '0' :: (suffix ++ r) := hs
      obtain ⟨t, heq, hint, hrest⟩ := tokenProcNumber_zero_alone hs
        (suffix_head hsuffix hr (by decide) (by decide) fun _ => not_isRadixMark_of_isSeparator)
      simp only [heq, Option.some_inj, exists_eq_left', IntLiteral.Ok, IntLiteral.value, hnil, hrest]
      simp [hint, numberBufMax]
    · rw [exists_isInt_iff (tokenProcNumber_oct hs hdigits hnil hsuffix hr)]
      simp only [IntLiteral.Ok, hnil, false_imp_iff, true_and, and_iff_left_iff_imp]
      exact fun _ => tokenSpecNumber_eq (by decide) hlt
  | hex upper =>
    have hs : s.rest = '0' :: (if upper then 'X' else 'x') :: ((digits ++ suffix) ++ r) := by rw [List.append_assoc]; exact hs
    have hmark : (if upper then 'X' else 'x') = 'x' ∨ (if upper then 'X' else 'x') = 'X' := by cases upper <;> decide
    have halnum : ∀ d ∈ digits ++ suffix, (isDigit d || isAlpha d) = true := by
      intro d hd
      rcases List.mem_append.mp hd with hd | hd
      · exact isAlnum_of_isXdigit (hdigits d hd)
      · rcases hsuffix with rfl | rfl | rfl
        · exact absurd hd List.not_mem_nil
        · exact List.mem_singleton.mp hd ▸ rfl
        · exact List.mem_singleton.mp hd ▸ rfl
    rw [exists_isInt_iff (tokenProcNumber_hex hs hmark halnum hr)]
    have hval : tokenSpecNumber digits 4 = _ % 2 ^ 32 := tokenSpecNumber_eq (by decide) hlt
    have hlt32 : tokenSpecNumber digits 4 < 2 ^ 32 := hval ▸ Nat.mod_lt _ (Nat.two_pow_pos _)
    simp only [IntLiteral.Ok, List.length_append, and_congr_right_iff]
    intro _
    change _ = List.foldl (fun v d => v * 2 ^ 4 + digitValue d) 0 digits % 2 ^ 32 ↔
      (_ → List.foldl (fun v d => v * 2 ^ 4 + digitValue d) 0 digits % 2 ^ 32 = _) ∧
      (_ → List.foldl (fun v d => v * 2 ^ 4 + digitValue d) 0 digits % 2 ^ 32 = _)
    rw [← hval]
    rcases hsuffix with rfl | rfl | rfl
    · simp
    · rw [tokenSpecNumber_concat, taken_l_iff hlt32]
      simp
    · rw [tokenSpecNumber_concat, taken_L_iff hlt32]
      simp
  | bin upper =>
    have hs : s.rest = '0' :: (if upper then 'B' else 'b') :: (digits ++ (suffix ++ r)) := hs
    have hmark : (if upper then 'B' else 'b') = 'b' ∨ (if upper then 'B' else 'b') = 'B' := by cases upper <;> decide
    rw [exists_isInt_iff (tokenProcNumber_bin hs hmark hdigits hsuffix hr)]
    exact and_iff_left (tokenSpecNumber_eq (by decide) hlt)

end FinshToken

end CoreLink.RtThread
