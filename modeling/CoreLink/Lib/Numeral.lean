/-
# `CoreLink.Lib.Numeral` — numerals in a field.

A numeral is a sign and a body of digits. In a field it is padded: with blanks on one of its sides, or with zeros behind the
sign (`justify`). A padding that is there is seen (`justify_zero_iff`), and blanks and zeros aside the digits of a field are
those of its numeral (`significant_field`). The digits of a number in two bases agree only below the smaller one
(`toDigits_eq_iff`).
-/
import Mathlib.Data.List.Basic

namespace CoreLink.Lib

/-! ## Padding -/

/-- A numeral with `pad` characters of padding. -/
def justify (left zero : Bool) (pad : ℕ) (sign body : List Char) : List Char :=
  if left then sign ++ (body ++ List.replicate pad ' ')
  else if zero then sign ++ (List.replicate pad '0' ++ body)
  else List.replicate pad ' ' ++ (sign ++ body)

theorem length_justify (left zero : Bool) (pad : ℕ) (sign body : List Char) :
    (justify left zero pad sign body).length = pad + sign.length + body.length := by
  unfold justify
  split
  · rw [List.length_append, List.length_append, List.length_replicate]
    omega
  split
  · rw [List.length_append, List.length_append, List.length_replicate]
    omega
  · rw [List.length_append, List.length_append, List.length_replicate, Nat.add_assoc]

@[simp] theorem justify_zero_pad (left zero : Bool) (sign body : List Char) : justify left zero 0 sign body = sign ++ body := by
  cases left <;> cases zero <;> simp [justify]

/-- **Zeros are not blanks**: a field is the same with both only if it is justified to the left, or full. -/
theorem justify_zero_iff (left : Bool) (pad : ℕ) (sign body : List Char) :
    justify left true pad sign body = justify left false pad sign body ↔ left = true ∨ pad = 0 := by
  constructor
  · intro h
    cases left with
    | true => exact Or.inl rfl
    | false =>
      -- the zeros of both
      have hcount := congrArg (List.count '0') h
      have hblank : ('0' == ' ') = false := rfl
      simp [justify, List.count_append, List.count_replicate] at hcount
      omega
  · rintro (rfl | rfl)
    · rfl
    · rw [justify_zero_pad, justify_zero_pad]

/-- A numeral in a field of `width` characters. A `precision` is the number of digits there must be; with one, no zeros are
used for the padding. -/
def field (left zero : Bool) (width : ℕ) (precision : Option ℕ) (sign digits : List Char) : List Char :=
  justify left (zero && precision.isNone)
    (width - (sign.length + (List.replicate (precision.getD 1 - digits.length) '0' ++ digits).length)) sign
    (List.replicate (precision.getD 1 - digits.length) '0' ++ digits)

/-- A field is as wide as it is asked to be, or as what it holds. -/
theorem length_field (left zero : Bool) (width : ℕ) (precision : Option ℕ) (sign digits : List Char) :
    (field left zero width precision sign digits).length =
      max width (sign.length + max (precision.getD 1) digits.length) := by
  unfold field
  rw [length_justify, List.length_append, List.length_replicate]
  omega

/-! ## Digits -/

/-- The characters of a field without its blanks and the zeros in front. -/
def significant (l : List Char) : List Char := (l.filter (· ≠ ' ')).dropWhile (· = '0')

theorem dropWhile_zeros (n : ℕ) (l : List Char) : (List.replicate n '0' ++ l).dropWhile (· = '0') = l.dropWhile (· = '0') := by
  induction n with
  | zero => rfl
  | succ n ih =>
    rw [List.replicate_succ, List.cons_append, List.dropWhile_cons_of_pos (by decide), ih]

/-- **The digits of a field**, with blanks on both sides, a padding of one of the two kinds, and zeros. -/
theorem significant_field (before pad zeros behind : ℕ) {c : Char} (hc : c = '0' ∨ c = ' ') {digits : List Char}
    (hblank : ' ' ∉ digits) (hzero : digits.head? ≠ some '0') :
    significant (List.replicate before ' ' ++ (List.replicate pad c ++ (List.replicate zeros '0' ++
      (digits ++ List.replicate behind ' ')))) = digits := by
  have hblanks : ∀ n, (List.replicate n ' ').filter (· ≠ ' ') = [] := fun n => List.filter_replicate_of_neg (by decide)
  have hzeros : ∀ n, (List.replicate n '0').filter (· ≠ ' ') = List.replicate n '0' := fun n =>
    List.filter_replicate_of_pos (by decide)
  have hdigits : digits.filter (· ≠ ' ') = digits :=
    List.filter_eq_self.mpr fun x hx => decide_eq_true fun h => hblank (h ▸ hx)
  have hfront : digits.dropWhile (· = '0') = digits := by
    cases digits with
    | nil => rfl
    | cons x l => exact List.dropWhile_cons_of_neg (by simpa using hzero)
  unfold significant
  simp only [List.filter_append, hblanks, hzeros, hdigits, List.nil_append, List.append_nil]
  obtain rfl | rfl := hc
  · rw [hzeros, dropWhile_zeros, dropWhile_zeros, hfront]
  · rw [hblanks, List.nil_append, dropWhile_zeros, hfront]

/-- The digits of a field that has no sign. -/
theorem significant_of_field (left zero : Bool) (width : ℕ) (precision : Option ℕ) {digits : List Char} (hblank : ' ' ∉ digits)
    (hzero : digits.head? ≠ some '0') : significant (field left zero width precision [] digits) = digits := by
  unfold field justify
  split
  · have h := significant_field 0 0 (precision.getD 1 - digits.length)
      (width - (List.replicate (precision.getD 1 - digits.length) '0' ++ digits).length) (Or.inl rfl) hblank hzero
    simpa using h
  split
  · have h := significant_field 0 (width - (List.replicate (precision.getD 1 - digits.length) '0' ++ digits).length)
      (precision.getD 1 - digits.length) 0 (Or.inl rfl) hblank hzero
    simpa using h
  · have h := significant_field (width - (List.replicate (precision.getD 1 - digits.length) '0' ++ digits).length) 0
      (precision.getD 1 - digits.length) 0 (Or.inl rfl) hblank hzero
    simpa using h

theorem digitChar_inj {m n : ℕ} (hm : m < 16) (hn : n < 16) (h : Nat.digitChar m = Nat.digitChar n) : m = n := by
  have hall : ∀ m : Fin 16, ∀ n : Fin 16, Nat.digitChar m = Nat.digitChar n → m = n := by decide
  exact congrArg Fin.val (hall ⟨m, hm⟩ ⟨n, hn⟩ h)

theorem digitChar_ne_zero {n : ℕ} (hn : n < 16) (hpos : 0 < n) : Nat.digitChar n ≠ '0' := by
  intro h
  have hzero : n = 0 := digitChar_inj hn (by omega) h
  omega

theorem digitChar_ne_blank {n : ℕ} (hn : n < 16) : Nat.digitChar n ≠ ' ' := by
  have hall : ∀ n : Fin 16, Nat.digitChar n ≠ ' ' := by decide
  exact hall ⟨n, hn⟩

theorem blank_notMem_toDigits {b : ℕ} (hb : 1 < b) (hb' : b ≤ 16) (n : ℕ) : ' ' ∉ Nat.toDigits b n := by
  induction n using Nat.strongRecOn with
  | ind n ih =>
    rw [Nat.toDigits_eq_if hb]
    split
    · rw [List.mem_singleton]
      exact (digitChar_ne_blank (by omega)).symm
    · rw [List.mem_append, List.mem_singleton, not_or]
      have hmod := Nat.mod_lt n (show b > 0 by omega)
      exact ⟨ih (n / b) (Nat.div_lt_self (by omega) hb), (digitChar_ne_blank (by omega)).symm⟩

/-- The first digit of a number that is not 0. -/
theorem head_toDigits {b : ℕ} (hb : 1 < b) (hb' : b ≤ 16) {n : ℕ} (hn : 0 < n) : (Nat.toDigits b n).head? ≠ some '0' := by
  induction n using Nat.strongRecOn with
  | ind n ih =>
    rw [Nat.toDigits_eq_if hb]
    split
    · rw [List.head?_cons]
      exact fun h => digitChar_ne_zero (by omega) hn (Option.some.inj h)
    · have hrest := ih (n / b) (Nat.div_lt_self hn hb) (Nat.div_pos (by omega) (by omega))
      rwa [List.head?_append_of_ne_nil _ Nat.toDigits_ne_nil]

/-- Of two numbers with the same digits, the one in the larger base is the larger one. -/
theorem le_of_toDigits_eq {b b' : ℕ} (hb : 1 < b) (hlt : b < b') (hb' : b' ≤ 16) (n m : ℕ)
    (h : Nat.toDigits b' n = Nat.toDigits b m) : m ≤ n ∧ (b ≤ m → m < n) := by
  induction n using Nat.strongRecOn generalizing m with
  | ind n ih =>
    have hlength := congrArg List.length h
    rw [Nat.toDigits_eq_if (by omega), Nat.toDigits_eq_if hb] at h hlength
    split at h
    · split at h
      · have heq := digitChar_inj (by omega) (by omega) (List.singleton_inj.mp h)
        omega
      · rw [if_pos ‹_›, if_neg ‹_›, List.length_append, List.length_singleton, List.length_singleton] at hlength
        have hpos : 0 < (Nat.toDigits b (m / b)).length := Nat.length_toDigits_pos
        omega
    · split at h
      · rw [if_neg ‹_›, if_pos ‹_›, List.length_append, List.length_singleton, List.length_singleton] at hlength
        have hpos : 0 < (Nat.toDigits b' (n / b')).length := Nat.length_toDigits_pos
        omega
      · obtain ⟨hfront, hlast⟩ := List.append_inj' h rfl
        have hn := Nat.mod_lt n (show b' > 0 by omega)
        have hm := Nat.mod_lt m (show b > 0 by omega)
        have hmod := digitChar_inj (by omega) (by omega) (List.singleton_inj.mp hlast)
        obtain ⟨hle, -⟩ := ih (n / b') (Nat.div_lt_self (by omega) (by omega)) (m / b) hfront
        have hpos : 0 < m / b := Nat.div_pos (by omega) (by omega)
        have hlarger : m < n := calc
          m = b * (m / b) + m % b := (Nat.div_add_mod m b).symm
          _ < b' * (m / b) + m % b := Nat.add_lt_add_right (Nat.mul_lt_mul_of_pos_right hlt hpos) _
          _ ≤ b' * (n / b') + n % b' := by rw [hmod]; exact Nat.add_le_add_right (Nat.mul_le_mul_left _ hle) _
          _ = n := Nat.div_add_mod n b'
        exact ⟨Nat.le_of_lt hlarger, fun _ => hlarger⟩

/-- **The same digits in two bases**: only a single one. -/
theorem toDigits_eq_iff {b b' : ℕ} (hb : 1 < b) (hlt : b < b') (hb' : b' ≤ 16) (n : ℕ) :
    Nat.toDigits b' n = Nat.toDigits b n ↔ n < b := by
  constructor
  · intro h
    by_contra hn
    exact Nat.lt_irrefl n ((le_of_toDigits_eq hb hlt hb' n n h).2 (by omega))
  · intro h
    rw [Nat.toDigits_of_lt_base h, Nat.toDigits_of_lt_base (by omega)]

end CoreLink.Lib
