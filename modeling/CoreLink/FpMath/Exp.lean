/-
# `CoreLink.FpMath.Exp` — `sllexp`, `slllog` and `sllpow`: which of their loops end.

The loop of `sllexp` has a round for each bit of the integer part of the argument. Those of `slllog` bring the argument into the
window around 1 by factors of e, and every factor moves it at least twice as near. Zero and the negative numbers have no way into
the window.
-/
import CoreLink.FpMath.Arith
import CoreLink.FpMath.Sll

namespace CoreLink.FpMath

open CoreLink.Lib

/-! ## Constants -/

def CONST_E : ℤ := 0x2b7e15162
def CONST_1_E : ℤ := 0x5e2d58d8
def CONST_SQRTE : ℤ := 0x1a61298e1
def CONST_1_SQRTE : ℤ := 0x9b4597e3

/-! ## The functions -/

/-- What `_sllexp` multiplies by, one after the other. -/
def expTerms (x : ℤ) : List ℤ :=
  [sllmul x CONST_1_11, sllmul x CONST_1_10, sllmul x CONST_1_9, slldiv2n x 3, sllmul x CONST_1_7, sllmul x CONST_1_6,
    sllmul x CONST_1_5, slldiv4 x, sllmul x CONST_1_3, slldiv2 x, x]

/-- `retval = _slladd(CONST_1, sllmul(retval, t))`, for each of the terms. -/
def hornerSteps (retval : ℤ) (terms : List ℤ) : Option ℤ := terms.foldlM (fun retval t => slladd CONST_1 (sllmul retval t)) retval

/-- `_sllexp`. -/
def sllexpReduced (x : ℤ) : Option ℤ := hornerSteps CONST_1 (expTerms x)

/-- `for (; i; i >>= 1)`, with a bound on the rounds. -/
def scaleResult : ℕ → ℤ → ℤ → ℤ → Option ℤ
  | 0, _, _, _ => none
  | rounds + 1, i, e, retval =>
    if i ≠ 0 then scaleResult rounds (i / 2) (sllmul e e) (if i % 2 = 1 then sllmul retval e else retval) else some retval

section Rounds

-- the rounds that a loop gets
variable (rounds : ℕ)

/-- **`sllexp`.** -/
def sllexp (x : ℤ) : Option ℤ := do
  let s ← slladd x CONST_1_2
  let i := sll2int s
  let d ← sllsub x (int2sll i)
  let retval ← sllexpReduced d
  if i < 0 then scaleResult rounds (int32 (-i)) CONST_1_E retval else scaleResult rounds i CONST_E retval

/-- `while (x < CONST_1_SQRTE)`. -/
def logScaleUp : ℕ → ℤ → ℤ → Option (ℤ × ℤ)
  | 0, _, _ => none
  | rounds + 1, x, ln =>
    if x < CONST_1_SQRTE then (sllsub ln CONST_1).bind (logScaleUp rounds (sllmul x CONST_E)) else some (x, ln)

/-- `while (x > CONST_SQRTE)`. -/
def logScaleDown : ℕ → ℤ → ℤ → Option (ℤ × ℤ)
  | 0, _, _ => none
  | rounds + 1, x, ln =>
    if CONST_SQRTE < x then (slladd ln CONST_1).bind (logScaleDown rounds (sllmul x CONST_1_E)) else some (x, ln)

/-- `sllmul(_sllsub(x, CONST_1), slldiv2(_sllsub(x, CONST_3)))`. -/
def logTerm (x : ℤ) : Option ℤ := do
  let d ← sllsub x CONST_1
  let d' ← sllsub x CONST_3
  some (sllmul d (slldiv2 d'))

/-- `x = sllmul(x, _sllexp(x1))`. -/
def logNext (x x1 : ℤ) : Option ℤ := (sllexpReduced x1).map (sllmul x)

/-- The three iterations of `slllog`. -/
def logIterations (x ln : ℤ) : Option ℤ := do
  let x1 ← logTerm x
  let ln ← sllsub ln x1
  let x ← logNext x x1
  let x1 ← logTerm x
  let ln ← sllsub ln x1
  let x ← logNext x x1
  let x1 ← logTerm x
  sllsub ln x1

/-- **`slllog`.** -/
def slllog (x : ℤ) : Option ℤ := do
  let (x, ln) ← logScaleUp rounds x 0
  let (x, ln) ← logScaleDown rounds x ln
  logIterations x ln

/-- **`sllpow`.** -/
def sllpow (x y : ℤ) : Option ℤ :=
  if y = CONST_0 then some CONST_1 else (slllog rounds x).bind fun ln => sllexp rounds (sllmul y ln)

/-- **`cl_exp`.** -/
def cl_exp (broken : Bool) (d : ℕ) : Option ℕ := (dbl2sll broken d).bind fun x => (sllexp rounds x).bind (sll2dbl broken)

/-- **`cl_log`.** -/
def cl_log (broken : Bool) (d : ℕ) : Option ℕ := (dbl2sll broken d).bind fun x => (slllog rounds x).bind (sll2dbl broken)

/-- **`cl_pow`.** -/
def cl_pow (broken : Bool) (x y : ℕ) : Option ℕ := (dbl2sll broken x).bind fun x => (dbl2sll broken y).bind fun y =>
  (sllpow rounds x y).bind (sll2dbl broken)

end Rounds

/-! ## Bounds -/

/-- A factor between zero and one. -/
theorem abs_sllmul_unit {x c : ℤ} (hx : Fits x) (hc0 : 0 ≤ c) (hc : c ≤ 2 ^ 32) (hlow : -2 ^ 63 < x) : |sllmul x c| ≤ |x| := by
  have hc' : Fits c := ⟨by omega, by omega⟩
  have habs : |x| < 2 ^ 63 := abs_lt.mpr ⟨hlow, hx.2⟩
  have hprod : |x * c| ≤ |x| * 2 ^ 32 := by
    rw [abs_mul, abs_of_nonneg hc0]
    exact mul_le_mul_of_nonneg_left hc (abs_nonneg x)
  exact (sllmul_bounded hx hc' hprod habs).2

theorem abs_slldiv2n_le (x : ℤ) (n : ℕ) : |slldiv2n x n| ≤ |x| := by
  apply abs_ediv_le
  have hone : (1 : ℤ) ≤ 2 ^ n := one_le_pow₀ (by norm_num)
  exact le_mul_of_one_le_right (abs_nonneg x) hone

theorem fits_of_signed {x y : ℤ} (h : signed x = some y) : Fits y := by
  unfold signed at h
  split_ifs at h with hx
  exact Option.some.inj h ▸ hx

/-! ## The series -/

theorem abs_expTerms_le {x T : ℤ} (hx : |x| ≤ T) (hT : T < 2 ^ 63) : ∀ t ∈ expTerms x, |t| ≤ T := by
  have hlow := (abs_le.mp hx).1
  have hfits : Fits x := fits_of_abs hx hT
  have hmul (c : ℤ) (hc0 : 0 ≤ c) (hc : c ≤ 2 ^ 32) : |sllmul x c| ≤ T := (abs_sllmul_unit hfits hc0 hc (by omega)).trans hx
  have hdiv (n : ℕ) : |slldiv2n x n| ≤ T := (abs_slldiv2n_le x n).trans hx
  simp only [expTerms, List.forall_mem_cons, List.not_mem_nil, false_imp_iff, implies_true, and_true]
  refine ⟨hmul _ ?_ ?_, hmul _ ?_ ?_, hmul _ ?_ ?_, hdiv 3, hmul _ ?_ ?_, hmul _ ?_ ?_, hmul _ ?_ ?_, hdiv 2, hmul _ ?_ ?_,
    hdiv 1, hx⟩ <;> decide

/-- **One step** of the series. -/
theorem horner_step {retval t R T : ℤ} (hR0 : 0 ≤ R) (hR : R ≤ 2 ^ 20) (hT0 : 0 ≤ T) (hT : T ≤ 2 ^ 33)
    (hr : |retval| ≤ R * 2 ^ 32) (ht : |t| ≤ T) :
    ∃ r, slladd CONST_1 (sllmul retval t) = some r ∧ |r - 2 ^ 32| ≤ R * T := by
  have hRT : R * T ≤ 2 ^ 53 := by
    calc R * T ≤ 2 ^ 20 * 2 ^ 33 := mul_le_mul hR hT hT0 (by norm_num)
      _ = 2 ^ 53 := by norm_num
  have hprod : |retval * t| ≤ R * T * 2 ^ 32 := by
    calc |retval * t| = |retval| * |t| := abs_mul _ _
      _ ≤ R * 2 ^ 32 * T := mul_le_mul hr ht (abs_nonneg t) (by positivity)
      _ = R * T * 2 ^ 32 := by ring
  have hmul := (sllmul_bounded (fits_of_abs hr (by omega)) (fits_of_abs ht (by omega)) hprod (by omega)).2
  have hbounds := abs_le.mp hmul
  refine ⟨_, slladd_of_fits ?_, ?_⟩
  · unfold Fits CONST_1
    omega
  · rwa [show CONST_1 = 2 ^ 32 from rfl, add_sub_cancel_left]

/-- With terms up to a half the sum stays between 0 and 2. -/
theorem hornerSteps_half {terms : List ℤ} : ∀ {retval : ℤ}, 0 ≤ retval → retval ≤ 2 ^ 33 → (∀ t ∈ terms, |t| ≤ 2 ^ 31) →
    ∃ r, hornerSteps retval terms = some r ∧ 0 ≤ r ∧ r ≤ 2 ^ 33 := by
  induction terms with
  | nil => exact fun h0 h _ => ⟨_, rfl, h0, h⟩
  | cons t terms ih =>
    intro retval h0 h hterms
    obtain ⟨ht, hterms⟩ := List.forall_mem_cons.mp hterms
    have hr : |retval| ≤ 2 * 2 ^ 32 := by rw [abs_of_nonneg h0]; omega
    obtain ⟨r, hstep, hbound⟩ := horner_step (by norm_num) (by norm_num) (by norm_num) (by norm_num) hr ht
    obtain ⟨hlow, hhigh⟩ := abs_le.mp hbound
    have hpos : 0 ≤ r := by omega
    have htwo : r ≤ 2 ^ 33 := by omega
    obtain ⟨r', hrest, hr'⟩ := ih hpos htwo hterms
    refine ⟨r', ?_, hr'⟩
    rw [hornerSteps, List.foldlM_cons, hstep]
    exact hrest

/-- With terms up to 2 the sum at most doubles, and 1 comes to it. -/
theorem hornerSteps_two {terms : List ℤ} : ∀ {retval : ℤ} {n : ℕ}, n + terms.length ≤ 20 → |retval| ≤ (2 ^ n - 1) * 2 ^ 32 →
    (∀ t ∈ terms, |t| ≤ 2 ^ 33) → ∃ r, hornerSteps retval terms = some r ∧ |r| ≤ (2 ^ (n + terms.length) - 1) * 2 ^ 32 := by
  induction terms with
  | nil => exact fun _ h _ => ⟨_, rfl, h⟩
  | cons t terms ih =>
    intro retval n hn h hterms
    rw [List.length_cons] at hn
    obtain ⟨ht, hterms⟩ := List.forall_mem_cons.mp hterms
    have hpos : (1 : ℤ) ≤ 2 ^ n := one_le_pow₀ (by norm_num)
    have hle : (2 : ℤ) ^ n ≤ 2 ^ 20 := pow_le_pow_right₀ (by norm_num) (by omega)
    obtain ⟨r, hstep, hbound⟩ := horner_step (by omega) (by omega) (by norm_num) le_rfl h ht
    obtain ⟨hlow, hhigh⟩ := abs_le.mp hbound
    have hr : |r| ≤ (2 ^ (n + 1) - 1) * 2 ^ 32 := by
      rw [abs_le, pow_succ]
      constructor <;> linarith
    obtain ⟨r', hrest, hr'⟩ := ih (n := n + 1) (by omega) hr hterms
    refine ⟨r', ?_, ?_⟩
    · rw [hornerSteps, List.foldlM_cons, hstep]
      exact hrest
    · rwa [List.length_cons, Nat.add_comm terms.length, ← Nat.add_assoc]

theorem sllexpReduced_half {x : ℤ} (hx : |x| ≤ 2 ^ 31) : ∃ r, sllexpReduced x = some r ∧ 0 ≤ r ∧ r ≤ 2 ^ 33 :=
  hornerSteps_half (by decide) (by decide) (abs_expTerms_le hx (by norm_num))

theorem sllexpReduced_two {x : ℤ} (hx : |x| ≤ 2 ^ 33) : ∃ r, sllexpReduced x = some r ∧ |r| ≤ 4095 * 2 ^ 32 := by
  have hone : |CONST_1| ≤ (2 ^ 1 - 1) * 2 ^ 32 := by decide
  have hlength : (expTerms x).length = 11 := rfl
  have hbound := hornerSteps_two (by rw [hlength]; norm_num) hone (abs_expTerms_le hx (by norm_num))
  rw [hlength] at hbound
  exact hbound

/-! ## The exponential -/

/-- The loop goes through the bits. -/
theorem scaleResult_ends {bits : ℕ} : ∀ {rounds : ℕ} {i e retval : ℤ}, bits < rounds → 0 ≤ i → i < 2 ^ bits →
    ∃ r, scaleResult rounds i e retval = some r := by
  induction bits with
  | zero =>
    intro rounds i e retval hrounds h0 h
    obtain ⟨rounds, rfl⟩ := Nat.exists_eq_succ_of_ne_zero hrounds.ne'
    have hzero : i = 0 := by omega
    exact ⟨retval, by rw [scaleResult, if_neg (not_not_intro hzero)]⟩
  | succ bits ih =>
    intro rounds i e retval hrounds h0 h
    obtain ⟨rounds, rfl⟩ := Nat.exists_eq_succ_of_ne_zero (Nat.ne_of_gt (Nat.zero_lt_of_lt hrounds))
    rw [scaleResult]
    split_ifs
    · exact ih (by omega) (by omega) (by rw [pow_succ] at h; omega)
    · exact ih (by omega) (by omega) (by rw [pow_succ] at h; omega)
    · exact ⟨retval, rfl⟩

/-- **No end**: the shift rounds a negative number down, and -1 stays. -/
theorem scaleResult_negative {rounds : ℕ} : ∀ {i e retval : ℤ}, i < 0 → scaleResult rounds i e retval = none := by
  induction rounds with
  | zero => exact fun _ => rfl
  | succ rounds ih =>
    intro i e retval h
    rw [scaleResult, if_pos h.ne]
    exact ih (by omega)

/-- **The condition**: the integer next to the argument is not the most negative one, and half a unit fits on top. -/
def ExpEnds (x : ℤ) : Prop := -2 ^ 63 + 2 ^ 31 ≤ x ∧ x < 2 ^ 63 - 2 ^ 31

instance (x : ℤ) : Decidable (ExpEnds x) := inferInstanceAs (Decidable (_ ∧ _))

/-- The part of `sllexp` before the loop. -/
theorem sllexp_eq {x : ℤ} (h : -2 ^ 63 ≤ x ∧ x < 2 ^ 63 - 2 ^ 31) : ∃ retval, ∀ rounds, sllexp rounds x =
    if (x + 2 ^ 31) / 2 ^ 32 < 0 then scaleResult rounds (int32 (-((x + 2 ^ 31) / 2 ^ 32))) CONST_1_E retval
    else scaleResult rounds ((x + 2 ^ 31) / 2 ^ 32) CONST_E retval := by
  have hsum : Fits (x + 2 ^ 31) := ⟨by omega, by omega⟩
  have hadd : slladd x CONST_1_2 = some (x + 2 ^ 31) := slladd_of_fits hsum
  have hrest : |x - int2sll ((x + 2 ^ 31) / 2 ^ 32)| ≤ 2 ^ 31 := by
    unfold int2sll
    rw [abs_le]
    omega
  have hsub : sllsub x (int2sll ((x + 2 ^ 31) / 2 ^ 32)) = some (x - int2sll ((x + 2 ^ 31) / 2 ^ 32)) :=
    sllsub_of_fits (fits_of_abs hrest (by norm_num))
  obtain ⟨retval, hretval, -, -⟩ := sllexpReduced_half hrest
  refine ⟨retval, fun rounds => ?_⟩
  simp only [sllexp, hadd, sll2int_eq hsum, hsub, hretval, Option.bind_eq_bind, Option.bind_some]

theorem sllexp_ends {x : ℤ} (h : ExpEnds x) : ∃ r, sllexp 64 x = some r := by
  obtain ⟨hlow, hhigh⟩ := h
  obtain ⟨retval, heq⟩ := sllexp_eq ⟨by omega, hhigh⟩
  have hloop {i e : ℤ} (h0 : 0 ≤ i) (h : i < 2 ^ 31) : ∃ r, scaleResult 64 i e retval = some r :=
    scaleResult_ends (by norm_num) h0 h
  rw [heq]
  split_ifs with hneg
  · have hword : int32 (-((x + 2 ^ 31) / 2 ^ 32)) = -((x + 2 ^ 31) / 2 ^ 32) := by
      unfold int32
      omega
    rw [hword]
    exact hloop (by omega) (by omega)
  · exact hloop (by omega) (by omega)

theorem sllexp_endless {x : ℤ} (hx : Fits x) (h : ¬ExpEnds x) (rounds : ℕ) : sllexp rounds x = none := by
  by_cases hhigh : x < 2 ^ 63 - 2 ^ 31
  · have hlow : x < -2 ^ 63 + 2 ^ 31 := by
      by_contra hge
      exact h ⟨not_lt.mp hge, hhigh⟩
    obtain ⟨retval, heq⟩ := sllexp_eq ⟨hx.1, hhigh⟩
    have hlast : (x + 2 ^ 31) / 2 ^ 32 = -2 ^ 31 := by
      have := hx.1
      omega
    rw [heq, hlast, if_pos (by norm_num)]
    exact scaleResult_negative (by decide)
  · have hover : slladd x CONST_1_2 = none := if_neg fun hfits => hhigh (by
      have hsum := hfits.2
      unfold CONST_1_2 at hsum
      omega)
    rw [sllexp, hover]
    rfl

/-! ## The logarithm -/

/-- **Up**: a factor of e at least doubles a positive number. -/
theorem logScaleUp_ends {m : ℕ} : ∀ {rounds : ℕ} {x ln : ℤ}, m < rounds → 0 < x → x < 2 ^ 63 → 2 ^ 32 ≤ x * 2 ^ m →
    |ln| ≤ (32 - m) * 2 ^ 32 → ∃ x' ln', logScaleUp rounds x ln = some (x', ln') ∧ CONST_1_SQRTE ≤ x' ∧ x' < 2 ^ 63 ∧
      |ln'| ≤ 32 * 2 ^ 32 := by
  induction m with
  | zero =>
    intro rounds x ln hrounds hpos hx hlow hln
    obtain ⟨rounds, rfl⟩ := Nat.exists_eq_succ_of_ne_zero hrounds.ne'
    have hstop : CONST_1_SQRTE ≤ x := by
      unfold CONST_1_SQRTE
      omega
    refine ⟨x, ln, ?_, hstop, hx, by simpa using hln⟩
    rw [logScaleUp, if_neg (not_lt.mpr hstop)]
  | succ m ih =>
    intro rounds x ln hrounds hpos hx hlow hln
    obtain ⟨rounds, rfl⟩ := Nat.exists_eq_succ_of_ne_zero (Nat.ne_of_gt (Nat.zero_lt_of_lt hrounds))
    have hln' := abs_le.mp hln
    push_cast at hln'
    rw [logScaleUp]
    split_ifs with hstop
    · have hprod : |x * CONST_E| ≤ 2 ^ 33 * 2 ^ 32 := by
        unfold CONST_1_SQRTE at hstop
        unfold CONST_E
        rw [abs_le]
        omega
      obtain ⟨heq, hbound⟩ := sllmul_bounded ⟨by omega, hx⟩ (by decide) hprod (by norm_num)
      have hdouble : 2 * x ≤ sllmul x CONST_E := by
        rw [heq]
        unfold CONST_E
        omega
      have hm : (0 : ℤ) ≤ m := Int.natCast_nonneg m
      have hsub : sllsub ln CONST_1 = some (ln - CONST_1) := by
        apply sllsub_of_fits
        unfold Fits CONST_1
        constructor <;> nlinarith
      rw [hsub, Option.bind_some]
      apply ih (by omega) (by omega) (by have := abs_le.mp hbound; omega)
      · calc 2 ^ 32 ≤ x * 2 ^ (m + 1) := hlow
          _ = 2 * x * 2 ^ m := by ring
          _ ≤ sllmul x CONST_E * 2 ^ m := mul_le_mul_of_nonneg_right hdouble (by positivity)
      · unfold CONST_1
        rw [abs_le]
        constructor <;> linarith
    · refine ⟨x, ln, rfl, not_lt.mp hstop, hx, hln.trans ?_⟩
      push_cast
      have hm : (0 : ℤ) ≤ m := Int.natCast_nonneg m
      linarith

/-- **Down**: a factor of 1/e more than halves, and leads from above the window into it. -/
theorem logScaleDown_ends {m : ℕ} : ∀ {rounds : ℕ} {x ln : ℤ}, m < rounds → 3 * 2 ^ 32 ≤ 5 * x → x < 2 ^ 63 →
    x ≤ CONST_SQRTE * 2 ^ m → |ln| ≤ (63 - m) * 2 ^ 32 → ∃ x' ln', logScaleDown rounds x ln = some (x', ln') ∧
      3 * 2 ^ 32 ≤ 5 * x' ∧ x' ≤ CONST_SQRTE ∧ |ln'| ≤ 63 * 2 ^ 32 := by
  induction m with
  | zero =>
    intro rounds x ln hrounds hlow hx hhigh hln
    obtain ⟨rounds, rfl⟩ := Nat.exists_eq_succ_of_ne_zero hrounds.ne'
    have hstop : x ≤ CONST_SQRTE := by simpa using hhigh
    refine ⟨x, ln, ?_, hlow, hstop, by simpa using hln⟩
    rw [logScaleDown, if_neg (not_lt.mpr hstop)]
  | succ m ih =>
    intro rounds x ln hrounds hlow hx hhigh hln
    obtain ⟨rounds, rfl⟩ := Nat.exists_eq_succ_of_ne_zero (Nat.ne_of_gt (Nat.zero_lt_of_lt hrounds))
    have hln' := abs_le.mp hln
    push_cast at hln'
    have hm : (0 : ℤ) ≤ m := Int.natCast_nonneg m
    rw [logScaleDown]
    split_ifs with hstop
    · have hprod : |x * CONST_1_E| ≤ x * 2 ^ 32 := by
        unfold CONST_SQRTE at hstop
        unfold CONST_1_E
        rw [abs_le]
        omega
      obtain ⟨heq, -⟩ := sllmul_bounded ⟨by omega, hx⟩ (by decide) hprod hx
      have hhalf : 2 * sllmul x CONST_1_E ≤ x ∧ 3 * 2 ^ 32 ≤ 5 * sllmul x CONST_1_E := by
        rw [heq]
        unfold CONST_SQRTE at hstop
        unfold CONST_1_E
        omega
      have hadd : slladd ln CONST_1 = some (ln + CONST_1) := by
        apply slladd_of_fits
        unfold Fits CONST_1
        constructor <;> nlinarith
      rw [hadd, Option.bind_some]
      apply ih (by omega) hhalf.2 (by omega)
      · have hdouble : 2 * sllmul x CONST_1_E ≤ 2 * (CONST_SQRTE * 2 ^ m) := by
          calc 2 * sllmul x CONST_1_E ≤ x := hhalf.1
            _ ≤ CONST_SQRTE * 2 ^ (m + 1) := hhigh
            _ = 2 * (CONST_SQRTE * 2 ^ m) := by ring
        exact le_of_mul_le_mul_left hdouble (by norm_num)
      · unfold CONST_1
        rw [abs_le]
        constructor <;> linarith
    · refine ⟨x, ln, rfl, hlow, not_lt.mp hstop, hln.trans ?_⟩
      push_cast
      linarith

theorem logTerm_eq {x B : ℤ} (hx : |x| ≤ 2 ^ 48) (hB : B < 2 ^ 63) (h : |(x - 2 ^ 32) * ((x - 3 * 2 ^ 32) / 2)| ≤ B * 2 ^ 32) :
    ∃ t, logTerm x = some t ∧ |t| ≤ B := by
  have hx' := abs_le.mp hx
  have hd : Fits (x - 2 ^ 32) := ⟨by omega, by omega⟩
  have hd' : Fits (x - 3 * 2 ^ 32) := ⟨by omega, by omega⟩
  have hone : sllsub x CONST_1 = some (x - 2 ^ 32) := sllsub_of_fits hd
  have hthree : sllsub x CONST_3 = some (x - 3 * 2 ^ 32) := sllsub_of_fits hd'
  have hhalf : Fits ((x - 3 * 2 ^ 32) / 2) := ⟨by omega, by omega⟩
  refine ⟨sllmul (x - 2 ^ 32) ((x - 3 * 2 ^ 32) / 2), ?_, (sllmul_bounded hd hhalf h hB).2⟩
  rw [logTerm, hone, hthree]
  rfl

/-- In the window the term of the series is at most a half. -/
theorem logTerm_window {x : ℤ} (hlow : 3 * 2 ^ 32 ≤ 5 * x) (hhigh : x ≤ CONST_SQRTE) : ∃ t, logTerm x = some t ∧ |t| ≤ 2 ^ 31 := by
  unfold CONST_SQRTE at hhigh
  apply logTerm_eq (by rw [abs_le]; omega) (by norm_num)
  obtain ⟨b, hb⟩ : ∃ b, b = (x - 3 * 2 ^ 32) / 2 := ⟨_, rfl⟩
  rw [← hb, abs_le]
  have hbhigh : 2 * b ≤ x - 3 * 2 ^ 32 := by omega
  have hblow : x - 3 * 2 ^ 32 - 1 ≤ 2 * b := by omega
  constructor
  · nlinarith
  · nlinarith

/-- Up to twice the window it is at most 2. -/
theorem logTerm_twice {x : ℤ} (hlow : 0 ≤ x) (hhigh : x ≤ 2 * CONST_SQRTE) : ∃ t, logTerm x = some t ∧ |t| ≤ 2 ^ 33 := by
  unfold CONST_SQRTE at hhigh
  apply logTerm_eq (by rw [abs_le]; omega) (by norm_num)
  obtain ⟨b, hb⟩ : ∃ b, b = (x - 3 * 2 ^ 32) / 2 := ⟨_, rfl⟩
  rw [← hb, abs_le]
  have hbhigh : 2 * b ≤ x - 3 * 2 ^ 32 := by omega
  have hblow : x - 3 * 2 ^ 32 - 1 ≤ 2 * b := by omega
  constructor
  · nlinarith
  · nlinarith

/-- **The iterations** stay in the range of the type. -/
theorem logIterations_some {x ln : ℤ} (hlow : 3 * 2 ^ 32 ≤ 5 * x) (hhigh : x ≤ CONST_SQRTE) (hln : |ln| ≤ 63 * 2 ^ 32) :
    ∃ r, logIterations x ln = some r := by
  have hln' := abs_le.mp hln
  have hwidth : CONST_SQRTE = 0x1a61298e1 := rfl
  have hsub {a b : ℤ} (ha : |a| ≤ 2 ^ 39) (hb : |b| ≤ 2 ^ 60) : sllsub a b = some (a - b) := by
    have ha' := abs_le.mp ha
    have hb' := abs_le.mp hb
    exact sllsub_of_fits ⟨by omega, by omega⟩
  -- the first
  obtain ⟨t₁, ht₁, hbound₁⟩ := logTerm_window hlow hhigh
  have hb₁ := abs_le.mp hbound₁
  obtain ⟨r₁, hr₁, hr₁0, hr₁2⟩ := sllexpReduced_half hbound₁
  have hprod₁ : |x * r₁| ≤ 2 * CONST_SQRTE * 2 ^ 32 := by
    rw [abs_of_nonneg (mul_nonneg (by omega) hr₁0)]
    calc x * r₁ ≤ CONST_SQRTE * 2 ^ 33 := mul_le_mul hhigh hr₁2 hr₁0 (by decide)
      _ = 2 * CONST_SQRTE * 2 ^ 32 := by ring
  obtain ⟨hx₁eq, hx₁⟩ := sllmul_bounded ⟨by omega, by omega⟩ ⟨by omega, by omega⟩ hprod₁ (by decide)
  have hx₁0 : 0 ≤ sllmul x r₁ := by
    rw [hx₁eq]
    exact Int.ediv_nonneg (mul_nonneg (by omega) hr₁0) (by norm_num)
  have hx₁' := (abs_le.mp hx₁).2
  -- the second
  obtain ⟨t₂, ht₂, hbound₂⟩ := logTerm_twice hx₁0 hx₁'
  have hb₂ := abs_le.mp hbound₂
  obtain ⟨r₂, hr₂, hr₂bound⟩ := sllexpReduced_two hbound₂
  have hprod₂ : |sllmul x r₁ * r₂| ≤ 2 ^ 46 * 2 ^ 32 := by
    rw [abs_mul]
    calc |sllmul x r₁| * |r₂| ≤ 2 * CONST_SQRTE * (4095 * 2 ^ 32) := mul_le_mul hx₁ hr₂bound (abs_nonneg _) (by decide)
      _ ≤ 2 ^ 46 * 2 ^ 32 := by decide
  have hx₂ := (sllmul_bounded ⟨by omega, by omega⟩ (fits_of_abs hr₂bound (by norm_num)) hprod₂ (by norm_num)).2
  -- the third
  have hx₂' := abs_le.mp hx₂
  have hprod₃ : |(sllmul (sllmul x r₁) r₂ - 2 ^ 32) * ((sllmul (sllmul x r₁) r₂ - 3 * 2 ^ 32) / 2)| ≤ 2 ^ 60 * 2 ^ 32 := by
    rw [abs_mul]
    calc _ ≤ (2 ^ 46 + 2 ^ 32) * (2 ^ 45 + 2 ^ 33 : ℤ) :=
          mul_le_mul (by rw [abs_le]; omega) (by rw [abs_le]; omega) (abs_nonneg _) (by norm_num)
      _ ≤ 2 ^ 60 * 2 ^ 32 := by norm_num
  obtain ⟨t₃, ht₃, hbound₃⟩ := logTerm_eq (hx₂.trans (by norm_num)) (by norm_num) hprod₃
  have hln₁ : sllsub ln t₁ = some (ln - t₁) := hsub (by rw [abs_le]; omega) (hbound₁.trans (by norm_num))
  have hln₂ : sllsub (ln - t₁) t₂ = some (ln - t₁ - t₂) := hsub (by rw [abs_le]; omega) (hbound₂.trans (by norm_num))
  have hln₃ : sllsub (ln - t₁ - t₂) t₃ = some (ln - t₁ - t₂ - t₃) := hsub (by rw [abs_le]; omega) hbound₃
  refine ⟨ln - t₁ - t₂ - t₃, ?_⟩
  simp only [logIterations, logNext, ht₁, hln₁, hr₁, Option.map_some, ht₂, hln₂, hr₂, ht₃, hln₃, Option.bind_eq_bind,
    Option.bind_some]

/-- **`slllog` of a positive number.** -/
theorem slllog_ends {x : ℤ} (hpos : 0 < x) (hx : x < 2 ^ 63) : ∃ r, slllog 64 x = some r := by
  have hstart : |(0 : ℤ)| ≤ (32 - (32 : ℕ)) * 2 ^ 32 := by norm_num
  obtain ⟨x₁, ln₁, hup, hlow₁, hx₁, hln₁⟩ := logScaleUp_ends (by norm_num : 32 < 64) hpos hx (by omega) hstart
  have hlow : 3 * 2 ^ 32 ≤ 5 * x₁ := by
    unfold CONST_1_SQRTE at hlow₁
    omega
  have hhigh : x₁ ≤ CONST_SQRTE * 2 ^ 31 := by
    unfold CONST_SQRTE
    omega
  obtain ⟨x₂, ln₂, hdown, hlow₂, hx₂, hln₂⟩ := logScaleDown_ends (by norm_num : 31 < 64) hlow hx₁ hhigh (by
    push_cast
    linarith)
  obtain ⟨r, hr⟩ := logIterations_some hlow₂ hx₂ hln₂
  exact ⟨r, by simp only [slllog, hup, hdown, Option.bind_eq_bind, Option.bind_some, hr]⟩

/-- **Zero** stays zero. -/
theorem slllog_zero (rounds : ℕ) : slllog rounds 0 = none := by
  have hloop : ∀ ln, logScaleUp rounds 0 ln = none := by
    induction rounds with
    | zero => exact fun _ => rfl
    | succ rounds ih =>
      intro ln
      have hzero : sllmul 0 CONST_E = 0 := by decide
      rw [logScaleUp, if_pos (by decide), hzero]
      cases sllsub ln CONST_1 with
      | none => rfl
      | some ln' => exact ih ln'
  rw [slllog, hloop]
  rfl

/-- The product with e, without a limit. -/
def timesE (x : ℤ) : ℤ := x * CONST_E / 2 ^ 32

/-- **A negative number** stays negative as long as its products fit. -/
theorem slllog_negative {rounds : ℕ} {x : ℤ} (hx : x < 0) (hfits : ∀ k ≤ rounds, Fits (timesE^[k] x)) :
    slllog rounds x = none := by
  have hloop : ∀ ln, logScaleUp rounds x ln = none := by
    induction rounds generalizing x with
    | zero => exact fun _ => rfl
    | succ rounds ih =>
      intro ln
      have hproduct : sllmul x CONST_E = timesE x :=
        sllmul_of_fits (hfits 0 (Nat.zero_le _)) (by decide) (hfits 1 (Nat.succ_le_succ (Nat.zero_le _)))
      have hneg : timesE x < 0 := by
        unfold timesE CONST_E
        omega
      have hbelow : x < CONST_1_SQRTE := hx.trans (by decide)
      rw [logScaleUp, if_pos hbelow, hproduct]
      cases sllsub ln CONST_1 with
      | none => rfl
      | some ln' => exact ih hneg (fun k hk => hfits (k + 1) (Nat.succ_le_succ hk)) ln'
  rw [slllog, hloop]
  rfl

/-- However many rounds the loops get, when they end they end the same. -/
theorem logScaleUp_unique {n : ℕ} : ∀ {n' : ℕ} {x ln : ℤ} {p p' : ℤ × ℤ}, logScaleUp n x ln = some p → logScaleUp n' x ln = some p' →
    p = p' := by
  induction n with
  | zero => exact fun h _ => absurd h (by simp [logScaleUp])
  | succ n ih =>
    intro n' x ln p p' h h'
    cases n' with
    | zero => exact absurd h' (by simp [logScaleUp])
    | succ n' =>
      rw [logScaleUp] at h h'
      split_ifs at h h'
      · obtain ⟨l, hl, h⟩ := Option.bind_eq_some_iff.mp h
        obtain ⟨l', hl', h'⟩ := Option.bind_eq_some_iff.mp h'
        obtain rfl : l = l' := Option.some.inj (hl.symm.trans hl')
        exact ih h h'
      · exact Option.some.inj (h.symm.trans h')

theorem logScaleDown_unique {n : ℕ} : ∀ {n' : ℕ} {x ln : ℤ} {p p' : ℤ × ℤ}, logScaleDown n x ln = some p →
    logScaleDown n' x ln = some p' → p = p' := by
  induction n with
  | zero => exact fun h _ => absurd h (by simp [logScaleDown])
  | succ n ih =>
    intro n' x ln p p' h h'
    cases n' with
    | zero => exact absurd h' (by simp [logScaleDown])
    | succ n' =>
      rw [logScaleDown] at h h'
      split_ifs at h h'
      · obtain ⟨l, hl, h⟩ := Option.bind_eq_some_iff.mp h
        obtain ⟨l', hl', h'⟩ := Option.bind_eq_some_iff.mp h'
        obtain rfl : l = l' := Option.some.inj (hl.symm.trans hl')
        exact ih h h'
      · exact Option.some.inj (h.symm.trans h')

theorem slllog_unique {n n' : ℕ} {x ln ln' : ℤ} (h : slllog n x = some ln) (h' : slllog n' x = some ln') : ln = ln' := by
  simp only [slllog, Option.bind_eq_bind, Option.bind_eq_some_iff] at h h'
  obtain ⟨p, hp, q, hq, h⟩ := h
  obtain ⟨p', hp', q', hq', h'⟩ := h'
  obtain rfl := logScaleUp_unique hp hp'
  obtain rfl := logScaleDown_unique hq hq'
  exact Option.some.inj (h.symm.trans h')

/-! ## The results fit -/

theorem fits_hornerSteps {terms : List ℤ} : ∀ {retval r : ℤ}, Fits retval → hornerSteps retval terms = some r → Fits r := by
  induction terms with
  | nil => exact fun hretval h => Option.some.inj h ▸ hretval
  | cons t terms ih =>
    intro retval r _ h
    rw [hornerSteps, List.foldlM_cons] at h
    obtain ⟨r', hr', h⟩ := Option.bind_eq_some_iff.mp h
    exact ih (fits_of_signed hr') h

theorem fits_scaleResult {rounds : ℕ} : ∀ {i e retval r : ℤ}, Fits e → Fits retval → scaleResult rounds i e retval = some r →
    Fits r := by
  induction rounds with
  | zero => exact fun _ _ h => absurd h (by simp [scaleResult])
  | succ rounds ih =>
    intro i e retval r he hretval h
    rw [scaleResult] at h
    split_ifs at h
    · exact ih (fits_sllmul he he) (fits_sllmul hretval he) h
    · exact ih (fits_sllmul he he) hretval h
    · exact Option.some.inj h ▸ hretval

theorem fits_sllexp {rounds : ℕ} {x r : ℤ} (h : sllexp rounds x = some r) : Fits r := by
  simp only [sllexp, Option.bind_eq_bind, Option.bind_eq_some_iff] at h
  obtain ⟨s, -, d, -, retval, hretval, h⟩ := h
  have hfits : Fits retval := fits_hornerSteps (by decide) hretval
  split_ifs at h
  · exact fits_scaleResult (by decide) hfits h
  · exact fits_scaleResult (by decide) hfits h

theorem fits_slllog {rounds : ℕ} {x r : ℤ} (h : slllog rounds x = some r) : Fits r := by
  simp only [slllog, logIterations, Option.bind_eq_bind, Option.bind_eq_some_iff] at h
  obtain ⟨_, -, _, -, _, -, _, -, _, -, _, -, _, -, _, -, _, -, h⟩ := h
  exact fits_of_signed h

theorem fits_sllpow {rounds : ℕ} {x y r : ℤ} (h : sllpow rounds x y = some r) : Fits r := by
  unfold sllpow at h
  split_ifs at h
  · exact Option.some.inj h ▸ (by decide)
  · obtain ⟨ln, -, h⟩ := Option.bind_eq_some_iff.mp h
    exact fits_sllexp h

/-- A result that fits has a double. -/
theorem isSome_sll2dbl (broken : Bool) {o : Option ℤ} (h : ∀ r, o = some r → Fits r) :
    (o.bind (sll2dbl broken)).isSome = o.isSome := by
  cases o with
  | none => rfl
  | some r =>
    obtain ⟨d, hd, -⟩ := sll2dbl_spec broken (h r rfl).1 (h r rfl).2
    rw [Option.bind_some, hd]
    rfl

/-! ## The three functions and their wrappers -/

/-- **They end** when no loop gets more rounds than the word has bits. -/
def Ends {α : Type*} (f : ℕ → Option α) : Prop := (f 64).isSome

/-- However many rounds the loops get, there is no result. -/
def Endless {α : Type*} (f : ℕ → Option α) : Prop := ∀ rounds, f rounds = none

theorem sllpow_of_ne {x y : ℤ} (hy : y ≠ 0) (rounds : ℕ) :
    sllpow rounds x y = (slllog rounds x).bind fun ln => sllexp rounds (sllmul y ln) := if_neg hy

/-- **The power** of a positive number. -/
theorem sllpow_positive {x y ln : ℤ} (hy : Fits y) (hne : y ≠ 0) (hln : slllog 64 x = some ln) :
    (ExpEnds (sllmul y ln) → Ends fun rounds => sllpow rounds x y) ∧
      (¬ExpEnds (sllmul y ln) → Endless fun rounds => sllpow rounds x y) := by
  constructor
  · intro hends
    obtain ⟨r, hr⟩ := sllexp_ends hends
    show (sllpow 64 x y).isSome
    rw [sllpow_of_ne hne, hln, Option.bind_some, hr]
    rfl
  · intro hends rounds
    show sllpow rounds x y = none
    rw [sllpow_of_ne hne]
    cases hlog : slllog rounds x with
    | none => rfl
    | some ln' =>
      obtain rfl := slllog_unique hln hlog
      exact sllexp_endless (fits_sllmul hy (fits_slllog hln)) hends rounds

/-- **The loops of `sllexp`, `slllog` and `sllpow`**, and with them those of the wrappers. -/
theorem exp_log_pow_loops {x y : ℤ} (hx : Fits x) (hy : Fits y) :
    (ExpEnds x → Ends fun rounds => sllexp rounds x) ∧
    (¬ExpEnds x → Endless fun rounds => sllexp rounds x) ∧
    (0 < x → Ends fun rounds => slllog rounds x) ∧
    (x = 0 → Endless fun rounds => slllog rounds x) ∧
    (x < 0 → ∀ rounds, (∀ k ≤ rounds, Fits (timesE^[k] x)) → slllog rounds x = none) ∧
    (y = 0 → Ends fun rounds => sllpow rounds x y) ∧
    (y ≠ 0 → 0 < x → ∃ ln, slllog 64 x = some ln ∧ (ExpEnds (sllmul y ln) → Ends fun rounds => sllpow rounds x y) ∧
      (¬ExpEnds (sllmul y ln) → Endless fun rounds => sllpow rounds x y)) ∧
    (y ≠ 0 → x = 0 → Endless fun rounds => sllpow rounds x y) ∧
    (y ≠ 0 → x < 0 → ∀ rounds, (∀ k ≤ rounds, Fits (timesE^[k] x)) → sllpow rounds x y = none) ∧
    ∀ broken d, dbl2sll broken d = some x → ∀ rounds,
      (cl_exp rounds broken d).isSome = (sllexp rounds x).isSome ∧ (cl_log rounds broken d).isSome = (slllog rounds x).isSome ∧
      ∀ d', dbl2sll broken d' = some y → (cl_pow rounds broken d d').isSome = (sllpow rounds x y).isSome := by
  refine ⟨fun h => ?_, fun h => sllexp_endless hx h, fun h => ?_, ?_, fun h _ => slllog_negative h, fun h => ?_, fun hne h => ?_,
    ?_, fun hne h rounds hfits => ?_, fun broken d hd rounds => ⟨?_, ?_, fun d' hd' => ?_⟩⟩
  · obtain ⟨r, hr⟩ := sllexp_ends h
    exact Option.isSome_iff_exists.mpr ⟨r, hr⟩
  · obtain ⟨r, hr⟩ := slllog_ends h hx.2
    exact Option.isSome_iff_exists.mpr ⟨r, hr⟩
  · rintro rfl
    exact slllog_zero
  · exact Option.isSome_iff_exists.mpr ⟨CONST_1, if_pos h⟩
  · obtain ⟨ln, hln⟩ := slllog_ends h hx.2
    exact ⟨ln, hln, sllpow_positive hy hne hln⟩
  · rintro hne rfl rounds
    show sllpow rounds 0 y = none
    rw [sllpow_of_ne hne, slllog_zero]
    rfl
  · rw [sllpow_of_ne hne, slllog_negative h hfits]
    rfl
  · rw [cl_exp, hd, Option.bind_some]
    exact isSome_sll2dbl broken fun r => fits_sllexp
  · rw [cl_log, hd, Option.bind_some]
    exact isSome_sll2dbl broken fun r => fits_slllog
  · rw [cl_pow, hd, hd', Option.bind_some, Option.bind_some]
    exact isSome_sll2dbl broken fun r => fits_sllpow

/-- The arguments 2 and 0.5. -/
theorem exp_log_pow_loops_two : (Ends fun rounds => sllexp rounds CONST_2) ∧ (Ends fun rounds => slllog rounds CONST_2) ∧
    ∃ ln, slllog 64 CONST_2 = some ln ∧
      (ExpEnds (sllmul CONST_1_2 ln) → Ends fun rounds => sllpow rounds CONST_2 CONST_1_2) := by
  have h := exp_log_pow_loops (x := CONST_2) (y := CONST_1_2) (by decide) (by decide)
  obtain ⟨ln, hln, hpow, -⟩ := h.2.2.2.2.2.2.1 (by decide) (by decide)
  exact ⟨h.1 (by decide), h.2.2.1 (by decide), ln, hln, hpow⟩

/-- There is no bound for the rounds of `slllog(0)`. -/
theorem slllog_unbounded : ¬∃ c, ∀ x, Fits x → (slllog (c * 64) x).isSome := by
  rintro ⟨c, h⟩
  have hzero := h 0 (by decide)
  rw [slllog_zero] at hzero
  cases hzero

end CoreLink.FpMath
