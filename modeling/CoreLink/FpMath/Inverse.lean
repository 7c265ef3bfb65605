/-
# `CoreLink.FpMath.Inverse` — `sllinv`: the reciprocal by six steps of Newton's method.

Whatever the steps do to an approximation `u` of the reciprocal of `x` shows in what is left of `2 ^ 64` beside `x * u`. A step
squares what is left, in units of `2 ^ 64`, and the two roundings of its products add less than `x`.
-/
import CoreLink.FpMath.Arith
import Mathlib.Data.Nat.Log

namespace CoreLink.FpMath

open CoreLink.Lib

/-! ## The function -/

/-- `for (u = x; u; u = ((ull) u) >> 1) s >>= 1`. It gets a round for each bit and one for the test that ends it. -/
def startLoop : ℕ → ℕ → ℕ → Option ℕ
  | 0, _, _ => none
  | rounds + 1, u, s => if u ≠ 0 then startLoop rounds (u / 2) (s / 2) else some s

/-- One step of Newton's method. -/
def newton (x u : ℤ) : Option ℤ := (sllsub CONST_2 (sllmul x u)).map (sllmul u)

/-- `sllinv` of a number that is not negative. -/
def sllinvPositive (x : ℤ) : Option ℤ := do
  let s ← startLoop 65 (toUll x).toNat (toUll (-1)).toNat
  let u ← newton x (int64 s)
  let u ← newton x u
  let u ← newton x u
  let u ← newton x u
  let u ← newton x u
  newton x u

/-- **`sllinv`.** -/
def sllinv (x : ℤ) : Option ℤ :=
  if x < CONST_0 then do
    let x ← sllneg x
    let u ← sllinvPositive x
    sllneg u
  else sllinvPositive x

/-- `slldiv`. -/
def slldiv (x y : ℤ) : Option ℤ := (sllinv y).map (sllmul x)

/-! ## The starting point -/

/-- The loop shifts by the bits of `u`. -/
theorem startLoop_eq {bits : ℕ} : ∀ {rounds u s : ℕ}, bits < rounds → u < 2 ^ bits → (bits = 0 ∨ 2 ^ (bits - 1) ≤ u) →
    startLoop rounds u s = some (s / 2 ^ bits) := by
  induction bits with
  | zero =>
    intro rounds u s hrounds hu _
    obtain ⟨rounds, rfl⟩ := Nat.exists_eq_succ_of_ne_zero hrounds.ne'
    have hzero : u = 0 := by simpa using hu
    rw [startLoop, if_neg (not_not_intro hzero), pow_zero, Nat.div_one]
  | succ bits ih =>
    intro rounds u s hrounds hu hlow
    obtain ⟨rounds, rfl⟩ := Nat.exists_eq_succ_of_ne_zero (Nat.ne_of_gt (Nat.zero_lt_of_lt hrounds))
    have hge : 2 ^ bits ≤ u := hlow.resolve_left (Nat.succ_ne_zero bits)
    have hne : u ≠ 0 := Nat.ne_of_gt ((Nat.two_pow_pos bits).trans_le hge)
    have hhalf : u / 2 < 2 ^ bits := by
      rw [pow_succ] at hu
      omega
    have hrest : bits = 0 ∨ 2 ^ (bits - 1) ≤ u / 2 := by
      rcases Nat.eq_zero_or_pos bits with hzero | hpos
      · exact Or.inl hzero
      · have hsplit : 2 ^ bits = 2 ^ (bits - 1) * 2 := by rw [← pow_succ, Nat.sub_add_cancel hpos]
        omega
    rw [startLoop, if_pos hne, ih (by omega) hhalf hrest, Nat.div_div_eq_div_mul, pow_succ']

/-! ## One step -/

/-- What is left of `2 ^ 64`. -/
def left (x u : ℤ) : ℤ := 2 ^ 64 - x * u

/-- **One step**: nothing overflows, and what is left is squared, but for the roundings. -/
theorem newton_step {x u : ℤ} (hx3 : 3 ≤ x) (hx : x < 2 ^ 63) (hu : 0 ≤ u) (hleft : -2 ^ 33 ≤ left x u) :
    ∃ u', newton x u = some u' ∧ 0 ≤ u' ∧ -2 ^ 33 ≤ left x u' ∧ 2 ^ 64 * left x u' ≤ left x u ^ 2 + 2 ^ 64 * x := by
  unfold left at hleft ⊢
  have hpos : 0 ≤ x * u := mul_nonneg (by omega) hu
  have hubound : 3 * u ≤ x * u := mul_le_mul_of_nonneg_right hx3 hu
  have hfitsx : Fits x := ⟨by omega, hx⟩
  have hfitsu : Fits u := ⟨by omega, by omega⟩
  -- the product `x * u`, rounded down
  have hmul : sllmul x u = x * u / 2 ^ 32 := sllmul_of_fits hfitsx hfitsu ⟨by omega, by omega⟩
  have hdiff : sllsub CONST_2 (sllmul x u) = some (2 ^ 33 - x * u / 2 ^ 32) := by
    rw [hmul]
    exact sllsub_of_fits ⟨by unfold CONST_2; omega, by unfold CONST_2; omega⟩
  obtain ⟨d, hd⟩ : ∃ d, d = 2 ^ 33 - x * u / 2 ^ 32 := ⟨_, rfl⟩
  have hdlow : 2 ^ 65 - x * u ≤ d * 2 ^ 32 := by omega
  have hdhigh : d * 2 ^ 32 ≤ 2 ^ 65 - x * u + 2 ^ 32 := by omega
  -- the product `u * d`, rounded down
  obtain ⟨v, hv⟩ : ∃ v, v = u * d / 2 ^ 32 := ⟨_, rfl⟩
  have hvlow : u * d ≤ v * 2 ^ 32 + 2 ^ 32 := by omega
  have hvhigh : v * 2 ^ 32 ≤ u * d := by omega
  have hvpos : 0 ≤ v := by
    rw [hv]
    exact Int.ediv_nonneg (mul_nonneg hu (by omega)) (by norm_num)
  have hupper : 2 ^ 64 * (x * v) ≤ x * u * (2 ^ 65 - x * u + 2 ^ 32) :=
    calc 2 ^ 64 * (x * v) = x * (v * 2 ^ 32) * 2 ^ 32 := by ring
      _ ≤ x * (u * d) * 2 ^ 32 := mul_le_mul_of_nonneg_right (mul_le_mul_of_nonneg_left hvhigh (by omega)) (by norm_num)
      _ = x * u * (d * 2 ^ 32) := by ring
      _ ≤ x * u * (2 ^ 65 - x * u + 2 ^ 32) := mul_le_mul_of_nonneg_left hdhigh hpos
  have hlower : x * u * (2 ^ 65 - x * u) ≤ 2 ^ 64 * (x * v) + 2 ^ 64 * x :=
    calc x * u * (2 ^ 65 - x * u) ≤ x * u * (d * 2 ^ 32) := mul_le_mul_of_nonneg_left hdlow hpos
      _ = x * (u * d) * 2 ^ 32 := by ring
      _ ≤ x * (v * 2 ^ 32 + 2 ^ 32) * 2 ^ 32 :=
          mul_le_mul_of_nonneg_right (mul_le_mul_of_nonneg_left hvlow (by omega)) (by norm_num)
      _ = 2 ^ 64 * (x * v) + 2 ^ 64 * x := by ring
  have hsquare : 0 ≤ (2 ^ 64 - x * u) ^ 2 := sq_nonneg _
  have hrest : -2 ^ 33 ≤ 2 ^ 64 - x * v := by nlinarith
  have hvbound : 3 * v ≤ x * v := mul_le_mul_of_nonneg_right hx3 hvpos
  refine ⟨v, ?_, hvpos, hrest, by nlinarith⟩
  rw [newton, hdiff, Option.map_some, ← hd, sllmul_of_fits hfitsu ⟨by omega, by omega⟩ ⟨by omega, by omega⟩, hv]

/-! ## Six steps -/

/-- **A bound and the next one.** What is left, as a part `a` of `2 ^ 64` and `c` times `x`. -/
theorem left_next {x r r' : ℤ} {a c : ℚ} (hx0 : 0 ≤ x) (hx : x ≤ 3 * 2 ^ 60) (ha : 1 / 2 ^ 31 ≤ a) (hc : 0 ≤ c)
    (hlow : -2 ^ 33 ≤ r) (hr : (r : ℚ) ≤ a * 2 ^ 64 + c * x) (hstep : 2 ^ 64 * r' ≤ r ^ 2 + 2 ^ 64 * x) :
    (r' : ℚ) ≤ a ^ 2 * 2 ^ 64 + (2 * a * c + 1 + 3 / 16 * c ^ 2) * x := by
  have hx0' : (0 : ℚ) ≤ x := by exact_mod_cast hx0
  have hx' : (x : ℚ) ≤ 3 * 2 ^ 60 := by exact_mod_cast hx
  have hlow' : -2 ^ 33 ≤ (r : ℚ) := by exact_mod_cast hlow
  have hstep' : 2 ^ 64 * (r' : ℚ) ≤ (r : ℚ) ^ 2 + 2 ^ 64 * x := by exact_mod_cast hstep
  have hcx : 0 ≤ c * x := mul_nonneg hc hx0'
  have hneg : -(a * 2 ^ 64 + c * x) ≤ (r : ℚ) := by linarith
  have hsquare : (r : ℚ) ^ 2 ≤ (a * 2 ^ 64 + c * x) ^ 2 := sq_le_sq' hneg hr
  have htop : (c * x) ^ 2 ≤ 3 / 16 * c ^ 2 * x * 2 ^ 64 :=
    calc (c * x) ^ 2 = c ^ 2 * x * x := by ring
      _ ≤ c ^ 2 * x * (3 * 2 ^ 60) := mul_le_mul_of_nonneg_left hx' (mul_nonneg (sq_nonneg c) hx0')
      _ = 3 / 16 * c ^ 2 * x * 2 ^ 64 := by ring
  have hsum : 2 ^ 64 * (r' : ℚ) ≤ 2 ^ 64 * (a ^ 2 * 2 ^ 64 + (2 * a * c + 1 + 3 / 16 * c ^ 2) * x) := by
    calc 2 ^ 64 * (r' : ℚ) ≤ (a * 2 ^ 64 + c * x) ^ 2 + 2 ^ 64 * x := hstep'.trans (by linarith)
      _ = (c * x) ^ 2 + (a ^ 2 * 2 ^ 128 + 2 * a * c * x * 2 ^ 64 + 2 ^ 64 * x) := by ring
      _ ≤ 3 / 16 * c ^ 2 * x * 2 ^ 64 + (a ^ 2 * 2 ^ 128 + 2 * a * c * x * 2 ^ 64 + 2 ^ 64 * x) := by linarith
      _ = 2 ^ 64 * (a ^ 2 * 2 ^ 64 + (2 * a * c + 1 + 3 / 16 * c ^ 2) * x) := by ring
  exact le_of_mul_le_mul_left hsum (by norm_num)

/-- Approximations of which each is what a step makes of the one before. -/
structure Steps (x : ℤ) (u : ℕ → ℤ) : Prop where
  step : ∀ i, newton x (u i) = some (u (i + 1))
  nonneg : ∀ i, 0 ≤ u i
  low : ∀ i, -2 ^ 33 ≤ left x (u i)
  square : ∀ i, 2 ^ 64 * left x (u (i + 1)) ≤ left x (u i) ^ 2 + 2 ^ 64 * x

/-- Every step can be made. -/
theorem exists_steps {x s : ℤ} (hx3 : 3 ≤ x) (hx : x < 2 ^ 63) (hs : 0 ≤ s) (hleft : -2 ^ 33 ≤ left x s) :
    ∃ u, u 0 = s ∧ Steps x u := by
  have hnext : ∀ v : {v : ℤ // 0 ≤ v ∧ -2 ^ 33 ≤ left x v}, ∃ v' : {v : ℤ // 0 ≤ v ∧ -2 ^ 33 ≤ left x v},
      newton x v = some v'.1 ∧ 2 ^ 64 * left x v' ≤ left x v ^ 2 + 2 ^ 64 * x := fun v => by
    obtain ⟨v', hnewton, hpos, hlow, hsquare⟩ := newton_step hx3 hx v.2.1 v.2.2
    exact ⟨⟨v', hpos, hlow⟩, hnewton, hsquare⟩
  choose next hnewton hsquare using hnext
  refine ⟨fun i => (next^[i] ⟨s, hs, hleft⟩).1, rfl, ?_⟩
  constructor
  case step =>
    intro i
    rw [Function.iterate_succ_apply']
    exact hnewton _
  case nonneg => exact fun i => (next^[i] _).2.1
  case low => exact fun i => (next^[i] _).2.2
  case square =>
    intro i
    rw [Function.iterate_succ_apply']
    exact hsquare _

namespace Steps

variable {x : ℤ} {u : ℕ → ℤ}

/-- Below three sixteenths of `2 ^ 64` six steps are enough. -/
theorem left_six (h : Steps x u) (hx0 : 0 ≤ x) (hx : x ≤ 3 * 2 ^ 60) (hstart : left x (u 0) ≤ 2 ^ 63 + x) :
    left x (u 6) ≤ 4 * x + 2 ^ 33 := by
  have hx0' : (0 : ℚ) ≤ x := by exact_mod_cast hx0
  have h0 : (left x (u 0) : ℚ) ≤ 1 / 2 * 2 ^ 64 + 1 * x := by
    have hcast : (left x (u 0) : ℚ) ≤ 2 ^ 63 + x := by exact_mod_cast hstart
    linarith
  have hnext : ∀ (i : ℕ) {a c : ℚ}, 1 / 2 ^ 31 ≤ a → 0 ≤ c → (left x (u i) : ℚ) ≤ a * 2 ^ 64 + c * x →
      (left x (u (i + 1)) : ℚ) ≤ a ^ 2 * 2 ^ 64 + (2 * a * c + 1 + 3 / 16 * c ^ 2) * x :=
    fun i _ _ ha hc hr => left_next hx0 hx ha hc (h.low i) hr (h.square i)
  have h1 : (left x (u 1) : ℚ) ≤ 1 / 4 * 2 ^ 64 + 9 / 4 * x := (hnext 0 (by norm_num) (by norm_num) h0).trans (by linarith)
  have h2 : (left x (u 2) : ℚ) ≤ 1 / 16 * 2 ^ 64 + 25 / 8 * x := (hnext 1 (by norm_num) (by norm_num) h1).trans (by linarith)
  have h3 : (left x (u 3) : ℚ) ≤ 1 / 256 * 2 ^ 64 + 13 / 4 * x := (hnext 2 (by norm_num) (by norm_num) h2).trans (by linarith)
  have h4 : (left x (u 4) : ℚ) ≤ 1 / 2 ^ 16 * 2 ^ 64 + 13 / 4 * x := (hnext 3 (by norm_num) (by norm_num) h3).trans (by linarith)
  have h5 : (left x (u 5) : ℚ) ≤ 1 / 2 ^ 31 * 2 ^ 64 + 13 / 4 * x := (hnext 4 (by norm_num) (by norm_num) h4).trans (by linarith)
  have h6 : (left x (u 6) : ℚ) ≤ 4 * x + 2 ^ 33 := (hnext 5 (by norm_num) (by norm_num) h5).trans (by linarith)
  exact_mod_cast h6

/-- A half of `2 ^ 64` is never exceeded again. -/
theorem left_le_half (h : Steps x u) (hx : x ≤ 2 ^ 62) (hstart : left x (u 0) ≤ 2 ^ 63) : ∀ i, left x (u i) ≤ 2 ^ 63 := by
  intro i
  induction i with
  | zero => exact hstart
  | succ i ih =>
    have hsquare : left x (u i) ^ 2 ≤ (2 ^ 63) ^ 2 := sq_le_sq' (by linarith [h.low i]) ih
    linarith [h.square i]

end Steps

/-! ## Accuracy -/

/-- The first approximation is below the reciprocal, and more than half of it. -/
theorem start_eq {x : ℤ} (hx0 : 0 < x) (hx : x < 2 ^ 63) :
    ∃ bits, 0 < bits ∧ bits ≤ 63 ∧ 2 ^ (bits - 1) ≤ x ∧ x < 2 ^ bits ∧
      startLoop 65 (toUll x).toNat (toUll (-1)).toNat = some (2 ^ (64 - bits) - 1) := by
  obtain ⟨n, rfl⟩ := Int.eq_ofNat_of_zero_le hx0.le
  have hn : n ≠ 0 := by
    rintro rfl
    exact absurd hx0 (lt_irrefl _)
  have hnlt : n < 2 ^ 63 := by exact_mod_cast hx
  have hlow := Nat.pow_log_le_self 2 hn
  have hhigh := Nat.lt_pow_succ_log_self (by norm_num : 1 < 2) n
  have hlog : Nat.log 2 n < 63 := Nat.log_lt_of_lt_pow hn hnlt
  have hword : (toUll n).toNat = n := by
    unfold toUll
    omega
  have hfull : (2 ^ 64 - 1) / 2 ^ (Nat.log 2 n + 1) = 2 ^ (64 - (Nat.log 2 n + 1)) - 1 := by
    have hsplit : 2 ^ 64 = 2 ^ (Nat.log 2 n + 1) * 2 ^ (64 - (Nat.log 2 n + 1)) := by
      rw [← pow_add, Nat.add_sub_cancel' (by omega)]
    have hbits : 0 < 2 ^ (Nat.log 2 n + 1) := Nat.two_pow_pos _
    rw [hsplit]
    apply Nat.div_eq_of_lt_le
    · rw [Nat.sub_mul, one_mul, mul_comm]
      exact Nat.sub_le_sub_left hbits _
    · rw [Nat.sub_add_cancel (Nat.two_pow_pos _), mul_comm]
      exact Nat.sub_lt (Nat.mul_pos (Nat.two_pow_pos _) hbits) one_pos
  refine ⟨Nat.log 2 n + 1, by omega, by omega, by exact_mod_cast hlow, by exact_mod_cast hhigh, ?_⟩
  rw [hword, startLoop_eq (by omega) hhigh (Or.inr hlow)]
  exact congrArg some hfull

/-- **What six steps leave.** -/
theorem sllinvPositive_spec {x : ℤ} (hx3 : 3 ≤ x) (hx : x < 2 ^ 63) :
    ∃ u, sllinvPositive x = some u ∧ 0 ≤ u ∧ -2 ^ 33 ≤ left x u ∧ left x u ≤ 4 * x + 2 ^ 33 := by
  obtain ⟨bits, hpos, hbits, hlow, hhigh, hloop⟩ := start_eq (by omega) hx
  -- the first approximation fits, so that the conversion keeps it
  obtain ⟨k, hk⟩ : ∃ k, 64 - bits = k + 1 := ⟨63 - bits, by omega⟩
  have hsplit : (2 : ℤ) ^ bits * 2 ^ k = 2 ^ 63 := by
    rw [← pow_add]
    congr 1
    omega
  have hsplit' : (2 : ℤ) ^ (bits - 1) * 2 ^ k = 2 ^ 62 := by
    rw [← pow_add]
    congr 1
    omega
  have hkpos : (1 : ℤ) ≤ 2 ^ k := one_le_pow₀ (by norm_num)
  obtain ⟨s, hs⟩ : ∃ s : ℤ, s = 2 ^ k * 2 - 1 := ⟨_, rfl⟩
  have hcast : ((2 ^ (64 - bits) - 1 : ℕ) : ℤ) = s := by
    rw [hs, hk, pow_succ, Nat.cast_sub (Nat.mul_pos (Nat.two_pow_pos k) two_pos)]
    norm_num
  have hxk : x * 2 ^ k < 2 ^ 63 := hsplit ▸ mul_lt_mul_of_pos_right hhigh (by positivity)
  have hxk' : 2 ^ 62 ≤ x * 2 ^ k := hsplit' ▸ mul_le_mul_of_nonneg_right hlow (by positivity)
  have hstart : left x s = 2 ^ 64 - 2 * (x * 2 ^ k) + x := by
    rw [left, hs]
    ring
  have hsmall : 2 ^ k * 3 ≤ x * 2 ^ k := by
    rw [mul_comm]
    exact mul_le_mul_of_nonneg_right hx3 (by positivity)
  obtain ⟨u, hu0, hsteps⟩ := exists_steps (s := s) hx3 hx (by omega) (by rw [hstart]; omega)
  have hrun : sllinvPositive x = some (u 6) := by
    have hfits : int64 s = u 0 := hu0 ▸ int64_of_fits (by omega) (by omega)
    simp only [sllinvPositive, hloop, Option.bind_eq_bind, Option.bind_some, hcast, hfits, hsteps.step]
  refine ⟨u 6, hrun, hsteps.nonneg 6, hsteps.low 6, ?_⟩
  rcases le_or_gt x (3 * 2 ^ 60) with hsmallx | hbig
  · exact hsteps.left_six (by omega) hsmallx (by rw [hu0, hstart]; omega)
  · rcases lt_or_ge x (2 ^ 62) with hmid | htop
    · -- the first approximation is at least 3
      have hk0 : k ≠ 0 := by
        rintro rfl
        rw [pow_zero, mul_one] at hxk'
        omega
      have hk2 : (2 : ℤ) ≤ 2 ^ k := le_self_pow₀ (by norm_num) hk0
      have hdouble : x * 2 ≤ x * 2 ^ k := mul_le_mul_of_nonneg_left hk2 (by omega)
      have hhalf := hsteps.left_le_half hmid.le (by rw [hu0, hstart]; omega) 6
      omega
    · have hnonneg : 0 ≤ x * u 6 := mul_nonneg (by omega) (hsteps.nonneg 6)
      unfold left
      omega

/-- The reciprocal of the opposite number. -/
theorem sllinv_neg {x u : ℤ} (hx0 : 0 < x) (hx : x < 2 ^ 63) (hinv : sllinvPositive x = some u) (hu : Fits (-u)) :
    sllinv x = some u ∧ sllinv (-x) = some (-u) := by
  constructor
  · rw [sllinv, if_neg (by unfold CONST_0; omega), hinv]
  · have hneg : sllneg (-x) = some x := by
      rw [sllneg, neg_neg]
      exact signed_of_fits ⟨by omega, hx⟩
    rw [sllinv, if_pos (by unfold CONST_0; omega), hneg, Option.bind_eq_bind, Option.bind_some, hinv]
    exact signed_of_fits hu

/-- What is left of `2 ^ 64` bounds the reciprocal. -/
theorem le_of_left {x u : ℤ} (hx3 : 3 ≤ x) (hu : 0 ≤ u) (hleft : -2 ^ 33 ≤ left x u) : u < 2 ^ 63 := by
  have hbound : 3 * u ≤ x * u := mul_le_mul_of_nonneg_right hx3 hu
  unfold left at hleft
  omega

/-- **A quotient**, from a divisor that is positive and not too small for it. -/
theorem slldiv_spec {x y : ℤ} (hx : Fits x) (hy3 : 3 ≤ y) (hy : y < 2 ^ 63) (hxy : |x| ≤ 2 ^ 30 * y) :
    ∃ q, slldiv x y = some q ∧ |y * q - x * 2 ^ 32| * 2 ^ 32 ≤ |x| * (4 * y + 2 ^ 33) + y * 2 ^ 32 := by
  obtain ⟨u, hinv, hu, hlow, hhigh⟩ := sllinvPositive_spec hy3 hy
  have hubound := le_of_left hy3 hu hlow
  have hrun := (sllinv_neg (by omega) hy hinv ⟨by omega, by omega⟩).1
  have hyu : y * u ≤ 2 ^ 64 + 2 ^ 33 := by
    unfold left at hlow
    omega
  have hprod : |x * u| ≤ 2 ^ 30 * (2 ^ 64 + 2 ^ 33) := by
    rw [abs_mul, abs_of_nonneg hu]
    calc |x| * u ≤ 2 ^ 30 * y * u := mul_le_mul_of_nonneg_right hxy hu
      _ = 2 ^ 30 * (y * u) := by ring
      _ ≤ 2 ^ 30 * (2 ^ 64 + 2 ^ 33) := mul_le_mul_of_nonneg_left hyu (by norm_num)
  obtain ⟨hplow, hphigh⟩ := abs_le.mp hprod
  obtain ⟨q, hq⟩ : ∃ q, q = x * u / 2 ^ 32 := ⟨_, rfl⟩
  have hqlow : x * u ≤ q * 2 ^ 32 + 2 ^ 32 := by omega
  have hqhigh : q * 2 ^ 32 ≤ x * u := by omega
  refine ⟨q, ?_, ?_⟩
  · rw [slldiv, hrun, Option.map_some, sllmul_of_fits hx ⟨by omega, by omega⟩ ⟨by omega, by omega⟩, hq]
  · have hrest : |x * left y u| ≤ |x| * (4 * y + 2 ^ 33) := by
      rw [abs_mul]
      exact mul_le_mul_of_nonneg_left (abs_le.mpr ⟨by omega, hhigh⟩) (abs_nonneg x)
    obtain ⟨hrlow, hrhigh⟩ := abs_le.mp hrest
    have hsplit : y * (x * u) = x * 2 ^ 64 - x * left y u := by
      unfold left
      ring
    have hlower : y * (x * u) ≤ y * (q * 2 ^ 32 + 2 ^ 32) := mul_le_mul_of_nonneg_left hqlow (by omega)
    have hupper : y * (q * 2 ^ 32) ≤ y * (x * u) := mul_le_mul_of_nonneg_left hqhigh (by omega)
    rw [← abs_of_pos (by norm_num : (0 : ℤ) < 2 ^ 32), ← abs_mul, abs_of_pos (by norm_num : (0 : ℤ) < 2 ^ 32)]
    apply abs_le.mpr
    constructor
    · linarith
    · linarith

/-- **`sllinv` is defined, odd and accurate.** -/
theorem sllinv_accurate {x : ℤ} (hx3 : 3 ≤ |x|) (hx : |x| ≤ 2 ^ 63 - 1) :
    ∃ u, sllinv x = some u ∧ sllinv (-x) = some (-u) ∧
      -2 ^ 33 ≤ 2 ^ 64 - |x| * |u| ∧ 2 ^ 64 - |x| * |u| ≤ 4 * |x| + 2 ^ 33 := by
  obtain ⟨u, hinv, hu, hlow, hhigh⟩ := sllinvPositive_spec hx3 (by omega)
  have hbound := le_of_left hx3 hu hlow
  obtain ⟨hpos, hneg⟩ := sllinv_neg (by omega) (by omega) hinv ⟨by omega, by omega⟩
  rcases abs_cases x with ⟨habs, _⟩ | ⟨habs, _⟩
  · rw [habs] at hpos hneg
    refine ⟨u, hpos, hneg, ?_⟩
    rw [abs_of_nonneg hu]
    exact ⟨hlow, hhigh⟩
  · rw [habs] at hpos hneg
    rw [neg_neg] at hneg
    refine ⟨-u, hneg, by rw [neg_neg, hpos], ?_⟩
    rw [abs_neg, abs_of_nonneg hu]
    exact ⟨hlow, hhigh⟩

/-- The reciprocal of `-3`. -/
theorem sllinv_accurate_three :
    ∃ u, sllinv (-0x300000000) = some u ∧ sllinv (- -0x300000000) = some (-u) ∧
      -2 ^ 33 ≤ 2 ^ 64 - |(-0x300000000 : ℤ)| * |u| ∧
      2 ^ 64 - |(-0x300000000 : ℤ)| * |u| ≤ 4 * |(-0x300000000 : ℤ)| + 2 ^ 33 :=
  sllinv_accurate (by decide) (by decide)

end CoreLink.FpMath
