/-
# `CoreLink.RtThread.MinilibcTime` — `gmtime_r` and `mktime` of `components/libc/compilers/minilibc/time.c`.

The integers are exact: `time_t` and the fields of `struct tm` do not wrap. A read of `__spm` outside of its 13 entries has no
result. The loops of the source are total functions here, so both functions terminate on every input.

`gmtime_r` takes whole years off and looks the month up in a table without leap years, with a patch for February 29
(`gmtimeR_spec`); `mktime` has a closed formula for the days in front of a year, which is right in every century
(`mktimeDays_eq`).
-/
import CoreLink.Lib.Gregorian

namespace CoreLink.RtThread.Minilibc

open CoreLink.Lib.Gregorian

/-! ## The functions -/

/-- `struct tm`, without the fields that neither function uses. -/
structure Tm where
  sec : ℤ
  min : ℤ
  hour : ℤ
  mday : ℤ
  mon : ℤ
  year : ℤ
  wday : ℤ
  yday : ℤ
  deriving DecidableEq

/-- `__spm`. -/
def spm : List ℤ := [0, 31, 59, 90, 120, 151, 181, 212, 243, 273, 304, 334, 365]

/-- `__spm[i]`. -/
def spmAt (i : ℤ) : Option ℤ := if i < 0 then none else spm[i.toNat]?

/-- `__isleap`. -/
def isleap (year : ℤ) : Bool := year % 4 == 0 && (year % 100 != 0 || year % 400 == 0)

/-- The days of a year. -/
def yearDays (year : ℤ) : ℤ := if isleap year then 366 else 365

theorem yearDays_pos (year : ℤ) : 0 < yearDays year := by
  unfold yearDays
  split <;> omega

/-- The loop of `gmtime_r` over the years. -/
def yearLoop (i work : ℤ) : ℤ × ℤ := if yearDays i ≤ work then yearLoop (i + 1) (work - yearDays i) else (i, work)
termination_by work.toNat
decreasing_by
  have hpos := yearDays_pos i
  omega

/-- The loop of `gmtime_r` over the months: `for (i = 11; i && (__spm[i] > work); --i)`. -/
def monthLoop (work : ℤ) : ℕ → Option ℕ
  | 0 => some 0
  | i + 1 => (spmAt (i + 1)).bind fun s => if work < s then monthLoop work i else some (i + 1)

/-- `gmtime_r`. -/
def gmtimeR (timep : ℤ) : Option Tm :=
  let work := timep.tmod 86400
  let days := timep.tdiv 86400
  let year := yearLoop 1970 days
  let behind := isleap year.1 && decide (58 < year.2)
  let mday := if behind && year.2 == 59 then 2 else 1
  let day := if behind then year.2 - 1 else year.2
  (monthLoop day 11).bind fun mon => (spmAt mon).map fun s =>
    { sec := work.tmod 60, min := (work.tdiv 60).tmod 60, hour := (work.tdiv 60).tdiv 60, mday := mday + (day - s), mon := mon,
      year := year.1 - 1900, wday := (4 + days).tmod 7, yday := year.2 }

/-- A carry of `mktime`, of a field into the next one. -/
def carry (range lo hi : ℤ) : ℤ × ℤ := if range < lo then (lo.tmod range, hi + lo.tdiv range) else (lo, hi)

/-- `mktime` up to its loop: seconds, minutes, hours and months are carried. -/
def carried (t : Tm) : Tm :=
  let sec := carry 60 t.sec t.min
  let min := carry 60 sec.2 t.hour
  let hour := carry 24 min.2 t.mday
  let mon := carry 12 t.mon t.year
  { t with sec := sec.1, min := min.1, hour := hour.1, mday := hour.2, mon := mon.1, year := mon.2 }

/-- A round of the loop of `mktime`, when the sum of the months in front is `s`. -/
def dayRound (t : Tm) (s : ℤ) : Tm :=
  let mday := (if t.mon = 1 ∧ isleap (t.year + 1900) then t.mday - 1 else t.mday) - s
  if 11 < t.mon + 1 then { t with mday := mday, mon := 0, year := t.year + 1 } else { t with mday := mday, mon := t.mon + 1 }

theorem spmAt_range {i s : ℤ} (h : spmAt i = some s) : 0 ≤ i ∧ i ≤ 12 ∧ 0 ≤ s ∧ 31 * i ≤ s + 7 ∧ s ≤ 31 * i := by
  unfold spmAt at h
  split at h
  · cases h
  · rename_i hi
    obtain ⟨n, rfl⟩ := Int.eq_ofNat_of_zero_le (Int.not_lt.mp hi)
    obtain ⟨hlt, rfl⟩ := List.getElem?_eq_some_iff.mp h
    have hall : ∀ n (hn : n < spm.length), 0 ≤ spm[n] ∧ 31 * (n : ℤ) ≤ spm[n] + 7 ∧ spm[n] ≤ 31 * (n : ℤ) := by decide
    have hn : n < 13 := hlt
    exact ⟨by omega, by omega, hall n hlt⟩

theorem dayRound_mday (t : Tm) (s : ℤ) :
    (dayRound t s).mday = (if t.mon = 1 ∧ isleap (t.year + 1900) then t.mday - 1 else t.mday) - s := by
  unfold dayRound
  dsimp only
  split <;> rfl

theorem dayRound_mon (t : Tm) (s : ℤ) : (dayRound t s).mon = if 11 < t.mon + 1 then 0 else t.mon + 1 := by
  unfold dayRound
  dsimp only
  split <;> rfl

/-- A round makes progress: the day of the month gets smaller, or January is left. -/
theorem dayRound_lt {t : Tm} {bound s : ℤ} (hbound : spmAt (1 + t.mon) = some bound) (hlt : bound < t.mday)
    (hs : spmAt t.mon = some s) :
    2 * (dayRound t s).mday.toNat + (if (dayRound t s).mon = 0 then 1 else 0) < 2 * t.mday.toNat + if t.mon = 0 then 1 else 0 := by
  have hb := spmAt_range hbound
  have hr := spmAt_range hs
  rw [dayRound_mday, dayRound_mon]
  have hmday : (if t.mon = 1 ∧ isleap (t.year + 1900) then t.mday - 1 else t.mday) ≤ t.mday := by split <;> omega
  generalize (if t.mon = 1 ∧ isleap (t.year + 1900) then t.mday - 1 else t.mday) = mday at hmday ⊢
  by_cases hdec : 11 < t.mon + 1
  · rw [if_pos hdec, if_pos rfl, if_neg (by omega)]
    omega
  · rw [if_neg hdec, if_neg (show ¬t.mon + 1 = 0 by omega)]
    split <;> omega

/-- The loop of `mktime` over the days. -/
def dayLoop (t : Tm) : Option Tm :=
  match _hbound : spmAt (1 + t.mon) with
  | none => none
  | some bound =>
    if _hlt : bound < t.mday then
      match _hs : spmAt t.mon with
      | none => none
      | some s => dayLoop (dayRound t s)
    else some t
termination_by 2 * t.mday.toNat + if t.mon = 0 then 1 else 0
decreasing_by exact dayRound_lt _hbound _hlt _hs

/-- The days in front of a year, as `mktime` computes them from the years since 1970. -/
def mktimeDays (years : ℤ) : ℤ :=
  let day := years * 365 + (years + 1).tdiv 4
  if 131 ≤ years then
    let centuries := (years - 131).tdiv 100
    let rest := centuries % 4
    day - (centuries / 4 * 3 + 1) - if rest = 3 then rest - 1 else rest
  else day

/-- `mktime`: its result, and the fields behind it. -/
def mktime (t : Tm) : Option (ℤ × Tm) :=
  let years := t.year - 70
  (dayLoop (carried t)).bind fun t =>
    if t.year < 70 then some (-1, t)
    else (spmAt t.mon).map fun s =>
      let yday := s + t.mday - 1 + if isleap (t.year + 1900) && decide (1 < t.mon) then 1 else 0
      let day := mktimeDays years + yday
      (((day * 24 + t.hour) * 60 + t.min) * 60 + t.sec, { t with wday := (day + 4).tmod 7, yday := yday })

/-! ## The tables and the calendar -/

theorem isleap_iff (y : ℤ) : isleap y = true ↔ IsLeap y := by
  simp only [isleap, IsLeap, Bool.and_eq_true, Bool.or_eq_true, beq_iff_eq, bne_iff_ne]
  omega

theorem yearDays_eq (y : ℤ) : yearDays y = yearLength y := by
  simp only [yearDays, yearLength, isleap_iff]

/-- A day behind February in a leap year. -/
def leapDay (y : ℤ) (m : ℕ) : ℤ := if 1 < m ∧ IsLeap y then 1 else 0

/-- **The table**: the days in front of a month, without the leap day. -/
theorem spmAt_eq (y : ℤ) {m : ℕ} (hm : m ≤ 12) : spmAt m = some (before (monthLength y) m - leapDay y m) := by
  obtain rfl | rfl | rfl | rfl | rfl | rfl | rfl | rfl | rfl | rfl | rfl | rfl | rfl : m = 0 ∨ m = 1 ∨ m = 2 ∨ m = 3 ∨ m = 4 ∨
      m = 5 ∨ m = 6 ∨ m = 7 ∨ m = 8 ∨ m = 9 ∨ m = 10 ∨ m = 11 ∨ m = 12 := by omega
  all_goals
    by_cases hleap : IsLeap y <;> simp [spmAt, spm, before, monthLength, leapDay, hleap]

/-! ## The days in front of a year -/

/-- The leap days up to a year, with the correction for the centuries behind 2100. -/
theorem mktimeDays_of_nonneg {n : ℤ} (hn : 0 ≤ n) : mktimeDays n =
    n * 365 + (n + 1) / 4 - if 131 ≤ n then (n - 131) / 100 / 4 * 3 + 1 + min 2 ((n - 131) / 100 % 4) else 0 := by
  unfold mktimeDays
  dsimp only
  rw [Int.tdiv_eq_ediv_of_nonneg (by omega)]
  split
  · rw [Int.tdiv_eq_ediv_of_nonneg (by omega)]
    split <;> omega
  · omega

theorem yearLength_eq (y : ℤ) : yearLength y = 365 + if y % 4 = 0 ∧ (y % 100 = 0 → y % 400 = 0) then 1 else 0 := by
  by_cases hleap : IsLeap y
  · rw [yearLength, if_pos hleap]
    unfold IsLeap at hleap
    rw [if_pos (by omega)]
    rfl
  · rw [yearLength, if_neg hleap]
    unfold IsLeap at hleap
    rw [if_neg (by omega)]
    rfl

/-- A year more. -/
theorem mktimeDays_succ {n : ℤ} (hn : 0 ≤ n) : mktimeDays (n + 1) = mktimeDays n + yearLength (1970 + n) := by
  rw [mktimeDays_of_nonneg hn, mktimeDays_of_nonneg (by omega), yearLength_eq]
  by_cases h130 : n < 130
  · rw [if_neg (by omega), if_neg (by omega)]
    split <;> omega
  by_cases h131 : n = 130
  · subst h131
    decide
  rw [if_pos (by omega), if_pos (by omega)]
  -- 2100 is year 130, so the centuries are counted from 131 on
  by_cases hcentury : (n - 131) % 100 = 99
  · rw [show (n + 1 - 131) / 100 = (n - 131) / 100 + 1 by omega]
    split <;> omega
  · rw [show (n + 1 - 131) / 100 = (n - 131) / 100 by omega]
    split <;> omega

/-- **The closed formula** counts the days in front of a year, in every century. -/
theorem mktimeDays_eq (n : ℕ) : mktimeDays n = before (fun i => yearLength (1970 + i)) n := by
  induction n with
  | zero => rfl
  | succ n ih => rw [before_succ, ← ih, Nat.cast_succ, mktimeDays_succ (by omega)]

/-! ## `gmtime_r` -/

section Gmtime

variable {y i work day yday t : ℤ} {m n : ℕ}

/-- **The loop over the years** ends in the year that the day lies in. -/
theorem yearLoop_spec (i work : ℤ) (hwork : 0 ≤ work) : ∃ n : ℕ,
    yearLoop i work = (i + n, work - before (fun j => yearLength (i + j)) n) ∧
      0 ≤ work - before (fun j => yearLength (i + j)) n ∧
      work - before (fun j => yearLength (i + j)) n < yearLength (i + n) := by
  induction i, work using yearLoop.induct with
  | case1 i work hle ih =>
    obtain ⟨n, hloop, hlow, hhigh⟩ := ih (by omega)
    have hbefore : before (fun j : ℕ => yearLength (i + j)) (n + 1) =
        yearDays i + before (fun j : ℕ => yearLength (i + 1 + j)) n := by
      rw [before_succ', Nat.cast_zero, add_zero, yearDays_eq]
      have hshift : (fun j : ℕ => yearLength (i + ((j + 1 : ℕ) : ℤ))) = fun j : ℕ => yearLength (i + 1 + j) := by
        funext j
        exact congrArg yearLength (by omega)
      rw [hshift]
    have hyear : i + 1 + (n : ℤ) = i + ((n + 1 : ℕ) : ℤ) := by omega
    have hrest : work - yearDays i - before (fun j : ℕ => yearLength (i + 1 + j)) n =
        work - before (fun j : ℕ => yearLength (i + j)) (n + 1) := by omega
    rw [hyear, hrest] at hloop hhigh
    rw [hrest] at hlow
    rw [yearLoop, if_pos hle]
    exact ⟨n + 1, hloop, hlow, hhigh⟩
  | case2 i work hlt =>
    rw [yearDays_eq] at hlt
    rw [yearLoop, yearDays_eq, if_neg hlt]
    exact ⟨0, by simp, by simpa using hwork, by simpa using hlt⟩

/-- The entry of a month in the table. -/
def entry (y : ℤ) (m : ℕ) : ℤ := before (monthLength y) m - leapDay y m

/-- **The loop over the months** ends at the last entry that is not above the day. -/
theorem monthLoop_spec (y : ℤ) (hday : 0 ≤ day) (hm : m ≤ 11) :
    ∃ n ≤ m, monthLoop day m = some n ∧ entry y n ≤ day ∧ (n < m → day < entry y (n + 1)) := by
  induction m with
  | zero => exact ⟨0, Nat.le_refl 0, rfl, by simpa [entry, leapDay] using hday, fun h => absurd h (Nat.lt_irrefl 0)⟩
  | succ m ih =>
    have hentry : spmAt (m + 1) = some (entry y (m + 1)) := spmAt_eq y (Nat.le_succ_of_le hm)
    rw [monthLoop, hentry, Option.bind_some]
    split
    · rename_i hlt
      obtain ⟨n, hn, hloop, hlow, hhigh⟩ := ih (by omega)
      refine ⟨n, Nat.le_succ_of_le hn, hloop, hlow, fun _ => ?_⟩
      obtain hlt' | rfl := Nat.lt_or_eq_of_le hn
      · exact hhigh hlt'
      · exact hlt
    · rename_i hle
      exact ⟨m + 1, Nat.le_refl _, rfl, not_lt.mp hle, fun h => absurd h (Nat.lt_irrefl _)⟩

/-- **The patch for February 29**: the month and the day in it that `gmtime_r` makes of a day of the year. -/
theorem monthDay_spec (hlow : 0 ≤ yday) (hhigh : yday < yearLength y)
    (hday : day = if isleap y && decide (58 < yday) then yday - 1 else yday) (hn : n ≤ 11) (hentry : entry y n ≤ day)
    (hnext : n < 11 → day < entry y (n + 1)) {mday : ℤ}
    (hmday : mday = (if (isleap y && decide (58 < yday)) && yday == 59 then 2 else 1) + (day - entry y n)) :
    1 ≤ mday ∧ mday ≤ monthLength y n ∧ before (monthLength y) n + (mday - 1) = yday := by
  have hiff := isleap_iff y
  rw [yearLength_eq] at hhigh
  obtain rfl | rfl | rfl | rfl | rfl | rfl | rfl | rfl | rfl | rfl | rfl | rfl : n = 0 ∨ n = 1 ∨ n = 2 ∨ n = 3 ∨ n = 4 ∨
      n = 5 ∨ n = 6 ∨ n = 7 ∨ n = 8 ∨ n = 9 ∨ n = 10 ∨ n = 11 := by omega
  all_goals
    by_cases hleap : IsLeap y
    · have hy := hiff.mpr hleap
      simp [entry, before, monthLength, leapDay, hleap, hy] at hday hentry hnext hmday ⊢
      unfold IsLeap at hleap
      split at hhigh <;> split at hday <;> split at hmday <;> omega
    · have hy : isleap y = false := by
        cases hy : isleap y with
        | false => rfl
        | true => exact absurd (hiff.mp hy) hleap
      simp [entry, before, monthLength, leapDay, hleap, hy] at hday hentry hnext hmday ⊢
      unfold IsLeap at hleap
      split at hhigh <;> omega

end Gmtime


/-! ## Dates and times -/

/-- The fields of a time, on a date. -/
def utc (t : ℤ) (d : Date) : Tm :=
  { sec := t % 60, min := t / 60 % 60, hour := t / 3600 % 24, mday := d.day, mon := d.month, year := d.year - 1900,
    wday := (4 + t / 86400) % 7, yday := d.yday }

/-- **The UTC date and time** of `t` seconds since 1970. January 1, 1970 was a Thursday. -/
def IsUtc (t : ℤ) (tm : Tm) : Prop := ∃ d : Date, 1970 ≤ d.year ∧ d.number 1970 = t / 86400 ∧ tm = utc t d

theorem gmtimeR_spec {t : ℤ} (ht : 0 ≤ t) : ∃ tm, gmtimeR t = some tm ∧ IsUtc t tm := by
  have hdays : 0 ≤ t / 86400 := Int.ediv_nonneg ht (by decide)
  obtain ⟨n, hyear, hlow, hhigh⟩ := yearLoop_spec 1970 (t / 86400) hdays
  generalize hyday : t / 86400 - before (fun j : ℕ => yearLength (1970 + j)) n = yday at hyear hlow hhigh
  have hday : 0 ≤ if isleap (1970 + n) && decide (58 < yday) then yday - 1 else yday := by
    split
    · rename_i h
      have hlt := of_decide_eq_true (Bool.and_eq_true _ _ ▸ h).2
      omega
    · exact hlow
  obtain ⟨m, hm, hmonth, hentry, hnext⟩ := monthLoop_spec (1970 + n) hday (Nat.le_refl 11)
  obtain ⟨hone, hlast, hnumber⟩ := monthDay_spec hlow hhigh rfl hm hentry hnext rfl
  have htable : spmAt m = some (entry (1970 + n) m) := spmAt_eq (1970 + n) (by omega)
  have hn : (1970 + (n : ℤ) - 1970).toNat = n := by omega
  refine ⟨_, ?_, ⟨1970 + n, m, _, Nat.lt_succ_of_le hm, hone, hlast⟩, by dsimp only; omega, ?_, rfl⟩
  · simp only [gmtimeR, Int.tdiv_eq_ediv_of_nonneg ht, Int.tmod_eq_emod_of_nonneg ht, hyear, hmonth, htable, Option.bind_some,
      Option.map_some, Option.some_inj, utc, Date.yday, hnumber]
    rw [Int.tmod_eq_emod_of_nonneg (by omega), Int.tdiv_eq_ediv_of_nonneg (by omega), Int.tmod_eq_emod_of_nonneg (by omega),
      Int.tdiv_eq_ediv_of_nonneg (by omega), Int.tmod_eq_emod_of_nonneg (by omega),
      show t % 86400 % 60 = t % 60 by omega, show t % 86400 / 60 % 60 = t / 60 % 60 by omega,
      show t % 86400 / 60 / 60 = t / 3600 % 24 by omega]
  · rw [Date.number, Date.yday, hnumber]
    dsimp only
    rw [hn]
    omega

end CoreLink.RtThread.Minilibc
