/-
# `CoreLink.RtThread.ClockTime` — the realtime clock of `components/libc/time/clock_time.c`.

`int` and `long` have 32 bits: a result that does not fit is wrapped by `int32`. Without `RT_USING_CPUTIME` the only clock is
`CLOCK_REALTIME`.

`clock_settime` stores the time set, minus the ticks that have gone by and with a second borrowed for the fraction, but
`clock_gettime` never carries that second back, and the nanoseconds set are not stored at all: `clock_realtime_right` says
when the time read is right nevertheless. `clock_time_to_tick` multiplies nanoseconds by the ticks of a second before it
divides, in 32 bits: `clock_time_to_tick_right` says when the number of ticks is right.
-/
import CoreLink.Lib.SignedWord
import Mathlib.Tactic.Ring
import Mathlib.Tactic.Linarith

namespace CoreLink.RtThread.ClockTime

open CoreLink.Lib

/-! ## The clock -/

structure Timespec where
  tvSec : ℤ
  tvNsec : ℤ
  deriving DecidableEq

structure Timeval where
  tvSec : ℤ
  tvUsec : ℤ
  deriving DecidableEq

/-- `_timevalue`, `errno`, and the seconds of the device `rtc` if there is one. -/
structure Clock where
  timevalue : Timeval
  errno : ℤ
  rtc : Option ℤ
  deriving DecidableEq

def einval : ℤ := 22

def clockRealtime : ℤ := 1

/-- `MICROSECOND_PER_TICK`; `tps` is `RT_TICK_PER_SECOND`. -/
def microsecondPerTick (tps : ℤ) : ℤ := 1000000 / tps

/-- `clock_time_system_init`. -/
def clockTimeSystemInit (tps tick : ℤ) (c : Clock) : Clock :=
  { c with timevalue := ⟨int32 (c.rtc.getD 0 - tick / tps - 1), int32 (tick % tps * microsecondPerTick tps)⟩ }

/-- What `clock_gettime` stores for `CLOCK_REALTIME`. The tick is an `int` there. -/
def realtime (tps tick : ℤ) (timevalue : Timeval) : Timespec :=
  let tick := int32 tick
  ⟨int32 (timevalue.tvSec + tick.tdiv tps),
    int32 ((timevalue.tvUsec + tick.tmod tps * microsecondPerTick tps) * 1000)⟩

/-- `clock_gettime`: its result, what it stores through `tp` if that is not null, and the clock. -/
def clockGettime (tps tick clockid : ℤ) (tp : Bool) (c : Clock) : ℤ × Option Timespec × Clock :=
  if tp = false then (-1, none, { c with errno := einval })
  else if clockid = clockRealtime then (0, some (realtime tps tick c.timevalue), c)
  else (-1, none, { c with errno := einval })

/-- `clock_settime`. The clock is set also when there is no device `rtc`. -/
def clockSettime (tps tick clockid : ℤ) (tp : Option Timespec) (c : Clock) : ℤ × Clock :=
  match tp with
  | none => (-1, { c with errno := einval })
  | some time =>
    if clockid ≠ clockRealtime then (-1, { c with errno := einval })
    else
      let second := int32 time.tvSec
      let timevalue : Timeval :=
        ⟨int32 (second - tick / tps - 1), int32 (1000000 - tick % tps * microsecondPerTick tps)⟩
      if c.rtc.isSome then (0, { c with timevalue := timevalue, rtc := some second })
      else (-1, { c with timevalue := timevalue })

/-- `clock_time_to_tick`, when `clock_gettime` has stored `tp`; with a null pointer and without assertions it is
`RT_WAITING_FOREVER`. The product with the ticks of a second is an `int`, the division by `NANOSECOND_PER_SECOND` unsigned. -/
def clockTimeToTick (tps : ℤ) (tp : Timespec) (time : Option Timespec) : ℤ :=
  match time with
  | none => -1
  | some time =>
    let borrow := decide (time.tvNsec - tp.tvNsec < 0)
    let nsecond := int32 (if borrow then 1000000000 - (tp.tvNsec - time.tvNsec) else time.tvNsec - tp.tvNsec)
    let second := int32 (if borrow then time.tvSec - tp.tvSec - 1 else time.tvSec - tp.tvSec)
    let tick := int32 (second * tps + nsecond * tps % 2 ^ 32 / 1000000000)
    if tick < 0 then 0 else tick

namespace Timespec

/-- A time of C, with less than a second in its nanoseconds. -/
structure Normalised (t : Timespec) : Prop where
  sec_low : -2 ^ 31 ≤ t.tvSec
  sec_high : t.tvSec < 2 ^ 31
  nsec_low : 0 ≤ t.tvNsec
  nsec_high : t.tvNsec < 1000000000

/-- The nanoseconds since the epoch. -/
def ns (t : Timespec) : ℤ := t.tvSec * 1000000000 + t.tvNsec

end Timespec

/-! ## Reading the clock -/

/-- The time that `clock_gettime` stores at tick `now`, when the time `s` has been set at tick `start`. -/
def timeRead (tps start now : ℤ) (s : Timespec) (c : Clock) : Option Timespec :=
  (clockGettime tps now clockRealtime true (clockSettime tps start clockRealtime (some s) c).2).2.1

/-- The time read is normalised, and the time set plus the ticks since then up to one tick. -/
def Follows (tps start now : ℤ) (s t : Timespec) : Prop :=
  t.Normalised ∧ |t.ns - (s.ns + (now - start) * (1000000000 / tps))| ≤ 1000000000 / tps

/-- **When the time read is right**: the fraction of a second of the later tick is the smaller one, no more than the
nanoseconds of one tick are set, and the seconds fit. -/
def ReadsRight (tps start now : ℤ) (s : Timespec) : Prop :=
  now % tps < start % tps ∧ s.tvNsec ≤ 1000000000 / tps ∧ s.tvSec + (now - start) / tps < 2 ^ 31

section Realtime

variable {tps start now : ℤ} {s : Timespec}

/-- What is stored of the time set. -/
theorem timeRead_eq (c : Clock) : timeRead tps start now s c = some (realtime tps now
    ⟨int32 (int32 s.tvSec - start / tps - 1), int32 (1000000 - start % tps * microsecondPerTick tps)⟩) := by
  cases hrtc : c.rtc <;> simp [timeRead, clockSettime, clockGettime, hrtc]

/-- Part of a second in ticks, and in microseconds. -/
theorem part_bounds {us r : ℤ} (hprod : tps * us = 1000000) (hus : 0 < us) (hlow : 0 ≤ r) (hhigh : r < tps) :
    0 ≤ r * us ∧ r * us + us ≤ 1000000 := by
  constructor
  · exact Int.mul_nonneg hlow hus.le
  · calc r * us + us = (r + 1) * us := by ring
      _ ≤ tps * us := Int.mul_le_mul_of_nonneg_right hhigh hus.le
      _ = 1000000 := hprod

/-- The ticks of a second divide it, so the units of the code are exact. -/
theorem exists_us (htps : 0 < tps) (hdvd : tps ∣ 1000000) :
    ∃ us, 0 < us ∧ tps * us = 1000000 ∧ microsecondPerTick tps = us ∧ 1000000000 / tps = us * 1000 := by
  obtain ⟨us, hprod⟩ := hdvd
  have hus : 0 < us := by
    by_contra hneg
    have hle : tps * us ≤ 0 := Int.mul_nonpos_of_nonneg_of_nonpos htps.le (by omega)
    omega
  refine ⟨us, hus, hprod.symm, ?_, ?_⟩
  · rw [microsecondPerTick, hprod, Int.mul_ediv_cancel_left _ htps.ne']
  · rw [show (1000000000 : ℤ) = tps * (us * 1000) by rw [← mul_assoc, ← hprod]; rfl, Int.mul_ediv_cancel_left _ htps.ne']

/-- **The time read**: the seconds without a carry, and the parts of a second of both ticks. -/
theorem realtime_settime {us : ℤ} (htps : 0 < tps) (hus : 0 < us) (hprod : tps * us = 1000000)
    (hmicro : microsecondPerTick tps = us) (hs : s.Normalised) (hnow : 0 ≤ now) (hmax : now < 2 ^ 31) :
    realtime tps now ⟨int32 (int32 s.tvSec - start / tps - 1), int32 (1000000 - start % tps * us)⟩ =
      ⟨int32 (s.tvSec + now / tps - start / tps - 1), 1000000000 + (now % tps * us - start % tps * us) * 1000⟩ := by
  obtain ⟨hslow, hshigh⟩ := part_bounds hprod hus (Int.emod_nonneg start htps.ne') (Int.emod_lt_of_pos start htps)
  obtain ⟨hnlow, hnhigh⟩ := part_bounds hprod hus (Int.emod_nonneg now htps.ne') (Int.emod_lt_of_pos now htps)
  have hsec : int32 (int32 (s.tvSec - start / tps - 1) + now / tps) = int32 (s.tvSec + now / tps - start / tps - 1) := by
    rw [int32_add]
    exact congrArg int32 (by ring)
  simp only [realtime, hmicro, int32_of_fits (show -2 ^ 31 ≤ now by omega) hmax, int32_of_fits hs.sec_low hs.sec_high,
    Int.tdiv_eq_ediv_of_nonneg hnow, Int.tmod_eq_emod_of_nonneg hnow, hsec,
    int32_of_fits (show -2 ^ 31 ≤ 1000000 - start % tps * us by omega) (by omega)]
  rw [int32_of_fits (show -2 ^ 31 ≤ (1000000 - start % tps * us + now % tps * us) * 1000 by omega) (by omega)]
  exact congrArg _ (by ring)

/-- The two residues are in the order of their products. -/
theorem residues_lt_iff {us a b : ℤ} (hus : 0 < us) : a * us < b * us ↔ a < b :=
  ⟨fun h => Int.lt_of_mul_lt_mul_right h hus.le, fun h => Int.mul_lt_mul_of_pos_right h hus⟩

/-- The seconds between the ticks, with a borrow. -/
theorem quotient_borrow (htps : 0 < tps) (hlt : now % tps < start % tps) :
    (now - start) / tps = now / tps - start / tps - 1 := by
  have hsplit : now - start = (tps + now % tps - start % tps) + tps * (now / tps - start / tps - 1) := by
    calc now - start = (tps * (now / tps) + now % tps) - (tps * (start / tps) + start % tps) := by
          rw [Int.mul_ediv_add_emod, Int.mul_ediv_add_emod]
      _ = _ := by ring
  have hnr := Int.emod_nonneg now htps.ne'
  have hsr := Int.emod_lt_of_pos start htps
  rw [hsplit, Int.add_mul_ediv_left _ _ htps.ne', Int.ediv_eq_zero_of_lt (by omega) (by omega), zero_add]

/-- The nanoseconds between the ticks, in the parts that the code computes with. -/
theorem elapsed_eq {us : ℤ} (hprod : tps * us = 1000000) : (now - start) * (us * 1000) =
    (now / tps - start / tps) * 1000000000 + (now % tps * us - start % tps * us) * 1000 := by
  calc (now - start) * (us * 1000)
      = ((tps * (now / tps) + now % tps) - (tps * (start / tps) + start % tps)) * (us * 1000) := by
        rw [Int.mul_ediv_add_emod, Int.mul_ediv_add_emod]
    _ = (now / tps - start / tps) * (tps * us * 1000) + (now % tps * us - start % tps * us) * 1000 := by ring
    _ = _ := by rw [hprod]; ring

/-- **A time read is right** in exactly these cases, and then it is exact for the seconds set. -/
theorem follows_iff (htps : 0 < tps) (hdvd : tps ∣ 1000000) (hs : s.Normalised) (hstart : 0 ≤ start) (hle : start ≤ now)
    (hmax : now < 2 ^ 31) {t : Timespec} {c : Clock} (hread : timeRead tps start now s c = some t) :
    (Follows tps start now s t ↔ ReadsRight tps start now s) ∧
      (ReadsRight tps start now s → t.ns = s.tvSec * 1000000000 + (now - start) * (1000000000 / tps)) := by
  obtain ⟨us, hus, hprod, hmicro, hnano⟩ := exists_us htps hdvd
  obtain ⟨hslow, hshigh⟩ := part_bounds hprod hus (Int.emod_nonneg start htps.ne') (Int.emod_lt_of_pos start htps)
  obtain ⟨hnlow, hnhigh⟩ := part_bounds hprod hus (Int.emod_nonneg now htps.ne') (Int.emod_lt_of_pos now htps)
  have hnorm := residues_lt_iff (a := now % tps) (b := start % tps) hus
  have helapsed : (now - start) * (us * 1000) = _ := elapsed_eq hprod
  rw [timeRead_eq, Option.some_inj, hmicro, realtime_settime htps hus hprod hmicro hs (by omega) hmax] at hread
  subst hread
  have hnonneg : 0 ≤ (now - start) / tps := Int.ediv_nonneg (by omega) htps.le
  have hsmall : (now - start) / tps < 2 ^ 31 := Int.lt_of_le_of_lt (Int.ediv_le_self _ (by omega)) (by omega)
  obtain ⟨hseclow, hsechigh, hnseclow, hnsechigh⟩ := hs
  -- the seconds of a right time do not wrap
  have hexact : ReadsRight tps start now s → int32 (s.tvSec + now / tps - start / tps - 1) =
      s.tvSec + now / tps - start / tps - 1 := by
    rintro ⟨hlt, -, hfits⟩
    have hq := quotient_borrow htps hlt
    exact int32_of_fits (by omega) (by omega)
  refine ⟨⟨?_, fun h => ⟨⟨(int32_range _).1, (int32_range _).2, by dsimp only; omega, ?_⟩, ?_⟩⟩, fun h => ?_⟩
  · rintro ⟨hnormalised, hclose⟩
    have hlt : now % tps < start % tps := by
      have hnsec := hnormalised.nsec_high
      dsimp only at hnsec
      exact hnorm.mp (by omega)
    have hq := quotient_borrow htps hlt
    rw [hnano, helapsed, abs_le] at hclose
    simp only [Timespec.ns] at hclose
    -- wrapped seconds are 2 ^ 32 seconds away
    unfold int32 at hclose
    unfold ReadsRight
    rw [hnano]
    exact ⟨hlt, by omega, by omega⟩
  · have hlt := hnorm.mpr h.1
    dsimp only
    omega
  · have hticks := h.2.1
    rw [hnano] at hticks
    rw [hnano, helapsed, abs_le]
    simp only [Timespec.ns, hexact h]
    omega
  · rw [hnano, helapsed]
    simp only [Timespec.ns, hexact h]
    ring

end Realtime

/-- **When the times read follow the time set**, for two ticks one after the other: exactly when each of them is right. -/
theorem clock_realtime_right (tps start now later : ℤ) (s : Timespec) (c : Clock) (htps : 0 < tps) (hdvd : tps ∣ 1000000)
    (hs : s.Normalised) (hstart : 0 ≤ start) (hnow : start ≤ now) (hlater : now ≤ later) (hmax : later < 2 ^ 31) :
    ∃ t u, timeRead tps start now s c = some t ∧ timeRead tps start later s c = some u ∧
      (Follows tps start now s t ∧ Follows tps start later s u ∧ t.ns ≤ u.ns ↔
        ReadsRight tps start now s ∧ ReadsRight tps start later s) := by
  obtain ⟨hnowIff, hnowEq⟩ := follows_iff htps hdvd hs hstart hnow (by omega) (timeRead_eq c)
  obtain ⟨hlaterIff, hlaterEq⟩ := follows_iff htps hdvd hs hstart (by omega) hmax (timeRead_eq c)
  refine ⟨_, _, timeRead_eq c, timeRead_eq c, ?_⟩
  constructor
  · exact fun h => ⟨hnowIff.mp h.1, hlaterIff.mp h.2.1⟩
  · rintro ⟨h₁, h₂⟩
    refine ⟨hnowIff.mpr h₁, hlaterIff.mpr h₂, ?_⟩
    rw [hnowEq h₁, hlaterEq h₂]
    have hmono : (now - start) * (1000000000 / tps) ≤ (later - start) * (1000000000 / tps) :=
      Int.mul_le_mul_of_nonneg_right (by omega) (Int.ediv_nonneg (by decide) htps.le)
    omega

/-- Set at tick 199, with 100 ticks to a second: right at ticks 250 and 298. -/
theorem clock_realtime_right_borrow : ∃ t u, timeRead 100 199 250 ⟨1000, 0⟩ ⟨⟨0, 0⟩, 0, none⟩ = some t ∧
    timeRead 100 199 298 ⟨1000, 0⟩ ⟨⟨0, 0⟩, 0, none⟩ = some u ∧
    Follows 100 199 250 ⟨1000, 0⟩ t ∧ Follows 100 199 298 ⟨1000, 0⟩ u ∧ t.ns ≤ u.ns := by
  obtain ⟨t, u, ht, hu, hiff⟩ := clock_realtime_right 100 199 250 298 ⟨1000, 0⟩ ⟨⟨0, 0⟩, 0, none⟩ (by decide)
    ⟨10000, rfl⟩ ⟨by decide, by decide, by decide, by decide⟩ (by decide) (by decide) (by decide) (by decide)
  exact ⟨t, u, ht, hu, hiff.mpr ⟨⟨by decide, by decide, by decide⟩, by decide, by decide, by decide⟩⟩

/-- Read at the tick at which it is set, the time 1000.5 s is 999 s and 1000000000 ns. -/
theorem clock_realtime_carry_lost : ∃ (tps start now : ℤ) (s t : Timespec) (c : Clock), 0 < tps ∧ tps ∣ 1000000 ∧ s.Normalised ∧
    0 ≤ start ∧ start ≤ now ∧ now < 2 ^ 31 ∧ timeRead tps start now s c = some t ∧ ¬Follows tps start now s t := by
  refine ⟨100, 0, 0, ⟨1000, 500000000⟩, ⟨999, 1000000000⟩, ⟨⟨0, 0⟩, 0, none⟩, by decide, ⟨10000, rfl⟩,
    ⟨by decide, by decide, by decide, by decide⟩, by decide, by decide, by decide, by decide, fun h => ?_⟩
  exact absurd h.1.nsec_high (by decide)

/-! ## A time to ticks -/

/-- The ticks up to an absolute time, rounded down: none when it is not in the future. -/
def ticksUntil (tps : ℤ) (tp time : Timespec) : ℤ := if time.ns - tp.ns ≤ 0 then 0 else (time.ns - tp.ns) * tps / 1000000000

/-- **When the number of ticks is right**: the part of the distance below a second, times the ticks of a second, fits in 32
bits, or the time is not in the future and the ticks do not wrap below zero. -/
def TicksRight (tps : ℤ) (tp time : Timespec) : Prop :=
  (time.ns - tp.ns) % 1000000000 * tps < 2 ^ 32 ∨ time.ns - tp.ns ≤ 0 ∧
    -2 ^ 31 ≤ (time.ns - tp.ns) / 1000000000 * tps + (time.ns - tp.ns) % 1000000000 * tps % 2 ^ 32 / 1000000000

/-- The distance in ticks is an `int`. -/
def TicksFit (tps : ℤ) (tp time : Timespec) : Prop :=
  -2 ^ 31 ≤ (time.ns - tp.ns) * tps / 1000000000 ∧ (time.ns - tp.ns) * tps / 1000000000 < 2 ^ 31

section Ticks

variable {tps : ℤ} {tp time a b : Timespec}

/-- The ticks of the seconds and of the nanoseconds. -/
theorem ticks_split (d tps : ℤ) : d * tps / 1000000000 = d / 1000000000 * tps + d % 1000000000 * tps / 1000000000 := by
  have hsplit : d * tps = d % 1000000000 * tps + 1000000000 * (d / 1000000000 * tps) := by
    calc d * tps = (d % 1000000000 + 1000000000 * (d / 1000000000)) * tps := by rw [Int.emod_add_mul_ediv]
      _ = _ := by ring
  rw [hsplit, Int.add_mul_ediv_left _ _ (by decide), add_comm]

/-- The seconds of a distance are an `int`. -/
theorem seconds_fit {d : ℤ} (htps : 0 < tps) (hlow : -2 ^ 31 ≤ d * tps / 1000000000) (hhigh : d * tps / 1000000000 < 2 ^ 31) :
    -2 ^ 31 ≤ d / 1000000000 ∧ d / 1000000000 < 2 ^ 31 := by
  have hlow' : -2 ^ 31 * 1000000000 ≤ d * tps := by omega
  have hhigh' : d * tps < 2 ^ 31 * 1000000000 := by omega
  constructor
  · by_contra hneg
    have hd : d < -2 ^ 31 * 1000000000 := by omega
    have hmul : d * tps ≤ d * 1 := Int.mul_le_mul_of_nonpos_left (by omega) (by omega)
    omega
  · by_contra hneg
    have hd : 2 ^ 31 * 1000000000 ≤ d := by omega
    have hmul : d * 1 ≤ d * tps := Int.mul_le_mul_of_nonneg_left (by omega) (by omega)
    omega

/-- **What the code computes**: the ticks of the seconds, and those of the nanoseconds modulo `2 ^ 32`. -/
theorem clockTimeToTick_eq (htps : 0 < tps) (htp : tp.Normalised) (htime : time.Normalised) (hfit : TicksFit tps tp time) :
    clockTimeToTick tps tp (some time) = max 0 (int32 ((time.ns - tp.ns) / 1000000000 * tps +
      (time.ns - tp.ns) % 1000000000 * tps % 2 ^ 32 / 1000000000)) := by
  obtain ⟨hlow, hhigh⟩ := seconds_fit htps hfit.1 hfit.2
  obtain ⟨-, -, htplow, htphigh⟩ := htp
  obtain ⟨-, -, htimelow, htimehigh⟩ := htime
  have hparts : int32 (if time.tvNsec - tp.tvNsec < 0 then 1000000000 - (tp.tvNsec - time.tvNsec) else time.tvNsec - tp.tvNsec) =
        (time.ns - tp.ns) % 1000000000 ∧
      int32 (if time.tvNsec - tp.tvNsec < 0 then time.tvSec - tp.tvSec - 1 else time.tvSec - tp.tvSec) =
        (time.ns - tp.ns) / 1000000000 := by
    unfold Timespec.ns at hlow hhigh ⊢
    split
    · rw [int32_of_fits (by omega) (by omega), int32_of_fits (by omega) (by omega)]
      omega
    · rw [int32_of_fits (by omega) (by omega), int32_of_fits (by omega) (by omega)]
      omega
  simp only [clockTimeToTick, decide_eq_true_eq, hparts]
  split
  · rename_i hneg
    exact (max_eq_left hneg.le).symm
  · rename_i hneg
    exact (max_eq_right (not_lt.mp hneg)).symm

/-- **The number of ticks is right** in exactly these cases. -/
theorem clockTimeToTick_iff (htps : 0 < tps) (hint : tps < 2 ^ 31) (htp : tp.Normalised) (htime : time.Normalised)
    (hfit : TicksFit tps tp time) : clockTimeToTick tps tp (some time) = ticksUntil tps tp time ↔ TicksRight tps tp time := by
  rw [clockTimeToTick_eq htps htp htime hfit]
  unfold TicksFit at hfit
  unfold ticksUntil TicksRight
  generalize time.ns - tp.ns = d at hfit ⊢
  rw [ticks_split] at hfit ⊢
  have hpart : 0 ≤ d % 1000000000 * tps := Int.mul_nonneg (Int.emod_nonneg d (by decide)) htps.le
  have hless : d % 1000000000 * tps ≤ 999999999 * tps := Int.mul_le_mul_of_nonneg_right (by omega) htps.le
  have hseconds : (0 ≤ d ∧ 0 ≤ d / 1000000000 * tps) ∨ (d < 0 ∧ d / 1000000000 * tps ≤ -1 * tps) := by
    by_cases hd : 0 ≤ d
    · exact .inl ⟨hd, Int.mul_nonneg (by omega) htps.le⟩
    · exact .inr ⟨by omega, Int.mul_le_mul_of_nonneg_right (by omega) htps.le⟩
  have hzero : d = 0 → d / 1000000000 * tps = 0 ∧ d % 1000000000 * tps = 0 := by
    rintro rfl
    exact ⟨Int.zero_mul tps, Int.zero_mul tps⟩
  generalize d % 1000000000 * tps = p at hpart hless hfit hzero ⊢
  generalize d / 1000000000 * tps = q at hfit hseconds hzero ⊢
  unfold int32
  split
  · rename_i hd
    rw [max_eq_left_iff]
    omega
  · rename_i hd
    omega

/-- Later times are more ticks away. -/
theorem ticksUntil_mono (htps : 0 < tps) (hle : a.ns ≤ b.ns) : ticksUntil tps tp a ≤ ticksUntil tps tp b := by
  have hmul : (a.ns - tp.ns) * tps ≤ (b.ns - tp.ns) * tps := Int.mul_le_mul_of_nonneg_right (by omega) htps.le
  unfold ticksUntil
  split
  · split
    · exact Int.le_refl 0
    · exact Int.ediv_nonneg (Int.mul_nonneg (by omega) htps.le) (by decide)
  · rw [if_neg (by omega)]
    exact Int.ediv_le_ediv (by decide) hmul

end Ticks

/-- **When `clock_time_to_tick` is right**, and monotone: exactly when it is for each of two absolute times. -/
theorem clock_time_to_tick_right (tps : ℤ) (tp a b : Timespec) (htps : 0 < tps) (hint : tps < 2 ^ 31) (htp : tp.Normalised)
    (ha : a.Normalised) (hb : b.Normalised) (hafit : TicksFit tps tp a) (hbfit : TicksFit tps tp b) :
    (clockTimeToTick tps tp (some a) = ticksUntil tps tp a ∧ clockTimeToTick tps tp (some b) = ticksUntil tps tp b ∧
      (a.ns ≤ b.ns → clockTimeToTick tps tp (some a) ≤ clockTimeToTick tps tp (some b))) ↔
    TicksRight tps tp a ∧ TicksRight tps tp b := by
  have haIff := clockTimeToTick_iff htps hint htp ha hafit
  have hbIff := clockTimeToTick_iff htps hint htp hb hbfit
  constructor
  · exact fun h => ⟨haIff.mp h.1, hbIff.mp h.2.1⟩
  · rintro ⟨h₁, h₂⟩
    refine ⟨haIff.mpr h₁, hbIff.mpr h₂, fun hle => ?_⟩
    rw [haIff.mpr h₁, hbIff.mpr h₂]
    exact ticksUntil_mono htps hle

/-- 1000 ticks to a second: 4 ms and 2 s and 1 ms from now. -/
theorem clock_time_to_tick_right_short : clockTimeToTick 1000 ⟨10, 0⟩ (some ⟨10, 4000000⟩) = ticksUntil 1000 ⟨10, 0⟩ ⟨10, 4000000⟩ ∧
    clockTimeToTick 1000 ⟨10, 0⟩ (some ⟨12, 1000000⟩) = ticksUntil 1000 ⟨10, 0⟩ ⟨12, 1000000⟩ := by
  have h := (clock_time_to_tick_right 1000 ⟨10, 0⟩ ⟨10, 4000000⟩ ⟨12, 1000000⟩ (by decide) (by decide)
    ⟨by decide, by decide, by decide, by decide⟩ ⟨by decide, by decide, by decide, by decide⟩
    ⟨by decide, by decide, by decide, by decide⟩ ⟨by decide, by decide⟩ ⟨by decide, by decide⟩).mpr
    ⟨.inl (by decide), .inl (by decide)⟩
  exact ⟨h.1, h.2.1⟩

/-- With 1000 ticks to a second, half a second from now is 1 tick, not 500. -/
theorem clock_time_to_tick_early : ∃ (tps : ℤ) (tp time : Timespec), 0 < tps ∧ tps < 2 ^ 31 ∧ tp.Normalised ∧ time.Normalised ∧
    TicksFit tps tp time ∧ clockTimeToTick tps tp (some time) ≠ ticksUntil tps tp time := by
  refine ⟨1000, ⟨10, 0⟩, ⟨10, 500000000⟩, by decide, by decide, ⟨by decide, by decide, by decide, by decide⟩,
    ⟨by decide, by decide, by decide, by decide⟩, ⟨by decide, by decide⟩, by decide⟩

end CoreLink.RtThread.ClockTime
