/-
# `CoreLink.RtThread.Alarm` — the alarms on one RTC, `components/drivers/rtc/alarm.c`.

An RTC has one alarm, a time of day. The container has a list of alarms, each of them started or not, and `current`: the
alarm that the RTC is set to. `rt_alarm_start` compares the new alarm with `current`, `alarm_update` looks for the nearest
one in the list, and stopping or deleting `current` resets the RTC and updates.

Each function is one step, with the times that it reads: the clock may go on in any way between two of them. The device is
there and its calls succeed, and it gives the time back that it was set to. `mktime` is a function of the library. A pointer
to an alarm is its `id`.
-/
import CoreLink.Lib.Run

namespace CoreLink.RtThread

open CoreLink.Lib

/-! ## Times of day -/

/-- `struct tm`, the fields that are used. -/
structure Tm where
  sec : Int
  min : Int
  hour : Int
  mday : Int
  mon : Int
  year : Int
  wday : Int
  deriving DecidableEq

namespace Tm

/-- The time of day is one. -/
def InDay (t : Tm) : Prop := (0 ≤ t.sec ∧ t.sec ≤ 59) ∧ (0 ≤ t.min ∧ t.min ≤ 59) ∧ 0 ≤ t.hour ∧ t.hour ≤ 23

instance (t : Tm) : Decidable t.InDay := inferInstanceAs (Decidable (_ ∧ _))

/-- `alarm_mkdaysec`. -/
def alarmMkdaysec (t : Tm) : Int := t.sec + t.min * 60 + t.hour * 3600

end Tm

/-- What `localtime_r` gives. -/
def Clock : Type := { t : Tm // t.InDay }

/-- `RT_RTC_YEARS_MAX`. -/
def rtRtcYearsMax : Int := 137
/-- `RT_ALARM_DELAY`. -/
def rtAlarmDelay : Int := 2
/-- `RT_ALARM_TM_NOW`. -/
def rtAlarmTmNow : Int := -1

/-- `RT_ALARM_ONESHOT`. -/
def rtAlarmOneshot : Nat := 0x000
/-- `RT_ALARM_DAILY`. -/
def rtAlarmDaily : Nat := 0x100
/-- `RT_ALARM_WEEKLY`. -/
def rtAlarmWeekly : Nat := 0x200
/-- `RT_ALARM_MONTHLY`. -/
def rtAlarmMonthly : Nat := 0x400
/-- `RT_ALARM_YAERLY`. -/
def rtAlarmYaerly : Nat := 0x800

/-! ## Alarms -/

/-- `struct rt_alarm`. `kind` is `flag & 0xFF00`, and `inited` and `started` are the two other bits of `flag`; of the
callback only whether there is one. -/
structure Alarm where
  id : Nat
  kind : Nat
  inited : Bool
  started : Bool
  callback : Bool
  wktime : Tm
  deriving DecidableEq

/-- `struct rt_rtc_wkalarm`, the alarm of the RTC. -/
structure Wkalarm where
  enable : Bool
  sec : Int
  min : Int
  hour : Int
  deriving DecidableEq

/-- `days_of_year_month`. -/
def daysOfYearMonth (tmYear tmMon : Int) : Int :=
  let year := tmYear + 1900
  if tmMon = 1 then 28 + if (year % 4 = 0 ∧ year % 100 ≠ 0) ∨ year % 400 = 0 then 1 else 0
  else if (tmMon ≤ 6 ∧ tmMon % 2 = 0) ∨ (tmMon > 6 ∧ tmMon % 2 = 1) then 31
  else 30

/-- `is_valid_date`. -/
def isValidDate (date : Tm) : Bool :=
  if date.year < 0 ∨ date.year > rtRtcYearsMax then false
  else if date.mon < 0 ∨ date.mon > 11 then false
  else if date.mday < 1 ∨ date.mday > daysOfYearMonth date.year date.mon then false
  else true

namespace Alarm

/-- What `alarm_set` writes to the RTC. -/
def wkalarm (a : Alarm) : Wkalarm := ⟨a.started, a.wktime.sec, a.wktime.min, a.wktime.hour⟩

/-- The second of the day. -/
def daysec (a : Alarm) : Int := a.wktime.alarmMkdaysec

def stop (a : Alarm) : Alarm := { a with started := false }

/-- The time of day in `alarm_setup`, where what is out of range is "don't care". -/
def setupTime (t now : Tm) : Tm :=
  { t with
    sec := if t.sec > 59 ∨ t.sec < 0 then now.sec else t.sec
    min := if t.min > 59 ∨ t.min < 0 then now.min else t.min
    hour := if t.hour > 23 ∨ t.hour < 0 then now.hour else t.hour }

/-- The date in `alarm_setup`, for an alarm of a kind, and whether it is one. -/
def setupDate (kind : Nat) (t now : Tm) : Bool × Tm :=
  if kind = rtAlarmDaily then (true, t)
  else if kind = rtAlarmOneshot then
    let t := { t with
      year := if t.year = rtAlarmTmNow then now.year else t.year
      mon := if t.mon = rtAlarmTmNow then now.mon else t.mon
      mday := if t.mday = rtAlarmTmNow then now.mday else t.mday }
    (isValidDate t, t)
  else if kind = rtAlarmWeekly then (true, { t with wday := if t.wday < 0 ∨ t.wday > 6 then now.wday else t.wday })
  else if kind = rtAlarmMonthly then (true, { t with mday := if t.mday < 1 ∨ t.mday > 31 then now.mday else t.mday })
  else if kind = rtAlarmYaerly then
    let t := { t with mon := if t.mon < 0 ∨ t.mon > 11 then now.mon else t.mon }
    let days :=
      if t.mon = 1 then 29
      else if (t.mon ≤ 6 ∧ t.mon % 2 = 0) ∨ (t.mon > 6 ∧ t.mon % 2 = 1) then 31
      else 30
    (true, { t with mday := if t.mday < 1 ∨ t.mday > days then now.mday else t.mday })
  else (false, t)

/-- The last second of the day in `alarm_setup`. -/
def setupEnd (t : Tm) : Tm := if t.hour = 23 ∧ t.min = 59 ∧ t.sec = 59 then { t with sec := 60 - rtAlarmDelay } else t

/-- `alarm_setup`. When it fails, what it has written to `wktime` stays. -/
def alarmSetup (a : Alarm) (now : Tm) : Bool × Alarm :=
  let r := setupDate a.kind (setupTime a.wktime now) now
  if r.1 then (true, { a with inited := true, wktime := setupEnd r.2 }) else (false, { a with wktime := r.2 })

/-- The beginning of `rt_alarm_start`: an alarm is set up once. -/
def setupOnce (a : Alarm) (now : Tm) : Bool × Alarm := if a.inited then (true, a) else a.alarmSetup now

/-- A difference of two `rt_uint32_t`. -/
def u32 (x : Int) : Int := x % 4294967296

variable (mktime : Tm → Int)

/-- The test of `alarm_wakeup`, for each kind. -/
def wakes (a : Alarm) (now : Tm) : Bool :=
  let secAlarm := a.daysec
  let secNow := now.alarmMkdaysec
  if a.kind = rtAlarmOneshot then
    let secAlarm := u32 (mktime a.wktime)
    let secNow := u32 (mktime now)
    u32 (secNow - secAlarm) ≤ rtAlarmDelay && secNow ≥ secAlarm
  else if a.kind = rtAlarmDaily then u32 (secNow - secAlarm) ≤ rtAlarmDelay && secNow ≥ secAlarm
  else if a.kind = rtAlarmWeekly then
    let secAlarm := secAlarm + a.wktime.wday * 24 * 3600
    let secNow := secNow + now.wday * 24 * 3600
    u32 (secNow - secAlarm) ≤ rtAlarmDelay && secNow ≥ secAlarm
  else if a.kind = rtAlarmMonthly then a.wktime.mday = now.mday && u32 (secNow - secAlarm) ≤ rtAlarmDelay
  else if a.kind = rtAlarmYaerly then
    (a.wktime.mday = now.mday && a.wktime.mon = now.mon) && u32 (secNow - secAlarm) ≤ rtAlarmDelay
  else false

/-- A started one-shot alarm that `alarm_wakeup` stops. -/
def expires (a : Alarm) (now : Tm) : Bool := a.started && a.kind = rtAlarmOneshot && a.wakes mktime now

end Alarm

/-! ## The container -/

/-- The state: `alarms` from `_container.head` on, `_container.current`, the alarm of the RTC, and the alarms whose callbacks
were called. -/
structure AlarmSys where
  alarms : List Alarm
  current : Option Nat
  rtc : Wkalarm
  called : List Nat

/-- The search in `alarm_update`: the nearest alarm behind `sec_now`, and the first one in front of it. -/
structure AlarmSearch where
  secNext : Int
  almNext : Option Alarm
  secPrev : Int
  almPrev : Option Alarm

namespace AlarmSys

/-- `alarm_set`. -/
def alarmSet (s : AlarmSys) (a : Alarm) : AlarmSys := { s with rtc := a.wkalarm }

def find (s : AlarmSys) (id : Nat) : Option Alarm := s.alarms.find? fun a => a.id = id

/-- The alarm `id` is written to. -/
def write (s : AlarmSys) (id : Nat) (f : Alarm → Alarm) : AlarmSys :=
  { s with alarms := s.alarms.map fun a => if a.id = id then f a else a }

section Update

variable (mktime : Tm → Int)

/-- `alarm_wakeup`: the alarm, the RTC and the callbacks. -/
def alarmWakeup (now : Tm) (a : Alarm) (rtc : Wkalarm) (called : List Nat) : Alarm × Wkalarm × List Nat :=
  let called := if a.started && a.wakes mktime now && a.callback then called ++ [a.id] else called
  if a.expires mktime now then (a.stop, a.stop.wkalarm, called) else (a, rtc, called)

/-- The first loop of `alarm_update`. -/
def wakeups (now : Tm) : List Alarm → Wkalarm → List Nat → List Alarm × Wkalarm × List Nat
  | [], rtc, called => ([], rtc, called)
  | a :: as, rtc, called =>
      let r := alarmWakeup mktime now a rtc called
      let rs := wakeups now as r.2.1 r.2.2
      (r.1 :: rs.1, rs.2)

/-- One iteration of the second loop of `alarm_update`. -/
def searchStep (current : Option Nat) (secNow : Int) (r : AlarmSearch) (a : Alarm) : AlarmSearch :=
  if a.started ∧ current ≠ some a.id then
    let secTmp := a.daysec - secNow
    if secTmp > 0 then if secTmp < r.secNext then { r with secNext := secTmp, almNext := some a } else r
    else if secTmp < r.secPrev then { r with secPrev := secTmp, almPrev := some a }
    else r
  else r

/-- The alarm that `alarm_update` sets. -/
def search (current : Option Nat) (secNow : Int) (alarms : List Alarm) : Option Alarm :=
  let r := alarms.foldl (searchStep current secNow) ⟨24 * 3600, none, 0, none⟩
  if r.secNext < 24 * 3600 then r.almNext else if r.secPrev < 0 then r.almPrev else none

/-- `alarm_update`; `wake` is the time of the first loop and `now` the one of the second. -/
def alarmUpdate (s : AlarmSys) (wake now : Tm) : AlarmSys :=
  if s.alarms.isEmpty then s
  else
    let r := wakeups mktime wake s.alarms s.rtc s.called
    let s := { s with alarms := r.1, rtc := r.2.1, called := r.2.2 }
    match search s.current now.alarmMkdaysec s.alarms with
    | some a => { s.alarmSet a with current := some a.id }
    | none => s

/-- The comparison in `rt_alarm_start`. -/
def replaces (secNow secOld secNew : Int) : Bool :=
  (secNew < secOld && secNew > secNow) || (secNew > secNow && secOld < secNow) || (secNew < secOld && secOld < secNow)

/-- `rt_alarm_create`, for a pointer that `rt_malloc` gives. -/
def rtAlarmCreate (s : AlarmSys) (id kind : Nat) (callback : Bool) (wktime : Tm) : AlarmSys :=
  { s with alarms := ⟨id, kind, false, false, callback, wktime⟩ :: s.alarms }

/-- `rt_alarm_start`; `setup` is the time that `alarm_setup` reads. -/
def rtAlarmStart (s : AlarmSys) (id : Nat) (setup now : Tm) : AlarmSys :=
  match s.find id with
  | none => s
  | some a =>
      let r := a.setupOnce setup
      if r.1 && !r.2.started then
        let a := { r.2 with started := true }
        let s := s.write id fun _ => a
        match s.current.bind s.find with
        | none => { s.alarmSet a with current := some id }
        | some c =>
            if replaces now.alarmMkdaysec c.daysec a.daysec then { s.alarmSet a with current := some id } else s
      else s.write id fun _ => r.2

/-- `rt_alarm_stop`. -/
def rtAlarmStop (s : AlarmSys) (id : Nat) (wake now : Tm) : AlarmSys :=
  match s.find id with
  | none => s
  | some a =>
      if a.started then
        let s := s.write id Alarm.stop
        if s.current = some id then alarmUpdate mktime { s.alarmSet a.stop with current := none } wake now else s
      else s

/-- `rt_alarm_delete`. -/
def rtAlarmDelete (s : AlarmSys) (id : Nat) (wake now : Tm) : AlarmSys :=
  match s.find id with
  | none => s
  | some a =>
      let s := s.write id Alarm.stop
      let s := if s.current = some id then alarmUpdate mktime { s.alarmSet a.stop with current := none } wake now else s
      { s with alarms := s.alarms.filter fun a => a.id ≠ id }

end Update

end AlarmSys

/-- A call; `now` is the time of the operation. A pointer of `rt_alarm_create` is one that is not in use. -/
inductive AlarmEvent where
  | create (id kind : Nat) (callback : Bool) (wktime : Tm) (now : Clock)
  | start (id : Nat) (setup now : Clock)
  | stop (id : Nat) (wake now : Clock)
  | delete (id : Nat) (wake now : Clock)
  | update (wake now : Clock)

namespace AlarmSys

/-- The time of an operation. -/
def time : AlarmEvent → Tm
  | .create _ _ _ _ now | .start _ _ now | .stop _ _ now | .delete _ _ now | .update _ now => now.1

/-- The effect of an event. -/
def exec (mktime : Tm → Int) (s : AlarmSys) : AlarmEvent → Option AlarmSys
  | .create id kind callback wktime _ =>
      if (s.find id).isNone then some (s.rtAlarmCreate id kind callback wktime) else none
  | .start id setup now => some (s.rtAlarmStart id setup.1 now.1)
  | .stop id wake now => some (s.rtAlarmStop mktime id wake.1 now.1)
  | .delete id wake now => some (s.rtAlarmDelete mktime id wake.1 now.1)
  | .update wake now => some (s.alarmUpdate mktime wake.1 now.1)

/-- One step of the system. -/
def Step (mktime : Tm → Int) (s : AlarmSys) (e : AlarmEvent) (s' : AlarmSys) : Prop := s.exec mktime e = some s'

/-- No alarm, and an RTC that is not set. -/
def init : AlarmSys := ⟨[], none, ⟨false, 0, 0, 0⟩, []⟩

end AlarmSys

end CoreLink.RtThread
