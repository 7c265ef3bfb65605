/-
# `CoreLink.RtThread.AlarmNearest` — when the RTC is set to the nearest alarm.

The alarms are compared by their distance on the clock, from the second behind now to the same second on the next day. In
most cases each operation leaves the RTC set to the nearest started alarm. It does not where

* the clock has run past `current`, or it is due in this very second, when another operation comes in front of
  `alarm_update`;
* `current` is a one-shot alarm that is over: `rt_alarm_start` still compares with it;
* all alarms that are left are due in this very second: the search skips them;
* `alarm_update` skips `current` though it is the nearest one, or stops a one-shot alarm beside it and with it the RTC.

`InTime` says for each operation that nothing of this is the case, and the main result is that this is exact.
-/
import CoreLink.RtThread.Alarm
import Mathlib.Algebra.Order.Ring.Int
import Mathlib.Data.List.Nodup

namespace CoreLink.RtThread

open CoreLink.Lib

/-! ## Distances on the clock -/

/-- The seconds from `now` to the next time that it is `sec`, from 1 to 86400. -/
def clockDist (now sec : Int) : Int := if sec > now then sec - now else sec - now + 86400

/-- A second of the day. -/
def InDaysec (sec : Int) : Prop := 0 ≤ sec ∧ sec < 86400

section Distance

variable {now old new sec : Int}

theorem Tm.InDay.daysec {t : Tm} (h : t.InDay) : InDaysec t.alarmMkdaysec := by
  obtain ⟨⟨hs, hs'⟩, ⟨hm, hm'⟩, hh, hh'⟩ := h
  unfold InDaysec Tm.alarmMkdaysec
  omega

theorem clockDist_le (hnow : InDaysec now) (hsec : InDaysec sec) : clockDist now sec ≤ 86400 := by
  unfold clockDist InDaysec at *
  split_ifs <;> omega

theorem clockDist_self (now : Int) : clockDist now now = 86400 := by
  unfold clockDist
  rw [if_neg (by omega)]
  omega

theorem eq_of_clockDist (hnow : InDaysec now) (hsec : InDaysec sec) (h : 86400 ≤ clockDist now sec) : sec = now := by
  unfold clockDist InDaysec at *
  split_ifs at h <;> omega

/-- **The comparison** in `rt_alarm_start` is right unless the old alarm is due in this second. -/
theorem replaces_iff (hold : InDaysec old) (hnew : InDaysec new) :
    AlarmSys.replaces now old new = true ↔ old ≠ now ∧ clockDist now new < clockDist now old := by
  unfold AlarmSys.replaces clockDist InDaysec at *
  simp only [Bool.or_eq_true, Bool.and_eq_true, decide_eq_true_eq]
  split_ifs <;> omega

end Distance

/-! ## The search -/

section Least

variable {α : Type*} {P : α → Prop} {key : α → Int} {limit bound : Int} {seen : List α} {best : Option α} {a : α}

/-- What a loop for the least key below `limit` has found, among those in `seen` that meet `P`. -/
def Least (P : α → Prop) (key : α → Int) (limit : Int) (seen : List α) (bound : Int) (best : Option α) : Prop :=
  bound ≤ limit ∧ (∀ x ∈ seen, P x → bound ≤ key x) ∧ (bound < limit → ∃ m ∈ seen, P m ∧ best = some m ∧ key m = bound)

theorem Least.nil : Least P key limit [] limit none :=
  ⟨le_rfl, fun _ hx _ => absurd hx List.not_mem_nil, fun h => absurd h (lt_irrefl _)⟩

theorem Least.skip (h : Least P key limit seen bound best) (ha : P a → bound ≤ key a) :
    Least P key limit (seen ++ [a]) bound best := by
  obtain ⟨hle, hall, hbest⟩ := h
  refine ⟨hle, fun x hx hP => ?_, fun hlt => ?_⟩
  · rcases List.mem_append.mp hx with hx | hx
    · exact hall x hx hP
    · obtain rfl := List.mem_singleton.mp hx
      exact ha hP
  · obtain ⟨m, hm, hrest⟩ := hbest hlt
    exact ⟨m, List.mem_append_left _ hm, hrest⟩

theorem Least.take (h : Least P key limit seen bound best) (hP : P a) (hlt : key a < bound) :
    Least P key limit (seen ++ [a]) (key a) (some a) := by
  obtain ⟨hle, hall, -⟩ := h
  refine ⟨hlt.le.trans hle, fun x hx hPx => ?_, fun _ => ⟨a, by simp, hP, rfl, rfl⟩⟩
  rcases List.mem_append.mp hx with hx | hx
  · exact hlt.le.trans (hall x hx hPx)
  · obtain rfl := List.mem_singleton.mp hx
    exact le_rfl

end Least

/-- The alarms that the search looks at. -/
def Searched (current : Option Nat) (a : Alarm) : Prop := a.started = true ∧ current ≠ some a.id

/-- What the search has found among the alarms in `seen`: the nearest one behind now, and the first one in front of it. -/
structure SearchInv (current : Option Nat) (now : Int) (seen : List Alarm) (r : AlarmSearch) : Prop where
  next : Least (fun a => Searched current a ∧ 0 < a.daysec - now) (fun a => a.daysec - now) 86400 seen r.secNext r.almNext
  prev : Least (fun a => Searched current a ∧ a.daysec - now ≤ 0) (fun a => a.daysec - now) 0 seen r.secPrev r.almPrev

section Search

variable {current : Option Nat} {now : Int} {seen alarms : List Alarm} {r : AlarmSearch} {a : Alarm}

/-- **One iteration** of the search. -/
theorem SearchInv.step (h : SearchInv current now seen r) :
    SearchInv current now (seen ++ [a]) (AlarmSys.searchStep current now r a) := by
  unfold AlarmSys.searchStep
  by_cases hs : a.started = true ∧ current ≠ some a.id
  · rw [if_pos hs]
    simp only
    split_ifs with hpos hlt hlt
    · exact ⟨h.next.take ⟨hs, hpos⟩ hlt, h.prev.skip fun hP => absurd hP.2 (by omega)⟩
    · exact ⟨h.next.skip fun _ => by omega, h.prev.skip fun hP => absurd hP.2 (by omega)⟩
    · exact ⟨h.next.skip fun hP => absurd hP.2 (by omega), h.prev.take ⟨hs, by omega⟩ hlt⟩
    · exact ⟨h.next.skip fun hP => absurd hP.2 (by omega), h.prev.skip fun _ => by omega⟩
  · rw [if_neg hs]
    exact ⟨h.next.skip fun hP => absurd hP.1 hs, h.prev.skip fun hP => absurd hP.1 hs⟩

/-- The loop of the search. -/
theorem SearchInv.foldl (h : SearchInv current now seen r) (alarms : List Alarm) :
    SearchInv current now (seen ++ alarms) (alarms.foldl (AlarmSys.searchStep current now) r) := by
  induction alarms generalizing seen r with
  | nil => simpa using h
  | cons a alarms ih =>
      have hrest := ih (h.step (a := a))
      rwa [List.append_assoc, List.singleton_append] at hrest

/-- **The search** finds the nearest alarm, except that it skips those that are due in this second. -/
theorem search_spec (current : Option Nat) (alarms : List Alarm) (hnow : InDaysec now) (hday : ∀ x ∈ alarms, x.started = true → InDaysec x.daysec) :
    match AlarmSys.search current now alarms with
    | some m => m ∈ alarms ∧ Searched current m ∧ m.daysec ≠ now ∧
        ∀ x ∈ alarms, Searched current x → clockDist now m.daysec ≤ clockDist now x.daysec
    | none => ∀ x ∈ alarms, Searched current x → x.daysec = now := by
  have hinit : SearchInv current now [] ⟨24 * 3600, none, 0, none⟩ := ⟨.nil, .nil⟩
  obtain ⟨⟨-, hnext, hfound⟩, ⟨-, hprev, hfound'⟩⟩ := hinit.foldl alarms
  rw [List.nil_append] at hnext hprev hfound hfound'
  dsimp only at hnext hprev hfound hfound'
  unfold AlarmSys.search
  simp only
  have hdays : ∀ x ∈ alarms, Searched current x → InDaysec x.daysec := fun x hx hs => hday x hx hs.1
  unfold InDaysec at hdays hnow
  by_cases hlt : (alarms.foldl (AlarmSys.searchStep current now) ⟨24 * 3600, none, 0, none⟩).secNext < 24 * 3600
  · obtain ⟨m, hm, ⟨hs, hpos⟩, hbest, hkey⟩ := hfound hlt
    rw [if_pos hlt, hbest]
    refine ⟨hm, hs, by omega, fun x hx hsx => ?_⟩
    have hx' := hdays x hx hsx
    have hm' := hdays m hm hs
    unfold clockDist
    by_cases hxpos : 0 < x.daysec - now
    · have hle := hnext x hx ⟨hsx, hxpos⟩
      rw [if_pos (by omega), if_pos (by omega)]
      omega
    · rw [if_pos (by omega), if_neg (by omega)]
      omega
  · rw [if_neg hlt]
    -- nothing is behind now
    have hbehind : ∀ x ∈ alarms, Searched current x → x.daysec - now ≤ 0 := fun x hx hsx => by
      by_contra hpos
      have hle := hnext x hx ⟨hsx, by omega⟩
      have hx' := hdays x hx hsx
      omega
    by_cases hlt' : (alarms.foldl (AlarmSys.searchStep current now) ⟨24 * 3600, none, 0, none⟩).secPrev < 0
    · obtain ⟨m, hm, ⟨hs, -⟩, hbest, hkey⟩ := hfound' hlt'
      rw [if_pos hlt', hbest]
      refine ⟨hm, hs, by omega, fun x hx hsx => ?_⟩
      have hle := hprev x hx ⟨hsx, hbehind x hx hsx⟩
      have hxb := hbehind x hx hsx
      unfold clockDist
      rw [if_neg (by omega), if_neg (by omega)]
      omega
    · rw [if_neg hlt']
      intro x hx hsx
      have hle := hprev x hx ⟨hsx, hbehind x hx hsx⟩
      have hxb := hbehind x hx hsx
      omega

end Search

/-! ## Setting up an alarm -/

namespace Alarm

section Setup

variable {t now : Tm} {a : Alarm}

theorem setupTime_inDay (h : now.InDay) : (setupTime t now).InDay := by
  obtain ⟨⟨hs, hs'⟩, ⟨hm, hm'⟩, hh, hh'⟩ := h
  unfold setupTime Tm.InDay
  dsimp only
  refine ⟨?_, ?_, ?_⟩
  · split_ifs <;> omega
  · split_ifs <;> omega
  · split_ifs <;> omega

/-- The date does not touch the time of day. -/
theorem setupDate_inDay (kind : Nat) (h : t.InDay) : (setupDate kind t now).2.InDay := by
  unfold setupDate
  split_ifs <;> exact h

theorem setupEnd_inDay (h : t.InDay) : (setupEnd t).InDay := by
  unfold setupEnd
  split_ifs
  · have hsec : 0 ≤ 60 - rtAlarmDelay ∧ 60 - rtAlarmDelay ≤ 59 := by decide
    exact ⟨hsec, h.2⟩
  · exact h

theorem setupOnce_id : (a.setupOnce now).2.id = a.id := by
  unfold setupOnce alarmSetup
  dsimp only
  split_ifs <;> rfl

theorem setupOnce_started : (a.setupOnce now).2.started = a.started := by
  unfold setupOnce alarmSetup
  dsimp only
  split_ifs <;> rfl

/-- **An alarm that is set up** has a time of day. -/
theorem setupOnce_inDay (h : now.InDay) (ha : a.inited = true → a.wktime.InDay)
    (hinited : (a.setupOnce now).2.inited = true) : (a.setupOnce now).2.wktime.InDay := by
  unfold setupOnce alarmSetup at *
  dsimp only at *
  split_ifs at * with hi hd
  · exact ha hi
  · exact setupEnd_inDay (setupDate_inDay _ (setupTime_inDay h))
  · exact absurd hinited hi

theorem setupOnce_inited (h : (a.setupOnce now).1 = true) : (a.setupOnce now).2.inited = true := by
  unfold setupOnce alarmSetup at *
  dsimp only at *
  split_ifs at * with hi hd
  · exact hi
  · rfl

theorem setupOnce_of_inited (h : a.inited = true) : a.setupOnce now = (true, a) := by
  unfold setupOnce
  rw [if_pos h]

theorem daysec_eq_of_wkalarm {b : Alarm} (h : a.wkalarm = b.wkalarm) : a.daysec = b.daysec := by
  obtain ⟨-, hs, hm, hh⟩ := Wkalarm.mk.inj h
  unfold daysec Tm.alarmMkdaysec
  rw [hs, hm, hh]

end Setup

end Alarm

/-! ## The invariant -/

namespace AlarmSys

/-- The alarms that are started. -/
def started (s : AlarmSys) : List Alarm := s.alarms.filter fun a => a.started

/-- Those that are still started behind the first loop of `alarm_update`. -/
def left (mktime : Tm → Int) (s : AlarmSys) (wake : Tm) : List Alarm :=
  s.alarms.filter fun a => a.started && !a.expires mktime wake

/-- **What the RTC is set to**: if an alarm is started, then to a nearest one of those that are. -/
def Nearest (s : AlarmSys) (now : Tm) : Prop :=
  s.started ≠ [] → ∃ c ∈ s.started, s.rtc = c.wkalarm ∧
    ∀ x ∈ s.started, clockDist now.alarmMkdaysec c.daysec ≤ clockDist now.alarmMkdaysec x.daysec

/-- The invariant of the alarms themselves. -/
structure AlarmWf (s : AlarmSys) : Prop where
  nodup : (s.alarms.map Alarm.id).Nodup
  inDay : ∀ a ∈ s.alarms, a.inited = true → a.wktime.InDay
  inited : ∀ a ∈ s.alarms, a.started = true → a.inited = true
  current_mem : ∀ id, s.current = some id → ∃ a ∈ s.alarms, a.id = id

/-- The invariant of the RTC: it is set to `current`, if an alarm is started. -/
structure AlarmInv (s : AlarmSys) : Prop extends AlarmWf s where
  idle : s.started = [] → s.rtc.enable = false
  live : s.started ≠ [] → ∃ c ∈ s.started, s.current = some c.id ∧ s.rtc = c.wkalarm

section Invariant

variable {s s' : AlarmSys} {now : Tm} {a c x : Alarm} {id : Nat}

theorem mem_started : x ∈ s.started ↔ x ∈ s.alarms ∧ x.started = true := List.mem_filter

theorem AlarmWf.daysec (w : AlarmWf s) (hx : x ∈ s.started) : InDaysec x.daysec := by
  obtain ⟨hx, hs⟩ := mem_started.mp hx
  exact (w.inDay x hx (w.inited x hx hs)).daysec

/-- A pointer is that of one alarm. -/
theorem AlarmWf.eq_of_id (w : AlarmWf s) (ha : a ∈ s.alarms) (hx : x ∈ s.alarms) (h : a.id = x.id) : a = x :=
  List.inj_on_of_nodup_map w.nodup ha hx h

theorem find_some (h : s.find id = some a) : a ∈ s.alarms ∧ a.id = id := by
  unfold find at h
  exact ⟨List.mem_of_find?_eq_some h, by simpa using List.find?_some h⟩

theorem find_none (h : s.find id = none) : ∀ x ∈ s.alarms, x.id ≠ id := by
  unfold find at h
  simpa using h

theorem AlarmWf.find_eq (w : AlarmWf s) (ha : a ∈ s.alarms) : s.find a.id = some a := by
  cases hf : s.find a.id with
  | none => exact absurd rfl (find_none hf a ha)
  | some b =>
      obtain ⟨hb, hid⟩ := find_some hf
      rw [w.eq_of_id hb ha hid]

/-- Where `current` is started, the RTC is set to the nearest alarm if `current` is one. -/
theorem nearest_iff (hc : c ∈ s.started) (hrtc : s.rtc = c.wkalarm) :
    s.Nearest now ↔ ∀ x ∈ s.started, clockDist now.alarmMkdaysec c.daysec ≤ clockDist now.alarmMkdaysec x.daysec := by
  constructor
  · intro h x hx
    obtain ⟨b, -, hb, hmin⟩ := h (List.ne_nil_of_mem hc)
    rw [Alarm.daysec_eq_of_wkalarm (hrtc.symm.trans hb)]
    exact hmin x hx
  · exact fun h _ => ⟨c, hc, hrtc, h⟩

/-- An RTC that is not enabled is not set to an alarm. -/
theorem not_nearest (hne : s.started ≠ []) (hrtc : s.rtc.enable = false) : ¬ s.Nearest now := fun h => by
  obtain ⟨b, hb, hset, -⟩ := h hne
  rw [hset] at hrtc
  have hs : b.started = true := (mem_started.mp hb).2
  rw [show b.wkalarm.enable = b.started from rfl, hs] at hrtc
  cases hrtc

/-! ## Operations that do not set the RTC -/

/-- `current` is a nearest one of some started alarms. -/
def CurrentNearest (s : AlarmSys) (as : List Alarm) (now : Tm) : Prop :=
  ∀ c ∈ as, s.current = some c.id → ∀ x ∈ as, clockDist now.alarmMkdaysec c.daysec ≤ clockDist now.alarmMkdaysec x.daysec

/-- **An operation that leaves the RTC and `current` as they are**, and keeps the alarm of `current` if it is started. -/
theorem AlarmInv.quiet (i : AlarmInv s) (now : Tm) (w : AlarmWf s') (hcurrent : s'.current = s.current) (hrtc : s'.rtc = s.rtc)
    (hsub : ∀ x ∈ s'.started, x ∈ s.started) (hkeep : ∀ c ∈ s.started, s.current = some c.id → c ∈ s'.started) :
    AlarmInv s' ∧ (s'.Nearest now ↔ s.CurrentNearest s'.started now) := by
  by_cases hempty : s.started = []
  · have hempty' : s'.started = [] := List.eq_nil_iff_forall_not_mem.mpr fun x hx => by
      have hx' := hsub x hx
      rw [hempty] at hx'
      cases hx'
    refine ⟨⟨w, fun _ => hrtc ▸ i.idle hempty, fun h => absurd hempty' h⟩, ?_⟩
    unfold Nearest CurrentNearest
    simp [hempty']
  · obtain ⟨c, hc, hcur, hset⟩ := i.live hempty
    have hc' := hkeep c hc hcur
    refine ⟨⟨w, fun h => absurd h (List.ne_nil_of_mem hc'), fun _ => ⟨c, hc', hcurrent.trans hcur, hrtc.trans hset⟩⟩, ?_⟩
    rw [nearest_iff hc' (hrtc.trans hset)]
    constructor
    · intro h d hd hcurd
      obtain rfl : d = c := i.eq_of_id (mem_started.mp (hsub d hd)).1 (mem_started.mp hc).1
        (Option.some.inj (hcurd.symm.trans hcur))
      exact h
    · exact fun h => h c hc' hcur

end Invariant

/-! ## `alarm_update` -/

section Update

variable {mktime : Tm → Int} {s : AlarmSys} {wake now : Tm}

/-- What the first loop does to an alarm. -/
def woken (mktime : Tm → Int) (wake : Tm) (a : Alarm) : Alarm := if a.expires mktime wake then a.stop else a

theorem woken_id (a : Alarm) : (woken mktime wake a).id = a.id := by
  unfold woken
  split_ifs <;> rfl

variable (mktime wake) in
/-- The first loop stops the one-shot alarms that are over, and with each of them the RTC. -/
theorem wakeups_spec (as : List Alarm) (rtc : Wkalarm) (called : List Nat) :
    (wakeups mktime wake as rtc called).1 = as.map (woken mktime wake) ∧
      (((∀ a ∈ as, a.expires mktime wake = false) ∧ (wakeups mktime wake as rtc called).2.1 = rtc) ∨
        ((∃ a ∈ as, a.expires mktime wake = true) ∧ (wakeups mktime wake as rtc called).2.1.enable = false)) := by
  induction as generalizing rtc called with
  | nil => exact ⟨rfl, .inl ⟨fun a ha => absurd ha List.not_mem_nil, rfl⟩⟩
  | cons a as ih =>
      unfold wakeups alarmWakeup
      dsimp only
      generalize (if a.started && a.wakes mktime wake && a.callback then called ++ [a.id] else called) = called'
      rw [List.map_cons, woken]
      by_cases he : a.expires mktime wake = true
      · rw [if_pos he, if_pos he]
        obtain ⟨hmap, hrtc⟩ := ih a.stop.wkalarm called'
        refine ⟨by rw [hmap], .inr ⟨⟨a, by simp, he⟩, ?_⟩⟩
        rcases hrtc with ⟨-, hsame⟩ | ⟨-, hoff⟩
        · rw [hsame]
          rfl
        · exact hoff
      · rw [if_neg he, if_neg he]
        obtain ⟨hmap, hrtc⟩ := ih rtc called'
        refine ⟨by rw [hmap], ?_⟩
        rcases hrtc with ⟨hall, hsame⟩ | ⟨⟨b, hb, hbe⟩, hoff⟩
        · exact .inl ⟨by simpa [he] using hall, hsame⟩
        · exact .inr ⟨⟨b, List.mem_cons_of_mem a hb, hbe⟩, hoff⟩

theorem mem_left {x : Alarm} : x ∈ s.left mktime wake ↔ x ∈ s.started ∧ x.expires mktime wake = false := by
  unfold left started
  simp [and_assoc]

variable (mktime wake) in
/-- The alarms that are still started behind the first loop. -/
theorem started_woken (as : List Alarm) : ((as.map (woken mktime wake)).filter fun a => a.started) =
    as.filter fun a => a.started && !a.expires mktime wake := by
  induction as with
  | nil => rfl
  | cons a as ih =>
      rw [List.map_cons, List.filter_cons, List.filter_cons, ih]
      unfold woken
      by_cases he : a.expires mktime wake = true
      · simp [he, Alarm.stop]
      · simp [he]

variable (mktime wake) in
theorem AlarmWf.woken (w : AlarmWf s) (rtc : Wkalarm) (called : List Nat) :
    AlarmWf { s with alarms := s.alarms.map (woken mktime wake), rtc := rtc, called := called } where
  nodup := by
    have hid : Alarm.id ∘ AlarmSys.woken mktime wake = Alarm.id := funext woken_id
    show ((s.alarms.map _).map Alarm.id).Nodup
    rw [List.map_map, hid]
    exact w.nodup
  inDay a ha := by
    obtain ⟨b, hb, rfl⟩ := List.mem_map.mp ha
    unfold AlarmSys.woken
    split_ifs
    · exact w.inDay b hb
    · exact w.inDay b hb
  inited a ha := by
    obtain ⟨b, hb, rfl⟩ := List.mem_map.mp ha
    unfold AlarmSys.woken
    split_ifs
    · exact fun h => by cases h
    · exact w.inited b hb
  current_mem id hid := by
    obtain ⟨a, ha, haid⟩ := w.current_mem id hid
    exact ⟨_, List.mem_map_of_mem ha, (woken_id a).trans haid⟩

/-- What `alarm_update` leaves behind: the nearest alarm that it looks at, or nothing new. -/
inductive Updated (mktime : Tm → Int) (s s' : AlarmSys) (wake now : Tm) : Prop
  | found (m : Alarm) (hm : m ∈ s.left mktime wake) (hcur : s.current ≠ some m.id)
      (hnow : m.daysec ≠ now.alarmMkdaysec)
      (hmin : ∀ x ∈ s.left mktime wake, s.current ≠ some x.id →
        clockDist now.alarmMkdaysec m.daysec ≤ clockDist now.alarmMkdaysec x.daysec)
      (hcurrent : s'.current = some m.id) (hrtc : s'.rtc = m.wkalarm)
  | none (hdue : ∀ x ∈ s.left mktime wake, s.current ≠ some x.id → x.daysec = now.alarmMkdaysec)
      (hcurrent : s'.current = s.current)
      (hrtc : ((∀ a ∈ s.alarms, a.expires mktime wake = false) ∧ s'.rtc = s.rtc) ∨
        ((∃ a ∈ s.alarms, a.expires mktime wake = true) ∧ s'.rtc.enable = false))

variable (mktime wake) in
/-- **What `alarm_update` does.** -/
theorem AlarmWf.update (w : AlarmWf s) (hnow : now.InDay) : AlarmWf (s.alarmUpdate mktime wake now) ∧
    (s.alarmUpdate mktime wake now).started = s.left mktime wake ∧ Updated mktime s (s.alarmUpdate mktime wake now) wake now := by
  unfold alarmUpdate
  by_cases hempty : s.alarms.isEmpty = true
  · rw [if_pos hempty]
    have hnil := List.isEmpty_iff.mp hempty
    refine ⟨w, by unfold started left; rw [hnil]; rfl, .none (fun x hx => ?_) rfl (.inl ⟨fun a ha => ?_, rfl⟩)⟩
    · have hx' := (mem_started.mp (mem_left.mp hx).1).1
      rw [hnil] at hx'
      cases hx'
    · rw [hnil] at ha
      cases ha
  · rw [if_neg hempty]
    obtain ⟨hmap, hrtc⟩ := wakeups_spec mktime wake s.alarms s.rtc s.called
    dsimp only
    rw [hmap]
    have hleft := started_woken mktime wake s.alarms
    have hmem : ∀ x, x ∈ s.alarms.map (AlarmSys.woken mktime wake) → x.started = true → x ∈ s.left mktime wake :=
      fun x hx hs => by
        have hx' := List.mem_filter.mpr ⟨hx, hs⟩
        rwa [hleft] at hx'
    have hmem' : ∀ x ∈ s.left mktime wake, x ∈ s.alarms.map (AlarmSys.woken mktime wake) ∧ x.started = true := fun x hx => by
      unfold left at hx
      rw [← hleft] at hx
      exact List.mem_filter.mp hx
    have hspec := search_spec s.current (s.alarms.map (AlarmSys.woken mktime wake)) hnow.daysec
      fun x hx hs => w.daysec (mem_left.mp (hmem x hx hs)).1
    cases hsearch : search s.current now.alarmMkdaysec (s.alarms.map (AlarmSys.woken mktime wake)) with
    | some m =>
        rw [hsearch] at hspec
        obtain ⟨hm, hsm, hne, hmin⟩ := hspec
        have wk := w.woken mktime wake m.wkalarm (wakeups mktime wake s.alarms s.rtc s.called).2.2
        refine ⟨⟨wk.nodup, wk.inDay, wk.inited, fun id hid => ⟨m, hm, Option.some.inj hid⟩⟩, hleft,
          .found m (hmem m hm hsm.1) hsm.2 hne (fun x hx hcur => ?_) rfl rfl⟩
        obtain ⟨hx', hxs⟩ := hmem' x hx
        exact hmin x hx' ⟨hxs, hcur⟩
    | none =>
        rw [hsearch] at hspec
        refine ⟨w.woken _ _ _ _, hleft, .none (fun x hx hcur => ?_) rfl hrtc⟩
        obtain ⟨hx', hxs⟩ := hmem' x hx
        exact hspec x hx' ⟨hxs, hcur⟩

/-- When `alarm_update` is in time. Where it finds an alarm, `current` is not a nearer one that it skipped; where it finds
none, all are over, or `current` is not and the RTC was left as it is. -/
def UpdateInTime (mktime : Tm → Int) (s : AlarmSys) (wake now : Tm) : Prop :=
  (∃ o ∈ s.left mktime wake, (s.current ≠ some o.id ∧ o.daysec ≠ now.alarmMkdaysec) ∧
      ∀ c ∈ s.left mktime wake, s.current = some c.id →
        clockDist now.alarmMkdaysec o.daysec ≤ clockDist now.alarmMkdaysec c.daysec) ∨
    (∀ o ∈ s.left mktime wake, s.current ≠ some o.id → o.daysec = now.alarmMkdaysec) ∧
      (s.left mktime wake = [] ∨
        (∃ c ∈ s.left mktime wake, s.current = some c.id) ∧ ∀ a ∈ s.alarms, a.expires mktime wake = false)

variable (mktime wake) in
/-- **`alarm_update` sets the nearest alarm** if and only if it is in time. -/
theorem AlarmInv.update (i : AlarmInv s) (hnow : now.InDay) :
    ((s.alarmUpdate mktime wake now).Nearest now ↔ s.UpdateInTime mktime wake now) ∧
      (s.UpdateInTime mktime wake now → AlarmInv (s.alarmUpdate mktime wake now)) := by
  obtain ⟨w, hstarted, hupdated⟩ := i.toAlarmWf.update mktime wake hnow
  generalize s.alarmUpdate mktime wake now = s' at w hstarted hupdated ⊢
  cases hupdated with
  | found m hm hcur hne hmin hcurrent hrtc =>
      have hm' : m ∈ s'.started := hstarted ▸ hm
      refine ⟨?_, fun _ => ⟨w, fun h => absurd h (List.ne_nil_of_mem hm'), fun _ => ⟨m, hm', hcurrent, hrtc⟩⟩⟩
      rw [nearest_iff hm' hrtc, hstarted]
      constructor
      · exact fun h => .inl ⟨m, hm, ⟨hcur, hne⟩, fun c hc _ => h c hc⟩
      · rintro (⟨o, ho, ⟨hocur, -⟩, hall⟩ | ⟨hdue, -⟩) x hx
        · by_cases hxcur : s.current = some x.id
          · exact (hmin o ho hocur).trans (hall x hx hxcur)
          · exact hmin x hx hxcur
        · exact absurd (hdue m hm hcur) hne
  | none hdue hcurrent hrtc =>
      have hiff : s.UpdateInTime mktime wake now ↔ s.left mktime wake = [] ∨
          (∃ c ∈ s.left mktime wake, s.current = some c.id) ∧ ∀ a ∈ s.alarms, a.expires mktime wake = false := by
        constructor
        · rintro (⟨o, ho, ⟨hocur, hone⟩, -⟩ | ⟨-, h⟩)
          · exact absurd (hdue o ho hocur) hone
          · exact h
        · exact fun h => .inr ⟨hdue, h⟩
      rw [hiff]
      by_cases hempty : s.left mktime wake = []
      · -- nothing is left that the RTC could be set to
        have hempty' : s'.started = [] := hstarted.trans hempty
        refine ⟨⟨fun _ => .inl hempty, fun _ h => absurd hempty' h⟩, fun _ => ⟨w, fun _ => ?_, fun h => absurd hempty' h⟩⟩
        rcases hrtc with ⟨hall, hsame⟩ | ⟨-, hoff⟩
        · rw [hsame]
          refine i.idle (List.eq_nil_iff_forall_not_mem.mpr fun x hx => ?_)
          have hx' := mem_left.mpr ⟨hx, hall x (mem_started.mp hx).1⟩
          rw [hempty] at hx'
          cases hx'
        · exact hoff
      · rcases hrtc with ⟨hall, hsame⟩ | ⟨⟨a, ha, hexp⟩, hoff⟩
        · obtain ⟨y, hy⟩ := List.exists_mem_of_ne_nil _ hempty
          obtain ⟨c, hc, hcur, hset⟩ := i.live (List.ne_nil_of_mem (mem_left.mp hy).1)
          have hc' : c ∈ s.left mktime wake := mem_left.mpr ⟨hc, hall c (mem_started.mp hc).1⟩
          have hcs : c ∈ s'.started := hstarted ▸ hc'
          refine ⟨?_, fun _ => ⟨w, fun h => absurd h (List.ne_nil_of_mem hcs),
            fun _ => ⟨c, hcs, hcurrent.trans hcur, hsame.trans hset⟩⟩⟩
          rw [nearest_iff hcs (hsame.trans hset), hstarted]
          refine ⟨fun _ => .inr ⟨⟨c, hc', hcur⟩, hall⟩, fun _ x hx => ?_⟩
          by_cases hxcur : s.current = some x.id
          · obtain rfl : c = x := i.eq_of_id (mem_started.mp hc).1 (mem_started.mp (mem_left.mp hx).1).1
              (Option.some.inj (hcur.symm.trans hxcur))
            exact le_rfl
          · rw [hdue x hx hxcur, clockDist_self]
            exact clockDist_le hnow.daysec (i.daysec hc)
        · have hne : s'.started ≠ [] := hstarted ▸ hempty
          have hfalse : ¬ (s.left mktime wake = [] ∨
              (∃ c ∈ s.left mktime wake, s.current = some c.id) ∧ ∀ a ∈ s.alarms, a.expires mktime wake = false) := by
            rintro (h | ⟨-, h⟩)
            · exact hempty h
            · rw [h a ha] at hexp
              cases hexp
          exact ⟨⟨fun h => absurd h (not_nearest hne hoff), fun h => absurd h hfalse⟩, fun h => absurd h hfalse⟩

variable (mktime wake) in
/-- **`alarm_update` behind a reset** of the RTC, without a `current`: it misses only alarms that are due in this second. -/
theorem AlarmWf.reset (w : AlarmWf s) (hcur : s.current = none) (hoff : s.rtc.enable = false) (hnow : now.InDay) :
    ((s.alarmUpdate mktime wake now).Nearest now ↔
        (s.left mktime wake = [] ∨ ∃ x ∈ s.left mktime wake, x.daysec ≠ now.alarmMkdaysec)) ∧
      ((s.left mktime wake = [] ∨ ∃ x ∈ s.left mktime wake, x.daysec ≠ now.alarmMkdaysec) →
        AlarmInv (s.alarmUpdate mktime wake now)) := by
  obtain ⟨w', hstarted, hupdated⟩ := w.update mktime wake hnow
  have hnone : ∀ x : Alarm, s.current ≠ some x.id := fun x => by rw [hcur]; exact fun h => by cases h
  generalize s.alarmUpdate mktime wake now = s' at w' hstarted hupdated ⊢
  cases hupdated with
  | found m hm _ hne hmin hcurrent hrtc =>
      have hm' : m ∈ s'.started := hstarted ▸ hm
      refine ⟨?_, fun _ => ⟨w', fun h => absurd h (List.ne_nil_of_mem hm'), fun _ => ⟨m, hm', hcurrent, hrtc⟩⟩⟩
      rw [nearest_iff hm' hrtc, hstarted]
      exact ⟨fun _ => .inr ⟨m, hm, hne⟩, fun _ x hx => hmin x hx (hnone x)⟩
  | none hdue _ hrtc =>
      have hoff' : s'.rtc.enable = false := by
        rcases hrtc with ⟨-, hsame⟩ | ⟨-, h⟩
        · rw [hsame]
          exact hoff
        · exact h
      by_cases hempty : s.left mktime wake = []
      · have hempty' : s'.started = [] := hstarted.trans hempty
        exact ⟨⟨fun _ => .inl hempty, fun _ h => absurd hempty' h⟩,
          fun _ => ⟨w', fun _ => hoff', fun h => absurd hempty' h⟩⟩
      · have hne : s'.started ≠ [] := hstarted ▸ hempty
        have hfalse : ¬ (s.left mktime wake = [] ∨ ∃ x ∈ s.left mktime wake, x.daysec ≠ now.alarmMkdaysec) := by
          rintro (h | ⟨x, hx, h⟩)
          · exact hempty h
          · exact h (hdue x hx (hnone x))
        exact ⟨⟨fun h => absurd h (not_nearest hne hoff'), fun h => absurd h hfalse⟩, fun h => absurd h hfalse⟩

end Update

/-! ## Creating, stopping and deleting -/

section Calls

variable {mktime : Tm → Int} {s : AlarmSys} {wake now : Tm} {a x : Alarm} {id : Nat}

theorem AlarmWf.create (w : AlarmWf s) (kind : Nat) (callback : Bool) (wktime : Tm) (hid : s.find id = none) :
    AlarmWf (s.rtAlarmCreate id kind callback wktime) where
  nodup := by
    show (id :: s.alarms.map Alarm.id).Nodup
    refine List.nodup_cons.mpr ⟨fun hmem => ?_, w.nodup⟩
    obtain ⟨x, hx, hxid⟩ := List.mem_map.mp hmem
    exact find_none hid x hx hxid
  inDay b hb hinit := by
    rcases List.mem_cons.mp hb with rfl | hb
    · cases hinit
    · exact w.inDay b hb hinit
  inited b hb hs := by
    rcases List.mem_cons.mp hb with rfl | hb
    · cases hs
    · exact w.inited b hb hs
  current_mem k hk := by
    obtain ⟨b, hb, hbid⟩ := w.current_mem k hk
    exact ⟨b, List.mem_cons_of_mem _ hb, hbid⟩

variable (now) in
/-- **`rt_alarm_create`.** -/
theorem AlarmInv.create (i : AlarmInv s) (kind : Nat) (callback : Bool) (wktime : Tm) (hid : s.find id = none) :
    AlarmInv (s.rtAlarmCreate id kind callback wktime) ∧
      ((s.rtAlarmCreate id kind callback wktime).Nearest now ↔ s.CurrentNearest s.started now) := by
  exact i.quiet now (i.toAlarmWf.create kind callback wktime hid) rfl rfl (fun x hx => hx) (fun c hc _ => hc)

/-- Writing to an alarm. -/
theorem AlarmWf.write (w : AlarmWf s) {f : Alarm → Alarm}
    (hf : ∀ b ∈ s.alarms, b.id = id → (f b).id = id ∧ ((f b).inited = true → (f b).wktime.InDay) ∧
      ((f b).started = true → (f b).inited = true)) : AlarmWf (s.write id f) where
  nodup := by
    have hids : (s.write id f).alarms.map Alarm.id = s.alarms.map Alarm.id := by
      show (s.alarms.map _).map Alarm.id = _
      rw [List.map_map]
      refine List.map_congr_left fun b hb => ?_
      show (if b.id = id then f b else b).id = b.id
      split_ifs with h
      · rw [(hf b hb h).1, h]
      · rfl
    rw [hids]
    exact w.nodup
  inDay b hb := by
    obtain ⟨y, hy, rfl⟩ := List.mem_map.mp hb
    split_ifs with h
    · exact (hf y hy h).2.1
    · exact w.inDay y hy
  inited b hb := by
    obtain ⟨y, hy, rfl⟩ := List.mem_map.mp hb
    split_ifs with h
    · exact (hf y hy h).2.2
    · exact w.inited y hy
  current_mem k hk := by
    obtain ⟨y, hy, hyid⟩ := w.current_mem k hk
    refine ⟨_, List.mem_map_of_mem hy, ?_⟩
    show (if y.id = id then f y else y).id = k
    split_ifs with h
    · rw [(hf y hy h).1, ← h, hyid]
    · exact hyid

theorem AlarmWf.write_stop (w : AlarmWf s) : AlarmWf (s.write id Alarm.stop) :=
  w.write fun b hb hid => ⟨hid, w.inDay b hb, fun h => by cases h⟩

theorem mem_started_write_stop : x ∈ (s.write id Alarm.stop).started ↔ x ∈ s.started ∧ x.id ≠ id := by
  constructor
  · intro hx
    obtain ⟨hx, hs⟩ := mem_started.mp hx
    obtain ⟨y, hy, rfl⟩ := List.mem_map.mp hx
    split_ifs at hs ⊢ with h
    · cases hs
    · exact ⟨mem_started.mpr ⟨hy, hs⟩, h⟩
  · rintro ⟨hx, hid⟩
    obtain ⟨hx, hs⟩ := mem_started.mp hx
    refine mem_started.mpr ⟨List.mem_map.mpr ⟨x, hx, ?_⟩, hs⟩
    rw [if_neg hid]

/-- When stopping or deleting an alarm is in time. -/
def RemoveInTime (mktime : Tm → Int) (s : AlarmSys) (id : Nat) (wake now : Tm) : Prop :=
  if s.current = some id then
    (∀ x ∈ s.left mktime wake, x.id = id) ∨ ∃ x ∈ s.left mktime wake, x.id ≠ id ∧ x.daysec ≠ now.alarmMkdaysec
  else s.CurrentNearest (s.started.filter fun x => x.id ≠ id) now

/-- What stopping or deleting `current` does in front of `alarm_update`. -/
def unset (s : AlarmSys) (id : Nat) (a : Alarm) : AlarmSys :=
  { (s.write id Alarm.stop).alarmSet a.stop with current := none }

theorem AlarmWf.unset (w : AlarmWf s) : AlarmWf (s.unset id a) :=
  ⟨w.write_stop.nodup, w.write_stop.inDay, w.write_stop.inited, fun k hk => by cases hk⟩

theorem mem_left_unset : x ∈ left mktime (s.unset id a) wake ↔ x ∈ s.left mktime wake ∧ x.id ≠ id := by
  rw [mem_left, mem_left]
  exact (and_congr_left' mem_started_write_stop).trans and_right_comm

variable (mktime wake) in
/-- **Removing the alarm that the RTC is set to.** -/
theorem AlarmInv.removeCurrent (i : AlarmInv s) (hcur : s.current = some id) (hnow : now.InDay) :
    (((s.unset id a).alarmUpdate mktime wake now).Nearest now ↔ s.RemoveInTime mktime id wake now) ∧
      (s.RemoveInTime mktime id wake now → AlarmInv ((s.unset id a).alarmUpdate mktime wake now)) := by
  have hiff : (left mktime (s.unset id a) wake = [] ∨
      ∃ x ∈ left mktime (s.unset id a) wake, x.daysec ≠ now.alarmMkdaysec) ↔ s.RemoveInTime mktime id wake now := by
    unfold RemoveInTime
    rw [if_pos hcur, List.eq_nil_iff_forall_not_mem]
    refine or_congr ?_ ?_
    · exact ⟨fun h x hx => not_not.mp fun hid => h x (mem_left_unset.mpr ⟨hx, hid⟩), fun h x hx =>
        (mem_left_unset.mp hx).2 (h x (mem_left_unset.mp hx).1)⟩
    · exact ⟨fun ⟨x, hx, hne⟩ => ⟨x, (mem_left_unset.mp hx).1, (mem_left_unset.mp hx).2, hne⟩,
        fun ⟨x, hx, hid, hne⟩ => ⟨x, mem_left_unset.mpr ⟨hx, hid⟩, hne⟩⟩
  rw [← hiff]
  exact i.toAlarmWf.unset.reset mktime wake rfl rfl hnow

variable (mktime wake) in
/-- The alarm that is removed is not the new `current`. -/
theorem AlarmWf.unset_update (w : AlarmWf s) (hnow : now.InDay) :
    ((s.unset id a).alarmUpdate mktime wake now).current ≠ some id ∧
      ∀ x ∈ ((s.unset id a).alarmUpdate mktime wake now).started, x.id ≠ id := by
  obtain ⟨-, hstarted, hupdated⟩ := (w.unset : AlarmWf (s.unset id a)).update mktime wake hnow
  rw [hstarted]
  refine ⟨?_, fun x hx => (mem_left_unset.mp hx).2⟩
  cases hupdated with
  | found m hm _ _ _ hcurrent _ =>
      rw [hcurrent]
      exact fun h => (mem_left_unset.mp hm).2 (Option.some.inj h)
  | none _ hcurrent _ =>
      rw [hcurrent]
      exact fun h => by cases h

theorem CurrentNearest.congr {as bs : List Alarm} (h : ∀ x, x ∈ as ↔ x ∈ bs) :
    s.CurrentNearest as now ↔ s.CurrentNearest bs now := by
  unfold CurrentNearest
  simp only [h]

theorem Nearest.congr {s' : AlarmSys} (hrtc : s'.rtc = s.rtc) (h : ∀ x, x ∈ s'.started ↔ x ∈ s.started) :
    s'.Nearest now ↔ s.Nearest now := by
  unfold Nearest
  simp only [ne_eq, List.eq_nil_iff_forall_not_mem, h, hrtc]

/-- The started alarms without one that is not `current`. -/
theorem mem_started_filter : x ∈ s.started.filter (fun x => x.id ≠ id) ↔ x ∈ s.started ∧ x.id ≠ id := by
  rw [List.mem_filter, decide_eq_true_iff]

/-- **Removing another alarm** than `current` sets nothing. -/
theorem AlarmInv.removeOther {s' : AlarmSys} (i : AlarmInv s) (hcur : s.current ≠ some id) (w : AlarmWf s')
    (hcurrent : s'.current = s.current) (hrtc : s'.rtc = s.rtc) (hstarted : ∀ x, x ∈ s'.started ↔ x ∈ s.started ∧ x.id ≠ id) :
    (s'.Nearest now ↔ s.RemoveInTime mktime id wake now) ∧ (s.RemoveInTime mktime id wake now → AlarmInv s') := by
  obtain ⟨i', hiff⟩ := i.quiet now w hcurrent hrtc (fun x hx => ((hstarted x).mp hx).1) fun c hc hc' =>
    (hstarted c).mpr ⟨hc, fun hid => hcur (hid ▸ hc')⟩
  refine ⟨?_, fun _ => i'⟩
  rw [hiff, RemoveInTime, if_neg hcur]
  exact CurrentNearest.congr fun x => (hstarted x).trans mem_started_filter.symm

/-- Removing an alarm that is not started changes nothing. -/
theorem AlarmInv.removeNone (i : AlarmInv s) (hid : ∀ x ∈ s.started, x.id ≠ id) :
    (s.Nearest now ↔ s.RemoveInTime mktime id wake now) ∧ (s.RemoveInTime mktime id wake now → AlarmInv s) := by
  by_cases hcur : s.current = some id
  · -- then nothing is started at all
    have hempty : s.started = [] := by
      by_contra hne
      obtain ⟨c, hc, hc', -⟩ := i.live hne
      exact hid c hc (Option.some.inj (hc'.symm.trans hcur))
    refine ⟨⟨fun _ => ?_, fun _ h => absurd hempty h⟩, fun _ => i⟩
    rw [RemoveInTime, if_pos hcur]
    refine .inl fun x hx => ?_
    have hx' := (mem_left.mp hx).1
    rw [hempty] at hx'
    cases hx'
  · exact i.removeOther hcur i.toAlarmWf rfl rfl fun x => ⟨fun hx => ⟨hx, hid x hx⟩, fun hx => hx.1⟩

/-- **`rt_alarm_stop`.** -/
theorem AlarmInv.stop (i : AlarmInv s) (hnow : now.InDay) :
    ((s.rtAlarmStop mktime id wake now).Nearest now ↔ s.RemoveInTime mktime id wake now) ∧
      (s.RemoveInTime mktime id wake now → AlarmInv (s.rtAlarmStop mktime id wake now)) := by
  unfold rtAlarmStop
  cases hf : s.find id with
  | none => exact i.removeNone fun x hx => find_none hf x (mem_started.mp hx).1
  | some a =>
      obtain ⟨ha, hid⟩ := find_some hf
      dsimp only
      by_cases hs : a.started = true
      · rw [if_pos hs]
        by_cases hcur : s.current = some id
        · rw [if_pos (show (s.write id Alarm.stop).current = some id from hcur)]
          exact i.removeCurrent mktime wake hcur hnow
        · rw [if_neg (show (s.write id Alarm.stop).current ≠ some id from hcur)]
          exact i.removeOther hcur i.write_stop rfl rfl fun x => mem_started_write_stop
      · rw [if_neg hs]
        refine i.removeNone fun x hx hxid => hs ?_
        rw [i.eq_of_id ha (mem_started.mp hx).1 (hid.trans hxid.symm)]
        exact (mem_started.mp hx).2

theorem AlarmWf.erase (w : AlarmWf s) (hcur : s.current ≠ some id) :
    AlarmWf { s with alarms := s.alarms.filter fun a => a.id ≠ id } where
  nodup := w.nodup.sublist (List.filter_sublist.map Alarm.id)
  inDay b hb := w.inDay b (List.mem_filter.mp hb).1
  inited b hb := w.inited b (List.mem_filter.mp hb).1
  current_mem k hk := by
    obtain ⟨b, hb, hbid⟩ := w.current_mem k hk
    exact ⟨b, List.mem_filter.mpr ⟨hb, by simpa using fun h : b.id = id => hcur (by rw [hk, ← hbid, h])⟩, hbid⟩

theorem mem_started_erase : x ∈ started { s with alarms := s.alarms.filter fun a => a.id ≠ id } ↔
    x ∈ s.started ∧ x.id ≠ id := by
  unfold started
  simp [and_assoc]

/-- **`rt_alarm_delete`.** -/
theorem AlarmInv.delete (i : AlarmInv s) (hnow : now.InDay) :
    ((s.rtAlarmDelete mktime id wake now).Nearest now ↔ s.RemoveInTime mktime id wake now) ∧
      (s.RemoveInTime mktime id wake now → AlarmInv (s.rtAlarmDelete mktime id wake now)) := by
  unfold rtAlarmDelete
  cases hf : s.find id with
  | none => exact i.removeNone fun x hx => find_none hf x (mem_started.mp hx).1
  | some a =>
      obtain ⟨ha, hid⟩ := find_some hf
      dsimp only
      by_cases hcur : s.current = some id
      · rw [if_pos (show (s.write id Alarm.stop).current = some id from hcur)]
        obtain ⟨hiff, hinv⟩ := i.removeCurrent mktime wake (a := a) hcur hnow
        obtain ⟨hne, hids⟩ := i.toAlarmWf.unset_update mktime wake (a := a) hnow
        show (Nearest { (s.unset id a).alarmUpdate mktime wake now with
          alarms := ((s.unset id a).alarmUpdate mktime wake now).alarms.filter fun a => a.id ≠ id } now ↔ _) ∧
          (_ → AlarmInv { (s.unset id a).alarmUpdate mktime wake now with
            alarms := ((s.unset id a).alarmUpdate mktime wake now).alarms.filter fun a => a.id ≠ id })
        generalize (s.unset id a).alarmUpdate mktime wake now = s' at hiff hinv hne hids
        have hstarted : ∀ x, x ∈ started { s' with alarms := s'.alarms.filter fun a => a.id ≠ id } ↔ x ∈ s'.started :=
          fun x => mem_started_erase.trans ⟨fun h => h.1, fun h => ⟨h, hids x h⟩⟩
        refine ⟨?_, fun h => ?_⟩
        · rw [← hiff]
          exact Nearest.congr rfl hstarted
        · exact ((hinv h).quiet now ((hinv h).erase hne) rfl rfl (fun x hx => (hstarted x).mp hx)
            fun c hc _ => (hstarted c).mpr hc).1
      · rw [if_neg (show (s.write id Alarm.stop).current ≠ some id from hcur)]
        refine i.removeOther hcur (i.write_stop.erase hcur) rfl rfl fun x => ?_
        rw [mem_started_erase, mem_started_write_stop]
        exact ⟨fun h => h.1, fun h => ⟨h, h.2⟩⟩

end Calls

/-! ## Starting -/

section Start

variable {s : AlarmSys} {setup now : Tm} {a b x : Alarm} {id : Nat}

/-- The alarm that `rt_alarm_start` starts, if it does. -/
def toStart (s : AlarmSys) (id : Nat) (setup : Tm) : Option Alarm :=
  (s.find id).bind fun a =>
    if (a.setupOnce setup).1 && !(a.setupOnce setup).2.started then some { (a.setupOnce setup).2 with started := true }
    else none

/-- When `rt_alarm_start` is in time, for the alarm `a`. Either `current` is started, nearest, and not due in this second
(unless `a` is, too). Or the comparison replaces `current`, and `a` is the nearest one. -/
def SetInTime (s : AlarmSys) (a : Alarm) (now : Tm) : Prop :=
  (∃ c ∈ s.started, (s.current = some c.id ∧ (c.daysec = now.alarmMkdaysec → a.daysec = now.alarmMkdaysec)) ∧
      ∀ x ∈ s.started, clockDist now.alarmMkdaysec c.daysec ≤ clockDist now.alarmMkdaysec x.daysec) ∨
    (s.current ≠ some a.id ∧
      ∀ c ∈ s.alarms, s.current = some c.id → replaces now.alarmMkdaysec c.daysec a.daysec = true) ∧
      ∀ x ∈ s.started, clockDist now.alarmMkdaysec a.daysec ≤ clockDist now.alarmMkdaysec x.daysec

/-- When `rt_alarm_start` is in time. -/
def StartInTime (s : AlarmSys) (id : Nat) (setup now : Tm) : Prop :=
  match s.toStart id setup with
  | some a => s.SetInTime a now
  | none => s.CurrentNearest s.started now

theorem mem_write (ha : a ∈ s.alarms) (hid : a.id = id) :
    x ∈ (s.write id fun _ => b).alarms ↔ (x ∈ s.alarms ∧ x.id ≠ id) ∨ x = b := by
  constructor
  · intro hx
    obtain ⟨y, hy, rfl⟩ := List.mem_map.mp hx
    split_ifs with h
    · exact .inr rfl
    · exact .inl ⟨hy, h⟩
  · rintro (⟨hx, hne⟩ | rfl)
    · exact List.mem_map.mpr ⟨x, hx, if_neg hne⟩
    · exact List.mem_map.mpr ⟨a, ha, if_pos hid⟩

/-- What is set up is written back. -/
theorem AlarmWf.write_setup (w : AlarmWf s) (ha : a ∈ s.alarms) (hid : a.id = id) (hsetup : setup.InDay) :
    AlarmWf (s.write id fun _ => (a.setupOnce setup).2) :=
  w.write fun y hy hyid => by
    obtain rfl : a = y := w.eq_of_id ha hy (hid.trans hyid.symm)
    refine ⟨Alarm.setupOnce_id.trans hid, Alarm.setupOnce_inDay hsetup (w.inDay a ha), fun hs => ?_⟩
    rw [Alarm.setupOnce_started] at hs
    rw [Alarm.setupOnce_of_inited (w.inited a ha hs)]
    exact w.inited a ha hs

variable (now) in
/-- `rt_alarm_start` that does not start the alarm. -/
theorem AlarmInv.startNone (i : AlarmInv s) (ha : a ∈ s.alarms) (hid : a.id = id) (hsetup : setup.InDay)
    (hnot : ¬ ((a.setupOnce setup).1 && !(a.setupOnce setup).2.started) = true) :
    AlarmInv (s.write id fun _ => (a.setupOnce setup).2) ∧
      ((s.write id fun _ => (a.setupOnce setup).2).Nearest now ↔ s.CurrentNearest s.started now) := by
  have hmem : ∀ x, x ∈ (s.write id fun _ => (a.setupOnce setup).2).started ↔ x ∈ s.started := fun x => by
    rw [mem_started, mem_started, mem_write ha hid]
    by_cases hs : a.started = true
    · -- a started alarm is set up already
      rw [Alarm.setupOnce_of_inited (i.inited a ha hs)]
      constructor
      · rintro ⟨⟨hx, -⟩ | rfl, hxs⟩
        · exact ⟨hx, hxs⟩
        · exact ⟨ha, hxs⟩
      · rintro ⟨hx, hxs⟩
        by_cases hxid : x.id = id
        · exact ⟨.inr (i.eq_of_id hx ha (hxid.trans hid.symm)), hxs⟩
        · exact ⟨.inl ⟨hx, hxid⟩, hxs⟩
    · constructor
      · rintro ⟨⟨hx, -⟩ | rfl, hxs⟩
        · exact ⟨hx, hxs⟩
        · rw [Alarm.setupOnce_started] at hxs
          exact absurd hxs hs
      · rintro ⟨hx, hxs⟩
        refine ⟨.inl ⟨hx, fun hxid => hs ?_⟩, hxs⟩
        rw [i.eq_of_id ha hx (hid.trans hxid.symm)]
        exact hxs
  obtain ⟨i', hiff⟩ := i.quiet now (i.write_setup ha hid hsetup) rfl rfl (fun x hx => (hmem x).mp hx)
    fun c hc _ => (hmem c).mpr hc
  exact ⟨i', hiff.trans (CurrentNearest.congr hmem)⟩

/-- The state behind the alarm `b` was started, in front of the comparison. -/
structure Started (s s' : AlarmSys) (b : Alarm) : Prop extends AlarmWf s' where
  mem : b ∈ s'.started
  started_iff : ∀ x, x ∈ s'.started ↔ x ∈ s.started ∨ x = b
  id_ne : ∀ x ∈ s.started, x.id ≠ b.id
  alarms_iff : ∀ x, x ∈ s'.alarms ↔ (x ∈ s.alarms ∧ x.id ≠ b.id) ∨ x = b
  current_eq : s'.current = s.current
  rtc_eq : s'.rtc = s.rtc

section Compare

variable {s' : AlarmSys} {c : Alarm}

/-- Another alarm is still the same one. -/
theorem Started.eq_of_id (h : Started s s' b) (hx : x ∈ s.alarms) (hne : x.id ≠ b.id) (hc : c ∈ s'.alarms)
    (hid : x.id = c.id) : x = c :=
  h.toAlarmWf.eq_of_id ((h.alarms_iff x).mpr (.inl ⟨hx, hne⟩)) hc hid

variable (now) in
/-- Setting the RTC to the alarm that was started. -/
theorem Started.set (h : Started s s' b) : AlarmInv { s'.alarmSet b with current := some b.id } ∧
    (Nearest { s'.alarmSet b with current := some b.id } now ↔
      ∀ x ∈ s.started, clockDist now.alarmMkdaysec b.daysec ≤ clockDist now.alarmMkdaysec x.daysec) := by
  have hb : b ∈ started { s'.alarmSet b with current := some b.id } := h.mem
  refine ⟨⟨⟨h.nodup, h.inDay, h.inited, fun k hk => ?_⟩, fun he => absurd he (List.ne_nil_of_mem hb),
    fun _ => ⟨b, hb, rfl, rfl⟩⟩, ?_⟩
  · exact ⟨b, (mem_started.mp h.mem).1, Option.some.inj hk⟩
  · rw [nearest_iff hb rfl]
    constructor
    · exact fun hall x hx => hall x ((h.started_iff x).mpr (.inl hx))
    · intro hall x hx
      rcases (h.started_iff x).mp hx with hx | rfl
      · exact hall x hx
      · exact le_rfl

/-- The alarm that is compared with. -/
theorem Started.compared (h : Started s s' b) (hc : s'.current.bind s'.find = some c) :
    c ∈ s'.alarms ∧ s.current = some c.id := by
  obtain ⟨k, hk, hf⟩ := Option.bind_eq_some_iff.mp hc
  obtain ⟨hmem, hid⟩ := find_some hf
  exact ⟨hmem, by rw [← h.current_eq, hk, hid]⟩

/-- **There is no `current`.** -/
theorem Started.first (h : Started s s' b) (hc : s'.current.bind s'.find = none) :
    (∀ x ∈ s.started, clockDist now.alarmMkdaysec b.daysec ≤ clockDist now.alarmMkdaysec x.daysec) ↔ s.SetInTime b now := by
  have hcur : s.current = none := by
    rw [← h.current_eq]
    cases hk : s'.current with
    | none => rfl
    | some k =>
        obtain ⟨c, hcmem, rfl⟩ := h.current_mem k hk
        rw [hk, Option.bind_some, h.toAlarmWf.find_eq hcmem] at hc
        cases hc
  have hnot : ∀ k, s.current ≠ some k := fun k => by rw [hcur]; exact fun hk => by cases hk
  constructor
  · exact fun hall => .inr ⟨⟨hnot _, fun c _ hc => absurd hc (hnot _)⟩, hall⟩
  · rintro (⟨c, -, ⟨hc, -⟩, -⟩ | ⟨-, hall⟩)
    · exact absurd hc (hnot _)
    · exact hall

/-- **The comparison replaces `current`.** -/
theorem Started.replace (h : Started s s' b) (i : AlarmInv s) (hc : c ∈ s'.alarms) (hcur : s.current = some c.id)
    (hr : replaces now.alarmMkdaysec c.daysec b.daysec = true) :
    (∀ x ∈ s.started, clockDist now.alarmMkdaysec b.daysec ≤ clockDist now.alarmMkdaysec x.daysec) ↔ s.SetInTime b now := by
  have hbday : InDaysec b.daysec := h.toAlarmWf.daysec h.mem
  constructor
  · intro hall
    have hne : c.id ≠ b.id := fun hid => by
      obtain rfl : c = b := h.toAlarmWf.eq_of_id hc (mem_started.mp h.mem).1 hid
      have hlt := ((replaces_iff hbday hbday).mp hr).2
      omega
    refine .inr ⟨⟨fun hid => hne (Option.some.inj (hcur.symm.trans hid)), fun d hd hdcur => ?_⟩, hall⟩
    have hdid : d.id = c.id := Option.some.inj (hdcur.symm.trans hcur)
    rw [h.eq_of_id hd (hdid ▸ hne) hc hdid]
    exact hr
  · rintro (⟨d, hd, ⟨hdcur, -⟩, hall⟩ | ⟨-, hall⟩) x hx
    · obtain rfl : d = c := h.eq_of_id (mem_started.mp hd).1 (h.id_ne d hd) hc (Option.some.inj (hdcur.symm.trans hcur))
      have hlt := ((replaces_iff (i.daysec hd) hbday).mp hr).2
      exact hlt.le.trans (hall x hx)
    · exact hall x hx

/-- **The comparison keeps `current`.** -/
theorem Started.keep (h : Started s s' b) (i : AlarmInv s) (hnow : now.InDay) (hc : c ∈ s'.alarms)
    (hcur : s.current = some c.id) (hr : ¬ replaces now.alarmMkdaysec c.daysec b.daysec = true) :
    (s'.Nearest now ↔ s.SetInTime b now) ∧ (s.SetInTime b now → AlarmInv s') := by
  have hbday : InDaysec b.daysec := h.toAlarmWf.daysec h.mem
  have hne : s'.started ≠ [] := List.ne_nil_of_mem h.mem
  -- the second case of being in time is that it replaces
  have hsecond : ¬ ((s.current ≠ some b.id ∧
      ∀ c ∈ s.alarms, s.current = some c.id → replaces now.alarmMkdaysec c.daysec b.daysec = true) ∧
      ∀ x ∈ s.started, clockDist now.alarmMkdaysec b.daysec ≤ clockDist now.alarmMkdaysec x.daysec) := by
    rintro ⟨⟨hbcur, hall⟩, -⟩
    rcases (h.alarms_iff c).mp hc with ⟨hc', -⟩ | rfl
    · exact hr (hall c hc' hcur)
    · exact hbcur hcur
  by_cases hempty : s.started = []
  · have hoff : s'.rtc.enable = false := by
      rw [h.rtc_eq]
      exact i.idle hempty
    have hfalse : ¬ s.SetInTime b now := by
      rintro (⟨d, hd, -⟩ | hsec)
      · rw [hempty] at hd
        cases hd
      · exact hsecond hsec
    exact ⟨⟨fun hn => absurd hn (not_nearest hne hoff), fun hs => absurd hs hfalse⟩, fun hs => absurd hs hfalse⟩
  · obtain ⟨d, hd, hdcur, hset⟩ := i.live hempty
    obtain rfl : d = c := h.eq_of_id (mem_started.mp hd).1 (h.id_ne d hd) hc (Option.some.inj (hdcur.symm.trans hcur))
    have hd' : d ∈ s'.started := (h.started_iff d).mpr (.inl hd)
    have hrtc : s'.rtc = d.wkalarm := h.rtc_eq.trans hset
    refine ⟨?_, fun _ => ⟨h.toAlarmWf, fun he => absurd he hne, fun _ => ⟨d, hd', h.current_eq.trans hdcur, hrtc⟩⟩⟩
    rw [nearest_iff hd' hrtc]
    constructor
    · intro hall
      refine .inl ⟨d, hd, ⟨hdcur, fun hdue => ?_⟩, fun x hx => hall x ((h.started_iff x).mpr (.inl hx))⟩
      have hle := hall b h.mem
      rw [hdue, clockDist_self] at hle
      exact eq_of_clockDist hnow.daysec hbday hle
    · rintro (⟨e, he, ⟨hecur, hdue⟩, hall⟩ | hsec) x hx
      · obtain rfl : e = d := i.eq_of_id (mem_started.mp he).1 (mem_started.mp hd).1
          (Option.some.inj (hecur.symm.trans hdcur))
        rcases (h.started_iff x).mp hx with hx | rfl
        · exact hall x hx
        · rw [replaces_iff (i.daysec he) hbday] at hr
          by_cases hen : e.daysec = now.alarmMkdaysec
          · rw [hen, hdue hen]
          · exact not_lt.mp fun hlt => hr ⟨hen, hlt⟩
      · exact absurd hsec hsecond

end Compare

/-- The end of `rt_alarm_start`. -/
def compare (s : AlarmSys) (b : Alarm) (secNow : Int) : AlarmSys :=
  match s.current.bind s.find with
  | none => { s.alarmSet b with current := some b.id }
  | some c => if replaces secNow c.daysec b.daysec then { s.alarmSet b with current := some b.id } else s

/-- **`rt_alarm_start`.** -/
theorem AlarmInv.start (i : AlarmInv s) (hsetup : setup.InDay) (hnow : now.InDay) :
    ((s.rtAlarmStart id setup now).Nearest now ↔ s.StartInTime id setup now) ∧
      (s.StartInTime id setup now → AlarmInv (s.rtAlarmStart id setup now)) := by
  unfold rtAlarmStart StartInTime toStart
  cases hf : s.find id with
  | none =>
      obtain ⟨i', hiff⟩ := i.quiet now i.toAlarmWf rfl rfl (fun x hx => hx) fun c hc _ => hc
      exact ⟨hiff, fun _ => i'⟩
  | some a =>
      obtain ⟨ha, hid⟩ := find_some hf
      dsimp only [Option.bind_some]
      by_cases hstart : ((a.setupOnce setup).1 && !(a.setupOnce setup).2.started) = true
      · rw [if_pos hstart, if_pos hstart]
        obtain ⟨hok, hs⟩ : (a.setupOnce setup).1 = true ∧ (a.setupOnce setup).2.started = false := by simpa using hstart
        have has : a.started = false := Alarm.setupOnce_started.symm.trans hs
        obtain ⟨b, hb⟩ : ∃ b, b = { (a.setupOnce setup).2 with started := true } := ⟨_, rfl⟩
        have hbid : b.id = id := by
          rw [hb]
          exact Alarm.setupOnce_id.trans hid
        have hbs : b.started = true := by rw [hb]
        have w : AlarmWf (s.write id fun _ => b) := i.toAlarmWf.write fun y hy hyid => by
          rw [hb]
          exact ⟨Alarm.setupOnce_id.trans hid, Alarm.setupOnce_inDay hsetup (i.inDay a ha),
            fun _ => Alarm.setupOnce_inited hok⟩
        have hnot : ∀ x ∈ s.started, x.id ≠ id := fun x hx hxid => by
          obtain ⟨hx, hxs⟩ := mem_started.mp hx
          rw [i.eq_of_id hx ha (hxid.trans hid.symm), has] at hxs
          cases hxs
        have h : Started s (s.write id fun _ => b) b := by
          refine ⟨w, mem_started.mpr ⟨(mem_write ha hid).mpr (.inr rfl), hbs⟩, fun x => ?_, fun x hx => hbid ▸ hnot x hx,
            fun x => (by rw [hbid]; exact mem_write ha hid), rfl, rfl⟩
          rw [mem_started, mem_started, mem_write ha hid]
          constructor
          · rintro ⟨⟨hx, -⟩ | rfl, hxs⟩
            · exact .inl ⟨hx, hxs⟩
            · exact .inr rfl
          · rintro (⟨hx, hxs⟩ | rfl)
            · exact ⟨.inl ⟨hx, hnot x (mem_started.mpr ⟨hx, hxs⟩)⟩, hxs⟩
            · exact ⟨.inr rfl, hbs⟩
        rw [← hb, ← hbid]
        rw [← hbid] at h
        generalize s.write b.id (fun _ => b) = s' at h
        show (Nearest (s'.compare b now.alarmMkdaysec) now ↔ s.SetInTime b now) ∧
          (s.SetInTime b now → AlarmInv (s'.compare b now.alarmMkdaysec))
        unfold compare
        cases hc : s'.current.bind s'.find with
        | none =>
            obtain ⟨i', hiff⟩ := h.set now
            exact ⟨hiff.trans (h.first hc), fun _ => i'⟩
        | some c =>
            obtain ⟨hcmem, hcur⟩ := h.compared hc
            by_cases hr : replaces now.alarmMkdaysec c.daysec b.daysec = true
            · obtain ⟨i', hiff⟩ := h.set now
              dsimp only
              rw [if_pos hr]
              exact ⟨hiff.trans (h.replace i hcmem hcur hr), fun _ => i'⟩
            · dsimp only
              rw [if_neg hr]
              exact h.keep i hnow hcmem hcur hr
      · rw [if_neg hstart, if_neg hstart]
        obtain ⟨i', hiff⟩ := i.startNone now ha hid hsetup hstart
        exact ⟨hiff, fun _ => i'⟩

end Start

/-! ## Runs -/

section Runs

variable {mktime : Tm → Int} {s s' : AlarmSys} {e : AlarmEvent} {es : List AlarmEvent}

/-- When an operation leaves the RTC set to a nearest alarm. -/
def InTime (mktime : Tm → Int) (s : AlarmSys) : AlarmEvent → Prop
  | .create _ _ _ _ now => s.CurrentNearest s.started now.1
  | .start id setup now => s.StartInTime id setup.1 now.1
  | .stop id wake now => s.RemoveInTime mktime id wake.1 now.1
  | .delete id wake now => s.RemoveInTime mktime id wake.1 now.1
  | .update wake now => s.UpdateInTime mktime wake.1 now.1

/-- **One operation** sets the nearest alarm if and only if it is in time. -/
theorem AlarmInv.step (i : AlarmInv s) (h : Step mktime s e s') :
    (s'.Nearest (time e) ↔ s.InTime mktime e) ∧ (s.InTime mktime e → AlarmInv s') := by
  unfold Step exec at h
  cases e with
  | create id kind callback wktime now =>
      dsimp only at h
      split_ifs at h with hid
      cases h
      obtain ⟨i', hiff⟩ := i.create now.1 kind callback wktime (Option.isNone_iff_eq_none.mp hid)
      exact ⟨hiff, fun _ => i'⟩
  | start id setup now =>
      cases h
      exact i.start setup.2 now.2
  | stop id wake now =>
      cases h
      exact i.stop now.2
  | delete id wake now =>
      cases h
      exact i.delete now.2
  | update wake now =>
      cases h
      exact i.update mktime wake.1 now.2

theorem AlarmInv.init : AlarmInv init where
  nodup := List.nodup_nil
  inDay a ha := absurd ha List.not_mem_nil
  inited a ha := absurd ha List.not_mem_nil
  current_mem id hid := by cases hid
  idle _ := rfl
  live h := absurd rfl h

/-- The invariant holds on a run whose operations are in time. -/
theorem AlarmInv.run (h : Run (Guarded (InTime mktime) (Step mktime)) AlarmSys.init es s) : AlarmInv s := by
  induction h with
  | nil => exact .init
  | snoc _ hstep ih => exact (ih.step hstep.2).2 hstep.1

/-- **The RTC is set to a nearest started alarm** behind each operation of a run whose operations are in time; and behind
such a run, an operation leaves it so if and only if it is in time. -/
theorem rtc_nearest (h : Run (Guarded (InTime mktime) (Step mktime)) AlarmSys.init es s) :
    (∀ e ∈ es.getLast?, s.Nearest (time e)) ∧
      ∀ e s', Step mktime s e s' → (s'.Nearest (time e) ↔ s.InTime mktime e) := by
  refine ⟨fun e he => ?_, fun e s' hstep => ((AlarmInv.run h).step hstep).1⟩
  cases h with
  | nil => cases he
  | snoc hrun hstep =>
      obtain rfl : e = _ := by simpa [eq_comm] using he
      exact ((AlarmInv.run hrun).step hstep.2).1.mpr hstep.1

end Runs

/-! ## Two runs -/

/-- `mktime` in UTC. -/
def mktimeUtc (t : Tm) : Int :=
  let y := t.year + 1900 - if t.mon < 2 then 1 else 0
  let days := 365 * y + y / 4 - y / 100 + y / 400 + (153 * ((t.mon + 10) % 12) + 2) / 5 + t.mday - 719469
  days * 86400 + t.alarmMkdaysec

example : mktimeUtc ⟨0, 0, 0, 13, 5, 124, 4⟩ = 1718236800 := by decide

/-- A time on the 13th of June 2024, a Thursday. -/
def thursday (hour min sec : Int) (h : Tm.InDay ⟨sec, min, hour, 13, 5, 124, 4⟩ := by decide) : Clock := ⟨_, h⟩

/-- A daily alarm, in the time that is given to `rt_alarm_create`. -/
def dailyAt (hour min sec : Int) : Tm := ⟨sec, min, hour, -1, -1, -1, -1⟩

section Decide

variable (mktime : Tm → Int) (s : AlarmSys) (as : List Alarm) (a : Alarm) (id : Nat) (setup wake now : Tm)

instance : Decidable (s.CurrentNearest as now) := inferInstanceAs (Decidable (∀ _ ∈ _, _ → ∀ _ ∈ _, _))

instance : Decidable (s.SetInTime a now) := inferInstanceAs (Decidable (_ ∨ _))

theorem startInTime_iff : s.StartInTime id setup now ↔ (∀ a ∈ s.toStart id setup, s.SetInTime a now) ∧
    (s.toStart id setup = none → s.CurrentNearest s.started now) := by
  unfold StartInTime
  cases s.toStart id setup <;> simp

instance : Decidable (s.StartInTime id setup now) := decidable_of_iff _ (s.startInTime_iff id setup now).symm

instance : Decidable (s.RemoveInTime mktime id wake now) :=
  inferInstanceAs (Decidable (if s.current = some id then
    (∀ x ∈ s.left mktime wake, x.id = id) ∨ ∃ x ∈ s.left mktime wake, x.id ≠ id ∧ x.daysec ≠ now.alarmMkdaysec
  else s.CurrentNearest (s.started.filter fun x => x.id ≠ id) now))

instance : Decidable (s.UpdateInTime mktime wake now) := inferInstanceAs (Decidable (_ ∨ _))

instance : ∀ e, Decidable (s.InTime mktime e)
  | .create _ _ _ _ now => inferInstanceAs (Decidable (s.CurrentNearest s.started now.1))
  | .start id setup now => inferInstanceAs (Decidable (s.StartInTime id setup.1 now.1))
  | .stop id wake now => inferInstanceAs (Decidable (s.RemoveInTime mktime id wake.1 now.1))
  | .delete id wake now => inferInstanceAs (Decidable (s.RemoveInTime mktime id wake.1 now.1))
  | .update wake now => inferInstanceAs (Decidable (s.UpdateInTime mktime wake.1 now.1))

end Decide

/-- Three daily alarms. The first one goes off, the second one is stopped, and the third one is deleted. -/
def threeDaily : List AlarmEvent :=
  [.create 1 rtAlarmDaily true (dailyAt 7 0 0) (thursday 6 0 0),
    .start 1 (thursday 6 0 0) (thursday 6 0 0),
    .create 2 rtAlarmDaily true (dailyAt 12 0 0) (thursday 6 0 1),
    .start 2 (thursday 6 0 1) (thursday 6 0 1),
    .create 3 rtAlarmDaily true (dailyAt 20 0 0) (thursday 6 0 2),
    .start 3 (thursday 6 0 2) (thursday 6 0 2),
    .update (thursday 7 0 0) (thursday 7 0 0),
    .stop 2 (thursday 10 0 0) (thursday 10 0 0),
    .delete 3 (thursday 11 0 0) (thursday 11 0 1)]

/-- A run in time: the RTC is set to the first alarm again. -/
theorem rtc_nearest_run : ∃ s, Run (Guarded (InTime mktimeUtc) (Step mktimeUtc)) AlarmSys.init threeDaily s ∧
    s.Nearest (thursday 11 0 1).1 ∧ s.rtc = ⟨true, 0, 0, 7⟩ := by
  obtain ⟨s, hs, hrtc⟩ := Option.map_eq_some_iff.mp (show (threeDaily.foldlM
    (fun (s : AlarmSys) e => if s.InTime mktimeUtc e then s.exec mktimeUtc e else none) AlarmSys.init).map AlarmSys.rtc =
      some ⟨true, 0, 0, 7⟩ by decide +kernel)
  have hrun : Run (Guarded (InTime mktimeUtc) (Step mktimeUtc)) AlarmSys.init threeDaily s :=
    Run.of_foldlM_guarded (fun _ _ _ h => h) hs
  exact ⟨s, hrun, (rtc_nearest hrun).1 _ rfl, hrtc⟩

/-- A one-shot alarm goes off, and a daily one is started then. -/
def oneshotThenDaily : List AlarmEvent :=
  [.create 1 rtAlarmOneshot true (dailyAt 7 0 0) (thursday 6 0 0),
    .start 1 (thursday 6 0 0) (thursday 6 0 0),
    .update (thursday 7 0 0) (thursday 7 0 0),
    .create 2 rtAlarmDaily true (dailyAt 7 30 0) (thursday 8 0 0),
    .start 2 (thursday 8 0 0) (thursday 8 0 0)]

/-- **The RTC is not set**, though the daily alarm is started: it is compared with the one-shot alarm, which is over. -/
theorem rtc_stale_current : ∃ s, Run (Step mktimeUtc) AlarmSys.init oneshotThenDaily s ∧ s.started ≠ [] ∧
    s.rtc.enable = false ∧ ¬ s.Nearest (thursday 8 0 0).1 := by
  obtain ⟨s, hs, hstarted, hrtc⟩ : ∃ s, oneshotThenDaily.foldlM (AlarmSys.exec mktimeUtc) AlarmSys.init = some s ∧
      s.started ≠ [] ∧ s.rtc.enable = false := by
    obtain ⟨s, hs, hst⟩ := Option.map_eq_some_iff.mp (show (oneshotThenDaily.foldlM (AlarmSys.exec mktimeUtc)
      AlarmSys.init).map (fun s => (s.started.isEmpty, s.rtc.enable)) = some (false, false) by decide +kernel)
    obtain ⟨hst, hrtc⟩ := Prod.mk.inj hst
    exact ⟨s, hs, by simpa using hst, hrtc⟩
  exact ⟨s, Run.of_foldlM (fun _ _ _ h => h) hs, hstarted, hrtc, not_nearest hstarted hrtc⟩

end AlarmSys

end CoreLink.RtThread
