/-
# `CoreLink.RtThread.TimerFlags` — `RT_TIMER_FLAG_ACTIVATED` and the lists.

A callback may call `rt_timer_start`, `rt_timer_stop` and `rt_timer_control` on any timer, its own included, while
the check has that timer unlinked and its flag still set. `InSync` says what then holds of the flags and the lists,
and every call keeps it. What a check does after the callback keeps it as well, unless the timer is linked again and
is not periodic: its flag is cleared and it stays linked. A timer that is stopped stays so until it is started.
-/
import CoreLink.RtThread.TimerCalls

namespace CoreLink.RtThread

open CoreLink.Lib

/-- A call from outside: by a thread, an interrupt or a callback. `tick` is `++rt_tick`. -/
inductive TimerCall (T : Type*) where
  | start (t : T)
  | stop (t : T)
  | control (t : T) (cmd : TimerCmd)
  | tick

namespace Timers

variable {T : Type*} [DecidableEq T] [Fintype T] {c : TimerCfg} {s s' : Timers T} {t u : T} {run : Option T}

/-- Makes the call. -/
def call (c : TimerCfg) (s : Timers T) : TimerCall T → Option (Timers T)
  | .start t => s.rtTimerStart c t
  | .stop t => some (s.rtTimerStop c t).2
  | .control t cmd => some (s.rtTimerControl t cmd).2
  | .tick => some { s with tick := s.tick + 1 }

/-- No call moves a timer to another list. -/
theorem listOf_call {q : Nat → TimerList → List T} (h : s.Holds c q) {k : TimerCall T} (hs : s.call c k = some s')
    (u : T) : s'.listOf c u = s.listOf c u := by
  cases k with
  | start t =>
    obtain ⟨q', hst⟩ := started_of_start h hs
    exact hst.listOf u
  | stop t =>
    obtain rfl := Option.some.inj hs
    rw [rtTimerStop]
    split_ifs
    · rw [listOf_setActivated, listOf_timerRemove]
    · rfl
  | control t cmd =>
    obtain rfl := Option.some.inj hs
    exact listOf_congr ((rtTimerControl_spec s t cmd).2 u).1
  | tick =>
    obtain rfl := Option.some.inj hs
    rfl

/-! ## What a check does after a callback -/

/-- **After the callback of `t`**: the list of no timer changes, and no other timer is linked or unlinked. -/
theorem rearm_spec {q : Nat → TimerList → List T} (h : s.Holds c q) (hs : s.rearm c t = some s') :
    (∃ q', s'.Holds c q') ∧ s'.tick = s.tick ∧ (∀ u, s'.listOf c u = s.listOf c u) ∧
      ∀ u, u ≠ t → (s'.Linked c u ↔ s.Linked c u) ∧ s'.timer u = s.timer u := by
  rw [rearm] at hs
  split_ifs at hs with hper
  · obtain ⟨q', hst⟩ := started_of_start (h.setActivated t false) hs
    refine ⟨⟨q', hst.holds⟩, hst.tick, fun u => ?_, fun u hut => ⟨?_, ?_⟩⟩
    · rw [hst.listOf, listOf_setActivated]
    · rw [hst.linked (h.setActivated t false), linked_setActivated]
      exact or_iff_right hut
    · rw [hst.timer, Function.update_of_ne hut, setActivated_timer, Function.update_of_ne hut]
  · obtain rfl := Option.some.inj hs
    refine ⟨⟨q, h.setActivated t false⟩, rfl, fun u => listOf_setActivated, fun u hut => ⟨linked_setActivated, ?_⟩⟩
    rw [setActivated_timer, Function.update_of_ne hut]

omit [DecidableEq T] [Fintype T] in
/-- **The flags agree with the lists**, where `run` is the timer whose callback is running: a linked timer is activated,
and an activated one is linked unless it is that timer. -/
structure InSync (c : TimerCfg) (s : Timers T) (run : Option T) : Prop where
  holds : ∃ q, s.Holds c q
  activated : ∀ t, s.Linked c t → (s.timer t).activated = true
  linked : ∀ t, (s.timer t).activated = true → run ≠ some t → s.Linked c t

namespace InSync

omit [DecidableEq T] [Fintype T] in
theorem iff (h : InSync c s none) : s.Linked c t ↔ (s.timer t).activated = true :=
  ⟨h.activated t, fun ha => h.linked t ha (by simp)⟩

omit [DecidableEq T] [Fintype T] in
theorem init (tick : Tick) (randomNr : BitVec 32) (time : T → Tick) (periodic soft : T → Bool) :
    InSync c (Timers.init tick randomNr fun t => Timer.init (time t) (periodic t) (soft t)) none where
  holds := ⟨_, holds_init _ _ _⟩
  activated t ht := by
    rw [(holds_init tick randomNr _).linked_iff] at ht
    simp at ht
  linked t ht := by cases ht

omit [DecidableEq T] [Fintype T] in
/-- Only the rows and the flags count. -/
theorem congr (h : InSync c s run) (hrows : s'.rows = s.rows)
    (htimer : ∀ u, (s'.timer u).soft = (s.timer u).soft ∧ (s'.timer u).activated = (s.timer u).activated) :
    InSync c s' run where
  holds := h.holds.imp fun _ hq => hq.congr hrows fun u => (htimer u).1
  activated u hu := by
    rw [(htimer u).2]
    exact h.activated u ((linked_congr hrows (htimer u).1).mp hu)
  linked u hu hr := by
    rw [(htimer u).2] at hu
    exact (linked_congr hrows (htimer u).1).mpr (h.linked u hu hr)

/-- A timer is started. -/
theorem start (h : InSync c s run) (hs : s.rtTimerStart c t = some s') : InSync c s' run := by
  obtain ⟨q, hq⟩ := h.holds
  obtain ⟨q', hst⟩ := started_of_start hq hs
  have hact : ∀ u, (s'.timer u).activated = true ↔ u = t ∨ (s.timer u).activated = true := by
    intro u
    rw [hst.timer, Function.update_apply]
    split_ifs with hut <;> simp [hut]
  refine ⟨⟨q', hst.holds⟩, fun u hu => ?_, fun u hu hr => ?_⟩
  · rw [hact]
    exact ((hst.linked hq).mp hu).imp_right (h.activated u)
  · rw [hst.linked hq]
    exact ((hact u).mp hu).imp_right fun ha => h.linked u ha hr

omit [Fintype T] in
/-- A timer is unlinked and its flag cleared. -/
theorem remove (h : InSync c s run) (t : T) : InSync c ((s.timerRemove c t).setActivated t false) run := by
  obtain ⟨q, hq⟩ := h.holds
  have hact : ∀ u, (((s.timerRemove c t).setActivated t false).timer u).activated = true ↔
      u ≠ t ∧ (s.timer u).activated = true := by
    intro u
    rw [setActivated_timer, Function.update_apply, timerRemove_timer]
    split_ifs with hut <;> simp [hut]
  refine ⟨⟨_, (hq.timerRemove t).setActivated t false⟩, fun u hu => ?_, fun u hu hr => ?_⟩
  · rw [linked_setActivated, hq.linked_timerRemove] at hu
    exact (hact u).mpr ⟨hu.1, h.activated u hu.2⟩
  · obtain ⟨hut, ha⟩ := (hact u).mp hu
    rw [linked_setActivated, hq.linked_timerRemove]
    exact ⟨hut, h.linked u ha hr⟩

/-- **Every call** keeps the flags and the lists in step, whoever makes it. -/
theorem call (h : InSync c s run) {k : TimerCall T} (hs : s.call c k = some s') : InSync c s' run := by
  cases k with
  | start t => exact h.start hs
  | stop t =>
    obtain rfl := Option.some.inj hs
    rw [rtTimerStop]
    split_ifs
    · exact h.remove t
    · exact h
  | control t cmd =>
    obtain rfl := Option.some.inj hs
    obtain ⟨hrows, htimer⟩ := rtTimerControl_spec s t cmd
    exact h.congr hrows htimer
  | tick =>
    obtain rfl := Option.some.inj hs
    exact h.congr rfl fun u => ⟨rfl, rfl⟩

omit [Fintype T] in
/-- The check takes a timer off its list and runs its callback. -/
theorem fire (h : InSync c s none) (t : T) : InSync c (s.timerRemove c t) (some t) := by
  obtain ⟨q, hq⟩ := h.holds
  refine ⟨⟨_, hq.timerRemove t⟩, fun u hu => ?_, fun u hu hr => ?_⟩
  · exact h.activated u (hq.linked_timerRemove.mp hu).2
  · rw [hq.linked_timerRemove]
    exact ⟨fun hut => hr (by rw [hut]), h.iff.mpr hu⟩

/-- **After the callback** the flags and the lists are in step exactly if the timer is periodic or was not linked. -/
theorem rearm_iff (h : InSync c s (some t)) (hs : s.rearm c t = some s') :
    InSync c s' none ↔ (s.Linked c t → (s.timer t).periodic = true) := by
  have hoff : ∀ u, ((s.setActivated t false).timer u).activated = true ↔ u ≠ t ∧ (s.timer u).activated = true := by
    intro u
    rw [setActivated_timer, Function.update_apply]
    split_ifs with hut <;> simp [hut]
  have hother : ∀ u, u ≠ t → (s.timer u).activated = true → s.Linked c u := fun u hut ha =>
    h.linked u ha fun he => hut (Option.some.inj he).symm
  rw [rearm] at hs
  split_ifs at hs with hper
  · -- started again
    rw [Bool.and_eq_true] at hper
    refine iff_of_true ?_ fun _ => hper.1
    obtain ⟨q, hq⟩ := h.holds
    have hq₁ := hq.setActivated t false
    obtain ⟨q', hst⟩ := started_of_start hq₁ hs
    have hact : ∀ u, (s'.timer u).activated = true ↔ u = t ∨ (s.timer u).activated = true := by
      intro u
      rw [hst.timer, Function.update_apply]
      split_ifs with hut <;> simp [hut]
    have hlinked : ∀ u, s'.Linked c u ↔ u = t ∨ s.Linked c u := fun u => by
      rw [hst.linked hq₁, linked_setActivated]
    refine ⟨⟨q', hst.holds⟩, fun u hu => ?_, fun u hu _ => ?_⟩
    · rw [hact]
      exact ((hlinked u).mp hu).imp_right (h.activated u)
    · rw [hlinked]
      by_cases hut : u = t
      · exact Or.inl hut
      · exact Or.inr (hother u hut (((hact u).mp hu).resolve_left hut))
  · -- its flag cleared
    obtain rfl := Option.some.inj hs
    have hnp : s.Linked c t → (s.timer t).periodic ≠ true := fun hl hp => hper (by rw [hp, h.activated t hl]; rfl)
    constructor
    · intro h' hl
      have hself := (hoff t).mp (h'.activated t (linked_setActivated.mpr hl))
      exact absurd rfl hself.1
    · intro himp
      have hunlinked : ¬ s.Linked c t := fun hl => hnp hl (himp hl)
      refine ⟨h.holds.imp fun q hq => hq.setActivated t false, fun u hu => ?_, fun u hu _ => ?_⟩
      · rw [linked_setActivated] at hu
        exact (hoff u).mpr ⟨fun hut => hunlinked (hut ▸ hu), h.activated u hu⟩
      · obtain ⟨hut, ha⟩ := (hoff u).mp hu
        exact linked_setActivated.mpr (hother u hut ha)

end InSync

/-! ## A stopped timer -/

omit [DecidableEq T] [Fintype T] in
/-- The timer is not linked, and not activated. -/
def Stopped (c : TimerCfg) (s : Timers T) (t : T) : Prop := ¬ s.Linked c t ∧ (s.timer t).activated = false

omit [Fintype T] in
/-- **`rt_timer_stop`** leaves the timer stopped, whether it returns `RT_EOK` or `-RT_ERROR`. -/
theorem InSync.stopped (h : InSync c s run) (t : T) : (s.rtTimerStop c t).2.Stopped c t := by
  obtain ⟨q, hq⟩ := h.holds
  rw [rtTimerStop]
  split_ifs with hact
  · refine ⟨?_, by simp⟩
    rw [linked_setActivated, hq.linked_timerRemove]
    exact fun hl => hl.1 rfl
  · exact ⟨fun hl => hact (h.activated t hl), by simpa using hact⟩

/-- Starting another timer leaves it stopped. -/
theorem Stopped.start (h : s.Stopped c t) {q : Nat → TimerList → List T} (hq : s.Holds c q)
    (hs : s.rtTimerStart c u = some s') (hut : t ≠ u) : s'.Stopped c t := by
  obtain ⟨q', hst⟩ := started_of_start hq hs
  refine ⟨?_, ?_⟩
  · rw [hst.linked hq]
    exact not_or.mpr ⟨hut, h.1⟩
  · rw [hst.timer, Function.update_of_ne hut]
    exact h.2

omit [Fintype T] in
/-- Clearing a flag leaves it stopped. -/
theorem Stopped.setActivated (h : s.Stopped c t) (u : T) : (s.setActivated u false).Stopped c t := by
  refine ⟨fun hl => h.1 (linked_setActivated.mp hl), ?_⟩
  rw [setActivated_timer, Function.update_apply]
  split_ifs
  · rfl
  · exact h.2

omit [Fintype T] in
/-- Unlinking a timer leaves it stopped. -/
theorem Stopped.timerRemove (h : s.Stopped c t) {q : Nat → TimerList → List T} (hq : s.Holds c q) (u : T) :
    (s.timerRemove c u).Stopped c t := by
  refine ⟨?_, h.2⟩
  rw [hq.linked_timerRemove]
  exact fun hl => h.1 hl.2

/-- Every call but its start leaves it stopped. -/
theorem Stopped.call (h : s.Stopped c t) {q : Nat → TimerList → List T} (hq : s.Holds c q) {k : TimerCall T}
    (hs : s.call c k = some s') (hk : k ≠ .start t) : s'.Stopped c t := by
  cases k with
  | start u => exact h.start hq hs fun hut => hk (by rw [hut])
  | stop u =>
    obtain rfl := Option.some.inj hs
    rw [rtTimerStop]
    split_ifs
    · exact (h.timerRemove hq u).setActivated u
    · exact h
  | control u cmd =>
    obtain rfl := Option.some.inj hs
    obtain ⟨hrows, htimer⟩ := rtTimerControl_spec s u cmd
    refine ⟨fun hl => h.1 ((linked_congr hrows (htimer t).1).mp hl), ?_⟩
    rw [(htimer t).2]
    exact h.2
  | tick =>
    obtain rfl := Option.some.inj hs
    exact ⟨fun hl => h.1 ((linked_congr rfl rfl).mp hl), h.2⟩

/-- The check does not start a stopped timer again, when its callback returns or another's does. -/
theorem Stopped.rearm (h : s.Stopped c t) {q : Nat → TimerList → List T} (hq : s.Holds c q)
    (hs : s.rearm c u = some s') : s'.Stopped c t := by
  rw [Timers.rearm] at hs
  split_ifs at hs with hper
  · refine (h.setActivated u).start (hq.setActivated u false) hs ?_
    rintro rfl
    rw [h.2, Bool.and_false] at hper
    cases hper
  · obtain rfl := Option.some.inj hs
    exact h.setActivated u

end Timers

end CoreLink.RtThread
