/-
# `CoreLink.RtThread.SoftTimer` — `rt_soft_timer_check`, which keeps a node across a callback.

Unlike `rt_timer_check`, which looks at the head of the list again after each callback, `rt_soft_timer_check` goes on
at the node that was next before it. The scheduler is not locked while the callback runs, so that the callback and any
preempting thread may meanwhile start and stop timers, the next one included. The scan stays on the list as long as the
saved timer is activated when the scan goes on; a timer that was stopped and not started again is still visited.
-/
import CoreLink.Lib.Run
import CoreLink.RtThread.TimerFlags

namespace CoreLink.RtThread

open CoreLink.Lib

/-- Where `rt_soft_timer_check` is: not running; `current_tick` read and the scheduler not yet locked; in its loop at
the node `n`; in the callback of `t` with the node `n` saved; or after it, `current_tick` read and the scheduler not yet
locked again. -/
inductive SoftPc (T : Type*) where
  | idle
  | entered (currentTick : Tick)
  | scan (n : Node TimerList T) (currentTick : Tick)
  | callback (t : T) (n : Node TimerList T)
  | returned (t : T) (n : Node TimerList T) (currentTick : Tick)
  deriving DecidableEq

/-- The timers and the check. -/
structure SoftSys (T : Type*) where
  timers : Timers T
  pc : SoftPc T

/-- The steps: a call by somebody, and the steps of the check, which is called, locks the scheduler, calls the callback
of `t`, has it return, locks the scheduler again and goes on, and returns. -/
inductive SoftOp (T : Type*) where
  | call (k : TimerCall T)
  | enter
  | lock
  | fire (t : T)
  | ret
  | resume
  | leave

variable {T : Type*} [DecidableEq T] [Fintype T] {c : TimerCfg} {s s' : SoftSys T} {t u : T}

/-- **`rt_soft_timer_check`** with arbitrary callbacks and preempting threads. While the scheduler is locked only the
tick goes on. -/
def softExec (c : TimerCfg) (s : SoftSys T) : SoftOp T → Option (SoftSys T)
  | .call .tick => (s.timers.call c .tick).map fun timers => { s with timers }
  | .call k =>
      match s.pc with
      | .scan _ _ => none
      | _ => (s.timers.call c k).map fun timers => { s with timers }
  | .enter =>
      match s.pc with
      | .idle => some { s with pc := .entered s.timers.tick }
      | _ => none
  | .lock =>
      match s.pc with
      | .entered currentTick => some { s with pc := .scan ((s.timers.bottom c).next (.head .soft)) currentTick }
      | _ => none
  | .fire t =>
      match s.pc with
      | .scan n currentTick =>
          if n = .item t ∧ s.timers.due currentTick t = true then
            some { timers := s.timers.timerRemove c t, pc := .callback t ((s.timers.bottom c).next n) }
          else none
      | _ => none
  | .ret =>
      match s.pc with
      | .callback t n => some { s with pc := .returned t n s.timers.tick }
      | _ => none
  | .resume =>
      match s.pc with
      | .returned t n currentTick => (s.timers.rearm c t).map fun timers => { timers, pc := .scan n currentTick }
      | _ => none
  | .leave =>
      match s.pc with
      | .scan (.head .soft) _ => some { s with pc := .idle }
      | .scan (.item t) currentTick => if s.timers.due currentTick t then none else some { s with pc := .idle }
      | _ => none

/-- The step relation of `softExec`. -/
def softStep (c : TimerCfg) (s : SoftSys T) (l : SoftOp T) (s' : SoftSys T) : Prop := softExec c s l = some s'

/-- The timer whose callback is running, or has just returned. -/
def SoftPc.running : SoftPc T → Option T
  | callback t _ | returned t _ _ => some t
  | _ => none

/-- **What a step does.** -/
theorem softStep_cases {l : SoftOp T} (hs : softStep c s l s') :
    (∃ k timers, l = .call k ∧ s.timers.call c k = some timers ∧ s' = ⟨timers, s.pc⟩ ∧
      (k = .tick ∨ ∀ n cur, s.pc ≠ .scan n cur)) ∨
    (l = .enter ∧ s.pc = .idle ∧ s' = ⟨s.timers, .entered s.timers.tick⟩) ∨
    (∃ cur, l = .lock ∧ s.pc = .entered cur ∧ s' = ⟨s.timers, .scan ((s.timers.bottom c).next (.head .soft)) cur⟩) ∨
    (∃ t cur, l = .fire t ∧ s.pc = .scan (.item t) cur ∧ s.timers.due cur t = true ∧
      s' = ⟨s.timers.timerRemove c t, .callback t ((s.timers.bottom c).next (.item t))⟩) ∨
    (∃ t n, l = .ret ∧ s.pc = .callback t n ∧ s' = ⟨s.timers, .returned t n s.timers.tick⟩) ∨
    (∃ t n cur timers, l = .resume ∧ s.pc = .returned t n cur ∧ s.timers.rearm c t = some timers ∧
      s' = ⟨timers, .scan n cur⟩) ∨
    ∃ n cur, l = .leave ∧ s.pc = .scan n cur ∧ s' = ⟨s.timers, .idle⟩ := by
  obtain ⟨timers, pc⟩ := s
  cases l with
  | call k =>
    -- a call other than a tick is not made while the scheduler is locked
    have hcall : (timers.call c k).map (fun timers => (⟨timers, pc⟩ : SoftSys T)) = some s' ∧
        (k = .tick ∨ ∀ n cur, pc ≠ .scan n cur) := by
      cases k with
      | tick => exact ⟨hs, Or.inl rfl⟩
      | _ =>
        cases pc with
        | scan n cur => cases hs
        | _ => exact ⟨hs, Or.inr fun n cur h => by cases h⟩
    obtain ⟨timers', ht, rfl⟩ := Option.map_eq_some_iff.mp hcall.1
    exact Or.inl ⟨k, timers', rfl, ht, rfl, hcall.2⟩
  | enter =>
    cases pc with
    | idle =>
      obtain rfl := Option.some.inj hs
      exact Or.inr (Or.inl ⟨rfl, rfl, rfl⟩)
    | _ => cases hs
  | lock =>
    cases pc with
    | entered cur =>
      obtain rfl := Option.some.inj hs
      exact Or.inr (Or.inr (Or.inl ⟨cur, rfl, rfl, rfl⟩))
    | _ => cases hs
  | fire t =>
    cases pc with
    | scan n cur =>
      simp only [softStep, softExec] at hs
      split_ifs at hs with hf
      obtain ⟨rfl, hdue⟩ := hf
      obtain rfl := Option.some.inj hs
      exact Or.inr (Or.inr (Or.inr (Or.inl ⟨t, cur, rfl, rfl, hdue, rfl⟩)))
    | _ => cases hs
  | ret =>
    cases pc with
    | callback t n =>
      obtain rfl := Option.some.inj hs
      exact Or.inr (Or.inr (Or.inr (Or.inr (Or.inl ⟨t, n, rfl, rfl, rfl⟩))))
    | _ => cases hs
  | resume =>
    cases pc with
    | returned t n cur =>
      obtain ⟨timers', ht, rfl⟩ := Option.map_eq_some_iff.mp hs
      exact Or.inr (Or.inr (Or.inr (Or.inr (Or.inr (Or.inl ⟨t, n, cur, timers', rfl, rfl, ht, rfl⟩)))))
    | _ => cases hs
  | leave =>
    have hidle : (∃ n cur, pc = .scan n cur) ∧ s' = ⟨timers, .idle⟩ := by
      cases pc with
      | scan n cur =>
        refine ⟨⟨n, cur, rfl⟩, ?_⟩
        cases n with
        | head l =>
          cases l with
          | soft => exact (Option.some.inj hs).symm
          | hard => cases hs
        | item t =>
          simp only [softStep, softExec] at hs
          split_ifs at hs
          exact (Option.some.inj hs).symm
      | _ => cases hs
    obtain ⟨⟨n, cur, rfl⟩, rfl⟩ := hidle
    exact Or.inr (Or.inr (Or.inr (Or.inr (Or.inr (Or.inr ⟨n, cur, rfl, rfl, rfl⟩)))))

/-! ## The scan stays on the list -/

/-- The scan is at the head of the list, or at a timer that is linked in it. -/
def OnScan (c : TimerCfg) (s : Timers T) (n : Node TimerList T) : Prop :=
  n = .head .soft ∨ ∃ u, n = .item u ∧ s.Linked c u ∧ s.listOf c u = .soft

/-- The node saved for after the callback of `t` is the head of the list, or another soft timer's. -/
def Saved (c : TimerCfg) (s : Timers T) (t : T) (n : Node TimerList T) : Prop :=
  n = .head .soft ∨ ∃ u, n = .item u ∧ u ≠ t ∧ s.listOf c u = .soft

/-- **The invariant of the check.** -/
def SoftSys.Inv (c : TimerCfg) (s : SoftSys T) : Prop :=
  s.timers.InSync c s.pc.running ∧
    match s.pc with
    | .scan n _ => OnScan c s.timers n
    | .callback t n | .returned t n _ => Saved c s.timers t n
    | _ => True

/-- When a callback has returned, its timer is not linked or is periodic, and the saved timer is activated. -/
def SavedActivated (c : TimerCfg) (s : SoftSys T) : SoftOp T → Prop
  | .resume => ∀ t n cur, s.pc = .returned t n cur →
      (s.timers.Linked c t → (s.timers.timer t).periodic = true) ∧
      ∀ u, n = .item u → (s.timers.timer u).activated = true
  | _ => True

omit [DecidableEq T] [Fintype T] in
/-- From where the scan is, the list goes on to its head. -/
theorem OnScan.seg {s : Timers T} {n : Node TimerList T} (h : OnScan c s n) {q : Nat → TimerList → List T}
    (hq : s.Holds c q) : ∃ ts, Links.Seg (s.bottom c).next n ts (.head .soft) ∧
      ∀ t ∈ ts, s.Linked c t ∧ s.listOf c t = .soft := by
  rcases h with rfl | ⟨u, rfl, hl, hsoft⟩
  · exact ⟨[], rfl, fun t ht => absurd ht List.not_mem_nil⟩
  · obtain ⟨as, bs, hcut⟩ := List.append_of_mem (hq.mem_iff.mpr ⟨hl, hsoft.symm⟩)
    have hs := hq.bottom.seg .soft
    rw [hcut, Links.seg_append] at hs
    obtain ⟨k, -, hk, hs⟩ := hs
    refine ⟨u :: bs, ⟨rfl, hs⟩, fun t ht => ?_⟩
    obtain ⟨h1, h2⟩ := hq.mem_iff.mp (hcut ▸ List.mem_append_right as ht)
    exact ⟨h1, h2.symm⟩

omit [DecidableEq T] [Fintype T] in
/-- Behind a linked soft timer comes the head or another linked soft timer. -/
theorem OnScan.next {s : Timers T} (h : OnScan c s (.item t)) {q : Nat → TimerList → List T} (hq : s.Holds c q) :
    Saved c s t ((s.bottom c).next (.item t)) ∧ OnScan c s ((s.bottom c).next (.item t)) := by
  obtain ⟨ts, hseg, hts⟩ := h.seg hq
  cases ts with
  | nil => cases hseg
  | cons x ts =>
    obtain ⟨hx, hseg⟩ := hseg
    cases hx
    have hlinked := (hts t List.mem_cons_self).1
    rcases hseg.start with hn | ⟨u, hu, hn⟩
    · exact ⟨Or.inl hn, Or.inl hn⟩
    · obtain ⟨h1, h2⟩ := hts u (List.mem_cons_of_mem t hu)
      refine ⟨Or.inr ⟨u, hn, ?_, h2⟩, Or.inr ⟨u, hn, h1, h2⟩⟩
      rintro rfl
      exact Links.not_onList_of_isEmpty hn hlinked

/-- **One step** keeps the invariant, if the scan goes on at an activated timer. -/
theorem SoftSys.Inv.step {l : SoftOp T} (h : s.Inv c) (hg : SavedActivated c s l) (hs : softStep c s l s') :
    s'.Inv c := by
  obtain ⟨timers, pc⟩ := s
  obtain ⟨hin, hpos⟩ := h
  obtain ⟨q, hq⟩ := hin.holds
  rcases softStep_cases hs with ⟨k, timers', rfl, ht, rfl, hk⟩ | ⟨rfl, hpc, rfl⟩ | ⟨cur, rfl, hpc, rfl⟩ |
    ⟨t, cur, rfl, hpc, -, rfl⟩ | ⟨t, n, rfl, hpc, rfl⟩ | ⟨t, n, cur, timers', rfl, hpc, ht, rfl⟩ | ⟨n, cur, rfl, hpc, rfl⟩
  · refine ⟨hin.call ht, ?_⟩
    have hlist := Timers.listOf_call hq ht
    cases pc with
    | idle => trivial
    | entered cur => trivial
    | scan n cur =>
      -- only the tick has gone on
      obtain rfl : k = .tick := hk.resolve_right fun h => h n cur rfl
      obtain rfl := Option.some.inj ht
      exact hpos
    | callback t n => exact hpos.imp_right fun ⟨u, hn, hut, hu⟩ => ⟨u, hn, hut, (hlist u).trans hu⟩
    | returned t n cur => exact hpos.imp_right fun ⟨u, hn, hut, hu⟩ => ⟨u, hn, hut, (hlist u).trans hu⟩
  · cases hpc
    exact ⟨hin, trivial⟩
  · cases hpc
    refine ⟨hin, ?_⟩
    rcases (hq.bottom.seg .soft).start with hn | ⟨u, hu, hn⟩
    · exact Or.inl hn
    · obtain ⟨h1, h2⟩ := hq.mem_iff.mp hu
      exact Or.inr ⟨u, hn, h1, h2.symm⟩
  · cases hpc
    exact ⟨hin.fire t, (OnScan.next hpos hq).1⟩
  · cases hpc
    exact ⟨hin, hpos⟩
  · cases hpc
    obtain ⟨hper, hact⟩ := hg t n cur rfl
    obtain ⟨-, -, hlist, hother⟩ := Timers.rearm_spec hq ht
    refine ⟨(hin.rearm_iff ht).mpr hper, hpos.imp_right fun ⟨u, hn, hut, hu⟩ => ⟨u, hn, ?_, (hlist u).trans hu⟩⟩
    -- the saved timer is activated, so it is linked
    exact (hother u hut).1.mpr (hin.linked u (hact u hn) fun he => hut (Option.some.inj he).symm)
  · cases hpc
    exact ⟨hin, trivial⟩

end CoreLink.RtThread
