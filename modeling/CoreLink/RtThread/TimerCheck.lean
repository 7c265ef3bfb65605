/-
# `CoreLink.RtThread.TimerCheck` — `rt_timer_check` with callbacks that call the module.

The check is cut at its callbacks: while one runs, any calls may be made on any timers. A timer is linked iff it is
activated whenever no check is in progress, in every run in which no callback of a one-shot timer returns with its
timer linked. Without that condition it fails: the check clears the flag of a timer that its callback has started.
-/
import CoreLink.Lib.Run
import CoreLink.RtThread.TimerFlags

namespace CoreLink.RtThread

open CoreLink.Lib

/-! ## The check, one step at a time -/

/-- Where `rt_timer_check` is: not running, at the condition of its loop with its `current_tick`, or in the callback
of `t`. -/
inductive CheckPc (T : Type*) where
  | idle
  | loop (currentTick : Tick)
  | callback (t : T)
  deriving DecidableEq

/-- The timers and the check. -/
structure CheckSys (T : Type*) where
  timers : Timers T
  pc : CheckPc T

/-- The steps: a call by somebody, and the steps of the check, which is called, calls the callback of `t`, has the
callback return, and returns. -/
inductive CheckOp (T : Type*) where
  | call (k : TimerCall T)
  | enter
  | fire (t : T)
  | ret
  | leave

section Machine

variable {T : Type*} [DecidableEq T] [Fintype T] {c : TimerCfg} {s s' : CheckSys T} {t u : T}

/-- **`rt_timer_check`** with arbitrary callbacks. The loop runs with interrupts disabled, so that calls are made
while a callback runs or while no check is in progress. -/
def checkExec (c : TimerCfg) (s : CheckSys T) : CheckOp T → Option (CheckSys T)
  | .call k =>
      match s.pc with
      | .loop _ => none
      | _ => (s.timers.call c k).map fun timers => { s with timers }
  | .enter =>
      match s.pc with
      | .idle => some { s with pc := .loop s.timers.tick }
      | _ => none
  | .fire t =>
      match s.pc with
      | .loop currentTick =>
          if s.timers.firstTimer c .hard = some t ∧ s.timers.due currentTick t = true then
            some { timers := s.timers.timerRemove c t, pc := .callback t }
          else none
      | _ => none
  | .ret =>
      match s.pc with
      | .callback t => (s.timers.rearm c t).map fun timers => { timers, pc := .loop timers.tick }
      | _ => none
  | .leave =>
      match s.pc with
      | .loop currentTick =>
          if (s.timers.firstTimer c .hard).any (s.timers.due currentTick) then none else some { s with pc := .idle }
      | _ => none

/-- The step relation of `checkExec`. -/
def checkStep (c : TimerCfg) (s : CheckSys T) (l : CheckOp T) (s' : CheckSys T) : Prop := checkExec c s l = some s'

/-- When a callback returns, its timer is not linked, or is periodic. -/
def NotRestarted (c : TimerCfg) (s : CheckSys T) : CheckOp T → Prop
  | .ret => ∀ t, s.pc = .callback t → s.timers.Linked c t → (s.timers.timer t).periodic = true
  | _ => True

/-- The timer whose callback is running. -/
def CheckPc.running : CheckPc T → Option T
  | callback t => some t
  | _ => none

/-- **What a step does**: a call changes the timers only; entering and leaving change the position only; firing unlinks
the first timer; and when a callback returns, its timer is rearmed. -/
theorem checkStep_cases {l : CheckOp T} (hs : checkStep c s l s') :
    (∃ k timers, l = .call k ∧ s.timers.call c k = some timers ∧ s' = ⟨timers, s.pc⟩) ∨
    ((l = .enter ∨ l = .leave) ∧ s.pc.running = none ∧ s'.timers = s.timers ∧ s'.pc.running = none) ∨
    (∃ t, l = .fire t ∧ s.pc.running = none ∧ s.timers.firstTimer c .hard = some t ∧
      s' = ⟨s.timers.timerRemove c t, .callback t⟩) ∨
    ∃ t timers, l = .ret ∧ s.pc = .callback t ∧ s.timers.rearm c t = some timers ∧ s' = ⟨timers, .loop timers.tick⟩ := by
  obtain ⟨timers, pc⟩ := s
  cases l with
  | call k =>
    cases pc with
    | loop cur => cases hs
    | idle =>
      obtain ⟨timers', ht, rfl⟩ := Option.map_eq_some_iff.mp hs
      exact Or.inl ⟨k, timers', rfl, ht, rfl⟩
    | callback t =>
      obtain ⟨timers', ht, rfl⟩ := Option.map_eq_some_iff.mp hs
      exact Or.inl ⟨k, timers', rfl, ht, rfl⟩
  | enter =>
    cases pc with
    | idle =>
      obtain rfl := Option.some.inj hs
      exact Or.inr (Or.inl ⟨Or.inl rfl, rfl, rfl, rfl⟩)
    | loop cur => cases hs
    | callback t => cases hs
  | fire t =>
    cases pc with
    | loop cur =>
      simp only [checkStep, checkExec] at hs
      split_ifs at hs with hf
      obtain rfl := Option.some.inj hs
      exact Or.inr (Or.inr (Or.inl ⟨t, rfl, rfl, hf.1, rfl⟩))
    | idle => cases hs
    | callback t => cases hs
  | ret =>
    cases pc with
    | callback t =>
      obtain ⟨timers', ht, rfl⟩ := Option.map_eq_some_iff.mp hs
      exact Or.inr (Or.inr (Or.inr ⟨t, timers', rfl, rfl, ht, rfl⟩))
    | idle => cases hs
    | loop cur => cases hs
  | leave =>
    cases pc with
    | loop cur =>
      simp only [checkStep, checkExec] at hs
      split_ifs at hs
      obtain rfl := Option.some.inj hs
      exact Or.inr (Or.inl ⟨Or.inr rfl, rfl, rfl, rfl⟩)
    | idle => cases hs
    | callback t => cases hs

/-- The flags agree with the lists, up to the timer whose callback is running. -/
def CheckSys.InSync (c : TimerCfg) (s : CheckSys T) : Prop := s.timers.InSync c s.pc.running

/-- **One step** keeps the flags and the lists in step, if no one-shot timer is linked when its callback returns. -/
theorem CheckSys.InSync.step {l : CheckOp T} (h : s.InSync c) (hg : NotRestarted c s l) (hs : checkStep c s l s') :
    s'.InSync c := by
  rcases checkStep_cases hs with ⟨k, timers, rfl, ht, rfl⟩ | ⟨-, hrun, htimers, hrun'⟩ | ⟨t, rfl, hrun, -, rfl⟩ |
    ⟨t, timers, rfl, hpc, ht, rfl⟩
  · exact Timers.InSync.call h ht
  · rw [InSync, hrun', htimers, ← hrun]
    exact h
  · rw [InSync, hrun] at h
    exact h.fire t
  · rw [InSync, hpc] at h
    exact (h.rearm_iff ht).mpr (hg t hpc)

/-- A stopped timer stays stopped and is not fired, as long as it is not started. -/
theorem stopped_step {l : CheckOp T} (hin : s.InSync c) (h : s.timers.Stopped c t) (hs : checkStep c s l s')
    (hl : l ≠ .call (.start t)) : s'.timers.Stopped c t ∧ l ≠ .fire t := by
  obtain ⟨q, hq⟩ := Timers.InSync.holds hin
  rcases checkStep_cases hs with ⟨k, timers, rfl, ht, rfl⟩ | ⟨hl', -, htimers, -⟩ | ⟨u, rfl, -, hf, rfl⟩ |
    ⟨u, timers, rfl, -, ht, rfl⟩
  · exact ⟨h.call hq ht fun hk => hl (by rw [hk]), by simp⟩
  · rw [htimers]
    refine ⟨h, ?_⟩
    rcases hl' with rfl | rfl <;> simp
  · refine ⟨h.timerRemove hq u, fun hut => h.1 ?_⟩
    cases hut
    exact (hq.linked_of_firstTimer hf).1
  · exact ⟨h.rearm hq ht, by simp⟩

/-- **The active flag.** In every run in which no callback of a one-shot timer returns with its timer linked: whenever
no check is in progress, the linked timers are the activated ones; and a timer that `rt_timer_stop` has been called on
is not linked, and its callback is not called until it is started again. -/
theorem activated_iff_linked (c : TimerCfg) (tick : Tick) (randomNr : BitVec 32) (time : T → Tick)
    (periodic soft : T → Bool) {ls : List (CheckOp T)}
    (hrun : Run (Guarded (NotRestarted c) (checkStep c))
      ⟨Timers.init tick randomNr fun t => Timer.init (time t) (periodic t) (soft t), .idle⟩ ls s) :
    (s.pc = .idle → ∀ t, s.timers.Linked c t ↔ (s.timers.timer t).activated = true) ∧
    ∀ t s₁, checkStep c s (.call (.stop t)) s₁ → ¬ s₁.timers.Linked c t ∧
      ∀ ls' s₂, Run (Guarded (NotRestarted c) (checkStep c)) s₁ ls' s₂ → .call (.start t) ∉ ls' → .fire t ∉ ls' := by
  have hin : s.InSync c := hrun.guarded (Timers.InSync.init tick randomNr time periodic soft)
    fun s l s' h hg hs => h.step hg hs
  refine ⟨fun hidle t => ?_, fun t s₁ hs => ?_⟩
  · rw [CheckSys.InSync, hidle] at hin
    exact Timers.InSync.iff hin
  · have hin₁ : s₁.InSync c := hin.step (l := .call (.stop t)) trivial hs
    have hstopped : s₁.timers.Stopped c t := by
      rcases checkStep_cases hs with ⟨k, timers, hk, ht, rfl⟩ | ⟨hl | hl, -⟩ | ⟨u, hl, -⟩ | ⟨u, timers, hl, -⟩
      · cases hk
        obtain rfl := Option.some.inj ht
        exact Timers.InSync.stopped hin t
      all_goals cases hl
    refine ⟨hstopped.1, fun ls' s₂ hrun' hnot => ?_⟩
    have hstable := hrun'.stable (I := fun s => s.InSync c ∧ s.timers.Stopped c t)
      (P := fun l => l ≠ .call (.start t)) (Q := fun l => l ≠ .fire t) ⟨hin₁, hstopped⟩
      (fun l hl he => hnot (he ▸ hl)) fun s l s' h hl hs => by
        obtain ⟨h1, h2⟩ := stopped_step h.1 h.2 hs.2 hl
        exact ⟨⟨h.1.step hs.1 hs.2, h1⟩, h2⟩
    exact fun hm => hstable.2 _ hm rfl

end Machine

/-! ## Two timers -/

/-- Two timers of one tick; the second one is periodic. -/
def flagTimers : Timers (Fin 2) := Timers.init 0 0 fun t => Timer.init 1 (t.val = 1) false

/-- A sufficient condition for `NotRestarted`: when a callback returns, its timer is periodic or its node is alone. -/
def returnsAlone (s : CheckSys (Fin 2)) (l : CheckOp (Fin 2)) : Bool :=
  match l, s.pc with
  | .ret, .callback t => (s.timers.timer t).periodic || decide ((s.timers.bottom timerCfg).isEmpty (.item t))
  | _, _ => true

theorem notRestarted_of_returnsAlone {s : CheckSys (Fin 2)} {l : CheckOp (Fin 2)} (h : returnsAlone s l = true) :
    NotRestarted timerCfg s l := by
  cases l with
  | ret =>
    intro t hpc hl
    simp only [returnsAlone, hpc, Bool.or_eq_true, decide_eq_true_iff] at h
    exact h.resolve_right fun he => Links.not_onList_of_isEmpty he hl
  | _ => trivial

/-- Callbacks stop and start timers, and the periodic timer restarts itself. -/
theorem activated_iff_linked_run : ∃ s : CheckSys (Fin 2), s.pc = .idle ∧
    (∀ t, s.timers.Linked timerCfg t ↔ (s.timers.timer t).activated = true) ∧
    ∀ s₁, checkStep timerCfg s (.call (.stop 0)) s₁ → ¬ s₁.timers.Linked timerCfg 0 := by
  have hrun : (([.call (.start 0), .call (.start 1), .call .tick, .enter, .fire 0, .call (.stop 1), .call (.start 1),
      .ret, .leave, .call .tick, .enter, .fire 1, .call (.start 0), .call (.start 1), .ret, .leave] :
      List (CheckOp (Fin 2))).foldlM (fun s l => if returnsAlone s l then checkExec timerCfg s l else none)
      ⟨flagTimers, .idle⟩).map (fun s => decide (s.pc = .idle)) = some true := by
    decide +kernel
  obtain ⟨s, hs, hidle⟩ := Option.map_eq_some_iff.mp hrun
  have hidle : s.pc = .idle := of_decide_eq_true hidle
  have h := activated_iff_linked timerCfg 0 0 (fun _ : Fin 2 => 1) (fun t => t.val = 1) (fun _ => false)
    (Run.of_foldlM (fun s l s' h => by
      split_ifs at h with hg
      exact ⟨notRestarted_of_returnsAlone hg, h⟩) hs)
  exact ⟨s, hidle, h.1 hidle, fun s₁ hs₁ => (h.2 0 s₁ hs₁).1⟩

/-- **A one-shot timer that starts itself** in its callback stays linked, but the check clears its flag. Then
`rt_timer_stop` returns `-RT_ERROR` and leaves it linked, and it is fired. -/
theorem activated_not_iff_linked : ∃ s,
    Run (checkStep timerCfg) ⟨flagTimers, .idle⟩
      [.call (.start 0), .call .tick, .enter, .fire 0, .call (.start 0), .ret, .leave] s ∧
    s.pc = .idle ∧ s.timers.Linked timerCfg 0 ∧ (s.timers.timer 0).activated = false ∧
    (s.timers.rtTimerStop timerCfg 0).1 = .error ∧
    ∃ s', Run (checkStep timerCfg) s [.call (.stop 0), .call .tick, .enter, .fire 0] s' := by
  have hrun : (([.call (.start 0), .call .tick, .enter, .fire 0, .call (.start 0), .ret, .leave] :
      List (CheckOp (Fin 2))).foldlM (checkExec timerCfg) ⟨flagTimers, .idle⟩).map (fun s =>
        (decide (s.pc = .idle), decide (Links.Seg (s.timers.bottom timerCfg).next
          ((s.timers.bottom timerCfg).next (.head .hard)) [0] (.head .hard)), s.timers.listOf timerCfg 0,
          (s.timers.timer 0).activated, (s.timers.rtTimerStop timerCfg 0).1,
          (([.call (.stop 0), .call .tick, .enter, .fire 0] : List (CheckOp (Fin 2))).foldlM (checkExec timerCfg)
            s).isSome)) = some (true, true, .hard, false, .error, true) := by
    decide +kernel
  obtain ⟨s, hs, hobs⟩ := Option.map_eq_some_iff.mp hrun
  simp only [Prod.mk.injEq, decide_eq_true_iff] at hobs
  obtain ⟨hidle, hseg, hlist, hact, hstop, hrest⟩ := hobs
  obtain ⟨s', hs'⟩ := Option.isSome_iff_exists.mp hrest
  refine ⟨s, Run.of_foldlM (fun _ _ _ h => h) hs, hidle, ?_, hact, hstop, s', Run.of_foldlM (fun _ _ _ h => h) hs'⟩
  rw [Timers.Linked, hlist]
  exact ⟨[0], hseg, List.mem_cons_self⟩

end CoreLink.RtThread
