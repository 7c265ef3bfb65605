/-
# `CoreLink.RtThread.Waitqueue` — the wait queue of `components/drivers/src/waitqueue.c`, and the wakeups it loses.

`rt_wqueue_wait` gets its condition as a value: it has been evaluated before the call, and the first critical section of
the call comes later. In between, a wakeup that finds nobody on the list is kept in the flag of the queue. There is one
flag for all threads, every wait that returns takes it away, and the node of a thread whose timer has fired stays linked
until the thread runs again; `rt_wqueue_wakeup` takes the first node, whatever has become of its thread.

`StepOk` says when a step loses no wakeup: it does not take the flag away while it stands for a wakeup of another thread,
and a wakeup finds a suspended thread at the head of the list if there is one. `wqueue_wakeup_kept` says that in runs of
such steps both promises are kept, and that the first step of another kind breaks one of them; `wqueue_wakeup_lost` is a
run with a reader that is suspended after its wakeup.
-/
import CoreLink.Lib.Run
import Mathlib.Data.Fintype.Basic

namespace CoreLink.RtThread

open CoreLink.Lib

/-! ## The source -/

/-- `RT_TICK_PER_SECOND` of `rtconfig.h`. -/
def rtTickPerSecond : Int := 100

/-- `rt_tick_from_millisecond`; -1 is `RT_WAITING_FOREVER`. -/
def rtTickFromMillisecond (ms : Int) : Int :=
  if ms < 0 then -1 else rtTickPerSecond * (ms / 1000) + (rtTickPerSecond * (ms % 1000) + 999) / 1000

/-- Where a thread is in `rt_wqueue_wait`. -/
inductive WqPc where
  /-- not in the call -/
  | idle
  /-- the condition has been found false, and the interrupts are not yet disabled -/
  | evaluated (tick : Int)
  /-- suspended -/
  | suspended (tick : Int)
  /-- on a ready list again, before the flag is taken away -/
  | ready
  /-- after `__exit_wakeup`, before `rt_wqueue_remove` -/
  | removing
  deriving DecidableEq

namespace WqPc

/-- The thread has not come to look at the flag. -/
def isEvaluated : WqPc → Bool
  | evaluated _ => true
  | idle | suspended _ | ready | removing => false

def isSuspended : WqPc → Bool
  | suspended _ => true
  | idle | evaluated _ | ready | removing => false

/-- The timer of the thread has been started. -/
def hasTimer : WqPc → Bool
  | suspended tick => tick ≠ -1
  | idle | evaluated _ | ready | removing => false

end WqPc

/-- What can happen next. -/
inductive WqEvent (T : Type*) where
  /-- a thread evaluates its condition and calls `rt_wqueue_wait` -/
  | evaluate (t : T) (condition : Bool) (msec : Int)
  /-- the first critical section of the call -/
  | enter (t : T)
  /-- the one after `rt_schedule` -/
  | leave (t : T)
  /-- `rt_wqueue_remove` at the end of the call -/
  | remove (t : T)
  /-- `rt_thread_timeout` -/
  | timeout (t : T)
  /-- `rt_wqueue_wakeup`, of a thread or an interrupt -/
  | wakeup

/-- `rt_wqueue_t` with the threads that use it; `flag` is that it is `RT_WQ_FLAG_WAKEUP`, and the list has the threads of
the nodes. `signalled` is no variable of the source: a wakeup has come since the thread evaluated its condition, and the
thread has not been in its first critical section. -/
structure WqSys (T : Type*) where
  flag : Bool
  waitingList : List T
  pc : T → WqPc
  signalled : T → Bool

variable {T : Type*}

namespace WqSys

section Steps

variable [DecidableEq T]

def setPc (s : WqSys T) (t : T) (pc : WqPc) : WqSys T := { s with pc := Function.update s.pc t pc }

def setSignalled (s : WqSys T) (t : T) (b : Bool) : WqSys T :=
  { s with signalled := Function.update s.signalled t b }

/-- The beginning of `rt_wqueue_wait`, which ends here if the condition is true or the time limit is 0. -/
def evaluate (s : WqSys T) (t : T) (condition : Bool) (msec : Int) : WqSys T :=
  if condition = true ∨ rtTickFromMillisecond msec = 0 then s
  else (s.setPc t (.evaluated (rtTickFromMillisecond msec))).setSignalled t false

/-- `rt_wqueue_wait` with the interrupts disabled: to `__exit_wakeup`, or to where the thread is suspended. -/
def enter (s : WqSys T) (t : T) : WqSys T :=
  match s.pc t with
  | .evaluated tick =>
    if s.flag = true then { (s.setPc t .removing).setSignalled t false with flag := false }
    else { (s.setPc t (.suspended tick)).setSignalled t false with waitingList := s.waitingList ++ [t] }
  | .idle | .suspended _ | .ready | .removing => s

/-- `rt_wqueue_wait` after `rt_schedule`, to where the interrupts are enabled. -/
def leave (s : WqSys T) (t : T) : WqSys T := { s.setPc t .removing with flag := false }

/-- `rt_wqueue_remove`; the node may have been unlinked before. -/
def rtWqueueRemove (s : WqSys T) (t : T) : WqSys T := { s.setPc t .idle with waitingList := s.waitingList.erase t }

/-- `rt_thread_resume`, which does nothing to a thread that is not suspended. -/
def rtThreadResume (s : WqSys T) (t : T) : WqSys T := if (s.pc t).isSuspended = true then s.setPc t .ready else s

/-- The flag that a wakeup sets stands for all threads that have evaluated their condition. -/
def setFlag (s : WqSys T) : WqSys T :=
  { s with flag := true, signalled := fun t => s.signalled t || (s.pc t).isEvaluated }

/-- `rt_wqueue_wakeup`; the default wake function takes the first node. -/
def rtWqueueWakeup (s : WqSys T) : WqSys T :=
  match s.waitingList with
  | [] => s.setFlag
  | t :: rest => { s.setFlag.rtThreadResume t with waitingList := rest }

/-- That an event can happen in a state. -/
def Enabled (s : WqSys T) : WqEvent T → Prop
  | .evaluate t _ _ => s.pc t = .idle
  | .enter t => (s.pc t).isEvaluated = true
  | .leave t => s.pc t = .ready
  | .remove t => s.pc t = .removing
  | .timeout t => (s.pc t).hasTimer = true
  | .wakeup => True

instance (s : WqSys T) : (e : WqEvent T) → Decidable (s.Enabled e)
  | .evaluate t _ _ => inferInstanceAs (Decidable (s.pc t = .idle))
  | .enter t => inferInstanceAs (Decidable ((s.pc t).isEvaluated = true))
  | .leave t => inferInstanceAs (Decidable (s.pc t = .ready))
  | .remove t => inferInstanceAs (Decidable (s.pc t = .removing))
  | .timeout t => inferInstanceAs (Decidable ((s.pc t).hasTimer = true))
  | .wakeup => inferInstanceAs (Decidable True)

/-- The effect of an event. -/
def exec (s : WqSys T) : WqEvent T → WqSys T
  | .evaluate t condition msec => s.evaluate t condition msec
  | .enter t => s.enter t
  | .leave t => s.leave t
  | .remove t => s.rtWqueueRemove t
  | .timeout t => s.rtThreadResume t
  | .wakeup => s.rtWqueueWakeup

/-- One step of the system. -/
def Step (s : WqSys T) (e : WqEvent T) (s' : WqSys T) : Prop := s.Enabled e ∧ s' = s.exec e

end Steps

/-- `rt_wqueue_init`, with nobody in a call. -/
def rtWqueueInit : WqSys T where
  flag := false
  waitingList := []
  pc _ := .idle
  signalled _ := false

/-! ## Wakeups -/

/-- What the queue promises of a step: a thread that has been signalled is not suspended, and a wakeup that comes while
threads are suspended makes one of them ready. -/
def WakeupKept (s : WqSys T) (e : WqEvent T) (s' : WqSys T) : Prop :=
  match e with
  | .enter t => s.signalled t = true → (s'.pc t).isSuspended = false
  | .wakeup => (∃ t, (s.pc t).isSuspended = true) → ∃ t, (s.pc t).isSuspended = true ∧ s'.pc t = .ready
  | .evaluate .. | .leave _ | .remove _ | .timeout _ => True

/-- When a step loses no wakeup. A thread that takes the flag away is the only one that has been signalled; and a wakeup
finds at the head of the list a thread that is still suspended, if any thread is. -/
def StepOk (s : WqSys T) : WqEvent T → Prop
  | .enter t => s.flag = true → ∀ u, s.signalled u = true → u = t
  | .leave t => ∀ u, s.signalled u = true → u = t
  | .wakeup => (∃ t, (s.pc t).isSuspended = true) → ∃ t ∈ s.waitingList.head?, (s.pc t).isSuspended = true
  | .evaluate .. | .remove _ | .timeout _ => True

instance [Fintype T] [DecidableEq T] (s : WqSys T) : (e : WqEvent T) → Decidable (s.StepOk e)
  | .enter t => inferInstanceAs (Decidable (s.flag = true → ∀ u, s.signalled u = true → u = t))
  | .leave t => inferInstanceAs (Decidable (∀ u, s.signalled u = true → u = t))
  | .wakeup => inferInstanceAs (Decidable ((∃ t, (s.pc t).isSuspended = true) →
      ∃ t, t ∈ s.waitingList.head? ∧ (s.pc t).isSuspended = true))
  | .evaluate .. | .remove _ | .timeout _ => inferInstanceAs (Decidable True)

/-! ## Steps -/

/-- What holds between the steps: a suspended thread is on the list, and a wakeup for a thread that has not looked at the
flag is in the flag. -/
structure Inv (s : WqSys T) : Prop where
  linked : ∀ t, (s.pc t).isSuspended = true → t ∈ s.waitingList
  flagged : ∀ t, s.signalled t = true → (s.pc t).isEvaluated = true ∧ s.flag = true

theorem inv_init : (rtWqueueInit : WqSys T).Inv where
  linked _ h := absurd h Bool.noConfusion
  flagged _ h := absurd h Bool.noConfusion

/-- What a step of one thread has to show: it leaves the others linked and signalled, and is in order itself. -/
theorem Inv.of_frame {s s' : WqSys T} (h : s.Inv) (t : T) (hpc : ∀ u, u ≠ t → s'.pc u = s.pc u)
    (hsig : ∀ u, u ≠ t → s'.signalled u = s.signalled u)
    (hlist : ∀ u, u ≠ t → u ∈ s.waitingList → u ∈ s'.waitingList)
    (hflag : ∀ u, u ≠ t → s.signalled u = true → s.flag = true → s'.flag = true)
    (hlinked : (s'.pc t).isSuspended = true → t ∈ s'.waitingList)
    (hflagged : s'.signalled t = true → (s'.pc t).isEvaluated = true ∧ s'.flag = true) : s'.Inv := by
  constructor
  · intro u hu
    by_cases hut : u = t
    · subst hut
      exact hlinked hu
    · rw [hpc u hut] at hu
      exact hlist u hut (h.linked u hu)
  · intro u hu
    by_cases hut : u = t
    · subst hut
      exact hflagged hu
    · rw [hsig u hut] at hu
      rw [hpc u hut]
      obtain ⟨heval, hset⟩ := h.flagged u hu
      exact ⟨heval, hflag u hut hu hset⟩

variable [DecidableEq T] {s s' : WqSys T} {e : WqEvent T} {t : T}

@[simp] theorem setPc_self (pc : WqPc) : (s.setPc t pc).pc t = pc := Function.update_self ..

theorem setPc_of_ne {u : T} (h : u ≠ t) (pc : WqPc) : (s.setPc t pc).pc u = s.pc u := Function.update_of_ne h ..

@[simp] theorem setSignalled_self (b : Bool) : (s.setSignalled t b).signalled t = b := Function.update_self ..

theorem setSignalled_of_ne {u : T} (h : u ≠ t) (b : Bool) : (s.setSignalled t b).signalled u = s.signalled u :=
  Function.update_of_ne h ..

theorem Inv.evaluate (h : s.Inv) (t : T) (condition : Bool) (msec : Int) : (s.evaluate t condition msec).Inv := by
  unfold WqSys.evaluate
  split
  · exact h
  · apply h.of_frame t
    · intro u hu
      exact setPc_of_ne hu _
    · intro u hu
      exact setSignalled_of_ne hu _
    · intro u _ hmem
      exact hmem
    · intro u _ _ hset
      exact hset
    · intro hsusp
      exact absurd (setPc_self (s := s) (t := t) _ ▸ hsusp) Bool.noConfusion
    · intro hsig
      exact absurd ((setSignalled_self _).symm.trans hsig) Bool.noConfusion

theorem Inv.enter (h : s.Inv) (hok : s.StepOk (.enter t)) : (s.enter t).Inv := by
  unfold WqSys.enter
  cases hpc : s.pc t with
  | idle | suspended | ready | removing => exact h
  | evaluated tick =>
    dsimp only
    split
    next hflag =>
      -- the flag is taken away: by the condition, nobody else has been signalled
      apply h.of_frame t
      · intro u hu
        exact setPc_of_ne hu _
      · intro u hu
        exact setSignalled_of_ne hu _
      · intro u _ hmem
        exact hmem
      · intro u hu hsig
        exact absurd (hok hflag u hsig) hu
      · intro hsusp
        exact absurd (setPc_self (s := s) (t := t) _ ▸ hsusp) Bool.noConfusion
      · intro hsig
        exact absurd ((setSignalled_self _).symm.trans hsig) Bool.noConfusion
    next hflag =>
      apply h.of_frame t
      · intro u hu
        exact setPc_of_ne hu _
      · intro u hu
        exact setSignalled_of_ne hu _
      · intro u _ hmem
        exact List.mem_append_left _ hmem
      · intro u _ _ hset
        exact absurd hset hflag
      · intro _
        exact List.mem_append_right _ (List.mem_singleton_self _)
      · intro hsig
        exact absurd ((setSignalled_self _).symm.trans hsig) Bool.noConfusion

theorem Inv.leave (h : s.Inv) (ht : s.pc t = .ready) (hok : s.StepOk (.leave t)) : (s.leave t).Inv := by
  apply h.of_frame t
  · intro u hu
    exact setPc_of_ne hu _
  · intro u _
    rfl
  · intro u _ hmem
    exact hmem
  · intro u hu hsig
    exact absurd (hok u hsig) hu
  · intro hsusp
    exact absurd (setPc_self (s := s) (t := t) _ ▸ hsusp) Bool.noConfusion
  · intro hsig
    obtain ⟨heval, -⟩ := h.flagged t hsig
    rw [ht] at heval
    exact absurd heval Bool.noConfusion

theorem Inv.remove (h : s.Inv) (ht : s.pc t = .removing) : (s.rtWqueueRemove t).Inv := by
  apply h.of_frame t
  · intro u hu
    exact setPc_of_ne hu _
  · intro u _
    rfl
  · intro u hu hmem
    exact (List.mem_erase_of_ne hu).mpr hmem
  · intro u _ _ hset
    exact hset
  · intro hsusp
    exact absurd (setPc_self (s := s) (t := t) _ ▸ hsusp) Bool.noConfusion
  · intro hsig
    obtain ⟨heval, -⟩ := h.flagged t hsig
    rw [ht] at heval
    exact absurd heval Bool.noConfusion

theorem Inv.resume (h : s.Inv) (t : T) : (s.rtThreadResume t).Inv := by
  unfold rtThreadResume
  split
  next hsusp =>
    apply h.of_frame t
    · intro u hu
      exact setPc_of_ne hu _
    · intro u _
      rfl
    · intro u _ hmem
      exact hmem
    · intro u _ _ hset
      exact hset
    · intro hsusp'
      exact absurd (setPc_self (s := s) (t := t) _ ▸ hsusp') Bool.noConfusion
    · intro hsig
      obtain ⟨heval, -⟩ := h.flagged t hsig
      cases hpc : s.pc t with
      | suspended => exact absurd (hpc ▸ heval) Bool.noConfusion
      | idle | evaluated | ready | removing => exact absurd (hpc ▸ hsusp) Bool.noConfusion
  next => exact h

omit [DecidableEq T] in
theorem Inv.setFlag (h : s.Inv) : s.setFlag.Inv where
  linked := h.linked
  flagged u hu := by
    refine ⟨?_, rfl⟩
    rcases Bool.or_eq_true_iff.mp hu with hsig | heval
    · exact (h.flagged u hsig).1
    · exact heval

/-- The head of the list is not suspended after a wakeup, so it may be unlinked. -/
theorem Inv.wakeup (h : s.Inv) : s.rtWqueueWakeup.Inv := by
  unfold rtWqueueWakeup
  cases hlist : s.waitingList with
  | nil => exact h.setFlag
  | cons t rest =>
    have hres := h.setFlag.resume t
    constructor
    · intro u hu
      have hmem : u ∈ t :: rest := by
        rw [← hlist]
        have hlink := hres.linked u hu
        unfold rtThreadResume at hlink
        split at hlink <;> exact hlink
      refine (List.mem_cons.mp hmem).resolve_left ?_
      intro hut
      subst hut
      simp only [rtThreadResume] at hu
      split at hu
      next => exact absurd (setPc_self (s := s.setFlag) (t := u) _ ▸ hu) Bool.noConfusion
      next hsusp => exact hsusp hu
    · intro u hu
      exact hres.flagged u hu

/-- **A step that loses no wakeup keeps the invariant.** -/
theorem inv_step (h : s.Inv) (hok : s.StepOk e) (hs : s.Step e s') : s'.Inv := by
  obtain ⟨hen, rfl⟩ := hs
  cases e with
  | evaluate t condition msec => exact h.evaluate t condition msec
  | enter t => exact h.enter hok
  | leave t => exact h.leave hen hok
  | remove t => exact h.remove hen
  | timeout t => exact h.resume t
  | wakeup => exact h.wakeup

/-- A thread finds the flag set exactly if it is not suspended. -/
theorem enter_suspended (ht : (s.pc t).isEvaluated = true) : ((s.enter t).pc t).isSuspended = !s.flag := by
  unfold enter
  cases hpc : s.pc t with
  | idle | suspended | ready | removing => exact absurd (hpc ▸ ht) Bool.noConfusion
  | evaluated tick =>
    dsimp only
    cases hflag : s.flag with
    | false =>
      show ((s.setPc t (.suspended tick)).pc t).isSuspended = true
      rw [setPc_self]
      rfl
    | true =>
      show ((s.setPc t .removing).pc t).isSuspended = false
      rw [setPc_self]
      rfl

/-- A thread that finds the flag set takes it away. -/
theorem enter_of_flag (ht : (s.pc t).isEvaluated = true) (hflag : s.flag = true) :
    s.enter t = { (s.setPc t .removing).setSignalled t false with flag := false } := by
  unfold enter
  cases hpc : s.pc t with
  | idle | suspended | ready | removing => exact absurd (hpc ▸ ht) Bool.noConfusion
  | evaluated tick =>
    dsimp only
    rw [if_pos hflag]

theorem Inv.enter_kept (h : s.Inv) (hs : s.Step (.enter t) s') : s.WakeupKept (.enter t) s' := by
  obtain ⟨hen, rfl⟩ := hs
  intro hsig
  obtain ⟨heval, hflag⟩ := h.flagged t hsig
  show ((s.enter t).pc t).isSuspended = false
  rw [enter_suspended heval, hflag]
  rfl

/-- A wakeup makes no thread ready but that of the first node. -/
theorem wakeup_ready_iff : (s.pc t).isSuspended = true ∧ s.rtWqueueWakeup.pc t = .ready ↔
    t ∈ s.waitingList.head? ∧ (s.pc t).isSuspended = true := by
  unfold rtWqueueWakeup
  cases hlist : s.waitingList with
  | nil =>
    constructor
    · intro ⟨hsusp, hready⟩
      have hpc : s.pc t = .ready := hready
      exact absurd (hpc ▸ hsusp) Bool.noConfusion
    · intro ⟨hmem, _⟩
      exact absurd hmem (by simp)
  | cons u rest =>
    show _ ∧ (s.setFlag.rtThreadResume u).pc t = .ready ↔ t ∈ some u ∧ _
    unfold rtThreadResume
    by_cases htu : t = u
    · subst htu
      constructor
      · intro ⟨hsusp, _⟩
        exact ⟨rfl, hsusp⟩
      · intro ⟨_, hsusp⟩
        refine ⟨hsusp, ?_⟩
        rw [if_pos (show (s.setFlag.pc t).isSuspended = true from hsusp)]
        exact setPc_self _
    · constructor
      · intro ⟨hsusp, hready⟩
        have hpc : s.pc t = .ready := by
          split at hready
          · exact (setPc_of_ne htu _).symm.trans hready
          · exact hready
        exact absurd (hpc ▸ hsusp) Bool.noConfusion
      · intro ⟨hmem, _⟩
        exact absurd (Option.some.inj hmem).symm htu

theorem wakeup_kept_iff : s.WakeupKept .wakeup s.rtWqueueWakeup ↔ s.StepOk .wakeup := by
  show (_ → ∃ t, _ ∧ _) ↔ (_ → ∃ t, _ ∧ _)
  simp only [wakeup_ready_iff]

/-- A thread that has been signalled and finds the flag taken away is suspended. -/
theorem enter_not_kept (hsig : s.signalled t = true) (heval : (s.pc t).isEvaluated = true) (hflag : s.flag = false) :
    ¬ s.WakeupKept (.enter t) (s.enter t) := by
  intro hkept
  have hsusp : ((s.enter t).pc t).isSuspended = false := hkept hsig
  rw [enter_suspended heval, hflag] at hsusp
  exact Bool.noConfusion hsusp

/-! ## Runs -/

/-- **The condition is exact.** After a step that does not meet it, a promise has been broken, or the next step can break
one. -/
theorem Inv.stepOk_iff (h : s.Inv) (hs : s.Step e s') : s.StepOk e ↔
    s.WakeupKept e s' ∧ ∀ u s'', s'.Step (.enter u) s'' → s'.WakeupKept (.enter u) s'' := by
  constructor
  · intro hok
    refine ⟨?_, fun u s'' hs'' => (inv_step h hok hs).enter_kept hs''⟩
    cases e with
    | evaluate | leave | remove | timeout => trivial
    | enter t => exact h.enter_kept hs
    | wakeup =>
      obtain ⟨-, rfl⟩ := hs
      exact wakeup_kept_iff.mpr hok
  · intro ⟨hkept, hnext⟩
    obtain ⟨hen, rfl⟩ := hs
    cases e with
    | evaluate | remove | timeout => trivial
    | wakeup => exact wakeup_kept_iff.mp hkept
    | leave t =>
      intro u hsig
      by_contra hut
      have heval : ((s.leave t).pc u).isEvaluated = true := by
        rw [show (s.leave t).pc u = s.pc u from setPc_of_ne hut _]
        exact (h.flagged u hsig).1
      exact enter_not_kept (s := s.leave t) hsig heval rfl (hnext u _ ⟨heval, rfl⟩)
    | enter t =>
      intro hflag u hsig
      by_contra hut
      have hexec : s.exec (.enter t) = { (s.setPc t .removing).setSignalled t false with flag := false } :=
        enter_of_flag hen hflag
      have hpc : (s.exec (.enter t)).pc u = s.pc u := by
        rw [hexec]
        exact setPc_of_ne hut _
      have hsig' : (s.exec (.enter t)).signalled u = true := by
        rw [hexec]
        exact (setSignalled_of_ne hut _).trans hsig
      have heval : ((s.exec (.enter t)).pc u).isEvaluated = true := by
        rw [hpc]
        exact (h.flagged u hsig).1
      exact enter_not_kept hsig' heval (by rw [hexec]) (hnext u _ ⟨heval, rfl⟩)

/-- **No wakeup is lost as long as the flag is taken away by nobody else and the head of the list is suspended.** In a run
whose steps all meet the condition, every step keeps the promises of the queue. The condition is exact: a next step that
does not meet it breaks a promise, or is followed by one that does. -/
theorem wqueue_wakeup_kept {ls : List (WqEvent T)} (hrun : Run (Guarded StepOk Step) rtWqueueInit ls s) :
    Run (fun s e s' => s.Step e s' ∧ s.WakeupKept e s') rtWqueueInit ls s ∧
      ∀ e s', s.Step e s' → (s.StepOk e ↔
        s.WakeupKept e s' ∧ ∀ u s'', s'.Step (.enter u) s'' → s'.WakeupKept (.enter u) s'') := by
  have hinv : s.Inv ∧ Run (fun s e s' => s.Step e s' ∧ s.WakeupKept e s') rtWqueueInit ls s := by
    apply hrun.imp inv_init
    intro s e s' h ⟨hok, hs⟩
    exact ⟨inv_step h hok hs, hs, ((h.stepOk_iff hs).mp hok).1⟩
  exact ⟨hinv.2, fun e s' hs => hinv.1.stepOk_iff hs⟩

/-- Of two readers, one is suspended with a time limit, which passes, and is gone; the other evaluates its condition, and a
wakeup comes before it is suspended. -/
theorem wqueue_wakeup_kept_run : ∃ (ls : List (WqEvent Bool)) (s : WqSys Bool), s.signalled true = true ∧
    Run (fun s e s' => s.Step e s' ∧ s.WakeupKept e s') rtWqueueInit ls s ∧
      ∀ e s', s.Step e s' → (s.StepOk e ↔
        s.WakeupKept e s' ∧ ∀ u s'', s'.Step (.enter u) s'' → s'.WakeupKept (.enter u) s'') := by
  have hexec : ((([.evaluate false false 20, .enter false, .timeout false, .leave false, .remove false,
      .evaluate true false (-1), .wakeup] : List (WqEvent Bool)).foldlM
        (fun s e => if StepOk s e then Run.tryStep Enabled exec s e else none) rtWqueueInit).map fun s =>
          s.signalled true) = some true := by decide +kernel
  obtain ⟨s, hs, hobs⟩ := Option.map_eq_some_iff.mp hexec
  exact ⟨_, s, hobs, wqueue_wakeup_kept (Run.of_foldlM_guarded (fun _ _ _ hs => Run.of_tryStep hs) hs)⟩

/-- **A wakeup that is lost.** A reader is suspended, and another one has evaluated its condition when a wakeup comes. The
first one is made ready, and takes the flag away as it leaves; so the second one is suspended. -/
theorem wqueue_wakeup_lost : ¬ ∀ (ls : List (WqEvent Bool)) (s s' : WqSys Bool) (e : WqEvent Bool),
    Run Step rtWqueueInit ls s → s.Step e s' → s.WakeupKept e s' := by
  intro hall
  have hexec : ((([.evaluate false false (-1), .enter false, .evaluate true false (-1), .wakeup, .leave false] :
      List (WqEvent Bool)).foldlM (Run.tryStep Enabled exec) rtWqueueInit).map fun s =>
        (s.signalled true, (s.pc true).isEvaluated, s.flag)) = some (true, true, false) := by decide +kernel
  obtain ⟨s, hs, hobs⟩ := Option.map_eq_some_iff.mp hexec
  have hsig : s.signalled true = true := congrArg Prod.fst hobs
  have heval : (s.pc true).isEvaluated = true := congrArg (fun o => o.2.1) hobs
  have hflag : s.flag = false := congrArg (fun o => o.2.2) hobs
  exact enter_not_kept hsig heval hflag (hall _ s _ _ (Run.of_foldlM_tryStep hs) ⟨heval, rfl⟩)

end WqSys

end CoreLink.RtThread
