/-
# `CoreLink.RtThread.Semaphore` — the semaphore of `src/ipc.c`, and what becomes of every release.

A take is one critical section, and after a wait a second part that only reads `thread->error`: a release hands its
token to the first waiting thread without touching `value`. Releases are not tied to a thread, as interrupt handlers
make them too.

The balance of a run is kept by counting what its steps are observed to do: takes that return `RT_EOK`, and releases.
A release at the largest value of the 16-bit counter with nobody waiting sets the counter to zero. `run_balance` is the
exact account with these releases counted; the law of conservation holds in a run if and only if there is none.
-/
import CoreLink.Lib.Run
import CoreLink.Lib.WaitList
import CoreLink.RtThread.Mq

namespace CoreLink.RtThread

open CoreLink.Lib

/-! ## The model -/

/-- Where a thread is in its take. -/
inductive SemPc where
  /-- in no take -/
  | idle
  /-- suspended on the semaphore -/
  | waiting (time : Int)
  /-- on a ready list again, before `thread->error` is read -/
  | woken
  deriving DecidableEq

/-- What a take reads and writes of its thread; `result` is what the last take returned. -/
structure SemThread where
  pc : SemPc
  error : RtErr
  result : RtErr

namespace SemThread

def isWaiting (th : SemThread) : Prop :=
  match th.pc with
  | .waiting _ => True
  | .idle | .woken => False

instance (th : SemThread) : Decidable th.isWaiting :=
  match h : th.pc with
  | .waiting _ => .isTrue (by unfold isWaiting; rw [h]; trivial)
  | .idle => .isFalse (by unfold isWaiting; rw [h]; exact id)
  | .woken => .isFalse (by unfold isWaiting; rw [h]; exact id)

/-- The thread has been woken by a release: its take is about to return `RT_EOK`. -/
def HandedOver (th : SemThread) : Prop := th.pc = .woken ∧ th.error = .eok

/-- The time limit of a thread that is suspended. -/
def timeLimit (th : SemThread) : Option Int :=
  match th.pc with
  | .waiting time => some time
  | .idle | .woken => none

end SemThread

/-- What can happen next: a thread begins a take or goes on with it, its timer fires, or the semaphore is released. -/
inductive SemEvent (T : Type*) where
  | take (t : T) (time : Int) (prio : T → Nat)
  | continue (t : T)
  | timeout (t : T)
  | release

/-- `struct rt_semaphore` and the threads that use it. -/
structure SemSys (T : Type*) where
  value : Nat
  flag : IpcFlag
  suspendThread : List T
  thread : T → SemThread

namespace SemSys

variable {T : Type*} [DecidableEq T]

def setThread (s : SemSys T) (t : T) (th : SemThread) : SemSys T := { s with thread := Function.update s.thread t th }

/-- The take of `t` returns `e`. -/
def ret (s : SemSys T) (t : T) (e : RtErr) : SemSys T := s.setThread t { s.thread t with pc := .idle, result := e }

/-- A thread is taken off the suspend list, with `e` in `thread->error`. -/
def wake (s : SemSys T) (t : T) (e : RtErr) : SemSys T :=
  { s.setThread t { s.thread t with pc := .woken, error := e } with suspendThread := s.suspendThread.erase t }

/-- `rt_sem_take`, up to where the thread is suspended or the call has returned. -/
def rtSemTake (s : SemSys T) (t : T) (time : Int) (prio : T → Nat) : SemSys T :=
  if s.value > 0 then { s with value := s.value - 1 }.ret t .eok
  else if time = 0 then s.ret t .etimeout
  else
    { s with suspendThread := MqSys.insertSuspended s.flag prio t s.suspendThread }.setThread t
      { s.thread t with pc := .waiting time, error := .eok }

/-- `rt_sem_take` after its `rt_schedule`. -/
def takeWoken (s : SemSys T) (t : T) : SemSys T :=
  if (s.thread t).error ≠ .eok then s.ret t (s.thread t).error else s.ret t .eok

/-- `rt_sem_release`, which returns `RT_EOK`. -/
def rtSemRelease (s : SemSys T) : SemSys T :=
  match s.suspendThread with
  | t :: _ => s.wake t (s.thread t).error
  | [] => { s with value := (s.value + 1) % 2 ^ 16 }

/-- That an event can happen in a state: takes are begun by threads outside of a take, and a timer that fires belongs to
a thread that waits with a time limit. -/
def Enabled (s : SemSys T) : SemEvent T → Prop
  | .take t _ _ => (s.thread t).pc = .idle
  | .continue t => (s.thread t).pc = .woken
  | .timeout t => (s.thread t).timeLimit.any (0 < ·)
  | .release => True

instance (s : SemSys T) : (e : SemEvent T) → Decidable (s.Enabled e)
  | .take .. | .continue _ => inferInstanceAs (Decidable (_ = _))
  | .timeout _ => inferInstanceAs (Decidable (_ = true))
  | .release => inferInstanceAs (Decidable True)

/-- The effect of an event. -/
def exec (s : SemSys T) : SemEvent T → SemSys T
  | .take t time prio => s.rtSemTake t time prio
  | .continue t => s.takeWoken t
  | .timeout t => s.wake t .etimeout
  | .release => s.rtSemRelease

/-- One step of the system. -/
def Step (s : SemSys T) (e : SemEvent T) (s' : SemSys T) : Prop := s.Enabled e ∧ s' = s.exec e

/-- `rt_sem_init`: a semaphore that nobody uses yet. -/
def init (value : Nat) (flag : IpcFlag) : SemSys T where
  value := value % 2 ^ 16
  flag := flag
  suspendThread := []
  thread _ := ⟨.idle, .eok, .eok⟩

end SemSys

/-! ## Observations -/

/-- What is observed of a step: a take returned `RT_EOK`, or the semaphore was released, and whether it was at the
largest value with nobody waiting. -/
inductive SemObs where
  | took
  | released (atMax : Bool)
  deriving DecidableEq

namespace SemSys

variable {T : Type*}

/-- A release in this state finds the counter at its largest value, and nobody waiting. -/
def AtMax (s : SemSys T) : Prop := s.value = 2 ^ 16 - 1 ∧ s.suspendThread = []

instance (s : SemSys T) : Decidable s.AtMax := inferInstanceAs (Decidable (_ ∧ _))

/-- What is observed of a step that leads to `s'`. -/
def observe (s : SemSys T) (e : SemEvent T) (s' : SemSys T) : Option SemObs :=
  match e with
  | .take t _ _ | .continue t => if (s'.thread t).pc = .idle ∧ (s'.thread t).result = .eok then some .took else none
  | .timeout _ => none
  | .release => some (.released (decide s.AtMax))

/-- A step together with what is observed of it. -/
def ObservedStep [DecidableEq T] (s : SemSys T) (l : SemEvent T × Option SemObs) (s' : SemSys T) : Prop :=
  s.Step l.1 s' ∧ l.2 = s.observe l.1 s'

/-- The number of takes that returned `RT_EOK`. -/
def taken (ls : List (SemEvent T × Option SemObs)) : Nat := ls.countP fun l => l.2 = some .took

/-- The number of releases. -/
def released (ls : List (SemEvent T × Option SemObs)) : Nat :=
  ls.countP fun l =>
    match l.2 with
    | some (.released _) => true
    | _ => false

/-- The number of releases that found the counter at its largest value. -/
def wrapped (ls : List (SemEvent T × Option SemObs)) : Nat := ls.countP fun l => l.2 = some (.released true)

/-! ## The balance -/

/-- The suspend list holds the threads that wait, with no error in `thread->error`, and `handed` are those that a
release has woken and that have not returned yet. -/
structure SemOk (s : SemSys T) (handed : List T) : Prop where
  waits : Waits SemThread.isWaiting s.thread s.suspendThread
  handedOver : Waits SemThread.HandedOver s.thread handed
  noError : ∀ t, (s.thread t).isWaiting → (s.thread t).error = .eok
  value_lt : s.value < 2 ^ 16

variable [DecidableEq T] {s s' : SemSys T} {handed : List T} {t : T}

/-- A thread changes its position; what is to be shown of the lists and the counter. -/
theorem SemOk.move (h : s.SemOk handed) {th : SemThread} {value : Nat} {ts handed' : List T}
    (hwaits : Waits SemThread.isWaiting (Function.update s.thread t th) ts)
    (hhanded : Waits SemThread.HandedOver (Function.update s.thread t th) handed')
    (herr : th.isWaiting → th.error = .eok) (hvalue : value < 2 ^ 16) :
    SemOk ⟨value, s.flag, ts, Function.update s.thread t th⟩ handed' := by
  refine ⟨hwaits, hhanded, fun u hu => ?_, hvalue⟩
  show (Function.update s.thread t th u).error = .eok
  replace hu : (Function.update s.thread t th u).isWaiting := hu
  by_cases he : u = t
  · subst he
    rw [Function.update_self] at hu ⊢
    exact herr hu
  · rw [Function.update_of_ne he] at hu ⊢
    exact h.noError u hu

/-- The account of one step: the counter and the threads `handed` before and after it, and what was observed. -/
def Balanced (s : SemSys T) (handed : List T) (l : SemEvent T × Option SemObs) (s' : SemSys T) (handed' : List T) :
    Prop :=
  s'.value + taken [l] + handed'.length + 2 ^ 16 * wrapped [l] = s.value + handed.length + released [l]

/-- What has to be shown of a step. -/
def StepOk (s : SemSys T) (handed : List T) (e : SemEvent T) : Prop :=
  ∃ handed', (s.exec e).SemOk handed' ∧ s.Balanced handed (e, s.observe e (s.exec e)) (s.exec e) handed'

/-- A take, up to where the thread is suspended or the call has returned. -/
theorem take_ok (h : s.SemOk handed) (ht : (s.thread t).pc = .idle) (time : Int) (prio : T → Nat) :
    s.StepOk handed (.take t time prio) := by
  have hw : ¬ (s.thread t).isWaiting := by rw [SemThread.isWaiting, ht]; exact id
  have hh : ¬ (s.thread t).HandedOver := fun hc => absurd (ht.symm.trans hc.1) nofun
  have hlt := h.value_lt
  refine ⟨handed, ?_⟩
  simp only [exec, rtSemTake]
  split_ifs with hv htime
  · refine ⟨h.move (h.waits.update ⟨False.elim, hw⟩) (h.handedOver.update ⟨nofun, hh.elim⟩) False.elim
      (lt_of_le_of_lt (Nat.sub_le _ 1) hlt), ?_⟩
    simp [Balanced, taken, released, wrapped, observe, ret, setThread]
    omega
  · refine ⟨h.move (h.waits.update ⟨False.elim, hw⟩) (h.handedOver.update ⟨nofun, hh.elim⟩) False.elim hlt, ?_⟩
    simp [Balanced, taken, released, wrapped, observe, ret, setThread]
  · refine ⟨h.move (h.waits.suspend hw trivial (MqSys.insertSuspended_perm ..))
      (h.handedOver.update ⟨nofun, hh.elim⟩) (fun _ => rfl) hlt, ?_⟩
    simp [Balanced, taken, released, wrapped, observe, setThread]

/-- A take goes on after it was woken, and returns. -/
theorem continue_ok (h : s.SemOk handed) (ht : (s.thread t).pc = .woken) : s.StepOk handed (.continue t) := by
  have hw : ¬ (s.thread t).isWaiting := by rw [SemThread.isWaiting, ht]; exact id
  simp only [StepOk, exec, takeWoken]
  split
  next herr =>
    have hh : ¬ (s.thread t).HandedOver := fun hc => herr hc.2
    refine ⟨handed, h.move (h.waits.update ⟨False.elim, hw⟩) (h.handedOver.update ⟨nofun, hh.elim⟩) False.elim
      h.value_lt, ?_⟩
    simp [Balanced, taken, released, wrapped, observe, ret, setThread, herr]
  next herr =>
    have hh : (s.thread t).HandedOver := ⟨ht, not_not.mp herr⟩
    have hmem : t ∈ handed := (h.handedOver.mem_iff t).mpr hh
    refine ⟨handed.erase t, h.move (h.waits.update ⟨False.elim, hw⟩) (h.handedOver.wake nofun) False.elim
      h.value_lt, ?_⟩
    have hlen := List.length_erase_of_mem hmem
    have hpos : 0 < handed.length := List.length_pos_of_mem hmem
    simp [Balanced, taken, released, wrapped, observe, ret, setThread]
    omega

/-- The timer of a thread takes it off the list without a token. -/
theorem timeout_ok (h : s.SemOk handed) (ht : (s.thread t).timeLimit.any (0 < ·)) : s.StepOk handed (.timeout t) := by
  have hh : ¬ (s.thread t).HandedOver := fun hc => by
    rw [SemThread.timeLimit, hc.1] at ht
    exact absurd ht Bool.false_ne_true
  refine ⟨handed, h.move (h.waits.wake id) (h.handedOver.update ⟨nofun, hh.elim⟩) False.elim h.value_lt, ?_⟩
  simp [Balanced, taken, released, wrapped, observe, exec, wake, setThread]

/-- A release wakes the first waiting thread, or counts. -/
theorem release_ok (h : s.SemOk handed) : s.StepOk handed .release := by
  have hlt := h.value_lt
  cases hts : s.suspendThread with
  | nil =>
      refine ⟨handed, ?_, ?_⟩
      · simp only [exec, rtSemRelease, hts]
        exact ⟨hts ▸ h.waits, h.handedOver, h.noError, Nat.mod_lt _ (by decide)⟩
      · simp only [Balanced, taken, released, wrapped, observe, exec, rtSemRelease, hts, AtMax]
        by_cases hmax : s.value = 65535
        · simp [hmax]
          omega
        · simp [hmax]
          omega
  | cons t ts =>
      have hw : (s.thread t).isWaiting := (h.waits.mem_iff t).mp (by rw [hts]; exact List.mem_cons_self)
      have hh : ¬ (s.thread t).HandedOver := fun hc => by
        rw [SemThread.isWaiting, hc.1] at hw
        exact hw
      refine ⟨t :: handed, ?_, ?_⟩
      · simp only [exec, rtSemRelease, hts]
        exact h.move (h.waits.wake id) (h.handedOver.suspend hh ⟨rfl, h.noError t hw⟩ (.refl _)) False.elim hlt
      · simp [Balanced, taken, released, wrapped, observe, exec, rtSemRelease, hts, AtMax, wake, setThread]
        omega

/-- **One step.** -/
theorem step_balanced {l : SemEvent T × Option SemObs} (h : s.SemOk handed) (hs : s.ObservedStep l s') :
    ∃ handed', s'.SemOk handed' ∧ s.Balanced handed l s' handed' := by
  obtain ⟨e, o⟩ := l
  obtain ⟨⟨he, rfl⟩, hobs⟩ := hs
  replace hobs : o = s.observe e (s.exec e) := hobs
  subst hobs
  cases e with
  | take t time prio => exact take_ok h he time prio
  | «continue» t => exact continue_ok h he
  | timeout t => exact timeout_ok h he
  | release => exact release_ok h

/-- **The account of a run.** -/
theorem run_balance {value : Nat} (hvalue : value < 2 ^ 16) {flag : IpcFlag} {ls : List (SemEvent T × Option SemObs)}
    (hrun : Run ObservedStep (init value flag) ls s) :
    ∃ handed, s.SemOk handed ∧
      s.value + (taken ls + handed.length) + 2 ^ 16 * wrapped ls = value + released ls := by
  have hmod : value % 2 ^ 16 = value := Nat.mod_eq_of_lt hvalue
  induction hrun with
  | nil => exact ⟨[], ⟨.init fun _ => id, .init fun _ => nofun, nofun, by rw [init, hmod]; exact hvalue⟩, hmod⟩
  | @snoc ls s s' l _ hs ih =>
      obtain ⟨handed, hok, hsum⟩ := ih
      obtain ⟨handed', hok', hbal⟩ := step_balanced hok hs
      refine ⟨handed', hok', ?_⟩
      have htaken : taken (ls ++ [l]) = taken ls + taken [l] := List.countP_append
      have hreleased : released (ls ++ [l]) = released ls + released [l] := List.countP_append
      have hwrapped : wrapped (ls ++ [l]) = wrapped ls + wrapped [l] := List.countP_append
      rw [htaken, hreleased, hwrapped]
      unfold Balanced at hbal
      omega

/-- **Conservation, and exactly when it holds.** After any run from a new semaphore: the current value, the takes that
returned `RT_EOK` and the threads that were handed a token and have not returned yet add up to the initial value and the
releases, if and only if no release of the run found the counter at 65535 with nobody waiting. -/
theorem sem_conserved {value : Nat} (hvalue : value < 65536) {flag : IpcFlag}
    {ls : List (SemEvent T × Option SemObs)} (hrun : Run ObservedStep (init value flag) ls s) :
    ∃ handed : List T, handed.Nodup ∧ (∀ t, t ∈ handed ↔ (s.thread t).HandedOver) ∧
      (s.value + (taken ls + handed.length) = value + released ls ↔ ∀ l ∈ ls, l.2 ≠ some (.released true)) := by
  obtain ⟨handed, hok, hsum⟩ := run_balance hvalue hrun
  refine ⟨handed, hok.handedOver.nodup, hok.handedOver.mem_iff, ?_⟩
  have hnone : wrapped ls = 0 ↔ ∀ l ∈ ls, l.2 ≠ some (.released true) := by
    simp [wrapped, List.countP_eq_zero]
  rw [← hnone]
  omega

/-- Thread 0 waits, a release hands it a token, and a second release is counted. -/
theorem sem_conserved_run : ∃ ls, ∃ s : SemSys (Fin 2), Run ObservedStep (init 0 .fifo) ls s ∧ s.value = 1 ∧
    ∃ handed : List (Fin 2), handed.Nodup ∧ (∀ t, t ∈ handed ↔ (s.thread t).HandedOver) ∧
      (s.value + (taken ls + handed.length) = 0 + released ls ↔ ∀ l ∈ ls, l.2 ≠ some (.released true)) := by
  have hexec : ((([.take 0 (-1) fun _ => 0, .release, .release] : List (SemEvent (Fin 2))).foldlM
      (Run.tryStep Enabled exec) (init 0 .fifo)).map fun s => s.value) = some 1 := by decide +kernel
  obtain ⟨s, hs, hvalue⟩ := Option.map_eq_some_iff.mp hexec
  obtain ⟨ls, -, hrun⟩ := Run.observed_of_foldlM_tryStep observe hs
  exact ⟨ls, s, hrun, hvalue, sem_conserved (by decide) hrun⟩

/-- **A release that is lost.** A semaphore with 65535 tokens and no thread at it is released; its value is 0. -/
theorem sem_not_conserved : ∃ ls, ∃ s : SemSys (Fin 1), Run ObservedStep (init 65535 .fifo) ls s ∧ s.value = 0 ∧
    (∀ t, ¬ (s.thread t).HandedOver) ∧ taken ls = 0 ∧ released ls = 1 ∧
    s.value + taken ls ≠ 65535 + released ls := by
  have hstep : ObservedStep (init 65535 .fifo) (.release, some (.released true))
      (init (T := Fin 1) 65535 .fifo).rtSemRelease := ⟨⟨trivial, rfl⟩, rfl⟩
  exact ⟨_, _, .single hstep, rfl, fun _ => nofun, rfl, rfl, by decide⟩

end SemSys

end CoreLink.RtThread
