/-
# `CoreLink.RtThread.Mutex` — the mutex of `src/ipc.c`.

The kernel objects of the scheduler model are here the mutexes: the suspend list of a mutex is
`parent.suspend_thread`. `rt_mutex_take` and `rt_mutex_release` are each one critical section, followed by an
`rt_schedule` that is a step of its own, so that an interrupt in between is some order of steps. A thread that was
suspended in `rt_mutex_take` does nothing more than read `thread->error` when it runs again.

`RT_ASSERT`, the hooks and the log are left out, and so is the signal that interrupts a wait (`-RT_EINTR`, on which
`rt_mutex_take` tries again). The thread timer of a wait with a time limit is `rtThreadTimeout`, at any time.
-/
import CoreLink.Lib.Word
import CoreLink.RtThread.SchedRuns

namespace CoreLink.RtThread

open CoreLink.Lib

/-! ## State -/

/-- `struct rt_mutex`, without the suspend list: `value` is an `rt_uint16_t`, `original_priority` and `hold` are
`rt_uint8_t`, and `flag` is `parent.parent.flag`. -/
structure Mutex (T : Type*) where
  value : Nat
  originalPriority : Nat
  hold : Nat
  owner : Option T
  flag : IpcFlag

/-- `rt_mutex_init`. -/
def rtMutexInit {T : Type*} (flag : IpcFlag) : Mutex T where
  value := 1
  originalPriority := 0xff
  hold := 0
  owner := none
  flag := flag

/-- "set (new) mutex owner and original priority". -/
def Mutex.give {T : Type*} (mutex : Mutex T) (t : T) (prio : Nat) : Mutex T :=
  { mutex with owner := some t, originalPriority := prio, hold := (mutex.hold + 1) % 2 ^ 8 }

/-- The mutexes `M` and the scheduler. `base` is a ghost variable: the current priority that a thread had before it took
the first of the mutexes it owns, or owned last. No function reads it. -/
structure MutexSys (T M : Type*) where
  sched : Sched T M
  mutex : M → Mutex T
  base : T → Option Nat

namespace MutexSys

variable {T M : Type*} [DecidableEq T] [DecidableEq M]

/-- `thread->current_priority`. -/
def prio (s : MutexSys T M) (t : T) : Nat := (s.sched.thread t).currentPriority

def setMutex (s : MutexSys T M) (m : M) (mutex : Mutex T) : MutexSys T M :=
  { s with mutex := Function.update s.mutex m mutex }

/-- `thread->error = e`. -/
def setError (s : MutexSys T M) (t : T) (e : RtErr) : MutexSys T M :=
  { s with sched := s.sched.modifyThread t fun th => { th with error := e } }

/-- `rt_thread_control` with `RT_THREAD_CTRL_CHANGE_PRIORITY`. -/
def control (c : SchedCfg) (s : MutexSys T M) (t : T) (prio : Nat) : MutexSys T M :=
  { s with sched := rtThreadControl c s.sched t prio }

/-- `rt_mutex_take`, called by `thread`; the result is `none` where the thread is suspended and the call returns
`thread->error` later. A mutex with the value 0 has an owner, so the last branch of the match is never taken. -/
def rtMutexTake [Fintype T] (c : SchedCfg) (s : MutexSys T M) (m : M) (time : Int) (thread : T) :
    MutexSys T M × Option RtErr :=
  let s := s.setError thread .eok
  let mutex := s.mutex m
  if mutex.owner = some thread then
    (s.setMutex m { mutex with hold := (mutex.hold + 1) % 2 ^ 8 }, some .eok)
  else if mutex.value > 0 then
    (s.setMutex m ({ mutex with value := mutex.value - 1 }.give thread (s.prio thread)), some .eok)
  else if time = 0 then (s.setError thread .etimeout, some .etimeout)
  else
    -- change the owner thread priority of mutex
    let s := match mutex.owner with
      | some owner => if s.prio thread < s.prio owner then s.control c owner (s.prio thread) else s
      | none => s
    ({ s with sched := rtIpcListSuspend c s.sched m thread mutex.flag }, none)

/-- `rt_mutex_release`, called by `thread`. -/
def rtMutexRelease (c : SchedCfg) (s : MutexSys T M) (m : M) (thread : T) : MutexSys T M × RtErr :=
  let mutex := s.mutex m
  if mutex.owner ≠ some thread then (s.setError thread .error, .error)
  else
    let mutex := { mutex with hold := Word.sub 8 mutex.hold 1 }
    let s := s.setMutex m mutex
    if mutex.hold = 0 then
      -- change the owner thread to original priority
      let s := if mutex.originalPriority ≠ s.prio thread then s.control c thread mutex.originalPriority else s
      match s.sched.firstEntry (.suspendThread m) with
      | some waiter =>
          let s := s.setMutex m (mutex.give waiter (s.prio waiter))
          ({ s with sched := rtIpcListResume c s.sched m }, .eok)
      | none =>
          (s.setMutex m { mutex with value := (mutex.value + 1) % 2 ^ 16, owner := none, originalPriority := 0xff },
            .eok)
    else (s, .eok)

/-! ## Steps -/

/-- The thread owns a mutex. -/
def Owns (s : MutexSys T M) (t : T) : Prop := ∃ m, (s.mutex m).owner = some t

instance [Fintype M] (s : MutexSys T M) (t : T) : Decidable (s.Owns t) := by
  unfold Owns
  infer_instance

/-- The ghost assignment of a step from `s` to `s'`: who takes a first mutex has its priority recorded. -/
def track [Fintype M] (s s' : MutexSys T M) : MutexSys T M :=
  { s' with base := fun t => if ¬ s.Owns t ∧ s'.Owns t then some (s.prio t) else s.base t }

/-- The calls: `take` and `release` by the running thread, and of the scheduler those that change no priority by
themselves and end no thread. -/
inductive Call (T M : Type*) where
  | take (m : M) (time : Int)
  | release (m : M)
  | sched (l : SchedCall T M)

/-- `startup`, `suspend`, `resume` and `timeout` of threads, `rt_schedule` and the scheduler lock. -/
def keepsPriorities : SchedCall T M → Bool
  | .startup _ | .suspend _ | .resume _ | .timeout _ | .schedule | .schedulerStart | .enterCritical
  | .exitCritical => true
  | .control .. | .delete _ | .detach _ | .exit | .ipcSuspend .. | .ipcResume _ => false

/-- The running thread. -/
def running (s : MutexSys T M) : Option T :=
  s.sched.currentThread.filter fun t => (s.sched.thread t).stat = .running

/-- One call; `none` where nobody can make it. -/
def exec [Fintype T] [Fintype M] (c : SchedCfg) (s : MutexSys T M) : Call T M → Option (MutexSys T M)
  | .take m time => s.running.map fun t => s.track (s.rtMutexTake c m time t).1
  | .release m => s.running.map fun t => s.track (s.rtMutexRelease c m t).1
  | .sched l =>
      if keepsPriorities l then (execCall c s.sched l).map fun sched => s.track { s with sched := sched } else none

/-- The step relation. -/
def Step [Fintype T] [Fintype M] (c : SchedCfg) (s : MutexSys T M) (l : Call T M) (s' : MutexSys T M) : Prop :=
  s.exec c l = some s'

/-- The initialised scheduler, with all mutexes initialised. -/
def init (thread : T → Thread) (flag : M → IpcFlag) : MutexSys T M where
  sched := rtSystemSchedulerInit thread
  mutex m := rtMutexInit (flag m)
  base _ := none

end MutexSys

end CoreLink.RtThread
