/-
# `CoreLink.RtThread.MutexSignal` — `rt_mutex_take` and the signals of `src/signal.c`.

A signal for a suspended thread resumes it, and its handler leaves `-RT_EINTR` in `thread->error`. `rt_mutex_take` then
goes back to `__again`: to the test of `mutex->value`, but not to the two things in front of it, which disable the
interrupts and reset `thread->error`. So the first try is one critical section, and every later one is not: here each
of its statements is a step, with any steps of others in between. The insertion into the suspend list is one step.

Any thread may take its next step at any time unless it is suspended. A handler runs at any time after its signal has
come, as long as its thread is not suspended; handlers do not use mutexes themselves. As in the model of the mutex
without signals, `RT_ASSERT`, the hooks and the log are left out. The timer of a wait is a step that may come at any
time.
-/
import CoreLink.RtThread.Mq
import CoreLink.RtThread.Mutex
import Mathlib.Order.CompletePartialOrder

namespace CoreLink.RtThread

open CoreLink.Lib

/-! ## State -/

/-- `RT_EOK`, `-RT_ERROR`, `-RT_ETIMEOUT` and `-RT_EINTR`. -/
inductive SigErr where
  | eok
  | error
  | etimeout
  | eintr
  deriving DecidableEq, Repr

/-- Where a thread is in `rt_mutex_take`. -/
inductive SigPc (M : Type*) where
  /-- not in the call -/
  | idle
  /-- in `rt_schedule`: suspended, or on a ready list again before `thread->error` is read -/
  | blocked (m : M) (time : Int)
  /-- at `__again`, before the test of `mutex->value` -/
  | again (m : M) (time : Int)
  /-- before `mutex->value --` -/
  | decValue (m : M)
  /-- before `mutex->owner = thread` -/
  | setOwner (m : M)
  /-- before `mutex->original_priority = thread->current_priority` -/
  | setPriority (m : M)
  /-- before `mutex->hold ++` -/
  | incHold (m : M)
  /-- before "change the owner thread priority of mutex" -/
  | lend (m : M) (time : Int)
  /-- before the `rt_thread_suspend` of `rt_ipc_list_suspend` -/
  | suspend (m : M) (time : Int)
  /-- before the insertion of `rt_ipc_list_suspend` -/
  | insert (m : M) (time : Int)
  deriving DecidableEq

/-- What is read and written of a thread. `suspended` is that `stat` is `RT_THREAD_SUSPEND`, `signal` that a signal is
pending whose handler has not run yet, and `result` what the last call returned. -/
structure SigThread (M : Type*) where
  pc : SigPc M
  error : SigErr
  suspended : Bool
  signal : Bool
  result : SigErr

/-- The mutexes, their suspend lists, and the threads with their current priorities. -/
structure SigSys (T M : Type*) where
  mutex : M → Mutex T
  suspendThread : M → List T
  prio : T → Nat
  thread : T → SigThread M

/-- What can happen next: a thread begins to take a mutex or goes on with it, releases one, is sent a signal, runs its
handler, or is timed out. -/
inductive SigEvent (T M : Type*) where
  | take (t : T) (m : M) (time : Int)
  | continue (t : T)
  | release (t : T) (m : M)
  | kill (t : T)
  | handle (t : T)
  | timeout (t : T)
  deriving DecidableEq

namespace SigSys

variable {T M : Type*} [DecidableEq T] [DecidableEq M]

def setThread (s : SigSys T M) (t : T) (th : SigThread M) : SigSys T M :=
  { s with thread := Function.update s.thread t th }

def setMutex (s : SigSys T M) (m : M) (mutex : Mutex T) : SigSys T M :=
  { s with mutex := Function.update s.mutex m mutex }

/-- The thread goes on to another place in its call. -/
def goto (s : SigSys T M) (t : T) (pc : SigPc M) : SigSys T M := s.setThread t { s.thread t with pc := pc }

/-- The call of `t` returns `e`. -/
def ret (s : SigSys T M) (t : T) (e : SigErr) : SigSys T M :=
  s.setThread t { s.thread t with pc := .idle, result := e }

/-- `rt_list_remove (&(thread->tlist))`, for a thread that may be on a suspend list. -/
def unlink (s : SigSys T M) (t : T) : SigSys T M := { s with suspendThread := fun m => (s.suspendThread m).erase t }

/-- `rt_thread_resume`. -/
def resume (s : SigSys T M) (t : T) : SigSys T M :=
  if (s.thread t).suspended then (s.unlink t).setThread t { s.thread t with suspended := false } else s

/-! ## `rt_mutex_take` -/

/-- "change the owner thread priority of mutex". Where the owner has gone since `mutex->value` was read, the source reads
through `RT_NULL`. -/
def lendPriority (s : SigSys T M) (t : T) (m : M) : SigSys T M :=
  match (s.mutex m).owner with
  | some owner => if s.prio t < s.prio owner then { s with prio := Function.update s.prio owner (s.prio t) } else s
  | none => s

/-- The insertion of `rt_ipc_list_suspend`, after which the thread is in `rt_schedule`. -/
def insertThread (s : SigSys T M) (t : T) (m : M) (time : Int) : SigSys T M :=
  let list := MqSys.insertSuspended (s.mutex m).flag s.prio t (s.suspendThread m)
  { s with suspendThread := Function.update s.suspendThread m list }.goto t (.blocked m time)

/-- The `rt_thread_suspend` of `rt_ipc_list_suspend`. -/
def suspendThreadSelf (s : SigSys T M) (t : T) (m : M) (time : Int) : SigSys T M :=
  s.setThread t { s.thread t with suspended := true, pc := .insert m time }

/-- `rt_mutex_take` up to its first `rt_schedule`, or to its end. -/
def rtMutexTake (s : SigSys T M) (t : T) (m : M) (time : Int) : SigSys T M :=
  let s := s.setThread t { s.thread t with error := .eok }
  let mutex := s.mutex m
  if mutex.owner = some t then (s.setMutex m { mutex with hold := (mutex.hold + 1) % 2 ^ 8 }).ret t .eok
  else if mutex.value > 0 then (s.setMutex m ({ mutex with value := mutex.value - 1 }.give t (s.prio t))).ret t .eok
  else if time = 0 then (s.setThread t { s.thread t with error := .etimeout }).ret t .etimeout
  else ((s.lendPriority t m).suspendThreadSelf t m time).insertThread t m time

/-- `rt_mutex_take` behind `rt_schedule`. -/
def takeWoken (s : SigSys T M) (t : T) (m : M) (time : Int) : SigSys T M :=
  if (s.thread t).error ≠ .eok then
    if (s.thread t).error = .eintr then s.goto t (.again m time) else s.ret t (s.thread t).error
  else s.ret t .eok

/-- The test of `mutex->value` when the interrupts are enabled. -/
def testValue (s : SigSys T M) (t : T) (m : M) (time : Int) : SigSys T M :=
  if (s.mutex m).value > 0 then s.goto t (.decValue m)
  else if time = 0 then (s.setThread t { s.thread t with error := .etimeout }).ret t .etimeout
  else s.goto t (.lend m time)

/-- The next step of a thread inside `rt_mutex_take`. -/
def continueTake (s : SigSys T M) (t : T) : SigSys T M :=
  match (s.thread t).pc with
  | .idle => s
  | .blocked m time => s.takeWoken t m time
  | .again m time => s.testValue t m time
  | .decValue m => (s.setMutex m { s.mutex m with value := Word.sub 16 (s.mutex m).value 1 }).goto t (.setOwner m)
  | .setOwner m => (s.setMutex m { s.mutex m with owner := some t }).goto t (.setPriority m)
  | .setPriority m => (s.setMutex m { s.mutex m with originalPriority := s.prio t }).goto t (.incHold m)
  | .incHold m => (s.setMutex m { s.mutex m with hold := ((s.mutex m).hold + 1) % 2 ^ 8 }).ret t .eok
  | .lend m time => (s.lendPriority t m).goto t (.suspend m time)
  | .suspend m time => s.suspendThreadSelf t m time
  | .insert m time => s.insertThread t m time

/-! ## `rt_mutex_release` -/

/-- "wakeup suspended thread", or "increase value" and "clear owner". -/
def passOn (s : SigSys T M) (m : M) : SigSys T M :=
  match s.suspendThread m with
  | waiter :: _ => (s.setMutex m ((s.mutex m).give waiter (s.prio waiter))).resume waiter
  | [] => s.setMutex m { s.mutex m with
      value := ((s.mutex m).value + 1) % 2 ^ 16, owner := none, originalPriority := 0xff }

/-- `rt_mutex_release`, called by `t`. -/
def rtMutexRelease (s : SigSys T M) (t : T) (m : M) : SigSys T M :=
  if (s.mutex m).owner ≠ some t then (s.setThread t { s.thread t with error := .error }).ret t .error
  else
    let s := s.setMutex m { s.mutex m with hold := Word.sub 8 (s.mutex m).hold 1 }
    if (s.mutex m).hold = 0 then
      -- change the owner thread to original priority
      ({ s with prio := Function.update s.prio t (s.mutex m).originalPriority }.passOn m).ret t .eok
    else s.ret t .eok

/-! ## Signals and steps -/

/-- `rt_thread_kill`, for a signal that the thread is interested in. -/
def rtThreadKill (s : SigSys T M) (t : T) : SigSys T M :=
  (s.resume t).setThread t { (s.resume t).thread t with signal := true }

/-- `rt_thread_handle_sig`. -/
def rtThreadHandleSig (s : SigSys T M) (t : T) : SigSys T M :=
  s.setThread t { s.thread t with error := .eintr, signal := false }

/-- `rt_thread_timeout`. -/
def rtThreadTimeout (s : SigSys T M) (t : T) : SigSys T M :=
  (s.unlink t).setThread t { s.thread t with error := .etimeout, suspended := false }

/-- The thread is suspended in `rt_schedule` with a time limit. -/
def timeLimited (th : SigThread M) : Bool :=
  match th.pc with
  | .blocked _ time => th.suspended && decide (0 < time)
  | _ => false

/-- The thread is in `rt_mutex_take` and can go on: it is not suspended, or has only just suspended itself. -/
def canContinue (th : SigThread M) : Bool :=
  match th.pc with
  | .idle => false
  | .insert .. => true
  | _ => ! th.suspended

/-- That an event can happen in a state. -/
def Enabled (s : SigSys T M) : SigEvent T M → Prop
  | .take t _ _ | .release t _ => (s.thread t).pc = .idle
  | .continue t => canContinue (s.thread t)
  | .kill _ => True
  | .handle t => (s.thread t).signal ∧ (s.thread t).suspended = false
  | .timeout t => timeLimited (s.thread t)

instance (s : SigSys T M) : (e : SigEvent T M) → Decidable (s.Enabled e)
  | .take .. | .release .. => inferInstanceAs (Decidable (_ = _))
  | .continue _ | .timeout _ => inferInstanceAs (Decidable (_ = true))
  | .handle _ => inferInstanceAs (Decidable (_ ∧ _))
  | .kill _ => inferInstanceAs (Decidable True)

/-- The effect of an event. -/
def exec (s : SigSys T M) : SigEvent T M → SigSys T M
  | .take t m time => s.rtMutexTake t m time
  | .continue t => s.continueTake t
  | .release t m => s.rtMutexRelease t m
  | .kill t => s.rtThreadKill t
  | .handle t => s.rtThreadHandleSig t
  | .timeout t => s.rtThreadTimeout t

/-- One step of the system. -/
def Step (s : SigSys T M) (e : SigEvent T M) (s' : SigSys T M) : Prop := s.Enabled e ∧ s' = s.exec e

/-- Mutexes that nobody has taken. -/
def init (flag : M → IpcFlag) (prio : T → Nat) : SigSys T M where
  mutex m := rtMutexInit (flag m)
  suspendThread _ := []
  prio := prio
  thread _ := ⟨.idle, .eok, false, false, .eok⟩

/-! ## The condition -/

/-- The thread has been handed the mutex it waits for, and has not read `thread->error` yet. -/
def Handed (s : SigSys T M) (t : T) : Prop :=
  match (s.thread t).pc with
  | .blocked m _ => (s.mutex m).owner = some t
  | _ => False

instance (s : SigSys T M) (t : T) : Decidable (s.Handed t) := by
  unfold Handed
  split <;> infer_instance

/-- The thread has suspended itself in a retry and is not on the list yet. -/
def inserting (th : SigThread M) : Bool :=
  match th.pc with
  | .insert .. => true
  | _ => false

/-- No release hands the mutex to a thread that waits again after a signal; no handler runs in a thread that has been
handed a mutex and has not read `thread->error` yet; and no signal comes in a retry between `rt_thread_suspend` and the
insertion into the list. -/
def SignalOk (s : SigSys T M) : SigEvent T M → Prop
  | .release t m => (s.mutex m).owner = some t → Word.sub 8 (s.mutex m).hold 1 = 0 →
      ∀ w ∈ (s.suspendThread m).head?, (s.thread w).error ≠ .eintr
  | .handle t => ¬ s.Handed t
  | .kill t => inserting (s.thread t) = false
  | .take .. | .continue _ | .timeout _ => True

instance (s : SigSys T M) : (e : SigEvent T M) → Decidable (s.SignalOk e)
  | .release t m => inferInstanceAs (Decidable ((s.mutex m).owner = some t → Word.sub 8 (s.mutex m).hold 1 = 0 →
      ∀ w ∈ (s.suspendThread m).head?, (s.thread w).error ≠ .eintr))
  | .handle t => inferInstanceAs (Decidable (¬ s.Handed t))
  | .kill _ => inferInstanceAs (Decidable (_ = _))
  | .take .. | .continue _ | .timeout _ => inferInstanceAs (Decidable True)

end SigSys

end CoreLink.RtThread
