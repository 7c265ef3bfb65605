/-
# `CoreLink.RtThread.PriorityWait` — the suspend lists of kernel objects in priority order.

`rt_ipc_list_suspend` puts a thread in its place by the priorities of that moment. A priority is written to later as
well, by `rt_thread_control` and through it by `rt_mutex_take`, which does not know of the list that the thread is on.
The objects `O` are all lists of waiting threads: those of mutexes, on which `rt_mutex_take` and `rt_mutex_release` are
called, and those of the other objects, on which the other calls of `src/ipc.c` use `rt_ipc_list_suspend` and
`rt_ipc_list_resume` (or `rt_thread_resume`, where it is not the first thread that is resumed).

The record of an object that is no mutex is not looked at, but for its `flag`. `arrived` and `calls` are ghost
variables: at which call a thread was put on a suspend list. No function reads them.
-/
import CoreLink.Lib.SortedBy
import CoreLink.RtThread.MutexCalls
import Mathlib.Data.Prod.Lex

namespace CoreLink.RtThread

open CoreLink.Lib

set_option linter.unusedSectionVars false

/-! ## The system -/

/-- The mutexes, the scheduler and the ghost variables. -/
structure PrioSys (T O : Type*) extends MutexSys T O where
  arrived : T → Nat
  calls : Nat

namespace PrioSys

variable {T O : Type*} [DecidableEq T] [DecidableEq O]

/-- After a call that put `waiting`, if any, on a suspend list. -/
def after (s : PrioSys T O) (sys : MutexSys T O) (waiting : Option T) : PrioSys T O where
  toMutexSys := sys
  arrived t := if waiting = some t then s.calls else s.arrived t
  calls := s.calls + 1

/-- The scheduler calls, with what the callers in `ipc.c` see to: the flag is that of the object. -/
def callOk (isMutex : O → Bool) (s : PrioSys T O) : SchedCall T O → Prop
  | .ipcSuspend o flag => isMutex o = false ∧ flag = (s.mutex o).flag
  | .ipcResume o => isMutex o = false
  | _ => True

instance (isMutex : O → Bool) (s : PrioSys T O) (l : SchedCall T O) : Decidable (s.callOk isMutex l) := by
  cases l <;> unfold callOk <;> infer_instance

/-- Who is put on a suspend list by a call of the scheduler. -/
def suspended (s : PrioSys T O) : SchedCall T O → Option T
  | .ipcSuspend .. => s.sched.currentThread
  | _ => none

/-- One call; `none` where nobody can make it. -/
def exec [Fintype T] (c : SchedCfg) (isMutex : O → Bool) (s : PrioSys T O) :
    MutexSys.Call T O → Option (PrioSys T O)
  | .take m time =>
      if isMutex m then s.running.map fun t =>
        let r := s.toMutexSys.rtMutexTake c m time t
        s.after r.1 (if r.2 = none then some t else none)
      else none
  | .release m =>
      if isMutex m then s.running.map fun t => s.after (s.toMutexSys.rtMutexRelease c m t).1 none else none
  | .sched l =>
      if s.callOk isMutex l then
        (execCall c s.sched l).map fun sched => s.after { s.toMutexSys with sched := sched } (s.suspended l)
      else none

/-- The step relation. -/
def Step [Fintype T] (c : SchedCfg) (isMutex : O → Bool) (s : PrioSys T O) (l : MutexSys.Call T O)
    (s' : PrioSys T O) : Prop :=
  s.exec c isMutex l = some s'

/-- The initialised scheduler and objects. -/
def init (thread : T → Thread) (flag : O → IpcFlag) : PrioSys T O where
  toMutexSys := .init thread flag
  arrived _ := 0
  calls := 0

/-! ## The order of the waiting threads -/

/-- The priority of a thread and, among equals, when it came to wait. -/
def key (s : PrioSys T O) (t : T) : Nat ×ₗ Nat := toLex (s.prio t, s.arrived t)

/-- **Priority order**: the list of each object with `RT_IPC_FLAG_PRIO`, read by following `next`, is sorted. -/
def PrioOrdered (flag : O → IpcFlag) (s : PrioSys T O) : Prop :=
  ∀ o, flag o = .prio → ∃ ts : List T,
    Links.Seg s.sched.links.next (s.sched.links.next (.head (.suspendThread o))) ts (.head (.suspendThread o)) ∧
      SortedBy s.key ts

/-- The thread waits for the object. -/
def WaitsFor (s : PrioSys T O) (o : O) (t : T) : Prop := s.sched.links.OnList (.suspendThread o) t

/-- A release of a mutex, or a send or release that resumes the first thread of a list. -/
def serves (o : O) : MutexSys.Call T O → Prop
  | .release m => m = o
  | .sched (.ipcResume o') => o' = o
  | _ => False

/-- Whom a release or send takes off the list is a most urgent one of those that wait. -/
def ServesUrgent [Fintype T] (c : SchedCfg) (isMutex : O → Bool) (flag : O → IpcFlag) (s : PrioSys T O) : Prop :=
  ∀ l s' o t u, Step c isMutex s l s' → serves o l → flag o = .prio → s.WaitsFor o t → ¬ s'.WaitsFor o t →
    s.WaitsFor o u → s.prio t ≤ s.prio u

/-- The new priority that a call gives to a thread: by `rt_thread_control`, or by `rt_mutex_take` to the owner. -/
def newPriority (s : PrioSys T O) : MutexSys.Call T O → Option (T × Nat)
  | .sched (.control t prio) => some (t, prio)
  | .take m time =>
      match s.running, (s.mutex m).owner with
      | some t, some o =>
          if o ≠ t ∧ (s.mutex m).value = 0 ∧ time ≠ 0 ∧ s.prio t < s.prio o then some (o, s.prio t) else none
      | _, _ => none
  | _ => none

/-- With the priority `prio` the thread stays between its neighbours. -/
def keepsPlace (s : PrioSys T O) (t : T) (prio : Nat) : Prop :=
  (∀ a, s.sched.links.prev (.item t) = .item a → s.key a < toLex (prio, s.arrived t)) ∧
    ∀ b, s.sched.links.next (.item t) = .item b → toLex (prio, s.arrived t) < s.key b

instance [Fintype T] (s : PrioSys T O) (t : T) (prio : Nat) : Decidable (s.keepsPlace t prio) := by
  unfold keepsPlace
  infer_instance

/-- The call gives no thread that waits in priority order a priority that belongs elsewhere in the list. -/
def Undisturbed (s : PrioSys T O) (l : MutexSys.Call T O) : Prop :=
  ∀ t prio, s.newPriority l = some (t, prio) → ∀ o, (s.mutex o).flag = .prio → s.WaitsFor o t → s.keepsPlace t prio

end PrioSys

end CoreLink.RtThread
