/-
# `CoreLink.RtThread.Sched` — the uniprocessor scheduler, `src/scheduler.c`, and the thread calls of `src/thread.c`.

A thread is on one list at most through its `tlist` node: the ready list of its priority, the suspend list of a
kernel object, or the list of defunct threads. The running thread is on none. The functions are written over the
link fields, the bitmap and the thread records as the C code has them; each runs with interrupts disabled, or does
nothing in between that a caller can see, and is one step.

`RT_ASSERT`, the hooks, the log, the signal bits of `stat` and the stack of a thread are left out. The thread timer
is in a model of its own; here its only effect is that `rtThreadTimeout` is called. `queuedAt` and `clock` are ghost
variables: when a thread was last put on a ready list. No function reads them.
-/
import CoreLink.Lib.Links
import CoreLink.RtThread.ReadyBits
import Mathlib.Data.Fintype.Card

namespace CoreLink.RtThread

open CoreLink.Lib

/-! ## State -/

/-- `RT_THREAD_INIT` to `RT_THREAD_CLOSE`. -/
inductive ThreadStat where
  | init
  | ready
  | suspend
  | running
  | close
  deriving DecidableEq, Repr

/-- `RT_EOK`, `-RT_ERROR`, `-RT_ETIMEOUT` and `-RT_EFULL`. -/
inductive RtErr where
  | eok
  | error
  | etimeout
  | efull
  deriving DecidableEq, Repr

/-- `struct rt_thread`, without the `tlist` node. `cleanup` is that a cleanup function is set, `systemObject` that the
thread was made by `rt_thread_init`. -/
structure Thread where
  stat : ThreadStat
  initPriority : Nat
  currentPriority : Nat
  mask : PrioMask
  error : RtErr
  systemObject : Bool
  cleanup : Bool

/-- The heads of the lists that `tlist` nodes are on: `rt_thread_priority_table`, the `suspend_thread` lists and
`rt_thread_defunct`. -/
inductive ListHead (O : Type*) where
  | ready (prio : Nat)
  | suspendThread (o : O)
  | defunct
  deriving DecidableEq

/-- The variables of the scheduler. -/
structure Sched (T O : Type*) where
  thread : T → Thread
  links : Links (Node (ListHead O) T)
  bits : ReadyBits
  schedulerLockNest : Int
  currentThread : Option T
  currentPriority : Nat
  queuedAt : T → Nat
  clock : Nat

variable {T O : Type*} [DecidableEq T] [DecidableEq O]

namespace Sched

/-- Write to the record of `t`. -/
def modifyThread (s : Sched T O) (t : T) (f : Thread → Thread) : Sched T O :=
  { s with thread := Function.update s.thread t (f (s.thread t)) }

/-- `thread->stat = stat`. -/
def setStat (s : Sched T O) (t : T) (stat : ThreadStat) : Sched T O :=
  s.modifyThread t fun th => { th with stat := stat }

/-- `rt_list_remove (&(thread->tlist))`. -/
def unlink (s : Sched T O) (t : T) : Sched T O := { s with links := s.links.remove (.item t) }

/-- The list of a head, read by following `next`, is empty. -/
def listIsEmpty (s : Sched T O) (h : ListHead O) : Prop := s.links.isEmpty (.head h)

instance (s : Sched T O) (h : ListHead O) : Decidable (s.listIsEmpty h) := by
  unfold listIsEmpty
  infer_instance

/-- The first thread on a list; `none` where `rt_list_entry` would be applied to the head itself. -/
def firstEntry (s : Sched T O) (h : ListHead O) : Option T :=
  match s.links.next (.head h) with
  | .item t => some t
  | .head _ => none

end Sched

/-! ## `scheduler.c` -/

/-- `rt_schedule_insert_thread`. -/
def rtScheduleInsertThread (c : SchedCfg) (s : Sched T O) (t : T) : Sched T O :=
  if s.currentThread = some t then s.setStat t .running
  else
    let s := s.setStat t .ready
    { s with
      links := s.links.insertBefore (.head (.ready (s.thread t).currentPriority)) (.item t)
      bits := s.bits.set c (s.thread t).mask
      queuedAt := Function.update s.queuedAt t s.clock
      clock := s.clock + 1 }

/-- `rt_schedule_remove_thread`. -/
def rtScheduleRemoveThread (c : SchedCfg) (s : Sched T O) (t : T) : Sched T O :=
  let s := s.unlink t
  if s.listIsEmpty (.ready (s.thread t).currentPriority) then
    { s with bits := s.bits.clear c (s.thread t).mask }
  else s

/-- `_get_highest_priority_thread`: the thread, and `*highest_prio`. -/
def getHighestPriorityThread (c : SchedCfg) (s : Sched T O) : Option T × Nat :=
  (s.firstEntry (.ready (s.bits.highest c)), s.bits.highest c)

/-- `rt_schedule`. It is not called before there is a current thread. -/
def rtSchedule (c : SchedCfg) (s : Sched T O) : Sched T O :=
  match s.currentThread with
  | none => s
  | some cur =>
    if s.schedulerLockNest = 0 ∧ s.bits.group ≠ 0 then
      match getHighestPriorityThread c s with
      | (none, _) => s
      | (some highest, highestReadyPriority) =>
        let running := (s.thread cur).stat = .running
        let less := (s.thread cur).currentPriority < highestReadyPriority
        let toThread := if running ∧ less then cur else highest
        if toThread ≠ cur then
          let s := { s with currentPriority := highestReadyPriority % 256, currentThread := some toThread }
          let s := if running ∧ ¬ less then rtScheduleInsertThread c s cur else s
          (rtScheduleRemoveThread c s toThread).setStat toThread .running
        else (rtScheduleRemoveThread c s cur).setStat cur .running
    else s

/-- `rt_system_scheduler_start`. -/
def rtSystemSchedulerStart (c : SchedCfg) (s : Sched T O) : Sched T O :=
  match getHighestPriorityThread c s with
  | (none, _) => s
  | (some toThread, _) =>
    (rtScheduleRemoveThread c { s with currentThread := some toThread } toThread).setStat toThread .running

/-- `rt_enter_critical`. -/
def rtEnterCritical (s : Sched T O) : Sched T O := { s with schedulerLockNest := s.schedulerLockNest + 1 }

/-- `rt_exit_critical`. -/
def rtExitCritical (c : SchedCfg) (s : Sched T O) : Sched T O :=
  if s.schedulerLockNest - 1 ≤ 0 then
    let s := { s with schedulerLockNest := 0 }
    if s.currentThread.isSome then rtSchedule c s else s
  else { s with schedulerLockNest := s.schedulerLockNest - 1 }

/-! ## `thread.c` -/

/-- `rt_thread_suspend`. -/
def rtThreadSuspend (c : SchedCfg) (s : Sched T O) (t : T) : Sched T O × RtErr :=
  if (s.thread t).stat ≠ .ready ∧ (s.thread t).stat ≠ .running then (s, .error)
  else ((rtScheduleRemoveThread c s t).setStat t .suspend, .eok)

/-- `rt_thread_resume`. -/
def rtThreadResume (c : SchedCfg) (s : Sched T O) (t : T) : Sched T O × RtErr :=
  if (s.thread t).stat ≠ .suspend then (s, .error)
  else (rtScheduleInsertThread c (s.unlink t) t, .eok)

/-- "set current priority to init priority", "calculate priority attribute" and "change thread stat". -/
def startThread (c : SchedCfg) (th : Thread) : Thread :=
  { th with currentPriority := th.initPriority, mask := prioMask c th.mask th.initPriority, stat := .suspend }

/-- `rt_thread_startup`. -/
def rtThreadStartup (c : SchedCfg) (s : Sched T O) (t : T) : Sched T O :=
  let s := s.modifyThread t (startThread c)
  let s := (rtThreadResume c s t).1
  if s.currentThread.isSome then rtSchedule c s else s

/-- `rt_thread_timeout`, the timeout function of the thread timer. -/
def rtThreadTimeout (c : SchedCfg) (s : Sched T O) (t : T) : Sched T O :=
  let s := s.modifyThread t fun th => { th with error := .etimeout }
  rtSchedule c (rtScheduleInsertThread c (s.unlink t) t)

/-- "change thread priority" and "recalculate priority attribute". -/
def changePriority (c : SchedCfg) (prio : Nat) (th : Thread) : Thread :=
  { th with currentPriority := prio, mask := prioMask c th.mask prio }

/-- `rt_thread_control` with `RT_THREAD_CTRL_CHANGE_PRIORITY`. -/
def rtThreadControl (c : SchedCfg) (s : Sched T O) (t : T) (prio : Nat) : Sched T O :=
  if (s.thread t).stat = .ready then
    rtScheduleInsertThread c ((rtScheduleRemoveThread c s t).modifyThread t (changePriority c prio)) t
  else s.modifyThread t (changePriority c prio)

/-- The end of `rt_thread_exit` and `rt_thread_detach`: a system object without a cleanup function is detached from
the object container, any other goes to the defunct threads. -/
def toDefunct (s : Sched T O) (t : T) : Sched T O :=
  if (s.thread t).systemObject ∧ ¬ (s.thread t).cleanup then s
  else { s with links := s.links.insertAfter (.head .defunct) (.item t) }

/-- `rt_thread_delete`. -/
def rtThreadDelete (c : SchedCfg) (s : Sched T O) (t : T) : Sched T O :=
  let s := if (s.thread t).stat ≠ .init then rtScheduleRemoveThread c s t else s
  let s := s.setStat t .close
  { s with links := s.links.insertAfter (.head .defunct) (.item t) }

/-- `rt_thread_detach`. -/
def rtThreadDetach (c : SchedCfg) (s : Sched T O) (t : T) : Sched T O :=
  let s := if (s.thread t).stat ≠ .init then rtScheduleRemoveThread c s t else s
  toDefunct (s.setStat t .close) t

/-- `rt_thread_exit` of the current thread `t`. -/
def rtThreadExit (c : SchedCfg) (s : Sched T O) (t : T) : Sched T O :=
  rtSchedule c (toDefunct ((rtScheduleRemoveThread c s t).setStat t .close) t)

/-! ## The suspend lists of `ipc.c` -/

/-- `RT_IPC_FLAG_FIFO` and `RT_IPC_FLAG_PRIO`. -/
inductive IpcFlag where
  | fifo
  | prio
  deriving DecidableEq, Repr

/-- "find a suitable position": the first node of the list whose thread is less urgent than `prio`, or the head. -/
def suitablePosition (s : Sched T O) (o : O) (prio : Nat) : Nat → Node (ListHead O) T → Node (ListHead O) T
  | 0, _ => .head (.suspendThread o)
  | fuel + 1, n =>
      match n with
      | .head h => .head h
      | .item t =>
          if prio < (s.thread t).currentPriority then .item t
          else suitablePosition s o prio fuel (s.links.next (.item t))

/-- The node in front of which `rt_ipc_list_suspend` puts a thread. No list is longer than the number of threads, so
the walk ends within that many steps. -/
def suspendPosition [Fintype T] (s : Sched T O) (o : O) (t : T) (flag : IpcFlag) : Node (ListHead O) T :=
  match flag with
  | .fifo => .head (.suspendThread o)
  | .prio => suitablePosition s o (s.thread t).currentPriority (Fintype.card T + 1)
      (s.links.next (.head (.suspendThread o)))

/-- `rt_ipc_list_suspend`. -/
def rtIpcListSuspend [Fintype T] (c : SchedCfg) (s : Sched T O) (o : O) (t : T) (flag : IpcFlag) : Sched T O :=
  let s := (rtThreadSuspend c s t).1
  { s with links := s.links.insertBefore (suspendPosition s o t flag) (.item t) }

/-- `rt_ipc_list_resume`. -/
def rtIpcListResume (c : SchedCfg) (s : Sched T O) (o : O) : Sched T O :=
  match s.firstEntry (.suspendThread o) with
  | some t => (rtThreadResume c s t).1
  | none => s

end CoreLink.RtThread
