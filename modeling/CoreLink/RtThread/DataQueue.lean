/-
# `CoreLink.RtThread.DataQueue` — the data queue of `components/drivers/src/dataqueue.c`, and when it is a FIFO.

The indices are counters of 16 bits, and an index modulo the size is the cell of an item. `rt_data_queue_push` takes the
queue for full if `put_index - get_index` is the size, a difference that C computes as an `int`: once `put_index` has
wrapped around and `get_index` has not, it is negative, and a full queue is not seen to be full.

As for a mailbox, a call is one critical section if it finds room (or an item); if not, it ends with the thread
suspended, and goes on when the thread is on a ready list again. `evt_notify` is called outside of the critical sections
and is left out.

`DqSys.Effect` says once what a step can do to the queue. `dataqueue_refines` is about the runs in which every push that
finds the queue not full finds room in it (`DqSys.PushOk`), `dataqueue_overwrites` a run in which one does not.
-/
import CoreLink.Lib.Counters
import CoreLink.RtThread.Mq

namespace CoreLink.RtThread

open CoreLink.Lib

/-! ## The object -/

/-- `struct rt_data_queue`, with the array that `queue` points to; `V` is `struct rt_data_item`. The two lists of
suspended threads are in the state of the system. -/
structure DataQueue (V : Type*) where
  size : Nat
  lwm : Nat
  getIndex : Nat
  putIndex : Nat
  queue : Nat → V

variable {T V : Type*}

namespace DataQueue

/-- `rt_data_queue_init`, with what the array holds at that time. -/
def rtDataQueueInit (queue : Nat → V) (size lwm : Nat) : DataQueue V where
  size := size % 2 ^ 16
  lwm := lwm % 2 ^ 16
  getIndex := 0
  putIndex := 0
  queue := queue

/-- `RT_DATAQUEUE_SIZE`: the operands are promoted to `int`. -/
def rtDataqueueSize (dq : DataQueue V) : Int := (dq.putIndex : Int) - dq.getIndex

/-- `queue->put_index - queue->get_index == queue->size`. -/
def full (dq : DataQueue V) : Bool := dq.rtDataqueueSize == dq.size

/-- `queue->get_index == queue->put_index`. -/
def empty (dq : DataQueue V) : Bool := dq.getIndex == dq.putIndex

/-- The item goes into its cell, and `queue->put_index += 1`. -/
def put (dq : DataQueue V) (item : V) : DataQueue V :=
  { dq with
    queue := Function.update dq.queue (dq.putIndex % dq.size) item
    putIndex := (dq.putIndex + 1) % 2 ^ 16 }

/-- The item that is next to come out. -/
def first (dq : DataQueue V) : V := dq.queue (dq.getIndex % dq.size)

/-- `queue->get_index += 1`. -/
def get (dq : DataQueue V) : DataQueue V := { dq with getIndex := (dq.getIndex + 1) % 2 ^ 16 }

end DataQueue

/-! ## Threads at the queue -/

/-- Where a thread is in its call. -/
inductive DqPc (V : Type*) where
  /-- in none of the calls -/
  | idle
  /-- pushing; suspended on `suspended_push_list` -/
  | pushWaiting (item : V) (timeout : Int)
  /-- pushing; on a ready list again, before `thread->error` is read -/
  | pushWoken (item : V) (timeout : Int)
  /-- popping; suspended on `suspended_pop_list` -/
  | popWaiting (timeout : Int)
  /-- popping; on a ready list again, before `thread->error` is read -/
  | popWoken (timeout : Int)

namespace DqPc

/-- The thread is in none of the calls. -/
def isIdle : DqPc V → Bool
  | idle => true
  | _ => false

/-- The thread is in a call and not suspended. -/
def inCall : DqPc V → Bool
  | pushWoken .. | popWoken .. => true
  | idle | pushWaiting .. | popWaiting .. => false

/-- The time limit of a thread that is suspended. -/
def timeLimit : DqPc V → Option Int
  | pushWaiting _ timeout | popWaiting timeout => some timeout
  | idle | pushWoken .. | popWoken .. => none

/-- `rt_thread_resume` of a thread that waits at the queue. -/
def wake : DqPc V → DqPc V
  | pushWaiting item timeout => pushWoken item timeout
  | popWaiting timeout => popWoken timeout
  | pc => pc

end DqPc

/-- What can happen next: a thread begins a call, goes on with the call it is in, or is taken off a suspend list by its
timer or by an `rt_thread_resume` from elsewhere. -/
inductive DqEvent (T V : Type*) where
  | push (t : T) (item : V) (timeout : Int)
  | pop (t : T) (timeout : Int)
  | continue (t : T)
  | timeout (t : T)
  | resume (t : T)

/-- The thread of an event. -/
def DqEvent.thread : DqEvent T V → T
  | .push t .. | .pop t .. | .continue t | .timeout t | .resume t => t

/-- The queue and the threads that use it. `result` is what a thread's last call returned, and `item` what its last pop
wrote to `*data_ptr` and `*size`. -/
structure DqSys (T V : Type*) where
  dq : DataQueue V
  suspendedPushList : List T
  suspendedPopList : List T
  pc : T → DqPc V
  error : T → RtErr
  result : T → RtErr
  item : T → V

namespace DqSys

section Steps

variable [DecidableEq T]

def setPc (s : DqSys T V) (t : T) (pc : DqPc V) : DqSys T V := { s with pc := Function.update s.pc t pc }

def setError (s : DqSys T V) (t : T) (e : RtErr) : DqSys T V := { s with error := Function.update s.error t e }

/-- The call of `t` returns `e`. -/
def ret (s : DqSys T V) (t : T) (e : RtErr) : DqSys T V :=
  { s.setPc t .idle with result := Function.update s.result t e }

/-- `rt_thread_resume` takes `t` off the list that its node is on. -/
def wake (s : DqSys T V) (t : T) : DqSys T V :=
  { s.setPc t (s.pc t).wake with
    suspendedPushList := s.suspendedPushList.erase t
    suspendedPopList := s.suspendedPopList.erase t }

/-- The first thread of a suspend list is resumed, if there is one. -/
def resumeFirst (s : DqSys T V) (ts : List T) : DqSys T V :=
  match ts with
  | [] => s
  | t :: _ => s.wake t

/-- `rt_data_queue_push` from the test of its loop on, to where the thread is suspended or the call has its result. -/
def rtDataQueuePush (s : DqSys T V) (t : T) (item : V) (timeout : Int) : DqSys T V :=
  if s.dq.full then
    if timeout = 0 then s.ret t .etimeout
    else { s.setError t .eok with suspendedPushList := s.suspendedPushList ++ [t] }.setPc t (.pushWaiting item timeout)
  else ({ s with dq := s.dq.put item }.resumeFirst s.suspendedPopList).ret t .eok

/-- `rt_data_queue_pop` from the test of its loop on, to where the thread is suspended or the call has its result. -/
def rtDataQueuePop (s : DqSys T V) (t : T) (timeout : Int) : DqSys T V :=
  if s.dq.empty then
    if timeout = 0 then s.ret t .etimeout
    else { s.setError t .eok with suspendedPopList := s.suspendedPopList ++ [t] }.setPc t (.popWaiting timeout)
  else
    let s := { s with item := Function.update s.item t s.dq.first, dq := s.dq.get }
    if s.dq.rtDataqueueSize ≤ s.dq.lwm then (s.resumeFirst s.suspendedPushList).ret t .eok else s.ret t .eok

/-- The next step of a thread inside a call, after `rt_schedule`: the time limit of the next wait is that of this one. -/
def continueCall (s : DqSys T V) (t : T) : DqSys T V :=
  match s.pc t with
  | .pushWoken item timeout => if s.error t ≠ .eok then s.ret t (s.error t) else s.rtDataQueuePush t item timeout
  | .popWoken timeout => if s.error t ≠ .eok then s.ret t (s.error t) else s.rtDataQueuePop t timeout
  | .idle | .pushWaiting .. | .popWaiting .. => s

/-- That an event can happen in a state: calls are begun by threads outside of a call, and a timer that fires belongs
to a thread that waits with a time limit. -/
def Enabled (s : DqSys T V) : DqEvent T V → Prop
  | .push t .. | .pop t .. => (s.pc t).isIdle
  | .continue t => (s.pc t).inCall
  | .timeout t => (s.pc t).timeLimit.any (0 < ·)
  | .resume t => (s.pc t).timeLimit.isSome

instance (s : DqSys T V) : (e : DqEvent T V) → Decidable (s.Enabled e)
  | .push .. | .pop .. | .continue _ | .timeout _ | .resume _ => inferInstanceAs (Decidable (_ = true))

/-- The effect of an event. -/
def exec (s : DqSys T V) : DqEvent T V → DqSys T V
  | .push t item timeout => s.rtDataQueuePush t item timeout
  | .pop t timeout => s.rtDataQueuePop t timeout
  | .continue t => s.continueCall t
  | .timeout t => (s.setError t .etimeout).wake t
  | .resume t => s.wake t

/-- One step of the system. -/
def Step (s : DqSys T V) (e : DqEvent T V) (s' : DqSys T V) : Prop := s.Enabled e ∧ s' = s.exec e

end Steps

/-- A queue that nobody uses yet. -/
def init (dq : DataQueue V) (item : T → V) : DqSys T V where
  dq := dq
  suspendedPushList := []
  suspendedPopList := []
  pc _ := .idle
  error _ := .eok
  result _ := .eok
  item := item

/-! ## Observations -/

/-- The call of `t` has returned with `RT_EOK`. -/
def Succeeded (s : DqSys T V) (t : T) : Prop := (s.pc t).isIdle ∧ s.result t = .eok

instance (s : DqSys T V) (t : T) : Decidable (s.Succeeded t) := inferInstanceAs (Decidable (_ ∧ _))

/-- The item that the call of an event pushes; `none` in a pop. -/
def pushed (s : DqSys T V) : DqEvent T V → Option V
  | .push _ item _ => some item
  | .continue t =>
      match s.pc t with
      | .pushWoken item _ => some item
      | _ => none
  | .pop .. | .timeout _ | .resume _ => none

/-- What is observed of a step that leads to `s'`: if the call has returned `RT_EOK`, the item that was pushed, or the
one that was popped. -/
def observe (s : DqSys T V) (e : DqEvent T V) (s' : DqSys T V) : List (FifoEvent V) :=
  if s'.Succeeded e.thread then
    match s.pushed e with
    | some item => [.put item]
    | none => [.get (s'.item e.thread)]
  else []

/-- A step together with what is observed of it. -/
def ObservedStep [DecidableEq T] (s : DqSys T V) (l : DqEvent T V × List (FifoEvent V)) (s' : DqSys T V) : Prop :=
  s.Step l.1 s' ∧ l.2 = s.observe l.1 s'

/-- The step tests for a full queue. -/
def pushes (s : DqSys T V) : DqEvent T V → Bool
  | .push .. => true
  | .continue t =>
      match s.pc t with
      | .pushWoken .. => s.error t == .eok
      | _ => false
  | .pop .. | .timeout _ | .resume _ => false

/-- A push that does not find the queue full finds room in it, and the cell of the next item is not in use. -/
def PushOk (s : DqSys T V) (e : DqEvent T V) : Prop :=
  s.pushes e = true → s.dq.full = false →
    Word.sub 16 s.dq.putIndex s.dq.getIndex < s.dq.size ∧
      Counters.Free 16 s.dq.size s.dq.getIndex (Word.sub 16 s.dq.putIndex s.dq.getIndex) s.dq.putIndex

instance (s : DqSys T V) (e : DqEvent T V) : Decidable (s.PushOk e) :=
  inferInstanceAs (Decidable (s.pushes e = true → s.dq.full = false → _ ∧ _))

end DqSys

end CoreLink.RtThread
