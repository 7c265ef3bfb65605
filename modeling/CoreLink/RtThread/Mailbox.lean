/-
# `CoreLink.RtThread.Mailbox` — the mailbox of `src/ipc.c`.

A mailbox is a ring of `size` words with the number of mails in it and the offsets of the next mail to go in and to
come out. Receivers wait on `parent.suspend_thread` and senders on `suspend_sender_thread`.

A call is one critical section if it finds room (or a mail). If not, it ends with the thread suspended, and goes on
when the thread is on a ready list again: it reads `thread->error`, calculates the waiting time that is left, and tests
again, in one more critical section. So a thread's position inside its call is a `MbPc`, and any order of the sections
of different threads is a run. After the section that moves a mail a call only reschedules and returns `RT_EOK`; its
return is part of that step.
-/
import CoreLink.Lib.Fifo
import CoreLink.RtThread.Mq

namespace CoreLink.RtThread

open CoreLink.Lib

/-! ## The object -/

/-- `struct rt_mailbox`, for mails (`rt_ubase_t` in the source) of any type `V`. `parent.parent.flag` is `flag`; the two
lists of suspended threads are in the state of the system. -/
structure Mb (V : Type*) where
  msgPool : Nat → V
  size : Nat
  entry : Nat
  inOffset : Nat
  outOffset : Nat
  flag : IpcFlag

variable {T V : Type*}

namespace Mb

/-- `rt_mb_init`, with what the memory of the pool holds at that time. -/
def rtMbInit (msgPool : Nat → V) (size : Nat) (flag : IpcFlag) : Mb V where
  msgPool := msgPool
  size := size % 2 ^ 16
  entry := 0
  inOffset := 0
  outOffset := 0
  flag := flag

/-- The 16-bit increment of an offset, and its reset at the end of the pool. -/
def advance (mb : Mb V) (offset : Nat) : Nat :=
  if (offset + 1) % 2 ^ 16 ≥ mb.size then 0 else (offset + 1) % 2 ^ 16

/-- "set ptr", "increase input offset", "increase message entry". -/
def put (mb : Mb V) (value : V) : Mb V :=
  { mb with
    msgPool := Function.update mb.msgPool mb.inOffset value
    inOffset := mb.advance mb.inOffset
    entry := (mb.entry + 1) % 2 ^ 16 }

/-- "increase output offset", "decrease message entry". -/
def get (mb : Mb V) : Mb V :=
  { mb with
    outOffset := mb.advance mb.outOffset
    entry := Word.sub 16 mb.entry 1 }

end Mb

/-! ## Threads at the mailbox -/

/-- Where a thread is in its call. -/
inductive MbPc (V : Type*) where
  /-- in none of the calls -/
  | idle
  /-- sending; suspended on `suspend_sender_thread` -/
  | sendWaiting (value : V) (timeout : Int)
  /-- sending; on a ready list again, before `thread->error` is read -/
  | sendWoken (value : V) (timeout : Int)
  /-- receiving; suspended on `parent.suspend_thread` -/
  | recvWaiting (timeout : Int)
  /-- receiving; on a ready list again, before `thread->error` is read -/
  | recvWoken (timeout : Int)

namespace MbPc

/-- The thread is suspended as a sender. -/
def isSender : MbPc V → Prop
  | sendWaiting .. => True
  | _ => False

/-- The thread is suspended as a receiver. -/
def isReceiver : MbPc V → Prop
  | recvWaiting .. => True
  | _ => False

/-- The thread is in none of the calls. -/
def isIdle : MbPc V → Bool
  | idle => true
  | _ => false

/-- The thread is in a call and not suspended. -/
def inCall : MbPc V → Bool
  | sendWoken .. | recvWoken .. => true
  | idle | sendWaiting .. | recvWaiting .. => false

/-- The time limit of a thread that is suspended. -/
def timeLimit : MbPc V → Option Int
  | sendWaiting _ timeout | recvWaiting timeout => some timeout
  | idle | sendWoken .. | recvWoken .. => none

/-- `rt_thread_resume` of a thread that waits at the mailbox. -/
def wake : MbPc V → MbPc V
  | sendWaiting value timeout => sendWoken value timeout
  | recvWaiting timeout => recvWoken timeout
  | pc => pc

end MbPc

/-- What can happen next: a thread begins a call, goes on with the call it is in, or is taken off a suspend list by its
timer or by an `rt_thread_resume` from elsewhere. -/
inductive MbEvent (T V : Type*) where
  | send (t : T) (value : V) (timeout : Int) (prio : T → Nat)
  | recv (t : T) (timeout : Int) (prio : T → Nat)
  | continue (t : T) (elapsed : Nat) (prio : T → Nat)
  | timeout (t : T)
  | resume (t : T)

/-- The thread of an event. -/
def MbEvent.thread : MbEvent T V → T
  | .send t .. | .recv t .. | .continue t .. | .timeout t | .resume t => t

/-- The mailbox and the threads that use it. `result` is what a thread's last call returned, and `value` the variable
its receives write to. -/
structure MbSys (T V : Type*) where
  mb : Mb V
  suspendThread : List T
  suspendSenderThread : List T
  pc : T → MbPc V
  error : T → RtErr
  result : T → RtErr
  value : T → V

namespace MbSys

variable [DecidableEq T]

def setPc (s : MbSys T V) (t : T) (pc : MbPc V) : MbSys T V := { s with pc := Function.update s.pc t pc }

def setError (s : MbSys T V) (t : T) (e : RtErr) : MbSys T V := { s with error := Function.update s.error t e }

/-- The call of `t` returns `e`. -/
def ret (s : MbSys T V) (t : T) (e : RtErr) : MbSys T V :=
  { s.setPc t .idle with result := Function.update s.result t e }

/-- `rt_thread_resume` takes `t` off the list that its node is on. -/
def wake (s : MbSys T V) (t : T) : MbSys T V :=
  { s.setPc t (s.pc t).wake with
    suspendThread := s.suspendThread.erase t
    suspendSenderThread := s.suspendSenderThread.erase t }

/-- `rt_ipc_list_resume` on a suspend list, if the list is not empty. -/
def resumeFirst (s : MbSys T V) (ts : List T) : MbSys T V :=
  match ts with
  | [] => s
  | t :: _ => s.wake t

/-- `rt_mb_send_wait` from the test of `while (mb->entry == mb->size)` on, to where the thread is suspended or the call
has its result. -/
def sendEntry (s : MbSys T V) (t : T) (value : V) (timeout : Int) (prio : T → Nat) : MbSys T V :=
  if s.mb.entry = s.mb.size then
    if timeout = 0 then (s.setError t .eok).ret t .efull
    else { s.setError t .eok with
      suspendSenderThread := MqSys.insertSuspended s.mb.flag prio t s.suspendSenderThread }.setPc t
        (.sendWaiting value timeout)
  else ({ s with mb := s.mb.put value }.resumeFirst s.suspendThread).ret t .eok

/-- `rt_mb_send_wait`. -/
def rtMbSendWait (s : MbSys T V) (t : T) (value : V) (timeout : Int) (prio : T → Nat) : MbSys T V :=
  if s.mb.entry = s.mb.size ∧ timeout = 0 then s.ret t .efull else s.sendEntry t value timeout prio

/-- `rt_mb_send`. -/
def rtMbSend (s : MbSys T V) (t : T) (value : V) (prio : T → Nat) : MbSys T V := s.rtMbSendWait t value 0 prio

/-- `rt_mb_send_wait` after its first `rt_schedule`. -/
def sendWoken (s : MbSys T V) (t : T) (value : V) (timeout : Int) (elapsed : Nat) (prio : T → Nat) : MbSys T V :=
  if s.error t ≠ .eok then s.ret t (s.error t)
  else s.sendEntry t value (MqSys.recalculate timeout elapsed) prio

/-- `rt_mb_recv` from the test of `while (mb->entry == 0)` on, to where the thread is suspended or the call has its
result. -/
def recvEntry (s : MbSys T V) (t : T) (timeout : Int) (prio : T → Nat) : MbSys T V :=
  if s.mb.entry = 0 then
    if timeout = 0 then (s.setError t .etimeout).ret t .etimeout
    else { s.setError t .eok with
      suspendThread := MqSys.insertSuspended s.mb.flag prio t s.suspendThread }.setPc t (.recvWaiting timeout)
  else
    ({ s with value := Function.update s.value t (s.mb.msgPool s.mb.outOffset), mb := s.mb.get }.resumeFirst
      s.suspendSenderThread).ret t .eok

/-- `rt_mb_recv`. -/
def rtMbRecv (s : MbSys T V) (t : T) (timeout : Int) (prio : T → Nat) : MbSys T V :=
  if s.mb.entry = 0 ∧ timeout = 0 then s.ret t .etimeout else s.recvEntry t timeout prio

/-- `rt_mb_recv` after its first `rt_schedule`. -/
def recvWoken (s : MbSys T V) (t : T) (timeout : Int) (elapsed : Nat) (prio : T → Nat) : MbSys T V :=
  if s.error t ≠ .eok then s.ret t (s.error t)
  else s.recvEntry t (MqSys.recalculate timeout elapsed) prio

/-! ## Steps -/

/-- The next step of a thread inside a call. -/
def continueCall (s : MbSys T V) (t : T) (elapsed : Nat) (prio : T → Nat) : MbSys T V :=
  match s.pc t with
  | .sendWoken value timeout => s.sendWoken t value timeout elapsed prio
  | .recvWoken timeout => s.recvWoken t timeout elapsed prio
  | .idle | .sendWaiting .. | .recvWaiting .. => s

/-- That an event can happen in a state: calls are begun by threads outside of a call, and a timer that fires belongs
to a thread that waits with a time limit. -/
def Enabled (s : MbSys T V) : MbEvent T V → Prop
  | .send t .. | .recv t .. => (s.pc t).isIdle
  | .continue t .. => (s.pc t).inCall
  | .timeout t => (s.pc t).timeLimit.any (0 < ·)
  | .resume t => (s.pc t).timeLimit.isSome

instance (s : MbSys T V) : (e : MbEvent T V) → Decidable (s.Enabled e)
  | .send .. | .recv .. | .continue .. | .timeout _ | .resume _ => inferInstanceAs (Decidable (_ = true))

/-- The effect of an event. -/
def exec (s : MbSys T V) : MbEvent T V → MbSys T V
  | .send t value timeout prio => s.rtMbSendWait t value timeout prio
  | .recv t timeout prio => s.rtMbRecv t timeout prio
  | .continue t elapsed prio => s.continueCall t elapsed prio
  | .timeout t => (s.setError t .etimeout).wake t
  | .resume t => s.wake t

/-- One step of the system. -/
def Step (s : MbSys T V) (e : MbEvent T V) (s' : MbSys T V) : Prop := s.Enabled e ∧ s' = s.exec e

/-- A mailbox that nobody uses yet. -/
def init (mb : Mb V) (value : T → V) : MbSys T V where
  mb := mb
  suspendThread := []
  suspendSenderThread := []
  pc _ := .idle
  error _ := .eok
  result _ := .eok
  value := value

end MbSys

end CoreLink.RtThread
