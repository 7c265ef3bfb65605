/-
# `CoreLink.RtThread.Mq` — the message queue of `src/ipc.c`.

A message queue owns a pool of `max_msgs` slots. A slot is a `struct rt_mq_message` (its `next` pointer) with
`msg_size` bytes behind it, and is named by its number in the pool. The object keeps a head, a tail and a free
pointer.

`rt_mq_send`, `rt_mq_urgent` and `rt_mq_recv` each leave the interrupts enabled while they copy, so a call is not
one step: a thread's position inside its call is a `Pc`, and each critical section and each copy is a function of
its own that takes the thread from one position to the next. Any thread that is not suspended may take its next
step at any time, so that every preemption between two critical sections is some order of steps. What a suspended
thread waits for (a sender, `RT_IPC_CMD_RESET`, its timer, somebody's `rt_thread_resume`) is a step as well.

`RT_ASSERT` on the arguments is a condition for a call to begin. The hooks and the log are left out, and so are the
signals that interrupt a wait.
-/
import CoreLink.Lib.Chain
import CoreLink.Lib.Word
import CoreLink.RtThread.Sched

namespace CoreLink.RtThread

open CoreLink.Lib

/-! ## The object -/

/-- `struct rt_messagequeue` with the memory of its pool: `next` is `msg->next` and `data` the bytes from `msg + 1` on.
`parent.parent.flag` is `flag`; the list `parent.suspend_thread` is in the state of the system. -/
structure Mq where
  msgSize : Nat
  maxMsgs : Nat
  entry : Nat
  msgQueueHead : Option Nat
  msgQueueTail : Option Nat
  msgQueueFree : Option Nat
  next : Nat → Option Nat
  data : Nat → Nat → UInt8
  flag : IpcFlag

/-- The compile-time configuration: the width of `rt_size_t`, `RT_ALIGN_SIZE = 2 ^ alignBits` and
`sizeof(struct rt_mq_message)`. -/
structure MqCfg where
  wordBits : Nat
  alignBits : Nat
  sizeofMessage : Nat

namespace Mq

/-- One pass of the loop that builds the message empty list. -/
def addFree (mq : Mq) (temp : Nat) : Mq :=
  { mq with next := Function.update mq.next temp mq.msgQueueFree, msgQueueFree := some temp }

/-- The part that `rt_mq_init` and `rt_mq_create` share, once `msg_size` and `max_msgs` (both `rt_uint16_t`) are
known. `next` and `data` are what the pool's memory holds at that time. -/
def initList (msgSize maxMsgs : Nat) (flag : IpcFlag) (next : Nat → Option Nat) (data : Nat → Nat → UInt8) : Mq :=
  (List.range maxMsgs).foldl addFree
    { msgSize, maxMsgs, entry := 0, msgQueueHead := none, msgQueueTail := none, msgQueueFree := none, next, data, flag }

/-- `rt_mq_init`. -/
def rtMqInit (c : MqCfg) (msgSize poolSize : Nat) (flag : IpcFlag) (next : Nat → Option Nat)
    (data : Nat → Nat → UInt8) : Mq :=
  let msgSize := Word.alignUp c.wordBits c.alignBits msgSize % 2 ^ 16
  initList msgSize (poolSize / (msgSize + c.sizeofMessage) % 2 ^ 16) flag next data

/-- `rt_mq_create`, where both allocations succeed. -/
def rtMqCreate (c : MqCfg) (msgSize maxMsgs : Nat) (flag : IpcFlag) (next : Nat → Option Nat)
    (data : Nat → Nat → UInt8) : Mq :=
  initList (Word.alignUp c.wordBits c.alignBits msgSize % 2 ^ 16) (maxMsgs % 2 ^ 16) flag next data

/-! ## The critical sections and the copies -/

/-- The first critical section of `rt_mq_send` and of `rt_mq_urgent`: "get a free list". -/
def takeFree (mq : Mq) : Option (Nat × Mq) :=
  mq.msgQueueFree.map fun msg => (msg, { mq with msgQueueFree := mq.next msg })

/-- `msg->next = RT_NULL`, in `rt_mq_send` only. -/
def clearNext (mq : Mq) (msg : Nat) : Mq := { mq with next := Function.update mq.next msg none }

/-- `rt_memcpy(msg + 1, buffer, size)`. -/
def copyBuffer (mq : Mq) (msg : Nat) (buffer : List UInt8) : Mq :=
  { mq with data := Function.update mq.data msg fun i => buffer.getD i (mq.data msg i) }

/-- "link msg to message queue": the second critical section of `rt_mq_send`. -/
def linkTail (mq : Mq) (msg : Nat) : Mq :=
  { mq with
    next := match mq.msgQueueTail with
      | some tail => Function.update mq.next tail (some msg)
      | none => mq.next
    msgQueueTail := some msg
    msgQueueHead := if mq.msgQueueHead = none then some msg else mq.msgQueueHead
    entry := (mq.entry + 1) % 2 ^ 16 }

/-- "link msg to the beginning of message queue": the second critical section of `rt_mq_urgent`. -/
def linkHead (mq : Mq) (msg : Nat) : Mq :=
  { mq with
    next := Function.update mq.next msg mq.msgQueueHead
    msgQueueHead := some msg
    msgQueueTail := if mq.msgQueueTail = none then some msg else mq.msgQueueTail
    entry := (mq.entry + 1) % 2 ^ 16 }

/-- "get message from queue", up to "reach queue tail, set to NULL". `none` is a read through NULL. -/
def unlink (mq : Mq) : Option (Nat × Mq) :=
  mq.msgQueueHead.map fun msg =>
    (msg, { mq with
      msgQueueHead := mq.next msg
      msgQueueTail := if mq.msgQueueTail = some msg then none else mq.msgQueueTail })

/-- `rt_memcpy(buffer, msg + 1, size > mq->msg_size ? mq->msg_size : size)`. -/
def copyMessage (mq : Mq) (msg size : Nat) : List UInt8 :=
  (List.range (if size > mq.msgSize then mq.msgSize else size)).map (mq.data msg)

/-- "put message to free list". -/
def putFree (mq : Mq) (msg : Nat) : Mq :=
  { mq with next := Function.update mq.next msg mq.msgQueueFree, msgQueueFree := some msg }

/-- "release all message in the queue", the loop of `RT_IPC_CMD_RESET`; `none` is that `fuel` passes are not
enough. -/
def releaseAll : Nat → Mq → Option Mq
  | 0, _ => none
  | fuel + 1, mq =>
      match mq.unlink with
      | none => some mq
      | some (msg, mq) => releaseAll fuel (mq.putFree msg)

end Mq

/-! ## Threads at the queue -/

/-- Where a thread is in its call. -/
inductive MqPc where
  /-- in none of the calls -/
  | idle
  /-- sending; the slot is off the free list and the copy not yet made -/
  | taken (urgent : Bool) (msg : Nat) (buffer : List UInt8)
  /-- sending; the copy is made and the slot not yet linked -/
  | filled (urgent : Bool) (msg : Nat)
  /-- receiving; suspended on the queue -/
  | waiting (size : Nat) (timeout : Int)
  /-- receiving; on a ready list again, before `thread->error` is read -/
  | woken (size : Nat) (timeout : Int)
  /-- receiving; the slot is unlinked and the copy not yet made -/
  | holding (msg size : Nat)
  /-- receiving; the copy is made and the slot not yet on the free list -/
  | copied (msg : Nat) (buffer : List UInt8)
  deriving DecidableEq

/-- The slot in flight in a call. -/
def MqPc.slot : MqPc → Option Nat
  | taken _ msg _ | filled _ msg | holding msg _ | copied msg _ => some msg
  | idle | waiting .. | woken .. => none

/-- The thread is in a call and not suspended. -/
def MqPc.inCall : MqPc → Bool
  | taken .. | filled .. | woken .. | holding .. | copied .. => true
  | idle | waiting .. => false

/-- The time limit of a thread that is suspended. -/
def MqPc.timeLimit : MqPc → Option Int
  | waiting _ timeout => some timeout
  | _ => none

/-- `rt_thread_resume` of a thread that waits at the queue. -/
def MqPc.wake : MqPc → MqPc
  | waiting size timeout => woken size timeout
  | pc => pc

/-- What can happen next: a thread begins a call, goes on with the call it is in, or is taken off the suspend list by
its timer or by an `rt_thread_resume` from elsewhere. -/
inductive MqEvent (T : Type*) where
  | send (t : T) (buffer : List UInt8)
  | urgent (t : T) (buffer : List UInt8)
  | recv (t : T) (size : Nat) (timeout : Int) (prio : T → Nat)
  | control (t : T) (reset : Bool)
  | continue (t : T) (elapsed : Nat) (prio : T → Nat)
  | timeout (t : T)
  | resume (t : T)

/-- The queue and the threads that use it. `result` is what a thread's last call returned. -/
structure MqSys (T : Type*) where
  mq : Mq
  suspendThread : List T
  pc : T → MqPc
  error : T → RtErr
  result : T → RtErr

namespace MqSys

variable {T : Type*} [DecidableEq T]

def setPc (s : MqSys T) (t : T) (pc : MqPc) : MqSys T := { s with pc := Function.update s.pc t pc }

def setError (s : MqSys T) (t : T) (e : RtErr) : MqSys T := { s with error := Function.update s.error t e }

/-- The call of `t` returns `e`. -/
def ret (s : MqSys T) (t : T) (e : RtErr) : MqSys T :=
  { s.setPc t .idle with result := Function.update s.result t e }

/-- `rt_thread_resume` on a thread of the suspend list. -/
def wake (s : MqSys T) (t : T) : MqSys T :=
  { s.setPc t (s.pc t).wake with suspendThread := s.suspendThread.erase t }

/-- `rt_ipc_list_resume`, if the list is not empty. -/
def resumeFirst (s : MqSys T) : MqSys T :=
  match s.suspendThread with
  | [] => s
  | t :: _ => s.wake t

/-- `rt_ipc_list_resume_all`. -/
def resumeAll (s : MqSys T) : MqSys T := s.suspendThread.foldl (fun s t => (s.setError t .error).wake t) s

/-- The place `rt_ipc_list_suspend` gives a thread, with `prio` the current priorities at that time. -/
def insertSuspended (flag : IpcFlag) (prio : T → Nat) (t : T) (ts : List T) : List T :=
  match flag with
  | .fifo => ts ++ [t]
  | .prio => ts.takeWhile (fun u => prio u ≤ prio t) ++ t :: ts.dropWhile fun u => prio u ≤ prio t

omit [DecidableEq T] in
/-- `rt_ipc_list_suspend` puts one thread on the list. -/
theorem insertSuspended_perm (flag : IpcFlag) (prio : T → Nat) (t : T) (ts : List T) :
    (insertSuspended flag prio t ts).Perm (t :: ts) := by
  cases flag with
  | fifo => exact List.perm_append_singleton t ts
  | prio =>
      show (ts.takeWhile _ ++ t :: ts.dropWhile _).Perm (t :: ts)
      calc (ts.takeWhile _ ++ t :: ts.dropWhile _).Perm (t :: (ts.takeWhile _ ++ ts.dropWhile _)) := List.perm_middle
        _ = t :: ts := by rw [List.takeWhile_append_dropWhile]

/-- The beginning of `rt_mq_send` and of `rt_mq_urgent`, up to the end of the first critical section. -/
def startSend (s : MqSys T) (urgent : Bool) (t : T) (buffer : List UInt8) : MqSys T :=
  if buffer.length > s.mq.msgSize then s.ret t .error
  else match s.mq.takeFree with
    | none => s.ret t .efull
    | some (msg, mq) => { s with mq }.setPc t (.taken urgent msg buffer)

/-- `rt_mq_send`. -/
def rtMqSend (s : MqSys T) (t : T) (buffer : List UInt8) : MqSys T := s.startSend false t buffer

/-- `rt_mq_urgent`. -/
def rtMqUrgent (s : MqSys T) (t : T) (buffer : List UInt8) : MqSys T := s.startSend true t buffer

/-- The copy of `rt_mq_send` (`urgent` is `false`) or of `rt_mq_urgent`. -/
def fill (s : MqSys T) (t : T) (urgent : Bool) (msg : Nat) (buffer : List UInt8) : MqSys T :=
  let mq := if urgent then s.mq else s.mq.clearNext msg
  { s with mq := mq.copyBuffer msg buffer }.setPc t (.filled urgent msg)

/-- The second critical section of `rt_mq_send` (`urgent` is `false`) or of `rt_mq_urgent`. -/
def link (s : MqSys T) (t : T) (urgent : Bool) (msg : Nat) : MqSys T :=
  let mq := if urgent then s.mq.linkHead msg else s.mq.linkTail msg
  ({ s with mq }.resumeFirst).ret t .eok

/-- `rt_mq_recv` from the test of `while (mq->entry == 0)` on, to where the thread is suspended, returns, or has a
message off the queue. -/
def recvEntry (s : MqSys T) (t : T) (size : Nat) (timeout : Int) (prio : T → Nat) : Option (MqSys T) :=
  if s.mq.entry = 0 then
    if timeout = 0 then some ((s.setError t .etimeout).ret t .etimeout)
    else some ({ s.setError t .eok with
      suspendThread := insertSuspended s.mq.flag prio t s.suspendThread }.setPc t (.waiting size timeout))
  else
    s.mq.unlink.map fun (msg, mq) =>
      { s with mq := { mq with entry := Word.sub 16 mq.entry 1 } }.setPc t (.holding msg size)

/-- `rt_mq_recv`. -/
def rtMqRecv (s : MqSys T) (t : T) (size : Nat) (timeout : Int) (prio : T → Nat) : Option (MqSys T) :=
  if s.mq.entry = 0 ∧ timeout = 0 then some (s.ret t .etimeout) else s.recvEntry t size timeout prio

/-- "re-calculate timeout tick": `timeout` is an `rt_int32_t` and `elapsed` the ticks since the thread was suspended. -/
def recalculate (timeout : Int) (elapsed : Nat) : Int :=
  if timeout > 0 then max 0 (Int.bmod (timeout - elapsed) (2 ^ 32)) else timeout

/-- `rt_mq_recv` after its `rt_schedule`. -/
def recvWoken (s : MqSys T) (t : T) (size : Nat) (timeout : Int) (elapsed : Nat) (prio : T → Nat) :
    Option (MqSys T) :=
  if s.error t ≠ .eok then some (s.ret t (s.error t))
  else s.recvEntry t size (recalculate timeout elapsed) prio

/-- The end of `rt_mq_recv`: the slot goes back and the call returns. -/
def giveBack (s : MqSys T) (t : T) (msg : Nat) : MqSys T :=
  { s with mq := s.mq.putFree msg }.ret t .eok

/-- `rt_mq_control`; `reset` is `cmd == RT_IPC_CMD_RESET`. -/
def rtMqControl (s : MqSys T) (t : T) (reset : Bool) : Option (MqSys T) :=
  if reset then
    let s := s.resumeAll
    (Mq.releaseAll (s.mq.maxMsgs + 1) s.mq).map fun mq => { s with mq := { mq with entry := 0 } }.ret t .eok
  else some (s.ret t .error)

/-! ## Steps -/

/-- The next step of a thread inside a call. -/
def continueCall (s : MqSys T) (t : T) (elapsed : Nat) (prio : T → Nat) : Option (MqSys T) :=
  match s.pc t with
  | .taken urgent msg buffer => some (s.fill t urgent msg buffer)
  | .filled urgent msg => some (s.link t urgent msg)
  | .woken size timeout => s.recvWoken t size timeout elapsed prio
  | .holding msg size => some (s.setPc t (.copied msg (s.mq.copyMessage msg size)))
  | .copied msg _ => some (s.giveBack t msg)
  | .idle | .waiting .. => some s

/-- That an event can happen in a state: calls are begun by threads outside of a call and with the arguments that
`RT_ASSERT` asks for, and a timer that fires belongs to a thread that waits with a time limit. -/
def Enabled (s : MqSys T) : MqEvent T → Prop
  | .send t buffer | .urgent t buffer => s.pc t = .idle ∧ buffer ≠ []
  | .recv t size _ _ => s.pc t = .idle ∧ size ≠ 0
  | .control t _ => s.pc t = .idle
  | .continue t _ _ => (s.pc t).inCall
  | .timeout t => (s.pc t).timeLimit.any (0 < ·)
  | .resume t => (s.pc t).timeLimit.isSome

instance (s : MqSys T) : (e : MqEvent T) → Decidable (s.Enabled e)
  | .send .. | .urgent .. | .recv .. => inferInstanceAs (Decidable (_ ∧ _))
  | .control .. => inferInstanceAs (Decidable (_ = _))
  | .continue .. | .timeout _ | .resume _ => inferInstanceAs (Decidable (_ = true))

/-- The effect of an event. -/
def exec (s : MqSys T) : MqEvent T → Option (MqSys T)
  | .send t buffer => some (s.rtMqSend t buffer)
  | .urgent t buffer => some (s.rtMqUrgent t buffer)
  | .recv t size timeout prio => s.rtMqRecv t size timeout prio
  | .control t reset => s.rtMqControl t reset
  | .continue t elapsed prio => s.continueCall t elapsed prio
  | .timeout t => some ((s.setError t .etimeout).wake t)
  | .resume t => some (s.wake t)

/-- One step of the system. -/
def Step (s : MqSys T) (e : MqEvent T) (s' : MqSys T) : Prop := s.Enabled e ∧ s.exec e = some s'

/-- A queue that nobody uses yet. -/
def init (mq : Mq) : MqSys T where
  mq := mq
  suspendThread := []
  pc _ := .idle
  error _ := .eok
  result _ := .eok

end MqSys

end CoreLink.RtThread
