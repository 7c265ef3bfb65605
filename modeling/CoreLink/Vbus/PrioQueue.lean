/-
# `CoreLink.Vbus.PrioQueue` — the priority queue of `components/vbus/prio_queue.c`.

The queue has one singly linked list of items for each of 32 priorities and a bitmap of the lists that have items. An item
is a block of a memory pool, named by its number; its link is in `next`, and the `item_sz` bytes behind the link are one
value of `α`. The memory pool itself is taken as correct: it has a list of free blocks, an allocation hands out one of
these or fails, and a release gives the block back.

A push copies into its block before the critical section that links it, and a pop copies out after the one that unlinks.
As for the message queue, a thread's position in its call is a `PqPc`, and each critical section and each copy is a step
of its own. A failed `RT_ASSERT` and a read through `RT_NULL` are `none`.
-/
import CoreLink.Lib.Chain
import CoreLink.RtThread.ReadyBits

namespace CoreLink.Vbus

open CoreLink.Lib CoreLink.RtThread

/-! ## The object -/

/-- `RT_PRIO_QUEUE_PRIO_MAX`. -/
def rtPrioQueuePrioMax : Nat := 32

/-- `struct rt_prio_queue` with the memory of its pool; `free` are the blocks that the pool has to give. The list
`suspended_pop_list` is in the state of the system. -/
structure PrioQueue (α : Type*) where
  bitmap : BitVec 32
  head : Nat → Option Nat
  tail : Nat → Option Nat
  next : Nat → Option Nat
  data : Nat → α
  free : List Nat

namespace PrioQueue

variable {α : Type*}

/-- `rt_prio_queue_init` with a pool of `n` blocks, whose memory holds `next` and `data` at that time. -/
def rtPrioQueueInit (n : Nat) (next : Nat → Option Nat) (data : Nat → α) : PrioQueue α where
  bitmap := 0
  head _ := none
  tail _ := none
  next := next
  data := data
  free := List.range n

/-- `rt_memcpy (item + 1, data, que->item_sz)` and `item->next = RT_NULL`. -/
def fill (q : PrioQueue α) (item : Nat) (x : α) : PrioQueue α :=
  { q with data := Function.update q.data item x, next := Function.update q.next item none }

/-- `_do_push`. -/
def doPush (q : PrioQueue α) (prio item : Nat) : Option (PrioQueue α) :=
  match q.head prio with
  | none =>
      some { q with
        head := Function.update q.head prio (some item)
        bitmap := q.bitmap ||| (1#32 <<< prio)
        tail := Function.update q.tail prio (some item) }
  | some _ =>
      match q.tail prio with
      | none => none
      | some last =>
          some { q with
            next := Function.update q.next last (some item)
            tail := Function.update q.tail prio (some item) }

/-- `_do_pop`: the item taken, if there is one, and the queue. -/
def doPop (q : PrioQueue α) : Option (Option Nat × PrioQueue α) :=
  if rtFfs q.bitmap = 0 then some (none, q)
  else
    let ffs := rtFfs q.bitmap - 1
    match q.head ffs with
    | none => none
    | some item =>
        some (some item, { q with
          head := Function.update q.head ffs (q.next item)
          bitmap := if q.next item = none then q.bitmap &&& ~~~(1#32 <<< ffs) else q.bitmap })

/-- `rt_mp_alloc` hands out the free block `item`. -/
def mpAlloc (q : PrioQueue α) (item : Nat) : PrioQueue α := { q with free := q.free.erase item }

/-- `rt_mp_free`. -/
def mpFree (q : PrioQueue α) (item : Nat) : PrioQueue α := { q with free := item :: q.free }

end PrioQueue

/-! ## Threads at the queue -/

/-- The values of `rt_err_t` that the functions of the queue return or leave in `thread->error`. -/
inductive PqErr where
  | eok
  | error
  | etimeout
  | enomem
  deriving DecidableEq, Repr

/-- Where a thread is in its call. -/
inductive PqPc (α : Type*) where
  /-- in neither call -/
  | idle
  /-- pushing; in `rt_mp_alloc` -/
  | allocating (prio : Nat) (x : α)
  /-- pushing; the block is allocated and the copy not yet made -/
  | copying (prio : Nat) (x : α) (item : Nat)
  /-- pushing; the copy is made and the item not yet linked -/
  | linking (prio item : Nat)
  /-- popping; suspended -/
  | waiting (timeout : Int)
  /-- popping; on a ready list again, before `thread->error` is read -/
  | woken (timeout : Int)
  /-- popping; the item is unlinked and the copy not yet made -/
  | holding (item : Nat)
  /-- popping; the copy is made and the block not yet released -/
  | copied (item : Nat) (x : α)

namespace PqPc

variable {α : Type*}

/-- The block in flight in a call. -/
def slot : PqPc α → Option Nat
  | copying _ _ item | linking _ item | holding item | copied item _ => some item
  | idle | allocating .. | waiting _ | woken _ => none

/-- The thread is in a call, neither suspended nor in `rt_mp_alloc`. -/
def running : PqPc α → Bool
  | copying .. | linking .. | woken _ | holding _ | copied .. => true
  | idle | allocating .. | waiting _ => false

/-- The thread is in neither call. -/
def isIdle : PqPc α → Bool
  | idle => true
  | _ => false

/-- The thread is in `rt_mp_alloc`. -/
def isAllocating : PqPc α → Bool
  | allocating .. => true
  | _ => false

/-- The time limit of a thread that is suspended. -/
def timeLimit : PqPc α → Option Int
  | waiting timeout => some timeout
  | _ => none

/-- `rt_thread_resume` of a thread that waits at the queue. -/
def wake : PqPc α → PqPc α
  | waiting timeout => woken timeout
  | pc => pc

end PqPc

/-- What can happen next: a thread begins a call, gets its block from the pool or is refused one, goes on with the call it
is in, or is taken off the suspend list by its timer or by an `rt_thread_resume` from elsewhere. -/
inductive PqEvent (T α : Type*) where
  | push (t : T) (prio : Nat) (x : α)
  | alloc (t : T) (item : Nat)
  | allocFail (t : T)
  | pop (t : T) (timeout : Int)
  | continue (t : T)
  | timeout (t : T)
  | resume (t : T)

/-- The queue and the threads that use it. `result` is what a thread's last call returned. -/
structure PqSys (T α : Type*) where
  que : PrioQueue α
  suspendedPopList : List T
  pc : T → PqPc α
  error : T → PqErr
  result : T → PqErr

namespace PqSys

variable {T α : Type*} [DecidableEq T]

def setPc (s : PqSys T α) (t : T) (pc : PqPc α) : PqSys T α := { s with pc := Function.update s.pc t pc }

def setError (s : PqSys T α) (t : T) (e : PqErr) : PqSys T α := { s with error := Function.update s.error t e }

/-- The call of `t` returns `e`. -/
def ret (s : PqSys T α) (t : T) (e : PqErr) : PqSys T α :=
  { s.setPc t .idle with result := Function.update s.result t e }

/-- `rt_thread_resume` on a thread of the suspend list. -/
def wake (s : PqSys T α) (t : T) : PqSys T α :=
  { s.setPc t (s.pc t).wake with suspendedPopList := s.suspendedPopList.erase t }

/-- "get thread entry" and "resume it", if the list is not empty. -/
def resumeFirst (s : PqSys T α) : PqSys T α :=
  match s.suspendedPopList with
  | [] => s
  | t :: _ => s.wake t

/-- `rt_prio_queue_push` up to `rt_mp_alloc`. -/
def rtPrioQueuePush (s : PqSys T α) (t : T) (prio : Nat) (x : α) : PqSys T α :=
  if prio ≥ rtPrioQueuePrioMax then s.ret t .error else s.setPc t (.allocating prio x)

/-- `rt_mp_alloc` returns the block `item`. -/
def allocated (s : PqSys T α) (t : T) (item : Nat) : PqSys T α :=
  match s.pc t with
  | .allocating prio x => { s with que := s.que.mpAlloc item }.setPc t (.copying prio x item)
  | _ => s

/-- The critical section of `rt_prio_queue_push`. -/
def link (s : PqSys T α) (t : T) (prio item : Nat) : Option (PqSys T α) :=
  (s.que.doPush prio item).map fun que => ({ s with que }.resumeFirst).ret t .eok

/-- `rt_prio_queue_pop` from a `_do_pop` of its loop to where the thread is suspended, returns, or has an item. -/
def popEntry (s : PqSys T α) (t : T) (timeout : Int) : Option (PqSys T α) :=
  match s.que.doPop with
  | none => none
  | some (some item, que) => some ({ s with que }.setPc t (.holding item))
  | some (none, que) =>
      if timeout = 0 then some ({ s with que }.ret t .etimeout)
      else some ({ s.setError t .eok with que, suspendedPopList := s.suspendedPopList ++ [t] }.setPc t (.waiting timeout))

/-- `rt_prio_queue_pop` after its `rt_schedule`. -/
def popWoken (s : PqSys T α) (t : T) (timeout : Int) : Option (PqSys T α) :=
  if s.error t ≠ .eok then some (s.ret t (s.error t)) else s.popEntry t timeout

/-! ## Steps -/

/-- The next step of a thread inside a call. -/
def continueCall (s : PqSys T α) (t : T) : Option (PqSys T α) :=
  match s.pc t with
  | .copying prio x item => some ({ s with que := s.que.fill item x }.setPc t (.linking prio item))
  | .linking prio item => s.link t prio item
  | .woken timeout => s.popWoken t timeout
  | .holding item => some (s.setPc t (.copied item (s.que.data item)))
  | .copied item _ => some ({ s with que := s.que.mpFree item }.ret t .eok)
  | .idle | .allocating .. | .waiting _ => some s

/-- That an event can happen in a state. -/
def Enabled (s : PqSys T α) : PqEvent T α → Prop
  | .push t _ _ | .pop t _ => (s.pc t).isIdle
  | .alloc t item => (s.pc t).isAllocating ∧ item ∈ s.que.free
  | .allocFail t => (s.pc t).isAllocating
  | .continue t => (s.pc t).running
  | .timeout t => (s.pc t).timeLimit.any (0 < ·)
  | .resume t => (s.pc t).timeLimit.isSome

instance (s : PqSys T α) : (e : PqEvent T α) → Decidable (s.Enabled e)
  | .push .. | .pop .. | .allocFail _ | .continue _ | .timeout _ | .resume _ => inferInstanceAs (Decidable (_ = true))
  | .alloc .. => inferInstanceAs (Decidable (_ ∧ _))

/-- The effect of an event. -/
def exec (s : PqSys T α) : PqEvent T α → Option (PqSys T α)
  | .push t prio x => some (s.rtPrioQueuePush t prio x)
  | .alloc t item => some (s.allocated t item)
  | .allocFail t => some (s.ret t .enomem)
  | .pop t timeout => s.popEntry t timeout
  | .continue t => s.continueCall t
  | .timeout t => some ((s.setError t .etimeout).wake t)
  | .resume t => some (s.wake t)

/-- One step of the system. -/
def Step (s : PqSys T α) (e : PqEvent T α) (s' : PqSys T α) : Prop := s.Enabled e ∧ s.exec e = some s'

/-- A queue that nobody uses yet. -/
def init (que : PrioQueue α) : PqSys T α where
  que := que
  suspendedPopList := []
  pc _ := .idle
  error _ := .eok
  result _ := .eok

end PqSys

end CoreLink.Vbus
