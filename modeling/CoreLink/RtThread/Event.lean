/-
# `CoreLink.RtThread.Event` — the event object of `src/ipc.c`.

An event object is a set of 32 bits. A thread waits for all or for some of the bits that it names, and may ask that the
bits it got are cleared. `rt_event_send` adds bits, walks the whole list of waiting threads, and grants the threads
whose condition is met; `rt_event_recv` tests the condition itself before it waits.

Both are one critical section, `rt_event_recv` with a second part behind its `rt_schedule`. A send is not tied to a
thread: interrupt handlers send as well. `RT_ASSERT` on the option is a condition for a receive to begin. `grant` is a
ghost variable, the last grant to a thread since its call began; no function reads it.
-/
import CoreLink.Lib.WaitList
import CoreLink.RtThread.Mq

namespace CoreLink.RtThread

open CoreLink.Lib

/-! ## Conditions -/

/-- `RT_EVENT_FLAG_AND`. -/
def eventFlagAnd : BitVec 8 := 0x01

/-- `RT_EVENT_FLAG_OR`. -/
def eventFlagOr : BitVec 8 := 0x02

/-- `RT_EVENT_FLAG_CLEAR`. -/
def eventFlagClear : BitVec 8 := 0x04

/-- `option & flag`, as a condition. -/
def HasFlag (option flag : BitVec 8) : Prop := option &&& flag ≠ 0

instance (option flag : BitVec 8) : Decidable (HasFlag option flag) := inferInstanceAs (Decidable (_ ≠ _))

/-- The test of `rt_event_recv`, and of `rt_event_send` for one thread: `wanted` is what the receive asks for and `set`
the bits of the object. -/
def Satisfied (option : BitVec 8) (wanted set : BitVec 32) : Prop :=
  if HasFlag option eventFlagAnd then wanted &&& set = wanted
  else if HasFlag option eventFlagOr then wanted &&& set ≠ 0
  else False

instance (option : BitVec 8) (wanted set : BitVec 32) : Decidable (Satisfied option wanted set) := by
  unfold Satisfied
  infer_instance

/-- One grant: the bits of the object before and after it, and the set that the receive reports. -/
structure Grant where
  before : BitVec 32
  after : BitVec 32
  reported : BitVec 32

/-! ## Threads at the object -/

/-- Where a thread is in its call. `notNull` is that the caller gave an address for the received set. -/
inductive EventPc where
  /-- in none of the calls -/
  | idle
  /-- receiving; suspended on the object -/
  | waiting (set : BitVec 32) (option : BitVec 8) (timeout : Int) (notNull : Bool)
  /-- receiving; on a ready list again, before `thread->error` is read -/
  | woken (set : BitVec 32) (option : BitVec 8) (notNull : Bool)
  deriving DecidableEq

namespace EventPc

def isWaiting : EventPc → Prop
  | waiting .. => True
  | _ => False

def isWoken : EventPc → Bool
  | woken .. => true
  | _ => false

/-- The time limit of a thread that is suspended. -/
def timeLimit : EventPc → Option Int
  | waiting _ _ timeout _ => some timeout
  | _ => none

/-- `rt_thread_resume` of a thread that waits at the object. -/
def wake : EventPc → EventPc
  | waiting set option _ notNull => woken set option notNull
  | pc => pc

end EventPc

/-- What can happen next: bits are sent, a thread begins a receive or goes on with it, or its timer fires. -/
inductive EventLabel (T : Type*) where
  | send (set : BitVec 32)
  | recv (t : T) (set : BitVec 32) (option : BitVec 8) (timeout : Int) (notNull : Bool) (prio : T → Nat)
  | continue (t : T)
  | timeout (t : T)

/-- The object (`event->set`, its flag and its list), the fields `event_set` and `event_info` of the threads, and the
threads' positions. `recved` is the variable a thread's receives write to, `result` what its last call returned. -/
structure EventSys (T : Type*) where
  set : BitVec 32
  flag : IpcFlag
  suspendThread : List T
  eventSet : T → BitVec 32
  eventInfo : T → BitVec 8
  pc : T → EventPc
  error : T → RtErr
  result : T → RtErr
  recved : T → BitVec 32
  grant : T → Option Grant

namespace EventSys

variable {T : Type*} [DecidableEq T]

def setPc (s : EventSys T) (t : T) (pc : EventPc) : EventSys T := { s with pc := Function.update s.pc t pc }

def setError (s : EventSys T) (t : T) (e : RtErr) : EventSys T := { s with error := Function.update s.error t e }

/-- `if (recved) *recved = set`. -/
def report (s : EventSys T) (t : T) (notNull : Bool) (set : BitVec 32) : EventSys T :=
  if notNull then { s with recved := Function.update s.recved t set } else s

/-- The call of `t` returns `thread->error`. -/
def ret (s : EventSys T) (t : T) : EventSys T :=
  { s.setPc t .idle with result := Function.update s.result t (s.error t) }

/-- `rt_thread_resume` on a thread of the suspend list. -/
def wake (s : EventSys T) (t : T) : EventSys T :=
  { s.setPc t (s.pc t).wake with suspendThread := s.suspendThread.erase t }

/-- The bits that a grant with this option clears. -/
def cleared (option : BitVec 8) (set bits : BitVec 32) : BitVec 32 :=
  if HasFlag option eventFlagClear then set &&& ~~~bits else set

/-- "condition is satisfied, resume thread" in `rt_event_send`: an OR receive has saved what it got in `event_set`. -/
def grantThread (s : EventSys T) (t : T) : EventSys T :=
  let got := if HasFlag (s.eventInfo t) eventFlagAnd then s.eventSet t else s.eventSet t &&& s.set
  let set := cleared (s.eventInfo t) s.set got
  { s with
    eventSet := Function.update s.eventSet t got
    set := set
    grant := Function.update s.grant t (some ⟨s.set, set, got⟩) }.wake t

/-- "search thread list to resume thread": the loop of `rt_event_send`. -/
def search : List T → EventSys T → EventSys T
  | [], s => s
  | t :: ts, s => search ts (if Satisfied (s.eventInfo t) (s.eventSet t) s.set then s.grantThread t else s)

/-- `rt_event_send`, and what it returns. -/
def rtEventSend (s : EventSys T) (set : BitVec 32) : EventSys T × RtErr :=
  if set = 0 then (s, .error) else (search s.suspendThread { s with set := s.set ||| set }, .eok)

/-- "set received event" and "received event" in `rt_event_recv`: the receive is granted without waiting. -/
def recvNow (s : EventSys T) (t : T) (set : BitVec 32) (option : BitVec 8) (notNull : Bool) : EventSys T :=
  { s with
    set := cleared option s.set set
    grant := Function.update s.grant t (some ⟨s.set, cleared option s.set set, s.set &&& set⟩) }.report t notNull
      (s.set &&& set)

/-- `rt_event_recv` from "check event set" on, up to where the thread is suspended or the call has returned. -/
def recvEntry (s : EventSys T) (t : T) (set : BitVec 32) (option : BitVec 8) (timeout : Int) (notNull : Bool)
    (prio : T → Nat) : EventSys T :=
  if Satisfied option set s.set then (s.recvNow t set option notNull).ret t
  else if timeout = 0 then (s.setError t .etimeout).ret t
  else
    { s with
      eventSet := Function.update s.eventSet t set
      eventInfo := Function.update s.eventInfo t option
      suspendThread := MqSys.insertSuspended s.flag prio t s.suspendThread }.setPc t
        (.waiting set option timeout notNull)

/-- `rt_event_recv`. -/
def rtEventRecv (s : EventSys T) (t : T) (set : BitVec 32) (option : BitVec 8) (timeout : Int) (notNull : Bool)
    (prio : T → Nat) : EventSys T :=
  if set = 0 then { s.setPc t .idle with result := Function.update s.result t .error }
  else { s.setError t .eok with grant := Function.update s.grant t none }.recvEntry t set option timeout notNull prio

/-- `rt_event_recv` after its `rt_schedule`. -/
def recvWoken (s : EventSys T) (t : T) (notNull : Bool) : EventSys T :=
  if s.error t ≠ .eok then s.ret t else (s.report t notNull (s.eventSet t)).ret t

/-! ## Steps -/

/-- The next step of a thread inside a call. -/
def continueCall (s : EventSys T) (t : T) : EventSys T :=
  match s.pc t with
  | .woken _ _ notNull => s.recvWoken t notNull
  | .idle | .waiting .. => s

/-- That an event can happen in a state: receives are begun by threads outside of a call and with an option that
`RT_ASSERT` lets pass, and a timer that fires belongs to a thread that waits with a time limit. -/
def Enabled (s : EventSys T) : EventLabel T → Prop
  | .send _ => True
  | .recv t set option _ _ _ => s.pc t = .idle ∧ (set = 0 ∨ HasFlag option eventFlagAnd ∨ HasFlag option eventFlagOr)
  | .continue t => (s.pc t).isWoken
  | .timeout t => (s.pc t).timeLimit.any (0 < ·)

instance (s : EventSys T) : (e : EventLabel T) → Decidable (s.Enabled e)
  | .send _ => inferInstanceAs (Decidable True)
  | .recv .. => inferInstanceAs (Decidable (_ ∧ _))
  | .continue _ | .timeout _ => inferInstanceAs (Decidable (_ = true))

/-- The effect of an event. -/
def exec (s : EventSys T) : EventLabel T → EventSys T
  | .send set => (s.rtEventSend set).1
  | .recv t set option timeout notNull prio => s.rtEventRecv t set option timeout notNull prio
  | .continue t => s.continueCall t
  | .timeout t => (s.setError t .etimeout).wake t

/-- One step of the system. -/
def Step (s : EventSys T) (e : EventLabel T) (s' : EventSys T) : Prop := s.Enabled e ∧ s' = s.exec e

/-- `rt_event_init`: an object that nobody uses yet. `eventSet`, `eventInfo` and `recved` are what the threads' fields
and variables hold at that time. -/
def init (flag : IpcFlag) (eventSet : T → BitVec 32) (eventInfo : T → BitVec 8) (recved : T → BitVec 32) :
    EventSys T where
  set := 0
  flag := flag
  suspendThread := []
  eventSet := eventSet
  eventInfo := eventInfo
  pc _ := .idle
  error _ := .eok
  result _ := .eok
  recved := recved
  grant _ := none

end EventSys

end CoreLink.RtThread
