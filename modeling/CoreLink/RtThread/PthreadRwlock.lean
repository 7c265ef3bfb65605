/-
# `CoreLink.RtThread.PthreadRwlock` — the read-write lock of `components/libc/pthreads/pthread_rwlock.c`, step by step.

The seven operations share one shape. Each tests whether the lock has been initialised, and initialises it if not, before
it takes `rw_mutex`; under the mutex it tests the counters, may wait on one of the two conditions (the ones of
`PthreadCond`), and updates the counters. Everything between two accesses to the lock is a step of its own here, so a
thread can be preempted between the test of `attr` and each of the stores of `pthread_rwlock_init`, and between a test of
the counters and the update that follows it.

`readers`, `writers` and `acquired` are no variables of the source. The first two list the threads that hold a lock, with
one entry for each read lock, and change where `rw_refcount` does.
-/
import CoreLink.RtThread.PthreadCond

namespace CoreLink.RtThread

open CoreLink.Lib

/-! ## Threads -/

/-- What the operations return: 0, or an error of `errno.h`. -/
inductive PthreadErr where
  | ok
  | ebusy
  | einval
  | edeadlk
  | etimedout
  deriving DecidableEq

/-- Readers and writers have a condition and a counter of their own. -/
inductive RwSide where
  | reader
  | writer
  deriving DecidableEq

/-- The operations: three ways to lock for each side, and the one to unlock. -/
inductive RwOp where
  /-- `pthread_rwlock_rdlock`, `_wrlock`, and with `timed` `_timedrdlock`, `_timedwrlock` -/
  | lock (side : RwSide) (timed : Bool)
  /-- `pthread_rwlock_tryrdlock`, `_trywrlock` -/
  | trylock (side : RwSide)
  /-- `pthread_rwlock_unlock` -/
  | unlock
  deriving DecidableEq

/-- The stores of `pthread_rwlock_init`, in their order. -/
inductive RwInit where
  | attr
  | mutex
  | condreaders
  | condwriters
  | nwaitwriters
  | nwaitreaders
  | refcount
  deriving DecidableEq

/-- Where a thread is in its operation. -/
inductive RwPc where
  /-- in no operation -/
  | idle
  /-- in `pthread_rwlock_init`, before this store -/
  | init (op : RwOp) (store : RwInit)
  /-- before the first `pthread_mutex_lock` -/
  | locking (op : RwOp)
  /-- before the test of the counters -/
  | test (op : RwOp)
  /-- the test says that the thread has to wait; before its side is counted -/
  | enter (side : RwSide) (timed : Bool)
  /-- before `pthread_cond_wait` or `pthread_cond_timedwait` -/
  | wait (side : RwSide) (timed : Bool)
  /-- in it, between the mutex and the semaphore -/
  | unlocked (side : RwSide) (timed : Bool) (time : Int)
  /-- in `rt_sem_take` -/
  | taking (side : RwSide) (timed : Bool)
  /-- before the mutex is locked again -/
  | relocking (side : RwSide) (timed : Bool) (result : PthreadErr)
  /-- after the wait -/
  | leave (side : RwSide) (timed : Bool) (result : PthreadErr)
  /-- the test says that the thread may have the lock; before `rw_refcount` is written -/
  | acquire (side : RwSide)
  /-- in the unlock, after `rw_refcount` has been written -/
  | wake
  /-- before `pthread_mutex_unlock` at the end -/
  | unlocking (result : PthreadErr)
  /-- in the handler of an `RT_ASSERT` that has failed -/
  | asserted
  deriving DecidableEq

namespace RwPc

/-- The thread is between the lock and the unlock of the mutex. -/
def inCrit : RwPc → Bool
  | test _ | enter .. | wait .. | leave .. | acquire _ | wake | unlocking _ => true
  | idle | init .. | locking _ | unlocked .. | taking .. | relocking .. | asserted => false

/-- The thread is in an unlock, and has not given its lock back. -/
def isUnlock : RwPc → Bool
  | init .unlock _ | locking .unlock | test .unlock => true
  | idle | init .. | locking _ | test _ | enter .. | wait .. | unlocked .. | taking .. | relocking .. | leave ..
  | acquire _ | wake | unlocking _ | asserted => false

/-- The thread is in an operation that has not acquired a lock, and will not if it is about to return an error. -/
def isFresh : RwPc → Bool
  | unlocking result => result ≠ .ok
  | init .. | locking _ | test _ | enter .. | wait .. | unlocked .. | taking .. | relocking .. | leave .. | acquire _
  | wake => true
  | idle | asserted => false

/-- The thread is on its way from the mutex to the condition of its side. -/
def onWay : RwSide → RwPc → Bool
  | side, unlocked side' _ _ => side = side'
  | _, idle | _, init .. | _, locking _ | _, test _ | _, enter .. | _, wait .. | _, taking .. | _, relocking ..
  | _, leave .. | _, acquire _ | _, wake | _, unlocking _ | _, asserted => false

end RwPc

/-- What can happen next: an operation begins with the test of `attr`, a thread makes its next step, begins to wait on a
condition with this number of ticks, or its timer fires. -/
inductive RwEvent (T : Type*) where
  | call (t : T) (op : RwOp)
  | step (t : T)
  | wait (t : T) (time : Int)
  | timeout (t : T)

/-- `struct pthread_rwlock` and the threads. -/
structure RwSys (T : Type*) where
  attr : Int
  /-- `rw_mutex` has been initialised -/
  mutexReady : Bool
  owner : Option T
  cond : RwSide → SemSys T
  nwait : RwSide → Int
  refcount : Int
  pc : T → RwPc
  /-- what the last operation of a thread has returned -/
  result : T → PthreadErr
  readers : List T
  writers : List T
  /-- the last operation of a thread has acquired a lock -/
  acquired : T → Bool

/-- What `pthread_cond_wait` and `pthread_cond_timedwait` make of the result of `rt_sem_take`. -/
def condResult (timed : Bool) (e : RtErr) : PthreadErr :=
  if e = .eok then .ok else if timed = true ∧ e = .etimeout then .etimedout else .einval

/-- `pthread_cond_init`: the suspend list is empty again, whoever is suspended. -/
def SemSys.condInit {T : Type*} (s : SemSys T) : SemSys T := { s with value := 0, flag := .fifo, suspendThread := [] }

variable {T : Type*}

namespace RwSys

section Steps

variable [DecidableEq T]

def setPc (s : RwSys T) (t : T) (pc : RwPc) : RwSys T := { s with pc := Function.update s.pc t pc }

def setCond (s : RwSys T) (side : RwSide) (sem : SemSys T) : RwSys T :=
  { s with cond := Function.update s.cond side sem }

def setNwait (s : RwSys T) (side : RwSide) (n : Int) : RwSys T := { s with nwait := Function.update s.nwait side n }

/-- A store of `pthread_rwlock_init`. -/
def initStore (s : RwSys T) (t : T) (op : RwOp) : RwInit → RwSys T
  | .attr => { s.setPc t (.init op .mutex) with attr := 0 }
  | .mutex => { s.setPc t (.init op .condreaders) with mutexReady := true, owner := none }
  | .condreaders => (s.setCond .reader (s.cond .reader).condInit).setPc t (.init op .condwriters)
  | .condwriters => (s.setCond .writer (s.cond .writer).condInit).setPc t (.init op .nwaitwriters)
  | .nwaitwriters => (s.setNwait .writer 0).setPc t (.init op .nwaitreaders)
  | .nwaitreaders => (s.setNwait .reader 0).setPc t (.init op .refcount)
  | .refcount => { s.setPc t (.locking op) with refcount := 0 }

/-- The test at the beginning of every operation. -/
def call (s : RwSys T) (t : T) (op : RwOp) : RwSys T :=
  let s := { s with acquired := Function.update s.acquired t false }
  if s.attr = -1 then s.setPc t (.init op .attr) else s.setPc t (.locking op)

/-- The operation of `t` returns. -/
def ret (s : RwSys T) (t : T) (e : PthreadErr) : RwSys T :=
  { s.setPc t .idle with result := Function.update s.result t e }

/-- The first `pthread_mutex_lock`; a thread that owns the mutex gets `EDEADLK`. -/
def lockMutex (s : RwSys T) (t : T) (op : RwOp) : RwSys T :=
  if s.mutexReady = false then s.setPc t .asserted
  else if s.owner = some t then s.ret t .edeadlk
  else { s.setPc t (.test op) with owner := some t }

/-- Whether a side has to wait: writers for everybody, readers for writers that hold the lock or wait for it. -/
def mustWait (s : RwSys T) : RwSide → Bool
  | .reader => s.refcount < 0 ∨ s.nwait .writer > 0
  | .writer => s.refcount ≠ 0

/-- `rw_refcount` in the unlock, and the lock that the thread gives back. -/
def release (s : RwSys T) (t : T) : RwSys T :=
  { s with
    refcount := if s.refcount > 0 then s.refcount - 1 else if s.refcount = -1 then 0 else s.refcount
    writers := if t ∈ s.writers then s.writers.erase t else s.writers
    readers := if t ∈ s.writers then s.readers else s.readers.erase t }

/-- The test of the counters; the unlock writes `rw_refcount` instead. -/
def testCounters (s : RwSys T) (t : T) : RwOp → RwSys T
  | .lock side timed => s.setPc t (if s.mustWait side = true then .enter side timed else .acquire side)
  | .trylock side => s.setPc t (if s.mustWait side = true then .unlocking .ebusy else .acquire side)
  | .unlock => (s.release t).setPc t .wake

/-- `rw_refcount` when the lock is acquired. -/
def takeLock (s : RwSys T) (t : T) : RwSide → RwSys T
  | .reader => { s.setPc t (.unlocking .ok) with
      refcount := s.refcount + 1, readers := t :: s.readers, acquired := Function.update s.acquired t true }
  | .writer => { s.setPc t (.unlocking .ok) with
      refcount := -1, writers := t :: s.writers, acquired := Function.update s.acquired t true }

/-- Whom the unlock wakes. -/
def wakeWaiters (s : RwSys T) (t : T) : RwSys T :=
  if s.nwait .writer > 0 then
    if s.refcount = 0 then s.setCond .writer (s.cond .writer).pthreadCondSignal else s
  else if s.nwait .reader > 0 then s.setCond .reader ((s.cond .reader).pthreadCondBroadcast t)
  else s

/-- `_pthread_cond_timedwait` up to where the mutex is unlocked; it fails if the thread does not own it. -/
def beginWait (s : RwSys T) (t : T) (time : Int) : RwSys T :=
  match s.pc t with
  | .wait side timed =>
    if s.owner = some t then { s.setPc t (.unlocked side timed time) with owner := none }
    else s.setPc t (.leave side timed .einval)
  | _ => s

/-- `rt_sem_take` in the wait. -/
def takeSem (s : RwSys T) (t : T) (side : RwSide) (timed : Bool) (time : Int) : RwSys T :=
  let sem := (s.cond side).rtSemTake t time fun _ => 0
  (s.setCond side sem).setPc t (if (sem.thread t).pc = .idle then
    .relocking side timed (condResult timed (sem.thread t).result) else .taking side timed)

/-- The rest of `rt_sem_take` for a thread that has been woken. -/
def takeSemWoken (s : RwSys T) (t : T) (side : RwSide) (timed : Bool) : RwSys T :=
  let sem := (s.cond side).takeWoken t
  (s.setCond side sem).setPc t (.relocking side timed (condResult timed (sem.thread t).result))

/-- After the wait: the side is not counted any more, and the loop goes on unless the wait has failed. -/
def leaveWait (s : RwSys T) (t : T) (side : RwSide) (timed : Bool) (result : PthreadErr) : RwSys T :=
  (s.setNwait side (s.nwait side - 1)).setPc t (if result = .ok then .test (.lock side timed) else .unlocking result)

/-- The end of an operation. -/
def unlockMutex (s : RwSys T) (t : T) (result : PthreadErr) : RwSys T :=
  { s.ret t result with owner := if s.owner = some t then none else s.owner }

/-- The next step of a thread. -/
def nextStep (s : RwSys T) (t : T) : RwSys T :=
  match s.pc t with
  | .init op store => s.initStore t op store
  | .locking op => s.lockMutex t op
  | .test op => s.testCounters t op
  | .enter side timed => (s.setNwait side (s.nwait side + 1)).setPc t (.wait side timed)
  | .unlocked side timed time => s.takeSem t side timed time
  | .taking side timed => s.takeSemWoken t side timed
  | .relocking side timed result => { s.setPc t (.leave side timed result) with owner := some t }
  | .leave side timed result => s.leaveWait t side timed result
  | .acquire side => s.takeLock t side
  | .wake => (s.wakeWaiters t).setPc t (.unlocking .ok)
  | .unlocking result => s.unlockMutex t result
  | .idle | .wait .. | .asserted => s

/-- The timer of a thread that is suspended on the condition of its side fires. -/
def timeoutSem (s : RwSys T) (t : T) : RwSys T :=
  match s.pc t with
  | .taking side _ => s.setCond side ((s.cond side).wake t .etimeout)
  | _ => s

end Steps

/-- A thread can make its next step: the mutex it wants is free, or it has been woken. -/
def CanStep (s : RwSys T) (t : T) : RwPc → Prop
  | .idle | .wait .. | .asserted => False
  | .locking _ => s.mutexReady = true → s.owner = none ∨ s.owner = some t
  | .relocking .. => s.owner = none ∨ s.owner = some t
  | .taking side _ => ((s.cond side).thread t).pc = .woken
  | .init .. | .test _ | .enter .. | .unlocked .. | .leave .. | .acquire _ | .wake | .unlocking _ => True

/-- A thread that begins to wait on a condition does so with the ticks of its operation: none of the timed ones is
negative. -/
def CanWait (time : Int) : RwPc → Prop
  | .wait _ timed => if timed = true then 0 ≤ time else time = -1
  | _ => False

/-- The timer of a suspended thread can fire. -/
def CanTimeout (s : RwSys T) (t : T) : RwPc → Prop
  | .taking side _ => ((s.cond side).thread t).timeLimit.any (0 < ·) = true
  | _ => False

/-- That an event can happen in a state; only a thread that holds a lock unlocks. -/
def Enabled (s : RwSys T) : RwEvent T → Prop
  | .call t op => s.pc t = .idle ∧ (op = .unlock → t ∈ s.readers ∨ t ∈ s.writers)
  | .step t => s.CanStep t (s.pc t)
  | .wait t time => CanWait time (s.pc t)
  | .timeout t => s.CanTimeout t (s.pc t)

section Steps

variable [DecidableEq T]

instance (s : RwSys T) (t : T) : (pc : RwPc) → Decidable (s.CanStep t pc)
  | .idle | .wait .. | .asserted => inferInstanceAs (Decidable False)
  | .locking _ => inferInstanceAs (Decidable (s.mutexReady = true → s.owner = none ∨ s.owner = some t))
  | .relocking .. => inferInstanceAs (Decidable (s.owner = none ∨ s.owner = some t))
  | .taking side _ => inferInstanceAs (Decidable (((s.cond side).thread t).pc = .woken))
  | .init .. | .test _ | .enter .. | .unlocked .. | .leave .. | .acquire _ | .wake | .unlocking _ =>
    inferInstanceAs (Decidable True)

instance (time : Int) : (pc : RwPc) → Decidable (CanWait time pc)
  | .wait _ timed => inferInstanceAs (Decidable (if timed = true then 0 ≤ time else time = -1))
  | .idle | .init .. | .locking _ | .test _ | .enter .. | .unlocked .. | .taking .. | .relocking .. | .leave ..
  | .acquire _ | .wake | .unlocking _ | .asserted => inferInstanceAs (Decidable False)

instance (s : RwSys T) (t : T) : (pc : RwPc) → Decidable (s.CanTimeout t pc)
  | .taking side _ => inferInstanceAs (Decidable (((s.cond side).thread t).timeLimit.any (0 < ·) = true))
  | .idle | .init .. | .locking _ | .test _ | .enter .. | .wait .. | .unlocked .. | .relocking .. | .leave ..
  | .acquire _ | .wake | .unlocking _ | .asserted => inferInstanceAs (Decidable False)

instance (s : RwSys T) : (e : RwEvent T) → Decidable (s.Enabled e)
  | .call t op => inferInstanceAs (Decidable (s.pc t = .idle ∧ (op = .unlock → t ∈ s.readers ∨ t ∈ s.writers)))
  | .step t => inferInstanceAs (Decidable (s.CanStep t (s.pc t)))
  | .wait t time => inferInstanceAs (Decidable (CanWait time (s.pc t)))
  | .timeout t => inferInstanceAs (Decidable (s.CanTimeout t (s.pc t)))

/-- The effect of an event. -/
def exec (s : RwSys T) : RwEvent T → RwSys T
  | .call t op => s.call t op
  | .step t => s.nextStep t
  | .wait t time => s.beginWait t time
  | .timeout t => s.timeoutSem t

/-- One step of the system. -/
def Step (s : RwSys T) (e : RwEvent T) (s' : RwSys T) : Prop := s.Enabled e ∧ s' = s.exec e

end Steps

/-- `PTHREAD_RWLOCK_INITIALIZER`, with nobody in an operation. -/
def static : RwSys T where
  attr := -1
  mutexReady := false
  owner := none
  cond _ := SemSys.init 0 .fifo
  nwait _ := 0
  refcount := 0
  pc _ := .idle
  result _ := .ok
  readers := []
  writers := []
  acquired _ := false

/-- After `pthread_rwlock_init`. -/
def init : RwSys T := { static with attr := 0, mutexReady := true }

/-! ## What is promised -/

/-- What holds in a state of a lock that excludes: `rw_refcount` says who holds it, and an operation that has returned an
error has acquired nothing. -/
structure Exclusive (s : RwSys T) : Prop where
  writer : s.refcount = -1 ↔ (∃ t, s.writers = [t]) ∧ s.readers = []
  reader : ∀ n : Nat, s.refcount = n ↔ s.readers.length = n ∧ s.writers = []
  failed : ∀ t, s.pc t = .idle → s.result t ≠ .ok → s.acquired t = false

/-- The condition on a store of `pthread_rwlock_init`: nobody owns the mutex when it is initialised, and nobody holds a
lock when `rw_refcount` is set to 0. -/
def InitOk (s : RwSys T) : RwPc → Prop
  | .init _ .mutex => s.owner = none
  | .init _ .refcount => s.readers = [] ∧ s.writers = []
  | _ => True

instance [DecidableEq T] (s : RwSys T) : (pc : RwPc) → Decidable (s.InitOk pc)
  | .init _ .mutex => inferInstanceAs (Decidable (s.owner = none))
  | .init _ .refcount => inferInstanceAs (Decidable (s.readers = [] ∧ s.writers = []))
  | .init _ .attr | .init _ .condreaders | .init _ .condwriters | .init _ .nwaitwriters | .init _ .nwaitreaders
  | .idle | .locking _ | .test _ | .enter .. | .wait .. | .unlocked .. | .taking .. | .relocking .. | .leave ..
  | .acquire _ | .wake | .unlocking _ | .asserted => inferInstanceAs (Decidable True)

/-- The condition on a step. -/
def StepOk (s : RwSys T) : RwEvent T → Prop
  | .step t => s.InitOk (s.pc t)
  | .call .. | .wait .. | .timeout _ => True

instance [DecidableEq T] (s : RwSys T) : (e : RwEvent T) → Decidable (s.StepOk e)
  | .step t => inferInstanceAs (Decidable (s.InitOk (s.pc t)))
  | .call .. | .wait .. | .timeout _ => inferInstanceAs (Decidable True)

/-- A thread is suspended on the condition of this side. -/
def Suspended (s : RwSys T) (side : RwSide) (t : T) : Prop := ((s.cond side).thread t).isWaiting

/-- A thread can go on in its operation without the help of a timer. -/
def Runnable (s : RwSys T) (t : T) : Prop := s.CanStep t (s.pc t) ∨ ∃ time, CanWait time (s.pc t)

/-- What holds in a state in which nobody is left behind: when nobody can go on, a suspended reader has a writer before
it, which has the lock or is suspended too, and a suspended writer has somebody with a lock before it. -/
def NotStranded (s : RwSys T) : Prop :=
  (∀ t, ¬ s.Runnable t) → (∀ t, s.Suspended .reader t → s.refcount < 0 ∨ ∃ u, s.Suspended .writer u) ∧
    ∀ t, s.Suspended .writer t → s.refcount ≠ 0

/-- No reader depends on being woken: nobody is suspended, and one thread at most is on its way, for which there is a
token. -/
structure ReadersCovered (s : RwSys T) : Prop where
  none : ∀ t, ¬ s.Suspended .reader t
  one : ∀ t u, (s.pc t).onWay .reader = true → (s.pc u).onWay .reader = true → t = u
  token : ∀ t, (s.pc t).onWay .reader = true → 0 < (s.cond .reader).value

/-- The condition on a step. An unlock that wakes the readers finds one at most that is on its way to be suspended; one
that signals the writers does not find the largest value of the counter of their semaphore; and the last waiting writer
does not give up while readers depend on being woken, and no writer has the lock. -/
def WakeOk (s : RwSys T) : RwPc → Prop
  | .wake =>
    (s.nwait .writer > 0 → s.refcount = 0 → ¬ (s.cond .writer).AtMax) ∧
      (¬ s.nwait .writer > 0 → s.nwait .reader > 0 →
        ∀ t u, (s.pc t).onWay .reader = true → (s.pc u).onWay .reader = true → t = u)
  | .leave .writer _ result => result ≠ .ok → s.nwait .writer = 1 → 0 ≤ s.refcount → s.ReadersCovered
  | _ => True

/-- The condition on a step. -/
def StepWakes (s : RwSys T) : RwEvent T → Prop
  | .step t => s.WakeOk (s.pc t)
  | .call .. | .wait .. | .timeout _ => True

section Decidable

variable [DecidableEq T] [Fintype T]

instance (s : RwSys T) (side : RwSide) (t : T) : Decidable (s.Suspended side t) :=
  inferInstanceAs (Decidable ((s.cond side).thread t).isWaiting)

instance (s : RwSys T) : Decidable s.ReadersCovered :=
  decidable_of_iff ((∀ t, ¬ s.Suspended .reader t) ∧
      (∀ t u, (s.pc t).onWay .reader = true → (s.pc u).onWay .reader = true → t = u) ∧
        ∀ t, (s.pc t).onWay .reader = true → 0 < (s.cond .reader).value)
    ⟨fun ⟨hnone, hone, htoken⟩ => ⟨hnone, hone, htoken⟩, fun h => ⟨h.none, h.one, h.token⟩⟩

instance (s : RwSys T) : (pc : RwPc) → Decidable (s.WakeOk pc)
  | .wake => inferInstanceAs (Decidable (
      (s.nwait .writer > 0 → s.refcount = 0 → ¬ (s.cond .writer).AtMax) ∧
        (¬ s.nwait .writer > 0 → s.nwait .reader > 0 →
          ∀ t u, (s.pc t).onWay .reader = true → (s.pc u).onWay .reader = true → t = u)))
  | .leave .writer _ result =>
    inferInstanceAs (Decidable (result ≠ .ok → s.nwait .writer = 1 → 0 ≤ s.refcount → s.ReadersCovered))
  | .leave .reader _ _ | .idle | .init .. | .locking _ | .test _ | .enter .. | .wait .. | .unlocked .. | .taking ..
  | .relocking .. | .acquire _ | .unlocking _ | .asserted => inferInstanceAs (Decidable True)

instance (s : RwSys T) : (e : RwEvent T) → Decidable (s.StepWakes e)
  | .step t => inferInstanceAs (Decidable (s.WakeOk (s.pc t)))
  | .call .. | .wait .. | .timeout _ => inferInstanceAs (Decidable True)

end Decidable

end RwSys

end CoreLink.RtThread
