/-
# `CoreLink.RtThread.PthreadCond` — the condition variable of `components/libc/pthreads/pthread_cond.c`.

A condition is a semaphore, the one of `Semaphore`, and nothing else: a thread that waits unlocks the mutex, takes the
semaphore and locks the mutex again, in three steps. A signal is a release. A broadcast releases the semaphore until a
take without waiting succeeds, so it wakes every thread on the suspend list and leaves the semaphore with a token; the
threads that have unlocked the mutex and not come to the semaphore do not count.

The mutex is one of the default type, which is not recursive: here it is its owner.
-/
import CoreLink.RtThread.Semaphore

namespace CoreLink.RtThread

open CoreLink.Lib

/-! ## The operations on the semaphore -/

namespace SemSys

variable {T : Type*} [DecidableEq T]

/-- `pthread_cond_signal`. -/
def pthreadCondSignal (s : SemSys T) : SemSys T := s.rtSemRelease

/-- The loop of `pthread_cond_broadcast`, run by `t` with the scheduler locked; `fuel` bounds the number of rounds. -/
def broadcastLoop (t : T) : Nat → SemSys T → SemSys T
  | 0, s => s
  | fuel + 1, s =>
    let tried := s.rtSemTake t 0 fun _ => 0
    if (tried.thread t).result = .etimeout then broadcastLoop t fuel tried.rtSemRelease else tried.rtSemRelease

/-- `pthread_cond_broadcast`. There is a round for each suspended thread and two more at most
(`broadcastLoop_spec`). -/
def pthreadCondBroadcast (s : SemSys T) (t : T) : SemSys T := broadcastLoop t (s.suspendThread.length + 2) s

end SemSys

/-! ## The system -/

/-- Where a thread is in its wait. -/
inductive CondPc where
  /-- in no wait -/
  | idle
  /-- after `pthread_mutex_unlock`, before `rt_sem_take` with this time limit -/
  | unlocked (time : Int)
  /-- in `rt_sem_take` -/
  | taking
  /-- before `pthread_mutex_lock` -/
  | relocking
  deriving DecidableEq

namespace CondPc

/-- The thread is between the mutex and the semaphore. -/
def isUnlocked : CondPc → Bool
  | unlocked _ => true
  | idle | taking | relocking => false

/-- It is there, and `rt_sem_take` will start no timer. -/
def isUnlockedForever : CondPc → Bool
  | unlocked time => time < 0
  | idle | taking | relocking => false

/-- The thread has released the mutex inside a wait. -/
def isInWait : CondPc → Bool
  | unlocked _ | taking | relocking => true
  | idle => false

/-- The thread, with this record at the semaphore, has come there in its last wait and has got no token: it is suspended,
or has been told that its time is over. -/
def isDenied (pc : CondPc) (th : SemThread) : Prop :=
  match pc with
  | unlocked _ => False
  | taking => ¬ th.HandedOver
  | relocking | idle => th.result ≠ .eok

end CondPc

/-- What can happen next: a thread locks or unlocks the mutex, begins a wait or goes on with one, a timer fires, or a
thread signals or broadcasts. -/
inductive CondEvent (T : Type*) where
  | lock (t : T)
  | unlock (t : T)
  | wait (t : T) (time : Int)
  | take (t : T)
  | continue (t : T)
  | timeout (t : T)
  | relock (t : T)
  | signal (t : T)
  | broadcast (t : T)

/-- `pthread_cond_t`, the mutex, and the threads. `round` is no variable of the source: it counts the waits of a thread. -/
structure CondSys (T : Type*) where
  sem : SemSys T
  owner : Option T
  pc : T → CondPc
  round : T → Nat

variable {T : Type*}

namespace CondSys

section Steps

variable [DecidableEq T]

def setPc (s : CondSys T) (t : T) (pc : CondPc) : CondSys T := { s with pc := Function.update s.pc t pc }

/-- `_pthread_cond_timedwait` up to where the mutex is unlocked; it fails if the thread does not own the mutex. -/
def wait (s : CondSys T) (t : T) (time : Int) : CondSys T :=
  if s.owner = some t then
    { s.setPc t (.unlocked time) with owner := none, round := Function.update s.round t (s.round t + 1) }
  else s

/-- `rt_sem_take` in a wait, to where the thread is suspended or the call has returned. -/
def take (s : CondSys T) (t : T) : CondSys T :=
  match s.pc t with
  | .unlocked time =>
    let sem := s.sem.rtSemTake t time fun _ => 0
    { s.setPc t (if (sem.thread t).pc = .idle then .relocking else .taking) with sem := sem }
  | .idle | .taking | .relocking => s

/-- That an event can happen in a state. -/
def Enabled (s : CondSys T) : CondEvent T → Prop
  | .lock t => s.pc t = .idle ∧ s.owner = none
  | .unlock t => s.pc t = .idle ∧ s.owner = some t
  | .wait t _ | .signal t | .broadcast t => s.pc t = .idle
  | .take t => (s.pc t).isUnlocked = true
  | .continue t => s.pc t = .taking ∧ s.sem.Enabled (.continue t)
  | .timeout t => s.pc t = .taking ∧ s.sem.Enabled (.timeout t)
  | .relock t => s.pc t = .relocking ∧ s.owner = none

instance (s : CondSys T) : (e : CondEvent T) → Decidable (s.Enabled e)
  | .lock t => inferInstanceAs (Decidable (s.pc t = .idle ∧ s.owner = none))
  | .unlock t => inferInstanceAs (Decidable (s.pc t = .idle ∧ s.owner = some t))
  | .wait t _ | .signal t | .broadcast t => inferInstanceAs (Decidable (s.pc t = .idle))
  | .take t => inferInstanceAs (Decidable ((s.pc t).isUnlocked = true))
  | .continue t => inferInstanceAs (Decidable (s.pc t = .taking ∧ s.sem.Enabled (.continue t)))
  | .timeout t => inferInstanceAs (Decidable (s.pc t = .taking ∧ s.sem.Enabled (.timeout t)))
  | .relock t => inferInstanceAs (Decidable (s.pc t = .relocking ∧ s.owner = none))

/-- The effect of an event. -/
def exec (s : CondSys T) : CondEvent T → CondSys T
  | .lock t => { s with owner := some t }
  | .unlock _ => { s with owner := none }
  | .wait t time => s.wait t time
  | .take t => s.take t
  | .continue t => { s.setPc t .relocking with sem := s.sem.exec (.continue t) }
  | .timeout t => { s with sem := s.sem.exec (.timeout t) }
  | .relock t => { s.setPc t .idle with owner := some t }
  | .signal _ => { s with sem := s.sem.pthreadCondSignal }
  | .broadcast t => { s with sem := s.sem.pthreadCondBroadcast t }

/-- One step of the system. -/
def Step (s : CondSys T) (e : CondEvent T) (s' : CondSys T) : Prop := s.Enabled e ∧ s' = s.exec e

/-- `pthread_cond_init`, with a mutex that nobody owns. -/
def init : CondSys T where
  sem := SemSys.init 0 .fifo
  owner := none
  pc _ := .idle
  round _ := 0

end Steps

/-! ## What is promised -/

/-- The event is no signal and no broadcast. -/
def Silent : CondEvent T → Prop
  | .signal _ | .broadcast _ => False
  | .lock _ | .unlock _ | .wait .. | .take _ | .continue _ | .timeout _ | .relock _ => True

/-- A thread is suspended without a time limit in the wait it was in when it had begun `round` waits: only a signal or a
broadcast can make it go on. -/
def Stuck (s : CondSys T) (t : T) (round : Nat) : Prop :=
  s.round t = round ∧ ∃ time, (s.sem.thread t).pc = .waiting time ∧ time < 0

/-- A thread has come to the semaphore in the wait it was in when it had begun `round` waits, and has got no token. -/
def Denied (s : CondSys T) (t : T) (round : Nat) : Prop := s.round t = round ∧ (s.pc t).isDenied (s.sem.thread t)

/-- A thread has released the mutex in a wait, and is on its way to the semaphore or suspended there. -/
def Awaits (s : CondSys T) (t : T) : Prop := (s.pc t).isUnlocked = true ∨ (s.sem.thread t).isWaiting

/-- What the condition promises of a step. Whatever happens after a broadcast, but for signals and broadcasts, no thread
that had released the mutex in a wait before it is stuck in that wait. After a signal not all of the threads that await
one are denied the token, if there are any. -/
def Kept [DecidableEq T] (s : CondSys T) (e : CondEvent T) (s' : CondSys T) : Prop :=
  match e with
  | .broadcast _ => ∀ ls s'', (∀ e' ∈ ls, Silent e') → Run Step s' ls s'' →
      ∀ t, (s.pc t).isInWait = true → ¬ s''.Stuck t (s.round t)
  | .signal _ => ∀ ls s'', (∀ e' ∈ ls, Silent e') → Run Step s' ls s'' →
      (∃ t, s.Awaits t) → ∃ t, s.Awaits t ∧ ¬ s''.Denied t (s.round t)
  | .lock _ | .unlock _ | .wait .. | .take _ | .continue _ | .timeout _ | .relock _ => True

/-- When it does. A broadcast comes while no thread without a time limit is between the mutex and the semaphore; a signal
comes while nobody is there, or somebody is suspended. -/
def StepOk (s : CondSys T) : CondEvent T → Prop
  | .broadcast _ => ∀ t, (s.pc t).isUnlockedForever = false
  | .signal _ => (∃ t, (s.pc t).isUnlocked = true) → ∃ t, (s.sem.thread t).isWaiting
  | .lock _ | .unlock _ | .wait .. | .take _ | .continue _ | .timeout _ | .relock _ => True

end CondSys

end CoreLink.RtThread
