/-
# `CoreLink.RtThread.Workqueue` — the work queues, `components/drivers/src/workqueue.c`.

A work item is linked in the list of at most one queue; a delayed one also has a timer, and a pointer to the queue that it is
attached to. Each part of a function that runs with interrupts disabled is one step. The worker thread of a queue tests its
list, suspends itself, takes the first item and runs it in separate steps, as it holds no lock in between.

A timer is the ticks that it has been started with, if it is running. The creation of a queue and the function and the data
of an item are left out.
-/
import Mathlib.Data.Nat.Notation
import Mathlib.Logic.Function.Basic

namespace CoreLink.RtThread

/-! ## State -/

/-- What the functions return: `RT_EOK`, `-RT_EBUSY`, `-RT_EINVAL` and `-EINVAL`. -/
inductive WorkErr where
  | eok
  | ebusy
  | rtEinval
  | einval
  deriving DecidableEq, Repr

/-- `struct rt_work`: the two bits of `flags` and the one of `type`. The timer and the queue are those of
`struct rt_delayed_work`. -/
structure RtWork (Q : Type*) where
  pending : Bool
  submitting : Bool
  delayed : Bool
  timer : Option ℕ
  workqueue : Option Q
  deriving DecidableEq, Repr

/-- Where `_workqueue_thread_entry` stands: before the test of the list, before `rt_thread_suspend`, suspended, before the
first item is taken, in the function of the item, or before `_workqueue_work_completion`. -/
inductive WorkerAt where
  | test
  | suspend
  | suspended
  | take
  | work
  | completion
  deriving DecidableEq, Repr

/-- `struct rt_workqueue`. `waiting` are the items that `rt_workqueue_cancel_work_sync` waits for at `sem`, and `woken` those
that it has waited for. -/
structure RtWorkqueue (W : Type*) where
  workList : List W
  workCurrent : Option W
  worker : WorkerAt
  waiting : List W
  woken : List W
  deriving DecidableEq, Repr

/-- The work items and the queues. -/
structure Works (W Q : Type*) where
  work : W → RtWork Q
  queue : Q → RtWorkqueue W

namespace Works

variable {W Q : Type*} [DecidableEq W] [DecidableEq Q]

/-- Write to an item. -/
def modifyWork (s : Works W Q) (w : W) (f : RtWork Q → RtWork Q) : Works W Q :=
  { s with work := Function.update s.work w (f (s.work w)) }

/-- Write to a queue. -/
def modifyQueue (s : Works W Q) (q : Q) (f : RtWorkqueue W → RtWorkqueue W) : Works W Q :=
  { s with queue := Function.update s.queue q (f (s.queue q)) }

/-- `rt_list_remove(&(work->list))`, from whatever list it is in. -/
def listRemove (s : Works W Q) (w : W) : Works W Q :=
  { s with queue := fun q => { s.queue q with workList := (s.queue q).workList.erase w } }

/-- `rt_list_insert_after(queue->work_list.prev, &(work->list))`. -/
def listInsert (s : Works W Q) (q : Q) (w : W) : Works W Q :=
  s.modifyQueue q fun queue => { queue with workList := queue.workList ++ [w] }

/-- Set or clear `RT_WORK_STATE_PENDING`. -/
def setPending (s : Works W Q) (w : W) (pending : Bool) : Works W Q :=
  s.modifyWork w fun work => { work with pending := pending }

/-- `rt_thread_resume(queue->work_thread)`. -/
def resume (s : Works W Q) (q : Q) : Works W Q :=
  s.modifyQueue q fun queue => { queue with worker := if queue.worker = .suspended then .take else queue.worker }

/-! ## Plain items -/

/-- `_workqueue_submit_work`. -/
def submitWork (queue : Q) (work : W) (s : Works W Q) : WorkErr × Works W Q :=
  if (s.work work).pending then (.ebusy, s)
  else if (s.queue queue).workCurrent = some work then (.ebusy, s)
  else
    let s := (((s.listRemove work).listInsert queue work).setPending work true)
    if (s.queue queue).workCurrent = none then (.eok, s.resume queue) else (.eok, s)

/-- `_workqueue_cancel_work`. -/
def cancelWork (queue : Q) (work : W) (s : Works W Q) : WorkErr × Works W Q :=
  if (s.queue queue).workCurrent = some work then (.ebusy, s)
  else (.eok, (s.listRemove work).setPending work false)

/-- `rt_workqueue_dowork`. -/
def rtWorkqueueDowork (queue : Q) (work : W) (s : Works W Q) : WorkErr × Works W Q := submitWork queue work s

/-- `rt_workqueue_critical_work`. -/
def rtWorkqueueCriticalWork (queue : Q) (work : W) (s : Works W Q) : WorkErr × Works W Q :=
  if (s.queue queue).workCurrent = some work then (.ebusy, s)
  else
    let s := (s.listRemove work).listInsert queue work
    if (s.queue queue).workCurrent = none then (.eok, s.resume queue) else (.eok, s)

/-- `rt_workqueue_cancel_all_work`. -/
def rtWorkqueueCancelAllWork (queue : Q) (s : Works W Q) : Works W Q :=
  s.modifyQueue queue fun queue => { queue with workList := [] }

/-- `rt_workqueue_cancel_work_sync`, up to where it waits for the current item, or to its end. -/
def rtWorkqueueCancelWorkSync (queue : Q) (work : W) (s : Works W Q) : Works W Q :=
  if (s.queue queue).workCurrent = some work then
    s.modifyQueue queue fun queue => { queue with waiting := queue.waiting ++ [work] }
  else (s.listRemove work).setPending work false

/-- Its end, after it has waited. -/
def cancelWorkSyncEnd (queue : Q) (work : W) (s : Works W Q) : Works W Q :=
  (s.modifyQueue queue fun queue => { queue with woken := queue.woken.erase work }).setPending work false

/-! ## Delayed items -/

/-- `rt_timer_stop` and `rt_timer_detach`, with what is done with the flag. -/
def stopTimer (work : W) (s : Works W Q) : Works W Q :=
  s.modifyWork work fun work => { work with timer := none, submitting := false }

/-- Detach from the queue. -/
def detach (work : W) (s : Works W Q) : Works W Q :=
  s.modifyWork work fun work => { work with workqueue := none, pending := false }

/-- `_workqueue_cancel_delayed_work`, with `rt_workqueue_cancel_work`, which it calls. -/
def cancelDelayedWork (rtWorkqueueCancelWork : Q → W → Works W Q → Option (WorkErr × Works W Q)) (work : W) (s : Works W Q) :
    Option (WorkErr × Works W Q) :=
  match (s.work work).workqueue with
  | none => some (.einval, s)
  | some queue =>
    if (s.work work).pending then
      (rtWorkqueueCancelWork queue work s).map fun r => if r.1 = .eok then (.eok, detach work r.2) else r
    else some (.eok, detach work (if (s.work work).submitting then stopTimer work s else s))

/-- `rt_workqueue_cancel_work`; `fuel` bounds the depth of the calls. -/
def rtWorkqueueCancelWork : ℕ → Q → W → Works W Q → Option (WorkErr × Works W Q)
  | 0, _, _, _ => none
  | fuel + 1, queue, work, s =>
    if (s.work work).delayed then cancelDelayedWork (rtWorkqueueCancelWork fuel) work s
    else some (cancelWork queue work s)

/-- The second half of `_workqueue_submit_delayed_work`: the item is attached, and submitted or its timer started. -/
def attach (queue : Q) (work : W) (ticks : ℕ) (s : Works W Q) : Works W Q :=
  let s := s.modifyWork work fun work => { work with workqueue := some queue }
  if ticks = 0 then (submitWork queue work s).2
  else s.modifyWork work fun work => { work with submitting := true, timer := some ticks }

/-- `_workqueue_submit_delayed_work`; `fuel` bounds the depth of the calls of `rt_workqueue_cancel_work`. -/
def submitDelayedWork (fuel : ℕ) (queue : Q) (work : W) (ticks : ℕ) (s : Works W Q) : Option (WorkErr × Works W Q) :=
  match (s.work work).workqueue with
  | none => some (.eok, attach queue work ticks s)
  | some queue' =>
    if queue' ≠ queue then some (.rtEinval, s)
    else
      (cancelDelayedWork (rtWorkqueueCancelWork fuel) work s).map fun r =>
        if r.1 = .eok then (.eok, attach queue work ticks r.2) else r

/-- `rt_workqueue_submit_work`. -/
def rtWorkqueueSubmitWork (fuel : ℕ) (queue : Q) (work : W) (time : ℕ) (s : Works W Q) : Option (WorkErr × Works W Q) :=
  if (s.work work).delayed then submitDelayedWork fuel queue work time s
  else some (submitWork queue work s)

/-- `_delayed_work_timeout_handler`; an item that is attached to no queue makes it go through a null pointer. -/
def timeoutHandler (work : W) (s : Works W Q) : Option (Works W Q) :=
  let s := stopTimer work s
  (s.work work).workqueue.map fun queue => (submitWork queue work s).2

/-! ## The worker -/

/-- The next step of `_workqueue_thread_entry`. With an empty list, what is taken is the head of the list, which is no item;
a worker that is suspended or in the function of an item makes no step of its own. -/
def workerStep (queue : Q) (s : Works W Q) : Option (Works W Q) :=
  match (s.queue queue).worker with
  | .test => some (s.modifyQueue queue fun queue =>
      { queue with worker := if queue.workList = [] then .suspend else .take })
  | .suspend => some (s.modifyQueue queue fun queue => { queue with worker := .suspended })
  | .suspended => none
  | .take =>
    match (s.queue queue).workList with
    | [] => none
    | work :: _ =>
      some (((s.listRemove work).modifyQueue queue fun queue =>
        { queue with workCurrent := some work, worker := .work }).setPending work false)
  | .work => none
  | .completion => some (s.modifyQueue queue fun queue =>
      { queue with waiting := [], woken := queue.woken ++ queue.waiting, worker := .test })

/-- The function of the current item returns. -/
def workReturns (queue : Q) (s : Works W Q) : Option (Works W Q) :=
  if (s.queue queue).worker = .work then
    some (s.modifyQueue queue fun queue => { queue with workCurrent := none, worker := .completion })
  else none

end Works

end CoreLink.RtThread
