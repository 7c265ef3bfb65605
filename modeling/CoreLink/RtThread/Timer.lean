/-
# `CoreLink.RtThread.Timer` — the software timers, `src/timer.c`.

A timer is linked into the rows of one of two skip lists: `rt_timer_list` for the hard timers, which `rt_timer_check`
serves from the tick interrupt, and `rt_soft_timer_list` for the soft ones, which the timer thread serves by
`rt_soft_timer_check`. The bottom row, the last one, holds every linked timer of a list. Ticks are 32-bit words and
wrap around.

`timeout_func` is code of the application: it is a parameter of `rtTimerCheck`, and any sequence of calls where
the check is a step relation. Each call is one step. The hooks, the log and the object container are left out, and
so is that `rt_timer_start` resumes the timer thread.
-/
import CoreLink.Lib.SkipList
import CoreLink.RtThread.Sched

namespace CoreLink.RtThread

open CoreLink.Lib

/-- `rt_tick_t`. -/
abbrev Tick := BitVec 32

/-- `RT_TICK_MAX / 2`. -/
def halfTickMax : Tick := 0xffffffff#32 / 2#32

/-- `rt_timer_list` and `rt_soft_timer_list`. -/
inductive TimerList where
  | hard
  | soft
  deriving DecidableEq, Repr

/-- The compile-time configuration: `RT_TIMER_SKIP_LIST_LEVEL`, which is at least one, `RT_TIMER_SKIP_LIST_MASK`, and
whether `RT_USING_TIMER_SOFT` and `RT_DEBUG` are defined. -/
structure TimerCfg where
  level : Nat
  level_pos : 0 < level
  mask : BitVec 32
  usingTimerSoft : Bool
  debug : Bool

/-- The configuration of `rtdef.h`, with soft timers and with the assertions on. -/
def timerCfg : TimerCfg := { level := 1, level_pos := by decide, mask := 3, usingTimerSoft := true, debug := true }

/-- `struct rt_timer` without its nodes and its callback. `activated`, `periodic` and `soft` are the bits
`RT_TIMER_FLAG_ACTIVATED`, `RT_TIMER_FLAG_PERIODIC` and `RT_TIMER_FLAG_SOFT_TIMER` of `parent.flag`. -/
structure Timer where
  initTick : Tick
  timeoutTick : Tick
  activated : Bool
  periodic : Bool
  soft : Bool

/-- What `_rt_timer_init` writes, besides the nodes. -/
def Timer.init (time : Tick) (periodic soft : Bool) : Timer :=
  { initTick := time, timeoutTick := 0, activated := false, periodic, soft }

/-- The variables of the module, with `rt_tick`. `row[i]` of every timer and list is in `rows i`. -/
structure Timers (T : Type*) where
  rows : Nat → Links (Node TimerList T)
  timer : T → Timer
  randomNr : BitVec 32
  tick : Tick

/-- The commands of `rt_timer_control`. -/
inductive TimerCmd where
  | getTime
  | setTime (time : Tick)
  | setOneshot
  | setPeriodic

namespace Timers

variable {T : Type*}

/-- After `rt_system_timer_init`, with every timer initialised and none started. -/
def init (tick : Tick) (randomNr : BitVec 32) (timer : T → Timer) : Timers T :=
  { rows := fun _ => Links.init, timer, randomNr, tick }

/-- The list that a timer is inserted into. -/
def listOf (c : TimerCfg) (s : Timers T) (t : T) : TimerList :=
  if c.usingTimerSoft && (s.timer t).soft then .soft else .hard

/-- The bottom row, which holds every linked timer. -/
def bottom (c : TimerCfg) (s : Timers T) : Links (Node TimerList T) := s.rows (c.level - 1)

/-- The timer is linked in its list. -/
def Linked (c : TimerCfg) (s : Timers T) (t : T) : Prop := (s.bottom c).OnList (s.listOf c t) t

/-- `(current_tick - t->timeout_tick) < RT_TICK_MAX / 2`. -/
def due (s : Timers T) (currentTick : Tick) (t : T) : Bool := currentTick - (s.timer t).timeoutTick < halfTickMax

/-- What makes the loop of `rt_timer_start` break in front of `t`. -/
def later (s : Timers T) (timer t : T) : Bool :=
  let d := (s.timer t).timeoutTick - (s.timer timer).timeoutTick
  d != 0 && d < halfTickMax

variable [DecidableEq T]

/-- Write to the record of `t`. -/
def modifyTimer (s : Timers T) (t : T) (f : Timer → Timer) : Timers T :=
  { s with timer := Function.update s.timer t (f (s.timer t)) }

/-- Set or clear `RT_TIMER_FLAG_ACTIVATED`. -/
def setActivated (s : Timers T) (t : T) (b : Bool) : Timers T :=
  s.modifyTimer t fun tm => { tm with activated := b }

/-- `_rt_timer_remove`. -/
def timerRemove (c : TimerCfg) (s : Timers T) (t : T) : Timers T :=
  { s with rows := fun r => if r < c.level then (s.rows r).remove (.item t) else s.rows r }

/-- `rt_list_insert_after(row_head[r], &(timer->row[r]))`. -/
def insertRow (s : Timers T) (rowHead : Nat → Node TimerList T) (t : T) (r : Nat) : Timers T :=
  { s with rows := Function.update s.rows r ((s.rows r).insertAfter (rowHead r) (.item t)) }

/-- The second loop of `rt_timer_start`, when the rows `r - 1`, ..., `0` are left. -/
def insertUpper (c : TimerCfg) (rowHead : Nat → Node TimerList T) (t : T) : Nat → BitVec 32 → Timers T → Timers T
  | 0, _, s => s
  | r + 1, tstNr, s =>
      if tstNr &&& c.mask = 0 then
        insertUpper c rowHead t r (tstNr >>> ((c.mask + 1) >>> 1)) (s.insertRow rowHead t r)
      else s

/-- `timer->timeout_tick = rt_tick_get() + timer->init_tick`. -/
def setTimeout (s : Timers T) (t : T) : Timers T :=
  s.modifyTimer t fun tm => { tm with timeoutTick := s.tick + tm.initTick }

variable [Fintype T]

/-- The first loop of `rt_timer_start`: `row_head`. It is `none` where the loop does not end, or runs into the head of
another list. -/
def rowHeads (c : TimerCfg) (s : Timers T) (t : T) : Option (Nat → Node TimerList T) :=
  let rowHead := search s.rows (s.listOf c t) (s.later t) (Fintype.card T + 1)
  (rowHead (c.level - 1)).map fun _ r => (rowHead r).getD (.head (s.listOf c t))

/-- From the insertion into the list on. -/
def linkTimer (c : TimerCfg) (s : Timers T) (t : T) (rowHead : Nat → Node TimerList T) : Timers T :=
  let s := { s with randomNr := s.randomNr + 1 }
  let s := s.insertRow rowHead t (c.level - 1)
  let s := insertUpper c rowHead t (c.level - 1) s.randomNr s
  s.setActivated t true

/-- `rt_timer_start`. It is `none` where the assertion on `init_tick` fails. -/
def rtTimerStart (c : TimerCfg) (s : Timers T) (t : T) : Option (Timers T) :=
  let s := (s.timerRemove c t).setActivated t false
  if c.debug && !decide ((s.timer t).initTick < halfTickMax) then none
  else
    let s := s.setTimeout t
    (s.rowHeads c t).map (s.linkTimer c t)

omit [Fintype T] in
/-- `rt_timer_stop`. -/
def rtTimerStop (c : TimerCfg) (s : Timers T) (t : T) : RtErr × Timers T :=
  if (s.timer t).activated then (.eok, (s.timerRemove c t).setActivated t false) else (.error, s)

omit [Fintype T] in
/-- `rt_timer_control`, with what `RT_TIMER_CTRL_GET_TIME` stores through `arg`. -/
def rtTimerControl (s : Timers T) (t : T) : TimerCmd → Option Tick × Timers T
  | .getTime => (some (s.timer t).initTick, s)
  | .setTime time => (none, s.modifyTimer t fun tm => { tm with initTick := time })
  | .setOneshot => (none, s.modifyTimer t fun tm => { tm with periodic := false })
  | .setPeriodic => (none, s.modifyTimer t fun tm => { tm with periodic := true })

/-! ## What the two checks have in common -/

omit [DecidableEq T] [Fintype T] in
/-- The first timer of the bottom row, where the list is not empty. -/
def firstTimer (c : TimerCfg) (s : Timers T) (l : TimerList) : Option T :=
  match (s.bottom c).next (.head l) with
  | .item t => some t
  | .head _ => none

/-- After the callback: a periodic timer that is still activated is started again, any other has its flag
cleared. -/
def rearm (c : TimerCfg) (s : Timers T) (t : T) : Option (Timers T) :=
  if (s.timer t).periodic && (s.timer t).activated then (s.setActivated t false).rtTimerStart c t
  else some (s.setActivated t false)

/-- The loop of `rt_timer_check`, with the timers whose callbacks were called. `none` is that `fuel` passes are not
enough, or that a call in it does not return. -/
def checkLoop (c : TimerCfg) (timeoutFunc : T → Timers T → Option (Timers T)) :
    Nat → Tick → Timers T → Option (List T × Timers T)
  | 0, _, _ => none
  | fuel + 1, currentTick, s =>
      match s.firstTimer c .hard with
      | none => some ([], s)
      | some t =>
          if s.due currentTick t then
            (timeoutFunc t (s.timerRemove c t)).bind fun s =>
              (s.rearm c t).bind fun s' =>
                (checkLoop c timeoutFunc fuel s.tick s').map fun (fired, s'') => (t :: fired, s'')
          else some ([], s)

/-- `rt_timer_check`. -/
def rtTimerCheck (c : TimerCfg) (timeoutFunc : T → Timers T → Option (Timers T)) (fuel : Nat) (s : Timers T) :
    Option (List T × Timers T) :=
  checkLoop c timeoutFunc fuel s.tick s

end Timers

end CoreLink.RtThread
