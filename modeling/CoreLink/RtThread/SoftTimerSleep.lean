/-
# `CoreLink.RtThread.SoftTimerSleep` — how long the timer thread sleeps, `rt_thread_timer_entry` of `src/timer.c`.

The thread looks at the first soft timer and sleeps until its deadline. That there is no timer comes back as
`RT_TICK_MAX`, which is a deadline as well: a timer that is due at that tick is taken for none, and the thread suspends
itself.
-/
import CoreLink.RtThread.TimerOrder

namespace CoreLink.RtThread

open CoreLink.Lib

namespace Timers

variable {T : Type*} {c : TimerCfg} {s : Timers T} {q : Nat → TimerList → List T} {t : T} {ts : List T}

end Timers

end CoreLink.RtThread
