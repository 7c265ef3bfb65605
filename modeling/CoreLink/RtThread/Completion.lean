/-
# `CoreLink.RtThread.Completion` — the completion of `components/drivers/src/completion.c`, and who observes a done.

`rt_completion_done` looks at the flag before it disables the interrupts, so it is two steps. `rt_completion_wait` is one
critical section if the flag is set or its time limit is 0; if not, it ends with the thread suspended, and has a second
one after the thread has been woken: there it clears the flag, whatever `thread->error` says. `RT_ASSERT`, that nobody
else is suspended when a thread is to wait, is a condition of the step.

What is observed are the dones that find the completion uncompleted, and the waits that return `RT_EOK`. For a run in
which the two sides agree whenever one of them moves the flag (`CompSys.StepOk`), `completion_sound` says that each such
done is observed by one wait; `completion_lost` is a run with a done between the timeout of a waiter and its next step.
-/
import CoreLink.Lib.Fifo
import CoreLink.RtThread.Mq

namespace CoreLink.RtThread

open CoreLink.Lib

/-! ## The source -/

/-- Where a thread, or an interrupt, is in its call. -/
inductive CompPc where
  /-- in none of the calls -/
  | idle
  /-- in `rt_completion_wait`; suspended -/
  | waiting (timeout : Int)
  /-- in `rt_completion_wait`; on a ready list again, before `thread->error` is read -/
  | woken
  /-- in `rt_completion_done`, which has found the flag not set, before the interrupts are disabled -/
  | doing
  deriving DecidableEq

/-- The time limit of a thread that is suspended. -/
def CompPc.timeLimit : CompPc → Option Int
  | .waiting timeout => some timeout
  | .idle | .woken | .doing => none

/-- What can happen next: a call begins, a call goes on, or the timer of a suspended thread fires. -/
inductive CompEvent (T : Type*) where
  | wait (t : T) (timeout : Int)
  | done (t : T)
  | continue (t : T)
  | timeout (t : T)

/-- The thread of an event. -/
def CompEvent.thread {T : Type*} : CompEvent T → T
  | .wait t _ | .done t | .continue t | .timeout t => t

/-- `struct rt_completion`, and the threads and interrupts that use it; `flag` is that it is `RT_COMPLETED`. `result` is
what a thread's last wait returned. -/
structure CompSys (T : Type*) where
  flag : Bool
  suspendedList : List T
  pc : T → CompPc
  error : T → RtErr
  result : T → RtErr

variable {T : Type*}

namespace CompSys

section Steps

variable [DecidableEq T]

def setPc (s : CompSys T) (t : T) (pc : CompPc) : CompSys T := { s with pc := Function.update s.pc t pc }

def setError (s : CompSys T) (t : T) (e : RtErr) : CompSys T := { s with error := Function.update s.error t e }

/-- The wait of `t` returns `e`. -/
def ret (s : CompSys T) (t : T) (e : RtErr) : CompSys T :=
  { s.setPc t .idle with result := Function.update s.result t e }

/-- `rt_thread_resume`, and the end of `rt_thread_timeout`: the thread goes from the list to a ready list. -/
def wake (s : CompSys T) (t : T) : CompSys T :=
  { s.setPc t .woken with suspendedList := s.suspendedList.erase t }

/-- `rt_completion_wait`, to where the thread is suspended or the call has its result. -/
def rtCompletionWait (s : CompSys T) (t : T) (timeout : Int) : CompSys T :=
  if s.flag = false then
    if timeout = 0 then s.ret t .etimeout
    else { s.setError t .eok with suspendedList := s.suspendedList ++ [t] }.setPc t (.waiting timeout)
  else { s with flag := false }.ret t .eok

/-- `rt_completion_wait` after `rt_schedule`. -/
def waitWoken (s : CompSys T) (t : T) : CompSys T := { s with flag := false }.ret t (s.error t)

/-- `rt_completion_done` up to the place where it disables the interrupts. -/
def rtCompletionDone (s : CompSys T) (t : T) : CompSys T := if s.flag = true then s else s.setPc t .doing

/-- The rest of `rt_completion_done`. -/
def doneDoing (s : CompSys T) (t : T) : CompSys T :=
  match s.suspendedList with
  | [] => { s with flag := true }.setPc t .idle
  | u :: _ => ({ s with flag := true }.wake u).setPc t .idle

/-- The next step of a call. -/
def continueCall (s : CompSys T) (t : T) : CompSys T :=
  match s.pc t with
  | .woken => s.waitWoken t
  | .doing => s.doneDoing t
  | .idle | .waiting _ => s

/-- That an event can happen in a state. Only one thread can be suspended on the completion. -/
def Enabled (s : CompSys T) : CompEvent T → Prop
  | .wait t _ => s.pc t = .idle ∧ (s.flag = false → s.suspendedList = [])
  | .done t => s.pc t = .idle
  | .continue t => s.pc t = .woken ∨ s.pc t = .doing
  | .timeout t => (s.pc t).timeLimit.any (0 < ·)

instance (s : CompSys T) : (e : CompEvent T) → Decidable (s.Enabled e)
  | .wait t _ => inferInstanceAs (Decidable (s.pc t = .idle ∧ (s.flag = false → s.suspendedList = [])))
  | .done t => inferInstanceAs (Decidable (s.pc t = .idle))
  | .continue t => inferInstanceAs (Decidable (s.pc t = .woken ∨ s.pc t = .doing))
  | .timeout _ => inferInstanceAs (Decidable (_ = true))

/-- The effect of an event. -/
def exec (s : CompSys T) : CompEvent T → CompSys T
  | .wait t timeout => s.rtCompletionWait t timeout
  | .done t => s.rtCompletionDone t
  | .continue t => s.continueCall t
  | .timeout t => (s.setError t .etimeout).wake t

/-- One step of the system. -/
def Step (s : CompSys T) (e : CompEvent T) (s' : CompSys T) : Prop := s.Enabled e ∧ s' = s.exec e

end Steps

/-- `rt_completion_init`, with nobody in a call. -/
def rtCompletionInit : CompSys T where
  flag := false
  suspendedList := []
  pc _ := .idle
  error _ := .eok
  result _ := .eok

/-! ## Observations -/

/-- Which side of the completion the next step of an event is on, if it decides about a result. -/
inductive Side where
  /-- a thread gets `RT_EOK` from its wait -/
  | wait
  /-- a thread gets an error from its wait, after it has been suspended -/
  | fail
  /-- a call of `rt_completion_done` that has found the flag not set comes to set it -/
  | done
  /-- nothing of the kind -/
  | none
  deriving DecidableEq

namespace Side

/-- What is observed. -/
def observed : Side → List (FifoEvent Unit)
  | wait => [.get ()]
  | done => [.put ()]
  | fail | none => []

/-- The flag that the side needs to find. -/
def Ok (flag : Bool) : Side → Prop
  | wait => flag = true
  | fail | done => flag = false
  | none => True

instance (flag : Bool) : (side : Side) → Decidable (side.Ok flag)
  | wait => inferInstanceAs (Decidable (flag = true))
  | fail | done => inferInstanceAs (Decidable (flag = false))
  | none => inferInstanceAs (Decidable True)

/-- The flag that the side leaves. -/
def flagAfter (flag : Bool) : Side → Bool
  | wait | fail => false
  | done => true
  | none => flag

end Side

/-- The side of an event. -/
def side (s : CompSys T) : CompEvent T → Side
  | .wait .. => if s.flag = false then .none else .wait
  | .continue t =>
      match s.pc t with
      | .woken => if s.error t = .eok then .wait else .fail
      | .doing => .done
      | .idle | .waiting _ => .none
  | .done _ | .timeout _ => .none

/-- What is observed of a step: a done, or a wait that returns `RT_EOK`. -/
def observe (s : CompSys T) (e : CompEvent T) (_ : CompSys T) : List (FifoEvent Unit) := (s.side e).observed

/-- A step together with what is observed of it. -/
def ObservedStep [DecidableEq T] (s : CompSys T) (l : CompEvent T × List (FifoEvent Unit)) (s' : CompSys T) : Prop :=
  s.Step l.1 s' ∧ l.2 = s.observe l.1 s'

/-- A thread that gets `RT_EOK` finds the flag set, one that gets an error does not, and a done that has found the flag
not set still does when it sets it. -/
def StepOk (s : CompSys T) (e : CompEvent T) : Prop := (s.side e).Ok s.flag

instance (s : CompSys T) (e : CompEvent T) : Decidable (s.StepOk e) := inferInstanceAs (Decidable (Side.Ok _ _))

/-- The dones that have not been observed, by the flag. -/
def completions (flag : Bool) : List Unit := if flag = true then [()] else []

/-! ## Steps -/

variable [DecidableEq T] {s s' : CompSys T} {e : CompEvent T}

/-- **What a step does to the flag**, by the side it is on. -/
theorem step_flag (h : s.Step e s') : s'.flag = (s.side e).flagAfter s.flag := by
  obtain ⟨-, rfl⟩ := h
  cases e with
  | wait t timeout =>
    simp only [exec, rtCompletionWait, side]
    by_cases hf : s.flag = false
    · rw [if_pos hf, if_pos hf]
      split <;> rfl
    · rw [if_neg hf, if_neg hf]
      rfl
  | done t =>
    simp only [exec, rtCompletionDone, side]
    split <;> rfl
  | «continue» t =>
    simp only [exec, continueCall, side]
    cases hpc : s.pc t with
    | idle | waiting => rfl
    | woken =>
      simp only [waitWoken, ret, setPc]
      split <;> rfl
    | doing =>
      simp only [doneDoing]
      cases s.suspendedList <;> rfl
  | timeout t => rfl

/-- A call that returns on the side of the waiters returns what it has been decided to return. -/
theorem step_result (h : s.Step e s') : (s.side e = .wait → s'.result e.thread = .eok) ∧
    (s.side e = .fail → s'.result e.thread ≠ .eok) := by
  obtain ⟨-, rfl⟩ := h
  cases e with
  | wait t timeout =>
    simp only [exec, rtCompletionWait, side]
    by_cases hf : s.flag = false
    · rw [if_pos hf]
      exact ⟨nofun, nofun⟩
    · rw [if_neg hf, if_neg hf]
      exact ⟨fun _ => Function.update_self .., nofun⟩
  | done t => exact ⟨nofun, nofun⟩
  | «continue» t =>
    simp only [exec, continueCall, side, CompEvent.thread]
    cases hpc : s.pc t with
    | idle | waiting | doing => exact ⟨nofun, nofun⟩
    | woken =>
      have hres : (s.waitWoken t).result t = s.error t := Function.update_self ..
      dsimp only
      rw [hres]
      by_cases he : s.error t = .eok
      · rw [if_pos he]
        exact ⟨fun _ => he, nofun⟩
      · rw [if_neg he]
        exact ⟨nofun, fun _ => he⟩
  | timeout t => exact ⟨nofun, nofun⟩

omit [DecidableEq T] in
/-- A side is a step of a queue of one completion, as observed, exactly if it finds the flag that it needs. -/
theorem Side.run_iff (side : Side) (flag : Bool) :
    Run (Fifo.Step 1) (completions flag) side.observed (completions (side.flagAfter flag)) ↔ side.Ok flag := by
  constructor
  · intro h
    cases flag with
    | false =>
      cases side with
      | wait => exact absurd h.of_single (by rintro ⟨⟩)
      | fail | done => rfl
      | none => trivial
    | true =>
      cases side with
      | wait => rfl
      | fail => exact absurd h.eq_of_nil (List.cons_ne_nil _ _).symm
      | done => cases h.of_single
      | none => trivial
  · intro h
    cases side with
    | wait =>
      obtain rfl : flag = true := h
      exact .single .get
    | fail =>
      obtain rfl : flag = false := h
      exact .nil
    | done =>
      obtain rfl : flag = false := h
      have hput : Fifo.Step 1 [] (.put ()) [()] := .put Nat.zero_lt_one
      exact .single hput
    | none => exact .nil

/-! ## Runs -/

/-- **Each done is observed by one wait, as long as the two sides agree.** In a run whose steps all meet the condition,
the dones that find the completion uncompleted and the waits that return `RT_EOK` are a run of a queue of one
completion: in number, the ones are the others and the one that the flag stands for. A call that takes the completion
away returns `RT_EOK`. And the next step is one of that queue exactly if it meets the condition, too. -/
theorem completion_sound {ls : List (CompEvent T × List (FifoEvent Unit))}
    (hrun : Run (Guarded (fun s l => s.StepOk l.1) ObservedStep) rtCompletionInit ls s) :
    Run (Fifo.Step 1) [] (ls.flatMap Prod.snd) (completions s.flag) ∧
      (Fifo.puts (ls.flatMap Prod.snd)).length =
        (Fifo.gets (ls.flatMap Prod.snd)).length + (if s.flag = true then 1 else 0) ∧
      ∀ l s', s.ObservedStep l s' →
        (Run (Fifo.Step 1) (completions s.flag) l.2 (completions s'.flag) ↔ s.StepOk l.1) ∧
          (s.StepOk l.1 → s.flag = true → s'.flag = false → s'.result l.1.thread = .eok) := by
  have hsim : ∃ xs, Run (Fifo.Step 1) [] (ls.flatMap Prod.snd) xs ∧ xs = completions s.flag := by
    apply hrun.simulate Prod.snd (R := fun s xs => xs = completions s.flag) rfl
    intro s l s' xs hxs ⟨hok, hstep, hobs⟩
    subst hxs
    have hside := (Side.run_iff (s.side l.1) s.flag).mpr hok
    rw [← step_flag hstep] at hside
    exact ⟨_, hobs ▸ hside, rfl⟩
  obtain ⟨xs, hfifo, rfl⟩ := hsim
  refine ⟨hfifo, ?_, ?_⟩
  · have hcount := congrArg List.length (Fifo.run_puts hfifo).1
    rw [hcount, List.length_append]
    cases s.flag <;> rfl
  · intro l s' ⟨hstep, hobs⟩
    constructor
    · rw [hobs, step_flag hstep]
      exact Side.run_iff _ _
    · intro hok hset hcleared
      apply (step_result hstep).1
      rw [step_flag hstep] at hcleared
      unfold StepOk at hok
      rw [hset] at hok hcleared
      cases hside : s.side l.1 with
      | wait => rfl
      | fail | done =>
        rw [hside] at hok
        exact absurd hok Bool.noConfusion
      | none =>
        rw [hside] at hcleared
        exact absurd hcleared Bool.noConfusion

/-- A thread waits without a limit; an interrupt comes with a done, and the thread is woken and gets it. A second done
then waits for the next wait. -/
theorem completion_sound_run : ∃ (ls : List (CompEvent Nat × List (FifoEvent Unit))) (s : CompSys Nat),
    s.result 0 = .eok ∧ s.flag = true ∧ Run (Fifo.Step 1) [] (ls.flatMap Prod.snd) (completions s.flag) ∧
      (Fifo.puts (ls.flatMap Prod.snd)).length =
        (Fifo.gets (ls.flatMap Prod.snd)).length + (if s.flag = true then 1 else 0) ∧
      ∀ l s', s.ObservedStep l s' →
        (Run (Fifo.Step 1) (completions s.flag) l.2 (completions s'.flag) ↔ s.StepOk l.1) ∧
          (s.StepOk l.1 → s.flag = true → s'.flag = false → s'.result l.1.thread = .eok) := by
  have hexec : ((([.wait 0 (-1), .done 1, .continue 1, .continue 0, .done 1, .continue 1] :
      List (CompEvent Nat)).foldlM (fun s e => if StepOk s e then Run.tryStep Enabled exec s e else none)
        rtCompletionInit).map fun s => (s.result 0, s.flag)) = some (.eok, true) := by decide +kernel
  obtain ⟨s, hs, hobs⟩ := Option.map_eq_some_iff.mp hexec
  obtain ⟨ls, -, hrun⟩ := Run.observed_guarded_of_foldlM_tryStep observe hs
  exact ⟨ls, s, congrArg Prod.fst hobs, congrArg Prod.snd hobs, completion_sound hrun⟩

/-- **A done that is lost.** A thread waits with a limit, which passes; before the thread goes on, a done comes. The
thread takes the completion away and returns `-RT_ETIMEOUT`, and another done comes without a wait in between that has
returned `RT_EOK`. -/
theorem completion_lost : ¬ ∀ (ls : List (CompEvent Nat × List (FifoEvent Unit))) (s : CompSys Nat),
    Run ObservedStep rtCompletionInit ls s → ∃ xs, Run (Fifo.Step 1) [] (ls.flatMap Prod.snd) xs := by
  intro hall
  have htrace : (Run.trace Enabled exec observe rtCompletionInit
      ([.wait 0 5, .timeout 0, .done 1, .continue 1, .continue 0, .done 1, .continue 1] : List (CompEvent Nat))).map
        (fun ls => ((Fifo.puts (ls.flatMap Prod.snd)).length, (Fifo.gets (ls.flatMap Prod.snd)).length)) =
          some (2, 0) := by decide +kernel
  obtain ⟨ls, hls, hobs⟩ := Option.map_eq_some_iff.mp htrace
  obtain ⟨s, hrun⟩ := Run.of_trace hls
  obtain ⟨xs, hfifo⟩ := hall ls s hrun
  obtain ⟨heq, hle⟩ := Fifo.run_puts hfifo
  have hcount := congrArg List.length heq
  have hputs : (Fifo.puts (ls.flatMap Prod.snd)).length = 2 := congrArg Prod.fst hobs
  have hgets : (Fifo.gets (ls.flatMap Prod.snd)).length = 0 := congrArg Prod.snd hobs
  rw [List.length_append, hputs, hgets] at hcount
  omega

end CompSys

end CoreLink.RtThread
