/-
# `CoreLink.RtThread.WorkqueueCancel` — when the cancellation of a delayed item ends.

`_workqueue_cancel_delayed_work` calls `rt_workqueue_cancel_work` for an item that is pending, and that calls it again, as the
item is a delayed one: nothing has changed in between (`cancel_pending`). In every other state both functions end. An item
that is linked without its flag, as `rt_workqueue_critical_work` leaves it, stays linked when it is cancelled.
-/
import CoreLink.RtThread.Workqueue

namespace CoreLink.RtThread.Works

variable {W Q : Type*} [DecidableEq W] [DecidableEq Q]

/-- An item is in the list of a queue. -/
def Linked (s : Works W Q) (w : W) : Prop := ∃ q, w ∈ (s.queue q).workList

/-- A run of a function ends. -/
def Ends (f : ℕ → Option (WorkErr × Works W Q)) : Prop := ∃ fuel r, f fuel = some r

/-- What is promised of a delayed item and a queue: a cancellation and a submission end, and after a cancellation that
succeeds the item is neither queued nor has a running timer. -/
structure CancelOk (s : Works W Q) (queue : Q) (work : W) : Prop where
  cancel_ends : Ends fun fuel => rtWorkqueueCancelWork fuel queue work s
  submit_ends : ∀ time, Ends fun fuel => rtWorkqueueSubmitWork fuel queue work time s
  cancelled : ∀ fuel s', rtWorkqueueCancelWork fuel queue work s = some (.eok, s') →
    ¬s'.Linked work ∧ (s'.work work).timer = none

variable {s : Works W Q} {queue queue' : Q} {work : W}

/-- An item that is not attached to a queue is refused. -/
theorem cancel_unattached (hdelayed : (s.work work).delayed = true) (h : (s.work work).workqueue = none) (fuel : ℕ) :
    rtWorkqueueCancelWork (fuel + 1) queue work s = some (.einval, s) := by
  rw [rtWorkqueueCancelWork, if_pos hdelayed, cancelDelayedWork, h]

/-- **A pending item**: the two functions call each other for ever. -/
theorem cancel_pending (hdelayed : (s.work work).delayed = true) (h : (s.work work).workqueue = some queue')
    (hpending : (s.work work).pending = true) (fuel : ℕ) : rtWorkqueueCancelWork fuel queue work s = none := by
  induction fuel generalizing queue with
  | zero => rfl
  | succ fuel ih =>
    rw [rtWorkqueueCancelWork, if_pos hdelayed, cancelDelayedWork, h]
    dsimp only
    rw [if_pos hpending, ih]
    rfl

/-- One that is not pending: its timer is stopped if the flag says that it is running. -/
theorem cancelDelayedWork_idle (h : (s.work work).workqueue = some queue') (hpending : (s.work work).pending = false)
    (cancel : Q → W → Works W Q → Option (WorkErr × Works W Q)) : cancelDelayedWork cancel work s =
      some (.eok, detach work (if (s.work work).submitting then stopTimer work s else s)) := by
  rw [cancelDelayedWork, h]
  dsimp only
  rw [hpending, if_neg Bool.false_ne_true]

/-- What is left of the timer and the lists after that. -/
theorem detached (s : Works W Q) (work : W) :
    let s' := detach work (if (s.work work).submitting then stopTimer work s else s)
    s'.queue = s.queue ∧ (s'.work work).timer = if (s.work work).submitting then none else (s.work work).timer := by
  intro s'
  unfold s' detach stopTimer modifyWork
  split <;> simp

/-- **A delayed item** can be cancelled and submitted again, exactly in these states. -/
theorem cancel_delayed_work (s : Works W Q) (queue : Q) (work : W) (h : (s.work work).delayed = true) :
    CancelOk s queue work ↔ (s.work work).workqueue = none ∨
      ((s.work work).pending = false ∧ ¬s.Linked work ∧
        ((s.work work).timer ≠ none → (s.work work).submitting = true)) := by
  cases hq : (s.work work).workqueue with
  | none =>
    refine iff_of_true ⟨⟨1, _, cancel_unattached h hq 0⟩, fun time => ⟨0, ?_⟩, fun fuel s' hs' => ?_⟩ (Or.inl rfl)
    · refine ⟨(.eok, attach queue work time s), ?_⟩
      show rtWorkqueueSubmitWork 0 queue work time s = _
      rw [rtWorkqueueSubmitWork, if_pos h, submitDelayedWork, hq]
    · cases fuel with
      | zero => exact nomatch hs'
      | succ fuel =>
        rw [cancel_unattached h hq] at hs'
        exact nomatch hs'
  | some queue' =>
    cases hpending : (s.work work).pending with
    | true =>
      refine iff_of_false (fun hok => ?_) (by simp)
      obtain ⟨fuel, r, hr⟩ := hok.cancel_ends
      exact nomatch (cancel_pending h hq hpending fuel).symm.trans hr
    | false =>
      obtain ⟨hlists, htimer⟩ := detached s work
      have hcancel : ∀ fuel, rtWorkqueueCancelWork (fuel + 1) queue work s =
          some (.eok, detach work (if (s.work work).submitting then stopTimer work s else s)) := by
        intro fuel
        rw [rtWorkqueueCancelWork, if_pos h]
        exact cancelDelayedWork_idle hq hpending _
      have hsubmit : ∀ time, Ends fun fuel => rtWorkqueueSubmitWork fuel queue work time s := by
        intro time
        have hdelayed : rtWorkqueueSubmitWork 0 queue work time s = submitDelayedWork 0 queue work time s := if_pos h
        refine ⟨0, ?_⟩
        dsimp only
        rw [hdelayed, submitDelayedWork, hq]
        dsimp only
        split
        next => exact ⟨_, rfl⟩
        next =>
          rw [cancelDelayedWork_idle hq hpending]
          exact ⟨_, rfl⟩
      have hlinked : (detach work (if (s.work work).submitting then stopTimer work s else s)).Linked work ↔
          s.Linked work := by
        unfold Linked
        rw [hlists]
      have hstopped : (if (s.work work).submitting then none else (s.work work).timer) = none ↔
          ((s.work work).timer ≠ none → (s.work work).submitting = true) := by
        cases (s.work work).submitting <;> simp
      constructor
      · intro hok
        obtain ⟨hnot, hnone⟩ := hok.cancelled 1 _ (hcancel 0)
        exact Or.inr ⟨rfl, hlinked.not.mp hnot, hstopped.mp (htimer.symm.trans hnone)⟩
      · rintro (hnone | ⟨-, hnot, hflag⟩)
        · exact nomatch hnone
        · refine ⟨⟨1, _, hcancel 0⟩, hsubmit, fun fuel s' hs' => ?_⟩
          cases fuel with
          | zero => exact nomatch hs'
          | succ fuel =>
            obtain ⟨-, rfl⟩ := Prod.mk.inj (Option.some.inj ((hcancel fuel).symm.trans hs'))
            exact ⟨hlinked.not.mpr hnot, htimer.trans (hstopped.mpr hflag)⟩

/-- A delayed item, its timer running, and a queue whose worker is suspended. -/
def delayedRunning : Works Unit Unit where
  work _ := ⟨false, true, true, some 5, some ()⟩
  queue _ := ⟨[], none, .suspended, [], []⟩

theorem cancel_delayed_work_running : CancelOk delayedRunning () () :=
  (cancel_delayed_work delayedRunning () () rfl).mpr (Or.inr ⟨rfl, fun ⟨_, hm⟩ => List.not_mem_nil hm, fun _ => rfl⟩)

/-- When the time has come and the item is queued, neither a cancellation nor a submission ends. -/
theorem cancel_delayed_work_queued : ∃ s, timeoutHandler () delayedRunning = some s ∧
    (∀ fuel, rtWorkqueueCancelWork fuel () () s = none) ∧ (∀ fuel time, rtWorkqueueSubmitWork fuel () () time s = none) ∧
    ¬CancelOk s () () := by
  obtain ⟨s, hhandler⟩ : ∃ s, timeoutHandler () delayedRunning = some s := ⟨_, rfl⟩
  refine ⟨s, hhandler, ?_⟩
  have hs : (submitWork () () (stopTimer () delayedRunning)).2 = s := Option.some.inj hhandler
  have hdelayed : (s.work ()).delayed = true := by rw [← hs]; rfl
  have hqueue : (s.work ()).workqueue = some () := by rw [← hs]; rfl
  have hpending : (s.work ()).pending = true := by rw [← hs]; rfl
  have hnone : ∀ fuel, rtWorkqueueCancelWork fuel () () s = none := cancel_pending hdelayed hqueue hpending
  refine ⟨hnone, fun fuel time => ?_, fun hok => ?_⟩
  · have hsubmit : rtWorkqueueSubmitWork fuel () () time s = submitDelayedWork fuel () () time s := if_pos hdelayed
    rw [hsubmit, submitDelayedWork, hqueue]
    dsimp only
    rw [if_neg (fun hne => hne rfl), cancelDelayedWork, hqueue]
    dsimp only
    rw [if_pos hpending, hnone]
    rfl
  · obtain ⟨fuel, r, hr⟩ := hok.cancel_ends
    exact nomatch (hnone fuel).symm.trans hr

end CoreLink.RtThread.Works
