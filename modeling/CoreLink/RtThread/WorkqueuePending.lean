/-
# `CoreLink.RtThread.WorkqueuePending` — the pending flag of plain items, and the lists.

Submission, cancellation and the worker change the flag together with the link. `rt_workqueue_critical_work` links an item without
the flag, `rt_workqueue_cancel_all_work` unlinks items with it, and `rt_workqueue_cancel_work_sync` clears it after a wait, when the
item may have been submitted again.
-/
import CoreLink.Lib.Run
import CoreLink.RtThread.WorkqueueCancel
import Mathlib.Data.List.Nodup

namespace CoreLink.RtThread.Works

open CoreLink.Lib

variable {W Q : Type*}

/-- What is done with plain items and queues. -/
inductive WorkEvent (W Q : Type*)
  | submit (queue : Q) (work : W)
  | critical (queue : Q) (work : W)
  | cancel (queue : Q) (work : W)
  | cancelSync (queue : Q) (work : W)
  /-- `rt_workqueue_cancel_work_sync` goes on after its wait -/
  | cancelSyncEnd (queue : Q) (work : W)
  | cancelAll (queue : Q)
  /-- the next step of the worker -/
  | worker (queue : Q)
  | workReturns (queue : Q)

/-- Items that are not pending, and queues without any. -/
def init : Works W Q := ⟨fun _ => ⟨false, false, false, none, none⟩, fun _ => ⟨[], none, .test, [], []⟩⟩

/-- The flag is set exactly in the items that are in a list, each once. -/
structure PendingOk (s : Works W Q) : Prop where
  nodup : ∀ q, (s.queue q).workList.Nodup
  pending_iff : ∀ w, (s.work w).pending = true ↔ s.Linked w

/-- `rt_workqueue_critical_work` is called for items that are pending, `rt_workqueue_cancel_all_work` for empty queues, and an item
whose end is waited for is not submitted before the wait ends. -/
def FlagKept (s : Works W Q) : WorkEvent W Q → Prop
  | .critical q w => (s.queue q).workCurrent = some w ∨ (s.work w).pending = true
  | .cancelSyncEnd _ w => (s.work w).pending = false
  | .cancelAll q => (s.queue q).workList = []
  | _ => True

theorem PendingOk.of_same {s s' : Works W Q} (h : s.PendingOk) (hwork : ∀ w, (s'.work w).pending = (s.work w).pending)
    (hqueue : ∀ q, (s'.queue q).workList = (s.queue q).workList) : s'.PendingOk :=
  ⟨fun q => hqueue q ▸ h.nodup q, fun w => by rw [hwork, h.pending_iff]; simp only [Linked, hqueue]⟩

variable [DecidableEq W] [DecidableEq Q]

/-- A step; the worker makes none on a queue in whose empty list it would take the first item. -/
def exec (s : Works W Q) : WorkEvent W Q → Option (Works W Q)
  | .submit q w => some (rtWorkqueueDowork q w s).2
  | .critical q w => some (rtWorkqueueCriticalWork q w s).2
  | .cancel q w => some (cancelWork q w s).2
  | .cancelSync q w => some (rtWorkqueueCancelWorkSync q w s)
  | .cancelSyncEnd q w => if w ∈ (s.queue q).woken then some (cancelWorkSyncEnd q w s) else none
  | .cancelAll q => some (rtWorkqueueCancelAllWork q s)
  | .worker q => workerStep q s
  | .workReturns q => workReturns q s

namespace PendingOk

variable {s : Works W Q} {q : Q} {w : W} (h : s.PendingOk)
include h

omit [DecidableEq W] in
/-- The list of a queue is not touched. -/
theorem modifyQueue {f : RtWorkqueue W → RtWorkqueue W} (hf : (f (s.queue q)).workList = (s.queue q).workList) :
    (s.modifyQueue q f).PendingOk := by
  refine h.of_same (fun _ => rfl) fun q' => ?_
  show (Function.update s.queue q _ q').workList = _
  by_cases hq : q' = q
  · rw [hq, Function.update_self, hf]
  · rw [Function.update_of_ne hq]

omit [DecidableEq Q] in
/-- An item off all lists, with the flag cleared. -/
theorem unlinked : ((s.listRemove w).setPending w false).PendingOk := by
  refine ⟨fun q' => (h.nodup q').erase w, fun v => ?_⟩
  show (Function.update s.work w _ v).pending = true ↔ ∃ q', v ∈ (s.queue q').workList.erase w
  simp only [(h.nodup _).mem_erase_iff]
  by_cases hv : v = w
  · simp [hv]
  · simpa [hv, Linked] using h.pending_iff v

/-- An item at the end of a list, with the flag set. -/
theorem linked : (((s.listRemove w).listInsert q w).setPending w true).PendingOk := by
  have hlist : ∀ q', (((s.listRemove w).listInsert q w).queue q').workList =
      (s.queue q').workList.erase w ++ if q' = q then [w] else [] := by
    intro q'
    show (Function.update (s.listRemove w).queue q _ q').workList = _
    by_cases hq : q' = q <;> simp [hq, listRemove]
  refine ⟨fun q' => ?_, fun v => ?_⟩
  · show (((s.listRemove w).listInsert q w).queue q').workList.Nodup
    have hnot : w ∉ (s.queue q').workList.erase w := (h.nodup q').not_mem_erase
    rw [hlist]
    split
    · exact (List.perm_append_singleton w _).nodup_iff.mpr (List.nodup_cons.mpr ⟨hnot, (h.nodup q').erase w⟩)
    · simpa using (h.nodup q').erase w
  · show (Function.update s.work w _ v).pending = true ↔ ∃ q', v ∈ (((s.listRemove w).listInsert q w).queue q').workList
    simp only [hlist, List.mem_append, (h.nodup _).mem_erase_iff]
    by_cases hv : v = w
    · subst hv
      rw [Function.update_self]
      exact iff_of_true rfl ⟨q, .inr (by simp)⟩
    · rw [Function.update_of_ne hv, h.pending_iff v]
      refine exists_congr fun q' => ?_
      split <;> simp [hv]

omit [DecidableEq W] in
theorem resume : (s.resume q).PendingOk := h.modifyQueue rfl

/-- **A step** keeps the flags and the lists together. -/
theorem step {s' : Works W Q} {e : WorkEvent W Q} (hkept : s.FlagKept e) (hstep : s.exec e = some s') : s'.PendingOk := by
  have hflag : ∀ {w b}, (s.work w).pending = b →
      ∀ v, (Function.update s.work w { s.work w with pending := b } v).pending = (s.work v).pending := by
    rintro w b rfl v
    rw [Function.update_eq_self]
  cases e with
  | submit q w =>
    obtain rfl := Option.some.inj hstep
    unfold rtWorkqueueDowork submitWork
    split
    · exact h
    · split
      · exact h
      · dsimp only
        split
        · exact h.linked.resume
        · exact h.linked
  | critical q w =>
    obtain rfl := Option.some.inj hstep
    unfold rtWorkqueueCriticalWork
    split
    · exact h
    next hcurrent =>
      have hlinked : ((s.listRemove w).listInsert q w).PendingOk :=
        h.linked.of_same (fun v => (hflag (hkept.resolve_left hcurrent) v).symm) fun _ => rfl
      dsimp only
      split
      · exact hlinked.resume
      · exact hlinked
  | cancel q w =>
    obtain rfl := Option.some.inj hstep
    unfold cancelWork
    split
    · exact h
    · exact h.unlinked
  | cancelSync q w =>
    obtain rfl := Option.some.inj hstep
    unfold rtWorkqueueCancelWorkSync
    split
    · exact h.modifyQueue rfl
    · exact h.unlinked
  | cancelSyncEnd q w =>
    obtain ⟨-, hs⟩ := Option.ite_none_right_eq_some.mp hstep
    obtain rfl := Option.some.inj hs
    have hwoken := h.modifyQueue (q := q) (f := fun queue => { queue with woken := queue.woken.erase w }) rfl
    exact hwoken.of_same (hflag hkept) fun _ => rfl
  | cancelAll q =>
    obtain rfl := Option.some.inj hstep
    exact h.modifyQueue hkept.symm
  | worker q =>
    dsimp only [exec, workerStep] at hstep
    split at hstep
    case h_4 =>
      split at hstep
      · cases hstep
      next w rest hlist =>
        obtain rfl := Option.some.inj hstep
        let f (queue : RtWorkqueue W) : RtWorkqueue W := { queue with workCurrent := some w, worker := .work }
        exact h.unlinked.modifyQueue (f := f) rfl
    all_goals
      cases hstep
      try exact h.modifyQueue rfl
  | workReturns q =>
    obtain ⟨-, hs⟩ := Option.ite_none_right_eq_some.mp hstep
    obtain rfl := Option.some.inj hs
    exact h.modifyQueue rfl

end PendingOk

/-- **The flag says what is queued** in every run that keeps it; so an item that is neither queued nor running can be submitted. -/
theorem pending_iff_linked {es : List (WorkEvent W Q)} {s : Works W Q}
    (hrun : Run (Guarded FlagKept fun s e s' => s.exec e = some s') init es s) (w : W) :
    ((s.work w).pending = true ↔ s.Linked w) ∧
      ∀ q, ¬ s.Linked w → (s.queue q).workCurrent ≠ some w → (rtWorkqueueDowork q w s).1 = .eok := by
  have hinit : (init : Works W Q).PendingOk :=
    ⟨fun _ => List.nodup_nil, fun _ => iff_of_false Bool.false_ne_true fun ⟨_, hw⟩ => absurd hw List.not_mem_nil⟩
  have h := hrun.guarded hinit fun _ _ _ h => h.step
  refine ⟨h.pending_iff w, fun q hnot hcurrent => ?_⟩
  unfold rtWorkqueueDowork submitWork
  rw [if_neg (mt (h.pending_iff w).mp hnot), if_neg hcurrent]
  dsimp only
  split <;> rfl

/-- One item is submitted and cancelled. -/
theorem pending_iff_linked_two : ∃ s : Works Unit Unit,
    Run (Guarded FlagKept fun s e s' => s.exec e = some s') init [.submit () (), .cancel () ()] s ∧
      ((s.work ()).pending = true ↔ s.Linked ()) :=
  have hrun : Run (Guarded FlagKept fun s e s' => s.exec e = some s') init [.submit () (), .cancel () ()] _ :=
    .snoc (.single ⟨trivial, rfl⟩) ⟨trivial, rfl⟩
  ⟨_, hrun, (pending_iff_linked hrun ()).1⟩

/-- **An item is refused for ever**: all items are cancelled, and its flag stays. -/
theorem refused_after_cancelAll : ∃ s : Works Unit Unit,
    Run (fun s e s' => s.exec e = some s') init [.submit () (), .cancelAll ()] s ∧ (s.work ()).pending = true ∧
      ¬ s.Linked () ∧ (s.queue ()).workCurrent = none ∧ (rtWorkqueueDowork () () s).1 = .ebusy :=
  ⟨_, .snoc (.single rfl) rfl, rfl, fun ⟨_, hw⟩ => absurd hw List.not_mem_nil, rfl, rfl⟩

end CoreLink.RtThread.Works
