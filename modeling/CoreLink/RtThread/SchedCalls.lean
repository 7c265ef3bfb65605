/-
# `CoreLink.RtThread.SchedCalls` — every call of the scheduler and of `thread.c` keeps the ready structures.

One lemma per function, each from the moves of the previous module. `rtSchedule_spec` says more than that the
invariant is kept: `Scheduled` is the whole effect of `rt_schedule` on the threads and their queues.
-/
import CoreLink.RtThread.SchedInvariant

namespace CoreLink.RtThread

open CoreLink.Lib

set_option linter.unusedSectionVars false

variable {T O : Type*} [DecidableEq T] [DecidableEq O]
variable {c : SchedCfg} {s s' : Sched T O} {q q' : ListHead O → List T} {X : Set T} {t cur : T}

/-! ## Moves in combination -/

/-- A thread that was taken off its list is on none. -/
theorem SchedInv.not_mem_erase (i : SchedInv c s q X) (h : ListHead O) : t ∉ (q h).erase t :=
  (i.rep.nodup h).not_mem_erase

/-- After a change of the current thread the old one and the new one are in between. -/
theorem SchedInv.setCurrent (i : SchedInv c s q X) (x : T) (p : Nat) :
    SchedInv c { s with currentPriority := p, currentThread := some x } q
      (insert x (X ∪ {y | s.currentThread = some y})) := by
  refine ⟨i.rep, i.ready, i.suspended, i.defunct, i.attr, fun y hy => ?_, i.bits, i.order, i.queued⟩
  simp only [Set.mem_insert_iff, Set.mem_union, Set.mem_ofPred_eq, not_or] at hy
  obtain ⟨hyx, hyX, hycur⟩ := hy
  have hp := i.place y hyX
  refine ⟨hp.ready, fun he => absurd (Option.some.inj he).symm hyx, fun hr => absurd (hp.running hr) hycur⟩

/-- The thread that `_get_highest_priority_thread` finds is the first of the most urgent ready list. -/
theorem SchedInv.highest (i : SchedInv c s q X) (hne : s.bits.group ≠ 0) :
    ∃ t rest, q (.ready (s.bits.highest c)) = t :: rest ∧
      getHighestPriorityThread c s = (some t, s.bits.highest c) ∧
      ∀ p, q (.ready p) ≠ [] → s.bits.highest c ≤ p := by
  have hlt : ∀ p, q (.ready p) ≠ [] → p < c.prioMax := fun p hp => by
    obtain ⟨x, hx⟩ := List.exists_mem_of_ne_nil _ hp
    exact (i.ready x p hx).2 ▸ (i.attr x).currentPriority
  obtain ⟨hmem, hmin⟩ := i.bits.highest_spec hlt hne
  obtain ⟨t, rest, hq⟩ := List.exists_cons_of_ne_nil hmem
  refine ⟨t, rest, hq, ?_, hmin⟩
  unfold getHighestPriorityThread Sched.firstEntry
  rw [i.rep.next_head hq]

theorem SchedInv.group_eq_zero_iff (i : SchedInv c s q X) :
    s.bits.group = 0 ↔ ∀ p, q (.ready p) = [] := by
  have hlt : ∀ p, q (.ready p) ≠ [] → p < c.prioMax := fun p hp => by
    obtain ⟨x, hx⟩ := List.exists_mem_of_ne_nil _ hp
    exact (i.ready x p hx).2 ▸ (i.attr x).currentPriority
  rw [i.bits.group_eq_zero_iff hlt]
  simp only [ne_eq, not_not]

/-- The new current thread leaves its list and runs. -/
theorem SchedInv.runNext (i : SchedInv c s q X) (hX : X ⊆ {t}) (hcur : s.currentThread = some t)
    (ht : (s.thread t).started) :
    SchedInv c ((rtScheduleRemoveThread c s t).setStat t .running) (fun h => (q h).erase t) ∅ := by
  refine ((i.removed t).setStat i.not_mem_erase .running
    (Or.inl (by rwa [remove_thread]))).settle fun x hx _ => ?_
  obtain rfl : x = t := by
    rcases hx with hx | hx | hx
    · exact hx
    · exact hx
    · exact hX hx
  constructor <;> simp [hcur]

/-! ## `rt_schedule` -/

/-- The queues once `cur` was put back, if it was running, and `t` taken out. -/
def switchQueues (s : Sched T O) (q : ListHead O → List T) (cur t : T) (h : ListHead O) : List T :=
  let q := if (s.thread cur).stat = .running then
      Function.update q (.ready (s.thread cur).currentPriority) (q (.ready (s.thread cur).currentPriority) ++ [cur])
    else q
  (q h).erase t

/-- The records after a switch from `cur` to `t`. -/
def switchThread (s : Sched T O) (cur t x : T) : Thread :=
  if x = t then { s.thread t with stat := .running }
  else if x = cur ∧ (s.thread cur).stat = .running then { s.thread cur with stat := .ready }
  else s.thread x

/-- What `rt_schedule` does, seen on the queues: nothing while the scheduler is locked, no thread is ready, or the
running thread is more urgent than all that are; otherwise the first of the most urgent queue runs. -/
inductive Scheduled (s : Sched T O) (q : ListHead O → List T) (cur : T) (s' : Sched T O)
    (q' : ListHead O → List T) : Prop
  | same (hthread : s'.thread = s.thread) (hcur : s'.currentThread = some cur) (hq : q' = q)
      (hqueued : s'.queuedAt = s.queuedAt) (hwhy : s.schedulerLockNest ≠ 0 ∨ (∀ p, q (.ready p) = []) ∨
        ((s.thread cur).stat = .running ∧ ∀ p, q (.ready p) ≠ [] → (s.thread cur).currentPriority < p))
  | switch (p : Nat) (t : T) (rest : List T) (hlock : s.schedulerLockNest = 0)
      (hfirst : q (.ready p) = t :: rest) (hmin : ∀ p', q (.ready p') ≠ [] → p ≤ p')
      (hless : ¬ ((s.thread cur).stat = .running ∧ (s.thread cur).currentPriority < p)) (hne : t ≠ cur)
      (hthread : ∀ x, s'.thread x = switchThread s cur t x) (hcur : s'.currentThread = some t)
      (hq : q' = switchQueues s q cur t) (hqueued : ∀ x, x ≠ cur → s'.queuedAt x = s.queuedAt x)

/-- Putting the current thread back where it is, running, changes nothing. -/
theorem SchedInv.keep_current (i : SchedInv c s q ∅) (hrun : (s.thread cur).stat = .running) :
    SchedInv c ((rtScheduleRemoveThread c s cur).setStat cur .running) q ∅ ∧
      ((rtScheduleRemoveThread c s cur).setStat cur .running).thread = s.thread := by
  have hoff := i.off_list (t := cur) (by simp [hrun]) (by simp [hrun]) (by simp [hrun])
  have hq : (fun h => (q h).erase cur) = q := funext fun h => List.erase_of_not_mem (hoff h)
  have hi := i.removed cur
  rw [hq] at hi
  have hthread : ((rtScheduleRemoveThread c s cur).setStat cur .running).thread = s.thread := by
    funext x
    rw [Sched.setStat_thread, remove_thread, remove_thread]
    split_ifs with hx
    · rw [hx, ← hrun]
    · rfl
  refine ⟨(hi.setStat hoff .running (Or.inl (by simp [Thread.started, hrun]))).settle fun x _ _ => ?_, hthread⟩
  have hp := i.place x (Set.notMem_empty x)
  constructor <;> rw [hthread]
  · exact hp.ready
  · simpa using hp.current
  · simpa using hp.running

/-- **`rt_schedule`** keeps the ready structures, and is `Scheduled`. -/
theorem rtSchedule_spec (i : SchedInv c s q ∅) (hcur : s.currentThread = some cur) :
    ∃ q', SchedInv c (rtSchedule c s) q' ∅ ∧ Scheduled s q cur (rtSchedule c s) q' := by
  unfold rtSchedule
  simp only [hcur]
  split_ifs with hgo
  swap
  · refine ⟨q, i, .same rfl hcur rfl rfl ?_⟩
    by_cases hlock : s.schedulerLockNest = 0
    · exact Or.inr (Or.inl (i.group_eq_zero_iff.mp (by simpa [hlock] using hgo)))
    · exact Or.inl hlock
  obtain ⟨hlock, hgroup⟩ := hgo
  obtain ⟨t, rest, hq, hget, hmin⟩ := i.highest hgroup
  have hpc := i.place cur (Set.notMem_empty cur)
  simp only [hget]
  generalize s.bits.highest c = p at *
  have ht := i.ready t p (hq ▸ List.mem_cons_self)
  have htc : t ≠ cur := by
    rintro rfl
    exact (hpc.current hcur).1 ht.1
  by_cases hless : (s.thread cur).stat = .running ∧ (s.thread cur).currentPriority < p
  · obtain ⟨hi, hthread⟩ := i.keep_current hless.1
    simp only [if_pos hless, ne_eq, not_true, if_false]
    exact ⟨q, hi, .same hthread (by simp [Sched.setStat, hcur]) rfl (by simp [Sched.setStat])
      (Or.inr (Or.inr ⟨hless.1, fun p' hp' => lt_of_lt_of_le hless.2 (hmin p' hp')⟩))⟩
  · simp only [if_neg hless, ne_eq, htc, not_false_eq_true, if_true]
    -- the current thread, if it runs, goes back to the tail of its list
    have hi₁ := i.setCurrent t (p % 256)
    have hset : insert t (∅ ∪ {y | s.currentThread = some y}) = ({t, cur} : Set T) := by
      ext y
      simp [hcur, eq_comm]
    rw [hset] at hi₁
    obtain ⟨s₁, hs₁⟩ : ∃ s₁ : Sched T O, s₁ = { s with currentPriority := p % 256, currentThread := some t } :=
      ⟨_, rfl⟩
    rw [← hs₁] at hi₁ ⊢
    have hthread₁ : s₁.thread = s.thread := by rw [hs₁]
    have hcur₁ : s₁.currentThread = some t := by rw [hs₁]
    by_cases hrun : (s.thread cur).stat = .running
    · have hprio : ¬ (s.thread cur).currentPriority < p := fun h => hless ⟨hrun, h⟩
      have hoff := i.off_list (t := cur) (by simp [hrun]) (by simp [hrun]) (by simp [hrun])
      have hi₂ := hi₁.inserted (t := cur) hoff (by simpa [hcur₁] using htc) (by simp [Thread.started, hthread₁, hrun])
      rw [hthread₁] at hi₂
      have hstat₂ : ((rtScheduleInsertThread c s₁ cur).thread t).stat = .ready := by
        rw [insert_thread, if_neg htc, hthread₁, ht.1]
      have hi₃ := hi₂.runNext (t := t) (by simp [Set.subset_def]) (by simpa using hcur₁) (by simp [Thread.started, hstat₂])
      simp only [hrun, hprio, not_false_eq_true, and_self, if_true]
      refine ⟨_, hi₃, .switch p t rest hlock hq hmin hless htc (fun x => ?_) (by simpa using hcur₁) ?_ fun x hx => ?_⟩
      · have hsome : some t ≠ some cur := fun e => htc (Option.some.inj e)
        simp only [Sched.setStat_thread, remove_thread, insert_thread, hthread₁, hcur₁, if_neg htc,
          if_neg hsome, switchThread, hrun, and_true]
      · funext h
        simp only [switchQueues, hrun, if_true]
      · simp [Sched.setStat, insert_queuedAt, hx, hs₁]
    · have hi₂ : SchedInv c s₁ q {t} := hi₁.settle fun x hx hxt => by
        obtain rfl : x = cur := hx.resolve_left hxt
        exact ⟨fun h => absurd (hthread₁ ▸ h) (hpc.current hcur).1,
          fun h => absurd (Option.some.inj (hcur₁.symm.trans h)) htc, fun h => absurd (hthread₁ ▸ h) hrun⟩
      have hi₃ := hi₂.runNext (t := t) subset_rfl hcur₁ (by simp [Thread.started, hthread₁, ht.1])
      simp only [hrun, false_and, if_false]
      refine ⟨_, hi₃, .switch p t rest hlock hq hmin hless htc (fun x => ?_) (by simpa using hcur₁) ?_ fun x _ => ?_⟩
      · rw [Sched.setStat_thread, remove_thread, remove_thread, hthread₁, switchThread]
        simp only [hrun, and_false, if_false]
      · funext h
        simp only [switchQueues, hrun, if_false]
      · simp [Sched.setStat, hs₁]

/-! ## What a call leaves alone -/

/-- No priority changes, a started thread stays started, and the suspend lists only lose threads. -/
structure Keeps (s : Sched T O) (q : ListHead O → List T) (s' : Sched T O) (q' : ListHead O → List T) : Prop where
  initPriority : ∀ x, (s'.thread x).initPriority = (s.thread x).initPriority
  currentPriority : ∀ x, (s'.thread x).currentPriority = (s.thread x).currentPriority
  notInit : ∀ x, (s.thread x).stat ≠ .init → (s'.thread x).stat ≠ .init
  waiting : ∀ o, (q' (.suspendThread o)).Sublist (q (.suspendThread o))

theorem Keeps.refl (s : Sched T O) (q : ListHead O → List T) : Keeps s q s q :=
  ⟨fun _ => rfl, fun _ => rfl, fun _ => id, fun _ => .refl _⟩

theorem Keeps.trans {s'' : Sched T O} {q'' : ListHead O → List T} (k : Keeps s q s' q')
    (k' : Keeps s' q' s'' q'') : Keeps s q s'' q'' :=
  ⟨fun x => (k'.initPriority x).trans (k.initPriority x),
    fun x => (k'.currentPriority x).trans (k.currentPriority x), fun x hx => k'.notInit x (k.notInit x hx),
    fun o => (k'.waiting o).trans (k.waiting o)⟩

theorem switchThread_currentPriority (x : T) :
    (switchThread s cur t x).currentPriority = (s.thread x).currentPriority := by
  unfold switchThread
  split_ifs with h1 h2
  · rw [h1]
  · rw [h2.1]
  · rfl

theorem Scheduled.keeps (h : Scheduled s q cur s' q') : Keeps s q s' q' := by
  cases h with
  | same hthread _ hq _ _ =>
    exact ⟨fun x => by rw [hthread], fun x => by rw [hthread], fun x => by rw [hthread]; exact id, fun o => by rw [hq]⟩
  | switch p t rest _ _ _ _ _ hthread _ hq _ =>
    refine ⟨fun x => ?_, fun x => by rw [hthread, switchThread_currentPriority], fun x hx => ?_, fun o => ?_⟩
    · rw [hthread]
      unfold switchThread
      split_ifs with h1 h2
      · rw [h1]
      · rw [h2.1]
      · rfl
    · rw [hthread]
      unfold switchThread
      split_ifs
      · simp
      · simp
      · exact hx
    · rw [hq, switchQueues]
      split_ifs
      · rw [Function.update_of_ne (by simp)]
        exact List.erase_sublist
      · exact List.erase_sublist

/-- `rt_schedule`, where the scheduler is started. -/
theorem rtSchedule_inv (i : SchedInv c s q ∅) :
    ∃ q', SchedInv c (rtSchedule c s) q' ∅ ∧ Keeps s q (rtSchedule c s) q' := by
  cases hcur : s.currentThread with
  | none =>
    have hs : rtSchedule c s = s := by simp only [rtSchedule, hcur]
    rw [hs]
    exact ⟨q, i, .refl s q⟩
  | some cur =>
    obtain ⟨q', i', hs⟩ := rtSchedule_spec i hcur
    exact ⟨q', i', hs.keeps⟩

/-! ## The calls of `thread.c` -/

/-- Inserting a thread that is in between ends its move. -/
theorem SchedInv.insert_any (i : SchedInv c s q X) (hX : X ⊆ {t}) (hoff : ∀ h, t ∉ q h)
    (ht : (s.thread t).started) :
    ∃ q', SchedInv c (rtScheduleInsertThread c s t) q' ∅ ∧ Keeps s q (rtScheduleInsertThread c s t) q' ∧
      ∀ o, q' (.suspendThread o) = q (.suspendThread o) := by
  have hXt : X \ {t} = ∅ := Set.sdiff_eq_empty.mpr hX
  have hinit : ∀ x, ((rtScheduleInsertThread c s t).thread x).initPriority = (s.thread x).initPriority ∧
      ((rtScheduleInsertThread c s t).thread x).currentPriority = (s.thread x).currentPriority := fun x => by
    by_cases hx : x = t <;> simp [insert_thread, hx]
  have hstarted : ∀ x, (s.thread x).stat ≠ .init → ((rtScheduleInsertThread c s t).thread x).stat ≠ .init :=
    fun x hx' => by
      by_cases hx : x = t
      · simp only [insert_thread, if_pos hx]
        split_ifs <;> simp
      · simpa [insert_thread, hx] using hx'
  by_cases hcur : s.currentThread = some t
  · exact ⟨q, hXt ▸ i.inserted_current hoff hcur ht,
      ⟨fun x => (hinit x).1, fun x => (hinit x).2, hstarted, fun _ => .refl _⟩, fun _ => rfl⟩
  · have hq : ∀ o, Function.update q (.ready (s.thread t).currentPriority)
        (q (.ready (s.thread t).currentPriority) ++ [t]) (.suspendThread o) = q (.suspendThread o) := fun o =>
      Function.update_of_ne (by simp) _ _
    exact ⟨_, hXt ▸ i.inserted hoff hcur ht,
      ⟨fun x => (hinit x).1, fun x => (hinit x).2, hstarted, fun o => (hq o).symm ▸ .refl _⟩, hq⟩

/-- **`rt_thread_suspend`** takes a ready or running thread off its list. -/
theorem rtThreadSuspend_spec (i : SchedInv c s q ∅) (ht : (s.thread t).stat = .ready ∨ (s.thread t).stat = .running) :
    SchedInv c (rtThreadSuspend c s t).1 (fun h => (q h).erase t) ∅ ∧
      ((rtThreadSuspend c s t).1.thread t).stat = .suspend ∧
      (rtThreadSuspend c s t).1.currentThread = s.currentThread ∧
      Keeps s q (rtThreadSuspend c s t).1 fun h => (q h).erase t := by
  have hgo : ¬ ((s.thread t).stat ≠ .ready ∧ (s.thread t).stat ≠ .running) := by
    rcases ht with h | h <;> simp [h]
  have hst : (s.thread t).started := by
    rcases ht with h | h <;> simp [Thread.started, h]
  rw [rtThreadSuspend, if_neg hgo]
  have hi := (i.removed t).setStat i.not_mem_erase .suspend (Or.inl (by rwa [remove_thread]))
  refine ⟨hi.settle fun x hx _ => ?_, by simp, by simp, ?_⟩
  · obtain rfl : x = t := by simpa using hx
    constructor <;> simp
  · refine ⟨fun x => ?_, fun x => ?_, fun x => ?_, fun o => List.erase_sublist⟩ <;>
      simp only [Sched.setStat_thread, remove_thread] <;> split_ifs with hx <;> simp [hx]

/-- **`rt_thread_resume`** of a suspended thread ends what it waits for. -/
theorem rtThreadResume_spec (i : SchedInv c s q X) (hX : X ⊆ {t}) (ht : (s.thread t).stat = .suspend) :
    ∃ q', SchedInv c (rtThreadResume c s t).1 q' ∅ ∧ Keeps s q (rtThreadResume c s t).1 q' ∧
      (rtThreadResume c s t).1.currentThread = s.currentThread ∧
      ∀ o, q' (.suspendThread o) = (q (.suspendThread o)).erase t := by
  rw [rtThreadResume, if_neg (by simp [ht])]
  have hi := i.unlinked (t := t) (by simp [ht])
  obtain ⟨q', hi', hk, hw⟩ :=
    hi.insert_any hX (fun h => i.not_mem_erase h) (by simp [Thread.started, Sched.unlink, ht])
  have hk₀ : Keeps s q (s.unlink t) fun h => (q h).erase t :=
    ⟨fun _ => rfl, fun _ => rfl, fun _ => id, fun _ => List.erase_sublist⟩
  exact ⟨q', hi', hk₀.trans hk, by simp [Sched.unlink], hw⟩

/-- **`rt_thread_startup`** of a thread that was not started yet. -/
theorem rtThreadStartup_spec (i : SchedInv c s q ∅) (ht : (s.thread t).stat = .init) :
    ∃ q', SchedInv c (rtThreadStartup c s t) q' ∅ ∧
      Keeps (s.modifyThread t (startThread c)) q (rtThreadStartup c s t) q' := by
  have ha := i.attr t
  have hi := i.modifyThread (i.off_list (t := t) (by simp [ht]) (by simp [ht]) (by simp [ht]))
    (f := startThread c) ⟨ha.initPriority, ha.initPriority, Or.inl ⟨_, rfl⟩⟩
  obtain ⟨q₁, hi₁, hk₁, -⟩ := rtThreadResume_spec (t := t) hi (by simp) (by simp [startThread])
  simp only [rtThreadStartup]
  split_ifs
  · obtain ⟨q₂, hi₂, hk₂⟩ := rtSchedule_inv hi₁
    exact ⟨q₂, hi₂, hk₁.trans hk₂⟩
  · exact ⟨q₁, hi₁, hk₁⟩

/-- **`rt_thread_timeout`** of a suspended thread. -/
theorem rtThreadTimeout_spec (i : SchedInv c s q ∅) (ht : (s.thread t).stat = .suspend) :
    ∃ q', SchedInv c (rtThreadTimeout c s t) q' ∅ ∧ Keeps s q (rtThreadTimeout c s t) q' := by
  have ha := i.attr t
  have hi := i.modifyThread_same (t := t) (f := fun th => { th with error := .etimeout }) rfl (fun _ => rfl)
    ⟨ha.initPriority, ha.currentPriority, ha.mask⟩
  obtain ⟨q₁, hi₁, hk₁, -, -⟩ := rtThreadResume_spec (t := t) hi (by simp) (by simp [ht])
  obtain ⟨q₂, hi₂, hk₂⟩ := rtSchedule_inv hi₁
  have hk : Keeps s q (s.modifyThread t fun th => { th with error := .etimeout }) q := by
    refine ⟨fun x => ?_, fun x => ?_, fun x => ?_, fun _ => .refl _⟩ <;> by_cases hx : x = t <;> simp [hx]
  rw [rtThreadResume, if_neg (by simp [ht])] at hi₂ hk₁ hk₂
  exact ⟨q₂, hi₂, hk.trans (hk₁.trans hk₂)⟩

/-- **`rt_thread_control`** changes the priority of one thread, and its ready list with it. -/
theorem rtThreadControl_spec (i : SchedInv c s q ∅) {prio : Nat} (hp : prio < c.prioMax) :
    ∃ q', SchedInv c (rtThreadControl c s t prio) q' ∅ ∧
      (∀ x, ((rtThreadControl c s t prio).thread x).currentPriority
        = if x = t then prio else (s.thread x).currentPriority) ∧
      (∀ x, ((rtThreadControl c s t prio).thread x).initPriority = (s.thread x).initPriority) ∧
      (∀ x, ((rtThreadControl c s t prio).thread x).stat = (s.thread x).stat) ∧
      (rtThreadControl c s t prio).currentThread = s.currentThread ∧
      ∀ o, q' (.suspendThread o) = q (.suspendThread o) := by
  have ha := i.attr t
  unfold rtThreadControl
  split_ifs with hr
  · have hcur : s.currentThread ≠ some t := fun h => ((i.place t (Set.notMem_empty t)).current h).1 hr
    have hi := ((i.removed t).modifyThread (t := t) i.not_mem_erase (f := changePriority c prio)
      ⟨by simpa [changePriority] using ha.initPriority, hp, Or.inl ⟨_, rfl⟩⟩).inserted i.not_mem_erase
      (by simpa using hcur) (by simp [changePriority, Thread.started, hr])
    refine ⟨_, hi.settle fun x hx _ => absurd hx (by simp), ?_, ?_, ?_, by simp, fun o => ?_⟩
    · intro x
      by_cases hx : x = t <;> simp [insert_thread, hx, changePriority]
    · intro x
      by_cases hx : x = t <;> simp [insert_thread, hx, changePriority]
    · intro x
      by_cases hx : x = t <;> simp [insert_thread, hx, changePriority, hcur, hr]
    · rw [Function.update_of_ne (by simp)]
      exact List.erase_of_not_mem fun hm => by simp [i.suspended t o hm] at hr
  · have hi := i.modifyThread_same (t := t) (f := changePriority c prio) rfl (fun h => absurd h hr)
      ⟨ha.initPriority, hp, Or.inl ⟨_, rfl⟩⟩
    refine ⟨q, hi, ?_, ?_, ?_, rfl, fun o => rfl⟩ <;> intro x <;> by_cases hx : x = t <;>
      simp [hx, changePriority]

/-- A thread taken off its list and closed. -/
theorem SchedInv.closed (i : SchedInv c s q X) (hX : X ⊆ {t}) (hoff : ∀ h, t ∉ q h) :
    SchedInv c (s.setStat t .close) q ∅ :=
  (i.setStat hoff .close (Or.inr rfl)).settle fun x hx _ => by
    obtain rfl : x = t := hx.elim id (hX ·)
    constructor <;> simp

/-- Putting a thread on a list that is not a ready list. -/
theorem SchedInv.enlist (i : SchedInv c s q X) {h : ListHead O} (hh : ∀ p, h ≠ .ready p)
    {L : Links (Node (ListHead O) T)} {l : List T} (hr : L.Rep (Function.update q h l))
    (hl : ∀ x ∈ l, x ∈ q h ∨ x = t) (hsus : ∀ o, h = .suspendThread o → (s.thread t).stat = .suspend)
    (hclose : h = .defunct → (s.thread t).stat = .close) :
    SchedInv c { s with links := L } (Function.update q h l) X := by
  have hready : ∀ p, Function.update q h l (.ready p) = q (.ready p) := fun p =>
    Function.update_of_ne (hh p).symm _ _
  have hmem : ∀ x h', x ∈ Function.update q h l h' → x ∈ q h' ∨ (x = t ∧ h' = h) := by
    intro x h' hx
    by_cases he : h' = h
    · subst he
      rw [Function.update_self] at hx
      exact (hl x hx).imp_right fun hx => ⟨hx, rfl⟩
    · rw [Function.update_of_ne he] at hx
      exact Or.inl hx
  refine ⟨hr, ?_, ?_, ?_, i.attr, ?_, ?_, ?_, ?_⟩
  · exact fun x p hx => i.ready x p (hready p ▸ hx)
  · intro x o hx
    rcases hmem x _ hx with hx | ⟨rfl, he⟩
    · exact i.suspended x o hx
    · exact hsus o he.symm
  · intro x hx
    rcases hmem x _ hx with hx | ⟨rfl, he⟩
    · exact i.defunct x hx
    · exact hclose he.symm
  · exact fun x hx => ⟨fun hr => by rw [hready]; exact (i.place x hx).ready hr, (i.place x hx).current,
      (i.place x hx).running⟩
  · simp only [hready]
    exact i.bits
  · exact fun p => by rw [hready]; exact i.order p
  · exact fun x p hx => i.queued x p (hready p ▸ hx)

/-- A closed thread that is on no list goes to the defunct threads. -/
theorem SchedInv.toDefunct_list (i : SchedInv c s q ∅) (hoff : ∀ h, t ∉ q h) (ht : (s.thread t).stat = .close) :
    SchedInv c { s with links := s.links.insertAfter (.head .defunct) (.item t) }
      (Function.update q .defunct (t :: q .defunct)) ∅ :=
  i.enlist (by simp) (i.rep.insertAfter_head hoff) (fun _ hx => (List.mem_cons.mp hx).symm) (by simp)
    fun _ => ht

theorem Keeps.to_defunct (k : Keeps s q s' q') {L : Links (Node (ListHead O) T)} {l : List T} :
    Keeps s q { s' with links := L } (Function.update q' .defunct l) :=
  ⟨k.initPriority, k.currentPriority, k.notInit, fun o => by
    rw [Function.update_of_ne (by simp)]
    exact k.waiting o⟩

/-- The thread off its list and closed, as `rt_thread_delete`, `rt_thread_detach` and `rt_thread_exit` have it. -/
theorem remove_close (i : SchedInv c s q ∅) :
    SchedInv c ((rtScheduleRemoveThread c s t).setStat t .close) (fun h => (q h).erase t) ∅ ∧
      Keeps s q ((rtScheduleRemoveThread c s t).setStat t .close) fun h => (q h).erase t := by
  refine ⟨(i.removed t).closed (by simp) i.not_mem_erase, fun x => ?_, fun x => ?_, fun x => ?_,
    fun _ => List.erase_sublist⟩ <;> by_cases hx : x = t <;> simp [hx]

/-- A thread that was not started is closed where it is. -/
theorem init_close (i : SchedInv c s q ∅) (ht : (s.thread t).stat = .init) :
    SchedInv c (s.setStat t .close) q ∅ ∧ Keeps s q (s.setStat t .close) q ∧ ∀ h, t ∉ q h := by
  have hoff := i.off_list (t := t) (by simp [ht]) (by simp [ht]) (by simp [ht])
  refine ⟨i.closed (by simp) hoff, ⟨fun x => ?_, fun x => ?_, fun x => ?_, fun _ => .refl _⟩, hoff⟩ <;>
    by_cases hx : x = t <;> simp [hx]

/-- A closed thread off its list, with or without the list of defunct threads. -/
theorem toDefunct_spec (i : SchedInv c s q ∅) (hoff : ∀ h, t ∉ q h) (ht : (s.thread t).stat = .close) :
    ∃ q', SchedInv c (toDefunct s t) q' ∅ ∧ Keeps s q (toDefunct s t) q' := by
  unfold toDefunct
  split_ifs
  · exact ⟨q, i, .refl s q⟩
  · exact ⟨_, i.toDefunct_list hoff ht, (Keeps.refl s q).to_defunct⟩

/-- **`rt_thread_delete`**, of any thread. -/
theorem rtThreadDelete_spec (i : SchedInv c s q ∅) :
    ∃ q', SchedInv c (rtThreadDelete c s t) q' ∅ ∧ Keeps s q (rtThreadDelete c s t) q' := by
  simp only [rtThreadDelete]
  split_ifs with ht
  · obtain ⟨hi, hk⟩ := remove_close (t := t) i
    exact ⟨_, hi.toDefunct_list i.not_mem_erase (by simp), hk.to_defunct⟩
  · obtain ⟨hi, hk, hoff⟩ := init_close i (not_not.mp ht)
    exact ⟨_, hi.toDefunct_list hoff (by simp), hk.to_defunct⟩

/-- **`rt_thread_detach`**, of any thread. -/
theorem rtThreadDetach_spec (i : SchedInv c s q ∅) :
    ∃ q', SchedInv c (rtThreadDetach c s t) q' ∅ ∧ Keeps s q (rtThreadDetach c s t) q' := by
  simp only [rtThreadDetach]
  split_ifs with ht
  · obtain ⟨hi, hk⟩ := remove_close (t := t) i
    obtain ⟨q', hi', hk'⟩ := toDefunct_spec hi i.not_mem_erase (by simp)
    exact ⟨q', hi', hk.trans hk'⟩
  · obtain ⟨hi, hk, hoff⟩ := init_close i (not_not.mp ht)
    obtain ⟨q', hi', hk'⟩ := toDefunct_spec hi hoff (by simp)
    exact ⟨q', hi', hk.trans hk'⟩

/-- **`rt_thread_exit`** of the current thread. -/
theorem rtThreadExit_spec (i : SchedInv c s q ∅) :
    ∃ q', SchedInv c (rtThreadExit c s t) q' ∅ ∧ Keeps s q (rtThreadExit c s t) q' := by
  obtain ⟨hi, hk⟩ := remove_close (t := t) i
  obtain ⟨q₁, hi₁, hk₁⟩ := toDefunct_spec hi i.not_mem_erase (by simp)
  obtain ⟨q₂, hi₂, hk₂⟩ := rtSchedule_inv hi₁
  exact ⟨q₂, hi₂, hk.trans (hk₁.trans hk₂)⟩

/-! ## Locking and starting the scheduler -/

/-- The lock count is no part of the invariant. -/
theorem SchedInv.setLock (i : SchedInv c s q X) (n : Int) : SchedInv c { s with schedulerLockNest := n } q X :=
  ⟨i.rep, i.ready, i.suspended, i.defunct, i.attr,
    fun x hx => ⟨(i.place x hx).ready, (i.place x hx).current, (i.place x hx).running⟩,
    i.bits, i.order, i.queued⟩

theorem rtEnterCritical_spec (i : SchedInv c s q ∅) :
    SchedInv c (rtEnterCritical s) q ∅ ∧ Keeps s q (rtEnterCritical s) q :=
  ⟨i.setLock _, fun _ => rfl, fun _ => rfl, fun _ => id, fun _ => .refl _⟩

/-- **`rt_exit_critical`**, with the scheduling when the lock is free again. -/
theorem rtExitCritical_spec (i : SchedInv c s q ∅) :
    ∃ q', SchedInv c (rtExitCritical c s) q' ∅ ∧ Keeps s q (rtExitCritical c s) q' := by
  have hk : ∀ n : Int, Keeps s q { s with schedulerLockNest := n } q := fun _ =>
    ⟨fun _ => rfl, fun _ => rfl, fun _ => id, fun _ => .refl _⟩
  simp only [rtExitCritical]
  split_ifs
  · obtain ⟨q', hi', hk'⟩ := rtSchedule_inv (i.setLock 0)
    exact ⟨q', hi', (hk 0).trans hk'⟩
  · exact ⟨q, i.setLock 0, hk 0⟩
  · exact ⟨q, i.setLock _, hk _⟩

/-- **`rt_system_scheduler_start`**, once, with a thread ready. -/
theorem rtSystemSchedulerStart_spec (i : SchedInv c s q ∅) (hcur : s.currentThread = none)
    (hgroup : s.bits.group ≠ 0) :
    ∃ q', SchedInv c (rtSystemSchedulerStart c s) q' ∅ ∧ Keeps s q (rtSystemSchedulerStart c s) q' := by
  obtain ⟨t, rest, hq, hget, -⟩ := i.highest hgroup
  have ht := (i.ready t _ (hq ▸ List.mem_cons_self)).1
  have hi := i.setCurrent t s.currentPriority
  have hset : insert t (∅ ∪ {y | s.currentThread = some y}) = ({t} : Set T) := by
    ext y
    simp [hcur]
  rw [hset] at hi
  simp only [rtSystemSchedulerStart, hget]
  refine ⟨_, hi.runNext (t := t) subset_rfl rfl (by simp [Thread.started, ht]), fun x => ?_, fun x => ?_, fun x => ?_,
    fun _ => List.erase_sublist⟩ <;> by_cases hx : x = t <;> simp [hx]

/-! ## The suspend lists -/

/-- The walk of `rt_ipc_list_suspend` stops where the threads less urgent than `prio` begin. -/
theorem suitablePosition_spec {o : O} {prio fuel : Nat} {n : Node (ListHead O) T} {as bs : List T}
    (hfuel : bs.length < fuel) (hq : q (.suspendThread o) = as ++ bs)
    (hseg : Links.Seg s.links.next n bs (.head (.suspendThread o)))
    (has : ∀ a ∈ as, (s.thread a).currentPriority ≤ prio) :
    ∃ as' bs', q (.suspendThread o) = as' ++ bs' ∧
      Links.Seg s.links.next (suitablePosition s o prio fuel n) bs' (.head (.suspendThread o)) ∧
      (∀ a ∈ as', (s.thread a).currentPriority ≤ prio) ∧
      ∀ b ∈ bs'.head?, prio < (s.thread b).currentPriority := by
  induction fuel generalizing n as bs with
  | zero => omega
  | succ fuel ih =>
    cases bs with
    | nil =>
      obtain rfl : n = .head (.suspendThread o) := hseg
      exact ⟨as, [], hq, rfl, has, by simp⟩
    | cons b bs =>
      obtain ⟨rfl, hseg⟩ := hseg
      simp only [suitablePosition]
      split_ifs with hb
      · exact ⟨as, b :: bs, hq, ⟨rfl, hseg⟩, has, by simpa using hb⟩
      · have hq' : q (.suspendThread o) = (as ++ [b]) ++ bs := by simpa using hq
        refine ih (by simpa using hfuel) hq' hseg fun a ha => ?_
        rcases List.mem_append.mp ha with ha | ha
        · exact has a ha
        · rw [List.mem_singleton.mp ha]
          omega

/-- The place between `as` and `bs` is that of a thread with the priority `prio`: the tail in FIFO order, and in
priority order behind all that are not less urgent. -/
def Placed (s : Sched T O) (flag : IpcFlag) (prio : Nat) (as bs : List T) : Prop :=
  match flag with
  | .fifo => bs = []
  | .prio => (∀ a ∈ as, (s.thread a).currentPriority ≤ prio) ∧ ∀ b ∈ bs.head?, prio < (s.thread b).currentPriority

/-- The position found is the place of the thread. -/
theorem suspendPosition_spec [Fintype T] (i : SchedInv c s q X) (o : O) (t : T) (flag : IpcFlag) :
    ∃ as bs, q (.suspendThread o) = as ++ bs ∧
      Links.Seg s.links.next (suspendPosition s o t flag) bs (.head (.suspendThread o)) ∧
      Placed s flag (s.thread t).currentPriority as bs := by
  cases flag with
  | fifo => exact ⟨q (.suspendThread o), [], (List.append_nil _).symm, rfl, rfl⟩
  | prio =>
    have hlen := (i.rep.nodup (.suspendThread o)).length_le_card
    exact @suitablePosition_spec T O _ _ s q o (s.thread t).currentPriority _ _ [] _ (Nat.lt_succ_of_le hlen)
      (List.nil_append _).symm (i.rep.seg (.suspendThread o)) (by simp)

/-- **`rt_ipc_list_suspend`** of a running thread puts it on the suspend list, in its place. -/
theorem rtIpcListSuspend_spec [Fintype T] (i : SchedInv c s q ∅) (ht : (s.thread t).stat = .running) (o : O)
    (flag : IpcFlag) :
    ∃ as bs, q (.suspendThread o) = as ++ bs ∧
      SchedInv c (rtIpcListSuspend c s o t flag)
        (Function.update q (.suspendThread o) (as ++ t :: bs)) ∅ ∧
      Placed s flag (s.thread t).currentPriority as bs ∧
      (∀ x, ((rtIpcListSuspend c s o t flag).thread x).currentPriority = (s.thread x).currentPriority) ∧
      (∀ x, (s.thread x).stat ≠ .init → ((rtIpcListSuspend c s o t flag).thread x).stat ≠ .init) ∧
      ((rtIpcListSuspend c s o t flag).thread t).stat = .suspend ∧
      (rtIpcListSuspend c s o t flag).currentThread = s.currentThread := by
  obtain ⟨hi, hstat, hcur, hk⟩ := rtThreadSuspend_spec i (Or.inr ht)
  have hoff := i.off_list (t := t) (by simp [ht]) (by simp [ht]) (by simp [ht])
  have hq : (fun h => (q h).erase t) = q := funext fun h => List.erase_of_not_mem (hoff h)
  rw [hq] at hi hk
  obtain ⟨as, bs, hqo, hseg, hplace⟩ := suspendPosition_spec hi o t flag
  simp only [Placed, hk.currentPriority] at hplace
  refine ⟨as, bs, hqo, ?_, hplace, hk.currentPriority, hk.notInit, hstat, hcur⟩
  refine hi.enlist (t := t) (by simp) (hi.rep.insertBefore hqo hseg hoff) (fun x hx => ?_) (fun _ _ => hstat)
    (by simp)
  rw [hqo]
  simp only [List.mem_append, List.mem_cons] at hx ⊢
  tauto

theorem SchedInv.firstEntry_eq (i : SchedInv c s q X) (h : ListHead O) : s.firstEntry h = (q h).head? := by
  unfold Sched.firstEntry
  cases hq : q h with
  | nil => rw [show s.links.next (.head h) = .head h from i.rep.isEmpty_iff.mpr hq, List.head?_nil]
  | cons t rest => rw [i.rep.next_head hq, List.head?_cons]

/-- **`rt_ipc_list_resume`** of a list that is not empty resumes its first thread. -/
theorem rtIpcListResume_spec (i : SchedInv c s q ∅) {o : O} {rest : List T}
    (hq : q (.suspendThread o) = t :: rest) :
    ∃ q', SchedInv c (rtIpcListResume c s o) q' ∅ ∧ Keeps s q (rtIpcListResume c s o) q' ∧
      (rtIpcListResume c s o).currentThread = s.currentThread ∧
      ∀ o', q' (.suspendThread o') = (q (.suspendThread o')).erase t := by
  have ht := i.suspended t o (hq ▸ List.mem_cons_self)
  have hres : rtIpcListResume c s o = (rtThreadResume c s t).1 := by
    rw [rtIpcListResume, i.firstEntry_eq, hq, List.head?_cons]
  rw [hres]
  exact rtThreadResume_spec i (Set.empty_subset _) ht

end CoreLink.RtThread
