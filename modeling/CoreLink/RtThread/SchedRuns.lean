/-
# `CoreLink.RtThread.SchedRuns` — the scheduler under any sequence of calls.

A step is one call, where its assertions hold: a thread is started once, `rt_thread_timeout` is called for a
suspended thread, a priority is below the maximum, only a running thread waits. From the state after
`rt_system_scheduler_init`, with the threads initialised, every run keeps the ready structures redundant in the right
way (`ready_structures`), and every scheduling picks the right thread (`schedule_decision`).
-/
import CoreLink.Lib.Run
import CoreLink.RtThread.SchedCalls

namespace CoreLink.RtThread

open CoreLink.Lib

set_option linter.unusedSectionVars false

variable {T O : Type*} [DecidableEq T] [DecidableEq O] [Fintype T]

/-! ## The system -/

/-- The calls. `exit` and `ipcSuspend` are made by the current thread. -/
inductive SchedCall (T O : Type*) where
  | startup (t : T)
  | suspend (t : T)
  | resume (t : T)
  | timeout (t : T)
  | control (t : T) (prio : Nat)
  | delete (t : T)
  | detach (t : T)
  | exit
  | schedule
  | schedulerStart
  | enterCritical
  | exitCritical
  | ipcSuspend (o : O) (flag : IpcFlag)
  | ipcResume (o : O)

/-- One call; `none` where an assertion of the call, or what its callers see to, does not hold. -/
def execCall (c : SchedCfg) (s : Sched T O) : SchedCall T O → Option (Sched T O)
  | .startup t => if (s.thread t).stat = .init then some (rtThreadStartup c s t) else none
  | .suspend t => some (rtThreadSuspend c s t).1
  | .resume t => some (rtThreadResume c s t).1
  | .timeout t => if (s.thread t).stat = .suspend then some (rtThreadTimeout c s t) else none
  | .control t prio => if prio < c.prioMax then some (rtThreadControl c s t prio) else none
  | .delete t => some (rtThreadDelete c s t)
  | .detach t => some (rtThreadDetach c s t)
  | .exit => s.currentThread.map (rtThreadExit c s)
  | .schedule => some (rtSchedule c s)
  | .schedulerStart =>
      if s.currentThread = none ∧ s.bits.group ≠ 0 then some (rtSystemSchedulerStart c s) else none
  | .enterCritical => some (rtEnterCritical s)
  | .exitCritical => some (rtExitCritical c s)
  | .ipcSuspend o flag =>
      match s.currentThread with
      | some t => if (s.thread t).stat = .running then some (rtIpcListSuspend c s o t flag) else none
      | none => none
  | .ipcResume o => if s.listIsEmpty (.suspendThread o) then none else some (rtIpcListResume c s o)

/-- The step relation. -/
def SchedStep (c : SchedCfg) (s : Sched T O) (l : SchedCall T O) (s' : Sched T O) : Prop :=
  execCall c s l = some s'

/-- A thread after `_rt_thread_init`. -/
def rtThreadInit (priority : Nat) (systemObject cleanup : Bool) : Thread where
  stat := .init
  initPriority := priority
  currentPriority := priority
  mask := ⟨0, 0, 0⟩
  error := .eok
  systemObject := systemObject
  cleanup := cleanup

/-- The variables after `rt_system_scheduler_init`, with the threads given. -/
def rtSystemSchedulerInit (thread : T → Thread) : Sched T O where
  thread := thread
  links := .init
  bits := ⟨0, fun _ => 0⟩
  schedulerLockNest := 0
  currentThread := none
  currentPriority := 0
  queuedAt := fun _ => 0
  clock := 0

/-! ## The invariant over runs -/

section Invariant

variable {c : SchedCfg} {s s' : Sched T O} {q : ListHead O → List T} {l : SchedCall T O}

theorem schedInv_init {prio : T → Nat} {sys cln : T → Bool} (hp : ∀ t, prio t < c.prioMax) :
    SchedInv c (rtSystemSchedulerInit fun t => rtThreadInit (prio t) (sys t) (cln t) : Sched T O)
      (fun _ => []) ∅ := by
  refine ⟨Links.rep_init, by simp, by simp, by simp, fun t => ?_, fun t _ => ?_, ?_, by simp, by simp⟩
  · exact ⟨hp t, hp t, Or.inr ⟨by simp [Thread.started, rtSystemSchedulerInit, rtThreadInit], rfl, rfl⟩⟩
  · constructor <;> simp [rtSystemSchedulerInit, rtThreadInit]
  · constructor <;> simp [rtSystemSchedulerInit]

/-- The calls that change no priority of a started thread and put none on a suspend list; which thread `rt_ipc_list_resume`
takes off is said apart. -/
def SchedCall.keepsWaiting : SchedCall T O → Bool
  | .control .. | .ipcSuspend .. | .ipcResume _ => false
  | _ => true

/-- **What a call does** to the suspend lists and to the priorities of started threads. -/
inductive CallEffect (s : Sched T O) (q : ListHead O → List T) (s' : Sched T O) (q' : ListHead O → List T) :
    SchedCall T O → Prop
  | keeps {l : SchedCall T O} (hl : l.keepsWaiting)
      (hprio : ∀ x, (s.thread x).stat ≠ .init → (s'.thread x).currentPriority = (s.thread x).currentPriority)
      (hinit : ∀ x, (s.thread x).stat ≠ .init → (s'.thread x).stat ≠ .init)
      (hwait : ∀ o, (q' (.suspendThread o)).Sublist (q (.suspendThread o))) : CallEffect s q s' q' l
  | control {t : T} {prio : Nat}
      (hprio : ∀ x, (s'.thread x).currentPriority = if x = t then prio else (s.thread x).currentPriority)
      (hwait : ∀ o, q' (.suspendThread o) = q (.suspendThread o)) : CallEffect s q s' q' (.control t prio)
  | ipcSuspend {o : O} {flag : IpcFlag} {t : T} {as bs : List T} (hcur : s.currentThread = some t)
      (hstat : (s.thread t).stat = .running) (hq : q (.suspendThread o) = as ++ bs)
      (hplace : Placed s flag (s.thread t).currentPriority as bs)
      (hprio : ∀ x, (s'.thread x).currentPriority = (s.thread x).currentPriority)
      (hwait : q' = Function.update q (.suspendThread o) (as ++ t :: bs)) : CallEffect s q s' q' (.ipcSuspend o flag)
  | ipcResume {o : O} {t : T} {rest : List T} (hq : q (.suspendThread o) = t :: rest)
      (hprio : ∀ x, (s'.thread x).currentPriority = (s.thread x).currentPriority)
      (hwait : ∀ o', q' (.suspendThread o') = (q (.suspendThread o')).erase t) : CallEffect s q s' q' (.ipcResume o)

theorem Keeps.effect {q' : ListHead O → List T} (k : Keeps s q s' q') (hl : l.keepsWaiting) : CallEffect s q s' q' l :=
  .keeps hl (fun x _ => k.currentPriority x) k.notInit k.waiting

/-- **One call** keeps the invariant, with its effect. -/
theorem execCall_spec (i : SchedInv c s q ∅) (hs : execCall c s l = some s') :
    ∃ q', SchedInv c s' q' ∅ ∧ CallEffect s q s' q' l := by
  cases l with
  | startup t =>
    simp only [execCall] at hs
    split_ifs at hs with ht
    obtain rfl := Option.some.inj hs
    obtain ⟨q', hi, hk⟩ := rtThreadStartup_spec i ht
    have hother : ∀ x, (s.thread x).stat ≠ .init → (s.modifyThread t (startThread c)).thread x = s.thread x :=
      fun x hx => by
        rw [Sched.modifyThread_thread, if_neg]
        rintro rfl
        exact hx ht
    refine ⟨q', hi, .keeps rfl (fun x hx => ?_) (fun x hx => ?_) hk.waiting⟩
    · rw [hk.currentPriority, hother x hx]
    · exact hk.notInit x (by rwa [hother x hx])
  | suspend t =>
    obtain rfl := Option.some.inj hs
    by_cases ht : (s.thread t).stat = .ready ∨ (s.thread t).stat = .running
    · obtain ⟨hi, -, -, hk⟩ := rtThreadSuspend_spec i ht
      exact ⟨_, hi, hk.effect rfl⟩
    · rw [rtThreadSuspend, if_pos (not_or.mp ht)]
      exact ⟨q, i, (Keeps.refl s q).effect rfl⟩
  | resume t =>
    obtain rfl := Option.some.inj hs
    by_cases ht : (s.thread t).stat = .suspend
    · obtain ⟨q', hi, hk, -⟩ := rtThreadResume_spec i (Set.empty_subset _) ht
      exact ⟨q', hi, hk.effect rfl⟩
    · rw [rtThreadResume, if_pos ht]
      exact ⟨q, i, (Keeps.refl s q).effect rfl⟩
  | timeout t =>
    simp only [execCall] at hs
    split_ifs at hs with ht
    obtain rfl := Option.some.inj hs
    obtain ⟨q', hi, hk⟩ := rtThreadTimeout_spec i ht
    exact ⟨q', hi, hk.effect rfl⟩
  | control t prio =>
    simp only [execCall] at hs
    split_ifs at hs with hp
    obtain rfl := Option.some.inj hs
    obtain ⟨q', hi, hprio, -, -, -, hq⟩ := rtThreadControl_spec i (t := t) hp
    exact ⟨q', hi, .control hprio hq⟩
  | delete t =>
    obtain rfl := Option.some.inj hs
    obtain ⟨q', hi, hk⟩ := rtThreadDelete_spec (t := t) i
    exact ⟨q', hi, hk.effect rfl⟩
  | detach t =>
    obtain rfl := Option.some.inj hs
    obtain ⟨q', hi, hk⟩ := rtThreadDetach_spec (t := t) i
    exact ⟨q', hi, hk.effect rfl⟩
  | exit =>
    obtain ⟨t, -, rfl⟩ := Option.map_eq_some_iff.mp hs
    obtain ⟨q', hi, hk⟩ := rtThreadExit_spec (t := t) i
    exact ⟨q', hi, hk.effect rfl⟩
  | schedule =>
    obtain rfl := Option.some.inj hs
    obtain ⟨q', hi, hk⟩ := rtSchedule_inv i
    exact ⟨q', hi, hk.effect rfl⟩
  | schedulerStart =>
    simp only [execCall] at hs
    split_ifs at hs with hgo
    obtain rfl := Option.some.inj hs
    obtain ⟨q', hi, hk⟩ := rtSystemSchedulerStart_spec i hgo.1 hgo.2
    exact ⟨q', hi, hk.effect rfl⟩
  | enterCritical =>
    obtain rfl := Option.some.inj hs
    obtain ⟨hi, hk⟩ := rtEnterCritical_spec i
    exact ⟨q, hi, hk.effect rfl⟩
  | exitCritical =>
    obtain rfl := Option.some.inj hs
    obtain ⟨q', hi, hk⟩ := rtExitCritical_spec i
    exact ⟨q', hi, hk.effect rfl⟩
  | ipcSuspend o flag =>
    simp only [execCall] at hs
    split at hs
    next t hcur =>
      split_ifs at hs with ht
      obtain rfl := Option.some.inj hs
      obtain ⟨as, bs, hq, hi, hplace, hprio, -⟩ := rtIpcListSuspend_spec i ht o flag
      exact ⟨_, hi, .ipcSuspend hcur ht hq hplace hprio rfl⟩
    next => simp at hs
  | ipcResume o =>
    simp only [execCall] at hs
    split_ifs at hs with he
    obtain rfl := Option.some.inj hs
    obtain ⟨t, rest, hq⟩ := List.exists_cons_of_ne_nil (mt i.rep.isEmpty_iff.mpr he)
    obtain ⟨q', hi, hk, -, hw⟩ := rtIpcListResume_spec i hq
    exact ⟨q', hi, .ipcResume hq hk.currentPriority hw⟩

/-- One call keeps the invariant. -/
theorem step_schedInv (i : SchedInv c s q ∅) (hs : SchedStep c s l s') : ∃ q', SchedInv c s' q' ∅ := by
  obtain ⟨q', hi, -⟩ := execCall_spec i hs
  exact ⟨q', hi⟩

/-- **Every run** from the initialised scheduler keeps the invariant. -/
theorem run_schedInv {prio : T → Nat} {sys cln : T → Bool} {ls : List (SchedCall T O)}
    (hp : ∀ t, prio t < c.prioMax)
    (hr : Run (SchedStep c) (rtSystemSchedulerInit fun t => rtThreadInit (prio t) (sys t) (cln t)) ls s) :
    ∃ q, SchedInv c s q ∅ :=
  hr.invariant (I := fun s => ∃ q, SchedInv c s q ∅) ⟨_, schedInv_init hp⟩
    fun _ _ _ ⟨_, i⟩ hs => step_schedInv i hs

end Invariant

/-! ## The ready structures -/

/-- **The ready structures agree**: a thread is ready exactly when it is on one list of `rt_thread_priority_table`, that
of its priority, and the bits are set exactly for the lists that are not empty. -/
structure ReadyStructures (c : SchedCfg) (s : Sched T O) : Prop where
  circular : s.links.Circular
  lists : ∀ p, ∃ ts, Links.Seg s.links.next (s.links.next (.head (.ready p))) ts (.head (.ready p)) ∧ ts.Nodup
  ready_iff : ∀ t, (s.thread t).stat = .ready ↔ ∃! p, p < c.prioMax ∧ s.links.OnList (.ready p) t
  own_list : ∀ t p, s.links.OnList (.ready p) t → p = (s.thread t).currentPriority
  group : c.wide = false → ∀ p < 32, s.bits.group.getLsbD p = true ↔ p < c.prioMax ∧ ¬ s.listIsEmpty (.ready p)
  table : c.wide = true → ∀ p < 256, (s.bits.table (p / 8)).getLsbD (p % 8) = true ↔
    p < c.prioMax ∧ ¬ s.listIsEmpty (.ready p)
  tableGroup : c.wide = true → ∀ n < 32, s.bits.group.getLsbD n = true ↔
    ∃ p, p < c.prioMax ∧ p / 8 = n ∧ ¬ s.listIsEmpty (.ready p)

section Ready

variable {c : SchedCfg} {s : Sched T O} {q : ListHead O → List T}

theorem SchedInv.prio_lt (i : SchedInv c s q ∅) {p : Nat} (hp : q (.ready p) ≠ []) : p < c.prioMax := by
  obtain ⟨t, ht⟩ := List.exists_mem_of_ne_nil _ hp
  exact (i.ready t p ht).2 ▸ (i.attr t).currentPriority

theorem SchedInv.not_listIsEmpty_iff (i : SchedInv c s q ∅) (p : Nat) :
    (p < c.prioMax ∧ ¬ s.listIsEmpty (.ready p)) ↔ q (.ready p) ≠ [] := by
  have he := not_congr (i.rep.isEmpty_iff (h := .ready p))
  exact ⟨fun h => he.mp h.2, fun h => ⟨i.prio_lt h, he.mpr h⟩⟩

theorem SchedInv.mem_ready_iff (i : SchedInv c s q ∅) (t : T) (p : Nat) :
    t ∈ q (.ready p) ↔ (s.thread t).stat = .ready ∧ (s.thread t).currentPriority = p :=
  ⟨i.ready t p, fun h => h.2 ▸ (i.place t (Set.notMem_empty t)).ready h.1⟩

/-- The invariant gives the agreement. -/
theorem SchedInv.readyStructures (i : SchedInv c s q ∅) : ReadyStructures c s := by
  refine ⟨i.rep.circular, fun p => ⟨_, i.rep.seg _, i.rep.nodup _⟩, fun t => ?_, fun t p ht => ?_,
    fun hw p hp => ?_, fun hw p hp => ?_, fun hw n hn => ?_⟩
  · simp only [i.rep.onList_iff, i.mem_ready_iff]
    constructor
    · exact fun hr => ⟨_, ⟨(i.attr t).currentPriority, hr, rfl⟩, fun p hp => hp.2.2.symm⟩
    · rintro ⟨p, ⟨-, hr, -⟩, -⟩
      exact hr
  · exact (i.ready t p (i.rep.onList_iff.mp ht)).2.symm
  · rw [i.bits.narrow hw p hp, i.not_listIsEmpty_iff]
  · rw [i.bits.wideTable hw p hp, i.not_listIsEmpty_iff]
  · rw [i.bits.wideGroup hw n hn]
    constructor
    · rintro ⟨j, hj, hne⟩
      obtain ⟨hlt, hne⟩ := (i.not_listIsEmpty_iff _).mpr hne
      exact ⟨8 * n + j, hlt, by omega, hne⟩
    · rintro ⟨p, hlt, rfl, hne⟩
      refine ⟨p % 8, Nat.mod_lt _ (by decide), ?_⟩
      rw [Nat.div_add_mod]
      exact (i.not_listIsEmpty_iff p).mp ⟨hlt, hne⟩

/-- **The ready structures agree after every run.** -/
theorem ready_structures (c : SchedCfg) (prio : T → Nat) (sys cln : T → Bool) (ls : List (SchedCall T O))
    (s : Sched T O) (hp : ∀ t, prio t < c.prioMax)
    (hrun : Run (SchedStep c) (rtSystemSchedulerInit fun t => rtThreadInit (prio t) (sys t) (cln t)) ls s) :
    ReadyStructures c s := by
  obtain ⟨q, i⟩ := run_schedInv hp hrun
  exact i.readyStructures

/-- Three threads and one object with 40 priorities: threads 0 and 1 start with priority 20, thread 2 with 9 waits for
the object, thread 1 is moved to priority 33. -/
theorem ready_structures_run : ∃ s : Sched (Fin 3) Unit,
    ([.startup 0, .startup 1, .schedulerStart, .startup 2, .ipcSuspend () .prio, .schedule, .control 1 33,
      .delete 0] : List (SchedCall (Fin 3) Unit)).foldlM (execCall ⟨40, by decide⟩)
      (rtSystemSchedulerInit fun t => rtThreadInit (if t = 2 then 9 else 20) false false) = some s ∧
    ReadyStructures ⟨40, by decide⟩ s :=
  ⟨_, rfl, ready_structures ⟨40, by decide⟩ (fun t => if t = 2 then 9 else 20) (fun _ => false) (fun _ => false)
    [.startup 0, .startup 1, .schedulerStart, .startup 2, .ipcSuspend () .prio, .schedule, .control 1 33, .delete 0]
    _ (by decide) (Run.of_foldlM (fun _ _ _ h => h) rfl)⟩

end Ready

/-! ## The scheduling decision -/

/-- **The decision of `rt_schedule`**, from `s` with the current thread `cur` to `s'`: the most urgent thread runs, no
thread is lost, the thread that is switched to was first in its queue, and the one switched from goes to the tail. -/
structure Decision (s : Sched T O) (cur : T) (s' : Sched T O) : Prop where
  runs : ∃ t, s'.currentThread = some t ∧ (s'.thread t).stat = .running ∧
    ∀ u, (s'.thread u).stat = .ready → (s'.thread t).currentPriority ≤ (s'.thread u).currentPriority
  kept : ∀ u, ((s'.thread u).stat = .ready ∨ (s'.thread u).stat = .running) ↔
    ((s.thread u).stat = .ready ∨ (s.thread u).stat = .running)
  currentPriority : ∀ u, (s'.thread u).currentPriority = (s.thread u).currentPriority
  first : ∀ t, s'.currentThread = some t → t ≠ cur → (s.thread t).stat = .ready ∧
    ∀ u, (s.thread u).stat = .ready → u ≠ t → (s.thread t).currentPriority < (s.thread u).currentPriority ∨
      ((s.thread t).currentPriority = (s.thread u).currentPriority ∧ s.queuedAt t < s.queuedAt u)
  tail : s'.currentThread ≠ some cur → (s.thread cur).stat = .running → (s'.thread cur).stat = .ready ∧
    s'.links.prev (.head (.ready (s.thread cur).currentPriority)) = .item cur ∧
    ∀ u, (s'.thread u).stat = .ready → (s'.thread u).currentPriority = (s'.thread cur).currentPriority →
      u ≠ cur → s'.queuedAt u < s'.queuedAt cur
  others : ∀ u, u ≠ cur → s'.queuedAt u = s.queuedAt u

section Decision

variable {c : SchedCfg} {s s' : Sched T O} {q q' : ListHead O → List T} {cur : T}

/-- The queue order of two ready threads of one priority is the order in which they were queued. -/
theorem SchedInv.first_queuedAt (i : SchedInv c s q ∅) {p : Nat} {t : T} {rest : List T}
    (hq : q (.ready p) = t :: rest) {u : T} (hu : (s.thread u).stat = .ready)
    (hp : (s.thread u).currentPriority = p) (hut : u ≠ t) : s.queuedAt t < s.queuedAt u := by
  have hmem := (i.mem_ready_iff u p).mpr ⟨hu, hp⟩
  have ho := i.order p
  rw [hq] at hmem ho
  exact (List.pairwise_cons.mp ho).1 u ((List.mem_cons.mp hmem).resolve_left hut)

/-- The queue of the thread switched from ends with it. -/
theorem switchQueues_tail {t : T} (hrun : (s.thread cur).stat = .running) (hne : t ≠ cur) :
    switchQueues s q cur t (.ready (s.thread cur).currentPriority)
      = (q (.ready (s.thread cur).currentPriority)).erase t ++ [cur] := by
  unfold switchQueues
  simp only [hrun, if_true, Function.update_self]
  rw [List.erase_append]
  split_ifs with hm
  · rfl
  · rw [List.erase_of_not_mem hm, List.erase_of_not_mem (by simpa using hne)]

theorem Scheduled.decision (i : SchedInv c s q ∅) (hcur : s.currentThread = some cur)
    (hlock : s.schedulerLockNest = 0)
    (hsome : ∃ t, (s.thread t).stat = .ready ∨ (s.thread t).stat = .running) (h : Scheduled s q cur s' q')
    (i' : SchedInv c s' q' ∅) : Decision s cur s' := by
  have hk := h.keeps
  cases h with
  | same hthread hcur' hq hqueued hwhy =>
    have hrun : (s.thread cur).stat = .running ∧
        ∀ u, (s.thread u).stat = .ready → (s.thread cur).currentPriority ≤ (s.thread u).currentPriority := by
      rcases hwhy with hl | hempty | ⟨hr, hless⟩
      · exact absurd hlock hl
      · have hnone : ∀ u, (s.thread u).stat ≠ .ready := fun u hu => by
          have := (i.mem_ready_iff u _).mpr ⟨hu, rfl⟩
          simp [hempty] at this
        obtain ⟨t, ht⟩ := hsome
        have ht := ht.resolve_left (hnone t)
        obtain rfl := Option.some.inj (hcur.symm.trans ((i.place t (Set.notMem_empty t)).running ht))
        exact ⟨ht, fun u hu => absurd hu (hnone u)⟩
      · refine ⟨hr, fun u hu => (hless _ (fun he => ?_)).le⟩
        have := (i.mem_ready_iff u _).mpr ⟨hu, rfl⟩
        simp [he] at this
    refine ⟨⟨cur, hcur', ?_⟩, fun u => by rw [hthread], hk.currentPriority, fun t ht htc => ?_,
      fun hne => absurd hcur' hne, fun u _ => by rw [hqueued]⟩
    · rw [hthread]
      exact hrun
    · exact absurd (Option.some.inj (ht.symm.trans hcur')) htc
  | switch p t rest _ hfirst hmin hless hne hthread hcur' hq hqueued =>
    obtain ⟨htr, htp⟩ := i.ready t p (hfirst ▸ List.mem_cons_self)
    have hle : ∀ u, (s.thread u).stat = .ready → p ≤ (s.thread u).currentPriority := fun u hu =>
      hmin _ (List.ne_nil_of_mem ((i.mem_ready_iff u _).mpr ⟨hu, rfl⟩))
    have ht' : (s'.thread t).stat = .running := by rw [hthread, switchThread, if_pos rfl]
    have hother : ∀ u, u ≠ t → (s'.thread u).stat =
        if u = cur ∧ (s.thread cur).stat = .running then .ready else (s.thread u).stat := fun u hu => by
      rw [hthread, switchThread, if_neg hu]
      split_ifs <;> rfl
    refine ⟨⟨t, hcur', ht', fun u hu => ?_⟩, fun u => ?_, hk.currentPriority, fun t' ht htc => ?_,
      fun _ hrun => ?_, hqueued⟩
    · -- a thread that is ready now was so before, or is the one switched from
      have hut : u ≠ t := by
        rintro rfl
        simp [ht'] at hu
      rw [hk.currentPriority, hk.currentPriority, htp]
      rw [hother u hut] at hu
      split_ifs at hu with hc
      · rw [hc.1]
        exact not_lt.mp fun hlt => hless ⟨hc.2, hlt⟩
      · exact hle u hu
    · by_cases hut : u = t
      · rw [hut]
        exact iff_of_true (Or.inr ht') (Or.inl htr)
      · rw [hother u hut]
        split_ifs with hc
        · rw [hc.1]
          exact iff_of_true (Or.inl rfl) (Or.inr hc.2)
        · exact Iff.rfl
    · obtain rfl := Option.some.inj (hcur'.symm.trans ht)
      refine ⟨htr, fun u hu hut => ?_⟩
      rw [htp]
      rcases (hle u hu).lt_or_eq with hlt | heq
      · exact Or.inl hlt
      · exact Or.inr ⟨heq, i.first_queuedAt hfirst hu heq.symm hut⟩
    · have hready : (s'.thread cur).stat = .ready := by
        rw [hother cur hne.symm, if_pos ⟨rfl, hrun⟩]
      have htail : q' (.ready (s.thread cur).currentPriority)
          = (q (.ready (s.thread cur).currentPriority)).erase t ++ [cur] := by
        rw [hq, switchQueues_tail hrun hne]
      refine ⟨hready, i'.rep.prev_head htail, fun u hu hp huc => ?_⟩
      have hmem := (i'.mem_ready_iff u _).mpr ⟨hu, hp⟩
      have ho := i'.order (s.thread cur).currentPriority
      rw [hk.currentPriority, htail] at hmem
      rw [htail] at ho
      have hmem := (List.mem_append.mp hmem).resolve_right (by simpa using huc)
      exact (List.pairwise_append.mp ho).2.2 u hmem cur List.mem_cons_self

/-- **The scheduling decision.** After every run, with the scheduler unlocked and a thread to run. -/
theorem schedule_decision (c : SchedCfg) (prio : T → Nat) (sys cln : T → Bool) (ls : List (SchedCall T O))
    (s : Sched T O) (cur : T) (hp : ∀ t, prio t < c.prioMax)
    (hrun : Run (SchedStep c) (rtSystemSchedulerInit fun t => rtThreadInit (prio t) (sys t) (cln t)) ls s)
    (hcur : s.currentThread = some cur) (hlock : s.schedulerLockNest = 0)
    (hsome : ∃ t, (s.thread t).stat = .ready ∨ (s.thread t).stat = .running) :
    Decision s cur (rtSchedule c s) := by
  obtain ⟨q, i⟩ := run_schedInv hp hrun
  obtain ⟨q', i', hs⟩ := rtSchedule_spec i hcur
  exact hs.decision i hcur hlock hsome i'

/-- Thread 0 runs and yields to thread 1 of the same priority. -/
theorem schedule_decision_yield : ∃ s : Sched (Fin 3) Unit,
    ([.startup 0, .startup 1, .startup 2, .schedulerStart] : List (SchedCall (Fin 3) Unit)).foldlM
      (execCall ⟨32, by decide⟩) (rtSystemSchedulerInit fun t => rtThreadInit (if t = 2 then 30 else 20) true false)
      = some s ∧
    (rtSchedule ⟨32, by decide⟩ s).currentThread = some 1 ∧ Decision s 0 (rtSchedule ⟨32, by decide⟩ s) :=
  ⟨_, rfl, rfl, schedule_decision ⟨32, by decide⟩ (fun t => if t = 2 then 30 else 20) (fun _ => true)
    (fun _ => false) [.startup 0, .startup 1, .startup 2, .schedulerStart] _ 0 (by decide)
    (Run.of_foldlM (fun _ _ _ h => h) rfl) rfl rfl ⟨0, Or.inr rfl⟩⟩

end Decision

end CoreLink.RtThread
