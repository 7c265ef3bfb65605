/-
# `CoreLink.RtThread.MutexCalls` — what a call does to owners, priorities and waiting threads.

`MutexOk` ties the mutexes to the scheduler: a mutex without owner has the value 1 and nobody waits for it, one with an
owner has the value 0 and the owner is not among those that wait. `Effect` says once what a call can do; everything
about priorities is derived from its five cases.
-/
import CoreLink.RtThread.Mutex

namespace CoreLink.RtThread.MutexSys

open CoreLink.Lib

set_option linter.unusedSectionVars false

variable {T M : Type*} [DecidableEq T] [DecidableEq M]

/-! ## The invariant -/

/-- The mutexes and the lists `q` of the scheduler belong together. -/
structure MutexOk (c : SchedCfg) (s : MutexSys T M) (q : ListHead M → List T) : Prop where
  sched : SchedInv c s.sched q ∅
  free : ∀ m, (s.mutex m).owner = none → (s.mutex m).value = 1 ∧ q (.suspendThread m) = []
  owned : ∀ m o, (s.mutex m).owner = some o →
    (s.mutex m).value = 0 ∧ o ∉ q (.suspendThread m) ∧ (s.mutex m).originalPriority < c.prioMax

variable {c : SchedCfg} {s s' : MutexSys T M} {q q' : ListHead M → List T} {m : M} {t w : T}

theorem setError_prio (t : T) (e : RtErr) (x : T) : (s.setError t e).prio x = s.prio x := by
  by_cases hx : x = t <;> simp [setError, prio, hx]

theorem MutexOk.setError (i : MutexOk c s q) (t : T) (e : RtErr) : MutexOk c (s.setError t e) q := by
  have ha := i.sched.attr t
  exact ⟨i.sched.modifyThread_same (t := t) (f := fun th => { th with error := e }) rfl (fun _ => rfl)
    ⟨ha.initPriority, ha.currentPriority, ha.mask⟩, i.free, i.owned⟩

/-- A new record for a mutex. -/
theorem MutexOk.setMutex (i : MutexOk c s q) {mutex : Mutex T}
    (hfree : mutex.owner = none → mutex.value = 1 ∧ q (.suspendThread m) = [])
    (howned : ∀ o, mutex.owner = some o →
      mutex.value = 0 ∧ o ∉ q (.suspendThread m) ∧ mutex.originalPriority < c.prioMax) :
    MutexOk c (s.setMutex m mutex) q := by
  refine ⟨i.sched, fun m' hm' => ?_, fun m' o hm' => ?_⟩
  · by_cases hm : m' = m
    · subst hm
      simp only [MutexSys.setMutex, Function.update_self] at hm' ⊢
      exact hfree hm'
    · simp only [MutexSys.setMutex, Function.update_of_ne hm] at hm' ⊢
      exact i.free m' hm'
  · by_cases hm : m' = m
    · subst hm
      simp only [MutexSys.setMutex, Function.update_self] at hm' ⊢
      exact howned o hm'
    · simp only [MutexSys.setMutex, Function.update_of_ne hm] at hm' ⊢
      exact i.owned m' o hm'

/-- A mutex whose owner, value and original priority stay the same. -/
theorem MutexOk.setHold (i : MutexOk c s q) (hold : Nat) :
    MutexOk c (s.setMutex m { s.mutex m with hold := hold }) q :=
  i.setMutex (i.free m) (i.owned m)

theorem running_eq (h : s.running = some t) : s.sched.currentThread = some t ∧ (s.sched.thread t).stat = .running := by
  simpa [running, Option.filter_eq_some_iff] using h

/-! ## The effect of a call -/

/-- The running thread `t` will have to wait for `m`, which `o` owns. -/
structure Blocks (s : MutexSys T M) (m : M) (time : Int) (t o : T) : Prop where
  running : s.running = some t
  owner : (s.mutex m).owner = some o
  other : o ≠ t
  waits : time ≠ 0

/-- The running thread `t` gives up `m`: it releases it as often as it has taken it. -/
structure GivesUp (s : MutexSys T M) (m : M) (t : T) : Prop where
  running : s.running = some t
  owner : (s.mutex m).owner = some t
  last : Word.sub 8 (s.mutex m).hold 1 = 0

/-- The call neither suspends its caller nor gives up a mutex. -/
def Quiet (s : MutexSys T M) : Call T M → Prop
  | .take m time => ∀ t o, ¬ s.Blocks m time t o
  | .release m => ∀ t, ¬ s.GivesUp m t
  | .sched _ => True

/-- What a call does: nothing to owners and priorities of started threads; a free mutex is taken; the caller waits and
lends its priority to the owner; a mutex is given up, to the first thread that waits if there is one. -/
inductive Effect (s : MutexSys T M) (q : ListHead M → List T) (s' : MutexSys T M) (q' : ListHead M → List T) :
    Call T M → Prop
  | other {l : Call T M} (hquiet : s.Quiet l) (howner : ∀ m, (s'.mutex m).owner = (s.mutex m).owner)
      (hprio : ∀ x, (s.sched.thread x).stat ≠ .init → s'.prio x = s.prio x)
      (hwait : ∀ m, (q' (.suspendThread m)).Sublist (q (.suspendThread m))) : Effect s q s' q' l
  | take {m : M} {time : Int} {t : T} (hrun : s.running = some t) (hm : (s.mutex m).owner = none)
      (howner : ∀ m', (s'.mutex m').owner = if m' = m then some t else (s.mutex m').owner)
      (hprio : ∀ x, s'.prio x = s.prio x) (hwait : ∀ m', q' (.suspendThread m') = q (.suspendThread m')) :
      Effect s q s' q' (.take m time)
  | block {m : M} {time : Int} {t o : T} {as bs : List T} (hb : s.Blocks m time t o)
      (howner : ∀ m, (s'.mutex m).owner = (s.mutex m).owner)
      (hprio : ∀ x, s'.prio x = if x = o ∧ s.prio t < s.prio o then s.prio t else s.prio x)
      (hq : q (.suspendThread m) = as ++ bs)
      (hwait : ∀ m', q' (.suspendThread m') = if m' = m then as ++ t :: bs else q (.suspendThread m')) :
      Effect s q s' q' (.take m time)
  | giveUp {m : M} {t : T} (hg : s.GivesUp m t)
      (howner : ∀ m', (s'.mutex m').owner =
        if m' = m then (q (.suspendThread m)).head? else (s.mutex m').owner)
      (hprio : ∀ x, s'.prio x = if x = t then (s.mutex m).originalPriority else s.prio x)
      (hwait : ∀ m', q' (.suspendThread m') =
        if m' = m then (q (.suspendThread m)).tail else q (.suspendThread m')) :
      Effect s q s' q' (.release m)

/-- No started thread is as if it had not been started. -/
def NotInit (s s' : MutexSys T M) : Prop :=
  ∀ x, (s.sched.thread x).stat ≠ .init → (s'.sched.thread x).stat ≠ .init

theorem setError_notInit (t : T) (e : RtErr) : NotInit s (s.setError t e) := fun x hx => by
  by_cases hxt : x = t <;> simp_all [MutexSys.setError]

/-- `rt_thread_control`, as far as mutexes are concerned. -/
theorem MutexOk.control (i : MutexOk c s q) {prio : Nat} (hp : prio < c.prioMax) (t : T) :
    ∃ q', MutexOk c (s.control c t prio) q' ∧ (∀ x, (s.control c t prio).prio x = if x = t then prio else s.prio x) ∧
      (∀ x, ((s.control c t prio).sched.thread x).stat = (s.sched.thread x).stat) ∧
      ∀ m, q' (.suspendThread m) = q (.suspendThread m) := by
  obtain ⟨q', hi, hprio, -, hstat, -, hq⟩ := rtThreadControl_spec i.sched (t := t) hp
  refine ⟨q', ⟨hi, fun m hm => ?_, fun m o hm => ?_⟩, hprio, hstat, hq⟩
  · rw [hq]
    exact i.free m hm
  · rw [hq]
    exact i.owned m o hm

theorem MutexOk.prio_lt (i : MutexOk c s q) (t : T) : s.prio t < c.prioMax := (i.sched.attr t).currentPriority

/-- "change the owner thread priority of mutex": `o` gets the priority of `t`, if that is more urgent. -/
theorem MutexOk.lend (i : MutexOk c s q) (o t : T) :
    ∃ s' q', (if s.prio t < s.prio o then s.control c o (s.prio t) else s) = s' ∧ MutexOk c s' q' ∧
      (∀ m, s'.mutex m = s.mutex m) ∧
      (∀ x, s'.prio x = if x = o ∧ s.prio t < s.prio o then s.prio t else s.prio x) ∧
      (∀ x, (s'.sched.thread x).stat = (s.sched.thread x).stat) ∧
      ∀ m, q' (.suspendThread m) = q (.suspendThread m) := by
  split_ifs with hlt
  · obtain ⟨q', i', hp', hst', hq'⟩ := i.control (i.prio_lt t) o
    exact ⟨_, q', rfl, i', fun _ => rfl, fun x => by simp [hp', hlt], hst', hq'⟩
  · exact ⟨_, q, rfl, i, fun _ => rfl, fun x => by simp [hlt], fun _ => rfl, fun _ => rfl⟩

/-- **`rt_mutex_take`.** -/
theorem rtMutexTake_effect [Fintype T] (i : MutexOk c s q) (hrun : s.running = some t) (m : M) (time : Int) :
    ∃ q', MutexOk c (s.rtMutexTake c m time t).1 q' ∧ Effect s q (s.rtMutexTake c m time t).1 q' (.take m time) ∧
      NotInit s (s.rtMutexTake c m time t).1 := by
  have i₁ := i.setError t .eok
  have hprio := setError_prio (s := s) t .eok
  have hinit := setError_notInit (s := s) t .eok
  have hmutex : (s.setError t .eok).mutex m = s.mutex m := rfl
  simp only [rtMutexTake]
  generalize hs₁ : s.setError t .eok = s₁ at i₁ hprio hinit hmutex ⊢
  have hmx : ∀ m, s₁.mutex m = s.mutex m := fun m => by rw [← hs₁]; rfl
  split_ifs with hown hval htime
  · refine ⟨q, i₁.setHold _, .other (fun t' o hb => ?_) (fun m' => ?_) (fun x _ => hprio x) fun _ => .refl _,
      hinit⟩
    · obtain rfl := Option.some.inj (hrun.symm.trans hb.running)
      rw [hmx] at hown
      exact hb.other (Option.some.inj (hb.owner.symm.trans hown))
    · by_cases hm : m' = m <;> simp [setMutex, hm, hmx]
  · have hnone : (s.mutex m).owner = none := by
      rw [hmx] at hval
      cases ho : (s.mutex m).owner with
      | none => rfl
      | some o => exact absurd (i.owned m o ho).1 (by omega)
    obtain ⟨hone, hempty⟩ := i.free m hnone
    have hlt : s₁.prio t < c.prioMax := (i₁.sched.attr t).currentPriority
    refine ⟨q, i₁.setMutex (by simp [Mutex.give]) fun o ho => ?_,
      .take hrun hnone (fun m' => ?_) hprio fun _ => rfl, hinit⟩
    · simp only [Mutex.give] at ho ⊢
      rw [hmx, hone, hempty]
      exact ⟨rfl, by simp, hlt⟩
    · by_cases hm : m' = m <;> simp [setMutex, Mutex.give, hm, hmx]
  · refine ⟨q, i₁.setError t .etimeout, .other (fun t' o hb => hb.waits htime) (fun m' => ?_) (fun x _ => ?_)
      fun _ => .refl _, fun x hx => setError_notInit t _ x (hinit x hx)⟩
    · rw [← hmx]
      rfl
    · rw [setError_prio, hprio]
  · obtain ⟨o, ho⟩ : ∃ o, (s.mutex m).owner = some o := by
      rw [hmx] at hval
      cases ho : (s.mutex m).owner with
      | none => exact absurd (i.free m ho).1 (by omega)
      | some o => exact ⟨o, rfl⟩
    rw [hmx, ho] at hown ⊢
    have hot : o ≠ t := fun e => hown (by rw [e])
    obtain ⟨s₂, q₂, hs₂, i₂, hmx₂, hprio₂, hstat₂, hq₂⟩ := i₁.lend o t
    simp only [hprio] at hprio₂
    simp only [hs₂]
    have hstat : (s₂.sched.thread t).stat = .running := by
      have hst : (s₁.sched.thread t).stat = (s.sched.thread t).stat := by
        rw [← hs₁]
        simp [MutexSys.setError]
      rw [hstat₂, hst]
      exact (running_eq hrun).2
    obtain ⟨as, bs, hqm, hi, -, hpr, hni, -, -⟩ := rtIpcListSuspend_spec i₂.sched hstat m (s.mutex m).flag
    rw [hq₂] at hqm
    have hq' : ∀ m', Function.update q₂ (.suspendThread m) (as ++ t :: bs) (.suspendThread m') =
        if m' = m then as ++ t :: bs else q (.suspendThread m') := fun m' => by
      by_cases hm : m' = m
      · simp [hm]
      · rw [Function.update_of_ne (by simpa using hm), if_neg hm, hq₂]
    refine ⟨_, ⟨hi, fun m' hm' => ?_, fun m' o' hm' => ?_⟩,
      .block ⟨hrun, ho, hot, htime⟩ (fun m' => ?_) (fun x => (hpr x).trans (hprio₂ x)) hqm hq', fun x hx => ?_⟩
    · simp only [hmx₂, hmx] at hm' ⊢
      have hm : m' ≠ m := fun e => by simp [e, ho] at hm'
      rw [hq', if_neg hm]
      exact i.free m' hm'
    · simp only [hmx₂, hmx] at hm' ⊢
      obtain ⟨hv, hn, hp⟩ := i.owned m' o' hm'
      refine ⟨hv, ?_, hp⟩
      rw [hq']
      split_ifs with hm
      · subst hm
        obtain rfl := Option.some.inj (ho.symm.trans hm')
        rw [hqm] at hn
        simp only [List.mem_append, List.mem_cons, not_or] at hn ⊢
        exact ⟨hn.1, hot, hn.2⟩
      · exact hn
    · simp only [hmx₂, hmx]
    · exact hni x (by rw [hstat₂]; exact hinit x hx)

/-- "change the owner thread to original priority". -/
theorem MutexOk.restore (i : MutexOk c s q) {prio : Nat} (hp : prio < c.prioMax) (t : T) :
    ∃ s' q', (if prio ≠ s.prio t then s.control c t prio else s) = s' ∧ MutexOk c s' q' ∧
      (∀ m, s'.mutex m = s.mutex m) ∧ (∀ x, s'.prio x = if x = t then prio else s.prio x) ∧ NotInit s s' ∧
      ∀ m, q' (.suspendThread m) = q (.suspendThread m) := by
  split_ifs with hne
  · obtain ⟨q', i', hp', hst', hq'⟩ := i.control hp t
    exact ⟨_, q', rfl, i', fun _ => rfl, hp', fun x hx => by rwa [hst'], hq'⟩
  · refine ⟨_, q, rfl, i, fun _ => rfl, fun x => ?_, fun _ => id, fun _ => rfl⟩
    split_ifs with hx
    · rw [hx, not_not.mp hne]
    · rfl

/-- **`rt_mutex_release`.** -/
theorem rtMutexRelease_effect (i : MutexOk c s q) (hrun : s.running = some t) (m : M) :
    ∃ q', MutexOk c (s.rtMutexRelease c m t).1 q' ∧ Effect s q (s.rtMutexRelease c m t).1 q' (.release m) ∧
      NotInit s (s.rtMutexRelease c m t).1 := by
  simp only [rtMutexRelease]
  by_cases hown : (s.mutex m).owner = some t
  · rw [if_neg (not_not.mpr hown)]
    have i₁ := i.setHold (m := m) (Word.sub 8 (s.mutex m).hold 1)
    have hprio₁ : ∀ hold x, (s.setMutex m { s.mutex m with hold := hold }).prio x = s.prio x := fun _ _ => rfl
    obtain ⟨hval, hnot, hlt⟩ := i.owned m t hown
    by_cases hlast : Word.sub 8 (s.mutex m).hold 1 = 0
    · have hg : s.GivesUp m t := ⟨hrun, hown, hlast⟩
      rw [if_pos hlast]
      rw [hlast] at i₁ ⊢
      obtain ⟨s₂, q₂, hs₂, i₂, hmx₂, hprio₂, hinit₂, hq₂⟩ := i₁.restore hlt t
      simp only [hs₂]
      have hmx : ∀ m', (s₂.mutex m').owner = (s.mutex m').owner := fun m' => by
        rw [hmx₂]
        by_cases hm : m' = m <;> simp [setMutex, hm]
      have hfirst := i₂.sched.firstEntry_eq (.suspendThread m)
      rw [hq₂] at hfirst
      cases hq : q (.suspendThread m) with
      | nil =>
          rw [hq, List.head?_nil] at hfirst
          simp only [hfirst]
          refine ⟨q₂, i₂.setMutex (fun _ => ⟨by simp [hval], (hq₂ m).trans hq⟩) (by simp),
            .giveUp hg (fun m' => ?_) hprio₂ (fun m' => ?_), hinit₂⟩
          · by_cases hm : m' = m
            · simp [setMutex, hm, hq]
            · simp [setMutex, hm, hmx]
          · by_cases hm : m' = m
            · rw [hq₂, if_pos hm, hm, hq, List.tail_nil]
            · rw [hq₂, if_neg hm]
      | cons w rest =>
          rw [hq, List.head?_cons] at hfirst
          obtain ⟨q', hi, hk, -, hw⟩ := rtIpcListResume_spec i₂.sched ((hq₂ m).trans hq)
          have hnd := i.sched.rep.nodup (.suspendThread m)
          rw [hq] at hnd
          -- the thread resumed was on this suspend list only
          have hw' : ∀ m', q' (.suspendThread m') =
              if m' = m then (q (.suspendThread m)).tail else q (.suspendThread m') := fun m' => by
            rw [hw, hq₂]
            by_cases hm : m' = m
            · rw [if_pos hm, hm, hq, List.erase_cons_head, List.tail_cons]
            · rw [if_neg hm, List.erase_of_not_mem]
              intro hmem
              have hmm := i.sched.rep.disjoint _ _ w hmem (hq ▸ List.mem_cons_self)
              exact hm (by simpa using hmm)
          simp only [hfirst]
          refine ⟨q', ⟨hi, fun m' hm' => ?_, fun m' o hm' => ?_⟩, .giveUp hg (fun m' => ?_)
            (fun x => (hk.currentPriority x).trans (hprio₂ x)) hw', fun x hx => hk.notInit x (hinit₂ x hx)⟩
          · have hm : m' ≠ m := fun e => by simp [e, setMutex, Mutex.give] at hm'
            simp only [setMutex, Function.update_of_ne hm, hmx₂] at hm' ⊢
            rw [hw', if_neg hm]
            exact i.free m' hm'
          · by_cases hm : m' = m
            · subst hm
              simp only [setMutex, Function.update_self, Mutex.give, Option.some.injEq] at hm' ⊢
              subst hm'
              rw [hw', if_pos rfl, hq]
              exact ⟨hval, (List.nodup_cons.mp hnd).1, i₂.prio_lt w⟩
            · simp only [setMutex, Function.update_of_ne hm, hmx₂] at hm' ⊢
              rw [hw', if_neg hm]
              exact i.owned m' o hm'
          · by_cases hm : m' = m
            · simp [setMutex, Mutex.give, hm, hq]
            · simp [setMutex, hm, hmx]
    · rw [if_neg hlast]
      refine ⟨q, i₁, .other (fun t' hg => hlast hg.last) (fun m' => ?_) (fun x _ => hprio₁ _ x) fun _ => .refl _,
        fun _ => id⟩
      by_cases hm : m' = m <;> simp [setMutex, hm]
  · rw [if_pos hown]
    refine ⟨q, i.setError t .error, .other (fun t' hg => ?_) (fun _ => rfl)
      (fun x _ => setError_prio t .error x) fun _ => .refl _, setError_notInit t .error⟩
    obtain rfl := Option.some.inj (hrun.symm.trans hg.running)
    exact hown hg.owner

/-- What the calls of the scheduler that keep priorities have in common: only a thread that is started gets a new
priority. -/
structure KeepsStarted (s : Sched T M) (q : ListHead M → List T) (s' : Sched T M) (q' : ListHead M → List T) :
    Prop where
  currentPriority : ∀ x, (s.thread x).stat ≠ .init → (s'.thread x).currentPriority = (s.thread x).currentPriority
  notInit : ∀ x, (s.thread x).stat ≠ .init → (s'.thread x).stat ≠ .init
  waiting : ∀ m, (q' (.suspendThread m)).Sublist (q (.suspendThread m))

theorem keepsStarted_of_execCall [Fintype T] {s s' : Sched T M} (i : SchedInv c s q ∅) {l : SchedCall T M}
    (hl : keepsPriorities l) (hs : execCall c s l = some s') :
    ∃ q', SchedInv c s' q' ∅ ∧ KeepsStarted s q s' q' := by
  obtain ⟨q', hi, he⟩ := execCall_spec i hs
  cases he with
  | keeps _ hprio hinit hwait => exact ⟨q', hi, hprio, hinit, hwait⟩
  | control | ipcSuspend | ipcResume => simp [keepsPriorities] at hl

/-- **A call of the scheduler.** -/
theorem sched_effect [Fintype T] (i : MutexOk c s q) {l : SchedCall T M} (hl : keepsPriorities l) {sched : Sched T M}
    (hs : execCall c s.sched l = some sched) :
    ∃ q', MutexOk c { s with sched := sched } q' ∧ Effect s q { s with sched := sched } q' (.sched l) ∧
      NotInit s { s with sched := sched } := by
  obtain ⟨q', hi, hk⟩ := keepsStarted_of_execCall i.sched hl hs
  refine ⟨q', ⟨hi, fun m hm => ?_, fun m o hm => ?_⟩,
    .other trivial (fun _ => rfl) hk.currentPriority hk.waiting, hk.notInit⟩
  · obtain ⟨hv, he⟩ := i.free m hm
    exact ⟨hv, List.sublist_nil.mp (he ▸ hk.waiting m)⟩
  · obtain ⟨hv, hn, hp⟩ := i.owned m o hm
    exact ⟨hv, fun h => hn ((hk.waiting m).subset h), hp⟩

/-! ## Steps and runs -/

/-- The invariant of the runs. -/
structure MutexInv [Fintype M] (c : SchedCfg) (s : MutexSys T M) (q : ListHead M → List T) : Prop extends
    MutexOk c s q where
  base : ∀ t, s.Owns t → ∃ p, s.base t = some p
  started : ∀ t p, s.base t = some p → (s.sched.thread t).stat ≠ .init

variable [Fintype T] [Fintype M]

/-- A thread that owns its first mutex runs, or was waiting for it. -/
theorem Effect.newOwner {l : Call T M} (h : Effect s q s' q' l) (i : MutexOk c s q) {x : T} (hx : ¬ s.Owns x)
    (hx' : s'.Owns x) : (s.sched.thread x).stat ≠ .init := by
  obtain ⟨m', hm'⟩ := hx'
  have hno : (s.mutex m').owner ≠ some x := fun e => hx ⟨m', e⟩
  cases h with
  | other _ howner => exact absurd (howner m' ▸ hm') hno
  | take hrun _ howner =>
      rw [howner] at hm'
      split_ifs at hm' with hm
      · rw [← Option.some.inj hm', (running_eq hrun).2]
        simp
      · exact absurd hm' hno
  | block _ howner => exact absurd (howner m' ▸ hm') hno
  | giveUp _ howner =>
      rw [howner] at hm'
      split_ifs at hm' with hm
      · rw [i.sched.suspended _ _ (List.mem_of_head? hm')]
        simp
      · exact absurd hm' hno

/-- The ghost assignment does not touch what `Effect` is about. -/
theorem Effect.track {l : Call T M} (h : Effect s q s' q' l) : Effect s q (s.track s') q' l := by
  cases h with
  | other hquiet howner hprio hwait => exact .other hquiet howner hprio hwait
  | take hrun hm howner hprio hwait => exact .take hrun hm howner hprio hwait
  | block hb howner hprio hq hwait => exact .block hb howner hprio hq hwait
  | giveUp hg howner hprio hwait => exact .giveUp hg howner hprio hwait

theorem MutexInv.track {l : Call T M} (i : MutexInv c s q) (i' : MutexOk c s' q') (h : Effect s q s' q' l)
    (hn : NotInit s s') : MutexInv c (s.track s') q' := by
  refine ⟨⟨i'.sched, i'.free, i'.owned⟩, fun t ht => ?_, fun t p hp => ?_⟩
  · by_cases hs : s.Owns t
    · obtain ⟨p, hp⟩ := i.base t hs
      exact ⟨p, by simp [MutexSys.track, hs, hp]⟩
    · exact ⟨s.prio t, by simp only [MutexSys.track]; rw [if_pos ⟨hs, ht⟩]⟩
  · simp only [MutexSys.track] at hp
    split_ifs at hp with hs
    · exact hn t (h.newOwner i.toMutexOk hs.1 hs.2)
    · exact hn t (i.started t p hp)

/-- **One call.** The invariant is kept, and `Effect` says what happened. -/
theorem step_effect {l : Call T M} (i : MutexInv c s q) (hs : Step c s l s') :
    ∃ q', MutexInv c s' q' ∧ Effect s q s' q' l ∧
      ∀ t, s'.base t = if ¬ s.Owns t ∧ s'.Owns t then some (s.prio t) else s.base t := by
  unfold Step exec at hs
  cases l with
  | take m time =>
      obtain ⟨t, hrun, rfl⟩ := Option.map_eq_some_iff.mp hs
      obtain ⟨q', i', h, hn⟩ := rtMutexTake_effect i.toMutexOk hrun m time
      exact ⟨q', i.track i' h hn, h.track, fun _ => rfl⟩
  | release m =>
      obtain ⟨t, hrun, rfl⟩ := Option.map_eq_some_iff.mp hs
      obtain ⟨q', i', h, hn⟩ := rtMutexRelease_effect i.toMutexOk hrun m
      exact ⟨q', i.track i' h hn, h.track, fun _ => rfl⟩
  | sched l =>
      simp only at hs
      split_ifs at hs with hl
      obtain ⟨sched, hsched, rfl⟩ := Option.map_eq_some_iff.mp hs
      obtain ⟨q', i', h, hn⟩ := sched_effect i.toMutexOk hl hsched
      exact ⟨q', i.track i' h hn, h.track, fun _ => rfl⟩

theorem mutexInv_init {prio : T → Nat} {sys cln : T → Bool} {flag : M → IpcFlag} (hp : ∀ t, prio t < c.prioMax) :
    MutexInv c (init (fun t => rtThreadInit (prio t) (sys t) (cln t)) flag) fun _ => [] := by
  refine ⟨⟨schedInv_init hp, fun _ _ => ⟨rfl, rfl⟩, fun m o hm => ?_⟩, fun t ht => ?_, fun t p ht => ?_⟩
  · simp [init, rtMutexInit] at hm
  · obtain ⟨m, hm⟩ := ht
    simp [init, rtMutexInit] at hm
  · simp [init] at ht

end CoreLink.RtThread.MutexSys
