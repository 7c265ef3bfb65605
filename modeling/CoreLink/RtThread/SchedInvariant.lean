/-
# `CoreLink.RtThread.SchedInvariant` — the ready structures, function by function.

`SchedInv c s q X` ties the links, the bitmap and the thread records together: `q` are the lists in the links, a
ready list holds ready threads of its priority, a suspend list suspended ones, the list of defunct threads closed
ones; the bits mark the ready lists that are not empty; a ready list is in the order of queueing. The threads in
`X` are the ones being moved: for the others a ready thread is on its list, and the running one is the current one.
Between two calls `X` is empty. Taking a thread off its list puts it in `X`, and inserting it takes it out again.
-/
import CoreLink.RtThread.Sched
import Mathlib.Data.Set.Insert

namespace CoreLink.RtThread

open CoreLink.Lib

set_option linter.unusedSectionVars false

variable {T O : Type*} [DecidableEq T] [DecidableEq O]

/-! ## The invariant -/

/-- The thread was started, and not yet closed. -/
def Thread.started (th : Thread) : Prop := th.stat ≠ .init ∧ th.stat ≠ .close

/-- The priorities of a thread are legal, and its masks are those of its current one, or empty if it was never
started. -/
structure AttrOk (c : SchedCfg) (th : Thread) : Prop where
  initPriority : th.initPriority < c.prioMax
  currentPriority : th.currentPriority < c.prioMax
  mask : (∃ m, th.mask = prioMask c m th.currentPriority) ∨
    (¬ th.started ∧ th.mask.numberMask = 0 ∧ th.mask.highMask = 0)

/-- A thread that is ready is on the ready list of its priority, unless it is the current one; only that runs. -/
structure PlaceOk (s : Sched T O) (q : ListHead O → List T) (t : T) : Prop where
  ready : (s.thread t).stat = .ready → t ∈ q (.ready (s.thread t).currentPriority)
  current : s.currentThread = some t → (s.thread t).stat ≠ .ready ∧ (s.thread t).stat ≠ .init
  running : (s.thread t).stat = .running → s.currentThread = some t

/-- The invariant, with the threads `X` in between two places. -/
structure SchedInv (c : SchedCfg) (s : Sched T O) (q : ListHead O → List T) (X : Set T) : Prop where
  rep : s.links.Rep q
  ready : ∀ t p, t ∈ q (.ready p) → (s.thread t).stat = .ready ∧ (s.thread t).currentPriority = p
  suspended : ∀ t o, t ∈ q (.suspendThread o) → (s.thread t).stat = .suspend
  defunct : ∀ t, t ∈ q .defunct → (s.thread t).stat = .close
  attr : ∀ t, AttrOk c (s.thread t)
  place : ∀ t, t ∉ X → PlaceOk s q t
  bits : BitsOk c s.bits fun p => q (.ready p) ≠ []
  order : ∀ p, (q (.ready p)).Pairwise fun a b => s.queuedAt a < s.queuedAt b
  queued : ∀ t p, t ∈ q (.ready p) → s.queuedAt t < s.clock

namespace Sched

variable (s : Sched T O) (t : T) (f : Thread → Thread)

@[simp] theorem modifyThread_thread (x : T) :
    (s.modifyThread t f).thread x = if x = t then f (s.thread t) else s.thread x := by
  simp [modifyThread, Function.update_apply]

@[simp] theorem modifyThread_links : (s.modifyThread t f).links = s.links := rfl
@[simp] theorem modifyThread_bits : (s.modifyThread t f).bits = s.bits := rfl
@[simp] theorem modifyThread_currentThread : (s.modifyThread t f).currentThread = s.currentThread := rfl
@[simp] theorem modifyThread_schedulerLockNest :
    (s.modifyThread t f).schedulerLockNest = s.schedulerLockNest := rfl
@[simp] theorem modifyThread_queuedAt : (s.modifyThread t f).queuedAt = s.queuedAt := rfl
@[simp] theorem modifyThread_clock : (s.modifyThread t f).clock = s.clock := rfl

@[simp] theorem setStat_thread (stat : ThreadStat) (x : T) :
    (s.setStat t stat).thread x = if x = t then { s.thread t with stat := stat } else s.thread x :=
  s.modifyThread_thread t _ x

@[simp] theorem setStat_currentThread (stat : ThreadStat) :
    (s.setStat t stat).currentThread = s.currentThread := rfl

end Sched

section Inv

variable {c : SchedCfg} {s : Sched T O} {q : ListHead O → List T} {X Y : Set T} {t : T}

/-- A thread that is neither ready, suspended nor closed is on no list. -/
theorem SchedInv.off_list (i : SchedInv c s q X) (h1 : (s.thread t).stat ≠ .ready)
    (h2 : (s.thread t).stat ≠ .suspend) (h3 : (s.thread t).stat ≠ .close) (h : ListHead O) : t ∉ q h := by
  intro hm
  cases h with
  | ready p => exact h1 (i.ready t p hm).1
  | suspendThread o => exact h2 (i.suspended t o hm)
  | defunct => exact h3 (i.defunct t hm)

/-- A thread that is not ready is on no ready list. -/
theorem SchedInv.off_ready (i : SchedInv c s q X) (h1 : (s.thread t).stat ≠ .ready) (p : Nat) :
    t ∉ q (.ready p) := fun hm => h1 (i.ready t p hm).1

/-- Threads that have arrived need not be listed as in between. -/
theorem SchedInv.settle (i : SchedInv c s q X) (h : ∀ x, x ∈ X → x ∉ Y → PlaceOk s q x) : SchedInv c s q Y :=
  { i with place := fun x hx => (em (x ∈ X)).elim (h x · hx) (i.place x) }

/-- Writing to the record of a thread that is on no list. -/
theorem SchedInv.modifyThread (i : SchedInv c s q X) (hoff : ∀ h, t ∉ q h) {f : Thread → Thread}
    (hattr : AttrOk c (f (s.thread t))) : SchedInv c (s.modifyThread t f) q (insert t X) := by
  have hother : ∀ x h, x ∈ q h → (s.modifyThread t f).thread x = s.thread x := fun x h hx => by
    rw [Sched.modifyThread_thread, if_neg]
    rintro rfl
    exact hoff h hx
  refine ⟨i.rep, ?_, ?_, ?_, ?_, ?_, i.bits, i.order, i.queued⟩
  · exact fun x p hx => hother x _ hx ▸ i.ready x p hx
  · exact fun x o hx => hother x _ hx ▸ i.suspended x o hx
  · exact fun x hx => hother x _ hx ▸ i.defunct x hx
  · intro x
    rw [Sched.modifyThread_thread]
    split_ifs
    · exact hattr
    · exact i.attr x
  · intro x hx
    obtain ⟨hxt, hxX⟩ : x ≠ t ∧ x ∉ X := by simpa using hx
    have hp := i.place x hxX
    constructor <;> simp only [Sched.modifyThread_thread, if_neg hxt, Sched.modifyThread_currentThread]
    · exact hp.ready
    · exact hp.current
    · exact hp.running

theorem AttrOk.setStat {th : Thread} (h : AttrOk c th) {stat : ThreadStat} (ht : th.started ∨ stat = .close) :
    AttrOk c { th with stat := stat } := by
  refine ⟨h.initPriority, h.currentPriority, h.mask.imp_right fun hm => ⟨?_, hm.2⟩⟩
  rcases ht with ht | rfl
  · exact absurd ht hm.1
  · exact fun hs => hs.2 rfl

/-- Setting the state of a thread that is on no list: of one that was started, or to closed. -/
theorem SchedInv.setStat (i : SchedInv c s q X) (hoff : ∀ h, t ∉ q h) (stat : ThreadStat)
    (ht : (s.thread t).started ∨ stat = .close) : SchedInv c (s.setStat t stat) q (insert t X) :=
  i.modifyThread hoff ((i.attr t).setStat ht)

/-- Writing to fields of a record that the invariant does not look at. -/
theorem SchedInv.modifyThread_same (i : SchedInv c s q X) {f : Thread → Thread}
    (hstat : (f (s.thread t)).stat = (s.thread t).stat)
    (hprio : (s.thread t).stat = .ready → (f (s.thread t)).currentPriority = (s.thread t).currentPriority)
    (hattr : AttrOk c (f (s.thread t))) : SchedInv c (s.modifyThread t f) q X := by
  have hst : ∀ x, ((s.modifyThread t f).thread x).stat = (s.thread x).stat := fun x => by
    rw [Sched.modifyThread_thread]
    split_ifs with h
    · rw [hstat, h]
    · rfl
  have hpr : ∀ x, (s.thread x).stat = .ready →
      ((s.modifyThread t f).thread x).currentPriority = (s.thread x).currentPriority := fun x hx => by
    rw [Sched.modifyThread_thread]
    split_ifs with h
    · subst h
      exact hprio hx
    · rfl
  refine ⟨i.rep, ?_, ?_, ?_, ?_, ?_, i.bits, i.order, i.queued⟩
  · intro x p hx
    obtain ⟨h1, h2⟩ := i.ready x p hx
    rw [hst, hpr x h1]
    exact ⟨h1, h2⟩
  · exact fun x o hx => by rw [hst]; exact i.suspended x o hx
  · exact fun x hx => by rw [hst]; exact i.defunct x hx
  · intro x
    rw [Sched.modifyThread_thread]
    split_ifs
    · exact hattr
    · exact i.attr x
  · intro x hx
    have hp := i.place x hx
    constructor
    · intro hr
      rw [hst] at hr
      rw [hpr x hr]
      exact hp.ready hr
    · rw [hst]
      exact hp.current
    · rw [hst]
      exact hp.running

/-- Taking a thread that is not ready off its list. -/
theorem SchedInv.unlinked (i : SchedInv c s q X) (ht : (s.thread t).stat ≠ .ready) :
    SchedInv c (s.unlink t) (fun h => (q h).erase t) X := by
  have hq : ∀ p, (q (.ready p)).erase t = q (.ready p) := fun p =>
    List.erase_of_not_mem (i.off_ready ht p)
  refine ⟨i.rep.remove t, ?_, ?_, ?_, i.attr, ?_, ?_, ?_, ?_⟩
  · exact fun x p hx => i.ready x p (List.mem_of_mem_erase hx)
  · exact fun x o hx => i.suspended x o (List.mem_of_mem_erase hx)
  · exact fun x hx => i.defunct x (List.mem_of_mem_erase hx)
  · exact fun x hx => ⟨fun hr => by rw [hq]; exact (i.place x hx).ready hr, (i.place x hx).current,
      (i.place x hx).running⟩
  · simp only [hq]
    exact i.bits
  · exact fun p => by rw [hq]; exact i.order p
  · exact fun x p hx => i.queued x p (List.mem_of_mem_erase hx)

end Inv

/-! ## The two functions that move a thread -/

section Move

variable {c : SchedCfg} {s : Sched T O} {q : ListHead O → List T} {X : Set T} {t : T}

@[simp] theorem remove_thread (x : T) : (rtScheduleRemoveThread c s t).thread x = s.thread x := by
  simp only [rtScheduleRemoveThread]
  split_ifs <;> rfl

@[simp] theorem remove_currentThread :
    (rtScheduleRemoveThread c s t).currentThread = s.currentThread := by
  simp only [rtScheduleRemoveThread]
  split_ifs <;> rfl

@[simp] theorem remove_queuedAt : (rtScheduleRemoveThread c s t).queuedAt = s.queuedAt := by
  simp only [rtScheduleRemoveThread]
  split_ifs <;> rfl

@[simp] theorem remove_clock : (rtScheduleRemoveThread c s t).clock = s.clock := by
  simp only [rtScheduleRemoveThread]
  split_ifs <;> rfl

theorem remove_links : (rtScheduleRemoveThread c s t).links = s.links.remove (.item t) := by
  simp only [rtScheduleRemoveThread]
  split_ifs <;> rfl

/-- **`rt_schedule_remove_thread`** takes a thread off its list, and the bits of a ready list that gets empty. -/
theorem SchedInv.removed (i : SchedInv c s q X) (t : T) :
    SchedInv c (rtScheduleRemoveThread c s t) (fun h => (q h).erase t) (insert t X) := by
  have hrep : (s.unlink t).links.Rep fun h => (q h).erase t := i.rep.remove t
  refine ⟨by rw [remove_links]; exact hrep, ?_, ?_, ?_, ?_, ?_, ?_, ?_, ?_⟩
  · intro x p hx
    rw [remove_thread]
    exact i.ready x p (List.mem_of_mem_erase hx)
  · intro x o hx
    rw [remove_thread]
    exact i.suspended x o (List.mem_of_mem_erase hx)
  · intro x hx
    rw [remove_thread]
    exact i.defunct x (List.mem_of_mem_erase hx)
  · exact fun x => by rw [remove_thread]; exact i.attr x
  · intro x hx
    obtain ⟨hxt, hxX⟩ : x ≠ t ∧ x ∉ X := by simpa using hx
    have hp := i.place x hxX
    constructor <;> simp only [remove_thread, remove_currentThread]
    · exact fun hr => (List.mem_erase_of_ne hxt).mpr (hp.ready hr)
    · exact hp.current
    · exact hp.running
  · -- only the list of the thread's own priority can have got empty
    have hsame : ∀ p, p ≠ (s.thread t).currentPriority → (q (.ready p)).erase t = q (.ready p) :=
      fun p hp => List.erase_of_not_mem fun hm => hp (i.ready t p hm).2.symm
    have hempty := hrep.isEmpty_iff (h := .ready (s.thread t).currentPriority)
    simp only [rtScheduleRemoveThread]
    split_ifs with he
    · have hnil := hempty.mp he
      rcases (i.attr t).mask with ⟨m, hmask⟩ | ⟨hns, hnm, hhm⟩
      · have hb := i.bits.clear (m := m) (i.attr t).currentPriority
        rw [← hmask] at hb
        refine hb.congr fun p => ?_
        by_cases hp : p = (s.thread t).currentPriority
        · rw [hp]
          exact iff_of_false (fun h => h.2 rfl) (not_not.mpr hnil)
        · rw [hsame p hp, and_iff_left hp]
      · refine (i.bits.clear_zero hnm hhm).congr fun p => ?_
        rw [List.erase_of_not_mem fun hm => hns (by simp [Thread.started, (i.ready t p hm).1])]
    · have hnil := mt hempty.mpr he
      refine i.bits.congr fun p => ?_
      by_cases hp : p = (s.thread t).currentPriority
      · rw [hp]
        refine iff_of_true (fun h => hnil ?_) hnil
        simp only [h, List.erase_nil]
      · rw [hsame p hp]
  · intro p
    rw [remove_queuedAt]
    exact (i.order p).sublist List.erase_sublist
  · intro x p hx
    rw [remove_queuedAt, remove_clock]
    exact i.queued x p (List.mem_of_mem_erase hx)

@[simp] theorem insert_currentThread :
    (rtScheduleInsertThread c s t).currentThread = s.currentThread := by
  simp only [rtScheduleInsertThread]
  split_ifs <;> rfl

theorem insert_queuedAt (x : T) : (rtScheduleInsertThread c s t).queuedAt x =
    if x = t ∧ s.currentThread ≠ some t then s.clock else s.queuedAt x := by
  by_cases hc : s.currentThread = some t <;> by_cases hx : x = t <;>
    simp [rtScheduleInsertThread, Sched.setStat, hc, hx]

theorem insert_thread (x : T) :
    (rtScheduleInsertThread c s t).thread x = if x = t then
      { s.thread t with stat := if s.currentThread = some t then .running else .ready } else s.thread x := by
  by_cases hc : s.currentThread = some t <;> by_cases hx : x = t <;>
    simp [rtScheduleInsertThread, Sched.setStat, hc, hx]

/-- The current thread is not put on a list; it runs. -/
theorem SchedInv.inserted_current (i : SchedInv c s q X) (hoff : ∀ h, t ∉ q h)
    (hcur : s.currentThread = some t) (ht : (s.thread t).started) :
    SchedInv c (rtScheduleInsertThread c s t) q (X \ {t}) := by
  rw [rtScheduleInsertThread, if_pos hcur]
  refine (i.setStat hoff .running (Or.inl ht)).settle ?_
  intro x hx hx'
  obtain rfl : x = t := by
    by_contra hne
    exact hx' ⟨hx.resolve_left hne, hne⟩
  refine ⟨?_, ?_, ?_⟩ <;> simp [hcur]

/-- **`rt_schedule_insert_thread`** puts a thread that is on no list at the tail of the ready list of its
priority, and marks that. -/
theorem SchedInv.inserted (i : SchedInv c s q X) (hoff : ∀ h, t ∉ q h)
    (hcur : s.currentThread ≠ some t) (ht : (s.thread t).started) :
    SchedInv c (rtScheduleInsertThread c s t)
      (Function.update q (.ready (s.thread t).currentPriority)
        (q (.ready (s.thread t).currentPriority) ++ [t])) (X \ {t}) := by
  have ha := i.attr t
  have hthread := insert_thread (c := c) (s := s) (t := t)
  rw [if_neg hcur] at hthread
  obtain ⟨prio, hprio⟩ : ∃ prio, (s.thread t).currentPriority = prio := ⟨_, rfl⟩
  rw [hprio]
  have hmem : ∀ x h, x ∈ Function.update q (.ready prio) (q (.ready prio) ++ [t]) h ↔
      x ∈ q h ∨ (x = t ∧ h = .ready prio) := by
    intro x h
    by_cases hh : h = .ready prio
    · rw [hh, Function.update_self, List.mem_append, List.mem_singleton, and_iff_left rfl]
    · rw [Function.update_of_ne hh, or_iff_left fun h' => hh h'.2]
  have hother : ∀ x h, x ∈ q h → (rtScheduleInsertThread c s t).thread x = s.thread x := fun x h hx => by
    rw [hthread, if_neg]
    rintro rfl
    exact hoff h hx
  constructor
  · rw [rtScheduleInsertThread, if_neg hcur]
    have hr := i.rep.insertBefore_head (h := .ready prio) hoff
    simpa [Sched.setStat, hprio] using hr
  · intro x p hx
    rcases (hmem x _).mp hx with hx | ⟨rfl, hp⟩
    · rw [hother x _ hx]
      exact i.ready x p hx
    · rw [hthread, if_pos rfl]
      exact ⟨rfl, hprio.trans (by cases hp; rfl)⟩
  · intro x o hx
    have hx := ((hmem x _).mp hx).resolve_right (by simp)
    rw [hother x _ hx]
    exact i.suspended x o hx
  · intro x hx
    have hx := ((hmem x _).mp hx).resolve_right (by simp)
    rw [hother x _ hx]
    exact i.defunct x hx
  · intro x
    rw [hthread]
    split_ifs with hxt
    · exact ha.setStat (Or.inl ht)
    · exact i.attr x
  · intro x hx
    by_cases hxt : x = t
    · subst hxt
      constructor <;> rw [hthread, if_pos rfl]
      · exact fun _ => (hmem x _).mpr (Or.inr ⟨rfl, congrArg _ hprio⟩)
      · exact fun hc => absurd (by rwa [insert_currentThread] at hc) hcur
      · exact fun hc => absurd hc (by simp)
    · have hp := i.place x fun hxX => hx ⟨hxX, hxt⟩
      constructor <;> rw [hthread, if_neg hxt]
      · exact fun hr => (hmem x _).mpr (Or.inl (hp.ready hr))
      · rw [insert_currentThread]
        exact hp.current
      · rw [insert_currentThread]
        exact hp.running
  · rw [rtScheduleInsertThread, if_neg hcur]
    obtain ⟨m, hmask⟩ := ha.mask.resolve_right fun h => h.1 ht
    have hb := i.bits.set (m := m) ha.currentPriority
    rw [← hmask, hprio] at hb
    have hset : (s.setStat t .ready).bits.set c ((s.setStat t .ready).thread t).mask
        = s.bits.set c (s.thread t).mask := by simp [Sched.setStat]
    simp only [hset]
    refine hb.congr fun p => ?_
    by_cases hp : p = prio
    · rw [hp, Function.update_self]
      exact iff_of_true (Or.inr rfl) (by simp)
    · rw [Function.update_of_ne (by simpa using hp), or_iff_left hp]
  · intro p
    have hqueued : ∀ x, (rtScheduleInsertThread c s t).queuedAt x
        = if x = t then s.clock else s.queuedAt x := fun x => by
      rw [insert_queuedAt]
      simp only [ne_eq, hcur, not_false_eq_true, and_true]
    have hold : ∀ p, (q (.ready p)).Pairwise fun a b =>
        (rtScheduleInsertThread c s t).queuedAt a < (rtScheduleInsertThread c s t).queuedAt b := fun p =>
      (i.order p).imp_of_mem fun {x y} hx hy hxy => by
        have hxt : x ≠ t := fun e => hoff _ (e ▸ hx)
        have hyt : y ≠ t := fun e => hoff _ (e ▸ hy)
        rwa [hqueued, hqueued, if_neg hxt, if_neg hyt]
    by_cases hp : p = prio
    · rw [hp, Function.update_self]
      refine List.pairwise_append.mpr ⟨hold prio, List.pairwise_singleton _ _, fun x hx y hy => ?_⟩
      rw [List.mem_singleton.mp hy, hqueued, hqueued, if_pos rfl, if_neg]
      · exact i.queued x _ hx
      · rintro rfl
        exact hoff _ hx
    · rw [Function.update_of_ne (by simpa using hp)]
      exact hold p
  · intro x p hx
    have hclock : (rtScheduleInsertThread c s t).clock = s.clock + 1 := by
      simp [rtScheduleInsertThread, hcur, Sched.setStat]
    have hqueued : (rtScheduleInsertThread c s t).queuedAt x = if x = t then s.clock else s.queuedAt x := by
      rw [insert_queuedAt]
      simp only [ne_eq, hcur, not_false_eq_true, and_true]
    rw [hclock, hqueued]
    split_ifs with hxt
    · exact Nat.lt_succ_self _
    · have hx := ((hmem x _).mp hx).resolve_right fun h => hxt h.1
      exact Nat.lt_succ_of_lt (i.queued x p hx)

end Move

end CoreLink.RtThread
