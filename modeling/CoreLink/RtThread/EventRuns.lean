/-
# `CoreLink.RtThread.EventRuns` — no thread waits at an event object for what is there, and grants are honest.

A waiting thread's condition is monotone in the set of the object. So a thread that was tested and left waiting stays
unsatisfied while later grants of the same send shrink the set, and every send tests all threads again: `EventOk` holds
for a list of threads that are still to be tested, which is empty outside of the loop of `rt_event_send`.
-/
import CoreLink.RtThread.Event
import CoreLink.Lib.Run

namespace CoreLink.RtThread

open CoreLink.Lib

variable {T : Type*}

/-! ## Bits -/

/-- A condition that holds of a set holds of every larger one. -/
theorem Satisfied.mono {option : BitVec 8} {wanted set set' : BitVec 32} (h : Satisfied option wanted set)
    (hsub : set &&& set' = set) : Satisfied option wanted set' := by
  unfold Satisfied at h ⊢
  split_ifs at h ⊢ with hand hor
  · calc wanted &&& set' = wanted &&& set &&& set' := by rw [h]
      _ = wanted &&& set := by rw [BitVec.and_assoc, hsub]
      _ = wanted := h
  · intro hzero
    refine h ?_
    calc wanted &&& set = wanted &&& (set &&& set') := by rw [hsub]
      _ = wanted &&& set' &&& set := by rw [BitVec.and_comm set, BitVec.and_assoc]
      _ = 0 := by rw [hzero]; exact BitVec.zero_and

/-- A condition that holds of a set holds of the part of it that was asked for. -/
theorem Satisfied.inter {option : BitVec 8} {wanted set : BitVec 32} (h : Satisfied option wanted set) :
    Satisfied option wanted (wanted &&& set) := by
  have hidem : wanted &&& (wanted &&& set) = wanted &&& set := by rw [← BitVec.and_assoc, BitVec.and_self]
  unfold Satisfied at h ⊢
  rw [hidem]
  exact h

/-- What is left of a set after bits are cleared in it is part of it. -/
theorem cleared_and (option : BitVec 8) (set bits : BitVec 32) :
    EventSys.cleared option set bits &&& set = EventSys.cleared option set bits := by
  unfold EventSys.cleared
  split_ifs
  · rw [BitVec.and_assoc, BitVec.and_comm _ set, ← BitVec.and_assoc, BitVec.and_self]
  · exact BitVec.and_self

/-- The bits that are there before and not after bits are cleared. -/
theorem and_not_cleared (option : BitVec 8) (set bits : BitVec 32) :
    set &&& ~~~EventSys.cleared option set bits = if HasFlag option eventFlagClear then bits &&& set else 0 := by
  unfold EventSys.cleared
  split_ifs
  · ext i hi
    simp only [BitVec.getElem_and, BitVec.getElem_not]
    cases set[i] <;> cases bits[i] <;> rfl
  · exact BitVec.and_not_self ..

/-- A grant to a receive with this option and these bits: the condition held when the grant was made; what is reported
is what was there of the bits asked for, and satisfies the condition; and the grant took bits away only with
`RT_EVENT_FLAG_CLEAR`, which were then the reported ones. -/
structure Grant.Ok (option : BitVec 8) (wanted : BitVec 32) (g : Grant) : Prop where
  satisfied : Satisfied option wanted g.before
  reported_eq : g.reported = wanted &&& g.before
  satisfied_reported : Satisfied option wanted g.reported
  after_sub : g.after &&& g.before = g.after
  cleared_eq : g.before &&& ~~~g.after = if HasFlag option eventFlagClear then g.reported else 0

/-- Both places that grant: what is cleared meets the set in what is reported. -/
theorem Grant.ok_of_satisfied {option : BitVec 8} {wanted set bits : BitVec 32} (h : Satisfied option wanted set)
    (hbits : bits &&& set = wanted &&& set) :
    (⟨set, EventSys.cleared option set bits, wanted &&& set⟩ : Grant).Ok option wanted where
  satisfied := h
  reported_eq := rfl
  satisfied_reported := h.inter
  after_sub := cleared_and option set bits
  cleared_eq := by rw [and_not_cleared, hbits]

namespace EventSys

/-! ## The invariant -/

/-- The state of an event object while the threads `untested` are still to be tested: the list holds the waiting
threads; the thread of a waiting one says what it waits for; a tested one is not satisfied; and a thread that was woken
without an error has its grant. -/
structure EventOk (s : EventSys T) (untested : List T) : Prop where
  waits : Waits EventPc.isWaiting s.pc s.suspendThread
  stored : ∀ t set option timeout notNull, s.pc t = .waiting set option timeout notNull →
    s.eventSet t = set ∧ s.eventInfo t = option
  unsatisfied : ∀ t ∈ s.suspendThread, t ∉ untested → ¬ Satisfied (s.eventInfo t) (s.eventSet t) s.set
  granted : ∀ t set option notNull, s.pc t = .woken set option notNull → s.error t = .eok →
    ∃ g, s.grant t = some g ∧ g.Ok option set ∧ s.eventSet t = g.reported

variable [DecidableEq T] {s s' : EventSys T} {t : T} {ts : List T}

omit [DecidableEq T] in
/-- A thread on the list is at the place in its call where it waits. -/
theorem EventOk.waiting (h : s.EventOk ts) (ht : t ∈ s.suspendThread) :
    ∃ timeout notNull, s.pc t = .waiting (s.eventSet t) (s.eventInfo t) timeout notNull := by
  have hw : (s.pc t).isWaiting := (h.waits.mem_iff t).mp ht
  cases hpc : s.pc t with
  | waiting set option timeout notNull =>
      obtain ⟨rfl, rfl⟩ := h.stored t set option timeout notNull hpc
      exact ⟨timeout, notNull, rfl⟩
  | idle | woken =>
      rw [hpc] at hw
      exact hw.elim

/-- What a satisfied thread gets is what there is of the bits it asked for, with AND as with OR. -/
theorem grantThread_eq (hsat : Satisfied (s.eventInfo t) (s.eventSet t) s.set) :
    s.grantThread t = { s with
      eventSet := Function.update s.eventSet t (s.eventSet t &&& s.set)
      set := cleared (s.eventInfo t) s.set (s.eventSet t &&& s.set)
      grant := Function.update s.grant t
        (some ⟨s.set, cleared (s.eventInfo t) s.set (s.eventSet t &&& s.set), s.eventSet t &&& s.set⟩) }.wake t := by
  have hgot : (if HasFlag (s.eventInfo t) eventFlagAnd then s.eventSet t else s.eventSet t &&& s.set) =
      s.eventSet t &&& s.set := by
    split
    next hand =>
      rw [Satisfied, if_pos hand] at hsat
      exact hsat.symm
    next => rfl
  simp only [grantThread, hgot]

/-- One pass of the loop of `rt_event_send`, for a thread that is satisfied. -/
theorem EventOk.grantThread (h : s.EventOk (t :: ts)) (ht : t ∈ s.suspendThread)
    (hsat : Satisfied (s.eventInfo t) (s.eventSet t) s.set) : (s.grantThread t).EventOk ts := by
  obtain ⟨timeout, notNull, hpc⟩ := h.waiting ht
  rw [grantThread_eq hsat]
  refine ⟨h.waits.wake ?_, fun u set option timeout notNull hu => ?_, fun u hu hu' hs => ?_,
    fun u set option notNull hu herr => ?_⟩
  · rw [hpc]
    exact id
  · by_cases he : u = t
    · subst he
      simp [wake, setPc, hpc, EventPc.wake] at hu
    · simp only [wake, setPc, Function.update_of_ne he] at hu ⊢
      exact h.stored u set option timeout notNull hu
  · -- the set has only become smaller since `u` was tested
    have he : u ≠ t := (h.waits.nodup.mem_erase_iff.mp hu).1
    have hmem : u ∈ s.suspendThread := List.mem_of_mem_erase hu
    simp only [wake, setPc, Function.update_of_ne he] at hs
    exact h.unsatisfied u hmem (fun hm => (List.mem_cons.mp hm).elim he hu') (hs.mono (cleared_and _ _ _))
  · by_cases he : u = t
    · subst he
      simp only [wake, setPc, hpc, EventPc.wake, Function.update_self, EventPc.woken.injEq] at hu ⊢
      obtain ⟨rfl, rfl, -⟩ := hu
      have hidem : s.eventSet u &&& s.set &&& s.set = s.eventSet u &&& s.set := by rw [BitVec.and_assoc, BitVec.and_self]
      exact ⟨_, rfl, Grant.ok_of_satisfied hsat hidem, rfl⟩
    · simp only [wake, setPc, Function.update_of_ne he] at hu ⊢
      exact h.granted u set option notNull hu herr

/-- **The loop of `rt_event_send`.** -/
theorem EventOk.search (hsub : ∀ t ∈ ts, t ∈ s.suspendThread) (hnodup : ts.Nodup) (h : s.EventOk ts) :
    (search ts s).EventOk [] := by
  induction ts generalizing s with
  | nil => exact h
  | cons t ts ih =>
      obtain ⟨hnot, hnodup⟩ := List.nodup_cons.mp hnodup
      rw [EventSys.search]
      split
      next hsat =>
        refine ih (fun u hu => ?_) hnodup (h.grantThread (hsub t List.mem_cons_self) hsat)
        have hne : u ≠ t := fun e => hnot (e ▸ hu)
        exact (List.mem_erase_of_ne hne).mpr (hsub u (List.mem_cons_of_mem _ hu))
      next hsat =>
        refine ih (fun u hu => hsub u (List.mem_cons_of_mem _ hu)) hnodup ⟨h.waits, h.stored, fun u hu hu' => ?_, h.granted⟩
        by_cases he : u = t
        · exact he ▸ hsat
        · exact h.unsatisfied u hu fun hm => (List.mem_cons.mp hm).elim he hu'

/-! ## Steps -/

/-- A send tests every thread that waits. -/
theorem EventOk.send (h : s.EventOk []) (set : BitVec 32) : (s.rtEventSend set).1.EventOk [] := by
  unfold rtEventSend
  split
  next => exact h
  next =>
    have h' : EventOk { s with set := s.set ||| set } s.suspendThread :=
      ⟨h.waits, h.stored, fun u hu hu' => absurd hu hu', h.granted⟩
    exact h'.search (fun u hu => hu) h.waits.nodup

/-- `s'` is `s`, but for the thread `t`, which does not wait: its call has returned, and the set may be smaller. -/
structure Left (s : EventSys T) (t : T) (s' : EventSys T) : Prop where
  set_sub : s'.set &&& s.set = s'.set
  pc_eq : s'.pc = Function.update s.pc t .idle
  list_eq : s'.suspendThread = s.suspendThread
  eventInfo_eq : s'.eventInfo = s.eventInfo
  eventSet_eq : s'.eventSet = s.eventSet
  error_eq : ∀ u, u ≠ t → s'.error u = s.error u
  grant_eq : ∀ u, u ≠ t → s'.grant u = s.grant u

theorem EventOk.leave (h : s.EventOk []) (ht : ¬ (s.pc t).isWaiting) (hl : Left s t s') : s'.EventOk [] := by
  have hother : ∀ u, s'.pc u ≠ .idle → u ≠ t ∧ s'.pc u = s.pc u := by
    intro u hu
    have hne : u ≠ t := by
      rintro rfl
      exact hu (by rw [hl.pc_eq, Function.update_self])
    exact ⟨hne, by rw [hl.pc_eq, Function.update_of_ne hne]⟩
  refine ⟨?_, fun u set option timeout notNull hu => ?_, fun u hu _ hs => ?_, fun u set option notNull hu herr => ?_⟩
  · rw [hl.pc_eq, hl.list_eq]
    exact h.waits.update ⟨False.elim, ht⟩
  · obtain ⟨-, he⟩ := hother u (by rw [hu]; exact nofun)
    rw [hl.eventInfo_eq, hl.eventSet_eq]
    exact h.stored u set option timeout notNull (he ▸ hu)
  · rw [hl.list_eq] at hu
    rw [hl.eventInfo_eq, hl.eventSet_eq] at hs
    exact h.unsatisfied u hu List.not_mem_nil (hs.mono hl.set_sub)
  · obtain ⟨hne, he⟩ := hother u (by rw [hu]; exact nofun)
    rw [hl.grant_eq u hne, hl.eventSet_eq]
    exact h.granted u set option notNull (he ▸ hu) (hl.error_eq u hne ▸ herr)

@[simp] theorem report_eq (notNull : Bool) (set : BitVec 32) : s.report t notNull set =
    { s with recved := if notNull then Function.update s.recved t set else s.recved } := by
  cases notNull <;> rfl

/-- The part of a receive that is behind "reset thread error". -/
theorem EventOk.recvEntry (h : s.EventOk []) (ht : s.pc t = .idle) (set : BitVec 32) (option : BitVec 8) (timeout : Int)
    (notNull : Bool) (prio : T → Nat) : (s.recvEntry t set option timeout notNull prio).EventOk [] := by
  have hnot : ¬ (s.pc t).isWaiting := by rw [ht]; exact id
  unfold EventSys.recvEntry
  split_ifs with hsat
  · have hl : Left s t ((s.recvNow t set option notNull).ret t) := by
      rw [recvNow, report_eq]
      exact ⟨cleared_and option s.set set, rfl, rfl, rfl, rfl, fun _ _ => rfl, fun u hu => Function.update_of_ne hu _ _⟩
    exact h.leave hnot hl
  · have hl : Left s t ((s.setError t .etimeout).ret t) :=
      ⟨BitVec.and_self, rfl, rfl, rfl, rfl, fun u hu => Function.update_of_ne hu _ _, fun _ _ => rfl⟩
    exact h.leave hnot hl
  · refine ⟨h.waits.suspend hnot trivial (MqSys.insertSuspended_perm ..), fun u set' option' timeout' notNull' hu => ?_,
      fun u hu _ => ?_, fun u set' option' notNull' hu herr => ?_⟩
    · by_cases he : u = t
      · subst he
        simp only [setPc, Function.update_self, EventPc.waiting.injEq] at hu ⊢
        exact ⟨hu.1, hu.2.1⟩
      · simp only [setPc, Function.update_of_ne he] at hu ⊢
        exact h.stored u set' option' timeout' notNull' hu
    · by_cases he : u = t
      · subst he
        simpa [setPc] using hsat
      · simp only [setPc, Function.update_of_ne he]
        have hmem : u ∈ t :: s.suspendThread := (MqSys.insertSuspended_perm ..).mem_iff.mp hu
        exact h.unsatisfied u ((List.mem_cons.mp hmem).resolve_left he) List.not_mem_nil
    · by_cases he : u = t
      · subst he
        simp [setPc] at hu
      · simp only [setPc, Function.update_of_ne he] at hu ⊢
        exact h.granted u set' option' notNull' hu herr

/-- A receive, up to where the thread is suspended or the call has returned. -/
theorem EventOk.recv (h : s.EventOk []) (ht : s.pc t = .idle) (set : BitVec 32) (option : BitVec 8) (timeout : Int)
    (notNull : Bool) (prio : T → Nat) : (s.rtEventRecv t set option timeout notNull prio).EventOk [] := by
  unfold rtEventRecv
  split
  next =>
    have hl : Left s t { s.setPc t .idle with result := Function.update s.result t .error } :=
      ⟨BitVec.and_self, rfl, rfl, rfl, rfl, fun _ _ => rfl, fun _ _ => rfl⟩
    exact h.leave (by rw [ht]; exact id) hl
  next =>
    have h' : EventOk { s.setError t .eok with grant := Function.update s.grant t none } [] := by
      refine ⟨h.waits, h.stored, h.unsatisfied, fun u set' option' notNull' hu herr => ?_⟩
      have hne : u ≠ t := by
        rintro rfl
        exact absurd (ht.symm.trans hu) nofun
      simp only [setError, Function.update_of_ne hne] at herr ⊢
      exact h.granted u set' option' notNull' hu herr
    exact h'.recvEntry ht set option timeout notNull prio

/-- A receive goes on after it was woken, and returns. -/
theorem EventOk.continueCall (h : s.EventOk []) (t : T) : (s.continueCall t).EventOk [] := by
  unfold EventSys.continueCall
  cases hpc : s.pc t with
  | idle | waiting => exact h
  | woken set option notNull =>
      have hl : Left s t (s.recvWoken t notNull) := by
        unfold recvWoken
        rw [report_eq]
        split <;> exact ⟨BitVec.and_self, rfl, rfl, rfl, rfl, fun _ _ => rfl, fun _ _ => rfl⟩
      exact h.leave (by rw [hpc]; exact id) hl

/-- The timer of a thread takes it off the list without a grant. -/
theorem EventOk.timeout (h : s.EventOk []) (t : T) : ((s.setError t .etimeout).wake t).EventOk [] := by
  refine ⟨h.waits.wake ?_, fun u set option timeout notNull hu => ?_, fun u hu _ => ?_,
    fun u set option notNull hu herr => ?_⟩
  · show ¬ (s.pc t).wake.isWaiting
    cases s.pc t <;> exact id
  · by_cases he : u = t
    · subst he
      have hw : (s.pc u).wake = .waiting set option timeout notNull := by simpa [wake, setPc, setError] using hu
      cases hpc : s.pc u <;> rw [hpc] at hw <;> exact absurd hw nofun
    · simp only [wake, setPc, setError, Function.update_of_ne he] at hu ⊢
      exact h.stored u set option timeout notNull hu
  · exact h.unsatisfied u (List.mem_of_mem_erase hu) List.not_mem_nil
  · have he : u ≠ t := by
      rintro rfl
      simp [wake, setPc, setError] at herr
    simp only [wake, setPc, setError, Function.update_of_ne he] at hu herr ⊢
    exact h.granted u set option notNull hu herr

/-- **One step** keeps the invariant. -/
theorem step_ok {e : EventLabel T} (h : s.EventOk []) (hs : s.Step e s') : s'.EventOk [] := by
  obtain ⟨he, rfl⟩ := hs
  cases e with
  | send set => exact h.send set
  | recv t set option timeout notNull prio => exact h.recv he.1 set option timeout notNull prio
  | «continue» t => exact h.continueCall t
  | timeout t => exact h.timeout t

/-! ## What a receive reports -/

/-- The receive that an event is a step of: its thread, the bits, the option, and whether the set is reported. -/
def receive (s : EventSys T) : EventLabel T → Option (T × BitVec 32 × BitVec 8 × Bool)
  | .recv t set option _ notNull _ => some (t, set, option, notNull)
  | .continue t =>
      match s.pc t with
      | .woken set option notNull => some (t, set, option, notNull)
      | .idle | .waiting .. => none
  | .send _ | .timeout _ => none

/-- What has to be shown of a receive in the state in which it has returned. -/
def Reports (s' : EventSys T) (t : T) (set : BitVec 32) (option : BitVec 8) (notNull : Bool) : Prop :=
  ∃ g, s'.grant t = some g ∧ g.Ok option set ∧ (notNull → s'.recved t = g.reported)

theorem recvEntry_reports {set : BitVec 32} {option : BitVec 8} {timeout : Int} {notNull : Bool} {prio : T → Nat}
    (hidle : (s.recvEntry t set option timeout notNull prio).pc t = .idle)
    (hresult : (s.recvEntry t set option timeout notNull prio).result t = .eok) :
    (s.recvEntry t set option timeout notNull prio).Reports t set option notNull := by
  unfold recvEntry at hidle hresult ⊢
  split_ifs at hidle hresult ⊢ with hsat
  · refine ⟨⟨s.set, cleared option s.set set, s.set &&& set⟩, ?_, ?_, fun hn => ?_⟩
    · rw [recvNow, report_eq]
      exact Function.update_self ..
    · rw [BitVec.and_comm s.set set]
      exact Grant.ok_of_satisfied hsat rfl
    · rw [recvNow, report_eq, if_pos hn]
      exact Function.update_self ..
  · simp [ret, setError] at hresult
  · simp [setPc] at hidle

/-- A receive that returns `RT_EOK` has been granted, in this step or before it was woken, and reports what it was
granted. -/
theorem step_reports {e : EventLabel T} {set : BitVec 32} {option : BitVec 8} {notNull : Bool} (h : s.EventOk [])
    (hs : s.Step e s') (hr : s.receive e = some (t, set, option, notNull)) (hidle : s'.pc t = .idle)
    (hresult : s'.result t = .eok) : s'.Reports t set option notNull := by
  obtain ⟨he, rfl⟩ := hs
  cases e with
  | send | timeout => exact absurd hr nofun
  | recv u set' option' timeout notNull' prio =>
      obtain ⟨rfl, rfl, rfl, rfl⟩ : u = t ∧ set' = set ∧ option' = option ∧ notNull' = notNull := by
        simpa [receive] using hr
      simp only [exec, rtEventRecv] at hidle hresult ⊢
      split_ifs at hidle hresult ⊢
      · simp at hresult
      · exact recvEntry_reports hidle hresult
  | «continue» u =>
      simp only [receive] at hr
      cases hpc : s.pc u with
      | idle | waiting =>
          rw [hpc] at hr
          exact absurd hr nofun
      | woken set' option' notNull' =>
          obtain ⟨rfl, rfl, rfl, rfl⟩ : u = t ∧ set' = set ∧ option' = option ∧ notNull' = notNull := by
            simpa [hpc] using hr
          simp only [exec, continueCall, hpc, recvWoken, report_eq] at hresult ⊢
          by_cases herr : s.error u = .eok
          · rw [if_neg (not_not.mpr herr)]
            obtain ⟨g, hg, hok, hset⟩ := h.granted u _ _ _ hpc herr
            exact ⟨g, hg, hok, fun hn => by simpa [ret, setPc, hn] using hset⟩
          · rw [if_pos herr] at hresult
            exact absurd (by simpa [ret] using hresult) herr

/-! ## Runs -/

theorem run_ok {flag : IpcFlag} {eventSet : T → BitVec 32} {eventInfo : T → BitVec 8} {recved : T → BitVec 32}
    {es : List (EventLabel T)} (hrun : Run Step (init flag eventSet eventInfo recved) es s) : s.EventOk [] :=
  hrun.invariant ⟨.init fun _ => id, nofun, nofun, nofun⟩ fun _ _ _ h hs => step_ok h hs

/-- **No satisfied thread waits, and every grant is honest.** After any run from a new event object: the threads on the
suspend list are those whose receive waits, and the condition of each, with the bits and the option of its call, is not
met by the set of the object; and when the next step ends a receive with `RT_EOK`, there was a grant to this call that
is as `Grant.Ok` says, and the receive reports what was granted. -/
theorem event_grants {flag : IpcFlag} {eventSet : T → BitVec 32} {eventInfo : T → BitVec 8} {recved : T → BitVec 32}
    {es : List (EventLabel T)} (hrun : Run Step (init flag eventSet eventInfo recved) es s) :
    (∀ t ∈ s.suspendThread, ∃ set option timeout notNull, s.pc t = .waiting set option timeout notNull ∧
        ¬ Satisfied option set s.set) ∧
      (∀ t set option timeout notNull, s.pc t = .waiting set option timeout notNull → t ∈ s.suspendThread) ∧
      ∀ e s' t set option notNull, s.Step e s' → s.receive e = some (t, set, option, notNull) → s'.pc t = .idle →
        s'.result t = .eok → ∃ g, s'.grant t = some g ∧ g.Ok option set ∧ (notNull → s'.recved t = g.reported) := by
  have h := run_ok hrun
  refine ⟨fun t ht => ?_, fun t set option timeout notNull hpc => (h.waits.mem_iff t).mpr (by rw [hpc]; trivial),
    fun e s' t set option notNull hs hr hidle hresult => step_reports h hs hr hidle hresult⟩
  obtain ⟨timeout, notNull, hpc⟩ := h.waiting ht
  exact ⟨_, _, timeout, notNull, hpc, h.unsatisfied t ht List.not_mem_nil⟩

/-- Thread 0 waits for one of two bits and clears, thread 1 for both of them; one bit is sent. Thread 0 gets it and
thread 1 goes on waiting. -/
theorem event_grants_run : ∃ es, ∃ s : EventSys (Fin 2),
    Run Step (init .fifo (fun _ => 0) (fun _ => 0) fun _ => 0) es s ∧ s.recved 0 = 1 ∧ s.suspendThread = [1] ∧
      ((∀ t ∈ s.suspendThread, ∃ set option timeout notNull, s.pc t = .waiting set option timeout notNull ∧
          ¬ Satisfied option set s.set) ∧
        (∀ t set option timeout notNull, s.pc t = .waiting set option timeout notNull → t ∈ s.suspendThread) ∧
        ∀ e s' t set option notNull, s.Step e s' → s.receive e = some (t, set, option, notNull) → s'.pc t = .idle →
          s'.result t = .eok → ∃ g, s'.grant t = some g ∧ g.Ok option set ∧ (notNull → s'.recved t = g.reported)) := by
  have hexec : ((([.recv 0 3 6 (-1) true fun _ => 0, .recv 1 3 1 5 true fun _ => 0, .send 1, .continue 0] :
      List (EventLabel (Fin 2))).foldlM (Run.tryStep Enabled exec)
      (init .fifo (fun _ => 0) (fun _ => 0) fun _ => 0)).map fun s => (s.recved 0, s.suspendThread)) =
        some (1, [1]) := by decide +kernel
  obtain ⟨s, hs, hobs⟩ := Option.map_eq_some_iff.mp hexec
  have hrun : Run Step _ _ s := Run.of_foldlM_tryStep hs
  exact ⟨_, s, hrun, congrArg Prod.fst hobs, congrArg Prod.snd hobs, event_grants hrun⟩

end EventSys

end CoreLink.RtThread
