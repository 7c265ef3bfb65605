/-
# `CoreLink.RtThread.MutexSignalRuns` — when a thread that was interrupted by signals gets its mutex.

`ThreadOk` says, for each place in `rt_mutex_take`, what is true of a thread that is there: a thread that will insert
itself into a suspend list does not own the mutex, and one that has been handed the mutex has no error. A step moves one
thread at a time, and `SigInv.move` is the rule for that; a release moves two, one after the other.
-/
import CoreLink.RtThread.MutexSignal

namespace CoreLink.RtThread.SigSys

open CoreLink.Lib

set_option linter.unusedSectionVars false

variable {T M : Type*} [DecidableEq T] [DecidableEq M]

/-! ## The invariant -/

/-- What is true of a thread at its place in `rt_mutex_take`. -/
def ThreadOk (s : SigSys T M) (t : T) : Prop :=
  match (s.thread t).pc with
  | .idle | .decValue _ | .setOwner _ | .setPriority _ | .incHold _ => (s.thread t).suspended = false
  | .blocked m _ =>
      if (s.thread t).suspended then
        t ∈ s.suspendThread m ∧ (s.mutex m).owner ≠ some t ∧ ((s.thread t).error = .eok ∨ (s.thread t).error = .eintr)
      else (s.mutex m).owner = some t → (s.thread t).error = .eok
  | .again m _ | .lend m _ | .suspend m _ =>
      (s.thread t).suspended = false ∧ (s.mutex m).owner ≠ some t ∧ (s.thread t).error = .eintr
  | .insert m _ =>
      (s.thread t).suspended ∧ (s.mutex m).owner ≠ some t ∧ ((s.thread t).error = .eok ∨ (s.thread t).error = .eintr)

/-- A thread on a suspend list is suspended there. -/
def Listed (s : SigSys T M) (t : T) : Prop :=
  ∀ m, t ∈ s.suspendThread m → (s.thread t).suspended ∧ ∃ time, (s.thread t).pc = .blocked m time

/-- The invariant of the runs that meet the condition. -/
structure SigInv (s : SigSys T M) : Prop where
  nodup : ∀ m, (s.suspendThread m).Nodup
  listed : ∀ t, s.Listed t
  threadOk : ∀ t, s.ThreadOk t

/-- No thread waits for a mutex that it owns, and a thread that has been handed the mutex it was waiting for has no
error. -/
structure Sound (s : SigSys T M) : Prop where
  not_waiting : ∀ m t, (s.mutex m).owner = some t → t ∉ s.suspendThread m
  no_error : ∀ m t time, (s.thread t).pc = .blocked m time → (s.mutex m).owner = some t →
    (s.thread t).suspended = false ∧ (s.thread t).error = .eok

variable {s s' : SigSys T M} {t : T} {m : M}

theorem SigInv.sound (h : SigInv s) : s.Sound := by
  have hblocked : ∀ m t time, (s.thread t).pc = .blocked m time → (s.mutex m).owner = some t →
      (s.thread t).suspended = false ∧ (s.thread t).error = .eok := by
    intro m t time hpc ho
    have hok := h.threadOk t
    unfold ThreadOk at hok
    rw [hpc] at hok
    simp only at hok
    split at hok
    next => exact absurd ho hok.2.1
    next hs => exact ⟨by simpa using hs, hok ho⟩
  refine ⟨fun m t ho hmem => ?_, hblocked⟩
  obtain ⟨hs, time, hpc⟩ := h.listed t m hmem
  exact absurd ((hblocked m t time hpc ho).1.symm.trans hs) Bool.false_ne_true

/-- A thread that does not move, while no mutex becomes its own. -/
theorem ThreadOk.frame (h : s.ThreadOk t) (hthread : s'.thread t = s.thread t)
    (hlist : ∀ m, t ∈ s'.suspendThread m ↔ t ∈ s.suspendThread m)
    (howner : ∀ m, (s'.mutex m).owner = some t → (s.mutex m).owner = some t) : s'.ThreadOk t := by
  unfold ThreadOk at h ⊢
  rw [hthread]
  cases hpc : (s.thread t).pc with
  | idle | decValue | setOwner | setPriority | incHold =>
      rw [hpc] at h
      exact h
  | blocked m time =>
      rw [hpc] at h
      simp only at h ⊢
      split at h
      next hs =>
        rw [if_pos hs]
        exact ⟨(hlist m).mpr h.1, fun ho => h.2.1 (howner m ho), h.2.2⟩
      next hs =>
        rw [if_neg hs]
        exact fun ho => h (howner m ho)
  | again | lend | suspend | insert =>
      rw [hpc] at h
      exact ⟨h.1, fun ho => h.2.1 (howner _ ho), h.2.2⟩

/-- **A step moves one thread.** What it must show: other threads keep their places, on the lists as well, and do not
become owners; and the clauses of the invariant for the thread itself. -/
theorem SigInv.move (h : SigInv s) (t : T) (hthread : ∀ u, u ≠ t → s'.thread u = s.thread u)
    (hlist : ∀ m u, u ≠ t → (u ∈ s'.suspendThread m ↔ u ∈ s.suspendThread m))
    (hnodup : ∀ m, (s'.suspendThread m).Nodup)
    (howner : ∀ m u, u ≠ t → (s'.mutex m).owner = some u → (s.mutex m).owner = some u)
    (hlisted : s'.Listed t) (ht : s'.ThreadOk t) : SigInv s' := by
  refine ⟨hnodup, fun u => ?_, fun u => ?_⟩
  · by_cases hu : u = t
    · exact hu ▸ hlisted
    · intro m hmem
      rw [hthread u hu]
      exact h.listed u m ((hlist m u hu).mp hmem)
  · by_cases hu : u = t
    · exact hu ▸ ht
    · exact (h.threadOk u).frame (hthread u hu) (fun m => hlist m u hu) fun m => howner m u hu

/-- A thread that is not suspended is on no list. -/
theorem SigInv.off (h : SigInv s) (hs : (s.thread t).suspended = false) (m : M) : t ∉ s.suspendThread m := fun hm =>
  absurd (hs.symm.trans (h.listed t m hm).1) Bool.false_ne_true

/-- A thread that is not suspended moves, and the lists are left as they are. -/
theorem SigInv.moveOff (h : SigInv s) (hs : (s.thread t).suspended = false)
    (hthread : ∀ u, u ≠ t → s'.thread u = s.thread u) (hlist : s'.suspendThread = s.suspendThread)
    (howner : ∀ m u, u ≠ t → (s'.mutex m).owner = some u → (s.mutex m).owner = some u) (ht : s'.ThreadOk t) :
    SigInv s' :=
  h.move t hthread (fun m u _ => by rw [hlist]) (fun m => hlist ▸ h.nodup m) howner
    (fun m hm => absurd (hlist ▸ hm) (h.off hs m)) ht

/-- No thread moves, and no mutex gets a new owner. -/
theorem SigInv.congr (h : SigInv s) (hthread : s'.thread = s.thread) (hlist : s'.suspendThread = s.suspendThread)
    (howner : ∀ m u, (s'.mutex m).owner = some u → (s.mutex m).owner = some u) : SigInv s' := by
  refine ⟨fun m => hlist ▸ h.nodup m, fun u m hm => ?_, fun u => ?_⟩
  · rw [hthread]
    exact h.listed u m (hlist ▸ hm)
  · exact (h.threadOk u).frame (congrFun hthread u) (fun m => by rw [hlist]) fun m => howner m u

theorem setThread_ne {u : T} {th : SigThread M} (hu : u ≠ t) : (s.setThread t th).thread u = s.thread u :=
  Function.update_of_ne hu _ _

@[simp] theorem setThread_self {th : SigThread M} : (s.setThread t th).thread t = th := Function.update_self ..

@[simp] theorem setThread_suspendThread {th : SigThread M} : (s.setThread t th).suspendThread = s.suspendThread := rfl

@[simp] theorem setThread_mutex {th : SigThread M} : (s.setThread t th).mutex = s.mutex := rfl

/-- A mutex gets a new record, with the same owner or none. -/
theorem setMutex_owner {mutex : Mutex T} (hm : ∀ u, mutex.owner = some u → (s.mutex m).owner = some u) (m' : M) (u : T)
    (hu : ((s.setMutex m mutex).mutex m').owner = some u) : (s.mutex m').owner = some u := by
  by_cases he : m' = m
  · subst he
    exact hm u (by simpa [setMutex] using hu)
  · simpa [setMutex, he] using hu

/-- A mutex gets a new record, and belongs to `t`. -/
theorem setMutex_owner_ne {mutex : Mutex T} (hm : mutex.owner = some t) (m' : M) (u : T) (hu : u ≠ t)
    (hu' : ((s.setMutex m mutex).mutex m').owner = some u) : (s.mutex m').owner = some u := by
  by_cases he : m' = m
  · subst he
    have hut : some t = some u := hm.symm.trans (by simpa [setMutex] using hu')
    exact absurd (Option.some.inj hut).symm hu
  · simpa [setMutex, he] using hu'

/-! ## Taking -/

/-- The call returns. -/
theorem SigInv.ret (h : SigInv s) (hs : (s.thread t).suspended = false) (e : SigErr) : SigInv (s.ret t e) :=
  h.moveOff hs (fun _ hu => setThread_ne hu) rfl (fun _ _ _ => id) (by simpa [ThreadOk, SigSys.ret] using hs)

theorem SigInv.lendPriority (h : SigInv s) (t : T) (m : M) : SigInv (s.lendPriority t m) := by
  unfold SigSys.lendPriority
  split
  next => split <;> exact h.congr rfl rfl fun _ _ => id
  next => exact h

theorem lendPriority_eq (s : SigSys T M) (t : T) (m : M) : (s.lendPriority t m).thread = s.thread ∧
    (s.lendPriority t m).mutex = s.mutex := by
  unfold SigSys.lendPriority
  split
  next => split <;> exact ⟨rfl, rfl⟩
  next => exact ⟨rfl, rfl⟩

/-- `rt_thread_suspend`, by a thread that does not own the mutex. -/
theorem SigInv.suspendThreadSelf (h : SigInv s) (hs : (s.thread t).suspended = false) (ho : (s.mutex m).owner ≠ some t)
    (he : (s.thread t).error = .eok ∨ (s.thread t).error = .eintr) (time : Int) :
    SigInv (s.suspendThreadSelf t m time) :=
  h.moveOff hs (fun _ hu => setThread_ne hu) rfl (fun _ _ _ => id)
    (by simpa [ThreadOk, SigSys.suspendThreadSelf] using ⟨ho, he⟩)

/-- The insertion into the suspend list. -/
theorem SigInv.insertThread (h : SigInv s) {time : Int} (hpc : (s.thread t).pc = .insert m time) :
    SigInv (s.insertThread t m time) := by
  have hok := h.threadOk t
  unfold ThreadOk at hok
  rw [hpc] at hok
  obtain ⟨hs, ho, he⟩ := hok
  have hoff : ∀ m, t ∉ s.suspendThread m := fun m' hm => by
    obtain ⟨-, time', hpc'⟩ := h.listed t m' hm
    exact absurd (hpc.symm.trans hpc') nofun
  have hperm := MqSys.insertSuspended_perm (s.mutex m).flag s.prio t (s.suspendThread m)
  have hlist : ∀ m', (s.insertThread t m time).suspendThread m' =
      if m' = m then MqSys.insertSuspended (s.mutex m).flag s.prio t (s.suspendThread m) else s.suspendThread m' :=
    fun m' => by
      by_cases hm : m' = m
      · subst hm
        simp [SigSys.insertThread, goto, setThread]
      · simp [SigSys.insertThread, goto, setThread, hm]
  refine h.move t (fun u hu => setThread_ne hu) (fun m' u hu => ?_) (fun m' => ?_) (fun _ _ _ => id) (fun m' hm => ?_) ?_
  · rw [hlist]
    split
    next hm =>
      rw [hperm.mem_iff, hm, List.mem_cons]
      exact ⟨fun h => h.resolve_left hu, .inr⟩
    next => rfl
  · rw [hlist]
    split
    next => exact hperm.nodup_iff.mpr (List.nodup_cons.mpr ⟨hoff m, h.nodup m⟩)
    next => exact h.nodup m'
  · rw [hlist] at hm
    split at hm
    next he => exact ⟨by simpa [SigSys.insertThread, goto] using hs, time, by simp [SigSys.insertThread, goto, he]⟩
    next => exact absurd hm (hoff m')
  · have hmem : t ∈ (s.insertThread t m time).suspendThread m := by
      rw [hlist, if_pos rfl]
      exact hperm.mem_iff.mpr List.mem_cons_self
    unfold ThreadOk
    simp only [SigSys.insertThread, goto, setThread_self]
    rw [if_pos hs]
    exact ⟨hmem, ho, he⟩

/-- **The first try of `rt_mutex_take`.** -/
theorem SigInv.rtMutexTake (h : SigInv s) (hpc : (s.thread t).pc = .idle) (m : M) (time : Int) :
    SigInv (s.rtMutexTake t m time) := by
  have hs : (s.thread t).suspended = false := by
    have hok := h.threadOk t
    unfold ThreadOk at hok
    rw [hpc] at hok
    exact hok
  have h₁ : SigInv (s.setThread t { s.thread t with error := .eok }) :=
    h.moveOff hs (fun _ hu => setThread_ne hu) rfl (fun _ _ _ => id) (by simpa [ThreadOk, hpc] using hs)
  unfold SigSys.rtMutexTake
  generalize hs₁ : s.setThread t { s.thread t with error := .eok } = s₁ at h₁ ⊢
  have hthread : s₁.thread t = { s.thread t with error := .eok } := hs₁ ▸ setThread_self
  have hs₁' : (s₁.thread t).suspended = false := by rw [hthread]; exact hs
  simp only
  split_ifs with hown hval htime
  · have h₂ : SigInv (s₁.setMutex m { s₁.mutex m with hold := ((s₁.mutex m).hold + 1) % 2 ^ 8 }) :=
      h₁.congr rfl rfl (setMutex_owner fun _ => id)
    exact h₂.ret hs₁' .eok
  · exact h₁.moveOff hs₁' (fun _ hu => setThread_ne hu) rfl (setMutex_owner_ne rfl)
      (by simpa [ThreadOk, SigSys.ret, setMutex] using hs₁')
  · have h₂ : SigInv (s₁.setThread t { s₁.thread t with error := .etimeout }) :=
      h₁.moveOff hs₁' (fun _ hu => setThread_ne hu) rfl (fun _ _ _ => id)
        (by simpa [ThreadOk, hthread, hpc] using hs)
    exact h₂.ret (by rw [setThread_self]; exact hs₁') .etimeout
  · obtain ⟨hlt, hlm⟩ := lendPriority_eq s₁ t m
    have h₂ : SigInv ((s₁.lendPriority t m).suspendThreadSelf t m time) := by
      refine (h₁.lendPriority t m).suspendThreadSelf ?_ ?_ ?_ time
      · rw [hlt]
        exact hs₁'
      · rw [hlm]
        exact hown
      · rw [hlt, hthread]
        exact .inl rfl
    exact h₂.insertThread (by simp [SigSys.suspendThreadSelf])

/-- A thread that is suspended, but for one that has just suspended itself, is on a list. -/
theorem SigInv.blocked (h : SigInv s) (hs : (s.thread t).suspended) (hpc : inserting (s.thread t) = false) :
    ∃ m time, (s.thread t).pc = .blocked m time ∧ (s.mutex m).owner ≠ some t ∧
      ((s.thread t).error = .eok ∨ (s.thread t).error = .eintr) := by
  have hok := h.threadOk t
  unfold ThreadOk at hok
  cases hp : (s.thread t).pc with
  | blocked m time =>
      rw [hp] at hok
      simp only [if_pos hs] at hok
      exact ⟨m, time, rfl, hok.2⟩
  | insert m time =>
      rw [inserting, hp] at hpc
      exact absurd hpc.symm Bool.false_ne_true
  | idle | decValue | setOwner | setPriority | incHold =>
      rw [hp] at hok
      exact absurd (hok.symm.trans hs) Bool.false_ne_true
  | again | lend | suspend =>
      rw [hp] at hok
      exact absurd (hok.1.symm.trans hs) Bool.false_ne_true

/-- "set mutex owner and original priority" in a retry, one statement at a time. -/
theorem SigInv.acquire (h : SigInv s) (hs : (s.thread t).suspended = false) (mutex : Mutex T)
    (hm : ∀ u, u ≠ t → mutex.owner = some u → (s.mutex m).owner = some u) {pc : SigPc M}
    (hpc : pc = .setOwner m ∨ pc = .setPriority m ∨ pc = .incHold m) : SigInv ((s.setMutex m mutex).goto t pc) := by
  refine h.moveOff hs (fun _ hu => setThread_ne hu) rfl (fun m' u hu ho => ?_) ?_
  · by_cases he : m' = m
    · subst he
      exact hm u hu (by simpa [goto, setMutex] using ho)
    · simpa [goto, setMutex, he] using ho
  · rcases hpc with rfl | rfl | rfl <;> simpa [ThreadOk, goto, setMutex] using hs

/-- **The rest of `rt_mutex_take`**, and all of its retries. -/
theorem SigInv.continueTake (h : SigInv s) (hgo : canContinue (s.thread t)) : SigInv (s.continueTake t) := by
  have hok := h.threadOk t
  unfold ThreadOk at hok
  unfold canContinue at hgo
  unfold SigSys.continueTake
  cases hpc : (s.thread t).pc with
  | idle => exact h
  | blocked m time =>
      rw [hpc] at hok hgo
      have hs : (s.thread t).suspended = false := by simpa using hgo
      simp only [hs, if_neg Bool.false_ne_true] at hok
      show SigInv (s.takeWoken t m time)
      unfold takeWoken
      split_ifs with herr hintr
      · exact h.moveOff hs (fun _ hu => setThread_ne hu) rfl (fun _ _ _ => id)
          (by simpa [ThreadOk, goto, hs, hintr] using fun ho => herr (hok ho))
      · exact h.ret hs _
      · exact h.ret hs _
  | again m time =>
      rw [hpc] at hok
      obtain ⟨hs, ho, he⟩ := hok
      show SigInv (s.testValue t m time)
      unfold testValue
      split_ifs with hval htime
      · exact h.moveOff hs (fun _ hu => setThread_ne hu) rfl (fun _ _ _ => id) (by simpa [ThreadOk, goto] using hs)
      · exact h.moveOff hs (fun u hu => by rw [SigSys.ret, setThread_ne hu, setThread_ne hu]) rfl (fun _ _ _ => id)
          (by simpa [ThreadOk, SigSys.ret] using hs)
      · exact h.moveOff hs (fun _ hu => setThread_ne hu) rfl (fun _ _ _ => id)
          (by simpa [ThreadOk, goto] using ⟨hs, ho, he⟩)
  | decValue m =>
      rw [hpc] at hok
      refine h.acquire (m := m) hok _ ?_ (.inl rfl)
      exact fun _ _ ho => ho
  | setOwner m =>
      rw [hpc] at hok
      refine h.acquire (m := m) hok _ ?_ (.inr (.inl rfl))
      exact fun u hu ho => absurd (Option.some.inj ho).symm hu
  | setPriority m =>
      rw [hpc] at hok
      refine h.acquire (m := m) hok _ ?_ (.inr (.inr rfl))
      exact fun _ _ ho => ho
  | incHold m =>
      rw [hpc] at hok
      have h₂ : SigInv (s.setMutex m { s.mutex m with hold := ((s.mutex m).hold + 1) % 2 ^ 8 }) :=
        h.congr rfl rfl (setMutex_owner fun _ => id)
      exact h₂.ret hok .eok
  | lend m time =>
      rw [hpc] at hok
      obtain ⟨hs, ho, he⟩ := hok
      obtain ⟨hlt, hlm⟩ := lendPriority_eq s t m
      exact (h.lendPriority t m).moveOff (by rw [hlt]; exact hs) (fun _ hu => setThread_ne hu) rfl (fun _ _ _ => id)
        (by simpa [ThreadOk, goto, setThread, hlt, hlm] using ⟨hs, ho, he⟩)
  | suspend m time =>
      rw [hpc] at hok
      obtain ⟨hs, ho, he⟩ := hok
      exact h.suspendThreadSelf hs ho (.inr he) time
  | insert m time => exact h.insertThread hpc

/-! ## Releasing, signals and time limits -/

/-- A thread that waits on a list is taken off it, and `s'` is the state after that: it is not suspended, and if it owns
the mutex it was waiting for, it has no error. -/
theorem SigInv.leave (h : SigInv s) (t : T) (m : M) (time : Int) (hpc : (s'.thread t).pc = .blocked m time)
    (hs' : (s'.thread t).suspended = false) (hlist : s'.suspendThread = fun m => (s.suspendThread m).erase t)
    (hthread : ∀ u, u ≠ t → s'.thread u = s.thread u)
    (howner : ∀ m u, u ≠ t → (s'.mutex m).owner = some u → (s.mutex m).owner = some u)
    (herr : (s'.mutex m).owner = some t → (s'.thread t).error = .eok) : SigInv s' := by
  refine h.move t hthread (fun m' u hu => ?_) (fun m' => ?_) howner (fun m' hm' => ?_) ?_
  · rw [hlist]
    exact List.mem_erase_of_ne hu
  · rw [hlist]
    exact (h.nodup m').erase t
  · rw [hlist] at hm'
    exact absurd hm' (h.nodup m').not_mem_erase
  · unfold ThreadOk
    rw [hpc]
    simp only [hs', if_neg Bool.false_ne_true]
    exact herr

/-- The mutex goes to the first thread that waits, if that has no error, or becomes free. -/
theorem SigInv.passOn (h : SigInv s) (hok : ∀ w ∈ (s.suspendThread m).head?, (s.thread w).error ≠ .eintr) :
    SigInv (s.passOn m) := by
  unfold SigSys.passOn
  cases hq : s.suspendThread m with
  | nil => exact h.congr rfl rfl (setMutex_owner nofun)
  | cons w ws =>
      obtain ⟨hs, time, hpc⟩ := h.listed w m (by rw [hq]; exact List.mem_cons_self)
      obtain ⟨m', time', hpc', -, herr⟩ := h.blocked hs (by rw [inserting, hpc])
      have hne : (s.thread w).error ≠ .eintr := hok w (by rw [hq]; rfl)
      have herr : (s.thread w).error = .eok := herr.resolve_right hne
      have hs' : ((s.setMutex m ((s.mutex m).give w (s.prio w))).thread w).suspended := hs
      simp only [SigSys.resume, if_pos hs']
      refine h.leave w m time ?_ (by simp) rfl (fun _ hu => setThread_ne hu) (setMutex_owner_ne rfl) fun _ => ?_
      · simpa [setMutex] using hpc
      · simpa [setMutex] using herr

/-- Nobody is suspended by being passed over. -/
theorem passOn_suspended (hs : (s.thread t).suspended = false) : ((s.passOn m).thread t).suspended = false := by
  unfold SigSys.passOn SigSys.resume
  split
  next w _ _ =>
    split
    next =>
      by_cases hu : t = w
      · subst hu
        simp
      · rw [setThread_ne hu]
        exact hs
    next => exact hs
  next => exact hs

/-- The first thread that waits gets the mutex, whatever its error is. -/
theorem passOn_cons {w : T} {ws : List T} (hq : s.suspendThread m = w :: ws) :
    ((s.passOn m).mutex m).owner = some w ∧ ((s.passOn m).thread w).pc = (s.thread w).pc ∧
      ((s.passOn m).thread w).error = (s.thread w).error := by
  simp only [SigSys.passOn, hq, SigSys.resume]
  split <;> simp [setMutex, unlink, Mutex.give]

/-- **`rt_mutex_release`.** -/
theorem SigInv.rtMutexRelease (h : SigInv s) (hpc : (s.thread t).pc = .idle) (hok : s.SignalOk (.release t m)) :
    SigInv (s.rtMutexRelease t m) := by
  have hs : (s.thread t).suspended = false := by
    have hok := h.threadOk t
    unfold ThreadOk at hok
    rw [hpc] at hok
    exact hok
  unfold SigSys.rtMutexRelease
  split
  next =>
    have h₁ : SigInv (s.setThread t { s.thread t with error := .error }) :=
      h.moveOff hs (fun _ hu => setThread_ne hu) rfl (fun _ _ _ => id) (by simpa [ThreadOk, hpc] using hs)
    exact h₁.ret (by rw [setThread_self]; exact hs) .error
  next hown =>
    have h₁ : SigInv (s.setMutex m { s.mutex m with hold := Word.sub 8 (s.mutex m).hold 1 }) :=
      h.congr rfl rfl (setMutex_owner fun _ ho => ho)
    have hlast : ((s.setMutex m { s.mutex m with hold := Word.sub 8 (s.mutex m).hold 1 }).mutex m).hold =
        Word.sub 8 (s.mutex m).hold 1 := by simp [setMutex]
    simp only
    split_ifs with hzero
    · have h₂ : ∀ prio, SigInv { s.setMutex m { s.mutex m with hold := Word.sub 8 (s.mutex m).hold 1 } with
          prio := prio } := fun _ => h₁.congr rfl rfl fun _ _ ho => ho
      have h₃ : ∀ prio, SigInv (SigSys.passOn { s.setMutex m { s.mutex m with hold := Word.sub 8 (s.mutex m).hold 1 } with
          prio := prio } m) := fun prio => (h₂ prio).passOn (hok (not_not.mp hown) (hlast.symm.trans hzero))
      exact (h₃ _).ret (passOn_suspended hs) .eok
    · exact h₁.ret hs .eok

/-- **`rt_thread_kill`.** -/
theorem SigInv.rtThreadKill (h : SigInv s) (hok : inserting (s.thread t) = false) : SigInv (s.rtThreadKill t) := by
  unfold SigSys.rtThreadKill SigSys.resume
  split
  next hs =>
    obtain ⟨m, time, hpc, ho, -⟩ := h.blocked hs hok
    refine h.leave t m time ?_ (by simp) rfl (fun u hu => ?_) (fun _ _ _ hu => hu) fun ho' => absurd ho' ho
    · simpa using hpc
    · rw [setThread_ne hu, setThread_ne hu]
      rfl
  next hs =>
    have hs : (s.thread t).suspended = false := by simpa using hs
    refine h.moveOff hs (fun _ hu => setThread_ne hu) rfl (fun _ _ _ => id) ?_
    have hold := h.threadOk t
    unfold ThreadOk at hold ⊢
    simpa using hold

/-- **`rt_thread_handle_sig`.** -/
theorem SigInv.rtThreadHandleSig (h : SigInv s) (hs : (s.thread t).suspended = false) (hok : ¬ s.Handed t) :
    SigInv (s.rtThreadHandleSig t) := by
  refine h.moveOff hs (fun _ hu => setThread_ne hu) rfl (fun _ _ _ => id) ?_
  have hold := h.threadOk t
  unfold Handed at hok
  unfold ThreadOk at hold ⊢
  cases hpc : (s.thread t).pc with
  | idle | decValue | setOwner | setPriority | incHold => simpa [SigSys.rtThreadHandleSig, hpc] using hs
  | blocked m time =>
      rw [hpc] at hok
      simpa [SigSys.rtThreadHandleSig, hpc, hs] using hok
  | again | lend | suspend =>
      rw [hpc] at hold
      simpa [SigSys.rtThreadHandleSig, hpc, hs] using hold.2.1
  | insert m time =>
      rw [hpc] at hold
      exact absurd (hs.symm.trans hold.1) Bool.false_ne_true

/-- **`rt_thread_timeout`.** -/
theorem SigInv.rtThreadTimeout (h : SigInv s) (ht : timeLimited (s.thread t)) : SigInv (s.rtThreadTimeout t) := by
  unfold timeLimited at ht
  cases hpc : (s.thread t).pc with
  | blocked m time =>
      rw [hpc] at ht
      have hs : (s.thread t).suspended := (Bool.and_eq_true_iff.mp ht).1
      obtain ⟨m', time', hpc', ho, -⟩ := h.blocked hs (by rw [inserting, hpc])
      have hpc' : ((s.rtThreadTimeout t).thread t).pc = .blocked m' time' := by
        simpa [SigSys.rtThreadTimeout] using hpc'
      exact h.leave t m' time' hpc' (by simp [SigSys.rtThreadTimeout]) rfl (fun _ hu => setThread_ne hu) (fun _ _ _ hu => hu)
        fun ho' => absurd ho' ho
  | idle | again | decValue | setOwner | setPriority | incHold | lend | suspend | insert =>
      rw [hpc] at ht
      exact absurd ht Bool.false_ne_true

/-! ## Runs -/

/-- **One step** that meets the condition keeps the invariant. -/
theorem SigInv.step {e : SigEvent T M} (h : SigInv s) (hok : s.SignalOk e) (hs : s.Step e s') : SigInv s' := by
  obtain ⟨he, rfl⟩ := hs
  cases e with
  | take t m time => exact h.rtMutexTake he m time
  | «continue» t => exact h.continueTake he
  | release t m => exact h.rtMutexRelease he hok
  | kill t => exact h.rtThreadKill hok
  | handle t => exact h.rtThreadHandleSig he.2 hok
  | timeout t => exact h.rtThreadTimeout he

/-- A step that violates the condition, and is no signal in a retry, leaves a thread with an error behind that has just
been handed the mutex it waits for. -/
theorem Sound.signalOk {e : SigEvent T M} (h : SigInv s) (hs : s.Step e s') (hkill : ∀ t, e ≠ .kill t)
    (hsound : s'.Sound) : s.SignalOk e := by
  obtain ⟨he, rfl⟩ := hs
  cases e with
  | take | «continue» | timeout => trivial
  | kill t => exact absurd rfl (hkill t)
  | handle t =>
      intro hhanded
      cases hpc : (s.thread t).pc with
      | blocked m time =>
          have howner : (s.mutex m).owner = some t := by simpa [Handed, hpc] using hhanded
          have herr := (hsound.no_error m t time (by simpa [exec, rtThreadHandleSig] using hpc) howner).2
          simp [exec, rtThreadHandleSig] at herr
      | idle | again | decValue | setOwner | setPriority | incHold | lend | suspend | insert =>
          simp [Handed, hpc] at hhanded
  | release t m =>
      intro hown hlast w hw herr
      obtain ⟨ws, hq⟩ := List.head?_eq_some_iff.mp hw
      obtain ⟨hsus, time, hpc⟩ := h.listed w m (by rw [hq]; exact List.mem_cons_self)
      have hwt : w ≠ t := by
        rintro rfl
        exact absurd (he.symm.trans hpc) nofun
      have hexec : ∃ s₁ : SigSys T M, s₁.suspendThread m = w :: ws ∧ s₁.thread = s.thread ∧
          s.exec (.release t m) = (s₁.passOn m).ret t .eok := by
        refine ⟨{ s.setMutex m { s.mutex m with hold := Word.sub 8 (s.mutex m).hold 1 } with
          prio := Function.update s.prio t (s.mutex m).originalPriority }, hq, rfl, ?_⟩
        simp only [exec, SigSys.rtMutexRelease, setMutex, Function.update_self]
        rw [if_neg (not_not.mpr hown), if_pos hlast]
      obtain ⟨s₁, hq₁, hthread₁, hexec⟩ := hexec
      obtain ⟨howner, hpc', herr'⟩ := passOn_cons hq₁
      rw [hexec] at hsound
      have hno := hsound.no_error m w time (by rw [SigSys.ret, setThread_ne hwt, hpc', hthread₁, hpc]) howner
      rw [SigSys.ret, setThread_ne hwt, herr', hthread₁, herr] at hno
      exact absurd hno.2 (by decide)

/-- **Signals and mutexes.** In a run whose steps all meet the condition, no thread waits for a mutex that it owns, and
a thread that was handed the mutex it waits for returns `RT_EOK` with its next step, however often it was woken by
signals and waited again before. For every step but a signal the condition is exact: the next step keeps this if and
only if it meets the condition. -/
theorem signals_sound (flag : M → IpcFlag) (prio : T → Nat) (es : List (SigEvent T M)) (s : SigSys T M)
    (hrun : Run (Guarded SignalOk Step) (init flag prio) es s) :
    (∀ m t, (s.mutex m).owner = some t → t ∉ s.suspendThread m) ∧
      (∀ m t time, (s.thread t).pc = .blocked m time → (s.mutex m).owner = some t →
        s.Enabled (.continue t) ∧ ((s.exec (.continue t)).thread t).pc = .idle ∧
          ((s.exec (.continue t)).thread t).result = .eok) ∧
      ∀ e s', s.Step e s' → (∀ t, e ≠ .kill t) → (s'.Sound ↔ s.SignalOk e) := by
  have h : SigInv s := by
    refine hrun.guarded (I := SigInv) ⟨fun _ => List.nodup_nil, fun _ _ hm => absurd hm List.not_mem_nil, fun _ => rfl⟩ ?_
    exact fun s e s' h hok hs => h.step hok hs
  refine ⟨h.sound.not_waiting, fun m t time hpc ho => ?_, fun e s' hs hkill => ⟨Sound.signalOk h hs hkill, fun hok => ?_⟩⟩
  · obtain ⟨hs, herr⟩ := h.sound.no_error m t time hpc ho
    refine ⟨by simp [Enabled, canContinue, hpc, hs], ?_, ?_⟩ <;>
      simp [exec, SigSys.continueTake, hpc, takeWoken, herr, SigSys.ret]
  · exact (h.step hok hs).sound

/-- The two threads of the runs below have the names 0 and 1. -/
local instance twoThreads : NeZero 2 := ⟨by decide⟩

/-- The events of the runs below: thread 0 owns the mutex; thread 1 waits for it, is woken by a signal, and waits again. -/
def interrupted : List (SigEvent (Fin 2) Unit) :=
  [.take 0 () (-1), .take 1 () (-1), .kill 1, .handle 1, .continue 1, .continue 1, .continue 1, .continue 1, .continue 1]

/-- Then thread 0 releases the mutex, and thread 1 goes on. -/
def passedOn : List (SigEvent (Fin 2) Unit) :=
  interrupted ++ [.release 0 (), .continue 1, .continue 1, .continue 1, .continue 1, .continue 1]

/-- Thread 1 waits again, and is on the list of a mutex that it does not own. -/
theorem signals_sound_run : ∃ s : SigSys (Fin 2) Unit, s.suspendThread () = [1] ∧ (s.thread 1).error = .eintr ∧
    (∀ m t, (s.mutex m).owner = some t → t ∉ s.suspendThread m) ∧
      (∀ m t time, (s.thread t).pc = .blocked m time → (s.mutex m).owner = some t →
        s.Enabled (.continue t) ∧ ((s.exec (.continue t)).thread t).pc = .idle ∧
          ((s.exec (.continue t)).thread t).result = .eok) ∧
      ∀ e s', s.Step e s' → (∀ t, e ≠ .kill t) → (s'.Sound ↔ s.SignalOk e) := by
  have hend : ((interrupted.foldlM (fun s e => if SignalOk s e then Run.tryStep Enabled exec s e else none)
      (init (fun _ => .prio) fun _ => 20)).map fun s => (s.suspendThread (), (s.thread 1).error)) =
        some ([1], .eintr) := by decide +kernel
  obtain ⟨s, hs, hobs⟩ := Option.map_eq_some_iff.mp hend
  have hrun : Run (Guarded SignalOk Step) (init (fun _ => .prio) fun _ => 20) interrupted s :=
    Run.of_foldlM_guarded (fun _ _ _ h => Run.of_tryStep h) hs
  exact ⟨s, congrArg Prod.fst hobs, congrArg Prod.snd hobs, signals_sound _ _ _ s hrun⟩

/-- **Handed over to a thread that waits again.** Thread 0 releases the mutex to thread 1, whose error is still
`-RT_EINTR`: thread 1 tries again, and waits for the mutex that it owns. -/
theorem signals_not_sound : ¬ ∀ (flag : Unit → IpcFlag) (prio : Fin 2 → Nat) (es : List (SigEvent (Fin 2) Unit))
    (s : SigSys (Fin 2) Unit), Run Step (init flag prio) es s → ∀ m t, (s.mutex m).owner = some t →
    t ∉ s.suspendThread m := by
  intro hall
  have hend : ((passedOn.foldlM (Run.tryStep Enabled exec) (init (fun _ => .prio) fun _ => 20)).map
      fun s => ((s.mutex ()).owner, s.suspendThread ())) = some (some 1, [1]) := by decide +kernel
  obtain ⟨s, hs, hobs⟩ := Option.map_eq_some_iff.mp hend
  have hrun : Run Step (init (fun _ => .prio) fun _ => 20) _ s := Run.of_foldlM_tryStep hs
  have hlist : s.suspendThread () = [1] := congrArg Prod.snd hobs
  refine hall _ _ _ s hrun () 1 (congrArg Prod.fst hobs) ?_
  rw [hlist]
  exact List.mem_cons_self

end CoreLink.RtThread.SigSys
