/-
# `CoreLink.RtThread.PthreadRwlockWaits` — who is left behind at a read-write lock.

Only an unlock wakes somebody, and it decides by the counters. While no lock is held, a writer that could be suspended has
a token, or somebody with a token before it who is going to lock (`Inv.writers`): a token that is taken is taken by a
writer, and that writer gets the lock. While no writer has the lock or waits for it, no reader depends on being woken
(`Inv.readers`), as long as the condition `StepWakes` is met: this is where a broadcast can miss a reader on its way, and
where the last waiting writer, when its time is over, ought to wake the readers that it has held up, and does not.
-/
import CoreLink.RtThread.PthreadCondRuns
import CoreLink.RtThread.PthreadRwlockExclusive
import Mathlib.Data.Fintype.Option

namespace CoreLink.RtThread

open CoreLink.Lib

namespace RwPc

/-- The thread is counted as one that waits, on this side. -/
def counted : RwSide → RwPc → Bool
  | side, wait side' _ | side, unlocked side' _ _ | side, taking side' _ | side, relocking side' _ _
  | side, leave side' _ _ => side = side'
  | _, idle | _, init .. | _, locking _ | _, test _ | _, enter .. | _, acquire _ | _, wake | _, unlocking _
  | _, asserted => false

/-- The thread is in `rt_sem_take` on the condition of this side. -/
def isTaking : RwSide → RwPc → Bool
  | side, taking side' _ => side = side'
  | _, idle | _, init .. | _, locking _ | _, test _ | _, enter .. | _, wait .. | _, unlocked .. | _, relocking ..
  | _, leave .. | _, acquire _ | _, wake | _, unlocking _ | _, asserted => false

/-- The thread has found that it has to wait, and still has the mutex. -/
def isEntering : RwSide → RwPc → Bool
  | side, enter side' _ | side, wait side' _ => side = side'
  | _, idle | _, init .. | _, locking _ | _, test _ | _, unlocked .. | _, taking .. | _, relocking .. | _, leave ..
  | _, acquire _ | _, wake | _, unlocking _ | _, asserted => false

/-- A writer past the semaphore that is going to test the counters or has found that it may have the lock, or an unlock
that is going to signal. -/
def isPromised : RwPc → Bool
  | relocking .writer _ result | leave .writer _ result => result = .ok
  | test (.lock .writer _) | acquire .writer | wake => true
  | relocking .reader _ _ | leave .reader _ _ | test (.lock .reader _) | test (.trylock _) | test .unlock
  | acquire .reader | idle | init .. | locking _ | enter .. | wait .. | unlocked .. | taking .. | unlocking _
  | asserted => false

/-- A writer between its test and what it does about it, or an unlock that is going to wake somebody. -/
def isDeciding : RwPc → Bool
  | test (.lock .writer _) | enter .writer _ | acquire .writer | wake => true
  | test (.lock .reader _) | test (.trylock _) | test .unlock | enter .reader _ | acquire .reader | idle | init ..
  | locking _ | wait .. | unlocked .. | taking .. | relocking .. | leave .. | unlocking _ | asserted => false

end RwPc

namespace RwSys

variable {T : Type*}

/-! ## The invariant -/

/-- A writer that could be suspended: there is a token for it, or somebody who is going to take the lock or to signal. -/
def WritersCovered (s : RwSys T) : Prop :=
  (∃ t, (s.pc t).onWay .writer = true ∨ s.Suspended .writer t) →
    0 < (s.cond .writer).value ∨ ∃ t, (s.pc t).isPromised = true ∨ ((s.cond .writer).thread t).HandedOver

/-- What holds between the steps. -/
structure Inv (s : RwSys T) : Prop where
  sound : ∀ side, (s.cond side).Sound
  taking : ∀ side t, ((s.cond side).thread t).pc = .idle ↔ (s.pc t).isTaking side = false
  counted : ∀ side, ∃ ts : List T, Waits (fun pc => pc.counted side = true) s.pc ts ∧ s.nwait side = ts.length
  entering : ∀ side t, (s.pc t).isEntering side = true → s.mustWait side = true
  owned : ∀ t, s.owner = some t → (s.pc t).inCrit = true
  value : (s.cond .reader).value ≤ 1
  writers : s.refcount = 0 → s.WritersCovered
  readers : 0 ≤ s.refcount → s.nwait .writer = 0 → (∃ t, (s.pc t).isDeciding = true) ∨ s.ReadersCovered

theorem inv_init : (init : RwSys T).Inv where
  sound _ := SemSys.sound_init
  taking _ _ := iff_of_true rfl rfl
  counted _ := ⟨[], .init fun _ => nofun, rfl⟩
  entering _ _ h := absurd h Bool.false_ne_true
  owned _ h := absurd h nofun
  value := Nat.zero_le 1
  writers _ := by
    rintro ⟨t, ht | ht⟩
    · exact absurd ht Bool.false_ne_true
    · exact ht.elim
  readers _ _ := .inr ⟨fun _ h => h, fun _ _ h => absurd h Bool.false_ne_true, fun _ h => absurd h Bool.false_ne_true⟩

/-- **What the invariant says when nobody can go on.** -/
theorem Inv.notStranded {s : RwSys T} (h : s.Inv) : s.NotStranded := by
  intro hnone
  have hfree : s.owner = none := by
    cases ho : s.owner with
    | none => rfl
    | some t =>
      have hcrit := h.owned t ho
      refine absurd ?_ (hnone t)
      cases hpc : s.pc t with
      | test | enter | leave | acquire | wake | unlocking =>
        refine .inl ?_
        rw [hpc]
        trivial
      | wait side timed =>
        refine .inr ⟨if timed = true then 0 else -1, ?_⟩
        rw [hpc]
        cases timed with
        | true => exact Int.le_refl 0
        | false => rfl
      | idle | init | locking | unlocked | taking | relocking | asserted =>
        rw [hpc] at hcrit
        exact absurd hcrit Bool.false_ne_true
  have hpcs : ∀ t, s.pc t = .idle ∨ s.pc t = .asserted ∨ ∃ side timed, s.pc t = .taking side timed ∧
      ((s.cond side).thread t).pc ≠ .woken := by
    intro t
    have hstep : ¬ s.CanStep t (s.pc t) := fun hc => hnone t (.inl hc)
    cases hpc : s.pc t with
    | idle => exact .inl rfl
    | asserted => exact .inr (.inl rfl)
    | taking side timed =>
      rw [hpc] at hstep
      exact .inr (.inr ⟨side, timed, rfl, hstep⟩)
    | wait side timed =>
      refine absurd (.inr ⟨if timed = true then 0 else -1, ?_⟩) (hnone t)
      rw [hpc]
      cases timed with
      | true => exact Int.le_refl 0
      | false => rfl
    | locking =>
      rw [hpc] at hstep
      exact absurd (fun _ => .inl hfree) hstep
    | relocking =>
      rw [hpc] at hstep
      exact absurd (.inl hfree) hstep
    | init | test | enter | unlocked | leave | acquire | wake | unlocking =>
      rw [hpc] at hstep
      exact absurd trivial hstep
  have hquiet : ∀ p : RwPc → Bool, p .idle = false → p .asserted = false → (∀ side timed, p (.taking side timed) = false) →
      ∀ t, p (s.pc t) = false := by
    intro p hidle hassert htaking t
    rcases hpcs t with hpc | hpc | ⟨side, timed, hpc, -⟩
    · rw [hpc, hidle]
    · rw [hpc, hassert]
    · rw [hpc, htaking]
  have hhanded : ∀ side t, ¬ ((s.cond side).thread t).HandedOver := by
    intro side t hh
    have hne : ((s.cond side).thread t).pc ≠ .idle := by
      rw [hh.1]
      exact nofun
    have htaking : (s.pc t).isTaking side = true := by
      by_contra hnot
      exact hne ((h.taking side t).mpr (Bool.eq_false_iff.mpr hnot))
    rcases hpcs t with hpc | hpc | ⟨side', timed, hpc, hwoken⟩
    · rw [hpc] at htaking
      exact absurd htaking Bool.false_ne_true
    · rw [hpc] at htaking
      exact absurd htaking Bool.false_ne_true
    · rw [hpc] at htaking
      obtain rfl : side = side' := of_decide_eq_true htaking
      exact hwoken hh.1
  constructor
  · intro t ht
    by_contra hnot
    obtain ⟨href, hnobody⟩ := not_or.mp hnot
    have hzero : s.nwait .writer = 0 := by
      obtain ⟨ts, hts, hcount⟩ := h.counted .writer
      cases ts with
      | nil => exact hcount
      | cons u us =>
        -- a writer that is counted can only be suspended
        have hu : (s.pc u).counted .writer = true := (hts.mem_iff u).mp List.mem_cons_self
        rcases hpcs u with hpc | hpc | ⟨side, timed, hpc, hwoken⟩
        · rw [hpc] at hu
          exact absurd hu Bool.false_ne_true
        · rw [hpc] at hu
          exact absurd hu Bool.false_ne_true
        · rw [hpc] at hu
          obtain rfl : .writer = side := of_decide_eq_true hu
          refine absurd ⟨u, ?_⟩ hnobody
          have hne : ((s.cond .writer).thread u).pc ≠ .idle := by
            intro hidle
            have hfalse := (h.taking .writer u).mp hidle
            rw [hpc] at hfalse
            exact absurd hfalse (by simp [RwPc.isTaking])
          show ((s.cond .writer).thread u).isWaiting
          unfold SemThread.isWaiting
          cases hsem : ((s.cond .writer).thread u).pc with
          | idle => exact hne hsem
          | woken => exact hwoken hsem
          | waiting => trivial
    rcases h.readers (by omega) hzero with ⟨u, hu⟩ | hcovered
    · rw [hquiet RwPc.isDeciding rfl rfl (fun _ _ => rfl) u] at hu
      exact Bool.false_ne_true hu
    · exact hcovered.none t ht
  · intro t ht hzero
    rcases h.writers hzero ⟨t, .inr ht⟩ with hpos | ⟨u, hu | hu⟩
    · have hmem : t ∈ (s.cond .writer).suspendThread := ((h.sound .writer).mem_iff t).mpr ht
      rw [(h.sound .writer).avail hpos] at hmem
      exact List.not_mem_nil hmem
    · rw [hquiet RwPc.isPromised rfl rfl (fun _ _ => rfl) u] at hu
      exact Bool.false_ne_true hu
    · exact hhanded .writer u hu

variable [DecidableEq T] {s s' : RwSys T} {e : RwEvent T} {t : T} {pc' : RwPc}

/-! ## What a step has to show -/

/-- The threads that are counted, when one of them moves. -/
theorem counted_update {side : RwSide} {n n' : Int}
    (h : ∃ ts : List T, Waits (fun pc => pc.counted side = true) s.pc ts ∧ n = ts.length)
    (hn : n' + ((s.pc t).counted side).toNat = n + (pc'.counted side).toNat) :
    ∃ ts : List T, Waits (fun pc => pc.counted side = true) (Function.update s.pc t pc') ts ∧ n' = ts.length := by
  obtain ⟨ts, hts, hcount⟩ := h
  cases hq : pc'.counted side with
  | true =>
    cases ht : (s.pc t).counted side with
    | true =>
      rw [hq, ht] at hn
      exact ⟨ts, hts.update (iff_of_true hq ht), by omega⟩
    | false =>
      rw [hq, ht] at hn
      have htrue : true.toNat = 1 := rfl
      have hfalse : false.toNat = 0 := rfl
      refine ⟨t :: ts, hts.suspend (by rw [ht]; exact Bool.false_ne_true) hq (.refl _), ?_⟩
      rw [List.length_cons]
      omega
  | false =>
    have hnot : ¬ pc'.counted side = true := by rw [hq]; exact Bool.false_ne_true
    cases ht : (s.pc t).counted side with
    | true =>
      rw [hq, ht] at hn
      have htrue : true.toNat = 1 := rfl
      have hfalse : false.toNat = 0 := rfl
      have hmem : t ∈ ts := (hts.mem_iff t).mpr ht
      have hlen := List.length_erase_of_mem hmem
      have hpos := List.length_pos_of_mem hmem
      exact ⟨ts.erase t, hts.wake hnot, by omega⟩
    | false =>
      rw [hq, ht] at hn
      exact ⟨ts, hts.update (iff_of_false hnot (by rw [ht]; exact Bool.false_ne_true)), by omega⟩

/-- The parts of the invariant that are about one thread at a time, and the counters. -/
structure Frame (s : RwSys T) (t : T) (pc' : RwPc) (s' : RwSys T) : Prop where
  pc : s'.pc = Function.update s.pc t pc'
  threads : ∀ side u, u ≠ t → (s'.cond side).thread u = (s.cond side).thread u
  sound : ∀ side, (s'.cond side).Sound
  taking : ∀ side, ((s'.cond side).thread t).pc = .idle ↔ pc'.isTaking side = false
  counted : ∀ side, s'.nwait side + ((s.pc t).counted side).toNat = s.nwait side + (pc'.counted side).toNat
  entering : ∀ side, pc'.isEntering side = true → s'.mustWait side = true
  others : ∀ side u, u ≠ t → (s.pc u).isEntering side = true → s.mustWait side = true → s'.mustWait side = true
  owned : ∀ u, s'.owner = some u → u = t ∧ pc'.inCrit = true ∨ u ≠ t ∧ (s.pc u).inCrit = true
  value : (s'.cond .reader).value ≤ 1

theorem Frame.self (h : s.Frame t pc' s') : s'.pc t = pc' := by rw [h.pc, Function.update_self]

theorem Frame.ne (h : s.Frame t pc' s') {u : T} (hu : u ≠ t) : s'.pc u = s.pc u := by
  rw [h.pc, Function.update_of_ne hu]

/-- **What a step of one thread has to show.** -/
theorem Inv.of_frame (h : s.Inv) (hf : s.Frame t pc' s') (hwriters : s'.refcount = 0 → s'.WritersCovered)
    (hreaders : 0 ≤ s'.refcount → s'.nwait .writer = 0 →
      (∃ u, (s'.pc u).isDeciding = true) ∨ s'.ReadersCovered) : s'.Inv where
  sound := hf.sound
  taking side u := by
    by_cases hu : u = t
    · rw [hu, hf.self]
      exact hf.taking side
    · rw [hf.ne hu, hf.threads side u hu]
      exact h.taking side u
  counted side := by
    rw [hf.pc]
    exact counted_update (h.counted side) (hf.counted side)
  entering side u hu := by
    by_cases hut : u = t
    · rw [hut, hf.self] at hu
      exact hf.entering side hu
    · rw [hf.ne hut] at hu
      exact hf.others side u hut hu (h.entering side u hu)
  owned u hu := by
    rcases hf.owned u hu with ⟨rfl, hcrit⟩ | ⟨hut, hcrit⟩
    · rw [hf.self]
      exact hcrit
    · rw [hf.ne hut]
      exact hcrit
  value := hf.value
  writers := hwriters
  readers := hreaders

/-- A step that brings no writer to where it could be suspended, and drops no promise but for another one. -/
theorem Frame.writersCovered (hf : s.Frame t pc' s') (h : s.WritersCovered)
    (hrisk : pc'.onWay .writer = true ∨ s'.Suspended .writer t →
      (s.pc t).onWay .writer = true ∨ s.Suspended .writer t)
    (hkeep : 0 < (s.cond .writer).value ∨ (s.pc t).isPromised = true ∨ ((s.cond .writer).thread t).HandedOver →
      0 < (s'.cond .writer).value ∨ pc'.isPromised = true ∨ ((s'.cond .writer).thread t).HandedOver) :
    s'.WritersCovered := by
  rintro ⟨u, hu⟩
  have hrisk' : ∃ v, (s.pc v).onWay .writer = true ∨ s.Suspended .writer v := by
    by_cases hut : u = t
    · rw [hut, hf.self] at hu
      exact ⟨t, hrisk hu⟩
    · refine ⟨u, ?_⟩
      unfold Suspended at hu ⊢
      rwa [hf.ne hut, hf.threads _ u hut] at hu
  have hself : 0 < (s.cond .writer).value ∨ (s.pc t).isPromised = true ∨ ((s.cond .writer).thread t).HandedOver →
      0 < (s'.cond .writer).value ∨ ∃ v, (s'.pc v).isPromised = true ∨ ((s'.cond .writer).thread v).HandedOver := by
    intro hk
    rcases hkeep hk with hpos | hprom | hhand
    · exact .inl hpos
    · exact .inr ⟨t, .inl (by rw [hf.self]; exact hprom)⟩
    · exact .inr ⟨t, .inr hhand⟩
  rcases h hrisk' with hpos | ⟨v, hv⟩
  · exact hself (.inl hpos)
  · by_cases hvt : v = t
    · rw [hvt] at hv
      exact hself (.inr hv)
    · refine .inr ⟨v, ?_⟩
      rwa [hf.ne hvt, hf.threads _ v hvt]

/-- A step that brings no reader to where it could be suspended, and takes no token that somebody else needs. -/
theorem Frame.readersCovered (hf : s.Frame t pc' s') (h : s.ReadersCovered)
    (hsusp : s'.Suspended .reader t → s.Suspended .reader t)
    (hway : pc'.onWay .reader = true → (s.pc t).onWay .reader = true)
    (htoken : (∀ u, u ≠ t → (s.pc u).onWay .reader = false) ∧ pc'.onWay .reader = false ∨
      (s'.cond .reader).value = (s.cond .reader).value) : s'.ReadersCovered := by
  have hways : ∀ u, (s'.pc u).onWay .reader = true → (s.pc u).onWay .reader = true := by
    intro u hu
    by_cases hut : u = t
    · rw [hut, hf.self] at hu
      rw [hut]
      exact hway hu
    · rwa [hf.ne hut] at hu
  constructor
  · intro u hu
    by_cases hut : u = t
    · subst hut
      exact h.none u (hsusp hu)
    · unfold Suspended at hu
      rw [hf.threads _ u hut] at hu
      exact h.none u hu
  · intro u v hu hv
    exact h.one u v (hways u hu) (hways v hv)
  · intro u hu
    rcases htoken with ⟨hothers, hpc⟩ | hsame
    · by_cases hut : u = t
      · rw [hut, hf.self, hpc] at hu
        exact absurd hu Bool.false_ne_true
      · rw [hf.ne hut, hothers u hut] at hu
        exact absurd hu Bool.false_ne_true
    · rw [hsame]
      exact h.token u (hways u hu)

/-- Somebody who decides goes on doing so, or nobody depends on being woken. -/
theorem Frame.readers (hf : s.Frame t pc' s') (h : (∃ u, (s.pc u).isDeciding = true) ∨ s.ReadersCovered)
    (hdeciding : (s.pc t).isDeciding = true → pc'.isDeciding = true)
    (hcovered : s.ReadersCovered → s'.ReadersCovered) : (∃ u, (s'.pc u).isDeciding = true) ∨ s'.ReadersCovered := by
  rcases h with ⟨u, hu⟩ | hcov
  · refine .inl ⟨u, ?_⟩
    by_cases hut : u = t
    · rw [hut, hf.self]
      rw [hut] at hu
      exact hdeciding hu
    · rw [hf.ne hut]
      exact hu
  · exact .inr (hcovered hcov)

omit [DecidableEq T] in
theorem mustWait_congr (href : s'.refcount = s.refcount) (hnwait : s'.nwait .writer = s.nwait .writer)
    (side : RwSide) : s'.mustWait side = s.mustWait side := by
  cases side with
  | reader =>
    show decide (s'.refcount < 0 ∨ s'.nwait .writer > 0) = decide (s.refcount < 0 ∨ s.nwait .writer > 0)
    rw [href, hnwait]
  | writer =>
    show decide (s'.refcount ≠ 0) = decide (s.refcount ≠ 0)
    rw [href]

omit [DecidableEq T] in
/-- What a reader that has to wait has found. -/
theorem mustWait_reader (h : s.mustWait .reader = true) : s.refcount < 0 ∨ 0 < s.nwait .writer := of_decide_eq_true h

omit [DecidableEq T] in
theorem mustWait_writer (h : s.mustWait .writer = true) : s.refcount ≠ 0 := of_decide_eq_true h

/-- A step that leaves the counters and the conditions as they are. -/
theorem Inv.move (h : s.Inv) (hpc : s'.pc = Function.update s.pc t pc') (hcond : s'.cond = s.cond)
    (hnwait : s'.nwait = s.nwait) (href : s'.refcount = s.refcount)
    (htaking : ∀ side, (s.pc t).isTaking side = false ∧ pc'.isTaking side = false)
    (hcounted : ∀ side, (s.pc t).counted side = pc'.counted side)
    (hentering : ∀ side, pc'.isEntering side = true → s.mustWait side = true)
    (howned : ∀ u, s'.owner = some u → u = t ∧ pc'.inCrit = true ∨ u ≠ t ∧ (s.pc u).inCrit = true)
    (hwriter : s.refcount = 0 → (pc'.onWay .writer = true → (s.pc t).onWay .writer = true) ∧
      ((s.pc t).isPromised = true → pc'.isPromised = true))
    (hreader : 0 ≤ s.refcount → s.nwait .writer = 0 → (pc'.onWay .reader = true → (s.pc t).onWay .reader = true) ∧
      ((s.pc t).isDeciding = true → pc'.isDeciding = true)) : s'.Inv := by
  have hmust := mustWait_congr href (congrFun hnwait .writer)
  have hf : s.Frame t pc' s' := {
    pc := hpc
    threads := fun side u _ => by rw [hcond]
    sound := fun side => by rw [hcond]; exact h.sound side
    taking := fun side => by
      rw [hcond, h.taking side t]
      exact iff_of_true (htaking side).1 (htaking side).2
    counted := fun side => by rw [hnwait, hcounted side]
    entering := fun side hs => (hmust side).trans (hentering side hs)
    others := fun side _ _ _ hs => (hmust side).trans hs
    owned := howned
    value := by rw [hcond]; exact h.value }
  apply h.of_frame hf
  · intro hzero
    rw [href] at hzero
    obtain ⟨hway, hprom⟩ := hwriter hzero
    apply hf.writersCovered (h.writers hzero)
    · unfold Suspended
      rw [hcond]
      exact Or.imp_left hway
    · rw [hcond]
      exact Or.imp_right (Or.imp_left hprom)
  · intro hpos hzero
    rw [href] at hpos
    rw [hnwait] at hzero
    obtain ⟨hway, hdec⟩ := hreader hpos hzero
    apply hf.readers (h.readers hpos hzero) hdec
    intro hcov
    apply hf.readersCovered hcov
    · unfold Suspended
      rw [hcond]
      exact id
    · exact hway
    · rw [hcond]
      exact .inr rfl

/-! ## Steps -/

theorem Inv.call (h : s.Inv) (hpc : s.pc t = .idle) (op : RwOp) : (s.call t op).Inv := by
  have howned : ∀ u, s.owner = some u → u ≠ t ∧ (s.pc u).inCrit = true := by
    intro u hu
    have hcrit := h.owned u hu
    refine ⟨?_, hcrit⟩
    rintro rfl
    rw [hpc] at hcrit
    exact Bool.false_ne_true hcrit
  unfold RwSys.call
  dsimp only
  split
  all_goals
    apply h.move (t := t)
    · rfl
    · rfl
    · rfl
    · rfl
    · intro side
      rw [hpc]
      exact ⟨rfl, rfl⟩
    · intro side
      rw [hpc]
      rfl
    · exact fun side hs => absurd hs Bool.false_ne_true
    · exact fun u hu => .inr (howned u hu)
    · rw [hpc]
      exact fun _ => ⟨fun hs => absurd hs Bool.false_ne_true, fun hs => absurd hs Bool.false_ne_true⟩
    · rw [hpc]
      exact fun _ _ => ⟨fun hs => absurd hs Bool.false_ne_true, fun hs => absurd hs Bool.false_ne_true⟩

theorem Inv.lockMutex (h : s.Inv) {op : RwOp} (hready : s.mutexReady = true) (hpc : s.pc t = .locking op)
    (hcan : s.owner = none ∨ s.owner = some t) : (s.lockMutex t op).Inv := by
  have hfree : s.owner = none := by
    refine hcan.resolve_right fun hself => ?_
    have hcrit := h.owned t hself
    rw [hpc] at hcrit
    exact Bool.false_ne_true hcrit
  unfold RwSys.lockMutex
  rw [if_neg (by simp [hready]), if_neg (by rw [hfree]; exact nofun)]
  apply h.move (t := t)
  · rfl
  · rfl
  · rfl
  · rfl
  · intro side
    rw [hpc]
    exact ⟨rfl, rfl⟩
  · intro side
    rw [hpc]
    rfl
  · exact fun side hs => absurd hs Bool.false_ne_true
  · exact fun u hu => .inl ⟨(Option.some.inj hu).symm, rfl⟩
  · rw [hpc]
    exact fun _ => ⟨fun hs => absurd hs Bool.false_ne_true, fun hs => absurd hs Bool.false_ne_true⟩
  · rw [hpc]
    exact fun _ _ => ⟨fun hs => absurd hs Bool.false_ne_true, fun hs => absurd hs Bool.false_ne_true⟩

omit [DecidableEq T] in
/-- While a thread has the mutex, no other one has found that it has to wait and still has it. -/
theorem not_entering (hex : s.Excl) (hcrit : (s.pc t).inCrit = true) {u : T} (hu : u ≠ t) (side : RwSide) :
    (s.pc u).isEntering side ≠ true := by
  intro hs
  refine absurd ?_ (hex.not_inCrit hcrit hu)
  cases hpcu : s.pc u with
  | enter | wait => rfl
  | idle | init | locking | test | unlocked | taking | relocking | leave | acquire | wake | unlocking | asserted =>
    rw [hpcu] at hs
    exact absurd hs Bool.false_ne_true

omit [DecidableEq T] in
/-- The owner of the mutex moves on with it. -/
theorem Inv.owned_self (h : s.Inv) (hcrit : pc'.inCrit = true) (u : T) (hu : s.owner = some u) :
    u = t ∧ pc'.inCrit = true ∨ u ≠ t ∧ (s.pc u).inCrit = true := by
  by_cases hut : u = t
  · exact .inl ⟨hut, hcrit⟩
  · exact .inr ⟨hut, h.owned u hu⟩

/-- The test, in an operation that locks. -/
theorem Inv.testLock (h : s.Inv) {side : RwSide} {timed : Bool} (hpc : s.pc t = .test (.lock side timed)) :
    (s.testCounters t (.lock side timed)).Inv := by
  show (s.setPc t (if s.mustWait side = true then .enter side timed else .acquire side)).Inv
  by_cases hmust : s.mustWait side = true
  · rw [if_pos hmust]
    apply h.move (t := t)
    · rfl
    · rfl
    · rfl
    · rfl
    · intro side'
      rw [hpc]
      exact ⟨rfl, rfl⟩
    · intro side'
      rw [hpc]
      rfl
    · intro side' hs
      obtain rfl : side' = side := of_decide_eq_true hs
      exact hmust
    · exact h.owned_self rfl
    · intro hzero
      rw [hpc]
      refine ⟨fun hs => absurd hs Bool.false_ne_true, fun hs => ?_⟩
      cases side with
      | reader => exact absurd hs Bool.false_ne_true
      | writer => exact absurd hzero (mustWait_writer hmust)
    · intro _ _
      rw [hpc]
      refine ⟨fun hs => absurd hs Bool.false_ne_true, fun hs => ?_⟩
      cases side with
      | reader => exact absurd hs Bool.false_ne_true
      | writer => rfl
  · rw [if_neg hmust]
    apply h.move (t := t)
    · rfl
    · rfl
    · rfl
    · rfl
    · intro side'
      rw [hpc]
      exact ⟨rfl, rfl⟩
    · intro side'
      rw [hpc]
      rfl
    · exact fun side' hs => absurd hs Bool.false_ne_true
    · exact h.owned_self rfl
    · intro _
      rw [hpc]
      refine ⟨fun hs => absurd hs Bool.false_ne_true, fun hs => ?_⟩
      cases side with
      | reader => exact absurd hs Bool.false_ne_true
      | writer => rfl
    · intro _ _
      rw [hpc]
      refine ⟨fun hs => absurd hs Bool.false_ne_true, fun hs => ?_⟩
      cases side with
      | reader => exact absurd hs Bool.false_ne_true
      | writer => rfl

theorem Inv.testTry (h : s.Inv) {side : RwSide} (hpc : s.pc t = .test (.trylock side)) :
    (s.testCounters t (.trylock side)).Inv := by
  show (s.setPc t (if s.mustWait side = true then .unlocking .ebusy else .acquire side)).Inv
  apply h.move (t := t)
  · rfl
  · rfl
  · rfl
  · rfl
  · intro side'
    rw [hpc]
    split <;> exact ⟨rfl, rfl⟩
  · intro side'
    rw [hpc]
    split <;> rfl
  · intro side' hs
    split at hs <;> exact absurd hs Bool.false_ne_true
  · exact h.owned_self (by split <;> rfl)
  · intro _
    rw [hpc]
    refine ⟨fun hs => ?_, fun hs => absurd hs Bool.false_ne_true⟩
    split at hs <;> exact absurd hs Bool.false_ne_true
  · intro _ _
    rw [hpc]
    refine ⟨fun hs => ?_, fun hs => absurd hs Bool.false_ne_true⟩
    split at hs <;> exact absurd hs Bool.false_ne_true

/-- The unlock writes `rw_refcount`, and is going to wake somebody. -/
theorem Inv.testUnlock (h : s.Inv) (hex : s.Excl) (hpc : s.pc t = .test .unlock) : (s.testCounters t .unlock).Inv := by
  have hcrit : (s.pc t).inCrit = true := by rw [hpc]; rfl
  have hf : s.Frame t .wake (s.testCounters t .unlock) := {
    pc := rfl
    threads := fun _ _ _ => rfl
    sound := h.sound
    taking := fun side => by
      show ((s.cond side).thread t).pc = .idle ↔ _
      rw [h.taking side t, hpc]
      exact iff_of_true rfl rfl
    counted := fun side => by
      rw [hpc]
      rfl
    entering := fun side hs => absurd hs Bool.false_ne_true
    others := fun side u hu hs => absurd hs (not_entering hex hcrit hu side)
    owned := fun u hu => h.owned_self rfl u hu
    value := h.value }
  apply h.of_frame hf
  · intro _ _
    exact .inr ⟨t, .inl (by rw [hf.self]; rfl)⟩
  · intro _ _
    exact .inl ⟨t, by rw [hf.self]; rfl⟩

/-- The thread counts itself as one that waits. -/
theorem Inv.enter (h : s.Inv) {side : RwSide} {timed : Bool} (hpc : s.pc t = .enter side timed) :
    ((s.setNwait side (s.nwait side + 1)).setPc t (.wait side timed)).Inv := by
  have hmust : s.mustWait side = true := h.entering side t (by rw [hpc]; exact decide_eq_true rfl)
  have hnwait : ∀ side', (Function.update s.nwait side (s.nwait side + 1)) side' =
      s.nwait side' + (decide (side' = side)).toNat := by
    intro side'
    by_cases hs : side' = side
    · subst hs
      rw [Function.update_self, decide_eq_true rfl]
      rfl
    · rw [Function.update_of_ne hs, decide_eq_false hs]
      exact (Int.add_zero _).symm
  have hmono : ∀ side', s.mustWait side' = true →
      ((s.setNwait side (s.nwait side + 1)).setPc t (.wait side timed)).mustWait side' = true := by
    intro side' hs
    cases side' with
    | writer => exact hs
    | reader =>
      have hor := mustWait_reader hs
      apply decide_eq_true
      show s.refcount < 0 ∨ 0 < Function.update s.nwait side (s.nwait side + 1) .writer
      rw [hnwait]
      omega
  have hf : s.Frame t (.wait side timed) ((s.setNwait side (s.nwait side + 1)).setPc t (.wait side timed)) := {
    pc := rfl
    threads := fun _ _ _ => rfl
    sound := h.sound
    taking := fun side' => by
      show ((s.cond side').thread t).pc = .idle ↔ _
      rw [h.taking side' t, hpc]
      exact iff_of_true rfl rfl
    counted := fun side' => by
      rw [hpc]
      exact (Int.add_zero _).trans (hnwait side')
    entering := by
      intro side' hs
      obtain rfl : side' = side := of_decide_eq_true hs
      exact hmono side' hmust
    others := fun side' _ _ _ hs => hmono side' hs
    owned := fun u hu => h.owned_self rfl u hu
    value := h.value }
  apply h.of_frame hf
  · intro hzero
    apply hf.writersCovered (h.writers hzero)
    · exact Or.imp_left fun hs => absurd hs Bool.false_ne_true
    · rw [hpc]
      exact Or.imp_right (Or.imp_left fun hs => absurd hs Bool.false_ne_true)
  · intro hpos hzero
    replace hzero : Function.update s.nwait side (s.nwait side + 1) .writer = 0 := hzero
    rw [hnwait] at hzero
    obtain ⟨ts, -, hcount⟩ := h.counted .writer
    cases side with
    | writer =>
      have hone : (decide (RwSide.writer = .writer)).toNat = 1 := rfl
      omega
    | reader =>
      have hnone : (decide (RwSide.writer = .reader)).toNat = 0 := rfl
      apply hf.readers (h.readers hpos (by omega))
      · rw [hpc]
        exact fun hs => absurd hs Bool.false_ne_true
      · intro hcov
        apply hf.readersCovered hcov id
        · exact fun hs => absurd hs Bool.false_ne_true
        · exact .inr rfl

/-- The mutex is unlocked in a wait. -/
theorem Inv.beginWait (h : s.Inv) (hex : s.Excl) (time : Int) : (s.beginWait t time).Inv := by
  unfold RwSys.beginWait
  split
  next side timed hpc =>
    have hmust : s.mustWait side = true := h.entering side t (by rw [hpc]; exact decide_eq_true rfl)
    rw [if_pos (hex.crit t (by rw [hpc]; rfl))]
    apply h.move (t := t)
    · rfl
    · rfl
    · rfl
    · rfl
    · intro side'
      rw [hpc]
      exact ⟨rfl, rfl⟩
    · intro side'
      rw [hpc]
      rfl
    · exact fun side' hs => absurd hs Bool.false_ne_true
    · exact fun u hu => absurd hu nofun
    · intro hzero
      rw [hpc]
      refine ⟨fun hs => ?_, fun hs => absurd hs Bool.false_ne_true⟩
      obtain rfl : .writer = side := of_decide_eq_true hs
      exact absurd hzero (mustWait_writer hmust)
    · intro hpos hzero
      rw [hpc]
      refine ⟨fun hs => ?_, fun hs => absurd hs Bool.false_ne_true⟩
      obtain rfl : .reader = side := of_decide_eq_true hs
      have hor := mustWait_reader hmust
      omega
  next => exact h

theorem Inv.relock (h : s.Inv) {side : RwSide} {timed : Bool} {result : PthreadErr}
    (hpc : s.pc t = .relocking side timed result) :
    ({ s.setPc t (.leave side timed result) with owner := some t } : RwSys T).Inv := by
  apply h.move (t := t)
  · rfl
  · rfl
  · rfl
  · rfl
  · intro side'
    rw [hpc]
    exact ⟨rfl, rfl⟩
  · intro side'
    rw [hpc]
    rfl
  · exact fun side' hs => absurd hs Bool.false_ne_true
  · exact fun u hu => .inl ⟨(Option.some.inj hu).symm, rfl⟩
  · intro _
    rw [hpc]
    refine ⟨fun hs => absurd hs Bool.false_ne_true, fun hs => ?_⟩
    cases side with
    | reader => exact absurd hs Bool.false_ne_true
    | writer => exact hs
  · intro _ _
    rw [hpc]
    exact ⟨fun hs => absurd hs Bool.false_ne_true, fun hs => absurd hs Bool.false_ne_true⟩

theorem Inv.unlockMutex (h : s.Inv) (hex : s.Excl) {result : PthreadErr} (hpc : s.pc t = .unlocking result) :
    (s.unlockMutex t result).Inv := by
  apply h.move (t := t)
  · rfl
  · rfl
  · rfl
  · rfl
  · intro side'
    rw [hpc]
    exact ⟨rfl, rfl⟩
  · intro side'
    rw [hpc]
    rfl
  · exact fun side' hs => absurd hs Bool.false_ne_true
  · intro u hu
    replace hu : (if s.owner = some t then none else s.owner) = some u := hu
    rw [if_pos (hex.crit t (by rw [hpc]; rfl))] at hu
    exact absurd hu nofun
  · intro _
    rw [hpc]
    exact ⟨fun hs => absurd hs Bool.false_ne_true, fun hs => absurd hs Bool.false_ne_true⟩
  · intro _ _
    rw [hpc]
    exact ⟨fun hs => absurd hs Bool.false_ne_true, fun hs => absurd hs Bool.false_ne_true⟩

/-- The lock is acquired: a writer leaves nobody to be woken, and a reader changes nothing for the others. -/
theorem Inv.takeLock (h : s.Inv) (hex : s.Excl) {side : RwSide} (hpc : s.pc t = .acquire side) :
    (s.takeLock t side).Inv := by
  have hcrit : (s.pc t).inCrit = true := by rw [hpc]; rfl
  have hfits := hex.acquire t side hpc
  have hframe : ∀ s' : RwSys T, s'.pc = Function.update s.pc t (.unlocking .ok) → s'.cond = s.cond →
      s'.nwait = s.nwait → s'.owner = s.owner → s.Frame t (.unlocking .ok) s' := fun s' hp hc hn ho => {
    pc := hp
    threads := fun side u _ => by rw [hc]
    sound := fun side => by rw [hc]; exact h.sound side
    taking := fun side' => by
      rw [hc, h.taking side' t, hpc]
      exact iff_of_true rfl rfl
    counted := fun side' => by
      rw [hpc, hn]
      rfl
    entering := fun side hs => absurd hs Bool.false_ne_true
    others := fun side u hu hs => absurd hs (not_entering hex hcrit hu side)
    owned := fun u hu => h.owned_self rfl u (ho ▸ hu)
    value := by rw [hc]; exact h.value }
  cases side with
  | reader =>
    have hpos : 0 ≤ s.refcount := hfits
    have hf := hframe (s.takeLock t .reader) rfl rfl rfl rfl
    apply h.of_frame hf
    · intro hzero
      have hone : s.refcount + 1 = 0 := hzero
      omega
    · intro _ hzero
      apply hf.readers (h.readers hpos hzero)
      · rw [hpc]
        exact fun hs => absurd hs Bool.false_ne_true
      · intro hcov
        apply hf.readersCovered hcov id
        · exact fun hs => absurd hs Bool.false_ne_true
        · exact .inr rfl
  | writer =>
    have hf := hframe (s.takeLock t .writer) rfl rfl rfl rfl
    apply h.of_frame hf
    · intro hzero
      exact absurd hzero (show (-1 : Int) ≠ 0 by decide)
    · intro hpos _
      exact absurd hpos (show ¬ (0 : Int) ≤ -1 by decide)

/-- A step of a thread at the semaphore of its side, in a wait. -/
theorem Inv.semFrame (h : s.Inv) (t : T) (side : RwSide) {sem : SemSys T} (pc' : RwPc) (hsound : sem.Sound)
    (hthreads : ∀ u, u ≠ t → sem.thread u = (s.cond side).thread u)
    (htaking : (sem.thread t).pc = .idle ↔ pc'.isTaking side = false)
    (hother : ∀ side', side' ≠ side → (s.pc t).isTaking side' = false ∧ pc'.isTaking side' = false)
    (hcounted : ∀ side', (s.pc t).counted side' = pc'.counted side')
    (hentering : ∀ side', pc'.isEntering side' = false) (hcrit : (s.pc t).inCrit = false)
    (hvalue : sem.value ≤ (s.cond side).value) : s.Frame t pc' ((s.setCond side sem).setPc t pc') := by
  have hcond : ∀ side', side' ≠ side → ((s.setCond side sem).setPc t pc').cond side' = s.cond side' := fun side' hs =>
    Function.update_of_ne hs ..
  have hself : ((s.setCond side sem).setPc t pc').cond side = sem := Function.update_self ..
  constructor
  case pc => rfl
  case threads =>
    intro side' u hu
    by_cases hs : side' = side
    · rw [hs, hself]
      exact hthreads u hu
    · rw [hcond side' hs]
  case sound =>
    intro side'
    by_cases hs : side' = side
    · rw [hs, hself]
      exact hsound
    · rw [hcond side' hs]
      exact h.sound side'
  case taking =>
    intro side'
    by_cases hs : side' = side
    · rw [hs, hself]
      exact htaking
    · rw [hcond side' hs, h.taking side' t]
      exact iff_of_true (hother side' hs).1 (hother side' hs).2
  case counted =>
    intro side'
    rw [hcounted side']
    rfl
  case entering =>
    intro side' hs
    exact absurd ((hentering side').symm.trans hs) Bool.false_ne_true
  case others =>
    intro side' u _ _ hs
    exact (mustWait_congr rfl rfl side').trans hs
  case owned =>
    intro u hu
    have hc := h.owned u hu
    refine .inr ⟨?_, hc⟩
    rintro rfl
    exact Bool.false_ne_true (hcrit.symm.trans hc)
  case value =>
    by_cases hs : RwSide.reader = side
    · subst hs
      rw [hself]
      exact Nat.le_trans hvalue h.value
    · rw [hcond _ hs]
      exact h.value

/-- The invariant after such a step; `hrisk` and `hkeep` are about a writer, `hcov` about a reader. -/
theorem Inv.semStep (h : s.Inv) {side : RwSide} {sem : SemSys T}
    (hf : s.Frame t pc' ((s.setCond side sem).setPc t pc')) (hway : ∀ side', pc'.onWay side' = false)
    (hdeciding : (s.pc t).isDeciding = false)
    (hrisk : side = .writer → (sem.thread t).isWaiting → (s.pc t).onWay .writer = true ∨ s.Suspended .writer t)
    (hkeep : 0 < (s.cond side).value ∨ (s.pc t).isPromised = true ∨ ((s.cond side).thread t).HandedOver →
      side = .writer → 0 < sem.value ∨ pc'.isPromised = true ∨ (sem.thread t).HandedOver)
    (hprom : side = .reader → (s.pc t).isPromised = false)
    (hcov : side = .reader → s.ReadersCovered → ¬ (sem.thread t).isWaiting ∧
      ((∀ u, u ≠ t → (s.pc u).onWay .reader = false) ∨ sem.value = (s.cond .reader).value)) :
    ((s.setCond side sem).setPc t pc').Inv := by
  apply h.of_frame hf
  · intro hzero
    cases side with
    | writer =>
      apply hf.writersCovered (h.writers hzero)
      · rintro (hw | hs)
        · exact absurd ((hway .writer).symm.trans hw) Bool.false_ne_true
        · exact hrisk rfl hs
      · exact fun hk => hkeep hk rfl
    | reader =>
      apply hf.writersCovered (h.writers hzero)
      · rintro (hw | hs)
        · exact absurd ((hway .writer).symm.trans hw) Bool.false_ne_true
        · exact .inr hs
      · rintro (hpos | hpr | hhand)
        · exact .inl hpos
        · exact absurd ((hprom rfl).symm.trans hpr) Bool.false_ne_true
        · exact .inr (.inr hhand)
  · intro hpos hzero
    apply hf.readers (h.readers hpos hzero)
    · exact fun hd => absurd (hdeciding.symm.trans hd) Bool.false_ne_true
    · intro hc
      cases side with
      | writer =>
        apply hf.readersCovered hc id
        · exact fun hw => absurd ((hway .reader).symm.trans hw) Bool.false_ne_true
        · exact .inr rfl
      | reader =>
        obtain ⟨hnot, htoken⟩ := hcov rfl hc
        apply hf.readersCovered hc
        · exact fun hs => absurd hs hnot
        · exact fun hw => absurd ((hway .reader).symm.trans hw) Bool.false_ne_true
        · exact htoken.imp_left fun hall => ⟨hall, hway .reader⟩

/-- A thread on its way comes to the semaphore. -/
theorem Inv.takeSem (h : s.Inv) {side : RwSide} {timed : Bool} {time : Int} (hpc : s.pc t = .unlocked side timed time) :
    (s.takeSem t side timed time).Inv := by
  have hidle : ((s.cond side).thread t).pc = .idle := (h.taking side t).mpr (by rw [hpc]; rfl)
  have hway : (s.pc t).onWay side = true := by rw [hpc]; exact decide_eq_true rfl
  have hsound := (h.sound side).take hidle time fun _ => 0
  have hthreads : ∀ u, u ≠ t → ((s.cond side).rtSemTake t time fun _ => 0).thread u = (s.cond side).thread u :=
    fun u hu => SemSys.take_of_ne hu _ _
  have hothers : side = .reader → s.ReadersCovered → ∀ u, u ≠ t → (s.pc u).onWay .reader = false := by
    intro hs hc u hu
    by_contra hw
    exact hu (hc.one u t (by simpa using hw) (hs ▸ hway))
  have hhanded : ¬ ((s.cond side).thread t).HandedOver := fun hh => absurd (hidle.symm.trans hh.1) nofun
  unfold RwSys.takeSem
  dsimp only
  by_cases hv : 0 < (s.cond side).value
  · -- there is a token: the thread takes it
    have hself : ((s.cond side).rtSemTake t time fun _ => 0).thread t =
        { (s.cond side).thread t with pc := .idle, result := .eok } := by
      rw [SemSys.take_pos hv, SemSys.ret_self]
    rw [if_pos (by rw [hself])]
    have hok : condResult timed (((s.cond side).rtSemTake t time fun _ => 0).thread t).result = .ok := by
      rw [hself]
      rfl
    rw [hok]
    have hf := h.semFrame t side (.relocking side timed .ok) hsound hthreads
      (iff_of_true (by rw [hself]) rfl) (fun side' hs => by rw [hpc]; exact ⟨rfl, rfl⟩) (fun side' => by rw [hpc]; rfl)
      (fun side' => rfl) (by rw [hpc]; rfl) (by rw [SemSys.take_pos hv]; exact Nat.sub_le _ 1)
    apply h.semStep hf
    · exact fun side' => rfl
    · rw [hpc]
      rfl
    · intro hs _
      exact .inl (hs ▸ hway)
    · intro _ hs
      subst hs
      exact .inr (.inl rfl)
    · intro _
      rw [hpc]
      rfl
    · intro hs hc
      refine ⟨?_, .inl (hothers hs hc)⟩
      rw [hself]
      exact id
  · have hzero : (s.cond side).value = 0 := Nat.eq_zero_of_not_pos hv
    have hvalue : ((s.cond side).rtSemTake t time fun _ => 0).value = (s.cond side).value := by
      by_cases htime : time = 0
      · subst htime
        rw [SemSys.take_now hzero]
        rfl
      · rw [SemSys.take_wait hzero htime]
        rfl
    have hkeep : 0 < (s.cond side).value ∨ (s.pc t).isPromised = true ∨ ((s.cond side).thread t).HandedOver → False := by
      rintro (hpos | hpr | hh)
      · exact hv hpos
      · rw [hpc] at hpr
        exact Bool.false_ne_true hpr
      · exact hhanded hh
    have hnocov : side = .reader → s.ReadersCovered → False := by
      intro hs hc
      subst hs
      exact hv (hc.token t hway)
    by_cases hret : (((s.cond side).rtSemTake t time fun _ => 0).thread t).pc = .idle
    · rw [if_pos hret]
      have hf := h.semFrame t side
        (.relocking side timed (condResult timed (((s.cond side).rtSemTake t time fun _ => 0).thread t).result)) hsound
        hthreads (iff_of_true hret rfl) (fun side' hs => by rw [hpc]; exact ⟨rfl, rfl⟩)
        (fun side' => by rw [hpc]; rfl) (fun side' => rfl) (by rw [hpc]; rfl) (Nat.le_of_eq hvalue)
      apply h.semStep hf
      · exact fun side' => rfl
      · rw [hpc]
        rfl
      · intro hs _
        exact .inl (hs ▸ hway)
      · exact fun hk => (hkeep hk).elim
      · intro _
        rw [hpc]
        rfl
      · exact fun hs hc => (hnocov hs hc).elim
    · rw [if_neg hret]
      have hf := h.semFrame t side (.taking side timed) hsound hthreads
        (iff_of_false hret (by simp [RwPc.isTaking])) (fun side' hs => by rw [hpc]; exact ⟨rfl, decide_eq_false hs⟩)
        (fun side' => by rw [hpc]; rfl) (fun side' => rfl) (by rw [hpc]; rfl) (Nat.le_of_eq hvalue)
      apply h.semStep hf
      · exact fun side' => rfl
      · rw [hpc]
        rfl
      · intro hs _
        exact .inl (hs ▸ hway)
      · exact fun hk => (hkeep hk).elim
      · intro _
        rw [hpc]
        rfl
      · exact fun hs hc => (hnocov hs hc).elim

/-- A thread that has been woken gets past the semaphore, with a token if it has been handed one. -/
theorem Inv.takeSemWoken (h : s.Inv) {side : RwSide} {timed : Bool} (hpc : s.pc t = .taking side timed)
    (hwoken : ((s.cond side).thread t).pc = .woken) : (s.takeSemWoken t side timed).Inv := by
  have hself : ((s.cond side).takeWoken t).thread t =
      { (s.cond side).thread t with pc := .idle, result := ((s.cond side).thread t).error } := by
    unfold SemSys.takeWoken
    split
    next => rw [SemSys.ret_self]
    next herr => rw [SemSys.ret_self, not_not.mp herr]
  have hthreads : ∀ u, u ≠ t → ((s.cond side).takeWoken t).thread u = (s.cond side).thread u := by
    intro u hu
    unfold SemSys.takeWoken
    split <;> exact SemSys.ret_of_ne hu _
  have hvalue : ((s.cond side).takeWoken t).value = (s.cond side).value := by
    unfold SemSys.takeWoken
    split <;> rfl
  unfold RwSys.takeSemWoken
  dsimp only
  have hf := h.semFrame t side
    (.relocking side timed (condResult timed (((s.cond side).takeWoken t).thread t).result))
    ((h.sound side).continue hwoken) hthreads (iff_of_true (by rw [hself]) rfl)
    (fun side' hs => by rw [hpc]; exact ⟨decide_eq_false hs, rfl⟩) (fun side' => by rw [hpc]; rfl) (fun side' => rfl)
    (by rw [hpc]; rfl) (Nat.le_of_eq hvalue)
  apply h.semStep hf
  · exact fun side' => rfl
  · rw [hpc]
    rfl
  · intro _ hw
    rw [hself] at hw
    exact hw.elim
  · rintro (hpos | hpr | hh) hs
    · exact .inl (by rw [hvalue]; exact hpos)
    · rw [hpc] at hpr
      exact absurd hpr Bool.false_ne_true
    · subst hs
      refine .inr (.inl ?_)
      have herr : ((s.cond .writer).thread t).error = .eok := hh.2
      rw [hself, herr]
      rfl
  · intro _
    rw [hpc]
    rfl
  · intro hs _
    subst hs
    refine ⟨?_, .inr hvalue⟩
    rw [hself]
    exact id

/-- The timer of a suspended thread fires. -/
theorem Inv.timeoutSem (h : s.Inv) (hcan : s.CanTimeout t (s.pc t)) : (s.timeoutSem t).Inv := by
  unfold RwSys.timeoutSem
  split
  next side timed hpc =>
    rw [hpc] at hcan
    have htimer : ((s.cond side).thread t).timeLimit.any (0 < ·) = true := hcan
    have hself : ((s.cond side).wake t .etimeout).thread t =
        { (s.cond side).thread t with pc := .woken, error := .etimeout } := Function.update_self ..
    have hsame : (s.setCond side ((s.cond side).wake t .etimeout)).setPc t (s.pc t) =
        s.setCond side ((s.cond side).wake t .etimeout) := by
      unfold setPc setCond
      rw [Function.update_eq_self]
    rw [← hsame]
    have hf := h.semFrame t side (s.pc t) ((h.sound side).timeout htimer)
      (fun u hu => Function.update_of_ne hu ..)
      (iff_of_false (by rw [hself]; exact nofun) (by rw [hpc]; simp [RwPc.isTaking]))
      (fun side' hs => by rw [hpc]; exact ⟨decide_eq_false hs, decide_eq_false hs⟩) (fun side' => rfl)
      (fun side' => by rw [hpc]; rfl) (by rw [hpc]; rfl) (Nat.le_refl _)
    apply h.semStep hf
    · exact fun side' => by rw [hpc]; rfl
    · rw [hpc]
      rfl
    · intro _ hw
      rw [hself] at hw
      exact hw.elim
    · rintro (hpos | hpr | hh) _
      · exact .inl hpos
      · exact .inr (.inl hpr)
      · rw [SemThread.timeLimit, hh.1] at htimer
        exact absurd htimer Bool.false_ne_true
    · intro _
      rw [hpc]
      rfl
    · intro hs _
      subst hs
      refine ⟨?_, .inr rfl⟩
      rw [hself]
      exact id
  next => exact h

/-- A thread leaves its wait; the last writer that gives up leaves no reader that it has held up. -/
theorem Inv.leaveWait (h : s.Inv) {side : RwSide} {timed : Bool} {result : PthreadErr}
    (hpc : s.pc t = .leave side timed result) (hex : s.Excl) (hok : s.WakeOk (.leave side timed result)) :
    (s.leaveWait t side timed result).Inv := by
  have hcrit : (s.pc t).inCrit = true := by rw [hpc]; rfl
  have hnwait : ∀ side', (Function.update s.nwait side (s.nwait side - 1)) side' =
      s.nwait side' - (decide (side' = side)).toNat := by
    intro side'
    by_cases hs : side' = side
    · subst hs
      rw [Function.update_self, decide_eq_true rfl]
      rfl
    · rw [Function.update_of_ne hs, decide_eq_false hs]
      exact (Int.sub_zero _).symm
  have hpcs : ∀ pc' : RwPc, (pc' = .test (.lock side timed) ∨ pc' = .unlocking result) →
      s.Frame t pc' ((s.setNwait side (s.nwait side - 1)).setPc t pc') := fun pc' hpc' => {
    pc := rfl
    threads := fun _ _ _ => rfl
    sound := h.sound
    taking := fun side' => by
      show ((s.cond side').thread t).pc = .idle ↔ _
      rw [h.taking side' t, hpc]
      rcases hpc' with rfl | rfl <;> exact iff_of_true rfl rfl
    counted := fun side' => by
      have hn := hnwait side'
      have hcount : ((s.pc t).counted side').toNat = (decide (side' = side)).toNat := by
        rw [hpc]
        rfl
      have hcount' : (pc'.counted side').toNat = 0 := by
        rcases hpc' with rfl | rfl <;> rfl
      rw [hcount, hcount']
      show Function.update s.nwait side (s.nwait side - 1) side' + _ = _
      omega
    entering := fun side' hs => by
      rcases hpc' with rfl | rfl <;> exact absurd hs Bool.false_ne_true
    others := fun side' u hu hs => absurd hs (not_entering hex hcrit hu side')
    owned := fun u hu => by
      refine h.owned_self ?_ u hu
      rcases hpc' with rfl | rfl <;> rfl
    value := h.value }
  unfold RwSys.leaveWait
  by_cases hres : result = .ok
  · rw [if_pos hres]
    have hf := hpcs _ (.inl rfl)
    apply h.of_frame hf
    · intro hzero
      apply hf.writersCovered (h.writers hzero)
      · exact Or.imp_left fun hs => absurd hs Bool.false_ne_true
      · refine Or.imp_right (Or.imp_left fun hp => ?_)
        rw [hpc] at hp
        cases side with
        | reader => exact absurd hp Bool.false_ne_true
        | writer => rfl
    · intro hpos hzero
      cases side with
      | writer => exact .inl ⟨t, by rw [hf.self]; rfl⟩
      | reader =>
        replace hzero : s.nwait .writer = 0 := hzero
        apply hf.readers (h.readers hpos hzero)
        · rw [hpc]
          exact fun hd => absurd hd Bool.false_ne_true
        · intro hc
          apply hf.readersCovered hc id
          · exact fun hw => absurd hw Bool.false_ne_true
          · exact .inr rfl
  · rw [if_neg hres]
    have hf := hpcs _ (.inr rfl)
    apply h.of_frame hf
    · intro hzero
      apply hf.writersCovered (h.writers hzero)
      · exact Or.imp_left fun hs => absurd hs Bool.false_ne_true
      · refine Or.imp_right (Or.imp_left fun hp => ?_)
        rw [hpc] at hp
        cases side with
        | reader => exact absurd hp Bool.false_ne_true
        | writer => exact absurd (of_decide_eq_true hp) hres
    · intro hpos hzero
      have hcovered : s.ReadersCovered → ((s.setNwait side (s.nwait side - 1)).setPc t
          (.unlocking result)).ReadersCovered := by
        intro hc
        apply hf.readersCovered hc id
        · exact fun hw => absurd hw Bool.false_ne_true
        · exact .inr rfl
      cases side with
      | writer =>
        -- the readers have to be in order, as nobody wakes them
        replace hzero : Function.update s.nwait .writer (s.nwait .writer - 1) .writer = 0 := hzero
        rw [Function.update_self] at hzero
        exact .inr (hcovered (hok hres (by omega) hpos))
      | reader =>
        replace hzero : s.nwait .writer = 0 := hzero
        apply hf.readers (h.readers hpos hzero)
        · rw [hpc]
          exact fun hd => absurd hd Bool.false_ne_true
        · exact hcovered

omit [DecidableEq T] in
/-- A suspended thread is in `rt_sem_take`. -/
theorem Inv.taking_of_suspended (h : s.Inv) {side : RwSide} (hs : s.Suspended side t) :
    (s.pc t).isTaking side = true := by
  by_contra hnot
  have hidle := (h.taking side t).mpr (Bool.eq_false_iff.mpr hnot)
  unfold Suspended SemThread.isWaiting at hs
  rw [hidle] at hs
  exact hs

omit [DecidableEq T] in
/-- If nobody is counted on a side, nobody is on its way to the condition or suspended there. -/
theorem Inv.nobody_waits (h : s.Inv) {side : RwSide} (hzero : ¬ s.nwait side > 0) (t : T) :
    (s.pc t).onWay side = false ∧ ¬ s.Suspended side t := by
  obtain ⟨ts, hts, hcount⟩ := h.counted side
  have hnil : ts = [] := List.length_eq_zero_iff.mp (by omega)
  have hnot : ¬ (s.pc t).counted side = true := by
    rw [← hts.mem_iff t, hnil]
    exact List.not_mem_nil
  constructor
  · cases hpc : s.pc t with
    | unlocked side' timed time =>
      rw [hpc] at hnot
      exact Bool.eq_false_iff.mpr hnot
    | idle | init | locking | test | enter | wait | taking | relocking | leave | acquire | wake | unlocking
    | asserted => rfl
  · intro hs
    have htaking := h.taking_of_suspended hs
    cases hpc : s.pc t with
    | taking side' timed =>
      rw [hpc] at hnot htaking
      exact hnot htaking
    | idle | init | locking | test | enter | wait | unlocked | relocking | leave | acquire | wake | unlocking
    | asserted =>
      rw [hpc] at htaking
      exact Bool.false_ne_true htaking

/-- The end of an unlock, with what has become of the conditions: `hsound`, `htaking` and `hvalue` are about them, and
the last two about those who wait. -/
theorem Inv.wakeFrame (h : s.Inv) (hpc : s.pc t = .wake) {cond : RwSide → SemSys T}
    (hsound : ∀ side, (cond side).Sound)
    (htaking : ∀ side u, ((cond side).thread u).pc = .idle ↔ ((s.cond side).thread u).pc = .idle)
    (hvalue : (cond .reader).value ≤ 1)
    (hwriters : s.refcount = 0 → ({ s with cond := cond }.setPc t (.unlocking .ok) : RwSys T).WritersCovered)
    (hreaders : 0 ≤ s.refcount → s.nwait .writer = 0 →
      ({ s with cond := cond }.setPc t (.unlocking .ok) : RwSys T).ReadersCovered) :
    ({ s with cond := cond }.setPc t (.unlocking .ok) : RwSys T).Inv := by
  have hself : Function.update s.pc t (.unlocking .ok) t = .unlocking .ok := Function.update_self ..
  have hne : ∀ u, u ≠ t → Function.update s.pc t (.unlocking .ok) u = s.pc u := fun u hu => Function.update_of_ne hu ..
  constructor
  case sound => exact hsound
  case taking =>
    intro side u
    refine (htaking side u).trans ((h.taking side u).trans ?_)
    show _ ↔ (Function.update s.pc t (.unlocking .ok) u).isTaking side = false
    by_cases hu : u = t
    · rw [hu, hself, hpc]
      exact iff_of_true rfl rfl
    · rw [hne u hu]
  case counted =>
    intro side
    apply counted_update (h.counted side)
    rw [hpc]
    rfl
  case entering =>
    intro side u hu
    replace hu : (Function.update s.pc t (.unlocking .ok) u).isEntering side = true := hu
    have hmust : ({ s with cond := cond }.setPc t (.unlocking .ok) : RwSys T).mustWait side = s.mustWait side :=
      mustWait_congr rfl rfl side
    rw [hmust]
    by_cases hut : u = t
    · rw [hut, hself] at hu
      exact absurd hu Bool.false_ne_true
    · rw [hne u hut] at hu
      exact h.entering side u hu
  case owned =>
    intro u hu
    show (Function.update s.pc t (.unlocking .ok) u).inCrit = true
    by_cases hut : u = t
    · rw [hut, hself]
      rfl
    · rw [hne u hut]
      exact h.owned u hu
  case value => exact hvalue
  case writers => exact hwriters
  case readers => exact fun hpos hzero => .inr (hreaders hpos hzero)

/-- A signal to the writers is a promise: it leaves a token, or hands one over. -/
theorem Inv.signal_covers (h : s.Inv) (hmax : ¬ (s.cond .writer).AtMax) :
    0 < (s.cond .writer).pthreadCondSignal.value ∨ ∃ u, ((s.cond .writer).pthreadCondSignal.thread u).HandedOver := by
  obtain ⟨handed, hok⟩ := (h.sound .writer).ok
  unfold SemSys.pthreadCondSignal
  cases hts : (s.cond .writer).suspendThread with
  | nil =>
    have hlt := hok.value_lt
    have hne : (s.cond .writer).value ≠ 2 ^ 16 - 1 := fun hv => hmax ⟨hv, hts⟩
    left
    rw [SemSys.release_nil hts]
    show 0 < ((s.cond .writer).value + 1) % 2 ^ 16
    rw [Nat.mod_eq_of_lt (by omega)]
    exact Nat.succ_pos _
  | cons u us =>
    have hwaits : ((s.cond .writer).thread u).isWaiting :=
      ((h.sound .writer).mem_iff u).mp (by rw [hts]; exact List.mem_cons_self)
    refine .inr ⟨u, ?_⟩
    rw [SemSys.release_thread, hts, List.head?_cons, if_pos rfl]
    exact ⟨rfl, hok.noError u hwaits⟩

/-- **The unlock wakes whom it has to wake.** -/
theorem Inv.wake (h : s.Inv) (hpc : s.pc t = .wake) (hok : s.WakeOk .wake) :
    ((s.wakeWaiters t).setPc t (.unlocking .ok)).Inv := by
  have hself : Function.update s.pc t (.unlocking .ok) t = .unlocking .ok := Function.update_self ..
  have hway : ∀ side u, (Function.update s.pc t (.unlocking .ok) u).onWay side = true → (s.pc u).onWay side = true := by
    intro side u hu
    by_cases hut : u = t
    · rw [hut, hself] at hu
      exact absurd hu Bool.false_ne_true
    · rwa [Function.update_of_ne hut] at hu
  obtain ⟨hsignal, hbroadcast⟩ := hok
  unfold RwSys.wakeWaiters
  by_cases hwriter : s.nwait .writer > 0
  · rw [if_pos hwriter]
    have hreaders : ∀ P : Prop, s.nwait .writer = 0 → P := fun P hzero => by omega
    by_cases hzero : s.refcount = 0
    · rw [if_pos hzero]
      have hcond : Function.update s.cond .writer (s.cond .writer).pthreadCondSignal .writer =
          (s.cond .writer).pthreadCondSignal := Function.update_self ..
      have hreader : Function.update s.cond .writer (s.cond .writer).pthreadCondSignal .reader = s.cond .reader :=
        Function.update_of_ne (show RwSide.reader ≠ .writer by decide) ..
      apply h.wakeFrame hpc
      · intro side
        cases side with
        | writer =>
          rw [hcond]
          exact (h.sound .writer).release
        | reader =>
          rw [hreader]
          exact h.sound .reader
      · intro side u
        cases side with
        | writer =>
          rw [hcond]
          exact SemSys.release_idle_iff (h.sound .writer) u
        | reader => rw [hreader]
      · rw [hreader]
        exact h.value
      · intro _ _
        have hcovers := h.signal_covers (hsignal hwriter hzero)
        rw [← hcond] at hcovers
        exact hcovers.imp_right fun ⟨u, hu⟩ => ⟨u, .inr hu⟩
      · exact fun _ => hreaders _
    · rw [if_neg hzero]
      apply h.wakeFrame hpc h.sound
      · exact fun _ _ => Iff.rfl
      · exact h.value
      · exact fun href => absurd href hzero
      · exact fun _ => hreaders _
  · rw [if_neg hwriter]
    by_cases hreader : s.nwait .reader > 0
    · rw [if_pos hreader]
      have hidle : ((s.cond .reader).thread t).pc = .idle := (h.taking .reader t).mpr (by rw [hpc]; rfl)
      obtain ⟨hsound, hnil, hpcs, hvalue⟩ := SemSys.broadcast_spec (h.sound .reader) hidle
      have hcond : Function.update s.cond .reader ((s.cond .reader).pthreadCondBroadcast t) .reader =
          (s.cond .reader).pthreadCondBroadcast t := Function.update_self ..
      have hsame : Function.update s.cond .reader ((s.cond .reader).pthreadCondBroadcast t) .writer = s.cond .writer :=
        Function.update_of_ne (show RwSide.writer ≠ .reader by decide) ..
      apply h.wakeFrame hpc
      · intro side
        cases side with
        | reader =>
          rw [hcond]
          exact hsound
        | writer =>
          rw [hsame]
          exact h.sound .writer
      · intro side u
        cases side with
        | reader =>
          rw [hcond]
          exact hpcs u
        | writer => rw [hsame]
      · rw [hcond, hvalue]
        exact Nat.max_le.mpr ⟨h.value, Nat.le_refl 1⟩
      · rintro _ ⟨u, hu | hu⟩
        · exact absurd (hway .writer u hu) (by rw [(h.nobody_waits hwriter u).1]; exact Bool.false_ne_true)
        · refine absurd ?_ (h.nobody_waits hwriter u).2
          unfold Suspended
          rw [← hsame]
          exact hu
      · intro _ _
        constructor
        case none =>
          intro u hu
          have hmem := (hsound.mem_iff u).mpr (by rw [← hcond]; exact hu)
          rw [hnil] at hmem
          exact List.not_mem_nil hmem
        case one =>
          intro u v hu hv
          exact hbroadcast hwriter hreader u v (hway .reader u hu) (hway .reader v hv)
        case token =>
          intro _ _
          show 0 < (Function.update s.cond .reader ((s.cond .reader).pthreadCondBroadcast t) .reader).value
          rw [hcond, hvalue]
          exact Nat.le_max_right _ 1
    · rw [if_neg hreader]
      apply h.wakeFrame hpc h.sound
      · exact fun _ _ => Iff.rfl
      · exact h.value
      · rintro _ ⟨u, hu | hu⟩
        · exact absurd (hway .writer u hu) (by rw [(h.nobody_waits hwriter u).1]; exact Bool.false_ne_true)
        · exact absurd hu (h.nobody_waits hwriter u).2
      · intro _ _
        have hnot : ∀ u, (s.pc u).onWay .reader = false ∧ ¬ s.Suspended .reader u := h.nobody_waits hreader
        have hnever : ∀ u, (Function.update s.pc t (.unlocking .ok) u).onWay .reader ≠ true := fun u hu =>
          Bool.false_ne_true ((hnot u).1.symm.trans (hway .reader u hu))
        constructor
        case none => exact fun u hu => (hnot u).2 hu
        case one => exact fun u _ hu _ => absurd hu (hnever u)
        case token => exact fun u hu => absurd hu (hnever u)

/-- The next step of a thread. -/
theorem Inv.nextStep (h : s.Inv) (hex : s.Excl) (hready : s.Ready) (hcan : s.CanStep t (s.pc t))
    (hok : s.WakeOk (s.pc t)) : (s.nextStep t).Inv := by
  unfold RwSys.nextStep
  cases hpc : s.pc t with
  | idle | wait | asserted => exact h
  | init op store => exact absurd hpc (hready.noInit t op store)
  | locking op =>
    rw [hpc] at hcan
    exact h.lockMutex hready.mutex hpc (hcan hready.mutex)
  | test op =>
    cases op with
    | lock side timed => exact h.testLock hpc
    | trylock side => exact h.testTry hpc
    | unlock => exact h.testUnlock hex hpc
  | enter side timed => exact h.enter hpc
  | unlocked side timed time => exact h.takeSem hpc
  | taking side timed =>
    rw [hpc] at hcan
    exact h.takeSemWoken hpc hcan
  | relocking side timed result => exact h.relock hpc
  | leave side timed result =>
    rw [hpc] at hok
    exact h.leaveWait hpc hex hok
  | acquire side => exact h.takeLock hex hpc
  | wake =>
    rw [hpc] at hok
    exact h.wake hpc hok
  | unlocking result => exact h.unlockMutex hex hpc

/-- **Every step that meets the condition keeps the invariant.** -/
theorem inv_step (h : s.Inv) (hex : s.Excl) (hready : s.Ready) (hok : s.StepWakes e) (hs : s.Step e s') : s'.Inv := by
  obtain ⟨hen, rfl⟩ := hs
  cases e with
  | call t op => exact h.call hen.1 op
  | step t => exact h.nextStep hex hready hen hok
  | wait t time => exact h.beginWait hex time
  | timeout t => exact h.timeoutSem hen

/-! ## Runs -/

/-- **Nobody is stranded**, in any run of a lock that has been initialised whose steps meet the condition. -/
theorem rwlock_not_stranded {ls : List (RwEvent T)} (hrun : Run (Guarded StepWakes Step) init ls s) :
    s.NotStranded := by
  have hall : s.Ready ∧ s.Excl ∧ s.Inv := by
    apply hrun.guarded ⟨ready_init, excl_init, inv_init⟩
    intro s e s' ⟨hready, hexcl, hinv⟩ hok hs
    exact ⟨ready_step hready hs, excl_step hexcl (hready.stepOk e) hs, inv_step hinv hexcl hready hok hs⟩
  exact hall.2.2.notStranded

/-- The steps of a thread that has to wait for a lock, to where it is suspended. -/
def blockedLock (t : Option Bool) (side : RwSide) (timed : Bool) (time : Int) : List (RwEvent (Option Bool)) :=
  [.call t (.lock side timed), .step t, .step t, .step t, .wait t time, .step t]

/-- A writer is suspended while a reader has the lock; the unlock of the reader signals it. -/
theorem rwlock_not_stranded_run : ∃ s : RwSys (Option Bool), s.writers = [some true] ∧ s.NotStranded := by
  have hexec : ((((RwEvent.call none (.trylock .reader) :: List.replicate 4 (.step none)) ++
      blockedLock (some true) .writer false (-1) ++ (RwEvent.call none .unlock :: List.replicate 4 (.step none)) ++
        List.replicate 6 (RwEvent.step (some true))).foldlM (fun s e =>
          if StepWakes s e then Run.tryStep Enabled exec s e else none) init).map
        fun s : RwSys (Option Bool) => s.writers) =
      some [some true] := by decide +kernel
  obtain ⟨s, hs, hobs⟩ := Option.map_eq_some_iff.mp hexec
  exact ⟨s, hobs, rwlock_not_stranded (Run.of_foldlM_guarded (fun _ _ _ hs => Run.of_tryStep hs) hs)⟩

/-- **A writer that gives up leaves a reader behind.** One reader has the lock, a writer is suspended, and a second reader
is suspended behind the writer. The time of the writer is over, and nobody wakes the second reader, who could have the
lock. -/
theorem rwlock_stranded : ¬ ∀ (ls : List (RwEvent (Option Bool))) (s : RwSys (Option Bool)), Run Step init ls s →
    s.NotStranded := by
  intro hall
  have hexec : ((((RwEvent.call none (.trylock .reader) :: List.replicate 4 (.step none)) ++
      blockedLock (some true) .writer true 10 ++ blockedLock (some false) .reader false (-1) ++
        (RwEvent.timeout (some true) :: List.replicate 4 (.step (some true)))).foldlM (Run.tryStep Enabled exec) init).map
        fun s : RwSys (Option Bool) => (s.refcount, decide (s.Suspended .reader (some false)),
          decide (∃ u, s.Suspended .writer u),
          decide (∀ t, s.pc t = RwPc.idle ∨ s.pc t = RwPc.taking .reader false ∧ s.Suspended .reader t))) =
      some ((1 : Int), true, false, true) := by decide +kernel
  obtain ⟨s, hs, hobs⟩ := Option.map_eq_some_iff.mp hexec
  have href : s.refcount = 1 := congrArg Prod.fst hobs
  have hreader : s.Suspended .reader (some false) := of_decide_eq_true (congrArg (fun o => o.2.1) hobs)
  have hwriter : ¬ ∃ u, s.Suspended .writer u := of_decide_eq_false (congrArg (fun o => o.2.2.1) hobs)
  have hpcs : ∀ t, s.pc t = .idle ∨ s.pc t = .taking .reader false ∧ s.Suspended .reader t :=
    of_decide_eq_true (congrArg (fun o => o.2.2.2) hobs)
  have hnone : ∀ t, ¬ s.Runnable t := by
    intro t hrun
    unfold Runnable at hrun
    rcases hpcs t with hpc | ⟨hpc, hsusp⟩
    · rw [hpc] at hrun
      rcases hrun with hstep | ⟨time, hwait⟩
      · exact hstep
      · exact hwait
    · rw [hpc] at hrun
      rcases hrun with hstep | ⟨time, hwait⟩
      · replace hstep : ((s.cond .reader).thread t).pc = .woken := hstep
        unfold Suspended SemThread.isWaiting at hsusp
        rw [hstep] at hsusp
        exact hsusp
      · exact hwait
  rcases (hall _ s (Run.of_foldlM_tryStep hs) hnone).1 _ hreader with hneg | hex
  · omega
  · exact hwriter hex

end RwSys

end CoreLink.RtThread
