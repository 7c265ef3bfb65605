/-
# `CoreLink.RtThread.PthreadRwlockExclusive` — the read-write lock excludes, but for a race to initialise it.

Between `pthread_mutex_lock` and `pthread_mutex_unlock` a thread owns the mutex, so what a test has found is still true
when `rw_refcount` is written (`Excl.crit`, `Excl.acquire`). The only stores outside of the mutex are those of
`pthread_rwlock_init`. A lock that has been initialised before is never initialised again, and so every run of it is safe;
for one that is set up statically, `rwlock_exclusive` needs the condition that an initialisation finds nobody in the mutex
and no lock held, and `rwlock_not_exclusive` is a run of two threads in which it does not.
-/
import CoreLink.RtThread.PthreadRwlock

namespace CoreLink.RtThread

open CoreLink.Lib

namespace RwSys

variable {T : Type*}

/-! ## The invariant -/

/-- The test that a thread has made before it acquires a lock for its side. -/
def Fits (refcount : Int) : RwSide → Prop
  | .reader => 0 ≤ refcount
  | .writer => refcount = 0

/-- The locks that are held. -/
def Counts (refcount : Int) (readers writers : List T) : Prop :=
  refcount = -1 ∧ (∃ t, writers = [t]) ∧ readers = [] ∨ refcount = readers.length ∧ writers = []

/-- What holds between the steps. -/
structure Excl (s : RwSys T) : Prop where
  crit : ∀ t, (s.pc t).inCrit = true → s.owner = some t
  counts : Counts s.refcount s.readers s.writers
  acquire : ∀ t side, s.pc t = .acquire side → Fits s.refcount side
  holder : ∀ t, (s.pc t).isUnlock = true → t ∈ s.readers ∨ t ∈ s.writers
  fresh : ∀ t, (s.pc t).isFresh = true → s.acquired t = false
  failed : ∀ t, s.pc t = .idle → s.result t ≠ .ok → s.acquired t = false

theorem Excl.exclusive {s : RwSys T} (h : s.Excl) : s.Exclusive where
  writer := by
    rcases h.counts with ⟨href, hw, hr⟩ | ⟨href, hw⟩
    · exact iff_of_true href ⟨hw, hr⟩
    · refine iff_of_false (by omega) ?_
      rintro ⟨⟨t, ht⟩, -⟩
      exact List.cons_ne_nil _ _ (ht.symm.trans hw)
  reader n := by
    rcases h.counts with ⟨href, ⟨t, hw⟩, hr⟩ | ⟨href, hw⟩
    · refine iff_of_false (by omega) ?_
      rintro ⟨-, hnil⟩
      exact List.cons_ne_nil _ _ (hw.symm.trans hnil)
    · constructor
      · intro hn
        exact ⟨by omega, hw⟩
      · intro ⟨hn, _⟩
        omega
  failed := h.failed

theorem excl_static : (static : RwSys T).Excl where
  crit _ h := absurd h Bool.false_ne_true
  counts := .inr ⟨rfl, rfl⟩
  acquire _ _ h := absurd h nofun
  holder _ h := absurd h Bool.false_ne_true
  fresh _ h := absurd h Bool.false_ne_true
  failed _ _ _ := rfl

theorem excl_init : (init : RwSys T).Excl := ⟨excl_static.crit, excl_static.counts, excl_static.acquire,
  excl_static.holder, excl_static.fresh, excl_static.failed⟩

variable [DecidableEq T] {s s' : RwSys T} {e : RwEvent T} {t : T} {pc' : RwPc}

/-- **What a step of one thread has to show.** -/
theorem Excl.of_frame (h : s.Excl) (hpc : s'.pc = Function.update s.pc t pc')
    (hcrit : pc'.inCrit = true → s'.owner = some t)
    (howner : ∀ u, u ≠ t → (s.pc u).inCrit = true → s.owner = some u → s'.owner = some u)
    (hcounts : Counts s'.refcount s'.readers s'.writers)
    (hacquire : ∀ side, pc' = .acquire side → Fits s'.refcount side)
    (hothers : ∀ u side, u ≠ t → s.pc u = .acquire side → Fits s.refcount side → Fits s'.refcount side)
    (hholder : pc'.isUnlock = true → t ∈ s'.readers ∨ t ∈ s'.writers)
    (hholders : ∀ u, u ≠ t → u ∈ s.readers ∨ u ∈ s.writers → u ∈ s'.readers ∨ u ∈ s'.writers)
    (hacquired : ∀ u, u ≠ t → s'.acquired u = s.acquired u) (hresult : ∀ u, u ≠ t → s'.result u = s.result u)
    (hfresh : pc'.isFresh = true → s'.acquired t = false)
    (hfailed : pc' = .idle → s'.result t ≠ .ok → s'.acquired t = false) : s'.Excl := by
  have hself : s'.pc t = pc' := by rw [hpc, Function.update_self]
  have hne : ∀ u, u ≠ t → s'.pc u = s.pc u := fun u hu => by rw [hpc, Function.update_of_ne hu]
  constructor
  case counts => exact hcounts
  case crit =>
    intro u hu
    by_cases hut : u = t
    · subst hut
      exact hcrit (hself ▸ hu)
    · rw [hne u hut] at hu
      exact howner u hut hu (h.crit u hu)
  case acquire =>
    intro u side hu
    by_cases hut : u = t
    · subst hut
      exact hacquire side (hself.symm.trans hu)
    · rw [hne u hut] at hu
      exact hothers u side hut hu (h.acquire u side hu)
  case holder =>
    intro u hu
    by_cases hut : u = t
    · subst hut
      exact hholder (hself ▸ hu)
    · rw [hne u hut] at hu
      exact hholders u hut (h.holder u hu)
  case fresh =>
    intro u hu
    by_cases hut : u = t
    · subst hut
      exact hfresh (hself ▸ hu)
    · rw [hne u hut] at hu
      exact (hacquired u hut).trans (h.fresh u hu)
  case failed =>
    intro u hu herr
    by_cases hut : u = t
    · subst hut
      exact hfailed (hself.symm.trans hu) herr
    · rw [hne u hut] at hu
      rw [hresult u hut] at herr
      exact (hacquired u hut).trans (h.failed u hu herr)

/-- A step that only moves the thread, as far as the locks are concerned. -/
theorem Excl.move (h : s.Excl) (hpc : s'.pc = Function.update s.pc t pc') (howner : s'.owner = s.owner)
    (href : s'.refcount = s.refcount) (hreaders : s'.readers = s.readers) (hwriters : s'.writers = s.writers)
    (hacquired : s'.acquired = s.acquired) (hresult : s'.result = s.result)
    (hcrit : pc'.inCrit = true → (s.pc t).inCrit = true) (hacquire : ∀ side, pc' = .acquire side → Fits s.refcount side)
    (hunlock : pc'.isUnlock = true → (s.pc t).isUnlock = true) (hfresh : pc'.isFresh = true → (s.pc t).isFresh = true)
    (hidle : pc' ≠ .idle) : s'.Excl := by
  apply h.of_frame hpc
  · intro hc
    exact howner.trans (h.crit t (hcrit hc))
  · intro u _ _ hu
    exact howner.trans hu
  · rw [href, hreaders, hwriters]
    exact h.counts
  · intro side hside
    exact href ▸ hacquire side hside
  · intro u side _ _ hfits
    exact href ▸ hfits
  · intro hu
    rw [hreaders, hwriters]
    exact h.holder t (hunlock hu)
  · intro u _ hu
    rw [hreaders, hwriters]
    exact hu
  · intro u _
    rw [hacquired]
  · intro u _
    rw [hresult]
  · intro hf
    rw [hacquired]
    exact h.fresh t (hfresh hf)
  · intro hi
    exact absurd hi hidle

/-! ## Steps -/

theorem Excl.call (h : s.Excl) (op : RwOp) (hop : op = .unlock → t ∈ s.readers ∨ t ∈ s.writers) :
    (s.call t op).Excl := by
  have hframe : ∀ pc' : RwPc, pc'.inCrit = false → (∀ side, pc' ≠ .acquire side) →
      (pc'.isUnlock = true → op = .unlock) → pc' ≠ .idle →
      ({ s with acquired := Function.update s.acquired t false }.setPc t pc' : RwSys T).Excl := by
    intro pc' hcrit hacquire hunlock hidle
    apply h.of_frame (t := t)
    · rfl
    · intro hc
      exact absurd (hcrit.symm.trans hc) Bool.false_ne_true
    · intro u _ _ hu
      exact hu
    · exact h.counts
    · intro side hside
      exact absurd hside (hacquire side)
    · intro u side _ _ hfits
      exact hfits
    · intro hu
      exact hop (hunlock hu)
    · intro u _ hu
      exact hu
    · intro u hu
      exact Function.update_of_ne hu ..
    · intro u _
      rfl
    · intro _
      exact Function.update_self ..
    · intro hi
      exact absurd hi hidle
  have hunlock : ∀ store, (RwPc.init op store).isUnlock = true ∨ (RwPc.locking op).isUnlock = true → op = .unlock := by
    intro store hu
    cases op with
    | lock | trylock => exact absurd hu (by simp [RwPc.isUnlock])
    | unlock => rfl
  unfold RwSys.call
  dsimp only
  split
  · apply hframe
    · rfl
    · exact fun side => nofun
    · exact fun hu => hunlock .attr (.inl hu)
    · exact nofun
  · apply hframe
    · rfl
    · exact fun side => nofun
    · exact fun hu => hunlock .attr (.inr hu)
    · exact nofun

theorem Excl.initStore (h : s.Excl) {op : RwOp} {store : RwInit} (hpc : s.pc t = .init op store)
    (hok : s.InitOk (.init op store)) : (s.initStore t op store).Excl := by
  have hunlock : ∀ store', (RwPc.init op store').isUnlock = true → (s.pc t).isUnlock = true := by
    intro store' hu
    rw [hpc]
    cases op with
    | lock | trylock => exact absurd hu Bool.false_ne_true
    | unlock => rfl
  have hfresh : (s.pc t).isFresh = true := by rw [hpc]; rfl
  have hmove : ∀ (s' : RwSys T) (store' : RwInit), s'.pc = Function.update s.pc t (.init op store') →
      s'.owner = s.owner → s'.refcount = s.refcount → s'.readers = s.readers → s'.writers = s.writers →
      s'.acquired = s.acquired → s'.result = s.result → s'.Excl := by
    intro s' store' hp ho hc hr hw ha hres
    apply h.move hp ho hc hr hw ha hres
    · exact nofun
    · exact fun side => nofun
    · exact hunlock store'
    · exact fun _ => hfresh
    · exact nofun
  cases store with
  | attr => exact hmove _ .mutex rfl rfl rfl rfl rfl rfl rfl
  | condreaders => exact hmove _ .condwriters rfl rfl rfl rfl rfl rfl rfl
  | condwriters => exact hmove _ .nwaitwriters rfl rfl rfl rfl rfl rfl rfl
  | nwaitwriters => exact hmove _ .nwaitreaders rfl rfl rfl rfl rfl rfl rfl
  | nwaitreaders => exact hmove _ .refcount rfl rfl rfl rfl rfl rfl rfl
  | mutex =>
    have hfree : s.owner = none := hok
    apply h.of_frame (t := t)
    · rfl
    · exact nofun
    · intro u _ _ hu
      exact absurd (hfree.symm.trans hu) nofun
    · exact h.counts
    · exact fun side => nofun
    · intro u side _ _ hfits
      exact hfits
    · intro hu
      exact h.holder t (hunlock .condreaders hu)
    · intro u _ hu
      exact hu
    · exact fun _ _ => rfl
    · exact fun _ _ => rfl
    · exact fun _ => h.fresh t hfresh
    · exact nofun
  | refcount =>
    obtain ⟨hreaders, hwriters⟩ : s.readers = [] ∧ s.writers = [] := hok
    apply h.of_frame (t := t)
    · rfl
    · exact nofun
    · intro u _ _ hu
      exact hu
    · refine .inr ⟨?_, hwriters⟩
      show (0 : Int) = s.readers.length
      rw [hreaders]
      rfl
    · exact fun side => nofun
    · intro u side _ _ _
      cases side with
      | reader => exact Int.le_refl 0
      | writer => rfl
    · intro hu
      apply h.holder t
      rw [hpc]
      cases op with
      | lock | trylock => exact absurd hu Bool.false_ne_true
      | unlock => rfl
    · intro u _ hu
      exact hu
    · exact fun _ _ => rfl
    · exact fun _ _ => rfl
    · exact fun _ => h.fresh t hfresh
    · exact nofun

theorem Excl.lockMutex (h : s.Excl) {op : RwOp} (hpc : s.pc t = .locking op)
    (hcan : s.mutexReady = true → s.owner = none ∨ s.owner = some t) : (s.lockMutex t op).Excl := by
  have hfresh : (s.pc t).isFresh = true := by rw [hpc]; rfl
  unfold RwSys.lockMutex
  split
  next =>
    apply h.move (t := t)
    · rfl
    · rfl
    · rfl
    · rfl
    · rfl
    · rfl
    · rfl
    · exact nofun
    · exact fun side => nofun
    · exact nofun
    · exact nofun
    · exact nofun
  next hready =>
    split
    next =>
      apply h.of_frame (t := t)
      · rfl
      · exact nofun
      · intro u _ _ hu
        exact hu
      · exact h.counts
      · exact fun side => nofun
      · intro u side _ _ hfits
        exact hfits
      · exact nofun
      · intro u _ hu
        exact hu
      · exact fun _ _ => rfl
      · intro u hu
        exact Function.update_of_ne hu ..
      · exact nofun
      · exact fun _ _ => h.fresh t hfresh
    next hother =>
      have hfree : s.owner = none := (hcan (by simpa using hready)).resolve_right hother
      apply h.of_frame (t := t)
      · rfl
      · exact fun _ => rfl
      · intro u _ _ hu
        exact absurd (hfree.symm.trans hu) nofun
      · exact h.counts
      · exact fun side => nofun
      · intro u side _ _ hfits
        exact hfits
      · intro hu
        apply h.holder t
        rw [hpc]
        cases op with
        | lock | trylock => exact absurd hu Bool.false_ne_true
        | unlock => rfl
      · intro u _ hu
        exact hu
      · exact fun _ _ => rfl
      · exact fun _ _ => rfl
      · exact fun _ => h.fresh t hfresh
      · exact nofun

omit [DecidableEq T] in
/-- What a test that lets a thread go on has found. -/
theorem fits_of_mustWait {side : RwSide} (hmust : s.mustWait side = false) : Fits s.refcount side := by
  cases side with
  | reader =>
    have hnot : ¬ (s.refcount < 0 ∨ s.nwait .writer > 0) := of_decide_eq_false hmust
    show 0 ≤ s.refcount
    omega
  | writer =>
    have hnot : ¬ s.refcount ≠ 0 := of_decide_eq_false hmust
    show s.refcount = 0
    omega

omit [DecidableEq T] in
/-- A thread that owns the mutex is the only one to be where the mutex is needed. -/
theorem Excl.not_inCrit (h : s.Excl) (ht : (s.pc t).inCrit = true) {u : T} (hu : u ≠ t) : (s.pc u).inCrit ≠ true := by
  intro hc
  have hself := h.crit t ht
  rw [h.crit u hc] at hself
  exact hu (Option.some.inj hself)

/-- The test, in an operation that locks. -/
theorem Excl.testLock (h : s.Excl) {op : RwOp} {side : RwSide} (hpc : s.pc t = .test op) {pc₁ : RwPc}
    (hcrit : pc₁.inCrit = true) (hacquire : ∀ side', pc₁ ≠ .acquire side') (hunlock : pc₁.isUnlock = false) :
    (s.setPc t (if s.mustWait side = true then pc₁ else .acquire side)).Excl := by
  apply h.move (t := t)
  · rfl
  · rfl
  · rfl
  · rfl
  · rfl
  · rfl
  · rfl
  · intro _
    rw [hpc]
    rfl
  · intro side' hside
    split at hside
    next => exact absurd hside (hacquire side')
    next hmust =>
      obtain rfl : side = side' := RwPc.acquire.inj hside
      exact fits_of_mustWait (Bool.eq_false_iff.mpr hmust)
  · intro hu
    split at hu
    next => exact absurd (hunlock.symm.trans hu) Bool.false_ne_true
    next => exact absurd hu Bool.false_ne_true
  · intro _
    rw [hpc]
    rfl
  · split
    · rintro rfl
      exact absurd hcrit Bool.false_ne_true
    · exact nofun

/-- The unlock gives back the lock that its thread holds. -/
theorem Counts.release (h : Counts s.refcount s.readers s.writers) (ht : t ∈ s.readers ∨ t ∈ s.writers) :
    Counts (s.release t).refcount (s.release t).readers (s.release t).writers := by
  unfold RwSys.release
  dsimp only
  rcases h with ⟨href, ⟨u, hw⟩, hr⟩ | ⟨href, hw⟩
  · have hmem : t ∈ s.writers := by
      rw [hr] at ht
      exact ht.resolve_left List.not_mem_nil
    rw [hw] at hmem ⊢
    obtain rfl : t = u := List.mem_singleton.mp hmem
    rw [if_neg (by omega), if_pos href, if_pos (List.mem_singleton_self t), if_pos (List.mem_singleton_self t)]
    refine .inr ⟨?_, by simp⟩
    rw [hr]
    rfl
  · have hmem : t ∈ s.readers := by
      rw [hw] at ht
      exact ht.resolve_right List.not_mem_nil
    have hpos := List.length_pos_of_mem hmem
    have hnot : t ∉ s.writers := by
      rw [hw]
      exact List.not_mem_nil
    rw [if_pos (by omega), if_neg hnot, if_neg hnot]
    refine .inr ⟨?_, hw⟩
    rw [List.length_erase_of_mem hmem]
    omega

theorem Excl.testCounters (h : s.Excl) {op : RwOp} (hpc : s.pc t = .test op) : (s.testCounters t op).Excl := by
  have hcrit : (s.pc t).inCrit = true := by rw [hpc]; rfl
  cases op with
  | lock side timed => exact h.testLock hpc rfl (fun side' => nofun) rfl
  | trylock side => exact h.testLock hpc rfl (fun side' => nofun) rfl
  | unlock =>
    have hheld := h.holder t (by rw [hpc]; rfl)
    apply h.of_frame (t := t)
    · rfl
    · exact fun _ => h.crit t hcrit
    · intro u _ _ hu
      exact hu
    · exact h.counts.release hheld
    · exact fun side => nofun
    · intro u side hu hacq
      exact absurd (by rw [hacq]; rfl) (h.not_inCrit hcrit hu)
    · exact nofun
    · intro u hu hmem
      show u ∈ (s.release t).readers ∨ u ∈ (s.release t).writers
      unfold release
      dsimp only
      split
      · exact hmem.imp_right (List.mem_erase_of_ne hu).mpr
      · exact hmem.imp_left (List.mem_erase_of_ne hu).mpr
    · exact fun _ _ => rfl
    · exact fun _ _ => rfl
    · exact fun _ => h.fresh t (by rw [hpc]; rfl)
    · exact nofun

theorem Excl.takeLock (h : s.Excl) {side : RwSide} (hpc : s.pc t = .acquire side) : (s.takeLock t side).Excl := by
  have hcrit : (s.pc t).inCrit = true := by rw [hpc]; rfl
  have hfits := h.acquire t side hpc
  have hframe : ∀ s' : RwSys T, s'.pc = Function.update s.pc t (.unlocking .ok) → s'.owner = s.owner →
      Counts s'.refcount s'.readers s'.writers →
      (∀ u, u ∈ s.readers ∨ u ∈ s.writers → u ∈ s'.readers ∨ u ∈ s'.writers) →
      (∀ u, u ≠ t → s'.acquired u = s.acquired u) → s'.result = s.result → s'.Excl := by
    intro s' hp ho hc hm ha hr
    apply h.of_frame hp
    · exact fun _ => ho.trans (h.crit t hcrit)
    · exact fun u _ _ hu => ho.trans hu
    · exact hc
    · exact fun side => nofun
    · intro u side' hu hacq
      exact absurd (by rw [hacq]; rfl) (h.not_inCrit hcrit hu)
    · exact nofun
    · exact fun u _ => hm u
    · exact ha
    · exact fun u _ => congrFun hr u
    · exact fun hf => absurd hf (by decide)
    · exact nofun
  cases side with
  | reader =>
    have hpos : 0 ≤ s.refcount := hfits
    apply hframe
    · rfl
    · rfl
    · rcases h.counts with ⟨href, -⟩ | ⟨href, hw⟩
      · omega
      · refine .inr ⟨?_, hw⟩
        show s.refcount + 1 = ((t :: s.readers).length : Int)
        rw [List.length_cons]
        omega
    · exact fun u hu => hu.imp_left (List.mem_cons_of_mem t)
    · exact fun u hu => Function.update_of_ne hu ..
    · rfl
  | writer =>
    have hzero : s.refcount = 0 := hfits
    apply hframe
    · rfl
    · rfl
    · rcases h.counts with ⟨href, -⟩ | ⟨href, hw⟩
      · omega
      · refine .inl ⟨rfl, ⟨t, ?_⟩, ?_⟩
        · show t :: s.writers = [t]
          rw [hw]
        · show s.readers = []
          exact List.length_eq_zero_iff.mp (by omega)
    · exact fun u hu => hu.imp_right (List.mem_cons_of_mem t)
    · exact fun u hu => Function.update_of_ne hu ..
    · rfl

theorem Excl.unlockMutex (h : s.Excl) {result : PthreadErr} (hpc : s.pc t = .unlocking result) :
    (s.unlockMutex t result).Excl := by
  have hcrit : (s.pc t).inCrit = true := by rw [hpc]; rfl
  apply h.of_frame (t := t)
  · rfl
  · exact nofun
  · intro u hu hc
    exact absurd hc (h.not_inCrit hcrit hu)
  · exact h.counts
  · exact fun side => nofun
  · intro u side _ _ hfits
    exact hfits
  · exact nofun
  · intro u _ hu
    exact hu
  · exact fun _ _ => rfl
  · exact fun u hu => Function.update_of_ne hu ..
  · exact nofun
  · intro _ herr
    have hne : result ≠ .ok := by
      rwa [show (s.unlockMutex t result).result t = result from Function.update_self ..] at herr
    exact h.fresh t (by rw [hpc]; exact decide_eq_true hne)

theorem Excl.beginWait (h : s.Excl) (time : Int) : (s.beginWait t time).Excl := by
  unfold RwSys.beginWait
  split
  next side timed hpc =>
    have hcrit : (s.pc t).inCrit = true := by rw [hpc]; rfl
    rw [if_pos (h.crit t hcrit)]
    apply h.of_frame (t := t)
    · rfl
    · exact nofun
    · intro u hu hc
      exact absurd hc (h.not_inCrit hcrit hu)
    · exact h.counts
    · exact fun side => nofun
    · intro u side' _ _ hfits
      exact hfits
    · exact nofun
    · intro u _ hu
      exact hu
    · exact fun _ _ => rfl
    · exact fun _ _ => rfl
    · exact fun _ => h.fresh t (by rw [hpc]; rfl)
    · exact nofun
  next => exact h

/-- Waking the waiters is a matter of the conditions. -/
theorem wakeWaiters_frame (s : RwSys T) (t : T) : (s.wakeWaiters t).pc = s.pc ∧ (s.wakeWaiters t).attr = s.attr ∧
    (s.wakeWaiters t).mutexReady = s.mutexReady ∧ (s.wakeWaiters t).owner = s.owner ∧
    (s.wakeWaiters t).refcount = s.refcount ∧ (s.wakeWaiters t).readers = s.readers ∧
    (s.wakeWaiters t).writers = s.writers ∧ (s.wakeWaiters t).acquired = s.acquired ∧
    (s.wakeWaiters t).result = s.result := by
  unfold wakeWaiters
  split_ifs <;> exact ⟨rfl, rfl, rfl, rfl, rfl, rfl, rfl, rfl, rfl⟩

/-- **The next step of a thread.** -/
theorem Excl.nextStep (h : s.Excl) (hcan : s.CanStep t (s.pc t)) (hok : s.InitOk (s.pc t)) : (s.nextStep t).Excl := by
  have hmove : ∀ (s' : RwSys T) (pc₁ : RwPc), s'.pc = Function.update s.pc t pc₁ → s'.owner = s.owner →
      s'.refcount = s.refcount → s'.readers = s.readers → s'.writers = s.writers → s'.acquired = s.acquired →
      s'.result = s.result → (pc₁.inCrit = true → (s.pc t).inCrit = true) → (∀ side, pc₁ ≠ .acquire side) →
      pc₁.isUnlock = false → (s.pc t).isFresh = true → pc₁ ≠ .idle → s'.Excl := by
    intro s' pc₁ hp ho hc hr hw ha hres hcrit hacq hunl hfresh hidle
    apply h.move hp ho hc hr hw ha hres hcrit
    · exact fun side hs => absurd hs (hacq side)
    · exact fun hu => absurd (hunl.symm.trans hu) Bool.false_ne_true
    · exact fun _ => hfresh
    · exact hidle
  unfold RwSys.nextStep
  cases hpc : s.pc t with
  | idle | wait | asserted => exact h
  | init op store => exact h.initStore hpc (hpc ▸ hok)
  | locking op =>
    rw [hpc] at hcan
    exact h.lockMutex hpc hcan
  | test op => exact h.testCounters hpc
  | acquire side => exact h.takeLock hpc
  | unlocking result => exact h.unlockMutex hpc
  | enter side timed =>
    refine hmove _ _ rfl rfl rfl rfl rfl rfl rfl ?_ ?_ ?_ ?_ ?_
    · exact fun _ => by rw [hpc]; rfl
    · exact fun side => nofun
    · rfl
    · rw [hpc]; rfl
    · exact nofun
  | unlocked side timed time =>
    refine hmove _ _ rfl rfl rfl rfl rfl rfl rfl ?_ ?_ ?_ ?_ ?_
    · split <;> exact nofun
    · intro side'
      split <;> exact nofun
    · split <;> rfl
    · rw [hpc]; rfl
    · split <;> exact nofun
  | taking side timed =>
    refine hmove _ _ rfl rfl rfl rfl rfl rfl rfl ?_ ?_ ?_ ?_ ?_
    · exact nofun
    · exact fun side => nofun
    · rfl
    · rw [hpc]; rfl
    · exact nofun
  | leave side timed result =>
    refine hmove _ _ rfl rfl rfl rfl rfl rfl rfl ?_ ?_ ?_ ?_ ?_
    · exact fun _ => by rw [hpc]; rfl
    · intro side'
      split <;> exact nofun
    · split <;> rfl
    · rw [hpc]; rfl
    · split <;> exact nofun
  | wake =>
    obtain ⟨hp, -, -, ho, hc, hr, hw, ha, hres⟩ := wakeWaiters_frame s t
    have hpc' : ((s.wakeWaiters t).setPc t (.unlocking .ok)).pc = Function.update s.pc t (.unlocking .ok) := by
      rw [← hp]
      rfl
    refine hmove _ _ hpc' ho hc hr hw ha hres ?_ ?_ ?_ ?_ ?_
    · exact fun _ => by rw [hpc]; rfl
    · exact fun side => nofun
    · rfl
    · rw [hpc]; rfl
    · exact nofun
  | relocking side timed result =>
    rw [hpc] at hcan
    apply h.of_frame (t := t)
    · rfl
    · exact fun _ => rfl
    · intro u hu _ hown
      rcases hcan with hfree | hself
      · exact absurd (hfree.symm.trans hown) nofun
      · exact absurd (Option.some.inj (hown.symm.trans hself)) hu
    · exact h.counts
    · exact fun side => nofun
    · intro u side' _ _ hfits
      exact hfits
    · exact nofun
    · intro u _ hu
      exact hu
    · exact fun _ _ => rfl
    · exact fun _ _ => rfl
    · exact fun _ => h.fresh t (by rw [hpc]; rfl)
    · exact nofun

/-- **Every step that meets the condition keeps the invariant.** -/
theorem excl_step (h : s.Excl) (hok : s.StepOk e) (hs : s.Step e s') : s'.Excl := by
  obtain ⟨hen, rfl⟩ := hs
  cases e with
  | call t op => exact h.call op hen.2
  | step t => exact h.nextStep hen hok
  | wait t time => exact h.beginWait time
  | timeout t =>
    show (s.timeoutSem t).Excl
    unfold timeoutSem
    split
    · exact ⟨h.crit, h.counts, h.acquire, h.holder, h.fresh, h.failed⟩
    · exact h

/-! ## Runs -/

/-- The lock has been initialised, and nobody is about to do so. -/
structure Ready (s : RwSys T) : Prop where
  attr : s.attr = 0
  mutex : s.mutexReady = true
  noInit : ∀ t op store, s.pc t ≠ .init op store

omit [DecidableEq T] in
theorem ready_init : (init : RwSys T).Ready := ⟨rfl, rfl, fun _ _ _ => nofun⟩

omit [DecidableEq T] in
theorem Ready.stepOk (h : s.Ready) (e : RwEvent T) : s.StepOk e := by
  cases e with
  | call | wait | timeout => trivial
  | step t =>
    show s.InitOk (s.pc t)
    cases hpc : s.pc t with
    | init op store => exact absurd hpc (h.noInit t op store)
    | idle | locking | test | enter | wait | unlocked | taking | relocking | leave | acquire | wake | unlocking
    | asserted => trivial

/-- A lock that has been initialised is never initialised again. -/
theorem ready_step (h : s.Ready) (hs : s.Step e s') : s'.Ready := by
  have hpcs : ∀ (s' : RwSys T) (t : T) (pc₁ : RwPc), s'.attr = s.attr → s'.mutexReady = s.mutexReady →
      s'.pc = Function.update s.pc t pc₁ → (∀ op store, pc₁ ≠ .init op store) → s'.Ready := by
    intro s' t pc₁ hattr hmutex hpc hno
    refine ⟨hattr.trans h.attr, hmutex.trans h.mutex, ?_⟩
    intro u op store
    rw [hpc]
    by_cases hu : u = t
    · subst hu
      rw [Function.update_self]
      exact hno op store
    · rw [Function.update_of_ne hu]
      exact h.noInit u op store
  obtain ⟨hen, rfl⟩ := hs
  cases e with
  | call t op =>
    have hattr : s.attr ≠ -1 := by rw [h.attr]; decide
    show (s.call t op).Ready
    unfold RwSys.call
    dsimp only
    rw [if_neg hattr]
    exact hpcs _ t _ rfl rfl rfl fun _ _ => nofun
  | wait t time =>
    show (s.beginWait t time).Ready
    unfold RwSys.beginWait
    split
    · split
      · exact hpcs _ t _ rfl rfl rfl fun _ _ => nofun
      · exact hpcs _ t _ rfl rfl rfl fun _ _ => nofun
    · exact h
  | timeout t =>
    show (s.timeoutSem t).Ready
    unfold timeoutSem
    split
    · exact ⟨h.attr, h.mutex, h.noInit⟩
    · exact h
  | step t =>
    show (s.nextStep t).Ready
    unfold RwSys.nextStep
    cases hpc : s.pc t with
    | idle | wait | asserted => exact h
    | init op store => exact absurd hpc (h.noInit t op store)
    | locking op =>
      dsimp only
      unfold RwSys.lockMutex
      split_ifs
      · exact hpcs _ t _ rfl rfl rfl fun _ _ => nofun
      · exact hpcs _ t _ rfl rfl rfl fun _ _ => nofun
      · exact hpcs _ t _ rfl rfl rfl fun _ _ => nofun
    | test op =>
      cases op with
      | lock side timed => exact hpcs _ t _ rfl rfl rfl fun _ _ => by split <;> exact nofun
      | trylock side => exact hpcs _ t _ rfl rfl rfl fun _ _ => by split <;> exact nofun
      | unlock => exact hpcs _ t _ rfl rfl rfl fun _ _ => nofun
    | acquire side =>
      cases side with
      | reader | writer => exact hpcs _ t _ rfl rfl rfl fun _ _ => nofun
    | enter | taking | relocking | unlocking => exact hpcs _ t _ rfl rfl rfl fun _ _ => nofun
    | unlocked | leave => exact hpcs _ t _ rfl rfl rfl fun _ _ => by split <;> exact nofun
    | wake =>
      obtain ⟨hp, ha, hm, -⟩ := wakeWaiters_frame s t
      have hpc' : ((s.wakeWaiters t).setPc t (.unlocking .ok)).pc = Function.update s.pc t (.unlocking .ok) := by
        rw [← hp]
        rfl
      exact hpcs _ t _ ha hm hpc' fun _ _ => nofun

/-- The store of `rw_refcount` in an initialisation is right exactly if nobody holds a lock. -/
theorem Excl.storeRefcount_iff (h : s.Excl) {op : RwOp} (hpc : s.pc t = .init op .refcount)
    (hs : s.Step (.step t) s') : s.StepOk (.step t) ↔ s'.Exclusive := by
  constructor
  · intro hok
    exact (excl_step h hok hs).exclusive
  · intro hex
    obtain ⟨-, rfl⟩ := hs
    have hexec : s.exec (.step t) = { s.setPc t (.locking op) with refcount := 0 } := by
      show s.nextStep t = _
      unfold RwSys.nextStep
      rw [hpc]
      rfl
    obtain ⟨hlen, hw⟩ := (hex.reader 0).mp (by rw [hexec]; rfl)
    rw [hexec] at hlen hw
    show s.InitOk (s.pc t)
    rw [hpc]
    exact ⟨List.length_eq_zero_iff.mp hlen, hw⟩

/-- **The lock excludes.** Every state is safe in every run of a lock that has been initialised, and in every run of a
static one in which each store of an initialisation meets the condition. There, a store of `rw_refcount` that does not
meet it leads to a state that is not safe. -/
theorem rwlock_exclusive {ls : List (RwEvent T)}
    (hrun : Run Step init ls s ∨ Run (Guarded StepOk Step) static ls s) :
    s.Exclusive ∧ ∀ t op s', s.pc t = .init op .refcount → s.Step (.step t) s' →
      (s.StepOk (.step t) ↔ s'.Exclusive) := by
  have hinv : s.Excl := by
    rcases hrun with hinit | hstatic
    · have hboth : s.Ready ∧ s.Excl := by
        apply hinit.invariant ⟨ready_init, excl_init⟩
        intro s e s' ⟨hready, hexcl⟩ hs
        exact ⟨ready_step hready hs, excl_step hexcl (hready.stepOk e) hs⟩
      exact hboth.2
    · exact hstatic.guarded excl_static fun _ _ _ h hok hs => excl_step h hok hs
  exact ⟨hinv.exclusive, fun t op s' hpc hs => hinv.storeRefcount_iff hpc hs⟩

/-- The steps of a thread that has an operation to itself, from the test of `attr` on a static lock on. -/
def firstLock (t : Nat) (op : RwOp) : List (RwEvent Nat) :=
  .call t op :: List.replicate 11 (.step t)

/-- A writer initialises a static lock and acquires it; a reader finds it locked, and is about to initialise nothing. -/
theorem rwlock_exclusive_run : ∃ s : RwSys Nat, (s.writers = [0] ∧ s.result 1 = .ebusy) ∧ s.Exclusive ∧
    ∀ t op s', s.pc t = .init op .refcount → s.Step (.step t) s' → (s.StepOk (.step t) ↔ s'.Exclusive) := by
  have hexec : (((firstLock 0 (.lock .writer false) ++ ([.call 1 (.trylock .reader), .step 1, .step 1, .step 1] :
      List (RwEvent Nat))).foldlM (fun s e => if StepOk s e then Run.tryStep Enabled exec s e else none) static).map
        fun s => (s.writers, s.result 1)) = some ([0], .ebusy) := by decide +kernel
  obtain ⟨s, hs, hobs⟩ := Option.map_eq_some_iff.mp hexec
  refine ⟨s, ⟨congrArg Prod.fst hobs, congrArg Prod.snd hobs⟩, ?_⟩
  exact rwlock_exclusive (.inr (Run.of_foldlM_guarded (fun _ _ _ hs => Run.of_tryStep hs) hs))

/-- **A lock that is initialised twice.** Two writers find a static lock not initialised. The second one initialises it and
acquires it; then the first one goes on with its own initialisation, and sets `rw_refcount` to 0. -/
theorem rwlock_not_exclusive : ¬ ∀ (ls : List (RwEvent Nat)) (s : RwSys Nat),
    Run Step init ls s ∨ Run Step static ls s → s.Exclusive := by
  intro hall
  have hexec : (((([.call 0 (.lock .writer false)] : List (RwEvent Nat)) ++ firstLock 1 (.lock .writer false) ++
      List.replicate 7 (RwEvent.step 0)).foldlM (Run.tryStep Enabled exec) static).map
        fun s : RwSys Nat => (s.writers, s.refcount)) = some ([1], 0) := by decide +kernel
  obtain ⟨s, hs, hobs⟩ := Option.map_eq_some_iff.mp hexec
  have hwriters : s.writers = [1] := congrArg Prod.fst hobs
  obtain ⟨-, hnil⟩ := ((hall _ s (.inr (Run.of_foldlM_tryStep hs))).reader 0).mp (congrArg Prod.snd hobs)
  exact List.cons_ne_nil _ _ (hwriters.symm.trans hnil)

end RwSys

end CoreLink.RtThread
