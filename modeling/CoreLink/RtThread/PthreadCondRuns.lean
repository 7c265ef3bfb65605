/-
# `CoreLink.RtThread.PthreadCondRuns` — whom a signal or a broadcast of a condition variable reaches.

The promises are about everything that can happen after a step. A thread that a release has woken gets past the semaphore
whatever the others do (`granted_step`). A thread that has not come to the semaphore does not: the tokens that a signal or
a broadcast leaves can be taken by a thread that begins to wait afterwards, as the one that has signalled can
(`exists_rob`), and then every thread on its way to the semaphore is suspended (`exists_starve`). So the condition of
`CondSys.StepOk` is exact, in every state of every run: `cond_kept`.
-/
import CoreLink.RtThread.PthreadCond

namespace CoreLink.RtThread

open CoreLink.Lib

/-! ## The semaphore -/

namespace SemSys

variable {T : Type*} [DecidableEq T]

variable {s s' : SemSys T} {t u : T}

theorem ret_self (e : RtErr) : (s.ret t e).thread t = { s.thread t with pc := .idle, result := e } :=
  Function.update_self ..

theorem ret_of_ne (hu : u ≠ t) (e : RtErr) : (s.ret t e).thread u = s.thread u := Function.update_of_ne hu ..

theorem take_pos (hv : 0 < s.value) (time : Int) (prio : T → Nat) :
    s.rtSemTake t time prio = { s with value := s.value - 1 }.ret t .eok := if_pos hv

theorem take_now (hv : s.value = 0) (prio : T → Nat) : s.rtSemTake t 0 prio = s.ret t .etimeout := by
  unfold rtSemTake
  rw [if_neg (by omega), if_pos rfl]

theorem take_wait (hv : s.value = 0) {time : Int} (htime : time ≠ 0) (prio : T → Nat) :
    s.rtSemTake t time prio = { s with suspendThread := MqSys.insertSuspended s.flag prio t s.suspendThread }.setThread t
      { s.thread t with pc := .waiting time, error := .eok } := by
  unfold rtSemTake
  rw [if_neg (by omega), if_neg htime]

theorem take_of_ne (hu : u ≠ t) (time : Int) (prio : T → Nat) : (s.rtSemTake t time prio).thread u = s.thread u := by
  unfold rtSemTake
  split_ifs <;> exact Function.update_of_ne hu ..

/-- A take without waiting. -/
theorem trytake_pc (ht : (s.thread t).pc = .idle) (prio : T → Nat) (u : T) :
    ((s.rtSemTake t 0 prio).thread u).pc = (s.thread u).pc := by
  by_cases hu : u = t
  · subst hu
    rw [ht]
    rcases Nat.eq_zero_or_pos s.value with hv | hv
    · rw [take_now hv, ret_self]
    · rw [take_pos hv, ret_self]
  · rw [take_of_ne hu]

theorem release_nil (h : s.suspendThread = []) : s.rtSemRelease = { s with value := (s.value + 1) % 2 ^ 16 } := by
  unfold rtSemRelease
  rw [h]

theorem release_cons {ts : List T} (h : s.suspendThread = t :: ts) :
    s.rtSemRelease = s.wake t (s.thread t).error := by
  unfold rtSemRelease
  rw [h]

/-- A release wakes the first thread, and no other. -/
theorem release_thread (u : T) : s.rtSemRelease.thread u =
    if s.suspendThread.head? = some u then { s.thread u with pc := .woken } else s.thread u := by
  cases hts : s.suspendThread with
  | nil =>
    rw [release_nil hts]
    rfl
  | cons t ts =>
    rw [release_cons hts]
    show Function.update s.thread t _ u = _
    by_cases hut : u = t
    · subst hut
      rw [Function.update_self, List.head?_cons, if_pos rfl]
    · rw [Function.update_of_ne hut, List.head?_cons, if_neg fun hh => hut (Option.some.inj hh).symm]

omit [DecidableEq T] in
/-- A semaphore in order: what `SemOk` says, and that it has no tokens while threads are suspended. -/
structure Sound (s : SemSys T) : Prop where
  ok : ∃ handed, s.SemOk handed
  avail : 0 < s.value → s.suspendThread = []

omit [DecidableEq T] in
theorem Sound.mem_iff (h : s.Sound) (t : T) : t ∈ s.suspendThread ↔ (s.thread t).isWaiting := by
  obtain ⟨handed, hok⟩ := h.ok
  exact hok.waits.mem_iff t

omit [DecidableEq T] in
theorem sound_init : (init 0 .fifo : SemSys T).Sound where
  ok := ⟨[], .init fun _ => id, .init fun _ => nofun, nofun, Nat.zero_lt_succ _⟩
  avail _ := rfl

theorem Sound.take (h : s.Sound) (ht : (s.thread t).pc = .idle) (time : Int) (prio : T → Nat) :
    (s.rtSemTake t time prio).Sound := by
  obtain ⟨handed, hok⟩ := h.ok
  obtain ⟨handed', hok', -⟩ := take_ok hok ht time prio
  refine ⟨⟨handed', hok'⟩, ?_⟩
  unfold rtSemTake
  split_ifs with hvalue htime
  · intro _
    exact h.avail hvalue
  · exact h.avail
  · intro hpos
    exact absurd hpos hvalue

theorem Sound.continue (h : s.Sound) (ht : (s.thread t).pc = .woken) : (s.takeWoken t).Sound := by
  obtain ⟨handed, hok⟩ := h.ok
  obtain ⟨handed', hok', -⟩ := continue_ok hok ht
  refine ⟨⟨handed', hok'⟩, ?_⟩
  unfold takeWoken
  split <;> exact h.avail

theorem Sound.timeout (h : s.Sound) (ht : (s.thread t).timeLimit.any (0 < ·)) : (s.wake t .etimeout).Sound := by
  obtain ⟨handed, hok⟩ := h.ok
  obtain ⟨handed', hok', -⟩ := timeout_ok hok ht
  refine ⟨⟨handed', hok'⟩, ?_⟩
  intro hpos
  show s.suspendThread.erase t = []
  rw [h.avail hpos]
  rfl

theorem Sound.release (h : s.Sound) : s.rtSemRelease.Sound := by
  obtain ⟨handed, hok⟩ := h.ok
  obtain ⟨handed', hok', -⟩ := release_ok hok
  refine ⟨⟨handed', hok'⟩, ?_⟩
  cases hts : s.suspendThread with
  | nil =>
    rw [release_nil hts]
    exact fun _ => hts
  | cons u ts =>
    rw [release_cons hts]
    intro hpos
    exact absurd (hts.symm.trans (h.avail hpos)) (List.cons_ne_nil _ _)

/-- A release leaves the threads that are not in a take alone. -/
theorem release_idle_iff (h : s.Sound) (u : T) : (s.rtSemRelease.thread u).pc = .idle ↔ (s.thread u).pc = .idle := by
  rw [release_thread]
  split
  next hhead =>
    have hw := (h.mem_iff u).mp (List.mem_of_mem_head? hhead)
    refine iff_of_false nofun fun hidle => ?_
    rw [SemThread.isWaiting, hidle] at hw
    exact hw
  next => exact Iff.rfl

/-- A round of a broadcast that finds a token, and gives it back. -/
theorem broadcastLoop_pos (hv : 0 < s.value) (fuel : Nat) :
    broadcastLoop t (fuel + 1) s = (s.rtSemTake t 0 fun _ => 0).rtSemRelease := by
  unfold broadcastLoop
  dsimp only
  rw [if_neg]
  rw [take_pos hv, ret_self]
  exact nofun

/-- A round that finds none. -/
theorem broadcastLoop_zero (hv : s.value = 0) (fuel : Nat) :
    broadcastLoop t (fuel + 1) s = broadcastLoop t fuel (s.ret t .etimeout).rtSemRelease := by
  rw [broadcastLoop]
  rw [take_now hv, if_pos (by rw [ret_self])]

/-- **A broadcast** wakes everyone who is suspended, leaves the threads that are in no take alone, and leaves a token. -/
theorem broadcastLoop_spec (h : s.Sound) (ht : (s.thread t).pc = .idle) {fuel : Nat}
    (hfuel : s.suspendThread.length + (if s.value = 0 then 2 else 1) ≤ fuel) :
    (broadcastLoop t fuel s).Sound ∧ (broadcastLoop t fuel s).suspendThread = [] ∧
      (∀ u, ((broadcastLoop t fuel s).thread u).pc = .idle ↔ (s.thread u).pc = .idle) ∧
        (broadcastLoop t fuel s).value = max s.value 1 := by
  induction fuel generalizing s with
  | zero =>
    exfalso
    split at hfuel <;> omega
  | succ fuel ih =>
    have htry := h.take ht 0 fun _ => 0
    have hidle : ∀ u, ((s.rtSemTake t 0 fun _ => 0).rtSemRelease.thread u).pc = .idle ↔ (s.thread u).pc = .idle := by
      intro u
      rw [release_idle_iff htry, trytake_pc ht]
    rcases Nat.eq_zero_or_pos s.value with hv | hv
    · rw [broadcastLoop_zero hv, ← take_now hv fun _ => 0]
      rw [if_pos hv] at hfuel
      have hfuel' : (s.rtSemTake t 0 fun _ => 0).rtSemRelease.suspendThread.length +
          (if (s.rtSemTake t 0 fun _ => 0).rtSemRelease.value = 0 then 2 else 1) ≤ fuel := by
        rw [take_now hv]
        cases hts : s.suspendThread with
        | nil =>
          rw [release_nil (show (s.ret t .etimeout).suspendThread = [] from hts)]
          show s.suspendThread.length + (if (s.value + 1) % 2 ^ 16 = 0 then 2 else 1) ≤ fuel
          rw [if_neg (by rw [hv]; decide)]
          omega
        | cons u ts =>
          rw [release_cons (show (s.ret t .etimeout).suspendThread = u :: ts from hts)]
          show (s.suspendThread.erase u).length + (if s.value = 0 then 2 else 1) ≤ fuel
          rw [hts, List.erase_cons_head, if_pos hv]
          rw [hts, List.length_cons] at hfuel
          omega
      obtain ⟨hsound, hnil, hpcs, hvalue⟩ := ih htry.release ((hidle t).mpr ht) hfuel'
      refine ⟨hsound, hnil, fun u => (hpcs u).trans (hidle u), ?_⟩
      rw [hvalue, take_now hv, hv]
      cases hts : s.suspendThread with
      | nil =>
        rw [release_nil (show (s.ret t .etimeout).suspendThread = [] from hts)]
        show max ((s.value + 1) % 2 ^ 16) 1 = max 0 1
        rw [hv]
        rfl
      | cons u ts =>
        rw [release_cons (show (s.ret t .etimeout).suspendThread = u :: ts from hts)]
        show max s.value 1 = max 0 1
        rw [hv]
    · rw [broadcastLoop_pos hv]
      have hnil : (s.rtSemTake t 0 fun _ => 0).suspendThread = [] := by
        rw [take_pos hv]
        exact h.avail hv
      obtain ⟨handed, hok⟩ := h.ok
      have hlt := hok.value_lt
      refine ⟨htry.release, ?_, hidle, ?_⟩
      · rw [release_nil hnil]
        exact hnil
      · rw [release_nil hnil, take_pos hv]
        show (s.value - 1 + 1) % 2 ^ 16 = max s.value 1
        rw [Nat.sub_add_cancel hv, Nat.mod_eq_of_lt hlt, Nat.max_eq_left hv]

/-- The rounds of a broadcast are enough. -/
theorem broadcast_spec (h : s.Sound) (ht : (s.thread t).pc = .idle) :
    (s.pthreadCondBroadcast t).Sound ∧ (s.pthreadCondBroadcast t).suspendThread = [] ∧
      (∀ u, ((s.pthreadCondBroadcast t).thread u).pc = .idle ↔ (s.thread u).pc = .idle) ∧
        (s.pthreadCondBroadcast t).value = max s.value 1 :=
  broadcastLoop_spec h ht (by split <;> omega)

end SemSys

/-! ## The system -/

/-- The thread of an event. -/
def CondEvent.thread {T : Type*} : CondEvent T → T
  | .lock t | .unlock t | .wait t _ | .take t | .continue t | .timeout t | .relock t | .signal t | .broadcast t => t

namespace CondPc

theorem exists_time {pc : CondPc} (h : pc.isUnlocked = true) : ∃ time, pc = .unlocked time := by
  cases pc with
  | unlocked time => exact ⟨time, rfl⟩
  | idle | taking | relocking => exact absurd h Bool.false_ne_true

/-- The thread, with this record at the semaphore, will not be suspended without a time limit in its last wait. -/
def isLoose (pc : CondPc) (th : SemThread) : Prop :=
  match pc with
  | unlocked time => 0 ≤ time
  | taking => ∀ time, th.pc = .waiting time → 0 ≤ time
  | relocking | idle => True

/-- The thread has got a token in its last wait. -/
def isGranted (pc : CondPc) (th : SemThread) : Prop :=
  match pc with
  | unlocked _ => False
  | taking => th.HandedOver
  | relocking | idle => th.result = .eok

end CondPc

namespace CondSys

variable {T : Type*} [DecidableEq T] {s s' : CondSys T} {e : CondEvent T} {t u : T}

theorem setPc_self (pc : CondPc) : (s.setPc t pc).pc t = pc := Function.update_self ..

theorem setPc_of_ne (hu : u ≠ t) (pc : CondPc) : (s.setPc t pc).pc u = s.pc u := Function.update_of_ne hu ..

/-- What holds between the steps: the semaphore is in order, the threads in `rt_sem_take` are those in that step of a
wait, the owner of the mutex is in no wait, and finitely many threads are between the mutex and the semaphore. -/
structure Inv (s : CondSys T) : Prop where
  sound : s.sem.Sound
  taking : ∀ t, (s.sem.thread t).pc = .idle ↔ s.pc t ≠ .taking
  owner : ∀ t, s.owner = some t → s.pc t = .idle
  unlocked : ∃ ts : List T, Waits (fun pc => pc.isUnlocked = true) s.pc ts

omit [DecidableEq T] in
theorem inv_init : (init : CondSys T).Inv where
  sound := SemSys.sound_init
  taking _ := iff_of_true rfl nofun
  owner _ h := absurd h nofun
  unlocked := ⟨[], .init fun _ => nofun⟩

theorem step_take {time : Int} (hpc : s.pc t = .unlocked time) : s.Step (.take t) (s.take t) := by
  refine ⟨?_, rfl⟩
  show (s.pc t).isUnlocked = true
  rw [hpc]
  rfl

/-- A step of one thread leaves the others where they are, unless it is a signal or a broadcast. -/
theorem silent_frame (hs : s.Step e s') (he : Silent e) (hu : u ≠ e.thread) :
    s'.pc u = s.pc u ∧ s'.sem.thread u = s.sem.thread u ∧ s'.round u = s.round u := by
  obtain ⟨hen, rfl⟩ := hs
  cases e with
  | lock t | unlock t => exact ⟨rfl, rfl, rfl⟩
  | wait t time =>
    show (s.wait t time).pc u = _ ∧ (s.wait t time).sem.thread u = _ ∧ (s.wait t time).round u = _
    unfold wait
    split
    · exact ⟨setPc_of_ne hu _, rfl, Function.update_of_ne hu ..⟩
    · exact ⟨rfl, rfl, rfl⟩
  | take t =>
    obtain ⟨time, hpc⟩ := CondPc.exists_time hen
    show (s.take t).pc u = _ ∧ (s.take t).sem.thread u = _ ∧ (s.take t).round u = _
    unfold take
    rw [hpc]
    exact ⟨setPc_of_ne hu _, SemSys.take_of_ne hu _ _, rfl⟩
  | «continue» t =>
    refine ⟨setPc_of_ne hu _, ?_, rfl⟩
    show (s.sem.takeWoken t).thread u = _
    unfold SemSys.takeWoken
    split <;> exact SemSys.ret_of_ne hu _
  | timeout t => exact ⟨rfl, Function.update_of_ne hu .., rfl⟩
  | relock t => exact ⟨setPc_of_ne hu _, rfl, rfl⟩
  | signal | broadcast => exact he.elim

/-- What a step of one thread has to show. -/
theorem Inv.of_frame (h : s.Inv) {pc' : CondPc} (hpc : s'.pc = Function.update s.pc t pc') (hsound : s'.sem.Sound)
    (hthread : ∀ u, u ≠ t → s'.sem.thread u = s.sem.thread u)
    (htaking : (s'.sem.thread t).pc = .idle ↔ pc' ≠ .taking)
    (howner : ∀ u, s'.owner = some u → u = t ∧ pc' = .idle ∨ u ≠ t ∧ s.pc u = .idle) : s'.Inv := by
  have hself : s'.pc t = pc' := by rw [hpc, Function.update_self]
  have hne : ∀ u, u ≠ t → s'.pc u = s.pc u := fun u hu => by rw [hpc, Function.update_of_ne hu]
  constructor
  · exact hsound
  · intro u
    by_cases hu : u = t
    · rw [hu, hself]
      exact htaking
    · rw [hne u hu, hthread u hu]
      exact h.taking u
  · intro u hu
    rcases howner u hu with ⟨rfl, hidle⟩ | ⟨hut, hidle⟩
    · rw [hself, hidle]
    · rw [hne u hut, hidle]
  · obtain ⟨ts, hts⟩ := h.unlocked
    rw [hpc]
    by_cases hq : pc'.isUnlocked = true
    · by_cases ht : (s.pc t).isUnlocked = true
      · exact ⟨ts, hts.update (iff_of_true hq ht)⟩
      · exact ⟨t :: ts, hts.suspend ht hq (.refl _)⟩
    · exact ⟨ts.erase t, hts.wake hq⟩

/-- **Every step keeps the invariant.** -/
theorem inv_step (h : s.Inv) (hs : s.Step e s') : s'.Inv := by
  obtain ⟨hen, rfl⟩ := hs
  cases e with
  | lock t =>
    refine ⟨h.sound, h.taking, ?_, h.unlocked⟩
    intro u hu
    obtain rfl : t = u := Option.some.inj hu
    exact hen.1
  | unlock t => exact ⟨h.sound, h.taking, fun u hu => absurd hu nofun, h.unlocked⟩
  | wait t time =>
    have hidle : s.pc t = .idle := hen
    show (s.wait t time).Inv
    unfold wait
    split
    · apply h.of_frame (t := t)
      · exact rfl
      · exact h.sound
      · exact fun _ _ => rfl
      · refine (h.taking t).trans (iff_of_true ?_ nofun)
        rw [hidle]
        exact nofun
      · exact fun u hu => absurd hu nofun
    · exact h
  | take t =>
    obtain ⟨time, hpc⟩ := CondPc.exists_time hen
    have hidle : (s.sem.thread t).pc = .idle := (h.taking t).mpr (by rw [hpc]; exact nofun)
    show (s.take t).Inv
    unfold take
    rw [hpc]
    apply h.of_frame (t := t)
    · exact rfl
    · exact h.sound.take hidle _ _
    · exact fun u hu => SemSys.take_of_ne hu _ _
    · dsimp only
      split
      next hret => exact iff_of_true hret nofun
      next hret => exact iff_of_false hret fun hne => hne rfl
    · intro u hu
      have howner := h.owner u hu
      refine .inr ⟨?_, howner⟩
      rintro rfl
      exact absurd (hpc.symm.trans howner) nofun
  | «continue» t =>
    obtain ⟨hpc, hwoken⟩ := hen
    apply h.of_frame (t := t)
    · exact rfl
    · exact h.sound.continue hwoken
    · intro u hu
      show (s.sem.takeWoken t).thread u = _
      unfold SemSys.takeWoken
      split <;> exact SemSys.ret_of_ne hu _
    · refine iff_of_true ?_ nofun
      show ((s.sem.takeWoken t).thread t).pc = .idle
      unfold SemSys.takeWoken
      split <;> rw [SemSys.ret_self]
    · intro u hu
      have howner := h.owner u hu
      refine .inr ⟨?_, howner⟩
      rintro rfl
      exact absurd (hpc.symm.trans howner) nofun
  | timeout t =>
    obtain ⟨hpc, htimer⟩ := hen
    apply h.of_frame (t := t)
    · exact (Function.update_eq_self ..).symm
    · exact h.sound.timeout htimer
    · exact fun u hu => Function.update_of_ne hu ..
    · refine iff_of_false ?_ fun hne => hne hpc
      show ¬ (Function.update s.sem.thread t _ t).pc = .idle
      rw [Function.update_self]
      exact nofun
    · intro u hu
      have howner := h.owner u hu
      refine .inr ⟨?_, howner⟩
      rintro rfl
      exact absurd (hpc.symm.trans howner) nofun
  | relock t =>
    apply h.of_frame (t := t)
    · exact rfl
    · exact h.sound
    · exact fun _ _ => rfl
    · refine iff_of_true ((h.taking t).mpr ?_) nofun
      rw [hen.1]
      exact nofun
    · exact fun u hu => .inl ⟨(Option.some.inj hu).symm, rfl⟩
  | signal t =>
    exact ⟨h.sound.release, fun u => (SemSys.release_idle_iff h.sound u).trans (h.taking u), h.owner, h.unlocked⟩
  | broadcast t =>
    have hpc : s.pc t = .idle := hen
    have hidle : (s.sem.thread t).pc = .idle := (h.taking t).mpr (by rw [hpc]; exact nofun)
    obtain ⟨hsound, -, hpcs, -⟩ := SemSys.broadcast_spec h.sound hidle
    exact ⟨hsound, fun u => (hpcs u).trans (h.taking u), h.owner, h.unlocked⟩

/-! ## Whom a token reaches -/

/-- The thread is past the place where it could be suspended without a time limit, in the wait of this round or after
it. -/
def Loose (s : CondSys T) (t : T) (round : Nat) : Prop :=
  round < s.round t ∨ s.round t = round ∧ (s.pc t).isLoose (s.sem.thread t)

/-- The thread has been handed a token in the wait of this round, or that wait is over. -/
def Granted (s : CondSys T) (t : T) (round : Nat) : Prop :=
  round < s.round t ∨ s.round t = round ∧ (s.pc t).isGranted (s.sem.thread t)

omit [DecidableEq T] in
theorem Loose.not_stuck {round : Nat} (hinv : s.Inv) (h : s.Loose t round) : ¬ s.Stuck t round := by
  rintro ⟨hround, time, htime, hneg⟩
  rcases h with hlt | ⟨-, hpos⟩
  · omega
  · have htaking : s.pc t = .taking := by
      by_contra hne
      exact absurd (htime.symm.trans ((hinv.taking t).mpr hne)) nofun
    rw [htaking] at hpos
    have hle : 0 ≤ time := hpos time htime
    omega

omit [DecidableEq T] in
theorem Granted.not_denied {round : Nat} (h : s.Granted t round) : ¬ s.Denied t round := by
  rintro ⟨hround, hdenied⟩
  rcases h with hlt | ⟨-, hgranted⟩
  · omega
  · cases hpc : s.pc t with
    | unlocked time =>
      rw [hpc] at hgranted
      exact hgranted
    | taking =>
      rw [hpc] at hgranted hdenied
      exact hdenied hgranted
    | relocking | idle =>
      rw [hpc] at hgranted hdenied
      exact hdenied hgranted

theorem round_le (hs : s.Step e s') (t : T) : s.round t ≤ s'.round t := by
  obtain ⟨hen, rfl⟩ := hs
  cases e with
  | wait u time =>
    show s.round t ≤ (s.wait u time).round t
    unfold wait
    split
    · show s.round t ≤ Function.update s.round u (s.round u + 1) t
      by_cases hu : t = u
      · subst hu
        rw [Function.update_self]
        omega
      · rw [Function.update_of_ne hu]
    · exact Nat.le_refl _
  | take u =>
    obtain ⟨time, hpc⟩ := CondPc.exists_time hen
    show s.round t ≤ (s.take u).round t
    unfold take
    rw [hpc]
    exact Nat.le_refl _
  | lock | unlock | «continue» | timeout | relock | signal | broadcast => exact Nat.le_refl _

/-- What the threads do among themselves does not hold up a thread that is past the place. -/
theorem loose_step {round : Nat} (h : s.Loose t round) (hs : s.Step e s') (he : Silent e) : s'.Loose t round := by
  rcases h with hlt | ⟨hround, hpos⟩
  · exact .inl (Nat.lt_of_lt_of_le hlt (round_le hs t))
  · by_cases ht : t = e.thread
    · obtain ⟨hen, rfl⟩ := hs
      cases e with
      | lock u | unlock u => exact .inr ⟨hround, hpos⟩
      | wait u time =>
        obtain rfl : t = u := ht
        show (s.wait t time).Loose t round
        unfold wait
        split
        · refine .inl ?_
          show round < Function.update s.round t (s.round t + 1) t
          rw [Function.update_self]
          omega
        · exact .inr ⟨hround, hpos⟩
      | take u =>
        obtain rfl : t = u := ht
        obtain ⟨time, hpc⟩ := CondPc.exists_time hen
        rw [hpc] at hpos
        show (s.take t).Loose t round
        refine .inr ⟨?_, ?_⟩
        · unfold take
          rw [hpc]
          exact hround
        · unfold take
          rw [hpc]
          dsimp only
          rw [setPc_self]
          by_cases hret : ((s.sem.rtSemTake t time fun _ => 0).thread t).pc = .idle
          · rw [if_pos hret]
            trivial
          · rw [if_neg hret]
            intro time' htime'
            rcases Nat.eq_zero_or_pos s.sem.value with hv | hv
            · by_cases hzero : time = 0
              · subst hzero
                rw [SemSys.take_now hv, SemSys.ret_self] at htime'
                exact absurd htime' nofun
              · rw [SemSys.take_wait hv hzero] at htime'
                have hwait : SemPc.waiting time = .waiting time' :=
                  (congrArg SemThread.pc (Function.update_self t _ s.sem.thread)).symm.trans htime'
                exact SemPc.waiting.inj hwait ▸ hpos
            · rw [SemSys.take_pos hv, SemSys.ret_self] at htime'
              exact absurd htime' nofun
      | «continue» u =>
        obtain rfl : t = u := ht
        refine .inr ⟨hround, ?_⟩
        show ((s.setPc t .relocking).pc t).isLoose _
        rw [setPc_self]
        trivial
      | timeout u =>
        obtain rfl : t = u := ht
        refine .inr ⟨hround, ?_⟩
        show (s.pc t).isLoose _
        rw [hen.1]
        intro time' htime'
        have hwoken : SemPc.woken = .waiting time' :=
          (congrArg SemThread.pc (Function.update_self t _ s.sem.thread)).symm.trans htime'
        exact absurd hwoken nofun
      | relock u =>
        obtain rfl : t = u := ht
        refine .inr ⟨hround, ?_⟩
        show ((s.setPc t .idle).pc t).isLoose _
        rw [setPc_self]
        trivial
      | signal | broadcast => exact he.elim
    · obtain ⟨hpc, hthread, hrounds⟩ := silent_frame hs he ht
      refine .inr ⟨hrounds.trans hround, ?_⟩
      rw [hpc, hthread]
      exact hpos

/-- A thread that has been handed a token keeps it. -/
theorem granted_step {round : Nat} (h : s.Granted t round) (hs : s.Step e s') (he : Silent e) : s'.Granted t round := by
  rcases h with hlt | ⟨hround, hgranted⟩
  · exact .inl (Nat.lt_of_lt_of_le hlt (round_le hs t))
  · by_cases ht : t = e.thread
    · obtain ⟨hen, rfl⟩ := hs
      cases e with
      | lock u | unlock u => exact .inr ⟨hround, hgranted⟩
      | wait u time =>
        obtain rfl : t = u := ht
        show (s.wait t time).Granted t round
        unfold wait
        split
        · refine .inl ?_
          show round < Function.update s.round t (s.round t + 1) t
          rw [Function.update_self]
          omega
        · exact .inr ⟨hround, hgranted⟩
      | take u =>
        obtain rfl : t = u := ht
        obtain ⟨time, hpc⟩ := CondPc.exists_time hen
        rw [hpc] at hgranted
        exact hgranted.elim
      | «continue» u =>
        obtain rfl : t = u := ht
        refine .inr ⟨hround, ?_⟩
        show ((s.setPc t .relocking).pc t).isGranted ((s.sem.takeWoken t).thread t)
        rw [hen.1] at hgranted
        have herr : (s.sem.thread t).error = .eok := hgranted.2
        rw [setPc_self]
        unfold SemSys.takeWoken
        rw [if_neg (not_not.mpr herr), SemSys.ret_self]
        rfl
      | timeout u =>
        obtain rfl : t = u := ht
        rw [hen.1] at hgranted
        have htimer : (s.sem.thread t).timeLimit.any (0 < ·) = true := hen.2
        rw [SemThread.timeLimit, hgranted.1] at htimer
        exact absurd htimer Bool.false_ne_true
      | relock u =>
        obtain rfl : t = u := ht
        refine .inr ⟨hround, ?_⟩
        show ((s.setPc t .idle).pc t).isGranted (s.sem.thread t)
        rw [hen.1] at hgranted
        rw [setPc_self]
        exact hgranted
      | signal | broadcast => exact he.elim
    · obtain ⟨hpc, hthread, hrounds⟩ := silent_frame hs he ht
      refine .inr ⟨hrounds.trans hround, ?_⟩
      rw [hpc, hthread]
      exact hgranted

/-- What a run without signals and broadcasts keeps. -/
theorem Inv.silent_run {ls : List (CondEvent T)} (h : s.Inv) (t : T) (round : Nat) (hls : ∀ e ∈ ls, Silent e)
    (hrun : Run Step s ls s') :
    s'.Inv ∧ (s.Loose t round → s'.Loose t round) ∧ (s.Granted t round → s'.Granted t round) := by
  have hstable : (s'.Inv ∧ (s.Loose t round → s'.Loose t round) ∧ (s.Granted t round → s'.Granted t round)) ∧
      ∀ e ∈ ls, True := by
    apply hrun.stable (I := fun s' => s'.Inv ∧ (s.Loose t round → s'.Loose t round) ∧
      (s.Granted t round → s'.Granted t round)) ⟨h, id, id⟩ hls
    intro s₁ e s₂ ⟨hinv, hloose, hgranted⟩ he hs
    exact ⟨⟨inv_step hinv hs, fun hl => loose_step (hloose hl) hs he, fun hg => granted_step (hgranted hg) hs he⟩,
      trivial⟩
  exact hstable.1

/-! ## Who can take the tokens -/

/-- The tokens are gone, or fewer, and the threads but for `b` are where they were; `b` owns the mutex, in no wait. -/
structure Robbed (s : CondSys T) (b : T) (s' : CondSys T) : Prop where
  owner : s'.owner = some b
  idle : s'.pc b = .idle
  frame : ∀ u, u ≠ b → s'.pc u = s.pc u ∧ s'.sem.thread u = s.sem.thread u ∧ s'.round u = s.round u
  suspendThread : s'.sem.suspendThread = s.sem.suspendThread

omit [DecidableEq T] in
theorem Robbed.trans {b : T} {s₁ s₂ s₃ : CondSys T} (h : s₁.Robbed b s₂) (h' : s₂.Robbed b s₃) : s₁.Robbed b s₃ where
  owner := h'.owner
  idle := h'.idle
  frame u hu := by
    obtain ⟨hpc, hthread, hround⟩ := h.frame u hu
    obtain ⟨hpc', hthread', hround'⟩ := h'.frame u hu
    exact ⟨hpc'.trans hpc, hthread'.trans hthread, hround'.trans hround⟩
  suspendThread := h'.suspendThread.trans h.suspendThread

/-- A thread in no wait gets the mutex: whoever owns it can unlock it. -/
theorem Inv.exists_lock (h : s.Inv) {b : T} (hb : s.pc b = .idle) :
    ∃ ls s', (∀ e ∈ ls, Silent e) ∧ Run Step s ls s' ∧ s.Robbed b s' := by
  have hlock : ∀ s₁ : CondSys T, s₁.pc b = .idle → s₁.owner = none →
      s₁.Step (.lock b) { s₁ with owner := some b } := fun s₁ hidle hfree => ⟨⟨hidle, hfree⟩, rfl⟩
  cases howner : s.owner with
  | none =>
    exact ⟨[.lock b], { s with owner := some b }, by simp [Silent], .single (hlock s hb howner), rfl, hb, fun _ _ => ⟨rfl, rfl, rfl⟩, rfl⟩
  | some o =>
    have hunlock : s.Step (.unlock o) { s with owner := none } := ⟨⟨h.owner o howner, howner⟩, rfl⟩
    exact ⟨[.unlock o] ++ [.lock b], { s with owner := some b }, by simp [Silent],
      (Run.single hunlock).append (.single (hlock { s with owner := none } hb rfl)), rfl, hb,
      fun _ _ => ⟨rfl, rfl, rfl⟩, rfl⟩

/-- The owner of the mutex waits, and takes a token at once. -/
theorem exists_rob_one {b : T} (hb : s.pc b = .idle) (howner : s.owner = some b)
    (hv : 0 < s.sem.value) : ∃ ls s', (∀ e ∈ ls, Silent e) ∧ Run Step s ls s' ∧ s.Robbed b s' ∧
      s'.sem.value = s.sem.value - 1 := by
  have hwait : s.wait b (-1) = { s.setPc b (.unlocked (-1)) with
      owner := none, round := Function.update s.round b (s.round b + 1) } := if_pos howner
  have hstep₁ : s.Step (.wait b (-1)) (s.wait b (-1)) := ⟨hb, rfl⟩
  have hpc₁ : (s.wait b (-1)).pc b = .unlocked (-1) := by
    rw [hwait]
    exact setPc_self _
  have hstep₂ : (s.wait b (-1)).Step (.take b) ((s.wait b (-1)).take b) := step_take hpc₁
  have hsem : ((s.wait b (-1)).take b).sem = { s.sem with value := s.sem.value - 1 }.ret b .eok := by
    unfold take
    rw [hpc₁, hwait]
    exact SemSys.take_pos hv _ _
  have hpc₂ : ((s.wait b (-1)).take b).pc b = .relocking := by
    have hret : (((s.wait b (-1)).take b).sem.thread b).pc = .idle := by rw [hsem, SemSys.ret_self]
    unfold take at hret ⊢
    rw [hpc₁] at hret ⊢
    dsimp only at hret ⊢
    rw [if_pos hret]
    exact setPc_self _
  have hfree : ((s.wait b (-1)).take b).owner = none := by
    unfold take
    rw [hpc₁, hwait]
    rfl
  have hstep₃ : ((s.wait b (-1)).take b).Step (.relock b)
      (((s.wait b (-1)).take b).exec (.relock b)) := ⟨⟨hpc₂, hfree⟩, rfl⟩
  refine ⟨[.wait b (-1)] ++ [.take b] ++ [.relock b], ((s.wait b (-1)).take b).exec (.relock b), by simp [Silent],
    ((Run.single hstep₁).append (.single hstep₂)).append (.single hstep₃), ⟨rfl, setPc_self _, ?_, ?_⟩, ?_⟩
  · intro u hu
    obtain ⟨hp₁, ht₁, hr₁⟩ := silent_frame hstep₁ trivial hu
    obtain ⟨hp₂, ht₂, hr₂⟩ := silent_frame hstep₂ trivial hu
    obtain ⟨hp₃, ht₃, hr₃⟩ := silent_frame hstep₃ trivial hu
    exact ⟨hp₃.trans (hp₂.trans hp₁), ht₃.trans (ht₂.trans ht₁), hr₃.trans (hr₂.trans hr₁)⟩
  · show ((s.wait b (-1)).take b).sem.suspendThread = _
    rw [hsem]
    rfl
  · show ((s.wait b (-1)).take b).sem.value = _
    rw [hsem]
    rfl

/-- **A thread in no wait can take all the tokens**, one wait after the other. -/
theorem Inv.exists_rob (h : s.Inv) {b : T} (hb : s.pc b = .idle) :
    ∃ ls s', (∀ e ∈ ls, Silent e) ∧ Run Step s ls s' ∧ s.Robbed b s' ∧ s'.sem.value = 0 := by
  obtain ⟨ls, s', hls, hrun, hrob⟩ := h.exists_lock hb
  have hinv' : s'.Inv := hrun.invariant h fun _ _ _ hi hs => inv_step hi hs
  have hall : ∀ n (s₁ : CondSys T), s₁.Inv → s₁.pc b = .idle → s₁.owner = some b → s₁.sem.value = n →
      ∃ ls s₂, (∀ e ∈ ls, Silent e) ∧ Run Step s₁ ls s₂ ∧ s₁.Robbed b s₂ ∧ s₂.sem.value = 0 := by
    intro n
    induction n with
    | zero =>
      intro s₁ _ hb₁ howner hv
      exact ⟨[], s₁, by simp, .nil, ⟨howner, hb₁, fun _ _ => ⟨rfl, rfl, rfl⟩, rfl⟩, hv⟩
    | succ n ih =>
      intro s₁ hinv₁ hb₁ howner hv
      obtain ⟨ls₁, s₂, hls₁, hrun₁, hrob₁, hv₁⟩ := exists_rob_one hb₁ howner (by omega)
      have hinv₂ : s₂.Inv := hrun₁.invariant hinv₁ fun _ _ _ hi hs => inv_step hi hs
      obtain ⟨ls₂, s₃, hls₂, hrun₂, hrob₂, hv₂⟩ := ih s₂ hinv₂ hrob₁.idle hrob₁.owner (by omega)
      refine ⟨ls₁ ++ ls₂, s₃, ?_, hrun₁.append hrun₂, hrob₁.trans hrob₂, hv₂⟩
      intro e he
      exact (List.mem_append.mp he).elim (hls₁ e) (hls₂ e)
  obtain ⟨ls₁, s₂, hls₁, hrun₁, hrob₁, hv⟩ := hall _ s' hinv' hrob.idle hrob.owner rfl
  refine ⟨ls ++ ls₁, s₂, ?_, hrun.append hrun₁, hrob.trans hrob₁, hv⟩
  intro e he
  exact (List.mem_append.mp he).elim (hls e) (hls₁ e)

/-- A thread comes to a semaphore without tokens: it is denied one, and is stuck if it has no time limit. -/
theorem take_empty {time : Int} (hpc : s.pc t = .unlocked time) (hv : s.sem.value = 0) :
    (s.take t).sem.value = 0 ∧ (s.take t).Denied t (s.round t) ∧ (time < 0 → (s.take t).Stuck t (s.round t)) := by
  unfold take
  rw [hpc]
  dsimp only
  by_cases htime : time = 0
  · subst htime
    have hsem : s.sem.rtSemTake t 0 (fun _ => 0) = s.sem.ret t .etimeout := SemSys.take_now hv _
    rw [hsem, if_pos (by rw [SemSys.ret_self])]
    refine ⟨hv, ⟨rfl, ?_⟩, fun hneg => absurd hneg (Int.lt_irrefl 0)⟩
    show ((s.setPc t .relocking).pc t).isDenied ((s.sem.ret t .etimeout).thread t)
    rw [setPc_self, SemSys.ret_self]
    exact nofun
  · have hthread : (s.sem.rtSemTake t time fun _ => 0).thread t =
        { s.sem.thread t with pc := .waiting time, error := .eok } := by
      rw [SemSys.take_wait hv htime]
      exact Function.update_self ..
    have hvalue : (s.sem.rtSemTake t time fun _ => 0).value = s.sem.value := by
      rw [SemSys.take_wait hv htime]
      rfl
    rw [if_neg (by rw [hthread]; exact nofun)]
    refine ⟨hvalue.trans hv, ⟨rfl, ?_⟩, fun hneg => ⟨rfl, time, ?_, hneg⟩⟩
    · show ((s.setPc t .taking).pc t).isDenied ((s.sem.rtSemTake t time fun _ => 0).thread t)
      rw [setPc_self, hthread]
      exact fun hh => absurd hh.1 nofun
    · show ((s.sem.rtSemTake t time fun _ => 0).thread t).pc = .waiting time
      rw [hthread]

/-- **Without tokens, all threads on their way to the semaphore are denied one**, one after the other. -/
theorem exists_starve {ts : List T} (hts : ts.Nodup) (hpcs : ∀ t ∈ ts, (s.pc t).isUnlocked = true)
    (hv : s.sem.value = 0) : ∃ ls s', (∀ e ∈ ls, Silent e) ∧ Run Step s ls s' ∧
      (∀ t ∈ ts, s'.Denied t (s.round t)) ∧
      ∀ t, t ∉ ts → s'.pc t = s.pc t ∧ s'.sem.thread t = s.sem.thread t ∧ s'.round t = s.round t := by
  induction ts generalizing s with
  | nil => exact ⟨[], s, by simp, .nil, by simp, fun _ _ => ⟨rfl, rfl, rfl⟩⟩
  | cons t ts ih =>
    obtain ⟨hnot, hnodup⟩ := List.nodup_cons.mp hts
    have hun := hpcs t List.mem_cons_self
    cases hpc : s.pc t with
    | taking | relocking | idle =>
      rw [hpc] at hun
      exact absurd hun Bool.false_ne_true
    | unlocked time =>
      have hstep : s.Step (.take t) (s.take t) := step_take hpc
      obtain ⟨hv', hdenied, -⟩ := take_empty hpc hv
      have hframe : ∀ u, u ≠ t → (s.take t).pc u = s.pc u ∧ (s.take t).sem.thread u = s.sem.thread u ∧
          (s.take t).round u = s.round u := fun u hu => silent_frame hstep trivial hu
      obtain ⟨ls, s', hls, hrun, hall, hrest⟩ := ih hnodup (fun u hu => by
        rw [(hframe u fun hut => hnot (hut ▸ hu)).1]
        exact hpcs u (List.mem_cons_of_mem t hu)) hv'
      refine ⟨[.take t] ++ ls, s', ?_, (Run.single hstep).append hrun, ?_, ?_⟩
      · intro e he
        rcases List.mem_append.mp he with he | he
        · rw [List.mem_singleton.mp he]
          trivial
        · exact hls e he
      · intro u hu
        rcases List.mem_cons.mp hu with rfl | hu
        · obtain ⟨hp, ht, hr⟩ := hrest u hnot
          unfold Denied
          rw [hp, ht, hr]
          exact hdenied
        · rw [← (hframe u fun hut => hnot (hut ▸ hu)).2.2]
          exact hall u hu
      · intro u hu
        obtain ⟨hut, hu⟩ := not_or.mp fun hmem => hu (List.mem_cons.mpr hmem)
        obtain ⟨hp, ht, hr⟩ := hrest u hu
        obtain ⟨hp', ht', hr'⟩ := hframe u hut
        exact ⟨hp.trans hp', ht.trans ht', hr.trans hr'⟩

/-! ## The promises -/

/-- After a broadcast nobody is suspended, so a thread that could be stuck is on its way to the semaphore. -/
theorem Inv.broadcast_kept_iff (h : s.Inv) (hs : s.Step (.broadcast t) s') :
    s.Kept (.broadcast t) s' ↔ s.StepOk (.broadcast t) := by
  have hinv' := inv_step h hs
  obtain ⟨hidle, rfl⟩ := hs
  have hidle' : s.pc t = .idle := hidle
  have hsem : (s.sem.thread t).pc = .idle := (h.taking t).mpr (by rw [hidle']; exact nofun)
  obtain ⟨hsound, hnil, -⟩ := SemSys.broadcast_spec h.sound hsem
  constructor
  · intro hkept u
    by_contra hforever
    cases hpc : s.pc u with
    | taking | relocking | idle =>
      rw [hpc] at hforever
      exact hforever rfl
    | unlocked time =>
      have hneg : time < 0 := by
        rw [hpc] at hforever
        simpa [CondPc.isUnlockedForever] using hforever
      have hut : u ≠ t := by
        rintro rfl
        exact absurd (hpc.symm.trans hidle') nofun
      obtain ⟨ls, s₁, hls, hrun, hrob, hv⟩ := hinv'.exists_rob (b := t) hidle'
      obtain ⟨hp, -, hr⟩ := hrob.frame u hut
      have hpc₁ : s₁.pc u = .unlocked time := hp.trans hpc
      obtain ⟨-, -, hstuck⟩ := take_empty hpc₁ hv
      have hrun' := hrun.append (.single (step_take hpc₁))
      refine hkept (ls ++ [.take u]) _ ?_ hrun' u (by rw [hpc]; rfl) ?_
      · intro e he
        rcases List.mem_append.mp he with he | he
        · exact hls e he
        · rw [List.mem_singleton.mp he]
          trivial
      · exact hr ▸ hstuck hneg
  · intro hok ls s'' hls hrun u hwait
    obtain ⟨hinv'', hloose, -⟩ := hinv'.silent_run u (s.round u) hls hrun
    refine (hloose (.inr ⟨rfl, ?_⟩)).not_stuck hinv''
    show (s.pc u).isLoose ((s.sem.pthreadCondBroadcast t).thread u)
    cases hpc : s.pc u with
    | unlocked time =>
      have hnot := hok u
      rw [hpc] at hnot
      exact Int.not_lt.mp (of_decide_eq_false hnot)
    | taking =>
      intro time htime
      have hmem : u ∈ (s.sem.pthreadCondBroadcast t).suspendThread := (hsound.mem_iff u).mpr (by
        rw [SemThread.isWaiting, htime]
        trivial)
      rw [hnil] at hmem
      exact absurd hmem List.not_mem_nil
    | relocking | idle => trivial

/-- A signal reaches the thread that is first on the list, and nobody else for certain. -/
theorem Inv.signal_kept_iff (h : s.Inv) (hs : s.Step (.signal t) s') :
    s.Kept (.signal t) s' ↔ s.StepOk (.signal t) := by
  have hinv' := inv_step h hs
  obtain ⟨hidle, rfl⟩ := hs
  have hidle' : s.pc t = .idle := hidle
  constructor
  · intro hkept hun
    by_contra hnobody
    obtain ⟨ts, hts⟩ := h.unlocked
    obtain ⟨ls, s₁, hls, hrun, hrob, hv⟩ := hinv'.exists_rob (b := t) hidle'
    have hframe : ∀ u ∈ ts, s₁.pc u = s.pc u ∧ s₁.round u = s.round u := by
      intro u hu
      have hut : u ≠ t := by
        rintro rfl
        have hunl := (hts.mem_iff u).mp hu
        rw [hidle'] at hunl
        exact absurd hunl Bool.false_ne_true
      obtain ⟨hp, -, hr⟩ := hrob.frame u hut
      exact ⟨hp, hr⟩
    obtain ⟨ls', s₂, hls', hrun', hdenied, -⟩ := exists_starve hts.nodup (fun u hu => by
      rw [(hframe u hu).1]
      exact (hts.mem_iff u).mp hu) hv
    have hsilent : ∀ e ∈ ls ++ ls', Silent e := fun e he => (List.mem_append.mp he).elim (hls e) (hls' e)
    obtain ⟨u, hawaits, hnot⟩ := hkept _ s₂ hsilent (hrun.append hrun') (hun.imp fun _ => .inl)
    rcases hawaits with hunl | hwaiting
    · have hu := (hts.mem_iff u).mpr hunl
      exact hnot ((hframe u hu).2 ▸ hdenied u hu)
    · exact hnobody ⟨u, hwaiting⟩
  · intro hok ls s'' hls hrun ⟨u, hu⟩
    have hwaiting : ∃ v, (s.sem.thread v).isWaiting := hu.elim (fun hun => hok ⟨u, hun⟩) fun hw => ⟨u, hw⟩
    obtain ⟨v, hv⟩ := hwaiting
    have hmem := (h.sound.mem_iff v).mpr hv
    cases hts : s.sem.suspendThread with
    | nil =>
      rw [hts] at hmem
      exact absurd hmem List.not_mem_nil
    | cons w ws =>
      have hw : (s.sem.thread w).isWaiting := (h.sound.mem_iff w).mp (by rw [hts]; exact List.mem_cons_self)
      refine ⟨w, .inr hw, ?_⟩
      obtain ⟨-, -, hgranted⟩ := hinv'.silent_run w (s.round w) hls hrun
      refine (hgranted (.inr ⟨rfl, ?_⟩)).not_denied
      have htaking : s.pc w = .taking := by
        by_contra hne
        have hwidle := (h.taking w).mpr hne
        rw [SemThread.isWaiting, hwidle] at hw
        exact hw
      show (s.pc w).isGranted (s.sem.rtSemRelease.thread w)
      obtain ⟨handed, hsem⟩ := h.sound.ok
      rw [htaking, SemSys.release_thread, hts, List.head?_cons, if_pos rfl]
      exact ⟨rfl, hsem.noError w hw⟩

/-- **Whom signals and broadcasts reach.** In every state of every run: after a broadcast nobody who was in a wait needs
another signal, if and only if nobody without a time limit was on the way to the semaphore; and a signal is certain to
release one of those who waited for it, if and only if none of them was on the way to the semaphore or one was
suspended. -/
theorem cond_kept {ls : List (CondEvent T)} (hrun : Run Step init ls s) (hs : s.Step e s') :
    s.Kept e s' ↔ s.StepOk e := by
  have hinv : s.Inv := hrun.invariant inv_init fun _ _ _ h hs => inv_step h hs
  cases e with
  | broadcast t => exact hinv.broadcast_kept_iff hs
  | signal t => exact hinv.signal_kept_iff hs
  | lock | unlock | wait | take | «continue» | timeout | relock => exact iff_of_true trivial trivial

/-- A thread waits and is suspended, and another one signals. -/
theorem cond_kept_run : ∃ s s' : CondSys Nat, (s.sem.thread 0).pc = .waiting (-1) ∧ s.Step (.signal 1) s' ∧
    (s.Kept (.signal 1) s' ↔ s.StepOk (.signal 1)) := by
  have hexec : ((([.lock 0, .wait 0 (-1), .take 0] : List (CondEvent Nat)).foldlM
      (Run.tryStep Enabled exec) init).map fun s => ((s.sem.thread 0).pc, s.pc 1)) = some (.waiting (-1), .idle) := by
    decide +kernel
  obtain ⟨s, hs, hobs⟩ := Option.map_eq_some_iff.mp hexec
  have hstep : s.Step (.signal 1) (s.exec (.signal 1)) := ⟨congrArg Prod.snd hobs, rfl⟩
  exact ⟨s, _, congrArg Prod.fst hobs, hstep, cond_kept (Run.of_foldlM_tryStep hs) hstep⟩

/-- **A thread that a broadcast does not reach.** Two threads have unlocked the mutex in their waits when a third one
broadcasts. The first one to come to the semaphore takes the token; the other one is suspended without a time limit. -/
theorem cond_not_kept : ¬ ∀ (ls : List (CondEvent Nat)) (s s' : CondSys Nat) (e : CondEvent Nat),
    Run Step init ls s → s.Step e s' → s.Kept e s' := by
  intro hall
  have hexec : ((([.lock 0, .wait 0 (-1), .lock 1, .wait 1 (-1)] : List (CondEvent Nat)).foldlM
      (Run.tryStep Enabled exec) init).bind fun s =>
        (([.take 0, .take 1] : List (CondEvent Nat)).foldlM (Run.tryStep Enabled exec) (s.exec (.broadcast 2))).map
          fun s'' => (s.pc 2, (s.pc 1).isInWait, s.round 1, s''.round 1, (s''.sem.thread 1).pc)) =
            some (.idle, true, 1, 1, .waiting (-1)) := by decide +kernel
  obtain ⟨s, hs, hrest⟩ := Option.bind_eq_some_iff.mp hexec
  obtain ⟨s'', hs'', hobs⟩ := Option.map_eq_some_iff.mp hrest
  have hidle : s.pc 2 = .idle := congrArg Prod.fst hobs
  have hwait : (s.pc 1).isInWait = true := congrArg (fun o => o.2.1) hobs
  have hround : s.round 1 = 1 := congrArg (fun o => o.2.2.1) hobs
  have hround' : s''.round 1 = 1 := congrArg (fun o => o.2.2.2.1) hobs
  have hpc : (s''.sem.thread 1).pc = .waiting (-1) := congrArg (fun o => o.2.2.2.2) hobs
  have hkept : s.Kept (.broadcast 2) (s.exec (.broadcast 2)) :=
    hall _ s _ _ (Run.of_foldlM_tryStep hs) ⟨hidle, rfl⟩
  exact hkept _ s'' (by simp [Silent]) (Run.of_foldlM_tryStep hs'') 1 hwait
    ⟨hround'.trans hround.symm, -1, hpc, by decide⟩

end CondSys

end CoreLink.RtThread
