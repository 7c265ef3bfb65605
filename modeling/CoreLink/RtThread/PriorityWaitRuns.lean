/-
# `CoreLink.RtThread.PriorityWaitRuns` — when the suspend lists stay in priority order.

`StepEffect` says once what a call does to the suspend lists and to the keys they are sorted by: a thread that waits
gets the key of `newPriority`, if the call has one for it, and then threads leave, or one more is put in its place. So
a call keeps the order exactly when it is `Undisturbed`, and in a run of such calls the first of a list is a most urgent
one. A mutex owner that waits elsewhere, and is lent a priority there, is out of order (`prio_waiting_disturbed`).
-/
import CoreLink.RtThread.PriorityWait

namespace CoreLink.RtThread.PrioSys

open CoreLink.Lib

set_option linter.unusedSectionVars false

variable {T O : Type*} [DecidableEq T] [DecidableEq O]
variable {c : SchedCfg} {flag : O → IpcFlag} {isMutex : O → Bool} {s s' : PrioSys T O}
  {q q' : ListHead O → List T} {l : MutexSys.Call T O}

/-! ## The invariant -/

/-- The scheduler is in order, original priorities are priorities, flags are never written to, and who waits has come
before. -/
structure Waiting (c : SchedCfg) (flag : O → IpcFlag) (s : PrioSys T O) (q : ListHead O → List T) : Prop where
  sched : SchedInv c s.sched q ∅
  original : ∀ m o, (s.mutex m).owner = some o → (s.mutex m).originalPriority < c.prioMax
  flag : ∀ o, (s.mutex o).flag = flag o
  arrived : ∀ o t, t ∈ q (.suspendThread o) → s.arrived t < s.calls

theorem key_lt_iff {a b : T} :
    s.key a < s.key b ↔ s.prio a < s.prio b ∨ s.prio a = s.prio b ∧ s.arrived a < s.arrived b :=
  Prod.Lex.toLex_lt_toLex

/-- The key of a thread that waits, after the new priority of a call. -/
def newKey (s : PrioSys T O) (l : MutexSys.Call T O) (t : T) : Nat ×ₗ Nat :=
  match s.newPriority l with
  | some (x, prio) => if t = x then toLex (prio, s.arrived t) else s.key t
  | none => s.key t

/-- What a call does to the lists: where it gives no new priority, threads may leave; they stay as they are; or a thread
that is on none of them is put in its place on one. -/
inductive Moves (s : PrioSys T O) (q : ListHead O → List T) (s' : PrioSys T O) (q' : ListHead O → List T)
    (l : MutexSys.Call T O) : Prop
  | fewer (hnew : s.newPriority l = none)
      (hwait : ∀ o, (q' (.suspendThread o)).Sublist (q (.suspendThread o)))
  | same (hwait : ∀ o, q' (.suspendThread o) = q (.suspendThread o))
  | waits {t : T} {o : O} {as bs : List T} (hoff : ∀ o, t ∉ q (.suspendThread o))
      (hq : q (.suspendThread o) = as ++ bs) (hafter : ∀ a ∈ as ++ bs, s'.arrived a < s'.arrived t)
      (hplace : (s.mutex o).flag = .prio → (∀ a ∈ as, s'.prio a ≤ s'.prio t) ∧ ∀ b ∈ bs.head?, s'.prio t < s'.prio b)
      (hwait : ∀ o', q' (.suspendThread o') = if o' = o then as ++ t :: bs else q (.suspendThread o'))

/-- **The effect of a call** on the lists and the keys they are sorted by; who is taken off by a call that serves an
object was the first. -/
structure StepEffect (s : PrioSys T O) (q : ListHead O → List T) (s' : PrioSys T O) (q' : ListHead O → List T)
    (l : MutexSys.Call T O) : Prop where
  key : ∀ o x, x ∈ q (.suspendThread o) → s'.key x = s.newKey l x
  moves : Moves s q s' q' l
  served : ∀ o, serves o l → ∀ t ∈ q (.suspendThread o), t ∉ q' (.suspendThread o) → t ∈ (q (.suspendThread o)).head?

/-! ## A call keeps the order exactly when it is undisturbed -/

/-- The lists of the objects with `RT_IPC_FLAG_PRIO` are sorted. -/
def Sorted (flag : O → IpcFlag) (key : T → Nat ×ₗ Nat) (q : ListHead O → List T) : Prop :=
  ∀ o, flag o = .prio → SortedBy key (q (.suspendThread o))

theorem prioOrdered_iff (i : Waiting c flag s q) : PrioOrdered flag s ↔ Sorted flag s.key q := by
  refine forall_congr' fun o => imp_congr_right fun _ => ⟨?_, fun h => ⟨_, i.sched.rep.seg _, h⟩⟩
  rintro ⟨ts, hseg, hts⟩
  rwa [← hseg.unique (i.sched.rep.seg _)]

theorem waitsFor_iff (i : Waiting c flag s q) (o : O) (t : T) : s.WaitsFor o t ↔ t ∈ q (.suspendThread o) :=
  i.sched.rep.onList_iff

/-- The new priority of a call leaves the lists sorted exactly when it disturbs nobody. -/
theorem sorted_newKey_iff (i : Waiting c flag s q) (h : Sorted flag s.key q) :
    Sorted flag (s.newKey l) q ↔ s.Undisturbed l := by
  cases hnew : s.newPriority l with
  | none =>
    have hkey : s.newKey l = s.key := funext fun t => by simp only [newKey, hnew]
    rw [hkey]
    exact iff_of_true h fun t prio hp => by simp [hnew] at hp
  | some p =>
    obtain ⟨x, prio⟩ := p
    have hkey : ∀ t, s.newKey l t = if t = x then toLex (prio, s.arrived t) else s.key t := fun t => by
      simp only [newKey, hnew]
    have hiff : ∀ o, flag o = .prio →
        (SortedBy (s.newKey l) (q (.suspendThread o)) ↔ (s.WaitsFor o x → s.keepsPlace x prio)) := by
      intro o ho
      rw [waitsFor_iff i]
      by_cases hx : x ∈ q (.suspendThread o)
      · obtain ⟨as, bs, hq⟩ := List.append_of_mem hx
        have hnd := hq ▸ i.sched.rep.nodup (.suspendThread o)
        have hne : ∀ y ∈ as ++ bs, y ≠ x := by
          rintro y hy rfl
          have hsplit := List.nodup_middle.mp hnd
          exact (List.nodup_cons.mp hsplit).1 hy
        have hother : ∀ y ∈ as ++ bs, s.newKey l y = s.key y := fun y hy => by rw [hkey, if_neg (hne y hy)]
        have hsort := h o ho
        rw [hq] at hsort ⊢
        rw [hsort.rekey_iff (fun a ha => hother a (List.mem_append_left _ ha))
          (fun b hb => hother b (List.mem_append_right _ hb)), hkey, if_pos rfl]
        simp only [keepsPlace, i.sched.rep.prev_item_iff hq, i.sched.rep.next_item_iff hq]
        exact ⟨fun hk _ => hk, fun hk => hk (by simp)⟩
      · have hsame : SortedBy (s.newKey l) (q (.suspendThread o)) := by
          refine (SortedBy.congr fun y hy => ?_).mpr (h o ho)
          rw [hkey, if_neg]
          rintro rfl
          exact hx hy
        exact iff_of_true hsame fun hmem => absurd hmem hx
    constructor
    · intro hs t p htp o ho hw
      obtain ⟨rfl, rfl⟩ : x = t ∧ prio = p := by simpa [hnew] using htp
      rw [i.flag] at ho
      exact (hiff o ho).mp (hs o ho) hw
    · intro hu o ho
      exact (hiff o ho).mpr (hu x prio hnew o (by rw [i.flag]; exact ho))

/-- **The step lemma**: from lists in order a call leads to lists in order exactly when it is undisturbed. -/
theorem StepEffect.sorted_iff (i : Waiting c flag s q) (e : StepEffect s q s' q' l) (h : Sorted flag s.key q) :
    Sorted flag s'.key q' ↔ s.Undisturbed l := by
  have hkeys : Sorted flag s'.key q ↔ Sorted flag (s.newKey l) q :=
    forall_congr' fun o => imp_congr_right fun _ => SortedBy.congr (e.key o)
  rw [← sorted_newKey_iff i h, ← hkeys]
  cases e.moves with
  | fewer hnew hwait =>
    have hkey : s.newKey l = s.key := funext fun t => by simp only [newKey, hnew]
    rw [hkey] at hkeys
    have hs := hkeys.mpr h
    exact iff_of_true (fun o ho => (hs o ho).sublist (hwait o)) hs
  | same hwait => exact forall_congr' fun o => by rw [hwait]
  | @waits t o as bs hoff hq hafter hplace hwait =>
    refine forall_congr' fun o' => imp_congr_right fun ho' => ?_
    rw [hwait]
    split_ifs with ho
    · subst ho
      obtain ⟨hle, hlt⟩ := hplace ((i.flag o').trans ho')
      rw [hq]
      -- behind those of the same priority, which have come before
      have hfront : ∀ a ∈ as, s'.key a < s'.key t := fun a ha => key_lt_iff.mpr <|
        (lt_or_eq_of_le (hle a ha)).imp_right fun heq => ⟨heq, hafter a (List.mem_append_left _ ha)⟩
      exact SortedBy.insert_iff hfront fun b hb => key_lt_iff.mpr (.inl (hlt b hb))
    · rfl

/-! ## The effect of the calls -/

theorem after_key (sys : MutexSys T O) (w : Option T) (x : T) :
    (s.after sys w).key x = toLex (sys.prio x, if w = some x then s.calls else s.arrived x) := rfl

/-- Of a call that suspends nobody only the priorities matter. -/
theorem after_none_key {sys : MutexSys T O} {x : T} (h : sys.prio x = s.prio x) : (s.after sys none).key x = s.key x := by
  rw [after_key, h, if_neg (by simp)]
  rfl

theorem newKey_of_none (h : s.newPriority l = none) (x : T) : s.newKey l x = s.key x := by
  simp only [newKey, h]

/-- The invariant after a call: the ghost variables follow. -/
theorem Waiting.after (i : Waiting c flag s q) {sys : MutexSys T O} {w : Option T} (hsched : SchedInv c sys.sched q' ∅)
    (horig : ∀ m o, (sys.mutex m).owner = some o → (sys.mutex m).originalPriority < c.prioMax)
    (hflag : ∀ o, (sys.mutex o).flag = (s.mutex o).flag)
    (hq : ∀ o t, t ∈ q' (.suspendThread o) → w = some t ∨ t ∈ q (.suspendThread o)) :
    Waiting c flag (s.after sys w) q' := by
  refine ⟨hsched, horig, fun o => (hflag o).trans (i.flag o), fun o t ht => ?_⟩
  show (if w = some t then s.calls else s.arrived t) < s.calls + 1
  split_ifs with hw
  · omega
  · have hlt := i.arrived o t ((hq o t ht).resolve_left hw)
    omega

/-- A call that suspends nobody, changes no priority of a thread that waits, and takes off only the first of a list that
it serves. -/
theorem StepEffect.of_keeps {sys : MutexSys T O} (hnew : s.newPriority l = none)
    (hprio : ∀ o x, x ∈ q (.suspendThread o) → sys.prio x = s.prio x)
    (hwait : ∀ o, (q' (.suspendThread o)).Sublist (q (.suspendThread o)))
    (hserved : ∀ o, serves o l → ∀ t ∈ q (.suspendThread o), t ∉ q' (.suspendThread o) →
      t ∈ (q (.suspendThread o)).head?) : StepEffect s q (s.after sys none) q' l := by
  refine ⟨fun o x hx => ?_, .fewer hnew hwait, hserved⟩
  rw [newKey_of_none hnew, after_none_key (hprio o x hx)]

/-- Who is on a list after a thread was put on one. -/
theorem mem_of_waits {t : T} {o : O} {as bs : List T} (hq : q (.suspendThread o) = as ++ bs)
    (hwait : ∀ o', q' (.suspendThread o') = if o' = o then as ++ t :: bs else q (.suspendThread o')) (o' : O) (x : T)
    (hx : x ∈ q' (.suspendThread o')) : some t = some x ∨ x ∈ q (.suspendThread o') := by
  rw [hwait] at hx
  split_ifs at hx with ho
  · subst ho
    rw [hq]
    simp only [List.mem_append, List.mem_cons, Option.some.injEq] at hx ⊢
    tauto
  · exact .inr hx

/-- Whom `rt_ipc_list_suspend` puts on a list in its place was on none before, and has come last. -/
theorem StepEffect.of_waits {sys : MutexSys T O} {t : T} {o : O} {as bs : List T} (i : Waiting c flag s q)
    (hrun : (s.sched.thread t).stat = .running) (hq : q (.suspendThread o) = as ++ bs)
    (hprio : ∀ o x, x ∈ q (.suspendThread o) →
      toLex (sys.prio x, s.arrived x) = s.newKey l x)
    (hplace : (s.mutex o).flag = .prio → (∀ a ∈ as, sys.prio a ≤ sys.prio t) ∧ ∀ b ∈ bs.head?, sys.prio t < sys.prio b)
    (hserves : ∀ o, ¬ serves o l)
    (hwait : ∀ o', q' (.suspendThread o') = if o' = o then as ++ t :: bs else q (.suspendThread o')) :
    StepEffect s q (s.after sys (some t)) q' l := by
  have hoff := i.sched.off_list (t := t) (by simp [hrun]) (by simp [hrun]) (by simp [hrun])
  have harr : ∀ o x, x ∈ q (.suspendThread o) → (s.after sys (some t)).arrived x = s.arrived x := fun o x hx => by
    refine if_neg fun hxt => hoff (.suspendThread o) ?_
    rwa [Option.some.inj hxt]
  refine ⟨fun o x hx => ?_, .waits (fun o => hoff _) hq (fun a ha => ?_) hplace hwait, fun o ho => absurd ho (hserves o)⟩
  · rw [← hprio o x hx, PrioSys.key, harr o x hx]
    rfl
  · rw [harr o a (hq ▸ ha)]
    show s.arrived a < if some t = some t then s.calls else s.arrived t
    rw [if_pos rfl]
    exact i.arrived o a (hq ▸ ha)

/-- **A call of the scheduler.** -/
theorem sched_effect [Fintype T] (i : Waiting c flag s q) {l : SchedCall T O} {sched : Sched T O}
    (hok : s.callOk isMutex l) (hs : execCall c s.sched l = some sched) :
    ∃ q', Waiting c flag (s.after { s.toMutexSys with sched := sched } (s.suspended l)) q' ∧
      StepEffect s q (s.after { s.toMutexSys with sched := sched } (s.suspended l)) q' (.sched l) := by
  obtain ⟨q', hi, he⟩ := execCall_spec i.sched hs
  refine ⟨q', ?_⟩
  cases he with
  | keeps hl hprio _ hwait =>
    have hnone : s.suspended l = none ∧ s.newPriority (.sched l) = none ∧ ∀ o, ¬ serves o (.sched l) := by
      cases l <;> simp_all [SchedCall.keepsWaiting, suspended, newPriority, serves]
    obtain ⟨hsus, hnew, hserves⟩ := hnone
    rw [hsus]
    refine ⟨i.after hi i.original (fun _ => rfl) fun o t ht => .inr ((hwait o).subset ht),
      .of_keeps hnew (fun o x hx => hprio x ?_) hwait fun o ho => absurd ho (hserves o)⟩
    rw [i.sched.suspended x o hx]
    simp
  | @control t prio hprio hwait =>
    refine ⟨i.after hi i.original (fun _ => rfl) fun o t ht => .inr (hwait o ▸ ht), fun o x hx => ?_, .same hwait,
      fun o ho => absurd ho id⟩
    have hp : ({ s.toMutexSys with sched := sched } : MutexSys T O).prio x = if x = t then prio else s.prio x := hprio x
    rw [show s.suspended (.control t prio) = none from rfl, after_key, hp]
    by_cases hx : x = t <;> simp [newKey, newPriority, key, hx]
  | @ipcSuspend o fl t as bs hcur hstat hq hplace hprio hwait =>
    obtain ⟨-, rfl⟩ : isMutex o = false ∧ fl = (s.mutex o).flag := hok
    rw [show s.suspended (.ipcSuspend o (s.mutex o).flag) = some t from hcur]
    have hq' : ∀ o', q' (.suspendThread o') = if o' = o then as ++ t :: bs else q (.suspendThread o') := fun o' => by
      rw [hwait]
      split_ifs with ho
      · rw [ho, Function.update_self]
      · exact Function.update_of_ne (by simpa using ho) _ _
    refine ⟨i.after hi i.original (fun _ => rfl) (mem_of_waits hq hq'),
      .of_waits i hstat hq (fun o x _ => ?_) (fun hf => ?_) (fun o ho => ho) hq'⟩
    · rw [newKey_of_none rfl, key]
      exact congrArg (fun p => toLex (p, s.arrived x)) (hprio x)
    · simp only [Placed, hf] at hplace
      have hp : ∀ x, ({ s.toMutexSys with sched := sched } : MutexSys T O).prio x = s.prio x := hprio
      simp only [hp]
      exact hplace
  | @ipcResume o t rest hq hprio hwait =>
    refine ⟨i.after hi i.original (fun _ => rfl) fun o x hx => .inr ?_,
      .of_keeps rfl (fun o x _ => hprio x) (fun o => ?_) fun o' ho' x hx hx' => ?_⟩
    · rw [hwait] at hx
      exact List.mem_of_mem_erase hx
    · rw [hwait]
      exact List.erase_sublist
    · obtain rfl : o = o' := ho'
      rw [hwait] at hx'
      rw [hq, List.head?_cons, Option.mem_some_iff]
      by_contra hne
      exact hx' ((List.mem_erase_of_ne (Ne.symm hne)).mpr hx)

theorem setError_schedInv (sys : MutexSys T O) (i : SchedInv c sys.sched q ∅) (t : T) (e : RtErr) :
    SchedInv c (sys.setError t e).sched q ∅ := by
  have ha := i.attr t
  exact i.modifyThread_same (t := t) (f := fun th => { th with error := e }) rfl (fun _ => rfl)
    ⟨ha.initPriority, ha.currentPriority, ha.mask⟩

/-- A new record for a mutex, with an original priority that is a priority. -/
theorem setMutex_original {sys : MutexSys T O} {m : O} {mutex : Mutex T}
    (h : ∀ m o, (sys.mutex m).owner = some o → (sys.mutex m).originalPriority < c.prioMax)
    (hm : ∀ o, mutex.owner = some o → mutex.originalPriority < c.prioMax) (m' : O) (o : T)
    (ho : ((sys.setMutex m mutex).mutex m').owner = some o) :
    ((sys.setMutex m mutex).mutex m').originalPriority < c.prioMax := by
  simp only [MutexSys.setMutex, Function.update_apply] at ho ⊢
  split_ifs at ho ⊢
  · exact hm o ho
  · exact h m' o ho

/-- A new record for a mutex, with its flag. -/
theorem setMutex_flag {sys : MutexSys T O} {m : O} {mutex : Mutex T} {f : O → IpcFlag}
    (h : ∀ o, (sys.mutex o).flag = f o) (hm : mutex.flag = f m) (o : O) :
    ((sys.setMutex m mutex).mutex o).flag = f o := by
  simp only [MutexSys.setMutex, Function.update_apply]
  split_ifs with ho
  · rw [ho, hm]
  · exact h o

/-- Where `rt_mutex_take` does not suspend its caller `t`, it has no priority to lend. -/
theorem newPriority_take {t : T} (hrun : s.running = some t) {m : O} {time : Int}
    (h : (s.mutex m).owner = some t ∨ (s.mutex m).value > 0 ∨ time = 0) : s.newPriority (.take m time) = none := by
  simp only [newPriority, hrun]
  split
  next o _ ho heq =>
    obtain rfl : t = _ := Option.some.inj ho
    refine if_neg fun hlend => ?_
    rcases h with h | h | h
    · exact hlend.1 (Option.some.inj (heq.symm.trans h))
    · omega
    · exact hlend.2.2.1 h
  next => rfl

/-- Where it does suspend its caller, the owner has the key of the priority that is lent. -/
theorem newKey_take {t : T} (hrun : s.running = some t) {m : O} {time : Int} (hown : ¬ (s.mutex m).owner = some t)
    (hval : ¬ (s.mutex m).value > 0) (htime : ¬ time = 0) (x : T) :
    s.newKey (.take m time) x =
      toLex (if (s.mutex m).owner = some x ∧ s.prio t < s.prio x then s.prio t else s.prio x, s.arrived x) := by
  cases ho : (s.mutex m).owner with
  | none => simp [newKey, newPriority, hrun, ho, key]
  | some o =>
    have hot : o ≠ t := fun e => hown (ho.trans (congrArg some e))
    have hv : (s.mutex m).value = 0 := by omega
    by_cases hlt : s.prio t < s.prio o
    · have hnew : s.newPriority (.take m time) = some (o, s.prio t) := by
        simp [newPriority, hrun, ho, hot, hv, htime, hlt]
      by_cases hx : x = o
      · simp [newKey, hnew, hx, hlt]
      · simp [newKey, hnew, hx, Ne.symm hx, key]
    · have hnew : s.newPriority (.take m time) = none := by simp [newPriority, hrun, ho, hlt]
      rw [newKey_of_none hnew, if_neg]
      · rfl
      · rintro ⟨hox, h⟩
        exact hlt (Option.some.inj hox ▸ h)

/-- "change the owner thread priority of mutex": the owner, if there is one, gets the priority of `t`, if that is more
urgent. -/
def lend (c : SchedCfg) (sys : MutexSys T O) (owner : Option T) (t : T) : MutexSys T O :=
  match owner with
  | some owner => if sys.prio t < sys.prio owner then sys.control c owner (sys.prio t) else sys
  | none => sys

theorem lend_spec {sys : MutexSys T O} (i : SchedInv c sys.sched q ∅) (owner : Option T) (t : T) :
    ∃ sys' q', lend c sys owner t = sys' ∧ SchedInv c sys'.sched q' ∅ ∧ (∀ m, sys'.mutex m = sys.mutex m) ∧
      (∀ x, sys'.prio x = if owner = some x ∧ sys.prio t < sys.prio x then sys.prio t else sys.prio x) ∧
      (∀ x, (sys'.sched.thread x).stat = (sys.sched.thread x).stat) ∧
      ∀ o, q' (.suspendThread o) = q (.suspendThread o) := by
  cases owner with
  | none => exact ⟨sys, q, rfl, i, fun _ => rfl, fun x => by simp, fun _ => rfl, fun _ => rfl⟩
  | some o =>
    by_cases hlt : sys.prio t < sys.prio o
    · obtain ⟨q', i', hp', -, hst', -, hq'⟩ := rtThreadControl_spec i (t := o) (i.attr t).currentPriority
      refine ⟨_, q', if_pos hlt, i', fun _ => rfl, fun x => (hp' x).trans ?_, hst', hq'⟩
      by_cases hx : x = o
      · subst hx
        rw [if_pos rfl, if_pos ⟨rfl, hlt⟩]
        rfl
      · rw [if_neg hx, if_neg fun h => hx (Option.some.inj h.1).symm]
        rfl
    · refine ⟨_, q, if_neg hlt, i, fun _ => rfl, fun x => (if_neg fun h => ?_).symm, fun _ => rfl, fun _ => rfl⟩
      obtain rfl : o = x := Option.some.inj h.1
      exact hlt h.2

/-- **`rt_mutex_take`.** -/
theorem take_effect [Fintype T] (i : Waiting c flag s q) {t : T} (hrun : s.running = some t) {m : O} {time : Int}
    {r : MutexSys T O × Option RtErr} (hr : s.rtMutexTake c m time t = r) :
    ∃ q', Waiting c flag (s.after r.1 (if r.2 = none then some t else none)) q' ∧
      StepEffect s q (s.after r.1 (if r.2 = none then some t else none)) q' (.take m time) := by
  have i₁ := setError_schedInv s.toMutexSys i.sched t .eok
  have hprio := fun x => show (s.setError t .eok).prio x = s.prio x from MutexSys.setError_prio t .eok x
  have hmx : ∀ m, (s.setError t .eok).mutex m = s.mutex m := fun _ => rfl
  have hstat : ((s.setError t .eok).sched.thread t).stat = .running := by
    simpa [MutexSys.setError] using (MutexSys.running_eq hrun).2
  simp only [MutexSys.rtMutexTake] at hr
  generalize s.setError t .eok = s₁ at i₁ hprio hmx hstat hr
  have horig : ∀ m o, (s₁.mutex m).owner = some o → (s₁.mutex m).originalPriority < c.prioMax := fun m o => by
    rw [hmx]
    exact i.original m o
  -- the caller goes on: the lists and the priorities stay as they are
  have hgoes : ∀ {sys : MutexSys T O} {e : RtErr}, (sys, some e) = r → SchedInv c sys.sched q ∅ →
      (∀ x, sys.prio x = s.prio x) → s.newPriority (.take m time) = none →
      (∀ m o, (sys.mutex m).owner = some o → (sys.mutex m).originalPriority < c.prioMax) →
      (∀ o, (sys.mutex o).flag = (s₁.mutex o).flag) →
      ∃ q', Waiting c flag (s.after r.1 (if r.2 = none then some t else none)) q' ∧
        StepEffect s q (s.after r.1 (if r.2 = none then some t else none)) q' (.take m time) := by
    rintro sys e rfl hi hp hn ho hf
    exact ⟨q, i.after hi ho (fun o => by rw [hf, hmx]) fun o x hx => .inr hx,
      .of_keeps hn (fun o x _ => hp x) (fun _ => .refl _) fun o ho => absurd ho id⟩
  split_ifs at hr with hown hval htime
  · rw [hmx] at hown
    exact hgoes hr i₁ hprio (newPriority_take hrun (.inl hown)) (setMutex_original horig (horig m))
      (setMutex_flag (fun _ => rfl) rfl)
  · rw [hmx] at hval
    exact hgoes hr i₁ hprio (newPriority_take hrun (.inr (.inl hval)))
      (setMutex_original horig fun _ _ => (i₁.attr t).currentPriority) (setMutex_flag (fun _ => rfl) rfl)
  · refine hgoes hr (setError_schedInv s₁ i₁ t .etimeout) (fun x => ?_) (newPriority_take hrun (.inr (.inr htime))) horig
      fun _ => rfl
    rw [MutexSys.setError_prio, hprio]
  · rw [hmx] at hown hval
    obtain ⟨sys, q₂, hsys, i₂, hmx₂, hprio₂, hstat₂, hq₂⟩ := lend_spec i₁ (s₁.mutex m).owner t
    have hr' : ({ sys with sched := rtIpcListSuspend c sys.sched m t (s₁.mutex m).flag }, none) = r := by
      rw [← hsys]
      exact hr
    subst hr'
    obtain ⟨as, bs, hq, hi, hplace, hp, -⟩ :=
      rtIpcListSuspend_spec i₂ ((hstat₂ t).trans hstat) m (s₁.mutex m).flag
    rw [hq₂] at hq
    have hwait : ∀ o', Function.update q₂ (.suspendThread m) (as ++ t :: bs) (.suspendThread o') =
        if o' = m then as ++ t :: bs else q (.suspendThread o') := fun o' => by
      split_ifs with ho
      · rw [ho, Function.update_self]
      · rw [Function.update_of_ne (by simpa using ho), hq₂]
    have hflag : ∀ o, (sys.mutex o).flag = (s.mutex o).flag := fun o => by rw [hmx₂, hmx]
    refine ⟨_, i.after hi (fun m' o ho => ?_) hflag (mem_of_waits hq hwait),
      .of_waits i (MutexSys.running_eq hrun).2 hq (fun o x hx => ?_) (fun hf => ?_) (fun _ ho => ho) hwait⟩
    · simp only [hmx₂] at ho ⊢
      exact horig m' o ho
    · rw [newKey_take hrun hown hval htime]
      refine congrArg (fun p => toLex (p, s.arrived x)) ((hp x).trans ((hprio₂ x).trans ?_))
      rw [hmx, hprio, hprio]
    · have hpr : ∀ x, MutexSys.prio { sys with sched := rtIpcListSuspend c sys.sched m t (s₁.mutex m).flag } x
          = (sys.sched.thread x).currentPriority := hp
      have hf' : (s₁.mutex m).flag = .prio := by rw [hmx, hf]
      simp only [Placed, hf'] at hplace
      simpa only [hpr] using hplace

/-- "change the owner thread to original priority": the priority of the caller `t` only. -/
theorem restore_spec (sys : MutexSys T O) (i : SchedInv c sys.sched q ∅) {prio : Nat} (hp : prio < c.prioMax) (t : T) :
    ∃ sys' q', (if prio ≠ sys.prio t then sys.control c t prio else sys) = sys' ∧ SchedInv c sys'.sched q' ∅ ∧
      (∀ m, sys'.mutex m = sys.mutex m) ∧ (∀ x, x ≠ t → sys'.prio x = sys.prio x) ∧
      ∀ o, q' (.suspendThread o) = q (.suspendThread o) := by
  split_ifs
  · obtain ⟨q', i', hp', -, -, -, hq'⟩ := rtThreadControl_spec i (t := t) hp
    exact ⟨_, q', rfl, i', fun _ => rfl, fun x hx => (hp' x).trans (if_neg hx), hq'⟩
  · exact ⟨sys, q, rfl, i, fun _ => rfl, fun _ _ => rfl, fun _ => rfl⟩

/-- **`rt_mutex_release`.** -/
theorem release_effect (i : Waiting c flag s q) {t : T} (hrun : s.running = some t) {m : O} {r : MutexSys T O × RtErr}
    (hr : s.rtMutexRelease c m t = r) :
    ∃ q', Waiting c flag (s.after r.1 none) q' ∧ StepEffect s q (s.after r.1 none) q' (.release m) := by
  have hoff : ∀ o x, x ∈ q (.suspendThread o) → x ≠ t := by
    rintro o x hx rfl
    have h := (i.sched.suspended x o hx).symm.trans (MutexSys.running_eq hrun).2
    cases h
  -- nobody is resumed
  have hnobody : ∀ {sys : MutexSys T O} {q' : ListHead O → List T}, SchedInv c sys.sched q' ∅ →
      (∀ m o, (sys.mutex m).owner = some o → (sys.mutex m).originalPriority < c.prioMax) →
      (∀ o, (sys.mutex o).flag = (s.mutex o).flag) → (∀ x, x ≠ t → sys.prio x = s.prio x) →
      (∀ o, q' (.suspendThread o) = q (.suspendThread o)) →
      ∃ q', Waiting c flag (s.after sys none) q' ∧ StepEffect s q (s.after sys none) q' (.release m) :=
    fun {sys q'} hi ho hf hp hq => ⟨q', i.after hi ho hf fun o x hx => .inr (hq o ▸ hx),
      .of_keeps rfl (fun o x hx => hp x (hoff o x hx)) (fun o => by rw [hq]) fun o _ x hx hx' =>
        absurd hx (hq o ▸ hx')⟩
  simp only [MutexSys.rtMutexRelease] at hr
  split at hr
  next =>
    subst hr
    exact hnobody (setError_schedInv _ i.sched t .error) i.original (fun _ => rfl)
      (fun x _ => MutexSys.setError_prio t .error x) fun _ => rfl
  next hown =>
    have howner : (s.mutex m).owner = some t := not_not.mp hown
    have horig := i.original m t howner
    split at hr
    next =>
      obtain ⟨sys, q₂, hsys, i₂, hmx₂, hprio₂, hq₂⟩ :=
        restore_spec (s.setMutex m { s.mutex m with hold := Word.sub 8 (s.mutex m).hold 1 }) i.sched horig t
      rw [hsys] at hr
      have horig₂ : ∀ m o, (sys.mutex m).owner = some o → (sys.mutex m).originalPriority < c.prioMax := fun m' o => by
        rw [hmx₂]
        refine setMutex_original i.original ?_ m' o
        exact fun _ _ => horig
      have hflag₂ : ∀ o, (sys.mutex o).flag = (s.mutex o).flag := fun o => by
        rw [hmx₂]
        refine setMutex_flag (f := fun o => (s.mutex o).flag) (fun _ => rfl) ?_ o
        rfl
      have hfirst := i₂.firstEntry_eq (.suspendThread m)
      rw [hq₂] at hfirst
      cases hq : q (.suspendThread m) with
      | nil =>
        rw [hfirst, hq, List.head?_nil] at hr
        subst hr
        refine hnobody i₂ (setMutex_original horig₂ ?_) (fun o => ?_) hprio₂ hq₂
        · exact fun _ h => by cases h
        · refine setMutex_flag hflag₂ ?_ o
          rfl
      | cons w rest =>
        rw [hfirst, hq, List.head?_cons] at hr
        subst hr
        obtain ⟨q', hi, hk, -, hw⟩ := rtIpcListResume_spec i₂ ((hq₂ m).trans hq)
        refine ⟨q', i.after hi (setMutex_original horig₂ ?_) (fun o => ?_) fun o x hx => .inr ?_, .of_keeps rfl (fun o x hx => ?_) (fun o => ?_) fun o ho x hx hx' => ?_⟩
        · exact fun _ _ => (i₂.attr w).currentPriority
        · refine setMutex_flag hflag₂ ?_ o
          rfl
        · rw [hw, hq₂] at hx
          exact List.mem_of_mem_erase hx
        · exact (hk.currentPriority x).trans (hprio₂ x (hoff o x hx))
        · rw [hw, hq₂]
          exact List.erase_sublist
        · obtain rfl : m = o := ho
          rw [hw, hq₂] at hx'
          rw [hq, List.head?_cons, Option.mem_some_iff]
          by_contra hne
          exact hx' ((List.mem_erase_of_ne (Ne.symm hne)).mpr hx)
    next =>
      subst hr
      exact hnobody i.sched (setMutex_original i.original (i.original m)) (setMutex_flag (fun _ => rfl) rfl) (fun _ _ => rfl)
        fun _ => rfl

/-! ## Runs -/

theorem waiting_init [Fintype T] {prio : T → Nat} {sys cln : T → Bool} (hp : ∀ t, prio t < c.prioMax) :
    Waiting c flag (init (fun t => rtThreadInit (prio t) (sys t) (cln t)) flag) fun _ => [] := by
  refine ⟨schedInv_init hp, fun m o ho => ?_, fun o => rfl, fun o t ht => by simp at ht⟩
  cases ho

/-- **One call** keeps the invariant, with its effect. -/
theorem step_effect [Fintype T] (i : Waiting c flag s q) (hs : Step c isMutex s l s') :
    ∃ q', Waiting c flag s' q' ∧ StepEffect s q s' q' l := by
  unfold Step at hs
  cases l with
  | take m time =>
    simp only [exec] at hs
    split_ifs at hs with hm
    obtain ⟨t, hrun, rfl⟩ := Option.map_eq_some_iff.mp hs
    exact take_effect i hrun rfl
  | release m =>
    simp only [exec] at hs
    split_ifs at hs with hm
    obtain ⟨t, hrun, rfl⟩ := Option.map_eq_some_iff.mp hs
    exact release_effect i hrun rfl
  | sched l =>
    simp only [exec] at hs
    split_ifs at hs with hok
    obtain ⟨sched, hl, rfl⟩ := Option.map_eq_some_iff.mp hs
    exact sched_effect i hok hl

/-- In sorted lists the first is a most urgent one, so that whoever is served is. -/
theorem servesUrgent_of_sorted [Fintype T] (i : Waiting c flag s q) (h : Sorted flag s.key q) :
    ServesUrgent c isMutex flag s := by
  intro l s' o t u hs hserves ho ht ht' hu
  obtain ⟨q', i', e⟩ := step_effect i hs
  rw [waitsFor_iff i] at ht hu
  rw [waitsFor_iff i'] at ht'
  have hfirst := e.served o hserves t ht ht'
  obtain ⟨rest, hq⟩ : ∃ rest, q (.suspendThread o) = t :: rest := List.head?_eq_some_iff.mp hfirst
  have hsort := h o ho
  rw [hq] at hsort hu
  have hle := hsort.head_le u hu
  rcases lt_or_eq_of_le hle with hlt | heq
  · rcases key_lt_iff.mp hlt with hp | hp
    · exact le_of_lt hp
    · exact le_of_eq hp.1
  · exact le_of_eq (congrArg (fun k => (ofLex k).1) heq)

/-- The lists are in order after every run of undisturbed calls. -/
theorem run_sorted [Fintype T] {prio : T → Nat} {sys cln : T → Bool} {ls : List (MutexSys.Call T O)}
    (hp : ∀ t, prio t < c.prioMax)
    (hrun : Run (Guarded Undisturbed (Step c isMutex)) (init (fun t => rtThreadInit (prio t) (sys t) (cln t)) flag)
      ls s) : ∃ q, Waiting c flag s q ∧ Sorted flag s.key q := by
  refine hrun.guarded (I := fun s => ∃ q, Waiting c flag s q ∧ Sorted flag s.key q)
    ⟨_, waiting_init hp, fun _ _ => .nil⟩ ?_
  rintro s l s' ⟨q, i, h⟩ hu hs
  obtain ⟨q', i', e⟩ := step_effect i hs
  exact ⟨q', i', (e.sorted_iff i h).mpr hu⟩

/-- **Priority-ordered waiting.** In every run in which no call gives a thread that waits in priority order a priority
beyond those of its neighbours, the lists stay in order and the most urgent is served; the first call that does so leaves
a list out of order. -/
theorem prio_waiting [Fintype T] (c : SchedCfg) (isMutex : O → Bool) (flag : O → IpcFlag) (prio : T → Nat)
    (sys cln : T → Bool) (ls : List (MutexSys.Call T O)) (s : PrioSys T O) (hp : ∀ t, prio t < c.prioMax)
    (hrun : Run (Guarded Undisturbed (Step c isMutex)) (init (fun t => rtThreadInit (prio t) (sys t) (cln t)) flag)
      ls s) :
    PrioOrdered flag s ∧ ServesUrgent c isMutex flag s ∧
      ∀ l s', Step c isMutex s l s' → (PrioOrdered flag s' ↔ s.Undisturbed l) := by
  obtain ⟨q, i, h⟩ := run_sorted hp hrun
  refine ⟨(prioOrdered_iff i).mpr h, servesUrgent_of_sorted i h, fun l s' hs => ?_⟩
  obtain ⟨q', i', e⟩ := step_effect i hs
  rw [prioOrdered_iff i', e.sorted_iff i h]

/-! ## Runs of four threads -/

/-- The priorities of the threads 0 to 3. -/
def fourPriorities (t : Fin 4) : Nat :=
  if t.val = 0 then 30 else if t.val = 1 then 10 else if t.val = 2 then 20 else 5

/-- Four threads; `true` is a mutex and `false` a semaphore, both with `RT_IPC_FLAG_PRIO`. -/
def fourThreads : PrioSys (Fin 4) Bool :=
  init (fun t => rtThreadInit (fourPriorities t) false false) fun _ => .prio

/-- 40 priorities. -/
def fortyPriorities : SchedCfg := ⟨40, by decide⟩

/-- Threads 1 and 2 wait for the semaphore, thread 0 runs. -/
def twoWait : List (MutexSys.Call (Fin 4) Bool) :=
  [.sched (.startup 0), .sched (.startup 1), .sched (.startup 2), .sched .schedulerStart,
    .sched (.ipcSuspend false .prio), .sched .schedule, .take true 0, .sched (.ipcSuspend false .prio), .sched .schedule]

/-- Whether a new priority keeps the place of the thread, waiting or not. -/
def NewPriorityInPlace (s : PrioSys (Fin 4) Bool) (l : MutexSys.Call (Fin 4) Bool) : Prop :=
  match s.newPriority l with
  | some (t, prio) => s.keepsPlace t prio
  | none => True

instance (s : PrioSys (Fin 4) Bool) (l : MutexSys.Call (Fin 4) Bool) : Decidable (NewPriorityInPlace s l) := by
  unfold NewPriorityInPlace
  split <;> infer_instance

theorem undisturbed_of_inPlace {s : PrioSys (Fin 4) Bool} {l : MutexSys.Call (Fin 4) Bool}
    (h : NewPriorityInPlace s l) : s.Undisturbed l := by
  intro t prio hnew o _ _
  simpa only [NewPriorityInPlace, hnew] using h

/-- Thread 0 moves thread 2 to priority 15, which keeps its place behind thread 1. -/
def moveInPlace : List (MutexSys.Call (Fin 4) Bool) := twoWait ++ [.sched (.control 2 15)]

theorem prio_waiting_run : ∃ s : PrioSys (Fin 4) Bool,
    Run (Guarded Undisturbed (Step fortyPriorities id)) fourThreads moveInPlace s ∧
      PrioOrdered (fun _ => .prio) s ∧ s.prio 1 = 10 ∧ s.prio 2 = 15 := by
  have h : (moveInPlace.foldlM (fun (s : PrioSys (Fin 4) Bool) l =>
      if NewPriorityInPlace s l then exec fortyPriorities id s l else none) fourThreads).map
        (fun s => (s.prio 1, s.prio 2)) = some (10, 15) := by decide +kernel
  obtain ⟨s, hs, hobs⟩ := Option.map_eq_some_iff.mp h
  have hrun : Run (Guarded Undisturbed (Step fortyPriorities id)) fourThreads moveInPlace s := by
    refine Run.of_foldlM (fun s l s' hs => ?_) hs
    split_ifs at hs with hin
    exact ⟨undisturbed_of_inPlace hin, hs⟩
  obtain ⟨hordered, -⟩ := prio_waiting fortyPriorities id (fun _ => .prio) fourPriorities (fun _ => false)
    (fun _ => false) moveInPlace s (by decide) hrun
  simp only [Prod.mk.injEq] at hobs
  exact ⟨s, hrun, hordered, hobs⟩

/-- Threads 1 and 2 wait in this order, although thread 2 has become more urgent, and the next release resumes
thread 1. -/
theorem disturbed_of_observed {ls : List (MutexSys.Call (Fin 4) Bool)}
    (h : (ls.foldlM (exec fortyPriorities id) fourThreads).map (fun s : PrioSys (Fin 4) Bool =>
      ([s.sched.links.next (.head (.suspendThread false)), s.sched.links.next (.item 1), s.sched.links.next (.item 2)],
        [s.prio 1, s.prio 2],
        (s.exec fortyPriorities id (.sched (.ipcResume false))).map fun s' => (s'.sched.thread 1).stat)) =
      some ([.item 1, .item 2, .head (.suspendThread false)], [10, 5], some .ready)) :
    ∃ s, Run (Step fortyPriorities id) fourThreads ls s ∧ ¬ PrioOrdered (fun _ => .prio) s ∧
      ¬ ServesUrgent fortyPriorities id (fun _ => .prio) s := by
  obtain ⟨s, hs, hobs⟩ := Option.map_eq_some_iff.mp h
  simp only [Prod.mk.injEq, List.cons.injEq, and_true] at hobs
  obtain ⟨⟨hhead, h1, h2⟩, ⟨hp1, hp2⟩, hnext⟩ := hobs
  obtain ⟨s', hs', hready⟩ := Option.map_eq_some_iff.mp hnext
  have hrun : Run (Step fortyPriorities id) fourThreads ls s := Run.of_foldlM (fun _ _ _ h => h) hs
  obtain ⟨q, i⟩ := hrun.invariant (I := fun s => ∃ q, Waiting fortyPriorities (fun _ => .prio) s q)
    ⟨_, waiting_init (by decide)⟩ fun _ _ _ ⟨_, i⟩ hs => (step_effect i hs).imp fun _ h => h.1
  obtain ⟨q', i', -⟩ := step_effect i hs'
  have hwaits : ∀ t ∈ [(1 : Fin 4), 2], s.WaitsFor false t := fun t ht =>
    ⟨[1, 2], ⟨hhead, by rw [h1]; exact ⟨rfl, h2⟩⟩, ht⟩
  have hgone : ¬ s'.WaitsFor false 1 := fun hw => by
    have := i'.sched.suspended 1 false ((waitsFor_iff i' false 1).mp hw)
    simp [hready] at this
  have hnot : ¬ ServesUrgent fortyPriorities id (fun _ => .prio) s := fun hu => by
    have hle := hu _ s' false 1 2 hs' rfl rfl (hwaits 1 (by simp)) hgone (hwaits 2 (by simp))
    omega
  exact ⟨s, hrun, fun ho => hnot (servesUrgent_of_sorted i ((prioOrdered_iff i).mp ho)), hnot⟩

/-- Thread 0 moves thread 2 to priority 5. -/
def moveAhead : List (MutexSys.Call (Fin 4) Bool) := twoWait ++ [.sched (.control 2 5)]

/-- Thread 3 takes the mutex, which thread 2 owns, and lends it its priority. -/
def lendAhead : List (MutexSys.Call (Fin 4) Bool) :=
  twoWait ++ [.sched (.startup 3), .take true (-1), .sched .schedule]

/-- **Out of order**, by `rt_thread_control` and by `rt_mutex_take`: thread 2 waits with priority 5 behind thread 1 with
priority 10, and the next release of the semaphore resumes thread 1. -/
theorem prio_waiting_disturbed :
    (∃ s, Run (Step fortyPriorities id) fourThreads moveAhead s ∧ ¬ PrioOrdered (fun _ => .prio) s ∧
      ¬ ServesUrgent fortyPriorities id (fun _ => .prio) s) ∧
    ∃ s, Run (Step fortyPriorities id) fourThreads lendAhead s ∧ ¬ PrioOrdered (fun _ => .prio) s ∧
      ¬ ServesUrgent fortyPriorities id (fun _ => .prio) s :=
  ⟨disturbed_of_observed (by decide +kernel), disturbed_of_observed (by decide +kernel)⟩

end CoreLink.RtThread.PrioSys
