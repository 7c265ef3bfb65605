/-
# `CoreLink.RtThread.MutexPriority` — priority restoration and priority inheritance.

`rt_mutex_take` saves the current priority of the new owner in the mutex and `rt_mutex_release` sets it back. With one
mutex at a time this is the priority from before; with several it need not be, because the owner can be boosted through
one mutex when it takes the next. `RestoreOk` is the condition under which it is, `priority_restored` the theorem that
it is exact.

A thread that has to wait lends its priority to the owner once, at that time. `InheritOk` says when this is enough for
every owner to stay at least as urgent as every thread that waits for its mutex.
-/
import CoreLink.RtThread.MutexCalls

namespace CoreLink.RtThread.MutexSys

open CoreLink.Lib

set_option linter.unusedSectionVars false

variable {T M : Type*} [DecidableEq T] [DecidableEq M] [Fintype T] [Fintype M]
variable {c : SchedCfg} {s s' : MutexSys T M} {q q' : ListHead M → List T} {l : Call T M}

/-! ## Restoration -/

/-- A thread that owns no mutex has the priority it had before it took the first of those it owned last. -/
def Restored (s : MutexSys T M) : Prop := ∀ t p, ¬ s.Owns t → s.base t = some p → s.prio t = p

/-- If the call gives up the only mutex that its caller owns, then that mutex was taken with the priority from before
the first: while the thread was not boosted. -/
def RestoreOk (s : MutexSys T M) : Call T M → Prop
  | .release m => ∀ t, s.GivesUp m t → (∀ m', m' ≠ m → (s.mutex m').owner ≠ some t) →
      s.base t = some (s.mutex m).originalPriority
  | .take .. | .sched _ => True

instance (s : MutexSys T M) (m : M) (t : T) : Decidable (s.GivesUp m t) :=
  decidable_of_iff (s.running = some t ∧ (s.mutex m).owner = some t ∧ Word.sub 8 (s.mutex m).hold 1 = 0)
    ⟨fun h => ⟨h.1, h.2.1, h.2.2⟩, fun h => ⟨h.running, h.owner, h.last⟩⟩

instance (s : MutexSys T M) : (l : Call T M) → Decidable (RestoreOk s l)
  | .release m => inferInstanceAs (Decidable (∀ t, s.GivesUp m t →
      (∀ m', m' ≠ m → (s.mutex m').owner ≠ some t) → s.base t = some (s.mutex m).originalPriority))
  | .take .. | .sched _ => inferInstanceAs (Decidable True)

/-- A thread that owned nothing before and after a call is as it was. -/
theorem Restored.keep (hr : Restored s) (i : MutexInv c s q)
    (hbase : ∀ t, s'.base t = if ¬ s.Owns t ∧ s'.Owns t then some (s.prio t) else s.base t) {x : T} {p : Nat}
    (hx : ¬ s.Owns x) (hx' : ¬ s'.Owns x) (hprio : (s.sched.thread x).stat ≠ .init → s'.prio x = s.prio x)
    (hp : s'.base x = some p) : s'.prio x = p := by
  rw [hbase, if_neg fun hc => hx' hc.2] at hp
  rw [hprio (i.started x p hp)]
  exact hr x p hx hp

/-- Giving up a mutex sets the priority that was saved in it, which is right exactly under the condition. -/
theorem GivesUp.restored_iff {m : M} {t : T} (hg : s.GivesUp m t) (i : MutexInv c s q) (hr : Restored s)
    (hbase : ∀ t, s'.base t = if ¬ s.Owns t ∧ s'.Owns t then some (s.prio t) else s.base t)
    (howner : ∀ m', m' ≠ m → (s'.mutex m').owner = (s.mutex m').owner) (hgone : (s'.mutex m).owner ≠ some t)
    (hprio : ∀ x, s'.prio x = if x = t then (s.mutex m).originalPriority else s.prio x) :
    Restored s' ↔ RestoreOk s (.release m) := by
  have howns : s.Owns t := ⟨m, hg.owner⟩
  have hbase_t : s'.base t = s.base t := by rw [hbase, if_neg fun hc => hc.1 howns]
  have honly : ¬ s'.Owns t ↔ ∀ m', m' ≠ m → (s.mutex m').owner ≠ some t := by
    constructor
    · exact fun h m' hm' ho => h ⟨m', by rw [howner m' hm', ho]⟩
    · rintro h ⟨m', ho⟩
      by_cases hm' : m' = m
      · exact hgone (hm' ▸ ho)
      · exact h m' hm' (howner m' hm' ▸ ho)
  constructor
  · intro hr' t₀ hg₀ hfree
    obtain rfl : t = t₀ := Option.some.inj (hg.running.symm.trans hg₀.running)
    obtain ⟨p, hp⟩ := i.base t howns
    have hp' : s'.prio t = p := hr' t p (honly.mpr hfree) (hbase_t.trans hp)
    rw [hprio, if_pos rfl] at hp'
    rw [hp, hp']
  · intro hok x p hx hp
    by_cases hxt : x = t
    · subst hxt
      rw [hbase_t, hok x hg (honly.mp hx)] at hp
      rw [hprio, if_pos rfl]
      exact Option.some.inj hp
    · have hx₀ : ¬ s.Owns x := by
        rintro ⟨m', hm'⟩
        by_cases hmm : m' = m
        · subst hmm
          exact hxt (Option.some.inj (hm'.symm.trans hg.owner))
        · exact hx ⟨m', (howner m' hmm).trans hm'⟩
      exact hr.keep i hbase hx₀ hx (fun _ => by rw [hprio, if_neg hxt]) hp

/-- **One call** keeps the restoration exactly if it meets the condition. -/
theorem step_restored_iff (i : MutexInv c s q) (hr : Restored s) (hs : Step c s l s') :
    Restored s' ↔ RestoreOk s l := by
  obtain ⟨q', i', h, hbase⟩ := step_effect i hs
  cases h with
  | other hquiet howner hprio hwait =>
      refine iff_of_true (fun x p hx hp => ?_) ?_
      · have hx₀ : ¬ s.Owns x := fun ⟨m, hm⟩ => hx ⟨m, (howner m).trans hm⟩
        exact hr.keep i hbase hx₀ hx (hprio x) hp
      · cases l with
        | release m => exact fun t hg => absurd hg (hquiet t)
        | take m time => trivial
        | sched l => trivial
  | take hrun hm howner hprio hwait =>
      refine iff_of_true (fun x p hx hp => ?_) trivial
      have hx₀ : ¬ s.Owns x := by
        rintro ⟨m', hm'⟩
        refine hx ⟨m', ?_⟩
        rw [howner, if_neg]
        · exact hm'
        · rintro rfl
          simp [hm] at hm'
      exact hr.keep i hbase hx₀ hx (fun _ => hprio x) hp
  | @block m time t o as bs hb howner hprio hq hwait =>
      refine iff_of_true (fun x p hx hp => ?_) trivial
      have hx₀ : ¬ s.Owns x := fun ⟨m', hm'⟩ => hx ⟨m', (howner m').trans hm'⟩
      have hxo : x ≠ o := fun e => hx₀ ⟨m, e ▸ hb.owner⟩
      exact hr.keep i hbase hx₀ hx (fun _ => by rw [hprio, if_neg fun hc => hxo hc.1]) hp
  | @giveUp m t hg howner hprio hwait =>
      refine hg.restored_iff i hr hbase (fun m' hm' => by rw [howner, if_neg hm']) (fun ho => ?_) hprio
      -- the new owner was waiting, and is not the one that runs
      rw [howner, if_pos rfl] at ho
      have hsus := i.sched.suspended t m (List.mem_of_head? ho)
      rw [(running_eq hg.running).2] at hsus
      simp at hsus

/-- **Priority restoration.** In a run whose calls all meet the condition, a thread that owns no mutex has the priority
it had before it took the first of them; and the next call keeps this exactly if it meets the condition as well. -/
theorem priority_restored (c : SchedCfg) (prio : T → Nat) (sys cln : T → Bool) (flag : M → IpcFlag)
    (ls : List (Call T M)) (s : MutexSys T M) (hp : ∀ t, prio t < c.prioMax)
    (hrun : Run (Guarded RestoreOk (Step c)) (init (fun t => rtThreadInit (prio t) (sys t) (cln t)) flag) ls s) :
    Restored s ∧ ∀ l s', Step c s l s' → (Restored s' ↔ RestoreOk s l) := by
  obtain ⟨⟨q, i⟩, hr⟩ : (∃ q, MutexInv c s q) ∧ Restored s := by
    refine hrun.guarded (I := fun s => (∃ q, MutexInv c s q) ∧ Restored s) ⟨⟨_, mutexInv_init hp⟩, ?_⟩ ?_
    · intro t p _ ht
      simp [init] at ht
    · rintro s l s' ⟨⟨q, i⟩, hr⟩ hok hs
      obtain ⟨q', i', -, -⟩ := step_effect i hs
      exact ⟨⟨q', i'⟩, (step_restored_iff i hr hs).mpr hok⟩
  exact ⟨hr, fun l s' hs => step_restored_iff i hr hs⟩

/-- Two threads of the priorities 20 and 10, and two mutexes. -/
def lowHigh : MutexSys (Fin 2) (Fin 2) :=
  init (fun t => rtThreadInit (if t = 0 then 20 else 10) false false) fun _ => .prio

/-- Thread 0 takes mutex 0 and is boosted by thread 1, which waits for it; thread 0 gives the mutex up. -/
def boostOnce : List (Call (Fin 2) (Fin 2)) :=
  [.sched (.startup 0), .sched .schedulerStart, .take 0 (-1), .sched (.startup 1), .take 0 (-1), .sched .schedule,
    .release 0]

/-- As before, but thread 0 takes mutex 1 while it is boosted, and gives it up last. -/
def boostTwice : List (Call (Fin 2) (Fin 2)) :=
  [.sched (.startup 0), .sched .schedulerStart, .take 0 (-1), .sched (.startup 1), .take 0 (-1), .sched .schedule,
    .take 1 (-1), .release 0, .sched .schedule, .release 0, .sched (.suspend 1), .sched .schedule, .release 1]

/-- With one mutex thread 0 is back at its priority. -/
theorem priority_restored_run : ∃ s : MutexSys (Fin 2) (Fin 2), s.base 0 = some 20 ∧ Restored s ∧
    ∀ l s', Step ⟨32, by decide⟩ s l s' → (Restored s' ↔ RestoreOk s l) := by
  have hend : (boostOnce.foldlM (fun s l => if RestoreOk s l then s.exec ⟨32, by decide⟩ l else none) lowHigh).map
      (fun s => s.base 0) = some (some 20) := by decide +kernel
  obtain ⟨s, hs, hbase⟩ := Option.map_eq_some_iff.mp hend
  have hrun : Run (Guarded RestoreOk (Step ⟨32, by decide⟩)) lowHigh boostOnce s :=
    Run.of_foldlM_guarded (fun _ _ _ h => h) hs
  exact ⟨s, hbase, priority_restored ⟨32, by decide⟩ (fun t => if t = 0 then 20 else 10) (fun _ => false)
    (fun _ => false) (fun _ => .prio) boostOnce s (by decide) hrun⟩

/-- With two, thread 0 owns nothing in the end, and has priority 10. -/
theorem priority_not_restored : ¬ ∀ (c : SchedCfg) (prio : Fin 2 → Nat) (sys cln : Fin 2 → Bool)
    (flag : Fin 2 → IpcFlag) (ls : List (Call (Fin 2) (Fin 2))) (s : MutexSys (Fin 2) (Fin 2)),
    (∀ t, prio t < c.prioMax) →
    Run (Step c) (init (fun t => rtThreadInit (prio t) (sys t) (cln t)) flag) ls s → Restored s := by
  intro hall
  have hend : (boostTwice.foldlM (exec ⟨32, by decide⟩) lowHigh).map
      (fun s => (decide (s.Owns 0), s.base 0, s.prio 0)) = some (false, some 20, 10) := by decide +kernel
  obtain ⟨s, hs, hend⟩ := Option.map_eq_some_iff.mp hend
  simp only [Prod.mk.injEq, decide_eq_false_iff_not] at hend
  obtain ⟨howns, hbase, hprio⟩ := hend
  have hrun : Run (Step ⟨32, by decide⟩) lowHigh boostTwice s := Run.of_foldlM (fun _ _ _ h => h) hs
  have h := hall ⟨32, by decide⟩ (fun t => if t = 0 then 20 else 10) (fun _ => false) (fun _ => false) (fun _ => .prio)
    boostTwice s (by decide) hrun 0 20 howns hbase
  exact absurd (h.symm.trans hprio) (by decide)

/-! ## Inheritance -/

/-- The owner of a mutex is at least as urgent as every thread that waits for it. -/
def Inherits (s : MutexSys T M) : Prop :=
  ∀ m t, s.sched.links.OnList (.suspendThread m) t → ∃ o, (s.mutex m).owner = some o ∧ s.prio o ≤ s.prio t

/-- The condition for that. If the call gives up a mutex, then the priority saved in it is as urgent as those that wait
for the other mutexes of the caller, and the thread that gets the mutex is as urgent as those that go on waiting. If it
boosts an owner that waits itself, then the owner of the mutex that this one waits for is as urgent as the caller. -/
def InheritOk (s : MutexSys T M) : Call T M → Prop
  | .release m => ∀ t, s.GivesUp m t →
      (∀ m' w, m' ≠ m → (s.mutex m').owner = some t → s.sched.links.OnList (.suspendThread m') w →
        (s.mutex m).originalPriority ≤ s.prio w) ∧
      ∀ w w', s.sched.firstEntry (.suspendThread m) = some w → s.sched.links.OnList (.suspendThread m) w' →
        s.prio w ≤ s.prio w'
  | .take m time => ∀ t o, s.Blocks m time t o → s.prio t < s.prio o →
      ∀ m' o', s.sched.links.OnList (.suspendThread m') o → (s.mutex m').owner = some o' → s.prio o' ≤ s.prio t
  | .sched _ => True

theorem MutexOk.inherits_iff (i : MutexOk c s q) : Inherits s ↔
    ∀ m t o, t ∈ q (.suspendThread m) → (s.mutex m).owner = some o → s.prio o ≤ s.prio t := by
  unfold Inherits
  simp only [i.sched.rep.onList_iff]
  constructor
  · intro h m t o ht ho
    obtain ⟨o', ho', hle⟩ := h m t ht
    rwa [Option.some.inj (ho.symm.trans ho')]
  · intro h m t ht
    cases ho : (s.mutex m).owner with
    | none => simp [(i.free m ho).2] at ht
    | some o => exact ⟨o, rfl, h m t o ht ho⟩

/-- Waiting and lending the priority to the owner. -/
theorem Blocks.inherits_iff {m : M} {time : Int} {t o : T} {as bs : List T} (hb : s.Blocks m time t o)
    (i : MutexInv c s q)
    (hi : ∀ m t o, t ∈ q (.suspendThread m) → (s.mutex m).owner = some o → s.prio o ≤ s.prio t)
    (howner : ∀ m, (s'.mutex m).owner = (s.mutex m).owner)
    (hprio : ∀ x, s'.prio x = if x = o ∧ s.prio t < s.prio o then s.prio t else s.prio x)
    (hq : q (.suspendThread m) = as ++ bs)
    (hwait : ∀ m', q' (.suspendThread m') = if m' = m then as ++ t :: bs else q (.suspendThread m')) :
    (∀ m t o, t ∈ q' (.suspendThread m) → (s'.mutex m).owner = some o → s'.prio o ≤ s'.prio t) ↔
      InheritOk s (.take m time) := by
  have hon : o ∉ q (.suspendThread m) := (i.owned m o hb.owner).2.1
  have hle : ∀ x, s'.prio x ≤ s.prio x := fun x => by
    rw [hprio]
    split_ifs with hx
    · rw [hx.1]
      exact hx.2.le
    · exact le_rfl
  have hkeep : ∀ x, x ≠ o → s'.prio x = s.prio x := fun x hx => by rw [hprio, if_neg fun hc => hx hc.1]
  constructor
  · intro h t₁ o₁ hb₁ hlt m' o' hmem ho'
    obtain rfl : t = t₁ := Option.some.inj (hb.running.symm.trans hb₁.running)
    obtain rfl : o = o₁ := Option.some.inj (hb.owner.symm.trans hb₁.owner)
    rw [i.sched.rep.onList_iff] at hmem
    have hm' : m' ≠ m := fun e => hon (e ▸ hmem)
    have hoo' : o' ≠ o := fun e => (i.owned m' o' ho').2.1 (e ▸ hmem)
    have := h m' o o' (by rwa [hwait, if_neg hm']) (by rw [howner, ho'])
    rwa [hkeep o' hoo', hprio o, if_pos ⟨rfl, hlt⟩] at this
  · intro hok m' w o' hw ho'
    rw [howner] at ho'
    rw [hwait] at hw
    split_ifs at hw with hm'
    · -- the mutex of the caller
      subst hm'
      obtain rfl : o = o' := Option.some.inj (hb.owner.symm.trans ho')
      by_cases hwt : w = t
      · rw [hwt, hkeep t hb.other.symm, hprio]
        split_ifs with hc
        · exact le_rfl
        · exact not_lt.mp fun hlt => hc ⟨rfl, hlt⟩
      · have hwq : w ∈ q (.suspendThread m') := by
          rw [hq]
          simpa [hwt] using hw
        have hwo : w ≠ o := fun e => hon (e ▸ hwq)
        rw [hkeep w hwo]
        exact (hle o).trans (hi m' w o hwq ho')
    · by_cases hc : w = o ∧ s.prio t < s.prio o
      · -- the owner of another mutex, for which the boosted thread waits
        have hoo' : o' ≠ o := fun e => (i.owned m' o' ho').2.1 (e ▸ hc.1 ▸ hw)
        rw [hkeep o' hoo', hprio w, if_pos hc]
        exact hok t o hb hc.2 m' o' (i.sched.rep.onList_iff.mpr (hc.1 ▸ hw)) ho'
      · rw [hprio w, if_neg hc]
        exact (hle o').trans (hi m' w o' hw ho')

/-- Giving up a mutex. -/
theorem GivesUp.inherits_iff {m : M} {t : T} (hg : s.GivesUp m t) (i : MutexInv c s q)
    (hi : ∀ m t o, t ∈ q (.suspendThread m) → (s.mutex m).owner = some o → s.prio o ≤ s.prio t)
    (howner : ∀ m', (s'.mutex m').owner = if m' = m then (q (.suspendThread m)).head? else (s.mutex m').owner)
    (hprio : ∀ x, s'.prio x = if x = t then (s.mutex m).originalPriority else s.prio x)
    (hwait : ∀ m', q' (.suspendThread m') = if m' = m then (q (.suspendThread m)).tail else q (.suspendThread m')) :
    (∀ m t o, t ∈ q' (.suspendThread m) → (s'.mutex m).owner = some o → s'.prio o ≤ s'.prio t) ↔
      InheritOk s (.release m) := by
  have hsus : ∀ m' w, w ∈ q (.suspendThread m') → s'.prio w = s.prio w := fun m' w hw => by
    rw [hprio, if_neg]
    rintro rfl
    have hst := i.sched.suspended w m' hw
    rw [(running_eq hg.running).2] at hst
    simp at hst
  have hlist : ∀ m' w, s.sched.links.OnList (.suspendThread m') w ↔ w ∈ q (.suspendThread m') := fun m' w =>
    i.sched.rep.onList_iff
  constructor
  · intro h t₁ hg₁
    obtain rfl : t = t₁ := Option.some.inj (hg.running.symm.trans hg₁.running)
    refine ⟨fun m' w hm' ho hw => ?_, fun w w' hw hw' => ?_⟩
    · rw [hlist] at hw
      have := h m' w t (by rwa [hwait, if_neg hm']) (by rw [howner, if_neg hm', ho])
      rwa [hprio t, if_pos rfl, hsus m' w hw] at this
    · rw [i.sched.firstEntry_eq] at hw
      rw [hlist] at hw'
      obtain ⟨rest, hq⟩ : ∃ rest, q (.suspendThread m) = w :: rest := ⟨_, (List.head?_eq_some_iff.mp hw).choose_spec⟩
      have hwm : w ∈ q (.suspendThread m) := hq ▸ List.mem_cons_self
      rw [hq, List.mem_cons] at hw'
      rcases hw' with rfl | hw'
      · exact le_rfl
      · have := h m w' w (by rwa [hwait, if_pos rfl, hq]) (by rw [howner, if_pos rfl, hw])
        rwa [hsus m w hwm, hsus m w' (hq ▸ List.mem_cons_of_mem _ hw')] at this
  · intro hok m' w o hw ho
    obtain ⟨hothers, hfirst⟩ := hok t hg
    rw [hwait] at hw
    rw [howner] at ho
    split_ifs at hw ho with hm'
    · have hwm : w ∈ q (.suspendThread m) := List.mem_of_mem_tail hw
      rw [hsus m o (List.mem_of_head? ho), hsus m w hwm]
      exact hfirst o w (by rw [i.sched.firstEntry_eq, ho]) ((hlist m w).mpr hwm)
    · rw [hsus m' w hw, hprio]
      split_ifs with hot
      · exact hothers m' w hm' (hot ▸ ho) ((hlist m' w).mpr hw)
      · exact hi m' w o hw ho

/-- **One call** keeps the inheritance exactly if it meets the condition. -/
theorem step_inherits_iff (i : MutexInv c s q) (hi : Inherits s) (hs : Step c s l s') :
    Inherits s' ↔ InheritOk s l := by
  obtain ⟨q', i', h, -⟩ := step_effect i hs
  rw [i'.inherits_iff]
  rw [i.inherits_iff] at hi
  have hsus := fun m t => i.sched.suspended t m
  cases h with
  | other hquiet howner hprio hwait =>
      refine iff_of_true (fun m t o ht ho => ?_) ?_
      · have ht₀ : t ∈ q (.suspendThread m) := (hwait m).subset ht
        rw [howner] at ho
        obtain ⟨p, hp⟩ := i.base o ⟨m, ho⟩
        rw [hprio o (i.started o p hp), hprio t (by simp [hsus m t ht₀])]
        exact hi m t o ht₀ ho
      · cases l with
        | take m time => exact fun t o hb => absurd hb (hquiet t o)
        | release m => exact fun t hg => absurd hg (hquiet t)
        | sched l => trivial
  | @take m time t hrun hm howner hprio hwait =>
      refine iff_of_true (fun m' w o hw ho => ?_) fun t' o hb => ?_
      · rw [hwait] at hw
        rw [howner] at ho
        rw [hprio, hprio]
        split_ifs at ho with hmm
        · rw [hmm, (i.free m hm).2] at hw
          exact absurd hw List.not_mem_nil
        · exact hi m' w o hw ho
      · exact absurd (hm.symm.trans hb.owner) (by simp)
  | @block m time t o as bs hb howner hprio hq hwait =>
      exact hb.inherits_iff i hi howner hprio hq hwait
  | @giveUp m t hg howner hprio hwait => exact hg.inherits_iff i hi howner hprio hwait

/-- **Priority inheritance.** In a run whose calls all meet the condition, the owner of each mutex is at least as urgent
as every thread that waits for it; and the next call keeps this exactly if it meets the condition as well. -/
theorem priority_inherited (c : SchedCfg) (prio : T → Nat) (sys cln : T → Bool) (flag : M → IpcFlag)
    (ls : List (Call T M)) (s : MutexSys T M) (hp : ∀ t, prio t < c.prioMax)
    (hrun : Run (Guarded InheritOk (Step c)) (init (fun t => rtThreadInit (prio t) (sys t) (cln t)) flag) ls s) :
    Inherits s ∧ ∀ l s', Step c s l s' → (Inherits s' ↔ InheritOk s l) := by
  obtain ⟨⟨q, i⟩, hi⟩ : (∃ q, MutexInv c s q) ∧ Inherits s := by
    have i₀ : MutexInv c (init (fun t => rtThreadInit (prio t) (sys t) (cln t)) flag) fun _ => [] := mutexInv_init hp
    refine hrun.guarded (I := fun s => (∃ q, MutexInv c s q) ∧ Inherits s) ⟨⟨_, i₀⟩, ?_⟩ ?_
    · rw [i₀.inherits_iff]
      intro m t o ht
      exact absurd ht List.not_mem_nil
    · rintro s l s' ⟨⟨q, i⟩, hi⟩ hok hs
      obtain ⟨q', i', -, -⟩ := step_effect i hs
      exact ⟨⟨q', i'⟩, (step_inherits_iff i hi hs).mpr hok⟩
  exact ⟨hi, fun l s' hs => step_inherits_iff i hi hs⟩

/-- The condition holds as long as nobody waits. -/
theorem inheritOk_of_empty (h : ∀ m, s.sched.listIsEmpty (.suspendThread m)) : InheritOk s l := by
  have hnone : ∀ m t, ¬ s.sched.links.OnList (.suspendThread m) t := by
    rintro m t ⟨es, hseg, ht⟩
    have hnil : es = [] := hseg.unique (show Links.Seg s.sched.links.next _ [] _ from h m)
    exact absurd (hnil ▸ ht) List.not_mem_nil
  cases l with
  | take m time => exact fun t o _ _ m' o' hon => absurd hon (hnone m' o)
  | release m => exact fun t _ => ⟨fun m' w _ _ hw => absurd hw (hnone m' w), fun w w' _ hw => absurd hw (hnone m w')⟩
  | sched l => trivial

/-- Three threads of the priorities 25, 20 and 10, and a mutex with a FIFO list. -/
def threeThreads : MutexSys (Fin 3) Unit :=
  init (fun t => rtThreadInit (if t = 0 then 25 else if t = 1 then 20 else 10) false false) fun _ => .fifo

/-- Thread 0 owns the mutex, and thread 1 waits for it. -/
def oneWaits : List (Call (Fin 3) Unit) :=
  [.sched (.startup 0), .sched .schedulerStart, .take () (-1), .sched (.startup 1), .take () (-1)]

/-- Then thread 2 waits as well, and thread 0 gives the mutex up. -/
def twoWait : List (Call (Fin 3) Unit) :=
  [.sched (.startup 0), .sched .schedulerStart, .take () (-1), .sched (.startup 1), .take () (-1), .sched .schedule,
    .sched (.startup 2), .take () (-1), .sched .schedule, .release ()]

/-- The owner is boosted to the priority of the thread that waits. -/
theorem priority_inherited_run : ∃ s : MutexSys (Fin 3) Unit, s.sched.firstEntry (.suspendThread ()) = some 1 ∧
    s.prio 0 = 20 ∧ Inherits s ∧ ∀ l s', Step ⟨32, by decide⟩ s l s' → (Inherits s' ↔ InheritOk s l) := by
  have hend : (oneWaits.foldlM (fun s l => if ∀ m, s.sched.listIsEmpty (.suspendThread m) then
      s.exec ⟨32, by decide⟩ l else none) threeThreads).map
      (fun s => (s.sched.firstEntry (.suspendThread ()), s.prio 0)) = some (some 1, 20) := by decide +kernel
  obtain ⟨s, hs, hend⟩ := Option.map_eq_some_iff.mp hend
  obtain ⟨hfirst, hprio⟩ := Prod.mk.inj hend
  have hrun : Run (Guarded InheritOk (Step ⟨32, by decide⟩)) threeThreads oneWaits s := by
    refine Run.of_foldlM (fun s l s' h => ?_) hs
    by_cases he : ∀ m, s.sched.listIsEmpty (.suspendThread m)
    · exact ⟨inheritOk_of_empty he, by rwa [if_pos he] at h⟩
    · rw [if_neg he] at h
      exact absurd h (by simp)
  exact ⟨s, hfirst, hprio, priority_inherited ⟨32, by decide⟩ (fun t => if t = 0 then 25 else if t = 1 then 20 else 10)
    (fun _ => false) (fun _ => false) (fun _ => .fifo) oneWaits s (by decide) hrun⟩

/-- The mutex goes to thread 1 with priority 20, and thread 2 with priority 10 goes on waiting. -/
theorem priority_not_inherited : ¬ ∀ (c : SchedCfg) (prio : Fin 3 → Nat) (sys cln : Fin 3 → Bool)
    (flag : Unit → IpcFlag) (ls : List (Call (Fin 3) Unit)) (s : MutexSys (Fin 3) Unit), (∀ t, prio t < c.prioMax) →
    Run (Step c) (init (fun t => rtThreadInit (prio t) (sys t) (cln t)) flag) ls s → Inherits s := by
  intro hall
  have hend : (twoWait.foldlM (exec ⟨32, by decide⟩) threeThreads).map (fun s =>
      (s.sched.links.next (.head (.suspendThread ())), s.sched.links.next (.item 2), (s.mutex ()).owner, s.prio 1,
        s.prio 2)) = some (.item 2, .head (.suspendThread ()), some 1, 20, 10) := by decide +kernel
  obtain ⟨s, hs, hend⟩ := Option.map_eq_some_iff.mp hend
  simp only [Prod.mk.injEq] at hend
  obtain ⟨hfirst, hlast, howner, hprio₁, hprio₂⟩ := hend
  have hrun : Run (Step ⟨32, by decide⟩) threeThreads twoWait s := Run.of_foldlM (fun _ _ _ h => h) hs
  obtain ⟨o, ho, hle⟩ := hall ⟨32, by decide⟩ (fun t => if t = 0 then 25 else if t = 1 then 20 else 10) (fun _ => false)
    (fun _ => false) (fun _ => .fifo) twoWait s (by decide) hrun () 2 ⟨[2], ⟨hfirst, hlast⟩, List.mem_singleton.mpr rfl⟩
  obtain rfl : 1 = o := Option.some.inj (howner.symm.trans ho)
  rw [hprio₁, hprio₂] at hle
  exact absurd hle (by decide)

end CoreLink.RtThread.MutexSys
