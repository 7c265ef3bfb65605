/-
# `CoreLink.RtThread.TimerCalls` — what `rt_timer_start`, `rt_timer_stop` and `rt_timer_control` do to the lists.

`Holds c s q` says that the rows of `s` are two skip lists with the timers `q`, and that each timer is in the list
that its `RT_TIMER_FLAG_SOFT_TIMER` names. Nothing is said about the order of the timers: `rt_timer_start` keeps the
rows whole wherever its search stops. One lemma per function says what it leaves.
-/
import CoreLink.RtThread.Timer

namespace CoreLink.RtThread

open CoreLink.Lib

namespace Timers

variable {T : Type*} {c : TimerCfg} {s s' : Timers T} {t u : T} {q : Nat → TimerList → List T} {b : Bool}

/-! ## The fields a function writes -/

/-- `RT_TIMER_FLAG_SOFT_TIMER` is never written, so a timer's list stays the same. -/
theorem listOf_congr (h : (s'.timer u).soft = (s.timer u).soft) : s'.listOf c u = s.listOf c u := by
  rw [listOf, listOf, h]

section Fields

variable [DecidableEq T]

@[simp] theorem setActivated_rows : (s.setActivated t b).rows = s.rows := rfl

@[simp] theorem setActivated_tick : (s.setActivated t b).tick = s.tick := rfl

@[simp] theorem setActivated_randomNr : (s.setActivated t b).randomNr = s.randomNr := rfl

@[simp] theorem setActivated_timer :
    (s.setActivated t b).timer = Function.update s.timer t { s.timer t with activated := b } := rfl

@[simp] theorem modifyTimer_timer {f : Timer → Timer} :
    (s.modifyTimer t f).timer = Function.update s.timer t (f (s.timer t)) := rfl

@[simp] theorem setTimeout_rows : (s.setTimeout t).rows = s.rows := rfl

@[simp] theorem setTimeout_timer : (s.setTimeout t).timer =
    Function.update s.timer t { s.timer t with timeoutTick := s.tick + (s.timer t).initTick } := rfl

@[simp] theorem setTimeout_tick : (s.setTimeout t).tick = s.tick := rfl

@[simp] theorem timerRemove_timer : (s.timerRemove c t).timer = s.timer := rfl

@[simp] theorem timerRemove_tick : (s.timerRemove c t).tick = s.tick := rfl

@[simp] theorem insertRow_timer {rowHead : Nat → Node TimerList T} {r : Nat} :
    (s.insertRow rowHead t r).timer = s.timer := rfl

@[simp] theorem listOf_setActivated : (s.setActivated t b).listOf c u = s.listOf c u := by
  refine listOf_congr ?_
  rw [setActivated_timer, Function.update_apply]
  split_ifs with hut
  · rw [hut]
  · rfl

@[simp] theorem listOf_setTimeout : (s.setTimeout t).listOf c u = s.listOf c u := by
  refine listOf_congr ?_
  rw [setTimeout_timer, Function.update_apply]
  split_ifs with hut
  · rw [hut]
  · rfl

@[simp] theorem listOf_timerRemove : (s.timerRemove c t).listOf c u = s.listOf c u := rfl

/-- `rt_timer_control` writes neither a list nor the flags that count there. -/
theorem rtTimerControl_spec (s : Timers T) (t : T) (cmd : TimerCmd) :
    (s.rtTimerControl t cmd).2.rows = s.rows ∧ ∀ u, ((s.rtTimerControl t cmd).2.timer u).soft = (s.timer u).soft ∧
      ((s.rtTimerControl t cmd).2.timer u).activated = (s.timer u).activated := by
  have hmodify : ∀ (f : Timer → Timer), (∀ tm, (f tm).soft = tm.soft ∧ (f tm).activated = tm.activated) →
      ∀ u, ((s.modifyTimer t f).timer u).soft = (s.timer u).soft ∧
        ((s.modifyTimer t f).timer u).activated = (s.timer u).activated := by
    intro f hf u
    rw [modifyTimer_timer, Function.update_apply]
    split_ifs with hut
    · rw [hut]
      exact hf _
    · exact ⟨rfl, rfl⟩
  cases cmd with
  | getTime => exact ⟨rfl, fun u => ⟨rfl, rfl⟩⟩
  | setTime time => exact ⟨rfl, hmodify (fun tm => { tm with initTick := time }) fun tm => ⟨rfl, rfl⟩⟩
  | setOneshot => exact ⟨rfl, hmodify (fun tm => { tm with periodic := false }) fun tm => ⟨rfl, rfl⟩⟩
  | setPeriodic => exact ⟨rfl, hmodify (fun tm => { tm with periodic := true }) fun tm => ⟨rfl, rfl⟩⟩

end Fields

/-! ## The lists -/

/-- **The rows hold the timers `q`.** Row `r` of the list `l` holds the timers `q r l`, and a timer is on no other
list than its own. -/
structure Holds (c : TimerCfg) (s : Timers T) (q : Nat → TimerList → List T) : Prop where
  rep : SkipRep c.level s.rows q
  own : ∀ t l, t ∈ q (c.level - 1) l → l = s.listOf c t

theorem holds_init (tick : Tick) (randomNr : BitVec 32) (timer : T → Timer) :
    Holds c (init tick randomNr timer) fun _ _ => [] :=
  ⟨SkipRep.init, fun _ _ h => by simp at h⟩

namespace Holds

theorem bottom (h : Holds c s q) : Links.Rep (s.bottom c) (q (c.level - 1)) :=
  h.rep.rep _ (Nat.sub_lt c.level_pos Nat.one_pos)

/-- Being linked is being on the bottom row. -/
theorem linked_iff (h : Holds c s q) : s.Linked c t ↔ t ∈ q (c.level - 1) (s.listOf c t) := h.bottom.onList_iff

theorem mem_iff (h : Holds c s q) {l : TimerList} : t ∈ q (c.level - 1) l ↔ s.Linked c t ∧ l = s.listOf c t := by
  rw [h.linked_iff]
  refine ⟨fun hm => ?_, fun ⟨hm, hl⟩ => hl ▸ hm⟩
  have hl := h.own t l hm
  exact ⟨hl ▸ hm, hl⟩

/-- `firstTimer` is the first timer of the list. -/
theorem firstTimer_eq (h : Holds c s q) (l : TimerList) : s.firstTimer c l = (q (c.level - 1) l).head? := by
  have hs := h.bottom.seg l
  rw [firstTimer]
  cases hq : q (c.level - 1) l with
  | nil =>
    rw [hq] at hs
    rw [show (s.bottom c).next (.head l) = .head l from hs]
    rfl
  | cons t ts =>
    rw [hq] at hs
    rw [hs.1]
    rfl

/-- The lists depend on the rows and on `RT_TIMER_FLAG_SOFT_TIMER` only. -/
theorem congr (h : Holds c s q) (hrows : s'.rows = s.rows) (hsoft : ∀ u, (s'.timer u).soft = (s.timer u).soft) :
    Holds c s' q where
  rep := hrows ▸ h.rep
  own u l hu := by
    rw [listOf_congr (hsoft u)]
    exact h.own u l hu

variable [DecidableEq T]

theorem setActivated (h : Holds c s q) (t : T) (b : Bool) : Holds c (s.setActivated t b) q where
  rep := h.rep
  own u l hu := by
    rw [listOf_setActivated]
    exact h.own u l hu

theorem setTimeout (h : Holds c s q) (t : T) : Holds c (s.setTimeout t) q where
  rep := h.rep
  own u l hu := by
    rw [listOf_setTimeout]
    exact h.own u l hu

/-- **`_rt_timer_remove`** takes the timer off its list, if it is on it. -/
theorem timerRemove (h : Holds c s q) (t : T) : Holds c (s.timerRemove c t) fun r l => (q r l).erase t where
  rep := h.rep.remove t
  own u l hu := h.own u l (List.mem_of_mem_erase hu)

theorem not_mem_erase (h : Holds c s q) (l : TimerList) : t ∉ (q (c.level - 1) l).erase t := fun hm =>
  (h.bottom.nodup l).not_mem_erase hm

end Holds

section Start

variable [DecidableEq T]

/-- The upper rows that get the timer are the ones from some height on. -/
theorem insertUpper_eq (rowHead : Nat → Node TimerList T) (t : T) (r : Nat) (tstNr : BitVec 32) (s : Timers T) :
    ∃ ht ≤ r, insertUpper c rowHead t r tstNr s =
      { s with rows := fun k => if ht ≤ k ∧ k < r then (s.rows k).insertAfter (rowHead k) (.item t) else s.rows k } := by
  induction r generalizing tstNr s with
  | zero => exact ⟨0, le_rfl, by simp [insertUpper]⟩
  | succ r ih =>
    rw [insertUpper]
    split_ifs with hbits
    · obtain ⟨ht, hle, he⟩ := ih (tstNr >>> ((c.mask + 1) >>> 1)) (s.insertRow rowHead t r)
      refine ⟨ht, by omega, ?_⟩
      rw [he]
      simp only [insertRow, Timers.mk.injEq, and_self, and_true]
      funext k
      by_cases hk : k = r
      · subst hk
        rw [if_neg (by omega), Function.update_self, if_pos ⟨hle, by omega⟩]
      · rw [Function.update_of_ne hk]
        exact if_congr (by omega) rfl rfl
    · refine ⟨r + 1, le_rfl, ?_⟩
      simp only [show ∀ k, ¬ (r + 1 ≤ k ∧ k < r + 1) from fun k => by omega, if_false]

/-- `linkTimer` puts the timer on the bottom row and on the rows above it from some height on. -/
theorem linkTimer_eq [Fintype T] (rowHead : Nat → Node TimerList T) (s : Timers T) (t : T) :
    ∃ ht ≤ c.level - 1, s.linkTimer c t rowHead =
      Timers.setActivated
        { s with
          rows := fun r => if ht ≤ r ∧ r < c.level then (s.rows r).insertAfter (rowHead r) (.item t) else s.rows r
          randomNr := s.randomNr + 1 } t true := by
  have hl := c.level_pos
  obtain ⟨ht, hle, he⟩ := insertUpper_eq (c := c) rowHead t (c.level - 1) (s.randomNr + 1)
    (insertRow { s with randomNr := s.randomNr + 1 } rowHead t (c.level - 1))
  refine ⟨ht, hle, ?_⟩
  rw [linkTimer]
  refine congrArg (Timers.setActivated · t true) ?_
  refine he.trans ?_
  simp only [insertRow, Timers.mk.injEq, and_self, and_true]
  funext r
  by_cases hr : r = c.level - 1
  · subst hr
    rw [if_neg (by omega), Function.update_self, if_pos ⟨hle, by omega⟩]
  · rw [Function.update_of_ne hr]
    exact if_congr (by omega) rfl rfl

/-- **What `rt_timer_start` leaves.** The timer is activated, its deadline is `init_tick` from now, and it is put
where the search stops among the timers of its list; no other timer is touched. -/
structure Started (c : TimerCfg) (s : Timers T) (q : Nat → TimerList → List T) (t : T) (s' : Timers T)
    (q' : Nat → TimerList → List T) : Prop where
  holds : Holds c s' q'
  timer : s'.timer = Function.update s.timer t
    { s.timer t with activated := true, timeoutTick := s.tick + (s.timer t).initTick }
  tick : s'.tick = s.tick
  place : ∃ as bs, (q (c.level - 1) (s.listOf c t)).erase t = as ++ bs ∧ Cut (s'.later t) as bs ∧
    q' (c.level - 1) (s.listOf c t) = as ++ t :: bs
  other : ∀ l, l ≠ s.listOf c t → q' (c.level - 1) l = (q (c.level - 1) l).erase t

theorem rtTimerStart_spec [Fintype T] (h : Holds c s q) (t : T)
    (hassert : c.debug = true → (s.timer t).initTick < halfTickMax) :
    ∃ s' q', s.rtTimerStart c t = some s' ∧ Started c s q t s' q' := by
  have hlast : c.level - 1 < c.level := Nat.sub_lt c.level_pos Nat.one_pos
  -- the state when the search begins
  have h₁ : Holds c (((s.timerRemove c t).setActivated t false).setTimeout t) fun r l => (q r l).erase t :=
    ((h.timerRemove t).setActivated t false).setTimeout t
  generalize hs₁ : ((s.timerRemove c t).setActivated t false).setTimeout t = s₁ at h₁
  have htimer : s₁.timer = Function.update s.timer t
      { s.timer t with activated := false, timeoutTick := s.tick + (s.timer t).initTick } := by
    simp [← hs₁]
  have hlist : ∀ u, s₁.listOf c u = s.listOf c u := by simp [← hs₁]
  obtain ⟨as, bs, hrows⟩ := h₁.rep.search (s₁.later t) (s.listOf c t)
  have hheads : s₁.rowHeads c t = some fun r =>
      (search s₁.rows (s.listOf c t) (s₁.later t) (Fintype.card T + 1) r).getD (.head (s.listOf c t)) := by
    rw [rowHeads]
    simp only [hlist, (hrows _ hlast).2.2.1, Option.map_some]
  generalize hrh : (fun r => (search s₁.rows (s.listOf c t) (s₁.later t) (Fintype.card T + 1) r).getD
    (.head (s.listOf c t))) = rowHead at hheads
  have hrowHead : ∀ r < c.level, rowHead r = lastNode (s.listOf c t) (as r) := fun r hr => by
    rw [← hrh]
    simp only [(hrows r hr).2.2.1, Option.getD_some]
  obtain ⟨ht, hle, hlink⟩ := linkTimer_eq (c := c) rowHead s₁ t
  have hins := h₁.rep.insertAfter (fun r hr => ⟨(hrows r hr).1, (hrows r hr).2.1, (hrows r hr).2.2.2⟩)
    (fun l => h.not_mem_erase l) ht
  have hstart : s.rtTimerStart c t = some (s₁.linkTimer c t rowHead) := by
    have hcond : (c.debug && !decide ((s.timer t).initTick < halfTickMax)) = false := by
      cases hd : c.debug with
      | false => rfl
      | true => simp [hassert hd]
    rw [rtTimerStart, setActivated_timer, Function.update_self, timerRemove_timer, hcond]
    simp only [Bool.false_eq_true, if_false, hs₁, hheads, Option.map_some]
  have hlater : (s₁.linkTimer c t rowHead).later t = s₁.later t := by
    funext u
    simp only [later, hlink, setActivated_timer, Function.update_self, Function.update_apply]
    split_ifs with hut
    · rw [hut]
    · rfl
  have hsoft : ∀ u, (s₁.linkTimer c t rowHead).listOf c u = s.listOf c u := fun u => by
    rw [hlink, listOf_setActivated]
    exact hlist u
  have hrep : (s₁.linkTimer c t rowHead).rows = fun r => if ht ≤ r ∧ r < c.level then
      (s₁.rows r).insertAfter (lastNode (s.listOf c t) (as r)) (.item t) else s₁.rows r := by
    rw [hlink, setActivated_rows]
    funext r
    refine ite_congr rfl (fun hr => ?_) fun _ => rfl
    show (s₁.rows r).insertAfter (rowHead r) (.item t) = _
    rw [hrowHead r hr.2]
  refine ⟨_, fun r => if ht ≤ r then
      Function.update (fun l => (q r l).erase t) (s.listOf c t) (as r ++ t :: bs r) else fun l => (q r l).erase t,
    hstart, ⟨hrep ▸ hins, ?_⟩, ?_, ?_, ?_, ?_⟩
  · intro u l hu
    rw [hsoft]
    rw [if_pos hle, Function.update_apply] at hu
    split_ifs at hu with hl
    · -- in the timer's own list, a timer from before or the new one
      have hmem : u = t ∨ u ∈ (q (c.level - 1) l).erase t := by
        rw [hl, (hrows _ hlast).1]
        simpa [or_left_comm] using hu
      rcases hmem with rfl | hu
      · exact hl
      · exact h.own u l (List.mem_of_mem_erase hu)
    · exact h.own u l (List.mem_of_mem_erase hu)
  · rw [hlink, setActivated_timer, htimer, Function.update_self, Function.update_idem]
  · rw [hlink, setActivated_tick, ← hs₁]
    rfl
  · refine ⟨as (c.level - 1), bs (c.level - 1), (hrows _ hlast).1, ?_, ?_⟩
    · rw [hlater]
      exact (hrows _ hlast).2.1
    · rw [if_pos hle, Function.update_self]
  · intro l hl
    rw [if_pos hle, Function.update_of_ne hl]

end Start

/-! ## Which timers are linked -/

section Linked

/-- Being linked depends on the rows and on `RT_TIMER_FLAG_SOFT_TIMER` only. -/
theorem linked_congr (hrows : s'.rows = s.rows) (hsoft : (s'.timer u).soft = (s.timer u).soft) :
    s'.Linked c u ↔ s.Linked c u := by
  rw [Linked, Linked, listOf_congr hsoft, Timers.bottom, Timers.bottom, hrows]

/-- The first timer of a list is linked in it. -/
theorem Holds.linked_of_firstTimer (h : Holds c s q) {l : TimerList} (hf : s.firstTimer c l = some t) :
    s.Linked c t ∧ l = s.listOf c t := by
  rw [h.firstTimer_eq] at hf
  exact h.mem_iff.mp (List.mem_of_mem_head? hf)

variable [DecidableEq T]

@[simp] theorem linked_setActivated : (s.setActivated t b).Linked c u ↔ s.Linked c u := by
  refine linked_congr rfl ?_
  rw [setActivated_timer, Function.update_apply]
  split_ifs with hut
  · rw [hut]
  · rfl

/-- `_rt_timer_remove` unlinks the timer and no other. -/
theorem Holds.linked_timerRemove (h : Holds c s q) : (s.timerRemove c t).Linked c u ↔ u ≠ t ∧ s.Linked c u := by
  rw [(h.timerRemove t).linked_iff, listOf_timerRemove, (h.bottom.nodup _).mem_erase_iff, h.linked_iff]

/-- `rt_timer_start` moves no timer to another list. -/
theorem Started.listOf {q' : Nat → TimerList → List T} (hst : Started c s q t s' q') (u : T) :
    s'.listOf c u = s.listOf c u := by
  refine listOf_congr ?_
  rw [hst.timer, Function.update_apply]
  split_ifs with hut
  · rw [hut]
  · rfl

/-- `rt_timer_start` links the timer and no other. -/
theorem Started.linked {q' : Nat → TimerList → List T} (hst : Started c s q t s' q') (h : Holds c s q) :
    s'.Linked c u ↔ u = t ∨ s.Linked c u := by
  rw [hst.holds.linked_iff, h.linked_iff, hst.listOf]
  have hnd := h.bottom.nodup (s.listOf c u)
  by_cases hl : s.listOf c u = s.listOf c t
  · obtain ⟨as, bs, he, -, hq'⟩ := hst.place
    have hmem : u ∈ (q (c.level - 1) (s.listOf c t)).erase t ↔ u ∈ as ++ bs := by rw [he]
    rw [hl] at hnd ⊢
    rw [hnd.mem_erase_iff, List.mem_append] at hmem
    rw [hq', List.mem_append, List.mem_cons]
    by_cases hut : u = t
    · simp [hut]
    · simp only [hut, false_or, ne_eq, not_false_eq_true, true_and] at hmem ⊢
      exact hmem.symm
  · have hut : u ≠ t := fun he => hl (by rw [he])
    rw [hst.other _ hl, hnd.mem_erase_iff]
    simp [hut]

/-- What a call of `rt_timer_start` that returns has done. -/
theorem started_of_start [Fintype T] (h : Holds c s q) (hs : s.rtTimerStart c t = some s') :
    ∃ q', Started c s q t s' q' := by
  have hassert : c.debug = true → (s.timer t).initTick < halfTickMax := by
    intro hd
    by_contra hlt
    rw [rtTimerStart, setActivated_timer, Function.update_self, timerRemove_timer, hd] at hs
    simp [hlt] at hs
  obtain ⟨s₁, q', hs₁, hst⟩ := rtTimerStart_spec h t hassert
  obtain rfl := Option.some.inj (hs₁.symm.trans hs)
  exact ⟨q', hst⟩

end Linked

end Timers

end CoreLink.RtThread
