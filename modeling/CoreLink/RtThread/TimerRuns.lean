/-
# `CoreLink.RtThread.TimerRuns` — runs of the hard timers.

Threads start and stop timers, and every advance of the tick is followed by a check. The deadlines in the lists can
only be compared while they are within a window; `InWindow` says which advances keep them there, and inside it every
run is a run of the abstract timers.
-/
import CoreLink.RtThread.TimerOrder

namespace CoreLink.RtThread

open CoreLink.Lib

/-! ## The runs -/

section Runs

variable {T : Type*} [DecidableEq T] [Fintype T] {c : TimerCfg} {time : T → Tick} {periodic : T → Bool}
  {s s' : Timers T} {a : TimerSpec T} {q : Nat → TimerList → List T}

/-- **The hard timers**, whose callbacks do not call the module: `rt_timer_start` and `rt_timer_stop` by threads, and
advances of the tick, each with the `rt_timer_check` that follows it. -/
def timerStep (c : TimerCfg) (s : Timers T) (l : TimerOp T) (s' : Timers T) : Prop :=
  match l with
  | .start t => s.rtTimerStart c t = some s'
  | .stop t => s' = (s.rtTimerStop c t).2
  | .advance d fired => ∃ fuel, Timers.rtTimerCheck c (fun _ s => some s) fuel
      { s with tick := s.tick + BitVec.ofNat 32 d } = some (fired, s')

/-- The window of an advance. It is by less than `RT_TICK_MAX / 2`, and a started periodic timer that is then overdue
by `o` ticks has an `init_tick` of at most `RT_TICK_MAX / 2 + 2 - o`. -/
def InWindow (s : Timers T) : TimerOp T → Prop
  | .advance d _ => d < halfTickMax.toNat ∧ ∀ t, (s.timer t).activated = true → (s.timer t).periodic = true →
      let overdue := s.tick + BitVec.ofNat 32 d - (s.timer t).timeoutTick
      overdue < halfTickMax → overdue.toNat + (s.timer t).initTick.toNat ≤ halfTickMax.toNat + 2
  | _ => True

instance (s : Timers T) (l : TimerOp T) : Decidable (InWindow s l) := by
  cases l <;> unfold InWindow <;> infer_instance

/-- **The lists between two checks.** A timer is linked iff it is pending, and its remaining time is its deadline's;
every row is a sublist of the one below, and the bottom row is in the order of the deadlines and, where these are
equal, of the starts. -/
structure OnTime (c : TimerCfg) (s : Timers T) (a : TimerSpec T) : Prop where
  linked : ∀ t, s.Linked c t ↔ (a.pending t).isSome
  remaining : ∀ t p, a.pending t = some p →
    a.now ≤ p.1 ∧ ((s.timer t).timeoutTick - s.tick).toNat = p.1 - a.now
  rows : ∃ q, SkipRep c.level s.rows q ∧ (q (c.level - 1) .hard).Pairwise a.Before

omit [DecidableEq T] [Fintype T] in
/-- Between two checks no deadline has passed. -/
theorem Tracks.onTime (h : Tracks c time periodic s a q) (hahead : ∀ t p, a.pending t = some p → a.now ≤ p.1) :
    OnTime c s a where
  linked _ := h.linked_iff
  remaining t p hp := by
    obtain ⟨h1, h2, -⟩ := h.deadline t p hp
    have h3 := h.small t
    have h4 := hahead t p hp
    refine ⟨h4, ?_⟩
    rw [h1, h.tick, tick_sub_of_le h4 (by omega)]
  rows := ⟨q, h.holds.rep, h.sorted⟩

/-- More fuel does not change what the check does. -/
theorem Timers.checkLoop_mono {timeoutFunc : T → Timers T → Option (Timers T)} {fuel fuel' : Nat} {tick : Tick}
    {r : List T × Timers T} (h : Timers.checkLoop c timeoutFunc fuel tick s = some r) (hle : fuel ≤ fuel') :
    Timers.checkLoop c timeoutFunc fuel' tick s = some r := by
  induction fuel generalizing fuel' tick s r with
  | zero => cases h
  | succ fuel ih =>
    obtain ⟨fuel', rfl⟩ := Nat.exists_eq_add_one_of_ne_zero (by omega : fuel' ≠ 0)
    rw [Timers.checkLoop] at h ⊢
    cases hf : s.firstTimer c .hard with
    | none => simpa only [hf] using h
    | some t =>
      simp only [hf] at h ⊢
      split_ifs at h ⊢ with hd
      · simp only [Option.bind_eq_some_iff, Option.map_eq_some_iff] at h ⊢
        obtain ⟨s₁, h₁, s₂, h₂, r', h₃, hr⟩ := h
        exact ⟨s₁, h₁, s₂, h₂, r', ih h₃ (by omega), hr⟩
      · exact h

/-- What the check does does not depend on the fuel. -/
theorem Timers.checkLoop_unique {timeoutFunc : T → Timers T → Option (Timers T)} {fuel fuel' : Nat} {tick : Tick}
    {r r' : List T × Timers T} (h : Timers.checkLoop c timeoutFunc fuel tick s = some r)
    (h' : Timers.checkLoop c timeoutFunc fuel' tick s = some r') : r = r' := by
  have h1 := Timers.checkLoop_mono h (le_max_left fuel fuel')
  have h2 := Timers.checkLoop_mono h' (le_max_right fuel fuel')
  exact Option.some.inj (h1.symm.trans h2)

/-- The lists track the abstract timers, and no deadline has passed. -/
def Ahead (c : TimerCfg) (time : T → Tick) (periodic : T → Bool) (s : Timers T) (a : TimerSpec T) : Prop :=
  (∃ q, Tracks c time periodic s a q) ∧ ∀ t p, a.pending t = some p → a.now ≤ p.1

/-- **An advance inside the window**: the check returns and fires what is due, in order. -/
theorem Ahead.advance (h : Ahead c time periodic s a) (hpos : ∀ t, periodic t = true → 0 < (time t).toNat) {d : Nat}
    {fired : List T} (hwin : InWindow s (.advance d fired)) :
    ∃ fuel fired s', Timers.rtTimerCheck c (fun _ s => some s) fuel { s with tick := s.tick + BitVec.ofNat 32 d }
        = some (fired, s') ∧
      (a.advance d).Fires fired ∧
      Ahead c time periodic s' (fired.foldl (TimerSpec.expire (fun t => (time t).toNat) periodic) (a.advance d)) := by
  classical
  obtain ⟨⟨q, h⟩, hahead⟩ := h
  obtain ⟨hd, hper⟩ := hwin
  rw [show halfTickMax.toNat = 2 ^ 31 - 1 by decide] at hd hper
  have h' := h.advance d
  -- the due timers are in front
  have hcut := filter_append_filter_of_pairwise (p := fun t => decide ((a.advance d).Due t)) (l := q (c.level - 1) .hard)
    (h'.sorted.imp fun hb hdue => by
      rw [decide_eq_true_iff] at hdue ⊢
      exact hb.due hdue)
  have hover : ∀ t p, (a.advance d).pending t = some p → (a.advance d).now < p.1 + (2 ^ 31 - 1) := by
    intro t p hp
    have h1 := hahead t p hp
    show a.now + d < _
    omega
  have hwin : ∀ t ∈ (q (c.level - 1) .hard).filter fun t => decide ((a.advance d).Due t), periodic t = true →
      ∀ p, (a.advance d).pending t = some p → (a.advance d).now + (time t).toNat ≤ p.1 + (2 ^ 31 + 1) := by
    intro t ht hp p hpend
    have hlt := hover t p hpend
    have hle := hahead t p hpend
    obtain ⟨hD, -, -⟩ := h.deadline t p hpend
    have hD' : p.1 ≤ a.now + d := by
      obtain ⟨p', hp', hle'⟩ := of_decide_eq_true (List.mem_filter.mp ht).2
      obtain rfl : p = p' := Option.some.inj (hpend.symm.trans hp')
      exact hle'
    have hover' : (s.tick + BitVec.ofNat 32 d - (s.timer t).timeoutTick).toNat = a.now + d - p.1 := by
      rw [hD, h.tick, ← BitVec.ofNat_add, tick_sub_of_le hD' (by omega)]
    have hact : (s.timer t).activated = true := by
      rw [h.activated, show a.pending t = some p from hpend]
      rfl
    have h2 := hper t hact ((h.made t).2.trans hp)
    simp only [lt_halfTickMax_iff, hover', (h.made t).1] at h2
    show a.now + d + _ ≤ _
    change a.now + d < _ at hlt
    omega
  obtain ⟨s', q', hloop, htr, hnone⟩ := h'.checkLoop hpos hcut.symm
    (fun t ht => by simpa using (List.mem_filter.mp ht).2) (fun t ht => by simpa using (List.mem_filter.mp ht).2)
    hover hwin (Nat.lt_succ_self _)
  refine ⟨_, _, s', hloop, ⟨fun t => ?_, h'.sorted.sublist List.filter_sublist⟩, ⟨q', htr⟩, fun t p hp => ?_⟩
  · rw [List.mem_filter, decide_eq_true_iff, h'.pending]
    refine and_iff_right_of_imp ?_
    rintro ⟨p, hp, -⟩
    rw [hp]
    rfl
  · exact Nat.le_of_not_le fun hle => hnone t ⟨p, hp, hle⟩

/-- **Each step inside the window is an abstract step.** -/
theorem Ahead.step (h : Ahead c time periodic s a) (hpos : ∀ t, periodic t = true → 0 < (time t).toNat)
    {l : TimerOp T} (hwin : InWindow s l) (hs : timerStep c s l s') :
    ∃ a', TimerSpec.Step (fun t => (time t).toNat) periodic a l a' ∧ Ahead c time periodic s' a' := by
  cases l with
  | start t =>
    obtain ⟨⟨q, h⟩, hahead⟩ := h
    have hsmall := h.small t
    obtain ⟨s₁, q', hs₁, htr, -⟩ := h.start t fun u p _ hp => by
      have := hahead u p hp
      omega
    obtain rfl : s₁ = s' := Option.some.inj (hs₁.symm.trans hs)
    refine ⟨_, rfl, ⟨q', htr⟩, fun u p hp => ?_⟩
    rw [TimerSpec.start_pending, Function.update_apply] at hp
    split_ifs at hp
    · obtain rfl := Option.some.inj hp
      exact Nat.le_add_right a.now _
    · exact hahead u p hp
  | stop t =>
    obtain ⟨⟨q, h⟩, hahead⟩ := h
    obtain rfl : s' = (s.rtTimerStop c t).2 := hs
    have hahead' : ∀ u p, (a.stop t).pending u = some p → (a.stop t).now ≤ p.1 := by
      intro u p hp
      rw [TimerSpec.stop_pending, Function.update_apply] at hp
      split_ifs at hp
      exact hahead u p hp
    refine ⟨a.stop t, rfl, ?_, hahead'⟩
    rw [Timers.rtTimerStop, h.activated]
    split_ifs with hact
    · exact ⟨_, h.remove t⟩
    · rw [TimerSpec.stop_of_none (Option.not_isSome_iff_eq_none.mp hact)]
      exact ⟨q, h⟩
  | advance d fired =>
    obtain ⟨fuel, hcheck⟩ := hs
    obtain ⟨fuel', fired', s₁, hcheck', hfires, hnext⟩ := h.advance hpos hwin
    obtain ⟨rfl, rfl⟩ := Prod.mk.inj (Timers.checkLoop_unique hcheck hcheck')
    exact ⟨_, ⟨hfires, rfl⟩, hnext⟩

omit [DecidableEq T] [Fintype T] in
/-- Initially no timer is linked. -/
theorem ahead_init (tick : Tick) (randomNr : BitVec 32) (hsmall : ∀ t, time t < halfTickMax) :
    Ahead c time periodic (Timers.init tick randomNr fun t => Timer.init (time t) (periodic t) false)
      (TimerSpec.init tick.toNat) := by
  refine ⟨⟨fun _ _ => [], Timers.holds_init _ _ _, fun t => ?_, fun t => ?_, List.Pairwise.nil, fun t p hp => ?_, ?_,
    fun t => rfl, fun t => ⟨rfl, rfl⟩, fun t => ?_⟩, fun t p hp => ?_⟩
  · simp [Timers.listOf, Timers.init, Timer.init]
  · simp [TimerSpec.init]
  · cases hp
  · simp [Timers.init, TimerSpec.init]
  · exact (lt_halfTickMax_iff _).mp (hsmall t)
  · cases hp

/-- Executes a step; `fuel` is for the check. -/
def timerExec (c : TimerCfg) (fuel : Nat) (s : Timers T) : TimerOp T → Option (Timers T)
  | .start t => s.rtTimerStart c t
  | .stop t => some (s.rtTimerStop c t).2
  | .advance d fired =>
      (Timers.rtTimerCheck c (fun _ s => some s) fuel { s with tick := s.tick + BitVec.ofNat 32 d }).bind
        fun r => if r.1 = fired then some r.2 else none

theorem timerStep_of_exec {fuel : Nat} {l : TimerOp T} (h : timerExec c fuel s l = some s') : timerStep c s l s' := by
  cases l with
  | start t => exact h
  | stop t => exact (Option.some.inj h).symm
  | advance d fired =>
    obtain ⟨r, hr, h⟩ := Option.bind_eq_some_iff.mp h
    split_ifs at h with hf
    obtain rfl := Option.some.inj h
    exact ⟨fuel, hf ▸ hr⟩

/-- **Hard timers fire in order and on time**, across any number of wrap-arounds of the tick: with deadlines and starts
counted without a bound, every run whose advances are inside the window is a run of the abstract timers, the lists are
at all times those of the pending timers in order, and the check of the next advance returns. -/
theorem timers_fire_on_time (c : TimerCfg) (tick : Tick) (randomNr : BitVec 32) (time : T → Tick) (periodic : T → Bool)
    (hsmall : ∀ t, time t < halfTickMax) (hpos : ∀ t, periodic t = true → 0 < (time t).toNat) {ls : List (TimerOp T)}
    {s : Timers T}
    (hrun : Run (Guarded InWindow (timerStep c))
      (Timers.init tick randomNr fun t => Timer.init (time t) (periodic t) false) ls s) :
    ∃ a, Run (TimerSpec.Step (fun t => (time t).toNat) periodic) (TimerSpec.init tick.toNat) ls a ∧ OnTime c s a ∧
      ∀ d fired, InWindow s (.advance d fired) → ∃ fired s', timerStep c s (.advance d fired) s' := by
  obtain ⟨a, hspec, h⟩ := hrun.simulate (R := Ahead c time periodic) (fun l => [l]) (ahead_init tick randomNr hsmall)
    fun s l s' a h hs => by
      obtain ⟨a', hstep, h'⟩ := h.step hpos hs.1 hs.2
      exact ⟨a', .single hstep, h'⟩
  rw [List.flatMap_singleton'] at hspec
  refine ⟨a, hspec, ?_, fun d fired hwin => ?_⟩
  · obtain ⟨⟨q, h⟩, hahead⟩ := h
    exact h.onTime hahead
  · obtain ⟨fuel, fired', s', hcheck, -⟩ := h.advance hpos hwin
    exact ⟨fired', s', fuel, hcheck⟩

end Runs

/-- Two timers: a periodic one with the longest time there is, and a one-shot one with the shortest. -/
def twoTimers : Timers (Fin 2) := Timers.init 0 0 fun t => Timer.init (if t.val = 0 then 2 ^ 31 - 2 else 1) (t.val = 0) false

/-- Both timers are fired, again and again, and the tick wraps around. -/
theorem timers_fire_on_time_run : ∃ s a,
    Run (TimerSpec.Step (T := Fin 2) (fun t => (if t.val = 0 then 2 ^ 31 - 2 else 1 : Tick).toNat) fun t => t.val = 0)
      (TimerSpec.init 0)
      [.start 0, .start 1, .advance 2 [1], .advance (2 ^ 31 - 4) [0], .advance (2 ^ 31 - 4) [], .start 1,
        .advance 4 [1, 0], .advance 4 []] a ∧ OnTime timerCfg s a := by
  have hrun : (([.start 0, .start 1, .advance 2 [1], .advance (2 ^ 31 - 4) [0], .advance (2 ^ 31 - 4) [], .start 1,
      .advance 4 [1, 0], .advance 4 []] : List (TimerOp (Fin 2))).foldlM
      (fun s l => if InWindow s l then timerExec timerCfg 4 s l else none) twoTimers).map (·.tick) = some 2 := by
    decide +kernel
  obtain ⟨s, hs, -⟩ := Option.map_eq_some_iff.mp hrun
  obtain ⟨a, ha, hon, -⟩ := timers_fire_on_time timerCfg 0 0 (fun t : Fin 2 => if t.val = 0 then 2 ^ 31 - 2 else 1)
    (fun t => t.val = 0) (by decide) (by decide) (Run.of_foldlM_guarded (fun _ _ _ => timerStep_of_exec) hs)
  exact ⟨s, a, ha, hon⟩

section Outside

variable {T : Type*} [DecidableEq T] [Fintype T] {c : TimerCfg} {s : Timers T} {q : Nat → TimerList → List T}

/-! ## Outside the window -/

/-- The check of the next advance returns, and fires the linked timers whose remaining time is up. -/
def FiresDue (c : TimerCfg) (s : Timers T) (d : Nat) : Prop :=
  ∃ fired s', timerStep c s (.advance d fired) s' ∧
    ∀ t, t ∈ fired ↔ s.Linked c t ∧ ((s.timer t).timeoutTick - s.tick).toNat ≤ d

/-- **A check that does not return.** A periodic timer with an `init_tick` of zero is due again as soon as it is
started again. -/
theorem checkLoop_of_initTick_zero {t : T} (h : s.Holds c q) (hq : q (c.level - 1) .hard = [t])
    (hhard : s.listOf c t = .hard) (hzero : (s.timer t).initTick = 0) (hper : (s.timer t).periodic = true)
    (hact : (s.timer t).activated = true) (hdue : s.due s.tick t = true) (fuel : Nat) :
    Timers.checkLoop c (fun _ s => some s) fuel s.tick s = none := by
  induction fuel generalizing s q with
  | zero => rfl
  | succ fuel ih =>
    have h₁ := (h.timerRemove t).setActivated t false
    have hrec : ((s.timerRemove c t).setActivated t false).timer t = { s.timer t with activated := false } := by simp
    obtain ⟨s', q', hs', hst⟩ := Timers.rtTimerStart_spec h₁ t fun _ => by
      rw [hrec, hzero]
      decide
    have hlist : ((s.timerRemove c t).setActivated t false).listOf c t = .hard := by simpa using hhard
    have htimer : s'.timer t = { s.timer t with activated := true, timeoutTick := s.tick } := by
      rw [hst.timer, Function.update_self, hrec]
      simp [hzero]
    have hq' : q' (c.level - 1) .hard = [t] := by
      obtain ⟨as, bs, he, -, hq'⟩ := hst.place
      rw [hlist, hq, List.erase_cons_head, List.erase_nil] at he
      obtain ⟨rfl, rfl⟩ := List.append_eq_nil_iff.mp he.symm
      rwa [hlist] at hq'
    have htick : s'.tick = s.tick := hst.tick
    have hnext := ih hst.holds hq' (by rw [← hhard]; exact Timers.listOf_congr (by rw [htimer]))
      (by rw [htimer]; exact hzero) (by rw [htimer]; exact hper) (by rw [htimer]) (by
        rw [Timers.due, htimer, htick, BitVec.sub_self]
        decide)
    rw [Timers.checkLoop, h.firstTimer_eq, hq]
    simp only [List.head?_cons, hdue, if_true, Option.bind_some, Timers.rearm, Timers.timerRemove_timer, hper, hact,
      Bool.and_self, hs', Timers.timerRemove_tick]
    rw [← htick, hnext]
    rfl

end Outside

/-! ## Three timers that are not on time -/

/-- One timer. -/
def oneTimer (time : Tick) (periodic : Bool) : Timers Unit := Timers.init 0 0 fun _ => Timer.init time periodic false

/-- What the bottom row holds, when the timer `t` is up, and what the check after an advance by `d` fires. -/
def observeCheck {T : Type*} [DecidableEq T] [Fintype T] (ts : List T) (t : T) (d : Nat) (s : Timers T) :
    Bool × Nat × Option (List T) :=
  (decide (Links.Seg (s.bottom timerCfg).next ((s.bottom timerCfg).next (.head .hard)) ts (.head .hard)),
    ((s.timer t).timeoutTick - s.tick).toNat,
    (Timers.rtTimerCheck timerCfg (fun _ s => some s) 4 { s with tick := s.tick + BitVec.ofNat 32 d }).map Prod.fst)

/-- Where the check does not fire a linked timer whose time is up, it does not fire what it should. -/
theorem not_firesDue {T : Type*} [DecidableEq T] [Fintype T] {s : Timers T} {ts fired : List T} {t : T} {d n : Nat}
    (hobs : observeCheck ts t d s = (true, n, some fired)) (hhard : s.listOf timerCfg t = .hard) (ht : t ∈ ts)
    (hn : n ≤ d) (hnot : t ∉ fired) : ¬ FiresDue timerCfg s d := by
  obtain ⟨hseg, hrem, hfired⟩ := by simpa [observeCheck] using hobs
  rintro ⟨fired', s', ⟨fuel, hcheck⟩, hiff⟩
  obtain ⟨s₁, hcheck₁⟩ := hfired
  obtain ⟨rfl, -⟩ := Prod.mk.inj (Timers.checkLoop_unique hcheck hcheck₁)
  refine hnot ((hiff t).mpr ⟨?_, by rw [BitVec.toNat_sub, hrem]; exact hn⟩)
  rw [Timers.Linked, hhard]
  exact ⟨ts, hseg, ht⟩

/-- **Three ways to miss a deadline.** The check does not return from a periodic timer with an `init_tick` of zero; an
advance by half the range makes a deadline look as if it were ahead; and a timer started late is overtaken by a
periodic one whose new deadline is more than half the range behind its own. -/
theorem timers_not_on_time :
    (∃ s, Run (timerStep timerCfg) (oneTimer 0 true) [.start ()] s ∧ ¬ FiresDue timerCfg s 1) ∧
    (∃ s, Run (timerStep timerCfg) (oneTimer 1 false) [.start ()] s ∧ ¬ FiresDue timerCfg s (2 ^ 31)) ∧
    ∃ s, Run (timerStep timerCfg) twoTimers [.start 0, .advance (2 ^ 31 - 3) [], .start 1] s ∧
      ¬ FiresDue timerCfg s 5 := by
  refine ⟨?_, ?_, ?_⟩
  · obtain ⟨s, q, hs, hst⟩ := Timers.rtTimerStart_spec (c := timerCfg)
      (Timers.holds_init 0 0 fun _ : Unit => Timer.init 0 true false) () fun _ => by decide
    have hlist : Timers.listOf timerCfg (oneTimer 0 true) () = .hard := rfl
    have htimer : s.timer () = { Timer.init 0 true false with activated := true, timeoutTick := 0 } := by
      rw [hst.timer, Function.update_self]
      rfl
    have hq : q (timerCfg.level - 1) .hard = [()] := by
      obtain ⟨as, bs, he, -, hq⟩ := hst.place
      obtain ⟨rfl, rfl⟩ := List.append_eq_nil_iff.mp he.symm
      exact hq
    refine ⟨s, .single hs, ?_⟩
    rintro ⟨fired, s', ⟨fuel, hcheck⟩, -⟩
    have hsoft : Timers.listOf timerCfg s () = .hard := by
      rw [← hlist]
      exact Timers.listOf_congr (by rw [htimer]; rfl)
    have hdue : Timers.due { s with tick := s.tick + BitVec.ofNat 32 1 } (s.tick + BitVec.ofNat 32 1) () = true := by
      rw [Timers.due, htimer, hst.tick]
      decide
    have hnever := checkLoop_of_initTick_zero (s := { s with tick := s.tick + BitVec.ofNat 32 1 })
      (hst.holds.congr rfl fun _ => rfl) hq hsoft (by rw [htimer]; rfl) (by rw [htimer]; rfl) (by rw [htimer]) hdue fuel
    rw [Timers.rtTimerCheck, hnever] at hcheck
    cases hcheck
  · have hrun : ((([.start ()] : List (TimerOp Unit)).foldlM (timerExec timerCfg 4) (oneTimer 1 false)).map fun s =>
        (observeCheck [()] () (2 ^ 31) s, (s.timer ()).soft)) = some ((true, 1, some []), false) := by
      decide +kernel
    obtain ⟨s, hs, hobs⟩ := Option.map_eq_some_iff.mp hrun
    obtain ⟨hobs, hsoft⟩ := Prod.mk.inj hobs
    refine ⟨s, Run.of_foldlM (fun _ _ _ => timerStep_of_exec) hs, not_firesDue hobs ?_ List.mem_cons_self ?_ ?_⟩
    · rw [Timers.listOf, hsoft]
      rfl
    · decide
    · exact List.not_mem_nil
  · have hrun : ((([.start 0, .advance (2 ^ 31 - 3) [], .start 1] : List (TimerOp (Fin 2))).foldlM
        (timerExec timerCfg 4) twoTimers).map fun s =>
        (observeCheck [0, 1] 1 5 s, (s.timer 1).soft)) = some ((true, 1, some [0]), false) := by
      decide +kernel
    obtain ⟨s, hs, hobs⟩ := Option.map_eq_some_iff.mp hrun
    obtain ⟨hobs, hsoft⟩ := Prod.mk.inj hobs
    refine ⟨s, Run.of_foldlM (fun _ _ _ => timerStep_of_exec) hs, not_firesDue hobs ?_ (by decide) (by decide) ?_⟩
    · rw [Timers.listOf, hsoft]
      rfl
    · decide

end CoreLink.RtThread
