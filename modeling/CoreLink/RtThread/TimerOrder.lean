/-
# `CoreLink.RtThread.TimerOrder` — the hard timers fire in order and on time.

The code compares 32-bit ticks by their difference modulo `2 ^ 32`. Against a time that is not bounded, such a
comparison is right as long as the two deadlines are close enough, and that is what `rt_timer_start` and
`rt_timer_check` keep up: `Tracks` relates the lists to the abstract timers of `TimerSpec`, and one lemma per function
says that it does the abstract step, with the window it needs.
-/
import CoreLink.RtThread.TimerCalls
import CoreLink.RtThread.TimerSpec

namespace CoreLink.RtThread

open CoreLink.Lib

/-! ## Comparing ticks -/

theorem lt_halfTickMax_iff (x : Tick) : x < halfTickMax ↔ x.toNat < 2 ^ 31 - 1 := by
  rw [BitVec.lt_def, show halfTickMax.toNat = 2 ^ 31 - 1 by decide]

/-- Of two ticks, the difference to the earlier one. -/
theorem tick_sub_of_le {x y : Nat} (h : y ≤ x) (hlt : x - y < 2 ^ 32) :
    (BitVec.ofNat 32 x - BitVec.ofNat 32 y).toNat = x - y := by
  simp only [BitVec.toNat_sub, BitVec.toNat_ofNat]
  omega

/-- Of two ticks, the difference to the later one. -/
theorem tick_sub_of_lt {x y : Nat} (h : x < y) (hle : y - x ≤ 2 ^ 32) :
    (BitVec.ofNat 32 x - BitVec.ofNat 32 y).toNat = (2 ^ 32 - (y - x)) % 2 ^ 32 := by
  simp only [BitVec.toNat_sub, BitVec.toNat_ofNat]
  omega

namespace Timers

variable {T : Type*} {c : TimerCfg} {s s' : Timers T} {t u : T}

/-- `due` tells whether the deadline `D` is reached, if it is not overdue by half the range. -/
theorem due_iff {now D : Nat} (hD : (s.timer t).timeoutTick = BitVec.ofNat 32 D) (hover : now < D + (2 ^ 31 - 1))
    (hahead : D < now + 2 ^ 31) : s.due (BitVec.ofNat 32 now) t = true ↔ D ≤ now := by
  rw [due, decide_eq_true_iff, lt_halfTickMax_iff, hD]
  rcases Nat.lt_or_ge now D with hlt | hle
  · rw [tick_sub_of_lt hlt (by omega)]
    omega
  · rw [tick_sub_of_le hle (by omega)]
    omega

/-- `later` tells whether the deadline of `u` is later than the new one, inside a window around it. -/
theorem later_iff {D D' : Nat} (hu : (s.timer u).timeoutTick = BitVec.ofNat 32 D)
    (ht : (s.timer t).timeoutTick = BitVec.ofNat 32 D') (hahead : D < D' + (2 ^ 31 - 1))
    (hbehind : D' ≤ D + (2 ^ 31 + 1)) : s.later t u = true ↔ D' < D := by
  rw [later, Bool.and_eq_true, decide_eq_true_iff, lt_halfTickMax_iff, hu, ht, bne_iff_ne, ne_eq,
    ← BitVec.toNat_inj]
  rcases Nat.lt_or_ge D D' with hlt | hle
  · rw [tick_sub_of_lt hlt (by omega), show (0 : Tick).toNat = 0 from rfl]
    omega
  · rw [tick_sub_of_le hle (by omega), show (0 : Tick).toNat = 0 from rfl]
    omega

end Timers

/-! ## The lists and the abstract timers -/

section Tracks

variable {T : Type*} {c : TimerCfg} {time : T → Tick} {periodic : T → Bool} {s s' : Timers T} {a : TimerSpec T}
  {q : Nat → TimerList → List T} {t u : T}

/-- **The lists stand for the abstract timers.** The bottom row holds the pending timers in the order in which they
are to be fired, and a timer's `timeout_tick` is its deadline modulo the range of ticks. -/
structure Tracks (c : TimerCfg) (time : T → Tick) (periodic : T → Bool) (s : Timers T) (a : TimerSpec T)
    (q : Nat → TimerList → List T) : Prop where
  holds : s.Holds c q
  hard : ∀ t, s.listOf c t = .hard
  pending : ∀ t, t ∈ q (c.level - 1) .hard ↔ (a.pending t).isSome
  sorted : (q (c.level - 1) .hard).Pairwise a.Before
  deadline : ∀ t p, a.pending t = some p →
    (s.timer t).timeoutTick = BitVec.ofNat 32 p.1 ∧ p.1 ≤ a.now + (time t).toNat ∧ p.2 < a.starts
  tick : s.tick = BitVec.ofNat 32 a.now
  activated : ∀ t, (s.timer t).activated = (a.pending t).isSome
  made : ∀ t, (s.timer t).initTick = time t ∧ (s.timer t).periodic = periodic t
  small : ∀ t, (time t).toNat < 2 ^ 31 - 1

namespace Tracks

theorem linked_iff (h : Tracks c time periodic s a q) : s.Linked c t ↔ (a.pending t).isSome := by
  rw [h.holds.linked_iff, h.hard t, h.pending t]

/-- Time passes. -/
theorem advance (h : Tracks c time periodic s a q) (d : Nat) :
    Tracks c time periodic { s with tick := s.tick + BitVec.ofNat 32 d } (a.advance d) q where
  holds := h.holds.congr rfl fun _ => rfl
  hard := h.hard
  pending := h.pending
  sorted := h.sorted
  deadline t p hp := by
    obtain ⟨h1, h2, h3⟩ := h.deadline t p hp
    refine ⟨h1, ?_, h3⟩
    show p.1 ≤ a.now + d + _
    omega
  tick := by
    show s.tick + BitVec.ofNat 32 d = BitVec.ofNat 32 (a.now + d)
    rw [h.tick, BitVec.ofNat_add]
  activated := h.activated
  made := h.made
  small := h.small

variable [DecidableEq T]

/-- The timer is unlinked and its flag cleared. -/
theorem remove (h : Tracks c time periodic s a q) (t : T) :
    Tracks c time periodic ((s.timerRemove c t).setActivated t false) (a.stop t) fun r l => (q r l).erase t := by
  have hnd := h.holds.bottom.nodup .hard
  have hsub : ∀ u p, (a.stop t).pending u = some p → u ≠ t ∧ a.pending u = some p := by
    intro u p hp
    rw [TimerSpec.stop_pending, Function.update_apply] at hp
    split_ifs at hp with hut
    exact ⟨hut, hp⟩
  refine ⟨(h.holds.timerRemove t).setActivated t false, fun u => ?_, fun u => ?_, ?_, ?_, h.tick, fun u => ?_,
    fun u => ?_, h.small⟩
  · rw [Timers.listOf_setActivated, Timers.listOf_timerRemove, h.hard]
  · rw [hnd.mem_erase_iff, h.pending u, TimerSpec.stop_pending, Function.update_apply]
    split_ifs with hut <;> simp [hut]
  · -- the order of the others is what it was
    refine ((h.sorted.sublist (List.erase_sublist)).imp_of_mem ?_)
    intro x y hx hy hb
    have hxt := (hnd.mem_erase_iff.mp hx).1
    have hyt := (hnd.mem_erase_iff.mp hy).1
    exact hb.congr (Function.update_of_ne hxt _ _) (Function.update_of_ne hyt _ _)
  · intro u p hp
    obtain ⟨hut, hp⟩ := hsub u p hp
    rw [Timers.setActivated_timer, Function.update_of_ne hut]
    exact h.deadline u p hp
  · rw [Timers.setActivated_timer, TimerSpec.stop_pending, Function.update_apply, Function.update_apply]
    split_ifs with hut
    · rfl
    · exact h.activated u
  · rw [Timers.setActivated_timer, Function.update_apply]
    split_ifs with hut
    · rw [hut]
      exact h.made t
    · exact h.made u

/-- Inside the window the search of `rt_timer_start` stops in front of the first timer whose deadline is later. -/
theorem place [Fintype T] {q' : Nat → TimerList → List T} (h : Tracks c time periodic s a q)
    (hst : Timers.Started c s q t s' q')
    (hwin : ∀ u p, u ≠ t → a.pending u = some p → a.now + (time t).toNat ≤ p.1 + (2 ^ 31 + 1)) :
    ∃ as bs, (q (c.level - 1) .hard).erase t = as ++ bs ∧ q' (c.level - 1) .hard = as ++ t :: bs ∧
      (∀ u ∈ as, ∀ p, a.pending u = some p → p.1 ≤ a.now + (time t).toNat) ∧
      ∀ u ∈ bs, ∀ p, a.pending u = some p → a.now + (time t).toNat < p.1 := by
  have hnd := h.holds.bottom.nodup .hard
  obtain ⟨as, bs, hq, hcut, hq'⟩ := hst.place
  rw [h.hard] at hq hq'
  have hnew : (s'.timer t).timeoutTick = BitVec.ofNat 32 (a.now + (time t).toNat) := by
    rw [hst.timer, Function.update_self, h.tick, (h.made t).1, BitVec.ofNat_add, BitVec.ofNat_toNat,
      BitVec.setWidth_eq]
  have hlater : ∀ u p, u ∈ as ++ bs → a.pending u = some p →
      (s'.later t u = true ↔ a.now + (time t).toNat < p.1) := by
    intro u p hu hp
    have hut : u ≠ t := (hnd.mem_erase_iff.mp (hq ▸ hu)).1
    have hu' : (s'.timer u).timeoutTick = BitVec.ofNat 32 p.1 := by
      rw [hst.timer, Function.update_of_ne hut]
      exact (h.deadline u p hp).1
    have h2 := (h.deadline u p hp).2.1
    have h3 := h.small u
    exact Timers.later_iff hu' hnew (by omega) (hwin u p hut hp)
  -- the row is in order, so that what is not later is in front of what is
  have hmono : (as ++ bs).Pairwise fun x y => (!s'.later t y) = true → (!s'.later t x) = true := by
    refine (hq ▸ h.sorted.sublist List.erase_sublist : (as ++ bs).Pairwise a.Before).imp_of_mem ?_
    rintro x y hx hy ⟨p, p', hp, hp', hlt⟩ hn
    rw [Bool.not_eq_true', ← Bool.not_eq_true, hlater y p' hy hp'] at hn
    rw [Bool.not_eq_true', ← Bool.not_eq_true, hlater x p hx hp]
    omega
  obtain ⟨has, hbs⟩ := filter_of_cut hmono (fun x hx => by simp [hcut.before x hx])
    fun x hx => by simp [hcut.behind x hx]
  refine ⟨as, bs, hq, hq', fun u hu p hp => ?_, fun u hu p hp => ?_⟩
  · have h1 := hlater u p (List.mem_append_left bs hu) hp
    rw [has] at hu
    have h2 := (List.mem_filter.mp hu).2
    rw [Bool.not_eq_true', ← Bool.not_eq_true, h1] at h2
    omega
  · have h1 := hlater u p (List.mem_append_right as hu) hp
    rw [hbs] at hu
    have h2 := (List.mem_filter.mp hu).2
    rwa [Bool.not_not, h1] at h2

/-- **`rt_timer_start`** does the abstract start, if no pending deadline is behind the new one by more than half the
range. -/
theorem start [Fintype T] (h : Tracks c time periodic s a q) (t : T)
    (hwin : ∀ u p, u ≠ t → a.pending u = some p → a.now + (time t).toNat ≤ p.1 + (2 ^ 31 + 1)) :
    ∃ s' q', s.rtTimerStart c t = some s' ∧ Tracks c time periodic s' (a.start (fun t => (time t).toNat) t) q' ∧
      ∃ as bs, (q (c.level - 1) .hard).erase t = as ++ bs ∧ q' (c.level - 1) .hard = as ++ t :: bs ∧
        ∀ u ∈ bs, ∀ p, a.pending u = some p → a.now + (time t).toNat < p.1 := by
  have hnd := h.holds.bottom.nodup .hard
  obtain ⟨s', q', hs', hst⟩ := Timers.rtTimerStart_spec h.holds t fun _ => by
    rw [lt_halfTickMax_iff, (h.made t).1]
    exact h.small t
  obtain ⟨as, bs, hq, hq', has, hbs⟩ := h.place hst hwin
  refine ⟨s', q', hs', ?_, as, bs, hq, hq', hbs⟩
  have hmem : ∀ u, u ∈ as ++ bs ↔ u ≠ t ∧ (a.pending u).isSome := fun u => by
    rw [← hq, hnd.mem_erase_iff, h.pending]
  have htimer : ∀ u, u ≠ t → s'.timer u = s.timer u := fun u hu => by
    rw [hst.timer, Function.update_of_ne hu]
  refine ⟨hst.holds, fun u => ?_, fun u => ?_, ?_, ?_, ?_, fun u => ?_, fun u => ?_, h.small⟩
  · rw [← h.hard u]
    refine Timers.listOf_congr ?_
    rw [hst.timer, Function.update_apply]
    split_ifs with hut
    · rw [hut]
    · rfl
  · have h1 := hmem u
    rw [hq', TimerSpec.start_pending, Function.update_apply]
    split_ifs with hut
    · simp [hut]
    · rw [List.mem_append] at h1
      rw [List.mem_append, List.mem_cons, or_iff_right hut, h1]
      exact and_iff_right hut
  · -- the others as before, and the new timer behind the ones that are not later: it is the last one started
    rw [hq']
    have hold : (as ++ bs).Pairwise (a.start (fun t => (time t).toNat) t).Before := by
      refine (hq ▸ h.sorted.sublist List.erase_sublist : (as ++ bs).Pairwise a.Before).imp_of_mem ?_
      intro x y hx hy hb
      exact hb.congr (Function.update_of_ne ((hmem x).mp hx).1 _ _) (Function.update_of_ne ((hmem y).mp hy).1 _ _)
    obtain ⟨h1, h2, h3⟩ := List.pairwise_append.mp hold
    refine List.pairwise_append.mpr ⟨h1, List.pairwise_cons.mpr ⟨fun u hu => ?_, h2⟩, fun u hu v hv => ?_⟩
    · obtain ⟨hut, hu'⟩ := (hmem u).mp (List.mem_append_right as hu)
      obtain ⟨p, hp⟩ := Option.isSome_iff_exists.mp hu'
      exact ⟨_, p, Function.update_self .., (Function.update_of_ne hut _ _).trans hp, Or.inl (hbs u hu p hp)⟩
    · rcases List.mem_cons.mp hv with rfl | hv
      · obtain ⟨hut, hu'⟩ := (hmem u).mp (List.mem_append_left bs hu)
        obtain ⟨p, hp⟩ := Option.isSome_iff_exists.mp hu'
        have hle := has u hu p hp
        have hlt := (h.deadline u p hp).2.2
        refine ⟨p, _, (Function.update_of_ne hut _ _).trans hp, Function.update_self .., ?_⟩
        show p.1 < a.now + (time v).toNat ∨ p.1 = a.now + (time v).toNat ∧ p.2 < a.starts
        omega
      · exact h3 u hu v hv
  · intro u p hp
    rw [TimerSpec.start_pending, Function.update_apply] at hp
    rw [hst.timer, Function.update_apply]
    split_ifs at hp ⊢ with hut
    · obtain rfl : (_, _) = p := Option.some.inj hp
      refine ⟨?_, ?_, Nat.lt_succ_self a.starts⟩
      · show s.tick + (s.timer t).initTick = _
        rw [h.tick, (h.made t).1, BitVec.ofNat_add, BitVec.ofNat_toNat, BitVec.setWidth_eq]
      · rw [hut]
        exact le_rfl
    · obtain ⟨h1, h2, h3⟩ := h.deadline u p hp
      exact ⟨h1, h2, Nat.lt_succ_of_lt h3⟩
  · rw [hst.tick]
    exact h.tick
  · rw [hst.timer, TimerSpec.start_pending, Function.update_apply, Function.update_apply]
    split_ifs with hut
    · rfl
    · exact h.activated u
  · rw [hst.timer, Function.update_apply]
    split_ifs with hut
    · rw [hut]
      exact h.made t
    · exact h.made u

/-! ### The check -/

/-- **One pass of the check** does to the first timer what firing it does, and puts a periodic timer behind every other
one that is due. -/
theorem rearm [Fintype T] (h : Tracks c time periodic s a q) {ts : List T} (hq : q (c.level - 1) .hard = t :: ts)
    (hwin : periodic t = true → ∀ u ∈ ts, ∀ p, a.pending u = some p →
      a.now + (time t).toNat ≤ p.1 + (2 ^ 31 + 1)) :
    ∃ s' q', (s.timerRemove c t).rearm c t = some s' ∧
      Tracks c time periodic s' (a.expire (fun t => (time t).toNat) periodic t) q' ∧
      ∃ as bs, ts = as ++ bs ∧
        (q' (c.level - 1) .hard = if periodic t then as ++ t :: bs else ts) ∧
        ∀ u ∈ bs, ∀ p, a.pending u = some p → a.now + (time t).toNat < p.1 := by
  have hrem := h.remove t
  have herase : (q (c.level - 1) .hard).erase t = ts := by rw [hq, List.erase_cons_head]
  have hact : (s.timer t).activated = true := by
    rw [h.activated, ← h.pending t, hq]
    exact List.mem_cons_self
  rw [Timers.rearm, Timers.timerRemove_timer, (h.made t).2, hact, Bool.and_true, TimerSpec.expire]
  cases hp : periodic t with
  | false =>
    refine ⟨_, _, rfl, hrem, ts, [], (List.append_nil ts).symm, herase, fun u hu => by simp at hu⟩
  | true =>
    have hwin' : ∀ u p, u ≠ t → (a.stop t).pending u = some p →
        (a.stop t).now + (time t).toNat ≤ p.1 + (2 ^ 31 + 1) := by
      intro u p hut hup
      rw [TimerSpec.stop_pending, Function.update_of_ne hut] at hup
      refine hwin hp u ?_ p hup
      rw [← herase, (h.holds.bottom.nodup .hard).mem_erase_iff, h.pending u, hup]
      exact ⟨hut, rfl⟩
    obtain ⟨s', q', hs', htr, as, bs, hq₁, hq', hbs⟩ := hrem.start t hwin'
    rw [TimerSpec.stop_start] at htr
    refine ⟨s', q', hs', htr, as, bs, ?_, hq', fun u hu p hup => ?_⟩
    · rw [← hq₁, herase, List.erase_of_not_mem]
      exact fun hm => by simpa [hq, hm] using h.holds.bottom.nodup .hard
    · refine hbs u hu p ?_
      have hut : u ≠ t := by
        rintro rfl
        have hm := List.mem_append_right as hu
        rw [← hq₁] at hm
        exact absurd hm (hrem.holds.not_mem_erase .hard)
      rw [TimerSpec.stop_pending, Function.update_of_ne hut, hup]

omit [DecidableEq T] in
/-- Before the pass, the timer that the loop looks at is due or not as the abstract one. -/
theorem due_iff (h : Tracks c time periodic s a q) {p : Nat × Nat} (hp : a.pending t = some p)
    (hover : a.now < p.1 + (2 ^ 31 - 1)) : s.due s.tick t = true ↔ a.Due t := by
  obtain ⟨h1, h2, -⟩ := h.deadline t p hp
  have h3 := h.small t
  rw [h.tick, Timers.due_iff h1 hover (by omega)]
  constructor
  · exact fun hle => ⟨p, hp, hle⟩
  · rintro ⟨p', hp', hle⟩
    obtain rfl : p = p' := Option.some.inj (hp.symm.trans hp')
    exact hle

/-- **The loop of `rt_timer_check`** fires the due timers at the front of the row, one after the other, and ends. -/
theorem checkLoop [Fintype T] (h : Tracks c time periodic s a q)
    (hpos : ∀ t, periodic t = true → 0 < (time t).toNat) {ts rest : List T} {fuel : Nat}
    (hq : q (c.level - 1) .hard = ts ++ rest) (hdue : ∀ t ∈ ts, a.Due t) (hrest : ∀ t ∈ rest, ¬ a.Due t)
    (hover : ∀ t p, a.pending t = some p → a.now < p.1 + (2 ^ 31 - 1))
    (hwin : ∀ t ∈ ts, periodic t = true → ∀ p, a.pending t = some p →
      a.now + (time t).toNat ≤ p.1 + (2 ^ 31 + 1)) (hfuel : ts.length < fuel) :
    ∃ s' q', Timers.checkLoop c (fun _ s => some s) fuel s.tick s = some (ts, s') ∧
      Tracks c time periodic s' (ts.foldl (TimerSpec.expire (fun t => (time t).toNat) periodic) a) q' ∧
      ∀ t, ¬ (ts.foldl (TimerSpec.expire (fun t => (time t).toNat) periodic) a).Due t := by
  -- on the due timers; each pass takes the first and leaves the others in front
  induction ts generalizing s a q rest fuel with
  | nil =>
    obtain ⟨fuel, rfl⟩ := Nat.exists_eq_add_one_of_ne_zero (by omega : fuel ≠ 0)
    have hnone : ∀ t, ¬ a.Due t := by
      rintro t ⟨p, hp, hle⟩
      refine hrest t ?_ ⟨p, hp, hle⟩
      have hm := (h.pending t).mpr (by rw [hp]; rfl)
      rwa [hq] at hm
    refine ⟨s, q, ?_, h, hnone⟩
    rw [Timers.checkLoop, h.holds.firstTimer_eq, hq]
    cases rest with
    | nil => rfl
    | cons t rest =>
      obtain ⟨p, hp⟩ := Option.isSome_iff_exists.mp ((h.pending t).mp (hq ▸ List.mem_cons_self))
      have hnd := (h.due_iff hp (hover t p hp)).not.mpr (hnone t)
      simp only [List.nil_append, List.head?_cons, if_neg hnd]
  | cons t ts ih =>
    obtain ⟨fuel, rfl⟩ := Nat.exists_eq_add_one_of_ne_zero (by omega : fuel ≠ 0)
    obtain ⟨p, hp, hle⟩ := hdue t List.mem_cons_self
    have hnd := h.holds.bottom.nodup .hard
    rw [hq, List.cons_append, List.nodup_cons] at hnd
    have hsorted := h.sorted
    rw [hq, List.cons_append, List.pairwise_cons] at hsorted
    have hbehind : periodic t = true → ∀ u ∈ ts ++ rest, ∀ p', a.pending u = some p' →
        a.now + (time t).toNat ≤ p'.1 + (2 ^ 31 + 1) := by
      intro hper u hu p' hp'
      have h1 := hwin t List.mem_cons_self hper p hp
      obtain ⟨r, r', hr, hr', hlt⟩ := hsorted.1 u hu
      obtain rfl : p = r := Option.some.inj (hp.symm.trans hr)
      obtain rfl : p' = r' := Option.some.inj (hp'.symm.trans hr')
      omega
    obtain ⟨s₁, q₁, hs₁, h₁, as, bs, hcut, hq₁, hbs⟩ := h.rearm hq hbehind
    have hne : ∀ u ∈ ts ++ rest, u ≠ t := fun u hu he => hnd.1 (he ▸ hu)
    -- the restarted timer is behind all that are due
    have hfront : ∃ rest', q₁ (c.level - 1) .hard = ts ++ rest' ∧ ∀ u ∈ rest', u = t ∨ u ∈ rest := by
      cases hper : periodic t with
      | false => exact ⟨rest, by simpa [hper] using hq₁, fun u hu => Or.inr hu⟩
      | true =>
        obtain ⟨k, rfl, rfl⟩ : ∃ k, as = ts ++ k ∧ rest = k ++ bs := by
          rcases List.append_eq_append_iff.mp hcut with ⟨k, has, hr⟩ | ⟨k, hts, hb⟩
          · exact ⟨k, has, hr⟩
          · cases k with
            | nil => exact ⟨[], by simpa using hts.symm, by simpa using hb.symm⟩
            | cons u k =>
              obtain ⟨p', hp', hle'⟩ := hdue u (by simp [hts])
              have hlt := hbs u (by simp [hb]) p' hp'
              omega
        refine ⟨k ++ t :: bs, by simpa [hper] using hq₁, fun u hu => ?_⟩
        simp only [List.mem_append, List.mem_cons] at hu ⊢
        tauto
    obtain ⟨rest', hq', hrest'⟩ := hfront
    have htick : s₁.tick = s.tick := by rw [h₁.tick, h.tick, TimerSpec.expire_now]
    have hdue' : ∀ u ∈ ts, (a.expire (fun t => (time t).toNat) periodic t).Due u := fun u hu =>
      (TimerSpec.expire_due (hne u (List.mem_append_left rest hu))).mpr (hdue u (List.mem_cons_of_mem t hu))
    have hrest'' : ∀ u ∈ rest', ¬ (a.expire (fun t => (time t).toNat) periodic t).Due u := by
      intro u hu
      rcases hrest' u hu with rfl | hu
      · exact TimerSpec.not_due_expire (hpos u)
      · rw [TimerSpec.expire_due (hne u (List.mem_append_right ts hu))]
        exact hrest u hu
    have hover' : ∀ u p', (a.expire (fun t => (time t).toNat) periodic t).pending u = some p' →
        (a.expire (fun t => (time t).toNat) periodic t).now < p'.1 + (2 ^ 31 - 1) := by
      intro u p' hp'
      rw [TimerSpec.expire_now]
      by_cases hut : u = t
      · subst hut
        have hD := (TimerSpec.expire_pending_self hp').2
        omega
      · rw [TimerSpec.expire_pending hut] at hp'
        exact hover u p' hp'
    have hwin' : ∀ u ∈ ts, periodic u = true → ∀ p',
        (a.expire (fun t => (time t).toNat) periodic t).pending u = some p' →
        (a.expire (fun t => (time t).toNat) periodic t).now + (time u).toNat ≤ p'.1 + (2 ^ 31 + 1) := by
      intro u hu hper p' hp'
      rw [TimerSpec.expire_now]
      rw [TimerSpec.expire_pending (hne u (List.mem_append_left rest hu))] at hp'
      exact hwin u (List.mem_cons_of_mem t hu) hper p' hp'
    obtain ⟨s', q', hloop, h', hnone⟩ := ih h₁ hq' hdue' hrest'' hover' hwin' (by simpa using hfuel)
    refine ⟨s', q', ?_, h', hnone⟩
    have hd := (h.due_iff hp (hover t p hp)).mpr ⟨p, hp, hle⟩
    rw [Timers.checkLoop, h.holds.firstTimer_eq, hq]
    simp only [List.cons_append, List.head?_cons, if_pos hd, Option.bind_some, hs₁, Timers.timerRemove_tick]
    rw [← htick, hloop]
    rfl

end Tracks

end Tracks

end CoreLink.RtThread
