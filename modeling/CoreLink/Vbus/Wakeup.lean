/-
# `CoreLink.Vbus.Wakeup` — the writer that waits for space, and who wakes it.

When a packet does not fit, `_bus_out_entry` sets `blocked` in the ring, ticks the other side and suspends itself. The other
side is to tick back when it has made space: `_bus_in_entry` tests `blocked` behind a packet that it took. A tick arrives as
an interrupt that runs `rt_vbus_isr`, which resumes the writer if `blocked` is set and wakes the reader in any case.

The reader does not test `blocked` behind a packet that it drops, nor behind one for channel 0. And the writer samples the
free space before it sets `blocked`: the reader may have emptied the ring in between. In both cases both sides can wait for
each other. The result is that these are the only ones.

Each read and write of `put_idx`, `get_idx` and `blocked` is a step here. The bytes of a packet are stored in one step, and
of the loads only those of the header are kept (`CoreLink.Vbus.Ring` has all of them). The status of a channel is what the
tables give, also behind their end. The interrupts of the writer's side are disabled from the store to `blocked` until the
thread is suspended.
-/
import CoreLink.Vbus.Ring

namespace CoreLink.Vbus

open CoreLink.Lib

/-! ## The two sides -/

/-- Where `_bus_out_entry` is. -/
inductive WakeOutPc where
  /-- before `rt_prio_queue_pop` -/
  | popping
  /-- before the free space is computed -/
  | sampling (p : VbusPkg)
  /-- there was not enough space: before `blocked` is set -/
  | blocking (p : VbusPkg)
  /-- before the tick that is to make the other side work -/
  | kicking (p : VbusPkg)
  /-- before `rt_thread_suspend` and `rt_schedule` -/
  | suspending (p : VbusPkg)
  | suspended (p : VbusPkg)
  /-- behind `rt_schedule`, before `blocked` is reset -/
  | resumed (p : VbusPkg)
  /-- before the packet is stored -/
  | storing (p : VbusPkg)
  /-- before `put_idx` moves -/
  | publishing (p : VbusPkg)
  /-- before the tick for the packet -/
  | ticking
  deriving DecidableEq

/-- Where `_bus_in_entry` is. -/
inductive WakeInPc where
  /-- in `rt_sem_take` -/
  | waiting
  /-- before `while (not empty)` -/
  | testing
  /-- before `len` of the header is read -/
  | nonempty
  /-- before `id` of the header is read -/
  | sized (size : Nat)
  /-- before the tests on the packet -/
  | checking (id : UInt8) (size : Nat)
  /-- before `get_idx` moves on the way to `continue` -/
  | dropping (size : Nat)
  /-- before `get_idx` moves for a packet that is kept -/
  | taking (size : Nat)
  /-- before `blocked` is tested -/
  | posted
  /-- before the tick -/
  | ticking
  deriving DecidableEq

/-- The ring with `blocked`, the two threads, the ticks on their way to either side and `_bus_in_sem`. -/
structure WakeSys where
  ring : VbusRing
  blocked : Bool
  out : WakeOutPc
  inn : WakeInPc
  /-- interrupts pending on the side of the writer -/
  outIrq : Nat
  /-- interrupts pending on the side of the reader -/
  inIrq : Nat
  sem : Nat
  outChn : Nat → Bool
  inChn : Nat → Bool
  todo : List VbusPkg

/-- What can happen next: a step of a thread, where `oom` says whether an `rt_malloc` in it fails; an interrupt; a change of
the channels. -/
inductive WakeEvent where
  | out
  | inn (oom : Bool)
  | outIsr
  | inIsr
  | setOut (chn : Nat → Bool)
  | setIn (chn : Nat → Bool)

namespace WakeSys

variable (nr : Nat)

/-- One step of `_bus_out_entry`. -/
def outStep (s : WakeSys) : WakeSys :=
  match s.out with
  | .popping =>
      match s.todo with
      | [] => s
      | p :: todo => { s with todo := todo, out := if s.outChn p.id.toNat then .sampling p else .popping }
  | .sampling p => { s with out := if busRingSpaceNr nr s.ring < len2bnr p.len then .blocking p else .storing p }
  | .blocking p => { s with blocked := true, out := .kicking p }
  | .kicking p => { s with inIrq := s.inIrq + 1, out := .suspending p }
  | .suspending p => { s with out := .suspended p }
  | .suspended _ => s
  | .resumed p => { s with blocked := false, out := .sampling p }
  | .storing p =>
      { s with
        ring := { s.ring with
          blks := (outStores nr s.ring.putIdx p).foldl (fun blks st => Function.update blks st.1 st.2) s.ring.blks }
        out := .publishing p }
  | .publishing p =>
      { s with
        ring := { s.ring with putIdx := ringAdd nr s.ring.putIdx (len2bnr p.len) }
        out := .ticking }
  | .ticking => { s with inIrq := s.inIrq + 1, out := .popping }

/-- The branch that `_bus_in_entry` takes for a packet. -/
def branch (s : WakeSys) (id : UInt8) (size : Nat) (oom : Bool) : WakeInPc :=
  if id.toNat > rtVbusChannelNr ∨ !s.inChn id.toNat then .dropping size
  else if id = 0 then .dropping size
  else if oom then .dropping size
  else .taking size

/-- One step of `_bus_in_entry`. -/
def inStep (s : WakeSys) (oom : Bool) : WakeSys :=
  match s.inn with
  | .waiting => if 0 < s.sem then { s with sem := s.sem - 1, inn := .testing } else s
  | .testing => { s with inn := if s.ring.getIdx ≠ s.ring.putIdx then .nonempty else .waiting }
  | .nonempty => { s with inn := .sized (s.ring.blks (s.ring.getIdx * sizeofBlk + 2)).toNat }
  | .sized size => { s with inn := .checking (s.ring.blks (s.ring.getIdx * sizeofBlk)) size }
  | .checking id size => { s with inn := s.branch id size oom }
  | .dropping size =>
      { s with
        ring := { s.ring with getIdx := ringAdd nr s.ring.getIdx (len2bnr size) }
        inn := .testing }
  | .taking size =>
      { s with
        ring := { s.ring with getIdx := ringAdd nr s.ring.getIdx (len2bnr size) }
        inn := .posted }
  | .posted => { s with inn := if s.blocked then .ticking else .testing }
  | .ticking => { s with outIrq := s.outIrq + 1, inn := .testing }

/-- The writer runs with interrupts disabled. -/
def Masked (s : WakeSys) : Prop :=
  match s.out with
  | .kicking _ | .suspending _ => True
  | _ => False

instance (s : WakeSys) : Decidable s.Masked := by
  unfold Masked
  split <;> infer_instance

/-- `rt_vbus_resume_out_thread`; a thread that is not suspended is left as it is. -/
def rtVbusResumeOutThread (s : WakeSys) : WakeSys :=
  match s.out with
  | .suspended p => { s with out := .resumed p }
  | _ => s

/-- `rt_vbus_isr` on the side of the writer, where this ring is `RT_VBUS_OUT_RING`. The reader thread of that side works on
another ring. -/
def outIsr (s : WakeSys) : WakeSys :=
  if 0 < s.outIrq ∧ ¬ s.Masked then
    let s := { s with outIrq := s.outIrq - 1 }
    if s.blocked then s.rtVbusResumeOutThread else s
  else s

/-- `rt_vbus_isr` on the side of the reader. -/
def inIsr (s : WakeSys) : WakeSys :=
  if 0 < s.inIrq then { s with inIrq := s.inIrq - 1, sem := s.sem + 1 } else s

/-- The effect of an event. -/
def exec (s : WakeSys) : WakeEvent → WakeSys
  | .out => s.outStep nr
  | .inn oom => s.inStep nr oom
  | .outIsr => s.outIsr
  | .inIsr => s.inIsr
  | .setOut chn => { s with outChn := chn }
  | .setIn chn => { s with inChn := chn }

/-- One step of the system. -/
def Step (s : WakeSys) (e : WakeEvent) (s' : WakeSys) : Prop := s' = s.exec nr e

/-- An empty ring after `rt_vbus_init`, and the packets that will be sent. -/
def init (blks : Nat → UInt8) (outChn inChn : Nat → Bool) (pkts : List VbusPkg) : WakeSys where
  ring := ⟨0, 0, blks⟩
  blocked := false
  out := .popping
  inn := .waiting
  outIrq := 0
  inIrq := 0
  sem := 0
  outChn := outChn
  inChn := inChn
  todo := pkts

/-- **Both sides wait for each other**: the ring is empty, the reader waits on its semaphore, no interrupt is pending, and
the writer is suspended with `blocked` set. -/
def Stuck (s : WakeSys) : Prop :=
  s.ring.getIdx = s.ring.putIdx ∧ s.inn = .waiting ∧ s.sem = 0 ∧ s.inIrq = 0 ∧ s.outIrq = 0 ∧ (∃ p, s.out = .suspended p) ∧
    s.blocked = true

/-! ## When the reader ticks back -/

/-- The writer has set `blocked`, and is suspended or about to be. -/
def Announced (s : WakeSys) : Prop :=
  match s.out with
  | .kicking _ | .suspending _ | .suspended _ => True
  | _ => False

instance (s : WakeSys) : Decidable s.Announced := by
  unfold Announced
  split <;> infer_instance

/-- A tick for the writer is due: there is a packet on the ring, or the reader has yet to test `blocked` behind the last one,
or a tick is on its way. -/
def TickDue (s : WakeSys) : Prop :=
  s.ring.getIdx ≠ s.ring.putIdx ∨ s.inn = .posted ∨ s.inn = .ticking ∨ 0 < s.outIrq

instance (s : WakeSys) : Decidable s.TickDue := inferInstanceAs (Decidable (_ ∨ _))

/-- The writer does not set `blocked` too late, and the reader does not drop the last packet on the ring while the writer
waits for its tick. -/
def InTime (s : WakeSys) : WakeEvent → Prop
  | .out =>
      match s.out with
      | .blocking _ => s.TickDue
      | _ => True
  | .inn _ =>
      match s.inn with
      | .dropping size => s.Announced → 0 < s.outIrq ∨ ringAdd nr s.ring.getIdx (len2bnr size) ≠ s.ring.putIdx
      | _ => True
  | _ => True

instance (s : WakeSys) (e : WakeEvent) : Decidable (s.InTime nr e) := by
  unfold InTime
  split
  · split <;> infer_instance
  · split <;> infer_instance
  · infer_instance

/-! ## The invariant -/

/-- While the writer waits for a tick, the reader can see it, and a tick is due. -/
structure WakeInv (s : WakeSys) : Prop where
  blocked : s.Announced → s.blocked = true
  due : s.Announced → s.TickDue

section Steps

variable {nr : Nat} {s : WakeSys}

theorem announced_of {p : VbusPkg} (h : s.out = .kicking p ∨ s.out = .suspending p ∨ s.out = .suspended p) : s.Announced := by
  unfold Announced
  rcases h with ho | ho | ho
  · rw [ho]
    trivial
  · rw [ho]
    trivial
  · rw [ho]
    trivial

theorem WakeInv.not_stuck (i : WakeInv s) : ¬ s.Stuck := by
  rintro ⟨hempty, hinn, -, -, hirq, ⟨p, ho⟩, -⟩
  rcases i.due (announced_of (.inr (.inr ho))) with hne | hposted | hticking | hpending
  · exact hne hempty
  · rw [hinn] at hposted
    cases hposted
  · rw [hinn] at hticking
    cases hticking
  · omega

/-- A step to a state in which the writer waits for nothing. -/
theorem WakeInv.of_not (h : ¬ s.Announced) : WakeInv s := ⟨fun ha => absurd ha h, fun ha => absurd ha h⟩

theorem WakeInv.init (blks : Nat → UInt8) (outChn inChn : Nat → Bool) (pkts : List VbusPkg) :
    WakeInv (init blks outChn inChn pkts) := .of_not id

/-- **The writer** sets `blocked` when a tick is due, and then leaves everything that a tick depends on as it is. -/
theorem WakeInv.outStep (i : WakeInv s) (hg : s.InTime nr .out) : WakeInv (s.outStep nr) := by
  unfold WakeSys.outStep
  cases ho : s.out with
  | popping =>
      cases s.todo with
      | nil => exact i
      | cons p todo =>
          refine .of_not fun ha => ?_
          revert ha
          show ¬ Announced { s with todo := todo, out := if s.outChn p.id.toNat then _ else _ }
          cases s.outChn p.id.toNat
          · exact id
          · exact id
  | sampling p =>
      refine .of_not fun ha => ?_
      revert ha
      by_cases hlt : busRingSpaceNr nr s.ring < len2bnr p.len
      · simp only [hlt, if_true]
        exact id
      · simp only [hlt, if_false]
        exact id
  | blocking p =>
      -- the guard is about this step
      have hdue : s.TickDue := by
        unfold InTime at hg
        simpa only [ho] using hg
      exact ⟨fun _ => rfl, fun _ => hdue⟩
  | kicking p =>
      have ha := announced_of (.inl ho)
      exact ⟨fun _ => i.blocked ha, fun _ => i.due ha⟩
  | suspending p =>
      have ha := announced_of (.inr (.inl ho))
      exact ⟨fun _ => i.blocked ha, fun _ => i.due ha⟩
  | suspended p => exact i
  | resumed p => exact .of_not id
  | storing p => exact .of_not id
  | publishing p => exact .of_not id
  | ticking => exact .of_not id

/-- A step of the reader that leaves the ring and the writer as they are, behind which it is not done with a packet. -/
theorem WakeInv.withInn (i : WakeInv s) {pc : WakeInPc} (h : s.inn ≠ .posted) (h' : s.inn ≠ .ticking) :
    WakeInv { s with inn := pc } where
  blocked := i.blocked
  due ha := by
    rcases i.due ha with hne | hposted | hticking | hpending
    · exact .inl hne
    · exact absurd hposted h
    · exact absurd hticking h'
    · exact .inr (.inr (.inr hpending))

/-- **The reader** ticks behind a packet that it keeps, if it finds `blocked` set. -/
theorem WakeInv.inStep (i : WakeInv s) {oom : Bool} (hg : s.InTime nr (.inn oom)) : WakeInv (s.inStep nr oom) := by
  unfold WakeSys.inStep
  cases hi : s.inn with
  | waiting =>
      simp only
      by_cases hsem : 0 < s.sem
      · rw [if_pos hsem]
        have i' : WakeInv { s with inn := .testing } := i.withInn (by simp [hi]) (by simp [hi])
        exact ⟨i'.blocked, i'.due⟩
      · rw [if_neg hsem]
        exact i
  | testing => exact i.withInn (by simp [hi]) (by simp [hi])
  | nonempty => exact i.withInn (by simp [hi]) (by simp [hi])
  | sized size => exact i.withInn (by simp [hi]) (by simp [hi])
  | checking id size => exact i.withInn (by simp [hi]) (by simp [hi])
  | dropping size =>
      have hlast : s.Announced → 0 < s.outIrq ∨ ringAdd nr s.ring.getIdx (len2bnr size) ≠ s.ring.putIdx := by
        unfold InTime at hg
        simpa only [hi] using hg
      refine ⟨i.blocked, fun ha => ?_⟩
      rcases hlast ha with hpending | hne
      · exact .inr (.inr (.inr hpending))
      · exact .inl hne
  | taking size => exact ⟨i.blocked, fun _ => .inr (.inl rfl)⟩
  | posted =>
      refine ⟨i.blocked, fun ha => ?_⟩
      have hblocked : s.blocked = true := i.blocked ha
      exact .inr (.inr (.inl (by rw [if_pos hblocked])))
  | ticking => exact ⟨i.blocked, fun _ => .inr (.inr (.inr (Nat.succ_pos s.outIrq)))⟩

/-- **A tick that arrives** while the writer is suspended resumes it. -/
theorem WakeInv.outIsr (i : WakeInv s) : WakeInv s.outIsr := by
  unfold WakeSys.outIsr
  by_cases h : 0 < s.outIrq ∧ ¬ s.Masked
  · rw [if_pos h]
    have hmasked := h.2
    unfold Masked at hmasked
    cases ho : s.out with
    | suspended p =>
        have hblocked : s.blocked = true := i.blocked (announced_of (.inr (.inr ho)))
        simp only [hblocked, if_true, rtVbusResumeOutThread]
        exact .of_not id
    | kicking p =>
        rw [ho] at hmasked
        exact absurd trivial hmasked
    | suspending p =>
        rw [ho] at hmasked
        exact absurd trivial hmasked
    | _ =>
        -- the thread is not suspended, and stays as it is
        refine .of_not ?_
        unfold Announced rtVbusResumeOutThread
        cases s.blocked <;> simp
  · rw [if_neg h]
    exact i

theorem WakeInv.inIsr (i : WakeInv s) : WakeInv s.inIsr := by
  unfold WakeSys.inIsr
  by_cases h : 0 < s.inIrq
  · rw [if_pos h]
    exact ⟨i.blocked, i.due⟩
  · rw [if_neg h]
    exact i

/-- One step of the system. -/
theorem WakeInv.step {s' : WakeSys} {e : WakeEvent} (i : WakeInv s) (h : Step nr s e s') (hg : s.InTime nr e) :
    WakeInv s' := by
  rw [h]
  cases e with
  | out => exact i.outStep hg
  | inn oom => exact i.inStep hg
  | outIsr => exact i.outIsr
  | inIsr => exact i.inIsr
  | setOut chn => exact ⟨i.blocked, i.due⟩
  | setIn chn => exact ⟨i.blocked, i.due⟩

end Steps

/-! ## Runs -/

/-- **The two sides never wait for each other** in a run in which the writer sets `blocked` in time and the reader drops no
last packet, whatever the order of the steps and interrupts. -/
theorem never_stuck {nr : Nat} {blks : Nat → UInt8} {outChn inChn : Nat → Bool} {pkts : List VbusPkg} {evs : List WakeEvent}
    {s : WakeSys} (h : Run (Guarded (InTime nr) (Step nr)) (init blks outChn inChn pkts) evs s) : ¬ s.Stuck :=
  (h.guarded (.init blks outChn inChn pkts) fun _ _ _ i hg hstep => WakeInv.step i hstep hg).not_stuck

/-- One packet of two blocks fills a ring of three, the next one has to wait, and the reader ticks back in time. -/
theorem never_stuck_run :
    ∃ evs s, Run (Guarded (InTime 3) (Step 3)) (init (fun _ => 0) (fun _ => true) (fun _ => true)
      [⟨1, 0, List.replicate 61 7⟩, ⟨2, 0, List.replicate 61 9⟩]) evs s ∧
      s.out = .resumed ⟨2, 0, List.replicate 61 9⟩ ∧ ¬ s.Stuck := by
  obtain ⟨evs, hevs⟩ : ∃ evs : List WakeEvent, evs = List.replicate 10 .out ++ [.inIsr] ++ List.replicate 8 (.inn false) ++
      [.outIsr] := ⟨_, rfl⟩
  obtain ⟨s, hs⟩ : ∃ s, evs.foldlM (fun s e => if InTime 3 s e then some (s.exec 3 e) else none)
      (init (fun _ => 0) (fun _ => true) (fun _ => true) [⟨1, 0, List.replicate 61 7⟩, ⟨2, 0, List.replicate 61 9⟩]) =
        some s := by
    subst hevs
    exact ⟨_, rfl⟩
  have hrun : Run (Guarded (InTime 3) (Step 3)) _ evs s :=
    Run.of_foldlM_guarded (fun _ _ _ h => (Option.some.inj h).symm) hs
  refine ⟨evs, s, hrun, ?_, never_stuck hrun⟩
  subst hevs
  obtain rfl := Option.some.inj hs
  decide +kernel

/-- Two packets fill a ring of three and the third has to wait. On channel 0 the reader takes both behind the store to
`blocked`, and does not tick. On channel 1 it takes both before that store, so that the tick of the writer finds the ring
empty. -/
theorem reaches_stuck :
    (∃ evs s, Run (Step 3) (init (fun _ => 0) (fun _ => true) (fun _ => true) (List.replicate 3 ⟨0, 0, [5]⟩)) evs s ∧
      s.Stuck) ∧
    ∃ evs s, Run (Step 3) (init (fun _ => 0) (fun _ => true) (fun _ => true) (List.replicate 3 ⟨1, 0, [5]⟩)) evs s ∧
      s.Stuck := by
  refine ⟨⟨List.replicate 15 .out ++ List.replicate 3 .inIsr ++ List.replicate 16 (.inn false), _,
    Run.of_foldl (exec 3) _ _, ?_⟩,
    ⟨List.replicate 12 .out ++ List.replicate 2 .inIsr ++ List.replicate 17 (.inn false) ++ List.replicate 3 .out ++ [.inIsr] ++
      List.replicate 2 (.inn false), _, Run.of_foldl (exec 3) _ _, ?_⟩⟩
  · exact ⟨by decide +kernel, by decide +kernel, by decide +kernel, by decide +kernel, by decide +kernel,
      ⟨⟨0, 0, [5]⟩, by decide +kernel⟩, by decide +kernel⟩
  · exact ⟨by decide +kernel, by decide +kernel, by decide +kernel, by decide +kernel, by decide +kernel,
      ⟨⟨1, 0, [5]⟩, by decide +kernel⟩, by decide +kernel⟩

end WakeSys

end CoreLink.Vbus
