/-
# `CoreLink.RtThread.DataQueueRefine` — when the data queue is a bounded FIFO.

What is observed of a run are the calls that return `RT_EOK`: a push puts its item, a pop gets the one it wrote to
`*data_ptr` and `*size`. The indices are read with the lemmas about free-running counters, so that nothing here depends
on whether one of them has wrapped around, but for the test in `rt_data_queue_push`.
-/
import CoreLink.RtThread.DataQueue

namespace CoreLink.RtThread

open CoreLink.Lib

variable {T V : Type*}

/-! ## The indices -/

namespace DataQueue

/-- The number of items in the queue. -/
def stored (dq : DataQueue V) : Nat := Word.sub 16 dq.putIndex dq.getIndex

/-- The items in the queue, the oldest first. -/
def items (dq : DataQueue V) : List V := Counters.window 16 dq.size dq.queue dq.getIndex dq.stored

@[simp] theorem items_length {dq : DataQueue V} : dq.items.length = dq.stored := Counters.window_length

section Setters

variable {dq : DataQueue V} {item : V}

@[simp] theorem put_size : (dq.put item).size = dq.size := rfl
@[simp] theorem put_getIndex : (dq.put item).getIndex = dq.getIndex := rfl
@[simp] theorem put_putIndex : (dq.put item).putIndex = (dq.putIndex + 1) % 2 ^ 16 := rfl
@[simp] theorem put_queue : (dq.put item).queue = Function.update dq.queue (dq.putIndex % dq.size) item := rfl
@[simp] theorem get_size : dq.get.size = dq.size := rfl
@[simp] theorem get_getIndex : dq.get.getIndex = (dq.getIndex + 1) % 2 ^ 16 := rfl
@[simp] theorem get_putIndex : dq.get.putIndex = dq.putIndex := rfl
@[simp] theorem get_queue : dq.get.queue = dq.queue := rfl

end Setters

/-- The indices are words, and there are no more items than the queue has cells. -/
structure Ok (dq : DataQueue V) : Prop where
  size_lt : dq.size < 2 ^ 16
  get_lt : dq.getIndex < 2 ^ 16
  put_lt : dq.putIndex < 2 ^ 16
  stored_le : dq.stored ≤ dq.size

namespace Ok

variable {dq : DataQueue V} (h : dq.Ok)
include h

/-- An item goes in, where there is room for it and its cell is free. -/
theorem put (item : V) (hroom : dq.stored < dq.size)
    (hfree : Counters.Free 16 dq.size dq.getIndex dq.stored dq.putIndex) :
    (dq.put item).Ok ∧ (dq.put item).items = dq.items ++ [item] := by
  have hsize := h.size_lt
  have hn : (dq.put item).stored = dq.stored + 1 := by
    have hlt : dq.stored + 1 < 2 ^ 16 := by omega
    simpa only [stored, put_putIndex, put_getIndex] using Counters.sub_succ_head h.get_lt h.put_lt hlt
  constructor
  · constructor
    · rw [put_size]
      exact hsize
    · rw [put_getIndex]
      exact h.get_lt
    · rw [put_putIndex]
      exact Nat.mod_lt _ (Nat.two_pow_pos 16)
    · rw [hn, put_size]
      exact hroom
  · unfold items
    rw [hn, put_size, put_getIndex, put_queue]
    exact Counters.window_put item (Counters.add_sub h.get_lt h.put_lt) hfree

/-- The queue is empty where its indices are equal. -/
theorem empty_iff : dq.empty = true ↔ dq.stored = 0 := by
  have hadd := Counters.add_sub h.get_lt h.put_lt
  unfold empty
  rw [beq_iff_eq]
  constructor
  · intro he
    unfold stored
    rw [he, Word.sub_of_le (Nat.le_refl _) h.put_lt, Nat.sub_self]
  · intro hz
    rw [show Word.sub 16 dq.putIndex dq.getIndex = 0 from hz, Nat.add_zero, Nat.mod_eq_of_lt h.get_lt] at hadd
    exact hadd

/-- An item comes out. -/
theorem get (hne : dq.empty = false) : dq.get.Ok ∧ dq.items = dq.first :: dq.get.items := by
  have hpos : 0 < dq.stored := by
    apply Nat.pos_of_ne_zero
    intro hz
    rw [h.empty_iff.mpr hz] at hne
    exact absurd hne Bool.noConfusion
  have hn : dq.get.stored = dq.stored - 1 := by
    simpa only [stored, get_getIndex, get_putIndex] using Counters.sub_succ_tail h.get_lt h.put_lt hpos
  have hle := h.stored_le
  constructor
  · constructor
    · rw [get_size]
      exact h.size_lt
    · rw [get_getIndex]
      exact Nat.mod_lt _ (Nat.two_pow_pos 16)
    · rw [get_putIndex]
      exact h.put_lt
    · rw [hn, get_size]
      omega
  · have hget := Counters.window_get dq.size dq.queue (dq.stored - 1) h.get_lt
    rw [Nat.sub_add_cancel hpos] at hget
    unfold items
    rw [hn, get_size, get_getIndex, get_queue]
    exact hget

end Ok

theorem ok_init (queue : Nat → V) (size lwm : Nat) : (rtDataQueueInit queue size lwm).Ok ∧
    (rtDataQueueInit queue size lwm).items = [] := by
  have hz : (rtDataQueueInit queue size lwm).stored = 0 := by
    simp only [stored, rtDataQueueInit, Word.sub_of_le (Nat.le_refl 0) (Nat.two_pow_pos 16), Nat.sub_self]
  refine ⟨⟨Nat.mod_lt _ (Nat.two_pow_pos 16), Nat.two_pow_pos 16, Nat.two_pow_pos 16, ?_⟩, ?_⟩
  · rw [hz]
    exact Nat.zero_le _
  · exact List.eq_nil_of_length_eq_zero (items_length.trans hz)

end DataQueue

namespace DqSys

/-! ## What a step does to the object -/

/-- What one step of the thread `t` does to the queue, where `item` is the item it pushes. -/
inductive Effect (s : DqSys T V) (e : DqEvent T V) (s' : DqSys T V) : Prop
  /-- the call goes on, or fails -/
  | quiet (hdq : s'.dq = s.dq) (ht : ¬ s'.Succeeded e.thread)
  /-- a push returns `RT_EOK` -/
  | put (item : V) (hitem : s.pushed e = some item) (hpush : s.pushes e = true) (hroom : s.dq.full = false)
      (hdq : s'.dq = s.dq.put item) (ht : s'.Succeeded e.thread)
  /-- a pop returns `RT_EOK` -/
  | get (hitem : s.pushed e = none) (hne : s.dq.empty = false) (hdq : s'.dq = s.dq.get)
      (hvalue : s'.item e.thread = s.dq.first) (ht : s'.Succeeded e.thread)

variable [DecidableEq T] {s s' : DqSys T V} {t : T} {e : DqEvent T V}

/-- Returning an error is no success, and returning `RT_EOK` is. -/
theorem succeeded_ret {err : RtErr} : (s.ret t err).Succeeded t ↔ err = .eok := by
  simp [Succeeded, ret, setPc, DqPc.isIdle]

omit [DecidableEq T] in
theorem not_succeeded {pc : DqPc V} (h : s.pc t = pc) (hpc : pc.isIdle = false) : ¬ s.Succeeded t := by
  intro hs
  rw [Succeeded, h, hpc] at hs
  exact absurd hs.1 Bool.false_ne_true

@[simp] theorem resumeFirst_dq (ts : List T) : (s.resumeFirst ts).dq = s.dq := by cases ts <;> rfl

@[simp] theorem resumeFirst_item (ts : List T) : (s.resumeFirst ts).item = s.item := by cases ts <;> rfl

/-- The test of the loop in `rt_data_queue_push`, and what follows. -/
theorem push_effect {item : V} {timeout : Int} (ht : e.thread = t) (hitem : s.pushed e = some item)
    (hpush : s.pushes e = true) : Effect s e (s.rtDataQueuePush t item timeout) := by
  unfold rtDataQueuePush
  split_ifs with hfull htime
  · refine .quiet rfl fun h => ?_
    rw [ht] at h
    exact absurd (succeeded_ret.mp h) (by decide)
  · refine .quiet rfl ?_
    rw [ht]
    exact not_succeeded (Function.update_self ..) rfl
  · refine .put item hitem hpush (Bool.eq_false_iff.mpr hfull) (resumeFirst_dq _) ?_
    rw [ht]
    exact succeeded_ret.mpr rfl

/-- The test of the loop in `rt_data_queue_pop`, and what follows. -/
theorem pop_effect {timeout : Int} (ht : e.thread = t) (hitem : s.pushed e = none) :
    Effect s e (s.rtDataQueuePop t timeout) := by
  unfold rtDataQueuePop
  split_ifs with hempty htime
  · refine .quiet rfl fun h => ?_
    rw [ht] at h
    exact absurd (succeeded_ret.mp h) (by decide)
  · refine .quiet rfl ?_
    rw [ht]
    exact not_succeeded (Function.update_self ..) rfl
  · -- whether a thread is woken makes no difference to the queue
    dsimp only
    split
    next =>
      refine .get hitem (Bool.eq_false_iff.mpr hempty) (resumeFirst_dq _) ?_ (ht ▸ succeeded_ret.mpr rfl)
      rw [ht]
      show (resumeFirst _ s.suspendedPushList).item t = _
      rw [resumeFirst_item]
      exact Function.update_self ..
    next =>
      refine .get hitem (Bool.eq_false_iff.mpr hempty) rfl ?_ (ht ▸ succeeded_ret.mpr rfl)
      rw [ht]
      exact Function.update_self ..

/-- A call that was woken goes on, by what `thread->error` says. -/
theorem continueCall_effect (hcall : (s.pc t).inCall) : Effect s (.continue t) (s.continueCall t) := by
  cases hpc : s.pc t with
  | idle | pushWaiting | popWaiting =>
      rw [hpc] at hcall
      exact absurd hcall Bool.false_ne_true
  | pushWoken item timeout =>
      have hcont : s.continueCall t =
          if s.error t ≠ .eok then s.ret t (s.error t) else s.rtDataQueuePush t item timeout := by
        unfold continueCall
        rw [hpc]
      rw [hcont]
      split
      next herr => exact .quiet rfl fun h => herr (succeeded_ret.mp h)
      next herr =>
        refine push_effect rfl ?_ ?_
        · simp only [pushed, hpc]
        · simp only [pushes, hpc]
          exact beq_iff_eq.mpr (not_not.mp herr)
  | popWoken timeout =>
      have hcont : s.continueCall t =
          if s.error t ≠ .eok then s.ret t (s.error t) else s.rtDataQueuePop t timeout := by
        unfold continueCall
        rw [hpc]
      rw [hcont]
      split
      next herr => exact .quiet rfl fun h => herr (succeeded_ret.mp h)
      next =>
        refine pop_effect rfl ?_
        simp only [pushed, hpc]

/-- Whoever takes a thread off its list leaves it inside its call. -/
theorem not_succeeded_wake (hwait : (s.pc t).timeLimit.isSome) : ¬ (s.wake t).Succeeded t := by
  refine not_succeeded (Function.update_self ..) ?_
  cases hpc : s.pc t with
  | idle | pushWoken | popWoken =>
      rw [hpc] at hwait
      exact absurd hwait Bool.false_ne_true
  | pushWaiting | popWaiting => rfl

/-- **One step.** -/
theorem step_effect (h : s.Step e s') : Effect s e s' := by
  obtain ⟨he, rfl⟩ := h
  cases e with
  | push t item timeout => exact push_effect rfl rfl rfl
  | pop t timeout => exact pop_effect rfl rfl
  | «continue» t => exact continueCall_effect he
  | timeout t =>
      have hwait : (s.pc t).timeLimit.isSome := Option.isSome_of_any he
      have hstill : ¬ ((s.setError t .etimeout).wake t).Succeeded t := not_succeeded_wake hwait
      exact .quiet rfl hstill
  | resume t => exact .quiet rfl (not_succeeded_wake he)

/-! ## The refinement -/

/-- One step that meets the condition is none or one step of the bounded FIFO, as observed. -/
theorem step_refines {l : DqEvent T V × List (FifoEvent V)} (h : s.dq.Ok) (hok : s.PushOk l.1)
    (hs : s.ObservedStep l s') :
    Run (Fifo.Step s.dq.size) s.dq.items l.2 s'.dq.items ∧ s'.dq.Ok ∧ s'.dq.size = s.dq.size := by
  obtain ⟨hstep, hobs⟩ := hs
  rw [hobs, observe]
  cases step_effect hstep with
  | quiet hdq ht =>
      rw [if_neg ht, hdq]
      exact ⟨.nil, h, rfl⟩
  | put item hitem hpush hroom hdq ht =>
      obtain ⟨hlt, hfree⟩ := hok hpush hroom
      obtain ⟨hok', hitems⟩ := h.put item hlt hfree
      have hfifo : Fifo.Step s.dq.size s.dq.items (.put item) (s.dq.items ++ [item]) :=
        .put (items_length.trans_lt hlt)
      rw [if_pos ht, hitem, hdq, hitems]
      exact ⟨.single hfifo, hok', DataQueue.put_size⟩
  | get hitem hne hdq hvalue ht =>
      obtain ⟨hok', hitems⟩ := h.get hne
      have hfifo : Fifo.Step s.dq.size (s.dq.first :: s.dq.get.items) (.get s.dq.first) s.dq.get.items := .get
      rw [if_pos ht, hitem, hdq, hvalue, hitems]
      exact ⟨.single hfifo, hok', DataQueue.get_size⟩
where
  items_length : s.dq.items.length = s.dq.stored := DataQueue.items_length

/-- **The data queue is a bounded FIFO as long as the pushes that find it not full find room.** After any such run from
a new queue, for every size and low-water mark and every interleaving: what the calls that returned `RT_EOK` pushed and
popped is a run of the bounded FIFO that ends with the items in the queue. So what was popped, and behind it what is in
the queue, is what was pushed, in this order, and the queue holds at most `size` items. -/
theorem dataqueue_refines {queue : Nat → V} {size lwm : Nat} (hsize : size < 2 ^ 16) {item : T → V}
    {ls : List (DqEvent T V × List (FifoEvent V))}
    (hrun : Run (Guarded (fun s l => s.PushOk l.1) ObservedStep)
      (init (DataQueue.rtDataQueueInit queue size lwm) item) ls s) :
    Run (Fifo.Step size) [] (ls.flatMap Prod.snd) s.dq.items ∧
      Fifo.puts (ls.flatMap Prod.snd) = Fifo.gets (ls.flatMap Prod.snd) ++ s.dq.items ∧ s.dq.items.length ≤ size := by
  obtain ⟨hok0, hitems0⟩ := DataQueue.ok_init queue size lwm
  have hinit : ([] : List V) = (init (DataQueue.rtDataQueueInit queue size lwm) item).dq.items ∧
      (DataQueue.rtDataQueueInit queue size lwm).Ok ∧ (DataQueue.rtDataQueueInit queue size lwm).size = size :=
    ⟨hitems0.symm, hok0, Nat.mod_eq_of_lt hsize⟩
  have hsim : ∃ items, Run (Fifo.Step size) [] (ls.flatMap Prod.snd) items ∧
      (items = s.dq.items ∧ s.dq.Ok ∧ s.dq.size = size) := by
    apply hrun.simulate Prod.snd (R := fun s items => items = s.dq.items ∧ s.dq.Ok ∧ s.dq.size = size) hinit
    intro s l s' items ⟨hm, hok, hs⟩ ⟨hpush, hstep⟩
    subst hm
    obtain ⟨hrun', hok', hs'⟩ := step_refines hok hpush hstep
    exact ⟨_, hs ▸ hrun', rfl, hok', hs'.trans hs⟩
  obtain ⟨items, hfifo, rfl, -, -⟩ := hsim
  exact ⟨hfifo, Fifo.run_puts hfifo⟩

/-- A queue of one item: thread 0 fills it, thread 1 waits with an item of its own, thread 2 pops the first one, and the
woken thread 1 finds room. -/
theorem dataqueue_refines_run : ∃ (ls : List (DqEvent Nat Nat × List (FifoEvent Nat))) (s : DqSys Nat Nat),
    s.result 1 = .eok ∧ s.dq.putIndex = 2 ∧ Run (Fifo.Step 1) [] (ls.flatMap Prod.snd) s.dq.items ∧
      Fifo.puts (ls.flatMap Prod.snd) = Fifo.gets (ls.flatMap Prod.snd) ++ s.dq.items ∧ s.dq.items.length ≤ 1 := by
  have hexec : ((([.push 0 7 (-1), .push 1 8 5, .pop 2 0, .continue 1] : List (DqEvent Nat Nat)).foldlM
      (fun s e => if PushOk s e then Run.tryStep Enabled exec s e else none)
        (init (DataQueue.rtDataQueueInit (fun _ => 0) 1 1) fun _ => 0)).map fun s => (s.result 1, s.dq.putIndex)) =
          some (.eok, 2) := by decide +kernel
  obtain ⟨s, hs, hobs⟩ := Option.map_eq_some_iff.mp hexec
  obtain ⟨ls, -, hrun⟩ := Run.observed_guarded_of_foldlM_tryStep observe hs
  exact ⟨ls, s, congrArg Prod.fst hobs, congrArg Prod.snd hobs, dataqueue_refines (by decide) hrun⟩

/-! ## A queue of one item -/

/-- A queue for one item, with these indices, and one thread, whose last call has returned `RT_EOK`. -/
def oneCell (putIndex getIndex : Nat) : DqSys Unit Unit :=
  init ⟨1, 0, getIndex, putIndex, fun _ => ()⟩ fun _ => ()

/-- A call that finds nobody waiting, and returns what the last one did. -/
theorem init_ret (dq : DataQueue V) (item : T → V) (t : T) : (init dq item).ret t .eok = init dq item := by
  simp only [ret, setPc, init, Function.update_eq_self]

/-- The thread pushes, and does not find the queue full. -/
theorem oneCell_push {p g : Nat} (h : (p : Int) - g ≠ 1) :
    (oneCell p g).ObservedStep (.push () () 0, [.put ()]) (oneCell ((p + 1) % 2 ^ 16) g) := by
  have hroom : (oneCell p g).dq.full = false := beq_eq_false_iff_ne.mpr h
  have hput : (oneCell p g).rtDataQueuePush () () 0 = oneCell ((p + 1) % 2 ^ 16) g := by
    unfold rtDataQueuePush
    rw [hroom, if_neg Bool.false_ne_true]
    exact init_ret _ _ _
  exact ⟨⟨rfl, hput.symm⟩, rfl⟩

/-- The thread pops, and does not find it empty. -/
theorem oneCell_pop {p g : Nat} (h : g ≠ p) :
    (oneCell p g).ObservedStep (.pop () 0, [.get ()]) (oneCell p ((g + 1) % 2 ^ 16)) := by
  have hne : (oneCell p g).dq.empty = false := beq_eq_false_iff_ne.mpr h
  have hget : (oneCell p g).rtDataQueuePop () 0 = oneCell p ((g + 1) % 2 ^ 16) := by
    unfold rtDataQueuePop
    rw [hne, if_neg Bool.false_ne_true]
    dsimp only
    split
    next => exact init_ret _ _ _
    next => exact init_ret _ _ _
  exact ⟨⟨rfl, hget.symm⟩, rfl⟩

/-- As often as the indices can be counted up, the thread pushes and pops in turn. -/
theorem oneCell_turns (k : Nat) (hk : k < 2 ^ 16) : ∃ ls, Run ObservedStep (oneCell 0 0) ls (oneCell k k) ∧
    (Fifo.puts (ls.flatMap Prod.snd)).length = k ∧ (Fifo.gets (ls.flatMap Prod.snd)).length = k := by
  induction k with
  | zero => exact ⟨[], .nil, rfl, rfl⟩
  | succ k ih =>
    obtain ⟨ls, hrun, hputs, hgets⟩ := ih (by omega)
    have hmod : (k + 1) % 2 ^ 16 = k + 1 := Nat.mod_eq_of_lt hk
    have hpush := oneCell_push (p := k) (g := k) (by omega)
    have hpop := oneCell_pop (p := (k + 1) % 2 ^ 16) (g := k) (by omega)
    rw [hmod] at hpop
    rw [hmod] at hpush
    refine ⟨_, .snoc (.snoc hrun hpush) hpop, ?_, ?_⟩
    · simp only [List.flatMap_append, List.flatMap_singleton, Fifo.puts_append, List.length_append, hputs,
        Fifo.puts_put, Fifo.puts_get, List.length_singleton, List.length_nil]
    · simp only [List.flatMap_append, List.flatMap_singleton, Fifo.gets_append, List.length_append, hgets,
        Fifo.gets_put, Fifo.gets_get, List.length_singleton, List.length_nil]

/-- **A full queue that is not seen to be full.** After 65535 items have passed through a queue of one item, two more
are pushed, and both calls return `RT_EOK`. -/
theorem dataqueue_overwrites : ¬ ∀ (queue : Nat → Unit) (size lwm : Nat) (item : Unit → Unit)
    (ls : List (DqEvent Unit Unit × List (FifoEvent Unit))) (s : DqSys Unit Unit), size < 2 ^ 16 →
    Run ObservedStep (init (DataQueue.rtDataQueueInit queue size lwm) item) ls s →
      ∃ items, Run (Fifo.Step size) [] (ls.flatMap Prod.snd) items := by
  intro hall
  obtain ⟨ls, hrun, hputs, hgets⟩ := oneCell_turns 65535 (by omega)
  have hpush := oneCell_push (p := 65535) (g := 65535) (by omega)
  have hpush' := oneCell_push (p := (65535 + 1) % 2 ^ 16) (g := 65535) (by omega)
  obtain ⟨items, hfifo⟩ := hall (fun _ => ()) 1 0 (fun _ => ()) _ _ (by omega) (.snoc (.snoc hrun hpush) hpush')
  obtain ⟨heq, hlen⟩ := Fifo.run_puts hfifo
  -- one item more than the queue can hold is in it
  have hcount := congrArg List.length heq
  simp only [List.flatMap_append, List.flatMap_singleton, Fifo.puts_append, Fifo.gets_append, List.length_append,
    Fifo.puts_put, Fifo.gets_put, List.length_singleton, List.length_nil, hputs, hgets] at hcount
  omega

end DqSys

end CoreLink.RtThread
