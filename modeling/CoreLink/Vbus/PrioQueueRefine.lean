/-
# `CoreLink.Vbus.PrioQueueRefine` — the priority queue does what `PqSpec` says, in every interleaving.

`Refines s a slots` relates a state of the code to a state of the abstract queue: the list of each priority is a chain
through its `slots` that `tail` ends, unless it is empty and `tail` dangles; the bitmap has the bits of the lists that are
not empty; every block of the pool is free, on one of the lists, or in flight in one call; and the items hold the values
of the abstract queue in order. As for the message queue there are two rules, `Refines.quiet` for steps that move no block
and `Refines.move` for the others.
-/
import CoreLink.Vbus.PrioQueueSpec

namespace CoreLink.Vbus

open CoreLink.Lib CoreLink.RtThread

variable {T α : Type*}

/-! ## Observations -/

/-- What a `_do_pop` of `t` shows. -/
def PqSys.observePop (s : PqSys T α) (t : T) : PqSpecEvent T α := if rtFfs s.que.bitmap = 0 then .empty t else .take t

/-- What is observed of a step: a block is allocated for a push, an item is linked or taken, a pop returns with a value. -/
def PqSys.observe (s : PqSys T α) : PqEvent T α → List (PqSpecEvent T α)
  | .alloc t _ =>
      match s.pc t with
      | .allocating prio x => [.accept t prio x]
      | _ => []
  | .pop t _ => [s.observePop t]
  | .continue t =>
      match s.pc t with
      | .linking _ _ => [.link t]
      | .woken _ => if s.error t = .eok then [s.observePop t] else []
      | .copied _ x => [.finish t x]
      | _ => []
  | .push .. | .allocFail _ | .timeout _ | .resume _ => []

/-- A step together with what is observed of it. -/
def PqSys.ObservedStep [DecidableEq T] (s : PqSys T α) (l : PqEvent T α × List (PqSpecEvent T α)) (s' : PqSys T α) :
    Prop :=
  s.Step l.1 s' ∧ l.2 = s.observe l.1

/-! ## The relation -/

/-- A thread's position in its call, against what the abstract queue says of the thread. -/
def PqPcOk (q : PrioQueue α) (pending receiving : Option (PqItem T α)) : PqPc α → Prop
  | .idle | .waiting _ | .woken _ => pending = none ∧ receiving = none
  | .allocating prio _ => prio < rtPrioQueuePrioMax ∧ pending = none ∧ receiving = none
  | .copying prio x _ =>
      receiving = none ∧ ∃ m, pending = some m ∧ m.prio = prio ∧ m.value = x
  | .linking prio item =>
      receiving = none ∧ q.next item = none ∧ ∃ m, pending = some m ∧ m.prio = prio ∧ q.data item = m.value
  | .holding item => pending = none ∧ ∃ m, receiving = some m ∧ q.data item = m.value
  | .copied _ x => pending = none ∧ ∃ m, receiving = some m ∧ x = m.value

/-- The list of one priority. -/
structure LaneOk (q : PrioQueue α) (prio : Nat) (slots : List Nat) (items : List (PqItem T α)) : Prop where
  chain : Chain q.next (q.head prio) slots
  tail : slots ≠ [] → q.tail prio = slots.getLast?
  bit : q.bitmap.getLsbD prio = true ↔ slots ≠ []
  stored : List.Forall₂ (fun item m => q.data item = m.value) slots items

/-- The blocks on all lists. -/
def queuedSlots (slots : Nat → List Nat) : List Nat := (List.range rtPrioQueuePrioMax).flatMap slots

/-- The refinement relation, for a pool of `n` blocks; `slots` are the blocks of each list. -/
structure Refines (n : Nat) (s : PqSys T α) (a : PqSpec T α) (slots : Nat → List Nat) : Prop where
  pool : Partition (· < n) (s.que.free ++ queuedSlots slots) fun t => (s.pc t).slot
  lanes : ∀ p < rtPrioQueuePrioMax, LaneOk s.que p (slots p) (a.queue p)
  pcOk : ∀ t, PqPcOk s.que (a.pending t) (a.receiving t) (s.pc t)

theorem mem_queuedSlots {slots : Nat → List Nat} {p b : Nat} (hp : p < rtPrioQueuePrioMax) (hb : b ∈ slots p) :
    b ∈ queuedSlots slots :=
  List.mem_flatMap.mpr ⟨p, List.mem_range.mpr hp, hb⟩

/-- Items stay stored while their blocks are not written. -/
theorem stored_congr {data data' : Nat → α} {slots : List Nat} {items : List (PqItem T α)}
    (h : List.Forall₂ (fun item m => data item = m.value) slots items) (hdata : ∀ b ∈ slots, data' b = data b) :
    List.Forall₂ (fun item m => data' item = m.value) slots items := by
  induction h with
  | nil => exact .nil
  | cons hm _ ih =>
      exact .cons ((hdata _ List.mem_cons_self).trans hm) (ih fun b hb => hdata b (List.mem_cons_of_mem _ hb))

theorem LaneOk.congr {q q' : PrioQueue α} {p : Nat} {slots : List Nat} {items : List (PqItem T α)}
    (h : LaneOk q p slots items) (hhead : q'.head p = q.head p) (htail : q'.tail p = q.tail p)
    (hbit : q'.bitmap.getLsbD p = q.bitmap.getLsbD p) (hnext : ∀ b ∈ slots, q'.next b = q.next b)
    (hdata : ∀ b ∈ slots, q'.data b = q.data b) : LaneOk q' p slots items where
  chain := hhead ▸ h.chain.congr hnext
  tail := htail ▸ h.tail
  bit := hbit ▸ h.bit
  stored := stored_congr h.stored hdata

theorem pcOk_of_slot_none {q : PrioQueue α} {p r : Option (PqItem T α)} {pc : PqPc α} (h : pc.slot = none)
    (hok : PqPcOk q p r pc) : p = none ∧ r = none := by
  cases pc with
  | idle | waiting | woken => exact hok
  | allocating prio x => exact hok.2
  | copying | linking | holding | copied => simp [PqPc.slot] at h

theorem PqPcOk.congr {q q' : PrioQueue α} {p r : Option (PqItem T α)} {pc : PqPc α} (h : PqPcOk q p r pc)
    (hslot : ∀ b, pc.slot = some b → q'.data b = q.data b ∧ q'.next b = q.next b) : PqPcOk q' p r pc := by
  cases pc with
  | idle | waiting | woken | allocating | copying | copied => exact h
  | linking prio item =>
      obtain ⟨hdata, hnext⟩ := hslot item rfl
      obtain ⟨hr, hnull, m, hp, hm, hv⟩ := h
      exact ⟨hr, hnext.trans hnull, m, hp, hm, hdata.trans hv⟩
  | holding item =>
      obtain ⟨hdata, -⟩ := hslot item rfl
      obtain ⟨hp, m, hr, hv⟩ := h
      exact ⟨hp, m, hr, hdata.trans hv⟩

/-! ## Steps that move no block -/

/-- `s'` is `s`, but for threads that go from one position without a block to another, and what `Refines` does not look
at. -/
structure Quiet (s s' : PqSys T α) : Prop where
  que_eq : s'.que = s.que
  pc_or : ∀ t, s'.pc t = s.pc t ∨
    ((s.pc t).slot = none ∧ (s'.pc t).slot = none ∧ PqPcOk (T := T) s.que none none (s'.pc t))

theorem Quiet.slot_eq {s s' : PqSys T α} (h : Quiet s s') (t : T) : (s'.pc t).slot = (s.pc t).slot := by
  rcases h.pc_or t with h | ⟨h, h', -⟩
  · rw [h]
  · rw [h, h']

theorem Quiet.refl (s : PqSys T α) : Quiet s s := ⟨rfl, fun _ => .inl rfl⟩

theorem Quiet.trans {s s' s'' : PqSys T α} (h : Quiet s s') (h' : Quiet s' s'') : Quiet s s'' where
  que_eq := h'.que_eq.trans h.que_eq
  pc_or t := by
    rcases h'.pc_or t with h₂ | ⟨h₂, h₂', hok⟩
    · rw [h₂]
      exact h.pc_or t
    · exact .inr ⟨(h.slot_eq t).symm.trans h₂, h₂', h.que_eq ▸ hok⟩

/-- **Steps that move no block.** -/
theorem Refines.quiet {n : Nat} {s s' : PqSys T α} {a : PqSpec T α} {slots : Nat → List Nat} (h : Refines n s a slots)
    (hq : Quiet s s') : Refines n s' a slots := by
  refine ⟨?_, by rw [hq.que_eq]; exact h.lanes, fun t => ?_⟩
  · simp only [hq.que_eq, hq.slot_eq]
    exact h.pool
  · rw [hq.que_eq]
    rcases hq.pc_or t with ht | ⟨ht, -, hok⟩
    · rw [ht]
      exact h.pcOk t
    · obtain ⟨hp, hr⟩ := pcOk_of_slot_none ht (h.pcOk t)
      rw [hp, hr]
      exact hok

variable [DecidableEq T]

/-- A thread goes from one position without a block to another. -/
theorem Quiet.setPc {s : PqSys T α} {t : T} {pc : PqPc α} (h : (s.pc t).slot = none) (h' : pc.slot = none)
    (hok : PqPcOk (T := T) s.que none none pc) : Quiet s (s.setPc t pc) where
  que_eq := rfl
  pc_or u := by
    by_cases hu : u = t
    · subst hu
      simp only [PqSys.setPc, Function.update_self]
      exact .inr ⟨h, h', hok⟩
    · exact .inl (Function.update_of_ne hu _ _)

theorem quiet_wake (s : PqSys T α) (t : T) : Quiet s (s.wake t) where
  que_eq := rfl
  pc_or u := by
    by_cases hu : u = t
    · subst hu
      simp only [PqSys.wake, PqSys.setPc, Function.update_self]
      cases s.pc u with
      | waiting timeout => exact .inr ⟨rfl, rfl, rfl, rfl⟩
      | _ => exact .inl rfl
    · exact .inl (Function.update_of_ne hu _ _)

theorem quiet_setError (s : PqSys T α) (t : T) (e : PqErr) : Quiet s (s.setError t e) := ⟨rfl, fun _ => .inl rfl⟩

/-- A call without a block returns. -/
theorem quiet_ret {s : PqSys T α} {t : T} (h : (s.pc t).slot = none) (e : PqErr) : Quiet s (s.ret t e) := by
  have hok : PqPcOk (T := T) s.que none none .idle := ⟨rfl, rfl⟩
  exact ⟨rfl, (Quiet.setPc h rfl hok).pc_or⟩

/-- The return of a call does not depend on who was woken before. -/
theorem Quiet.ret {s s' : PqSys T α} (h : Quiet s s') (t : T) (e : PqErr) : Quiet (s.ret t e) (s'.ret t e) where
  que_eq := h.que_eq
  pc_or u := by
    by_cases hu : u = t
    · subst hu
      left
      simp [PqSys.ret, PqSys.setPc]
    · simpa [PqSys.ret, PqSys.setPc, hu] using h.pc_or u

theorem quiet_resumeFirst (s : PqSys T α) : Quiet s s.resumeFirst := by
  unfold PqSys.resumeFirst
  split
  · exact .refl s
  · exact quiet_wake s _

/-! ## Steps that move a block -/

section Move

variable {n : Nat} {s s' : PqSys T α} {a a' : PqSpec T α} {slots slots' : Nat → List Nat} {t : T}

/-- **A block changes its place.** What the step must show: the free blocks and the lists with the block of `t` are the old
ones with the block `t` had; `next` and the data are kept where another thread holds a block; and the clauses about the
lists and about `t`. -/
theorem Refines.move (h : Refines n s a slots) (pc : PqPc α) (hpc : s'.pc = Function.update s.pc t pc)
    (hperm : (s'.que.free ++ queuedSlots slots' ++ pc.slot.toList).Perm
      (s.que.free ++ queuedSlots slots ++ (s.pc t).slot.toList))
    (hframe : ∀ u b, u ≠ t → (s.pc u).slot = some b → s'.que.data b = s.que.data b ∧ s'.que.next b = s.que.next b)
    (hlanes : ∀ p < rtPrioQueuePrioMax, LaneOk s'.que p (slots' p) (a'.queue p))
    (hother : ∀ u, u ≠ t → a'.pending u = a.pending u ∧ a'.receiving u = a.receiving u)
    (ht : PqPcOk s'.que (a'.pending t) (a'.receiving t) pc) : Refines n s' a' slots' := by
  refine ⟨?_, hlanes, fun u => ?_⟩
  · have hslot : (fun u => (s'.pc u).slot) = Function.update (fun u => (s.pc u).slot) t pc.slot := by
      funext u
      rw [hpc]
      by_cases hu : u = t
      · subst hu
        simp
      · simp [hu]
    rw [hslot]
    exact h.pool.move t pc.slot hperm
  · rw [hpc]
    by_cases hu : u = t
    · subst hu
      rw [Function.update_self]
      exact ht
    · rw [Function.update_of_ne hu, (hother u hu).1, (hother u hu).2]
      exact (h.pcOk u).congr fun b hb => hframe u b hu hb

omit [DecidableEq T] in
/-- A block that a thread holds is neither free, nor on a list, nor held by another thread. -/
theorem Refines.held_ne (h : Refines n s a slots) {u : T} {b x : Nat} (hb : (s.pc u).slot = some b)
    (hx : x ∈ s.que.free ∨ (∃ p < rtPrioQueuePrioMax, x ∈ slots p) ∨ ∃ v, v ≠ u ∧ (s.pc v).slot = some x) : b ≠ x := by
  rintro rfl
  rcases hx with hx | ⟨p, hp, hx⟩ | ⟨v, hv, hx⟩
  · exact h.pool.held_notMem hb (List.mem_append_left _ hx)
  · exact h.pool.held_notMem hb (List.mem_append_right _ (mem_queuedSlots hp hx))
  · exact hv (h.pool.held_inj hx hb)

omit [DecidableEq T] in
/-- A block is on one list only. -/
theorem Refines.lane_inj (h : Refines n s a slots) {p p' b : Nat} (hp : p < rtPrioQueuePrioMax)
    (hp' : p' < rtPrioQueuePrioMax) (hb : b ∈ slots p) (hb' : b ∈ slots p') : p = p' := by
  have hnd : (queuedSlots slots).Nodup := h.pool.nodup.of_append_right
  rw [queuedSlots, List.nodup_flatMap] at hnd
  by_contra hne
  have hsymm : Std.Symm (Function.onFun List.Disjoint slots) := ⟨fun _ _ hd => hd.symm⟩
  exact hnd.2.forall (List.mem_range.mpr hp) (List.mem_range.mpr hp') hne hb hb'

omit [DecidableEq T] in
theorem Refines.lane_nodup (h : Refines n s a slots) {p : Nat} (hp : p < rtPrioQueuePrioMax) : (slots p).Nodup := by
  have hnd : (queuedSlots slots).Nodup := h.pool.nodup.of_append_right
  exact (List.nodup_flatMap.mp hnd).1 p (List.mem_range.mpr hp)

end Move

/-- The blocks on all lists, when one list changes. -/
theorem queuedSlots_update (slots : Nat → List Nat) {p : Nat} (hp : p < rtPrioQueuePrioMax) (ns xs ys : List Nat)
    (h : (ns ++ xs).Perm (slots p ++ ys)) :
    (queuedSlots (Function.update slots p ns) ++ xs).Perm (queuedSlots slots ++ ys) :=
  flatMap_update_perm List.nodup_range (List.mem_range.mpr hp) h

/-! ## Pushing -/

section Steps

variable {n : Nat} {s s' : PqSys T α} {a : PqSpec T α} {slots : Nat → List Nat} {t : T}

/-- `rt_mp_alloc` hands a free block to the caller. -/
theorem allocated_refines (h : Refines n s a slots) {prio item : Nat} {x : α} (ht : s.pc t = .allocating prio x)
    (hitem : item ∈ s.que.free) :
    ∃ a', PqSpec.Step a (.accept t prio x) a' ∧ Refines n (s.allocated t item) a' slots := by
  obtain ⟨hprio, hp, hr⟩ : PqPcOk s.que (a.pending t) (a.receiving t) (.allocating prio x) := ht ▸ h.pcOk t
  have hstep : PqSpec.Step a (.accept t prio x) _ := .accept hprio hp hr
  have hslot : (s.pc t).slot = none := by rw [ht]; rfl
  have hperm : (s.que.free.erase item ++ queuedSlots slots ++ [item]).Perm
      (s.que.free ++ queuedSlots slots ++ []) := by
    rw [List.append_nil]
    exact (List.perm_append_singleton item _).trans
      ((List.perm_cons_erase hitem).symm.append_right (queuedSlots slots))
  refine ⟨_, hstep, ?_⟩
  unfold PqSys.allocated
  rw [ht]
  refine h.move (.copying prio x item) rfl (hslot ▸ hperm) (fun _ _ _ _ => ⟨rfl, rfl⟩)
    (fun p hp => (h.lanes p hp).congr rfl rfl rfl (fun _ _ => rfl) fun _ _ => rfl)
    (fun u hu => ⟨Function.update_of_ne hu _ _, rfl⟩) ?_
  exact ⟨hr, _, Function.update_self .., rfl, rfl⟩

/-- The copy into the block, with the interrupts enabled. -/
theorem fill_refines (h : Refines n s a slots) {prio item : Nat} {x : α} (ht : s.pc t = .copying prio x item) :
    Refines n ({ s with que := s.que.fill item x }.setPc t (.linking prio item)) a slots := by
  obtain ⟨hr, m, hp, hm, hv⟩ : PqPcOk s.que (a.pending t) (a.receiving t) (.copying prio x item) := ht ▸ h.pcOk t
  have hslot : (s.pc t).slot = some item := by rw [ht]; rfl
  have hne : ∀ p < rtPrioQueuePrioMax, ∀ b ∈ slots p, b ≠ item := fun p hp b hb =>
    (h.held_ne hslot (.inr (.inl ⟨p, hp, hb⟩))).symm
  refine h.move (.linking prio item) rfl (by rw [hslot]; rfl) (fun u b hu hb => ?_) (fun p hp => ?_)
    (fun _ _ => ⟨rfl, rfl⟩) ⟨hr, Function.update_self .., m, hp, hm, ?_⟩
  · have hb' : b ≠ item := h.held_ne hb (.inr (.inr ⟨t, hu.symm, hslot⟩))
    exact ⟨Function.update_of_ne hb' _ _, Function.update_of_ne hb' _ _⟩
  · exact (h.lanes p hp).congr rfl rfl rfl (fun b hb => Function.update_of_ne (hne p hp b hb) _ _)
      fun b hb => Function.update_of_ne (hne p hp b hb) _ _
  · exact (Function.update_self ..).trans hv.symm

omit [DecidableEq T] in
/-- **`_do_push`** puts the item behind the last one of its list. -/
theorem doPush_spec (h : Refines n s a slots) {prio item : Nat} {m : PqItem T α} (hprio : prio < rtPrioQueuePrioMax)
    (hslot : (s.pc t).slot = some item) (hnull : s.que.next item = none) (hv : s.que.data item = m.value) :
    ∃ que, s.que.doPush prio item = some que ∧ que.free = s.que.free ∧ que.data = s.que.data ∧
      (∀ b, b ∉ slots prio → que.next b = s.que.next b) ∧ LaneOk que prio (slots prio ++ [item]) (a.queue prio ++ [m]) ∧
      ∀ p < rtPrioQueuePrioMax, p ≠ prio → LaneOk que p (slots p) (a.queue p) := by
  have hlane := h.lanes prio hprio
  have hlt : prio < 32 := hprio
  have hnot : item ∉ slots prio := fun hi => h.held_ne hslot (.inr (.inl ⟨prio, hprio, hi⟩)) rfl
  have hstored : List.Forall₂ (fun item m => s.que.data item = m.value) (slots prio ++ [item]) (a.queue prio ++ [m]) :=
    List.rel_append hlane.stored (.cons hv .nil)
  unfold PrioQueue.doPush
  rcases List.eq_nil_or_concat' (slots prio) with hnil | ⟨xs, last, hlast⟩
  · -- an empty list: the item becomes the head, and the bit is set
    have hhead : s.que.head prio = none := by rw [hlane.chain.head_eq, hnil]; rfl
    simp only [hhead]
    refine ⟨_, rfl, rfl, rfl, fun _ _ => rfl, ⟨?_, fun _ => ?_, ?_, hstored⟩, fun p hp hpne => ?_⟩
    · rw [hnil]
      exact ⟨Function.update_self .., hnull⟩
    · simp
    · have hbit : (1#32 <<< prio).getLsbD prio = true := by rw [one_shiftLeft_getLsbD hlt, decide_eq_true rfl]
      simp [BitVec.getLsbD_or, hbit]
    · have hbit : (1#32 <<< prio).getLsbD p = false := by rw [one_shiftLeft_getLsbD hlt, decide_eq_false hpne]
      exact (h.lanes p hp).congr (Function.update_of_ne hpne _ _) (Function.update_of_ne hpne _ _)
        (by rw [BitVec.getLsbD_or, hbit, Bool.or_false]) (fun _ _ => rfl) fun _ _ => rfl
  · -- the last item's link is set
    obtain ⟨head, hhead⟩ : ∃ head, s.que.head prio = some head := by
      rw [hlane.chain.head_eq, hlast]
      exact Option.ne_none_iff_exists'.mp (by simp)
    have htail : s.que.tail prio = some last := by rw [hlane.tail (by simp [hlast]), hlast]; simp
    have hmem : last ∈ slots prio := by simp [hlast]
    have hnd := h.lane_nodup hprio
    simp only [hhead, htail]
    refine ⟨_, rfl, rfl, rfl, fun b hb => Function.update_of_ne (ne_of_mem_of_not_mem hmem hb).symm _ _,
      ⟨?_, fun _ => ?_, ?_, hstored⟩, fun p hp hpne => ?_⟩
    · have hchain := hlane.chain
      rw [hlast] at hchain hnd hnot ⊢
      rw [List.append_assoc]
      refine hchain.append_tail (fun hl => ?_) hnot hnull
      exact (List.nodup_append.mp hnd).2.2 last hl last (by simp) rfl
    · simp
    · exact iff_of_true (hlane.bit.mpr (by simp [hlast])) (by simp)
    · refine (h.lanes p hp).congr rfl (Function.update_of_ne hpne _ _) rfl
        (fun b hb => Function.update_of_ne (ne_of_mem_of_not_mem hb fun hb' => hpne ?_) _ _) fun _ _ => rfl
      exact h.lane_inj hp hprio hb' hmem

/-- The critical section of a push. -/
theorem link_refines (h : Refines n s a slots) {prio item : Nat} (ht : s.pc t = .linking prio item)
    (hprio : ∀ m, a.pending t = some m → m.prio < rtPrioQueuePrioMax) :
    ∃ s' a' slots', s.link t prio item = some s' ∧ PqSpec.Step a (.link t) a' ∧ Refines n s' a' slots' := by
  obtain ⟨hr, hnull, m, hp, rfl, hv⟩ : PqPcOk s.que (a.pending t) (a.receiving t) (.linking prio item) := ht ▸ h.pcOk t
  have hslot : (s.pc t).slot = some item := by rw [ht]; rfl
  have hlt := hprio m hp
  obtain ⟨que, hque, hfree, hdata, hnext, hlane, hlanes⟩ := doPush_spec h hlt hslot hnull hv
  have hstep : PqSpec.Step a (.link t) _ := .link hp
  refine ⟨({ s with que }.resumeFirst).ret t .eok, _, Function.update slots m.prio (slots m.prio ++ [item]), ?_, hstep, ?_⟩
  · rw [PqSys.link, hque]
    rfl
  suffices Refines n ({ s with que }.ret t .eok) _ (Function.update slots m.prio (slots m.prio ++ [item])) from
    this.quiet ((quiet_resumeFirst _).ret t .eok)
  have hperm : (s.que.free ++ queuedSlots (Function.update slots m.prio (slots m.prio ++ [item])) ++ []).Perm
      (s.que.free ++ queuedSlots slots ++ [item]) := by
    have hlist := queuedSlots_update slots hlt (slots m.prio ++ [item]) [] [item] (by simp)
    simpa [List.append_assoc] using hlist.append_left s.que.free
  refine h.move .idle rfl ?_ (fun u b hu hb => ⟨by simp [PqSys.ret, PqSys.setPc, hdata], ?_⟩) (fun p hp' => ?_)
    (fun u hu => ⟨Function.update_of_ne hu _ _, rfl⟩) ⟨Function.update_self .., hr⟩
  · rw [hslot]
    show (que.free ++ _ ++ []).Perm _
    rw [hfree]
    exact hperm
  · exact hnext b fun hb' => h.held_ne hb (.inr (.inl ⟨m.prio, hlt, hb'⟩)) rfl
  · show LaneOk que p _ _
    by_cases hpm : p = m.prio
    · subst hpm
      simpa using hlane
    · simpa [hpm] using hlanes p hp' hpm

/-! ## Popping -/

omit [DecidableEq T] in
/-- No bit is set exactly when all lists are empty. -/
theorem rtFfs_eq_zero_iff (h : Refines n s a slots) :
    rtFfs s.que.bitmap = 0 ↔ ∀ p < rtPrioQueuePrioMax, slots p = [] := by
  constructor
  · intro h0 p hp
    have hzero : s.que.bitmap = 0 := by
      by_contra hne
      have := rtFfs_pos hne
      omega
    by_contra hne
    have hbit := (h.lanes p hp).bit.mpr hne
    rw [hzero] at hbit
    simp at hbit
  · intro hall
    have hzero : s.que.bitmap = 0 := by
      refine BitVec.eq_of_getLsbD_eq fun p hp => ?_
      have hbit := (h.lanes p hp).bit
      rw [hall p hp] at hbit
      simpa using hbit
    rw [hzero]
    rfl

/-- `_do_pop` of an empty queue. -/
theorem doPop_none (h : Refines n s a slots) (h0 : rtFfs s.que.bitmap = 0) (t : T) :
    s.que.doPop = some (none, s.que) ∧ PqSpec.Step a (.empty t) a := by
  refine ⟨if_pos h0, .empty fun p hp => ?_⟩
  have hstored := (h.lanes p hp).stored
  rw [(rtFfs_eq_zero_iff h).mp h0 p hp] at hstored
  exact List.forall₂_nil_left_iff.mp hstored

/-- **`_do_pop`** takes the first item of the lowest-numbered list that is not empty. -/
theorem doPop_refines (h : Refines n s a slots) (h0 : rtFfs s.que.bitmap ≠ 0) (ht : (s.pc t).slot = none) :
    ∃ item que a' slots', s.que.doPop = some (some item, que) ∧ PqSpec.Step a (.take t) a' ∧
      Refines n ({ s with que }.setPc t (.holding item)) a' slots' := by
  obtain ⟨hp, hr⟩ := pcOk_of_slot_none ht (h.pcOk t)
  have hne : s.que.bitmap ≠ 0 := fun e => h0 (by rw [e]; rfl)
  obtain ⟨hset, hlow⟩ := rtFfs_spec hne
  obtain ⟨prio, hprio⟩ : ∃ prio, prio = rtFfs s.que.bitmap - 1 := ⟨_, rfl⟩
  rw [← hprio] at hset hlow
  have hlt : prio < 32 := by
    by_contra hge
    rw [BitVec.getLsbD_of_ge _ _ (by omega)] at hset
    exact Bool.false_ne_true hset
  have hlane := h.lanes prio hlt
  have hnd := h.lane_nodup (p := prio) hlt
  obtain ⟨item, rest, hslots⟩ : ∃ item rest, slots prio = item :: rest :=
    List.exists_cons_of_ne_nil (hlane.bit.mp hset)
  have hchain := hlane.chain
  have hstored := hlane.stored
  rw [hslots] at hchain hstored hnd
  obtain ⟨hhead, hrest⟩ := hchain
  obtain ⟨m, ms, hv, hms, hq⟩ : ∃ m ms, s.que.data item = m.value ∧
      List.Forall₂ (fun item m => s.que.data item = m.value) rest ms ∧ a.queue prio = m :: ms := by
    generalize a.queue prio = q at hstored ⊢
    cases hstored with
    | cons hm hms => exact ⟨_, _, hm, hms, rfl⟩
  have hlowest : ∀ p < prio, a.queue p = [] := fun p hp' => by
    have hp32 : p < 32 := by omega
    have hlane' := h.lanes p hp32
    have hbit := hlane'.bit
    rw [hlow p hp'] at hbit
    have hnil : slots p = [] := by simpa using hbit
    have hstored' := hlane'.stored
    rw [hnil] at hstored'
    exact List.forall₂_nil_left_iff.mp hstored'
  have hstep : PqSpec.Step a (.take t) _ := .take hlt hlowest hq hp hr
  have hpop : s.que.doPop = some (some item, { s.que with
      head := Function.update s.que.head prio (s.que.next item)
      bitmap := if s.que.next item = none then s.que.bitmap &&& ~~~(1#32 <<< prio) else s.que.bitmap }) := by
    unfold PrioQueue.doPop
    rw [if_neg h0, ← hprio]
    simp only [hhead]
  refine ⟨item, _, _, Function.update slots prio rest, hpop, hstep, ?_⟩
  have hperm : (s.que.free ++ queuedSlots (Function.update slots prio rest) ++ [item]).Perm
      (s.que.free ++ queuedSlots slots ++ []) := by
    have hlist := queuedSlots_update slots (p := prio) hlt rest [item] []
      (by rw [hslots, List.append_nil]; exact List.perm_append_singleton item rest)
    simpa [List.append_assoc] using hlist.append_left s.que.free
  have hbits : ∀ p < 32, (if s.que.next item = none then s.que.bitmap &&& ~~~(1#32 <<< prio)
      else s.que.bitmap).getLsbD p = true ↔ s.que.bitmap.getLsbD p = true ∧ (p = prio → rest ≠ []) := fun p hp' => by
    rw [hrest.head_eq]
    split_ifs with hnil
    · rw [and_not_getLsbD _ hlt hp']
      simp [List.head?_eq_none_iff.mp hnil]
    · have hrest' : rest ≠ [] := fun e => hnil (by rw [e]; rfl)
      simp [hrest']
  refine h.move (.holding item) rfl (by rw [ht]; exact hperm) (fun _ _ _ _ => ⟨rfl, rfl⟩) (fun p hp' => ?_)
    (fun u hu => ⟨rfl, Function.update_of_ne hu _ _⟩) ⟨hp, m, Function.update_self .., hv⟩
  by_cases hpp : p = prio
  · subst hpp
    refine ⟨?_, fun hne' => ?_, ?_, ?_⟩
    · simpa [PqSys.setPc] using hrest
    · have htail := hlane.tail (by simp [hslots])
      rw [Function.update_self] at hne' ⊢
      rw [hslots] at htail
      refine htail.trans ?_
      cases rest with
      | nil => exact absurd rfl hne'
      | cons x xs => exact List.getLast?_cons_cons
    · rw [Function.update_self]
      exact (hbits p hlt).trans ⟨fun hb => hb.2 rfl, fun hb => ⟨hset, fun _ => hb⟩⟩
    · simpa [PqSys.setPc] using hms
  · have hlane' := h.lanes p hp'
    simp only [Function.update_of_ne hpp]
    refine ⟨?_, hlane'.tail, ?_, hlane'.stored⟩
    · show Chain s.que.next (Function.update s.que.head prio (s.que.next item) p) (slots p)
      rw [Function.update_of_ne hpp]
      exact hlane'.chain
    · exact ((hbits p hp').trans ⟨fun hb => hb.1, fun hb => ⟨hb, fun e => absurd e hpp⟩⟩).trans hlane'.bit

/-- `rt_prio_queue_pop` from a `_do_pop` of its loop on. -/
theorem popEntry_refines (h : Refines n s a slots) (ht : (s.pc t).slot = none) (timeout : Int) :
    ∃ s' a' slots', s.popEntry t timeout = some s' ∧ PqSpec.Step a (s.observePop t) a' ∧ Refines n s' a' slots' := by
  unfold PqSys.popEntry PqSys.observePop
  by_cases h0 : rtFfs s.que.bitmap = 0
  · obtain ⟨hpop, hstep⟩ := doPop_none h h0 t
    rw [if_pos h0, hpop]
    simp only
    split_ifs with htimeout
    · exact ⟨_, a, slots, rfl, hstep, h.quiet (quiet_ret ht .etimeout)⟩
    · have hok : PqPcOk (T := T) s.que none none (.waiting timeout) := ⟨rfl, rfl⟩
      have hquiet : Quiet s ({ s.setError t .eok with
          que := s.que, suspendedPopList := s.suspendedPopList ++ [t] }.setPc t (.waiting timeout)) :=
        ⟨rfl, (Quiet.setPc ht rfl hok).pc_or⟩
      exact ⟨_, a, slots, rfl, hstep, h.quiet hquiet⟩
  · obtain ⟨item, que, a', slots', hpop, hstep, h'⟩ := doPop_refines h h0 ht
    rw [if_neg h0, hpop]
    exact ⟨_, a', slots', rfl, hstep, h'⟩

/-- The copy out of the block, with the interrupts enabled. -/
theorem copied_refines (h : Refines n s a slots) {item : Nat} (ht : s.pc t = .holding item) :
    Refines n (s.setPc t (.copied item (s.que.data item))) a slots := by
  obtain ⟨hp, m, hr, hv⟩ : PqPcOk s.que (a.pending t) (a.receiving t) (.holding item) := ht ▸ h.pcOk t
  exact h.move (.copied item (s.que.data item)) rfl (by rw [ht]; rfl) (fun _ _ _ _ => ⟨rfl, rfl⟩) h.lanes
    (fun _ _ => ⟨rfl, rfl⟩) ⟨hp, m, hr, hv⟩

/-- `rt_mp_free` at the end of a pop. -/
theorem release_refines (h : Refines n s a slots) {item : Nat} {x : α} (ht : s.pc t = .copied item x) :
    ∃ a', PqSpec.Step a (.finish t x) a' ∧ Refines n ({ s with que := s.que.mpFree item }.ret t .eok) a' slots := by
  obtain ⟨hp, m, hr, rfl⟩ : PqPcOk s.que (a.pending t) (a.receiving t) (.copied item x) := ht ▸ h.pcOk t
  have hslot : (s.pc t).slot = some item := by rw [ht]; rfl
  have hstep : PqSpec.Step a (.finish t m.value) _ := .finish hr
  have hperm : (item :: s.que.free ++ queuedSlots slots ++ []).Perm (s.que.free ++ queuedSlots slots ++ [item]) := by
    rw [List.append_nil]
    exact (List.perm_append_singleton item (s.que.free ++ queuedSlots slots)).symm
  exact ⟨_, hstep, h.move .idle rfl (hslot ▸ hperm) (fun _ _ _ _ => ⟨rfl, rfl⟩)
    (fun p hp => (h.lanes p hp).congr rfl rfl rfl (fun _ _ => rfl) fun _ _ => rfl)
    (fun u hu => ⟨rfl, Function.update_of_ne hu _ _⟩) ⟨hp, Function.update_self ..⟩⟩

/-! ## Steps and runs -/

/-- The next step of a call. -/
theorem continueCall_refines (h : Refines n s a slots) (hc : a.Conserved) (t : T) :
    ∃ s' a' slots', s.continueCall t = some s' ∧ Run PqSpec.Step a (s.observe (.continue t)) a' ∧
      Refines n s' a' slots' := by
  simp only [PqSys.continueCall, PqSys.observe]
  cases ht : s.pc t with
  | idle | waiting | allocating => exact ⟨s, a, slots, rfl, .nil, h⟩
  | copying prio x item => exact ⟨_, a, slots, rfl, .nil, fill_refines h ht⟩
  | linking prio item =>
      obtain ⟨s', a', slots', hs', hstep, h'⟩ :=
        link_refines h ht fun m hp => hc.prios m ((hc.place.cover m).mpr (.inr ⟨t, hp⟩))
      exact ⟨s', a', slots', hs', .single hstep, h'⟩
  | holding item => exact ⟨_, a, slots, rfl, .nil, copied_refines h ht⟩
  | copied item x =>
      obtain ⟨a', hstep, h'⟩ := release_refines h ht
      exact ⟨_, a', slots, rfl, .single hstep, h'⟩
  | woken timeout =>
      have hslot : (s.pc t).slot = none := by rw [ht]; rfl
      simp only [PqSys.popWoken]
      by_cases herr : s.error t = .eok
      · obtain ⟨s', a', slots', hs', hstep, h'⟩ := popEntry_refines h hslot timeout
        rw [if_neg (not_not.mpr herr), if_pos herr]
        exact ⟨s', a', slots', hs', .single hstep, h'⟩
      · rw [if_pos herr, if_neg herr]
        exact ⟨_, a, slots, rfl, .nil, h.quiet (quiet_ret hslot _)⟩

/-- **One step.** Whatever can happen does happen (no assertion fails and no call reads through `RT_NULL`), is a run of the
abstract queue with the events observed, and keeps the relation. -/
theorem step_refines (h : Refines n s a slots) (hc : a.Conserved) {e : PqEvent T α} (he : s.Enabled e) :
    ∃ s' a' slots', s.exec e = some s' ∧ Run PqSpec.Step a (s.observe e) a' ∧ Refines n s' a' slots' := by
  have hidle : ∀ {t}, (s.pc t).isIdle → (s.pc t).slot = none := fun {t} ht => by
    cases hpc : s.pc t <;> simp [hpc, PqPc.isIdle, PqPc.slot] at ht ⊢
  have halloc : ∀ {t}, (s.pc t).isAllocating → ∃ prio x, s.pc t = .allocating prio x := fun {t} ht => by
    cases hpc : s.pc t <;> simp [hpc, PqPc.isAllocating] at ht ⊢
  cases e with
  | push t prio x =>
      refine ⟨_, a, slots, rfl, .nil, h.quiet ?_⟩
      unfold PqSys.rtPrioQueuePush
      split_ifs with hprio
      · exact quiet_ret (hidle he) .error
      · have hok : PqPcOk (T := T) s.que none none (.allocating prio x) := ⟨not_le.mp hprio, rfl, rfl⟩
        exact Quiet.setPc (hidle he) rfl hok
  | alloc t item =>
      obtain ⟨prio, x, ht⟩ := halloc he.1
      obtain ⟨a', hstep, h'⟩ := allocated_refines h ht he.2
      refine ⟨_, a', slots, rfl, ?_, h'⟩
      simp only [PqSys.observe, ht]
      exact .single hstep
  | allocFail t =>
      obtain ⟨prio, x, ht⟩ := halloc he
      exact ⟨_, a, slots, rfl, .nil, h.quiet (quiet_ret (by rw [ht]; rfl) .enomem)⟩
  | pop t timeout =>
      obtain ⟨s', a', slots', hs', hstep, h'⟩ := popEntry_refines h (hidle he) timeout
      exact ⟨s', a', slots', hs', .single hstep, h'⟩
  | «continue» t => exact continueCall_refines h hc t
  | timeout t => exact ⟨_, a, slots, rfl, .nil, h.quiet ((quiet_setError s t _).trans (quiet_wake _ t))⟩
  | resume t => exact ⟨_, a, slots, rfl, .nil, h.quiet (quiet_wake s t)⟩

end Steps

omit [DecidableEq T] in
/-- A new object refines the empty queue. -/
theorem init_refines (n : Nat) (next : Nat → Option Nat) (data : Nat → α) :
    Refines (T := T) n (.init (.rtPrioQueueInit n next data)) .init fun _ => [] := by
  have hnil : queuedSlots (fun _ => []) = [] := rfl
  refine ⟨⟨?_, nofun, nofun, fun b => ?_⟩, fun p _ => ⟨rfl, nofun, ?_, .nil⟩, fun _ => ⟨rfl, rfl⟩⟩
  · rw [hnil, List.append_nil]
    exact List.nodup_range
  · rw [hnil, List.append_nil]
    simp [PqSys.init, PrioQueue.rtPrioQueueInit, PqPc.slot]
  · simp [PqSys.init, PrioQueue.rtPrioQueueInit]

/-- What the fields of the queue say of its lists. -/
structure PrioQueue.Listed (q : PrioQueue α) : Prop where
  bit_iff : ∀ p < rtPrioQueuePrioMax, q.bitmap.getLsbD p = true ↔ q.head p ≠ none
  ends : ∀ p < rtPrioQueuePrioMax, q.head p ≠ none → ∃ slots, Chain q.next (q.head p) slots ∧ q.tail p = slots.getLast?

omit [DecidableEq T] in
theorem Refines.listed {n : Nat} {s : PqSys T α} {a : PqSpec T α} {slots : Nat → List Nat} (h : Refines n s a slots) :
    s.que.Listed := by
  have hhead : ∀ p < rtPrioQueuePrioMax, s.que.head p ≠ none ↔ slots p ≠ [] := fun p hp => by
    rw [(h.lanes p hp).chain.head_eq, ne_eq, List.head?_eq_none_iff]
  refine ⟨fun p hp => (h.lanes p hp).bit.trans (hhead p hp).symm, fun p hp hne => ⟨slots p, (h.lanes p hp).chain, ?_⟩⟩
  exact (h.lanes p hp).tail ((hhead p hp).mp hne)

/-- **The priority queue, in every interleaving.** After any run from a new object with a pool of `n` blocks: a bit of the
bitmap is set exactly when its list is not empty, and each list that is not empty ends at its tail; what was observed of
the run is a run of the abstract queue, in which a pop takes the oldest item of the lowest-numbered list that is not empty
and later returns with its value; every item pushed is taken at most once and none is lost; the blocks of the pool are
exactly the free ones, the queued ones, which hold the values of the abstract queue in order, and those in flight in one
call each; and everything that can happen next does happen. -/
theorem prio_queue_refines (n : Nat) (next : Nat → Option Nat) (data : Nat → α)
    {ls : List (PqEvent T α × List (PqSpecEvent T α))} {s : PqSys T α}
    (hrun : Run PqSys.ObservedStep (.init (.rtPrioQueueInit n next data)) ls s) :
    s.que.Listed ∧
      (∃ a slots, Run PqSpec.Step .init (ls.flatMap Prod.snd) a ∧ Refines n s a slots ∧ a.Conserved) ∧
      ∀ e, s.Enabled e → ∃ s', s.exec e = some s' := by
  obtain ⟨a, ha, ⟨slots, h⟩, hc⟩ :=
    hrun.simulate Prod.snd (R := fun s a => (∃ slots, Refines n s a slots) ∧ a.Conserved)
      ⟨⟨_, init_refines n next data⟩, PqSpec.conserved_init⟩ fun s l s' a ⟨⟨slots, h⟩, hc⟩ hs => by
        obtain ⟨s'', a', slots', hexec, hrun', h'⟩ := step_refines h hc hs.1.1
        obtain rfl : s'' = s' := Option.some.inj (hexec.symm.trans hs.1.2)
        have hc' : a'.Conserved := hrun'.invariant hc fun _ _ _ hc hs => hs.conserved hc
        exact ⟨a', hs.2 ▸ hrun', ⟨slots', h'⟩, hc'⟩
  refine ⟨h.listed, ⟨a, slots, ha, h, hc⟩, fun e he => ?_⟩
  obtain ⟨s', -, -, hs', -⟩ := step_refines h hc he
  exact ⟨s', hs'⟩

/-- Events executed one after the other. -/
theorem run_of_execAll {s s' : PqSys T α} (es : List (PqEvent T α))
    (h : es.foldlM (fun s e => if s.Enabled e then s.exec e else none) s = some s') :
    ∃ ls, ls.map Prod.fst = es ∧ Run PqSys.ObservedStep s ls s' := by
  refine Run.exists_of_foldlM Prod.fst (fun s e s' hs => ⟨(e, s.observe e), rfl, ?_, rfl⟩) h
  by_cases he : s.Enabled e
  · exact ⟨he, by simpa [he] using hs⟩
  · simp [he] at hs

/-- A pop is suspended, two threads push, step by step in turn, and the pop takes the item of the lower priority number. -/
theorem prio_queue_refines_run : ∃ ls, ∃ s : PqSys (Fin 3) Nat,
    Run PqSys.ObservedStep (.init (.rtPrioQueueInit 2 (fun _ => none) fun _ => 0)) ls s ∧ s.que.head 5 = some 0 ∧
    s.que.head 3 = none ∧ s.que.Listed ∧
      (∃ a slots, Run PqSpec.Step .init (ls.flatMap Prod.snd) a ∧ Refines 2 s a slots ∧ a.Conserved) ∧
      ∀ e, s.Enabled e → ∃ s', s.exec e = some s' := by
  obtain ⟨ls, -, hrun⟩ := run_of_execAll
    (s := PqSys.init (.rtPrioQueueInit 2 (fun _ => none) fun _ => 0)) [.pop (2 : Fin 3) (-1), .push 0 5 10, .push 1 3 20,
    .alloc 0 0, .alloc 1 1, .continue 1, .continue 0, .continue 0, .continue 1, .continue 2] rfl
  exact ⟨ls, _, hrun, rfl, rfl, prio_queue_refines 2 _ _ hrun⟩

end CoreLink.Vbus
