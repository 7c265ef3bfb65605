/-
# `CoreLink.RtThread.MqRefine` — the message queue does what `MqSpec` says, in every interleaving.

`Refines s a free slots` relates a state of the code to a state of the abstract queue: the free list and the queue are
chains through the slots `free` and `slots`, every slot of the pool is on one of them or in flight in one call, the
queued slots hold the payloads of the abstract queue in order, and every thread's position matches what the abstract
state says of it. Two rules carry the proof: `Refines.quiet` for steps that only suspend, wake or return, and
`Refines.move` for steps in which a slot changes its place.
-/
import CoreLink.RtThread.MqSpec

namespace CoreLink.RtThread

open CoreLink.Lib

variable {T : Type*}

/-! ## Observations -/

/-- What is observed of a step: a slot is taken for a send, a message is linked or taken off the queue, a receive
returns with its bytes, the queue is reset. -/
def MqSys.observe (s : MqSys T) : MqEvent T → List (MqSpecEvent T)
  | .send t buffer => if buffer.length ≤ s.mq.msgSize ∧ s.mq.msgQueueFree ≠ none then [.accept t false buffer] else []
  | .urgent t buffer => if buffer.length ≤ s.mq.msgSize ∧ s.mq.msgQueueFree ≠ none then [.accept t true buffer] else []
  | .recv t size _ _ => if s.mq.entry ≠ 0 then [.deliver t (min size s.mq.msgSize)] else []
  | .control _ reset => if reset then [.reset] else []
  | .continue t _ _ =>
      match s.pc t with
      | .filled _ _ => [.link t]
      | .woken size _ => if s.error t = .eok ∧ s.mq.entry ≠ 0 then [.deliver t (min size s.mq.msgSize)] else []
      | .copied _ buffer => [.finish t buffer]
      | _ => []
  | .timeout _ | .resume _ => []

/-- A step together with what is observed of it. -/
def MqSys.ObservedStep [DecidableEq T] (s : MqSys T) (l : MqEvent T × List (MqSpecEvent T)) (s' : MqSys T) : Prop :=
  s.Step l.1 s' ∧ l.2 = s.observe l.1

/-! ## The relation -/

/-- The slot `msg` holds the payload of `m`. -/
structure Holds (mq : Mq) (msg : Nat) (m : Message T) : Prop where
  length_le : m.payload.length ≤ mq.msgSize
  data_eq : ∀ i (h : i < m.payload.length), mq.data msg i = m.payload[i]

/-- A thread's position in its call, against what the abstract queue says of the thread. -/
def PcOk (mq : Mq) (pending : Option (Message T)) (receiving : Option (Message T × Nat)) : MqPc → Prop
  | .idle | .waiting .. | .woken .. => pending = none ∧ receiving = none
  | .taken urgent _ buffer =>
      receiving = none ∧ buffer.length ≤ mq.msgSize ∧
        ∃ m, pending = some m ∧ m.urgent = urgent ∧ m.payload = buffer
  | .filled urgent msg =>
      receiving = none ∧ (urgent = false → mq.next msg = none) ∧
        ∃ m, pending = some m ∧ m.urgent = urgent ∧ Holds mq msg m
  | .holding msg size => pending = none ∧ ∃ m, receiving = some (m, min size mq.msgSize) ∧ Holds mq msg m
  | .copied _ buffer =>
      pending = none ∧ ∃ m n, receiving = some (m, n) ∧ MqSpec.Received m.payload n buffer

/-- The refinement relation; `free` are the slots of the free list and `slots` those of the queue. -/
structure Refines (s : MqSys T) (a : MqSpec T) (free slots : List Nat) : Prop where
  pool : Partition (· < s.mq.maxMsgs) (free ++ slots) fun t => (s.pc t).slot
  freeChain : Chain s.mq.next s.mq.msgQueueFree free
  queueChain : TailChain s.mq.next s.mq.msgQueueHead s.mq.msgQueueTail slots
  maxMsgs_lt : s.mq.maxMsgs < 2 ^ 16
  entry_eq : s.mq.entry = slots.length
  stored : List.Forall₂ (Holds s.mq) slots a.queue
  pcOk : ∀ t, PcOk s.mq (a.pending t) (a.receiving t) (s.pc t)

theorem Holds.congr {mq mq' : Mq} {msg : Nat} {m : Message T} (h : Holds mq msg m) (hd : mq'.data msg = mq.data msg)
    (hsize : mq'.msgSize = mq.msgSize) : Holds mq' msg m :=
  ⟨hsize ▸ h.length_le, fun i hi => by rw [hd]; exact h.data_eq i hi⟩

/-- Messages stay stored while their slots are not written. -/
theorem stored_congr {mq mq' : Mq} {slots : List Nat} {ms : List (Message T)}
    (h : List.Forall₂ (Holds mq) slots ms) (hd : ∀ n ∈ slots, mq'.data n = mq.data n)
    (hsize : mq'.msgSize = mq.msgSize) : List.Forall₂ (Holds mq') slots ms := by
  induction h with
  | nil => exact .nil
  | cons hm _ ih =>
      exact .cons (hm.congr (hd _ List.mem_cons_self) hsize) (ih fun n hn => hd n (List.mem_cons_of_mem _ hn))

theorem pcOk_of_slot_none {mq : Mq} {p : Option (Message T)} {r : Option (Message T × Nat)} {pc : MqPc}
    (h : pc.slot = none) : PcOk mq p r pc ↔ p = none ∧ r = none := by
  cases pc <;> first | rfl | simp [MqPc.slot] at h

theorem PcOk.congr {mq mq' : Mq} {p : Option (Message T)} {r : Option (Message T × Nat)} {pc : MqPc}
    (h : PcOk mq p r pc) (hsize : mq'.msgSize = mq.msgSize)
    (hslot : ∀ msg, pc.slot = some msg → mq'.data msg = mq.data msg ∧ mq'.next msg = mq.next msg) :
    PcOk mq' p r pc := by
  cases pc with
  | idle | waiting | woken | copied => exact h
  | taken urgent msg buffer => exact ⟨h.1, hsize ▸ h.2⟩
  | filled urgent msg =>
      obtain ⟨hdata, hnext⟩ := hslot msg rfl
      obtain ⟨hr, hnull, m, hp, hu, hm⟩ := h
      exact ⟨hr, fun hf => by rw [hnext, hnull hf], m, hp, hu, hm.congr hdata hsize⟩
  | holding msg size =>
      obtain ⟨hdata, -⟩ := hslot msg rfl
      obtain ⟨hp, m, hr, hm⟩ := h
      exact ⟨hp, m, by rw [hr, hsize], hm.congr hdata hsize⟩

/-! ## Waking up -/

/-- `s'` is `s`, but for threads that go from one position without a slot to another, and what `Refines` does not look
at. -/
structure Quiet (s s' : MqSys T) : Prop where
  mq_eq : s'.mq = s.mq
  pc_or : ∀ t, s'.pc t = s.pc t ∨ ((s.pc t).slot = none ∧ (s'.pc t).slot = none)

theorem Quiet.slot_eq {s s' : MqSys T} (h : Quiet s s') (t : T) : (s'.pc t).slot = (s.pc t).slot := by
  rcases h.pc_or t with h | ⟨h, h'⟩
  · rw [h]
  · rw [h, h']

theorem Quiet.refl (s : MqSys T) : Quiet s s := ⟨rfl, fun _ => .inl rfl⟩

theorem Quiet.trans {s s' s'' : MqSys T} (h : Quiet s s') (h' : Quiet s' s'') : Quiet s s'' where
  mq_eq := h'.mq_eq.trans h.mq_eq
  pc_or t := by
    rcases h.pc_or t with h₁ | ⟨h₁, h₁'⟩ <;> rcases h'.pc_or t with h₂ | ⟨h₂, h₂'⟩
    · exact .inl (h₂.trans h₁)
    · exact .inr ⟨h₁ ▸ h₂, h₂'⟩
    · exact .inr ⟨h₁, h₂ ▸ h₁'⟩
    · exact .inr ⟨h₁, h₂'⟩

variable [DecidableEq T]

/-- A thread goes from one position without a slot to another. -/
theorem Quiet.setPc {s : MqSys T} {t : T} {pc : MqPc} (h : (s.pc t).slot = none) (h' : pc.slot = none) :
    Quiet s (s.setPc t pc) where
  mq_eq := rfl
  pc_or u := by
    by_cases hu : u = t
    · subst hu
      exact .inr ⟨h, by simpa [MqSys.setPc] using h'⟩
    · exact .inl (Function.update_of_ne hu _ _)

theorem MqPc.wake_slot (pc : MqPc) : pc.wake = pc ∨ (pc.slot = none ∧ pc.wake.slot = none) := by
  cases pc <;> simp [MqPc.wake, MqPc.slot]

theorem quiet_wake (s : MqSys T) (t : T) : Quiet s (s.wake t) where
  mq_eq := rfl
  pc_or u := by
    by_cases hu : u = t
    · subst hu
      simpa [MqSys.wake, MqSys.setPc] using (s.pc u).wake_slot
    · exact .inl (Function.update_of_ne hu _ _)

theorem quiet_setError (s : MqSys T) (t : T) (e : RtErr) : Quiet s (s.setError t e) := ⟨rfl, fun _ => .inl rfl⟩

/-- A call without a slot returns. -/
theorem quiet_ret {s : MqSys T} {t : T} (h : (s.pc t).slot = none) (e : RtErr) : Quiet s (s.ret t e) :=
  ⟨rfl, (Quiet.setPc h rfl).pc_or⟩

/-- The return of a call does not depend on who was woken before. -/
theorem Quiet.ret {s s' : MqSys T} (h : Quiet s s') (t : T) (e : RtErr) : Quiet (s.ret t e) (s'.ret t e) where
  mq_eq := h.mq_eq
  pc_or u := by
    by_cases hu : u = t
    · subst hu
      left
      simp [MqSys.ret, MqSys.setPc]
    · simpa [MqSys.ret, MqSys.setPc, hu] using h.pc_or u

theorem quiet_resumeFirst (s : MqSys T) : Quiet s s.resumeFirst := by
  unfold MqSys.resumeFirst
  split
  · exact .refl s
  · exact quiet_wake s _

theorem quiet_resumeAll (s : MqSys T) : Quiet s s.resumeAll := by
  suffices ∀ (ts : List T) (s : MqSys T), Quiet s (ts.foldl (fun s t => (s.setError t .error).wake t) s) from this _ s
  intro ts
  induction ts with
  | nil => exact .refl
  | cons t ts ih =>
      intro s
      exact ((quiet_setError s t .error).trans (quiet_wake _ t)).trans (ih _)

/-! ## The two rules -/

section Rules

variable {s s' : MqSys T} {a a' : MqSpec T} {free slots free' slots' : List Nat} {t : T}

omit [DecidableEq T] in
/-- **Steps that move no slot.** -/
theorem Refines.quiet (h : Refines s a free slots) (hq : Quiet s s') : Refines s' a free slots := by
  have hmq := hq.mq_eq
  refine ⟨?_, by rw [hmq]; exact h.freeChain, by rw [hmq]; exact h.queueChain, by rw [hmq]; exact h.maxMsgs_lt,
    by rw [hmq]; exact h.entry_eq, by rw [hmq]; exact h.stored, fun t => ?_⟩
  · simp only [hmq, hq.slot_eq]
    exact h.pool
  · rw [hmq]
    rcases hq.pc_or t with ht | ⟨ht, ht'⟩
    · rw [ht]
      exact h.pcOk t
    · exact (pcOk_of_slot_none ht').mpr ((pcOk_of_slot_none ht).mp (h.pcOk t))

/-- **A slot changes its place.** What the step must show: the new lists with the slot of `t` are the old ones with the
slot `t` had; `next` and the bytes are kept where another thread holds a slot; and the clauses about the object and
about `t`. -/
theorem Refines.move (h : Refines s a free slots) (pc : MqPc) (hpc : s'.pc = Function.update s.pc t pc)
    (hperm : (free' ++ slots' ++ pc.slot.toList).Perm (free ++ slots ++ (s.pc t).slot.toList))
    (hframe : ∀ u msg, u ≠ t → (s.pc u).slot = some msg →
      s'.mq.data msg = s.mq.data msg ∧ s'.mq.next msg = s.mq.next msg)
    (hsize : s'.mq.msgSize = s.mq.msgSize) (hmax : s'.mq.maxMsgs = s.mq.maxMsgs)
    (hfree : Chain s'.mq.next s'.mq.msgQueueFree free')
    (hqueue : TailChain s'.mq.next s'.mq.msgQueueHead s'.mq.msgQueueTail slots')
    (hentry : s'.mq.entry = slots'.length) (hstored : List.Forall₂ (Holds s'.mq) slots' a'.queue)
    (hother : ∀ u, u ≠ t → a'.pending u = a.pending u ∧ a'.receiving u = a.receiving u)
    (ht : PcOk s'.mq (a'.pending t) (a'.receiving t) pc) : Refines s' a' free' slots' := by
  refine ⟨?_, hfree, hqueue, hmax ▸ h.maxMsgs_lt, hentry, hstored, fun u => ?_⟩
  · have hslot : (fun u => (s'.pc u).slot) = Function.update (fun u => (s.pc u).slot) t pc.slot := by
      funext u
      rw [hpc]
      by_cases hu : u = t
      · subst hu
        simp
      · simp [hu]
    rw [hslot, hmax]
    exact h.pool.move t pc.slot hperm
  · rw [hpc]
    by_cases hu : u = t
    · subst hu
      rw [Function.update_self]
      exact ht
    · rw [Function.update_of_ne hu, (hother u hu).1, (hother u hu).2]
      exact (h.pcOk u).congr hsize fun msg hmsg => hframe u msg hu hmsg

omit [DecidableEq T] in
/-- The slots a step moves or writes are not those that other threads hold. -/
theorem Refines.other_ne (h : Refines s a free slots) {u : T} {msg n : Nat} (hu : u ≠ t)
    (hmsg : (s.pc u).slot = some msg) (hn : n ∈ free ++ slots ∨ (s.pc t).slot = some n) : msg ≠ n := by
  rintro rfl
  exact hn.elim (h.pool.held_notMem hmsg) fun ht => hu (h.pool.held_inj hmsg ht)

end Rules

/-! ## Sending -/

section Steps

variable {s s' : MqSys T} {a : MqSpec T} {free slots : List Nat} {t : T}

/-- The first critical section of a send: the slot goes from the free list to the caller. -/
theorem startSend_refines (h : Refines s a free slots) (ht : (s.pc t).slot = none) (urgent : Bool)
    (buffer : List UInt8) :
    ∃ a' free', Run MqSpec.Step a (if buffer.length ≤ s.mq.msgSize ∧ s.mq.msgQueueFree ≠ none
        then [.accept t urgent buffer] else []) a' ∧ Refines (s.startSend urgent t buffer) a' free' slots := by
  obtain ⟨hp, hr⟩ := (pcOk_of_slot_none ht).mp (h.pcOk t)
  unfold MqSys.startSend Mq.takeFree
  by_cases hlen : buffer.length ≤ s.mq.msgSize
  · rw [if_neg (not_lt.mpr hlen)]
    cases hfree : s.mq.msgQueueFree with
    | none =>
        refine ⟨a, free, ?_, h.quiet (quiet_ret ht _)⟩
        rw [if_neg (fun hc => hc.2 rfl)]
        exact .nil
    | some msg =>
        have hchain := h.freeChain
        rw [hfree] at hchain
        obtain ⟨free, rfl⟩ : ∃ free', free = msg :: free' := by
          cases free with
          | nil => exact absurd hchain (by simp [Chain])
          | cons n ns => exact ⟨ns, by rw [Option.some.inj hchain.1]⟩
        have hperm : (free ++ slots ++ [msg]).Perm (msg :: free ++ slots ++ []) := by
          rw [List.append_nil]
          exact List.perm_append_singleton msg (free ++ slots)
        have hstep : MqSpec.Step a (.accept t urgent buffer) _ := .accept hp hr
        rw [if_pos ⟨hlen, by simp⟩]
        refine ⟨_, free, .single hstep, h.move (.taken urgent msg buffer) rfl (ht ▸ hperm)
          (fun _ _ _ _ => ⟨rfl, rfl⟩) rfl rfl hchain.2 h.queueChain h.entry_eq
          (stored_congr h.stored (fun _ _ => rfl) rfl) (fun u hu => ⟨Function.update_of_ne hu _ _, rfl⟩) ?_⟩
        exact ⟨hr, hlen, _, Function.update_self .., rfl, rfl⟩
  · refine ⟨a, free, ?_, ?_⟩
    · rw [if_neg (fun hc => hlen hc.1)]
      exact .nil
    · rw [if_pos (not_le.mp hlen)]
      exact h.quiet (quiet_ret ht _)

/-- The copy into the slot, with the interrupts enabled. -/
theorem fill_refines (h : Refines s a free slots) {urgent : Bool} {msg : Nat} {buffer : List UInt8}
    (ht : s.pc t = .taken urgent msg buffer) : Refines (s.fill t urgent msg buffer) a free slots := by
  have hslot : (s.pc t).slot = some msg := by rw [ht]; rfl
  have hmem : msg ∉ free ++ slots := h.pool.held_notMem hslot
  obtain ⟨hr, hlen, m, hp, hu, hb⟩ : PcOk s.mq (a.pending t) (a.receiving t) (.taken urgent msg buffer) :=
    ht ▸ h.pcOk t
  have hnext : ∀ n, n ≠ msg → (s.fill t urgent msg buffer).mq.next n = s.mq.next n := fun n hn => by
    cases urgent <;> simp [MqSys.fill, MqSys.setPc, Mq.clearNext, Mq.copyBuffer, hn]
  have hdata : ∀ n, n ≠ msg → (s.fill t urgent msg buffer).mq.data n = s.mq.data n := fun n hn => by
    cases urgent <;> simp [MqSys.fill, MqSys.setPc, Mq.clearNext, Mq.copyBuffer, hn]
  have hne : ∀ n ∈ free ++ slots, n ≠ msg := fun n hn e => hmem (e ▸ hn)
  have hsize : (s.fill t urgent msg buffer).mq.msgSize = s.mq.msgSize := by cases urgent <;> rfl
  have hfree : Chain (s.fill t urgent msg buffer).mq.next s.mq.msgQueueFree free :=
    h.freeChain.congr fun n hn => hnext n (hne n (List.mem_append_left _ hn))
  have hqueue : TailChain (s.fill t urgent msg buffer).mq.next s.mq.msgQueueHead s.mq.msgQueueTail slots :=
    h.queueChain.congr fun n hn => hnext n (hne n (List.mem_append_right _ hn))
  refine h.move (.filled urgent msg) rfl ?_ ?_ hsize (by cases urgent <;> rfl)
    (by cases urgent <;> exact hfree) (by cases urgent <;> exact hqueue) (by cases urgent <;> exact h.entry_eq)
    ?_ (fun _ _ => ⟨rfl, rfl⟩) ⟨hr, ?_, m, hp, hu, ?_⟩
  · rw [hslot]
    rfl
  · intro u n hun hn
    have hne' : n ≠ msg := h.other_ne hun hn (.inr hslot)
    exact ⟨hdata n hne', hnext n hne'⟩
  · exact stored_congr h.stored (fun n hn => hdata n (hne n (List.mem_append_right _ hn))) hsize
  · rintro rfl
    simp [MqSys.fill, MqSys.setPc, Mq.clearNext, Mq.copyBuffer]
  · subst hb
    refine ⟨hsize ▸ hlen, fun i hi => ?_⟩
    cases urgent <;> simp [MqSys.fill, MqSys.setPc, Mq.clearNext, Mq.copyBuffer, hi]

/-- While a slot is in flight, the queue is not as long as the pool. -/
theorem Refines.room (h : Refines s a free slots) {msg : Nat} (ht : (s.pc t).slot = some msg) :
    slots.length + 1 < 2 ^ 16 := by
  have hp : Partition (· < s.mq.maxMsgs) (free ++ slots ++ [msg]) _ := h.pool.move t none (by simp [ht])
  have hlen := hp.length_le
  have hmax := h.maxMsgs_lt
  simp only [List.length_append, List.length_singleton] at hlen
  omega

/-- The second critical section of a send: the slot goes to the end of the queue, or to its front. -/
theorem link_refines (h : Refines s a free slots) {urgent : Bool} {msg : Nat} (ht : s.pc t = .filled urgent msg) :
    ∃ a' slots', MqSpec.Step a (.link t) a' ∧ Refines (s.link t urgent msg) a' free slots' := by
  have hslot : (s.pc t).slot = some msg := by rw [ht]; rfl
  have hmem : msg ∉ free ++ slots := h.pool.held_notMem hslot
  have hfree : msg ∉ free := fun hm => hmem (List.mem_append_left _ hm)
  have hqueue : msg ∉ slots := fun hm => hmem (List.mem_append_right _ hm)
  have hnd : slots.Nodup := h.pool.nodup.of_append_right
  have hlen : (s.mq.entry + 1) % 2 ^ 16 = slots.length + 1 := by
    rw [h.entry_eq, Nat.mod_eq_of_lt (h.room hslot)]
  obtain ⟨hr, hnull, m, hp, rfl, hm⟩ : PcOk s.mq (a.pending t) (a.receiving t) (.filled urgent msg) := ht ▸ h.pcOk t
  have hstep : MqSpec.Step a (.link t) _ := .link hp
  have hother : ∀ u, u ≠ t → Function.update a.pending t none u = a.pending u ∧ a.receiving u = a.receiving u :=
    fun u hu => ⟨Function.update_of_ne hu _ _, rfl⟩
  have hidle : PcOk s.mq (Function.update a.pending t none t) (a.receiving t) .idle := ⟨Function.update_self .., hr⟩
  refine ⟨_, if m.urgent then msg :: slots else slots ++ [msg], hstep, ?_⟩
  suffices Refines ({ s with mq := if m.urgent then s.mq.linkHead msg else s.mq.linkTail msg }.ret t .eok) _ free
      (if m.urgent then msg :: slots else slots ++ [msg]) from this.quiet ((quiet_resumeFirst _).ret t .eok)
  cases hu : m.urgent with
  | true =>
      have hperm : (free ++ (msg :: slots) ++ []).Perm (free ++ slots ++ [msg]) := by
        rw [List.append_nil]
        exact List.perm_middle.trans (List.perm_append_singleton msg _).symm
      simp only [if_true]
      refine h.move .idle rfl (hslot ▸ hperm) ?_ rfl rfl (h.freeChain.update hfree _) (h.queueChain.push hqueue)
        hlen (.cons (hm.congr rfl rfl) (stored_congr h.stored (fun _ _ => rfl) rfl)) hother hidle
      intro u n hun hn
      exact ⟨rfl, Function.update_of_ne (h.other_ne hun hn (.inr hslot)) _ _⟩
  | false =>
      have hperm : (free ++ (slots ++ [msg]) ++ []).Perm (free ++ slots ++ [msg]) := by simp
      have hnext : ∀ n, (s.mq.linkTail msg).next n = if s.mq.msgQueueTail = some n then some msg else s.mq.next n :=
        fun n => by
          cases htail : s.mq.msgQueueTail with
          | none => simp [Mq.linkTail, htail]
          | some tail => simp [Mq.linkTail, htail, Function.update_apply, eq_comm]
      -- the tail, whose `next` is written, is in the queue
      have hkeep : ∀ n, n ∉ slots → (s.mq.linkTail msg).next n = s.mq.next n := fun n hn => by
        rw [hnext, if_neg]
        exact fun htail => hn (List.mem_of_getLast? (h.queueChain.tail_eq.symm.trans htail))
      have hstored : List.Forall₂ (Holds s.mq) (slots ++ [msg]) (a.queue ++ [m]) :=
        List.rel_append h.stored (.cons hm .nil)
      have hlen' : (s.mq.entry + 1) % 2 ^ 16 = (slots ++ [msg]).length := by rw [hlen, List.length_append]; rfl
      simp only [Bool.false_eq_true, if_false]
      refine h.move .idle rfl (hslot ▸ hperm) ?_ rfl rfl ?_ (h.queueChain.append hnd hqueue (hnull hu) hnext) hlen'
        (stored_congr hstored (fun _ _ => rfl) rfl) hother hidle
      · intro u n hun hn
        exact ⟨rfl, hkeep n fun hs => h.other_ne hun hn (.inl (List.mem_append_right _ hs)) rfl⟩
      · refine h.freeChain.congr fun n hn => hkeep n fun hs => ?_
        exact (List.nodup_append.mp h.pool.nodup).2.2 n hn n hs rfl

/-! ## Receiving -/

/-- The object after "get message from queue" has taken `msg` off and `entry` has been decreased. -/
def Mq.unlinked (mq : Mq) (msg entry : Nat) : Mq :=
  { mq with
    msgQueueHead := mq.next msg
    msgQueueTail := if mq.msgQueueTail = some msg then none else mq.msgQueueTail
    entry := entry }

/-- The first slot of the queue goes to the receiver. -/
theorem unlinked_refines {msg entry : Nat} (h : Refines s a free (msg :: slots)) (ht : (s.pc t).slot = none)
    (hentry : entry = slots.length) (size : Nat) :
    ∃ a', MqSpec.Step a (.deliver t (min size s.mq.msgSize)) a' ∧
      Refines ({ s with mq := s.mq.unlinked msg entry }.setPc t (.holding msg size)) a' free slots := by
  obtain ⟨hp, hr⟩ := (pcOk_of_slot_none ht).mp (h.pcOk t)
  have hnd : (free ++ msg :: slots).Nodup := h.pool.nodup
  obtain ⟨-, hchain⟩ := h.queueChain.pop (List.nodup_cons.mp hnd.of_append_right).1
  have hstored := h.stored
  obtain ⟨m, ms, hm, hms, hq⟩ : ∃ m ms, Holds s.mq msg m ∧ List.Forall₂ (Holds s.mq) slots ms ∧
      a.queue = m :: ms := by
    generalize a.queue = q at hstored ⊢
    cases hstored with
    | cons hm hms => exact ⟨_, _, hm, hms, rfl⟩
  have hstep : MqSpec.Step a (.deliver t (min size s.mq.msgSize)) _ := .deliver hq hp hr
  have hperm : (free ++ slots ++ [msg]).Perm (free ++ msg :: slots ++ []) := by
    rw [List.append_nil]
    exact (List.perm_append_singleton msg _).trans List.perm_middle.symm
  refine ⟨_, hstep, h.move (.holding msg size) rfl (ht ▸ hperm) (fun _ _ _ _ => ⟨rfl, rfl⟩) rfl rfl h.freeChain
    hchain hentry (stored_congr hms (fun _ _ => rfl) rfl) (fun u hu => ⟨rfl, Function.update_of_ne hu _ _⟩) ?_⟩
  exact ⟨hp, m, Function.update_self .., hm.congr rfl rfl⟩

/-- `rt_mq_recv` at its test of `entry`: it suspends the caller or returns, or takes the first slot off the queue. -/
theorem recvEntry_refines (h : Refines s a free slots) (ht : (s.pc t).slot = none) (size : Nat) (timeout : Int)
    (prio : T → Nat) :
    ∃ s' a' slots', s.recvEntry t size timeout prio = some s' ∧
      Run MqSpec.Step a (if s.mq.entry ≠ 0 then [.deliver t (min size s.mq.msgSize)] else []) a' ∧
      Refines s' a' free slots' := by
  unfold MqSys.recvEntry
  by_cases hentry : s.mq.entry = 0
  · rw [if_pos hentry, if_neg (not_not.mpr hentry)]
    split
    · have hret : Quiet s (s.ret t .etimeout) := quiet_ret ht _
      exact ⟨_, a, slots, rfl, .nil, h.quiet ⟨rfl, hret.pc_or⟩⟩
    · exact ⟨_, a, slots, rfl, .nil, h.quiet ⟨rfl, (Quiet.setPc ht rfl).pc_or⟩⟩
  · rw [if_neg hentry, if_pos hentry]
    obtain ⟨msg, slots, rfl⟩ : ∃ msg ns, slots = msg :: ns := by
      cases slots with
      | nil => exact absurd h.entry_eq hentry
      | cons n ns => exact ⟨n, ns, rfl⟩
    have hlen : Word.sub 16 s.mq.entry 1 = slots.length := by
      have hmax := h.pool.length_le
      have hlt := h.maxMsgs_lt
      rw [h.entry_eq]
      simp only [List.length_append, List.length_cons] at hmax ⊢
      rw [Word.sub_of_le (by omega) (by omega)]
      omega
    obtain ⟨a', hstep, h'⟩ := unlinked_refines h ht hlen size
    refine ⟨_, a', slots, ?_, .single hstep, h'⟩
    simp only [Mq.unlink, h.queueChain.chain.1, Option.map_some, Mq.unlinked]

omit [DecidableEq T] in
/-- What is copied out of a slot that holds a payload. -/
theorem received_copyMessage {mq : Mq} {msg : Nat} {m : Message T} (h : Holds mq msg m) (size : Nat) :
    MqSpec.Received m.payload (min size mq.msgSize) (mq.copyMessage msg size) := by
  have hmin : (if size > mq.msgSize then mq.msgSize else size) = min size mq.msgSize := by
    split <;> omega
  refine ⟨by simp [Mq.copyMessage, hmin], ?_⟩
  apply List.ext_getElem
  · simp [Mq.copyMessage, hmin, Nat.min_comm]
  · intro i h₁ h₂
    have hi : i < m.payload.length := by
      rw [List.length_take] at h₁
      omega
    simpa [Mq.copyMessage] using h.data_eq i hi

/-- The copy out of the slot, with the interrupts enabled. -/
theorem copied_refines (h : Refines s a free slots) {msg size : Nat} (ht : s.pc t = .holding msg size) :
    Refines (s.setPc t (.copied msg (s.mq.copyMessage msg size))) a free slots := by
  obtain ⟨hp, m, hr, hm⟩ : PcOk s.mq (a.pending t) (a.receiving t) (.holding msg size) := ht ▸ h.pcOk t
  refine h.move _ rfl (by rw [ht]; rfl) (fun _ _ _ _ => ⟨rfl, rfl⟩) rfl rfl h.freeChain h.queueChain h.entry_eq
    h.stored (fun _ _ => ⟨rfl, rfl⟩) ⟨hp, m, _, hr, received_copyMessage hm size⟩

/-- The slot goes back to the free list. -/
theorem giveBack_refines (h : Refines s a free slots) {msg : Nat} {buffer : List UInt8}
    (ht : s.pc t = .copied msg buffer) :
    ∃ a', MqSpec.Step a (.finish t buffer) a' ∧ Refines (s.giveBack t msg) a' (msg :: free) slots := by
  have hslot : (s.pc t).slot = some msg := by rw [ht]; rfl
  have hmem : msg ∉ free ++ slots := h.pool.held_notMem hslot
  have hfree : msg ∉ free := fun hm => hmem (List.mem_append_left _ hm)
  have hqueue : msg ∉ slots := fun hm => hmem (List.mem_append_right _ hm)
  obtain ⟨hp, m, n, hr, hrec⟩ : PcOk s.mq (a.pending t) (a.receiving t) (.copied msg buffer) := ht ▸ h.pcOk t
  have hstep : MqSpec.Step a (.finish t buffer) _ := .finish hr hrec
  have hperm : (msg :: free ++ slots ++ []).Perm (free ++ slots ++ [msg]) := by
    rw [List.append_nil]
    exact (List.perm_append_singleton msg (free ++ slots)).symm
  refine ⟨_, hstep, h.move .idle rfl (hslot ▸ hperm) ?_ rfl rfl (h.freeChain.push hfree)
    (h.queueChain.update hqueue _) h.entry_eq (stored_congr h.stored (fun _ _ => rfl) rfl)
    (fun u hu => ⟨rfl, Function.update_of_ne hu _ _⟩) ⟨hp, Function.update_self ..⟩⟩
  intro u k hu hk
  exact ⟨rfl, Function.update_of_ne (h.other_ne hu hk (.inr hslot)) _ _⟩

/-! ## Reset -/

omit [DecidableEq T] in
/-- The loop of `RT_IPC_CMD_RESET` ends when the queue is empty; its slots are then on the free list, the last one in
front. -/
theorem releaseAll_spec {fuel : Nat} {mq : Mq} (hfree : Chain mq.next mq.msgQueueFree free)
    (hqueue : TailChain mq.next mq.msgQueueHead mq.msgQueueTail slots) (hnd : (free ++ slots).Nodup)
    (hfuel : slots.length < fuel) :
    ∃ mq', mq.releaseAll fuel = some mq' ∧ Chain mq'.next mq'.msgQueueFree (slots.reverse ++ free) ∧
      TailChain mq'.next mq'.msgQueueHead mq'.msgQueueTail [] ∧ mq'.data = mq.data ∧ mq'.msgSize = mq.msgSize ∧
      mq'.maxMsgs = mq.maxMsgs ∧ ∀ n, n ∉ slots → mq'.next n = mq.next n := by
  induction fuel generalizing mq free slots with
  | zero => omega
  | succ fuel ih =>
      cases slots with
      | nil =>
          refine ⟨mq, ?_, by simpa using hfree, hqueue, rfl, rfl, rfl, fun _ _ => rfl⟩
          rw [Mq.releaseAll, Mq.unlink, show mq.msgQueueHead = none from hqueue.chain]
          rfl
      | cons msg slots =>
          have hmsg : msg ∉ free ∧ msg ∉ slots := by
            rw [List.nodup_append] at hnd
            exact ⟨fun hm => hnd.2.2 msg hm msg List.mem_cons_self rfl, (List.nodup_cons.mp hnd.2.1).1⟩
          have hnd' : (msg :: free ++ slots).Nodup := List.perm_middle.nodup_iff.mp hnd
          obtain ⟨hhead, hchain⟩ := hqueue.pop hmsg.2
          have hpush : Chain ((mq.unlinked msg mq.entry).putFree msg).next
              ((mq.unlinked msg mq.entry).putFree msg).msgQueueFree (msg :: free) := hfree.push hmsg.1
          obtain ⟨mq', hmq', hfree', hqueue', hdata, hsize, hmax, hnext⟩ :=
            ih hpush (hchain.update hmsg.2 _) hnd' (by simpa using hfuel)
          refine ⟨mq', ?_, by simpa using hfree', hqueue', hdata, hsize, hmax, fun n hn => ?_⟩
          · rw [Mq.releaseAll, Mq.unlink, hhead]
            exact hmq'
          · rw [List.mem_cons, not_or] at hn
            rw [hnext n hn.2]
            exact Function.update_of_ne hn.1 _ _

/-- **RESET** ends and leaves an empty queue. -/
theorem control_refines (h : Refines s a free slots) (ht : (s.pc t).slot = none) (reset : Bool) :
    ∃ s' a' free' slots', s.rtMqControl t reset = some s' ∧
      Run MqSpec.Step a (if reset then [.reset] else []) a' ∧ Refines s' a' free' slots' := by
  cases reset with
  | false => exact ⟨_, a, free, slots, rfl, .nil, h.quiet (quiet_ret ht _)⟩
  | true =>
      have h₁ : Refines s.resumeAll a free slots := h.quiet (quiet_resumeAll s)
      have ht₁ : (s.resumeAll.pc t).slot = none := ((quiet_resumeAll s).slot_eq t).trans ht
      have hlen := h₁.pool.length_le
      rw [List.length_append] at hlen
      obtain ⟨mq, hmq, hfree, hqueue, hdata, hsize, hmax, hnext⟩ :=
        releaseAll_spec h₁.freeChain h₁.queueChain h₁.pool.nodup (by omega : slots.length < s.resumeAll.mq.maxMsgs + 1)
      have hperm : (slots.reverse ++ free ++ [] ++ []).Perm (free ++ slots ++ []) := by
        simp only [List.append_nil]
        exact ((List.reverse_perm slots).append_right free).trans List.perm_append_comm
      refine ⟨{ s.resumeAll with mq := { mq with entry := 0 } }.ret t .eok, _, slots.reverse ++ free, [], ?_,
        .single .reset, ?_⟩
      · simp only [MqSys.rtMqControl, if_true, hmq, Option.map_some]
      · refine h₁.move .idle rfl (ht₁ ▸ hperm) ?_ hsize hmax hfree hqueue rfl .nil (fun _ _ => ⟨rfl, rfl⟩) ?_
        · intro u n hu hn
          refine ⟨congrFun hdata n, hnext n fun hs => ?_⟩
          exact h₁.other_ne hu hn (.inl (List.mem_append_right _ hs)) rfl
        · exact (pcOk_of_slot_none ht₁).mp (h₁.pcOk t)

/-! ## Steps and runs -/

/-- The next step of a call. -/
theorem continueCall_refines (h : Refines s a free slots) (t : T) (elapsed : Nat) (prio : T → Nat) :
    ∃ s' a' free' slots', s.continueCall t elapsed prio = some s' ∧
      Run MqSpec.Step a (s.observe (.continue t elapsed prio)) a' ∧ Refines s' a' free' slots' := by
  simp only [MqSys.continueCall, MqSys.observe]
  cases ht : s.pc t with
  | idle | waiting => exact ⟨s, a, free, slots, rfl, .nil, h⟩
  | taken urgent msg buffer => exact ⟨_, a, free, slots, rfl, .nil, fill_refines h ht⟩
  | filled urgent msg =>
      obtain ⟨a', slots', hstep, h'⟩ := link_refines h ht
      exact ⟨_, a', free, slots', rfl, .single hstep, h'⟩
  | holding msg size => exact ⟨_, a, free, slots, rfl, .nil, copied_refines h ht⟩
  | copied msg buffer =>
      obtain ⟨a', hstep, h'⟩ := giveBack_refines h ht
      exact ⟨_, a', msg :: free, slots, rfl, .single hstep, h'⟩
  | woken size timeout =>
      have hslot : (s.pc t).slot = none := by rw [ht]; rfl
      simp only [MqSys.recvWoken]
      by_cases herr : s.error t = .eok
      · obtain ⟨s', a', slots', hs', hrun, h'⟩ :=
          recvEntry_refines h hslot size (MqSys.recalculate timeout elapsed) prio
        refine ⟨s', a', free, slots', by rw [if_neg (not_not.mpr herr)]; exact hs', ?_, h'⟩
        simpa [herr] using hrun
      · refine ⟨_, a, free, slots, by rw [if_pos herr], ?_, h.quiet (quiet_ret hslot _)⟩
        rw [if_neg fun hc => herr hc.1]
        exact .nil

/-- `rt_mq_recv`, whose first test returns before anything is touched. -/
theorem rtMqRecv_refines (h : Refines s a free slots) (ht : (s.pc t).slot = none) (size : Nat) (timeout : Int)
    (prio : T → Nat) :
    ∃ s' a' slots', s.rtMqRecv t size timeout prio = some s' ∧
      Run MqSpec.Step a (if s.mq.entry ≠ 0 then [.deliver t (min size s.mq.msgSize)] else []) a' ∧
      Refines s' a' free slots' := by
  unfold MqSys.rtMqRecv
  split
  next hc =>
    rw [if_neg (not_not.mpr hc.1)]
    exact ⟨_, a, slots, rfl, .nil, h.quiet (quiet_ret ht _)⟩
  next => exact recvEntry_refines h ht size timeout prio

/-- **One step.** Whatever can happen does happen (no call reads through NULL and no loop runs on), is a run of the
abstract queue with the events observed, and keeps the relation. -/
theorem step_refines (h : Refines s a free slots) {e : MqEvent T} (he : s.Enabled e) :
    ∃ s' a' free' slots', s.exec e = some s' ∧ Run MqSpec.Step a (s.observe e) a' ∧ Refines s' a' free' slots' := by
  have hidle : ∀ {t}, s.pc t = .idle → (s.pc t).slot = none := fun ht => by rw [ht]; rfl
  cases e with
  | send t buffer =>
      obtain ⟨a', free', hrun, h'⟩ := startSend_refines h (hidle he.1) false buffer
      exact ⟨_, a', free', slots, rfl, hrun, h'⟩
  | urgent t buffer =>
      obtain ⟨a', free', hrun, h'⟩ := startSend_refines h (hidle he.1) true buffer
      exact ⟨_, a', free', slots, rfl, hrun, h'⟩
  | recv t size timeout prio =>
      obtain ⟨s', a', slots', hs', hrun, h'⟩ := rtMqRecv_refines h (hidle he.1) size timeout prio
      exact ⟨s', a', free, slots', hs', hrun, h'⟩
  | control t reset => exact control_refines h (hidle he) reset
  | «continue» t elapsed prio => exact continueCall_refines h t elapsed prio
  | timeout t =>
      exact ⟨_, a, free, slots, rfl, .nil, h.quiet ((quiet_setError s t _).trans (quiet_wake _ t))⟩
  | resume t => exact ⟨_, a, free, slots, rfl, .nil, h.quiet (quiet_wake s t)⟩

end Steps

omit [DecidableEq T] in
/-- The loop that builds the message empty list. -/
theorem initList_spec (n : Nat) (mq : Mq) (hfree : mq.msgQueueFree = none) :
    Chain ((List.range n).foldl Mq.addFree mq).next ((List.range n).foldl Mq.addFree mq).msgQueueFree
        (List.range n).reverse ∧
      ((List.range n).foldl Mq.addFree mq).maxMsgs = mq.maxMsgs ∧
      ((List.range n).foldl Mq.addFree mq).entry = mq.entry ∧
      ((List.range n).foldl Mq.addFree mq).msgQueueHead = mq.msgQueueHead ∧
      ((List.range n).foldl Mq.addFree mq).msgQueueTail = mq.msgQueueTail := by
  induction n with
  | zero => exact ⟨hfree, rfl, rfl, rfl, rfl⟩
  | succ n ih =>
      obtain ⟨hchain, hrest⟩ := ih
      rw [List.range_succ, List.foldl_concat, List.reverse_append]
      exact ⟨hchain.push (by simp), hrest⟩

omit [DecidableEq T] in
/-- A new object refines the empty queue. -/
theorem initList_refines {msgSize maxMsgs : Nat} (hmax : maxMsgs < 2 ^ 16) (flag : IpcFlag)
    (next : Nat → Option Nat) (data : Nat → Nat → UInt8) :
    Refines (T := T) (.init (Mq.initList msgSize maxMsgs flag next data)) .init (List.range maxMsgs).reverse [] := by
  obtain ⟨hchain, hm, he, hh, ht⟩ := initList_spec maxMsgs
    ⟨msgSize, maxMsgs, 0, none, none, none, next, data, flag⟩ rfl
  refine ⟨⟨?_, nofun, nofun, fun n => ?_⟩, hchain, ⟨hh, ht⟩, hm ▸ hmax, he, .nil, fun _ => ⟨rfl, rfl⟩⟩
  · simpa using List.nodup_range
  · rw [show (MqSys.init (T := T) (Mq.initList msgSize maxMsgs flag next data)).mq.maxMsgs = maxMsgs from hm]
    simp [MqSys.init, MqPc.slot]

/-- An object as `rt_mq_init` or `rt_mq_create` leaves it. -/
def Mq.IsNew (mq : Mq) : Prop :=
  ∃ c msgSize size flag next data,
    mq = Mq.rtMqInit c msgSize size flag next data ∨ mq = Mq.rtMqCreate c msgSize size flag next data

omit [DecidableEq T] in
theorem Mq.IsNew.refines {mq : Mq} (h : mq.IsNew) : ∃ free, Refines (T := T) (.init mq) .init free [] := by
  obtain ⟨c, msgSize, size, flag, next, data, rfl | rfl⟩ := h
  · exact ⟨_, initList_refines (Nat.mod_lt _ (by decide)) flag next data⟩
  · exact ⟨_, initList_refines (Nat.mod_lt _ (by decide)) flag next data⟩

/-- **The message queue, in every interleaving.** After any run from a new object:
the slots of the pool are partitioned into free list, queue and slots in flight, each of these in one call, and `entry`
is the length of the queue; what was observed of the run (sends that got a slot, links, deliveries, the bytes that
receives returned with, resets) is a run of the abstract queue, which inserts urgent messages in front and others at the
end, delivers from the front, and drops messages in a reset only; the queued slots hold the payloads of the abstract
queue in order; no message is lost or duplicated; and everything that can happen next does happen. -/
theorem mq_refines {mq : Mq} (hnew : mq.IsNew) {ls : List (MqEvent T × List (MqSpecEvent T))} {s : MqSys T}
    (hrun : Run MqSys.ObservedStep (.init mq) ls s) :
    (∃ a free slots, Run MqSpec.Step .init (ls.flatMap Prod.snd) a ∧ Refines s a free slots ∧ a.Conserved) ∧
      ∀ e, s.Enabled e → ∃ s', s.exec e = some s' := by
  obtain ⟨free₀, h₀⟩ := hnew.refines (T := T)
  obtain ⟨a, ha, free, slots, h⟩ :=
    hrun.simulate Prod.snd (R := fun s a => ∃ free slots, Refines s a free slots) ⟨free₀, [], h₀⟩
      fun s l s' a ⟨free, slots, h⟩ hs => by
        obtain ⟨s'', a', free', slots', hexec, hrun', h'⟩ := step_refines h hs.1.1
        obtain rfl : s'' = s' := Option.some.inj (hexec.symm.trans hs.1.2)
        exact ⟨a', hs.2 ▸ hrun', free', slots', h'⟩
  refine ⟨⟨a, free, slots, ha, h, MqSpec.run_conserved ha⟩, fun e he => ?_⟩
  obtain ⟨s', -, -, -, hs', -⟩ := step_refines h he
  exact ⟨s', hs'⟩

/-- Events executed one after the other. -/
theorem run_of_execAll {s s' : MqSys T} (es : List (MqEvent T))
    (h : es.foldlM (fun s e => if s.Enabled e then s.exec e else none) s = some s') :
    ∃ ls, ls.map Prod.fst = es ∧ Run MqSys.ObservedStep s ls s' := by
  refine Run.exists_of_foldlM Prod.fst (fun s e s' hs => ⟨(e, s.observe e), rfl, ?_, rfl⟩) h
  by_cases he : s.Enabled e
  · exact ⟨he, by simpa [he] using hs⟩
  · simp [he] at hs

/-- A pool of two slots of four bytes. -/
def mq16 : Mq := Mq.rtMqInit ⟨32, 2, 4⟩ 4 16 .fifo (fun _ => none) fun _ _ => 0

/-- A send and an urgent send by two threads, step by step in turn, and a receive by a third. -/
theorem mq_refines_run : ∃ ls, ∃ s : MqSys (Fin 3), Run MqSys.ObservedStep (.init mq16) ls s ∧ s.mq.entry = 1 ∧
    (∃ a free slots, Run MqSpec.Step .init (ls.flatMap Prod.snd) a ∧ Refines s a free slots ∧ a.Conserved) ∧
      ∀ e, s.Enabled e → ∃ s', s.exec e = some s' := by
  obtain ⟨ls, -, hrun⟩ := run_of_execAll (s := MqSys.init mq16) [.send 0 [1], .urgent 1 [2, 3],
    .continue 0 0 fun _ => 0, .continue 1 0 fun _ => 0, .continue 0 0 fun _ => 0, .continue 1 0 fun _ => 0,
    .recv (2 : Fin 3) 4 0 fun _ => 0] rfl
  exact ⟨ls, _, hrun, rfl, mq_refines ⟨_, _, _, _, _, _, .inl rfl⟩ hrun⟩

end CoreLink.RtThread
