/-
# `CoreLink.RtThread.SerialDma` — transmission by DMA, `components/drivers/serial/serial.c`.

`_serial_dma_tx` pushes a buffer to the data queue and, when no transfer is active, starts one. The head of the queue is
meant to be the buffer that is being transmitted: the interrupt behind a transfer pops it and transmits the new head. But the
push and the test of `activated` are two critical sections, and the writer that finds the transmitter idle hands over its
own buffer, whatever the head is. Another writer, or the interrupt, may have come between the two.

The results say that this is all that can go wrong. Where each writer that starts a transfer has its buffer at the head, the
buffers are transmitted in the order of the pushes, one after the other; a writer out of turn breaks this with its transfer.

The data queue is a list here (a writer that finds it full waits in the push, in front of its first step), and the interrupt
is one step. The callbacks are left out.
-/
import CoreLink.Lib.Run
import Mathlib.Logic.Function.Basic

namespace CoreLink.RtThread

open CoreLink.Lib

/-! ## The writers and the interrupt -/

/-- Where a writer is in `_serial_dma_tx`. -/
inductive DmaTxPc (α : Type*) where
  | idle
  /-- behind `rt_data_queue_push`, before `activated` is tested -/
  | queued (data : α)
  /-- behind the store to `activated`, before `dma_transmit` -/
  | starting (data : α)
  deriving DecidableEq

/-- `struct rt_serial_tx_dma` with the writers and the transfers in progress. A value of `α` is a buffer with its length;
`pushed` are all that were pushed, and `started` all that were handed to `dma_transmit`. -/
structure DmaTx (T α : Type*) where
  dataQueue : List α
  activated : Bool
  pc : T → DmaTxPc α
  inProgress : Nat
  pushed : List α
  started : List α

/-- What can happen next: the step of a writer, or the interrupt that a transfer is done. -/
inductive DmaTxEvent (T α : Type*) where
  | push (t : T) (data : α)
  | test (t : T)
  | start (t : T)
  | txDmadone

namespace DmaTx

variable {T α : Type*} [DecidableEq T]

/-- The writer `t` goes on. -/
def setPc (s : DmaTx T α) (t : T) (pc : DmaTxPc α) : DmaTx T α := { s with pc := Function.update s.pc t pc }

/-- `dma_transmit`. -/
def dmaTransmit (s : DmaTx T α) (data : α) : DmaTx T α :=
  { s with inProgress := s.inProgress + 1, started := s.started ++ [data] }

/-- The case `RT_SERIAL_EVENT_TX_DMADONE` of `rt_hw_serial_isr`. -/
def txDmadone (s : DmaTx T α) : DmaTx T α :=
  let s := { s with inProgress := s.inProgress - 1, dataQueue := s.dataQueue.tail }
  match s.dataQueue with
  | data :: _ => { s with activated := true }.dmaTransmit data
  | [] => { s with activated := false }

/-- The effect of an event, for a data queue of `size` entries. -/
def exec (size : Nat) (s : DmaTx T α) : DmaTxEvent T α → Option (DmaTx T α)
  | .push t data =>
      match s.pc t with
      | .idle =>
          if s.dataQueue.length < size then
            some ({ s with dataQueue := s.dataQueue ++ [data], pushed := s.pushed ++ [data] }.setPc t (.queued data))
          else none
      | _ => none
  | .test t =>
      match s.pc t with
      | .queued data =>
          some (if s.activated then s.setPc t .idle else { s with activated := true }.setPc t (.starting data))
      | _ => none
  | .start t =>
      match s.pc t with
      | .starting data => some ((s.dmaTransmit data).setPc t .idle)
      | _ => none
  | .txDmadone => if 0 < s.inProgress then some s.txDmadone else none

/-- One step of the system. -/
def Step (size : Nat) (s : DmaTx T α) (e : DmaTxEvent T α) (s' : DmaTx T α) : Prop := s.exec size e = some s'

/-- Behind `rt_serial_open`. -/
def init : DmaTx T α := ⟨[], false, fun _ => .idle, 0, [], []⟩

omit [DecidableEq T] in
/-- **What the transmission is for**: the buffers are handed over in the order of the pushes, each once; there is at most
one transfer at a time; and when no writer and no transfer is under way, all have been handed over. -/
structure Delivers (s : DmaTx T α) : Prop where
  inOrder : s.started <+: s.pushed
  alone : s.inProgress ≤ 1
  all : (∀ t, s.pc t = .idle) → s.inProgress = 0 → s.started = s.pushed

/-- The writer that finds no transfer active has its own buffer at the head of the queue. -/
def InTurn (s : DmaTx T α) : DmaTxEvent T α → Prop
  | .test t =>
      match s.pc t with
      | .queued data => s.activated = false → s.dataQueue.head? = some data
      | _ => True
  | _ => True

instance [DecidableEq α] (s : DmaTx T α) (e : DmaTxEvent T α) : Decidable (s.InTurn e) := by
  unfold InTurn
  split
  · split <;> infer_instance
  · infer_instance

/-! ## Steps -/

section Steps

variable {size : Nat} {s s' : DmaTx T α} {t : T}

theorem push_cases {data : α} (h : Step size s (.push t data) s') : s.pc t = .idle ∧
    s' = { s with dataQueue := s.dataQueue ++ [data], pushed := s.pushed ++ [data] }.setPc t (.queued data) := by
  unfold Step exec at h
  cases hpc : s.pc t with
  | idle =>
      simp only [hpc] at h
      by_cases hroom : s.dataQueue.length < size
      · rw [if_pos hroom] at h
        exact ⟨rfl, (Option.some.inj h).symm⟩
      · rw [if_neg hroom] at h
        cases h
  | queued d => simp [hpc] at h
  | starting d => simp [hpc] at h

theorem test_cases (h : Step size s (.test t) s') : ∃ data, s.pc t = .queued data ∧
    s' = if s.activated then s.setPc t .idle else { s with activated := true }.setPc t (.starting data) := by
  unfold Step exec at h
  cases hpc : s.pc t with
  | queued d => exact ⟨d, rfl, (Option.some.inj (by simpa only [hpc] using h)).symm⟩
  | idle => simp [hpc] at h
  | starting d => simp [hpc] at h

theorem start_cases (h : Step size s (.start t) s') : ∃ data, s.pc t = .starting data ∧
    s' = (s.dmaTransmit data).setPc t .idle := by
  unfold Step exec at h
  cases hpc : s.pc t with
  | starting d => exact ⟨d, rfl, (Option.some.inj (by simpa only [hpc] using h)).symm⟩
  | idle => simp [hpc] at h
  | queued d => simp [hpc] at h

theorem txDmadone_cases (h : Step size s .txDmadone s') : 0 < s.inProgress ∧ s' = s.txDmadone := by
  unfold Step exec at h
  by_cases hpos : 0 < s.inProgress
  · simp only [hpos, if_true] at h
    exact ⟨hpos, (Option.some.inj h).symm⟩
  · simp [hpos] at h

end Steps

/-! ## The invariant -/

/-- The writer `t` is between its test of `activated` and `dma_transmit`. -/
def Starting (s : DmaTx T α) (t : T) : Prop := ∃ data, s.pc t = .starting data

/-- The transmitter is idle, a writer is about to start a transfer of the head of the queue, or a transfer of the head is in
progress. -/
inductive DmaTxInv (s : DmaTx T α) : Prop
  | quiet (hactivated : s.activated = false) (hprogress : s.inProgress = 0) (hstart : ∀ t, ¬ s.Starting t)
      (hpushed : s.pushed = s.started ++ s.dataQueue) (hcome : s.dataQueue = [] ∨ ∃ t data, s.pc t = .queued data)
  | begun (t : T) (data : α) (rest : List α) (hactivated : s.activated = true) (hprogress : s.inProgress = 0)
      (hpc : s.pc t = .starting data) (hstart : ∀ u, s.Starting u → u = t) (hqueue : s.dataQueue = data :: rest)
      (hpushed : s.pushed = s.started ++ s.dataQueue)
  | running (data : α) (rest : List α) (hactivated : s.activated = true) (hprogress : s.inProgress = 1)
      (hstart : ∀ t, ¬ s.Starting t) (hqueue : s.dataQueue = data :: rest) (hpushed : s.pushed = s.started ++ rest)

section Invariant

variable {size : Nat} {s s' : DmaTx T α} {t : T}

/-- A writer that goes on is not starting, unless it goes there. -/
theorem starting_setPc (s : DmaTx T α) (t : T) (pc : DmaTxPc α) (hpc : ∀ data, pc ≠ .starting data) (u : T) :
    (s.setPc t pc).Starting u ↔ u ≠ t ∧ s.Starting u := by
  unfold Starting setPc
  by_cases hu : u = t
  · simp only [hu, Function.update_self, ne_eq, not_true, false_and, iff_false, not_exists]
    exact hpc
  · simp only [Function.update_of_ne hu, ne_eq, hu, not_false_eq_true, true_and]

theorem DmaTxInv.push {data : α} (i : DmaTxInv s) (h : Step size s (.push t data) s') : DmaTxInv s' := by
  obtain ⟨hidle, rfl⟩ := push_cases h
  have hstarting := starting_setPc { s with dataQueue := s.dataQueue ++ [data], pushed := s.pushed ++ [data] } t
    (.queued data) (by simp)
  cases i with
  | quiet hactivated hprogress hstart hpushed hcome =>
      refine .quiet hactivated hprogress (fun u hu => hstart u ((hstarting u).mp hu).2) ?_
        (.inr ⟨t, data, Function.update_self ..⟩)
      show s.pushed ++ [data] = s.started ++ (s.dataQueue ++ [data])
      rw [hpushed, List.append_assoc]
  | begun u d rest hactivated hprogress hpc hstart hqueue hpushed =>
      have hne : u ≠ t := by
        rintro rfl
        rw [hidle] at hpc
        cases hpc
      refine .begun u d (rest ++ [data]) hactivated hprogress ((Function.update_of_ne hne _ _).trans hpc)
        (fun v hv => hstart v ((hstarting v).mp hv).2) ?_ ?_
      · show s.dataQueue ++ [data] = d :: (rest ++ [data])
        rw [hqueue, List.cons_append]
      · show s.pushed ++ [data] = s.started ++ (s.dataQueue ++ [data])
        rw [hpushed, List.append_assoc]
  | running d rest hactivated hprogress hstart hqueue hpushed =>
      refine .running d (rest ++ [data]) hactivated hprogress (fun u hu => hstart u ((hstarting u).mp hu).2) ?_ ?_
      · show s.dataQueue ++ [data] = d :: (rest ++ [data])
        rw [hqueue, List.cons_append]
      · show s.pushed ++ [data] = s.started ++ (rest ++ [data])
        rw [hpushed, List.append_assoc]

/-- **The test** of a writer in turn: if no transfer is active, its buffer is the next. -/
theorem DmaTxInv.test (i : DmaTxInv s) (h : Step size s (.test t) s') (hg : s.InTurn (.test t)) : DmaTxInv s' := by
  obtain ⟨data, hqueued, rfl⟩ := test_cases h
  have hhead : s.activated = false → s.dataQueue.head? = some data := by
    unfold InTurn at hg
    simpa only [hqueued] using hg
  have hstarting := starting_setPc s t .idle (by simp)
  cases i with
  | quiet hactivated hprogress hstart hpushed hcome =>
      obtain ⟨rest, hqueue⟩ := List.head?_eq_some_iff.mp (hhead hactivated)
      rw [if_neg (by simp [hactivated])]
      refine .begun t data rest rfl hprogress (Function.update_self ..) (fun u hu => ?_) hqueue hpushed
      by_contra hne
      obtain ⟨d, hd⟩ := hu
      exact hstart u ⟨d, (Function.update_of_ne hne _ _).symm.trans hd⟩
  | begun u d rest hactivated hprogress hpc hstart hqueue hpushed =>
      have hne : u ≠ t := by
        rintro rfl
        rw [hqueued] at hpc
        cases hpc
      rw [if_pos hactivated]
      exact .begun u d rest hactivated hprogress ((Function.update_of_ne hne _ _).trans hpc)
        (fun v hv => hstart v ((hstarting v).mp hv).2) hqueue hpushed
  | running d rest hactivated hprogress hstart hqueue hpushed =>
      rw [if_pos hactivated]
      exact .running d rest hactivated hprogress (fun u hu => hstart u ((hstarting u).mp hu).2) hqueue hpushed

/-- The writer starts the transfer of the head. -/
theorem DmaTxInv.start (i : DmaTxInv s) (h : Step size s (.start t) s') : DmaTxInv s' := by
  obtain ⟨data, hpc', rfl⟩ := start_cases h
  have hstarting := starting_setPc (s.dmaTransmit data) t .idle (by simp)
  cases i with
  | quiet hactivated hprogress hstart hpushed hcome => exact absurd ⟨data, hpc'⟩ (hstart t)
  | begun u d rest hactivated hprogress hpc hstart hqueue hpushed =>
      obtain rfl : t = u := hstart t ⟨data, hpc'⟩
      obtain rfl : data = d := by
        rw [hpc'] at hpc
        exact DmaTxPc.starting.inj hpc
      refine .running data rest hactivated ?_ (fun v hv => ?_) hqueue ?_
      · show s.inProgress + 1 = 1
        rw [hprogress]
      · obtain ⟨hne, hv'⟩ := (hstarting v).mp hv
        exact hne (hstart v hv')
      · show s.pushed = s.started ++ [data] ++ rest
        rw [hpushed, hqueue, List.append_assoc]
        rfl
  | running d rest hactivated hprogress hstart hqueue hpushed => exact absurd ⟨data, hpc'⟩ (hstart t)

/-- **The interrupt** goes on with the new head, if there is one. -/
theorem DmaTxInv.done (i : DmaTxInv s) (h : Step size s .txDmadone s') : DmaTxInv s' := by
  obtain ⟨hpos, rfl⟩ := txDmadone_cases h
  cases i with
  | quiet hactivated hprogress hstart hpushed hcome => omega
  | begun u d rest hactivated hprogress hpc hstart hqueue hpushed => omega
  | running d rest hactivated hprogress hstart hqueue hpushed =>
      unfold DmaTx.txDmadone
      simp only [hqueue, List.tail_cons]
      cases rest with
      | nil =>
          refine .quiet rfl ?_ hstart ?_ (.inl rfl)
          · show s.inProgress - 1 = 0
            omega
          · exact hpushed
      | cons d' rest =>
          refine .running d' rest rfl ?_ hstart rfl ?_
          · show s.inProgress - 1 + 1 = 1
            omega
          · show s.pushed = s.started ++ [d'] ++ rest
            rw [hpushed, List.append_assoc]
            rfl

/-- One step of the system. -/
theorem DmaTxInv.step {e : DmaTxEvent T α} (i : DmaTxInv s) (h : Step size s e s') (hg : s.InTurn e) : DmaTxInv s' := by
  cases e with
  | push t data => exact i.push h
  | test t => exact i.test h hg
  | start t => exact i.start h
  | txDmadone => exact i.done h

omit [DecidableEq T] in
theorem DmaTxInv.init : DmaTxInv (init : DmaTx T α) :=
  .quiet rfl rfl (fun _ ⟨_, hd⟩ => by cases hd) rfl (.inl rfl)

omit [DecidableEq T] in
theorem DmaTxInv.delivers (i : DmaTxInv s) : s.Delivers := by
  cases i with
  | quiet hactivated hprogress hstart hpushed hcome =>
      refine ⟨⟨s.dataQueue, hpushed.symm⟩, by omega, fun hidle _ => ?_⟩
      rcases hcome with hempty | ⟨t, data, hpc⟩
      · rw [hpushed, hempty, List.append_nil]
      · rw [hidle t] at hpc
        cases hpc
  | begun t d rest hactivated hprogress hpc hstart hqueue hpushed =>
      refine ⟨⟨s.dataQueue, hpushed.symm⟩, by omega, fun hidle _ => ?_⟩
      rw [hidle t] at hpc
      cases hpc
  | running d rest hactivated hprogress hstart hqueue hpushed =>
      exact ⟨⟨rest, hpushed.symm⟩, by omega, fun _ h => by omega⟩

/-- **A writer out of turn** hands over a buffer that is not the next. -/
theorem DmaTxInv.not_delivers {s'' : DmaTx T α} (i : DmaTxInv s) (hg : ¬ s.InTurn (.test t)) (h : Step size s (.test t) s')
    (h' : Step size s' (.start t) s'') : ¬ s''.Delivers := by
  obtain ⟨data, hqueued, rfl⟩ := test_cases h
  obtain ⟨hactivated, hhead⟩ : s.activated = false ∧ s.dataQueue.head? ≠ some data := by
    unfold InTurn at hg
    simpa only [hqueued, Classical.not_imp] using hg
  rw [if_neg (by simp [hactivated])] at h'
  obtain ⟨data', hpc', rfl⟩ := start_cases h'
  obtain rfl : data = data' := by
    have hself : DmaTxPc.starting data = .starting data' := (Function.update_self t _ s.pc).symm.trans hpc'
    exact DmaTxPc.starting.inj hself
  cases i with
  | quiet _ hprogress hstart hpushed hcome =>
      intro hd
      obtain ⟨rest, hrest⟩ : s.started ++ [data] <+: s.pushed := hd.inOrder
      rw [hpushed, List.append_assoc, List.append_cancel_left_eq] at hrest
      exact hhead (hrest ▸ rfl)
  | begun _ _ _ hact => simp [hactivated] at hact
  | running _ _ hact => simp [hactivated] at hact

end Invariant

/-! ## Runs -/

/-- **The buffers are transmitted in the order of the pushes**, each once and one at a time, in every run in which the
writers are in turn. A writer out of turn breaks this as soon as it starts its transfer. -/
theorem serial_dma_delivers {size : Nat} {evs : List (DmaTxEvent T α)} {s : DmaTx T α}
    (h : Run (Guarded InTurn (Step size)) init evs s) :
    s.Delivers ∧ ∀ t s' s'', ¬ s.InTurn (.test t) → Step size s (.test t) s' → Step size s' (.start t) s'' → ¬ s''.Delivers := by
  have i : DmaTxInv s := h.guarded .init fun _ _ _ i hg hstep => i.step hstep hg
  exact ⟨i.delivers, fun t s' s'' hg htest hstart => i.not_delivers hg htest hstart⟩

/-- Two writers, the second of which finds a transfer in progress. -/
theorem serial_dma_delivers_run : ∃ evs, ∃ s : DmaTx (Fin 2) Nat, Run (Guarded InTurn (Step 4)) init evs s ∧
    s.started = [10, 20] ∧ s.Delivers := by
  obtain ⟨evs, hevs⟩ : ∃ evs : List (DmaTxEvent (Fin 2) Nat), evs = [.push 0 10, .test 0, .start 0, .push 1 20, .txDmadone,
      .test 1, .txDmadone] := ⟨_, rfl⟩
  obtain ⟨s, hs⟩ : ∃ s, evs.foldlM (fun s e => if InTurn s e then exec 4 s e else none) init = some s := by
    subst hevs
    exact ⟨_, rfl⟩
  have hrun : Run (Guarded InTurn (Step 4)) init evs s := Run.of_foldlM_guarded (fun _ _ _ h => h) hs
  refine ⟨evs, s, hrun, ?_, (serial_dma_delivers hrun).1⟩
  subst hevs
  obtain rfl := Option.some.inj hs
  rfl

/-- The writer 1 comes between the push and the test of the writer 0: its buffer is transmitted twice, the other one never.
And the interrupt comes between the push and the test of the writer 1: it transmits the buffer, and then the writer does. -/
theorem serial_dma_out_of_order :
    (∃ evs, ∃ s : DmaTx (Fin 2) Nat, Run (Step 4) init evs s ∧ s.started = [20, 20] ∧ ¬ s.Delivers) ∧
      ∃ evs, ∃ s : DmaTx (Fin 2) Nat, Run (Step 4) init evs s ∧ s.started = [10, 20, 20] ∧ ¬ s.Delivers := by
  constructor
  · refine ⟨[.push 0 10, .push 1 20, .test 1, .start 1, .test 0, .txDmadone, .txDmadone], _,
      Run.of_foldlM (fun _ _ _ h => h) rfl, rfl, fun h => ?_⟩
    exact absurd h.inOrder (by decide)
  · refine ⟨[.push 0 10, .test 0, .start 0, .push 1 20, .txDmadone, .txDmadone, .test 1, .start 1], _,
      Run.of_foldlM (fun _ _ _ h => h) rfl, rfl, fun h => ?_⟩
    exact absurd h.inOrder (by decide)

end DmaTx

end CoreLink.RtThread
