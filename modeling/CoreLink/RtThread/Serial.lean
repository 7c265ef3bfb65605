/-
# `CoreLink.RtThread.Serial` — the receive FIFO of `components/drivers/serial/serial.c`.

Equal indices mean that the FIFO is empty, or that it is full if `is_full` is set. In interrupt mode each received byte
goes in by itself, and the FIFO never gets full: when the indices would meet, the oldest byte is dropped, and `is_full`
only remembers that until the next read. In DMA mode the controller writes the bytes into the buffer, going around the
end, and `rt_dma_recv_update_put_index` finds out afterwards whether they have reached the unread ones.

`RxQueue` is the abstract FIFO: a queue that drops the oldest bytes when there are more than its capacity.
`int_refines` and `dma_refines` say that the FIFO is that queue in the two modes.
-/
import CoreLink.Lib.Cells

namespace CoreLink.RtThread

open CoreLink.Lib

/-! ## The source -/

/-- `struct rt_serial_rx_fifo`, for bytes of any type `V`. -/
structure RxFifo (V : Type*) where
  buffer : Nat → V
  putIndex : Nat
  getIndex : Nat
  isFull : Bool

variable {V : Type*}

namespace RxFifo

/-- The FIFO that `rt_serial_open` makes. -/
def rtSerialOpen (buffer : Nat → V) : RxFifo V where
  buffer := buffer
  putIndex := 0
  getIndex := 0
  isFull := false

/-- `_serial_fifo_calc_recved_len`. -/
def serialFifoCalcRecvedLen (bufsz : Nat) (f : RxFifo V) : Nat :=
  if f.putIndex = f.getIndex then if f.isFull = false then 0 else bufsz
  else if f.putIndex > f.getIndex then f.putIndex - f.getIndex
  else bufsz - (f.getIndex - f.putIndex)

/-- An index is counted up, and goes back to 0 at the end of the buffer. -/
def advance (bufsz index : Nat) : Nat := if (index + 1) % 2 ^ 16 ≥ bufsz then 0 else (index + 1) % 2 ^ 16

/-- The loop of `_serial_int_rx`: the bytes that are read. -/
def serialIntRx (bufsz : Nat) : (length : Nat) → RxFifo V → List V × RxFifo V
  | 0, f => ([], f)
  | length + 1, f =>
    if f.getIndex = f.putIndex ∧ f.isFull = false then ([], f)
    else
      let ch := f.buffer f.getIndex
      let rest := serialIntRx bufsz length { f with getIndex := advance bufsz f.getIndex, isFull := false }
      (ch :: rest.1, rest.2)

/-- The loop of `rt_hw_serial_isr` for `RT_SERIAL_EVENT_RX_IND`, for one byte. -/
def isrRxInd (bufsz : Nat) (f : RxFifo V) (ch : V) : RxFifo V :=
  let f := { f with buffer := Function.update f.buffer f.putIndex ch, putIndex := advance bufsz f.putIndex }
  if f.putIndex = f.getIndex then { f with getIndex := advance bufsz f.getIndex, isFull := true } else f

/-- `rt_dma_recv_update_get_index`. -/
def rtDmaRecvUpdateGetIndex (bufsz : Nat) (f : RxFifo V) (len : Nat) : RxFifo V :=
  let index := (f.getIndex + len) % 2 ^ 16
  { f with
    isFull := if f.isFull = true ∧ len ≠ 0 then false else f.isFull
    getIndex := if index ≥ bufsz then index % bufsz else index }

/-- `rt_dma_recv_update_put_index` up to where it looks at `is_full`: the put index, and whether `is_full` is set. -/
def updatePutIndex (bufsz : Nat) (f : RxFifo V) (len : Nat) : Nat × Bool :=
  let index := (f.putIndex + len) % 2 ^ 16
  if f.getIndex ≤ f.putIndex then
    if index ≥ bufsz then (index % bufsz, if index % bufsz ≥ f.getIndex then true else f.isFull) else (index, f.isFull)
  else if index ≥ f.getIndex then (if index ≥ bufsz then index % bufsz else index, true)
  else (index, f.isFull)

/-- `rt_dma_recv_update_put_index`. -/
def rtDmaRecvUpdatePutIndex (bufsz : Nat) (f : RxFifo V) (len : Nat) : RxFifo V :=
  let put := (updatePutIndex bufsz f len).1
  let full := (updatePutIndex bufsz f len).2
  let get := if full = true then put else f.getIndex
  { f with putIndex := put, isFull := full, getIndex := if get ≥ bufsz then 0 else get }

/-- What the DMA controller does before an `RT_SERIAL_EVENT_RX_DMADONE`: it fills the buffer circularly. -/
def dmaFill (bufsz : Nat) (f : RxFifo V) (ptr : Nat → V) (len : Nat) : RxFifo V :=
  { f with buffer := Ring.copyIn bufsz f.buffer f.putIndex ptr 0 len }

/-- `_serial_dma_rx` with a buffer: what is at `data` then, the length returned, and the FIFO. -/
def serialDmaRx (bufsz : Nat) (f : RxFifo V) (data : Nat → V) (length : Nat) : (Nat → V) × Nat × RxFifo V :=
  let recved := f.serialFifoCalcRecvedLen bufsz
  let len := if length < recved then length else recved
  let data :=
    if f.getIndex + len < bufsz then copy data 0 f.buffer f.getIndex len
    else copy (copy data 0 f.buffer f.getIndex (bufsz - f.getIndex)) (bufsz - f.getIndex) f.buffer 0
      (len + f.getIndex - bufsz)
  (data, len, f.rtDmaRecvUpdateGetIndex bufsz len)

end RxFifo

/-! ## Calls -/

/-- A read of some length into the memory at `data`, or some bytes that are received: in interrupt mode those that `getc`
returns one after the other, in DMA mode those of one event. -/
inductive RxCall (V : Type*) where
  | read (data : Nat → V) (length : Nat)
  | received (ptr : Nat → V) (len : Nat)

namespace RxFifo

/-- A call in interrupt mode, and the bytes that it reads. -/
def intExec (bufsz : Nat) (f : RxFifo V) : RxCall V → RxFifo V × List V
  | .read _ length => ((serialIntRx bufsz length f).2, (serialIntRx bufsz length f).1)
  | .received ptr len => ((block ptr 0 len).foldl (isrRxInd bufsz) f, [])

/-- A call in DMA mode, and the bytes that it reads. -/
def dmaExec (bufsz : Nat) (f : RxFifo V) : RxCall V → RxFifo V × List V
  | .read data length =>
    ((f.serialDmaRx bufsz data length).2.2,
      block (f.serialDmaRx bufsz data length).1 0 (f.serialDmaRx bufsz data length).2.1)
  | .received ptr len => ((f.dmaFill bufsz ptr len).rtDmaRecvUpdatePutIndex bufsz len, [])

/-- The steps in interrupt mode. -/
def IntStep (bufsz : Nat) (f : RxFifo V) (l : RxCall V × List V) (f' : RxFifo V) : Prop :=
  f.intExec bufsz l.1 = (f', l.2)

/-- An event in DMA mode is about at most as many bytes as the buffer has. -/
def LenOk (bufsz : Nat) : RxCall V → Prop
  | .read .. => True
  | .received _ len => len ≤ bufsz

/-- The steps in DMA mode. -/
def DmaStep (bufsz : Nat) (f : RxFifo V) (l : RxCall V × List V) (f' : RxFifo V) : Prop :=
  LenOk bufsz l.1 ∧ f.dmaExec bufsz l.1 = (f', l.2)

end RxFifo

/-! ## The abstract FIFO -/

namespace RxQueue

/-- The newest of the bytes, as many as there is room for. -/
def newest (capacity : Nat) (xs : List V) : List V := xs.drop (xs.length - capacity)

/-- What a call does to a queue that drops the oldest bytes, and the bytes that it reads. -/
def exec (capacity : Nat) (xs : List V) : RxCall V → List V × List V
  | .read _ length => (xs.drop length, xs.take length)
  | .received ptr len => (newest capacity (xs ++ block ptr 0 len), [])

/-- The steps of the queue. -/
def Step (capacity : Nat) (xs : List V) (l : RxCall V × List V) (xs' : List V) : Prop :=
  exec capacity xs l.1 = (xs', l.2)

theorem newest_of_le {capacity : Nat} {xs : List V} (h : xs.length ≤ capacity) : newest capacity xs = xs := by
  unfold newest
  rw [Nat.sub_eq_zero_of_le h, List.drop_zero]

/-- Dropping early and dropping late is the same. -/
theorem newest_append {capacity : Nat} {xs ys : List V} :
    newest capacity (newest capacity xs ++ ys) = newest capacity (xs ++ ys) := by
  unfold newest
  by_cases h : xs.length ≤ capacity
  · rw [Nat.sub_eq_zero_of_le h, List.drop_zero]
  · rw [← List.drop_append_of_le_length (by omega), List.drop_drop]
    congr 1
    simp only [List.length_drop, List.length_append]
    omega

end RxQueue

namespace RxFifo

variable {bufsz n : Nat} {f : RxFifo V}

/-- The unread bytes, the oldest first, where there are `n` of them. -/
def unread (bufsz : Nat) (f : RxFifo V) (n : Nat) : List V := Ring.contents bufsz f.buffer f.getIndex n

@[simp] theorem unread_length : (f.unread bufsz n).length = n := Ring.contents_length

/-! ## Interrupt mode -/

/-- In interrupt mode there are `n` unread bytes. -/
structure IntAt (bufsz : Nat) (f : RxFifo V) (n : Nat) : Prop where
  get_lt : f.getIndex < bufsz
  put_eq : f.putIndex = (f.getIndex + n) % bufsz
  n_lt : n < bufsz
  full : f.isFull = true → 0 < n

theorem advance_eq {index : Nat} (hb : bufsz ≤ 32768) (hi : index < bufsz) :
    advance bufsz index = (index + 1) % bufsz := by
  unfold advance
  rw [Nat.mod_eq_of_lt (show index + 1 < 2 ^ 16 by omega)]
  exact Ring.wrap_succ hi

namespace IntAt

/-- The indices are equal where there is no unread byte, and only there. -/
theorem get_eq_put (h : IntAt bufsz f n) : f.getIndex = f.putIndex ↔ n = 0 := by
  have hget := h.get_lt
  have hlt := h.n_lt
  rw [h.put_eq, Ring.wrap_add hget (by omega)]
  split <;> omega

/-- `_serial_fifo_calc_recved_len` is the number of unread bytes. -/
theorem calcRecvedLen (h : IntAt bufsz f n) : f.serialFifoCalcRecvedLen bufsz = n := by
  have hget := h.get_lt
  have hlt := h.n_lt
  have hput := h.put_eq
  rw [Ring.wrap_add hget (by omega)] at hput
  unfold serialFifoCalcRecvedLen
  by_cases he : f.putIndex = f.getIndex
  · have hn := h.get_eq_put.mp he.symm
    have hnot : f.isFull = false := by
      cases hf : f.isFull with
      | false => rfl
      | true => exact absurd (h.full hf) (by omega)
    rw [if_pos he, if_pos hnot, hn]
  · rw [if_neg he]
    split at hput <;> split <;> omega

/-- **Reading** takes out the oldest bytes. -/
theorem read (hb : bufsz ≤ 32768) (length : Nat) (h : IntAt bufsz f n) :
    (serialIntRx bufsz length f).1 = (f.unread bufsz n).take length ∧
      IntAt bufsz (serialIntRx bufsz length f).2 (n - length) ∧
        (serialIntRx bufsz length f).2.unread bufsz (n - length) = (f.unread bufsz n).drop length := by
  -- by induction on the length: one byte more is read from where the first one was
  induction length generalizing f n with
  | zero => exact ⟨rfl, h, rfl⟩
  | succ length ih =>
    unfold serialIntRx
    by_cases hempty : f.getIndex = f.putIndex ∧ f.isFull = false
    · have hn := h.get_eq_put.mp hempty.1
      subst hn
      rw [if_pos hempty, Nat.zero_sub]
      exact ⟨rfl, h, rfl⟩
    · have hpos : n ≠ 0 := by
        intro hn
        refine hempty ⟨h.get_eq_put.mpr hn, ?_⟩
        cases hf : f.isFull with
        | false => rfl
        | true => exact absurd (h.full hf) (by omega)
      obtain ⟨m, rfl⟩ := Nat.exists_eq_succ_of_ne_zero hpos
      have hlt := h.n_lt
      rw [if_neg hempty]
      dsimp only
      have hnext : IntAt bufsz { f with getIndex := advance bufsz f.getIndex, isFull := false } m := by
        refine ⟨?_, ?_, by omega, nofun⟩
        · show advance bufsz f.getIndex < bufsz
          rw [advance_eq hb h.get_lt]
          exact Nat.mod_lt _ (by omega)
        · show f.putIndex = (advance bufsz f.getIndex + m) % bufsz
          rw [advance_eq hb h.get_lt, Ring.offset_get]
          exact h.put_eq
      have hunread : f.unread bufsz (m + 1) = f.buffer f.getIndex ::
          unread bufsz { f with getIndex := advance bufsz f.getIndex, isFull := false } m := by
        unfold unread
        rw [Ring.contents_get h.get_lt]
        show _ = _ :: Ring.contents bufsz f.buffer (advance bufsz f.getIndex) m
        rw [advance_eq hb h.get_lt]
      obtain ⟨hbytes, hat, hrest⟩ := ih hnext
      rw [Nat.succ_sub_succ, hunread, List.take_succ_cons, List.drop_succ_cons, hbytes]
      exact ⟨rfl, hat, hrest⟩

/-- **A byte goes in**; if the FIFO has its `bufsz - 1` bytes, the oldest one gives way. -/
theorem put (hb : bufsz ≤ 32768) (h2 : 2 ≤ bufsz) (ch : V) (h : IntAt bufsz f n) :
    ∃ m, IntAt bufsz (isrRxInd bufsz f ch) m ∧
      (isrRxInd bufsz f ch).unread bufsz m = RxQueue.newest (bufsz - 1) (f.unread bufsz n ++ [ch]) := by
  have hget := h.get_lt
  have hlt := h.n_lt
  have hput : f.putIndex < bufsz := h.put_eq ▸ Nat.mod_lt _ (by omega)
  have hadv : advance bufsz f.putIndex = (f.getIndex + (n + 1)) % bufsz := by
    rw [advance_eq hb hput, h.put_eq, Ring.offset_put]
  -- the contents with the byte, before the oldest one is left out
  have hcontents : Ring.contents bufsz (Function.update f.buffer f.putIndex ch) f.getIndex (n + 1) =
      f.unread bufsz n ++ [ch] := by
    rw [h.put_eq]
    exact Ring.contents_put ch hlt
  unfold isrRxInd
  dsimp only
  by_cases hmeet : advance bufsz f.putIndex = f.getIndex
  · have hn : n + 1 = bufsz := by
      rw [hadv, Ring.wrap_add hget (by omega)] at hmeet
      split at hmeet <;> omega
    rw [if_pos hmeet]
    refine ⟨n, ⟨?_, ?_, hlt, fun _ => by omega⟩, ?_⟩
    · show advance bufsz f.getIndex < bufsz
      rw [advance_eq hb hget]
      exact Nat.mod_lt _ (by omega)
    · show advance bufsz f.putIndex = (advance bufsz f.getIndex + n) % bufsz
      rw [hadv, advance_eq hb hget, Ring.offset_get]
    · have hdrop : (f.unread bufsz n ++ [ch]).drop 1 =
          Ring.contents bufsz (Function.update f.buffer f.putIndex ch) ((f.getIndex + 1) % bufsz) n := by
        rw [← hcontents, Ring.contents_get hget, List.drop_one, List.tail_cons]
      unfold RxQueue.newest
      rw [List.length_append, unread_length, List.length_singleton, show n + 1 - (bufsz - 1) = 1 by omega, hdrop]
      show Ring.contents bufsz _ (advance bufsz f.getIndex) n = _
      rw [advance_eq hb hget]
  · have hn : n + 1 < bufsz := by
      rcases Nat.lt_or_ge (n + 1) bufsz with hn | hn
      · exact hn
      · refine absurd ?_ hmeet
        rw [hadv, show n + 1 = bufsz by omega, Nat.add_mod_right, Nat.mod_eq_of_lt hget]
    rw [if_neg hmeet]
    refine ⟨n + 1, ⟨hget, hadv, hn, fun _ => Nat.succ_pos n⟩, ?_⟩
    rw [RxQueue.newest_of_le (by rw [List.length_append, unread_length, List.length_singleton]; omega)]
    exact hcontents

/-- Some bytes go in, one after the other. -/
theorem received (hb : bufsz ≤ 32768) (h2 : 2 ≤ bufsz) (chs : List V) (h : IntAt bufsz f n) :
    ∃ m, IntAt bufsz (chs.foldl (isrRxInd bufsz) f) m ∧
      (chs.foldl (isrRxInd bufsz) f).unread bufsz m = RxQueue.newest (bufsz - 1) (f.unread bufsz n ++ chs) := by
  induction chs generalizing f n with
  | nil =>
    have hlt := h.n_lt
    refine ⟨n, h, ?_⟩
    rw [List.append_nil, RxQueue.newest_of_le (by rw [unread_length]; omega)]
    rfl
  | cons ch chs ih =>
    obtain ⟨m, hat, hunread⟩ := h.put hb h2 ch
    obtain ⟨k, hat', hunread'⟩ := ih hat
    refine ⟨k, hat', hunread'.trans ?_⟩
    rw [hunread, RxQueue.newest_append, List.append_assoc, List.singleton_append]

end IntAt

/-! ## DMA mode -/

/-- In DMA mode there are `n` unread bytes. -/
structure DmaAt (bufsz : Nat) (f : RxFifo V) (n : Nat) : Prop where
  get_lt : f.getIndex < bufsz
  put_eq : f.putIndex = (f.getIndex + n) % bufsz
  n_le : n ≤ bufsz
  full : f.isFull = true ↔ n = bufsz

namespace DmaAt

/-- The put index, by whether the unread bytes go around the end. -/
theorem put_cases (h : DmaAt bufsz f n) :
    (f.getIndex + n < bufsz ∧ f.putIndex = f.getIndex + n) ∨
      (bufsz ≤ f.getIndex + n ∧ f.putIndex + bufsz = f.getIndex + n) := by
  have hput := h.put_eq
  rw [Ring.wrap_add h.get_lt h.n_le] at hput
  split at hput <;> omega

theorem put_lt (h : DmaAt bufsz f n) : f.putIndex < bufsz := by
  have hget := h.get_lt
  rw [h.put_eq]
  exact Nat.mod_lt _ (by omega)

/-- `_serial_fifo_calc_recved_len` is the number of unread bytes. -/
theorem calcRecvedLen (h : DmaAt bufsz f n) : f.serialFifoCalcRecvedLen bufsz = n := by
  have hget := h.get_lt
  have hle := h.n_le
  unfold serialFifoCalcRecvedLen
  by_cases he : f.putIndex = f.getIndex
  · rw [if_pos he]
    cases hf : f.isFull with
    | false =>
      have hne : n ≠ bufsz := fun hn => absurd (h.full.mpr hn) (by rw [hf]; exact Bool.false_ne_true)
      rw [if_pos rfl]
      rcases h.put_cases with hp | hp <;> omega
    | true =>
      rw [if_neg Bool.noConfusion]
      exact (h.full.mp hf).symm
  · rw [if_neg he]
    rcases h.put_cases with hp | hp <;> split <;> omega

/-- Moving the get index on leaves out the oldest bytes. -/
theorem update_get (hb : bufsz ≤ 32768) (h : DmaAt bufsz f n) {len : Nat} (hlen : len ≤ n) :
    DmaAt bufsz (f.rtDmaRecvUpdateGetIndex bufsz len) (n - len) ∧
      (f.rtDmaRecvUpdateGetIndex bufsz len).unread bufsz (n - len) = (f.unread bufsz n).drop len := by
  have hget := h.get_lt
  have hle := h.n_le
  have hindex : (f.rtDmaRecvUpdateGetIndex bufsz len).getIndex = (f.getIndex + len) % bufsz := by
    show (if (f.getIndex + len) % 2 ^ 16 ≥ bufsz then (f.getIndex + len) % 2 ^ 16 % bufsz
      else (f.getIndex + len) % 2 ^ 16) = _
    rw [Nat.mod_eq_of_lt (show f.getIndex + len < 2 ^ 16 by omega)]
    split
    next => rfl
    next hlt => exact (Nat.mod_eq_of_lt (by omega)).symm
  constructor
  · constructor
    · rw [hindex]
      exact Nat.mod_lt _ (by omega)
    · rw [hindex, Nat.mod_add_mod, Nat.add_assoc, Nat.add_sub_cancel' hlen]
      exact h.put_eq
    · omega
    · show (if f.isFull = true ∧ len ≠ 0 then false else f.isFull) = true ↔ n - len = bufsz
      split
      next hc =>
        refine ⟨nofun, fun hn => ?_⟩
        omega
      next hc =>
        rw [h.full]
        constructor
        · intro hn
          by_cases hz : len = 0
          · omega
          · exact absurd ⟨h.full.mpr hn, hz⟩ hc
        · intro hn
          omega
  · unfold unread
    rw [hindex, Ring.contents_drop hlen]
    rfl

/-- **Reading** takes out the oldest bytes. -/
theorem read (hb : bufsz ≤ 32768) (h : DmaAt bufsz f n) (data : Nat → V) (length : Nat) :
    block (f.serialDmaRx bufsz data length).1 0 (f.serialDmaRx bufsz data length).2.1 =
        (f.unread bufsz n).take length ∧
      DmaAt bufsz (f.serialDmaRx bufsz data length).2.2 (n - length) ∧
      (f.serialDmaRx bufsz data length).2.2.unread bufsz (n - length) = (f.unread bufsz n).drop length := by
  have hget := h.get_lt
  have hle := h.n_le
  have hlen : (if length < f.serialFifoCalcRecvedLen bufsz then length else f.serialFifoCalcRecvedLen bufsz) =
      min length n := by
    rw [h.calcRecvedLen]
    split <;> omega
  have hcopy : (f.serialDmaRx bufsz data length).1 =
      Ring.copyOut bufsz data 0 f.buffer f.getIndex (min length n) := by
    unfold serialDmaRx
    dsimp only
    rw [hlen]
    split
    next hlt => rw [Ring.copyOut_of_le (by omega)]
    next hge =>
      have hmin : min (min length n) (bufsz - f.getIndex) = bufsz - f.getIndex := by omega
      unfold Ring.copyOut
      rw [hmin, Nat.zero_add, show min length n + f.getIndex - bufsz = min length n - (bufsz - f.getIndex) by omega]
  have hvalue : (f.serialDmaRx bufsz data length).2.1 = min length n := hlen
  have hfifo : (f.serialDmaRx bufsz data length).2.2 = f.rtDmaRecvUpdateGetIndex bufsz (min length n) := by
    unfold serialDmaRx
    dsimp only
    rw [hlen]
  obtain ⟨hat, hdrop⟩ := h.update_get hb (show min length n ≤ n by omega)
  have hsub : n - min length n = n - length := by omega
  rw [hsub] at hat hdrop
  rw [hcopy, hvalue, hfifo, Ring.block_copyOut hget (by omega), hdrop]
  refine ⟨?_, hat, ?_⟩
  · rw [List.take_eq_take_min, unread_length]
    exact (Ring.contents_take (by omega)).symm
  · rcases Nat.le_total length n with hl | hl
    · rw [Nat.min_eq_left hl]
    · rw [Nat.min_eq_right hl, List.drop_eq_nil_of_le (by rw [unread_length]),
        List.drop_eq_nil_of_le (by rwa [unread_length])]

/-- **Where the put index comes to be**, and when the FIFO is full then: the cases of
`rt_dma_recv_update_put_index`. -/
theorem updatePutIndex_eq (hb : bufsz ≤ 32768) (h : DmaAt bufsz f n) {len : Nat} (hlen : len ≤ bufsz) :
    updatePutIndex bufsz f len = ((f.putIndex + len) % bufsz, decide (bufsz ≤ n + len)) := by
  have hget := h.get_lt
  have hput := h.put_lt
  have hle := h.n_le
  have hfull : f.isFull = decide (n = bufsz) := by
    rw [Bool.eq_iff_iff, h.full, decide_eq_true_iff]
  have hmod := Ring.wrap_add hput hlen
  unfold updatePutIndex
  rw [Nat.mod_eq_of_lt (show f.putIndex + len < 2 ^ 16 by omega), hfull]
  dsimp only
  by_cases hend : f.putIndex + len < bufsz
  · rw [if_pos hend] at hmod
    rw [hmod, if_neg (show ¬ f.putIndex + len ≥ bufsz by omega)]
    rcases h.put_cases with hp | hp
    · -- the unread bytes do not go around the end
      rw [if_pos (by omega)]
      congr 1
      exact decide_eq_decide.mpr (by omega)
    · by_cases hn : n = bufsz
      · rw [if_pos (by omega), hn]
        congr 1
        exact decide_eq_decide.mpr (by omega)
      · rw [if_neg (by omega)]
        by_cases hreach : f.putIndex + len ≥ f.getIndex
        · rw [if_pos hreach, if_neg (show ¬ f.putIndex + len ≥ bufsz by omega)]
          congr 1
          exact (decide_eq_true (by omega)).symm
        · rw [if_neg hreach]
          congr 1
          exact decide_eq_decide.mpr (by omega)
  · have hwrap : (f.putIndex + len) % bufsz = f.putIndex + len - bufsz := by rw [hmod, if_neg hend]
    rw [hwrap, if_pos (show f.putIndex + len ≥ bufsz by omega)]
    rcases h.put_cases with hp | hp
    · rw [if_pos (by omega)]
      congr 1
      by_cases hreach : f.putIndex + len - bufsz ≥ f.getIndex
      · rw [if_pos hreach]
        exact (decide_eq_true (by omega)).symm
      · rw [if_neg hreach]
        exact decide_eq_decide.mpr (by omega)
    · by_cases hn : n = bufsz
      · -- a FIFO that is full stays full, also if the bytes do not reach the get index again
        rw [if_pos (show f.getIndex ≤ f.putIndex by omega), decide_eq_true hn, ite_self]
        congr 1
        exact (decide_eq_true (by omega)).symm
      · rw [if_neg (show ¬ f.getIndex ≤ f.putIndex by omega), if_pos (show f.putIndex + len ≥ f.getIndex by omega),
          if_pos (show f.putIndex + len ≥ bufsz by omega)]
        congr 1
        exact (decide_eq_true (by omega)).symm

/-- **Some bytes go in**; if there are more than `bufsz` then, the oldest ones give way. -/
theorem received (hb : bufsz ≤ 32768) (h : DmaAt bufsz f n) (ptr : Nat → V) {len : Nat} (hlen : len ≤ bufsz) :
    ∃ m, DmaAt bufsz ((f.dmaFill bufsz ptr len).rtDmaRecvUpdatePutIndex bufsz len) m ∧
      ((f.dmaFill bufsz ptr len).rtDmaRecvUpdatePutIndex bufsz len).unread bufsz m =
        RxQueue.newest bufsz (f.unread bufsz n ++ block ptr 0 len) := by
  have hget := h.get_lt
  have hle := h.n_le
  have hput : (f.putIndex + len) % bufsz < bufsz := Nat.mod_lt _ (by omega)
  have hmove : (f.dmaFill bufsz ptr len).rtDmaRecvUpdatePutIndex bufsz len =
      { buffer := Ring.copyIn bufsz f.buffer f.putIndex ptr 0 len
        putIndex := (f.putIndex + len) % bufsz
        getIndex := if bufsz ≤ n + len then (f.putIndex + len) % bufsz else f.getIndex
        isFull := decide (bufsz ≤ n + len) } := by
    have hsame : updatePutIndex bufsz (f.dmaFill bufsz ptr len) len = updatePutIndex bufsz f len := rfl
    unfold rtDmaRecvUpdatePutIndex
    rw [hsame, h.updatePutIndex_eq hb hlen]
    dsimp only
    simp only [decide_eq_true_eq]
    split
    next hover =>
      rw [if_neg (by omega)]
      rfl
    next hroom =>
      have hin : ¬ (f.dmaFill bufsz ptr len).getIndex ≥ bufsz := Nat.not_le_of_lt hget
      rw [if_neg hin]
      rfl
  rw [hmove]
  by_cases hover : bufsz ≤ n + len
  · -- the `d` oldest bytes are left out, and then the others and the new ones fill the ring
    obtain ⟨d, hd⟩ : ∃ d, n + len = bufsz + d := ⟨n + len - bufsz, by omega⟩
    have hk : f.putIndex = ((f.getIndex + d) % bufsz + (n - d)) % bufsz := by
      rw [Nat.mod_add_mod, Nat.add_assoc, Nat.add_sub_cancel' (by omega)]
      exact h.put_eq
    have hnext : (f.putIndex + len) % bufsz = (f.getIndex + d) % bufsz := by
      rw [hk, Nat.mod_add_mod, show (f.getIndex + d) % bufsz + (n - d) + len = (f.getIndex + d) % bufsz + bufsz by omega,
        Nat.add_mod_right, Nat.mod_mod]
    refine ⟨bufsz, ⟨?_, ?_, Nat.le_refl _, ?_⟩, ?_⟩
    · show (if _ then _ else _) < bufsz
      rwa [if_pos hover]
    · show (f.putIndex + len) % bufsz = ((if _ then _ else _) + bufsz) % bufsz
      rw [if_pos hover, Nat.add_mod_right, Nat.mod_mod]
    · exact ⟨fun _ => rfl, fun _ => decide_eq_true hover⟩
    · show Ring.contents bufsz (Ring.copyIn bufsz f.buffer f.putIndex ptr 0 len) (if _ then _ else _) bufsz = _
      have hfill : Ring.contents bufsz (Ring.copyIn bufsz f.buffer (((f.getIndex + d) % bufsz + (n - d)) % bufsz) ptr 0
          len) ((f.getIndex + d) % bufsz) (n - d + len) =
          Ring.contents bufsz f.buffer ((f.getIndex + d) % bufsz) (n - d) ++ block ptr 0 len :=
        Ring.contents_copyIn (hnext ▸ hput) (by omega)
      rw [← hk, show n - d + len = bufsz by omega, ← Ring.contents_drop (by omega)] at hfill
      unfold RxQueue.newest
      rw [if_pos hover, hnext, hfill, List.length_append, unread_length, block_length,
        show n + len - bufsz = d by omega, List.drop_append_of_le_length (by rw [unread_length]; omega)]
      rfl
  · refine ⟨n + len, ⟨?_, ?_, by omega, ?_⟩, ?_⟩
    · show (if _ then _ else _) < bufsz
      rwa [if_neg hover]
    · show (f.putIndex + len) % bufsz = ((if _ then _ else _) + (n + len)) % bufsz
      rw [if_neg hover, h.put_eq, Nat.mod_add_mod, Nat.add_assoc]
    · show decide (bufsz ≤ n + len) = true ↔ n + len = bufsz
      rw [decide_eq_true_iff]
      omega
    · show Ring.contents bufsz (Ring.copyIn bufsz f.buffer f.putIndex ptr 0 len) (if _ then _ else _) (n + len) = _
      rw [if_neg hover, RxQueue.newest_of_le (by rw [List.length_append, unread_length, block_length]; omega), h.put_eq]
      exact Ring.contents_copyIn hget (by omega)

end DmaAt

/-! ## Runs -/

/-- What a call does in interrupt mode is what it does to the abstract queue of `bufsz - 1` bytes. -/
theorem int_step (h2 : 2 ≤ bufsz) (hb : bufsz ≤ 32768) (h : IntAt bufsz f n) (c : RxCall V) :
    ∃ m, IntAt bufsz (f.intExec bufsz c).1 m ∧
      RxQueue.exec (bufsz - 1) (f.unread bufsz n) c =
        ((f.intExec bufsz c).1.unread bufsz m, (f.intExec bufsz c).2) := by
  cases c with
  | read data length =>
    obtain ⟨hbytes, hat, hrest⟩ := h.read hb length
    refine ⟨n - length, hat, ?_⟩
    show _ = ((serialIntRx bufsz length f).2.unread bufsz (n - length), (serialIntRx bufsz length f).1)
    rw [hbytes, hrest]
    rfl
  | received ptr len =>
    obtain ⟨m, hat, hunread⟩ := h.received hb h2 (block ptr 0 len)
    refine ⟨m, hat, ?_⟩
    show _ = (((block ptr 0 len).foldl (isrRxInd bufsz) f).unread bufsz m, [])
    rw [hunread]
    rfl

/-- What a call does in DMA mode is what it does to the abstract queue of `bufsz` bytes. -/
theorem dma_step (hb : bufsz ≤ 32768) (h : DmaAt bufsz f n) {c : RxCall V} (hlen : LenOk bufsz c) :
    ∃ m, DmaAt bufsz (f.dmaExec bufsz c).1 m ∧
      RxQueue.exec bufsz (f.unread bufsz n) c = ((f.dmaExec bufsz c).1.unread bufsz m, (f.dmaExec bufsz c).2) := by
  cases c with
  | read data length =>
    obtain ⟨hbytes, hat, hrest⟩ := h.read hb data length
    refine ⟨n - length, hat, ?_⟩
    show _ = ((f.serialDmaRx bufsz data length).2.2.unread bufsz (n - length), block _ _ _)
    rw [hbytes, hrest]
    rfl
  | received ptr len =>
    obtain ⟨m, hat, hunread⟩ := h.received hb ptr hlen
    refine ⟨m, hat, ?_⟩
    show _ = (((f.dmaFill bufsz ptr len).rtDmaRecvUpdatePutIndex bufsz len).unread bufsz m, [])
    rw [hunread]
    rfl

/-- **The receive FIFO is a queue that drops the oldest bytes**: of `bufsz - 1` bytes in interrupt mode, and of `bufsz`
bytes in DMA mode. For every size of the buffer and every sequence of reads and of received bytes, the reads return what
the queue returns, and `_serial_fifo_calc_recved_len` is the number of bytes in it. -/
theorem serial_refines (buffer : Nat → V) (bufsz : Nat) (h2 : 2 ≤ bufsz) (hb : bufsz ≤ 32768)
    (ls : List (RxCall V × List V)) (f : RxFifo V) :
    (Run (IntStep bufsz) (rtSerialOpen buffer) ls f →
      ∃ xs, Run (RxQueue.Step (bufsz - 1)) [] ls xs ∧ f.serialFifoCalcRecvedLen bufsz = xs.length ∧
        xs.length ≤ bufsz - 1) ∧
      (Run (DmaStep bufsz) (rtSerialOpen buffer) ls f →
        ∃ xs, Run (RxQueue.Step bufsz) [] ls xs ∧ f.serialFifoCalcRecvedLen bufsz = xs.length ∧ xs.length ≤ bufsz) := by
  have hzero : 0 = (0 + 0) % bufsz := (Nat.zero_mod _).symm
  constructor
  · intro hrun
    have hsim : ∃ xs, Run (RxQueue.Step (bufsz - 1)) [] (ls.flatMap fun l => [l]) xs ∧
        ∃ n, IntAt bufsz f n ∧ xs = f.unread bufsz n := by
      apply hrun.simulate (fun l => [l]) (R := fun f xs => ∃ n, IntAt bufsz f n ∧ xs = f.unread bufsz n)
        ⟨0, ⟨by show 0 < bufsz; omega, hzero, by omega, nofun⟩, rfl⟩
      rintro f l f' xs ⟨n, hat, rfl⟩ hstep
      obtain ⟨m, hat', hexec⟩ := int_step h2 hb hat l.1
      rw [show f.intExec bufsz l.1 = (f', l.2) from hstep] at hat' hexec
      exact ⟨f'.unread bufsz m, Run.single hexec, m, hat', rfl⟩
    obtain ⟨xs, hqueue, n, hat, rfl⟩ := hsim
    rw [List.flatMap_singleton'] at hqueue
    have hlt := hat.n_lt
    refine ⟨f.unread bufsz n, hqueue, ?_, ?_⟩
    · rw [unread_length]
      exact hat.calcRecvedLen
    · rw [unread_length]
      omega
  · intro hrun
    have hsim : ∃ xs, Run (RxQueue.Step bufsz) [] (ls.flatMap fun l => [l]) xs ∧
        ∃ n, DmaAt bufsz f n ∧ xs = f.unread bufsz n := by
      apply hrun.simulate (fun l => [l]) (R := fun f xs => ∃ n, DmaAt bufsz f n ∧ xs = f.unread bufsz n)
        ⟨0, ⟨by show 0 < bufsz; omega, hzero, by omega, nofun, fun h => by omega⟩, rfl⟩
      rintro f l f' xs ⟨n, hat, rfl⟩ ⟨hlen, hstep⟩
      obtain ⟨m, hat', hexec⟩ := dma_step hb hat hlen
      rw [show f.dmaExec bufsz l.1 = (f', l.2) from hstep] at hat' hexec
      exact ⟨f'.unread bufsz m, Run.single hexec, m, hat', rfl⟩
    obtain ⟨xs, hqueue, n, hat, rfl⟩ := hsim
    rw [List.flatMap_singleton'] at hqueue
    refine ⟨f.unread bufsz n, hqueue, ?_, ?_⟩
    · rw [unread_length]
      exact hat.calcRecvedLen
    · rw [unread_length]
      exact hat.n_le

/-- A call with what it reads is a step. -/
theorem IntStep.of_exec {c : RxCall V} {bytes : List V} (h : (f.intExec bufsz c).2 = bytes) :
    IntStep bufsz f (c, bytes) (f.intExec bufsz c).1 := by
  subst h
  rfl

theorem DmaStep.of_exec {c : RxCall V} {bytes : List V} (hlen : LenOk bufsz c) (h : (f.dmaExec bufsz c).2 = bytes) :
    DmaStep bufsz f (c, bytes) (f.dmaExec bufsz c).1 := by
  subst h
  exact ⟨hlen, rfl⟩

/-- A buffer of three bytes. In interrupt mode the first two of four bytes are dropped; in DMA mode the first one is. -/
theorem serial_refines_overrun : ∃ f g : RxFifo Nat,
    (∃ xs, Run (RxQueue.Step (3 - 1)) [] [(.received id 4, []), (.read (fun _ => 9) 3, [2, 3])] xs ∧
      f.serialFifoCalcRecvedLen 3 = xs.length ∧ xs.length ≤ 3 - 1) ∧
      ∃ xs, Run (RxQueue.Step 3) []
        [(.received id 2, []), (.received (· + 2) 2, []), (.read (fun _ => 9) 3, [1, 2, 3])] xs ∧
        g.serialFifoCalcRecvedLen 3 = xs.length ∧ xs.length ≤ 3 := by
  let f₀ : RxFifo Nat := rtSerialOpen fun _ => 0
  let f₁ := (f₀.intExec 3 (.received id 4)).1
  let g₁ := (f₀.dmaExec 3 (.received id 2)).1
  let g₂ := (g₁.dmaExec 3 (.received (· + 2) 2)).1
  have hread : (f₁.intExec 3 (.read (fun _ => 9) 3)).2 = [2, 3] := by decide +kernel
  have hread' : (g₂.dmaExec 3 (.read (fun _ => 9) 3)).2 = [1, 2, 3] := by decide +kernel
  have hint : Run (IntStep 3) f₀ ([] ++ [(.received id 4, [])] ++ [(.read (fun _ => 9) 3, [2, 3])])
      (f₁.intExec 3 (.read (fun _ => 9) 3)).1 :=
    .snoc (.snoc .nil (IntStep.of_exec rfl)) (IntStep.of_exec hread)
  have hdma : Run (DmaStep 3) f₀
      ([] ++ [(.received id 2, [])] ++ [(.received (· + 2) 2, [])] ++ [(.read (fun _ => 9) 3, [1, 2, 3])])
      (g₂.dmaExec 3 (.read (fun _ => 9) 3)).1 :=
    .snoc (.snoc (.snoc .nil (DmaStep.of_exec (show 2 ≤ 3 by omega) rfl)) (DmaStep.of_exec (show 2 ≤ 3 by omega) rfl))
      (DmaStep.of_exec trivial hread')
  exact ⟨_, _, (serial_refines _ 3 (by omega) (by omega) _ _).1 hint,
    (serial_refines _ 3 (by omega) (by omega) _ _).2 hdma⟩

end RxFifo

end CoreLink.RtThread
