/-
# `CoreLink.Shell.Fifo` — the input FIFO of `src/shell/fifo.c`.

Two counters of 32 bits that are never reduced, and a count that is their difference, returned as an `uint8_t`. So
`fifo_count` reports 256 stored bytes as none, and `fifo_full` never holds where the buffer is longer than 255 bytes; and
where the length of the buffer does not divide `2 ^ 32`, the cell of the next byte may be in use after a counter has
wrapped around.

`Queue` is the abstract FIFO. `fifo_refines` says that the calls give back what it gives back, as long as `fifo_putc` is
kept from the two cases (`PutcOk`); `fifo_full_missed` is a run of the shell's own buffer that is not.
-/
import CoreLink.Lib.Counters

namespace CoreLink.Shell

open CoreLink.Lib

/-! ## The source -/

/-- `struct fifo`, with the bytes that `buffer` points to. -/
structure FIFO where
  head : Nat
  tail : Nat
  buffer : Nat → UInt8
  bufferLen : Nat

namespace FIFO

/-- `fifo_init`. -/
def fifoInit (bufferLen : Nat) : FIFO where
  head := 0
  tail := 0
  buffer := fun _ => 0
  bufferLen := bufferLen

/-- `fifo->head - fifo->tail`, in 32 bits. -/
def stored (fifo : FIFO) : Nat := Word.sub 32 fifo.head fifo.tail

/-- `fifo_count`. -/
def fifoCount (fifo : FIFO) : Nat := fifo.stored % 2 ^ 8

/-- `fifo_full`. -/
def fifoFull (fifo : FIFO) : Bool := fifo.fifoCount == fifo.bufferLen

/-- `fifo_empty`. -/
def fifoEmpty (fifo : FIFO) : Bool := fifo.fifoCount == 0

/-- `fifo_peek`. -/
def fifoPeek (fifo : FIFO) : UInt8 :=
  if !fifo.fifoEmpty then fifo.buffer (fifo.tail % fifo.bufferLen) else 0

/-- `fifo->head--`. -/
def headDown (fifo : FIFO) : FIFO := { fifo with head := Word.pred 32 fifo.head }

/-- `fifo->tail++`. -/
def tailUp (fifo : FIFO) : FIFO := { fifo with tail := (fifo.tail + 1) % 2 ^ 32 }

/-- `fifo->buffer[fifo->head % fifo->buffer_len] = data`, and `fifo->head++`. -/
def store (fifo : FIFO) (data : UInt8) : FIFO :=
  { fifo with
    buffer := Function.update fifo.buffer (fifo.head % fifo.bufferLen) data
    head := (fifo.head + 1) % 2 ^ 32 }

section Setters

variable {fifo : FIFO} {data : UInt8}

@[simp] theorem headDown_head : fifo.headDown.head = Word.pred 32 fifo.head := rfl
@[simp] theorem headDown_tail : fifo.headDown.tail = fifo.tail := rfl
@[simp] theorem headDown_buffer : fifo.headDown.buffer = fifo.buffer := rfl
@[simp] theorem headDown_bufferLen : fifo.headDown.bufferLen = fifo.bufferLen := rfl
@[simp] theorem tailUp_head : fifo.tailUp.head = fifo.head := rfl
@[simp] theorem tailUp_tail : fifo.tailUp.tail = (fifo.tail + 1) % 2 ^ 32 := rfl
@[simp] theorem tailUp_buffer : fifo.tailUp.buffer = fifo.buffer := rfl
@[simp] theorem tailUp_bufferLen : fifo.tailUp.bufferLen = fifo.bufferLen := rfl
@[simp] theorem store_head : (fifo.store data).head = (fifo.head + 1) % 2 ^ 32 := rfl
@[simp] theorem store_tail : (fifo.store data).tail = fifo.tail := rfl
@[simp] theorem store_buffer :
    (fifo.store data).buffer = Function.update fifo.buffer (fifo.head % fifo.bufferLen) data := rfl
@[simp] theorem store_bufferLen : (fifo.store data).bufferLen = fifo.bufferLen := rfl

end Setters

/-- `fifo_back`. -/
def fifoBack (fifo : FIFO) : FIFO × Nat := if !fifo.fifoEmpty then (fifo.headDown, 1) else (fifo, 0)

/-- `fifo_getc`. -/
def fifoGetc (fifo : FIFO) : FIFO × UInt8 :=
  if !fifo.fifoEmpty then (fifo.tailUp, fifo.buffer (fifo.tail % fifo.bufferLen)) else (fifo, 0)

/-- `fifo_putc`. -/
def fifoPutc (fifo : FIFO) (data : UInt8) : FIFO × Nat := if !fifo.fifoFull then (fifo.store data, 1) else (fifo, 0)

end FIFO

/-! ## Calls -/

inductive FifoCall where
  | putc (data : UInt8)
  | getc
  | back
  | peek
  | count
  | full
  | empty
  deriving DecidableEq

namespace FIFO

/-- A call, and the value that it returns. -/
def exec (fifo : FIFO) : FifoCall → FIFO × Nat
  | .putc data => fifo.fifoPutc data
  | .getc => (fifo.fifoGetc.1, fifo.fifoGetc.2.toNat)
  | .back => fifo.fifoBack
  | .peek => (fifo, fifo.fifoPeek.toNat)
  | .count => (fifo, fifo.fifoCount)
  | .full => (fifo, fifo.fifoFull.toNat)
  | .empty => (fifo, fifo.fifoEmpty.toNat)

/-- The steps of the FIFO: calls, with the values that they return. -/
def Step (fifo : FIFO) (l : FifoCall × Nat) (fifo' : FIFO) : Prop := fifo.exec l.1 = (fifo', l.2)

end FIFO

/-! ## The abstract FIFO -/

namespace Queue

/-- What a call does to a queue of at most `size` bytes, and the value that it returns. -/
def exec (size : Nat) (xs : List UInt8) : FifoCall → List UInt8 × Nat
  | .putc data => if xs.length < size then (xs ++ [data], 1) else (xs, 0)
  | .getc => (xs.drop 1, (xs.headD 0).toNat)
  | .back => (xs.dropLast, (!xs.isEmpty).toNat)
  | .peek => (xs, (xs.headD 0).toNat)
  | .count => (xs, xs.length)
  | .full => (xs, (xs.length == size).toNat)
  | .empty => (xs, xs.isEmpty.toNat)

/-- The steps of the queue. -/
def Step (size : Nat) (xs : List UInt8) (l : FifoCall × Nat) (xs' : List UInt8) : Prop := exec size xs l.1 = (xs', l.2)

end Queue

namespace FIFO

/-- `fifo_putc` is not called on 255 bytes in a longer buffer, nor where the cell of the next byte is in use. -/
def PutcOk (fifo : FIFO) : FifoCall → Prop
  | .putc _ => fifo.fifoFull = false →
      fifo.stored < 255 ∧ Counters.Free 32 fifo.bufferLen fifo.tail fifo.stored fifo.head
  | _ => True

/-! ## The invariant -/

/-- The counters are words, there are no more bytes than the buffer has cells, and no more than the count can say. -/
structure Valid (fifo : FIFO) : Prop where
  head_lt : fifo.head < 2 ^ 32
  tail_lt : fifo.tail < 2 ^ 32
  stored_le : fifo.stored ≤ fifo.bufferLen
  stored_lt : fifo.stored < 2 ^ 8

/-- The stored bytes, the oldest first. -/
def contents (fifo : FIFO) : List UInt8 :=
  Counters.window 32 fifo.bufferLen fifo.buffer fifo.tail fifo.stored

@[simp] theorem contents_length {fifo : FIFO} : fifo.contents.length = fifo.stored := Counters.window_length

/-- What the calls have to meet: the abstract queue does the same with the bytes, and returns the same. -/
def Refines (fifo : FIFO) (c : FifoCall) : Prop :=
  (fifo.exec c).1.Valid ∧ (fifo.exec c).1.bufferLen = fifo.bufferLen ∧
    Queue.exec fifo.bufferLen fifo.contents c = ((fifo.exec c).1.contents, (fifo.exec c).2)

theorem Refines.of_eq {fifo fifo' : FIFO} {c : FifoCall} {value : Nat} (he : fifo.exec c = (fifo', value))
    (hvalid : fifo'.Valid) (hlen : fifo'.bufferLen = fifo.bufferLen)
    (hqueue : Queue.exec fifo.bufferLen fifo.contents c = (fifo'.contents, value)) : fifo.Refines c := by
  unfold Refines
  rw [he]
  exact ⟨hvalid, hlen, hqueue⟩

theorem exec_getc {fifo fifo' : FIFO} {data : UInt8} (h : fifo.fifoGetc = (fifo', data)) :
    fifo.exec .getc = (fifo', data.toNat) := by
  show (fifo.fifoGetc.1, fifo.fifoGetc.2.toNat) = (fifo', data.toNat)
  rw [h]

namespace Valid

variable {fifo : FIFO} (h : fifo.Valid)
include h

theorem count : fifo.fifoCount = fifo.contents.length := by
  rw [contents_length]
  exact Nat.mod_eq_of_lt h.stored_lt

theorem full : fifo.fifoFull = (fifo.contents.length == fifo.bufferLen) := by
  unfold fifoFull
  rw [h.count]

theorem empty : fifo.fifoEmpty = fifo.contents.isEmpty := by
  unfold fifoEmpty
  rw [h.count]
  cases fifo.contents <;> rfl

/-- The head is as many steps ahead of the tail as there are bytes. -/
theorem head_eq : (fifo.tail + fifo.stored) % 2 ^ 32 = fifo.head := Counters.add_sub h.tail_lt h.head_lt

/-! ## Moving the counters -/

/-- Storing a byte, where there is room for it and its cell is free. -/
theorem store (data : UInt8) (hlen : fifo.stored < fifo.bufferLen) (h255 : fifo.stored < 255)
    (hfree : Counters.Free 32 fifo.bufferLen fifo.tail fifo.stored fifo.head) :
    (fifo.store data).Valid ∧ (fifo.store data).contents = fifo.contents ++ [data] := by
  have hn : (fifo.store data).stored = fifo.stored + 1 := by
    have hroom : fifo.stored + 1 < 2 ^ 32 := by omega
    simpa only [stored, store_head, store_tail] using Counters.sub_succ_head h.tail_lt h.head_lt hroom
  constructor
  · constructor
    · rw [store_head]
      exact Nat.mod_lt _ (Nat.two_pow_pos 32)
    · rw [store_tail]
      exact h.tail_lt
    · rw [hn, store_bufferLen]
      exact hlen
    · rw [hn]
      omega
  · unfold contents
    rw [hn, store_bufferLen, store_buffer, store_tail]
    exact Counters.window_put data h.head_eq hfree

/-- Moving the tail on leaves out the oldest byte. -/
theorem tailUp (hpos : 0 < fifo.stored) :
    fifo.tailUp.Valid ∧ fifo.contents = fifo.buffer (fifo.tail % fifo.bufferLen) :: fifo.tailUp.contents := by
  have hn : fifo.tailUp.stored = fifo.stored - 1 := by
    simpa only [stored, tailUp_head, tailUp_tail] using Counters.sub_succ_tail h.tail_lt h.head_lt hpos
  have hle := h.stored_le
  have hlt := h.stored_lt
  constructor
  · constructor
    · rw [tailUp_head]
      exact h.head_lt
    · rw [tailUp_tail]
      exact Nat.mod_lt _ (Nat.two_pow_pos 32)
    · rw [hn, tailUp_bufferLen]
      omega
    · rw [hn]
      omega
  · have hget := Counters.window_get fifo.bufferLen fifo.buffer (fifo.stored - 1) h.tail_lt
    rw [Nat.sub_add_cancel hpos] at hget
    unfold contents
    rw [hn, tailUp_bufferLen, tailUp_buffer, tailUp_tail]
    exact hget

/-- Moving the head back leaves out the newest byte. -/
theorem headDown (hpos : 0 < fifo.stored) : fifo.headDown.Valid ∧ fifo.headDown.contents = fifo.contents.dropLast := by
  have hn : fifo.headDown.stored = fifo.stored - 1 := by
    simpa only [stored, headDown_head, headDown_tail] using Counters.sub_pred_head h.tail_lt h.head_lt hpos
  have hle := h.stored_le
  have hlt := h.stored_lt
  constructor
  · constructor
    · rw [headDown_head]
      exact Word.pred_lt h.head_lt
    · rw [headDown_tail]
      exact h.tail_lt
    · rw [hn, headDown_bufferLen]
      omega
    · rw [hn]
      omega
  · have hback := Counters.window_back 32 fifo.bufferLen fifo.buffer fifo.tail (fifo.stored - 1)
    rw [Nat.sub_add_cancel hpos] at hback
    unfold contents
    rw [hn, headDown_bufferLen, headDown_buffer, headDown_tail]
    exact hback

/-! ## The calls -/

/-- The oldest byte, where there is one. -/
theorem peek : fifo.fifoPeek = fifo.contents.headD 0 := by
  unfold fifoPeek
  rw [h.empty]
  cases hc : fifo.contents with
  | nil => rfl
  | cons x xs =>
    have hpos : 0 < fifo.stored := by
      rw [← contents_length, hc]
      exact Nat.succ_pos _
    have hhead := (h.tailUp hpos).2
    rw [hc] at hhead
    exact (List.cons.inj hhead).1.symm

/-- `fifo_putc` on a FIFO that is full, and on one that is not. -/
theorem putc_full {data : UInt8} (hfull : ¬ fifo.contents.length < fifo.bufferLen) : fifo.fifoPutc data = (fifo, 0) := by
  have hle := h.stored_le
  rw [contents_length] at hfull
  have hf : fifo.fifoFull = true := by
    rw [h.full, contents_length]
    exact beq_iff_eq.mpr (by omega)
  unfold fifoPutc
  rw [hf]
  exact if_neg Bool.false_ne_true

theorem putc_room (data : UInt8) (hlen : fifo.contents.length < fifo.bufferLen) :
    fifo.fifoFull = false ∧ fifo.fifoPutc data = (fifo.store data, 1) := by
  have hf : fifo.fifoFull = false := by
    rw [h.full]
    exact beq_eq_false_iff_ne.mpr (ne_of_lt hlen)
  refine ⟨hf, ?_⟩
  unfold fifoPutc
  rw [hf]
  exact if_pos rfl

/-- `fifo_getc` and `fifo_back` on a FIFO that is empty. -/
theorem take_nil (hc : fifo.contents = []) : fifo.fifoGetc = (fifo, 0) ∧ fifo.fifoBack = (fifo, 0) := by
  have hf : fifo.fifoEmpty = true := by rw [h.empty, hc, List.isEmpty_nil]
  unfold fifoGetc fifoBack
  rw [hf]
  exact ⟨if_neg Bool.false_ne_true, if_neg Bool.false_ne_true⟩

/-- And on one that is not. -/
theorem take_cons {x : UInt8} {xs : List UInt8} (hc : fifo.contents = x :: xs) :
    0 < fifo.stored ∧ fifo.fifoGetc = (fifo.tailUp, x) ∧ fifo.fifoBack = (fifo.headDown, 1) := by
  have hpos : 0 < fifo.stored := by
    rw [← contents_length, hc]
    exact Nat.succ_pos _
  have hf : fifo.fifoEmpty = false := by rw [h.empty, hc, List.isEmpty_cons]
  have hx : fifo.buffer (fifo.tail % fifo.bufferLen) = x := by
    have hhead := (h.tailUp hpos).2
    rw [hc] at hhead
    exact (List.cons.inj hhead).1.symm
  unfold fifoGetc fifoBack
  rw [hf, hx]
  exact ⟨hpos, if_pos rfl, if_pos rfl⟩

theorem putc_refines {data : UInt8} (hok : fifo.PutcOk (.putc data)) : fifo.Refines (.putc data) := by
  by_cases hlen : fifo.contents.length < fifo.bufferLen
  · obtain ⟨hf, hputc⟩ := h.putc_room data hlen
    obtain ⟨h255, hfree⟩ := hok hf
    have hroom : fifo.stored < fifo.bufferLen := by rwa [contents_length] at hlen
    obtain ⟨hvalid, hc⟩ := h.store data hroom h255 hfree
    apply Refines.of_eq (c := .putc data) hputc hvalid store_bufferLen
    rw [hc]
    exact if_pos hlen
  · exact .of_eq (h.putc_full hlen) h rfl (if_neg hlen)

theorem getc_refines : fifo.Refines .getc := by
  cases hc : fifo.contents with
  | nil =>
    apply Refines.of_eq (exec_getc (h.take_nil hc).1) h rfl
    rw [hc]
    rfl
  | cons x xs =>
    obtain ⟨hpos, hgetc, -⟩ := h.take_cons hc
    obtain ⟨hvalid, htail⟩ := h.tailUp hpos
    apply Refines.of_eq (exec_getc hgetc) hvalid tailUp_bufferLen
    rw [hc] at htail
    rw [hc, ← (List.cons.inj htail).2]
    rfl

theorem back_refines : fifo.Refines .back := by
  cases hc : fifo.contents with
  | nil =>
    apply Refines.of_eq (c := .back) (h.take_nil hc).2 h rfl
    rw [hc]
    rfl
  | cons x xs =>
    obtain ⟨hpos, -, hback⟩ := h.take_cons hc
    obtain ⟨hvalid, hdrop⟩ := h.headDown hpos
    apply Refines.of_eq (c := .back) hback hvalid headDown_bufferLen
    rw [hdrop, hc]
    rfl

/-- **A call that meets the condition does what the abstract queue does.** -/
theorem exec_refines {c : FifoCall} (hok : fifo.PutcOk c) : fifo.Refines c := by
  cases c with
  | putc data => exact h.putc_refines hok
  | getc => exact h.getc_refines
  | back => exact h.back_refines
  | peek => exact .of_eq (congrArg (fun x : UInt8 => (fifo, x.toNat)) h.peek) h rfl rfl
  | count => exact .of_eq (congrArg (Prod.mk fifo) h.count) h rfl rfl
  | full => exact .of_eq (congrArg (fun b : Bool => (fifo, b.toNat)) h.full) h rfl rfl
  | empty => exact .of_eq (congrArg (fun b : Bool => (fifo, b.toNat)) h.empty) h rfl rfl

end Valid

/-! ## Runs -/

theorem stored_init (bufferLen : Nat) : (fifoInit bufferLen).stored = 0 := by
  simp only [stored, fifoInit, Word.sub_of_le (Nat.le_refl 0) (Nat.two_pow_pos 32), Nat.sub_self]

theorem contents_init (bufferLen : Nat) : (fifoInit bufferLen).contents = [] :=
  List.eq_nil_of_length_eq_zero (contents_length.trans (stored_init bufferLen))

theorem Valid.init (bufferLen : Nat) : (fifoInit bufferLen).Valid where
  head_lt := Nat.two_pow_pos 32
  tail_lt := Nat.two_pow_pos 32
  stored_le := by
    rw [stored_init]
    exact Nat.zero_le _
  stored_lt := by
    rw [stored_init]
    exact Nat.two_pow_pos 8

/-- **As long as `fifo_putc` is kept from the two cases, the FIFO is a bounded queue**: for every length of the buffer
and every sequence of calls, each call returns what it returns for the queue, which holds as many bytes in the end as
the counters are apart. -/
theorem fifo_refines (bufferLen : Nat) (ls : List (FifoCall × Nat)) (fifo : FIFO)
    (hrun : Run (Guarded (fun fifo l => PutcOk fifo l.1) Step) (fifoInit bufferLen) ls fifo) :
    ∃ xs, Run (Queue.Step bufferLen) [] ls xs ∧ fifo.fifoCount = xs.length ∧ xs.length ≤ bufferLen := by
  have hsim : ∃ xs, Run (Queue.Step bufferLen) [] (ls.flatMap fun l => [l]) xs ∧
      (fifo.Valid ∧ fifo.bufferLen = bufferLen ∧ xs = fifo.contents) := by
    apply hrun.simulate (fun l => [l]) (R := fun fifo xs => fifo.Valid ∧ fifo.bufferLen = bufferLen ∧ xs = fifo.contents)
      ⟨Valid.init bufferLen, rfl, (contents_init bufferLen).symm⟩
    rintro fifo l fifo' xs ⟨hv, hlen, rfl⟩ ⟨hok, hstep⟩
    obtain ⟨hv', hlen', hexec⟩ := hv.exec_refines hok
    rw [show fifo.exec l.1 = (fifo', l.2) from hstep] at hv' hlen' hexec
    rw [hlen] at hexec
    exact ⟨fifo'.contents, Run.single hexec, hv', hlen'.trans hlen, rfl⟩
  obtain ⟨xs, hqueue, hvalid, hlen, rfl⟩ := hsim
  rw [List.flatMap_singleton'] at hqueue
  refine ⟨fifo.contents, hqueue, hvalid.count, ?_⟩
  rw [contents_length, ← hlen]
  exact hvalid.stored_le

/-- In a buffer of fewer than 256 bytes whose length divides `2 ^ 32`, the condition is always met. -/
theorem Valid.putcOk {fifo : FIFO} (h : fifo.Valid) (hlen : fifo.bufferLen ≤ 255) (hdvd : fifo.bufferLen ∣ 2 ^ 32)
    (c : FifoCall) : fifo.PutcOk c := by
  cases c with
  | putc data =>
    intro hfull
    have hlt : fifo.stored < fifo.bufferLen := by
      have hne : fifo.stored ≠ fifo.bufferLen := by
        rw [h.full, contents_length] at hfull
        exact beq_eq_false_iff_ne.mp hfull
      exact lt_of_le_of_ne h.stored_le hne
    exact ⟨by omega, Counters.Free.of_dvd hdvd hlt h.head_eq⟩
  | _ => trivial

/-- So every run of such a FIFO meets it. -/
theorem guarded_of_dvd {bufferLen : Nat} {ls : List (FifoCall × Nat)} {fifo : FIFO} (hlen : bufferLen ≤ 255)
    (hdvd : bufferLen ∣ 2 ^ 32) (hrun : Run Step (fifoInit bufferLen) ls fifo) :
    Run (Guarded (fun fifo l => PutcOk fifo l.1) Step) (fifoInit bufferLen) ls fifo ∧ fifo.Valid ∧
      fifo.bufferLen = bufferLen := by
  induction hrun with
  | nil => exact ⟨.nil, Valid.init bufferLen, rfl⟩
  | @snoc ls fifo fifo' l _ hs ih =>
    obtain ⟨hrun, hvalid, hlen'⟩ := ih
    have hputc : fifo.PutcOk l.1 := hvalid.putcOk (hlen' ▸ hlen) (hlen' ▸ hdvd) l.1
    obtain ⟨hvalid', hsame, -⟩ := hvalid.exec_refines hputc
    rw [show fifo.exec l.1 = (fifo', l.2) from hs] at hvalid' hsame
    exact ⟨.snoc hrun ⟨hputc, hs⟩, hvalid', hsame.trans hlen'⟩

/-- A buffer of two bytes: the third one is refused, the newest one taken back, and the oldest one read. -/
theorem fifo_refines_two : ∃ (fifo : FIFO) (xs : List UInt8), Run (Queue.Step 2) []
    [(.putc 5, 1), (.putc 6, 1), (.putc 7, 0), (.full, 1), (.back, 1), (.getc, 5), (.getc, 0)] xs ∧
      fifo.fifoCount = xs.length ∧ xs.length ≤ 2 := by
  have hfeed : ((Run.feed exec (fifoInit 2) [.putc 5, .putc 6, .putc 7, .full, .back, .getc, .getc]).1) =
      [(.putc 5, 1), (.putc 6, 1), (.putc 7, 0), (.full, 1), (.back, 1), (.getc, 5), (.getc, 0)] := by decide +kernel
  have hrun := Run.of_feed exec (fifoInit 2)
    [.putc 5, .putc 6, .putc 7, .full, .back, .getc, .getc]
  rw [hfeed] at hrun
  exact ⟨_, fifo_refines 2 _ _ (guarded_of_dvd (by decide) ⟨2 ^ 31, rfl⟩ hrun).1⟩

/-- **The count is too small for the default buffer.** After 256 bytes have gone into a buffer of 256, `fifo_count`
returns 0. -/
theorem fifo_full_missed : ¬ ∀ (bufferLen : Nat) (ls : List (FifoCall × Nat)) (fifo : FIFO),
    Run Step (fifoInit bufferLen) ls fifo → ∃ xs, Run (Queue.Step bufferLen) [] ls xs := by
  intro hall
  obtain ⟨xs, hqueue⟩ := hall 256 _ _ (Run.of_feed exec (fifoInit 256) (List.replicate 256 (.putc 0) ++ [.count]))
  have hfeed := congrArg Prod.fst (Run.eq_feed hqueue)
  rw [Run.feed_inputs] at hfeed
  have hlast := congrArg (fun ls : List (FifoCall × Nat) => ls.getLast?.map Prod.snd) hfeed
  have hne : ¬ (Run.feed (Queue.exec 256) [] (List.replicate 256 (.putc 0) ++ [.count])).1.getLast?.map Prod.snd =
      (Run.feed exec (fifoInit 256) (List.replicate 256 (.putc 0) ++ [.count])).1.getLast?.map Prod.snd := by
    decide +kernel
  exact hne hlast

end FIFO

end CoreLink.Shell
