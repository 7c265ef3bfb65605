/-
# `CoreLink.RtThread.Ringbuffer` — the ring buffer of `components/drivers/src/ringbuffer.c`.

An index of 15 bits and a mirror bit for each of the two ends: the bytes in the buffer are those from the read position
up to the write position, on a line of twice the size that is bent to a circle. Where the indices are equal, the mirror
bits say whether the buffer is empty or full.

`Fifo` is the abstract buffer, a list of at most `size` bytes with what each call does to it and gives back.
`ringbuffer_refines` is the result: every sequence of calls gives back what the list gives back.
-/
import CoreLink.Lib.Cells
import CoreLink.Lib.Word

namespace CoreLink.RtThread

open CoreLink.Lib

/-! ## The source -/

/-- `enum rt_ringbuffer_state`. -/
inductive RtRingbufferState where
  | empty
  | full
  | halffull
  deriving DecidableEq

/-- `struct rt_ringbuffer`, for bytes of any type `V`. The pool that `buffer_ptr` points to is part of it. -/
structure Ringbuffer (V : Type*) where
  bufferPtr : Nat → V
  readMirror : Bool
  readIndex : Nat
  writeMirror : Bool
  writeIndex : Nat
  bufferSize : Nat

variable {V : Type*}

namespace Ringbuffer

/-- `RT_ALIGN_SIZE` is `2 ^ 2`. -/
def alignLog : Nat := 2

/-- `rt_ringbuffer_init`, with what the pool holds at that time. -/
def rtRingbufferInit (pool : Nat → V) (size : Nat) : Ringbuffer V where
  bufferPtr := pool
  readMirror := false
  readIndex := 0
  writeMirror := false
  writeIndex := 0
  bufferSize := Word.alignDown 16 alignLog size

/-- `rt_ringbuffer_status`. -/
def rtRingbufferStatus (rb : Ringbuffer V) : RtRingbufferState :=
  if rb.readIndex = rb.writeIndex then if rb.readMirror = rb.writeMirror then .empty else .full else .halffull

/-- `rt_ringbuffer_data_len`. -/
def rtRingbufferDataLen (rb : Ringbuffer V) : Nat :=
  match rb.rtRingbufferStatus with
  | .empty => 0
  | .full => rb.bufferSize
  | .halffull =>
    if rb.writeIndex > rb.readIndex then rb.writeIndex - rb.readIndex
    else rb.bufferSize - (rb.readIndex - rb.writeIndex)

/-- `rt_ringbuffer_space_len`. There is never more data than the size (`Valid.dataLen_le`), so the difference is exact. -/
def rtRingbufferSpaceLen (rb : Ringbuffer V) : Nat := rb.bufferSize - rb.rtRingbufferDataLen

/-- The end of `rt_ringbuffer_put`, for the `length` bytes from `ptr` on that are put in. -/
def putBytes (rb : Ringbuffer V) (ptr : Nat → V) (length : Nat) : Ringbuffer V :=
  if rb.bufferSize - rb.writeIndex > length then
    { rb with
      bufferPtr := copy rb.bufferPtr rb.writeIndex ptr 0 length
      writeIndex := (rb.writeIndex + length) % 2 ^ 15 }
  else
    { rb with
      bufferPtr := copy (copy rb.bufferPtr rb.writeIndex ptr 0 (rb.bufferSize - rb.writeIndex)) 0 ptr
        (rb.bufferSize - rb.writeIndex) (length - (rb.bufferSize - rb.writeIndex))
      writeMirror := !rb.writeMirror
      writeIndex := (length - (rb.bufferSize - rb.writeIndex)) % 2 ^ 15 }

/-- `rt_ringbuffer_put`: the buffer, and the value returned. -/
def rtRingbufferPut (rb : Ringbuffer V) (ptr : Nat → V) (length : UInt16) : Ringbuffer V × Nat :=
  let size := rb.rtRingbufferSpaceLen % 2 ^ 16
  if size = 0 then (rb, 0)
  else
    let length := if size < length.toNat then size else length.toNat
    (rb.putBytes ptr length, length)

/-- The end of `rt_ringbuffer_get`, for the `length` bytes that go to `ptr`: the buffer, and what is at `ptr` then. -/
def getBytes (rb : Ringbuffer V) (ptr : Nat → V) (length : Nat) : Ringbuffer V × (Nat → V) :=
  if rb.bufferSize - rb.readIndex > length then
    ({ rb with readIndex := (rb.readIndex + length) % 2 ^ 15 }, copy ptr 0 rb.bufferPtr rb.readIndex length)
  else
    ({ rb with
        readMirror := !rb.readMirror
        readIndex := (length - (rb.bufferSize - rb.readIndex)) % 2 ^ 15 },
      copy (copy ptr 0 rb.bufferPtr rb.readIndex (rb.bufferSize - rb.readIndex)) (rb.bufferSize - rb.readIndex)
        rb.bufferPtr 0 (length - (rb.bufferSize - rb.readIndex)))

/-- `rt_ringbuffer_get`: the buffer, what is at `ptr` then, and the value returned. -/
def rtRingbufferGet (rb : Ringbuffer V) (ptr : Nat → V) (length : UInt16) : Ringbuffer V × (Nat → V) × Nat :=
  let size := rb.rtRingbufferDataLen
  if size = 0 then (rb, ptr, 0)
  else
    let length := if size < length.toNat then size else length.toNat
    ((rb.getBytes ptr length).1, (rb.getBytes ptr length).2, length)

/-- `rt_ringbuffer_putchar`. -/
def rtRingbufferPutchar (rb : Ringbuffer V) (ch : V) : Ringbuffer V × Nat :=
  if rb.rtRingbufferSpaceLen = 0 then (rb, 0)
  else
    let rb := { rb with bufferPtr := Function.update rb.bufferPtr rb.writeIndex ch }
    if rb.writeIndex = rb.bufferSize - 1 then ({ rb with writeMirror := !rb.writeMirror, writeIndex := 0 }, 1)
    else ({ rb with writeIndex := (rb.writeIndex + 1) % 2 ^ 15 }, 1)

/-- `rt_ringbuffer_putchar_force`. -/
def rtRingbufferPutcharForce (rb : Ringbuffer V) (ch : V) : Ringbuffer V × Nat :=
  let oldState := rb.rtRingbufferStatus
  let rb := { rb with bufferPtr := Function.update rb.bufferPtr rb.writeIndex ch }
  if rb.writeIndex = rb.bufferSize - 1 then
    let rb := { rb with writeMirror := !rb.writeMirror, writeIndex := 0 }
    if oldState = .full then ({ rb with readMirror := !rb.readMirror, readIndex := rb.writeIndex }, 1) else (rb, 1)
  else
    let rb := { rb with writeIndex := (rb.writeIndex + 1) % 2 ^ 15 }
    if oldState = .full then ({ rb with readIndex := rb.writeIndex }, 1) else (rb, 1)

/-- `rt_ringbuffer_getchar`: the buffer, what is at `ch` then, and the value returned. -/
def rtRingbufferGetchar (rb : Ringbuffer V) (ch : V) : Ringbuffer V × V × Nat :=
  if rb.rtRingbufferDataLen = 0 then (rb, ch, 0)
  else if rb.readIndex = rb.bufferSize - 1 then
    ({ rb with readMirror := !rb.readMirror, readIndex := 0 }, rb.bufferPtr rb.readIndex, 1)
  else ({ rb with readIndex := (rb.readIndex + 1) % 2 ^ 15 }, rb.bufferPtr rb.readIndex, 1)

end Ringbuffer

/-! ## Calls -/

/-- A call, with its arguments; for those that read bytes, `ptr` and `ch` are what the caller's memory holds before. -/
inductive RbCall (V : Type*) where
  | put (ptr : Nat → V) (length : UInt16)
  | putchar (ch : V)
  | putcharForce (ch : V)
  | get (ptr : Nat → V) (length : UInt16)
  | getchar (ch : V)

/-- What a call gives back: the value returned, and the bytes that it has written to the caller's memory. -/
structure RbReturn (V : Type*) where
  value : Nat
  bytes : List V
  deriving DecidableEq

namespace Ringbuffer

/-- A call, and what it gives back. -/
def exec (rb : Ringbuffer V) : RbCall V → Ringbuffer V × RbReturn V
  | .put ptr length => ((rb.rtRingbufferPut ptr length).1, ⟨(rb.rtRingbufferPut ptr length).2, []⟩)
  | .putchar ch => ((rb.rtRingbufferPutchar ch).1, ⟨(rb.rtRingbufferPutchar ch).2, []⟩)
  | .putcharForce ch => ((rb.rtRingbufferPutcharForce ch).1, ⟨(rb.rtRingbufferPutcharForce ch).2, []⟩)
  | .get ptr length =>
    let (rb', ptr', value) := rb.rtRingbufferGet ptr length
    (rb', ⟨value, block ptr' 0 value⟩)
  | .getchar ch =>
    let (rb', ch', value) := rb.rtRingbufferGetchar ch
    (rb', ⟨value, if value = 0 then [] else [ch']⟩)

/-- The steps of the buffer: calls, with what they give back. -/
def Step (rb : Ringbuffer V) (l : RbCall V × RbReturn V) (rb' : Ringbuffer V) : Prop := rb.exec l.1 = (rb', l.2)

end Ringbuffer

/-! ## The abstract buffer -/

namespace RbFifo

/-- What a call does to a buffer of at most `size` bytes, and what it gives back. -/
def exec (size : Nat) (xs : List V) : RbCall V → List V × RbReturn V
  | .put ptr length =>
    let n := min length.toNat (size - xs.length)
    (xs ++ block ptr 0 n, ⟨n, []⟩)
  | .putchar ch => if xs.length < size then (xs ++ [ch], ⟨1, []⟩) else (xs, ⟨0, []⟩)
  | .putcharForce ch => ((if xs.length < size then xs else xs.drop 1) ++ [ch], ⟨1, []⟩)
  | .get _ length =>
    let n := min length.toNat xs.length
    (xs.drop n, ⟨n, xs.take n⟩)
  | .getchar _ => (xs.drop 1, ⟨min 1 xs.length, xs.take 1⟩)

/-- The steps of the abstract buffer. -/
def Step (size : Nat) (xs : List V) (l : RbCall V × RbReturn V) (xs' : List V) : Prop := exec size xs l.1 = (xs', l.2)

end RbFifo

namespace Ringbuffer

/-! ## The invariant -/

/-- The two positions are in the buffer, and the write position is at most one time around ahead of the read position. -/
structure Valid (rb : Ringbuffer V) : Prop where
  size_lt : rb.bufferSize < 2 ^ 15
  read_lt : rb.readIndex < rb.bufferSize
  write_lt : rb.writeIndex < rb.bufferSize
  order : (rb.readMirror = rb.writeMirror ∧ rb.readIndex ≤ rb.writeIndex) ∨
    (rb.readMirror = !rb.writeMirror ∧ rb.writeIndex ≤ rb.readIndex)

/-- The bytes in the buffer, the oldest first. -/
def contents (rb : Ringbuffer V) : List V :=
  Ring.contents rb.bufferSize rb.bufferPtr rb.readIndex rb.rtRingbufferDataLen

@[simp] theorem contents_length {rb : Ringbuffer V} : rb.contents.length = rb.rtRingbufferDataLen := Ring.contents_length

namespace Valid

variable {rb : Ringbuffer V} {ptr : Nat → V} {n : Nat}

/-- In one mirror, the length is the distance. -/
theorem dataLen_same (h : rb.Valid) (hm : rb.readMirror = rb.writeMirror) :
    rb.rtRingbufferDataLen = rb.writeIndex - rb.readIndex := by
  have hle : rb.readIndex ≤ rb.writeIndex := by
    rcases h.order with ho | ho
    · exact ho.2
    · exact absurd (hm.symm.trans ho.1) (by simp)
  unfold rtRingbufferDataLen rtRingbufferStatus
  by_cases he : rb.readIndex = rb.writeIndex
  · simp [he, hm]
  · simp only [if_neg he]
    exact if_pos (by omega)

/-- In different mirrors, it is what is missing to the size. -/
theorem dataLen_other (h : rb.Valid) (hm : rb.readMirror = !rb.writeMirror) :
    rb.rtRingbufferDataLen = rb.bufferSize - (rb.readIndex - rb.writeIndex) := by
  have hle : rb.writeIndex ≤ rb.readIndex := by
    rcases h.order with ho | ho
    · exact absurd (ho.1.symm.trans hm) (by simp)
    · exact ho.2
  unfold rtRingbufferDataLen rtRingbufferStatus
  by_cases he : rb.readIndex = rb.writeIndex
  · simp [he, hm]
  · simp only [if_neg he]
    exact if_neg (by omega)

/-- **The write position** is the length ahead of the read position: in the same mirror, or in the other one and so
beyond the end. -/
theorem write_eq (h : rb.Valid) :
    (rb.readMirror = rb.writeMirror ∧ rb.writeIndex = rb.readIndex + rb.rtRingbufferDataLen) ∨
      (rb.readMirror = !rb.writeMirror ∧ rb.writeIndex + rb.bufferSize = rb.readIndex + rb.rtRingbufferDataLen) := by
  rcases h.order with ⟨hm, hle⟩ | ⟨hm, hle⟩
  · have hlen := h.dataLen_same hm
    exact .inl ⟨hm, by omega⟩
  · have hlen := h.dataLen_other hm
    have hr := h.read_lt
    exact .inr ⟨hm, by omega⟩

/-- Where the write position is so, the length is what it says. -/
theorem dataLen_eq (h : rb.Valid) (hw : (rb.readMirror = rb.writeMirror ∧ rb.writeIndex = rb.readIndex + n) ∨
    (rb.readMirror = !rb.writeMirror ∧ rb.writeIndex + rb.bufferSize = rb.readIndex + n)) :
    rb.rtRingbufferDataLen = n := by
  have hr := h.read_lt
  rcases hw with ⟨hm, he⟩ | ⟨hm, he⟩
  · rw [h.dataLen_same hm]
    omega
  · rw [h.dataLen_other hm]
    have hle : n ≤ rb.bufferSize := by
      rcases h.order with ho | ho
      · exact absurd (ho.1.symm.trans hm) (by simp)
      · have hwr := ho.2
        omega
    omega

theorem dataLen_le (h : rb.Valid) : rb.rtRingbufferDataLen ≤ rb.bufferSize := by
  have hw := h.write_lt
  rcases h.order with ⟨hm, hle⟩ | ⟨hm, hle⟩
  · rw [h.dataLen_same hm]
    omega
  · rw [h.dataLen_other hm]
    omega

/-- The write index is that of the cell behind the bytes in the buffer. -/
theorem write_mod (h : rb.Valid) : rb.writeIndex = (rb.readIndex + rb.rtRingbufferDataLen) % rb.bufferSize := by
  have hw := h.write_lt
  rcases h.write_eq with ⟨-, he⟩ | ⟨-, he⟩
  · rw [← he, Nat.mod_eq_of_lt hw]
  · rw [← he, Nat.add_mod_right, Nat.mod_eq_of_lt hw]

end Valid

/-! ## Putting bytes in, and taking them out -/

/-- The two branches of `putBytes`, in one: the bytes go into the ring, and the write position moves on by their
number. -/
theorem putBytes_eq {rb : Ringbuffer V} {ptr : Nat → V} {n : Nat} (h : rb.Valid) (hn : n ≤ rb.bufferSize) :
    rb.putBytes ptr n = { rb with
      bufferPtr := Ring.copyIn rb.bufferSize rb.bufferPtr rb.writeIndex ptr 0 n
      writeMirror := if rb.writeIndex + n < rb.bufferSize then rb.writeMirror else !rb.writeMirror
      writeIndex := if rb.writeIndex + n < rb.bufferSize then rb.writeIndex + n
        else rb.writeIndex + n - rb.bufferSize } := by
  have hsize := h.size_lt
  have hw := h.write_lt
  unfold putBytes
  by_cases hlt : rb.writeIndex + n < rb.bufferSize
  · rw [if_pos (by omega), Ring.copyIn_of_le (by omega), if_pos hlt, if_pos hlt, Nat.mod_eq_of_lt (by omega)]
  · have hmin : min n (rb.bufferSize - rb.writeIndex) = rb.bufferSize - rb.writeIndex := by omega
    have hind : (n - (rb.bufferSize - rb.writeIndex)) % 2 ^ 15 = rb.writeIndex + n - rb.bufferSize := by
      rw [Nat.mod_eq_of_lt (by omega)]
      omega
    rw [if_neg (by omega), if_neg hlt, if_neg hlt, hind]
    unfold Ring.copyIn
    rw [hmin, Nat.zero_add]

/-- The two branches of `getBytes`, in one. -/
theorem getBytes_eq {rb : Ringbuffer V} {ptr : Nat → V} {n : Nat} (h : rb.Valid) (hn : n ≤ rb.bufferSize) :
    rb.getBytes ptr n = ({ rb with
      readMirror := if rb.readIndex + n < rb.bufferSize then rb.readMirror else !rb.readMirror
      readIndex := if rb.readIndex + n < rb.bufferSize then rb.readIndex + n else rb.readIndex + n - rb.bufferSize },
      Ring.copyOut rb.bufferSize ptr 0 rb.bufferPtr rb.readIndex n) := by
  have hsize := h.size_lt
  have hr := h.read_lt
  unfold getBytes
  by_cases hlt : rb.readIndex + n < rb.bufferSize
  · rw [if_pos (by omega), Ring.copyOut_of_le (by omega), if_pos hlt, if_pos hlt, Nat.mod_eq_of_lt (by omega)]
  · have hmin : min n (rb.bufferSize - rb.readIndex) = rb.bufferSize - rb.readIndex := by omega
    have hind : (n - (rb.bufferSize - rb.readIndex)) % 2 ^ 15 = rb.readIndex + n - rb.bufferSize := by
      rw [Nat.mod_eq_of_lt (by omega)]
      omega
    rw [if_neg (by omega), if_neg hlt, if_neg hlt, hind]
    unfold Ring.copyOut
    rw [hmin, Nat.zero_add]

namespace Valid

variable {rb : Ringbuffer V} {ptr : Nat → V} {n : Nat}

/-- **Putting in** as many bytes as there is space for: they stand behind those that were there. -/
theorem putBytes (h : rb.Valid) (ptr : Nat → V) (n : Nat) (hn : rb.rtRingbufferDataLen + n ≤ rb.bufferSize) :
    (rb.putBytes ptr n).Valid ∧ (rb.putBytes ptr n).bufferSize = rb.bufferSize ∧
      (rb.putBytes ptr n).contents = rb.contents ++ block ptr 0 n := by
  have hw := h.write_lt
  have hr := h.read_lt
  have hlen := h.dataLen_le
  have hmod := h.write_mod
  rw [putBytes_eq h (by omega)]
  generalize hrb : ({ rb with
      bufferPtr := Ring.copyIn rb.bufferSize rb.bufferPtr rb.writeIndex ptr 0 n
      writeMirror := if rb.writeIndex + n < rb.bufferSize then rb.writeMirror else !rb.writeMirror
      writeIndex := if rb.writeIndex + n < rb.bufferSize then rb.writeIndex + n
        else rb.writeIndex + n - rb.bufferSize } : Ringbuffer V) = rb'
  -- where the write position is now
  have hpos : (rb'.readMirror = rb'.writeMirror ∧ rb'.writeIndex = rb'.readIndex + (rb.rtRingbufferDataLen + n)) ∨
      (rb'.readMirror = !rb'.writeMirror ∧
        rb'.writeIndex + rb'.bufferSize = rb'.readIndex + (rb.rtRingbufferDataLen + n)) := by
    subst hrb
    rcases h.write_eq with ⟨hm, he⟩ | ⟨hm, he⟩
    · by_cases hlt : rb.writeIndex + n < rb.bufferSize
      · simp only [if_pos hlt]
        exact .inl ⟨hm, by omega⟩
      · simp only [if_neg hlt, Bool.not_not]
        exact .inr ⟨hm, by omega⟩
    · have hlt : rb.writeIndex + n < rb.bufferSize := by omega
      simp only [if_pos hlt]
      exact .inr ⟨hm, by omega⟩
  have hsize : rb'.bufferSize = rb.bufferSize := by rw [← hrb]
  have hread : rb'.readIndex = rb.readIndex := by rw [← hrb]
  have hvalid : rb'.Valid := by
    refine ⟨hsize ▸ h.size_lt, by omega, ?_, ?_⟩
    · subst hrb
      show (if rb.writeIndex + n < rb.bufferSize then _ else _) < rb.bufferSize
      split <;> omega
    · rcases hpos with hp | hp
      · exact .inl ⟨hp.1, by omega⟩
      · exact .inr ⟨hp.1, by omega⟩
  have hdata := hvalid.dataLen_eq hpos
  refine ⟨hvalid, hsize, ?_⟩
  have hcells : rb'.bufferPtr = Ring.copyIn rb.bufferSize rb.bufferPtr
      ((rb.readIndex + rb.rtRingbufferDataLen) % rb.bufferSize) ptr 0 n := by rw [← hmod, ← hrb]
  unfold contents
  rw [hdata, hsize, hread, hcells]
  exact Ring.contents_copyIn hr hn

/-- **Taking out** as many bytes as there are: they are the oldest ones, and the others stay. -/
theorem getBytes (h : rb.Valid) (ptr : Nat → V) (n : Nat) (hn : n ≤ rb.rtRingbufferDataLen) :
    (rb.getBytes ptr n).1.Valid ∧ (rb.getBytes ptr n).1.bufferSize = rb.bufferSize ∧
      (rb.getBytes ptr n).1.contents = rb.contents.drop n ∧ block (rb.getBytes ptr n).2 0 n = rb.contents.take n := by
  have hw := h.write_lt
  have hr := h.read_lt
  have hlen := h.dataLen_le
  rw [getBytes_eq h (by omega)]
  refine (and_assoc.trans and_assoc).mp ⟨?_, ?_⟩
  · generalize hrb : ({ rb with
      readMirror := if rb.readIndex + n < rb.bufferSize then rb.readMirror else !rb.readMirror
      readIndex := if rb.readIndex + n < rb.bufferSize then rb.readIndex + n
        else rb.readIndex + n - rb.bufferSize } : Ringbuffer V) = rb'
    have hpos : (rb'.readMirror = rb'.writeMirror ∧ rb'.writeIndex = rb'.readIndex + (rb.rtRingbufferDataLen - n)) ∨
        (rb'.readMirror = !rb'.writeMirror ∧
          rb'.writeIndex + rb'.bufferSize = rb'.readIndex + (rb.rtRingbufferDataLen - n)) := by
      subst hrb
      rcases h.write_eq with ⟨hm, he⟩ | ⟨hm, he⟩
      · have hlt : rb.readIndex + n < rb.bufferSize := by omega
        simp only [if_pos hlt]
        exact .inl ⟨hm, by omega⟩
      · by_cases hlt : rb.readIndex + n < rb.bufferSize
        · simp only [if_pos hlt]
          exact .inr ⟨hm, by omega⟩
        · simp only [if_neg hlt]
          exact .inl ⟨by rw [hm, Bool.not_not], by omega⟩
    have hsize : rb'.bufferSize = rb.bufferSize := by rw [← hrb]
    have hwrite : rb'.writeIndex = rb.writeIndex := by rw [← hrb]
    have hread : rb'.readIndex = (rb.readIndex + n) % rb.bufferSize := by
      rw [← hrb, Ring.wrap_add hr (by omega)]
    have hvalid : rb'.Valid := by
      refine ⟨hsize ▸ h.size_lt, ?_, by omega, ?_⟩
      · rw [hread, hsize]
        exact Nat.mod_lt _ (by omega)
      · rcases hpos with hp | hp
        · exact .inl ⟨hp.1, by omega⟩
        · exact .inr ⟨hp.1, by omega⟩
    have hdata := hvalid.dataLen_eq hpos
    have hcells : rb'.bufferPtr = rb.bufferPtr := by rw [← hrb]
    refine ⟨⟨hvalid, hsize⟩, ?_⟩
    unfold contents
    rw [hdata, hsize, hread, hcells, Ring.contents_drop hn]
  · rw [Ring.block_copyOut hr (by omega)]
    exact (Ring.contents_take hn).symm

end Valid

/-! ## The calls -/

/-- A byte is put in as a block of one byte is. -/
theorem putchar_eq {rb : Ringbuffer V} {ch : V} (h : rb.Valid) (hspace : rb.rtRingbufferDataLen < rb.bufferSize) :
    rb.rtRingbufferPutchar ch = (rb.putBytes (fun _ => ch) 1, 1) := by
  have hsize := h.size_lt
  have hw := h.write_lt
  unfold rtRingbufferPutchar rtRingbufferSpaceLen
  rw [if_neg (by omega), putBytes_eq h (by omega), Ring.copyIn_of_le (by omega), copy_one]
  by_cases hend : rb.writeIndex = rb.bufferSize - 1
  · rw [if_pos hend, if_neg (by omega), if_neg (by omega), show rb.writeIndex + 1 - rb.bufferSize = 0 by omega]
  · have hlt : rb.writeIndex + 1 < rb.bufferSize := by omega
    rw [if_neg hend, if_pos hlt, if_pos hlt]
    simp only [Nat.mod_eq_of_lt (show rb.writeIndex + 1 < 2 ^ 15 by omega)]

/-- A byte is taken out as a block of one byte is. -/
theorem getchar_eq {rb : Ringbuffer V} {ch : V} (h : rb.Valid) (hdata : 0 < rb.rtRingbufferDataLen) :
    rb.rtRingbufferGetchar ch = ((rb.getBytes (fun _ => ch) 1).1, rb.bufferPtr rb.readIndex, 1) := by
  have hsize := h.size_lt
  have hr := h.read_lt
  unfold rtRingbufferGetchar
  rw [if_neg (by omega), getBytes_eq h (by omega)]
  by_cases hend : rb.readIndex = rb.bufferSize - 1
  · rw [if_pos hend, if_neg (by omega), if_neg (by omega), show rb.readIndex + 1 - rb.bufferSize = 0 by omega]
  · rw [if_neg hend, if_pos (by omega), if_pos (by omega), Nat.mod_eq_of_lt (by omega)]

/-- The byte that `rt_ringbuffer_getchar` reads is the oldest one. -/
theorem contents_take_one {rb : Ringbuffer V} (h : rb.Valid) (hdata : 0 < rb.rtRingbufferDataLen) :
    rb.contents.take 1 = [rb.bufferPtr rb.readIndex] := by
  unfold contents
  rw [Ring.contents_take hdata, Ring.contents_get h.read_lt, Ring.contents_zero]

/-- In a buffer that is full, `rt_ringbuffer_putchar_force` takes a byte out and puts one in. -/
theorem putcharForce_full {rb : Ringbuffer V} {ch : V} (h : rb.Valid) (hfull : rb.rtRingbufferDataLen = rb.bufferSize) :
    rb.rtRingbufferPutcharForce ch = ((rb.getBytes (fun _ => ch) 1).1.putBytes (fun _ => ch) 1, 1) := by
  have hsize := h.size_lt
  have hr := h.read_lt
  have hw := h.write_lt
  obtain ⟨hm, he⟩ : rb.readMirror = (!rb.writeMirror) ∧ rb.readIndex = rb.writeIndex := by
    rcases h.write_eq with ⟨-, he⟩ | ⟨hm, he⟩
    · omega
    · exact ⟨hm, by omega⟩
  have hstatus : rb.rtRingbufferStatus = .full := by
    unfold rtRingbufferStatus
    rw [if_pos he, if_neg (by rw [hm]; simp)]
  obtain ⟨hget, hgetSize, -⟩ := h.getBytes (fun _ => ch) 1 (by omega)
  rw [putBytes_eq hget (by omega), getBytes_eq h (by omega)]
  unfold rtRingbufferPutcharForce
  simp only [hstatus, if_true, Ring.copyIn_of_le (show 1 ≤ rb.bufferSize - rb.writeIndex by omega), copy_one, he]
  by_cases hend : rb.writeIndex = rb.bufferSize - 1
  · have hnot : ¬ rb.writeIndex + 1 < rb.bufferSize := by omega
    rw [if_pos hend]
    simp only [if_neg hnot, show rb.writeIndex + 1 - rb.bufferSize = 0 by omega]
  · have hlt : rb.writeIndex + 1 < rb.bufferSize := by omega
    rw [if_neg hend]
    simp only [if_pos hlt, Nat.mod_eq_of_lt (show rb.writeIndex + 1 < 2 ^ 15 by omega)]

/-- In a buffer that is not full, it is `rt_ringbuffer_putchar`. -/
theorem putcharForce_space {rb : Ringbuffer V} {ch : V} (hspace : rb.rtRingbufferDataLen < rb.bufferSize) :
    rb.rtRingbufferPutcharForce ch = rb.rtRingbufferPutchar ch := by
  have hstatus : rb.rtRingbufferStatus ≠ .full := by
    intro hfull
    have hdata : rb.rtRingbufferDataLen = rb.bufferSize := by
      unfold rtRingbufferDataLen
      rw [hfull]
    omega
  unfold rtRingbufferPutcharForce rtRingbufferPutchar rtRingbufferSpaceLen
  rw [if_neg (show ¬ rb.bufferSize - rb.rtRingbufferDataLen = 0 by omega)]
  simp only [if_neg hstatus]

/-- What the calls have to meet: the abstract buffer does the same with the bytes, and gives back the same. -/
def Refines (rb : Ringbuffer V) (c : RbCall V) : Prop :=
  (rb.exec c).1.Valid ∧ (rb.exec c).1.bufferSize = rb.bufferSize ∧
    RbFifo.exec rb.bufferSize rb.contents c = ((rb.exec c).1.contents, (rb.exec c).2)

section Refines

variable {rb : Ringbuffer V} (h : rb.Valid)
include h

theorem put_refines (ptr : Nat → V) (length : UInt16) : rb.Refines (.put ptr length) := by
  have hle := h.dataLen_le
  have hsize := h.size_lt
  have hspace : rb.rtRingbufferSpaceLen % 2 ^ 16 = rb.bufferSize - rb.rtRingbufferDataLen := by
    unfold rtRingbufferSpaceLen
    exact Nat.mod_eq_of_lt (by omega)
  have hmin : min length.toNat (rb.bufferSize - rb.rtRingbufferDataLen) =
      if rb.bufferSize - rb.rtRingbufferDataLen < length.toNat then rb.bufferSize - rb.rtRingbufferDataLen
      else length.toNat := by split <;> omega
  unfold Refines
  simp only [exec, rtRingbufferPut, RbFifo.exec, contents_length, hspace, ← hmin]
  by_cases hfull : rb.bufferSize - rb.rtRingbufferDataLen = 0
  · rw [if_pos hfull, hfull, Nat.min_zero, block_zero, List.append_nil]
    exact ⟨h, rfl, rfl⟩
  · rw [if_neg hfull]
    obtain ⟨hvalid, hs, hc⟩ := h.putBytes ptr (min length.toNat (rb.bufferSize - rb.rtRingbufferDataLen)) (by omega)
    exact ⟨hvalid, hs, by rw [hc]⟩

theorem putchar_refines (ch : V) : rb.Refines (.putchar ch) := by
  have hle := h.dataLen_le
  unfold Refines
  simp only [exec, RbFifo.exec, contents_length]
  by_cases hspace : rb.rtRingbufferDataLen < rb.bufferSize
  · rw [putchar_eq h hspace, if_pos hspace]
    obtain ⟨hvalid, hs, hc⟩ := h.putBytes (fun _ => ch) 1 hspace
    exact ⟨hvalid, hs, by rw [hc, block_one]⟩
  · have hnone : rb.rtRingbufferPutchar ch = (rb, 0) := by
      unfold rtRingbufferPutchar rtRingbufferSpaceLen
      rw [if_pos (by omega)]
    rw [hnone, if_neg hspace]
    exact ⟨h, rfl, rfl⟩

theorem putcharForce_refines (ch : V) : rb.Refines (.putcharForce ch) := by
  have hle := h.dataLen_le
  have hpos := h.read_lt
  unfold Refines
  simp only [exec, RbFifo.exec, contents_length]
  by_cases hspace : rb.rtRingbufferDataLen < rb.bufferSize
  · rw [putcharForce_space hspace, putchar_eq h hspace, if_pos hspace]
    obtain ⟨hvalid, hs, hc⟩ := h.putBytes (fun _ => ch) 1 hspace
    exact ⟨hvalid, hs, by rw [hc, block_one]⟩
  · rw [putcharForce_full h (by omega), if_neg hspace]
    obtain ⟨hget, hgs, hgc, -⟩ := h.getBytes (fun _ => ch) 1 (by omega)
    have hroom : (rb.getBytes (fun _ => ch) 1).1.rtRingbufferDataLen + 1 ≤
        (rb.getBytes (fun _ => ch) 1).1.bufferSize := by
      rw [← contents_length, hgc, List.length_drop, contents_length, hgs]
      omega
    obtain ⟨hvalid, hs, hc⟩ := hget.putBytes (fun _ => ch) 1 hroom
    refine ⟨hvalid, hs.trans hgs, ?_⟩
    rw [hc, hgc, block_one]

theorem get_refines (ptr : Nat → V) (length : UInt16) : rb.Refines (.get ptr length) := by
  have hmin : min length.toNat rb.rtRingbufferDataLen =
      if rb.rtRingbufferDataLen < length.toNat then rb.rtRingbufferDataLen else length.toNat := by
    split <;> omega
  unfold Refines
  simp only [exec, rtRingbufferGet, RbFifo.exec, contents_length, ← hmin]
  by_cases hempty : rb.rtRingbufferDataLen = 0
  · rw [if_pos hempty, hempty, Nat.min_zero]
    exact ⟨h, rfl, rfl⟩
  · rw [if_neg hempty]
    obtain ⟨hvalid, hs, hc, hb⟩ := h.getBytes ptr (min length.toNat rb.rtRingbufferDataLen) (by omega)
    exact ⟨hvalid, hs, by rw [hc, hb]⟩

theorem getchar_refines (ch : V) : rb.Refines (.getchar ch) := by
  unfold Refines
  simp only [exec, RbFifo.exec, contents_length]
  by_cases hempty : rb.rtRingbufferDataLen = 0
  · have hnone : rb.rtRingbufferGetchar ch = (rb, ch, 0) := if_pos hempty
    have hnil : rb.contents = [] := List.eq_nil_of_length_eq_zero (contents_length.trans hempty)
    rw [hnone, hnil, hempty]
    exact ⟨h, rfl, rfl⟩
  · rw [getchar_eq h (by omega)]
    obtain ⟨hvalid, hs, hc, -⟩ := h.getBytes (fun _ => ch) 1 (by omega)
    refine ⟨hvalid, hs, ?_⟩
    rw [← hc, contents_take_one h (by omega), show min 1 rb.rtRingbufferDataLen = 1 by omega, if_neg Nat.one_ne_zero]

/-- **A call does to the bytes in the buffer, and gives back, what the abstract buffer does.** -/
theorem exec_refines (c : RbCall V) : rb.Refines c := by
  cases c with
  | put ptr length => exact put_refines h ptr length
  | putchar ch => exact putchar_refines h ch
  | putcharForce ch => exact putcharForce_refines h ch
  | get ptr length => exact get_refines h ptr length
  | getchar ch => exact getchar_refines h ch

end Refines

/-! ## Runs -/

theorem Valid.init (pool : Nat → V) {size : Nat} (h4 : 4 ≤ size) (h15 : size < 2 ^ 15) :
    (rtRingbufferInit pool size).Valid := by
  have halign : (rtRingbufferInit pool size).bufferSize = size / 2 ^ alignLog * 2 ^ alignLog :=
    Word.alignDown_eq (by decide) (by omega)
  have h4' : 4 ≤ size / 2 ^ alignLog * 2 ^ alignLog := by
    unfold alignLog
    omega
  have hle : size / 2 ^ alignLog * 2 ^ alignLog ≤ size := Nat.div_mul_le_self _ _
  refine ⟨by omega, ?_, ?_, .inl ⟨rfl, Nat.le_refl _⟩⟩
  · show 0 < (rtRingbufferInit pool size).bufferSize
    omega
  · show 0 < (rtRingbufferInit pool size).bufferSize
    omega

/-- **The ring buffer is a bounded FIFO.** From its initialisation on, for every size that it can have and every
sequence of calls, the calls give back what the abstract buffer gives back, which holds as many bytes in the end as
`rt_ringbuffer_data_len` says. -/
theorem ringbuffer_refines (pool : Nat → V) (size : Nat) (h4 : 4 ≤ size) (h15 : size < 2 ^ 15)
    (ls : List (RbCall V × RbReturn V)) (rb : Ringbuffer V) (hrun : Run Step (rtRingbufferInit pool size) ls rb) :
    ∃ xs, Run (RbFifo.Step (size / 4 * 4)) [] ls xs ∧ rb.rtRingbufferDataLen = xs.length ∧
      xs.length ≤ size / 4 * 4 := by
  have hinit := Valid.init pool h4 h15
  have halign : (rtRingbufferInit pool size).bufferSize = size / 4 * 4 := Word.alignDown_eq (by decide) (by omega)
  have hsim : ∃ xs, Run (RbFifo.Step (size / 4 * 4)) [] (ls.flatMap fun l => [l]) xs ∧
      (rb.Valid ∧ rb.bufferSize = size / 4 * 4 ∧ xs = rb.contents) := by
    apply hrun.simulate (fun l => [l]) (R := fun rb xs => rb.Valid ∧ rb.bufferSize = size / 4 * 4 ∧ xs = rb.contents)
      ⟨hinit, halign, rfl⟩
    rintro rb l rb' xs ⟨hv, hs, rfl⟩ hstep
    obtain ⟨hv', hs', hexec⟩ := exec_refines hv l.1
    rw [show rb.exec l.1 = (rb', l.2) from hstep, hs] at hexec
    rw [show rb.exec l.1 = (rb', l.2) from hstep] at hv' hs'
    exact ⟨rb'.contents, Run.single hexec, hv', hs'.trans hs, rfl⟩
  obtain ⟨xs, hspec, hvalid, hsize, rfl⟩ := hsim
  rw [List.flatMap_singleton'] at hspec
  refine ⟨rb.contents, hspec, contents_length.symm, ?_⟩
  rw [contents_length, ← hsize]
  exact hvalid.dataLen_le

/-- A call with what it gives back is a step. -/
theorem Step.of_exec {rb : Ringbuffer V} {c : RbCall V} {r : RbReturn V} (h : (rb.exec c).2 = r) :
    Step rb (c, r) (rb.exec c).1 := by
  subst h
  rfl

/-- Six bytes for a buffer of four, one more by force, and two bytes out again: two of the six are not put in, and the
oldest of the others gives way. -/
theorem ringbuffer_refines_wrapped : ∃ (rb : Ringbuffer Nat) (xs : List Nat),
    Run (RbFifo.Step (4 / 4 * 4)) []
      [(.put id 6, ⟨4, []⟩), (.putcharForce 9, ⟨1, []⟩), (.get (fun _ => 0) 2, ⟨2, [1, 2]⟩)] xs ∧
      rb.rtRingbufferDataLen = xs.length ∧ xs.length ≤ 4 / 4 * 4 := by
  let rb₀ : Ringbuffer Nat := rtRingbufferInit (fun _ => 0) 4
  let rb₁ := (rb₀.exec (.put id 6)).1
  let rb₂ := (rb₁.exec (.putcharForce 9)).1
  have h₁ : (rb₀.exec (.put id 6)).2 = ⟨4, []⟩ := by decide +kernel
  have h₂ : (rb₁.exec (.putcharForce 9)).2 = ⟨1, []⟩ := by decide +kernel
  have h₃ : (rb₂.exec (.get (fun _ => 0) 2)).2 = ⟨2, [1, 2]⟩ := by decide +kernel
  have hrun : Run Step rb₀
      ([] ++ [(.put id 6, ⟨4, []⟩)] ++ [(.putcharForce 9, ⟨1, []⟩)] ++ [(.get (fun _ => 0) 2, ⟨2, [1, 2]⟩)])
      (rb₂.exec (.get (fun _ => 0) 2)).1 :=
    .snoc (.snoc (.snoc .nil (Step.of_exec h₁)) (Step.of_exec h₂)) (Step.of_exec h₃)
  exact ⟨_, ringbuffer_refines _ 4 (by decide) (by decide) _ _ hrun⟩

end Ringbuffer

end CoreLink.RtThread
