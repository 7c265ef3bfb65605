/-
# `CoreLink.RtThread.Pipe` — the pipe device of `components/drivers/src/pipe.c`, `rt_pipe_read` and `rt_pipe_write`.

Both go on until the whole block is through, or the ring buffer takes or gives nothing more. The length that the ring
buffer is asked for is 16 bits wide, and the rest of the block 32: a rest that is a multiple of 65536 ends the loop as a
full or an empty buffer does.
-/
import CoreLink.RtThread.Ringbuffer

namespace CoreLink.RtThread

open CoreLink.Lib

/-! ## The source -/

/-- A pipe that is open: its ring buffer, with the positions in the buffer. -/
def Pipe (V : Type*) : Type _ := { fifo : Ringbuffer V // fifo.Valid }

namespace Pipe

variable {V : Type*}

/-- The ring buffer that `rt_ringbuffer_create` gives when the pipe is opened, for a size that its assertions allow. -/
def rtPipeOpen (pool : Nat → V) (bufsz : Nat) (h4 : 4 ≤ bufsz) (h15 : bufsz < 2 ^ 15) : Pipe V :=
  ⟨Ringbuffer.rtRingbufferInit pool bufsz, .init pool h4 h15⟩

/-- The loop of `rt_pipe_write`. A round writes a byte at least, so there are at most `count` of them. -/
def writeLoop (buffer : Nat → V) (count : UInt32) : Nat → Ringbuffer V → Nat → Ringbuffer V × Nat
  | 0, fifo, writeBytes => (fifo, writeBytes)
  | fuel + 1, fifo, writeBytes =>
      if writeBytes < count.toNat then
        let r := fifo.rtRingbufferPut (fun i => buffer (writeBytes + i)) (UInt16.ofNat (count.toNat - writeBytes))
        if r.2 ≤ 0 then (fifo, writeBytes) else writeLoop buffer count fuel r.1 (writeBytes + r.2)
      else (fifo, writeBytes)

/-- `rt_pipe_write`: the ring buffer, and the value returned. -/
def rtPipeWrite (fifo : Ringbuffer V) (buffer : Nat → V) (count : UInt32) : Ringbuffer V × Nat :=
  if count = 0 then (fifo, 0) else writeLoop buffer count count.toNat fifo 0

/-- The loop of `rt_pipe_read`. -/
def readLoop (count : UInt32) : Nat → Ringbuffer V → (Nat → V) → Nat → Ringbuffer V × (Nat → V) × Nat
  | 0, fifo, buffer, readBytes => (fifo, buffer, readBytes)
  | fuel + 1, fifo, buffer, readBytes =>
      if readBytes < count.toNat then
        let r := fifo.rtRingbufferGet (fun i => buffer (readBytes + i)) (UInt16.ofNat (count.toNat - readBytes))
        let buffer' := fun i => if i < readBytes then buffer i else r.2.1 (i - readBytes)
        if r.2.2 ≤ 0 then (fifo, buffer, readBytes) else readLoop count fuel r.1 buffer' (readBytes + r.2.2)
      else (fifo, buffer, readBytes)

/-- `rt_pipe_read`: the ring buffer, what is at `buffer` then, and the value returned. -/
def rtPipeRead (fifo : Ringbuffer V) (buffer : Nat → V) (count : UInt32) : Ringbuffer V × (Nat → V) × Nat :=
  if count = 0 then (fifo, buffer, 0) else readLoop count count.toNat fifo buffer 0

/-! ## The ring buffer -/

section Ring

variable {fifo : Ringbuffer V} {n : Nat}

/-- `rt_ringbuffer_put`, with the number of bytes that there is space for. -/
theorem put_spec (h : fifo.Valid) (ptr : Nat → V) (length : UInt16)
    (hn : min length.toNat (fifo.bufferSize - fifo.contents.length) = n) :
    (fifo.rtRingbufferPut ptr length).1.Valid ∧ (fifo.rtRingbufferPut ptr length).1.bufferSize = fifo.bufferSize ∧
      (fifo.rtRingbufferPut ptr length).1.contents = fifo.contents ++ block ptr 0 n ∧
      (fifo.rtRingbufferPut ptr length).2 = n := by
  obtain ⟨hvalid, hsize, hexec⟩ := Ringbuffer.put_refines h ptr length
  obtain ⟨hcontents, hreturn⟩ := Prod.mk.inj hexec
  rw [hn] at hcontents
  have hvalue := (RbReturn.mk.inj hreturn).1
  rw [hn] at hvalue
  exact ⟨hvalid, hsize, hcontents.symm, hvalue.symm⟩

/-- `rt_ringbuffer_get`, with the number of bytes that there are. -/
theorem get_spec (h : fifo.Valid) (ptr : Nat → V) (length : UInt16) (hn : min length.toNat fifo.contents.length = n) :
    (fifo.rtRingbufferGet ptr length).1.Valid ∧ (fifo.rtRingbufferGet ptr length).1.contents = fifo.contents.drop n ∧
      (fifo.rtRingbufferGet ptr length).2.2 = n ∧ block (fifo.rtRingbufferGet ptr length).2.1 0 n = fifo.contents.take n := by
  obtain ⟨hvalid, -, hexec⟩ := Ringbuffer.get_refines h ptr length
  obtain ⟨hcontents, hreturn⟩ := Prod.mk.inj hexec
  obtain ⟨hvalue, hbytes⟩ := RbReturn.mk.inj hreturn
  rw [hn] at hcontents hvalue hbytes
  have hvalue' : (fifo.rtRingbufferGet ptr length).2.2 = n := hvalue.symm
  have hbytes' : fifo.contents.take n =
      block (fifo.rtRingbufferGet ptr length).2.1 0 (fifo.rtRingbufferGet ptr length).2.2 := hbytes
  rw [hvalue'] at hbytes'
  exact ⟨hvalid, hcontents.symm, hvalue', hbytes'.symm⟩

end Ring

/-! ## The loops -/

section Loops

variable {fifo : Ringbuffer V} {buffer : Nat → V} {count : UInt32} {n w : Nat}

/-- The length that the ring buffer is asked for is the rest, in 16 bits. -/
theorem rest_toNat (n : Nat) : (UInt16.ofNat n).toNat = n % 65536 := UInt16.toNat_ofNat'

variable (buffer) in
/-- A round of `rt_pipe_write`. -/
theorem writeLoop_round (h : fifo.Valid) (hw : w < count.toNat) (fuel : Nat)
    (hn : min ((count.toNat - w) % 65536) (fifo.bufferSize - fifo.contents.length) = n) :
    ∃ fifo', (fifo'.Valid ∧ fifo'.bufferSize = fifo.bufferSize) ∧
      fifo'.contents = fifo.contents ++ block (fun i => buffer (w + i)) 0 n ∧
      writeLoop buffer count (fuel + 1) fifo w = if n ≤ 0 then (fifo, w) else writeLoop buffer count fuel fifo' (w + n) := by
  have hn' : min (UInt16.ofNat (count.toNat - w)).toNat (fifo.bufferSize - fifo.contents.length) = n := by
    rw [rest_toNat]
    exact hn
  obtain ⟨hvalid, hsize, hcontents, hvalue⟩ := put_spec h (fun i => buffer (w + i)) _ hn'
  refine ⟨_, ⟨hvalid, hsize⟩, hcontents, ?_⟩
  rw [writeLoop, if_pos hw]
  dsimp only
  rw [hvalue]

/-- The loop ends where the ring buffer takes nothing. -/
theorem writeLoop_done (h : fifo.Valid)
    (hdone : min ((count.toNat - w) % 65536) (fifo.bufferSize - fifo.contents.length) = 0) (fuel : Nat) :
    writeLoop buffer count fuel fifo w = (fifo, w) := by
  cases fuel with
  | zero => rfl
  | succ fuel =>
      by_cases hw : w < count.toNat
      · obtain ⟨_, -, -, hloop⟩ := writeLoop_round buffer h hw fuel hdone
        rw [hloop, if_pos (Nat.le_refl 0)]
      · rw [writeLoop, if_neg hw]

/-- **`rt_pipe_write`** writes as many bytes as the last 16 bits of `count` say, if there is space for them. -/
theorem rtPipeWrite_spec (h : fifo.Valid) (buffer : Nat → V) (count : UInt32)
    (hn : min (count.toNat % 65536) (fifo.bufferSize - fifo.contents.length) = n) :
    (rtPipeWrite fifo buffer count).1.Valid ∧
      (rtPipeWrite fifo buffer count).1.contents = fifo.contents ++ block buffer 0 n ∧
      (rtPipeWrite fifo buffer count).2 = n := by
  unfold rtPipeWrite
  by_cases hzero : count = 0
  · have hn0 : n = 0 := by
      rw [← hn, hzero]
      simp
    rw [if_pos hzero, hn0, block_zero, List.append_nil]
    exact ⟨h, rfl, rfl⟩
  · rw [if_neg hzero]
    have hpos : 0 < count.toNat := Nat.pos_of_ne_zero fun h0 => hzero (UInt32.toNat_inj.mp h0)
    obtain ⟨fuel, hfuel⟩ := Nat.exists_eq_succ_of_ne_zero (Nat.ne_of_gt hpos)
    obtain ⟨fifo', ⟨h', hsize⟩, hcontents, hloop⟩ := writeLoop_round buffer h hpos fuel hn
    rw [hfuel, hloop]
    simp only [Nat.zero_add] at hcontents ⊢
    split_ifs with hn0
    · rw [Nat.le_zero.mp hn0, block_zero, List.append_nil]
      exact ⟨h, rfl, rfl⟩
    · -- behind the first round the rest is a multiple of 65536, or the buffer is full
      have hlen := congrArg List.length hcontents
      rw [List.length_append, block_length] at hlen
      rw [writeLoop_done h' (by omega)]
      exact ⟨h', hcontents, rfl⟩

variable (buffer) in
/-- A round of `rt_pipe_read`; the bytes that were read before stay. -/
theorem readLoop_round (h : fifo.Valid) (hw : w < count.toNat) (fuel : Nat)
    (hn : min ((count.toNat - w) % 65536) fifo.contents.length = n) :
    ∃ (fifo' : Ringbuffer V) (buffer' : Nat → V), (fifo'.Valid ∧ fifo'.contents = fifo.contents.drop n) ∧
      (block buffer' 0 w = block buffer 0 w ∧ block buffer' w n = fifo.contents.take n) ∧
      readLoop count (fuel + 1) fifo buffer w =
        if n ≤ 0 then (fifo, buffer, w) else readLoop count fuel fifo' buffer' (w + n) := by
  have hn' : min (UInt16.ofNat (count.toNat - w)).toNat fifo.contents.length = n := by
    rw [rest_toNat]
    exact hn
  obtain ⟨hvalid, hcontents, hvalue, hbytes⟩ := get_spec h (fun i => buffer (w + i)) _ hn'
  refine ⟨_, fun i => if i < w then buffer i else
    (fifo.rtRingbufferGet (fun i => buffer (w + i)) (UInt16.ofNat (count.toNat - w))).2.1 (i - w),
    ⟨hvalid, hcontents⟩, ⟨block_congr fun i hi => if_pos (by omega), ?_⟩, ?_⟩
  · rw [← hbytes]
    refine List.map_congr_left fun i _ => ?_
    dsimp only
    rw [if_neg (Nat.not_lt.mpr (Nat.le_add_right w i)), Nat.add_sub_cancel_left, Nat.zero_add]
  · rw [readLoop, if_pos hw]
    dsimp only
    rw [hvalue]

/-- The loop ends where the ring buffer gives nothing. -/
theorem readLoop_done (h : fifo.Valid) (hdone : min ((count.toNat - w) % 65536) fifo.contents.length = 0) (fuel : Nat) :
    readLoop count fuel fifo buffer w = (fifo, buffer, w) := by
  cases fuel with
  | zero => rfl
  | succ fuel =>
      by_cases hw : w < count.toNat
      · obtain ⟨_, _, -, -, hloop⟩ := readLoop_round buffer h hw fuel hdone
        rw [hloop, if_pos (Nat.le_refl 0)]
      · rw [readLoop, if_neg hw]

/-- **`rt_pipe_read`** reads as many bytes as the last 16 bits of `count` say, if there are. -/
theorem rtPipeRead_spec (h : fifo.Valid) (buffer : Nat → V) (count : UInt32)
    (hn : min (count.toNat % 65536) fifo.contents.length = n) :
    (rtPipeRead fifo buffer count).1.Valid ∧ (rtPipeRead fifo buffer count).1.contents = fifo.contents.drop n ∧
      (rtPipeRead fifo buffer count).2.2 = n ∧ block (rtPipeRead fifo buffer count).2.1 0 n = fifo.contents.take n := by
  unfold rtPipeRead
  by_cases hzero : count = 0
  · have hn0 : n = 0 := by
      rw [← hn, hzero]
      simp
    rw [if_pos hzero, hn0]
    exact ⟨h, rfl, rfl, rfl⟩
  · rw [if_neg hzero]
    have hpos : 0 < count.toNat := Nat.pos_of_ne_zero fun h0 => hzero (UInt32.toNat_inj.mp h0)
    obtain ⟨fuel, hfuel⟩ := Nat.exists_eq_succ_of_ne_zero (Nat.ne_of_gt hpos)
    obtain ⟨fifo', buffer', ⟨h', hcontents⟩, ⟨-, hbytes⟩, hloop⟩ := readLoop_round buffer h hpos fuel hn
    rw [hfuel, hloop]
    simp only [Nat.zero_add]
    split_ifs with hn0
    · rw [Nat.le_zero.mp hn0]
      exact ⟨h, rfl, rfl, rfl⟩
    · -- behind the first round the rest is a multiple of 65536, or the buffer is empty
      have hlen := congrArg List.length hcontents
      rw [List.length_drop] at hlen
      rw [readLoop_done h' (by omega)]
      exact ⟨h', hcontents, rfl, hbytes⟩

end Loops

/-! ## The whole block -/

variable (p : Pipe V)

/-- The bytes in a pipe, and how many more it can have. -/
def stored (p : Pipe V) : List V := p.1.contents

def free (p : Pipe V) : Nat := p.1.bufferSize - p.stored.length

/-- **Writing as it is to be**: as much of the block as there is space for goes into the pipe. -/
def Writes (p : Pipe V) (buffer : Nat → V) (count : UInt32) : Prop :=
  (rtPipeWrite p.1 buffer count).1.contents = p.stored ++ block buffer 0 (min count.toNat p.free) ∧
    (rtPipeWrite p.1 buffer count).2 = min count.toNat p.free

/-- **Reading as it is to be**: as much as there is comes out, and goes to the block. -/
def Reads (p : Pipe V) (buffer : Nat → V) (count : UInt32) : Prop :=
  ((rtPipeRead p.1 buffer count).1.contents = p.stored.drop (min count.toNat p.stored.length) ∧
    (rtPipeRead p.1 buffer count).2.2 = min count.toNat p.stored.length) ∧
    block (rtPipeRead p.1 buffer count).2.1 0 (min count.toNat p.stored.length) =
      p.stored.take (min count.toNat p.stored.length)

/-- The last 16 bits of a count do not say less than the count does, up to `n`. -/
def CountFits (count : UInt32) (n : Nat) : Prop := count.toNat < 65536 ∨ n ≤ count.toNat % 65536

theorem countFits_iff {count : UInt32} {n : Nat} (hn : n < 65536) :
    CountFits count n ↔ min (count.toNat % 65536) n = min count.toNat n := by
  unfold CountFits
  omega

/-- A pipe has less than 65536 bytes. -/
theorem free_lt : p.free < 65536 := by
  have hsize := p.2.size_lt
  unfold free
  omega

theorem stored_lt : p.stored.length < 65536 := by
  have hsize := p.2.size_lt
  have hle := p.2.dataLen_le
  unfold stored
  rw [Ringbuffer.contents_length]
  omega

/-- **`rt_pipe_write` and `rt_pipe_read` transfer what they are to**, for every state of the pipe, every block and every
count, if and only if the last 16 bits of the count say enough. -/
theorem pipe_transfers (buffer : Nat → V) (count : UInt32) :
    (p.Writes buffer count ↔ CountFits count p.free) ∧ (p.Reads buffer count ↔ CountFits count p.stored.length) := by
  rw [countFits_iff p.free_lt, countFits_iff p.stored_lt]
  constructor
  · obtain ⟨-, hcontents, hvalue⟩ := rtPipeWrite_spec p.2 buffer count rfl
    constructor
    · exact fun h => hvalue.symm.trans h.2
    · exact fun hn => ⟨hcontents.trans (by rw [← hn]; rfl), hvalue.trans hn⟩
  · obtain ⟨-, hcontents, hvalue, hbytes⟩ := rtPipeRead_spec p.2 buffer count rfl
    constructor
    · exact fun h => hvalue.symm.trans h.1.2
    · intro hn
      unfold Reads
      rw [← hn]
      exact ⟨⟨hcontents, hvalue⟩, hbytes⟩

/-- A pipe of 512 bytes. -/
def pipe512 : Pipe Nat := rtPipeOpen (fun _ => 0) 512 (by decide) (by decide)

/-- **65536 bytes for an empty pipe**: none is written. -/
theorem pipe_write_65536 : (rtPipeWrite pipe512.1 id 65536).2 = 0 ∧ ¬ pipe512.Writes id 65536 := by
  have hfree : pipe512.free = 512 := by decide +kernel
  obtain ⟨-, -, hvalue⟩ := rtPipeWrite_spec pipe512.2 id 65536
    (show min ((65536 : UInt32).toNat % 65536) (pipe512.1.bufferSize - pipe512.1.contents.length) = 0 from Nat.zero_min _)
  refine ⟨hvalue, fun h => ?_⟩
  have hn := h.2
  rw [hvalue, hfree] at hn
  exact absurd hn (by decide)

end Pipe

end CoreLink.RtThread
