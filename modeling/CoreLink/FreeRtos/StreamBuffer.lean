/-
# `CoreLink.FreeRtos.StreamBuffer` — the stream and message buffers of `freertos10/Source/stream_buffer.c`.

`xTail` and `xHead` are indices in a storage area of `xLength` bytes, of which one stays free, so that equal indices mean that
there is nothing to read. A message buffer is a stream of messages with their lengths in front, each of `sizeof(size_t)` bytes.
A call whose `configASSERT` fails has no result; the port stops there. The calls are those that do not wait, or whose wait ends
without a call of another task in it: such a call finds after its wait what it has found before.
-/
import CoreLink.Lib.Cells
import CoreLink.Lib.Frames
import CoreLink.Lib.Word

namespace CoreLink.FreeRtos

open CoreLink.Lib

/-! ## The source -/

/-- `StreamBuffer_t`. The storage area that `pucBuffer` points to is part of it; of `ucFlags` it has the bit
`sbFLAGS_IS_MESSAGE_BUFFER`. -/
structure StreamBuffer where
  xTail : ℕ
  xHead : ℕ
  xLength : ℕ
  xTriggerLevelBytes : ℕ
  pucBuffer : ℕ → UInt8
  isMessageBuffer : Bool

/-- `configASSERT`. -/
def configASSERT (p : Prop) [Decidable p] : Option Unit := if p then some () else none

namespace StreamBuffer

/-- `sizeof( configMESSAGE_BUFFER_LENGTH_TYPE )`, which is `size_t`. -/
def sbBYTES_TO_STORE_MESSAGE_LENGTH : ℕ := 4

/-- The bytes of a `size_t` in memory. -/
def lengthBytes (x : ℕ) (i : ℕ) : UInt8 := (leBytes sbBYTES_TO_STORE_MESSAGE_LENGTH x).getD i 0

variable (b : StreamBuffer)

/-- `prvInitialiseNewStreamBuffer`. The `memset` of the storage area stands in a `configASSERT`. -/
def prvInitialiseNewStreamBuffer (pucBuffer : ℕ → UInt8) (xBufferSizeBytes xTriggerLevelBytes : ℕ) (isMessageBuffer : Bool) :
    StreamBuffer where
  xTail := 0
  xHead := 0
  xLength := xBufferSizeBytes
  xTriggerLevelBytes := xTriggerLevelBytes
  pucBuffer := fun i => if i < xBufferSizeBytes then 0x55 else pucBuffer i
  isMessageBuffer := isMessageBuffer

/-- `prvBytesInBuffer`. -/
def prvBytesInBuffer : ℕ :=
  let xCount := Word.sub 32 ((b.xLength + b.xHead) % 2 ^ 32) b.xTail
  if xCount ≥ b.xLength then xCount - b.xLength else xCount

/-- `xStreamBufferSpacesAvailable`. -/
def xStreamBufferSpacesAvailable : ℕ :=
  let xSpace := Word.sub 32 (Word.sub 32 ((b.xLength + b.xTail) % 2 ^ 32) b.xHead) 1
  if xSpace ≥ b.xLength then xSpace - b.xLength else xSpace

/-- `prvWriteBytesToBuffer`. -/
def prvWriteBytesToBuffer (pucData : ℕ → UInt8) (xCount : ℕ) : Option StreamBuffer := do
  configASSERT (xCount > 0)
  let xFirstLength := min (Word.sub 32 b.xLength b.xHead) xCount
  configASSERT (b.xHead + xFirstLength ≤ b.xLength)
  let pucBuffer := copy b.pucBuffer b.xHead pucData 0 xFirstLength
  let pucBuffer ← if xCount > xFirstLength then do
      configASSERT (xCount - xFirstLength ≤ b.xLength)
      pure (copy pucBuffer 0 pucData xFirstLength (xCount - xFirstLength))
    else pure pucBuffer
  let xNextHead := (b.xHead + xCount) % 2 ^ 32
  let xNextHead := if xNextHead ≥ b.xLength then xNextHead - b.xLength else xNextHead
  pure { b with pucBuffer := pucBuffer, xHead := xNextHead }

/-- `prvReadBytesFromBuffer`: the buffer, what is at `pucData` then, and the value returned. -/
def prvReadBytesFromBuffer (pucData : ℕ → UInt8) (xMaxCount xBytesAvailable : ℕ) : Option (StreamBuffer × (ℕ → UInt8) × ℕ) :=
  let xCount := min xBytesAvailable xMaxCount
  if xCount > 0 then do
    let xFirstLength := min (Word.sub 32 b.xLength b.xTail) xCount
    configASSERT (xFirstLength ≤ xMaxCount)
    configASSERT (b.xTail + xFirstLength ≤ b.xLength)
    let pucData := copy pucData 0 b.pucBuffer b.xTail xFirstLength
    let pucData ← if xCount > xFirstLength then do
        configASSERT (xCount ≤ xMaxCount)
        pure (copy pucData xFirstLength b.pucBuffer 0 (xCount - xFirstLength))
      else pure pucData
    let xNextTail := (b.xTail + xCount) % 2 ^ 32
    let xNextTail := if xNextTail ≥ b.xLength then xNextTail - b.xLength else xNextTail
    pure ({ b with xTail := xNextTail }, pucData, xCount)
  else pure (b, pucData, xCount)

/-- `prvWriteMessageToBuffer`. -/
def prvWriteMessageToBuffer (pvTxData : ℕ → UInt8) (xDataLengthBytes xSpace xRequiredSpace : ℕ) : Option (StreamBuffer × ℕ) :=
  if xSpace = 0 then pure (b, 0)
  else if b.isMessageBuffer = false then do
    let xDataLengthBytes := min xDataLengthBytes xSpace
    let b ← b.prvWriteBytesToBuffer pvTxData xDataLengthBytes
    pure (b, xDataLengthBytes)
  else if xSpace ≥ xRequiredSpace then do
    let b ← b.prvWriteBytesToBuffer (lengthBytes xDataLengthBytes) sbBYTES_TO_STORE_MESSAGE_LENGTH
    let b ← b.prvWriteBytesToBuffer pvTxData xDataLengthBytes
    pure (b, xDataLengthBytes)
  else pure (b, 0)

/-- `xStreamBufferSend`. -/
def xStreamBufferSend (pvTxData : ℕ → UInt8) (xDataLengthBytes : ℕ) : Option (StreamBuffer × ℕ) := do
  let xRequiredSpace ← if b.isMessageBuffer then do
      let xRequiredSpace := (xDataLengthBytes + sbBYTES_TO_STORE_MESSAGE_LENGTH) % 2 ^ 32
      configASSERT (xRequiredSpace > xDataLengthBytes)
      pure xRequiredSpace
    else pure xDataLengthBytes
  b.prvWriteMessageToBuffer pvTxData xDataLengthBytes b.xStreamBufferSpacesAvailable xRequiredSpace

/-- `xBytesToStoreMessageLength` of `xStreamBufferReceive`. -/
def xBytesToStoreMessageLength : ℕ := if b.isMessageBuffer then sbBYTES_TO_STORE_MESSAGE_LENGTH else 0

/-- `prvReadMessageFromBuffer`; the four bytes of `xTempNextMessageLength` are all written before they are read. -/
def prvReadMessageFromBuffer (pvRxData : ℕ → UInt8) (xBufferLengthBytes xBytesAvailable xBytesToStoreMessageLength : ℕ) :
    Option (StreamBuffer × (ℕ → UInt8) × ℕ) :=
  if xBytesToStoreMessageLength ≠ 0 then do
    let xOriginalTail := b.xTail
    let (b, xTempNextMessageLength, _) ← b.prvReadBytesFromBuffer (fun _ => 0) xBytesToStoreMessageLength xBytesAvailable
    let xNextMessageLength := ofLeBytes (block xTempNextMessageLength 0 xBytesToStoreMessageLength)
    let xBytesAvailable := Word.sub 32 xBytesAvailable xBytesToStoreMessageLength
    if xNextMessageLength > xBufferLengthBytes then
      ({ b with xTail := xOriginalTail } : StreamBuffer).prvReadBytesFromBuffer pvRxData 0 xBytesAvailable
    else b.prvReadBytesFromBuffer pvRxData xNextMessageLength xBytesAvailable
  else b.prvReadBytesFromBuffer pvRxData xBufferLengthBytes xBytesAvailable

/-- `xStreamBufferReceive`: the buffer, what is at `pvRxData` then, and the value returned. -/
def xStreamBufferReceive (pvRxData : ℕ → UInt8) (xBufferLengthBytes : ℕ) : Option (StreamBuffer × (ℕ → UInt8) × ℕ) :=
  if b.prvBytesInBuffer > b.xBytesToStoreMessageLength then
    b.prvReadMessageFromBuffer pvRxData xBufferLengthBytes b.prvBytesInBuffer b.xBytesToStoreMessageLength
  else pure (b, pvRxData, 0)

/-- `xStreamBufferNextMessageLengthBytes`. -/
def xStreamBufferNextMessageLengthBytes : Option (StreamBuffer × ℕ) :=
  if b.isMessageBuffer then
    if b.prvBytesInBuffer > sbBYTES_TO_STORE_MESSAGE_LENGTH then do
      let xOriginalTail := b.xTail
      let (b, xTempReturn, _) ← b.prvReadBytesFromBuffer (fun _ => 0) sbBYTES_TO_STORE_MESSAGE_LENGTH b.prvBytesInBuffer
      pure ({ b with xTail := xOriginalTail }, ofLeBytes (block xTempReturn 0 sbBYTES_TO_STORE_MESSAGE_LENGTH))
    else do
      configASSERT (b.prvBytesInBuffer = 0)
      pure (b, 0)
  else pure (b, 0)

/-- `xStreamBufferReset`, with no task waiting. -/
def xStreamBufferReset : StreamBuffer :=
  prvInitialiseNewStreamBuffer b.pucBuffer b.xLength b.xTriggerLevelBytes b.isMessageBuffer

/-- `xStreamBufferSetTriggerLevel`. -/
def xStreamBufferSetTriggerLevel (xTriggerLevel : ℕ) : StreamBuffer × Bool :=
  let xTriggerLevel := if xTriggerLevel = 0 then 1 else xTriggerLevel
  if xTriggerLevel ≤ b.xLength then ({ b with xTriggerLevelBytes := xTriggerLevel }, true) else (b, false)

/-- `xStreamBufferIsEmpty`. -/
def xStreamBufferIsEmpty : Bool := b.xHead = b.xTail

/-- `xStreamBufferIsFull`. -/
def xStreamBufferIsFull : Bool := b.xStreamBufferSpacesAvailable ≤ b.xBytesToStoreMessageLength

/-! ## The invariant -/

/-- The indices are in the storage area, which has room in a half of the address space. -/
structure Valid (b : StreamBuffer) : Prop where
  tail_lt : b.xTail < b.xLength
  head_lt : b.xHead < b.xLength
  length_le : b.xLength ≤ 2 ^ 31

/-- The bytes from the tail up to the head. -/
def contents : List UInt8 := Ring.between b.xLength b.pucBuffer b.xTail b.xHead

@[simp] theorem contents_length : b.contents.length = Ring.dist b.xLength b.xTail b.xHead := Ring.between_length

theorem configASSERT_true {p : Prop} [Decidable p] (h : p) : configASSERT p = some () := if_pos h

section Valid

variable {b} (h : b.Valid)
include h

theorem Valid.contents_lt : b.contents.length < b.xLength := by
  rw [contents_length]
  exact Ring.dist_lt h.tail_lt h.head_lt

/-- The distance of the indices is the number of bytes. -/
theorem prvBytesInBuffer_eq : b.prvBytesInBuffer = b.contents.length := by
  obtain ⟨htail, hhead, hlength⟩ := h
  have hsum : (b.xLength + b.xHead) % 2 ^ 32 = b.xLength + b.xHead := Nat.mod_eq_of_lt (by omega)
  have hsub : Word.sub 32 (b.xLength + b.xHead) b.xTail = b.xLength + b.xHead - b.xTail := Word.sub_of_le (by omega) (by omega)
  rw [contents_length, Ring.dist, prvBytesInBuffer, hsum, hsub]
  split <;> split <;> omega

/-- What remains of the storage area is free, but for one byte. -/
theorem xStreamBufferSpacesAvailable_eq : b.xStreamBufferSpacesAvailable = b.xLength - 1 - b.contents.length := by
  obtain ⟨htail, hhead, hlength⟩ := h
  have hsum : (b.xLength + b.xTail) % 2 ^ 32 = b.xLength + b.xTail := Nat.mod_eq_of_lt (by omega)
  have hsub : Word.sub 32 (b.xLength + b.xTail) b.xHead = b.xLength + b.xTail - b.xHead := Word.sub_of_le (by omega) (by omega)
  rw [contents_length, Ring.dist, xStreamBufferSpacesAvailable, hsum, hsub, Word.sub_of_le (by omega) (by omega)]
  split <;> split <;> omega

omit h in
/-- The first copy ends with the storage area. -/
theorem first_le {size i : ℕ} (hi : i < size) (n : ℕ) : i + min (size - i) n ≤ size := by omega

omit h in
/-- The next index is taken from a sum that has not wrapped around. -/
theorem next_eq {size i n : ℕ} (hi : i < size) (hn : n ≤ size) (hsize : size ≤ 2 ^ 31) :
    (if (i + n) % 2 ^ 32 ≥ size then (i + n) % 2 ^ 32 - size else (i + n) % 2 ^ 32) = (i + n) % size := by
  rw [Nat.mod_eq_of_lt (show i + n < 2 ^ 32 by omega), Ring.wrap_add hi hn]
  split <;> split <;> omega

/-- **Writing bytes** for which there is room. -/
theorem prvWriteBytesToBuffer_spec (pucData : ℕ → UInt8) {n : ℕ} (hn : 0 < n) (hroom : b.contents.length + n < b.xLength) :
    ∃ b', b.prvWriteBytesToBuffer pucData n = some b' ∧ b'.Valid ∧ b'.contents = b.contents ++ block pucData 0 n ∧
      b'.xTail = b.xTail ∧ b'.xLength = b.xLength ∧ b'.isMessageBuffer = b.isMessageBuffer := by
  have htail := h.tail_lt
  have hhead := h.head_lt
  have hlength := h.length_le
  have hend : (b.xTail + b.contents.length) % b.xLength = b.xHead := by
    rw [contents_length]
    exact Ring.add_dist htail hhead
  have hle : n ≤ b.xLength := by omega
  have hfirst : Word.sub 32 b.xLength b.xHead = b.xLength - b.xHead := Word.sub_of_le hhead.le (by omega)
  -- the two copies are one into the ring
  obtain ⟨buf, hbuf⟩ : ∃ buf, buf = Ring.copyIn b.xLength b.pucBuffer b.xHead pucData 0 n := ⟨_, rfl⟩
  refine ⟨{ b with pucBuffer := buf, xHead := (b.xHead + n) % b.xLength }, ?_, ⟨htail, ?_, hlength⟩, ?_, rfl, rfl, rfl⟩
  · unfold prvWriteBytesToBuffer
    dsimp only
    rw [configASSERT_true hn, hfirst, configASSERT_true (first_le hhead n), next_eq hhead hle hlength, hbuf]
    by_cases hwrap : n > min (b.xLength - b.xHead) n
    · have hmin : min n (b.xLength - b.xHead) = min (b.xLength - b.xHead) n := min_comm _ _
      have hsecond : n - min (b.xLength - b.xHead) n ≤ b.xLength := (Nat.sub_le _ _).trans hle
      simp only [if_pos hwrap, configASSERT_true hsecond, Ring.copyIn, hmin, Nat.zero_add, Option.bind_eq_bind, Option.bind_some,
        Option.pure_def]
    · have hfits : n ≤ b.xLength - b.xHead := (le_min_iff.mp (not_lt.mp hwrap)).1
      simp only [Ring.copyIn_of_le hfits, Nat.min_eq_right hfits, if_neg (lt_irrefl n), gt_iff_lt, Option.bind_eq_bind,
        Option.bind_some, Option.pure_def]
  · exact Nat.mod_lt _ hhead.pos
  · show Ring.between b.xLength buf b.xTail ((b.xHead + n) % b.xLength) = _
    have hdist : Ring.dist b.xLength b.xTail ((b.xHead + n) % b.xLength) = b.contents.length + n := by
      rw [← hend, Nat.mod_add_mod, Nat.add_assoc]
      exact Ring.dist_add htail hroom
    rw [Ring.between, hdist, hbuf, ← hend, Ring.contents_copyIn htail hroom.le, contents_length]
    rfl

/-- **Reading bytes** that are there. -/
theorem prvReadBytesFromBuffer_spec (pucData : ℕ → UInt8) {xMaxCount xBytesAvailable n : ℕ}
    (hmin : min xBytesAvailable xMaxCount = n) (hn : n ≤ b.contents.length) :
    ∃ b' pucData', b.prvReadBytesFromBuffer pucData xMaxCount xBytesAvailable = some (b', pucData', n) ∧ b'.Valid ∧
      b'.contents = b.contents.drop n ∧ block pucData' 0 n = b.contents.take n ∧ { b' with xTail := b.xTail } = b := by
  have htail := h.tail_lt
  have hhead := h.head_lt
  have hlength := h.length_le
  have hlt := h.contents_lt
  have hend : (b.xTail + b.contents.length) % b.xLength = b.xHead := by
    rw [contents_length]
    exact Ring.add_dist htail hhead
  have hfirst : Word.sub 32 b.xLength b.xTail = b.xLength - b.xTail := Word.sub_of_le htail.le (by omega)
  have hcount : n ≤ xMaxCount := hmin ▸ Nat.min_le_right _ _
  have hle : n ≤ b.xLength := hn.trans hlt.le
  rcases Nat.eq_zero_or_pos n with hzero | hpos
  · subst hzero
    refine ⟨b, pucData, ?_, h, rfl, rfl, rfl⟩
    unfold prvReadBytesFromBuffer
    rw [hmin]
    rfl
  · obtain ⟨ptr, hptr⟩ : ∃ ptr, ptr = Ring.copyOut b.xLength pucData 0 b.pucBuffer b.xTail n := ⟨_, rfl⟩
    refine ⟨{ b with xTail := (b.xTail + n) % b.xLength }, ptr, ?_, ⟨Nat.mod_lt _ htail.pos, hhead, hlength⟩, ?_, ?_, rfl⟩
    · unfold prvReadBytesFromBuffer
      dsimp only
      rw [hmin, if_pos hpos, hfirst, configASSERT_true ((Nat.min_le_right _ n).trans hcount),
        configASSERT_true (first_le htail n), next_eq htail hle hlength, hptr]
      by_cases hwrap : n > min (b.xLength - b.xTail) n
      · have hcomm : min n (b.xLength - b.xTail) = min (b.xLength - b.xTail) n := min_comm _ _
        simp only [if_pos hwrap, configASSERT_true hcount, Ring.copyOut, hcomm, Nat.zero_add,
          Option.bind_eq_bind, Option.bind_some, Option.pure_def]
      · have hfits : n ≤ b.xLength - b.xTail := (le_min_iff.mp (not_lt.mp hwrap)).1
        simp only [Ring.copyOut_of_le hfits, Nat.min_eq_right hfits, if_neg (lt_irrefl n), gt_iff_lt, Option.bind_eq_bind,
          Option.bind_some, Option.pure_def]
    · exact Ring.between_get htail hhead hn
    · rw [hptr, Ring.block_copyOut htail hle]
      rw [contents_length] at hn
      exact (Ring.contents_take hn).symm

end Valid

end StreamBuffer

end CoreLink.FreeRtos
