/-
# `CoreLink.FreeRtos.StreamBufferRefine` — a stream buffer is a bounded queue of bytes, a message buffer one of messages.

The two queues say what each call does to them and answers. A message counts with its length, and a call that no task can make
without stopping in a `configASSERT`, to send nothing into a buffer that has room, has no answer in the queues either.
-/
import CoreLink.FreeRtos.StreamBuffer

namespace CoreLink.FreeRtos

open CoreLink.Lib

/-! ## Calls -/

/-- A call; `pvRxData` is what the caller's memory holds before. -/
inductive SbCall
  | send (pvTxData : ℕ → UInt8) (xDataLengthBytes : UInt32)
  | receive (pvRxData : ℕ → UInt8) (xBufferLengthBytes : UInt32)
  | spacesAvailable
  | bytesAvailable
  | nextMessageLength
  | isEmpty
  | isFull
  | reset
  | setTriggerLevel (xTriggerLevel : UInt32)

/-- What a call answers: the value returned, and the bytes that it has written to the caller's memory. -/
structure SbReturn where
  value : ℕ
  bytes : List UInt8
deriving DecidableEq

/-- A value without bytes. -/
def SbReturn.only (value : ℕ) : SbReturn := ⟨value, []⟩

namespace StreamBuffer

/-- A call, and what it answers. -/
def exec (b : StreamBuffer) : SbCall → Option (StreamBuffer × SbReturn)
  | .send pvTxData n => (b.xStreamBufferSend pvTxData n.toNat).map fun r => (r.1, .only r.2)
  | .receive pvRxData n => (b.xStreamBufferReceive pvRxData n.toNat).map fun r => (r.1, ⟨r.2.2, block r.2.1 0 r.2.2⟩)
  | .spacesAvailable => some (b, .only b.xStreamBufferSpacesAvailable)
  | .bytesAvailable => some (b, .only b.prvBytesInBuffer)
  | .nextMessageLength => b.xStreamBufferNextMessageLengthBytes.map fun r => (r.1, .only r.2)
  | .isEmpty => some (b, .only b.xStreamBufferIsEmpty.toNat)
  | .isFull => some (b, .only b.xStreamBufferIsFull.toNat)
  | .reset => some (b.xStreamBufferReset, .only 1)
  | .setTriggerLevel n => some ((b.xStreamBufferSetTriggerLevel n.toNat).1, .only (b.xStreamBufferSetTriggerLevel n.toNat).2.toNat)

end StreamBuffer

/-! ## The queues -/

/-- A queue of at most `size` bytes. -/
def ByteQueue.exec (size : ℕ) (xs : List UInt8) : SbCall → Option (List UInt8 × SbReturn)
  | .send pvTxData n =>
    let k := min n.toNat (size - xs.length)
    if xs.length = size then some (xs, .only 0)
    else if n.toNat = 0 then none
    else some (xs ++ block pvTxData 0 k, .only k)
  | .receive _ n => some (xs.drop n.toNat, ⟨min n.toNat xs.length, xs.take n.toNat⟩)
  | .spacesAvailable => some (xs, .only (size - xs.length))
  | .bytesAvailable => some (xs, .only xs.length)
  | .nextMessageLength => some (xs, .only 0)
  | .isEmpty => some (xs, .only (decide (xs = [])).toNat)
  | .isFull => some (xs, .only (decide (xs.length = size)).toNat)
  | .reset => some ([], .only 1)
  | .setTriggerLevel n => some (xs, .only (decide (max 1 n.toNat ≤ size + 1)).toNat)

/-- A queue of messages, which have room in `size` bytes with their lengths. -/
def MessageQueue.exec (size : ℕ) (ms : List (List UInt8)) : SbCall → Option (List (List UInt8) × SbReturn)
  | .send pvTxData n =>
    if 2 ^ 32 ≤ n.toNat + 4 then none
    else if size < (frames 4 ms).length + (4 + n.toNat) then some (ms, .only 0)
    else if n.toNat = 0 then none
    else some (ms ++ [block pvTxData 0 n.toNat], .only n.toNat)
  | .receive _ n => some <|
    if ms.headD [] ≠ [] ∧ (ms.headD []).length ≤ n.toNat then (ms.tail, ⟨(ms.headD []).length, ms.headD []⟩) else (ms, .only 0)
  | .spacesAvailable => some (ms, .only (size - (frames 4 ms).length))
  | .bytesAvailable => some (ms, .only (frames 4 ms).length)
  | .nextMessageLength => some (ms, .only (ms.headD []).length)
  | .isEmpty => some (ms, .only (decide (ms = [])).toNat)
  | .isFull => some (ms, .only (decide (size - (frames 4 ms).length ≤ 4)).toNat)
  | .reset => some ([], .only 1)
  | .setTriggerLevel n => some (ms, .only (decide (max 1 n.toNat ≤ size + 1)).toNat)

/-! ## What goes in and what comes out -/

/-- What a send has put in. -/
def accepted : SbCall × SbReturn → List (List UInt8)
  | (.send pvTxData _, r) => if r.value = 0 then [] else [block pvTxData 0 r.value]
  | _ => []

/-- What a receive has taken out. -/
def delivered : SbCall × SbReturn → List (List UInt8)
  | (.receive _ _, r) => if r.value = 0 then [] else [r.bytes]
  | _ => []

/-- Calls without a reset among them. -/
def NoReset (ls : List (SbCall × SbReturn)) : Prop := ∀ l ∈ ls, l.1 ≠ .reset

section Conservation

variable {size : ℕ} {c : SbCall} {r : SbReturn} {ls : List (SbCall × SbReturn)}

theorem ByteQueue.exec_conserves {xs xs' : List UInt8} (h : ByteQueue.exec size xs c = some (xs', r)) (hc : c ≠ .reset) :
    xs ++ (accepted (c, r)).flatten = (delivered (c, r)).flatten ++ xs' := by
  cases c with
  | send pvTxData n =>
    unfold ByteQueue.exec at h
    dsimp only at h
    split_ifs at h
    · cases h
      exact List.append_nil xs
    · cases h
      show xs ++ (if min n.toNat (size - xs.length) = 0 then [] else [_]).flatten = [] ++ (xs ++ _)
      split_ifs with hzero
      · rw [hzero]
        rfl
      · rw [List.flatten_singleton, List.nil_append, SbReturn.only]
  | receive pvRxData n =>
    cases h
    show xs ++ [] = (if min n.toNat xs.length = 0 then [] else [xs.take n.toNat]).flatten ++ xs.drop n.toNat
    rw [List.append_nil]
    split_ifs with hzero
    · rcases Nat.min_eq_zero_iff.mp hzero with hn | hxs
      · rw [hn]
        rfl
      · rw [List.length_eq_zero_iff.mp hxs, List.drop_nil]
        rfl
    · rw [List.flatten_singleton, List.take_append_drop]
  | reset => exact absurd rfl hc
  | _ => cases h; exact List.append_nil xs

theorem MessageQueue.exec_conserves {ms ms' : List (List UInt8)} (h : MessageQueue.exec size ms c = some (ms', r))
    (hc : c ≠ .reset) : ms ++ accepted (c, r) = delivered (c, r) ++ ms' := by
  cases c with
  | send pvTxData n =>
    unfold MessageQueue.exec at h
    dsimp only at h
    split_ifs at h with hbig hsmall hzero
    · cases h
      exact List.append_nil ms
    · cases h
      show ms ++ (if n.toNat = 0 then [] else [_]) = [] ++ (ms ++ _)
      rw [if_neg hzero, List.nil_append, SbReturn.only]
  | receive pvRxData n =>
    have hresult := Option.some.inj h
    split_ifs at hresult with hm
    · cases hresult
      cases ms with
      | nil => exact absurd rfl hm.1
      | cons m ms =>
        have hne : m.length ≠ 0 := mt List.length_eq_zero_iff.mp hm.1
        show m :: ms ++ [] = (if m.length = 0 then [] else [m]) ++ ms
        rw [if_neg hne, List.append_nil]
        rfl
    · cases hresult
      exact List.append_nil ms
  | reset => exact absurd rfl hc
  | _ => cases h; exact List.append_nil ms

/-- **Conservation**: as long as nothing is reset, what has gone in is what has come out, and what is still there. -/
theorem conserves {α : Type} {exec : List α → SbCall → Option (List α × SbReturn)} {xs₀ xs : List α}
    (put got : SbCall × SbReturn → List α)
    (hstep : ∀ xs c xs' r, exec xs c = some (xs', r) → c ≠ .reset → xs ++ put (c, r) = got (c, r) ++ xs')
    (h : Run (Answers exec) xs₀ ls xs) (hls : NoReset ls) : xs₀ ++ ls.flatMap put = ls.flatMap got ++ xs := by
  induction h with
  | nil => exact List.append_nil xs₀
  | @snoc ls xs xs' l _ hlast ih =>
    have hbefore := ih fun x hx => hls x (List.mem_append_left _ hx)
    have hcall := hstep xs l.1 xs' l.2 hlast (hls l (List.mem_append_right _ List.mem_cons_self))
    rw [List.flatMap_append, List.flatMap_append, List.flatMap_singleton, List.flatMap_singleton, ← List.append_assoc, hbefore,
      List.append_assoc, hcall, List.append_assoc]

end Conservation

namespace StreamBuffer

/-! ## Stream buffers -/

/-- A stream buffer with these bytes in it. -/
structure HoldsBytes (size : ℕ) (b : StreamBuffer) (xs : List UInt8) : Prop where
  valid : b.Valid
  stream : b.isMessageBuffer = false
  length : b.xLength = size + 1
  contents : b.contents = xs

/-- A message buffer with these messages in it. -/
structure HoldsMessages (size : ℕ) (b : StreamBuffer) (ms : List (List UInt8)) : Prop where
  valid : b.Valid
  message : b.isMessageBuffer = true
  length : b.xLength = size + 1
  contents : b.contents = frames 4 ms
  nonempty : ∀ m ∈ ms, m ≠ []

section Both

variable {b : StreamBuffer} {size : ℕ}

theorem toNat_decide_congr {p q : Prop} [Decidable p] [Decidable q] (h : p ↔ q) : (decide p).toNat = (decide q).toNat := by
  rw [decide_eq_decide.mpr h]

/-- The indices are equal where there is nothing to read. -/
theorem xHead_eq_xTail_iff (h : b.Valid) : b.xHead = b.xTail ↔ b.contents = [] := by
  have htail := h.tail_lt
  have hhead := h.head_lt
  rw [← List.length_eq_zero_iff, contents_length]
  unfold Ring.dist
  split <;> omega

theorem Valid.reset (h : b.Valid) : b.xStreamBufferReset.Valid :=
  ⟨Nat.zero_lt_of_lt h.tail_lt, Nat.zero_lt_of_lt h.tail_lt, h.length_le⟩

theorem reset_contents : b.xStreamBufferReset.contents = [] := by
  rw [← List.length_eq_zero_iff, contents_length]
  unfold Ring.dist xStreamBufferReset prvInitialiseNewStreamBuffer
  exact Nat.sub_self 0

/-- The trigger level is the only thing that `xStreamBufferSetTriggerLevel` touches. -/
theorem setTriggerLevel_fst (n : ℕ) : ∃ t, (b.xStreamBufferSetTriggerLevel n).1 = { b with xTriggerLevelBytes := t } := by
  unfold xStreamBufferSetTriggerLevel
  dsimp only
  split
  · split <;> exact ⟨_, rfl⟩
  · split <;> exact ⟨_, rfl⟩

theorem setTriggerLevel_snd (hlength : b.xLength = size + 1) (n : ℕ) :
    (b.xStreamBufferSetTriggerLevel n).2.toNat = (decide (max 1 n ≤ size + 1)).toNat := by
  unfold xStreamBufferSetTriggerLevel
  dsimp only
  rw [hlength]
  rcases Nat.eq_zero_or_pos n with hzero | hpos
  · rw [if_pos hzero, hzero, if_pos (by omega), decide_eq_true (by omega)]
  · rw [if_neg hpos.ne', Nat.max_eq_right hpos]
    by_cases hle : n ≤ size + 1
    · rw [if_pos hle, decide_eq_true hle]
    · rw [if_neg hle, decide_eq_false hle]

end Both

section Stream

variable {b : StreamBuffer} {size : ℕ} {xs : List UInt8} (h : HoldsBytes size b xs)
include h

theorem HoldsBytes.room : xs.length ≤ size := by
  have hlt := h.valid.contents_lt
  rw [h.contents, h.length] at hlt
  omega

theorem send_bytes (pvTxData : ℕ → UInt8) (n : UInt32) :
    Same (HoldsBytes size) (b.exec (.send pvTxData n)) (ByteQueue.exec size xs (.send pvTxData n)) := by
  have hroom := h.room
  have hspace : b.xStreamBufferSpacesAvailable = size - xs.length := by
    rw [xStreamBufferSpacesAvailable_eq h.valid, h.length, h.contents, Nat.add_sub_cancel]
  unfold exec xStreamBufferSend prvWriteMessageToBuffer ByteQueue.exec
  simp only [h.stream, hspace, Bool.false_eq_true, if_false, if_true, Option.pure_def, Option.bind_eq_bind, Option.bind_some]
  by_cases hfull : xs.length = size
  · rw [if_pos (by omega), if_pos hfull]
    exact .some ⟨rfl, h⟩
  · rw [if_neg (by omega), if_neg hfull]
    by_cases hzero : n.toNat = 0
    · have hnone : b.prvWriteBytesToBuffer pvTxData (min n.toNat (size - xs.length)) = none := by
        rw [hzero, Nat.zero_min]
        rfl
      rw [if_pos hzero, hnone]
      exact .none
    · rw [if_neg hzero]
      have hlt : b.contents.length + min n.toNat (size - xs.length) < b.xLength := by
        rw [h.contents, h.length]
        omega
      obtain ⟨b', hwrite, hvalid, hcontents, -, hlength, hflag⟩ :=
        prvWriteBytesToBuffer_spec h.valid pvTxData (by omega : 0 < min n.toNat (size - xs.length)) hlt
      rw [hwrite]
      exact .some ⟨rfl, hvalid, hflag.trans h.stream, hlength.trans h.length, by rw [hcontents, h.contents]⟩

theorem receive_bytes (pvRxData : ℕ → UInt8) (n : UInt32) :
    Same (HoldsBytes size) (b.exec (.receive pvRxData n)) (ByteQueue.exec size xs (.receive pvRxData n)) := by
  have hbytes : b.prvBytesInBuffer = xs.length := by rw [prvBytesInBuffer_eq h.valid, h.contents]
  unfold exec xStreamBufferReceive xBytesToStoreMessageLength prvReadMessageFromBuffer ByteQueue.exec
  simp only [h.stream, hbytes, Bool.false_eq_true, if_false, ne_eq, not_true, Option.pure_def]
  by_cases hempty : xs = []
  · subst hempty
    rw [if_neg (by simp)]
    refine .some ⟨?_, by rw [List.drop_nil]; exact h⟩
    simp
  · rw [if_pos (List.length_pos_of_ne_nil hempty)]
    obtain ⟨b', ptr, hread, hvalid, hcontents, hblock, hsame⟩ :=
      prvReadBytesFromBuffer_spec h.valid pvRxData (min_comm xs.length n.toNat) (by rw [h.contents]; exact min_le_right _ _)
    have hflag : b'.isMessageBuffer = b.isMessageBuffer := by rw [← hsame]
    have hlength : b'.xLength = b.xLength := by rw [← hsame]
    have hdrop : xs.drop (min n.toNat xs.length) = xs.drop n.toNat := by
      rcases le_total n.toNat xs.length with hle | hle
      · rw [Nat.min_eq_left hle]
      · rw [Nat.min_eq_right hle, List.drop_length, List.drop_of_length_le hle]
    have htake : xs.take (min n.toNat xs.length) = xs.take n.toNat := by
      rcases le_total n.toNat xs.length with hle | hle
      · rw [Nat.min_eq_left hle]
      · rw [Nat.min_eq_right hle, List.take_length, List.take_of_length_le hle]
    rw [hread]
    refine .some ⟨?_, hvalid, hflag.trans h.stream, hlength.trans h.length, ?_⟩
    · show SbReturn.mk _ (block ptr 0 (min n.toNat xs.length)) = _
      rw [hblock, h.contents, htake]
    · rw [hcontents, h.contents, hdrop]

/-- **A call does to the bytes of a stream buffer, and answers, what the queue does.** -/
theorem exec_bytes (c : SbCall) : Same (HoldsBytes size) (b.exec c) (ByteQueue.exec size xs c) := by
  have hroom := h.room
  have hspace : b.xStreamBufferSpacesAvailable = size - xs.length := by
    rw [xStreamBufferSpacesAvailable_eq h.valid, h.length, h.contents, Nat.add_sub_cancel]
  cases c with
  | send pvTxData n => exact send_bytes h pvTxData n
  | receive pvRxData n => exact receive_bytes h pvRxData n
  | spacesAvailable => exact .some ⟨congrArg SbReturn.only hspace, h⟩
  | bytesAvailable => exact .some ⟨congrArg SbReturn.only ((prvBytesInBuffer_eq h.valid).trans (by rw [h.contents])), h⟩
  | nextMessageLength =>
    have hnone : b.xStreamBufferNextMessageLengthBytes = some (b, 0) := by
      unfold xStreamBufferNextMessageLengthBytes
      rw [h.stream]
      rfl
    unfold exec
    rw [hnone]
    exact .some ⟨rfl, h⟩
  | isEmpty =>
    refine .some ⟨congrArg SbReturn.only (toNat_decide_congr ?_), h⟩
    rw [xHead_eq_xTail_iff h.valid, h.contents]
  | isFull =>
    refine .some ⟨congrArg SbReturn.only (toNat_decide_congr ?_), h⟩
    unfold xBytesToStoreMessageLength
    rw [h.stream, hspace, if_neg Bool.false_ne_true]
    omega
  | reset => exact .some ⟨rfl, h.valid.reset, h.stream, h.length, reset_contents⟩
  | setTriggerLevel n =>
    refine .some ⟨congrArg SbReturn.only (setTriggerLevel_snd h.length n.toNat), ?_⟩
    obtain ⟨t, ht⟩ := setTriggerLevel_fst (b := b) n.toNat
    show HoldsBytes size (b.xStreamBufferSetTriggerLevel n.toNat).1 xs
    rw [ht]
    exact ⟨⟨h.valid.tail_lt, h.valid.head_lt, h.valid.length_le⟩, h.stream, h.length, h.contents⟩

end Stream

/-! ## Message buffers -/

/-- The bytes of a `size_t`, as they are copied. -/
theorem block_lengthBytes (n : ℕ) : block (lengthBytes n) 0 sbBYTES_TO_STORE_MESSAGE_LENGTH = leBytes 4 n := by
  apply List.ext_getElem
  · rw [block_length, leBytes_length]
    rfl
  · intro i hi hi'
    simp only [block, List.getElem_map, List.getElem_range, Nat.zero_add, lengthBytes]
    exact List.getD_eq_getElem _ _ hi'

section Message

variable {b : StreamBuffer} {size : ℕ} {ms : List (List UInt8)} (h : HoldsMessages size b ms)
include h

theorem HoldsMessages.room : (frames 4 ms).length ≤ size := by
  have hlt := h.valid.contents_lt
  rw [h.contents, h.length] at hlt
  omega

theorem HoldsMessages.space : b.xStreamBufferSpacesAvailable = size - (frames 4 ms).length := by
  rw [xStreamBufferSpacesAvailable_eq h.valid, h.length, h.contents, Nat.add_sub_cancel]

theorem HoldsMessages.bytes : b.prvBytesInBuffer = (frames 4 ms).length := by rw [prvBytesInBuffer_eq h.valid, h.contents]

/-- A message is written after its length. -/
theorem write_message (pvTxData : ℕ → UInt8) {n : ℕ} (hn : 0 < n) (hroom : (frames 4 ms).length + (4 + n) ≤ size) :
    ∃ b', (b.prvWriteBytesToBuffer (lengthBytes n) sbBYTES_TO_STORE_MESSAGE_LENGTH).bind
      (fun b => b.prvWriteBytesToBuffer pvTxData n) = some b' ∧ HoldsMessages size b' (ms ++ [block pvTxData 0 n]) := by
  have hlength := h.length
  have hcontents := h.contents
  have hfirst : b.contents.length + sbBYTES_TO_STORE_MESSAGE_LENGTH < b.xLength := by
    rw [hcontents, hlength]
    unfold sbBYTES_TO_STORE_MESSAGE_LENGTH
    omega
  obtain ⟨b₁, hwrite₁, hvalid₁, hcontents₁, -, hlength₁, hflag₁⟩ :=
    prvWriteBytesToBuffer_spec h.valid (lengthBytes n) (by decide : 0 < sbBYTES_TO_STORE_MESSAGE_LENGTH) hfirst
  rw [block_lengthBytes] at hcontents₁
  have hsecond : b₁.contents.length + n < b₁.xLength := by
    rw [hcontents₁, List.length_append, leBytes_length, hcontents, hlength₁, hlength]
    omega
  obtain ⟨b₂, hwrite₂, hvalid₂, hcontents₂, -, hlength₂, hflag₂⟩ := prvWriteBytesToBuffer_spec hvalid₁ pvTxData hn hsecond
  refine ⟨b₂, ?_, hvalid₂, (hflag₂.trans hflag₁).trans h.message, (hlength₂.trans hlength₁).trans hlength, ?_, ?_⟩
  · rw [hwrite₁, Option.bind_some, hwrite₂]
  · rw [hcontents₂, hcontents₁, hcontents, frames_snoc, frame, block_length, List.append_assoc]
  · intro m hm
    rcases List.mem_append.mp hm with hm | hm
    · exact h.nonempty m hm
    · rw [List.mem_singleton.mp hm, ← List.length_pos_iff_ne_nil, block_length]
      exact hn

theorem send_message (pvTxData : ℕ → UInt8) (n : UInt32) :
    Same (HoldsMessages size) (b.exec (.send pvTxData n)) (MessageQueue.exec size ms (.send pvTxData n)) := by
  have hroom := h.room
  have hlt := n.toNat_lt
  unfold exec xStreamBufferSend prvWriteMessageToBuffer MessageQueue.exec
  simp only [h.message, h.space, if_true, Bool.true_eq_false, if_false, Option.pure_def, Option.bind_eq_bind, Option.bind_some]
  by_cases hbig : 2 ^ 32 ≤ n.toNat + 4
  · have hover : ¬ (n.toNat + sbBYTES_TO_STORE_MESSAGE_LENGTH) % 2 ^ 32 > n.toNat := by
      unfold sbBYTES_TO_STORE_MESSAGE_LENGTH
      omega
    rw [if_pos hbig, configASSERT, if_neg hover]
    exact .none
  · have hword : (n.toNat + sbBYTES_TO_STORE_MESSAGE_LENGTH) % 2 ^ 32 = n.toNat + 4 := by
      unfold sbBYTES_TO_STORE_MESSAGE_LENGTH
      omega
    have hmore : n.toNat + 4 > n.toNat := by omega
    simp only [if_neg hbig, hword, configASSERT_true hmore, Option.bind_some]
    by_cases hsmall : size < (frames 4 ms).length + (4 + n.toNat)
    · rw [if_pos hsmall]
      split
      · exact .some ⟨rfl, h⟩
      · rw [if_neg (by omega)]
        exact .some ⟨rfl, h⟩
    · rw [if_neg hsmall, if_neg (by omega), if_pos (by omega)]
      by_cases hzero : n.toNat = 0
      · -- the length has been written when the second call stops
        rw [if_pos hzero, hzero]
        cases b.prvWriteBytesToBuffer (lengthBytes 0) sbBYTES_TO_STORE_MESSAGE_LENGTH with
        | none => exact .none
        | some b₁ => exact .none
      · rw [if_neg hzero]
        obtain ⟨b', hwrite, hholds⟩ := write_message h pvTxData (Nat.pos_of_ne_zero hzero) (by omega)
        rw [← Option.bind_assoc, hwrite]
        exact .some ⟨rfl, hholds⟩

omit h in
theorem first_lt {m : List UInt8} (h : HoldsMessages size b (m :: ms)) :
    (frames 4 (m :: ms)).length > sbBYTES_TO_STORE_MESSAGE_LENGTH :=
  lt_frames_length h.nonempty (List.cons_ne_nil m ms)

omit h in
/-- The length of the first message is read without moving the tail in the end. -/
theorem read_length {m : List UInt8} (h : HoldsMessages size b (m :: ms)) :
    ∃ b' ptr, b.prvReadBytesFromBuffer (fun _ => 0) sbBYTES_TO_STORE_MESSAGE_LENGTH (frames 4 (m :: ms)).length =
      some (b', ptr, 4) ∧ ofLeBytes (block ptr 0 sbBYTES_TO_STORE_MESSAGE_LENGTH) = m.length ∧ b'.Valid ∧
      b'.contents = m ++ frames 4 ms ∧ { b' with xTail := b.xTail } = b := by
  have hmin : min (frames 4 (m :: ms)).length sbBYTES_TO_STORE_MESSAGE_LENGTH = 4 := Nat.min_eq_right (first_lt h).le
  obtain ⟨b', ptr, hread, hvalid, hcontents, hblock, hsame⟩ :=
    prvReadBytesFromBuffer_spec h.valid (fun _ => 0) hmin (by rw [h.contents]; exact (first_lt h).le)
  refine ⟨b', ptr, hread, ?_, hvalid, ?_, hsame⟩
  · have hfits : m.length < 256 ^ 4 := by
      have hroom := h.room
      have hlength := h.length
      have hle := h.valid.length_le
      rw [frames_cons, List.length_append, frame_length] at hroom
      omega
    rw [show sbBYTES_TO_STORE_MESSAGE_LENGTH = 4 from rfl, hblock, h.contents, take_frames_cons, ofLeBytes_leBytes hfits]
  · rw [hcontents, h.contents, drop_frames_cons]

omit h in
/-- A buffer that is too small leaves everything as it was. -/
theorem receive_small {m : List UInt8} (h : HoldsMessages size b (m :: ms)) (pvRxData : ℕ → UInt8) {n : ℕ} (hn : n < m.length) :
    b.xStreamBufferReceive pvRxData n = some (b, pvRxData, 0) := by
  obtain ⟨b', ptr, hread, hvalue, -, -, hsame⟩ := read_length h
  have hzero (k : ℕ) : b.prvReadBytesFromBuffer pvRxData 0 k = some (b, pvRxData, 0) := by
    unfold prvReadBytesFromBuffer
    rw [Nat.min_zero]
    rfl
  unfold xStreamBufferReceive xBytesToStoreMessageLength prvReadMessageFromBuffer
  rw [h.message, if_pos rfl, h.bytes, if_pos (first_lt h), if_pos (by decide)]
  simp only [Option.bind_eq_bind, hread, Option.bind_some, hvalue, gt_iff_lt, if_pos hn, hsame, hzero]

theorem receive_message (pvRxData : ℕ → UInt8) (n : UInt32) :
    Same (HoldsMessages size) (b.exec (.receive pvRxData n)) (MessageQueue.exec size ms (.receive pvRxData n)) := by
  cases ms with
  | nil =>
    have hnone : b.xStreamBufferReceive pvRxData n.toNat = some (b, pvRxData, 0) := by
      unfold xStreamBufferReceive
      rw [h.bytes]
      exact if_neg (Nat.not_lt_zero _)
    simp only [exec, hnone, Option.map_some]
    exact .some ⟨rfl, h⟩
  | cons m ms =>
    have hne := h.nonempty m List.mem_cons_self
    unfold MessageQueue.exec
    simp only [List.headD_cons, List.tail_cons, ne_eq, hne, not_false_eq_true, true_and]
    by_cases hle : m.length ≤ n.toNat
    · rw [if_pos hle]
      obtain ⟨b', ptr, hread, hvalue, hvalid, hcontents, hsame⟩ := read_length h
      have hroom := h.room
      have hlength := h.length
      have hbound := h.valid.length_le
      have hlt4 : 4 < (frames 4 (m :: ms)).length := first_lt h
      have hrest : Word.sub 32 (frames 4 (m :: ms)).length 4 = (m ++ frames 4 ms).length := by
        rw [Word.sub_of_le hlt4.le (by omega), frames_cons, frame, List.append_assoc, List.length_append, leBytes_length]
        omega
      have hmin : min (m ++ frames 4 ms).length m.length = m.length := by
        rw [List.length_append]
        omega
      obtain ⟨b'', ptr', hread', hvalid', hcontents', hblock, hsame'⟩ :=
        prvReadBytesFromBuffer_spec hvalid pvRxData hmin (by rw [hcontents, List.length_append]; omega)
      have hreceive : b.xStreamBufferReceive pvRxData n.toNat = some (b'', ptr', m.length) := by
        unfold xStreamBufferReceive xBytesToStoreMessageLength prvReadMessageFromBuffer
        rw [h.message, if_pos rfl, h.bytes, if_pos (first_lt h), if_pos (by decide)]
        simp only [Option.bind_eq_bind, hread, Option.bind_some, hvalue, gt_iff_lt, if_neg (not_lt.mpr hle)]
        rw [show sbBYTES_TO_STORE_MESSAGE_LENGTH = 4 from rfl, hrest, hread']
      have hflag : b''.isMessageBuffer = b.isMessageBuffer := by
        rw [← hsame, ← hsame']
      have hsize : b''.xLength = b.xLength := by
        rw [← hsame, ← hsame']
      simp only [exec, hreceive, Option.map_some]
      have hrest : ∀ x ∈ ms, x ≠ [] := fun x hx => h.nonempty x (List.mem_cons_of_mem m hx)
      refine .some ⟨?_, hvalid', hflag.trans h.message, hsize.trans h.length, ?_, hrest⟩
      · show SbReturn.mk m.length (block ptr' 0 m.length) = _
        rw [hblock, hcontents, List.take_left]
      · rw [hcontents', hcontents, List.drop_left]
    · rw [if_neg hle]
      simp only [exec, receive_small h pvRxData (not_le.mp hle), Option.map_some]
      exact .some ⟨rfl, h⟩

/-- **A call does to the messages of a message buffer, and answers, what the queue does.** -/
theorem exec_message (c : SbCall) : Same (HoldsMessages size) (b.exec c) (MessageQueue.exec size ms c) := by
  cases c with
  | send pvTxData n => exact send_message h pvTxData n
  | receive pvRxData n => exact receive_message h pvRxData n
  | spacesAvailable => exact .some ⟨congrArg SbReturn.only h.space, h⟩
  | bytesAvailable => exact .some ⟨congrArg SbReturn.only h.bytes, h⟩
  | nextMessageLength =>
    cases ms with
    | nil =>
      have hnone : b.xStreamBufferNextMessageLengthBytes = some (b, 0) := by
        unfold xStreamBufferNextMessageLengthBytes
        rw [h.message, if_pos rfl, h.bytes]
        exact if_neg (Nat.not_lt_zero _)
      simp only [exec, hnone, Option.map_some]
      exact .some ⟨rfl, h⟩
    | cons m ms =>
      obtain ⟨b', ptr, hread, hvalue, -, -, hsame⟩ := read_length h
      have hnext : b.xStreamBufferNextMessageLengthBytes = some (b, m.length) := by
        unfold xStreamBufferNextMessageLengthBytes
        rw [h.message, if_pos rfl, h.bytes, if_pos (first_lt h)]
        simp only [Option.bind_eq_bind, hread, Option.bind_some, hvalue, hsame, Option.pure_def]
      simp only [exec, hnext, Option.map_some]
      exact .some ⟨rfl, h⟩
  | isEmpty =>
    refine .some ⟨congrArg SbReturn.only (toNat_decide_congr ?_), h⟩
    rw [xHead_eq_xTail_iff h.valid, h.contents]
    constructor
    · intro hnil
      by_contra hne
      have hlt : 4 < (frames 4 ms).length := lt_frames_length h.nonempty hne
      rw [hnil] at hlt
      exact absurd hlt (Nat.not_lt_zero _)
    · rintro rfl
      rfl
  | isFull =>
    refine .some ⟨congrArg SbReturn.only (toNat_decide_congr ?_), h⟩
    unfold xBytesToStoreMessageLength
    rw [h.message, h.space, if_pos rfl]
    rfl
  | reset =>
    exact .some ⟨rfl, h.valid.reset, h.message, h.length, reset_contents, fun m hm => absurd hm List.not_mem_nil⟩
  | setTriggerLevel n =>
    refine .some ⟨congrArg SbReturn.only (setTriggerLevel_snd h.length n.toNat), ?_⟩
    obtain ⟨t, ht⟩ := setTriggerLevel_fst (b := b) n.toNat
    show HoldsMessages size (b.xStreamBufferSetTriggerLevel n.toNat).1 ms
    rw [ht]
    exact ⟨⟨h.valid.tail_lt, h.valid.head_lt, h.valid.length_le⟩, h.message, h.length, h.contents, h.nonempty⟩

end Message

/-! ## Runs -/

section Runs

variable (pucBuffer : ℕ → UInt8) {size : ℕ} (xTriggerLevelBytes : ℕ)

theorem init_valid (hsize : size < 2 ^ 31) (isMessageBuffer : Bool) :
    (prvInitialiseNewStreamBuffer pucBuffer (size + 1) xTriggerLevelBytes isMessageBuffer).Valid :=
  ⟨Nat.succ_pos size, Nat.succ_pos size, hsize⟩

theorem init_contents (isMessageBuffer : Bool) :
    (prvInitialiseNewStreamBuffer pucBuffer (size + 1) xTriggerLevelBytes isMessageBuffer).contents = [] := by
  rw [← List.length_eq_zero_iff, contents_length]
  rfl

theorem init_bytes (hsize : size < 2 ^ 31) :
    HoldsBytes size (prvInitialiseNewStreamBuffer pucBuffer (size + 1) xTriggerLevelBytes false) [] :=
  ⟨init_valid _ _ hsize false, rfl, rfl, init_contents _ _ false⟩

theorem init_messages (hsize : size < 2 ^ 31) :
    HoldsMessages size (prvInitialiseNewStreamBuffer pucBuffer (size + 1) xTriggerLevelBytes true) [] :=
  ⟨init_valid _ _ hsize true, rfl, rfl, init_contents _ _ true, fun _ hm => absurd hm List.not_mem_nil⟩

end Runs

/-- **Stream and message buffers are bounded queues.** A buffer of `size + 1` bytes that is smaller than half of the address space
has the runs of a queue of `size` bytes, or of messages that take this room with their lengths; what it has delivered and still
holds is what it has accepted since it was last empty by a reset; and a message that is too long for the caller's memory leaves
the buffer as it was. -/
theorem streamBuffer_refines (pucBuffer : ℕ → UInt8) (size xTriggerLevelBytes : ℕ) (hsize : size < 2 ^ 31)
    (ls : List (SbCall × SbReturn)) :
    (∀ b, Run (Answers exec) (prvInitialiseNewStreamBuffer pucBuffer (size + 1) xTriggerLevelBytes false) ls b →
      Run (Answers (ByteQueue.exec size)) [] ls b.contents ∧
        (NoReset ls → (ls.flatMap accepted).flatten = (ls.flatMap delivered).flatten ++ b.contents)) ∧
      (∀ xs, Run (Answers (ByteQueue.exec size)) [] ls xs →
        ∃ b, Run (Answers exec) (prvInitialiseNewStreamBuffer pucBuffer (size + 1) xTriggerLevelBytes false) ls b) ∧
      (∀ b, Run (Answers exec) (prvInitialiseNewStreamBuffer pucBuffer (size + 1) xTriggerLevelBytes true) ls b →
        ∃ ms, Run (Answers (MessageQueue.exec size)) [] ls ms ∧ b.contents = frames 4 ms ∧
          (NoReset ls → ls.flatMap accepted = ls.flatMap delivered ++ ms) ∧
          ∀ m ∈ ms.head?, ∀ pvRxData n, n.toNat < m.length → b.exec (.receive pvRxData n) = some (b, .only 0)) ∧
      (∀ ms, Run (Answers (MessageQueue.exec size)) [] ls ms →
        ∃ b, Run (Answers exec) (prvInitialiseNewStreamBuffer pucBuffer (size + 1) xTriggerLevelBytes true) ls b) := by
  have hbytes := init_bytes pucBuffer xTriggerLevelBytes hsize
  have hmessages := init_messages pucBuffer xTriggerLevelBytes hsize
  refine ⟨fun b hrun => ?_, fun xs hrun => ?_, fun b hrun => ?_, fun ms hrun => ?_⟩
  · obtain ⟨xs, hspec, hholds⟩ := hrun.lockstep hbytes fun b xs c h => exec_bytes h c
    have hxs := hholds.contents
    refine ⟨hxs ▸ hspec, fun hls => ?_⟩
    have hconserved := conserves (fun l => (accepted l).flatten) (fun l => (delivered l).flatten)
      (fun _ _ _ _ => ByteQueue.exec_conserves) hspec hls
    simp only [← List.flatMap_id, List.flatMap_assoc] at hconserved ⊢
    rw [hxs]
    exact hconserved
  · obtain ⟨b, hrun', -⟩ := hrun.lockstep (R := fun xs b => HoldsBytes size b xs) hbytes fun _ _ c h => (exec_bytes h c).symm
    exact ⟨b, hrun'⟩
  · obtain ⟨ms, hspec, hholds⟩ := hrun.lockstep hmessages fun b ms c h => exec_message h c
    refine ⟨ms, hspec, hholds.contents, ?_, ?_⟩
    · exact fun hls => conserves accepted delivered (fun _ _ _ _ => MessageQueue.exec_conserves) hspec hls
    intro m hm pvRxData n hn
    cases ms with
    | nil => cases hm
    | cons m' ms =>
      cases hm
      unfold exec
      dsimp only
      rw [receive_small hholds pvRxData hn]
      rfl
  · obtain ⟨b, hrun', -⟩ := hrun.lockstep (R := fun ms b => HoldsMessages size b ms) hmessages
      fun _ _ c h => (exec_message h c).symm
    exact ⟨b, hrun'⟩

/-- Two messages in eight bytes: the second does not fit, and the first is not taken by a buffer of one byte. -/
theorem streamBuffer_refines_eight : ∃ b, Run (Answers exec) (prvInitialiseNewStreamBuffer (fun _ => 0) 9 1 true)
    [(.send (fun _ => 5) 2, .only 2), (.send (fun _ => 7) 1, .only 0), (.receive (fun _ => 0) 1, .only 0)] b := by
  have hfirst : MessageQueue.exec 8 [] (.send (fun _ => 5) 2) = some ([[5, 5]], .only 2) := by decide
  have hsecond : MessageQueue.exec 8 [[5, 5]] (.send (fun _ => 7) 1) = some ([[5, 5]], .only 0) := by decide
  have hsmall : MessageQueue.exec 8 [[5, 5]] (.receive (fun _ => 0) 1) = some ([[5, 5]], .only 0) := by decide
  exact (streamBuffer_refines (fun _ => 0) 8 1 (by decide) _).2.2.2 _ (.snoc (.snoc (.single hfirst) hsecond) hsmall)

end StreamBuffer

end CoreLink.FreeRtos
