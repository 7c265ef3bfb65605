/-
# `CoreLink.FreeRtos.StreamBufferPair` — one task that sends messages and one that receives them, without a lock.

A step is one access of a task to what the two share: it looks at the other's index, copies a byte, or moves its own index. The
sender moves the head behind the length and again behind the message. The receiver moves the tail behind the length; where the
message does not fit into its memory, or where it was only to say how long the message is, it moves the tail back. A sender that
looks at the tail in between takes the bytes of the length for free space.
-/
import CoreLink.FreeRtos.StreamBuffer

namespace CoreLink.FreeRtos.StreamBufferPair

open CoreLink.Lib StreamBuffer

/-! ## The tasks -/

/-- What is copied in one go: the length of a message, or the message. -/
inductive Piece
  | length
  | body
deriving DecidableEq

/-- The bytes of a piece. -/
def Piece.of (m : List UInt8) : Piece → List UInt8
  | .length => leBytes sbBYTES_TO_STORE_MESSAGE_LENGTH m.length
  | .body => m

/-- Where the sender stands in `xStreamBufferSend`. -/
inductive Sender
  | idle
  /-- in the loop of a call with `xTicksToWait`, before it computes the space -/
  | wait (m : List UInt8)
  /-- with `xSpace` at 0, before it computes the space -/
  | look (m : List UInt8)
  /-- in `prvWriteBytesToBuffer`, with `i` bytes copied -/
  | write (m : List UInt8) (piece : Piece) (i : ℕ)

/-- Its next step computes the space. -/
def Sender.looks : Sender → Bool
  | .wait _ => true
  | .look _ => true
  | _ => false

/-- The length that stands in the buffer without its message. -/
def Sender.published : Sender → List UInt8
  | .write m .body _ => leBytes 4 m.length
  | _ => []

/-- `xStreamBufferReceive`, or `xStreamBufferNextMessageLengthBytes`. -/
inductive Goal
  | receive (xBufferLengthBytes : ℕ)
  | query

/-- Where the receiver stands. -/
inductive Receiver
  | idle
  /-- before it looks at the head, with or without a wait to come -/
  | look (goal : Goal) (ticks : Bool)
  /-- in `prvReadBytesFromBuffer`, with some of `xCount` bytes copied -/
  | read (goal : Goal) (xBytesAvailable : ℕ) (piece : Piece) (xCount : ℕ) (got : List UInt8)
  /-- with the length of the message taken out -/
  | taken (goal : Goal) (xBytesAvailable xNextMessageLength xOriginalTail : ℕ)

/-- Where it is about to move the tail back to. -/
def Receiver.restoring : Receiver → Option ℕ
  | .taken .query _ _ xOriginalTail => some xOriginalTail
  | .taken (.receive n) _ xNextMessageLength xOriginalTail => if xNextMessageLength > n then some xOriginalTail else none
  | _ => none

/-- The bytes of the first message that are out for good. -/
def Receiver.ahead : Receiver → ℕ
  | .taken (.receive n) _ xNextMessageLength _ => if xNextMessageLength > n then 0 else 4
  | .read _ _ .body _ _ => 4
  | _ => 0

/-- The buffer and the two tasks, with the messages that have been sent and received. -/
structure Pair where
  buffer : StreamBuffer
  sender : Sender
  receiver : Receiver
  sent : List (List UInt8)
  received : List (List UInt8)

inductive Act
  | send (m : List UInt8) (ticks : Bool)
  | receive (xBufferLengthBytes : ℕ) (ticks : Bool)
  | query
  /-- the next step of the sender; its wait, if it waits, ends by a timeout or by a notification -/
  | sender (timeout : Bool)
  /-- the next step of the receiver -/
  | receiver

/-- The place of a byte of a copy, of which the first part goes up to the end of the storage area. -/
def place (b : StreamBuffer) (index i : ℕ) : ℕ := if i < b.xLength - index then index + i else i - (b.xLength - index)

/-- An index behind `n` more bytes. -/
def moved (b : StreamBuffer) (index n : ℕ) : ℕ :=
  if (index + n) % 2 ^ 32 ≥ b.xLength then (index + n) % 2 ^ 32 - b.xLength else (index + n) % 2 ^ 32

namespace Pair

variable (s : Pair)

/-- The sender, when it knows the space. -/
def withSpace (m : List UInt8) (otherwise : Sender) : Pair :=
  if s.buffer.xStreamBufferSpacesAvailable ≥ m.length + sbBYTES_TO_STORE_MESSAGE_LENGTH then { s with sender := .write m .length 0 }
  else { s with sender := otherwise }

/-- A step of `xStreamBufferSend`. -/
def senderStep (timeout : Bool) : Option Pair :=
  match s.sender with
  | .idle => none
  | .wait m =>
    some (s.withSpace m (if timeout then if s.buffer.xStreamBufferSpacesAvailable = 0 then .look m else .idle else .wait m))
  | .look m => some (s.withSpace m .idle)
  | .write m piece i =>
    if i < (piece.of m).length then
      some { s with
        buffer.pucBuffer := Function.update s.buffer.pucBuffer (place s.buffer s.buffer.xHead i) ((piece.of m).getD i 0)
        sender := .write m piece (i + 1) }
    else match piece with
      | .length => some { s with
          buffer.xHead := moved s.buffer s.buffer.xHead sbBYTES_TO_STORE_MESSAGE_LENGTH
          sender := .write m .body 0 }
      | .body =>
        -- `configASSERT( xCount > 0 )`
        if m = [] then none
        else some { s with
          buffer.xHead := moved s.buffer s.buffer.xHead m.length
          sender := .idle
          sent := s.sent ++ [m] }

/-- A step of `xStreamBufferReceive` or `xStreamBufferNextMessageLengthBytes`. -/
def receiverStep : Option Pair :=
  match s.receiver with
  | .idle => none
  | .look goal ticks =>
    let xBytesAvailable := s.buffer.prvBytesInBuffer
    if xBytesAvailable > sbBYTES_TO_STORE_MESSAGE_LENGTH then
      some { s with receiver := .read goal xBytesAvailable .length (min xBytesAvailable sbBYTES_TO_STORE_MESSAGE_LENGTH) [] }
    else match goal with
      | .receive _ => some { s with receiver := if ticks then .look goal false else .idle }
      -- `configASSERT( xBytesAvailable == 0 )`
      | .query => if xBytesAvailable = 0 then some { s with receiver := .idle } else none
  | .read goal xBytesAvailable piece xCount got =>
    if got.length < xCount then
      some { s with
        receiver := .read goal xBytesAvailable piece xCount (got ++ [s.buffer.pucBuffer (place s.buffer s.buffer.xTail got.length)]) }
    else match piece with
      | .length => some { s with
          buffer.xTail := moved s.buffer s.buffer.xTail xCount
          receiver := .taken goal xBytesAvailable (ofLeBytes got) s.buffer.xTail }
      | .body => some { s with
          buffer.xTail := moved s.buffer s.buffer.xTail xCount
          receiver := .idle
          received := s.received ++ [got] }
  | .taken goal xBytesAvailable xNextMessageLength xOriginalTail =>
    match goal with
    | .query => some { s with buffer.xTail := xOriginalTail, receiver := .idle }
    | .receive xBufferLengthBytes =>
      if xNextMessageLength > xBufferLengthBytes then some { s with buffer.xTail := xOriginalTail, receiver := .idle }
      else
        let xCount := min (Word.sub 32 xBytesAvailable sbBYTES_TO_STORE_MESSAGE_LENGTH) xNextMessageLength
        if xCount = 0 then some { s with receiver := .idle }
        else some { s with receiver := .read goal xBytesAvailable .body xCount [] }

/-- A call begins where the task is in none. A message has room for its length in a `size_t`, or `configASSERT` stops the sender. -/
def step : Act → Option Pair
  | .send m ticks =>
    match s.sender with
    | .idle =>
      if m.length + sbBYTES_TO_STORE_MESSAGE_LENGTH < 2 ^ 32 then some { s with sender := if ticks then .wait m else .look m }
      else none
    | _ => none
  | .receive n ticks =>
    match s.receiver with
    | .idle => some { s with receiver := .look (.receive n) ticks }
    | _ => none
  | .query =>
    match s.receiver with
    | .idle => some { s with receiver := .look .query false }
    | _ => none
  | .sender timeout => s.senderStep timeout
  | .receiver => s.receiverStep

/-- A message buffer of `size + 1` bytes, and two tasks in no call. -/
def init (pucBuffer : ℕ → UInt8) (size xTriggerLevelBytes : ℕ) : Pair where
  buffer := prvInitialiseNewStreamBuffer pucBuffer (size + 1) xTriggerLevelBytes true
  sender := .idle
  receiver := .idle
  sent := []
  received := []

/-! ## What is in the buffer -/

/-- Where the bytes begin that the receiver still needs. -/
def front : ℕ := s.receiver.restoring.getD s.buffer.xTail

/-- These bytes, and those behind them. -/
def stored : List UInt8 := Ring.between s.buffer.xLength s.buffer.pucBuffer s.front s.buffer.xHead

/-- **Nothing is lost**: what has been sent is what has been received, and messages that the buffer holds in order, but for what
is out of the first one and in of the next one. -/
def Intact : Prop :=
  ∃ pending, s.sent = s.received ++ pending ∧ s.stored = (frames 4 pending ++ s.sender.published).drop s.receiver.ahead

/-- The sender does not look at the tail while the receiver is about to move it back. -/
def Calm (s : Pair) : Act → Prop
  | .sender _ => s.sender.looks → s.receiver.restoring = none
  | _ => True

instance (s : Pair) : ∀ a, Decidable (s.Calm a)
  | .sender _ => inferInstanceAs (Decidable (s.sender.looks = true → s.receiver.restoring = none))
  | .send _ _ => isTrue trivial
  | .receive _ _ => isTrue trivial
  | .query => isTrue trivial
  | .receiver => isTrue trivial

end Pair

/-! ## The invariant -/

/-- What the sender has copied, with `n` bytes in the buffer, and the room it has for the rest. -/
def Sender.Ok (b : StreamBuffer) (n : ℕ) : Sender → Prop
  | .write m piece i =>
    i ≤ (piece.of m).length ∧ n + (piece.of m).length + (if piece = .length then m.length else 0) < b.xLength ∧
      ∀ j < i, b.pucBuffer ((b.xHead + j) % b.xLength) = (piece.of m).getD j 0
  | _ => True

/-- What the receiver has copied of the first message, and what it knows about it. -/
def Receiver.Ok (size : ℕ) (pending : List (List UInt8)) : Receiver → Prop
  | .read _ xBytesAvailable piece xCount got => ∃ m rest, pending = m :: rest ∧ 4 + m.length ≤ xBytesAvailable ∧
      xBytesAvailable < 2 ^ 32 ∧ xCount = (piece.of m).length ∧ got.length ≤ xCount ∧ got = (piece.of m).take got.length
  | .taken _ xBytesAvailable xNextMessageLength xOriginalTail => ∃ m rest, pending = m :: rest ∧ 4 + m.length ≤ xBytesAvailable ∧
      xBytesAvailable < 2 ^ 32 ∧ xNextMessageLength = m.length ∧ xOriginalTail < size
  | _ => True

/-- With these messages sent and not yet received. -/
structure Inv (s : Pair) (pending : List (List UInt8)) : Prop where
  valid : s.buffer.Valid
  sent : s.sent = s.received ++ pending
  nonempty : ∀ m ∈ pending, m ≠ []
  stored : s.stored = (frames 4 pending ++ s.sender.published).drop s.receiver.ahead
  sender : s.sender.Ok s.buffer s.stored.length
  receiver : s.receiver.Ok s.buffer.xLength pending

section Indices

variable {b : StreamBuffer} {index n : ℕ}

theorem place_eq (hindex : index < b.xLength) (hn : n ≤ b.xLength) : place b index n = (index + n) % b.xLength := by
  rw [Ring.wrap_add hindex hn, place]
  split <;> split <;> omega

theorem moved_eq (h : b.Valid) (hindex : index < b.xLength) (hn : n ≤ b.xLength) : moved b index n = (index + n) % b.xLength := by
  have hlength := h.length_le
  rw [Ring.wrap_add hindex hn, moved, Nat.mod_eq_of_lt (by omega)]
  split <;> split <;> omega

end Indices

/-- Cells that have been written one by one. -/
theorem contents_of_cells {size start : ℕ} {cells : ℕ → UInt8} {bs : List UInt8}
    (h : ∀ j < bs.length, cells ((start + j) % size) = bs.getD j 0) : Ring.contents size cells start bs.length = bs := by
  apply List.ext_getElem
  · exact Ring.contents_length
  · intro j hj hj'
    simp only [Ring.contents, List.getElem_map, List.getElem_range, h j hj']
    exact List.getD_eq_getElem _ _ hj'

theorem Sender.Ok.mono {b : StreamBuffer} {n n' : ℕ} {x : Sender} (h : x.Ok b n) (hn : n' ≤ n) : x.Ok b n' := by
  cases x with
  | write m piece i => exact ⟨h.1, lt_of_le_of_lt (Nat.add_le_add_right (Nat.add_le_add_right hn _) _) h.2.1, h.2.2⟩
  | _ => trivial

/-- With the length taken out, it is put back, or out for good. -/
theorem Receiver.taken_or (goal : Goal) (avail len orig : ℕ) :
    (taken goal avail len orig).restoring = some orig ∧ (taken goal avail len orig).ahead = 0 ∨
      (taken goal avail len orig).restoring = none ∧ (taken goal avail len orig).ahead = 4 := by
  cases goal with
  | query => exact .inl ⟨rfl, rfl⟩
  | receive n =>
    by_cases hn : len > n
    · exact .inl ⟨if_pos hn, if_pos hn⟩
    · exact .inr ⟨if_neg hn, if_neg hn⟩

section Receiver

variable {size : ℕ} {pending : List (List UInt8)} {x : Receiver} (h : x.Ok size pending)
include h

theorem Receiver.Ok.restoring_lt {orig : ℕ} (hback : x.restoring = some orig) : orig < size := by
  cases x with
  | taken goal avail len orig' =>
    obtain ⟨m, rest, -, -, -, -, hlt⟩ := h
    rcases Receiver.taken_or goal avail len orig' with ⟨hsome, -⟩ | ⟨hnone, -⟩
    · rw [hsome] at hback
      cases hback
      exact hlt
    · rw [hnone] at hback
      cases hback
  | _ => cases hback

/-- What is out is out of a message. -/
theorem Receiver.Ok.ahead_le : x.ahead ≤ (frames 4 pending).length := by
  cases x with
  | read goal avail piece count got =>
    obtain ⟨m, rest, rfl, -⟩ := h
    rw [frames_cons, List.length_append, frame_length]
    cases piece <;> simp only [ahead] <;> omega
  | taken goal avail len orig =>
    obtain ⟨m, rest, rfl, -⟩ := h
    rw [frames_cons, List.length_append, frame_length]
    rcases Receiver.taken_or goal avail len orig with ⟨-, hahead⟩ | ⟨-, hahead⟩ <;> rw [hahead] <;> omega
  | _ => exact Nat.zero_le _

/-- Another message to come. -/
theorem Receiver.Ok.snoc (m : List UInt8) : x.Ok size (pending ++ [m]) := by
  cases x with
  | read goal avail piece count got =>
    obtain ⟨m₀, rest, rfl, hrest⟩ := h
    exact ⟨m₀, rest ++ [m], rfl, hrest⟩
  | taken goal avail len orig =>
    obtain ⟨m₀, rest, rfl, hrest⟩ := h
    exact ⟨m₀, rest ++ [m], rfl, hrest⟩
  | _ => trivial

end Receiver

namespace Inv

variable {s : Pair} {pending : List (List UInt8)} (h : Inv s pending)
include h

theorem front_lt : s.front < s.buffer.xLength := by
  unfold Pair.front
  cases hback : s.receiver.restoring with
  | none => exact h.valid.tail_lt
  | some orig => exact h.receiver.restoring_lt hback

theorem stored_lt : s.stored.length < s.buffer.xLength := by
  rw [Pair.stored, Ring.between_length]
  exact Ring.dist_lt h.front_lt h.valid.head_lt

/-! ## The sender -/

/-- A step that leaves the buffer alone. -/
theorem of_sender {x : Sender} (hpublished : x.published = s.sender.published) (hok : x.Ok s.buffer s.stored.length) :
    Inv { s with sender := x } pending :=
  ⟨h.valid, h.sent, h.nonempty, h.stored.trans (by rw [hpublished]), hok, h.receiver⟩

/-- **Looking at the space**: what is free now stays free, where the tail does not go back. -/
theorem withSpace {m : List UInt8} {otherwise : Sender} (hcalm : s.receiver.restoring = none) (hpublished : s.sender.published = [])
    (hother : otherwise.published = []) (hok : otherwise.Ok s.buffer s.stored.length) : Inv (s.withSpace m otherwise) pending := by
  unfold Pair.withSpace
  split
  next hspace =>
    refine h.of_sender (x := .write m .length 0) hpublished.symm ⟨Nat.zero_le _, ?_, fun j hj => absurd hj (Nat.not_lt_zero j)⟩
    have hstored : s.stored.length = s.buffer.contents.length := by rw [Pair.stored, Pair.front, hcalm, Option.getD_none, contents]
    rw [xStreamBufferSpacesAvailable_eq h.valid, ← hstored] at hspace
    rw [Piece.of, leBytes_length, if_pos rfl]
    unfold sbBYTES_TO_STORE_MESSAGE_LENGTH at *
    have hlt := h.valid.tail_lt
    omega
  next => exact h.of_sender (hother.trans hpublished.symm) hok

/-- **Copying a byte** behind the head. -/
theorem copy_byte {m : List UInt8} {piece : Piece} {i : ℕ} (hsender : s.sender = .write m piece i) (hi : i < (piece.of m).length) :
    Inv { s with
      buffer.pucBuffer := Function.update s.buffer.pucBuffer (place s.buffer s.buffer.xHead i) ((piece.of m).getD i 0)
      sender := .write m piece (i + 1) } pending := by
  have hok := h.sender
  rw [hsender] at hok
  obtain ⟨-, hroom, hcells⟩ := hok
  have hhead := h.valid.head_lt
  rw [place_eq hhead (by omega)]
  have hstored : Ring.between s.buffer.xLength
      (Function.update s.buffer.pucBuffer ((s.buffer.xHead + i) % s.buffer.xLength) ((piece.of m).getD i 0)) s.front
      s.buffer.xHead = s.stored :=
    Ring.between_update h.front_lt hhead _ (show s.stored.length + i < s.buffer.xLength by omega)
  have hpublished : s.sender.published = (Sender.write m piece (i + 1)).published := by
    rw [hsender]
    cases piece <;> rfl
  refine ⟨⟨h.valid.tail_lt, hhead, h.valid.length_le⟩, h.sent, h.nonempty, ?_, ⟨hi, ?_, fun j hj => ?_⟩, h.receiver⟩
  · rw [← hpublished]
    exact hstored.trans h.stored
  · show (Ring.between _ _ s.front s.buffer.xHead).length + _ + _ < _
    rw [hstored]
    exact hroom
  · show Function.update s.buffer.pucBuffer _ _ ((s.buffer.xHead + j) % s.buffer.xLength) = _
    rcases Nat.lt_succ_iff_lt_or_eq.mp hj with hlt | rfl
    · rw [Function.update_of_ne, hcells j hlt]
      intro heq
      exact absurd (Ring.offset_inj (by omega) (by omega) heq) hlt.ne
    · rw [Function.update_self]

/-- The head moves behind a piece that has been copied. -/
theorem stored_publish {m : List UInt8} {piece : Piece} {i : ℕ} (hsender : s.sender = .write m piece i)
    (hi : ¬ i < (piece.of m).length) : moved s.buffer s.buffer.xHead (piece.of m).length < s.buffer.xLength ∧
      Ring.between s.buffer.xLength s.buffer.pucBuffer s.front (moved s.buffer s.buffer.xHead (piece.of m).length) =
        (frames 4 pending ++ (s.sender.published ++ piece.of m)).drop s.receiver.ahead := by
  have hok := h.sender
  rw [hsender] at hok
  obtain ⟨hle, hroom, hcells⟩ := hok
  have hhead := h.valid.head_lt
  rw [moved_eq h.valid hhead (by omega)]
  refine ⟨Nat.mod_lt _ (by omega), ?_⟩
  have hput := Ring.between_put h.front_lt hhead (show s.stored.length + (piece.of m).length < s.buffer.xLength by omega)
  have hahead := h.receiver.ahead_le
  have hlength : s.receiver.ahead ≤ (frames 4 pending ++ s.sender.published).length := by
    rw [List.length_append]
    omega
  rw [hput, contents_of_cells fun j hj => hcells j (by omega), ← List.append_assoc, List.drop_append_of_le_length hlength,
    ← h.stored]
  rfl

/-- **The length** becomes visible. -/
theorem publish_length {m : List UInt8} {i : ℕ} (hsender : s.sender = .write m .length i) (hi : ¬ i < (Piece.length.of m).length) :
    Inv { s with
      buffer.xHead := moved s.buffer s.buffer.xHead sbBYTES_TO_STORE_MESSAGE_LENGTH
      sender := .write m .body 0 } pending := by
  have hok := h.sender
  rw [hsender] at hok
  obtain ⟨-, hroom, -⟩ := hok
  obtain ⟨hhead, hstored⟩ := h.stored_publish hsender hi
  have hbefore := h.stored
  have hahead := h.receiver.ahead_le
  have hlength : (Piece.length.of m).length = sbBYTES_TO_STORE_MESSAGE_LENGTH := leBytes_length _ _
  rw [hlength] at hhead hstored hroom
  rw [hsender] at hstored hbefore
  refine ⟨⟨h.valid.tail_lt, hhead, h.valid.length_le⟩, h.sent, h.nonempty, hstored, ?_, h.receiver⟩
  refine ⟨Nat.zero_le _, ?_, fun j hj => absurd hj (Nat.not_lt_zero j)⟩
  show (Ring.between _ _ s.front _).length + m.length + 0 < _
  rw [hbefore, if_pos rfl] at hroom
  simp only [hstored, Sender.published, List.length_drop, List.length_append, List.length_nil, hlength] at hroom ⊢
  omega

/-- **The message** becomes visible: it is one of those to come. -/
theorem publish_body {m : List UInt8} {i : ℕ} (hsender : s.sender = .write m .body i) (hi : ¬ i < m.length) (hm : m ≠ []) :
    Inv { s with
      buffer.xHead := moved s.buffer s.buffer.xHead m.length
      sender := .idle
      sent := s.sent ++ [m] } (pending ++ [m]) := by
  obtain ⟨hhead, hstored⟩ := h.stored_publish hsender hi
  rw [hsender] at hstored
  refine ⟨⟨h.valid.tail_lt, hhead, h.valid.length_le⟩, ?_, ?_, ?_, trivial, h.receiver.snoc m⟩
  · show s.sent ++ [m] = s.received ++ (pending ++ [m])
    rw [h.sent, List.append_assoc]
  · intro x hx
    rcases List.mem_append.mp hx with hx | hx
    · exact h.nonempty x hx
    · exact List.mem_singleton.mp hx ▸ hm
  · refine hstored.trans ?_
    show _ = (frames 4 (pending ++ [m]) ++ []).drop s.receiver.ahead
    rw [frames_snoc, List.append_nil]
    rfl

/-- **A step of the sender.** -/
theorem sender_step {timeout : Bool} {s' : Pair} (hcalm : s.Calm (.sender timeout)) (hstep : s.senderStep timeout = some s') :
    ∃ pending', Inv s' pending' := by
  unfold Pair.senderStep at hstep
  rw [Pair.Calm] at hcalm
  cases hsender : s.sender with
  | idle =>
    rw [hsender] at hstep
    cases hstep
  | wait m =>
    rw [hsender] at hstep hcalm
    cases hstep
    refine ⟨pending, h.withSpace (hcalm rfl) (by rw [hsender]; rfl) ?_ ?_⟩
    · split
      · split <;> rfl
      · rfl
    · split
      · split <;> trivial
      · trivial
  | look m =>
    rw [hsender] at hstep hcalm
    cases hstep
    exact ⟨pending, h.withSpace (hcalm rfl) (by rw [hsender]; rfl) rfl trivial⟩
  | write m piece i =>
    rw [hsender] at hstep
    dsimp only at hstep
    split at hstep
    next hi =>
      cases hstep
      exact ⟨pending, h.copy_byte hsender hi⟩
    next hi =>
      cases piece with
      | length =>
        cases hstep
        exact ⟨pending, h.publish_length hsender hi⟩
      | body =>
        dsimp only at hstep
        split at hstep
        · cases hstep
        next hm =>
          cases hstep
          exact ⟨pending ++ [m], h.publish_body hsender hi hm⟩

/-! ## The receiver -/

/-- A step that leaves the buffer alone. -/
theorem of_receiver {x : Receiver} (hback : x.restoring = s.receiver.restoring) (hahead : x.ahead = s.receiver.ahead)
    (hok : x.Ok s.buffer.xLength pending) : Inv { s with receiver := x } pending := by
  have hstored : ({ s with receiver := x } : Pair).stored = s.stored := by
    unfold Pair.stored Pair.front
    rw [hback]
  refine ⟨h.valid, h.sent, h.nonempty, ?_, ?_, hok⟩
  · rw [hstored, hahead]
    exact h.stored
  · rw [hstored]
    exact h.sender

/-- **Moving the tail**, away from bytes that are not needed any more or not yet. -/
theorem of_tail {tail k : ℕ} {x : Receiver} {received pending' : List (List UInt8)} (htail : tail < s.buffer.xLength)
    (hstored : Ring.between s.buffer.xLength s.buffer.pucBuffer (x.restoring.getD tail) s.buffer.xHead = s.stored.drop k)
    (hsent : s.sent = received ++ pending') (hnonempty : ∀ m ∈ pending', m ≠ [])
    (hrest : (frames 4 pending ++ s.sender.published).drop (s.receiver.ahead + k) =
      (frames 4 pending' ++ s.sender.published).drop x.ahead)
    (hok : x.Ok s.buffer.xLength pending') :
    Inv { s with buffer.xTail := tail, receiver := x, received := received } pending' := by
  refine ⟨⟨htail, h.valid.head_lt, h.valid.length_le⟩, hsent, hnonempty, ?_, h.sender.mono ?_, hok⟩
  · refine hstored.trans ?_
    rw [h.stored, List.drop_drop, hrest]
  · show (Ring.between _ _ (x.restoring.getD tail) _).length ≤ _
    rw [hstored, List.length_drop]
    exact Nat.sub_le _ _

/-- **Looking at the head**: more bytes than a length are a message. -/
theorem first_message {goal : Goal} {ticks : Bool} (hr : s.receiver = .look goal ticks)
    (hbytes : s.buffer.prvBytesInBuffer > sbBYTES_TO_STORE_MESSAGE_LENGTH) :
    ∃ m rest, pending = m :: rest ∧ 4 + m.length ≤ s.buffer.prvBytesInBuffer := by
  have hstored := h.stored
  unfold Pair.stored Pair.front at hstored
  rw [hr] at hstored
  have hlength : s.buffer.prvBytesInBuffer = (frames 4 pending ++ s.sender.published).length := by
    rw [prvBytesInBuffer_eq h.valid, contents]
    exact congrArg List.length hstored
  have hpublished : s.sender.published.length ≤ 4 := by
    unfold Sender.published
    split
    · exact (leBytes_length _ _).le
    · exact Nat.zero_le _
  rw [hlength] at hbytes ⊢
  cases pending with
  | nil => exact absurd hbytes (not_lt.mpr hpublished)
  | cons m rest =>
    refine ⟨m, rest, rfl, ?_⟩
    rw [frames_cons, List.length_append, List.length_append, frame_length]
    omega

/-- What is read stands in front. -/
theorem reading {goal : Goal} {avail count : ℕ} {piece : Piece} {got : List UInt8}
    (hr : s.receiver = .read goal avail piece count got) : s.front = s.buffer.xTail ∧
      ∃ m rest, pending = m :: rest ∧ 4 + m.length ≤ avail ∧ avail < 2 ^ 32 ∧ count = (piece.of m).length ∧ got.length ≤ count ∧
        got = (piece.of m).take got.length ∧ ∃ more, s.stored = piece.of m ++ more := by
  have hok := h.receiver
  have hstored := h.stored
  rw [hr] at hok hstored
  obtain ⟨m, rest, rfl, havail, hword, hcount, hle, hgot⟩ := hok
  refine ⟨by rw [Pair.front, hr]; rfl, m, rest, rfl, havail, hword, hcount, hle, hgot, ?_⟩
  rw [frames_cons, frame, List.append_assoc, List.append_assoc] at hstored
  cases piece with
  | length => exact ⟨_, hstored⟩
  | body => exact ⟨_, hstored.trans (List.drop_left' (leBytes_length 4 _))⟩

/-- **Reading a byte** of the first message. -/
theorem read_byte {goal : Goal} {avail count : ℕ} {piece : Piece} {got : List UInt8}
    (hr : s.receiver = .read goal avail piece count got) (hlt : got.length < count) :
    Inv { s with
      receiver := .read goal avail piece count (got ++ [s.buffer.pucBuffer (place s.buffer s.buffer.xTail got.length)]) }
      pending := by
  obtain ⟨hfront, m, rest, rfl, havail, hword, rfl, -, hgot, more, hstored⟩ := h.reading hr
  have hbound := h.stored_lt
  have hinside : got.length < s.stored.length := by
    rw [hstored, List.length_append]
    omega
  have hcell : s.buffer.pucBuffer (place s.buffer s.buffer.xTail got.length) = (piece.of m)[got.length] := by
    rw [place_eq h.valid.tail_lt (by omega), ← hfront, ← Ring.between_getElem hinside]
    show s.stored[got.length] = _
    simp only [hstored]
    exact List.getElem_append_left hlt
  refine h.of_receiver ?_ ?_ ⟨m, rest, rfl, havail, hword, rfl, ?_, ?_⟩
  · rw [hr]
    rfl
  · rw [hr]
    cases piece <;> rfl
  · rw [List.length_append, List.length_singleton]
    exact hlt
  · rw [hcell, List.length_append, List.length_singleton, List.take_add_one, List.getElem?_eq_getElem hlt, ← hgot]
    rfl

/-- A piece that has been read is complete. -/
theorem read_all {goal : Goal} {avail count : ℕ} {piece : Piece} {got : List UInt8}
    (hr : s.receiver = .read goal avail piece count got) (hge : ¬ got.length < count) :
    s.front = s.buffer.xTail ∧ moved s.buffer s.buffer.xTail count < s.buffer.xLength ∧
      Ring.between s.buffer.xLength s.buffer.pucBuffer (moved s.buffer s.buffer.xTail count) s.buffer.xHead = s.stored.drop count ∧
      ∃ m rest, pending = m :: rest ∧ 4 + m.length ≤ avail ∧ avail < 2 ^ 32 ∧ got = piece.of m ∧ count = (piece.of m).length := by
  obtain ⟨hfront, m, rest, rfl, havail, hword, hcount, hle, hgot, more, hstored⟩ := h.reading hr
  have hbound := h.stored_lt
  have hlength : count ≤ s.stored.length := by
    rw [hstored, List.length_append]
    omega
  rw [moved_eq h.valid h.valid.tail_lt (by omega)]
  refine ⟨hfront, Nat.mod_lt _ (by omega), ?_, m, rest, rfl, havail, hword, ?_, hcount⟩
  · rw [← hfront]
    exact Ring.between_get h.front_lt h.valid.head_lt hlength
  · rw [hgot]
    exact List.take_of_length_le (by omega)

/-- **The length is out**: for good, or for a moment. -/
theorem take_length {goal : Goal} {avail count : ℕ} {got : List UInt8} (hr : s.receiver = .read goal avail .length count got)
    (hge : ¬ got.length < count) : Inv { s with
      buffer.xTail := moved s.buffer s.buffer.xTail count
      receiver := .taken goal avail (ofLeBytes got) s.buffer.xTail } pending := by
  obtain ⟨hfront, htail, hdrop, m, rest, rfl, havail, hword, rfl, rfl⟩ := h.read_all hr hge
  have hstored := h.stored
  rw [hr] at hstored
  have hfits : m.length < 256 ^ 4 := by
    have hbound := h.stored_lt
    have hmax := h.valid.length_le
    simp only [hstored, Receiver.ahead, List.drop_zero, List.length_append, frames_cons, frame_length] at hbound
    omega
  have hfour : (Piece.length.of m).length = 4 := leBytes_length _ _
  have hahead : s.receiver.ahead = 0 := by rw [hr]; rfl
  rw [show ofLeBytes (Piece.length.of m) = m.length from ofLeBytes_leBytes hfits]
  have hok : (Receiver.taken goal avail m.length s.buffer.xTail).Ok s.buffer.xLength (m :: rest) :=
    ⟨m, rest, rfl, havail, hword, rfl, h.valid.tail_lt⟩
  rcases Receiver.taken_or goal avail m.length s.buffer.xTail with ⟨hback, hzero⟩ | ⟨hnone, hgone⟩
  · refine h.of_tail (k := 0) htail ?_ h.sent h.nonempty ?_ hok
    · rw [hback, Option.getD_some, ← hfront]
      rfl
    · rw [hahead, hzero]
  · refine h.of_tail (k := (Piece.length.of m).length) htail ?_ h.sent h.nonempty ?_ hok
    · rw [hnone]
      exact hdrop
    · rw [hahead, hgone, hfour]

/-- **Put back**: the length stands in the buffer again. -/
theorem restore {goal : Goal} {avail len orig : ℕ} (hr : s.receiver = .taken goal avail len orig)
    (hback : s.receiver.restoring = some orig) : Inv { s with buffer.xTail := orig, receiver := .idle } pending := by
  have hahead : s.receiver.ahead = 0 := by
    rw [hr] at hback ⊢
    rcases Receiver.taken_or goal avail len orig with ⟨-, hzero⟩ | ⟨hnone, -⟩
    · exact hzero
    · rw [hnone] at hback
      cases hback
  refine h.of_tail (k := 0) (h.receiver.restoring_lt hback) ?_ h.sent h.nonempty (by rw [hahead]; rfl) trivial
  show Ring.between _ _ orig _ = s.stored
  rw [Pair.stored, Pair.front, hback, Option.getD_some]

/-- **A length that fits**: the message is read next. -/
theorem keep {n avail len orig : ℕ} (hr : s.receiver = .taken (.receive n) avail len orig) (hn : ¬ len > n) :
    min (Word.sub 32 avail sbBYTES_TO_STORE_MESSAGE_LENGTH) len ≠ 0 ∧
      Inv { s with
        receiver := .read (.receive n) avail .body (min (Word.sub 32 avail sbBYTES_TO_STORE_MESSAGE_LENGTH) len) [] } pending := by
  have hok := h.receiver
  rw [hr] at hok
  obtain ⟨m, rest, rfl, havail, hword, rfl, -⟩ := hok
  have hm : m.length ≠ 0 := List.length_eq_zero_iff.not.mpr (h.nonempty m List.mem_cons_self)
  have hcount : min (Word.sub 32 avail sbBYTES_TO_STORE_MESSAGE_LENGTH) m.length = m.length := by
    rw [Word.sub_of_le (by unfold sbBYTES_TO_STORE_MESSAGE_LENGTH; omega) hword]
    unfold sbBYTES_TO_STORE_MESSAGE_LENGTH
    omega
  rw [hcount]
  refine ⟨hm, h.of_receiver ?_ ?_ ⟨m, rest, rfl, havail, hword, rfl, Nat.zero_le _, rfl⟩⟩
  · rw [hr]
    exact (if_neg hn).symm
  · rw [hr]
    exact (if_neg hn).symm

/-- **A message is received**: the first one of those to come. -/
theorem take_body {goal : Goal} {avail count : ℕ} {got : List UInt8} (hr : s.receiver = .read goal avail .body count got)
    (hge : ¬ got.length < count) : ∃ pending', Inv { s with
      buffer.xTail := moved s.buffer s.buffer.xTail count
      receiver := .idle
      received := s.received ++ [got] } pending' := by
  obtain ⟨-, htail, hdrop, m, rest, rfl, -, -, hgot, rfl⟩ := h.read_all hr hge
  refine ⟨rest, h.of_tail htail hdrop ?_ (fun x hx => h.nonempty x (List.mem_cons_of_mem _ hx)) ?_ trivial⟩
  · rw [h.sent, hgot, List.append_assoc]
    rfl
  · have hahead : s.receiver.ahead = 4 := by rw [hr]; rfl
    rw [hahead, frames_cons, List.append_assoc]
    exact List.drop_left' frame_length

/-- **A step of the receiver.** -/
theorem receiver_step {s' : Pair} (hstep : s.receiverStep = some s') : ∃ pending', Inv s' pending' := by
  unfold Pair.receiverStep at hstep
  cases hr : s.receiver with
  | idle =>
    rw [hr] at hstep
    cases hstep
  | look goal ticks =>
    rw [hr] at hstep
    dsimp only at hstep
    split at hstep
    next hbytes =>
      obtain ⟨m, rest, rfl, hm⟩ := h.first_message hr hbytes
      cases hstep
      have hword := h.valid.length_le
      have hlt := h.valid.contents_lt
      rw [← prvBytesInBuffer_eq h.valid] at hlt
      rw [Nat.min_eq_right hbytes.le]
      exact ⟨m :: rest, h.of_receiver (by rw [hr]; rfl) (by rw [hr]; rfl)
        ⟨m, rest, rfl, hm, by omega, (leBytes_length _ _).symm, Nat.zero_le _, rfl⟩⟩
    next =>
      cases goal with
      | receive n =>
        cases hstep
        cases ticks <;> exact ⟨pending, h.of_receiver (by rw [hr]; rfl) (by rw [hr]; rfl) trivial⟩
      | query =>
        dsimp only at hstep
        split at hstep
        · cases hstep
          exact ⟨pending, h.of_receiver (by rw [hr]; rfl) (by rw [hr]; rfl) trivial⟩
        · cases hstep
  | read goal avail piece count got =>
    rw [hr] at hstep
    dsimp only at hstep
    split at hstep
    next hlt =>
      cases hstep
      exact ⟨pending, h.read_byte hr hlt⟩
    next hge =>
      cases piece with
      | length =>
        cases hstep
        exact ⟨pending, h.take_length hr hge⟩
      | body =>
        cases hstep
        exact h.take_body hr hge
  | taken goal avail len orig =>
    rw [hr] at hstep
    dsimp only at hstep
    cases goal with
    | query =>
      cases hstep
      exact ⟨pending, h.restore hr (by rw [hr]; rfl)⟩
    | receive n =>
      dsimp only at hstep
      split at hstep
      next hn =>
        cases hstep
        exact ⟨pending, h.restore hr (by rw [hr]; exact if_pos hn)⟩
      next hn =>
        obtain ⟨hcount, hkeep⟩ := h.keep hr hn
        rw [if_neg hcount] at hstep
        cases hstep
        exact ⟨pending, hkeep⟩

/-- **Every step** keeps the invariant, where the sender does not look at a tail that goes back. -/
theorem step {s' : Pair} {a : Act} (hcalm : s.Calm a) (hstep : s.step a = some s') : ∃ pending', Inv s' pending' := by
  cases a with
  | sender timeout => exact h.sender_step hcalm hstep
  | receiver => exact h.receiver_step hstep
  | send m ticks =>
    dsimp only [Pair.step] at hstep
    split at hstep
    next hsender =>
      split at hstep
      · cases hstep
        refine ⟨pending, h.of_sender ?_ ?_⟩
        · rw [hsender]
          cases ticks <;> rfl
        · cases ticks <;> trivial
      · cases hstep
    next => cases hstep
  | receive | query =>
    dsimp only [Pair.step] at hstep
    split at hstep
    next hr =>
      cases hstep
      exact ⟨pending, h.of_receiver (by rw [hr]; rfl) (by rw [hr]; rfl) trivial⟩
    next => cases hstep

end Inv

/-! ## Every interleaving -/

/-- **A message buffer loses nothing** over any interleaving in which the sender does not look at a tail that goes back: what has
been sent is what has been received, and whole messages in the buffer, in order. -/
theorem messages_intact (pucBuffer : ℕ → UInt8) {size : ℕ} (xTriggerLevelBytes : ℕ) (hsize : size < 2 ^ 31) {acts : List Act}
    {s : Pair} (h : Run (Guarded Pair.Calm fun s a s' => s.step a = some s') (.init pucBuffer size xTriggerLevelBytes) acts s) :
    s.Intact := by
  have hinit : Inv (.init pucBuffer size xTriggerLevelBytes) [] := by
    refine ⟨⟨Nat.succ_pos _, Nat.succ_pos _, hsize⟩, rfl, fun m hm => absurd hm List.not_mem_nil, ?_, trivial, trivial⟩
    apply List.eq_nil_of_length_eq_zero
    rw [Pair.stored, Ring.between_length]
    exact Nat.sub_self 0
  obtain ⟨pending, hinv⟩ := h.guarded (I := fun s => ∃ pending, Inv s pending) ⟨[], hinit⟩ fun s a s' ⟨_, hs⟩ => hs.step
  exact ⟨pending, hinv.sent, hinv.stored⟩

/-- One message is sent and received. -/
def oneMessage : List Act :=
  [.send [7] false, .receive 4 false] ++ List.replicate 8 (.sender false) ++ List.replicate 9 .receiver

theorem messages_intact_one : ∃ s : Pair, Run (Guarded Pair.Calm fun s a s' => s.step a = some s') (.init (fun _ => 0) 12 1)
    oneMessage s ∧ s.received = [[7]] ∧ s.Intact := by
  have hdone : (oneMessage.foldlM (fun (s : Pair) a => if s.Calm a then s.step a else none) (.init (fun _ => 0) 12 1)).map
      (fun s => s.received) = some [[7]] := by decide +kernel
  obtain ⟨s, hs, hreceived⟩ := Option.map_eq_some_iff.mp hdone
  have hrun : Run (Guarded Pair.Calm fun s a s' => s.step a = some s') (.init (fun _ => 0) 12 1) oneMessage s :=
    .of_foldlM_guarded (fun _ _ _ h => h) hs
  exact ⟨s, hrun, hreceived, messages_intact _ 1 (by decide) hrun⟩

/-- A message of four bytes is sent. A receiver with two bytes of memory takes its length out, a second message is sent, and the
length is put back. -/
def overrun : List Act :=
  .send [1, 2, 3, 4] false :: List.replicate 11 (.sender false) ++ .receive 2 false :: List.replicate 6 .receiver ++
    .send [5, 6, 7, 8] false :: List.replicate 11 (.sender false) ++ [.receiver]

/-- **Both messages are gone**: three bytes are left of sixteen. -/
theorem messages_overwritten : ∃ s : Pair, Run (fun s a s' => s.step a = some s') (.init (fun _ => 0) 12 1) overrun s ∧
    s.stored.length = 3 ∧ ¬ s.Intact := by
  obtain ⟨s, hs, hsent, hreceived, hreceiver, hsender, hlength⟩ : ∃ s,
      overrun.foldlM Pair.step (Pair.init (fun _ => 0) 12 1) = some s ∧ s.sent = [[1, 2, 3, 4], [5, 6, 7, 8]] ∧
        s.received = [] ∧ s.receiver = .idle ∧ s.sender = .idle ∧ s.stored.length = 3 :=
    ⟨_, rfl, rfl, rfl, rfl, rfl, rfl⟩
  refine ⟨s, .of_foldlM (fun _ _ _ h => h) hs, hlength, ?_⟩
  rintro ⟨pending, hpending, hstored⟩
  rw [hsent, hreceived, List.nil_append] at hpending
  rw [hreceiver, hsender, ← hpending] at hstored
  rw [hstored] at hlength
  exact absurd hlength (by decide)

end CoreLink.FreeRtos.StreamBufferPair
