/-
# `CoreLink.RtThread.RingbufferForce` — `rt_ringbuffer_put_force`, which discards old bytes.

A block that is longer than the space moves the read position on to the write position. The buffer is full then, so the
two mirror bits have to differ. The function turns the bit of the read position whenever the write position goes over the
end; if the read position was behind that end already, this is right, and otherwise the bits are equal afterwards and
the buffer is empty.
-/
import CoreLink.RtThread.Ringbuffer
import Mathlib.Data.List.DropRight

namespace CoreLink.RtThread

open CoreLink.Lib

variable {V : Type*}

namespace Ringbuffer

/-! ## The source -/

/-- The end of `rt_ringbuffer_put_force`, for the `length` bytes from `ptr` on that are put in. -/
def putForceBytes (rb : Ringbuffer V) (ptr : Nat → V) (length spaceLength : Nat) : Ringbuffer V :=
  if rb.bufferSize - rb.writeIndex > length then
    let rb := { rb with
      bufferPtr := copy rb.bufferPtr rb.writeIndex ptr 0 length
      writeIndex := (rb.writeIndex + length) % 2 ^ 15 }
    if length > spaceLength then { rb with readIndex := rb.writeIndex } else rb
  else
    let rb := { rb with
      bufferPtr := copy (copy rb.bufferPtr rb.writeIndex ptr 0 (rb.bufferSize - rb.writeIndex)) 0 ptr
        (rb.bufferSize - rb.writeIndex) (length - (rb.bufferSize - rb.writeIndex))
      writeMirror := !rb.writeMirror
      writeIndex := (length - (rb.bufferSize - rb.writeIndex)) % 2 ^ 15 }
    if length > spaceLength then { rb with readMirror := !rb.readMirror, readIndex := rb.writeIndex } else rb

/-- `rt_ringbuffer_put_force`: the buffer, and the value returned. -/
def rtRingbufferPutForce (rb : Ringbuffer V) (ptr : Nat → V) (length : UInt16) : Ringbuffer V × Nat :=
  let spaceLength := rb.rtRingbufferSpaceLen % 2 ^ 16
  if length.toNat > rb.bufferSize then
    (rb.putForceBytes (fun i => ptr (length.toNat - rb.bufferSize + i)) rb.bufferSize spaceLength, rb.bufferSize)
  else (rb.putForceBytes ptr length.toNat spaceLength, length.toNat)

/-- A call of those in `RbCall`, or of `rt_ringbuffer_put_force`. In a pool that is too short for a single aligned word,
`rt_ringbuffer_putchar_force` writes outside of it. -/
inductive RbForceCall (V : Type*) where
  | call (c : RbCall V)
  | putForce (ptr : Nat → V) (length : UInt16)

/-- The steps of the buffer with `rt_ringbuffer_put_force` among the calls. -/
def ForceStep (rb : Ringbuffer V) : RbForceCall V → Ringbuffer V → Prop
  | .call c, rb' => (∀ ch, c = .putcharForce ch → 0 < rb.bufferSize) ∧ rb' = (rb.exec c).1
  | .putForce ptr length, rb' => rb' = (rb.rtRingbufferPutForce ptr length).1

/-! ## Where the bytes go -/

section Bytes

variable {rb : Ringbuffer V} {ptr : Nat → V} {n : Nat}

/-- Without discarding, it is `rt_ringbuffer_put`. -/
theorem putForceBytes_of_space (hn : n ≤ rb.rtRingbufferSpaceLen) :
    rb.putForceBytes ptr n rb.rtRingbufferSpaceLen = rb.putBytes ptr n := by
  unfold putForceBytes putBytes
  rw [if_neg (Nat.not_lt.mpr hn), if_neg (Nat.not_lt.mpr hn)]

/-- **Where the bytes go over the end of the buffer** and so does what was there, it takes the oldest bytes out and puts
the new ones in. -/
theorem putForceBytes_of_other (h : rb.Valid) (hm : rb.readMirror = !rb.writeMirror) (hn : n ≤ rb.bufferSize)
    (hspace : rb.rtRingbufferSpaceLen < n) :
    rb.putForceBytes ptr n rb.rtRingbufferSpaceLen =
      (rb.getBytes ptr (n - rb.rtRingbufferSpaceLen)).1.putBytes ptr n := by
  have hlen := h.dataLen_other hm
  have hle := h.dataLen_le
  have hsize := h.size_lt
  have hr := h.read_lt
  have hw := h.write_lt
  have hwr : rb.writeIndex ≤ rb.readIndex := by
    rcases h.order with ho | ho
    · exact absurd (ho.1.symm.trans hm) (by simp)
    · exact ho.2
  unfold rtRingbufferSpaceLen at hspace ⊢
  obtain ⟨hget, -⟩ := h.getBytes ptr (n - (rb.bufferSize - rb.rtRingbufferDataLen)) (by omega)
  rw [getBytes_eq h (by omega)] at hget ⊢
  -- both positions go over the end, or none does
  have hpos : rb.readIndex + (n - (rb.bufferSize - rb.rtRingbufferDataLen)) = rb.writeIndex + n := by omega
  rw [hpos] at hget ⊢
  rw [putBytes_eq hget hn]
  unfold putForceBytes
  by_cases hlt : rb.writeIndex + n < rb.bufferSize
  · rw [if_pos (by omega)]
    simp only [if_pos hlt, if_pos hspace, Ring.copyIn_of_le (show n ≤ rb.bufferSize - rb.writeIndex by omega),
      Nat.mod_eq_of_lt (show rb.writeIndex + n < 2 ^ 15 by omega)]
  · have hmin : min n (rb.bufferSize - rb.writeIndex) = rb.bufferSize - rb.writeIndex := by omega
    have hind : (n - (rb.bufferSize - rb.writeIndex)) % 2 ^ 15 = rb.writeIndex + n - rb.bufferSize := by
      rw [Nat.mod_eq_of_lt (by omega)]
      omega
    rw [if_neg (by omega)]
    unfold Ring.copyIn
    simp only [if_neg hlt, if_pos hspace, hind, hmin, Nat.zero_add]

variable (ptr) in
/-- **Where what was there does not go over the end**, the buffer is empty afterwards. -/
theorem putForceBytes_of_same (h : rb.Valid) (hm : rb.readMirror = rb.writeMirror) (hn : n ≤ rb.bufferSize)
    (hspace : rb.rtRingbufferSpaceLen < n) :
    (rb.putForceBytes ptr n rb.rtRingbufferSpaceLen).Valid ∧
      (rb.putForceBytes ptr n rb.rtRingbufferSpaceLen).rtRingbufferDataLen = 0 := by
  have hlen := h.dataLen_same hm
  have hsize := h.size_lt
  have hr := h.read_lt
  have hw := h.write_lt
  unfold rtRingbufferSpaceLen at hspace ⊢
  have hind : (n - (rb.bufferSize - rb.writeIndex)) % 2 ^ 15 < rb.bufferSize := by
    rw [Nat.mod_eq_of_lt (by omega)]
    omega
  unfold putForceBytes
  rw [if_neg (by omega)]
  simp only [if_pos hspace]
  refine ⟨⟨hsize, hind, hind, .inl ⟨by rw [hm], Nat.le_refl _⟩⟩, ?_⟩
  unfold rtRingbufferDataLen rtRingbufferStatus
  simp [hm]

variable (ptr) in
/-- **The bytes afterwards**, where the call does not empty the buffer. -/
theorem putForceBytes_contents (h : rb.Valid) (hn : n ≤ rb.bufferSize)
    (hgood : rb.readMirror = (!rb.writeMirror) ∨ n ≤ rb.rtRingbufferSpaceLen) :
    (rb.putForceBytes ptr n rb.rtRingbufferSpaceLen).Valid ∧
      (rb.putForceBytes ptr n rb.rtRingbufferSpaceLen).contents =
        rb.contents.drop (n - rb.rtRingbufferSpaceLen) ++ block ptr 0 n := by
  have hle := h.dataLen_le
  have hspace : rb.rtRingbufferSpaceLen = rb.bufferSize - rb.rtRingbufferDataLen := rfl
  by_cases hlt : rb.rtRingbufferSpaceLen < n
  · have hm := hgood.resolve_right (Nat.not_le.mpr hlt)
    rw [putForceBytes_of_other h hm hn hlt]
    obtain ⟨hget, hsize, hcontents, -⟩ := h.getBytes ptr (n - rb.rtRingbufferSpaceLen) (by omega)
    have hroom : (rb.getBytes ptr (n - rb.rtRingbufferSpaceLen)).1.rtRingbufferDataLen + n ≤
        (rb.getBytes ptr (n - rb.rtRingbufferSpaceLen)).1.bufferSize := by
      rw [← contents_length, hcontents, List.length_drop, contents_length, hsize]
      omega
    obtain ⟨hput, -, hbytes⟩ := hget.putBytes ptr n hroom
    exact ⟨hput, by rw [hbytes, hcontents]⟩
  · have hle' := Nat.not_lt.mp hlt
    rw [putForceBytes_of_space hle', Nat.sub_eq_zero_of_le hle', List.drop_zero]
    obtain ⟨hput, -, hbytes⟩ := h.putBytes ptr n (by omega)
    exact ⟨hput, hbytes⟩

end Bytes

/-! ## The newest bytes -/

/-- What is kept of two pieces, in a buffer of `size` bytes. -/
theorem rtake_append (d x : List V) (size : Nat) :
    (d ++ x).rtake (min size (d.length + x.length)) =
      d.drop (min x.length size + d.length - size) ++ x.drop (x.length - size) := by
  have htotal : (d ++ x).length - min size (d.length + x.length) = d.length + x.length - size := by
    rw [List.length_append]
    omega
  rw [List.rtake, htotal, List.drop_append]
  by_cases hx : x.length ≤ size
  · congr 2
    · omega
    · omega
  · have hall : d.drop (d.length + x.length - size) = [] := List.drop_eq_nil_of_le (by omega)
    have hall' : d.drop (min x.length size + d.length - size) = [] := List.drop_eq_nil_of_le (by omega)
    rw [hall, hall']
    congr 2
    omega

theorem block_drop (cells : Nat → V) (n k : Nat) : (block cells 0 n).drop k = block (fun i => cells (k + i)) 0 (n - k) := by
  refine List.ext_getElem (by simp) fun i hi hi' => ?_
  simp [block]

/-- **What the call is to do**: the newest bytes of what was there and the block are in the buffer, as many as it can
have. -/
def KeepsNewest (rb : Ringbuffer V) (ptr : Nat → V) (length : UInt16) : Prop :=
  let n := min rb.bufferSize (rb.contents.length + length.toNat)
  (rb.rtRingbufferPutForce ptr length).1.contents = (rb.contents ++ block ptr 0 length.toNat).rtake n ∧
    (rb.rtRingbufferPutForce ptr length).1.rtRingbufferDataLen = n

/-- The block is longer than the space, and the bytes in the buffer, one at least, do not go over its end. -/
def Empties (rb : Ringbuffer V) (length : UInt16) : Prop :=
  (rb.readMirror = rb.writeMirror ∧ 0 < rb.rtRingbufferDataLen) ∧ rb.rtRingbufferSpaceLen < length.toNat

section Newest

variable {rb : Ringbuffer V}

/-- The call, in one: the bytes that are put in are the last ones of the block. -/
theorem rtRingbufferPutForce_eq (h : rb.Valid) (ptr : Nat → V) (length : UInt16) :
    ∃ ptr' : Nat → V, (rb.rtRingbufferPutForce ptr length).1 =
        rb.putForceBytes ptr' (min length.toNat rb.bufferSize) rb.rtRingbufferSpaceLen ∧
      block ptr' 0 (min length.toNat rb.bufferSize) = (block ptr 0 length.toNat).drop (length.toNat - rb.bufferSize) := by
  have hsize := h.size_lt
  have hspace : rb.rtRingbufferSpaceLen % 2 ^ 16 = rb.rtRingbufferSpaceLen := by
    unfold rtRingbufferSpaceLen
    exact Nat.mod_eq_of_lt (by omega)
  unfold rtRingbufferPutForce
  simp only [hspace]
  by_cases hlt : length.toNat > rb.bufferSize
  · rw [if_pos hlt, Nat.min_eq_right (Nat.le_of_lt hlt), block_drop,
      show length.toNat - (length.toNat - rb.bufferSize) = rb.bufferSize by omega]
    exact ⟨_, rfl, rfl⟩
  · rw [if_neg hlt, Nat.min_eq_left (Nat.not_lt.mp hlt), Nat.sub_eq_zero_of_le (Nat.not_lt.mp hlt), List.drop_zero]
    exact ⟨_, rfl, rfl⟩

/-- **The newest bytes are kept** unless the call empties the buffer. -/
theorem keepsNewest_iff (h : rb.Valid) (ptr : Nat → V) (length : UInt16) :
    (rb.rtRingbufferPutForce ptr length).1.Valid ∧ (rb.KeepsNewest ptr length ↔ ¬ rb.Empties length) := by
  have hle := h.dataLen_le
  have hr := h.read_lt
  have hspace : rb.rtRingbufferSpaceLen = rb.bufferSize - rb.rtRingbufferDataLen := rfl
  obtain ⟨ptr', heq, hblock⟩ := rtRingbufferPutForce_eq h ptr length
  unfold KeepsNewest Empties
  rw [heq]
  dsimp only
  by_cases hbad : (rb.readMirror = rb.writeMirror ∧ 0 < rb.rtRingbufferDataLen) ∧ rb.rtRingbufferSpaceLen < length.toNat
  · obtain ⟨hvalid, hzero⟩ := putForceBytes_of_same ptr' h hbad.1.1 (Nat.min_le_right length.toNat _)
      (by omega)
    refine ⟨hvalid, fun hkeep => ?_, fun hnot => absurd hbad hnot⟩
    -- there would be a byte at least
    have hn := hkeep.2
    rw [hzero, contents_length] at hn
    omega
  · have hgood : rb.readMirror = (!rb.writeMirror) ∨ min length.toNat rb.bufferSize ≤ rb.rtRingbufferSpaceLen := by
      rcases h.order with ⟨hm, -⟩ | ⟨hm, -⟩
      · refine .inr ?_
        by_cases hdata : 0 < rb.rtRingbufferDataLen
        · have hlt := not_and.mp hbad ⟨hm, hdata⟩
          omega
        · omega
      · exact .inl hm
    obtain ⟨hvalid, hcontents⟩ := putForceBytes_contents ptr' h (Nat.min_le_right length.toNat _) hgood
    have htake := rtake_append rb.contents (block ptr 0 length.toNat) rb.bufferSize
    rw [block_length, contents_length] at htake
    refine ⟨hvalid, fun _ => hbad, fun _ => ?_⟩
    have hcount := congrArg List.length hcontents
    rw [contents_length, List.length_append, List.length_drop, contents_length, block_length] at hcount
    rw [contents_length, htake, hcontents, hcount, hblock]
    refine ⟨?_, by omega⟩
    congr 2
    omega

end Newest

/-! ## Runs -/

/-- The states that are reached: the positions are in the buffer, or it is too short for a byte. -/
def Reached (rb : Ringbuffer V) : Prop :=
  rb.Valid ∨ (rb.bufferSize = 0 ∧ rb.readIndex = 0) ∧ rb.writeIndex = 0

section Runs

variable {rb rb' : Ringbuffer V}

theorem dataLen_of_zero (h : rb.bufferSize = 0 ∧ rb.readIndex = 0) (hw : rb.writeIndex = 0) :
    rb.rtRingbufferDataLen = 0 := by
  unfold rtRingbufferDataLen rtRingbufferStatus
  by_cases hm : rb.readMirror = rb.writeMirror
  · simp [h.2, hw, hm]
  · simp [h.1, h.2, hw, hm]

/-- In a buffer for no byte, the call turns the write position around. -/
theorem putForce_of_zero (h : rb.bufferSize = 0 ∧ rb.readIndex = 0) (hw : rb.writeIndex = 0) (ptr : Nat → V)
    (length : UInt16) :
    ((rb.rtRingbufferPutForce ptr length).1.bufferSize = 0 ∧ (rb.rtRingbufferPutForce ptr length).1.readIndex = 0) ∧
      (rb.rtRingbufferPutForce ptr length).1.writeIndex = 0 := by
  have hput : ∀ ptr : Nat → V, ((rb.putForceBytes ptr 0 0).bufferSize = 0 ∧ (rb.putForceBytes ptr 0 0).readIndex = 0) ∧
      (rb.putForceBytes ptr 0 0).writeIndex = 0 := fun ptr => by
    unfold putForceBytes
    rw [h.1, if_neg (by omega)]
    simp [h.2]
  have hspace : rb.rtRingbufferSpaceLen % 2 ^ 16 = 0 := by
    unfold rtRingbufferSpaceLen
    rw [h.1, Nat.zero_sub, Nat.zero_mod]
  unfold rtRingbufferPutForce
  simp only [hspace, h.1]
  split_ifs with hlt
  · exact hput _
  · rw [Nat.eq_zero_of_not_pos hlt]
    exact hput _

theorem Reached.init (pool : Nat → V) {size : Nat} (h15 : size < 2 ^ 15) : (rtRingbufferInit pool size).Reached := by
  by_cases h4 : 4 ≤ size
  · exact .inl (.init pool h4 h15)
  · have halign : (rtRingbufferInit pool size).bufferSize = size / 4 * 4 := Word.alignDown_eq (by decide) (by omega)
    exact .inr ⟨⟨by omega, rfl⟩, rfl⟩

/-- **One call** keeps the positions in the buffer. -/
theorem Reached.step {c : RbForceCall V} (h : rb.Reached) (hstep : ForceStep rb c rb') : rb'.Reached := by
  cases c with
  | putForce ptr length =>
      obtain rfl := hstep
      rcases h with hv | ⟨hr, hw⟩
      · exact .inl (keepsNewest_iff hv ptr length).1
      · exact .inr (putForce_of_zero hr hw ptr length)
  | call c =>
      obtain ⟨hforce, rfl⟩ := hstep
      rcases h with hv | ⟨hr, hw⟩
      · exact .inl (exec_refines hv c).1
      · have hdata := dataLen_of_zero hr hw
        have hspace : rb.rtRingbufferSpaceLen = 0 := by
          unfold rtRingbufferSpaceLen
          rw [hr.1, Nat.zero_sub]
        have hsame : (rb.exec c).1 = rb := by
          cases c with
          | put ptr length => simp [exec, rtRingbufferPut, hspace]
          | putchar ch => simp [exec, rtRingbufferPutchar, hspace]
          | putcharForce ch => exact absurd (hforce ch rfl) (by omega)
          | get ptr length => simp [exec, rtRingbufferGet, hdata]
          | getchar ch => simp [exec, rtRingbufferGetchar, hdata]
        rw [hsame]
        exact .inr ⟨hr, hw⟩

/-- **`rt_ringbuffer_put_force` keeps the newest bytes** in every state that is reached from the initialisation, for every
block, if and only if it does not empty the buffer: the block is not longer than the space, or the bytes in the buffer go
over its end, or there are none. -/
theorem put_force_keeps_newest (pool : Nat → V) (size : Nat) (h15 : size < 2 ^ 15) (cs : List (RbForceCall V))
    (hrun : Run ForceStep (rtRingbufferInit pool size) cs rb) (ptr : Nat → V) (length : UInt16) :
    rb.KeepsNewest ptr length ↔ ¬ rb.Empties length := by
  have h : rb.Reached := hrun.invariant (.init pool h15) fun _ _ _ h hstep => h.step hstep
  rcases h with hv | ⟨hr, hw⟩
  · exact (keepsNewest_iff hv ptr length).2
  · -- there is no room for a byte, and so none is kept
    have hdata := dataLen_of_zero hr hw
    obtain ⟨hr', hw'⟩ := putForce_of_zero hr hw ptr length
    have hdata' := dataLen_of_zero hr' hw'
    have hnil : (rb.rtRingbufferPutForce ptr length).1.contents = [] :=
      List.eq_nil_of_length_eq_zero (contents_length.trans hdata')
    refine ⟨fun _ hbad => absurd hbad.1.2 (by omega), fun _ => ?_⟩
    unfold KeepsNewest
    dsimp only
    rw [hr.1, hnil, hdata', Nat.zero_min, List.rtake_zero]
    exact ⟨rfl, rfl⟩

/-- Two bytes for a full buffer of four: the two oldest ones give way. -/
theorem put_force_keeps_newest_run : ∃ rb : Ringbuffer Nat,
    Run ForceStep (rtRingbufferInit (fun _ => 0) 4) [.call (.put id 4)] rb ∧ rb.KeepsNewest (· + 7) 2 := by
  let rb : Ringbuffer Nat := ((rtRingbufferInit (fun _ => 0) 4).exec (.put id 4)).1
  have hrun : Run ForceStep (rtRingbufferInit (fun _ => 0) 4) [.call (.put id 4)] rb := .single ⟨nofun, rfl⟩
  have hmirror : rb.readMirror ≠ rb.writeMirror := by decide +kernel
  exact ⟨rb, hrun, (put_force_keeps_newest _ 4 (by decide) _ hrun _ 2).mpr fun h => hmirror h.1.1⟩

/-- **Two bytes for a buffer of four that has three**: none is left. -/
theorem put_force_empties : ∃ rb : Ringbuffer Nat,
    Run ForceStep (rtRingbufferInit (fun _ => 0) 4) [.call (.put id 3)] rb ∧
      (rb.rtRingbufferPutForce (· + 7) 2).1.rtRingbufferDataLen = 0 ∧ ¬ rb.KeepsNewest (· + 7) 2 := by
  let rb : Ringbuffer Nat := ((rtRingbufferInit (fun _ => 0) 4).exec (.put id 3)).1
  have hdata : (rb.rtRingbufferPutForce (· + 7) 2).1.rtRingbufferDataLen = 0 := by decide +kernel
  have hn : min rb.bufferSize (rb.contents.length + (2 : UInt16).toNat) = 4 := by decide +kernel
  refine ⟨rb, .single ⟨nofun, rfl⟩, hdata, fun hkeep => ?_⟩
  have hlen := hkeep.2
  rw [hdata, hn] at hlen
  cases hlen

end Runs

end Ringbuffer

end CoreLink.RtThread
