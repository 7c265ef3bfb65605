/-
# `CoreLink.Lib.Frames` — messages with their length in front, in bytes.

A length is written in `k` bytes, the least significant first. A frame is a length and the bytes of the message, and a stream of
frames is read back from its front, since each of them says where the next one begins.
-/
import Mathlib.Data.List.Basic
import Mathlib.Tactic.Ring

namespace CoreLink.Lib

/-! ## Numbers -/

/-- The `k` low bytes of a number. -/
def leBytes : ℕ → ℕ → List UInt8
  | 0, _ => []
  | k + 1, n => UInt8.ofNat n :: leBytes k (n / 256)

/-- The number that has these bytes. -/
def ofLeBytes : List UInt8 → ℕ
  | [] => 0
  | b :: bs => b.toNat + 256 * ofLeBytes bs

@[simp] theorem leBytes_length (k n : ℕ) : (leBytes k n).length = k := by
  induction k generalizing n with
  | zero => rfl
  | succ k ih => rw [leBytes, List.length_cons, ih]

theorem ofLeBytes_leBytes {k n : ℕ} (hn : n < 256 ^ k) : ofLeBytes (leBytes k n) = n := by
  induction k generalizing n with
  | zero =>
    rw [pow_zero] at hn
    rw [leBytes, ofLeBytes]
    omega
  | succ k ih =>
    have hrest : n / 256 < 256 ^ k := by
      rw [pow_succ] at hn
      exact Nat.div_lt_of_lt_mul (by rwa [mul_comm])
    rw [leBytes, ofLeBytes, ih hrest, UInt8.toNat_ofNat']
    omega

/-! ## Frames -/

variable {k : ℕ} {m : List UInt8} {ms ms' : List (List UInt8)}

/-- A message behind its length. -/
def frame (k : ℕ) (m : List UInt8) : List UInt8 := leBytes k m.length ++ m

/-- **The stream** of the messages. -/
def frames (k : ℕ) (ms : List (List UInt8)) : List UInt8 := ms.flatMap (frame k)

@[simp] theorem frame_length : (frame k m).length = k + m.length := by
  rw [frame, List.length_append, leBytes_length]

@[simp] theorem frames_nil : frames k [] = [] := rfl

theorem frames_cons : frames k (m :: ms) = frame k m ++ frames k ms := List.flatMap_cons

theorem frames_append : frames k (ms ++ ms') = frames k ms ++ frames k ms' := List.flatMap_append

theorem frames_snoc : frames k (ms ++ [m]) = frames k ms ++ frame k m := by
  rw [frames_append, frames_cons, frames_nil, List.append_nil]

/-- In front stands the length of the first message. -/
theorem take_frames_cons : (frames k (m :: ms)).take k = leBytes k m.length := by
  rw [frames_cons, frame, List.append_assoc]
  exact List.take_left' (leBytes_length k _)

/-- Behind the length stands the message. -/
theorem drop_frames_cons : (frames k (m :: ms)).drop k = m ++ frames k ms := by
  rw [frames_cons, frame, List.append_assoc]
  exact List.drop_left' (leBytes_length k _)

/-- **A stream with a message in it** is longer than a length. -/
theorem lt_frames_length (hne : ∀ m ∈ ms, m ≠ []) (hms : ms ≠ []) : k < (frames k ms).length := by
  cases ms with
  | nil => exact absurd rfl hms
  | cons m ms =>
    have hpos : 0 < m.length := List.length_pos_of_ne_nil (hne m List.mem_cons_self)
    rw [frames_cons, List.length_append, frame_length]
    omega

end CoreLink.Lib
