/-
# `CoreLink.Lib.Buffer` — an array of fixed length, written with `memmove` and `memcpy`.

An operation that would touch a cell outside of the array has no result. The rules say what the operations do to an array that is
written as parts one behind the other, the way a buffer with a gap in it is used.
-/
import CoreLink.Lib.Terminated

namespace CoreLink.Lib.Buffer

variable {α : Type*} {a b r w : List α} {x z : α}

/-- `cells[i] = x`. -/
def store (cells : List α) (i : ℕ) (x : α) : Option (List α) := if i < cells.length then some (cells.set i x) else none

/-- `memcpy(cells, w, n)`, with the `n` bytes `w`. -/
def memcpy (cells w : List α) : Option (List α) := if w.length ≤ cells.length then some (w ++ cells.drop w.length) else none

/-- `memmove(cells + dst, cells + src, n)`. -/
def memmove (cells : List α) (dst src n : ℕ) : Option (List α) :=
  if dst + n ≤ cells.length ∧ src + n ≤ cells.length then
    some (cells.take dst ++ ((cells.drop src).take n ++ cells.drop (dst + n)))
  else none

/-- The bytes that `strncpy(dst, w, n)` writes: the string, and `z` for what is left of the `n`. -/
def padded (z : α) (w : List α) (n : ℕ) : List α := (w ++ List.replicate n z).take n

theorem store_append (a : List α) (z : α) (r : List α) (x : α) : store (a ++ z :: r) a.length x = some (a ++ x :: r) := by
  have hin : a.length < (a ++ z :: r).length := by simp
  rw [store, if_pos hin, List.set_append_right _ _ (Nat.le_refl _), Nat.sub_self, List.set_cons_zero]

theorem memcpy_append (h : w.length = a.length) : memcpy (a ++ r) w = some (w ++ r) := by
  rw [memcpy, if_pos (by simp [h]), h, List.drop_left]

/-- **Opening a gap** behind `a`. -/
theorem memmove_up : memmove (a ++ (b ++ z :: r)) (a.length + 1) a.length b.length =
    some (a ++ (b ++ [z]).head (by simp) :: (b ++ r)) := by
  have hin : a.length + 1 + b.length ≤ (a ++ (b ++ z :: r)).length ∧ a.length + b.length ≤ (a ++ (b ++ z :: r)).length := by
    simp only [List.length_append, List.length_cons]
    omega
  have hsource : ((a ++ (b ++ z :: r)).drop a.length).take b.length = b := by simp
  have hrest : (a ++ (b ++ z :: r)).drop (a.length + 1 + b.length) = r := by
    rw [show a.length + 1 + b.length = a.length + (b.length + 1) by omega, List.drop_length_add_append,
      List.drop_length_add_append]
    rfl
  have hfirst : (a ++ (b ++ z :: r)).take (a.length + 1) = a ++ [(b ++ [z]).head (by simp)] := by
    rw [List.take_length_add_append]
    cases b <;> rfl
  rw [memmove, if_pos hin, hsource, hrest, hfirst]
  simp

/-- **Closing a gap** of one cell behind `a`. -/
theorem memmove_down : memmove (a ++ x :: (b ++ r)) a.length (a.length + 1) b.length =
    some (a ++ (b ++ (x :: b).getLast (by simp) :: r)) := by
  have hin : a.length + b.length ≤ (a ++ x :: (b ++ r)).length ∧ a.length + 1 + b.length ≤ (a ++ x :: (b ++ r)).length := by
    simp only [List.length_append, List.length_cons]
    omega
  have hsource : ((a ++ x :: (b ++ r)).drop (a.length + 1)).take b.length = b := by
    rw [List.drop_length_add_append]
    simp
  have hrest : (a ++ x :: (b ++ r)).drop (a.length + b.length) = (x :: b).getLast (by simp) :: r := by
    rw [List.drop_length_add_append]
    have hcut : x :: b = (x :: b).dropLast ++ [(x :: b).getLast (by simp)] := (List.dropLast_append_getLast _).symm
    have hlength : (x :: b).dropLast.length = b.length := by simp
    calc (x :: (b ++ r)).drop b.length
        = ((x :: b) ++ r).drop b.length := rfl
      _ = ((x :: b).dropLast ++ ([(x :: b).getLast (by simp)] ++ r)).drop b.length := by rw [← List.append_assoc, ← hcut]
      _ = (x :: b).getLast (by simp) :: r := by rw [← hlength, List.drop_left]; rfl
  rw [memmove, if_pos hin, hsource, hrest, List.take_left]

/-- **Inserting**: the gap is opened and `x` stored into it. -/
theorem insert_eq : (memmove (a ++ (b ++ z :: r)) (a.length + 1) a.length b.length).bind (store · a.length x) =
    some (a ++ (x :: b ++ r)) := by
  rw [memmove_up, Option.bind_some, store_append]
  rfl

/-- **Deleting**: the gap is closed and `z` stored behind what moved. -/
theorem delete_eq :
    (memmove (a ++ x :: (b ++ r)) a.length (a.length + 1) b.length).bind (store · (a.length + b.length) z) =
      some (a ++ (b ++ z :: r)) := by
  rw [memmove_down, Option.bind_some, ← List.length_append, ← List.append_assoc, store_append, List.append_assoc]

end CoreLink.Lib.Buffer
