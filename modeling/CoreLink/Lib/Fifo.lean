/-
# `CoreLink.Lib.Fifo` — bounded queues, and the ring of cells that holds one.

A bounded FIFO is a list that grows at the end and shrinks at the front. Its events carry the value that went in or
came out, so that what went in and what came out are read off a run: `Fifo.run_puts` says that the one is the other
and the contents behind it.

A ring is an array of `size` cells of which `count` are in use, from the cell `out` on and around the end. `Ring.contents`
reads them in order; the lemmas say what writing the next cell, and leaving out the first one, do to it.
-/
import CoreLink.Lib.Run
import Mathlib.Data.List.Basic
import Mathlib.Data.Nat.ModEq

namespace CoreLink.Lib

variable {α : Type*}

/-! ## Bounded queues -/

/-- What happens to a queue: a value goes in, or comes out. -/
inductive FifoEvent (α : Type*) where
  | put (x : α)
  | get (x : α)

namespace Fifo

/-- The steps of a queue of at most `size` values. -/
inductive Step (size : Nat) : List α → FifoEvent α → List α → Prop
  | put {xs : List α} {x : α} (h : xs.length < size) : Step size xs (.put x) (xs ++ [x])
  | get {xs : List α} {x : α} : Step size (x :: xs) (.get x) xs

/-- The values that went in, in order. -/
def puts (es : List (FifoEvent α)) : List α :=
  es.filterMap fun
    | .put x => some x
    | .get _ => none

/-- The values that came out, in order. -/
def gets (es : List (FifoEvent α)) : List α :=
  es.filterMap fun
    | .put _ => none
    | .get x => some x

@[simp] theorem puts_append (es es' : List (FifoEvent α)) : puts (es ++ es') = puts es ++ puts es' :=
  List.filterMap_append

@[simp] theorem gets_append (es es' : List (FifoEvent α)) : gets (es ++ es') = gets es ++ gets es' :=
  List.filterMap_append

@[simp] theorem puts_put (x : α) : puts [.put x] = [x] := rfl
@[simp] theorem puts_get (x : α) : puts [.get x] = [] := rfl
@[simp] theorem gets_put (x : α) : gets [.put x] = [] := rfl
@[simp] theorem gets_get (x : α) : gets [.get x] = [x] := rfl

/-- **What went in is what came out and what is still there, in this order**, and the bound is kept. -/
theorem run_puts {size : Nat} {es : List (FifoEvent α)} {xs : List α} (h : Run (Step size) [] es xs) :
    puts es = gets es ++ xs ∧ xs.length ≤ size := by
  induction h with
  | nil => exact ⟨rfl, Nat.zero_le _⟩
  | snoc _ hs ih =>
      obtain ⟨ih, hlen⟩ := ih
      cases hs with
      | put hroom => exact ⟨by simp [ih], by rw [List.length_append]; exact hroom⟩
      | get => exact ⟨by simp [ih], by simp only [List.length_cons] at hlen; omega⟩

end Fifo

/-! ## Rings -/

namespace Ring

/-- The `count` cells from `out` on, in a ring of `size` cells. -/
def contents (size : Nat) (cells : Nat → α) (out count : Nat) : List α :=
  (List.range count).map fun i => cells ((out + i) % size)

variable {size out count : Nat} {cells : Nat → α}

@[simp] theorem contents_length : (contents size cells out count).length = count := by simp [contents]

@[simp] theorem contents_zero : contents size cells out 0 = [] := rfl

/-- The index behind `i`, where the wrap-around is a comparison. -/
theorem wrap_succ {i : Nat} (hi : i < size) : (if size ≤ i + 1 then 0 else i + 1) = (i + 1) % size := by
  split
  next h =>
    have he : i + 1 = size := by omega
    rw [he, Nat.mod_self]
  next h => exact (Nat.mod_eq_of_lt (by omega)).symm

/-- Different offsets below the size are different cells. -/
theorem offset_inj {i j : Nat} (hi : i < size) (hj : j < size) (h : (out + i) % size = (out + j) % size) : i = j := by
  have hmod : i ≡ j [MOD size] := Nat.ModEq.add_left_cancel' out h
  exact hmod.eq_of_lt_of_lt hi hj

/-- Writing the cell behind the last one in use appends to the contents. -/
theorem contents_put (x : α) (h : count < size) :
    contents size (Function.update cells ((out + count) % size) x) out (count + 1) =
      contents size cells out count ++ [x] := by
  unfold contents
  rw [List.range_succ, List.map_append]
  congr 1
  · refine List.map_congr_left fun i hi => ?_
    have hlt : i < count := List.mem_range.mp hi
    have hne : (out + i) % size ≠ (out + count) % size := fun he =>
      absurd (offset_inj (by omega) h he) (by omega)
    exact Function.update_of_ne hne _ _
  · simp

/-- Leaving out the first cell removes the head of the contents. -/
theorem contents_get (hout : out < size) :
    contents size cells out (count + 1) = cells out :: contents size cells ((out + 1) % size) count := by
  unfold contents
  rw [List.range_succ_eq_map, List.map_cons, List.map_map, Nat.add_zero, Nat.mod_eq_of_lt hout]
  congr 1
  refine List.map_congr_left fun i _ => ?_
  show cells ((out + (i + 1)) % size) = cells (((out + 1) % size + i) % size)
  rw [Nat.mod_add_mod, Nat.add_assoc, Nat.add_comm 1 i]

/-- The cell behind the last one in use moves on with what is put in. -/
theorem offset_put : ((out + count) % size + 1) % size = (out + (count + 1)) % size := by
  rw [Nat.mod_add_mod, Nat.add_assoc]

/-- The cell behind the last one in use stays where it is when one is taken out in front. -/
theorem offset_get : ((out + 1) % size + count) % size = (out + (count + 1)) % size := by
  rw [Nat.mod_add_mod, Nat.add_assoc, Nat.add_comm 1 count]

end Ring

end CoreLink.Lib
