/-
# `CoreLink.Lib.Counters` — an array of cells that two free-running counters walk around.

The counters are words of `w` bits that are only ever counted up (or down again); a counter modulo the size of the array
is the cell it stands for. Where the size does not divide `2 ^ w`, the cells do not follow on each other at the
wrap-around of a counter, and the cell that is next may be one that is in use.

`window` reads the cells from one counter up to the other. The lemmas say what moving a counter does to it.
-/
import CoreLink.Lib.Fifo
import CoreLink.Lib.Word

namespace CoreLink.Lib.Counters

variable {α : Type*}

/-- The cells that the `n` counters from `tail` on stand for. -/
def window (w size : Nat) (cells : Nat → α) (tail n : Nat) : List α :=
  (List.range n).map fun i => cells ((tail + i) % 2 ^ w % size)

/-- The cell of the counter `head` is none of those that the `n` counters from `tail` on stand for. -/
def Free (w size tail n head : Nat) : Prop := ∀ i < n, (tail + i) % 2 ^ w % size ≠ head % size

instance (w size tail n head : Nat) : Decidable (Free w size tail n head) :=
  inferInstanceAs (Decidable (∀ i < n, (tail + i) % 2 ^ w % size ≠ head % size))

variable {w size tail head n : Nat} {cells : Nat → α}

@[simp] theorem window_length : (window w size cells tail n).length = n := by simp [window]

@[simp] theorem window_zero : window w size cells tail 0 = [] := rfl

/-! ## The distance of the counters -/

/-- The counter `head` is as many steps ahead of `tail` as the wrapping difference says. -/
theorem add_sub (ht : tail < 2 ^ w) (hh : head < 2 ^ w) : (tail + Word.sub w head tail) % 2 ^ w = head := by
  unfold Word.sub
  rw [Nat.add_mod_mod, show tail + (head + 2 ^ w - tail) = head + 2 ^ w by omega, Nat.add_mod_right]
  exact Nat.mod_eq_of_lt hh

/-- A counter that is `n` steps ahead has the difference `n`. -/
theorem sub_add (tail : Nat) (hn : n < 2 ^ w) : Word.sub w ((tail + n) % 2 ^ w) (tail % 2 ^ w) = n := by
  have hM : 0 < 2 ^ w := Nat.two_pow_pos w
  have ht : tail % 2 ^ w < 2 ^ w := Nat.mod_lt _ hM
  rw [Nat.add_mod, Nat.mod_eq_of_lt hn]
  unfold Word.sub
  generalize tail % 2 ^ w = t at *
  generalize 2 ^ w = M at *
  by_cases hlt : t + n < M
  · rw [Nat.mod_eq_of_lt hlt, show t + n + M - t = n + M by omega, Nat.add_mod_right, Nat.mod_eq_of_lt hn]
  · have hsum : (t + n) % M = t + n - M := by
      rw [Nat.mod_eq_sub_mod (by omega)]
      exact Nat.mod_eq_of_lt (by omega)
    rw [hsum, show t + n - M + M - t = n by omega, Nat.mod_eq_of_lt hn]

/-- Counting the head up adds one to the distance. -/
theorem sub_succ_head (ht : tail < 2 ^ w) (hh : head < 2 ^ w) (hroom : Word.sub w head tail + 1 < 2 ^ w) :
    Word.sub w ((head + 1) % 2 ^ w) tail = Word.sub w head tail + 1 := by
  have hn := sub_add tail hroom
  rwa [Nat.mod_eq_of_lt ht, ← Nat.add_assoc, Nat.add_mod, add_sub ht hh, Nat.add_mod_mod] at hn

/-- Counting the tail up takes one from the distance. -/
theorem sub_succ_tail (ht : tail < 2 ^ w) (hh : head < 2 ^ w) (hpos : 0 < Word.sub w head tail) :
    Word.sub w head ((tail + 1) % 2 ^ w) = Word.sub w head tail - 1 := by
  have hlt : Word.sub w head tail < 2 ^ w := Nat.mod_lt _ (Nat.two_pow_pos w)
  have hn := sub_add (tail + 1) (show Word.sub w head tail - 1 < 2 ^ w by omega)
  rwa [show tail + 1 + (Word.sub w head tail - 1) = tail + Word.sub w head tail by omega, add_sub ht hh] at hn

/-- Counting the head down takes one from the distance. -/
theorem sub_pred_head (ht : tail < 2 ^ w) (hh : head < 2 ^ w) (hpos : 0 < Word.sub w head tail) :
    Word.sub w (Word.pred w head) tail = Word.sub w head tail - 1 := by
  have hlt : Word.sub w head tail < 2 ^ w := Word.sub_lt
  have hn := sub_add tail (show Word.sub w head tail - 1 < 2 ^ w by omega)
  have hpred : (tail + (Word.sub w head tail - 1)) % 2 ^ w = Word.pred w head := by
    have hback : head = ((tail + (Word.sub w head tail - 1)) % 2 ^ w + 1) % 2 ^ w := by
      rw [Nat.mod_add_mod, Nat.add_assoc, Nat.sub_add_cancel hpos, add_sub ht hh]
    generalize htop : (tail + (Word.sub w head tail - 1)) % 2 ^ w = k at hback
    rw [hback]
    exact (Word.pred_succ (htop ▸ Nat.mod_lt _ (Nat.two_pow_pos w))).symm
  rwa [Nat.mod_eq_of_lt ht, hpred] at hn

/-! ## Moving a counter -/

/-- **Writing the next cell**, where it is none of those in use, appends to the window. -/
theorem window_put (x : α) (hhead : (tail + n) % 2 ^ w = head) (hfree : Free w size tail n head) :
    window w size (Function.update cells (head % size) x) tail (n + 1) = window w size cells tail n ++ [x] := by
  unfold window
  rw [List.range_succ, List.map_append]
  congr 1
  · exact List.map_congr_left fun i hi => Function.update_of_ne (hfree i (List.mem_range.mp hi)) _ _
  · rw [List.map_singleton, hhead, Function.update_self]

/-- The first cell, and the window behind it. -/
theorem window_get (size : Nat) (cells : Nat → α) (n : Nat) (ht : tail < 2 ^ w) :
    window w size cells tail (n + 1) = cells (tail % size) :: window w size cells ((tail + 1) % 2 ^ w) n := by
  unfold window
  rw [List.range_succ_eq_map, List.map_cons, List.map_map, Nat.add_zero, Nat.mod_eq_of_lt ht]
  congr 1
  refine List.map_congr_left fun i _ => ?_
  show cells ((tail + (i + 1)) % 2 ^ w % size) = cells (((tail + 1) % 2 ^ w + i) % 2 ^ w % size)
  rw [Nat.mod_add_mod, Nat.add_assoc, Nat.add_comm 1 i]

/-- The window without its last cell. -/
theorem window_back (w size : Nat) (cells : Nat → α) (tail n : Nat) : window w size cells tail n = (window w size cells tail (n + 1)).dropLast := by
  unfold window
  rw [List.range_succ, List.map_append, List.map_singleton, List.dropLast_concat]

/-! ## When the next cell is free -/

/-- Where the size divides the range of the counters, the next cell is free as long as fewer than `size` are in use. -/
theorem Free.of_dvd (hdvd : size ∣ 2 ^ w) (hn : n < size) (hhead : (tail + n) % 2 ^ w = head) :
    Free w size tail n head := by
  intro i hi he
  rw [← hhead, Nat.mod_mod_of_dvd _ hdvd, Nat.mod_mod_of_dvd _ hdvd] at he
  exact absurd (Ring.offset_inj (by omega) hn he) (by omega)

end CoreLink.Lib.Counters
