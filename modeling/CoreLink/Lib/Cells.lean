/-
# `CoreLink.Lib.Cells` — copying cells, into a ring and out of one.

Memory is a function from indices to cells. `block` reads some of them in order; `copy` is `memcpy`. A ring that is
written or read in blocks needs two copies where the block goes around the end: `Ring.copyIn` and `Ring.copyOut` are
these, and the lemmas say what they do to the contents of the ring.
-/
import CoreLink.Lib.Fifo

namespace CoreLink.Lib

variable {α : Type*}

/-! ## Blocks of cells -/

/-- The `n` cells from `start` on. -/
def block (cells : Nat → α) (start n : Nat) : List α := (List.range n).map fun i => cells (start + i)

/-- `memcpy` of `n` cells: from `src` on in `ptr` to `dst` on in `cells`. -/
def copy (cells : Nat → α) (dst : Nat) (ptr : Nat → α) (src n : Nat) : Nat → α :=
  fun i => if dst ≤ i ∧ i < dst + n then ptr (src + (i - dst)) else cells i

section Block

variable {cells cells' : Nat → α} {dst src start n : Nat}

@[simp] theorem block_length : (block cells start n).length = n := by simp [block]

@[simp] theorem block_zero : block cells start 0 = [] := rfl

@[simp] theorem block_one : block cells start 1 = [cells start] := rfl

theorem block_congr (h : ∀ i < n, cells (start + i) = cells' (start + i)) : block cells start n = block cells' start n :=
  List.map_congr_left fun i hi => h i (List.mem_range.mp hi)

@[simp] theorem copy_zero : copy cells dst cells' src 0 = cells := by
  funext i
  exact if_neg (by omega)

theorem copy_inside {i : Nat} (hi : i < n) : copy cells dst cells' src n (dst + i) = cells' (src + i) := by
  unfold copy
  rw [if_pos ⟨by omega, by omega⟩, Nat.add_sub_cancel_left]

theorem copy_outside {i : Nat} (hi : i < dst ∨ dst + n ≤ i) : copy cells dst cells' src n i = cells i :=
  if_neg (by omega)

theorem copy_one : copy cells dst cells' src 1 = Function.update cells dst (cells' src) := by
  funext i
  by_cases hi : i = dst
  · subst hi
    rw [Function.update_self]
    exact copy_inside (i := 0) Nat.one_pos
  · rw [Function.update_of_ne hi]
    exact copy_outside (by omega)

end Block

/-! ## Blocks in a ring -/

namespace Ring

variable {size out count n : Nat} {cells cells' : Nat → α}

/-- The contents depend on the cells in use only. -/
theorem contents_congr (h : ∀ i < count, cells ((out + i) % size) = cells' ((out + i) % size)) :
    contents size cells out count = contents size cells' out count :=
  List.map_congr_left fun i hi => h i (List.mem_range.mp hi)

/-- The contents of a part of the ring, and of the part behind it. -/
theorem contents_append :
    contents size cells out (count + n) = contents size cells out count ++ contents size cells ((out + count) % size) n := by
  unfold contents
  rw [List.range_add, List.map_append, List.map_map]
  congr 1
  refine List.map_congr_left fun i _ => ?_
  show cells ((out + (count + i)) % size) = cells (((out + count) % size + i) % size)
  rw [Nat.mod_add_mod, Nat.add_assoc]

/-- The first of the contents. -/
theorem contents_take (h : n ≤ count) : (contents size cells out count).take n = contents size cells out n := by
  have hsplit : contents size cells out count = contents size cells out n ++
      contents size cells ((out + n) % size) (count - n) := by
    rw [← contents_append, Nat.add_sub_cancel' h]
  rw [hsplit]
  exact List.take_left' contents_length

/-- What is left of the contents behind the first of them. -/
theorem contents_drop (h : n ≤ count) :
    (contents size cells out count).drop n = contents size cells ((out + n) % size) (count - n) := by
  have hsplit : contents size cells out count = contents size cells out n ++
      contents size cells ((out + n) % size) (count - n) := by
    rw [← contents_append, Nat.add_sub_cancel' h]
  rw [hsplit]
  exact List.drop_left' contents_length

/-- What `i` more than an index is, where it goes around the end at most once. -/
theorem wrap_add {i k : Nat} (hk : k < size) (hi : i ≤ size) :
    (k + i) % size = if k + i < size then k + i else k + i - size := by
  split
  next h => exact Nat.mod_eq_of_lt h
  next h =>
    rw [Nat.mod_eq_sub_mod (by omega)]
    exact Nat.mod_eq_of_lt (by omega)

/-- How far the index `put` is ahead of the index `get`, going around the end if need be. -/
def dist (size get put : Nat) : Nat := if get ≤ put then put - get else size - (get - put)

theorem dist_lt {get put : Nat} (hget : get < size) (hput : put < size) : dist size get put < size := by
  unfold dist
  split <;> omega

theorem add_dist {get put : Nat} (hget : get < size) (hput : put < size) : (get + dist size get put) % size = put := by
  have hlt := dist_lt hget hput
  rw [wrap_add hget (by omega)]
  unfold dist
  split <;> split <;> omega

theorem dist_add {get : Nat} (hget : get < size) (hn : n < size) : dist size get ((get + n) % size) = n := by
  rw [wrap_add hget (by omega)]
  unfold dist
  split <;> split <;> omega

/-- Copying `n` cells into a ring from the index `k` on, the first of them up to the end and the rest from 0 on. -/
def copyIn (size : Nat) (cells : Nat → α) (k : Nat) (ptr : Nat → α) (src n : Nat) : Nat → α :=
  copy (copy cells k ptr src (min n (size - k))) 0 ptr (src + min n (size - k)) (n - min n (size - k))

/-- Copying `n` cells out of a ring from the index `k` on, the first of them up to the end and the rest from 0 on. -/
def copyOut (size : Nat) (ptr : Nat → α) (dst : Nat) (cells : Nat → α) (k n : Nat) : Nat → α :=
  copy (copy ptr dst cells k (min n (size - k))) (dst + min n (size - k)) cells 0 (n - min n (size - k))

section Copy

variable {ptr : Nat → α} {src dst k : Nat}

/-- Where the block does not go around the end, one copy does it. -/
theorem copyIn_of_le (h : n ≤ size - k) : copyIn size cells k ptr src n = copy cells k ptr src n := by
  unfold copyIn
  rw [Nat.min_eq_left h, Nat.sub_self, copy_zero]

theorem copyOut_of_le (h : n ≤ size - k) : copyOut size ptr dst cells k n = copy ptr dst cells k n := by
  unfold copyOut
  rw [Nat.min_eq_left h, Nat.sub_self, copy_zero]

/-- The cells written are those of the block. -/
theorem copyIn_inside {i : Nat} (hk : k < size) (hn : n ≤ size) (hi : i < n) :
    copyIn size cells k ptr src n ((k + i) % size) = ptr (src + i) := by
  rw [wrap_add hk (by omega)]
  unfold copyIn
  split
  next h =>
    rw [copy_outside (by omega), copy_inside (by omega)]
  next h =>
    have hzero : k + i - size = 0 + (i - (size - k)) := by omega
    rw [hzero, copy_inside (by omega)]
    congr 1
    omega

/-- The other cells stay. -/
theorem copyIn_outside {i : Nat} (hk : k < size) (hn : n ≤ i) (hi : i < size) :
    copyIn size cells k ptr src n ((k + i) % size) = cells ((k + i) % size) := by
  rw [wrap_add hk (by omega)]
  unfold copyIn
  split
  next h => rw [copy_outside (by omega), copy_outside (by omega)]
  next h => rw [copy_outside (by omega), copy_outside (by omega)]

/-- **Copying a block in** behind the cells in use appends it to the contents. -/
theorem contents_copyIn (hsize : out < size) (h : count + n ≤ size) :
    contents size (copyIn size cells ((out + count) % size) ptr src n) out (count + n) =
      contents size cells out count ++ block ptr src n := by
  have hk : (out + count) % size < size := Nat.mod_lt _ (by omega)
  rw [contents_append]
  congr 1
  · -- a cell in use lies `size - count + i` behind the first one that is written
    refine contents_congr fun i hi => ?_
    have hback : (out + i) % size = ((out + count) % size + (size - count + i)) % size := by
      rw [Nat.mod_add_mod, show out + count + (size - count + i) = out + i + size by omega, Nat.add_mod_right]
    rw [hback]
    exact copyIn_outside hk (by omega) (by omega)
  · exact List.map_congr_left fun i hi => copyIn_inside hk (by omega) (List.mem_range.mp hi)

/-- **Copying a block out** reads the contents. -/
theorem copyOut_inside {i : Nat} (hk : k < size) (hn : n ≤ size) (hi : i < n) :
    copyOut size ptr dst cells k n (dst + i) = cells ((k + i) % size) := by
  rw [wrap_add hk (by omega)]
  unfold copyOut
  split
  next h =>
    rw [copy_outside (by omega), copy_inside (by omega)]
  next h =>
    have hoff : dst + i = dst + min n (size - k) + (i - (size - k)) := by omega
    rw [hoff, copy_inside (by omega)]
    congr 1
    omega

theorem block_copyOut (hk : k < size) (hn : n ≤ size) :
    block (copyOut size ptr dst cells k n) dst n = contents size cells k n :=
  List.map_congr_left fun _ hi => copyOut_inside hk hn (List.mem_range.mp hi)

end Copy

/-! ## Between two indices -/

/-- The cells from one index up to another. -/
def between (size : Nat) (cells : Nat → α) (front back : Nat) : List α := contents size cells front (dist size front back)

section Between

variable {front back : Nat}

@[simp] theorem between_length : (between size cells front back).length = dist size front back := contents_length

/-- **Moving the back** adds the cells that it passes. -/
theorem between_put (hfront : front < size) (hback : back < size) (h : (between size cells front back).length + n < size) :
    between size cells front ((back + n) % size) = between size cells front back ++ contents size cells back n := by
  rw [between_length] at h
  have hdist : dist size front ((back + n) % size) = dist size front back + n := by
    have hplace : (back + n) % size = (front + (dist size front back + n)) % size := by
      rw [← Nat.add_assoc, ← Nat.mod_add_mod (front + _), add_dist hfront hback]
    rw [hplace]
    exact dist_add hfront h
  unfold between
  rw [hdist, contents_append, add_dist hfront hback]

/-- **Moving the front** drops the cells that it passes. -/
theorem between_get (hfront : front < size) (hback : back < size) (h : n ≤ (between size cells front back).length) :
    between size cells ((front + n) % size) back = (between size cells front back).drop n := by
  rw [between_length] at h
  have hlt := dist_lt hfront hback
  have hdist : dist size ((front + n) % size) back = dist size front back - n := by
    have hplace : ((front + n) % size + (dist size front back - n)) % size = back := by
      rw [Nat.mod_add_mod, Nat.add_assoc, Nat.add_sub_cancel' h, add_dist hfront hback]
    have hadd : dist size ((front + n) % size) (((front + n) % size + (dist size front back - n)) % size) =
        dist size front back - n :=
      dist_add (Nat.mod_lt _ (by omega)) (by omega)
    rwa [hplace] at hadd
  unfold between
  rw [hdist, contents_drop h]

/-- A cell that is not between the indices may change. -/
theorem between_update (hfront : front < size) (hback : back < size) {i : Nat} (x : α)
    (h : (between size cells front back).length + i < size) :
    between size (Function.update cells ((back + i) % size) x) front back = between size cells front back := by
  rw [between_length] at h
  apply contents_congr
  intro k hk
  apply Function.update_of_ne
  intro heq
  rw [← add_dist hfront hback, Nat.mod_add_mod, Nat.add_assoc] at heq
  exact absurd (offset_inj (by omega) h heq) (by omega)

/-- The cell at a place between the indices. -/
theorem between_getElem {i : Nat} (hi : i < (between size cells front back).length) :
    (between size cells front back)[i] = cells ((front + i) % size) := by
  simp [between, contents]

end Between

end Ring

end CoreLink.Lib
