/-
# `CoreLink.Lib.InPlace` — a block that is rewritten in place.

One pointer reads a block of memory from left to right, and another one, which is never ahead of it, writes what is kept, and
may go back in what it has written. Between the two there is a gap, of what has been read and is not needed any more. The
accesses are checked: one outside of the block is an error.
-/
import Mathlib.Data.Int.Notation
import Mathlib.Data.List.Basic

namespace CoreLink.Lib.InPlace

variable {α : Type*}

/-- What can go wrong: an access outside of the block, or a loop that runs longer than it is given time for. -/
inductive Fault where
  | outside
  | fuel
  deriving DecidableEq, Repr

/-! ## Checked accesses -/

/-- The element at an offset. -/
def read (m : List α) (i : ℤ) : Except Fault α :=
  if 0 ≤ i then
    match m[i.toNat]? with
    | some c => .ok c
    | none => .error .outside
  else .error .outside

/-- The block with another element at an offset. -/
def write (m : List α) (i : ℤ) (c : α) : Except Fault (List α) :=
  if 0 ≤ i ∧ i.toNat < m.length then .ok (m.set i.toNat c) else .error .outside

theorem read_append (l : List α) (c : α) (r : List α) : read (l ++ c :: r) l.length = .ok c := by
  have hget : (l ++ c :: r)[((l.length : ℕ) : ℤ).toNat]? = some c := by
    rw [Int.toNat_natCast, List.getElem?_append_right (Nat.le_refl _), Nat.sub_self]
    rfl
  unfold read
  rw [if_pos (Int.natCast_nonneg _), hget]

theorem write_append (l : List α) (c : α) (r : List α) (x : α) :
    write (l ++ c :: r) l.length x = .ok (l ++ x :: r) := by
  have hlen : ((l.length : ℕ) : ℤ).toNat < (l ++ c :: r).length := by
    rw [Int.toNat_natCast, List.length_append, List.length_cons]
    omega
  have hset : (l ++ c :: r).set ((l.length : ℕ) : ℤ).toNat x = l ++ x :: r := by
    rw [Int.toNat_natCast, List.set_append_right _ _ (Nat.le_refl _), Nat.sub_self]
    rfl
  unfold write
  rw [if_pos ⟨Int.natCast_nonneg _, hlen⟩, hset]

/-! ## The two pointers -/

/-- What has been written (in reverse), the gap, and what is still to be read. -/
structure Holds (m : List α) (src dst : ℤ) (done gap rest : List α) : Prop where
  mem : m = done.reverse ++ (gap ++ rest)
  src : src = done.length + gap.length
  dst : dst = done.length

namespace Holds

variable {m done gap rest : List α} {src dst : ℤ} {c : α}

/-- Before anything has been read. -/
theorem start (m : List α) : Holds m 0 0 [] [] m := ⟨rfl, rfl, rfl⟩

theorem length (h : Holds m src dst done gap rest) : m.length = done.length + gap.length + rest.length := by
  rw [h.mem, List.length_append, List.length_append, List.length_reverse]
  omega

theorem read_src (h : Holds m src dst done gap (c :: rest)) : read m src = .ok c := by
  have hlen : src = ((done.reverse ++ gap).length : ℤ) := by
    rw [h.src, List.length_append, List.length_reverse]
    omega
  rw [h.mem, hlen, ← List.append_assoc]
  exact read_append _ c rest

/-- What is read becomes a part of the gap. -/
theorem advance (h : Holds m src dst done gap (c :: rest)) : Holds m (src + 1) dst done (gap ++ [c]) rest := by
  constructor
  case mem => rw [h.mem, List.append_assoc, List.singleton_append]
  case src =>
    rw [h.src, List.length_append, List.length_singleton]
    omega
  case dst => exact h.dst

/-- As long as there is a gap, something can be written. -/
theorem write_dst (h : Holds m src dst done (c :: gap) rest) (x : α) :
    ∃ m', write m dst x = .ok m' ∧ Holds m' src (dst + 1) (x :: done) gap rest := by
  have hlen : dst = (done.reverse.length : ℤ) := by rw [h.dst, List.length_reverse]
  refine ⟨done.reverse ++ x :: (gap ++ rest), ?_, ?_⟩
  · rw [h.mem, hlen]
    exact write_append _ c _ x
  · constructor
    case mem => rw [List.reverse_cons, List.append_assoc, List.singleton_append]
    case src =>
      rw [h.src, List.length_cons, List.length_cons]
      omega
    case dst =>
      rw [h.dst, List.length_cons]
      omega

theorem read_back (h : Holds m src dst (c :: done) gap rest) : read m (dst - 1) = .ok c := by
  have hlen : dst - 1 = (done.reverse.length : ℤ) := by
    rw [h.dst, List.length_cons, List.length_reverse]
    omega
  rw [h.mem, hlen, List.reverse_cons, List.append_assoc, List.singleton_append]
  exact read_append _ c _

/-- What is taken back becomes a part of the gap. -/
theorem back (h : Holds m src dst (c :: done) gap rest) : Holds m src (dst - 1) done (c :: gap) rest := by
  constructor
  case mem => rw [h.mem, List.reverse_cons, List.append_assoc, List.singleton_append, List.cons_append]
  case src =>
    rw [h.src, List.length_cons, List.length_cons]
    omega
  case dst =>
    rw [h.dst, List.length_cons]
    omega

end Holds

end CoreLink.Lib.InPlace
