/-
# `CoreLink.Lib.CommonPrefix` — the longest common prefix of lists.

`commonPrefix` is the meet of the prefix order, and cutting one list to a length carries over to it.
-/
import Mathlib.Data.List.Infix

namespace CoreLink.Lib

variable {α : Type*} [DecidableEq α] {l m p : List α}

/-- The longest list that both begin with. -/
def commonPrefix : List α → List α → List α
  | a :: l, b :: m => if a = b then a :: commonPrefix l m else []
  | _, _ => []

/-- **The meet** of the prefix order. -/
theorem prefix_commonPrefix_iff : p <+: commonPrefix l m ↔ p <+: l ∧ p <+: m := by
  induction p generalizing l m with
  | nil => simp
  | cons x p ih =>
    cases l with
    | nil => simp [commonPrefix]
    | cons a l =>
      cases m with
      | nil => simp [commonPrefix]
      | cons b m =>
        rw [commonPrefix]
        by_cases hab : a = b
        · subst hab
          simp only [if_true, List.cons_prefix_cons, ih]
          tauto
        · rw [if_neg hab]
          simp only [List.cons_prefix_cons, List.prefix_nil, reduceCtorEq, false_iff]
          rintro ⟨⟨rfl, -⟩, rfl, -⟩
          exact hab rfl

theorem commonPrefix_self : commonPrefix l l = l := by
  induction l with
  | nil => rfl
  | cons a l ih => rw [commonPrefix, if_pos rfl, ih]

theorem commonPrefix_take (l m : List α) (k : ℕ) : commonPrefix (l.take k) m = l.take (min (commonPrefix l m).length k) := by
  induction k generalizing l m with
  | zero => cases m <;> simp [commonPrefix]
  | succ k ih =>
    cases l with
    | nil => simp [commonPrefix]
    | cons a l =>
      cases m with
      | nil => simp [commonPrefix]
      | cons b m =>
        rw [List.take_succ_cons, commonPrefix, commonPrefix]
        by_cases hab : a = b
        · rw [if_pos hab, if_pos hab, ih, List.length_cons, Nat.succ_min_succ, List.take_succ_cons]
        · rw [if_neg hab, if_neg hab]
          simp

/-- **The meet of several**: what all of them begin with. -/
theorem prefix_foldl_commonPrefix_iff {ms : List (List α)} : p <+: ms.foldl commonPrefix l ↔ p <+: l ∧ ∀ m ∈ ms, p <+: m := by
  induction ms generalizing l with
  | nil => simp
  | cons m ms ih => rw [List.foldl_cons, ih, prefix_commonPrefix_iff, List.forall_mem_cons, and_assoc]

theorem foldl_commonPrefix_le (l : List α) (ms : List (List α)) : ms.foldl commonPrefix l <+: l :=
  (prefix_foldl_commonPrefix_iff.mp List.prefix_rfl).1

omit [DecidableEq α] in
theorem append_prefix_iff {q : List α} : p ++ q <+: l ↔ p <+: l ∧ q <+: l.drop p.length := by
  constructor
  · rintro ⟨r, rfl⟩
    rw [List.append_assoc, List.drop_left]
    exact ⟨List.prefix_append _ _, List.prefix_append _ _⟩
  · rintro ⟨⟨r, rfl⟩, h⟩
    rw [List.drop_left] at h
    exact (List.prefix_append_right_inj p).mpr h

end CoreLink.Lib
