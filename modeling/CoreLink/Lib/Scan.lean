/-
# `CoreLink.Lib.Scan` — scanning for a stop, and the words between separators.

`scan stop n p` is a pointer that moves on from `p` until it is at a stop, by at most `n` steps. `words sep l` are the maximal
parts of `l` without separators.
-/
import Mathlib.Data.List.Basic

namespace CoreLink.Lib

/-! ## Scanning -/

section Scan

variable {stop : ℕ → Bool} {n p q : ℕ}

/-- The first stop from `p` on, or `p + n`. -/
def scan (stop : ℕ → Bool) : ℕ → ℕ → ℕ
  | 0, p => p
  | n + 1, p => if stop p then p else scan stop n (p + 1)

theorem scan_eq (hle : p ≤ q) (hn : q ≤ p + n) (hstop : stop q = true) (hbefore : ∀ i, p ≤ i → i < q → stop i = false) :
    scan stop n p = q := by
  induction n generalizing p with
  | zero => exact Nat.le_antisymm hle hn
  | succ n ih =>
    rw [scan]
    by_cases hp : p = q
    · rw [if_pos (hp ▸ hstop), hp]
    · have hgo : ¬stop p = true := by
        rw [hbefore p (Nat.le_refl p) (by omega)]
        decide
      rw [if_neg hgo]
      exact ih (by omega) (by omega) fun i hi hiq => hbefore i (by omega) hiq

/-- Where there is a stop, the scan finds the first one. -/
theorem scan_spec (hle : p ≤ q) (hn : q ≤ p + n) (hstop : stop q = true) :
    p ≤ scan stop n p ∧ scan stop n p ≤ q ∧ stop (scan stop n p) = true ∧
      ∀ i, p ≤ i → i < scan stop n p → stop i = false := by
  induction n generalizing p with
  | zero =>
    obtain rfl : p = q := by omega
    exact ⟨hle, hle, hstop, fun i hi hlt => absurd hlt (by rw [scan]; omega)⟩
  | succ n ih =>
    rw [scan]
    by_cases hp : stop p = true
    · rw [if_pos hp]
      exact ⟨Nat.le_refl p, hle, hp, fun i hi hlt => by omega⟩
    · rw [if_neg hp]
      have hne : p ≠ q := fun h => hp (h ▸ hstop)
      obtain ⟨hge, hupto, hfound, hbefore⟩ := ih (p := p + 1) (by omega) (by omega)
      refine ⟨by omega, hupto, hfound, fun i hi hlt => ?_⟩
      by_cases hip : i = p
      · rw [hip]
        exact Bool.eq_false_iff.mpr hp
      · exact hbefore i (by omega) hlt

end Scan

/-! ## Words -/

section Words

variable {α : Type*} [DecidableEq α] {sep : α} {w : List α}

/-- The maximal parts without separators. -/
def words (sep : α) (l : List α) : List (List α) := (l.splitOn sep).filter fun w => w ≠ []

@[simp]
theorem words_nil : words sep [] = [] := rfl

/-- A separator ends a word. -/
theorem words_append (h : sep ∉ w) (l : List α) : words sep (w ++ sep :: l) = words sep w ++ words sep l := by
  unfold words
  rw [List.splitOn_append_cons_self_of_not_mem h, List.splitOn_eq_singleton h, ← List.filter_append, List.singleton_append]

/-- Separators in front say nothing. -/
theorem words_replicate_append (k : ℕ) (l : List α) : words sep (List.replicate k sep ++ l) = words sep l := by
  induction k with
  | zero => rfl
  | succ k ih =>
    rw [List.replicate_succ, List.cons_append]
    exact (words_append List.not_mem_nil _).trans ih

theorem words_of_notMem (h : sep ∉ w) (hne : w ≠ []) : words sep w = [w] := by
  unfold words
  rw [List.splitOn_eq_singleton h]
  exact List.filter_cons_of_pos (by simpa using hne)

/-- A word is not empty, and made of the symbols of the list. -/
theorem of_mem_words {l : List α} (h : w ∈ words sep l) : w ≠ [] ∧ w ⊆ l := by
  obtain ⟨hmem, hne⟩ := List.mem_filter.mp h
  refine ⟨by simpa using hne, ?_⟩
  clear h hne
  induction l generalizing w with
  | nil =>
    rw [List.mem_singleton.mp hmem]
    exact List.nil_subset _
  | cons x l ih =>
    rw [List.splitOn_cons_eq_if_modifyHead] at hmem
    split at hmem
    · obtain rfl | hmem := List.mem_cons.mp hmem
      · exact List.nil_subset _
      · exact List.subset_cons_of_subset x (ih hmem)
    · obtain ⟨d, ds, hds⟩ := List.exists_cons_of_ne_nil (List.splitOn_ne_nil sep l)
      rw [hds] at ih hmem
      rw [List.modifyHead_cons] at hmem
      obtain rfl | hmem := List.mem_cons.mp hmem
      · exact List.cons_subset_cons x (ih List.mem_cons_self)
      · exact List.subset_cons_of_subset x (ih (List.mem_cons_of_mem d hmem))

/-- What is not a separator is part of a word. -/
theorem words_cons_ne_nil {x : α} (h : x ≠ sep) (l : List α) : words sep (x :: l) ≠ [] := by
  obtain ⟨d, ds, hds⟩ := List.exists_cons_of_ne_nil (List.splitOn_ne_nil sep l)
  unfold words
  rw [List.splitOn_cons_eq_if_modifyHead, if_neg (by simpa using h), hds, List.modifyHead_cons,
    List.filter_cons_of_pos (by simp)]
  exact List.cons_ne_nil _ _

end Words

end CoreLink.Lib
