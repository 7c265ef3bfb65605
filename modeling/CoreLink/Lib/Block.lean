/-
# `CoreLink.Lib.Block` — lists in memory.

`put m p l` is the memory with the elements of `l` from `p` on. It is filled by single updates, from the left (`put_cons`) or
from the right (`update_put`), and turned around in place (`reverseLoop_put`).
-/
import Mathlib.Data.List.GetD
import Mathlib.Logic.Function.Basic

namespace CoreLink.Lib

variable {α : Type*}

/-! ## Writing a list -/

/-- The memory with the elements of a list from `p` on. -/
def put (m : ℕ → α) (p : ℕ) (l : List α) : ℕ → α := fun k => if p ≤ k then l.getD (k - p) (m k) else m k

section Put

variable {m : ℕ → α} {p k : ℕ} {l l' : List α} {c : α}

@[simp] theorem put_nil : put m p [] = m := by
  funext k
  unfold put
  rw [List.getD_nil, ite_self]

theorem put_inside {i : ℕ} (hi : i < l.length) : put m p l (p + i) = l[i] := by
  unfold put
  rw [if_pos (Nat.le_add_right p i), Nat.add_sub_cancel_left, List.getD_eq_getElem _ _ hi]

theorem put_left (hk : k < p) : put m p l k = m k := if_neg (Nat.not_le.mpr hk)

theorem put_right (hk : p + l.length ≤ k) : put m p l k = m k := by
  unfold put
  rw [if_pos (by omega), List.getD_eq_default _ _ (by omega)]

theorem put_append : put m p (l ++ l') = put (put m p l) (p + l.length) l' := by
  funext k
  rcases Nat.lt_or_ge k p with hk | hk
  · rw [put_left hk, put_left (by omega), put_left hk]
  obtain ⟨i, rfl⟩ := Nat.exists_eq_add_of_le hk
  rcases Nat.lt_or_ge i l.length with hi | hi
  · have hlt : p + i < p + l.length := Nat.add_lt_add_left hi p
    rw [put_left hlt, put_inside hi, put_inside (by rw [List.length_append]; omega), List.getElem_append_left hi]
  obtain ⟨j, rfl⟩ := Nat.exists_eq_add_of_le hi
  rcases Nat.lt_or_ge j l'.length with hj | hj
  · rw [← Nat.add_assoc, put_inside hj, Nat.add_assoc, put_inside (by rw [List.length_append]; omega),
      List.getElem_append_right (Nat.le_add_right _ _)]
    simp only [Nat.add_sub_cancel_left]
  · rw [put_right (by rw [List.length_append]; omega), put_right (by omega), put_right (by omega)]

theorem put_singleton : put m p [c] = Function.update m p c := by
  funext k
  by_cases hk : k = p
  · rw [hk, Function.update_self]
    exact put_inside (p := p) (l := [c]) (i := 0) Nat.one_pos
  · rw [Function.update_of_ne hk]
    rcases Nat.lt_or_ge k p with hlt | hge
    · exact put_left hlt
    · exact put_right (by rw [List.length_singleton]; omega)

/-- The first element is written first. -/
theorem put_cons : put m p (c :: l) = put (Function.update m p c) (p + 1) l := by
  rw [← List.singleton_append, put_append, put_singleton, List.length_singleton]

/-- The next element is written behind the others. -/
theorem update_put : Function.update (put m p l) (p + l.length) c = put m p (l ++ [c]) := by
  rw [put_append, put_singleton]

/-- Writes to different places can be exchanged. -/
theorem put_update_comm (hk : k < p ∨ p + l.length ≤ k) : put (Function.update m k c) p l = Function.update (put m p l) k c := by
  funext j
  by_cases hj : j = k
  · rw [hj, Function.update_self]
    rcases hk with hk | hk
    · rw [put_left hk, Function.update_self]
    · rw [put_right hk, Function.update_self]
  · rw [Function.update_of_ne hj]
    rcases Nat.lt_or_ge j p with hlt | hge
    · rw [put_left hlt, put_left hlt, Function.update_of_ne hj]
    rcases Nat.lt_or_ge j (p + l.length) with hlt | hge'
    · obtain ⟨i, rfl⟩ := Nat.exists_eq_add_of_le hge
      rw [put_inside (by omega), put_inside (by omega)]
    · rw [put_right hge', put_right hge', Function.update_of_ne hj]

/-- The last element is written first. -/
theorem put_update : put (Function.update m (p + l.length) c) p l = put m p (l ++ [c]) := by
  rw [put_update_comm (Or.inr (Nat.le_refl _)), update_put]

/-- A list in the place of another one that is not longer. -/
theorem put_put (h : l.length ≤ l'.length) : put (put m p l) p l' = put m p l' := by
  funext k
  rcases Nat.lt_or_ge k p with hlt | hge
  · rw [put_left hlt, put_left hlt, put_left hlt]
  rcases Nat.lt_or_ge k (p + l'.length) with hlt | hge'
  · obtain ⟨i, rfl⟩ := Nat.exists_eq_add_of_le hge
    rw [put_inside (by omega), put_inside (by omega)]
  · rw [put_right hge', put_right (by omega), put_right hge']

/-- A list over the end of another one. -/
theorem put_drop {n : ℕ} (h : n + l'.length = l.length) : put (put m p l) (p + n) l' = put m p (l.take n ++ l') := by
  have hlen : (l.take n).length = n := List.length_take_of_le (by omega)
  have hsplit : put m p (l.take n ++ l.drop n) = put (put m p (l.take n)) (p + n) (l.drop n) := by rw [put_append, hlen]
  rw [List.take_append_drop] at hsplit
  rw [hsplit, put_put (by rw [List.length_drop]; omega), put_append, hlen]

end Put

/-! ## Turning a list around -/

/-- The loop that exchanges the elements at `b` and before `i`, and moves both inwards. -/
def reverseLoop : ℕ → (ℕ → α) → ℕ → ℕ → α
  | 0, m, _ => m
  | i + 1, m, b => if b < i then reverseLoop i (Function.update (Function.update m b (m i)) i (m b)) (b + 1) else m

/-- What is from `b` to before `i` is turned around, and nothing else is changed. -/
theorem reverseLoop_apply (i : ℕ) (m : ℕ → α) (b : ℕ) (hb : b ≤ i) (k : ℕ) :
    reverseLoop i m b k = if b ≤ k ∧ k < i then m (b + i - 1 - k) else m k := by
  induction i generalizing m b with
  | zero =>
    rw [if_neg (by omega)]
    rfl
  | succ i ih =>
    rw [reverseLoop]
    by_cases hlt : b < i
    · rw [if_pos hlt, ih _ _ hlt]
      by_cases hinner : b + 1 ≤ k ∧ k < i
      · rw [if_pos hinner, if_pos (by omega), Function.update_of_ne (by omega), Function.update_of_ne (by omega)]
        congr 1
        omega
      · rw [if_neg hinner]
        by_cases hki : k = i
        · rw [hki, Function.update_self, if_pos (by omega)]
          congr 1
          omega
        by_cases hkb : k = b
        · rw [hkb, Function.update_of_ne (by omega), Function.update_self, if_pos (by omega)]
          congr 1
          omega
        · rw [Function.update_of_ne hki, Function.update_of_ne hkb, if_neg (by omega)]
    · rw [if_neg hlt]
      split
      · congr 1
        omega
      · rfl

/-- **A list is turned around in place.** -/
theorem reverseLoop_put (m : ℕ → α) (l : List α) : reverseLoop l.length (put m 0 l) 0 = put m 0 l.reverse := by
  funext k
  rw [reverseLoop_apply _ _ _ (Nat.zero_le _)]
  rcases Nat.lt_or_ge k l.length with hk | hk
  · have hk' : k < l.reverse.length := by rwa [List.length_reverse]
    have hinside := put_inside (m := m) (p := 0) hk'
    have hmirror := put_inside (m := m) (p := 0) (l := l) (i := l.length - 1 - k) (by omega)
    rw [Nat.zero_add] at hinside hmirror
    rw [if_pos ⟨Nat.zero_le _, hk⟩, hinside, List.getElem_reverse, Nat.zero_add, hmirror]
  · rw [if_neg (by omega), put_right (by omega), put_right (by rw [List.length_reverse]; omega)]

end CoreLink.Lib
