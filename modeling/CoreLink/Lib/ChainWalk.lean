/-
# `CoreLink.Lib.ChainWalk` — walking along a singly linked list, and changing it there.

A C loop `for (node = list; node && !p(node); node = node->next)` is `findFrom`, with fuel for its rounds: on a chain with fewer
nodes than that it returns, with the first node that has the property (`findFrom_found`) or with none (`findFrom_none`). The edits
that follow such a loop leave out the nodes behind one, or put a new one there.
-/
import CoreLink.Lib.Chain

namespace CoreLink.Lib

variable {N : Type*}

/-- The first node from `a` on with `p`, if there is one; nothing if the rounds are used up. -/
def findFrom (next : N → Option N) (p : N → Bool) : ℕ → Option N → Option (Option N)
  | 0, _ => none
  | _ + 1, none => some none
  | fuel + 1, some n => if p n then some (some n) else findFrom next p fuel (next n)

namespace Chain

variable {next next' : N → Option N} {a : Option N} {xs ys zs : List N} {n m : N} {p : N → Bool} {fuel : ℕ}

theorem findFrom_found (h : Chain next a (xs ++ n :: ys)) (hxs : ∀ x ∈ xs, p x = false) (hn : p n = true)
    (hfuel : xs.length < fuel) : findFrom next p fuel a = some (some n) := by
  induction xs generalizing a fuel with
  | nil =>
    obtain ⟨fuel, rfl⟩ := Nat.exists_eq_succ_of_ne_zero (Nat.ne_of_gt hfuel)
    rw [h.1, findFrom, if_pos hn]
  | cons x xs ih =>
    obtain ⟨fuel, rfl⟩ := Nat.exists_eq_succ_of_ne_zero (Nat.ne_of_gt (Nat.zero_lt_of_lt hfuel))
    obtain ⟨hx, hxs⟩ := List.forall_mem_cons.mp hxs
    rw [h.1, findFrom, hx]
    exact ih h.2 hxs (Nat.lt_of_succ_lt_succ hfuel)

theorem findFrom_none (h : Chain next a xs) (hxs : ∀ x ∈ xs, p x = false) (hfuel : xs.length < fuel) :
    findFrom next p fuel a = some none := by
  induction xs generalizing a fuel with
  | nil =>
    obtain ⟨fuel, rfl⟩ := Nat.exists_eq_succ_of_ne_zero (Nat.ne_of_gt hfuel)
    rw [show a = none from h, findFrom]
  | cons x xs ih =>
    obtain ⟨fuel, rfl⟩ := Nat.exists_eq_succ_of_ne_zero (Nat.ne_of_gt (Nat.zero_lt_of_lt hfuel))
    obtain ⟨hx, hxs⟩ := List.forall_mem_cons.mp hxs
    rw [h.1, findFrom, hx]
    exact ih h.2 hxs (Nat.lt_of_succ_lt_succ hfuel)

/-- The part of a chain behind a node. -/
theorem behind (h : Chain next a (xs ++ n :: ys)) : Chain next (next n) ys := by
  induction xs generalizing a with
  | nil => exact h.2
  | cons x xs ih => exact ih h.2

/-- The link of a node is the node behind it. -/
theorem next_eq (h : Chain next a (xs ++ n :: ys)) : next n = ys.head? := h.behind.head_eq

/-- In front of a node only the last one has a link to it. -/
theorem next_ne (h : Chain next a (xs ++ m :: n :: ys)) (hnd : (xs ++ m :: n :: ys).Nodup) (hx : x ∈ xs) :
    next x ≠ some n := by
  obtain ⟨us, vs, rfl⟩ := List.append_of_mem hx
  rw [List.append_assoc, List.cons_append] at h hnd
  have hhead := h.next_eq
  intro heq
  have hn : n ∈ vs ++ [m] := by
    cases vs with
    | nil =>
      rw [heq] at hhead
      rw [Option.some.inj hhead]
      exact List.mem_singleton_self m
    | cons v vs =>
      rw [heq] at hhead
      rw [Option.some.inj hhead]
      exact List.mem_cons_self
  have hrest : (vs ++ m :: n :: ys).Nodup := (List.nodup_cons.mp (List.nodup_append.mp hnd).2.1).2
  rw [List.append_cons vs m] at hrest
  exact (List.nodup_append.mp hrest).2.2 n hn n List.mem_cons_self rfl

variable [DecidableEq N]

/-- **Nodes are left out**: the link of a node is set to what is behind them. -/
theorem skip {v : Option N} (h : Chain next a (xs ++ n :: ys)) (hnd : (xs ++ [n]).Nodup) (hv : Chain next v zs)
    (hzs : ∀ x ∈ xs ++ [n], x ∉ zs) : Chain (Function.update next n v) a (xs ++ n :: zs) := by
  rw [List.append_cons] at h ⊢
  have hw := h.write hnd hv hzs
  rwa [List.getLast?_concat] at hw

/-- **A node is put behind another one.** -/
theorem insertBehind (h : Chain next a (xs ++ m :: ys)) (hnd : (xs ++ m :: ys).Nodup) (hn : n ∉ xs ++ m :: ys)
    (hnext : next n = ys.head?) : Chain (Function.update next m (some n)) a (xs ++ m :: n :: ys) := by
  have hbehind : Chain next (some n) (n :: ys) := ⟨rfl, hnext ▸ h.behind.head_eq ▸ h.behind⟩
  have hsplit := hnd
  rw [List.append_cons] at hsplit
  obtain ⟨hfront, -, hdisj⟩ := List.nodup_append.mp hsplit
  refine h.skip hfront hbehind fun x hx hm => ?_
  rcases List.mem_cons.mp hm with rfl | hm
  · rw [List.append_cons] at hn
    exact hn (List.mem_append_left ys hx)
  · exact hdisj x hx x hm rfl

end Chain

end CoreLink.Lib
