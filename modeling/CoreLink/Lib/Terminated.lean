/-
# `CoreLink.Lib.Terminated` — strings with a terminator, one behind the other in a buffer.

`pack z ls` is how such strings lie in memory, `cstring z` reads the one at the start of a buffer, and `nthString z` walks
from string to string. A walk over packed strings finds them (`nthString_pack`), whatever is behind them.
-/
import Mathlib.Data.List.Infix

namespace CoreLink.Lib

variable {α : Type*} {z : α} {l rest : List α} {ls : List (List α)}

/-- The strings, each with the terminator `z` behind it. -/
def pack (z : α) (ls : List (List α)) : List α := ls.flatMap fun l => l ++ [z]

@[simp]
theorem pack_cons : pack z (l :: ls) = l ++ z :: pack z ls := by
  unfold pack
  simp

theorem pack_concat : pack z (ls ++ [l]) = pack z ls ++ (l ++ [z]) := by
  unfold pack
  simp

theorem length_pack_le_append (ls ls' : List (List α)) : (pack z ls).length ≤ (pack z (ls ++ ls')).length := by
  unfold pack
  simp

section Read

variable [DecidableEq α]

/-- The string at the start of a buffer; without a terminator there is none. -/
def cstring (z : α) : List α → Option (List α)
  | [] => none
  | b :: bs => if b = z then some [] else (cstring z bs).map (b :: ·)

/-- The string behind `n` strings. -/
def nthString (z : α) : Nat → List α → Option (List α)
  | 0, bs => cstring z bs
  | n + 1, bs => (cstring z bs).bind fun l => nthString z n (bs.drop (l.length + 1))

/-- **Reading** gives the string back. -/
theorem cstring_append (h : z ∉ l) (rest : List α) : cstring z (l ++ z :: rest) = some l := by
  induction l with
  | nil => exact if_pos rfl
  | cons b l ih =>
      obtain ⟨hb, hl⟩ : z ≠ b ∧ z ∉ l := by simpa using h
      rw [List.cons_append, cstring, if_neg (Ne.symm hb), ih hl]
      rfl

theorem cstring_none (h : z ∉ l) : cstring z l = none := by
  induction l with
  | nil => rfl
  | cons b l ih =>
      obtain ⟨hb, hl⟩ : z ≠ b ∧ z ∉ l := by simpa using h
      rw [cstring, if_neg (Ne.symm hb), ih hl, Option.map_none]

/-- **Walking over packed strings.** -/
theorem nthString_pack (h : ∀ l ∈ ls, z ∉ l) (rest : List α) {n : Nat} (hn : n < ls.length) :
    nthString z n (pack z ls ++ rest) = ls[n]? := by
  induction ls generalizing n with
  | nil => exact absurd hn (Nat.not_lt_zero n)
  | cons l ls ih =>
      have hl : z ∉ l := h l List.mem_cons_self
      have hread : cstring z (pack z (l :: ls) ++ rest) = some l := by
        rw [pack_cons, List.append_assoc, List.cons_append]
        exact cstring_append hl _
      cases n with
      | zero => exact hread
      | succ n =>
          rw [nthString, hread, Option.bind_some, List.getElem?_cons_succ]
          rw [← ih (fun l hl => h l (List.mem_cons_of_mem _ hl)) (Nat.lt_of_succ_lt_succ hn)]
          congr 1
          rw [pack_cons, List.append_assoc, List.cons_append]
          simp

end Read

end CoreLink.Lib
