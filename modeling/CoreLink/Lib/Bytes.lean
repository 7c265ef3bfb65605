/-
# `CoreLink.Lib.Bytes` — words of four bytes in a memory of bytes.

A word is read and written at addresses that are multiples of four only, with its bytes from the least significant one on.
To write a word is to copy its bytes (`storeWord_eq`), and the bytes of a word that has been read are those of the memory
(`byteOf_word`), so a loop over words does what the loop over their bytes does.
-/
import CoreLink.Lib.Cells

namespace CoreLink.Lib

/-! ## Copies that continue each other -/

section Copy

variable {α : Type*} {cells cells' ptr ptr' : Nat → α} {dst src src' k n : Nat}

theorem copy_congr (h : ∀ i < n, ptr (src + i) = ptr' (src' + i)) : copy cells dst ptr src n = copy cells dst ptr' src' n := by
  funext i
  by_cases hi : dst ≤ i ∧ i < dst + n
  · obtain ⟨j, rfl⟩ := Nat.exists_eq_add_of_le hi.1
    have hj : j < n := by omega
    rw [copy_inside hj, copy_inside hj, h j hj]
  · rw [copy_outside (by omega), copy_outside (by omega)]

/-- **The second copy continues the first.** -/
theorem copy_append : copy (copy cells dst ptr src k) (dst + k) ptr (src + k) n = copy cells dst ptr src (k + n) := by
  funext i
  by_cases hback : dst + k ≤ i ∧ i < dst + k + n
  · obtain ⟨j, rfl⟩ := Nat.exists_eq_add_of_le hback.1
    have hj : j < n := by omega
    rw [copy_inside hj, Nat.add_assoc dst, copy_inside (show k + j < k + n by omega), Nat.add_assoc]
  rw [copy_outside (by omega)]
  by_cases hfront : dst ≤ i ∧ i < dst + k
  · obtain ⟨j, rfl⟩ := Nat.exists_eq_add_of_le hfront.1
    rw [copy_inside (show j < k by omega), copy_inside (show j < k + n by omega)]
  · rw [copy_outside (by omega), copy_outside (by omega)]

/-- **A cell in front of a copy.** -/
theorem update_copy : Function.update (copy cells (dst + 1) ptr (src + 1) n) dst (ptr src) = copy cells dst ptr src (n + 1) := by
  funext i
  by_cases hi : i = dst
  · subst hi
    rw [Function.update_self]
    exact (copy_inside (i := 0) (Nat.succ_pos n)).symm
  rw [Function.update_of_ne hi]
  by_cases hin : dst + 1 ≤ i ∧ i < dst + 1 + n
  · obtain ⟨j, rfl⟩ := Nat.exists_eq_add_of_le hin.1
    rw [copy_inside (show j < n by omega), show dst + 1 + j = dst + (j + 1) by omega,
      copy_inside (show j + 1 < n + 1 by omega), show src + 1 + j = src + (j + 1) by omega]
  · rw [copy_outside (by omega), copy_outside (by omega)]

end Copy

/-! ## Words -/

/-- A byte of a word, the least significant first. -/
def byteOf (w : BitVec 32) (i : Nat) : BitVec 8 := w.extractLsb' (8 * i) 8

/-- The word at an address. -/
def word (m : Nat → BitVec 8) (a : Nat) : BitVec 32 := (m (a + 3) ++ m (a + 2) ++ m (a + 1) ++ m a : BitVec (8 + 8 + 8 + 8))

/-- A read of a word. -/
def loadWord (m : Nat → BitVec 8) (a : Nat) : Option (BitVec 32) := if a % 4 = 0 then some (word m a) else none

/-- A write of a word. -/
def storeWord (m : Nat → BitVec 8) (a : Nat) (w : BitVec 32) : Option (Nat → BitVec 8) :=
  if a % 4 = 0 then some (copy m a (byteOf w) 0 4) else none

section Word

variable {m m' : Nat → BitVec 8} {a b n : Nat} {w : BitVec 32}

theorem loadWord_eq (ha : a % 4 = 0) : loadWord m a = some (word m a) := if_pos ha

theorem storeWord_eq (ha : a % 4 = 0) : storeWord m a w = some (copy m a (byteOf w) 0 4) := if_pos ha

theorem word_congr (h : ∀ i < 4, m (a + i) = m' (b + i)) : word m a = word m' b := by
  have h0 : m a = m' b := h 0 (by omega)
  rw [word, word, h0, h 1 (by omega), h 2 (by omega), h 3 (by omega)]

/-- The bytes of a word that has been read. -/
theorem byteOf_word {i : Nat} (hi : i < 4) : byteOf (word m a) i = m (a + i) := by
  apply BitVec.eq_of_getLsbD_eq
  intro j hj
  simp only [byteOf, word, BitVec.getLsbD_extractLsb', BitVec.getLsbD_append]
  obtain rfl | rfl | rfl | rfl : i = 0 ∨ i = 1 ∨ i = 2 ∨ i = 3 := by omega
  · simp [hj]
  · simp [hj, show ¬8 + j < 8 by omega, show 8 + j - 8 = j by omega]
  · simp [hj, show ¬16 + j < 8 by omega, show ¬16 + j - 8 < 8 by omega, show 16 + j - 8 - 8 = j by omega]
  · simp [hj, show ¬24 + j < 8 by omega, show ¬24 + j - 8 < 8 by omega, show ¬24 + j - 8 - 8 < 8 by omega,
      show 24 + j - 8 - 8 - 8 = j by omega]

/-- A word is its bytes. -/
theorem eq_of_byteOf {v w : BitVec 32} (h : ∀ i < 4, byteOf v i = byteOf w i) : v = w := by
  apply BitVec.eq_of_getLsbD_eq
  intro j hj
  have hbyte := congrArg (fun b : BitVec 8 => b.getLsbD (j % 8)) (h (j / 8) (by omega))
  simp only [byteOf, BitVec.getLsbD_extractLsb', show j % 8 < 8 from Nat.mod_lt _ (by omega), decide_true, Bool.true_and,
    Nat.div_add_mod] at hbyte
  exact hbyte

/-- **What has been written is read.** -/
theorem word_copy : word (copy m a (byteOf w) 0 4) a = w := by
  refine eq_of_byteOf fun i hi => ?_
  rw [byteOf_word hi, copy_inside hi, Nat.zero_add]

end Word

end CoreLink.Lib
