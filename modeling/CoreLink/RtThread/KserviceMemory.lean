/-
# `CoreLink.RtThread.KserviceMemory` — blocks of memory in `src/kservice.c`.

`rt_memset` and `rt_memcpy` go by four words, then by words, then by bytes; `rt_memmove` goes by bytes, from the front or from
the back. `rt_memory_blocks` says that all of them are the copy of the bytes one by one: `copy m dst ptr src n` has the bytes
of `ptr` in the destination and those of `m` everywhere else. An access to a word has no result at an address that is not a
multiple of four, so the result also says that the loops over words are entered at aligned addresses only.

`rt_malloc_align` puts the address of a block into the word in front of the aligned address that it returns, and
`rt_free_align` takes it from there (`rt_malloc_align_block`).

An address is a natural number: an area that C works on, with the address behind it, does not go around the address space.
-/
import CoreLink.Lib.Bytes
import CoreLink.Lib.Word

namespace CoreLink.RtThread.Kservice

open CoreLink.Lib

/-- The bytes at all addresses. -/
abbrev Memory := ℕ → BitVec 8

/-! ## The loops over words -/

section Loops

variable {σ : Type*}

/-- `while (count >= 4 * LBLOCKSIZE)`, with the step of one word four times in its body. -/
def blockLoop (step : σ → Option σ) (s : σ) (count : ℕ) : Option (σ × ℕ) :=
  if 16 ≤ count then
    (step s).bind fun s => (step s).bind fun s => (step s).bind fun s => (step s).bind fun s =>
      blockLoop step s (count - 16)
  else some (s, count)

/-- `while (count >= LBLOCKSIZE)`. -/
def wordLoop (step : σ → Option σ) (s : σ) (count : ℕ) : Option (σ × ℕ) :=
  if 4 ≤ count then (step s).bind fun s => wordLoop step s (count - 4) else some (s, count)

/-- One loop behind the other. -/
def wordLoops (step : σ → Option σ) (s : σ) (count : ℕ) : Option (σ × ℕ) :=
  (blockLoop step s count).bind fun r => wordLoop step r.1 r.2

variable {step : σ → Option σ} {pos : ℕ → σ} {total k n : ℕ}

theorem blockLoop_spec (h : ∀ k, k % 4 = 0 → k + 4 ≤ total → step (pos k) = some (pos (k + 4))) (hk : k % 4 = 0)
    (hn : k + n ≤ total) : blockLoop step (pos k) n = some (pos (k + 16 * (n / 16)), n % 16) := by
  induction n using Nat.strongRecOn generalizing k with
  | ind n ih =>
    rw [blockLoop]
    split
    · rename_i hle
      rw [h k hk (by omega), Option.bind_some, h (k + 4) (by omega) (by omega), Option.bind_some,
        h (k + 4 + 4) (by omega) (by omega), Option.bind_some, h (k + 4 + 4 + 4) (by omega) (by omega), Option.bind_some,
        ih (n - 16) (by omega) (by omega) (by omega)]
      rw [show k + 4 + 4 + 4 + 4 + 16 * ((n - 16) / 16) = k + 16 * (n / 16) by omega, show (n - 16) % 16 = n % 16 by omega]
    · rw [show k + 16 * (n / 16) = k by omega, show n % 16 = n by omega]

theorem wordLoop_spec (h : ∀ k, k % 4 = 0 → k + 4 ≤ total → step (pos k) = some (pos (k + 4))) (hk : k % 4 = 0)
    (hn : k + n ≤ total) : wordLoop step (pos k) n = some (pos (k + 4 * (n / 4)), n % 4) := by
  induction n using Nat.strongRecOn generalizing k with
  | ind n ih =>
    rw [wordLoop]
    split
    · rename_i hle
      rw [h k hk (by omega), Option.bind_some, ih (n - 4) (by omega) (by omega) (by omega)]
      rw [show k + 4 + 4 * ((n - 4) / 4) = k + 4 * (n / 4) by omega, show (n - 4) % 4 = n % 4 by omega]
    · rw [show k + 4 * (n / 4) = k by omega, show n % 4 = n by omega]

/-- **The loops over words** leave less than a word. -/
theorem wordLoops_spec (h : ∀ k, k % 4 = 0 → k + 4 ≤ n → step (pos k) = some (pos (k + 4))) :
    wordLoops step (pos 0) n = some (pos (4 * (n / 4)), n % 4) := by
  rw [wordLoops, blockLoop_spec h rfl (by omega), Option.bind_some, wordLoop_spec h (by omega) (by omega)]
  rw [show 0 + 16 * (n / 16) + 4 * (n % 16 / 4) = 4 * (n / 4) by omega, show n % 16 % 4 = n % 4 by omega]

/-- The loop over bytes, which goes on where the loops over words end. -/
theorem iterate_spec {step : σ → σ} (h : ∀ k < total, step (pos k) = pos (k + 1)) (hn : k + n ≤ total) :
    step^[n] (pos k) = pos (k + n) := by
  induction n generalizing k with
  | zero => rfl
  | succ n ih =>
    rw [Function.iterate_succ_apply, h k (by omega), ih (by omega)]
    rw [show k + 1 + n = k + (n + 1) by omega]

end Loops

/-! ## `rt_memset` -/

/-- `*aligned_addr++ = buffer`. -/
def setWord (buffer : BitVec 32) (s : Memory × ℕ) : Option (Memory × ℕ) := (storeWord s.1 s.2 buffer).map fun m => (m, s.2 + 4)

/-- `*m++ = (char)d`. -/
def setByte (d : BitVec 32) (s : Memory × ℕ) : Memory × ℕ := (Function.update s.1 s.2 (d.setWidth 8), s.2 + 1)

/-- A word of the byte `d` four times, for `LBLOCKSIZE == 4`. -/
def setBuffer (d : BitVec 32) : BitVec 32 := ((d <<< 8) ||| d) ||| (((d <<< 8) ||| d) <<< 16)

/-- `rt_memset`: the result and the memory behind it. `tiny` is `RT_USING_TINY_SIZE`. -/
def rtMemset (tiny : Bool) (mem : Memory) (s : ℕ) (c : BitVec 32) (count : ℕ) : Option (ℕ × Memory) :=
  if tiny then some (s, ((setByte c)^[count] (mem, s)).1)
  else
    let d := c &&& 0xff
    let words := if ¬count < 4 ∧ s &&& 3 = 0 then wordLoops (setWord (setBuffer d)) (mem, s) count else some ((mem, s), count)
    words.map fun r => (s, ((setByte d)^[r.2] r.1).1)

theorem setWidth_and (c : BitVec 32) : (c &&& 0xff).setWidth 8 = c.setWidth 8 := by
  apply BitVec.eq_of_getLsbD_eq
  intro i hi
  have hmask : (0xff : BitVec 32).getLsbD i = true := by
    have hall : ∀ i < 8, (0xff : BitVec 32).getLsbD i = true := by decide
    exact hall i hi
  rw [BitVec.getLsbD_setWidth, BitVec.getLsbD_setWidth, BitVec.getLsbD_and, hmask, Bool.and_true]

/-- The bytes of the word that is stored. -/
theorem byteOf_setBuffer (c : BitVec 32) {i : ℕ} (hi : i < 4) : byteOf (setBuffer (c &&& 0xff)) i = c.setWidth 8 := by
  apply BitVec.eq_of_getLsbD_eq
  intro j hj
  have hmask : ∀ n, (0xff : BitVec 32).getLsbD n = decide (n < 8) := by
    intro n
    by_cases hn : n < 32
    · have hall : ∀ n < 32, (0xff : BitVec 32).getLsbD n = decide (n < 8) := by decide
      exact hall n hn
    · rw [BitVec.getLsbD_of_ge _ _ (by omega), decide_eq_false (by omega)]
  simp only [byteOf, setBuffer, BitVec.getLsbD_extractLsb', BitVec.getLsbD_or, BitVec.getLsbD_shiftLeft, BitVec.getLsbD_and,
    BitVec.getLsbD_setWidth, hmask]
  obtain rfl | rfl | rfl | rfl : i = 0 ∨ i = 1 ∨ i = 2 ∨ i = 3 := by omega
  · simp [hj, show j < 32 by omega, show j < 16 by omega]
  · simp [hj, show 8 + j < 32 by omega, show 8 + j < 16 by omega]
  · simp [hj, show 16 + j < 32 by omega, show ¬16 + j < 8 by omega, show ¬16 + j - 8 < 8 by omega]
  · simp [hj, show 24 + j < 32 by omega, show ¬24 + j < 8 by omega, show ¬24 + j - 8 < 8 by omega,
      show ¬24 + j < 16 by omega, show 24 + j - 16 = 8 + j by omega, show 8 + j < 32 by omega]

/-- The memory and the pointer when `k` bytes are set. -/
def setPos (m : Memory) (s : ℕ) (b : BitVec 8) (k : ℕ) : Memory × ℕ := (copy m s (fun _ => b) 0 k, s + k)

section Memset

variable {m : Memory} {s k : ℕ} {c d : BitVec 32} {b : BitVec 8}

theorem setByte_pos (hd : d.setWidth 8 = b) : setByte d (setPos m s b k) = setPos m s b (k + 1) := by
  have hone : copy (copy m s (fun _ => b) 0 k) (s + k) (fun _ => b) (0 + k) 1 = copy m s (fun _ => b) 0 (k + 1) := copy_append
  rw [copy_one] at hone
  rw [setByte, setPos, setPos, hd, hone, Nat.add_assoc]

theorem setWord_pos (hd : ∀ i < 4, byteOf d i = b) (hs : s % 4 = 0) (hk : k % 4 = 0) :
    setWord d (setPos m s b k) = some (setPos m s b (k + 4)) := by
  have hword : copy (copy m s (fun _ => b) 0 k) (s + k) (byteOf d) 0 4 = copy m s (fun _ => b) 0 (k + 4) := by
    rw [← copy_append]
    exact copy_congr fun i hi => by rw [Nat.zero_add, hd i hi]
  rw [setWord, setPos, storeWord_eq (by omega), Option.map_some, hword, Nat.add_assoc]
  rfl

theorem setPos_zero : setPos m s b 0 = (m, s) := by rw [setPos, copy_zero, Nat.add_zero]

theorem rtMemset_eq (tiny : Bool) (m : Memory) (s : ℕ) (c : BitVec 32) (count : ℕ) :
    rtMemset tiny m s c count = some (s, copy m s (fun _ => c.setWidth 8) 0 count) := by
  cases tiny with
  | true =>
    have hbytes : (setByte c)^[count] (setPos m s (c.setWidth 8) 0) = setPos m s (c.setWidth 8) (0 + count) :=
      iterate_spec (fun k _ => setByte_pos rfl) (Nat.le_refl _)
    rw [setPos_zero] at hbytes
    rw [rtMemset, if_pos rfl, hbytes, Nat.zero_add]
    rfl
  | false =>
    have hbytes : ∀ k n, k + n = count →
        (setByte (c &&& 0xff))^[n] (setPos m s (c.setWidth 8) k) = setPos m s (c.setWidth 8) count := by
      rintro k n rfl
      exact iterate_spec (fun k _ => setByte_pos (setWidth_and c)) (Nat.le_refl _)
    rw [rtMemset, if_neg (by decide)]
    dsimp only
    split
    · rename_i h
      have hs : s % 4 = 0 := by rw [← h.2]; exact (Nat.and_two_pow_sub_one_eq_mod s 2).symm
      have hwords : wordLoops (setWord (setBuffer (c &&& 0xff))) (setPos m s (c.setWidth 8) 0) count = _ :=
        wordLoops_spec fun k hk _ => setWord_pos (fun i hi => byteOf_setBuffer c hi) hs hk
      rw [setPos_zero] at hwords
      rw [hwords, Option.map_some, hbytes _ _ (Nat.div_add_mod count 4)]
      rfl
    · have hall := hbytes 0 count (Nat.zero_add count)
      rw [setPos_zero] at hall
      rw [Option.map_some, hall]
      rfl

end Memset

/-! ## `rt_memcpy` and `rt_memmove` -/

/-- The memory, and the pointers of a copy. -/
structure Cursor where
  mem : Memory
  dst : ℕ
  src : ℕ

namespace Cursor

/-- `*aligned_dst++ = *aligned_src++`. -/
def copyWord (s : Cursor) : Option Cursor :=
  (loadWord s.mem s.src).bind fun w => (storeWord s.mem s.dst w).map fun m => ⟨m, s.dst + 4, s.src + 4⟩

/-- `*dst_ptr++ = *src_ptr++`. -/
def copyByte (s : Cursor) : Cursor := ⟨Function.update s.mem s.dst (s.mem s.src), s.dst + 1, s.src + 1⟩

/-- `*(--tmp) = *(--s)`. -/
def copyByteDown (s : Cursor) : Cursor := ⟨Function.update s.mem (s.dst - 1) (s.mem (s.src - 1)), s.dst - 1, s.src - 1⟩

end Cursor

/-- `for (len = count; len > 0; len --) tmp[len - 1] = s[len - 1]`. -/
def copyDown (tmp s : ℕ) : ℕ → Memory → Memory
  | 0, m => m
  | len + 1, m => copyDown tmp s len (Function.update m (tmp + len) (m (s + len)))

/-- `rt_memcpy`. `len` is a signed integer there, but all comparisons are with `sizeof` and so unsigned, and the last loop
ends at 0. -/
def rtMemcpy (tiny : Bool) (mem : Memory) (dst src count : ℕ) : Option (ℕ × Memory) :=
  if tiny then
    if dst ≤ src ∨ src + count < dst then some (dst, (Cursor.copyByte^[count] ⟨mem, dst, src⟩).mem)
    else some (dst, copyDown dst src count mem)
  else
    let words := if ¬count < 16 ∧ (src &&& 3) ||| (dst &&& 3) = 0 then wordLoops Cursor.copyWord ⟨mem, dst, src⟩ count
      else some (⟨mem, dst, src⟩, count)
    words.map fun r => (dst, (Cursor.copyByte^[r.2] r.1).mem)

/-- `rt_memmove`. -/
def rtMemmove (mem : Memory) (dest src n : ℕ) : ℕ × Memory :=
  if src < dest ∧ dest < src + n then (dest, (Cursor.copyByteDown^[n] ⟨mem, dest + n, src + n⟩).mem)
  else (dest, (Cursor.copyByte^[n] ⟨mem, dest, src⟩).mem)

/-- The areas have no byte in common. -/
def Apart (dst src count : ℕ) : Prop := dst + count ≤ src ∨ src + count ≤ dst

/-- When the first `k` bytes are copied. -/
def copyPos (m : Memory) (dst src k : ℕ) : Cursor := ⟨copy m dst m src k, dst + k, src + k⟩

/-- When all but the first `k` of `n` bytes are copied. -/
def copyDownPos (m : Memory) (dst src n k : ℕ) : Cursor := ⟨copy m (dst + k) m (src + k) (n - k), dst + k, src + k⟩

section Copies

variable {m : Memory} {dst src k n count : ℕ}

theorem copyPos_zero : copyPos m dst src 0 = ⟨m, dst, src⟩ := by rw [copyPos, copy_zero, Nat.add_zero, Nat.add_zero]

/-- **One byte more**, when no byte is read that has been written. -/
theorem copyByte_pos (h : dst ≤ src ∨ src + k < dst) : (copyPos m dst src k).copyByte = copyPos m dst src (k + 1) := by
  have hread : copy m dst m src k (src + k) = m (src + k) := copy_outside (by omega)
  have hone : copy (copy m dst m src k) (dst + k) m (src + k) 1 = copy m dst m src (k + 1) := copy_append
  rw [copy_one] at hone
  simp only [Cursor.copyByte, copyPos, hread, hone, Nat.add_assoc]

theorem copyBytes_pos (h : dst ≤ src ∨ src + count ≤ dst) (hk : k + n = count) :
    Cursor.copyByte^[n] (copyPos m dst src k) = copyPos m dst src count := by
  rw [← hk]
  exact iterate_spec (fun j hj => copyByte_pos (by omega)) (Nat.le_refl _)

theorem copyWord_pos (h : Apart dst src count) (hdst : dst % 4 = 0) (hsrc : src % 4 = 0) (hk : k % 4 = 0)
    (hcount : k + 4 ≤ count) : (copyPos m dst src k).copyWord = some (copyPos m dst src (k + 4)) := by
  unfold Apart at h
  have hread : word (copy m dst m src k) (src + k) = word m (src + k) :=
    word_congr fun i hi => copy_outside (by omega)
  have hword : copy (copy m dst m src k) (dst + k) (byteOf (word m (src + k))) 0 4 = copy m dst m src (k + 4) := by
    rw [← copy_append]
    exact copy_congr fun i hi => by rw [Nat.zero_add, byteOf_word hi]
  simp only [Cursor.copyWord, copyPos]
  rw [loadWord_eq (by omega), Option.bind_some, storeWord_eq (by omega), Option.map_some, hread, hword, Nat.add_assoc,
    Nat.add_assoc]

/-- **One byte less**, from the back. -/
theorem copyByteDown_pos (hk : k < n) (h : src ≤ dst) :
    (copyDownPos m dst src n (k + 1)).copyByteDown = copyDownPos m dst src n k := by
  have hread : copy m (dst + (k + 1)) m (src + (k + 1)) (n - (k + 1)) (src + k) = m (src + k) := copy_outside (by omega)
  have hfront : Function.update (copy m (dst + k + 1) m (src + k + 1) (n - (k + 1))) (dst + k) (m (src + k)) =
      copy m (dst + k) m (src + k) (n - (k + 1) + 1) := update_copy
  rw [show n - (k + 1) + 1 = n - k by omega] at hfront
  simp only [Cursor.copyByteDown, copyDownPos, show dst + (k + 1) - 1 = dst + k by omega,
    show src + (k + 1) - 1 = src + k by omega]
  rw [hread, ← Nat.add_assoc, ← Nat.add_assoc, hfront]

theorem copyBytesDown_pos (hk : k ≤ n) (h : src ≤ dst) :
    Cursor.copyByteDown^[k] (copyDownPos m dst src n k) = copyDownPos m dst src n 0 := by
  induction k with
  | zero => rfl
  | succ k ih =>
    rw [Function.iterate_succ_apply, copyByteDown_pos hk h, ih (by omega)]

/-- The loop over indices does the same. -/
theorem copyDown_eq (h : src + count ≤ dst ∨ dst + count ≤ src ∨ src ≤ dst) (hk : k ≤ count) :
    copyDown dst src k (copy m (dst + k) m (src + k) (count - k)) = copy m dst m src count := by
  induction k with
  | zero => rfl
  | succ k ih =>
    have hread : copy m (dst + (k + 1)) m (src + (k + 1)) (count - (k + 1)) (src + k) = m (src + k) := copy_outside (by omega)
    have hfront : Function.update (copy m (dst + k + 1) m (src + k + 1) (count - (k + 1))) (dst + k) (m (src + k)) =
        copy m (dst + k) m (src + k) (count - (k + 1) + 1) := update_copy
    rw [show count - (k + 1) + 1 = count - k by omega] at hfront
    rw [copyDown, hread, ← Nat.add_assoc, ← Nat.add_assoc, hfront]
    exact ih (by omega)

theorem rtMemcpy_eq (tiny : Bool) (m : Memory) (h : Apart dst src count) :
    rtMemcpy tiny m dst src count = some (dst, copy m dst m src count) := by
  have happart : dst + count ≤ src ∨ src + count ≤ dst := h
  have hbytes : Cursor.copyByte^[count] (copyPos m dst src 0) = copyPos m dst src count :=
    copyBytes_pos (by omega) (Nat.zero_add _)
  rw [copyPos_zero] at hbytes
  cases tiny with
  | true =>
    rw [rtMemcpy, if_pos rfl]
    split
    · rw [hbytes]
      rfl
    · have hdown : copyDown dst src count (copy m (dst + count) m (src + count) (count - count)) = copy m dst m src count :=
        copyDown_eq (by omega) (Nat.le_refl _)
      rw [Nat.sub_self, copy_zero] at hdown
      rw [hdown]
  | false =>
    rw [rtMemcpy, if_neg (by decide)]
    dsimp only
    split
    · rename_i hentered
      have hzero := Nat.or_eq_zero_iff.mp hentered.2
      have hsrc : src % 4 = 0 := by rw [← hzero.1]; exact (Nat.and_two_pow_sub_one_eq_mod src 2).symm
      have hdst : dst % 4 = 0 := by rw [← hzero.2]; exact (Nat.and_two_pow_sub_one_eq_mod dst 2).symm
      have hwords : wordLoops Cursor.copyWord (copyPos m dst src 0) count = _ :=
        wordLoops_spec fun k hk hle => copyWord_pos h hdst hsrc hk hle
      rw [copyPos_zero] at hwords
      rw [hwords, Option.map_some, copyBytes_pos (by omega) (Nat.div_add_mod count 4)]
      rfl
    · rw [Option.map_some, hbytes]
      rfl

theorem rtMemmove_eq (m : Memory) (dst src n : ℕ) : rtMemmove m dst src n = (dst, copy m dst m src n) := by
  unfold rtMemmove
  split
  · have hdown : Cursor.copyByteDown^[n] (copyDownPos m dst src n n) = copyDownPos m dst src n 0 :=
      copyBytesDown_pos (Nat.le_refl n) (by omega)
    simp only [copyDownPos, Nat.sub_self, copy_zero] at hdown
    rw [hdown]
    rfl
  · have hbytes : Cursor.copyByte^[n] (copyPos m dst src 0) = copyPos m dst src n := copyBytes_pos (by omega) (Nat.zero_add _)
    rw [copyPos_zero] at hbytes
    rw [hbytes]
    rfl

end Copies

/-- **The block operations are the copy of the bytes one by one.** -/
theorem rt_memory_blocks (tiny : Bool) (m : Memory) (dst src : ℕ) (c : BitVec 32) (count : ℕ) :
    rtMemset tiny m dst c count = some (dst, copy m dst (fun _ => c.setWidth 8) 0 count) ∧
      (Apart dst src count → rtMemcpy tiny m dst src count = some (dst, copy m dst m src count)) ∧
      rtMemmove m dst src count = (dst, copy m dst m src count) :=
  ⟨rtMemset_eq tiny m dst c count, rtMemcpy_eq tiny m, rtMemmove_eq m dst src count⟩

/-- 21 bytes, aligned: a block, a word and a byte. -/
theorem rt_memory_blocks_aligned (m : Memory) : rtMemcpy false m 64 128 21 = some (64, copy m 64 m 128 21) :=
  (rt_memory_blocks false m 64 128 0 21).2.1 (Or.inl (by decide))

/-! ## Aligned blocks -/

/-- What `rt_malloc` and `rt_free` work on: the records of the heap, and the memory. -/
structure Machine (σ : Type*) where
  heap : σ
  mem : Memory

section Aligned

variable {σ : Type*} (malloc : Machine σ → ℕ → ℕ × Machine σ) (free : Machine σ → ℕ → Machine σ)

/-- `align` and `align_size`, as `rt_malloc_align` computes them. -/
def alignSizes (size align : ℕ) : ℕ × ℕ :=
  let align := Word.alignUp 32 2 align
  (align, (Word.alignUp 32 2 size + align) % 2 ^ 32)

/-- `align_ptr`. -/
def alignPtr (ptr align : ℕ) : ℕ :=
  let mask := Word.sub 32 align 1
  if ptr &&& mask = 0 then (ptr + align) % 2 ^ 32 else (ptr + mask) % 2 ^ 32 &&& (2 ^ 32 - 1 - mask)

/-- `rt_malloc_align`; 0 is the null pointer. -/
def rtMallocAlign (s : Machine σ) (size align : ℕ) : Option (ℕ × Machine σ) :=
  let sizes := alignSizes size align
  let block := malloc s sizes.2
  if block.1 ≠ 0 then
    let ptr := alignPtr block.1 sizes.1
    (storeWord block.2.mem (Word.sub 32 ptr 4) (BitVec.ofNat 32 block.1)).map fun m => (ptr, { block.2 with mem := m })
  else some (0, block.2)

/-- `rt_free_align`. -/
def rtFreeAlign (s : Machine σ) (ptr : ℕ) : Option (Machine σ) :=
  (loadWord s.mem (Word.sub 32 ptr 4)).map fun real => free s real.toNat

/-- The padded sum: what is asked of `rt_malloc`. -/
def paddedSum (size align : ℕ) : ℕ := (size + 3) / 4 * 4 + (align + 3) / 4 * 4

variable {size align k ptr : ℕ}

/-- The alignment is a power of two still, of a pointer at least. -/
theorem padded_two_pow (k : ℕ) : ∃ j, 2 ≤ j ∧ k ≤ j ∧ (2 ^ k + 3) / 4 * 4 = 2 ^ j := by
  by_cases hk : 2 ≤ k
  · refine ⟨k, hk, Nat.le_refl _, ?_⟩
    obtain ⟨i, rfl⟩ := Nat.exists_eq_add_of_le hk
    rw [Nat.pow_add]
    omega
  · obtain rfl | rfl : k = 0 ∨ k = 1 := by omega
    · exact ⟨2, Nat.le_refl _, Nat.zero_le _, rfl⟩
    · exact ⟨2, Nat.le_refl _, by decide, rfl⟩

/-- Without a wrap the sizes are those of arithmetic. -/
theorem alignSizes_eq (h : paddedSum size align < 2 ^ 32) (halign : 0 < align) :
    alignSizes size align = ((align + 3) / 4 * 4, paddedSum size align) := by
  unfold paddedSum at h
  have hup : ∀ x, x + 4 ≤ 2 ^ 32 → Word.alignUp 32 2 x = (x + 3) / 4 * 4 := fun x hx => Word.alignUp_eq (by decide) hx
  rw [alignSizes, hup align (by omega), hup size (by omega), Nat.mod_eq_of_lt h]
  rfl

/-- **Both formulas** round up, to an address behind the block's own. -/
theorem alignPtr_spec {j : ℕ} (hj : 2 ≤ j) (hptr : ptr % 4 = 0) (hroom : ptr + 2 ^ j < 2 ^ 32) :
    2 ^ j ∣ alignPtr ptr (2 ^ j) ∧ ptr + 4 ≤ alignPtr ptr (2 ^ j) ∧ alignPtr ptr (2 ^ j) ≤ ptr + 2 ^ j := by
  have hfour : 2 ^ j = 4 * 2 ^ (j - 2) := by rw [← Nat.pow_add 2 2, Nat.add_sub_cancel' hj]
  have hpos : 0 < 2 ^ (j - 2) := Nat.two_pow_pos _
  have hmask : Word.sub 32 (2 ^ j) 1 = 2 ^ j - 1 := Word.sub_of_le (by omega) (by omega)
  have hjle : j ≤ 32 := (Nat.pow_le_pow_iff_right (by decide)).mp (show 2 ^ j ≤ 2 ^ 32 by omega)
  rw [alignPtr, hmask, Nat.and_two_pow_sub_one_eq_mod]
  split
  · rename_i hzero
    rw [Nat.mod_eq_of_lt hroom]
    exact ⟨Nat.dvd_add (Nat.dvd_of_mod_eq_zero hzero) (Nat.dvd_refl _), by omega, Nat.le_refl _⟩
  · rename_i hnonzero
    have hform : (ptr + (2 ^ j - 1)) % 2 ^ 32 &&& (2 ^ 32 - 1 - (2 ^ j - 1)) = Word.alignUp 32 j ptr := by
      rw [Word.alignUp, Word.alignDown, Word.highMask, ← Nat.add_sub_assoc (by omega),
        show 2 ^ 32 - 1 - (2 ^ j - 1) = 2 ^ 32 - 2 ^ j by omega]
    have hdvd : 2 ^ j ∣ Word.alignUp 32 j ptr := Word.dvd_alignUp hjle
    have hle : ptr ≤ Word.alignUp 32 j ptr := Word.le_alignUp hjle (by omega)
    have hup : Word.alignUp 32 j ptr ≤ ptr + 2 ^ j := by
      rw [Word.alignUp_eq hjle (by omega)]
      exact Nat.le_trans (Nat.div_mul_le_self _ _) (Nat.sub_le _ _)
    have hne : Word.alignUp 32 j ptr ≠ ptr := fun heq => hnonzero (Nat.mod_eq_zero_of_dvd (heq ▸ hdvd))
    have hmod : Word.alignUp 32 j ptr % 4 = 0 :=
      Nat.mod_eq_zero_of_dvd (Nat.dvd_trans ⟨2 ^ (j - 2), hfour⟩ hdvd)
    rw [hform]
    exact ⟨hdvd, by omega, hup⟩

/-- **An aligned block**: it is null when the block of `rt_malloc` is; else it is a multiple of the alignment, the bytes
asked for and the word in front of them lie in the block, no other byte is written, and as long as that word is not written
`rt_free_align` frees that block. The block, with the address behind it, lies in the address space. -/
theorem rt_malloc_align_block (s s' : Machine σ) (size k heapSize ptr : ℕ) (hheap : heapSize < 2 ^ 32)
    (hfit : paddedSum size (2 ^ k) ≤ heapSize) (hblock : malloc s (paddedSum size (2 ^ k)) = (ptr, s'))
    (haligned : ptr % 4 = 0) (hinside : ptr + paddedSum size (2 ^ k) < 2 ^ 32) :
    ∃ p t, rtMallocAlign malloc s size (2 ^ k) = some (p, t) ∧ (p = 0 ↔ ptr = 0) ∧
      (p ≠ 0 → 2 ^ k ∣ p ∧ ptr + 4 ≤ p ∧ p + size ≤ ptr + paddedSum size (2 ^ k) ∧ t.heap = s'.heap ∧
        (∀ a, a < p - 4 ∨ p ≤ a → t.mem a = s'.mem a) ∧
        ∀ u : Machine σ, (∀ a, p - 4 ≤ a → a < p → u.mem a = t.mem a) → rtFreeAlign free u p = some (free u ptr)) := by
  have hpadded : paddedSum size (2 ^ k) < 2 ^ 32 := Nat.lt_of_le_of_lt hfit hheap
  obtain ⟨j, hj, hkj, hpow⟩ := padded_two_pow k
  have hsum : paddedSum size (2 ^ k) = (size + 3) / 4 * 4 + 2 ^ j := by rw [paddedSum, hpow]
  rw [rtMallocAlign, alignSizes_eq hpadded (Nat.two_pow_pos k), hpow]
  dsimp only
  rw [hblock]
  dsimp only
  split
  · rename_i hnull
    obtain ⟨hdvd, hfront, hback⟩ := alignPtr_spec hj haligned (show ptr + 2 ^ j < 2 ^ 32 by omega)
    generalize alignPtr ptr (2 ^ j) = p at hdvd hfront hback ⊢
    have hsub : Word.sub 32 p 4 = p - 4 := Word.sub_of_le (by omega) (by omega)
    have hp : p % 4 = 0 := Nat.mod_eq_zero_of_dvd (Nat.dvd_trans (show 4 ∣ 2 ^ j from pow_dvd_pow 2 hj) hdvd)
    rw [hsub, storeWord_eq (by omega), Option.map_some]
    refine ⟨p, _, rfl, iff_of_false (by omega) hnull, fun _ => ⟨?_, hfront, by omega, rfl, ?_, ?_⟩⟩
    · exact Nat.dvd_trans (pow_dvd_pow 2 hkj) hdvd
    · exact fun a ha => copy_outside (by omega)
    · intro u hu
      have hread : word u.mem (p - 4) = BitVec.ofNat 32 ptr := by
        rw [word_congr fun i hi => hu (p - 4 + i) (by omega) (by omega)]
        exact word_copy
      rw [rtFreeAlign, hsub, loadWord_eq (by omega), hread, Option.map_some, BitVec.toNat_ofNat, Nat.mod_eq_of_lt (by omega)]
  · rename_i hnull
    exact ⟨0, s', rfl, iff_of_true rfl (not_ne_iff.mp hnull), fun h => absurd rfl h⟩

end Aligned

/-- 10 bytes at a multiple of 16, out of a heap of 1000 bytes that answers with address 0x1004: the result is 0x1010. -/
theorem rt_malloc_align_block_sixteen : ∃ p t, rtMallocAlign (fun s _ => (0x1004, s)) (⟨(), fun _ => 0⟩ : Machine Unit) 10 (2 ^ 4) =
    some (p, t) ∧ (p ≠ 0 → 2 ^ 4 ∣ p ∧ 0x1004 + 4 ≤ p ∧ p + 10 ≤ 0x1004 + 28 ∧ rtFreeAlign (fun s _ => s) t p = some t) := by
  obtain ⟨p, t, heq, -, hblock⟩ := rt_malloc_align_block (fun s _ => (0x1004, s)) (fun s _ => s)
    (⟨(), fun _ => 0⟩ : Machine Unit) ⟨(), fun _ => 0⟩ 10 4 1000 0x1004 (by decide) (by decide) rfl (by decide) (by decide)
  refine ⟨p, t, heq, fun hp => ?_⟩
  obtain ⟨hdvd, hfront, hback, -, -, hfree⟩ := hblock hp
  exact ⟨hdvd, hfront, hback, hfree t fun _ _ _ => rfl⟩

end CoreLink.RtThread.Kservice
