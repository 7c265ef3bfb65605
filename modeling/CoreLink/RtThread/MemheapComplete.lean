/-
# `CoreLink.RtThread.MemheapComplete` — when `rt_memheap_alloc` finds a block.

Before it searches the free list, `rt_memheap_alloc` compares the size with `available_size`, and gives up unless it is
smaller. A free block has at most `available_size` bytes, so that the search misses nothing else; but a request for
exactly `available_size` bytes fails even where one free block has all of them (`alloc_null_iff`).
-/
import CoreLink.RtThread.MemheapRuns
import Mathlib.Algebra.Order.BigOperators.Group.List

namespace CoreLink.RtThread.Memheap

open CoreLink.Lib

namespace MemheapSys

/-- A free item of the heap. -/
def FreeItem (h : Memheap) (b : Nat) : Prop := Reach h b ∧ h.isUsed b = false

/-- **The request is for all that is available**, and one free item has it. -/
def AllInOne (c : MemheapCfg) (h : Memheap) (size : Nat) : Prop :=
  blockSize c size = h.availableSize ∧ ∃ b, FreeItem h b ∧ h.memitemSize c b = h.availableSize

variable {c : MemheapCfg} {s : MemheapSys} {bs fs : List Nat}

/-- The free items are the free list. -/
theorem Inv.freeItem_iff (i : Inv c s bs fs) {b : Nat} : FreeItem s.heap b ↔ b ∈ fs := by
  obtain ⟨t, rfl⟩ : ∃ t, bs = s.heap.startAddr :: t := List.head?_eq_some_iff.mp i.heap.blocks.first
  rw [i.heap.listed.free_iff, FreeItem, Reach, i.first, i.heap.blocks.ring.reach_iff]

/-- A free item has no more than the available bytes. -/
theorem Inv.memitemSize_le (i : Inv c s bs fs) {b : Nat} (hb : b ∈ fs) :
    s.heap.memitemSize c b ≤ s.heap.availableSize := by
  rw [i.sound.available]
  exact List.single_le_sum (fun _ _ => Nat.zero_le _) _ (List.mem_map_of_mem hb)

/-- **`rt_memheap_alloc` returns**; with `RT_NULL` although a free item is large enough exactly where the request is for
all that is available, and one item has it. -/
theorem Inv.alloc_null_iff (i : Inv c s bs fs) (size : Nat) :
    ∃ h' ptr, rtMemheapAlloc c s.heap size = some (h', ptr) ∧
      ((ptr = 0 → ∀ b, FreeItem s.heap b → s.heap.memitemSize c b < blockSize c size) ↔ ¬ AllInOne c s.heap size) := by
  have hpos : 0 < blockSize c size := by
    have hge := blockSize_ge c size
    omega
  by_cases hav : blockSize c size < s.heap.availableSize
  · -- the search looks at every free item
    obtain ⟨a, f, hs, hfound, hnone⟩ := searchFree_spec (c := c) [] i.heap.blocks.freeRing
      (by have hlen := i.heap.length_le; omega : fs.length + 2 ≤ s.heap.poolSize + 2) i.heap.blocks.freeRing.next_head.1 hpos
    have hne : ¬ AllInOne c s.heap size := fun hall => absurd hall.1 (by omega)
    rw [rtMemheapAlloc]
    simp only [if_pos hav, hs, Option.map_some]
    by_cases hf : f ≥ blockSize c size
    · -- a block has been found: its data are not at `RT_NULL`
      obtain ⟨⟨as, d, cs, rfl⟩, -⟩ := i.heap.split_free (hfound hf).1
      obtain ⟨hgap, hd, hfits⟩ := i.heap.blocks.gap
      have hH := le_memheapSize c
      rw [if_pos hf, add_of_lt (by omega)]
      exact ⟨_, _, rfl, iff_of_true (fun hptr => absurd hptr (by omega)) hne⟩
    · rw [if_neg hf]
      exact ⟨_, _, rfl, iff_of_true (fun _ b hb => hnone (by omega) b (i.freeItem_iff.mp hb)) hne⟩
  · refine ⟨s.heap, 0, by rw [rtMemheapAlloc, if_neg hav], fun hall hone => ?_, fun hone _ b hb => ?_⟩
    · obtain ⟨hsize, b, hb, hbsize⟩ := hone
      have hlt := hall rfl b hb
      omega
    · have hle := i.memitemSize_le (i.freeItem_iff.mp hb)
      have hne : s.heap.memitemSize c b ≠ blockSize c size := fun e => hone ⟨by omega, b, hb, by omega⟩
      omega

/-- **Completeness of `rt_memheap_alloc`.** After every run in which the test of `rt_memheap_realloc` does not wrap, and
for every request: `RT_NULL` says that no free item is large enough, unless the request is for all that is available and
one free item has it. -/
theorem memheap_alloc_complete (c : MemheapCfg) (m : Memheap) (addr freeHeader startAddr size : Nat)
    (hregion : Region c freeHeader startAddr size) (es : List Event) (s : MemheapSys)
    (hrun : Run (Guarded (SumFits c) (Step c)) ⟨rtMemheapInit c m addr freeHeader startAddr size, []⟩ es s)
    (request : Nat) :
    ∃ h' ptr, rtMemheapAlloc c s.heap request = some (h', ptr) ∧
      ((ptr = 0 → ∀ b, FreeItem s.heap b → s.heap.memitemSize c b < blockSize c request) ↔
        ¬ AllInOne c s.heap request) := by
  obtain ⟨bs, fs, i⟩ := hrun.guarded (I := fun s => ∃ bs fs, Inv c s bs fs) (inv_init m addr hregion)
    fun _ _ _ ⟨_, _, hi⟩ hf hs => hi.step hf hs
  exact i.alloc_null_iff request

/-- The run `memheapCalls` of the heap of 512 bytes. -/
theorem memheapCalls_run : ∃ s : MemheapSys, Run (Guarded (SumFits cfg4) (Step cfg4)) heap512 memheapCalls s := by
  have hexec : (memheapCalls.foldlM (fun s e => if SumFits cfg4 s e then execEvent cfg4 s e else none) heap512).isSome :=
    by decide +kernel
  obtain ⟨s, hs⟩ := Option.isSome_iff_exists.mp hexec
  exact ⟨s, Run.of_foldlM_guarded (step_of_execEvent cfg4) hs⟩

/-- In the run `memheapCalls`, a block of 40 bytes is found. -/
theorem memheap_alloc_complete_run : ∃ s : MemheapSys,
    Run (Guarded (SumFits cfg4) (Step cfg4)) heap512 memheapCalls s ∧
    ∃ h' ptr, rtMemheapAlloc cfg4 s.heap 40 = some (h', ptr) ∧
      ((ptr = 0 → ∀ b, FreeItem s.heap b → s.heap.memitemSize cfg4 b < blockSize cfg4 40) ↔
        ¬ AllInOne cfg4 s.heap 40) := by
  obtain ⟨s, hrun⟩ := memheapCalls_run
  exact ⟨s, hrun, memheap_alloc_complete cfg4 zeroed 256 260 4096 512 ⟨by decide, by decide, by decide⟩ memheapCalls s
    hrun 40⟩

/-- **All that is available.** The heap of 512 bytes begins with one free item of 464 bytes; a request for 464 bytes
returns `RT_NULL`. -/
theorem memheap_alloc_incomplete :
    Run (Step cfg4) heap512 [] heap512 ∧ FreeItem heap512.heap 4096 ∧ heap512.heap.memitemSize cfg4 4096 = 464 ∧
    blockSize cfg4 464 = 464 ∧ ∃ h', rtMemheapAlloc cfg4 heap512.heap 464 = some (h', 0) := by
  refine ⟨.nil, ⟨?_, by decide +kernel⟩, by decide +kernel, by decide +kernel, heap512.heap, ?_⟩
  · have hfirst : heap512.heap.blockList = 4096 := by decide +kernel
    rw [Reach, hfirst]
  · have hav : ¬ blockSize cfg4 464 < heap512.heap.availableSize := by decide +kernel
    rw [rtMemheapAlloc, if_neg hav]

end MemheapSys

end CoreLink.RtThread.Memheap
