/-
# `CoreLink.RtThread.AllocRoom` — no allocator of the kernel grants less than asked, up to the rounding.

`rt_malloc`, `rt_calloc`, `rt_realloc` (`mem.c`) and `rt_memheap_alloc` (`memheap.c`) all round a request up in machine
arithmetic before they compare it with anything. `alloc_room` says for each of them, request by request and heap by
heap, when a pointer returned has the room that was asked for: where the rounding, and for `rt_calloc` the product, does
not wrap, and where it does, only because the heap has nothing left to grant.
-/
import CoreLink.RtThread.MemRoom
import CoreLink.RtThread.MemheapComplete

namespace CoreLink.RtThread.Memheap

open CoreLink.Lib

variable {c : MemheapCfg} {h h' : Memheap} {bs fs : List Nat} {a size : Nat}

/-! ## The block that `rt_memheap_alloc` returns -/

/-- The largest request that `RT_ALIGN` does not wrap. -/
def maxRequest (c : MemheapCfg) : Nat := 2 ^ 32 - 2 ^ c.alignBits

/-- `rt_memheap_alloc (n)` has a block to grant: less than all that is available is asked for, and a free item has it. -/
def Grantable (c : MemheapCfg) (h : Memheap) (n : Nat) : Prop :=
  blockSize c n < h.availableSize ∧ ∃ b, MemheapSys.FreeItem h b ∧ blockSize c n ≤ h.memitemSize c b

/-- Whenever `rt_memheap_alloc (n)` returns a pointer, the block behind it has `n` bytes of data. -/
def AllocGrants (c : MemheapCfg) (h : Memheap) (n : Nat) : Prop :=
  ∀ h' p, rtMemheapAlloc c h n = some (h', p) → p ≠ 0 → n ≤ h'.memitemSize c (sub p c.memheapSize)

theorem alignBits_le (c : MemheapCfg) : c.alignBits ≤ 32 := by
  have hfits := c.fits
  exact (Nat.pow_le_pow_iff_right (by omega)).mp (by omega : 2 ^ c.alignBits ≤ 2 ^ 32)

theorem memheapSize_dvd (c : MemheapCfg) : 2 ^ c.alignBits ∣ c.memheapSize := Word.dvd_alignUp (alignBits_le c)

theorem le_blockSize {n : Nat} (hn : n ≤ maxRequest c) : n ≤ blockSize c n := by
  have hfits := c.fits
  unfold maxRequest at hn
  have hle : n ≤ c.rtAlign n := Word.le_alignUp (alignBits_le c) (by omega)
  unfold blockSize
  split_ifs <;> omega

theorem takeBlock_next (c : MemheapCfg) (h : Memheap) (a f size : Nat) :
    (takeBlock c h a f size).next a =
      if f ≥ add size (c.memheapSize + memheapMinialloc) then add (add a size) c.memheapSize else h.next a := by
  unfold takeBlock
  split_ifs
  · simp [splitBlock, insertBlock_eq]
  · simp [wholeBlock]

/-- **The block taken** has the size it was taken for, and no more than it had. -/
theorem takeBlock_size (i : MemheapInv c h bs fs) (ha : a ∈ fs) (hav : size < h.availableSize)
    (hsize : size ≤ h.memitemSize c a) :
    size ≤ (takeBlock c h a (h.memitemSize c a) size).memitemSize c a ∧
      (takeBlock c h a (h.memitemSize c a) size).memitemSize c a ≤ h.memitemSize c a := by
  obtain ⟨⟨as, b, cs, rfl⟩, -⟩ := i.split_free ha
  obtain ⟨hgap, hend, hfits⟩ := i.blocks.gap
  have hH := le_memheapSize c
  have hroom := i.available_le (by omega)
  have hitem := i.blocks.memitemSize_eq
  have hadd : add size (c.memheapSize + memheapMinialloc) = size + (c.memheapSize + memheapMinialloc) :=
    add_of_lt (by unfold memheapMinialloc; omega)
  have hnext := takeBlock_next c h a (h.memitemSize c a) size
  rw [hadd] at hnext
  split_ifs at hnext with hsplit
  · have hsum : add (add a size) c.memheapSize = a + size + c.memheapSize := by
      have ha' : add a size = a + size := add_of_lt (by omega)
      rw [ha']
      exact add_of_lt (by omega)
    have hlen : (takeBlock c h a (h.memitemSize c a) size).memitemSize c a = size := by
      have hblock : sub (a + size + c.memheapSize) a = size + c.memheapSize := by
        rw [sub_of_le (by omega) (by omega)]
        omega
      rw [memitemSize, hnext, hsum, hblock, sub_of_le (by omega) (by omega)]
      omega
    omega
  · have hlen : (takeBlock c h a (h.memitemSize c a) size).memitemSize c a = h.memitemSize c a := by
      rw [memitemSize, hnext, memitemSize]
    omega

/-- **`rt_memheap_alloc` returns**, with a pointer exactly when it has a block to grant; and then the block behind the
pointer has the rounded size, and less than any request that wraps. -/
theorem rtMemheapAlloc_room {s : MemheapSys} (i : MemheapSys.Inv c s bs fs) (n : Nat) :
    ∃ h' p, rtMemheapAlloc c s.heap n = some (h', p) ∧ (p ≠ 0 ↔ Grantable c s.heap n) ∧
      (p ≠ 0 → blockSize c n ≤ h'.memitemSize c (sub p c.memheapSize) ∧
        h'.memitemSize c (sub p c.memheapSize) < maxRequest c) := by
  have hge := blockSize_ge c n
  by_cases hav : blockSize c n < s.heap.availableSize
  · obtain ⟨a, f, hs, hfound, hnone⟩ := searchFree_spec (c := c) [] i.heap.blocks.freeRing
      (by have hlen := i.heap.length_le; omega : fs.length + 2 ≤ s.heap.poolSize + 2) i.heap.blocks.freeRing.next_head.1
      (by omega : 0 < blockSize c n)
    rw [rtMemheapAlloc]
    simp only [if_pos hav, hs, Option.map_some]
    by_cases hf : f ≥ blockSize c n
    · obtain ⟨hmem, rfl⟩ := hfound hf
      have hsize := takeBlock_size i.heap hmem hav hf
      have hle := i.memitemSize_le hmem
      have hroom := i.heap.available_le (by omega)
      have hfits := i.heap.blocks.fits
      obtain ⟨⟨as, d, cs, rfl⟩, -⟩ := i.heap.split_free hmem
      obtain ⟨hgap, hd, -⟩ := i.heap.blocks.gap
      have hH := le_memheapSize c
      have hdvd := Nat.le_of_dvd (by omega) (memheapSize_dvd c)
      have hadd : add a c.memheapSize = a + c.memheapSize := add_of_lt (by omega)
      have hback : sub (a + c.memheapSize) c.memheapSize = a := by
        rw [sub_of_le (by omega) (by omega)]
        omega
      rw [if_pos hf, hadd]
      refine ⟨_, _, rfl, iff_of_true (by omega) ⟨hav, a, i.freeItem_iff.mpr hmem, hf⟩, fun _ => ?_⟩
      rw [hback]
      unfold maxRequest
      omega
    · rw [if_neg hf]
      refine ⟨_, _, rfl, iff_of_false (fun h0 => h0 rfl) ?_, fun h0 => absurd rfl h0⟩
      rintro ⟨-, b, hb, hle⟩
      have hlt := hnone (by omega) b (i.freeItem_iff.mp hb)
      omega
  · exact ⟨s.heap, 0, by rw [rtMemheapAlloc, if_neg hav],
      iff_of_false (fun h0 => h0 rfl) fun hg => hav hg.1, fun h0 => absurd rfl h0⟩

/-- **`rt_memheap_alloc`**: right exactly where rounding does not wrap, or there is nothing left to grant. -/
theorem allocGrants_iff {s : MemheapSys} (i : MemheapSys.Inv c s bs fs) (n : Nat) :
    AllocGrants c s.heap n ↔ n ≤ maxRequest c ∨ ¬ Grantable c s.heap n := by
  obtain ⟨h', p, hcall, hgrant, hroom⟩ := rtMemheapAlloc_room i n
  have honly : AllocGrants c s.heap n ↔ (p ≠ 0 → n ≤ h'.memitemSize c (sub p c.memheapSize)) := by
    constructor
    · exact fun hall hp => hall h' p hcall hp
    · intro hone h'' p' hcall' hp'
      obtain ⟨rfl, rfl⟩ : h' = h'' ∧ p = p' := by simpa [hcall] using hcall'
      exact hone hp'
  rw [honly, ← hgrant]
  by_cases hn : n ≤ maxRequest c
  · exact iff_of_true (fun hp => (le_blockSize hn).trans (hroom hp).1) (Or.inl hn)
  · constructor
    · exact fun hone => Or.inr fun hp => by have := hone hp; have := (hroom hp).2; omega
    · rintro (hle | hp) hp'
      · exact absurd hle hn
      · exact absurd hp' hp

end CoreLink.RtThread.Memheap

namespace CoreLink.RtThread

open CoreLink.Lib Mem Memheap Memheap.MemheapSys

/-! ## All four allocators -/

/-- **Never less than asked.** After every run of each heap, and for every request of a machine word: `rt_malloc` and
`rt_memheap_alloc` grant what was asked exactly where the rounding does not wrap or no block is left for the smallest
request; `rt_calloc`, where the product does not wrap and rounds without wrapping, or no block is left for the wrapped
one; and `rt_realloc`, where the rounding does not wrap, or there is no old block. -/
theorem alloc_room (c : MemCfg) (m₀ : Nat → HeapMem) (beginAddr endAddr : Nat) (h₀ : Heap) (ls : List Call) (s : Mem.Sys)
    (hinit : rtSystemHeapInit c m₀ beginAddr endAddr = some h₀) (hrun : Run (Mem.Step c) ⟨h₀, []⟩ ls s)
    (c' : MemheapCfg) (m : Memheap) (addr freeHeader startAddr poolSize : Nat)
    (hregion : Region c' freeHeader startAddr poolSize) (es : List MemheapSys.Event) (s' : MemheapSys)
    (hrun' : Run (Guarded (MemheapSys.SumFits c') (MemheapSys.Step c'))
      ⟨rtMemheapInit c' m addr freeHeader startAddr poolSize, []⟩ es s')
    (n count size : Nat) (hn : n < 2 ^ c.wordBits) :
    (MallocGrants c s.heap n ↔ n ≤ Mem.maxRequest c ∨ ¬ Mem.Grantable c s.heap n) ∧
    (CallocGrants c s.heap count size ↔
      count * size ≤ Mem.maxRequest c ∨ ¬ Mem.Grantable c s.heap (count * size % 2 ^ c.wordBits)) ∧
    (∀ p, p ∈ s.live ∨ p = 0 → (ReallocGrants c s.heap p n ↔ n ≤ Mem.maxRequest c ∨ p = 0)) ∧
    (AllocGrants c' s'.heap n ↔ n ≤ Memheap.maxRequest c' ∨ ¬ Memheap.Grantable c' s'.heap n) := by
  obtain ⟨B, hi⟩ := Mem.run_inv hinit hrun
  obtain ⟨bs, fs, i⟩ := hrun'.guarded (I := fun s => ∃ bs fs, MemheapSys.Inv c' s bs fs) (MemheapSys.inv_init m addr hregion)
    fun _ _ _ ⟨_, _, hi⟩ hf hs => hi.step hf hs
  exact ⟨mallocGrants_iff hi n, callocGrants_iff hi count size, fun p hp => reallocGrants_iff hi hp hn,
    allocGrants_iff i n⟩

/-- Two blocks, a cut of the first in place, a free of the second. -/
def heapCalls : List Call := [.malloc 100, .malloc 20, .realloc 4108 20, .free 4220]

/-- The calls `heapCalls` return; the block at 4108 is held. -/
theorem heap_run : ∃ h₀ s, region512 = some h₀ ∧ execAll cfg32 8 ⟨h₀, []⟩ heapCalls = some s ∧ s.live = [4108] := by
  refine ⟨_, _, rfl, rfl, ?_⟩
  decide +kernel

/-- The region of `heap512`. -/
theorem heap512_region : Region cfg4 260 4096 512 := ⟨by decide, by decide, by decide⟩

/-- Requests at the top of the range, after the runs of the heaps of 512 bytes. -/
theorem alloc_room_run : ∃ h₀ s s', region512 = some h₀ ∧
    execAll cfg32 8 ⟨h₀, []⟩ heapCalls = some s ∧
    Run (Guarded (MemheapSys.SumFits cfg4) (MemheapSys.Step cfg4)) MemheapSys.heap512 MemheapSys.memheapCalls s' ∧
    (MallocGrants cfg32 s.heap 4294967295 ↔
      4294967295 ≤ Mem.maxRequest cfg32 ∨ ¬ Mem.Grantable cfg32 s.heap 4294967295) ∧
    (AllocGrants cfg4 s'.heap 4294967295 ↔
      4294967295 ≤ Memheap.maxRequest cfg4 ∨ ¬ Memheap.Grantable cfg4 s'.heap 4294967295) := by
  obtain ⟨s', hrun'⟩ := MemheapSys.memheapCalls_run
  obtain ⟨h₀, s, hinit, hs, -⟩ := heap_run
  obtain ⟨hmalloc, -, -, halloc⟩ := alloc_room cfg32 (fun _ => ⟨0, false, 0, 0⟩) 4096 4608 h₀ heapCalls s hinit
    (run_of_execAll 8 hs) cfg4 MemheapSys.zeroed 256 260 4096 512 heap512_region MemheapSys.memheapCalls s' hrun'
    4294967295 2147483649 2 (by decide)
  exact ⟨h₀, s, s', hinit, hs, hrun', hmalloc, halloc⟩

/-- **At the top of the range**, in the heaps of 512 bytes: a request for 4294967295 bytes is granted 12 by `rt_malloc` and
by `rt_memheap_alloc`, two objects of 2147483649 bytes get 12 from `rt_calloc`, and `rt_realloc` to 4294967295 bytes frees
the block and returns `RT_NULL`. -/
theorem alloc_room_fails : ∃ h₀ s, region512 = some h₀ ∧ execAll cfg32 8 ⟨h₀, []⟩ [.malloc 100] = some s ∧
    ¬ MallocGrants cfg32 h₀ 4294967295 ∧ ¬ CallocGrants cfg32 h₀ 2147483649 2 ∧
    4108 ∈ s.live ∧ ¬ ReallocGrants cfg32 s.heap 4108 4294967295 ∧
    ¬ AllocGrants cfg4 MemheapSys.heap512.heap 4294967295 := by
  obtain ⟨h₀, hinit⟩ : ∃ h₀, region512 = some h₀ := ⟨_, rfl⟩
  have hi := (heapInv_init hinit).1
  obtain ⟨hfirst, -, hlf, -, heq, -⟩ := rtSystemHeapInit_spec hinit
  have hsize : h₀.memSizeAligned = 488 := by
    obtain rfl := Option.some.inj hinit
    decide +kernel
  -- the block that the region begins with is large enough for the smallest request
  have hgrant : ∀ n, n ≠ 0 → cfg32.rtAlign n ≤ 12 → Mem.Grantable cfg32 h₀ n := fun n hn hle => by
    have hS : cfg32.sizeofStructMem = 12 := by decide +kernel
    have hmin : cfg32.minSizeAligned = 12 := by decide +kernel
    have hnext : (h₀.mem 0).next = 500 := by rw [hfirst, heq, hsize, hS]
    refine ⟨hn, 0, ⟨⟨.refl, by omega⟩, by rw [hfirst], by rw [hnext, hmin, hS]; omega⟩, by omega, fun he => ?_⟩
    have hexact := he.2
    rw [hnext, hmin, hS] at hexact
    omega
  obtain ⟨s, hs⟩ : ∃ s, execAll cfg32 8 ⟨h₀, []⟩ [.malloc 100] = some s := by
    obtain rfl := Option.some.inj hinit
    exact ⟨_, rfl⟩
  have hlive : s.live = [4108] := by
    obtain rfl := Option.some.inj hinit
    obtain rfl := Option.some.inj hs
    decide +kernel
  obtain ⟨B, hi'⟩ := Mem.run_inv hinit (run_of_execAll 8 hs)
  obtain ⟨bs, fs, i⟩ := MemheapSys.inv_init MemheapSys.zeroed 256 heap512_region
  refine ⟨h₀, s, hinit, hs, fun hall => ?_, fun hall => ?_, by simp [hlive], fun hall => ?_, fun hall => ?_⟩
  · rcases (mallocGrants_iff hi _).mp hall with hle | hno
    · exact absurd hle (by decide +kernel)
    · exact hno (hgrant 4294967295 (by omega) (by decide +kernel))
  · rcases (callocGrants_iff hi _ _).mp hall with hle | hno
    · exact absurd hle (by decide +kernel)
    · exact hno (hgrant _ (by decide +kernel) (by decide +kernel))
  · rcases (reallocGrants_iff hi' (Or.inl (by simp [hlive])) (by decide +kernel)).mp hall with hle | h0
    · exact absurd hle (by decide +kernel)
    · omega
  · rcases (allocGrants_iff i 4294967295).mp hall with hle | hno
    · exact absurd hle (by decide +kernel)
    · have hfirst : heap512.heap.blockList = 4096 := by decide +kernel
      refine hno ⟨by decide +kernel, 4096, ⟨?_, by decide +kernel⟩, by decide +kernel⟩
      change Memheap.Reach heap512.heap 4096
      rw [Memheap.Reach, hfirst]

end CoreLink.RtThread
