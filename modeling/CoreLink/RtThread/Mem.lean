/-
# `CoreLink.RtThread.Mem` — the small-memory heap of `src/mem.c`.

The heap is one region of bytes. Every block starts with a `struct heap_mem` header that holds the offsets
of the next and of the previous header and a used flag; `heap_end` is a header of its own at the top, always
used. The model keeps the headers as a map from offsets (relative to `heap_ptr`) to header records, and
follows `rt_system_heap_init`, `rt_malloc`, `rt_realloc`, `rt_free` and `plug_holes` statement by statement.

Differences in `rt_size_t` are the wrapping `MemCfg.sub`: `mem_size_aligned - size` in the search bound of
`rt_malloc` does wrap when the block is larger than the heap. The two loops take a fuel argument; `none` is
"did not return within the fuel". User data is not modelled, so the copy of `rt_realloc` has no effect here:
that writing inside a live block leaves every header alone is a theorem of the next module. `RT_ASSERT`, the
log and the hooks are compiled out in this configuration, and `heap_sem` makes each critical section one step.
-/
import CoreLink.Lib.Word

namespace CoreLink.RtThread.Mem

open CoreLink.Lib

/-! ## Configuration -/

/-- The compile-time configuration: the width of `rt_ubase_t`, `RT_ALIGN_SIZE = 2 ^ alignBits`,
`sizeof(struct heap_mem)` and `MIN_SIZE` (12 and 12 on a 32-bit target, 24 and 24 on a 64-bit one). -/
structure MemCfg where
  wordBits : Nat
  alignBits : Nat
  sizeofHeapMem : Nat
  minSize : Nat
  minSize_pos : 0 < minSize
  minSize_le : minSize ≤ sizeofHeapMem
  fits : sizeofHeapMem + 2 ^ alignBits ≤ 2 ^ wordBits

namespace MemCfg

variable (c : MemCfg)

/-- `RT_ALIGN(x, RT_ALIGN_SIZE)`. -/
def rtAlign (x : Nat) : Nat := Word.alignUp c.wordBits c.alignBits x

/-- `RT_ALIGN_DOWN(x, RT_ALIGN_SIZE)`. -/
def rtAlignDown (x : Nat) : Nat := Word.alignDown c.wordBits c.alignBits x

/-- A difference of two `rt_size_t` values. -/
def sub (a b : Nat) : Nat := Word.sub c.wordBits a b

/-- `SIZEOF_STRUCT_MEM`. -/
def sizeofStructMem : Nat := c.rtAlign c.sizeofHeapMem

/-- `MIN_SIZE_ALIGNED`. -/
def minSizeAligned : Nat := c.rtAlign c.minSize

theorem alignBits_le : c.alignBits ≤ c.wordBits := by
  have h := c.fits
  exact (Nat.pow_le_pow_iff_right (by omega)).mp (by omega : 2 ^ c.alignBits ≤ 2 ^ c.wordBits)

theorem minSizeAligned_pos : 0 < c.minSizeAligned := by
  have h := c.fits
  have hle := c.minSize_le
  exact Word.alignUp_pos c.alignBits_le (by omega) c.minSize_pos

/-- A header is no smaller than its unaligned size. -/
theorem sizeofHeapMem_le : c.sizeofHeapMem ≤ c.sizeofStructMem :=
  Word.le_alignUp c.alignBits_le c.fits

theorem sizeofStructMem_pos : 0 < c.sizeofStructMem := by
  have h1 := c.minSize_pos
  have h2 := c.minSize_le
  have h3 := c.sizeofHeapMem_le
  omega

theorem minSize_le_sizeofStructMem : c.minSize ≤ c.sizeofStructMem := by
  have h2 := c.minSize_le
  have h3 := c.sizeofHeapMem_le
  omega

theorem sizeofStructMem_dvd : 2 ^ c.alignBits ∣ c.sizeofStructMem :=
  Word.dvd_alignUp c.alignBits_le

theorem sizeofStructMem_lt : c.sizeofStructMem < 2 ^ c.wordBits :=
  Word.alignUp_lt c.alignBits_le

theorem minSizeAligned_le : c.minSizeAligned ≤ c.sizeofStructMem :=
  Word.alignUp_le c.alignBits_le c.minSize_le_sizeofStructMem c.sizeofStructMem_dvd
    c.sizeofStructMem_lt

theorem sub_of_le {a b : Nat} (hba : b ≤ a) (ha : a < 2 ^ c.wordBits) : c.sub a b = a - b :=
  Word.sub_of_le hba ha

end MemCfg

/-! ## The heap state -/

/-- `HEAP_MAGIC`. -/
def heapMagic : Nat := 0x1ea0

/-- `struct heap_mem`; `next` and `prev` are offsets from `heap_ptr`. -/
structure HeapMem where
  magic : Nat
  used : Bool
  next : Nat
  prev : Nat
  deriving DecidableEq, Repr

/-- The file-level variables of `mem.c`. `heapEnd` and `lfree` are the offsets of the headers that the
pointers of these names point at. -/
structure Heap where
  mem : Nat → HeapMem
  heapPtr : Nat
  heapEnd : Nat
  lfree : Nat
  memSizeAligned : Nat
  usedMem : Nat
  maxMem : Nat

namespace Heap

/-- Write to the header at offset `o`. -/
def modify (h : Heap) (o : Nat) (f : HeapMem → HeapMem) : Heap :=
  { h with mem := Function.update h.mem o (f (h.mem o)) }

@[simp] theorem modify_mem (h : Heap) (o : Nat) (f : HeapMem → HeapMem) (x : Nat) :
    (h.modify o f).mem x = if x = o then f (h.mem o) else h.mem x := by
  simp [modify, Function.update_apply]

@[simp] theorem modify_heapPtr (h : Heap) (o : Nat) (f : HeapMem → HeapMem) :
    (h.modify o f).heapPtr = h.heapPtr := rfl

@[simp] theorem modify_heapEnd (h : Heap) (o : Nat) (f : HeapMem → HeapMem) :
    (h.modify o f).heapEnd = h.heapEnd := rfl

@[simp] theorem modify_lfree (h : Heap) (o : Nat) (f : HeapMem → HeapMem) :
    (h.modify o f).lfree = h.lfree := rfl

@[simp] theorem modify_memSizeAligned (h : Heap) (o : Nat) (f : HeapMem → HeapMem) :
    (h.modify o f).memSizeAligned = h.memSizeAligned := rfl

@[simp] theorem modify_usedMem (h : Heap) (o : Nat) (f : HeapMem → HeapMem) :
    (h.modify o f).usedMem = h.usedMem := rfl

end Heap

/-! ## `rt_system_heap_init` -/

/-- `rt_system_heap_init` on a region whose bytes read as the headers `m₀`; `none` is the early return that
rejects the region. `2 * SIZEOF_STRUCT_MEM` is a constant expression and is taken as it is. -/
def rtSystemHeapInit (c : MemCfg) (m₀ : Nat → HeapMem) (beginAddr endAddr : Nat) : Option Heap :=
  let beginAlign := c.rtAlign beginAddr
  let endAlign := c.rtAlignDown endAddr
  if 2 * c.sizeofStructMem < endAlign ∧ beginAlign ≤ endAlign - 2 * c.sizeofStructMem then
    let memSizeAligned := endAlign - beginAlign - 2 * c.sizeofStructMem
    let top := memSizeAligned + c.sizeofStructMem
    let m₁ := Function.update m₀ 0 { magic := heapMagic, used := false, next := top, prev := 0 }
    let m₂ := Function.update m₁ top { magic := heapMagic, used := true, next := top, prev := top }
    some { mem := m₂, heapPtr := beginAlign, heapEnd := top, lfree := 0, memSizeAligned,
           usedMem := 0, maxMem := 0 }
  else none

/-! ## `plug_holes` -/

/-- The statements that join the block at `hi` to the one at `lo` in front of it: `lfree` moves down if it was
at `hi`, `lo->next = hi->next`, and the header after `hi` gets `prev = lo`. Both halves of `plug_holes` end so. -/
def join (h : Heap) (lo hi : Nat) : Heap :=
  let h := if h.lfree = hi then { h with lfree := lo } else h
  let h := h.modify lo fun m => { m with next := (h.mem hi).next }
  h.modify (h.mem hi).next fun m => { m with prev := lo }

/-- The forward half of `plug_holes`: join an unused next block, unless it is `heap_end`, to `mem`. -/
def plugForward (h : Heap) (mem : Nat) : Heap :=
  let nmem := (h.mem mem).next
  if mem ≠ nmem ∧ (h.mem nmem).used = false ∧ nmem ≠ h.heapEnd then join h mem nmem else h

/-- The backward half of `plug_holes`: join `mem` to an unused previous block. -/
def plugBackward (h : Heap) (mem : Nat) : Heap :=
  let pmem := (h.mem mem).prev
  if pmem ≠ mem ∧ (h.mem pmem).used = false then join h pmem mem else h

/-- `plug_holes`. -/
def plugHoles (h : Heap) (mem : Nat) : Heap := plugBackward (plugForward h mem) mem

/-! ## `rt_malloc` -/

/-- The first-fit loop of `rt_malloc`: `some (some ptr)` is the block found, `some none` the end of the loop
without one. -/
def mallocSearch (c : MemCfg) (h : Heap) (size : Nat) : Nat → Nat → Option (Option Nat)
  | 0, _ => none
  | fuel + 1, ptr =>
      if ptr < c.sub h.memSizeAligned size then
        if (h.mem ptr).used = false ∧ size ≤ c.sub (h.mem ptr).next (ptr + c.sizeofStructMem) then
          some (some ptr)
        else mallocSearch c h size fuel (h.mem ptr).next
      else some none

/-- `while (lfree->used && lfree != heap_end) lfree = lfree->next`. -/
def lfreeAdvance : Nat → Heap → Option Heap
  | 0, _ => none
  | fuel + 1, h =>
      if (h.mem h.lfree).used = true ∧ h.lfree ≠ h.heapEnd then
        lfreeAdvance fuel { h with lfree := (h.mem h.lfree).next }
      else some h

/-- `used_mem += n` and the running maximum. -/
def Heap.addUsed (h : Heap) (n : Nat) : Heap :=
  { h with usedMem := h.usedMem + n, maxMem := max h.maxMem (h.usedMem + n) }

/-- Cut the block at `ptr` after `size` bytes of data: the remainder becomes an unused block of its own, put
between `ptr` and the old next block. `rt_malloc` and `rt_realloc` share these statements. -/
def splitAt (c : MemCfg) (h : Heap) (ptr size : Nat) : Heap :=
  let ptr2 := ptr + c.sizeofStructMem + size
  let nxt := (h.mem ptr).next
  let h := h.modify ptr2 fun _ => { magic := heapMagic, used := false, next := nxt, prev := ptr }
  let h := h.modify ptr fun m => { m with next := ptr2 }
  if nxt ≠ h.memSizeAligned + c.sizeofStructMem then
    h.modify nxt fun m => { m with prev := ptr2 }
  else h

/-- What `rt_malloc` does with the block it found: split it when a block of `MIN_SIZE_ALIGNED` bytes remains,
mark it used, account for it. -/
def mallocTake (c : MemCfg) (h : Heap) (ptr size : Nat) : Heap :=
  let avail := c.sub (h.mem ptr).next (ptr + c.sizeofStructMem)
  let h :=
    if size + c.sizeofStructMem + c.minSizeAligned ≤ avail then
      ((splitAt c h ptr size).modify ptr fun m => { m with used := true }).addUsed
        (size + c.sizeofStructMem)
    else
      (h.modify ptr fun m => { m with used := true }).addUsed (c.sub (h.mem ptr).next ptr)
  h.modify ptr fun m => { m with magic := heapMagic }

/-- The size that `rt_malloc` searches for: the aligned request, raised to `MIN_SIZE_ALIGNED`. -/
def blockSize (c : MemCfg) (size : Nat) : Nat :=
  if c.rtAlign size < c.minSizeAligned then c.minSizeAligned else c.rtAlign size

/-- `rt_malloc`: the heap after the call and the pointer returned (`RT_NULL` is 0). -/
def rtMalloc (c : MemCfg) (fuel : Nat) (h : Heap) (size : Nat) : Option (Heap × Nat) :=
  if size = 0 then some (h, 0)
  else if h.memSizeAligned < c.rtAlign size then some (h, 0)
  else
    match mallocSearch c h (blockSize c size) fuel h.lfree with
    | none => none
    | some none => some (h, 0)
    | some (some ptr) =>
        let h' := mallocTake c h ptr (blockSize c size)
        if ptr = h'.lfree then
          (lfreeAdvance fuel h').map fun h'' => (h'', h.heapPtr + ptr + c.sizeofStructMem)
        else some (h', h.heapPtr + ptr + c.sizeofStructMem)

/-! ## `rt_free` and `rt_realloc` -/

/-- `rmem` is an address inside the heap, as `rt_free` and `rt_realloc` test it. -/
def Heap.inRange (h : Heap) (rmem : Nat) : Prop :=
  ¬ (rmem < h.heapPtr ∨ h.heapPtr + h.heapEnd ≤ rmem)

instance (h : Heap) (rmem : Nat) : Decidable (h.inRange rmem) := by
  unfold Heap.inRange
  infer_instance

/-- The offset of the header in front of the data at `rmem`. -/
def Heap.header (c : MemCfg) (h : Heap) (rmem : Nat) : Nat := rmem - c.sizeofStructMem - h.heapPtr

/-- The statements of `rt_free` between its checks and `plug_holes`. -/
def freeMark (c : MemCfg) (h : Heap) (mem : Nat) : Heap :=
  let h := h.modify mem fun m => { m with used := false, magic := heapMagic }
  let h := if mem < h.lfree then { h with lfree := mem } else h
  { h with usedMem := c.sub h.usedMem (c.sub (h.mem mem).next mem) }

/-- `rt_free`. -/
def rtFree (c : MemCfg) (h : Heap) (rmem : Nat) : Heap :=
  if rmem = 0 then h
  else if ¬ h.inRange rmem then h
  else plugHoles (freeMark c h (h.header c rmem)) (h.header c rmem)

/-- `rt_realloc` cuts the block in place: `newsize + SIZEOF_STRUCT_MEM + MIN_SIZE < size`. -/
def shrinksInPlace (c : MemCfg) (h : Heap) (rmem newsize : Nat) : Prop :=
  let ptr := h.header c rmem
  c.rtAlign newsize + c.sizeofStructMem + c.minSize
    < c.sub (c.sub (h.mem ptr).next ptr) c.sizeofStructMem

instance (c : MemCfg) (h : Heap) (rmem newsize : Nat) : Decidable (shrinksInPlace c h rmem newsize) := by
  unfold shrinksInPlace
  infer_instance

/-- The in-place branch of `rt_realloc`. -/
def shrink (c : MemCfg) (h : Heap) (ptr newsize : Nat) : Heap :=
  let size := c.sub (c.sub (h.mem ptr).next ptr) c.sizeofStructMem
  let h := { h with usedMem := c.sub h.usedMem (c.sub size newsize) }
  plugHoles (splitAt c h ptr newsize) (ptr + c.sizeofStructMem + newsize)

/-- `rt_realloc`: the heap after the call and the pointer returned. -/
def rtRealloc (c : MemCfg) (fuel : Nat) (h : Heap) (rmem newsize : Nat) : Option (Heap × Nat) :=
  let size' := c.rtAlign newsize
  if h.memSizeAligned < size' then some (h, 0)
  else if size' = 0 then some (rtFree c h rmem, 0)
  else if rmem = 0 then rtMalloc c fuel h size'
  else if ¬ h.inRange rmem then some (h, rmem)
  else
    let ptr := h.header c rmem
    let size := c.sub (c.sub (h.mem ptr).next ptr) c.sizeofStructMem
    if size = size' then some (h, rmem)
    else if shrinksInPlace c h rmem newsize then some (shrink c h ptr size', rmem)
    else
      match rtMalloc c fuel h size' with
      | none => none
      | some (h', nmem) => if nmem = 0 then some (h', 0) else some (rtFree c h' rmem, nmem)

end CoreLink.RtThread.Mem
