/-
# `CoreLink.RtThread.Memheap` — the memory heap of `src/memheap.c`.

A heap object manages one region. Every block of it starts with a `struct rt_memheap_item`, linked to the blocks before
and behind it by `prev` and `next`, and to the other free blocks by `prev_free` and `next_free`; the last item is a
tailer without data. The fields of the items are maps from addresses: `next p` is `((struct rt_memheap_item *)p)->next`.
Addresses and sizes are 32 bits wide, and differences and sums wrap.

An item that has been merged away keeps its fields in the maps. No function reads them; that they may be overwritten, by
the header of a new block that overlaps the old one or by the data of a block, is the call `write` of the module of the
runs. User data itself, and with it the copy of `rt_memheap_realloc`, `RT_ASSERT`, the log and the lock (which makes
each critical section one step) are left out.
-/
import CoreLink.Lib.Word

namespace CoreLink.RtThread

open CoreLink.Lib

/-! ## Configuration -/

/-- `RT_ALIGN_SIZE` is `2 ^ alignBits`; `sizeof(struct rt_memheap_item)` is 24. -/
structure MemheapCfg where
  alignBits : Nat
  fits : 24 + 2 ^ alignBits ≤ 2 ^ 32

namespace MemheapCfg

variable (c : MemheapCfg)

/-- `RT_ALIGN(x, RT_ALIGN_SIZE)`. -/
def rtAlign (x : Nat) : Nat := Word.alignUp 32 c.alignBits x

/-- `RT_ALIGN_DOWN(x, RT_ALIGN_SIZE)`. -/
def rtAlignDown (x : Nat) : Nat := Word.alignDown 32 c.alignBits x

/-- `RT_MEMHEAP_SIZE`. -/
def memheapSize : Nat := c.rtAlign 24

end MemheapCfg

/-- `RT_MEMHEAP_MINIALLOC`. -/
def memheapMinialloc : Nat := 12

/-- `RT_MEMHEAP_MAGIC`. -/
def memheapMagic : BitVec 32 := 0x1ea01ea0#32

/-- `RT_MEMHEAP_USED`. -/
def memheapUsed : BitVec 32 := 1#32

/-! ## The heap state -/

/-- `struct rt_memheap` and the fields of the items. `addr` is the address of the structure; `RT_NULL` is 0. -/
structure Memheap where
  addr : Nat
  startAddr : Nat
  poolSize : Nat
  availableSize : Nat
  maxUsedSize : Nat
  blockList : Nat
  freeList : Nat
  magic : Nat → BitVec 32
  poolPtr : Nat → Nat
  next : Nat → Nat
  prev : Nat → Nat
  nextFree : Nat → Nat
  prevFree : Nat → Nat

namespace Memheap

/-- A sum of two 32-bit values. -/
def add (a b : Nat) : Nat := (a + b) % 2 ^ 32

/-- A difference of two 32-bit values. -/
def sub (a b : Nat) : Nat := Word.sub 32 a b

/-- `item->magic = v`. -/
def setMagic (h : Memheap) (item : Nat) (v : BitVec 32) : Memheap :=
  { h with magic := Function.update h.magic item v }

/-- `item->pool_ptr = heap`. -/
def setPoolPtr (h : Memheap) (item : Nat) : Memheap := { h with poolPtr := Function.update h.poolPtr item h.addr }

/-- `item->next = v`. -/
def setNext (h : Memheap) (item v : Nat) : Memheap := { h with next := Function.update h.next item v }

/-- `item->prev = v`. -/
def setPrev (h : Memheap) (item v : Nat) : Memheap := { h with prev := Function.update h.prev item v }

/-- `item->next_free = v`. -/
def setNextFree (h : Memheap) (item v : Nat) : Memheap := { h with nextFree := Function.update h.nextFree item v }

/-- `item->prev_free = v`. -/
def setPrevFree (h : Memheap) (item v : Nat) : Memheap := { h with prevFree := Function.update h.prevFree item v }

/-- `RT_MEMHEAP_IS_USED`. -/
def isUsed (h : Memheap) (item : Nat) : Bool := (h.magic item &&& memheapUsed) != 0#32

/-- `MEMITEM_SIZE`. -/
def memitemSize (c : MemheapCfg) (h : Memheap) (item : Nat) : Nat := sub (sub (h.next item) item) c.memheapSize

/-- `heap->available_size = v`. -/
def setAvailableSize (h : Memheap) (v : Nat) : Memheap := { h with availableSize := v }

/-- `available_size = v`, where the size shrinks: with the maximum of the used size. -/
def setAvailable (h : Memheap) (v : Nat) : Memheap :=
  { h with availableSize := v, maxUsedSize := max h.maxUsedSize (sub h.poolSize v) }

/-- "insert to free list", as all functions do it: behind `free_list`. -/
def insertFree (h : Memheap) (item : Nat) : Memheap :=
  let h := h.setNextFree item (h.nextFree h.freeList)
  let h := h.setPrevFree item h.freeList
  let h := h.setPrevFree (h.nextFree h.freeList) item
  h.setNextFree h.freeList item

/-- "remove from free list", as all functions do it. -/
def removeFree (h : Memheap) (item : Nat) : Memheap :=
  let h := h.setPrevFree (h.nextFree item) (h.prevFree item)
  h.setNextFree (h.prevFree item) (h.nextFree item)

/-- `item->next_free = RT_NULL` and `item->prev_free = RT_NULL`. -/
def clearFree (h : Memheap) (item : Nat) : Memheap := (h.setNextFree item 0).setPrevFree item 0

/-- "mark the new block as a memory block and freed", "put the pool pointer into the new block" and "break down the
block list": the new block `item` behind `header`. -/
def insertBlock (h : Memheap) (header item : Nat) : Memheap :=
  let h := h.setMagic item memheapMagic
  let h := h.setPoolPtr item
  let h := h.setPrev item header
  let h := h.setNext item (h.next header)
  let h := h.setPrev (h.next header) item
  h.setNext header item

/-! ## `rt_memheap_init` -/

/-- "initialize pool object". -/
def initObject (m : Memheap) (addr startAddr poolSize availableSize : Nat) : Memheap :=
  { m with
    addr := addr, startAddr := startAddr, poolSize := poolSize, availableSize := availableSize,
    maxUsedSize := sub poolSize availableSize }

/-- "initialize the free list header", and "set the free list to free list header". -/
def initFreeHeader (h : Memheap) (item : Nat) : Memheap :=
  let h := (h.setMagic item memheapMagic).setPoolPtr item
  let h := (h.setNext item 0).setPrev item 0
  let h := (h.setNextFree item item).setPrevFree item item
  { h with freeList := item }

/-- "initialize the first big memory block", whose next item is at `next`, and "place the big memory block to free
list". -/
def initBlock (h : Memheap) (item next : Nat) : Memheap :=
  let h := (h.setMagic item memheapMagic).setPoolPtr item
  let h := (h.setNext item 0).setPrev item 0
  let h := (h.setNextFree item item).setPrevFree item item
  let h := h.setNext item next
  let h := h.setPrev item (h.next item)
  let h := { h with blockList := item }
  h.insertFree item

/-- "build a small tailer block". -/
def initTailer (h : Memheap) (item : Nat) : Memheap :=
  let h := (h.setMagic item (memheapMagic ||| memheapUsed)).setPoolPtr item
  let h := (h.setNext item h.startAddr).setPrev item h.startAddr
  (h.setNextFree item 0).setPrevFree item 0

/-- `rt_memheap_init` of the object at `addr`, whose `free_header` is at `freeHeader`; the items have been `m` before. -/
def rtMemheapInit (c : MemheapCfg) (m : Memheap) (addr freeHeader startAddr size : Nat) : Memheap :=
  let poolSize := c.rtAlignDown size
  let availableSize := sub poolSize (2 * c.memheapSize)
  let h := initObject m addr startAddr poolSize availableSize
  let h := h.initFreeHeader freeHeader
  let h := h.initBlock startAddr (add (add startAddr h.availableSize) c.memheapSize)
  h.initTailer (h.next startAddr)

/-! ## `rt_memheap_alloc` -/

/-- The search of `rt_memheap_alloc`: `header_ptr` and `free_size` when the loop ends; `none` if it did not end within
the fuel. -/
def searchFree (c : MemheapCfg) (h : Memheap) (size : Nat) : Nat → Nat → Nat → Option (Nat × Nat)
  | 0, _, _ => none
  | fuel + 1, headerPtr, freeSize =>
      if headerPtr ≠ h.freeList ∧ freeSize < size then
        let freeSize := h.memitemSize c headerPtr
        if freeSize < size then searchFree c h size fuel (h.nextFree headerPtr) freeSize
        else searchFree c h size fuel headerPtr freeSize
      else some (headerPtr, freeSize)

/-- "split the block": `size` bytes stay, the rest goes to the free list. -/
def splitBlock (c : MemheapCfg) (h : Memheap) (headerPtr size : Nat) : Memheap :=
  let newPtr := add (add headerPtr size) c.memheapSize
  let h := h.insertBlock headerPtr newPtr
  let h := (h.removeFree headerPtr).clearFree headerPtr
  let h := h.insertFree newPtr
  h.setAvailable (sub (sub h.availableSize size) c.memheapSize)

/-- "decrement the entire free size from the available bytes count", and off the free list. -/
def wholeBlock (h : Memheap) (headerPtr freeSize : Nat) : Memheap :=
  let h := h.setAvailable (sub h.availableSize freeSize)
  (h.removeFree headerPtr).clearFree headerPtr

/-- "a block that satisfies the request has been found". -/
def takeBlock (c : MemheapCfg) (h : Memheap) (headerPtr freeSize size : Nat) : Memheap :=
  let h :=
    if freeSize ≥ add size (c.memheapSize + memheapMinialloc) then splitBlock c h headerPtr size
    else wholeBlock h headerPtr freeSize
  h.setMagic headerPtr (h.magic headerPtr ||| memheapUsed)

/-- "align allocated size", and at least `RT_MEMHEAP_MINIALLOC`. -/
def blockSize (c : MemheapCfg) (size : Nat) : Nat :=
  if c.rtAlign size < memheapMinialloc then memheapMinialloc else c.rtAlign size

/-- `rt_memheap_alloc`: the heap after the call and the pointer returned. The free list is not longer than the pool, so
that the fuel is enough. -/
def rtMemheapAlloc (c : MemheapCfg) (h : Memheap) (size : Nat) : Option (Memheap × Nat) :=
  let size := blockSize c size
  if size < h.availableSize then
    (searchFree c h size (h.poolSize + 2) (h.nextFree h.freeList) 0).map fun r =>
      if r.2 ≥ size then (takeBlock c h r.1 r.2 size, add r.1 c.memheapSize) else (h, 0)
  else some (h, 0)

/-! ## `rt_memheap_free` -/

/-- `rt_memheap_free`. The heap that `pool_ptr` names is this one. -/
def rtMemheapFree (c : MemheapCfg) (h : Memheap) (ptr : Nat) : Memheap :=
  if ptr = 0 then h
  else
    let headerPtr := sub ptr c.memheapSize
    let h := h.setMagic headerPtr (h.magic headerPtr &&& ~~~memheapUsed)
    let h := h.setAvailableSize (add h.availableSize (h.memitemSize c headerPtr))
    -- merge with the previous neighbour
    let insertHeader := h.isUsed (h.prev headerPtr)
    let left := h.prev headerPtr
    let h :=
      if insertHeader then h
      else
        let h := h.setAvailableSize (add h.availableSize c.memheapSize)
        let h := h.setNext (h.prev headerPtr) (h.next headerPtr)
        h.setPrev (h.next headerPtr) (h.prev headerPtr)
    let headerPtr := if insertHeader then headerPtr else left
    -- merge with the next neighbour
    let h :=
      if h.isUsed (h.next headerPtr) then h
      else
        let h := h.setAvailableSize (add h.availableSize c.memheapSize)
        let newPtr := h.next headerPtr
        let h := h.setPrev (h.next newPtr) headerPtr
        let h := h.setNext headerPtr (h.next newPtr)
        h.removeFree newPtr
    if insertHeader then h.insertFree headerPtr else h

/-! ## `rt_memheap_realloc` -/

/-- "check whether the following free space is enough to expand". -/
def fitsInPlace (c : MemheapCfg) (h : Memheap) (headerPtr newsize : Nat) : Prop :=
  h.isUsed (h.next headerPtr) = false ∧
    add (h.memitemSize c (h.next headerPtr)) (h.memitemSize c headerPtr) > add newsize memheapMinialloc

instance (c : MemheapCfg) (h : Memheap) (headerPtr newsize : Nat) : Decidable (fitsInPlace c h headerPtr newsize) :=
  inferInstanceAs (Decidable (_ ∧ _))

/-- Growing in place: the next block is taken off both lists, and a new one put in the right place. -/
def growInPlace (c : MemheapCfg) (h : Memheap) (ptr newsize : Nat) : Memheap :=
  let headerPtr := sub ptr c.memheapSize
  let nextPtr := h.next headerPtr
  let h := h.setAvailable (sub h.availableSize (sub newsize (h.memitemSize c headerPtr)))
  let h := h.removeFree nextPtr
  let h := h.setPrev (h.next nextPtr) (h.prev nextPtr)
  let h := h.setNext (h.prev nextPtr) (h.next nextPtr)
  let nextPtr := add ptr newsize
  let h := h.insertBlock headerPtr nextPtr
  h.insertFree nextPtr

/-- Shrinking in place: the rest becomes a block of its own, merged with the next one if that is free. -/
def shrinkInPlace (c : MemheapCfg) (h : Memheap) (headerPtr newsize : Nat) : Memheap :=
  let newPtr := add (add headerPtr newsize) c.memheapSize
  let h := h.insertBlock headerPtr newPtr
  let h :=
    if h.isUsed (h.next newPtr) then h
    else
      let freePtr := h.next newPtr
      let h := h.setAvailableSize (sub h.availableSize (h.memitemSize c freePtr))
      let h := h.setPrev (h.next freePtr) newPtr
      let h := h.setNext newPtr (h.next freePtr)
      h.removeFree freePtr
  let h := h.insertFree newPtr
  h.setAvailableSize (add h.availableSize (h.memitemSize c newPtr))

/-- `rt_memheap_realloc`: the heap after the call and the pointer returned. -/
def rtMemheapRealloc (c : MemheapCfg) (h : Memheap) (ptr newsize : Nat) : Option (Memheap × Nat) :=
  if newsize = 0 then some (rtMemheapFree c h ptr, 0)
  else
    let newsize := blockSize c newsize
    if ptr = 0 then rtMemheapAlloc c h newsize
    else
      let headerPtr := sub ptr c.memheapSize
      let oldsize := h.memitemSize c headerPtr
      if newsize > oldsize then
        if fitsInPlace c h headerPtr newsize then some (growInPlace c h ptr newsize, ptr)
        else
          (rtMemheapAlloc c h newsize).map fun r =>
            if r.2 ≠ 0 then (rtMemheapFree c r.1 ptr, r.2) else (r.1, 0)
      else if add newsize (c.memheapSize + memheapMinialloc) ≥ oldsize then some (h, ptr)
      else some (shrinkInPlace c h headerPtr newsize, ptr)

end Memheap

end CoreLink.RtThread
