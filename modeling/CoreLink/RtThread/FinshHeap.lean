/-
# `CoreLink.RtThread.FinshHeap` — the heap of the shell, `components/finsh/finsh_heap.c`.

Each block has a header with its length and a link, which is used by the list of the free blocks and by the list of the
allocated ones. Addresses are relative to the beginning of `finsh_heap`, modulo 2^32. The headers are kept apart from the
bytes of the blocks. A walk along a list has fuel; running out of it, a write outside of the heap, and the use of `NULL` are
faults, and the model says nothing about what comes after one.
-/
import CoreLink.Lib.ChainWalk
import CoreLink.Lib.Run
import CoreLink.Lib.Word

namespace CoreLink.RtThread

open CoreLink.Lib

def finshHeapMax : ℕ := 128

/-- `sizeof(struct finsh_block_header)`. -/
def blockHeaderSize : ℕ := 8

def heapAlignment : ℕ := 4

/-- `HEAP_ALIGN_SIZE`. -/
def heapAlignSize (size : ℕ) : ℕ := (size + (heapAlignment - 1)) % 2 ^ 32 / heapAlignment * heapAlignment

/-- The fuel of a walk: no list has as many blocks as the heap has bytes. -/
def walkFuel : ℕ := finshHeapMax + 1

/-- `struct finsh_var`, as far as the collector looks at it; `ptr` is `value.ptr`. -/
structure HeapVar where
  /-- `type != finsh_type_unknown` -/
  declared : Bool
  ptr : ℕ

/-- `finsh_heap` with its two lists. -/
structure FinshHeap where
  length : ℕ → ℕ
  next : ℕ → Option ℕ
  freeList : Option ℕ
  allocateList : Option ℕ
  bytes : ℕ → UInt8

/-- A list: the links, and the pointer to the first block. -/
abbrev BlockList := (ℕ → Option ℕ) × Option ℕ

/-- `finsh_block_insert`. -/
def finshBlockInsert (next : ℕ → Option ℕ) (list : Option ℕ) (header : ℕ) : Option BlockList :=
  match list with
  | none => some (next, some header)
  | some first =>
    if header < first then some (Function.update next header (some first), some header)
    else
      match findFrom next (fun node => decide (∃ m ∈ next node, header < m) || (next node).isNone) walkFuel list with
      | some (some node) =>
        let next := if (next node).isSome then Function.update next header (next node) else next
        some (Function.update next node (some header), list)
      | _ => none

/-- `finsh_block_remove`. -/
def finshBlockRemove (next : ℕ → Option ℕ) (list : Option ℕ) (header : ℕ) : Option BlockList :=
  if list = some header then some (Function.update next header none, next header)
  else
    match findFrom next (fun node => decide (next node = some header)) walkFuel list with
    | none => none
    | some none => some (next, list)
    | some (some node) => some (Function.update next node (next header), list)

namespace FinshHeap

def freeBlock (s : FinshHeap) (l : BlockList) : FinshHeap := { s with next := l.1, freeList := l.2 }

def allocateBlock (s : FinshHeap) (l : BlockList) : FinshHeap := { s with next := l.1, allocateList := l.2 }

def setLength (s : FinshHeap) (header length : ℕ) : FinshHeap :=
  { s with length := Function.update s.length header length }

def setNext (s : FinshHeap) (header : ℕ) (next : Option ℕ) : FinshHeap :=
  { s with next := Function.update s.next header next }

/-- `finsh_heap_init`. -/
def init : FinshHeap where
  length header := if header = 0 then finshHeapMax - blockHeaderSize else 0
  next _ := none
  freeList := some 0
  allocateList := none
  bytes _ := 0

/-- `finsh_block_split`. -/
def finshBlockSplit (s : FinshHeap) (header size : ℕ) : Option FinshHeap :=
  let next := (header + blockHeaderSize + size) % 2 ^ 32
  if finshHeapMax < next + blockHeaderSize then none
  else
    let s := s.setLength next (Word.sub 32 (Word.sub 32 (s.length header) blockHeaderSize) size)
    let s := s.setLength header size
    let s := s.setNext next (s.next header)
    some (s.setNext header (some next))

/-- Where a block ends. -/
def blockEnd (s : FinshHeap) (header : ℕ) : ℕ := (header + s.length header + blockHeaderSize) % 2 ^ 32

/-- `finsh_block_merge`, on the free list. -/
def finshBlockMerge (s : FinshHeap) (header : ℕ) : Option FinshHeap :=
  let prevNode := if s.freeList = some header then some none
    else findFrom s.next (fun node => decide (s.next node = some header)) walkFuel s.freeList
  prevNode.map fun prevNode =>
    match prevNode.filter fun prev => s.blockEnd prev = header, (s.next header).filter fun next => s.blockEnd header = next with
    | some prev, some next =>
      -- merge three node
      (s.setLength prev ((s.length prev + (s.length header + s.length next + 2 * blockHeaderSize)) % 2 ^ 32)).setNext prev
        (s.next next)
    | some prev, none =>
      (s.setLength prev ((s.length prev + (s.length header + blockHeaderSize)) % 2 ^ 32)).setNext prev (s.next header)
    | none, some next =>
      (s.setLength header ((s.length header + (s.length next + blockHeaderSize)) % 2 ^ 32)).setNext header (s.next next)
    | none, none => s

/-- `finsh_heap_free`. -/
def finshHeapFree (s : FinshHeap) (ptr : ℕ) : Option FinshHeap :=
  let header := Word.sub 32 ptr blockHeaderSize
  (finshBlockRemove s.next s.allocateList header).bind fun l =>
    let s := s.allocateBlock l
    (finshBlockInsert s.next s.freeList header).bind fun l => (s.freeBlock l).finshBlockMerge header

/-- A variable points at the bytes of the block. -/
def Referenced (vars : List HeapVar) (header : ℕ) : Prop :=
  ∃ v ∈ vars, v.declared = true ∧ v.ptr = header + blockHeaderSize

instance (vars : List HeapVar) (header : ℕ) : Decidable (Referenced vars header) :=
  inferInstanceAs (Decidable (∃ v ∈ vars, _ ∧ _))

/-- The loop of `finsh_heap_gc`, from a block on. -/
def gcLoop (vars : List HeapVar) : ℕ → FinshHeap → Option ℕ → Option FinshHeap
  | 0, _, _ => none
  | _ + 1, s, none => some s
  | fuel + 1, s, some header =>
    let following := s.next header
    if Referenced vars header then gcLoop vars fuel s following
    else (s.finshHeapFree (header + blockHeaderSize)).bind fun s => gcLoop vars fuel s following

/-- `finsh_heap_gc`. -/
def finshHeapGc (s : FinshHeap) (vars : List HeapVar) : Option FinshHeap := gcLoop vars walkFuel s s.allocateList

/-- The end of `finsh_heap_allocate`: the block that has been found is split, and goes to the other list. -/
def takeBlock (s : FinshHeap) (header size : ℕ) : Option (FinshHeap × Option ℕ) :=
  (s.finshBlockSplit header size).bind fun s =>
    (finshBlockRemove s.next s.freeList header).bind fun l =>
      let s := (s.freeBlock l).setNext header none
      (finshBlockInsert s.next s.allocateList header).bind fun l =>
        let s := s.allocateBlock l
        let data := header + blockHeaderSize
        if finshHeapMax < data + size then none
        else some ({ s with bytes := fun x => if data ≤ x ∧ x < data + size then 0 else s.bytes x }, some data)

/-- `finsh_heap_allocate`, with the variables for the collector. -/
def finshHeapAllocate (s : FinshHeap) (vars : List HeapVar) (size : ℕ) : Option (FinshHeap × Option ℕ) :=
  let size := heapAlignSize size
  let need := (size + blockHeaderSize) % 2 ^ 32
  match findFrom s.next (fun header => decide (need < s.length header)) walkFuel s.freeList with
  | none => none
  | some (some header) => s.takeBlock header size
  | some none =>
    (s.finshHeapGc vars).bind fun s =>
      match findFrom s.next (fun header => decide (need ≤ s.length header)) walkFuel s.freeList with
      | none => none
      | some (some header) => s.takeBlock header size
      -- there is no memory
      | some none => some (s, none)

end FinshHeap

/-! ## What the heap promises -/

/-- The calls. The variables are those at the time of the call. -/
inductive HeapCall where
  | allocate (size : ℕ) (vars : List HeapVar)
  | free (ptr : ℕ)

namespace FinshHeap

/-- A call, with the pointer that it returns; `none` is a fault. -/
def exec (s : FinshHeap) : HeapCall → Option (FinshHeap × Option ℕ)
  | .allocate size vars => s.finshHeapAllocate vars size
  | .free ptr => (s.finshHeapFree ptr).map fun s => (s, none)

/-- The pointer is the one to the bytes of an allocated block. -/
def Live (s : FinshHeap) (ptr : ℕ) : Prop :=
  ∃ used, Chain s.next s.allocateList used ∧ ∃ header ∈ used, ptr = header + blockHeaderSize

/-- That a call can be made: `size_t` has 32 bits, and what is freed is a live block. -/
def Enabled (s : FinshHeap) : HeapCall → Prop
  | .allocate size _ => size < 2 ^ 32
  | .free ptr => s.Live ptr

/-- One step. -/
def Step (s : FinshHeap) (l : HeapCall × Option ℕ) (s' : FinshHeap) : Prop :=
  s.Enabled l.1 ∧ s.exec l.1 = some (s', l.2)

/-- **The two lists of the heap**: they end, are in order, and have no block in common; each byte of the heap is in exactly
one of their blocks, and these are within the heap; and no free block begins where another one ends. -/
structure Sound (s : FinshHeap) (free used : List ℕ) : Prop where
  freeList : Chain s.next s.freeList free
  allocateList : Chain s.next s.allocateList used
  freeSorted : free.Pairwise (· < ·)
  usedSorted : used.Pairwise (· < ·)
  disjoint : free.Disjoint used
  tiles : ∀ x, x < finshHeapMax → ∃! header, header ∈ free ++ used ∧ header ≤ x ∧
    x < header + blockHeaderSize + s.length header
  inside : ∀ header ∈ free ++ used, header + blockHeaderSize + s.length header ≤ finshHeapMax
  apart : ∀ header ∈ free, ∀ next ∈ free, header + blockHeaderSize + s.length header ≠ next

/-- What a call promises: it ends, without a fault, and what it allocates is a live block of the size at least. -/
def Served (s : FinshHeap) (call : HeapCall) : Prop :=
  ∃ s' result, s.exec call = some (s', result) ∧ ∀ ptr, result = some ptr → ∃ size vars header,
    call = .allocate size vars ∧ ptr = header + blockHeaderSize ∧ s'.Live ptr ∧ size ≤ s'.length header

/-- The condition on a call: a size is not so large that its sum with a header, rounded up, is more than 32 bits hold. -/
def SizeOk : HeapCall → Prop
  | .allocate size _ => size + 11 < 2 ^ 32
  | .free _ => True

end FinshHeap

end CoreLink.RtThread
