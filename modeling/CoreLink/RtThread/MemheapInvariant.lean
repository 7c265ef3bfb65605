/-
# `CoreLink.RtThread.MemheapInvariant` — the two lists of a memory heap, edit by edit.

`Blocks c h bs fs` says that the items `bs` form a ring along `next` and `prev`, in address order from the start of the
pool to the tailer, and that the free list with its header is a ring of `fs`. The functions of the heap are made of a few
edits, and each of them keeps `Blocks`: a block is cut off, a block is joined to the one in front of it, an item goes to
the free list or is taken off it. What these say about the marks and the sizes is the invariant `MemheapInv`.
-/
import CoreLink.Lib.Layout
import CoreLink.Lib.Ring
import CoreLink.RtThread.Memheap
import Mathlib.Data.List.Perm.Subperm

namespace CoreLink.RtThread.Memheap

open CoreLink.Lib CoreLink.Lib.Layout

variable {c : MemheapCfg} {h h' : Memheap} {bs fs as cs : List Nat} {a b n x z : Nat}

/-! ## Sizes and marks -/

theorem le_memheapSize (c : MemheapCfg) : 24 ≤ c.memheapSize :=
  Word.le_alignUp (by
    have hf := c.fits
    exact (Nat.pow_le_pow_iff_right (by omega)).mp (by omega : 2 ^ c.alignBits ≤ 2 ^ 32)) c.fits

theorem sub_of_le (hba : b ≤ a) (ha : a < 2 ^ 32) : sub a b = a - b := Word.sub_of_le hba ha

theorem add_of_lt (hab : a + b < 2 ^ 32) : add a b = a + b := Nat.mod_eq_of_lt hab

/-- The mark is the lowest bit. -/
theorem isUsed_eq (h : Memheap) (item : Nat) : h.isUsed item = (h.magic item)[0] := by
  unfold isUsed memheapUsed
  cases hb : (h.magic item)[0] with
  | true =>
    rw [bne_iff_ne]
    intro heq
    have hbit := congrArg (fun v : BitVec 32 => v[0]) heq
    simp [hb] at hbit
  | false =>
    rw [bne_eq_false_iff_eq]
    refine BitVec.eq_of_getElem_eq fun i hi => ?_
    rcases Nat.eq_zero_or_pos i with rfl | hpos
    · simp [hb]
    · simp [BitVec.getElem_one, Nat.pos_iff_ne_zero.mp hpos]

theorem isUsed_setMagic (h : Memheap) (item : Nat) (v : BitVec 32) (x : Nat) :
    (h.setMagic item v).isUsed x = if x = item then v[0] else h.isUsed x := by
  rw [isUsed_eq, isUsed_eq]
  simp only [setMagic, Function.update_apply]
  split_ifs <;> rfl

/-! ## What the edits write to -/

theorem insertBlock_eq (h : Memheap) (header item : Nat) : h.insertBlock header item = { h with
    magic := Function.update h.magic item memheapMagic
    poolPtr := Function.update h.poolPtr item h.addr
    next := Function.update (Function.update h.next item (h.next header)) header item
    prev := Function.update (Function.update h.prev item header) (h.next header) item } := by
  simp only [insertBlock, setMagic, setPoolPtr, setPrev, setNext, Function.update_apply, ite_self]

theorem insertFree_eq (h : Memheap) {item : Nat} (hne : item ≠ h.freeList) : h.insertFree item = { h with
    nextFree := Function.update (Function.update h.nextFree item (h.nextFree h.freeList)) h.freeList item
    prevFree := Function.update (Function.update h.prevFree item h.freeList) (h.nextFree h.freeList) item } := by
  simp only [insertFree, setNextFree, setPrevFree, Function.update_of_ne hne.symm]

theorem removeFree_eq (h : Memheap) (item : Nat) : h.removeFree item = { h with
    nextFree := Function.update h.nextFree (h.prevFree item) (h.nextFree item)
    prevFree := Function.update h.prevFree (h.nextFree item) (h.prevFree item) } := by
  simp only [removeFree, setNextFree, setPrevFree, Function.update_apply, ite_self]

/-- An edit of the free list writes to nothing else. -/
@[simp] theorem insertFree_same (h : Memheap) (item : Nat) :
    (h.insertFree item).isUsed = h.isUsed ∧ (h.insertFree item).magic = h.magic ∧
      (h.insertFree item).poolPtr = h.poolPtr ∧ (h.insertFree item).next = h.next ∧
      (h.insertFree item).addr = h.addr ∧ (h.insertFree item).startAddr = h.startAddr ∧
      (h.insertFree item).poolSize = h.poolSize ∧ (h.insertFree item).freeList = h.freeList ∧
      (h.insertFree item).availableSize = h.availableSize ∧
      (h.insertFree item).blockList = h.blockList := by
  simp only [insertFree, setNextFree, setPrevFree, isUsed, and_self, funext_iff, implies_true]

@[simp] theorem removeFree_same (h : Memheap) (item : Nat) :
    (h.removeFree item).isUsed = h.isUsed ∧ (h.removeFree item).magic = h.magic ∧
      (h.removeFree item).poolPtr = h.poolPtr ∧ (h.removeFree item).next = h.next ∧
      (h.removeFree item).addr = h.addr ∧ (h.removeFree item).startAddr = h.startAddr ∧
      (h.removeFree item).poolSize = h.poolSize ∧ (h.removeFree item).freeList = h.freeList ∧
      (h.removeFree item).availableSize = h.availableSize ∧
      (h.removeFree item).blockList = h.blockList := by
  simp only [removeFree, setNextFree, setPrevFree, isUsed, and_self, funext_iff, implies_true]

@[simp] theorem removeFree_prev (h : Memheap) (item : Nat) : (h.removeFree item).prev = h.prev := rfl

/-- Cutting off a block writes to nothing of the heap object. -/
@[simp] theorem insertBlock_same (h : Memheap) (a n : Nat) :
    (h.insertBlock a n).addr = h.addr ∧ (h.insertBlock a n).startAddr = h.startAddr ∧
      (h.insertBlock a n).poolSize = h.poolSize ∧ (h.insertBlock a n).freeList = h.freeList ∧
      (h.insertBlock a n).availableSize = h.availableSize ∧
      (h.insertBlock a n).poolPtr = Function.update h.poolPtr n h.addr ∧
      (h.insertBlock a n).blockList = h.blockList := by
  simp only [insertBlock_eq, and_self]

@[simp] theorem clearFree_same (h : Memheap) (item : Nat) :
    (h.clearFree item).isUsed = h.isUsed ∧ (h.clearFree item).magic = h.magic ∧
      (h.clearFree item).poolPtr = h.poolPtr ∧ (h.clearFree item).next = h.next ∧
      (h.clearFree item).addr = h.addr ∧ (h.clearFree item).startAddr = h.startAddr ∧
      (h.clearFree item).poolSize = h.poolSize ∧ (h.clearFree item).freeList = h.freeList ∧
      (h.clearFree item).availableSize = h.availableSize ∧
      (h.clearFree item).blockList = h.blockList := by
  simp only [clearFree, setNextFree, setPrevFree, isUsed, and_self, funext_iff, implies_true]

/-- Nor does the count of available bytes touch the lists, or the mark of an item. -/
@[simp] theorem setAvailable_same (h : Memheap) (v : Nat) :
    (h.setAvailable v).isUsed = h.isUsed ∧ (h.setAvailable v).magic = h.magic ∧
      (h.setAvailable v).poolPtr = h.poolPtr ∧ (h.setAvailable v).next = h.next ∧
      (h.setAvailable v).addr = h.addr ∧ (h.setAvailable v).startAddr = h.startAddr ∧
      (h.setAvailable v).poolSize = h.poolSize ∧ (h.setAvailable v).freeList = h.freeList ∧
      (h.setAvailable v).availableSize = v ∧
      (h.setAvailable v).blockList = h.blockList := by
  simp only [setAvailable, isUsed, and_self, funext_iff, implies_true]

@[simp] theorem setAvailable_prev (h : Memheap) (v : Nat) : (h.setAvailable v).prev = h.prev := rfl

@[simp] theorem setAvailableSize_same (h : Memheap) (v : Nat) :
    (h.setAvailableSize v).isUsed = h.isUsed ∧ (h.setAvailableSize v).magic = h.magic ∧
      (h.setAvailableSize v).poolPtr = h.poolPtr ∧ (h.setAvailableSize v).next = h.next ∧
      (h.setAvailableSize v).prev = h.prev ∧ (h.setAvailableSize v).addr = h.addr ∧
      (h.setAvailableSize v).startAddr = h.startAddr ∧ (h.setAvailableSize v).poolSize = h.poolSize ∧
      (h.setAvailableSize v).freeList = h.freeList ∧ (h.setAvailableSize v).availableSize = v ∧
      (h.setAvailableSize v).blockList = h.blockList := by
  simp only [setAvailableSize, isUsed, and_self, funext_iff, implies_true]

@[simp] theorem setMagic_same (h : Memheap) (item : Nat) (v : BitVec 32) :
    (h.setMagic item v).poolPtr = h.poolPtr ∧ (h.setMagic item v).next = h.next ∧
      (h.setMagic item v).prev = h.prev ∧ (h.setMagic item v).addr = h.addr ∧ (h.setMagic item v).startAddr = h.startAddr ∧
      (h.setMagic item v).poolSize = h.poolSize ∧ (h.setMagic item v).freeList = h.freeList ∧
      (h.setMagic item v).availableSize = h.availableSize ∧
      (h.setMagic item v).blockList = h.blockList := by
  simp only [setMagic, and_self]

/-- The block `n` behind `a` becomes a part of `a`. -/
def joinBlock (h : Memheap) (a n : Nat) : Memheap :=
  { h with next := Function.update h.next a (h.next n), prev := Function.update h.prev (h.next n) a }

@[simp] theorem joinBlock_same (h : Memheap) (a n : Nat) :
    (h.joinBlock a n).isUsed = h.isUsed ∧ (h.joinBlock a n).magic = h.magic ∧
      (h.joinBlock a n).poolPtr = h.poolPtr ∧ (h.joinBlock a n).addr = h.addr ∧
      (h.joinBlock a n).startAddr = h.startAddr ∧ (h.joinBlock a n).poolSize = h.poolSize ∧
      (h.joinBlock a n).freeList = h.freeList ∧ (h.joinBlock a n).availableSize = h.availableSize ∧
      (h.joinBlock a n).blockList = h.blockList := by
  simp only [joinBlock, isUsed, and_self, funext_iff, implies_true]

/-- Merging with the previous neighbour, as `rt_memheap_free` writes it. -/
theorem joinBlock_left (h : Memheap) {a n : Nat} (hprev : h.prev n = a) (hne : n ≠ a) :
    (h.setNext (h.prev n) (h.next n)).setPrev ((h.setNext (h.prev n) (h.next n)).next n)
      ((h.setNext (h.prev n) (h.next n)).prev n) = h.joinBlock a n := by
  simp only [setNext, setPrev, joinBlock, hprev, Function.update_of_ne hne]

/-- Taking a block off the block list, as `rt_memheap_realloc` writes it. -/
theorem joinBlock_remove (h : Memheap) {a n : Nat} (hprev : h.prev n = a) :
    (h.setPrev (h.next n) (h.prev n)).setNext ((h.setPrev (h.next n) (h.prev n)).prev n)
      ((h.setPrev (h.next n) (h.prev n)).next n) = h.joinBlock a n := by
  simp only [setNext, setPrev, joinBlock, hprev, Function.update_apply, ite_self]

/-! ## The two rings -/

/-- **The lists of a heap.** The items `bs`, from the start of the pool to the tailer at its end, and the free list `fs`
behind its header, which lies outside the pool. -/
structure Blocks (c : MemheapCfg) (h : Memheap) (bs fs : List Nat) : Prop where
  ring : Ring h.next h.prev bs
  first : bs.head? = some h.startAddr
  last : ∃ z, bs.getLast? = some z ∧ z + c.memheapSize = h.startAddr + h.poolSize
  ordered : Ordered c.memheapSize bs
  fits : h.startAddr + h.poolSize ≤ 2 ^ 32
  freeRing : Ring h.nextFree h.prevFree (h.freeList :: fs)
  outside : h.freeList < h.startAddr ∨ h.startAddr + h.poolSize ≤ h.freeList

namespace Blocks

/-- An item ends within the pool. -/
theorem item_le (i : Blocks c h bs fs) (hb : b ∈ bs) :
    h.startAddr ≤ b ∧ b + c.memheapSize ≤ h.startAddr + h.poolSize := by
  obtain ⟨z, hz, hend⟩ := i.last
  have hH := le_memheapSize c
  constructor
  · obtain ⟨s, t, rfl⟩ : ∃ s t, bs = s :: t := List.exists_cons_of_ne_nil (List.ne_nil_of_mem hb)
    obtain rfl : s = h.startAddr := by simpa using i.first
    have hord : Ordered c.memheapSize ([] ++ h.startAddr :: t) := i.ordered
    rcases List.mem_cons.mp hb with rfl | hb
    · exact le_refl _
    · have hlt := hord.behind b hb
      omega
  · obtain ⟨t, rfl⟩ := List.getLast?_eq_some_iff.mp hz
    rcases List.mem_append.mp hb with hb | hb
    · have hlt := i.ordered.before b hb
      omega
    · rw [List.mem_singleton.mp hb, hend]

/-- The free list header is no item, and no address where an item could be. -/
theorem freeList_ne (i : Blocks c h bs fs) (hlo : h.startAddr ≤ x) (hhi : x < h.startAddr + h.poolSize) :
    x ≠ h.freeList := by
  rintro rfl
  rcases i.outside with ho | ho <;> omega

theorem freeList_ne_item (i : Blocks c h bs fs) (hb : b ∈ bs) : b ≠ h.freeList := by
  obtain ⟨hlo, hhi⟩ := i.item_le hb
  have hH := le_memheapSize c
  exact i.freeList_ne hlo (by omega)

/-- Neighbours, and the size of the data between them. -/
theorem next_eq (i : Blocks c h (as ++ a :: b :: cs) fs) : h.next a = b ∧ h.prev b = a := i.ring.adjacent

theorem gap (i : Blocks c h (as ++ a :: b :: cs) fs) :
    a + c.memheapSize ≤ b ∧ b + c.memheapSize ≤ h.startAddr + h.poolSize ∧ h.startAddr + h.poolSize ≤ 2 ^ 32 :=
  ⟨i.ordered.behind b List.mem_cons_self, (i.item_le (by simp)).2, i.fits⟩

theorem memitemSize_eq (i : Blocks c h (as ++ a :: b :: cs) fs) : h.memitemSize c a = b - (a + c.memheapSize) := by
  obtain ⟨hab, hb, hfits⟩ := i.gap
  have hH := le_memheapSize c
  have hba : sub b a = b - a := sub_of_le (by omega) (by omega)
  rw [memitemSize, i.next_eq.1, hba, sub_of_le (by omega) (by omega)]
  omega

/-- The free bytes are fewer than the addresses. -/
theorem freeBytes_lt (i : Blocks c h bs fs) (used : Nat → Bool) : freeBytes c.memheapSize used bs < 2 ^ 32 := by
  obtain ⟨z, hz, hend⟩ := i.last
  obtain ⟨t, rfl⟩ : ∃ t, bs = h.startAddr :: t := List.head?_eq_some_iff.mp i.first
  have hle := Ordered.length_add_freeBytes_le used i.ordered hz
  have hfits := i.fits
  have hH := le_memheapSize c
  omega

/-- What the rings do not depend on. -/
theorem congr (i : Blocks c h bs fs) (hnext : h'.next = h.next) (hprev : h'.prev = h.prev)
    (hnextf : h'.nextFree = h.nextFree) (hprevf : h'.prevFree = h.prevFree) (hstart : h'.startAddr = h.startAddr)
    (hpool : h'.poolSize = h.poolSize) (hfl : h'.freeList = h.freeList) : Blocks c h' bs fs := by
  refine ⟨?_, ?_, ?_, i.ordered, ?_, ?_, ?_⟩
  · rw [hnext, hprev]
    exact i.ring
  · rw [hstart]
    exact i.first
  · rw [hstart, hpool]
    exact i.last
  · rw [hstart, hpool]
    exact i.fits
  · rw [hnextf, hprevf, hfl]
    exact i.freeRing
  · rw [hstart, hpool, hfl]
    exact i.outside

/-! ## The edits -/

/-- **Cutting off a block** at `n`, between `a` and the item behind it. -/
theorem insertBlock (i : Blocks c h (as ++ a :: b :: cs) fs) (han : a + c.memheapSize ≤ n)
    (hnb : n + c.memheapSize ≤ b) : Blocks c (h.insertBlock a n) (as ++ a :: n :: b :: cs) fs := by
  have hH := le_memheapSize c
  have hord : Ordered c.memheapSize (as ++ a :: n :: b :: cs) := i.ordered.cut han (by simpa using hnb)
  have hnd := hord.nodup (by omega)
  have hn : n ∉ as ++ a :: b :: cs := by
    rw [← List.singleton_append, ← List.append_assoc, List.nodup_middle] at hnd
    simpa using (List.nodup_cons.mp hnd).1
  have hne : ∀ x ∈ as ++ a :: b :: cs, x ≠ n := fun x hx e => hn (e ▸ hx)
  have hna : n ≠ a := by omega
  rw [insertBlock_eq]
  refine ⟨i.ring.insert hn (fun x hx => ?_) ?_ (fun x hx => ?_) ?_, ?_, ?_, hord, i.fits, i.freeRing, i.outside⟩
  · simp [Function.update_apply, hne x hx]
  · simp [hna]
  · simp [Function.update_apply, hne x hx]
  · have hnb : n ≠ b := by omega
    simp [i.next_eq.1, hnb]
  · have hf := i.first
    cases as with
    | nil => exact hf
    | cons s as => exact hf
  · obtain ⟨z, hz, hend⟩ := i.last
    refine ⟨z, ?_, hend⟩
    rw [List.getLast?_append] at hz ⊢
    simpa using hz

/-- **Joining** the block `n` to the one in front of it. -/
theorem joinBlock (i : Blocks c h (as ++ a :: n :: b :: cs) fs) : Blocks c (h.joinBlock a n) (as ++ a :: b :: cs) fs := by
  refine ⟨i.ring.remove (fun x _ => ?_) (fun x _ => ?_), ?_, ?_, i.ordered.join, i.fits, i.freeRing, i.outside⟩
  · simp [Memheap.joinBlock, Function.update_apply]
  · simp [Memheap.joinBlock, Function.update_apply]
  · have hf := i.first
    cases as with
    | nil => exact hf
    | cons s as => exact hf
  · obtain ⟨z, hz, hend⟩ := i.last
    refine ⟨z, ?_, hend⟩
    rw [List.getLast?_append] at hz ⊢
    simpa using hz

/-- **To the free list.** -/
theorem insertFree (i : Blocks c h bs fs) (hx : x ∉ fs) (hne : x ≠ h.freeList) :
    Blocks c (h.insertFree x) bs (x :: fs) := by
  have hnot : x ∉ h.freeList :: fs := by simp [hne, hx]
  have hne' : ∀ y ∈ h.freeList :: fs, y ≠ x := fun y hy e => hnot (e ▸ hy)
  rw [insertFree_eq h hne]
  refine ⟨i.ring, i.first, i.last, i.ordered, i.fits, ?_, i.outside⟩
  have hfirst : h.nextFree h.freeList ≠ x := hne' _ i.freeRing.next_mem
  refine i.freeRing.push hnot (fun y hy => ?_) ?_ (fun y hy => ?_) ?_
  · simp [Function.update_apply, hne' y hy]
  · simp [hne]
  · simp [Function.update_apply, hne' y hy]
  · simp [Function.update_of_ne hfirst.symm]

/-- **Off the free list.** -/
theorem removeFree (i : Blocks c h bs fs) (hx : x ∈ fs) : Blocks c (h.removeFree x) bs (fs.erase x) := by
  obtain ⟨as, cs, rfl⟩ := List.append_of_mem hx
  have hnd := (List.nodup_cons.mp i.freeRing.nodup).2
  have hxas : x ∉ as := fun hm => List.disjoint_of_nodup_append hnd hm List.mem_cons_self
  -- the item in front of it, which may be the free list header
  obtain ⟨fs, a, hsplit⟩ : ∃ fs a, h.freeList :: as = fs ++ [a] :=
    ⟨_, _, (List.dropLast_concat_getLast (List.cons_ne_nil _ _)).symm⟩
  have hring : Ring h.nextFree h.prevFree (fs ++ a :: x :: cs) := by
    have hr := i.freeRing
    rwa [← List.cons_append, hsplit, List.append_assoc, List.singleton_append] at hr
  rw [removeFree_eq, List.erase_append_right _ hxas, List.erase_cons_head]
  refine ⟨i.ring, i.first, i.last, i.ordered, i.fits, ?_, i.outside⟩
  show Ring _ _ (h.freeList :: (as ++ cs))
  rw [← List.cons_append, hsplit, List.append_assoc, List.singleton_append]
  refine hring.remove (fun y _ => ?_) fun y _ => ?_
  · simp [Function.update_apply, hring.adjacent.2]
  · simp [Function.update_apply, hring.adjacent.2]

/-- The pointers of an item that is not on the free list do not matter. -/
theorem clearFree (i : Blocks c h bs fs) (hx : x ∉ fs) (hne : x ≠ h.freeList) : Blocks c (h.clearFree x) bs fs := by
  have hne' : ∀ y ∈ h.freeList :: fs, y ≠ x := fun y hy e => by
    rcases List.mem_cons.mp (e ▸ hy) with rfl | hy
    · exact hne rfl
    · exact hx hy
  refine ⟨i.ring, i.first, i.last, i.ordered, i.fits, i.freeRing.congr (fun y hy => ?_) fun y hy => ?_, i.outside⟩
  · exact Function.update_of_ne (hne' y hy) _ _
  · exact Function.update_of_ne (hne' y hy) _ _

end Blocks

/-! ## The invariant -/

/-- **The invariant of a heap**: its lists, its books, its count of available bytes, and the owner of its items. -/
structure MemheapInv (c : MemheapCfg) (h : Memheap) (bs fs : List Nat) : Prop where
  blocks : Blocks c h bs fs
  listed : Listed h.isUsed bs fs
  available : h.availableSize = freeBytes c.memheapSize h.isUsed bs
  pool : ∀ b ∈ bs, h.poolPtr b = h.addr

/-- The marks after an edit. -/
theorem insertBlock_isUsed (h : Memheap) (a n : Nat) : (h.insertBlock a n).isUsed = Function.update h.isUsed n false := by
  funext x
  rw [insertBlock_eq, isUsed_eq, Function.update_apply]
  by_cases hx : x = n
  · simp [hx, memheapMagic]
  · simp [hx, isUsed_eq]

theorem markUsed_isUsed (h : Memheap) (a : Nat) :
    (h.setMagic a (h.magic a ||| memheapUsed)).isUsed = Function.update h.isUsed a true := by
  funext x
  rw [isUsed_setMagic, Function.update_apply]
  by_cases hx : x = a <;> simp [hx, memheapUsed]

theorem markFree_isUsed (h : Memheap) (a : Nat) :
    (h.setMagic a (h.magic a &&& ~~~memheapUsed)).isUsed = Function.update h.isUsed a false := by
  funext x
  rw [isUsed_setMagic, Function.update_apply]
  by_cases hx : x = a <;> simp [hx, memheapUsed]

namespace MemheapInv

theorem nodup (i : MemheapInv c h bs fs) : bs.Nodup ∧ fs.Nodup :=
  ⟨i.blocks.ring.nodup, (List.nodup_cons.mp i.blocks.freeRing.nodup).2⟩

/-- What is free or in use is in front of an item: the tailer is behind everything. -/
theorem split (i : MemheapInv c h bs fs) (hb : b ∈ bs) (hlast : b ∉ bs.getLast?) :
    ∃ as d cs, bs = as ++ b :: d :: cs := by
  obtain ⟨as, cs, rfl⟩ := List.append_of_mem hb
  cases cs with
  | nil => simp at hlast
  | cons d cs => exact ⟨as, d, cs, rfl⟩

theorem split_free (i : MemheapInv c h bs fs) (hb : b ∈ fs) :
    (∃ as d cs, bs = as ++ b :: d :: cs) ∧ h.isUsed b = false := by
  obtain ⟨hmem, hfree⟩ := (i.listed.free_iff b).mp hb
  refine ⟨i.split hmem fun hl => ?_, hfree⟩
  have hused := i.listed.last b hl
  rw [hfree] at hused
  cases hused

/-- The available bytes leave room for the headers. -/
theorem available_le (i : MemheapInv c h bs fs) (hpos : 0 < h.availableSize) :
    h.availableSize + 2 * c.memheapSize ≤ h.poolSize := by
  obtain ⟨z, hz, hend⟩ := i.blocks.last
  obtain ⟨t, rfl⟩ : ∃ t, bs = h.startAddr :: t := List.head?_eq_some_iff.mp i.blocks.first
  have hle := Ordered.length_add_freeBytes_le h.isUsed i.blocks.ordered hz
  have hav := i.available
  cases t with
  | nil =>
    rw [hav] at hpos
    simp [freeBytes] at hpos
  | cons d t =>
    rw [List.length_cons, Nat.mul_succ] at hle
    omega

theorem length_le (i : MemheapInv c h bs fs) : fs.length ≤ h.poolSize := by
  have hsub : fs ⊆ bs := fun b hb => ((i.listed.free_iff b).mp hb).1
  have hle := (i.nodup.2.subperm hsub).length_le
  obtain ⟨z, hz, hend⟩ := i.blocks.last
  obtain ⟨t, rfl⟩ : ∃ t, bs = h.startAddr :: t := List.head?_eq_some_iff.mp i.blocks.first
  have hlen := Ordered.length_add_freeBytes_le h.isUsed i.blocks.ordered hz
  have hH := le_memheapSize c
  have hmul : t.length ≤ c.memheapSize * t.length := Nat.le_mul_of_pos_left _ (by omega)
  rw [List.length_cons] at hle
  omega

end MemheapInv

end CoreLink.RtThread.Memheap
