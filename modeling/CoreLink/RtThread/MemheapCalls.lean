/-
# `CoreLink.RtThread.MemheapCalls` — the invariant of a memory heap, function by function.

Each function is followed edit by edit: the edits keep the two rings, the books of the layout say which blocks are free
then, and the count of available bytes is compared with what the edit did to the free bytes. A function changes the set
of blocks in use by one block at most: the one it hands out, or the one it takes back.
-/
import CoreLink.RtThread.MemheapInvariant

namespace CoreLink.RtThread.Memheap

open CoreLink.Lib CoreLink.Lib.Layout

variable {c : MemheapCfg} {h h' : Memheap} {bs bs' fs fs' as cs : List Nat} {a b d n p x z size : Nat}

/-- The block is an item of the list, and marked used. -/
def InUse (h : Memheap) (bs : List Nat) (b : Nat) : Prop := b ∈ bs ∧ h.isUsed b = true

/-- The heap object stays where it is, with its region and its free list header. -/
structure SameObject (h h' : Memheap) : Prop where
  addr : h'.addr = h.addr
  startAddr : h'.startAddr = h.startAddr
  poolSize : h'.poolSize = h.poolSize
  freeList : h'.freeList = h.freeList
  blockList : h'.blockList = h.blockList

theorem SameObject.trans {h'' : Memheap} (s : SameObject h h') (s' : SameObject h' h'') : SameObject h h'' :=
  ⟨s'.addr.trans s.addr, s'.startAddr.trans s.startAddr, s'.poolSize.trans s.poolSize, s'.freeList.trans s.freeList,
    s'.blockList.trans s.blockList⟩

/-! ## `rt_memheap_alloc` -/

/-- The search ends, with a block of the free list that is large enough if the size found is, and with none if no block
of the free list is. -/
theorem searchFree_spec (done : List Nat) {rest : List Nat} (r : Ring h.nextFree h.prevFree (h.freeList :: (done ++ rest)))
    {fuel freeSize : Nat} (hfuel : rest.length + 2 ≤ fuel) (hx : x ∈ (rest ++ [h.freeList]).head?)
    (hlt : freeSize < size) : ∃ y f, searchFree c h size fuel x freeSize = some (y, f) ∧
      (size ≤ f → y ∈ rest ∧ f = h.memitemSize c y) ∧ (f < size → ∀ b ∈ rest, h.memitemSize c b < size) := by
  induction rest generalizing done x fuel freeSize with
  | nil =>
    obtain rfl : h.freeList = x := by simpa using hx
    obtain ⟨fuel, rfl⟩ : ∃ k, fuel = k + 1 := ⟨fuel - 1, by omega⟩
    refine ⟨h.freeList, freeSize, ?_, fun hle => absurd hle (by omega), fun _ b hb => absurd hb List.not_mem_nil⟩
    simp [searchFree]
  | cons y rest ih =>
    obtain rfl : y = x := by simpa using hx
    obtain ⟨fuel, rfl⟩ : ∃ k, fuel = k + 1 := ⟨fuel - 1, by omega⟩
    have hne : y ≠ h.freeList := by
      rintro rfl
      exact (List.nodup_cons.mp r.nodup).1 (by simp)
    simp only [List.length_cons] at hfuel
    rw [searchFree, if_pos ⟨hne, hlt⟩]
    by_cases hsize : h.memitemSize c y < size
    · -- the next free block
      have hnext : h.nextFree y ∈ (rest ++ [h.freeList]).head? := by
        have hr := (r.rotate (h.freeList :: done) (y :: rest)).next_head.1
        cases rest with
        | nil => simpa using hr
        | cons q rest => simpa using hr
      have hr' : Ring h.nextFree h.prevFree (h.freeList :: ((done ++ [y]) ++ rest)) := by simpa using r
      obtain ⟨z, f, hs, hz, hnone⟩ := ih (done ++ [y]) hr' (by omega : rest.length + 2 ≤ fuel) hnext hsize
      refine ⟨z, f, ?_, fun hle => ⟨List.mem_cons_of_mem y (hz hle).1, (hz hle).2⟩, fun hf b hb => ?_⟩
      · rw [if_pos hsize]
        exact hs
      · rcases List.mem_cons.mp hb with rfl | hb
        · exact hsize
        · exact hnone hf b hb
    · -- found: the loop ends at its next test
      obtain ⟨fuel, rfl⟩ : ∃ k, fuel = k + 1 := ⟨fuel - 1, by omega⟩
      refine ⟨y, h.memitemSize c y, ?_, fun _ => ⟨List.mem_cons_self, rfl⟩, fun hf => absurd hf hsize⟩
      rw [if_neg hsize, searchFree, if_neg fun hcon => hsize hcon.2]

/-- `heap->available_size` is no part of the lists, and neither are the marks. -/
theorem Blocks.setAvailable (i : Blocks c h bs fs) (v : Nat) : Blocks c (h.setAvailable v) bs fs :=
  i.congr rfl rfl rfl rfl rfl rfl rfl

theorem Blocks.setMagic (i : Blocks c h bs fs) (y : Nat) (v : BitVec 32) : Blocks c (h.setMagic y v) bs fs :=
  i.congr rfl rfl rfl rfl rfl rfl rfl

theorem MemheapInv.available_lt (i : MemheapInv c h bs fs) : h.availableSize < 2 ^ 32 := by
  rw [i.available]
  exact i.blocks.freeBytes_lt h.isUsed

/-- What is left of the available bytes when a free block is taken. -/
theorem MemheapInv.size_le (i : MemheapInv c h (as ++ a :: b :: cs) fs) (ha : h.isUsed a = false) :
    h.memitemSize c a ≤ h.availableSize := by
  rw [i.blocks.memitemSize_eq, i.available, ← freeBytes_take i.nodup.1 ha]
  omega

/-- **A block is taken whole.** -/
theorem wholeBlock_spec (i : MemheapInv c h bs fs) (ha : a ∈ fs) {k : Memheap}
    (hk : wholeBlock h a (h.memitemSize c a) = k) :
    ∃ bs' fs', MemheapInv c (k.setMagic a (k.magic a ||| memheapUsed)) bs' fs' ∧
      SameObject h (k.setMagic a (k.magic a ||| memheapUsed)) ∧
      ∀ y, InUse (k.setMagic a (k.magic a ||| memheapUsed)) bs' y ↔ InUse h bs y ∨ y = a := by
  obtain ⟨⟨as, b, cs, rfl⟩, hfree⟩ := i.split_free ha
  have hsize := i.blocks.memitemSize_eq
  have hle := i.size_le hfree
  have hsub : sub h.availableSize (h.memitemSize c a) = h.availableSize - h.memitemSize c a :=
    sub_of_le hle i.available_lt
  have hnea := i.blocks.freeList_ne_item (b := a) (by simp)
  have hnot : a ∉ fs.erase a := i.nodup.2.not_mem_erase
  simp only [wholeBlock, hsub] at hk
  have hblocks : Blocks c k (as ++ a :: b :: cs) (fs.erase a) := by
    rw [← hk]
    exact ((i.blocks.setAvailable _).removeFree ha).clearFree hnot (by simpa using hnea)
  have hused : (k.setMagic a (k.magic a ||| memheapUsed)).isUsed = Function.update h.isUsed a true := by
    rw [markUsed_isUsed, ← hk]
    simp
  refine ⟨_, _, ⟨hblocks.setMagic a _, ?_, ?_, ?_⟩, ?_, fun y => ?_⟩
  · rw [hused]
    exact i.listed.take i.nodup.2 a
  · have hsum := freeBytes_take (H := c.memheapSize) i.nodup.1 hfree
    have hav := i.available
    rw [hused]
    simp only [← hk, setMagic_same, clearFree_same, removeFree_same, setAvailable_same]
    omega
  · rw [← hk]
    simpa using i.pool
  · rw [← hk]
    exact ⟨by simp, by simp, by simp, by simp, by simp⟩
  · rw [InUse, InUse, hused]
    by_cases hy : y = a <;> simp [hy]

/-- **A block is split**: the rest goes to the free list. -/
theorem splitBlock_spec (i : MemheapInv c h bs fs) (ha : a ∈ fs)
    (hle : size + c.memheapSize + memheapMinialloc ≤ h.memitemSize c a) {k : Memheap}
    (hk : splitBlock c h a size = k) :
    ∃ bs' fs', MemheapInv c (k.setMagic a (k.magic a ||| memheapUsed)) bs' fs' ∧
      SameObject h (k.setMagic a (k.magic a ||| memheapUsed)) ∧
      ∀ y, InUse (k.setMagic a (k.magic a ||| memheapUsed)) bs' y ↔ InUse h bs y ∨ y = a := by
  obtain ⟨⟨as, b, cs, rfl⟩, hfree⟩ := i.split_free ha
  obtain ⟨hgap, hend, hfits⟩ := i.blocks.gap
  have hsize := i.blocks.memitemSize_eq
  have hH := le_memheapSize c
  have hlo := (i.blocks.item_le (b := a) (by simp)).1
  obtain ⟨n, hn⟩ : ∃ n, n = a + size + c.memheapSize := ⟨_, rfl⟩
  have han : a + c.memheapSize ≤ n := by omega
  have hnb : n + c.memheapSize ≤ b := by omega
  have hnen : n ≠ h.freeList := i.blocks.freeList_ne (by omega) (by omega)
  have hadd : add (add a size) c.memheapSize = n := by
    have ha' : add a size = a + size := add_of_lt (by omega)
    rw [ha', hn]
    exact add_of_lt (by omega)
  have hsub : sub (sub h.availableSize size) c.memheapSize = h.availableSize - size - c.memheapSize := by
    have hlt := i.available_lt
    have hsz := i.size_le hfree
    have hs : sub h.availableSize size = h.availableSize - size := sub_of_le (by omega) hlt
    rw [hs]
    exact sub_of_le (by omega) (by omega)
  simp only [splitBlock, hadd, insertFree_same, clearFree_same, removeFree_same, insertBlock_same, hsub] at hk
  have hbl := i.blocks.insertBlock han hnb
  have hnd := hbl.ring.nodup
  have hfresh : n ∉ as ++ a :: b :: cs := by
    rw [← List.singleton_append, ← List.append_assoc, List.nodup_middle] at hnd
    simpa using (List.nodup_cons.mp hnd).1
  have hnfs : n ∉ fs := fun hm => hfresh ((i.listed.free_iff n).mp hm).1
  have hne : n ≠ a := fun e => hfresh (by simp [e])
  have hblocks : Blocks c k (as ++ a :: n :: b :: cs) (n :: fs.erase a) := by
    rw [← hk]
    refine Blocks.setAvailable ((((hbl.removeFree ha).clearFree i.nodup.2.not_mem_erase ?_).insertFree ?_ ?_)) _
    · simpa using i.blocks.freeList_ne_item (b := a) (by simp)
    · exact fun hm => hnfs (List.mem_of_mem_erase hm)
    · simpa using hnen
  -- the marks are those of taking the block whole, and cutting off the rest
  have hused : (k.setMagic a (k.magic a ||| memheapUsed)).isUsed =
      Function.update (Function.update h.isUsed a true) n false := by
    rw [markUsed_isUsed, ← hk]
    simp [insertBlock_isUsed, Function.update_comm hne]
  have hpend := (i.listed.take i.nodup.2 a).cut (n := n) (by simp) hfresh
  have hb : Function.update (Function.update h.isUsed a true) n false b = true := by
    have hba : b ≠ a := by omega
    have hbn : b ≠ n := by omega
    rw [Function.update_of_ne hbn, Function.update_of_ne hba]
    exact i.listed.coalesced.behind hfree
  refine ⟨_, _, ⟨hblocks.setMagic a _, ?_, ?_, ?_⟩, ?_, fun y => ?_⟩
  · rw [hused]
    exact hpend.done (show _ = (as ++ [a]) ++ n :: b :: cs by simp) hnd hb
  · have hav := i.available
    rw [← freeBytes_take i.nodup.1 hfree] at hav
    rw [hused, freeBytes_cut hnd (by simp)]
    simp only [← hk, setMagic_same, setAvailable_same]
    omega
  · intro y hy
    rw [← hk]
    simp only [setMagic_same, setAvailable_same, insertFree_same, clearFree_same, removeFree_same, insertBlock_same]
    by_cases hyn : y = n
    · simp [hyn]
    · rw [Function.update_of_ne hyn]
      refine i.pool y ?_
      simp only [List.mem_append, List.mem_cons] at hy ⊢
      tauto
  · rw [← hk]
    exact ⟨by simp, by simp, by simp, by simp, by simp⟩
  · rw [InUse, InUse, hused]
    by_cases hyn : y = n
    · subst hyn
      simp only [List.mem_append, List.mem_cons] at hfresh
      simp
      tauto
    · by_cases hy : y = a <;> simp [hy, hyn, Ne.symm hne]

/-- **The block found** is marked used, whole or split. -/
theorem takeBlock_spec (i : MemheapInv c h bs fs) (ha : a ∈ fs) (hav : size < h.availableSize) :
    ∃ bs' fs', MemheapInv c (takeBlock c h a (h.memitemSize c a) size) bs' fs' ∧
      SameObject h (takeBlock c h a (h.memitemSize c a) size) ∧
      ∀ y, InUse (takeBlock c h a (h.memitemSize c a) size) bs' y ↔ InUse h bs y ∨ y = a := by
  have hfits := i.blocks.fits
  have hH := le_memheapSize c
  have hroom := i.available_le (by omega)
  have hadd : add size (c.memheapSize + memheapMinialloc) = size + (c.memheapSize + memheapMinialloc) :=
    add_of_lt (by unfold memheapMinialloc; omega)
  unfold takeBlock
  rw [hadd]
  split_ifs with hsplit
  · exact splitBlock_spec i ha (by omega) rfl
  · exact wholeBlock_spec i ha rfl

theorem blockSize_ge (c : MemheapCfg) (size : Nat) : 12 ≤ blockSize c size := by
  unfold blockSize memheapMinialloc
  split_ifs <;> omega

/-- **`rt_memheap_alloc`** returns, with a block that was not in use or with `RT_NULL`. -/
theorem rtMemheapAlloc_spec (i : MemheapInv c h bs fs) (size : Nat) :
    ∃ h' ptr bs' fs', rtMemheapAlloc c h size = some (h', ptr) ∧ MemheapInv c h' bs' fs' ∧ SameObject h h' ∧
      (ptr = 0 ∧ h' = h ∧ bs' = bs ∨ ∃ a, ptr = a + c.memheapSize ∧ ¬ InUse h bs a ∧
        ∀ y, InUse h' bs' y ↔ InUse h bs y ∨ y = a) := by
  have hfail : ∀ {r : Option (Memheap × Nat)}, r = some (h, 0) → ∃ h' ptr bs' fs', r = some (h', ptr) ∧
      MemheapInv c h' bs' fs' ∧ SameObject h h' ∧ (ptr = 0 ∧ h' = h ∧ bs' = bs ∨ ∃ a, ptr = a + c.memheapSize ∧
        ¬ InUse h bs a ∧ ∀ y, InUse h' bs' y ↔ InUse h bs y ∨ y = a) := fun hr =>
    ⟨h, 0, bs, fs, hr, i, ⟨rfl, rfl, rfl, rfl, rfl⟩, .inl ⟨rfl, rfl, rfl⟩⟩
  have hsz := blockSize_ge c size
  simp only [rtMemheapAlloc]
  generalize blockSize c size = size at hsz ⊢
  split_ifs with hav
  · have hfirst := i.blocks.freeRing.next_head.1
    have hlen := i.length_le
    obtain ⟨a, f, hs, hfound, -⟩ := searchFree_spec (c := c) [] i.blocks.freeRing
      (by omega : fs.length + 2 ≤ h.poolSize + 2) hfirst (by omega : 0 < size)
    rw [hs, Option.map_some]
    by_cases hf : f ≥ size
    · obtain ⟨hmem, rfl⟩ := hfound hf
      obtain ⟨bs', fs', hi, hsame, huse⟩ := takeBlock_spec i hmem hav
      have hadd : add a c.memheapSize = a + c.memheapSize := by
        -- a free block is not the tailer, so that its data lie within the pool
        obtain ⟨⟨as, b, cs, rfl⟩, -⟩ := i.split_free hmem
        obtain ⟨hab, hb, hfits⟩ := i.blocks.gap
        have hH := le_memheapSize c
        exact add_of_lt (by omega)
      refine ⟨_, _, bs', fs', by rw [if_pos hf, hadd], hi, hsame, .inr ⟨a, rfl, fun hin => ?_, huse⟩⟩
      have hused := hin.2
      rw [((i.listed.free_iff a).mp hmem).2] at hused
      exact Bool.false_ne_true hused
    · exact hfail (by rw [if_neg hf])
  · exact hfail rfl

/-! ## A block becomes free -/

/-- **The heap while the block `x` becomes free**: the item behind it may still be free too, and `x` is on the free list
already exactly when `listed`. -/
structure Releasing (c : MemheapCfg) (h : Memheap) (bs fs : List Nat) (x : Nat) (listed : Bool) : Prop where
  blocks : Blocks c h bs fs
  pending : Pending h.isUsed bs fs x listed
  pool : ∀ b ∈ bs, h.poolPtr b = h.addr

/-- "merge with the next neighbour", with the count of available bytes that is right then. -/
def mergeNext (h : Memheap) (x v : Nat) : Memheap :=
  ((h.setAvailableSize v).joinBlock x (h.next x)).removeFree (h.next x)

/-- The merge, as `rt_memheap_free` and `rt_memheap_realloc` write it. -/
theorem mergeNext_eq (h : Memheap) (x v : Nat) :
    (((h.setAvailableSize v).setPrev ((h.setAvailableSize v).next ((h.setAvailableSize v).next x)) x).setNext x
      (((h.setAvailableSize v).setPrev ((h.setAvailableSize v).next ((h.setAvailableSize v).next x)) x).next
        ((h.setAvailableSize v).next x))).removeFree ((h.setAvailableSize v).next x) = mergeNext h x v := rfl

@[simp] theorem mergeNext_same (h : Memheap) (x v : Nat) :
    (mergeNext h x v).isUsed = h.isUsed ∧ (mergeNext h x v).magic = h.magic ∧
      (mergeNext h x v).poolPtr = h.poolPtr ∧ (mergeNext h x v).addr = h.addr ∧
      (mergeNext h x v).startAddr = h.startAddr ∧ (mergeNext h x v).poolSize = h.poolSize ∧
      (mergeNext h x v).freeList = h.freeList ∧ (mergeNext h x v).availableSize = v ∧
      (mergeNext h x v).blockList = h.blockList := by
  simp only [mergeNext, removeFree_same, joinBlock_same, setAvailableSize_same, and_self]

/-- The next block joins if it is free. -/
def mergeFree (c : MemheapCfg) (h : Memheap) (x : Nat) : Memheap :=
  if h.isUsed (h.next x) then h else mergeNext h x (add h.availableSize c.memheapSize)

namespace Releasing

variable {listed : Bool}

theorem split (r : Releasing c h bs fs x listed) : ∃ as b cs, bs = as ++ x :: b :: cs := by
  obtain ⟨as, cs, rfl⟩ := List.append_of_mem r.pending.mem
  cases cs with
  | nil =>
    have hlast := r.pending.last x (by simp)
    rw [r.pending.free] at hlast
    cases hlast
  | cons b cs => exact ⟨as, b, cs, rfl⟩

/-- **The next block joins.** It was on the free list, so that the bytes gained are those of its header. -/
theorem merge (r : Releasing c h bs fs x listed) (hn : h.isUsed (h.next x) = false) (v : Nat) :
    ∃ bs' fs', Releasing c (mergeNext h x v) bs' fs' x listed ∧
      h.isUsed ((mergeNext h x v).next x) = true ∧
      freeBytes c.memheapSize h.isUsed bs' = freeBytes c.memheapSize h.isUsed bs + c.memheapSize ∧
      (mergeNext h x v).memitemSize c x = h.memitemSize c x + c.memheapSize + h.memitemSize c (h.next x) ∧
      ∀ y, InUse h bs' y ↔ InUse h bs y := by
  obtain ⟨as, n, cs, rfl⟩ := r.split
  have hnext : h.next x = n := r.blocks.next_eq.1
  rw [hnext] at hn ⊢
  -- the block behind is not the tailer
  obtain ⟨b, cs, rfl⟩ : ∃ b ds, cs = b :: ds := by
    cases cs with
    | nil =>
      have hlast := r.pending.last n (by simp)
      rw [hn] at hlast
      cases hlast
    | cons b cs => exact ⟨b, cs, rfl⟩
  have hH := le_memheapSize c
  have hnd := r.blocks.ring.nodup
  have hxn : n ≠ x := by
    rintro rfl
    exact (List.nodup_cons.mp (List.nodup_append.mp hnd).2.1).1 (by simp)
  have hgapx := r.blocks.gap
  have hmid : as ++ x :: n :: b :: cs = (as ++ [x]) ++ n :: b :: cs := by simp
  have hgapn := (hmid ▸ r.blocks).gap
  have hnfs : n ∈ fs := (r.pending.free_iff n).mpr ⟨⟨by simp, hn⟩, fun e => absurd e hxn⟩
  have hblocks : Blocks c (mergeNext h x v) (as ++ x :: b :: cs) (fs.erase n) := by
    have hset : Blocks c (h.setAvailableSize v) (as ++ x :: n :: b :: cs) fs :=
      r.blocks.congr rfl rfl rfl rfl rfl rfl rfl
    rw [mergeNext, hnext]
    exact hset.joinBlock.removeFree hnfs
  obtain ⟨hjoin, hb⟩ := r.pending.join rfl hnd (List.nodup_cons.mp r.blocks.freeRing.nodup).2 hn
  refine ⟨_, _, ⟨hblocks, ?_, fun y hy => ?_⟩, ?_, ?_, ?_, fun y => ?_⟩
  · simpa using hjoin
  · have hold := r.pool y (by simp only [List.mem_append, List.mem_cons] at hy ⊢; tauto)
    simpa using hold
  · rw [hblocks.next_eq.1]
    exact hb
  · exact freeBytes_join r.pending.free hn hgapx.1 hgapn.1
  · have hsn := (hmid ▸ r.blocks).memitemSize_eq
    rw [hblocks.memitemSize_eq, r.blocks.memitemSize_eq, hsn]
    omega
  · simp only [InUse, List.mem_append, List.mem_cons]
    by_cases hy : y = n
    · simp [hy, hn]
    · simp [hy]

/-- **The block is free**: it goes to the free list, if it is not there yet. -/
theorem finish (r : Releasing c h bs fs x listed) (hb : h.isUsed (h.next x) = true)
    (hav : h.availableSize = freeBytes c.memheapSize h.isUsed bs) :
    MemheapInv c (if listed then h else h.insertFree x) bs (if listed then fs else x :: fs) := by
  obtain ⟨as, b, cs, rfl⟩ := r.split
  rw [r.blocks.next_eq.1] at hb
  have hdone := r.pending.done rfl r.blocks.ring.nodup hb
  cases listed with
  | true => exact ⟨r.blocks, hdone, hav, r.pool⟩
  | false =>
    have hnot : x ∉ fs := fun hx => Bool.false_ne_true (((r.pending.free_iff x).mp hx).2 rfl)
    refine ⟨r.blocks.insertFree hnot (r.blocks.freeList_ne_item r.pending.mem), ?_, ?_, fun y hy => ?_⟩
    · simpa using hdone
    · simpa using hav
    · simpa using r.pool y hy

/-- The next block joins if it is free, and the block is free. -/
theorem mergeFree (r : Releasing c h bs fs x listed) (hav : h.availableSize = freeBytes c.memheapSize h.isUsed bs) :
    ∃ bs' fs', MemheapInv c (if listed then Memheap.mergeFree c h x else (Memheap.mergeFree c h x).insertFree x) bs' fs' ∧
      ∀ y, InUse (Memheap.mergeFree c h x) bs' y ↔ InUse h bs y := by
  unfold Memheap.mergeFree
  by_cases hn : h.isUsed (h.next x) = true
  · rw [if_pos hn]
    exact ⟨_, _, r.finish hn hav, fun y => Iff.rfl⟩
  · rw [if_neg hn]
    obtain ⟨bs', fs', hr, hused, hbytes, -, huse⟩ :=
      r.merge (Bool.eq_false_iff.mpr hn) (add h.availableSize c.memheapSize)
    have hadd : add h.availableSize c.memheapSize = h.availableSize + c.memheapSize :=
      add_of_lt (by have hlt := hr.blocks.freeBytes_lt h.isUsed; omega)
    have hused' := (mergeNext_same h x (add h.availableSize c.memheapSize)).1
    refine ⟨_, _, hr.finish (by rw [hused']; exact hused) ?_, fun y => ?_⟩
    · rw [hused', hbytes, ← hav, ← hadd]
      simp
    · rw [InUse, hused']
      exact huse y

end Releasing

/-! ## `rt_memheap_free` -/

/-- The released block `a`, with the count of available bytes. -/
def markFreed (h : Memheap) (a v : Nat) : Memheap := (h.setMagic a (h.magic a &&& ~~~memheapUsed)).setAvailableSize v

@[simp] theorem markFreed_same (h : Memheap) (a v : Nat) :
    (markFreed h a v).next = h.next ∧ (markFreed h a v).prev = h.prev ∧ (markFreed h a v).poolPtr = h.poolPtr ∧
      (markFreed h a v).addr = h.addr ∧ (markFreed h a v).startAddr = h.startAddr ∧
      (markFreed h a v).poolSize = h.poolSize ∧ (markFreed h a v).freeList = h.freeList ∧
      (markFreed h a v).availableSize = v ∧
      (markFreed h a v).blockList = h.blockList := by
  simp only [markFreed, setAvailableSize_same, setMagic_same, and_self]

theorem markFreed_isUsed (h : Memheap) (a v : Nat) : (markFreed h a v).isUsed = Function.update h.isUsed a false := by
  rw [markFreed, (setAvailableSize_same _ v).1, markFree_isUsed]

/-- `heap->available_size + MEMITEM_SIZE(header_ptr)`, with the mark written before. -/
theorem markFreed_eq (c : MemheapCfg) (h : Memheap) (a : Nat) :
    (h.setMagic a (h.magic a &&& ~~~memheapUsed)).setAvailableSize
      (add (h.setMagic a (h.magic a &&& ~~~memheapUsed)).availableSize
        ((h.setMagic a (h.magic a &&& ~~~memheapUsed)).memitemSize c a)) =
      markFreed h a (add h.availableSize (h.memitemSize c a)) := by
  simp only [markFreed, setMagic_same, memitemSize]

/-- The released block becomes a part of its left neighbour `p`. -/
def mergeLeft (c : MemheapCfg) (h : Memheap) (p a : Nat) : Memheap :=
  (h.setAvailableSize (add h.availableSize c.memheapSize)).joinBlock p a

/-- `rt_memheap_free` of the block `a` whose previous neighbour is in use: it goes to the free list, with the next block
if that is free. -/
theorem rtMemheapFree_used (hp : p ≠ 0) (ha : sub p c.memheapSize = a)
    (hm : markFreed h a (add h.availableSize (h.memitemSize c a)) = h') (hprev : h'.isUsed (h'.prev a) = true) :
    rtMemheapFree c h p = (mergeFree c h' a).insertFree a := by
  simp only [rtMemheapFree, if_neg hp, ha, markFreed_eq, hm, hprev, if_true]
  rfl

/-- Where it is free, the block becomes a part of it, and so does the next block if that is free. -/
theorem rtMemheapFree_free (hp : p ≠ 0) (ha : sub p c.memheapSize = a)
    (hm : markFreed h a (add h.availableSize (h.memitemSize c a)) = h') (hprev : h'.prev a = b) (hne : a ≠ b)
    (hfree : h'.isUsed b = false) : rtMemheapFree c h p = mergeFree c (mergeLeft c h' b a) b := by
  have hjoin := joinBlock_left (h'.setAvailableSize (add h'.availableSize c.memheapSize))
    ((setAvailableSize_same _ _).2.2.2.2.1 ▸ hprev) hne
  rw [← mergeLeft] at hjoin
  simp only [rtMemheapFree, if_neg hp, ha, markFreed_eq, hm, hprev, hfree, Bool.false_eq_true, if_false, hjoin]
  rfl

theorem mergeFree_same (c : MemheapCfg) (h : Memheap) (x : Nat) : SameObject h (mergeFree c h x) := by
  unfold mergeFree
  split_ifs
  · exact ⟨rfl, rfl, rfl, rfl, rfl⟩
  · exact ⟨by simp, by simp, by simp, by simp, by simp⟩

/-- In front of the first block lies the tailer, which is in use. -/
theorem MemheapInv.prev_first (i : MemheapInv c h (a :: b :: cs) fs) : h.isUsed (h.prev a) = true ∧ h.prev a ≠ a := by
  obtain ⟨s, z, hz⟩ : ∃ s z, b :: cs = s ++ [z] :=
    ⟨_, _, (List.dropLast_concat_getLast (List.cons_ne_nil b cs)).symm⟩
  rw [hz] at i
  rw [i.blocks.ring.wrap.2]
  refine ⟨i.listed.last z (by rw [← List.cons_append, List.getLast?_concat]; rfl), ?_⟩
  rintro rfl
  exact (List.nodup_cons.mp i.nodup.1).1 (by simp)

/-- **A released block joins its left neighbour**, which is on the free list. -/
theorem mergeLeft_spec {used : Nat → Bool} (hb : Blocks c h (as ++ p :: a :: b :: cs) fs)
    (l : Listed used (as ++ p :: a :: b :: cs) fs) (hused : h.isUsed = Function.update used a false)
    (hp : used p = false) (hpool : ∀ y ∈ as ++ p :: a :: b :: cs, h.poolPtr y = h.addr)
    (hav : h.availableSize = freeBytes c.memheapSize h.isUsed (as ++ p :: a :: b :: cs)) {m : Memheap}
    (hm : mergeLeft c h p a = m) :
    Releasing c m (as ++ p :: b :: cs) fs p true ∧
      m.availableSize = freeBytes c.memheapSize m.isUsed (as ++ p :: b :: cs) ∧ SameObject h m ∧
      ∀ y, InUse m (as ++ p :: b :: cs) y ↔ InUse h (as ++ p :: a :: b :: cs) y := by
  have hH := le_memheapSize c
  have hnd := hb.ring.nodup
  have hmid : as ++ p :: a :: b :: cs = (as ++ [p]) ++ a :: b :: cs := by simp
  have hgapp := hb.gap
  have hgapa := (hmid ▸ hb).gap
  have hpa : p ≠ a := by omega
  have ha : h.isUsed a = false := by simp [hused]
  have hpf : h.isUsed p = false := by rw [hused, Function.update_of_ne hpa, hp]
  have hblocks : Blocks c m (as ++ p :: b :: cs) fs := by
    rw [← hm, mergeLeft]
    exact Blocks.joinBlock (hb.congr rfl rfl rfl rfl rfl rfl rfl)
  have hmused : m.isUsed = h.isUsed := by
    rw [← hm]
    simp [mergeLeft]
  have hbytes : freeBytes c.memheapSize h.isUsed (as ++ p :: b :: cs) = _ := freeBytes_join hpf ha hgapp.1 hgapa.1
  rw [← hav] at hbytes
  have hlt := hblocks.freeBytes_lt h.isUsed
  rw [hbytes] at hlt
  refine ⟨⟨hblocks, ?_, fun y hy => ?_⟩, ?_, ?_, fun y => ?_⟩
  · rw [hmused, hused]
    exact l.releaseLeft hnd hp
  · have hold := hpool y (by simp only [List.mem_append, List.mem_cons] at hy ⊢; tauto)
    rw [← hm]
    simpa [mergeLeft] using hold
  · rw [hmused, hbytes, ← add_of_lt hlt, ← hm]
    simp [mergeLeft]
  · rw [← hm]
    exact ⟨by simp [mergeLeft], by simp [mergeLeft], by simp [mergeLeft], by simp [mergeLeft], by simp [mergeLeft]⟩
  · simp only [InUse, hmused, List.mem_append, List.mem_cons]
    by_cases hy : y = a
    · simp [hy, ha]
    · simp [hy]

/-- **`rt_memheap_free`** of a block in use. -/
theorem rtMemheapFree_spec (i : MemheapInv c h (as ++ a :: b :: cs) fs) (ha : h.isUsed a = true) :
    ∃ bs' fs', MemheapInv c (rtMemheapFree c h (a + c.memheapSize)) bs' fs' ∧
      SameObject h (rtMemheapFree c h (a + c.memheapSize)) ∧
      ∀ y, InUse (rtMemheapFree c h (a + c.memheapSize)) bs' y ↔ InUse h (as ++ a :: b :: cs) y ∧ y ≠ a := by
  have hH := le_memheapSize c
  obtain ⟨hgap, hend, hfits⟩ := i.blocks.gap
  have hnd := i.nodup.1
  have hsub : sub (a + c.memheapSize) c.memheapSize = a := by
    rw [sub_of_le (by omega) (by omega)]
    omega
  obtain ⟨v, hv⟩ : ∃ v, v = add h.availableSize (h.memitemSize c a) := ⟨_, rfl⟩
  obtain ⟨k, hk⟩ : ∃ k, k = markFreed h a v := ⟨_, rfl⟩
  have hused : k.isUsed = Function.update h.isUsed a false := hk ▸ markFreed_isUsed h a v
  have hblocks : Blocks c k (as ++ a :: b :: cs) fs := by
    rw [hk]
    exact i.blocks.congr rfl rfl rfl rfl rfl rfl rfl
  -- the data of the block are free bytes now
  have hbytes := freeBytes_release (H := c.memheapSize) hnd ha
  rw [← hused, ← i.available, ← i.blocks.memitemSize_eq] at hbytes
  have hav : k.availableSize = freeBytes c.memheapSize k.isUsed (as ++ a :: b :: cs) := by
    have hlt := hblocks.freeBytes_lt k.isUsed
    rw [hbytes] at hlt ⊢
    rw [hk, (markFreed_same h a v).2.2.2.2.2.2.2.1, hv]
    exact add_of_lt hlt
  have huse : ∀ y, InUse k (as ++ a :: b :: cs) y ↔ InUse h (as ++ a :: b :: cs) y ∧ y ≠ a := fun y => by
    rw [InUse, InUse, hused]
    by_cases hy : y = a <;> simp [hy]
  have hpool : ∀ y ∈ as ++ a :: b :: cs, k.poolPtr y = k.addr := fun y hy => by
    rw [hk]
    simpa using i.pool y hy
  have hsame : SameObject h k := by
    rw [hk]
    exact ⟨by simp, by simp, by simp, by simp, by simp⟩
  have hp : a + c.memheapSize ≠ 0 := by omega
  by_cases hprev : k.isUsed (k.prev a) = true
  · have has : ∀ q ∈ as.getLast?, h.isUsed q = true := by
      intro q hq
      obtain ⟨t, rfl⟩ := List.getLast?_eq_some_iff.mp hq
      have hqa : k.prev a = q := (show Blocks c k (t ++ q :: a :: b :: cs) fs by simpa using hblocks).next_eq.2
      have hne : q ≠ a := by
        rintro rfl
        exact List.disjoint_of_nodup_append hnd (List.mem_append_right t List.mem_cons_self) List.mem_cons_self
      rw [hqa, hused, Function.update_of_ne hne] at hprev
      exact hprev
    have r : Releasing c k (as ++ a :: b :: cs) fs a false := ⟨hblocks, hused ▸ i.listed.release hnd ha has, hpool⟩
    obtain ⟨bs', fs', hi, hu⟩ := r.mergeFree hav
    rw [rtMemheapFree_used hp hsub (hv ▸ hk.symm) hprev]
    refine ⟨bs', fs', by simpa using hi, ?_, fun y => ?_⟩
    · have hs := hsame.trans (mergeFree_same c k a)
      exact ⟨by simpa using hs.addr, by simpa using hs.startAddr, by simpa using hs.poolSize, by simpa using hs.freeList,
        by simpa using hs.blockList⟩
    · rw [← huse y, ← hu y, InUse, InUse, (insertFree_same _ a).1]
  · obtain ⟨t, q, rfl⟩ : ∃ t q, as = t ++ [q] := by
      rcases List.eq_nil_or_concat as with rfl | ⟨t, q, rfl⟩
      · obtain ⟨hlast, hne⟩ := MemheapInv.prev_first i
        rw [hk, (markFreed_same h a v).2.1, ← hk, hused, Function.update_of_ne hne] at hprev
        exact absurd hlast hprev
      · exact ⟨t, q, by simp⟩
    have hsplit : t ++ [q] ++ a :: b :: cs = t ++ q :: a :: b :: cs := by simp
    have hlisted := i.listed
    rw [hsplit] at hblocks hav huse hpool hlisted ⊢
    obtain ⟨hqa, -, -⟩ := hblocks.gap
    have hne : q ≠ a := by omega
    rw [hblocks.next_eq.2] at hprev
    have hkq : k.isUsed q = false := Bool.eq_false_iff.mpr hprev
    have hq : h.isUsed q = false := by rwa [hused, Function.update_of_ne hne] at hkq
    obtain ⟨r, hmav, hmsame, hmuse⟩ := mergeLeft_spec hblocks hlisted hused hq hpool hav rfl
    obtain ⟨bs', fs', hi, hu⟩ := r.mergeFree hmav
    rw [rtMemheapFree_free hp hsub (hv ▸ hk.symm) hblocks.next_eq.2 hne.symm hkq]
    exact ⟨bs', fs', hi, (hsame.trans hmsame).trans (mergeFree_same c _ q), fun y =>
      (hu y).trans ((hmuse y).trans (huse y))⟩

end CoreLink.RtThread.Memheap
