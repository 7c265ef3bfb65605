/-
# `CoreLink.RtThread.MemheapRuns` — a memory heap under any sequence of calls.

The system is the heap with the pointers that its users hold. A step is one call of `rt_memheap_alloc`,
`rt_memheap_realloc` or `rt_memheap_free`, the last two on a pointer held or on `RT_NULL`, or a write to memory where no
item starts, which stands for user data and for what a header written there leaves of an older one. `Sound` reads the
heap off its two lists. It is kept by every step but one: where the sum in the test of `rt_memheap_realloc` wraps, a
header is put in the wrong place (`memheap_unsound`).
-/
import CoreLink.Lib.Run
import CoreLink.RtThread.MemheapRealloc

namespace CoreLink.RtThread.Memheap

open CoreLink.Lib CoreLink.Lib.Layout

variable {c : MemheapCfg} {h h' : Memheap} {bs bs' fs fs' as cs : List Nat} {a b d n p x z v size : Nat}

/-! ## `rt_memheap_init` -/

/-- A region that can hold a heap: it has room for the first block and the tailer, ends within the address space, and the
heap object lies outside of it. -/
structure Region (c : MemheapCfg) (freeHeader startAddr size : Nat) : Prop where
  room : 2 * c.memheapSize ≤ c.rtAlignDown size
  fits : startAddr + c.rtAlignDown size ≤ 2 ^ 32
  outside : freeHeader < startAddr ∨ startAddr + c.rtAlignDown size ≤ freeHeader

/-- The items that `rt_memheap_init` sets up, one after the other. -/
def initItems (h : Memheap) (freeHeader item next : Nat) : Memheap :=
  ((h.initFreeHeader freeHeader).initBlock item next).initTailer next

theorem initItems_lists (h : Memheap) {f a z : Nat} (hfa : f ≠ a) (hfz : f ≠ z) (haz : a ≠ z) (ha : h.startAddr = a) :
    ((h.initItems f a z).next a = z ∧ (h.initItems f a z).next z = a ∧ (h.initItems f a z).prev a = z ∧
      (h.initItems f a z).prev z = a) ∧
    (h.initItems f a z).nextFree f = a ∧ (h.initItems f a z).nextFree a = f ∧ (h.initItems f a z).prevFree f = a ∧
      (h.initItems f a z).prevFree a = f := by
  simp [initItems, initFreeHeader, initBlock, initTailer, insertFree, setMagic, setPoolPtr, setNext, setPrev,
    setNextFree, setPrevFree, hfa, hfz, haz, hfa.symm, ha]

theorem initItems_object (h : Memheap) (f a z : Nat) :
    (h.initItems f a z).addr = h.addr ∧ (h.initItems f a z).startAddr = h.startAddr ∧
      (h.initItems f a z).poolSize = h.poolSize ∧ (h.initItems f a z).availableSize = h.availableSize ∧
      (h.initItems f a z).freeList = f ∧ (h.initItems f a z).blockList = a ∧
      (h.initItems f a z).poolPtr a = h.addr ∧ (h.initItems f a z).poolPtr z = h.addr := by
  simp [initItems, initFreeHeader, initBlock, initTailer, insertFree, setMagic, setPoolPtr, setNext, setPrev,
    setNextFree, setPrevFree, Function.update_apply]

theorem initItems_isUsed (h : Memheap) {f a z : Nat} (haz : a ≠ z) :
    (h.initItems f a z).isUsed a = false ∧ (h.initItems f a z).isUsed z = true := by
  simp [initItems, initFreeHeader, initBlock, initTailer, insertFree, setMagic, setPoolPtr, setNext, setPrev,
    setNextFree, setPrevFree, Function.update_apply, isUsed, haz, memheapMagic, memheapUsed]

@[simp] theorem initBlock_next (h : Memheap) (a z : Nat) : (h.initBlock a z).next a = z := by
  simp [initBlock, insertFree, setMagic, setPoolPtr, setNext, setPrev, setNextFree, setPrevFree]

@[simp] theorem initFreeHeader_availableSize (h : Memheap) (f : Nat) :
    (h.initFreeHeader f).availableSize = h.availableSize := by
  simp only [initFreeHeader, setMagic, setPoolPtr, setNext, setPrev, setNextFree, setPrevFree]

@[simp] theorem initObject_same (m : Memheap) (addr start pool avail : Nat) :
    (initObject m addr start pool avail).addr = addr ∧ (initObject m addr start pool avail).startAddr = start ∧
      (initObject m addr start pool avail).poolSize = pool ∧ (initObject m addr start pool avail).availableSize = avail :=
  ⟨rfl, rfl, rfl, rfl⟩

theorem rtMemheapInit_eq (c : MemheapCfg) (m : Memheap) (addr freeHeader startAddr size : Nat) :
    rtMemheapInit c m addr freeHeader startAddr size =
      (initObject m addr startAddr (c.rtAlignDown size) (sub (c.rtAlignDown size) (2 * c.memheapSize))).initItems
        freeHeader startAddr
        (add (add startAddr (sub (c.rtAlignDown size) (2 * c.memheapSize))) c.memheapSize) := by
  simp only [rtMemheapInit, initItems, initBlock_next, initFreeHeader_availableSize, initObject_same]

/-- **`rt_memheap_init`** leaves one free block, and the tailer. -/
theorem rtMemheapInit_spec {f : Nat} (m : Memheap) (addr : Nat) (r : Region c f a size) {z : Nat}
    (hz : z + c.memheapSize = a + c.rtAlignDown size) :
    MemheapInv c (rtMemheapInit c m addr f a size) [a, z] [a] ∧
      (rtMemheapInit c m addr f a size).blockList = a ∧ (rtMemheapInit c m addr f a size).startAddr = a ∧
      (rtMemheapInit c m addr f a size).poolSize = c.rtAlignDown size := by
  have hH := le_memheapSize c
  have hroom := r.room
  have hfits := r.fits
  rw [rtMemheapInit_eq]
  have hout := r.outside
  have hlt : c.rtAlignDown size < 2 ^ 32 := Word.alignDown_lt _ _ _
  generalize c.rtAlignDown size = pool at *
  have hsub : sub pool (2 * c.memheapSize) = pool - 2 * c.memheapSize := sub_of_le hroom (by omega)
  have hadd : add (add a (pool - 2 * c.memheapSize)) c.memheapSize = z := by
    have ha : add a (pool - 2 * c.memheapSize) = a + (pool - 2 * c.memheapSize) := add_of_lt (by omega)
    rw [ha, add_of_lt (by omega)]
    omega
  rw [hsub, hadd]
  obtain ⟨avail, hav⟩ : ∃ v, v = pool - 2 * c.memheapSize := ⟨_, rfl⟩
  rw [← hav]
  have hfa : f ≠ a := by omega
  have hfz : f ≠ z := by omega
  have haz : a ≠ z := by omega
  obtain ⟨k, hk⟩ : ∃ k, (initObject m addr a pool avail).initItems f a z = k := ⟨_, rfl⟩
  obtain ⟨⟨hna, hnz, hpa, hpz⟩, hff, hfa', hpf, hpfa⟩ :=
    initItems_lists (initObject m addr a pool avail) hfa hfz haz rfl
  obtain ⟨haddr, hstart, hpool, havail, hfl, hbl, hppa, hppz⟩ := initItems_object (initObject m addr a pool avail) f a z
  obtain ⟨hua, huz⟩ := initItems_isUsed (initObject m addr a pool avail) (f := f) haz
  simp only [initObject_same] at haddr hstart hpool havail hppa hppz
  rw [hk] at *
  refine ⟨⟨⟨?_, ?_, ?_, ?_, ?_, ?_, ?_⟩, ⟨?_, ?_, ?_⟩, ?_, ?_⟩, hbl, hstart, hpool⟩
  · have hone : Ring (fun _ => a) (fun _ => a) [a] := Ring.single ⟨rfl, rfl⟩
    exact hone.push (by simpa using haz.symm) (by simpa using hna) hnz (by simpa using hpa) hpz
  · simp [hstart]
  · exact ⟨z, rfl, by rw [hstart, hpool]; exact hz⟩
  · simp [Ordered]
    omega
  · rw [hstart, hpool]
    exact hfits
  · rw [hfl]
    have hone : Ring (fun _ => f) (fun _ => f) [f] := Ring.single ⟨rfl, rfl⟩
    exact hone.push (by simpa using hfa.symm) (by simpa using hff) hfa' (by simpa using hpf) hpfa
  · rw [hstart, hpool, hfl]
    exact hout
  · intro b
    simp only [List.mem_cons, List.not_mem_nil, or_false]
    constructor
    · rintro rfl
      exact ⟨.inl rfl, hua⟩
    · rintro ⟨rfl | rfl, hb⟩
      · rfl
      · rw [huz] at hb
        cases hb
  · intro y hy
    obtain rfl : z = y := by simpa using hy
    exact huz
  · simp [Coalesced, huz]
  · simp [freeBytes, hua, havail]
    omega
  · simp [hppa, hppz, haddr]

/-! ## The system -/

/-- The heap and the pointers held. -/
structure MemheapSys where
  heap : Memheap
  live : List Nat

/-- The calls. -/
inductive MemheapCall where
  | alloc (size : Nat)
  | realloc (ptr newsize : Nat)
  | free (ptr : Nat)

/-- The words of a `struct rt_memheap_item`. -/
structure Item where
  magic : BitVec 32
  poolPtr : Nat
  next : Nat
  prev : Nat
  nextFree : Nat
  prevFree : Nat

/-- What is read at the address `o`, if taken for an item, is `w`. -/
def overwrite (h : Memheap) (o : Nat) (w : Item) : Memheap :=
  { h with
    magic := Function.update h.magic o w.magic, poolPtr := Function.update h.poolPtr o w.poolPtr
    next := Function.update h.next o w.next, prev := Function.update h.prev o w.prev
    nextFree := Function.update h.nextFree o w.nextFree, prevFree := Function.update h.prevFree o w.prevFree }

/-- The items: what `next` leads to from `block_list`. -/
def Reach (h : Memheap) : Nat → Prop := Relation.ReflTransGen (fun x y => y = h.next x) h.blockList

namespace MemheapSys

/-- The pointers held after a call that returns `q` in exchange for those in `live`. -/
def hold (live : List Nat) (q : Nat) : List Nat := if q = 0 then live else q :: live

/-- One call on a pointer held, or on `RT_NULL`; `none` when it is not allowed or does not return. -/
def execCall (c : MemheapCfg) (s : MemheapSys) : MemheapCall → Option MemheapSys
  | .alloc size => (rtMemheapAlloc c s.heap size).map fun r => ⟨r.1, hold s.live r.2⟩
  | .realloc ptr newsize =>
      if ptr ∈ s.live ∨ ptr = 0 then
        (rtMemheapRealloc c s.heap ptr newsize).map fun r =>
          ⟨r.1, if newsize ≠ 0 ∧ r.2 = 0 then s.live else hold (s.live.erase ptr) r.2⟩
      else none
  | .free ptr => if ptr ∈ s.live ∨ ptr = 0 then some ⟨rtMemheapFree c s.heap ptr, s.live.erase ptr⟩ else none

/-- A call, or a write to an address where no item starts. -/
inductive Event where
  | call (l : MemheapCall)
  | write (o : Nat) (w : Item)

/-- The step relation. -/
inductive Step (c : MemheapCfg) (s : MemheapSys) : Event → MemheapSys → Prop
  | call {l : MemheapCall} {s' : MemheapSys} : execCall c s l = some s' → Step c s (.call l) s'
  | write {o : Nat} {w : Item} : ¬ Reach s.heap o → o ≠ s.heap.freeList →
      Step c s (.write o w) ⟨s.heap.overwrite o w, s.live⟩

/-- The test of `rt_memheap_realloc` for growing in place does not wrap. -/
def SumFits (c : MemheapCfg) (s : MemheapSys) : Event → Prop
  | .call (.realloc ptr newsize) => ptr ≠ 0 → newsize ≠ 0 → GrowthFits c s.heap ptr newsize
  | _ => True

/-- The pointer is held, where the call is about one. -/
def Allowed (s : MemheapSys) : MemheapCall → Prop
  | .alloc _ => True
  | .realloc ptr _ => ptr ∈ s.live ∨ ptr = 0
  | .free ptr => ptr ∈ s.live ∨ ptr = 0

/-! ## The invariant over runs -/

/-- The pointers held are those of the blocks in use, but for the tailer. -/
def LiveBlocks (c : MemheapCfg) (h : Memheap) (bs live : List Nat) : Prop :=
  ∀ p, p ∈ live ↔ ∃ b, InUse h bs b ∧ b + c.memheapSize ≠ h.startAddr + h.poolSize ∧ p = b + c.memheapSize

/-- The invariant of the system. -/
structure Inv (c : MemheapCfg) (s : MemheapSys) (bs fs : List Nat) : Prop where
  heap : MemheapInv c s.heap bs fs
  first : s.heap.blockList = s.heap.startAddr
  nodup : s.live.Nodup
  live : LiveBlocks c s.heap bs s.live

namespace Inv

variable {s s' : MemheapSys} {live : List Nat}

/-- Memory where no item starts does not matter. -/
theorem overwrite (i : Inv c s bs fs) {o : Nat} (w : Item) (ho : ¬ Reach s.heap o) (hof : o ≠ s.heap.freeList) :
    Inv c ⟨s.heap.overwrite o w, s.live⟩ bs fs := by
  have hreach : ∀ b ∈ bs, Reach s.heap b := by
    obtain ⟨t, rfl⟩ : ∃ t, bs = s.heap.startAddr :: t := List.head?_eq_some_iff.mp i.heap.blocks.first
    intro b hb
    rw [Reach, i.first]
    exact (i.heap.blocks.ring.path _ t rfl).reach b hb
  have hne : ∀ b ∈ bs, b ≠ o := fun b hb e => ho (e ▸ hreach b hb)
  have hnef : ∀ b ∈ s.heap.freeList :: fs, b ≠ o := by
    intro b hb
    rcases List.mem_cons.mp hb with rfl | hb
    · exact hof.symm
    · exact hne b ((i.heap.listed.free_iff b).mp hb).1
  have hused : ∀ b ∈ bs, (s.heap.overwrite o w).isUsed b = s.heap.isUsed b := fun b hb => by
    simp [isUsed, Memheap.overwrite, hne b hb]
  have bl := i.heap.blocks
  refine ⟨⟨⟨bl.ring.congr (fun b hb => ?_) fun b hb => ?_, bl.first, bl.last, bl.ordered, bl.fits,
    bl.freeRing.congr (fun b hb => ?_) fun b hb => ?_, bl.outside⟩, i.heap.listed.congr hused, ?_, fun b hb => ?_⟩,
    i.first, i.nodup, fun p => ?_⟩
  · exact Function.update_of_ne (hne b hb) _ _
  · exact Function.update_of_ne (hne b hb) _ _
  · exact Function.update_of_ne (hnef b hb) _ _
  · exact Function.update_of_ne (hnef b hb) _ _
  · exact i.heap.available.trans (freeBytes_congr hused).symm
  · exact (Function.update_of_ne (hne b hb) _ _).trans (i.heap.pool b hb)
  · rw [i.live p]
    refine exists_congr fun b => and_congr_left fun _ => and_congr_right fun hb => ?_
    rw [hused b hb]

/-- The block of a pointer held. -/
theorem block (i : Inv c s bs fs) (hp : p ∈ s.live) :
    ∃ b as d cs, bs = as ++ b :: d :: cs ∧ s.heap.isUsed b = true ∧ p = b + c.memheapSize := by
  obtain ⟨b, ⟨hb, hused⟩, hend, rfl⟩ := (i.live p).mp hp
  obtain ⟨as, d, cs, hbs⟩ := i.heap.split_item hb hend
  exact ⟨b, as, d, cs, hbs, hused, rfl⟩

theorem zero_not_mem (i : Inv c s bs fs) : 0 ∉ s.live := by
  intro h0
  obtain ⟨b, -, -, hb⟩ := (i.live 0).mp h0
  have hH := le_memheapSize c
  omega

/-- A block that is not in use is not the tailer. -/
theorem ne_tailer (i : Inv c s bs fs) (ha : ¬ InUse s.heap bs a) :
    a + c.memheapSize ≠ s.heap.startAddr + s.heap.poolSize := by
  obtain ⟨z, hz, hend⟩ := i.heap.blocks.last
  intro he
  obtain rfl : a = z := by omega
  exact ha ⟨List.mem_of_mem_getLast? hz, i.heap.listed.last _ hz⟩

/-- **What a call does to the pointers held**, from what it does to the blocks in use. -/
theorem exchange (i : Inv c s bs fs) (hi : MemheapInv c h' bs' fs') (hs : SameObject s.heap h') (hnd : live.Nodup)
    (hlive : ∀ p, p ∈ live ↔ ∃ b, InUse h' bs' b ∧ b + c.memheapSize ≠ s.heap.startAddr + s.heap.poolSize ∧
      p = b + c.memheapSize) : Inv c ⟨h', live⟩ bs' fs' := by
  refine ⟨hi, ?_, hnd, fun p => ?_⟩
  · rw [hs.blockList, hs.startAddr]
    exact i.first
  · rw [hs.startAddr, hs.poolSize]
    exact hlive p

/-- The block handed out by `rt_memheap_alloc` is a new one. -/
theorem alloc (i : Inv c s bs fs) (size : Nat) :
    ∃ h' q bs' fs', rtMemheapAlloc c s.heap size = some (h', q) ∧ Inv c ⟨h', hold s.live q⟩ bs' fs' := by
  obtain ⟨h', q, bs', fs', halloc, hi, hs, hcase⟩ := rtMemheapAlloc_spec i.heap size
  refine ⟨h', q, bs', fs', halloc, i.exchange hi hs ?_ fun p => ?_⟩
  · rcases hcase with ⟨rfl, -, -⟩ | ⟨a, rfl, ha, -⟩
    · exact i.nodup
    · unfold hold
      split_ifs
      · exact i.nodup
      · refine List.nodup_cons.mpr ⟨fun hmem => ?_, i.nodup⟩
        obtain ⟨b, hb, -, hab⟩ := (i.live _).mp hmem
        obtain rfl : a = b := by omega
        exact ha hb
  · rcases hcase with ⟨rfl, rfl, rfl⟩ | ⟨a, rfl, ha, hu⟩
    · exact i.live p
    · have hH := le_memheapSize c
      have htail := i.ne_tailer ha
      rw [hold, if_neg (by omega), List.mem_cons, i.live p]
      simp only [hu]
      constructor
      · rintro (rfl | ⟨b, hb, hend, rfl⟩)
        · exact ⟨a, .inr rfl, htail, rfl⟩
        · exact ⟨b, .inl hb, hend, rfl⟩
      · rintro ⟨b, hb | rfl, hend, rfl⟩
        · exact .inr ⟨b, hb, hend, rfl⟩
        · exact .inl rfl

theorem free (i : Inv c s bs fs) (hp : p ∈ s.live) :
    ∃ bs' fs', Inv c ⟨rtMemheapFree c s.heap p, s.live.erase p⟩ bs' fs' := by
  obtain ⟨a, as, d, cs, rfl, hused, rfl⟩ := i.block hp
  obtain ⟨bs', fs', hi, hs, hu⟩ := rtMemheapFree_spec i.heap hused
  refine ⟨bs', fs', i.exchange hi hs (i.nodup.erase _) fun p => ?_⟩
  rw [i.nodup.mem_erase_iff, i.live p]
  simp only [hu]
  constructor
  · rintro ⟨hne, b, hb, hend, rfl⟩
    exact ⟨b, ⟨hb, fun e => hne (by rw [e])⟩, hend, rfl⟩
  · rintro ⟨b, ⟨hb, hne⟩, hend, rfl⟩
    exact ⟨fun e => hne (by omega), b, hb, hend, rfl⟩

/-- `rt_memheap_realloc` of a block held: it is given back, kept, or exchanged for another one. -/
theorem realloc (i : Inv c s bs fs) (hp : p ∈ s.live) (newsize : Nat)
    (hfits : newsize ≠ 0 → GrowthFits c s.heap p newsize) :
    ∃ h' q bs' fs', rtMemheapRealloc c s.heap p newsize = some (h', q) ∧
      Inv c ⟨h', if newsize ≠ 0 ∧ q = 0 then s.live else hold (s.live.erase p) q⟩ bs' fs' := by
  obtain ⟨a, as, d, cs, rfl, hused, rfl⟩ := i.block hp
  obtain ⟨h', q, bs', fs', hre, hi, hs, hcase⟩ := rtMemheapRealloc_spec i.heap hused newsize hfits
  refine ⟨h', q, bs', fs', hre, ?_⟩
  rcases hcase with ⟨hzero, rfl, hu⟩ | ⟨hzero, rfl, hu⟩ | ⟨hzero, b, rfl, hb, hu⟩
  · rw [if_neg fun hcon => hcon.1 hzero, hold, if_pos rfl]
    refine i.exchange hi hs (i.nodup.erase _) fun p => ?_
    rw [i.nodup.mem_erase_iff, i.live p]
    simp only [hu]
    constructor
    · rintro ⟨hne, b, hb, hend, rfl⟩
      exact ⟨b, ⟨hb, fun e => hne (by rw [e])⟩, hend, rfl⟩
    · rintro ⟨b, ⟨hb, hne⟩, hend, rfl⟩
      exact ⟨fun e => hne (by omega), b, hb, hend, rfl⟩
  · rw [if_pos ⟨hzero, rfl⟩]
    refine i.exchange hi hs i.nodup fun p => ?_
    rw [i.live p]
    simp only [hu]
  · have hH := le_memheapSize c
    have hq : b + c.memheapSize ≠ 0 := by omega
    have htail : b + c.memheapSize ≠ s.heap.startAddr + s.heap.poolSize := by
      rcases hb with rfl | hb
      · have hgap := i.heap.blocks.gap
        omega
      · exact i.ne_tailer hb
    rw [if_neg fun hcon => hq hcon.2, hold, if_neg hq]
    refine i.exchange hi hs (List.nodup_cons.mpr ⟨fun hmem => ?_, i.nodup.erase _⟩) fun p => ?_
    · obtain ⟨hne, hlive⟩ := i.nodup.mem_erase_iff.mp hmem
      obtain ⟨y, hy, -, hby⟩ := (i.live _).mp hlive
      obtain rfl : b = y := by omega
      exact hb.elim (fun e => hne (by rw [e])) fun hnot => hnot hy
    · rw [List.mem_cons, i.nodup.mem_erase_iff, i.live p]
      simp only [hu]
      constructor
      · rintro (rfl | ⟨hne, y, hy, hend, rfl⟩)
        · exact ⟨b, .inr rfl, htail, rfl⟩
        · exact ⟨y, .inl ⟨hy, fun e => hne (by rw [e])⟩, hend, rfl⟩
      · rintro ⟨y, ⟨hy, hne⟩ | rfl, hend, rfl⟩
        · exact .inr ⟨fun e => hne (by omega), y, hy, hend, rfl⟩
        · exact .inl rfl

/-- **Every call returns**, and keeps the invariant. -/
theorem execCall_spec (i : Inv c s bs fs) {l : MemheapCall} (hl : Allowed s l) (hf : SumFits c s (.call l)) :
    ∃ s' bs' fs', execCall c s l = some s' ∧ Inv c s' bs' fs' := by
  cases l with
  | alloc size =>
    obtain ⟨h', q, bs', fs', halloc, hi⟩ := i.alloc size
    exact ⟨_, bs', fs', by rw [execCall, halloc]; rfl, hi⟩
  | realloc ptr newsize =>
    rcases hl with hp | rfl
    · have hne : ptr ≠ 0 := fun e => i.zero_not_mem (e ▸ hp)
      obtain ⟨h', q, bs', fs', hre, hi⟩ := i.realloc hp newsize (hf hne)
      exact ⟨_, bs', fs', by rw [execCall, if_pos (.inl hp), hre]; rfl, hi⟩
    · have herase : s.live.erase 0 = s.live := List.erase_of_not_mem i.zero_not_mem
      by_cases hzero : newsize = 0
      · refine ⟨⟨s.heap, s.live⟩, bs, fs, ?_, i⟩
        rw [execCall, if_pos (.inr rfl), rtMemheapRealloc, if_pos hzero, rtMemheapFree, if_pos rfl, herase]
        simp [hold]
      · obtain ⟨h', q, bs', fs', halloc, hi⟩ := i.alloc (blockSize c newsize)
        refine ⟨_, bs', fs', ?_, hi⟩
        rw [execCall, if_pos (.inr rfl), rtMemheapRealloc, if_neg hzero, herase]
        simp only [if_true, halloc, Option.map_some, hold]
        by_cases hq : q = 0 <;> simp [hq, hzero]
  | free ptr =>
    rcases hl with hp | rfl
    · obtain ⟨bs', fs', hi⟩ := i.free hp
      exact ⟨_, bs', fs', by rw [execCall, if_pos (.inl hp)], hi⟩
    · refine ⟨⟨s.heap, s.live⟩, bs, fs, ?_, i⟩
      rw [execCall, if_pos (.inr rfl), rtMemheapFree, if_pos rfl, List.erase_of_not_mem i.zero_not_mem]

/-- **One step** keeps the invariant, if the sum of the test fits. -/
theorem step (i : Inv c s bs fs) {e : Event} (hf : SumFits c s e) (h : Step c s e s') : ∃ bs' fs', Inv c s' bs' fs' := by
  cases h with
  | @call l _ hc =>
    have hl : Allowed s l := by
      cases l with
      | alloc size => trivial
      | realloc ptr newsize =>
        simp only [execCall] at hc
        split_ifs at hc with hl
        exact hl
      | free ptr =>
        simp only [execCall] at hc
        split_ifs at hc with hl
        exact hl
    obtain ⟨s₁, bs', fs', hs, hi⟩ := i.execCall_spec hl hf
    obtain rfl : s₁ = s' := Option.some.inj (hs.symm.trans hc)
    exact ⟨bs', fs', hi⟩
  | write ho hof => exact ⟨bs, fs, i.overwrite _ ho hof⟩

end Inv

/-! ## The heap seen through its lists -/

/-- **The heap is sound.** From `block_list`, `next` runs in address order through items that tile the pool and end in the
tailer, which is used, and back to the start, `prev` the other way round; the free list is a ring of the items without
the mark, no two neighbours are both free, and `available_size` adds up the sizes of the free items. -/
structure Sound (c : MemheapCfg) (h : Memheap) (bs fs : List Nat) : Prop where
  ring : Ring h.next h.prev bs
  first : bs.head? = some h.blockList
  start : h.blockList = h.startAddr
  tiles : bs.IsChain fun a b => b = h.next a ∧ a < b ∧ a + c.memheapSize + h.memitemSize c a = b
  tailer : ∃ z, bs.getLast? = some z ∧ h.isUsed z = true ∧ z + c.memheapSize = h.startAddr + h.poolSize
  freeRing : Ring h.nextFree h.prevFree (h.freeList :: fs)
  free_iff : ∀ b, b ∈ fs ↔ b ∈ bs ∧ h.isUsed b = false
  apart : ∀ a ∈ bs, h.isUsed a = true ∨ h.isUsed (h.next a) = true
  available : h.availableSize = (fs.map (h.memitemSize c)).sum

end MemheapSys

/-- The invariant gives a sound heap. -/
theorem MemheapSys.Inv.sound {s : MemheapSys} (i : Inv c s bs fs) : Sound c s.heap bs fs := by
  have bl := i.heap.blocks
  have hH := le_memheapSize c
  refine ⟨bl.ring, ?_, i.first, isChain_of_split fun as a b cs e => ?_, ?_, bl.freeRing, i.heap.listed.free_iff,
    fun a ha => ?_, ?_⟩
  · rw [i.first]
    exact bl.first
  · subst e
    obtain ⟨hgap, -, -⟩ := bl.gap
    rw [bl.next_eq.1, bl.memitemSize_eq]
    omega
  · obtain ⟨z, hz, hend⟩ := bl.last
    exact ⟨z, hz, i.heap.listed.last z hz, hend⟩
  · by_cases hlast : a ∈ bs.getLast?
    · exact .inl (i.heap.listed.last a hlast)
    · obtain ⟨as, b, cs, rfl⟩ := i.heap.split ha hlast
      rw [bl.next_eq.1]
      exact (List.isChain_cons_cons.mp (List.isChain_split.mp i.heap.listed.coalesced).2).1
  · have hsize : bs.IsChain fun a b => s.heap.memitemSize c a = b - (a + c.memheapSize) :=
      isChain_of_split fun as a b cs e => by
        subst e
        exact bl.memitemSize_eq
    rw [i.heap.available, freeBytes_eq_sum hsize i.heap.listed.last]
    exact ((i.heap.listed.perm i.heap.nodup.1 i.heap.nodup.2).map _).sum_nat.symm

/-- What `rt_memheap_init` sets up. -/
theorem MemheapSys.inv_init {f : Nat} (m : Memheap) (addr : Nat) (r : Region c f a size) :
    ∃ bs fs, Inv c ⟨rtMemheapInit c m addr f a size, []⟩ bs fs := by
  have hroom := r.room
  have hz : a + c.rtAlignDown size - c.memheapSize + c.memheapSize = a + c.rtAlignDown size := by omega
  obtain ⟨hi, hbl, hstart, hpool⟩ := rtMemheapInit_spec m addr r hz
  refine ⟨_, _, hi, hbl.trans hstart.symm, List.nodup_nil, fun p => ?_⟩
  simp only [List.not_mem_nil, false_iff]
  rintro ⟨b, ⟨hb, hused⟩, hend, rfl⟩
  -- the first block is free, and the other item is the tailer
  rcases List.mem_cons.mp hb with rfl | hb
  · rw [((hi.listed.free_iff _).mp List.mem_cons_self).2] at hused
    cases hused
  · obtain rfl := List.mem_singleton.mp hb
    rw [hstart, hpool] at hend
    exact hend hz

/-- **A memory heap stays sound** in every run in which the test of `rt_memheap_realloc` does not wrap, and every call on
a pointer held returns. -/
theorem MemheapSys.memheap_sound (c : MemheapCfg) (m : Memheap) (addr freeHeader startAddr size : Nat)
    (hregion : Region c freeHeader startAddr size) (es : List Event) (s : MemheapSys)
    (hrun : Run (Guarded (SumFits c) (Step c)) ⟨rtMemheapInit c m addr freeHeader startAddr size, []⟩ es s) :
    (∃ bs fs, Sound c s.heap bs fs) ∧
      ∀ l, Allowed s l → SumFits c s (.call l) → ∃ s', execCall c s l = some s' := by
  obtain ⟨bs, fs, i⟩ := hrun.guarded (I := fun s => ∃ bs fs, Inv c s bs fs) (inv_init m addr hregion)
    fun _ _ _ ⟨_, _, hi⟩ hf hs => hi.step hf hs
  refine ⟨⟨bs, fs, i.sound⟩, fun l hl hf => ?_⟩
  obtain ⟨s', -, -, hs, -⟩ := i.execCall_spec hl hf
  exact ⟨s', hs⟩

/-! ## Runs of calls -/

namespace MemheapSys

instance (c : MemheapCfg) (s : MemheapSys) : ∀ e, Decidable (SumFits c s e)
  | .call (.alloc _) => isTrue trivial
  | .call (.realloc ptr newsize) =>
      inferInstanceAs (Decidable (ptr ≠ 0 → newsize ≠ 0 → GrowthFits c s.heap ptr newsize))
  | .call (.free _) => isTrue trivial
  | .write _ _ => isTrue trivial

/-- The events that are calls, executed. -/
def execEvent (c : MemheapCfg) (s : MemheapSys) : Event → Option MemheapSys
  | .call l => execCall c s l
  | .write _ _ => none

theorem step_of_execEvent (c : MemheapCfg) (s : MemheapSys) (e : Event) (s' : MemheapSys)
    (h : execEvent c s e = some s') : Step c s e s' := by
  cases e with
  | call l => exact .call h
  | write o w => cases h

/-- Addresses are multiples of 4, so that `RT_MEMHEAP_SIZE` is 24. -/
def cfg4 : MemheapCfg := ⟨2, by decide⟩

/-- Memory that is zero, and nothing set up in it. -/
def zeroed : Memheap :=
  ⟨0, 0, 0, 0, 0, 0, 0, fun _ => 0#32, fun _ => 0, fun _ => 0, fun _ => 0, fun _ => 0, fun _ => 0⟩

/-- A heap of 512 bytes at 4096, whose object is at 256. -/
def heap512 : MemheapSys := ⟨rtMemheapInit cfg4 zeroed 256 260 4096 512, []⟩

/-- A block grows into the free one behind it, shrinks again with a merge, and moves. -/
def memheapCalls : List Event :=
  [.alloc 100, .alloc 40, .alloc 16, .free 4244, .realloc 4120 120, .realloc 4120 40, .alloc 60,
    .realloc 4120 150].map Event.call

theorem memheap_sound_run : ∃ s : MemheapSys, Run (Guarded (SumFits cfg4) (Step cfg4)) heap512 memheapCalls s ∧
    s.live = [4348, 4184, 4308] ∧ s.heap.availableSize = 116 ∧ ∃ bs fs, Sound cfg4 s.heap bs fs := by
  have hexec : (memheapCalls.foldlM (fun s e => if SumFits cfg4 s e then execEvent cfg4 s e else none) heap512).map
      (fun s => (s.live, s.heap.availableSize)) = some ([4348, 4184, 4308], 116) := by decide +kernel
  obtain ⟨s, hs, hobs⟩ := Option.map_eq_some_iff.mp hexec
  obtain ⟨hlive, havail⟩ := Prod.mk.inj hobs
  have hrun : Run (Guarded (SumFits cfg4) (Step cfg4)) heap512 memheapCalls s :=
    Run.of_foldlM_guarded (step_of_execEvent cfg4) hs
  exact ⟨s, hrun, hlive, havail, (memheap_sound cfg4 zeroed 256 260 4096 512
    ⟨by decide, by decide, by decide⟩ memheapCalls s hrun).1⟩

/-- **A wrapped sum.** Growing a block to `0xFFFFFFF8` bytes "fits" into the free block behind it: the new header is put
at 4112, inside the header of the block at 4096. -/
theorem memheap_unsound : ∃ s : MemheapSys,
    Run (Step cfg4) heap512 [.call (.alloc 100), .call (.realloc 4120 0xFFFFFFF8)] s ∧
    s.live = [4120] ∧ s.heap.next 4096 = 4112 ∧ ¬ ∃ bs fs, Sound cfg4 s.heap bs fs := by
  have hexec : (([.call (.alloc 100), .call (.realloc 4120 0xFFFFFFF8)] : List Event).foldlM (execEvent cfg4) heap512).map
      (fun s => (s.live, s.heap.next 4096, s.heap.blockList)) = some ([4120], 4112, 4096) := by decide +kernel
  obtain ⟨s, hs, hobs⟩ := Option.map_eq_some_iff.mp hexec
  obtain ⟨hlive, hobs⟩ := Prod.mk.inj hobs
  obtain ⟨hnext, hfirst⟩ := Prod.mk.inj hobs
  refine ⟨s, Run.of_foldlM (step_of_execEvent cfg4) hs, hlive, hnext, ?_⟩
  rintro ⟨bs, fs, hsound⟩
  obtain ⟨t, rfl⟩ : ∃ t, bs = 4096 :: t := List.head?_eq_some_iff.mp (hfirst ▸ hsound.first)
  cases t with
  | nil =>
    -- a ring of one item
    have hself := (hsound.ring.path 4096 [] rfl).1
    rw [hnext] at hself
    exact absurd hself (by decide)
  | cons b t =>
    obtain ⟨hb, -, htile⟩ := (List.isChain_cons_cons.mp hsound.tiles).1
    have hH := le_memheapSize cfg4
    omega

end MemheapSys

end CoreLink.RtThread.Memheap
