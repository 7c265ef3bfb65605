/-
# `CoreLink.RtThread.MemContents` — the heap of `mem.c` with the bytes of its blocks.

Headers and user data share one memory, and a call of `mem.c` writes headers in places where data have been. `MemStore`
is the heap together with the bytes of the region; the functions are those of the heap once more, and a write to a header
is now also a write of its `sizeof(struct heap_mem)` bytes. What these bytes are does not matter, so that they are a
parameter. Each function does on headers what the function of the heap does (`rtRealloc_heap`).

The one thing to prove about a call is then which offsets it writes at (`Writes`): the headers of the tiling that it
leaves. No data area of that tiling overlaps one of these (`Tiled.off_headers`).
-/
import CoreLink.RtThread.MemRoom

namespace CoreLink.RtThread.Mem

open CoreLink.Lib

/-- The heap, and the bytes from `heap_ptr` on. -/
structure MemStore where
  heap : Heap
  bytes : Nat → UInt8

namespace MemStore

/-! ## The functions of `mem.c`, with the bytes they write -/

section Code

variable (c : MemCfg) (g : HeapMem → Nat → UInt8)

/-- Write to the header at offset `o`. -/
def modify (s : MemStore) (o : Nat) (f : HeapMem → HeapMem) : MemStore where
  heap := s.heap.modify o f
  bytes x := if o ≤ x ∧ x < o + c.sizeofHeapMem then g (f (s.heap.mem o)) (x - o) else s.bytes x

/-- Change a variable of `mem.c`. -/
def setHeap (s : MemStore) (h : Heap) : MemStore := { s with heap := h }

/-- `rt_memcpy (dst, src, n)` of areas that do not overlap; the offsets are from `heap_ptr`. -/
def memcpy (s : MemStore) (dst src n : Nat) : MemStore :=
  { s with bytes := fun x => if dst ≤ x ∧ x < dst + n then s.bytes (src + (x - dst)) else s.bytes x }

/-- The statements that join the block at `hi` to the one at `lo`. -/
def join (s : MemStore) (lo hi : Nat) : MemStore :=
  let s := if s.heap.lfree = hi then s.setHeap { s.heap with lfree := lo } else s
  let s := s.modify c g lo fun m => { m with next := (s.heap.mem hi).next }
  s.modify c g (s.heap.mem hi).next fun m => { m with prev := lo }

/-- The forward half of `plug_holes`. -/
def plugForward (s : MemStore) (mem : Nat) : MemStore :=
  let nmem := (s.heap.mem mem).next
  if mem ≠ nmem ∧ (s.heap.mem nmem).used = false ∧ nmem ≠ s.heap.heapEnd then s.join c g mem nmem else s

/-- The backward half of `plug_holes`. -/
def plugBackward (s : MemStore) (mem : Nat) : MemStore :=
  let pmem := (s.heap.mem mem).prev
  if pmem ≠ mem ∧ (s.heap.mem pmem).used = false then s.join c g pmem mem else s

/-- `plug_holes`. -/
def plugHoles (s : MemStore) (mem : Nat) : MemStore := (s.plugForward c g mem).plugBackward c g mem

/-- Cut the block at `ptr` after `size` bytes of data. -/
def splitAt (s : MemStore) (ptr size : Nat) : MemStore :=
  let ptr2 := ptr + c.sizeofStructMem + size
  let nxt := (s.heap.mem ptr).next
  let s := s.modify c g ptr2 fun _ => { magic := heapMagic, used := false, next := nxt, prev := ptr }
  let s := s.modify c g ptr fun m => { m with next := ptr2 }
  if nxt ≠ s.heap.memSizeAligned + c.sizeofStructMem then s.modify c g nxt fun m => { m with prev := ptr2 } else s

/-- What `rt_malloc` does with the block it found. -/
def mallocTake (s : MemStore) (ptr size : Nat) : MemStore :=
  let avail := c.sub (s.heap.mem ptr).next (ptr + c.sizeofStructMem)
  let s :=
    if size + c.sizeofStructMem + c.minSizeAligned ≤ avail then
      let s := (s.splitAt c g ptr size).modify c g ptr fun m => { m with used := true }
      s.setHeap (s.heap.addUsed (size + c.sizeofStructMem))
    else
      let n := c.sub (s.heap.mem ptr).next ptr
      let s := s.modify c g ptr fun m => { m with used := true }
      s.setHeap (s.heap.addUsed n)
  s.modify c g ptr fun m => { m with magic := heapMagic }

/-- `rt_malloc`. -/
def rtMalloc (fuel : Nat) (s : MemStore) (size : Nat) : Option (MemStore × Nat) :=
  if size = 0 then some (s, 0)
  else if s.heap.memSizeAligned < c.rtAlign size then some (s, 0)
  else
    match mallocSearch c s.heap (blockSize c size) fuel s.heap.lfree with
    | none => none
    | some none => some (s, 0)
    | some (some ptr) =>
        let s' := s.mallocTake c g ptr (blockSize c size)
        if ptr = s'.heap.lfree then
          (lfreeAdvance fuel s'.heap).map fun h'' => (s'.setHeap h'', s.heap.heapPtr + ptr + c.sizeofStructMem)
        else some (s', s.heap.heapPtr + ptr + c.sizeofStructMem)

/-- The statements of `rt_free` between its checks and `plug_holes`. -/
def freeMark (s : MemStore) (mem : Nat) : MemStore :=
  let s := s.modify c g mem fun m => { m with used := false, magic := heapMagic }
  let s := if mem < s.heap.lfree then s.setHeap { s.heap with lfree := mem } else s
  s.setHeap { s.heap with usedMem := c.sub s.heap.usedMem (c.sub (s.heap.mem mem).next mem) }

/-- `rt_free`. -/
def rtFree (s : MemStore) (rmem : Nat) : MemStore :=
  if rmem = 0 then s
  else if ¬ s.heap.inRange rmem then s
  else (s.freeMark c g (s.heap.header c rmem)).plugHoles c g (s.heap.header c rmem)

/-- The in-place branch of `rt_realloc`. -/
def shrink (s : MemStore) (ptr newsize : Nat) : MemStore :=
  let size := c.sub (c.sub (s.heap.mem ptr).next ptr) c.sizeofStructMem
  let s := s.setHeap { s.heap with usedMem := c.sub s.heap.usedMem (c.sub size newsize) }
  (s.splitAt c g ptr newsize).plugHoles c g (ptr + c.sizeofStructMem + newsize)

/-- `rt_realloc`. -/
def rtRealloc (fuel : Nat) (s : MemStore) (rmem newsize : Nat) : Option (MemStore × Nat) :=
  let size' := c.rtAlign newsize
  if s.heap.memSizeAligned < size' then some (s, 0)
  else if size' = 0 then some (s.rtFree c g rmem, 0)
  else if rmem = 0 then rtMalloc c g fuel s size'
  else if ¬ s.heap.inRange rmem then some (s, rmem)
  else
    let ptr := s.heap.header c rmem
    let size := c.sub (c.sub (s.heap.mem ptr).next ptr) c.sizeofStructMem
    if size = size' then some (s, rmem)
    else if shrinksInPlace c s.heap rmem newsize then some (s.shrink c g ptr size', rmem)
    else
      match rtMalloc c g fuel s size' with
      | none => none
      | some (s', nmem) =>
          if nmem = 0 then some (s', 0)
          else
            let s' := s'.memcpy (nmem - s'.heap.heapPtr) (rmem - s'.heap.heapPtr) (if size < size' then size else size')
            some (s'.rtFree c g rmem, nmem)

end Code

/-! ## On the headers they do what the functions of the heap do -/

section Heap

variable {c : MemCfg} {g : HeapMem → Nat → UInt8} {s : MemStore}

@[simp] theorem modify_heap (o : Nat) (f : HeapMem → HeapMem) : (s.modify c g o f).heap = s.heap.modify o f := rfl
@[simp] theorem setHeap_heap (h : Heap) : (s.setHeap h).heap = h := rfl
@[simp] theorem memcpy_heap (dst src n : Nat) : (s.memcpy dst src n).heap = s.heap := rfl

@[simp] theorem join_heap (lo hi : Nat) : (s.join c g lo hi).heap = Mem.join s.heap lo hi := by
  unfold join Mem.join
  simp only
  split_ifs <;> rfl

@[simp] theorem plugForward_heap (m : Nat) : (s.plugForward c g m).heap = Mem.plugForward s.heap m := by
  unfold plugForward Mem.plugForward
  simp only
  split_ifs
  · exact join_heap _ _
  · rfl

@[simp] theorem plugBackward_heap (m : Nat) : (s.plugBackward c g m).heap = Mem.plugBackward s.heap m := by
  unfold plugBackward Mem.plugBackward
  simp only
  split_ifs
  · exact join_heap _ _
  · rfl

@[simp] theorem plugHoles_heap (m : Nat) : (s.plugHoles c g m).heap = Mem.plugHoles s.heap m := by
  rw [plugHoles, plugBackward_heap, plugForward_heap, Mem.plugHoles]

@[simp] theorem splitAt_heap (ptr size : Nat) : (s.splitAt c g ptr size).heap = Mem.splitAt c s.heap ptr size := by
  unfold splitAt Mem.splitAt
  simp only
  split_ifs <;> first | rfl | contradiction

@[simp] theorem mallocTake_heap (ptr size : Nat) :
    (s.mallocTake c g ptr size).heap = Mem.mallocTake c s.heap ptr size := by
  unfold mallocTake Mem.mallocTake
  simp only
  split_ifs
  · simp
  · simp

@[simp] theorem freeMark_heap (m : Nat) : (s.freeMark c g m).heap = Mem.freeMark c s.heap m := by
  unfold freeMark Mem.freeMark
  simp only
  split_ifs <;> first | rfl | contradiction

@[simp] theorem rtFree_heap (p : Nat) : (s.rtFree c g p).heap = Mem.rtFree c s.heap p := by
  unfold rtFree Mem.rtFree
  split_ifs
  · rfl
  · rw [plugHoles_heap, freeMark_heap]
  · rfl

@[simp] theorem shrink_heap (ptr n : Nat) : (s.shrink c g ptr n).heap = Mem.shrink c s.heap ptr n := by
  rw [shrink, plugHoles_heap, splitAt_heap, setHeap_heap, Mem.shrink]

theorem rtMalloc_heap (fuel n : Nat) :
    (rtMalloc c g fuel s n).map (fun r => (r.1.heap, r.2)) = Mem.rtMalloc c fuel s.heap n := by
  unfold rtMalloc Mem.rtMalloc
  split_ifs
  · rfl
  · rfl
  cases mallocSearch c s.heap (blockSize c n) fuel s.heap.lfree with
  | none => rfl
  | some r =>
    cases r with
    | none => rfl
    | some q =>
      simp only [mallocTake_heap]
      split_ifs
      · cases lfreeAdvance fuel (Mem.mallocTake c s.heap q (blockSize c n)) <;> rfl
      · simp

/-- **`rt_realloc` on the headers** is `rt_realloc` of the heap. -/
theorem rtRealloc_heap (fuel p n : Nat) :
    (rtRealloc c g fuel s p n).map (fun r => (r.1.heap, r.2)) = Mem.rtRealloc c fuel s.heap p n := by
  unfold rtRealloc Mem.rtRealloc
  simp only
  -- how much is copied does not matter to the headers
  generalize (if c.sub (c.sub (s.heap.mem (s.heap.header c p)).next (s.heap.header c p)) c.sizeofStructMem < c.rtAlign n
    then c.sub (c.sub (s.heap.mem (s.heap.header c p)).next (s.heap.header c p)) c.sizeofStructMem else c.rtAlign n) = k
  split_ifs
  · rfl
  · simp
  · exact rtMalloc_heap _ _
  · rfl
  · simp
  · rw [← rtMalloc_heap (g := g)]
    cases rtMalloc c g fuel s (c.rtAlign n) with
    | none => rfl
    | some r =>
      obtain ⟨s', q⟩ := r
      by_cases hq : q = 0 <;> simp [hq]
  · rfl

end Heap

/-! ## Which offsets a function writes at -/

/-- From `s` to `s'`, bytes have changed only in headers at the offsets `W`. -/
def Writes (c : MemCfg) (s s' : MemStore) (W : Nat → Prop) : Prop :=
  ∀ x, (∀ o, W o → ¬ (o ≤ x ∧ x < o + c.sizeofHeapMem)) → s'.bytes x = s.bytes x

section Writes

variable {c : MemCfg} {g : HeapMem → Nat → UInt8} {s s' s'' : MemStore} {W : Nat → Prop} {B : Finset Nat}

theorem Writes.refl (s : MemStore) (W : Nat → Prop) : Writes c s s W := fun _ _ => rfl

theorem Writes.trans (w : Writes c s s' W) (w' : Writes c s' s'' W) : Writes c s s'' W :=
  fun x hx => (w' x hx).trans (w x hx)

theorem Writes.setHeap (w : Writes c s s' W) (h : Heap) : Writes c s (s'.setHeap h) W := w

theorem Writes.modify (w : Writes c s s' W) {o : Nat} (ho : W o) (f : HeapMem → HeapMem) :
    Writes c s (s'.modify c g o f) W := fun x hx => by
  rw [← w x hx]
  exact if_neg (hx o ho)

/-- The offsets of the headers of a tiling. -/
def Header (h : Heap) (B : Finset Nat) (o : Nat) : Prop := o ∈ B ∨ o = h.heapEnd

theorem join_writes {lo hi : Nat} (hlo : W lo) (hhi : W (s.heap.mem hi).next) :
    Writes c s (s.join c g lo hi) W := by
  have hnext : ∀ s₁ : MemStore, s₁.heap.mem = s.heap.mem →
      ((s₁.modify c g lo fun m => { m with next := (s₁.heap.mem hi).next }).heap.mem hi).next =
        (s.heap.mem hi).next := fun s₁ hs₁ => by
    rw [modify_heap, Heap.modify_mem, hs₁]
    split_ifs <;> rfl
  unfold join
  simp only
  split_ifs
  · have hwrite := (((Writes.refl (c := c) s W).setHeap { s.heap with lfree := lo }).modify (g := g) hlo
      fun m => { m with next := (s.heap.mem hi).next })
    exact hwrite.modify ((hnext (s.setHeap { s.heap with lfree := lo }) rfl).symm ▸ hhi) _
  · have hwrite := (Writes.refl (c := c) s W).modify (g := g) hlo fun m => { m with next := (s.heap.mem hi).next }
    exact hwrite.modify ((hnext s rfl).symm ▸ hhi) _

theorem plugForward_writes (t : Tiled c s.heap B) {m : Nat} (hm : m ∈ B) :
    Writes c s (s.plugForward c g m) (Header s.heap B) := by
  unfold plugForward
  simp only
  split_ifs with hjoin
  · have hn : (s.heap.mem m).next ∈ B := (t.next_mem m hm).resolve_right hjoin.2.2
    exact join_writes (Or.inl hm) (t.next_mem _ hn)
  · exact Writes.refl s _

theorem plugBackward_writes (t : Tiled c s.heap B) {m : Nat} (hm : m ∈ B) :
    Writes c s (s.plugBackward c g m) (Header s.heap B) := by
  unfold plugBackward
  simp only
  split_ifs with hjoin
  · have h0 : m ≠ 0 := fun e => hjoin.1 (by rw [e, t.first_prev])
    exact join_writes (Or.inl (t.prev_spec hm h0).1) (t.next_mem m hm)
  · exact Writes.refl s _

/-- The forward half of `plug_holes` leaves some of the headers. -/
theorem plugForward_tiled {h : Heap} (t : Tiled c h B) {m : Nat} (hm : m ∈ B) :
    ∃ B₁, B₁ ⊆ B ∧ m ∈ B₁ ∧ Tiled c (Mem.plugForward h m) B₁ ∧ (Mem.plugForward h m).heapEnd = h.heapEnd := by
  unfold Mem.plugForward
  simp only
  split_ifs with hjoin
  · have hn : (h.mem m).next ∈ B := (t.next_mem m hm).resolve_right hjoin.2.2
    exact ⟨_, Finset.erase_subset _ _, Finset.mem_erase.mpr ⟨hjoin.1, hm⟩, t.join hm hn rfl, join_heapEnd⟩
  · exact ⟨B, subset_rfl, hm, t, rfl⟩

/-- **`plug_holes`** writes at headers of the tiling it is called with. -/
theorem plugHoles_writes (t : Tiled c s.heap B) {m : Nat} (hm : m ∈ B) :
    Writes c s (s.plugHoles c g m) (Header s.heap B) := by
  obtain ⟨B₁, hsub, hm₁, t₁, hend⟩ := plugForward_tiled t hm
  rw [← plugForward_heap (g := g)] at t₁ hend
  refine (plugForward_writes t hm).trans fun x hx => plugBackward_writes t₁ hm₁ x fun o ho => hx o ?_
  rcases ho with ho | ho
  · exact Or.inl (hsub ho)
  · exact Or.inr (ho.trans hend)

theorem splitAt_writes {ptr size : Nat} (hp : W ptr) (hp2 : W (ptr + c.sizeofStructMem + size))
    (hn : W (s.heap.mem ptr).next) : Writes c s (s.splitAt c g ptr size) W := by
  unfold splitAt
  simp only
  split_ifs
  · exact (((Writes.refl s W).modify hp2 _).modify hp _).modify hn _
  · exact ((Writes.refl s W).modify hp2 _).modify hp _

theorem mallocTake_writes {ptr size : Nat} (hp : W ptr)
    (hsplit : size + c.sizeofStructMem + c.minSizeAligned ≤ c.sub (s.heap.mem ptr).next (ptr + c.sizeofStructMem) →
      W (ptr + c.sizeofStructMem + size) ∧ W (s.heap.mem ptr).next) :
    Writes c s (s.mallocTake c g ptr size) W := by
  unfold mallocTake
  simp only
  split_ifs with hcut
  · obtain ⟨hp2, hn⟩ := hsplit hcut
    exact (((splitAt_writes hp hp2 hn).modify hp _).setHeap _).modify hp _
  · exact (((Writes.refl s W).modify hp _).setHeap _).modify hp _

theorem freeMark_writes {m : Nat} (hm : W m) : Writes c s (s.freeMark c g m) W := by
  unfold freeMark
  simp only
  split_ifs
  · exact (((Writes.refl s W).modify hm _).setHeap _).setHeap _
  · exact ((Writes.refl s W).modify hm _).setHeap _

end Writes

end MemStore

/-! ## The data of a block -/

section Data

variable {c : MemCfg} {g : HeapMem → Nat → UInt8} {s s' : MemStore} {B : Finset Nat} {live : List Nat}

/-- `x` is a byte of data of the block at `b`. -/
structure InData (c : MemCfg) (h : Heap) (B : Finset Nat) (b x : Nat) : Prop where
  block : b ∈ B
  lower : b + c.sizeofStructMem ≤ x
  upper : x < (h.mem b).next

/-- **No header of a tiling overlaps a data area** of it. -/
theorem InData.off_headers {h : Heap} {b x : Nat} (d : InData c h B b x) (t : Tiled c h B) (o : Nat)
    (ho : MemStore.Header h B o) : ¬ (o ≤ x ∧ x < o + c.sizeofHeapMem) := by
  have hb := d.block
  have hS := c.sizeofHeapMem_le
  have hlo := d.lower
  have hup := d.upper
  have hle := t.next_le b hb
  rcases ho with ho | rfl
  · rcases lt_trichotomy o b with hlt | rfl | hlt
    · have hgap := t.gap o ho
      have hbetween := t.no_between o ho b hb hlt
      omega
    · omega
    · have hbetween := t.no_between b hb o ho hlt
      omega
  · omega

/-- `rt_free` changes no byte of data. -/
theorem rtFree_data (hi : HeapInv c s.heap B live) {p b x : Nat} (hp : p ∈ live) (d : InData c s.heap B b x) :
    (s.rtFree c g p).bytes x = s.bytes x := by
  obtain ⟨hm, -, hrange, hp0⟩ := hi.header_of_live hp
  have t := hi.tiled
  have hmB := (mem_usedBlocks.mp hm).1
  unfold MemStore.rtFree
  rw [if_neg hp0, if_neg (not_not.mpr hrange)]
  generalize s.heap.header c p = m at hmB
  have t₁ : Tiled c (s.freeMark c g m).heap B := by
    rw [MemStore.freeMark_heap]
    exact t.congr freeMark_region (fun _ => freeMark_next _) (fun _ => freeMark_prev _)
      (by rw [freeMark_used, if_neg (t.lt_end hmB).ne'])
  have d₁ : InData c (s.freeMark c g m).heap B b x := by
    rw [MemStore.freeMark_heap]
    exact ⟨d.block, d.lower, by rw [freeMark_next]; exact d.upper⟩
  rw [MemStore.plugHoles_writes t₁ hmB x (d₁.off_headers t₁)]
  exact MemStore.freeMark_writes (W := MemStore.Header s.heap B) (Or.inl hmB) x (d.off_headers t)

/-- The cut in place changes no byte of data in front of the cut. -/
theorem shrink_data (t : Tiled c s.heap B) {ptr n b x : Nat} (hp : ptr ∈ B)
    (hroom : ptr + c.sizeofStructMem + n + c.sizeofStructMem ≤ (s.heap.mem ptr).next) (d : InData c s.heap B b x)
    (hx : b = ptr → x < ptr + c.sizeofStructMem + n) : (s.shrink c g ptr n).bytes x = s.bytes x := by
  have hS := c.sizeofStructMem_pos
  unfold MemStore.shrink
  simp only
  generalize c.sub s.heap.usedMem (c.sub (c.sub (c.sub (s.heap.mem ptr).next ptr) c.sizeofStructMem) n) = u
  obtain ⟨s₀, hs₀⟩ : ∃ s₀ : MemStore, s₀ = s.setHeap { s.heap with usedMem := u } := ⟨_, rfl⟩
  rw [← hs₀]
  have hmem : s₀.heap.mem = s.heap.mem := by rw [hs₀]; rfl
  have hbytes : s₀.bytes = s.bytes := by rw [hs₀]; rfl
  have t₀ : Tiled c s₀.heap B := by
    rw [hs₀]
    exact t.congr ⟨rfl, rfl, rfl⟩ (fun _ => rfl) (fun _ => rfl) rfl
  have t₁ := t₀.splitAt hp (by rwa [hmem])
  have hnext := splitAt_next (show ptr + c.sizeofStructMem + n ≤ (s₀.heap.mem ptr).next by rw [hmem]; omega)
  have d₁ : InData c (s₀.splitAt c g ptr n).heap (insert (ptr + c.sizeofStructMem + n) B) b x := by
    refine ⟨Finset.mem_insert_of_mem d.block, d.lower, ?_⟩
    have hne : b ≠ ptr + c.sizeofStructMem + n := fun e => by
      have := t.no_between ptr hp b d.block (by omega)
      omega
    rw [MemStore.splitAt_heap, hnext, if_neg hne, hmem]
    split_ifs with hb
    · exact hx hb
    · exact d.upper
  rw [← MemStore.splitAt_heap (g := g)] at t₁
  rw [MemStore.plugHoles_writes t₁ (Finset.mem_insert_self _ _) x (d₁.off_headers t₁), ← hbytes]
  refine MemStore.splitAt_writes (Or.inl (Finset.mem_insert_of_mem hp)) (Or.inl (Finset.mem_insert_self _ _)) ?_ x
    (d₁.off_headers t₁)
  refine (t₀.next_mem ptr hp).imp (fun h => Finset.mem_insert_of_mem h) fun h => ?_
  rw [h, MemStore.splitAt_heap, splitAt_heapEnd]

/-- `rt_malloc` changes no byte of data of a used block, and none at all if it returns `RT_NULL`. -/
theorem rtMalloc_data (hi : HeapInv c s.heap B live) {fuel n q : Nat}
    (hm : MemStore.rtMalloc c g fuel s n = some (s', q)) :
    (q = 0 → s' = s) ∧
      ∀ b x, InData c s.heap B b x → (s.heap.mem b).used = true → s'.bytes x = s.bytes x := by
  have hself : ∀ {q' : Nat}, some (s, q') = some (s', q) → s' = s := fun h => (Prod.mk.inj (Option.some.inj h)).1.symm
  unfold MemStore.rtMalloc at hm
  split_ifs at hm with h0 hbig
  · exact ⟨fun _ => hself hm, fun b x _ _ => by rw [hself hm]⟩
  · exact ⟨fun _ => hself hm, fun b x _ _ => by rw [hself hm]⟩
  cases hs : mallocSearch c s.heap (blockSize c n) fuel s.heap.lfree with
  | none => simp [hs] at hm
  | some r =>
    cases r with
    | none =>
      simp only [hs] at hm
      exact ⟨fun _ => hself hm, fun b x _ _ => by rw [hself hm]⟩
    | some ptr =>
      obtain ⟨hptr, hu, hroom, -⟩ := mallocSearch_some hi.tiled hs hi.lfreeOk.mem_or
      have hS := c.sizeofStructMem_pos
      simp only [hs] at hm
      have hres : s'.bytes = (s.mallocTake c g ptr (blockSize c n)).bytes ∧
          q = s.heap.heapPtr + ptr + c.sizeofStructMem := by
        split_ifs at hm with hql
        · obtain ⟨h', -, he⟩ := Option.map_eq_some_iff.mp hm
          obtain ⟨rfl, rfl⟩ := Prod.mk.inj he
          exact ⟨rfl, rfl⟩
        · obtain ⟨rfl, rfl⟩ := Prod.mk.inj (Option.some.inj hm)
          exact ⟨rfl, rfl⟩
      refine ⟨fun h0 => by omega, fun b x d hbu => ?_⟩
      rw [hres.1]
      have hne : b ≠ ptr := fun e => by simp [e, hu] at hbu
      -- the header of the remainder lies in the block taken, the others are headers of the tiling
      refine MemStore.mallocTake_writes
        (W := fun o => MemStore.Header s.heap B o ∨
          (ptr < o ∧ o + c.sizeofStructMem ≤ (s.heap.mem ptr).next)) (Or.inl (Or.inl hptr)) (fun hcut => ?_) x ?_
      · rw [hi.tiled.sub_data hptr] at hcut
        exact ⟨Or.inr (by omega), Or.inl (hi.tiled.next_mem ptr hptr)⟩
      · rintro o (ho | ⟨hlo, hup⟩)
        · exact d.off_headers hi.tiled o ho
        · have hHM := c.sizeofHeapMem_le
          have hlower := d.lower
          have hupper := d.upper
          rcases Nat.lt_or_gt_of_ne hne with hlt | hlt
          · have hbetween := hi.tiled.no_between b d.block ptr hptr hlt
            omega
          · have hbetween := hi.tiled.no_between ptr hptr b d.block hlt
            omega

/-! ## `rt_realloc` preserves contents -/

/-- Byte `i` of the data behind `p`. -/
def MemStore.dataByte (c : MemCfg) (s : MemStore) (p i : Nat) : UInt8 :=
  s.bytes (s.heap.header c p + c.sizeofStructMem + i)

/-- The block behind `p` is as long in `s'` as in `s`, is used there, and has the same data. -/
structure SameData (c : MemCfg) (s s' : MemStore) (p : Nat) : Prop where
  used : BlockUsed c s'.heap p
  size : dataSize c s'.heap p = dataSize c s.heap p
  data : ∀ i < dataSize c s.heap p, s'.dataByte c p i = s.dataByte c p i

/-- What `rt_realloc (p, n)` returning `r` may do to the data of the blocks held. -/
structure Preserves (c : MemCfg) (live : List Nat) (s s' : MemStore) (p n r : Nat) : Prop where
  moved : r ≠ 0 → BlockUsed c s'.heap r ∧ n ≤ dataSize c s'.heap r ∧
    ∀ i < min (dataSize c s.heap p) n, s'.dataByte c r i = s.dataByte c p i
  others : r ≠ 0 → ∀ q ∈ live, q ≠ p → SameData c s s' q
  refused : r = 0 → s' = s ∧ BlockUsed c s.heap p

theorem HeapInv.inData (hi : HeapInv c s.heap B live) {p i : Nat} (hp : p ∈ live) (hilt : i < dataSize c s.heap p) :
    InData c s.heap B (s.heap.header c p) (s.heap.header c p + c.sizeofStructMem + i) := by
  obtain ⟨hb, -, -, -⟩ := hi.header_of_live hp
  unfold dataSize at hilt
  exact ⟨(mem_usedBlocks.mp hb).1, by omega, by omega⟩

theorem HeapInv.header_inj {h : Heap} (hi : HeapInv c h B live) {p q : Nat} (hp : p ∈ live) (hq : q ∈ live)
    (e : h.header c p = h.header c q) : p = q := by
  obtain ⟨-, hpeq, -, -⟩ := hi.header_of_live hp
  obtain ⟨-, hqeq, -, -⟩ := hi.header_of_live hq
  omega

/-- The cut in place preserves contents. -/
theorem HeapInv.shrink_preserves (hi : HeapInv c s.heap B live) {p n : Nat} (hp : p ∈ live) (hn : 0 < c.rtAlign n)
    (hle : n ≤ c.rtAlign n) (hcut : shrinksInPlace c s.heap p n) :
    Preserves c live s (s.shrink c g (s.heap.header c p) (c.rtAlign n)) p n p := by
  obtain ⟨hb, -, -, hp0⟩ := hi.header_of_live hp
  have hbB := (mem_usedBlocks.mp hb).1
  have hmin := c.minSize_le
  have hpos := c.minSize_pos
  have hS := c.sizeofHeapMem_le
  unfold shrinksInPlace at hcut
  simp only [hi.tiled.sub_sub_data hbB] at hcut
  have hroom : s.heap.header c p + c.sizeofStructMem + c.rtAlign n + c.sizeofStructMem
      ≤ (s.heap.mem (s.heap.header c p)).next := by omega
  have hlt : s.heap.header c p + c.sizeofStructMem + c.rtAlign n < (s.heap.mem (s.heap.header c p)).next := by omega
  obtain ⟨-, -, hreg, -⟩ := shrink_spec hi hb hn hroom
  have hheader : ∀ q, (s.shrink c g (s.heap.header c p) (c.rtAlign n)).heap.header c q = s.heap.header c q := by
    intro q
    rw [MemStore.shrink_heap, hreg.header]
  refine ⟨fun _ => ⟨?_, ?_, fun i hilt => ?_⟩, fun _ q hq hqp => ⟨?_, ?_, fun i hilt => ?_⟩, fun h0 => absurd h0 hp0⟩
  · rw [BlockUsed, hheader, MemStore.shrink_heap]
    exact (shrink_keeps hi.tiled hb hn hlt hb).1
  · rw [dataSize, hheader, MemStore.shrink_heap, (shrink_keeps hi.tiled hb hn hlt hb).2, if_pos rfl]
    omega
  · rw [MemStore.dataByte, hheader]
    exact shrink_data hi.tiled hbB hroom (hi.inData hp (by omega)) fun _ => by omega
  all_goals
    have hqb := (hi.header_of_live hq).1
    have hne : s.heap.header c q ≠ s.heap.header c p := fun e => hqp (hi.header_inj hq hp e)
  · rw [BlockUsed, hheader, MemStore.shrink_heap]
    exact (shrink_keeps hi.tiled hb hn hlt hqb).1
  · rw [dataSize, hheader, MemStore.shrink_heap, (shrink_keeps hi.tiled hb hn hlt hqb).2, if_neg hne, dataSize]
  · rw [MemStore.dataByte, hheader]
    exact shrink_data hi.tiled hbB hroom (hi.inData hq hilt) fun e => absurd e hne

/-- Allocating, copying and freeing preserves contents. -/
theorem HeapInv.move_preserves (hi : HeapInv c s.heap B live) {fuel p n q k : Nat} {s₁ : MemStore} (hp : p ∈ live)
    (hle : n ≤ c.rtAlign n) (hmal : MemStore.rtMalloc c g fuel s (c.rtAlign n) = some (s₁, q)) (hq : q ≠ 0)
    (hmin : min (dataSize c s.heap p) n ≤ k) (hk : k ≤ c.rtAlign n) :
    Preserves c live s ((s₁.memcpy (q - s₁.heap.heapPtr) (p - s₁.heap.heapPtr) k).rtFree c g p) p n q := by
  have hmem : Mem.rtMalloc c fuel s.heap (c.rtAlign n) = some (s₁.heap, q) := by
    rw [← MemStore.rtMalloc_heap (g := g), hmal]
    rfl
  obtain ⟨B₁, hi₁, hreg₁, -, -⟩ := (rtMalloc_spec hi hmem).resolve_left fun h => hq h.1
  have hpl₁ : p ∈ q :: live := List.mem_cons_of_mem q hp
  have hql₁ : q ∈ q :: live := List.mem_cons_self
  have hqlive : q ∉ live := (List.nodup_cons.mp hi₁.nodup).1
  have hroom := (rtMalloc_room hi hmem hq).1
  have hblock := le_blockSize (c := c) (c.rtAlign n)
  have hagain := le_rtAlign (rtAlign_le_maxRequest (c := c) n)
  obtain ⟨-, hqeq, -, -⟩ := hi₁.header_of_live hql₁
  obtain ⟨-, hpeq, -, -⟩ := hi₁.header_of_live hpl₁
  -- what the whole call leaves of a block other than that of `p`
  obtain ⟨B₂, -, hreg₂, -⟩ := rtFree_spec hi₁ hpl₁
  have hheap : ((s₁.memcpy (q - s₁.heap.heapPtr) (p - s₁.heap.heapPtr) k).rtFree c g p).heap = rtFree c s₁.heap p := by
    rw [MemStore.rtFree_heap, MemStore.memcpy_heap]
  have hheader : ∀ q', ((s₁.memcpy (q - s₁.heap.heapPtr) (p - s₁.heap.heapPtr) k).rtFree c g p).heap.header c q' =
      s₁.heap.header c q' := fun q' => by rw [hheap, hreg₂.header]
  have hkeep : ∀ q' ∈ q :: live, q' ≠ p → ((rtFree c s₁.heap p).mem (s₁.heap.header c q')).used = true ∧
      ((rtFree c s₁.heap p).mem (s₁.heap.header c q')).next = (s₁.heap.mem (s₁.heap.header c q')).next :=
    fun q' hq' hne => (rtFree_keeps hi₁ hpl₁).2 _ (fun e => hne (hi₁.header_inj hq' hpl₁ e))
      (mem_usedBlocks.mp (hi₁.header_of_live hq').1).2
  have hfree : ∀ q' ∈ q :: live, ∀ i < dataSize c s₁.heap q',
      ((s₁.memcpy (q - s₁.heap.heapPtr) (p - s₁.heap.heapPtr) k).rtFree c g p).dataByte c q' i =
        (s₁.memcpy (q - s₁.heap.heapPtr) (p - s₁.heap.heapPtr) k).bytes (s₁.heap.header c q' + c.sizeofStructMem + i) := by
    intro q' hq' i hilt
    rw [MemStore.dataByte, hheader]
    exact rtFree_data (s := s₁.memcpy (q - s₁.heap.heapPtr) (p - s₁.heap.heapPtr) k) hi₁ hpl₁ (hi₁.inData hq' hilt)
  -- what `rt_malloc` has left
  have hold : ∀ q' ∈ live, dataSize c s₁.heap q' = dataSize c s.heap q' ∧ s₁.heap.header c q' = s.heap.header c q' ∧
      ∀ i < dataSize c s.heap q', s₁.bytes (s.heap.header c q' + c.sizeofStructMem + i) = s.dataByte c q' i := by
    intro q' hq'
    have hb := (hi.header_of_live hq').1
    refine ⟨?_, hreg₁.header q', fun i hilt => ?_⟩
    · rw [dataSize, hreg₁.header, (rtMalloc_keeps hi hmem hb).2, dataSize]
    · exact (rtMalloc_data hi hmal).2 _ _ (hi.inData hq' hilt) (mem_usedBlocks.mp hb).2
  have hqp : q ≠ p := fun e => hqlive (e ▸ hp)
  refine ⟨fun _ => ⟨?_, ?_, fun i hilt => ?_⟩, fun _ q' hq' hne => ⟨?_, ?_, fun i hilt => ?_⟩, fun h0 => absurd h0 hq⟩
  · rw [BlockUsed, hheader, hheap]
    exact (hkeep q hql₁ hqp).1
  · rw [dataSize, hheader, hheap, (hkeep q hql₁ hqp).2]
    unfold dataSize at hroom
    omega
  · rw [hfree q hql₁ i (by omega)]
    have hin : q - s₁.heap.heapPtr ≤ s₁.heap.header c q + c.sizeofStructMem + i ∧
        s₁.heap.header c q + c.sizeofStructMem + i < q - s₁.heap.heapPtr + k := by omega
    have hsrc : p - s₁.heap.heapPtr + (s₁.heap.header c q + c.sizeofStructMem + i - (q - s₁.heap.heapPtr)) =
        s.heap.header c p + c.sizeofStructMem + i := by
      rw [← (hold p hp).2.1]
      omega
    rw [MemStore.memcpy]
    simp only
    rw [if_pos hin, hsrc]
    exact (hold p hp).2.2 i (by omega)
  · rw [BlockUsed, hheader, hheap]
    exact (hkeep q' (List.mem_cons_of_mem q hq') hne).1
  · rw [dataSize, hheader, hheap, (hkeep q' (List.mem_cons_of_mem q hq') hne).2]
    exact (hold q' hq').1
  · obtain ⟨hsize, hhead, hbytes⟩ := hold q' hq'
    rw [hfree q' (List.mem_cons_of_mem q hq') i (by omega)]
    -- the data copied go to another block
    have d := hi₁.inData (List.mem_cons_of_mem q hq') (by omega : i < dataSize c s₁.heap q')
    have hout : ¬ (q - s₁.heap.heapPtr ≤ s₁.heap.header c q' + c.sizeofStructMem + i ∧
        s₁.heap.header c q' + c.sizeofStructMem + i < q - s₁.heap.heapPtr + k) := by
      rintro ⟨hlo, hup⟩
      have d' := hi₁.inData hql₁ (by omega :
        s₁.heap.header c q' + c.sizeofStructMem + i - (q - s₁.heap.heapPtr) < dataSize c s₁.heap q)
      have hne' : s₁.heap.header c q' ≠ s₁.heap.header c q := fun e =>
        hqlive (hi₁.header_inj (List.mem_cons_of_mem q hq') hql₁ e ▸ hq')
      have hdisj := hi₁.tiled.disjoint_blocks d.block d'.block hne'
      have hlow := d.lower
      have hupp := d.upper
      have hlow' := d'.lower
      have hupp' := d'.upper
      omega
    rw [MemStore.memcpy]
    simp only
    rw [if_neg hout, hhead]
    exact hbytes i hilt

/-- **`rt_realloc` preserves contents**, for any heap with the invariant. -/
theorem HeapInv.realloc_preserves (hi : HeapInv c s.heap B live) {fuel p n r : Nat} (hp : p ∈ live) (hn : 1 ≤ n)
    (hmax : n ≤ s.heap.memSizeAligned) (hr : MemStore.rtRealloc c g fuel s p n = some (s', r)) :
    Preserves c live s s' p n r := by
  have hself : ∀ {r'}, some (s, r') = some (s', r) → s' = s ∧ r = r' := fun h => by
    obtain ⟨h1, h2⟩ := Prod.mk.inj (Option.some.inj h)
    exact ⟨h1.symm, h2.symm⟩
  obtain ⟨hb, hpeq, hrange, hp0⟩ := hi.header_of_live hp
  obtain ⟨hbB, hbu⟩ := mem_usedBlocks.mp hb
  have hle := le_rtAlign (c := c) (n := n) (by have := hi.tiled.memSizeAligned_lt; omega)
  have hsame : ∀ q ∈ live, SameData c s s q := fun q hq =>
    ⟨(mem_usedBlocks.mp (hi.header_of_live hq).1).2, rfl, fun _ _ => rfl⟩
  unfold MemStore.rtRealloc at hr
  simp only [hi.tiled.sub_sub_data hbB] at hr
  -- as much is copied as the smaller of the two sizes
  generalize hk : (if (s.heap.mem (s.heap.header c p)).next - (s.heap.header c p + c.sizeofStructMem) < c.rtAlign n then
    (s.heap.mem (s.heap.header c p)).next - (s.heap.header c p + c.sizeofStructMem) else c.rtAlign n) = k at hr
  have hkmin : min (dataSize c s.heap p) n ≤ k ∧ k ≤ c.rtAlign n := by
    rw [← hk]
    unfold dataSize
    split_ifs <;> omega
  split_ifs at hr with hbig hzero hsize hcut
  · obtain ⟨rfl, rfl⟩ := hself hr
    exact ⟨fun h0 => absurd rfl h0, fun h0 => absurd rfl h0, fun _ => ⟨rfl, hbu⟩⟩
  · omega
  · obtain ⟨rfl, rfl⟩ := hself hr
    exact ⟨fun _ => ⟨hbu, by unfold dataSize; omega, fun _ _ => rfl⟩, fun _ q hq _ => hsame q hq, fun h0 => absurd h0 hp0⟩
  · obtain ⟨rfl, rfl⟩ := Prod.mk.inj (Option.some.inj hr)
    exact hi.shrink_preserves hp (Nat.pos_of_ne_zero hzero) hle hcut
  · cases hmal : MemStore.rtMalloc c g fuel s (c.rtAlign n) with
    | none => simp [hmal] at hr
    | some x =>
      obtain ⟨s₁, q⟩ := x
      simp only [hmal] at hr
      by_cases hq : q = 0
      · obtain ⟨rfl, rfl⟩ : s' = s₁ ∧ r = 0 := by simpa [hq, eq_comm] using hr
        exact ⟨fun h0 => absurd rfl h0, fun h0 => absurd rfl h0, fun _ => ⟨(rtMalloc_data hi hmal).1 hq, hbu⟩⟩
      · rw [if_neg hq] at hr
        obtain ⟨rfl, rfl⟩ := Prod.mk.inj (Option.some.inj hr)
        exact hi.move_preserves hp hle hmal hq hkmin.1 hkmin.2

end Data

/-! ## `rt_realloc` after any run -/

section Runs

variable {c : MemCfg} {g : HeapMem → Nat → UInt8} {s : Sys} {B : Finset Nat} {live : List Nat}

/-- `rt_malloc` returns a pointer only in a region that holds `MIN_SIZE_ALIGNED` bytes. -/
theorem minSizeAligned_le_of_malloc {h h' : Heap} (hi : HeapInv c h B live) {fuel n p : Nat}
    (hm : rtMalloc c fuel h n = some (h', p)) (hp : p ≠ 0) : c.minSizeAligned ≤ h.memSizeAligned := by
  have hroom := rtMalloc_room hi hm hp
  have hsize := blockSize_eq (c := c) n
  omega

/-- A block is held only in such a region. -/
theorem minSizeAligned_le_of_live {m₀ : Nat → HeapMem} {b e : Nat} {h₀ : Heap} {ls : List Call}
    (hinit : rtSystemHeapInit c m₀ b e = some h₀) (hr : Run (Step c) ⟨h₀, []⟩ ls s) (hl : s.live ≠ []) :
    c.minSizeAligned ≤ s.heap.memSizeAligned := by
  have hrun := hr.invariant
    (I := fun s => (∃ B, HeapInv c s.heap B s.live) ∧ (s.live ≠ [] → c.minSizeAligned ≤ s.heap.memSizeAligned))
    ⟨⟨_, (heapInv_init hinit).1⟩, fun h0 => absurd rfl h0⟩ ?_
  · exact hrun.2 hl
  rintro s l s' ⟨⟨B, hi⟩, hle⟩ hs
  obtain ⟨B', hi', hreg, -⟩ := step_inv hi hs
  refine ⟨⟨B', hi'⟩, fun hl' => ?_⟩
  rw [hreg.memSizeAligned]
  by_cases hl : s.live = []
  · -- the first pointer comes from `rt_malloc`
    obtain ⟨fuel, hs⟩ := hs
    cases l with
    | malloc size =>
      obtain ⟨⟨h', p⟩, hm, rfl⟩ := Option.map_eq_some_iff.mp hs
      by_cases hp : p = 0
      · exact absurd (by simp [hp, hl]) hl'
      · exact minSizeAligned_le_of_malloc hi hm hp
    | realloc rmem n =>
      simp only [exec, hl, List.not_mem_nil, false_or] at hs
      split_ifs at hs with h0
      obtain ⟨⟨h', p⟩, hm, rfl⟩ := Option.map_eq_some_iff.mp hs
      simp only [heldAfterRealloc, List.erase_nil] at hl'
      split_ifs at hl' with hzero hp
      · exact absurd rfl hl'
      · exact absurd rfl hl'
      · have hbig : ¬ s.heap.memSizeAligned < c.rtAlign n := fun hbig => by
          rw [rtRealloc, if_pos hbig] at hm
          exact hp (Prod.mk.inj (Option.some.inj hm)).2.symm
        simp only [rtRealloc, if_neg hbig, if_neg hzero, if_pos h0] at hm
        exact minSizeAligned_le_of_malloc hi hm hp
    | free rmem =>
      simp only [exec] at hs
      split_ifs at hs
      obtain rfl := Option.some.inj hs
      exact absurd (by simp [hl]) hl'
    | write o v =>
      simp only [exec, hl, List.any_nil] at hs
      simp at hs
  · exact hle hl

/-- `rt_realloc` of a pointer held returns. -/
theorem HeapInv.realloc_returns {t : MemStore} (hi : HeapInv c t.heap B live) {p : Nat} (hp : p ∈ live) (n : Nat)
    (hmin : c.minSizeAligned ≤ t.heap.memSizeAligned) : ∃ fuel, (t.rtRealloc c g fuel p n).isSome := by
  obtain ⟨fuel, r, hm⟩ : ∃ fuel r, rtMalloc c fuel t.heap (c.rtAlign n) = some r := by
    by_cases hzero : c.rtAlign n = 0
    · exact ⟨0, (t.heap, 0), by rw [rtMalloc, if_pos hzero]⟩
    · exact (returns_iff hi hzero).mpr (Or.inr hmin)
  refine ⟨fuel, ?_⟩
  have hheap := MemStore.rtRealloc_heap (c := c) (g := g) (s := t) fuel p n
  rw [← Option.isSome_map (f := fun r : MemStore × Nat => (r.1.heap, r.2)), hheap]
  unfold rtRealloc
  simp only [hm]
  split_ifs <;> rfl

/-- **`rt_realloc` preserves contents.** After every run, for every block held and every new size from 1 to
`mem_size_aligned`, and whatever the bytes of the region are: the call returns; with a pointer, its first bytes are those
of the old block, as many as both hold, and the other blocks held keep their data; with `RT_NULL`, nothing has changed. -/
theorem realloc_contents (c : MemCfg) (g : HeapMem → Nat → UInt8) (m₀ : Nat → HeapMem) (beginAddr endAddr : Nat)
    (h₀ : Heap) (ls : List Call) (s : Sys) (hinit : rtSystemHeapInit c m₀ beginAddr endAddr = some h₀)
    (hrun : Run (Step c) ⟨h₀, []⟩ ls s) (bytes : Nat → UInt8) (p n : Nat) (hp : p ∈ s.live) (hn : 1 ≤ n)
    (hmax : n ≤ s.heap.memSizeAligned) :
    (∃ fuel, (MemStore.rtRealloc c g fuel ⟨s.heap, bytes⟩ p n).isSome) ∧
      ∀ fuel t r, MemStore.rtRealloc c g fuel ⟨s.heap, bytes⟩ p n = some (t, r) →
        Preserves c s.live ⟨s.heap, bytes⟩ t p n r := by
  obtain ⟨B, hi⟩ := run_inv hinit hrun
  refine ⟨HeapInv.realloc_returns (t := ⟨s.heap, bytes⟩) hi hp n ?_, fun fuel t r hr => ?_⟩
  · exact minSizeAligned_le_of_live hinit hrun (List.ne_nil_of_mem hp)
  · exact HeapInv.realloc_preserves (s := ⟨s.heap, bytes⟩) hi hp hn hmax hr

/-- The block of 100 bytes at 4108, with another one behind it, moves when it grows to 200 bytes. -/
theorem realloc_contents_run : ∃ h₀ s t r, region512 = some h₀ ∧
    execAll cfg32 8 ⟨h₀, []⟩ [.malloc 100, .malloc 20] = some s ∧
    MemStore.rtRealloc cfg32 (fun _ _ => 0) 8 ⟨s.heap, UInt8.ofNat⟩ 4108 200 = some (t, r) ∧ r = 4252 ∧
    Preserves cfg32 s.live ⟨s.heap, UInt8.ofNat⟩ t 4108 200 r := by
  obtain ⟨h₀, hinit⟩ : ∃ h₀, region512 = some h₀ := ⟨_, rfl⟩
  obtain ⟨s, hs⟩ : ∃ s, execAll cfg32 8 ⟨h₀, []⟩ [.malloc 100, .malloc 20] = some s := by
    obtain rfl := Option.some.inj hinit
    exact ⟨_, rfl⟩
  have hstate : s.live = [4220, 4108] ∧ s.heap.memSizeAligned = 488 := by
    obtain rfl := Option.some.inj hinit
    obtain rfl := Option.some.inj hs
    decide +kernel
  obtain ⟨t, hr⟩ : ∃ t, MemStore.rtRealloc cfg32 (fun _ _ => 0) 8 ⟨s.heap, UInt8.ofNat⟩ 4108 200 = some (t, 4252) := by
    have hret : (MemStore.rtRealloc cfg32 (fun _ _ => 0) 8 ⟨s.heap, UInt8.ofNat⟩ 4108 200).map Prod.snd = some 4252 := by
      obtain rfl := Option.some.inj hinit
      obtain rfl := Option.some.inj hs
      decide +kernel
    obtain ⟨⟨t, r⟩, hr, rfl⟩ := Option.map_eq_some_iff.mp hret
    exact ⟨t, hr⟩
  refine ⟨h₀, s, t, 4252, hinit, hs, hr, rfl, ?_⟩
  exact (realloc_contents cfg32 (fun _ _ => 0) (fun _ => ⟨0, false, 0, 0⟩) 4096 4608 h₀ [.malloc 100, .malloc 20] s hinit
    (run_of_execAll 8 hs) UInt8.ofNat 4108 200 (by simp [hstate.1]) (by omega) (by omega)).2 8 t 4252 hr

end Runs

end CoreLink.RtThread.Mem
