/-
# `CoreLink.RtThread.MemTiling` — the block structure of the small-memory heap and its edits.

`Tiled c h B` says that the headers of `h` at the offsets in the finite set `B`, together with `heap_end`,
tile the heap: following `next` goes from one block to the next higher one, `prev` goes back. The statement
is pointwise in the blocks, so an edit is proved by looking at the one or two headers it changes. Two edits
make every operation of `mem.c`: `splitAt` (a block in two) and `join` (two neighbours in one). The used
blocks and their lengths, on which `used_mem` and the live pointers depend, are kept apart in `usedBlocks`.
-/
import CoreLink.RtThread.Mem
import Mathlib.Algebra.Order.BigOperators.Group.Finset
import Mathlib.Data.Finset.Max
import Mathlib.Order.Interval.Finset.Nat

namespace CoreLink.RtThread.Mem

open CoreLink.Lib

variable {c : MemCfg} {h : Heap} {B : Finset Nat}

/-- The headers at the offsets `B`, and `heap_end` above them, tile the heap. -/
structure Tiled (c : MemCfg) (h : Heap) (B : Finset Nat) : Prop where
  zero_mem : 0 ∈ B
  gap : ∀ b ∈ B, b + c.sizeofStructMem ≤ (h.mem b).next
  next_mem : ∀ b ∈ B, (h.mem b).next ∈ B ∨ (h.mem b).next = h.heapEnd
  next_le : ∀ b ∈ B, (h.mem b).next ≤ h.heapEnd
  no_between : ∀ b ∈ B, ∀ y ∈ B, b < y → (h.mem b).next ≤ y
  prev : ∀ b ∈ B, (h.mem b).next ≠ h.heapEnd → (h.mem (h.mem b).next).prev = b
  first_prev : (h.mem 0).prev = 0
  end_used : (h.mem h.heapEnd).used = true
  end_next : (h.mem h.heapEnd).next = h.heapEnd
  end_eq : h.heapEnd = h.memSizeAligned + c.sizeofStructMem
  fits : h.heapEnd + c.sizeofStructMem < 2 ^ c.wordBits

/-- The offsets of the used blocks. -/
def usedBlocks (h : Heap) (B : Finset Nat) : Finset Nat := B.filter fun b => (h.mem b).used = true

theorem mem_usedBlocks {b : Nat} : b ∈ usedBlocks h B ↔ b ∈ B ∧ (h.mem b).used = true := by
  simp [usedBlocks]

/-- The bytes from each used block to the block after it. -/
def usedSum (h : Heap) (B : Finset Nat) : Nat := ∑ b ∈ usedBlocks h B, ((h.mem b).next - b)

/-- No two neighbouring blocks are both unused. -/
def Coalesced (h : Heap) (B : Finset Nat) : Prop :=
  ∀ b ∈ B, (h.mem b).next ≠ h.heapEnd → (h.mem b).used = true ∨ (h.mem (h.mem b).next).used = true

/-- `lfree` points at an unused block, or at `heap_end`. -/
def LfreeOk (h : Heap) (B : Finset Nat) : Prop :=
  h.lfree ∈ B ∧ (h.mem h.lfree).used = false ∨ h.lfree = h.heapEnd

/-- No unused block lies below `lfree`. -/
def LfreeLowest (h : Heap) (B : Finset Nat) : Prop :=
  ∀ b ∈ B, b < h.lfree → (h.mem b).used = true

namespace Tiled

/-! ## Consequences of the tiling -/

theorem lt_next (t : Tiled c h B) {b : Nat} (hb : b ∈ B) : b < (h.mem b).next := by
  have hg := t.gap b hb
  have hS := c.sizeofStructMem_pos
  omega

theorem lt_end (t : Tiled c h B) {b : Nat} (hb : b ∈ B) : b < h.heapEnd :=
  lt_of_lt_of_le (t.lt_next hb) (t.next_le b hb)

/-- `next` is injective below `heap_end`: `prev` undoes it. -/
theorem next_inj (t : Tiled c h B) {x y : Nat} (hx : x ∈ B) (hy : y ∈ B)
    (hxy : (h.mem x).next = (h.mem y).next) (hne : (h.mem x).next ≠ h.heapEnd) : x = y := by
  have h1 := t.prev x hx hne
  have h2 := t.prev y hy (hxy ▸ hne)
  rw [hxy] at h1
  exact h1.symm.trans h2

/-- A block other than the first is the `next` of the block its `prev` names. -/
theorem exists_pred (t : Tiled c h B) {y : Nat} (hy : y ∈ B) (h0 : y ≠ 0) :
    ∃ x ∈ B, (h.mem x).next = y := by
  have hne : (B.filter (· < y)).Nonempty :=
    ⟨0, Finset.mem_filter.mpr ⟨t.zero_mem, Nat.pos_of_ne_zero h0⟩⟩
  obtain ⟨hxB, hxy⟩ := Finset.mem_filter.mp (Finset.max'_mem _ hne)
  refine ⟨_, hxB, ?_⟩
  have hle := t.no_between _ hxB y hy hxy
  rcases t.next_mem _ hxB with hm | he
  · by_contra hcon
    have hmax := Finset.le_max' (B.filter (· < y)) _
      (Finset.mem_filter.mpr ⟨hm, lt_of_le_of_ne hle hcon⟩)
    exact absurd (t.lt_next hxB) (not_lt.mpr hmax)
  · have := t.lt_end hy
    omega

/-- For a block other than the first, `prev` is a block and `next` of it leads back. -/
theorem prev_spec (t : Tiled c h B) {y : Nat} (hy : y ∈ B) (h0 : y ≠ 0) :
    (h.mem y).prev ∈ B ∧ (h.mem (h.mem y).prev).next = y := by
  obtain ⟨x, hx, hxy⟩ := t.exists_pred hy h0
  have hp := t.prev x hx (by rw [hxy]; exact (t.lt_end hy).ne)
  rw [hxy] at hp
  rw [hp]
  exact ⟨hx, hxy⟩

/-- **The tiling.** Every offset below `heap_end` lies in exactly one block. -/
theorem exists_block (t : Tiled c h B) {a : Nat} (ha : a < h.heapEnd) :
    ∃! b, b ∈ B ∧ b ≤ a ∧ a < (h.mem b).next := by
  have hne : (B.filter (· ≤ a)).Nonempty :=
    ⟨0, Finset.mem_filter.mpr ⟨t.zero_mem, Nat.zero_le a⟩⟩
  obtain ⟨hbB, hba⟩ := Finset.mem_filter.mp (Finset.max'_mem _ hne)
  refine ⟨_, ⟨hbB, hba, ?_⟩, ?_⟩
  · rcases t.next_mem _ hbB with hm | he
    · by_contra hcon
      have hmax := Finset.le_max' (B.filter (· ≤ a)) _ (Finset.mem_filter.mpr ⟨hm, not_lt.mp hcon⟩)
      exact absurd (t.lt_next hbB) (not_lt.mpr hmax)
    · omega
  · rintro y ⟨hyB, hya, hay⟩
    have hyx := Finset.le_max' (B.filter (· ≤ a)) y (Finset.mem_filter.mpr ⟨hyB, hya⟩)
    by_contra hcon
    have := t.no_between y hyB _ hbB (lt_of_le_of_ne hyx hcon)
    omega

/-- Two different blocks do not overlap. -/
theorem disjoint_blocks (t : Tiled c h B) {x y : Nat} (hx : x ∈ B) (hy : y ∈ B) (hxy : x ≠ y) :
    (h.mem x).next ≤ y ∨ (h.mem y).next ≤ x := by
  rcases Nat.lt_or_gt_of_ne hxy with hlt | hlt
  · exact Or.inl (t.no_between x hx y hy hlt)
  · exact Or.inr (t.no_between y hy x hx hlt)

/-- The used bytes fit below `heap_end`. -/
theorem usedSum_le (t : Tiled c h B) : usedSum h B ≤ h.heapEnd := by
  have hdisj : ∀ x ∈ usedBlocks h B, ∀ y ∈ usedBlocks h B, x ≠ y →
      Disjoint (Finset.Ico x (h.mem x).next) (Finset.Ico y (h.mem y).next) := by
    intro x hx y hy hxy
    rw [Finset.disjoint_left]
    intro a hax hay
    simp only [Finset.mem_Ico] at hax hay
    have := t.disjoint_blocks (mem_usedBlocks.mp hx).1 (mem_usedBlocks.mp hy).1 hxy
    omega
  calc usedSum h B = ((usedBlocks h B).biUnion fun b => Finset.Ico b (h.mem b).next).card := by
        rw [Finset.card_biUnion hdisj]
        simp [usedSum]
    _ ≤ (Finset.range h.heapEnd).card := by
        apply Finset.card_le_card
        intro a ha
        simp only [Finset.mem_biUnion, Finset.mem_Ico] at ha
        obtain ⟨b, hb, hba⟩ := ha
        have := t.next_le b (mem_usedBlocks.mp hb).1
        exact Finset.mem_range.mpr (by omega)
    _ = h.heapEnd := Finset.card_range _

theorem end_lt (t : Tiled c h B) : h.heapEnd < 2 ^ c.wordBits := by
  have := t.fits
  omega

/-- The data size of a block, as the code computes it. -/
theorem sub_data (t : Tiled c h B) {b : Nat} (hb : b ∈ B) :
    c.sub (h.mem b).next (b + c.sizeofStructMem) = (h.mem b).next - (b + c.sizeofStructMem) :=
  c.sub_of_le (t.gap b hb) (lt_of_le_of_lt (t.next_le b hb) t.end_lt)

/-- The length of a block, header included, as the code computes it. -/
theorem sub_length (t : Tiled c h B) {b : Nat} (hb : b ∈ B) :
    c.sub (h.mem b).next b = (h.mem b).next - b :=
  c.sub_of_le (t.lt_next hb).le (lt_of_le_of_lt (t.next_le b hb) t.end_lt)

/-- The data size as `rt_realloc` computes it. -/
theorem sub_sub_data (t : Tiled c h B) {b : Nat} (hb : b ∈ B) :
    c.sub (c.sub (h.mem b).next b) c.sizeofStructMem
      = (h.mem b).next - (b + c.sizeofStructMem) := by
  have hg := t.gap b hb
  have hle := t.next_le b hb
  have hlt := t.end_lt
  rw [t.sub_length hb, c.sub_of_le (by omega) (by omega)]
  omega

end Tiled

/-! ## The two edits -/

theorem join_next {lo hi : Nat} (hne : lo ≠ hi) (x : Nat) :
    ((join h lo hi).mem x).next = if x = lo then (h.mem hi).next else (h.mem x).next := by
  grind [join, Heap.modify_mem]

theorem join_used {lo hi : Nat} (x : Nat) : ((join h lo hi).mem x).used = (h.mem x).used := by
  unfold join
  split_ifs <;> simp only [Heap.modify_mem] <;> split_ifs <;> simp_all

theorem join_prev {lo hi : Nat} (hne : lo ≠ hi) (x : Nat) :
    ((join h lo hi).mem x).prev = if x = (h.mem hi).next then lo else (h.mem x).prev := by
  grind [join, Heap.modify_mem]

theorem join_lfree {lo hi : Nat} :
    (join h lo hi).lfree = if h.lfree = hi then lo else h.lfree := by
  unfold join; split_ifs <;> rfl

@[simp] theorem join_heapEnd {lo hi : Nat} : (join h lo hi).heapEnd = h.heapEnd := by
  unfold join; split_ifs <;> rfl
@[simp] theorem join_heapPtr {lo hi : Nat} : (join h lo hi).heapPtr = h.heapPtr := by
  unfold join; split_ifs <;> rfl
@[simp] theorem join_usedMem {lo hi : Nat} : (join h lo hi).usedMem = h.usedMem := by
  unfold join; split_ifs <;> rfl
@[simp] theorem join_memSizeAligned {lo hi : Nat} :
    (join h lo hi).memSizeAligned = h.memSizeAligned := by
  unfold join; split_ifs <;> rfl

/-- **Joining two neighbours** keeps the tiling and removes the upper block's header from it. -/
theorem Tiled.join (t : Tiled c h B) {lo hi : Nat} (hlo : lo ∈ B) (hhi : hi ∈ B)
    (hnext : (h.mem lo).next = hi) : Tiled c (join h lo hi) (B.erase hi) := by
  have hne : lo ≠ hi := (hnext ▸ t.lt_next hlo).ne
  have hlohi : lo < hi := hnext ▸ t.lt_next hlo
  have hhinext := t.lt_next hhi
  -- no other block's `next` is `hi`, or the block after `hi`
  have hpred : ∀ x ∈ B, (h.mem x).next = hi → x = lo := fun x hx hxn =>
    t.next_inj hx hlo (hxn.trans hnext.symm) (hxn ▸ (t.lt_end hhi).ne)
  have hself : ∀ x ∈ B, (h.mem x).next = (h.mem hi).next → (h.mem hi).next ≠ h.heapEnd → x = hi :=
    fun x hx hxn he => t.next_inj hx hhi hxn (hxn ▸ he)
  constructor
  · exact Finset.mem_erase.mpr ⟨by omega, t.zero_mem⟩
  · intro b hb
    obtain ⟨hbhi, hbB⟩ := Finset.mem_erase.mp hb
    rw [join_next hne]
    have h1 := t.gap b hbB
    split_ifs with hbl
    · subst hbl; omega
    · exact h1
  · intro b hb
    obtain ⟨hbhi, hbB⟩ := Finset.mem_erase.mp hb
    rw [join_next hne, join_heapEnd]
    split_ifs with hbl
    · rcases t.next_mem hi hhi with hm | he
      · exact Or.inl (Finset.mem_erase.mpr ⟨by omega, hm⟩)
      · exact Or.inr he
    · rcases t.next_mem b hbB with hm | he
      · exact Or.inl (Finset.mem_erase.mpr ⟨fun e => hbl (hpred b hbB e), hm⟩)
      · exact Or.inr he
  · intro b hb
    rw [join_next hne, join_heapEnd]
    split_ifs
    · exact t.next_le hi hhi
    · exact t.next_le b (Finset.mem_of_mem_erase hb)
  · intro b hb y hy hby
    obtain ⟨hbhi, hbB⟩ := Finset.mem_erase.mp hb
    obtain ⟨hyhi, hyB⟩ := Finset.mem_erase.mp hy
    rw [join_next hne]
    have h1 := t.no_between b hbB y hyB hby
    split_ifs with hbl
    · subst hbl
      exact t.no_between hi hhi y hyB (by omega)
    · exact h1
  · intro b hb
    obtain ⟨hbhi, hbB⟩ := Finset.mem_erase.mp hb
    rw [join_next hne, join_heapEnd]
    split_ifs with hbl
    · intro _
      rw [join_prev hne, if_pos rfl, hbl]
    · intro he
      have hbn : (h.mem b).next ≠ (h.mem hi).next := fun e => hbhi (hself b hbB e (e ▸ he))
      rw [join_prev hne, if_neg hbn]
      exact t.prev b hbB he
  · rw [join_prev hne, if_neg (by omega)]
    exact t.first_prev
  · rw [join_heapEnd, join_used]
    exact t.end_used
  · have := t.lt_end hlo
    rw [join_heapEnd, join_next hne, if_neg (by omega)]
    exact t.end_next
  · rw [join_heapEnd, join_memSizeAligned]
    exact t.end_eq
  · rw [join_heapEnd]
    exact t.fits

section Split

variable {ptr size : Nat}

theorem splitAt_next (hgap : ptr + c.sizeofStructMem + size ≤ (h.mem ptr).next) (x : Nat) :
    ((splitAt c h ptr size).mem x).next =
      if x = ptr then ptr + c.sizeofStructMem + size
      else if x = ptr + c.sizeofStructMem + size then (h.mem ptr).next else (h.mem x).next := by
  have hS := c.sizeofStructMem_pos
  have hne : ptr ≠ ptr + c.sizeofStructMem + size := by omega
  grind [splitAt, Heap.modify_mem, Heap.modify_memSizeAligned]

theorem splitAt_used (x : Nat) :
    ((splitAt c h ptr size).mem x).used =
      if x = ptr + c.sizeofStructMem + size then false else (h.mem x).used := by
  have hS := c.sizeofStructMem_pos
  have hne : ptr ≠ ptr + c.sizeofStructMem + size := by omega
  grind [splitAt, Heap.modify_mem, Heap.modify_memSizeAligned]

theorem splitAt_prev (x : Nat) :
    ((splitAt c h ptr size).mem x).prev =
      if x = (h.mem ptr).next ∧ (h.mem ptr).next ≠ h.memSizeAligned + c.sizeofStructMem then
        ptr + c.sizeofStructMem + size
      else if x = ptr + c.sizeofStructMem + size then ptr else (h.mem x).prev := by
  have hS := c.sizeofStructMem_pos
  have hne : ptr ≠ ptr + c.sizeofStructMem + size := by omega
  grind [splitAt, Heap.modify_mem, Heap.modify_memSizeAligned]

@[simp] theorem splitAt_heapEnd : (splitAt c h ptr size).heapEnd = h.heapEnd := by
  simp only [splitAt]; split_ifs <;> rfl
@[simp] theorem splitAt_heapPtr : (splitAt c h ptr size).heapPtr = h.heapPtr := by
  simp only [splitAt]; split_ifs <;> rfl
@[simp] theorem splitAt_lfree : (splitAt c h ptr size).lfree = h.lfree := by
  simp only [splitAt]; split_ifs <;> rfl
@[simp] theorem splitAt_usedMem : (splitAt c h ptr size).usedMem = h.usedMem := by
  simp only [splitAt]; split_ifs <;> rfl
@[simp] theorem splitAt_memSizeAligned :
    (splitAt c h ptr size).memSizeAligned = h.memSizeAligned := by
  simp only [splitAt]; split_ifs <;> rfl

/-- **Splitting a block** keeps the tiling and adds the remainder's header to it. -/
theorem Tiled.splitAt (t : Tiled c h B) (hp : ptr ∈ B)
    (hroom : ptr + c.sizeofStructMem + size + c.sizeofStructMem ≤ (h.mem ptr).next) :
    Tiled c (splitAt c h ptr size) (insert (ptr + c.sizeofStructMem + size) B) := by
  have hS := c.sizeofStructMem_pos
  have hle := t.next_le ptr hp
  set p2 := ptr + c.sizeofStructMem + size with hp2
  have hlt : ptr < p2 := by omega
  have hgap : p2 ≤ (h.mem ptr).next := by omega
  have hfresh : ∀ y ∈ B, ptr < y → p2 + c.sizeofStructMem ≤ y := fun y hy hpy => by
    have := t.no_between ptr hp y hy hpy
    omega
  have hnot : p2 ∉ B := fun hm => by
    have := hfresh p2 hm hlt
    omega
  have hneB : ∀ {b}, b ∈ B → b ≠ p2 := fun hb e => hnot (e ▸ hb)
  constructor
  · exact Finset.mem_insert_of_mem t.zero_mem
  · intro b hb
    rw [splitAt_next hgap, ← hp2]
    rcases Finset.mem_insert.mp hb with rfl | hbB
    · rw [if_neg hlt.ne', if_pos rfl]
      omega
    · have := t.gap b hbB
      rw [if_neg (hneB hbB)]
      split_ifs with hbp
      · subst hbp; omega
      · exact this
  · intro b hb
    rw [splitAt_next hgap, splitAt_heapEnd, ← hp2]
    rcases Finset.mem_insert.mp hb with rfl | hbB
    · rw [if_neg hlt.ne', if_pos rfl]
      exact (t.next_mem ptr hp).imp_left Finset.mem_insert_of_mem
    · rw [if_neg (hneB hbB)]
      split_ifs with hbp
      · exact Or.inl (Finset.mem_insert_self _ _)
      · exact (t.next_mem b hbB).imp_left Finset.mem_insert_of_mem
  · intro b hb
    rw [splitAt_next hgap, splitAt_heapEnd, ← hp2]
    split_ifs with hbp hb2
    · omega
    · exact hle
    · exact t.next_le b ((Finset.mem_insert.mp hb).resolve_left hb2)
  · intro b hb y hy hby
    rw [splitAt_next hgap, ← hp2]
    rcases Finset.mem_insert.mp hb with rfl | hbB
    · rw [if_neg hlt.ne', if_pos rfl]
      have hyB := (Finset.mem_insert.mp hy).resolve_left hby.ne'
      exact t.no_between ptr hp y hyB (by omega)
    · rw [if_neg (hneB hbB)]
      rcases Finset.mem_insert.mp hy with rfl | hyB
      · -- the remainder starts inside the block at `ptr`, above every block below it
        split_ifs with hbp
        · exact le_rfl
        · have := t.disjoint_blocks hbB hp hbp
          omega
      · have h1 := t.no_between b hbB y hyB hby
        split_ifs with hbp
        · subst hbp; omega
        · exact h1
  · intro b hb
    rw [splitAt_next hgap, splitAt_heapEnd, ← hp2]
    rcases Finset.mem_insert.mp hb with rfl | hbB
    · rw [if_neg hlt.ne', if_pos rfl]
      intro he
      rw [splitAt_prev, if_pos ⟨rfl, by rwa [← t.end_eq]⟩]
    · rw [if_neg (hneB hbB)]
      split_ifs with hbp
      · intro _
        rw [splitAt_prev, if_neg (by omega), if_pos rfl, hbp]
      · intro he
        have hnext := (t.next_mem b hbB).resolve_right he
        have hbn : (h.mem b).next ≠ (h.mem ptr).next := fun e => hbp (t.next_inj hbB hp e he)
        rw [splitAt_prev, if_neg (fun e => hbn e.1), if_neg (hneB hnext)]
        exact t.prev b hbB he
  · rw [splitAt_prev, if_neg (by omega), if_neg (by omega)]
    exact t.first_prev
  · rw [splitAt_heapEnd, splitAt_used, if_neg (by omega)]
    exact t.end_used
  · rw [splitAt_heapEnd, splitAt_next hgap, if_neg (by omega), if_neg (by omega)]
    exact t.end_next
  · rw [splitAt_heapEnd, splitAt_memSizeAligned]
    exact t.end_eq
  · rw [splitAt_heapEnd]
    exact t.fits

end Split

end CoreLink.RtThread.Mem
