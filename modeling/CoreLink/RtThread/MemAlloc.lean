/-
# `CoreLink.RtThread.MemAlloc` — `rt_malloc` and `rt_realloc` keep the heap invariant.

`rt_malloc` is a first-fit search (`mallocSearch_some`, `mallocSearch_none`), the taking of the block found,
split or whole (`mallocTake_spec`), and the move of `lfree` when that block was the lowest (`lfreeAdvance_spec`).
`rt_realloc` is a cut in place, or `rt_malloc` and `rt_free` one after the other.
-/
import CoreLink.RtThread.MemInvariant

namespace CoreLink.RtThread.Mem

open CoreLink.Lib

variable {c : MemCfg} {h h' : Heap} {B B' : Finset Nat} {live : List Nat}

/-! ## `rt_malloc` -/

section Search

variable {size fuel ptr q : Nat}

/-- A block that the search returns is unused, large enough, and inside the search bound. -/
theorem mallocSearch_some (t : Tiled c h B)
    (hs : mallocSearch c h size fuel ptr = some (some q)) (hptr : ptr ∈ B ∨ ptr = h.heapEnd) :
    q ∈ B ∧ (h.mem q).used = false ∧ q + c.sizeofStructMem + size ≤ (h.mem q).next ∧
      q < c.sub h.memSizeAligned size := by
  induction fuel generalizing ptr with
  | zero => simp [mallocSearch] at hs
  | succ fuel ih =>
    rw [mallocSearch] at hs
    split_ifs at hs with hb hfit
    · obtain ⟨hu, hsz⟩ := hfit
      obtain rfl : ptr = q := by simpa using hs
      have hq : ptr ∈ B := hptr.resolve_right fun e => by simp [e, t.end_used] at hu
      have hg := t.gap ptr hq
      rw [t.sub_data hq] at hsz
      exact ⟨hq, hu, by omega, hb⟩
    · refine ih hs ?_
      rcases hptr with hp | rfl
      · exact t.next_mem ptr hp
      · exact Or.inr t.end_next
    · simp at hs

/-- The search gives up only when no unused block that starts inside its bound is large enough. -/
theorem mallocSearch_none (t : Tiled c h B) (hs : mallocSearch c h size fuel ptr = some none)
    (hptr : ptr ∈ B ∨ ptr = h.heapEnd) {b : Nat} (hb : b ∈ B) (hpb : ptr ≤ b)
    (hbound : b < c.sub h.memSizeAligned size) (hu : (h.mem b).used = false) :
    (h.mem b).next < b + c.sizeofStructMem + size := by
  induction fuel generalizing ptr with
  | zero => simp [mallocSearch] at hs
  | succ fuel ih =>
    rw [mallocSearch] at hs
    split_ifs at hs with hlt hfit
    · simp at hs
    · rcases hptr with hp | rfl
      · rcases Nat.eq_or_lt_of_le hpb with rfl | hlt'
        · have hg := t.gap ptr hp
          have hsz : ¬ size ≤ c.sub (h.mem ptr).next (ptr + c.sizeofStructMem) := fun e => hfit ⟨hu, e⟩
          rw [t.sub_data hp] at hsz
          omega
        · exact ih hs (t.next_mem ptr hp) (t.no_between ptr hp b hb hlt')
      · have := t.lt_end hb
        omega
    · omega

end Search

/-- Moving `lfree` up stops at the next unused block, or at the top. -/
theorem lfreeAdvance_spec {fuel : Nat} (t : Tiled c h B) (ha : lfreeAdvance fuel h = some h')
    (hl : h.lfree ∈ B ∨ h.lfree = h.heapEnd) :
    ∃ l, h' = { h with lfree := l } ∧ LfreeOk h' B ∧ ∀ b ∈ B, h.lfree ≤ b → b < l → (h.mem b).used = true := by
  induction fuel generalizing h with
  | zero => simp [lfreeAdvance] at ha
  | succ fuel ih =>
    rw [lfreeAdvance] at ha
    split_ifs at ha with hgo
    · obtain ⟨hu, hend⟩ := hgo
      have hlB := hl.resolve_right hend
      have t' : Tiled c { h with lfree := (h.mem h.lfree).next } B :=
        t.congr ⟨rfl, rfl, rfl⟩ (fun _ => rfl) (fun _ => rfl) rfl
      obtain ⟨l, rfl, hok, hall⟩ := ih t' ha (t.next_mem _ hlB)
      refine ⟨l, rfl, hok, fun b hb hle hlt => ?_⟩
      rcases Nat.eq_or_lt_of_le hle with rfl | hlt'
      · exact hu
      · exact hall b hb (t.no_between _ hlB b hb hlt') hlt
    · obtain rfl : h = h' := by simpa using ha
      refine ⟨h.lfree, rfl, ?_, fun b _ h1 h2 => absurd h1 (by omega)⟩
      by_cases he : h.lfree = h.heapEnd
      · exact Or.inr he
      · exact Or.inl ⟨hl.resolve_right he, by simpa using fun hu => hgo ⟨hu, he⟩⟩

/-- The statements of `rt_malloc` that mark a block used and account for it. -/
def markUsed (h : Heap) (q n : Nat) : Heap :=
  ((h.modify q fun m => { m with used := true }).addUsed n).modify q
    fun m => { m with magic := heapMagic }

section MarkUsed

variable {q n : Nat}

@[simp] theorem markUsed_next (x : Nat) : ((markUsed h q n).mem x).next = (h.mem x).next := by
  by_cases hx : x = q <;> simp [markUsed, Heap.addUsed, hx]

@[simp] theorem markUsed_prev (x : Nat) : ((markUsed h q n).mem x).prev = (h.mem x).prev := by
  by_cases hx : x = q <;> simp [markUsed, Heap.addUsed, hx]

theorem markUsed_used (x : Nat) :
    ((markUsed h q n).mem x).used = if x = q then true else (h.mem x).used := by
  by_cases hx : x = q <;> simp [markUsed, Heap.addUsed, hx]

@[simp] theorem markUsed_lfree : (markUsed h q n).lfree = h.lfree := rfl
@[simp] theorem markUsed_usedMem : (markUsed h q n).usedMem = h.usedMem + n := rfl

theorem markUsed_region : SameRegion h (markUsed h q n) := ⟨rfl, rfl, rfl⟩

theorem markUsed_usedBlocks (hq : q ∈ B) :
    usedBlocks (markUsed h q n) B = insert q (usedBlocks h B) := by
  ext b
  simp only [mem_usedBlocks, Finset.mem_insert, markUsed_used]
  by_cases hb : b = q <;> simp [hb, hq]

theorem Tiled.markUsed (t : Tiled c h B) (hq : q ∈ B) : Tiled c (markUsed h q n) B :=
  t.congr markUsed_region (fun _ => markUsed_next _) (fun _ => markUsed_prev _)
    (by rw [markUsed_used, if_neg (t.lt_end hq).ne'])

end MarkUsed

/-- What `rt_malloc` does to the blocks when it takes the unused block at `q` for `size` bytes. -/
structure Taken (c : MemCfg) (h : Heap) (B : Finset Nat) (q size : Nat) (h' : Heap) (B' : Finset Nat) :
    Prop where
  tiled : Tiled c h' B'
  coalesced : Coalesced h' B'
  region : SameRegion h h'
  lfree : h'.lfree = h.lfree
  subset : B ⊆ B'
  used : ∀ b ∈ B', (h'.mem b).used = false → b ≠ q ∧ (b ∈ B ∧ (h.mem b).used = false ∨ q < b)
  keeps : ∀ b ∈ B, b ≠ q → (h'.mem b).used = (h.mem b).used
  blocks : usedBlocks h' B' = insert q (usedBlocks h B)
  next : ∀ b ∈ usedBlocks h B, (h'.mem b).next = (h.mem b).next
  usedMem : h'.usedMem = h.usedMem + ((h'.mem q).next - q)
  room : q + c.sizeofStructMem + size ≤ (h'.mem q).next

section Take

variable {q size : Nat}

theorem mallocTake_eq :
    mallocTake c h q size =
      if size + c.sizeofStructMem + c.minSizeAligned ≤ c.sub (h.mem q).next (q + c.sizeofStructMem) then
        markUsed (splitAt c h q size) q (size + c.sizeofStructMem)
      else markUsed h q (c.sub (h.mem q).next q) := by
  unfold mallocTake markUsed
  simp only
  split_ifs <;> rfl

/-- The near fit: the whole block is taken. -/
theorem taken_whole (t : Tiled c h B) (hco : Coalesced h B) (hq : q ∈ B)
    (hroom : q + c.sizeofStructMem + size ≤ (h.mem q).next) :
    Taken c h B q size (markUsed h q (c.sub (h.mem q).next q)) B := by
  refine ⟨t.markUsed hq, ?_, markUsed_region, rfl, subset_rfl, ?_, ?_, markUsed_usedBlocks hq, ?_, ?_, ?_⟩
  · intro b hb
    rw [markUsed_next, markUsed_region.heapEnd, markUsed_used, markUsed_used]
    intro he
    split_ifs
    · exact Or.inl rfl
    · exact Or.inl rfl
    · exact Or.inr rfl
    · exact hco b hb he
  · intro b hb hu
    rw [markUsed_used] at hu
    split_ifs at hu with hbq
    exact ⟨hbq, Or.inl ⟨hb, hu⟩⟩
  · intro b _ hbq
    rw [markUsed_used, if_neg hbq]
  · exact fun b _ => markUsed_next b
  · rw [markUsed_usedMem, markUsed_next, t.sub_length hq]
  · rwa [markUsed_next]

/-- The split: the remainder becomes an unused block, behind which the next block is used. -/
theorem taken_split (t : Tiled c h B) (hco : Coalesced h B) (hq : q ∈ B) (hu : (h.mem q).used = false)
    (hroom : q + c.sizeofStructMem + size + c.sizeofStructMem ≤ (h.mem q).next) :
    Taken c h B q size (markUsed (splitAt c h q size) q (size + c.sizeofStructMem))
      (insert (q + c.sizeofStructMem + size) B) := by
  have hS := c.sizeofStructMem_pos
  have hgap : q + c.sizeofStructMem + size ≤ (h.mem q).next := by omega
  have t₁ := t.splitAt hq hroom
  have hnext := splitAt_next (c := c) (h := h) hgap
  have hused := @splitAt_used c h q size
  generalize hp2 : q + c.sizeofStructMem + size = p2 at *
  have hnot : p2 ∉ B := fun hm => by
    have := t.no_between q hq p2 hm (by omega)
    omega
  have hneB : ∀ x ∈ B, x ≠ p2 := fun x hx e => hnot (e ▸ hx)
  have hqi : q ∈ insert p2 B := Finset.mem_insert_of_mem hq
  have hblocks : usedBlocks (splitAt c h q size) (insert p2 B) = usedBlocks h B := by
    ext b
    simp only [mem_usedBlocks, Finset.mem_insert, hused]
    by_cases hb : b = p2 <;> simp [hb, hnot]
  refine ⟨t₁.markUsed hqi, ?_, ⟨by simp [markUsed_region.heapPtr], by simp [markUsed_region.heapEnd],
    by simp [markUsed_region.memSizeAligned]⟩, by simp, Finset.subset_insert _ _, ?_, ?_, ?_, ?_, ?_, ?_⟩
  · intro b hb
    rw [markUsed_next, markUsed_region.heapEnd, splitAt_heapEnd, markUsed_used, markUsed_used, hused, hused,
      hnext]
    rcases Finset.mem_insert.mp hb with rfl | hbB
    · -- the block after the remainder is the one after the old block, and that was not free
      rw [if_neg (show b ≠ q by omega), if_pos rfl, if_pos rfl]
      intro he
      have hn := (t.next_mem q hq).resolve_right he
      rw [if_neg (hneB _ hn)]
      have := (hco q hq he).resolve_left (by simp [hu])
      exact Or.inr (by rw [this, ite_self])
    · simp only [if_neg (hneB b hbB)]
      by_cases hbq : b = q
      · exact fun _ => Or.inl (by rw [if_pos hbq])
      · simp only [if_neg hbq]
        intro he
        have hn := (t.next_mem b hbB).resolve_right he
        rw [if_neg (hneB _ hn)]
        exact (hco b hbB he).imp_right fun e => by rw [e, ite_self]
  · intro b hb hbu
    rw [markUsed_used, hused] at hbu
    split_ifs at hbu with hbq hb2
    · exact ⟨hbq, Or.inr (by omega)⟩
    · exact ⟨hbq, Or.inl ⟨(Finset.mem_insert.mp hb).resolve_left hb2, hbu⟩⟩
  · intro b hb hbq
    rw [markUsed_used, if_neg hbq, hused, if_neg (hneB b hb)]
  · rw [markUsed_usedBlocks hqi, hblocks]
  · intro b hb
    obtain ⟨hbB, hbu⟩ := mem_usedBlocks.mp hb
    rw [markUsed_next, hnext, if_neg fun e => by simp [e, hu] at hbu, if_neg (hneB b hbB)]
  · rw [markUsed_usedMem, splitAt_usedMem, markUsed_next, hnext, if_pos rfl]
    omega
  · rw [markUsed_next, hnext, if_pos rfl, hp2]

/-- **Taking a block**, split or whole. -/
theorem mallocTake_spec (t : Tiled c h B) (hco : Coalesced h B) (hq : q ∈ B)
    (hu : (h.mem q).used = false) (hroom : q + c.sizeofStructMem + size ≤ (h.mem q).next) :
    ∃ B', Taken c h B q size (mallocTake c h q size) B' := by
  rw [mallocTake_eq]
  split_ifs with hsplit
  · rw [t.sub_data hq] at hsplit
    have hmin := c.minSizeAligned_pos
    exact ⟨_, taken_split t hco hq hu (by omega)⟩
  · exact ⟨_, taken_whole t hco hq hroom⟩

end Take

/-- The invariant after a block was taken, once `lfree` is right again. -/
theorem HeapInv.take (hi : HeapInv c h B live) {q size l : Nat} (hq : q ∈ B)
    (hu : (h.mem q).used = false) (hsize : 0 < size) (hp : Taken c h B q size h' B')
    (hl : LfreeOk { h' with lfree := l } B') :
    HeapInv c { h' with lfree := l } B' ((h.heapPtr + q + c.sizeofStructMem) :: live) := by
  have hqu : q ∉ usedBlocks h B := fun e => by simp [(mem_usedBlocks.mp e).2] at hu
  have hblocks : usedBlocks { h' with lfree := l } B' = insert q (usedBlocks h B) := hp.blocks
  refine ⟨hp.tiled.congr ⟨rfl, rfl, rfl⟩ (fun _ => rfl) (fun _ => rfl) rfl, hp.coalesced, hl, ?_, ?_, ?_, ?_⟩
  · have hsum : usedSum { h' with lfree := l } B' = ((h'.mem q).next - q) + usedSum h B := by
      unfold usedSum
      rw [hblocks, Finset.sum_insert hqu]
      exact congrArg _ (Finset.sum_congr rfl fun b hb => by rw [hp.next b hb])
    refine hp.usedMem.trans ?_
    rw [hsum, hi.usedMem_eq, Nat.add_comm]
  · intro b hb
    rw [hblocks] at hb
    rcases Finset.mem_insert.mp hb with rfl | hb
    · have := hp.room
      exact (by omega : b + c.sizeofStructMem < (h'.mem b).next)
    · exact (hp.next b hb).symm ▸ hi.data_pos b hb
  · refine List.nodup_cons.mpr ⟨fun hmem => ?_, hi.nodup⟩
    obtain ⟨b, hb, he⟩ := (hi.live_iff _).mp hmem
    exact hqu ((by omega : q = b) ▸ hb)
  · intro p
    rw [List.mem_cons, hi.live_iff, hblocks]
    change _ ↔ ∃ b ∈ _, p = h'.heapPtr + b + _
    rw [hp.region.heapPtr, Finset.exists_mem_insert]

theorem blockSize_pos (size : Nat) : 0 < blockSize c size := by
  have := c.minSizeAligned_pos
  unfold blockSize
  split_ifs <;> omega

/-- `rt_malloc` returned `RT_NULL` and changed nothing, or took an unused block that the search found and moved
`lfree` to the next unused one if that was the block. -/
theorem rtMalloc_cases (hi : HeapInv c h B live) {fuel size p : Nat}
    (hm : rtMalloc c fuel h size = some (h', p)) :
    (p = 0 ∧ h' = h ∧ (size = 0 ∨ h.memSizeAligned < c.rtAlign size ∨
      mallocSearch c h (blockSize c size) fuel h.lfree = some none)) ∨
    ∃ q h₁ B₁ l, mallocSearch c h (blockSize c size) fuel h.lfree = some (some q) ∧
      q ∈ B ∧ (h.mem q).used = false ∧
      Taken c h B q (blockSize c size) h₁ B₁ ∧ h' = { h₁ with lfree := l } ∧ LfreeOk h' B₁ ∧
      (∀ b ∈ B₁, h.lfree ≤ b → b < l → (h₁.mem b).used = true) ∧
      p = h.heapPtr + q + c.sizeofStructMem := by
  unfold rtMalloc at hm
  split_ifs at hm with h0 hbig
  · exact Or.inl (by simp_all)
  · exact Or.inl (by simp_all)
  cases hs : mallocSearch c h (blockSize c size) fuel h.lfree with
  | none => simp [hs] at hm
  | some r =>
    cases r with
    | none => exact Or.inl (by simp_all)
    | some q =>
      obtain ⟨hq, hu, hroom, -⟩ := mallocSearch_some hi.tiled hs hi.lfreeOk.mem_or
      obtain ⟨B₁, hp⟩ := mallocTake_spec hi.tiled hi.coalesced hq hu hroom
      simp only [hs, hp.lfree] at hm
      refine Or.inr ⟨q, mallocTake c h q (blockSize c size), B₁, ?_⟩
      have hl : h.lfree ∈ B₁ ∨ h.lfree = h.heapEnd := hi.lfreeOk.mem_or.imp_left (hp.subset ·)
      split_ifs at hm with hql
      · obtain ⟨h₂, ha, he⟩ := Option.map_eq_some_iff.mp hm
        obtain ⟨l, rfl, hok, hall⟩ := lfreeAdvance_spec hp.tiled ha (by rwa [hp.lfree, hp.region.heapEnd])
        obtain ⟨rfl, rfl⟩ := Prod.mk.inj he
        rw [hp.lfree] at hall
        exact ⟨l, rfl, hq, hu, hp, rfl, hok, hall, rfl⟩
      · obtain ⟨rfl, rfl⟩ := Prod.mk.inj (Option.some.inj hm)
        refine ⟨h.lfree, rfl, hq, hu, hp, by rw [← hp.lfree], ?_, fun b _ h1 h2 => absurd h1 (by omega), rfl⟩
        unfold LfreeOk
        rw [hp.lfree, hp.region.heapEnd]
        refine hi.lfreeOk.imp_left fun hf => ⟨hp.subset hf.1, ?_⟩
        rw [hp.keeps _ hf.1 (Ne.symm hql)]
        exact hf.2

/-- **`rt_malloc`** keeps the invariant, and keeps `lfree` lowest. -/
theorem rtMalloc_spec (hi : HeapInv c h B live) {fuel size p : Nat}
    (hm : rtMalloc c fuel h size = some (h', p)) :
    (p = 0 ∧ h' = h) ∨ ∃ B', HeapInv c h' B' (p :: live) ∧ SameRegion h h' ∧ p ≠ 0 ∧
      (LfreeLowest h B → LfreeLowest h' B') := by
  rcases rtMalloc_cases hi hm with ⟨h0, h1, -⟩ | ⟨q, h₁, B₁, l, -, hq, hu, hp, rfl, hok, hall, rfl⟩
  · exact Or.inl ⟨h0, h1⟩
  have hS := c.sizeofStructMem_pos
  refine Or.inr ⟨B₁, hi.take hq hu (blockSize_pos size) hp hok, ⟨hp.region.heapPtr, hp.region.heapEnd,
    hp.region.memSizeAligned⟩, by omega, fun hll b hb hlt => ?_⟩
  by_cases hle : h.lfree ≤ b
  · exact hall b hb hle hlt
  · -- below the old `lfree` everything was used, and stays so
    by_contra hbu
    obtain ⟨-, ⟨hbB, hbu'⟩ | hqb⟩ := hp.used b hb (by simpa using hbu)
    · simp [hll b hbB (by omega)] at hbu'
    · simp [hll q hq (by omega)] at hu

/-! ## `rt_realloc` -/

section Shrink

variable {ptr n : Nat}

/-- **The cut in place** keeps the invariant. It keeps `lfree` lowest when `lfree` is below the block, or at the
unused block behind it, which then grows downwards. -/
theorem shrink_spec (hi : HeapInv c h B live) (hp : ptr ∈ usedBlocks h B) (hn : 0 < n)
    (hroom : ptr + c.sizeofStructMem + n + c.sizeofStructMem ≤ (h.mem ptr).next) :
    ∃ B', HeapInv c (shrink c h ptr n) B' live ∧ SameRegion h (shrink c h ptr n) ∧
      (LfreeLowest h B → h.lfree < ptr ∨ ((h.mem ptr).next = h.lfree ∧ h.lfree ≠ h.heapEnd) →
        LfreeLowest (shrink c h ptr n) B') := by
  obtain ⟨hpB, hpu⟩ := mem_usedBlocks.mp hp
  have t := hi.tiled
  have hS := c.sizeofStructMem_pos
  have hgap : ptr + c.sizeofStructMem + n ≤ (h.mem ptr).next := by omega
  have t₁ := t.splitAt hpB hroom
  have hsize : c.sub (c.sub (c.sub (h.mem ptr).next ptr) c.sizeofStructMem) n
      = (h.mem ptr).next - (ptr + c.sizeofStructMem + n) := by
    have hle := t.next_le ptr hpB
    have hend := t.end_lt
    rw [t.sub_sub_data hpB, c.sub_of_le (by omega) (by omega)]
    omega
  unfold shrink
  simp only [hsize]
  -- the block is cut first; the statistic plays no part in that
  obtain ⟨u, hu⟩ : ∃ u, u = c.sub h.usedMem ((h.mem ptr).next - (ptr + c.sizeofStructMem + n)) := ⟨_, rfl⟩
  obtain ⟨h₀, hh₀⟩ : ∃ h₀ : Heap, h₀ = { h with usedMem := u } := ⟨_, rfl⟩
  rw [← hu, ← hh₀]
  have hreg₀ : SameRegion h h₀ := by rw [hh₀]; exact ⟨rfl, rfl, rfl⟩
  have hmem₀ : h₀.mem = h.mem := by rw [hh₀]
  have hlf₀ : h₀.lfree = h.lfree := by rw [hh₀]
  have t₀ : Tiled c h₀ B := t.congr hreg₀ (fun _ => by rw [hmem₀]) (fun _ => by rw [hmem₀]) (by rw [hmem₀])
  have t₁ := t₀.splitAt hpB (by rwa [hmem₀])
  have hnext := splitAt_next (c := c) (h := h₀) (by rwa [hmem₀])
  have hused := @splitAt_used c h₀ ptr n
  rw [hmem₀] at hnext hused
  generalize hp2 : ptr + c.sizeofStructMem + n = p2 at *
  have hnot : p2 ∉ B := fun hm => by
    have := t.no_between ptr hpB p2 hm (by omega)
    omega
  have hneB : ∀ x ∈ B, x ≠ p2 := fun x hx e => hnot (e ▸ hx)
  have hblocks : usedBlocks (splitAt c h₀ ptr n) (insert p2 B) = usedBlocks h B := by
    ext b
    simp only [mem_usedBlocks, Finset.mem_insert, hused]
    by_cases hb : b = p2 <;> simp [hb, hnot]
  obtain ⟨B', hplug, hco, hlow⟩ := plugHoles_spec t₁ (Finset.mem_insert_self p2 B)
    (by rw [hused, if_pos rfl])
    (by
      unfold LfreeOk
      rw [splitAt_lfree, splitAt_heapEnd, hlf₀, hreg₀.heapEnd, hused]
      exact hi.lfreeOk.imp_left fun hf =>
        ⟨Finset.mem_insert_of_mem hf.1, by rw [if_neg (hneB _ hf.1)]; exact hf.2⟩)
    (by
      intro b hb
      rw [splitAt_heapEnd, hreg₀.heapEnd, hused, hused, hnext]
      rcases Finset.mem_insert.mp hb with rfl | hbB
      · exact fun _ => Or.inl rfl
      · simp only [if_neg (hneB b hbB)]
        by_cases hbp : b = ptr
        · exact fun _ => Or.inr (Or.inl (if_pos hbp))
        · simp only [if_neg hbp]
          intro he
          have hn := (t.next_mem b hbB).resolve_right he
          rw [if_neg (hneB _ hn)]
          exact Or.inr (Or.inr (hi.coalesced b hbB he)))
  have hreg : SameRegion h (plugHoles (splitAt c h₀ ptr n) p2) :=
    hreg₀.trans (SameRegion.trans ⟨by simp, by simp, by simp⟩ hplug.region)
  have hblocks' : usedBlocks (plugHoles (splitAt c h₀ ptr n) p2) B' = usedBlocks h B :=
    hplug.same.blocks.trans hblocks
  have hnext' : ∀ b ∈ usedBlocks h B, ((plugHoles (splitAt c h₀ ptr n) p2).mem b).next
      = if b = ptr then p2 else (h.mem b).next := fun b hb => by
    rw [hplug.same.next b (hblocks ▸ hb), hnext, if_neg (hneB b (mem_usedBlocks.mp hb).1)]
  refine ⟨B', ⟨hplug.tiled, hco, hplug.lfreeOk, ?_, ?_, hi.nodup, ?_⟩, hreg, ?_⟩
  · -- the cut block loses what lies behind `p2`, the others keep their length
    have hsum : usedSum (plugHoles (splitAt c h₀ ptr n) p2) B' + ((h.mem ptr).next - p2) = usedSum h B := by
      unfold usedSum
      rw [hblocks', ← Finset.sum_erase_add _ _ hp, ← Finset.sum_erase_add _ _ hp,
        hnext' ptr hp, if_pos rfl, Nat.add_assoc,
        Finset.sum_congr rfl fun b hb => by
          rw [hnext' b (Finset.mem_of_mem_erase hb), if_neg (Finset.ne_of_mem_erase hb)]]
      congr 1
      omega
    have hle := t.usedSum_le
    have hend := t.end_lt
    have hu₀ : h₀.usedMem = u := by rw [hh₀]
    rw [hplug.usedMem, splitAt_usedMem, hu₀, hu, hi.usedMem_eq, c.sub_of_le (by omega) (by omega)]
    omega
  · intro b hb
    rw [hblocks'] at hb
    rw [hnext' b hb]
    have := hi.data_pos b hb
    split_ifs with hbp
    · omega
    · exact this
  · intro p
    rw [hi.live_iff, hblocks', hreg.heapPtr]
  · intro hll hcond
    refine hlow (fun b hb hlt hbp => ?_) ?_
    · rw [splitAt_lfree, hlf₀] at hlt
      rw [hused, if_neg hbp]
      exact hll b ((Finset.mem_insert.mp hb).resolve_left hbp) hlt
    · rw [splitAt_lfree, splitAt_heapEnd, hlf₀, hreg₀.heapEnd, hnext, if_neg (by omega), if_pos rfl]
      rcases hcond with hlt | ⟨he, hne⟩
      · exact Or.inl (by omega)
      · exact Or.inr ⟨he.symm, he ▸ hne⟩

end Shrink

/-- The pointers that the callers hold after `rt_realloc (p, n)` returned `r`. -/
def heldAfterRealloc (c : MemCfg) (live : List Nat) (p n r : Nat) : List Nat :=
  if c.rtAlign n = 0 then live.erase p else if r = 0 then live else r :: live.erase p

/-- A cut in place at `p` leaves an unused block below `lfree` unless `lfree` is below the block that is cut, or
at the unused block right behind it. -/
def CutAboveLfree (c : MemCfg) (h : Heap) (p n : Nat) : Prop :=
  c.rtAlign n ≠ 0 → p ≠ 0 → shrinksInPlace c h p n →
    h.lfree < h.header c p ∨ ((h.mem (h.header c p)).next = h.lfree ∧ h.lfree ≠ h.heapEnd)

/-- The invariant looks at the pointers held as a set. -/
theorem HeapInv.of_perm (hi : HeapInv c h B live) {live' : List Nat} (hp : live.Perm live') :
    HeapInv c h B live' :=
  ⟨hi.tiled, hi.coalesced, hi.lfreeOk, hi.usedMem_eq, hi.data_pos, hp.nodup_iff.mp hi.nodup,
    fun p => by rw [← hp.mem_iff, hi.live_iff]⟩

theorem HeapInv.zero_not_mem (hi : HeapInv c h B live) : 0 ∉ live :=
  fun h0 => (hi.header_of_live h0).2.2.2 rfl

/-- `rt_free` of a pointer held or of `RT_NULL`. -/
theorem rtFree_held (hi : HeapInv c h B live) {p : Nat} (hp : p ∈ live ∨ p = 0) :
    ∃ B', HeapInv c (rtFree c h p) B' (live.erase p) ∧ SameRegion h (rtFree c h p) ∧
      (LfreeLowest h B → LfreeLowest (rtFree c h p) B') := by
  rcases hp with hp | rfl
  · exact rtFree_spec hi hp
  · rw [List.erase_of_not_mem hi.zero_not_mem, rtFree, if_pos rfl]
    exact ⟨B, hi, SameRegion.refl h, id⟩

/-- **`rt_realloc`** keeps the invariant. It keeps `lfree` lowest unless it cuts a block below `lfree`. -/
theorem rtRealloc_spec (hi : HeapInv c h B live) {fuel p n r : Nat} (hp : p ∈ live ∨ p = 0)
    (hr : rtRealloc c fuel h p n = some (h', r)) :
    ∃ B', HeapInv c h' B' (heldAfterRealloc c live p n r) ∧ SameRegion h h' ∧
      (LfreeLowest h B → CutAboveLfree c h p n → LfreeLowest h' B') := by
  unfold rtRealloc at hr
  simp only at hr
  split_ifs at hr with hbig hzero hnull hrange hsame hcut
  · obtain ⟨rfl, rfl⟩ := Prod.mk.inj (Option.some.inj hr)
    rw [heldAfterRealloc, if_neg (by omega), if_pos rfl]
    exact ⟨B, hi, SameRegion.refl h, fun hl _ => hl⟩
  · obtain ⟨rfl, rfl⟩ := Prod.mk.inj (Option.some.inj hr)
    rw [heldAfterRealloc, if_pos hzero]
    obtain ⟨B', hi', hreg, hlow⟩ := rtFree_held hi hp
    exact ⟨B', hi', hreg, fun hl _ => hlow hl⟩
  · subst hnull
    rw [heldAfterRealloc, if_neg hzero, List.erase_of_not_mem hi.zero_not_mem]
    rcases rtMalloc_spec hi hr with ⟨rfl, rfl⟩ | ⟨B', hi', hreg, hr0, hlow⟩
    · exact ⟨B, hi, SameRegion.refl _, fun hl _ => hl⟩
    · rw [if_neg hr0]
      exact ⟨B', hi', hreg, fun hl _ => hlow hl⟩
  rotate_right
  · exact absurd (hi.header_of_live (hp.resolve_right hnull)).2.2.1 hrange
  all_goals
    have hpl := hp.resolve_right hnull
    obtain ⟨hb, -, -, hp0⟩ := hi.header_of_live hpl
    rw [heldAfterRealloc, if_neg hzero]
  · obtain ⟨rfl, rfl⟩ := Prod.mk.inj (Option.some.inj hr)
    rw [if_neg hp0]
    exact ⟨B, hi.of_perm (List.perm_cons_erase hpl), SameRegion.refl h, fun hl _ => hl⟩
  · obtain ⟨rfl, rfl⟩ := Prod.mk.inj (Option.some.inj hr)
    rw [if_neg hp0]
    have hroom := hcut
    unfold shrinksInPlace at hroom
    simp only [hi.tiled.sub_sub_data (mem_usedBlocks.mp hb).1] at hroom
    have hmin := c.minSize_pos
    obtain ⟨B', hi', hreg, hlow⟩ := shrink_spec hi hb (Nat.pos_of_ne_zero hzero) (by omega)
    exact ⟨B', hi'.of_perm (List.perm_cons_erase hpl), hreg, fun hl hc => hlow hl (hc hzero hp0 hcut)⟩
  · cases hmal : rtMalloc c fuel h (c.rtAlign n) with
    | none => simp [hmal] at hr
    | some x =>
      obtain ⟨h₁, q⟩ := x
      simp only [hmal] at hr
      rcases rtMalloc_spec hi hmal with ⟨rfl, rfl⟩ | ⟨B₁, hi₁, hreg₁, hq0, hlow₁⟩
      · obtain ⟨rfl, rfl⟩ : h' = h₁ ∧ r = 0 := by simpa [eq_comm] using hr
        rw [if_pos rfl]
        exact ⟨B, hi, SameRegion.refl _, fun hl _ => hl⟩
      · obtain ⟨rfl, rfl⟩ : h' = rtFree c h₁ p ∧ r = q := by simpa [hq0, eq_comm] using hr
        have hqp : r ≠ p := fun e => (List.nodup_cons.mp hi₁.nodup).1 (e ▸ hpl)
        obtain ⟨B', hi', hreg, hlow⟩ := rtFree_spec hi₁ (List.mem_cons_of_mem r hpl)
        rw [List.erase_cons_tail (by simpa using hqp)] at hi'
        rw [if_neg hq0]
        exact ⟨B', hi', hreg₁.trans hreg, fun hl _ => hlow (hlow₁ hl)⟩

end CoreLink.RtThread.Mem

