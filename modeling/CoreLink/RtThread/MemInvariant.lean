/-
# `CoreLink.RtThread.MemInvariant` — the heap invariant, and `rt_free`.

`HeapInv c h B live` collects what holds between calls: the blocks `B` tile the heap, no two neighbours are
unused, `lfree` is at an unused block or at the top, `used_mem` is the length of the used blocks, and the
pointers `live` that the callers hold are exactly the data areas of the used blocks. `plugHoles_spec` and
`rtFree_spec` are here, `rtMalloc_spec` and `rtRealloc_spec` in the next module. Each also says when the call
keeps `lfree` at the lowest unused block (`LfreeLowest`), which not every call does.
-/
import CoreLink.RtThread.MemTiling

namespace CoreLink.RtThread.Mem

open CoreLink.Lib

variable {c : MemCfg} {h h' : Heap} {B B' : Finset Nat} {live : List Nat}

/-! ## Frames: what a call leaves alone -/

/-- The used blocks of `h'` are those of `h`, with the same lengths. -/
structure SameUsed (h : Heap) (B : Finset Nat) (h' : Heap) (B' : Finset Nat) : Prop where
  blocks : usedBlocks h' B' = usedBlocks h B
  next : ∀ b ∈ usedBlocks h B, (h'.mem b).next = (h.mem b).next

theorem SameUsed.refl (h : Heap) (B : Finset Nat) : SameUsed h B h B := ⟨rfl, fun _ _ => rfl⟩

theorem SameUsed.trans {h'' : Heap} {B'' : Finset Nat} (s : SameUsed h B h' B')
    (s' : SameUsed h' B' h'' B'') : SameUsed h B h'' B'' :=
  ⟨s'.blocks.trans s.blocks, fun b hb => (s'.next b (s.blocks ▸ hb)).trans (s.next b hb)⟩

theorem SameUsed.usedSum_eq (s : SameUsed h B h' B') : usedSum h' B' = usedSum h B := by
  unfold usedSum
  rw [s.blocks]
  exact Finset.sum_congr rfl fun b hb => by rw [s.next b hb]

/-- The variables of `mem.c` that are set once. -/
structure SameRegion (h h' : Heap) : Prop where
  heapPtr : h'.heapPtr = h.heapPtr
  heapEnd : h'.heapEnd = h.heapEnd
  memSizeAligned : h'.memSizeAligned = h.memSizeAligned

theorem SameRegion.refl (h : Heap) : SameRegion h h := ⟨rfl, rfl, rfl⟩

theorem SameRegion.trans {h'' : Heap} (s : SameRegion h h') (s' : SameRegion h' h'') :
    SameRegion h h'' :=
  ⟨s'.heapPtr.trans s.heapPtr, s'.heapEnd.trans s.heapEnd,
    s'.memSizeAligned.trans s.memSizeAligned⟩

theorem SameRegion.header (s : SameRegion h h') (p : Nat) : h'.header c p = h.header c p := by
  unfold Heap.header
  rw [s.heapPtr]

/-- A change of used flags below `heap_end`, and of the variables outside the headers, keeps the tiling. -/
theorem Tiled.congr (t : Tiled c h B) (hreg : SameRegion h h')
    (hnext : ∀ x, (h'.mem x).next = (h.mem x).next) (hprev : ∀ x, (h'.mem x).prev = (h.mem x).prev)
    (hend : (h'.mem h.heapEnd).used = (h.mem h.heapEnd).used) : Tiled c h' B := by
  refine ⟨t.zero_mem, ?_, ?_, ?_, ?_, ?_, ?_, ?_, ?_, ?_, ?_⟩ <;>
    simp only [hreg.heapEnd, hreg.memSizeAligned, hnext, hprev, hend]
  · exact t.gap
  · exact t.next_mem
  · exact t.next_le
  · exact t.no_between
  · exact t.prev
  · exact t.first_prev
  · exact t.end_used
  · exact t.end_next
  · exact t.end_eq
  · exact t.fits

/-! ## `plug_holes` -/

/-- What joining unused blocks preserves. -/
structure Plugged (c : MemCfg) (h : Heap) (B : Finset Nat) (h' : Heap) (B' : Finset Nat) : Prop where
  tiled : Tiled c h' B'
  same : SameUsed h B h' B'
  lfreeOk : LfreeOk h' B'
  region : SameRegion h h'
  usedMem : h'.usedMem = h.usedMem

theorem Plugged.refl (t : Tiled c h B) (hl : LfreeOk h B) : Plugged c h B h B :=
  ⟨t, SameUsed.refl h B, hl, SameRegion.refl h, rfl⟩

theorem Plugged.trans {h'' : Heap} {B'' : Finset Nat} (p : Plugged c h B h' B')
    (p' : Plugged c h' B' h'' B'') : Plugged c h B h'' B'' :=
  ⟨p'.tiled, p.same.trans p'.same, p'.lfreeOk, p.region.trans p'.region, p'.usedMem.trans p.usedMem⟩

/-- Joining two unused neighbours changes nothing about the used blocks. -/
theorem join_plugged (t : Tiled c h B) {lo hi : Nat} (hlo : lo ∈ B) (hhi : hi ∈ B)
    (hnext : (h.mem lo).next = hi) (ulo : (h.mem lo).used = false) (uhi : (h.mem hi).used = false)
    (hl : LfreeOk h B) : Plugged c h B (join h lo hi) (B.erase hi) := by
  have hne : lo ≠ hi := (hnext ▸ t.lt_next hlo).ne
  refine ⟨t.join hlo hhi hnext, ⟨?_, ?_⟩, ?_, ⟨by simp, by simp, by simp⟩, by simp⟩
  · ext b
    simp only [mem_usedBlocks, Finset.mem_erase, join_used]
    constructor
    · exact fun hb => ⟨hb.1.2, hb.2⟩
    · rintro ⟨hb, hu⟩
      exact ⟨⟨fun e => by simp [e, uhi] at hu, hb⟩, hu⟩
  · intro b hb
    have hu := (mem_usedBlocks.mp hb).2
    rw [join_next hne, if_neg]
    rintro rfl
    simp [ulo] at hu
  · unfold LfreeOk
    rw [join_lfree, join_used, join_heapEnd]
    split_ifs with hlf
    · exact Or.inl ⟨Finset.mem_erase.mpr ⟨hne, hlo⟩, ulo⟩
    · exact hl.imp_left fun hf => ⟨Finset.mem_erase.mpr ⟨hlf, hf.1⟩, hf.2⟩

section Plug

variable {m : Nat}

/-- After the forward half, an unused pair of neighbours can only end at `m`. -/
theorem plugForward_spec (t : Tiled c h B) (hm : m ∈ B) (hu : (h.mem m).used = false)
    (hl : LfreeOk h B)
    (hco : ∀ b ∈ B, (h.mem b).next ≠ h.heapEnd → b = m ∨ (h.mem b).next = m ∨
      (h.mem b).used = true ∨ (h.mem (h.mem b).next).used = true) :
    ∃ B', Plugged c h B (plugForward h m) B' ∧ m ∈ B' ∧ ((plugForward h m).mem m).used = false ∧
      (∀ b ∈ B', ((plugForward h m).mem b).next ≠ h.heapEnd → ((plugForward h m).mem b).next = m ∨
        ((plugForward h m).mem b).used = true ∨
        ((plugForward h m).mem ((plugForward h m).mem b).next).used = true) ∧
      ((∀ b ∈ B, b < h.lfree → b ≠ m → (h.mem b).used = true) →
        h.lfree ≤ m ∨ (h.lfree = (h.mem m).next ∧ (h.mem m).next ≠ h.heapEnd) →
        LfreeLowest (plugForward h m) B') := by
  have hmn := t.lt_next hm
  unfold plugForward
  simp only
  split_ifs with hjoin
  · obtain ⟨hne, un, hend⟩ := hjoin
    have hn : (h.mem m).next ∈ B := (t.next_mem m hm).resolve_right hend
    have hnn := t.lt_next hn
    refine ⟨_, join_plugged t hm hn rfl hu un hl, Finset.mem_erase.mpr ⟨hne, hm⟩, ?_, ?_, ?_⟩
    · rwa [join_used]
    · intro b hb
      obtain ⟨-, hbB⟩ := Finset.mem_erase.mp hb
      rw [join_next hne, join_used, join_used]
      split_ifs with hbm
      · intro he
        rcases hco _ hn he with h1 | h1 | h1 | h1
        · omega
        · omega
        · simp [un] at h1
        · exact Or.inr (Or.inr h1)
      · intro he
        exact (hco b hbB he).resolve_left hbm
    · intro hlow hle b hb hblt
      obtain ⟨hbn, hbB⟩ := Finset.mem_erase.mp hb
      rw [join_lfree] at hblt
      rw [join_used]
      split_ifs at hblt with hlf
      · exact hlow b hbB (by omega) hblt.ne
      · have hlm : h.lfree ≤ m := hle.resolve_right fun e => hlf e.1
        exact hlow b hbB hblt (by omega)
  · refine ⟨B, Plugged.refl t hl, hm, hu, ?_, ?_⟩
    · intro b hb he
      rcases hco b hb he with rfl | h1 | h1 | h1
      · have : (h.mem (h.mem b).next).used ≠ false := fun e => hjoin ⟨hmn.ne, e, he⟩
        exact Or.inr (Or.inr (by simpa using this))
      · exact Or.inl h1
      · exact Or.inr (Or.inl h1)
      · exact Or.inr (Or.inr h1)
    · intro hlow hle b hb hblt
      have hlm : h.lfree ≤ m := hle.resolve_right fun e => by
        rcases hl with hlu | hle'
        · exact hjoin ⟨hmn.ne, e.1 ▸ hlu.2, e.2⟩
        · exact e.2 (e.1.symm.trans hle')
      exact hlow b hb hblt (by omega)

/-- After the backward half no two neighbours are unused. -/
theorem plugBackward_spec (t : Tiled c h B) (hm : m ∈ B) (hu : (h.mem m).used = false)
    (hl : LfreeOk h B)
    (hco : ∀ b ∈ B, (h.mem b).next ≠ h.heapEnd → (h.mem b).next = m ∨
      (h.mem b).used = true ∨ (h.mem (h.mem b).next).used = true) :
    ∃ B', Plugged c h B (plugBackward h m) B' ∧ Coalesced (plugBackward h m) B' ∧
      (LfreeLowest h B → LfreeLowest (plugBackward h m) B') := by
  have hmn := t.lt_next hm
  unfold plugBackward
  simp only
  split_ifs with hjoin
  · obtain ⟨hpm, hup⟩ := hjoin
    have h0 : m ≠ 0 := fun e => hpm (by rw [e, t.first_prev])
    obtain ⟨hp, hpn⟩ := t.prev_spec hm h0
    have hplt := t.lt_next hp
    refine ⟨_, join_plugged t hp hm hpn hup hu hl, ?_, ?_⟩
    · intro b hb
      obtain ⟨-, hbB⟩ := Finset.mem_erase.mp hb
      rw [join_heapEnd, join_next hpm, join_used, join_used]
      split_ifs with hbp
      · intro he
        rcases hco m hm he with h1 | h1 | h1
        · omega
        · simp [hu] at h1
        · exact Or.inr h1
      · intro he
        refine (hco b hbB he).resolve_left fun e => hbp ?_
        exact t.next_inj hbB hp (e.trans hpn.symm) he
    · intro hlow b hb hblt
      obtain ⟨-, hbB⟩ := Finset.mem_erase.mp hb
      rw [join_lfree] at hblt
      rw [join_used]
      split_ifs at hblt with hlf
      · exact hlow b hbB (by omega)
      · exact hlow b hbB hblt
  · refine ⟨B, Plugged.refl t hl, ?_, id⟩
    intro b hb he
    refine (hco b hb he).elim (fun e => Or.inl ?_) id
    -- `b` is the block before `m`, and that one is used
    have hp := t.prev b hb he
    rw [e] at hp
    have hbm : b ≠ m := by
      rintro rfl
      omega
    by_contra hbu
    exact hjoin ⟨hp ▸ hbm, by rw [hp]; simpa using hbu⟩

/-- **`plug_holes`** at an unused block restores that no two neighbours are unused. -/
theorem plugHoles_spec (t : Tiled c h B) (hm : m ∈ B) (hu : (h.mem m).used = false)
    (hl : LfreeOk h B)
    (hco : ∀ b ∈ B, (h.mem b).next ≠ h.heapEnd → b = m ∨ (h.mem b).next = m ∨
      (h.mem b).used = true ∨ (h.mem (h.mem b).next).used = true) :
    ∃ B', Plugged c h B (plugHoles h m) B' ∧ Coalesced (plugHoles h m) B' ∧
      ((∀ b ∈ B, b < h.lfree → b ≠ m → (h.mem b).used = true) →
        h.lfree ≤ m ∨ (h.lfree = (h.mem m).next ∧ (h.mem m).next ≠ h.heapEnd) →
        LfreeLowest (plugHoles h m) B') := by
  obtain ⟨B₁, p₁, hm₁, hu₁, hco₁, hlow₁⟩ := plugForward_spec t hm hu hl hco
  have hco₁' := p₁.region.heapEnd ▸ hco₁
  obtain ⟨B₂, p₂, hco₂, hlow₂⟩ := plugBackward_spec p₁.tiled hm₁ hu₁ p₁.lfreeOk hco₁'
  exact ⟨B₂, p₁.trans p₂, hco₂, fun ha hb => hlow₂ (hlow₁ ha hb)⟩

end Plug

/-! ## The invariant -/

/-- What holds between two calls, for the blocks `B` and the pointers `live` that the callers hold. -/
structure HeapInv (c : MemCfg) (h : Heap) (B : Finset Nat) (live : List Nat) : Prop where
  tiled : Tiled c h B
  coalesced : Coalesced h B
  lfreeOk : LfreeOk h B
  usedMem_eq : h.usedMem = usedSum h B
  data_pos : ∀ b ∈ usedBlocks h B, b + c.sizeofStructMem < (h.mem b).next
  nodup : live.Nodup
  live_iff : ∀ p, p ∈ live ↔ ∃ b ∈ usedBlocks h B, p = h.heapPtr + b + c.sizeofStructMem

/-- A live pointer passes the checks of `rt_free` and `rt_realloc` and names a used block. -/
theorem HeapInv.header_of_live (hi : HeapInv c h B live) {p : Nat} (hp : p ∈ live) :
    h.header c p ∈ usedBlocks h B ∧ p = h.heapPtr + h.header c p + c.sizeofStructMem ∧
      h.inRange p ∧ p ≠ 0 := by
  obtain ⟨b, hb, rfl⟩ := (hi.live_iff p).mp hp
  have hS := c.sizeofStructMem_pos
  have hd := hi.data_pos b hb
  have hle := hi.tiled.next_le b (mem_usedBlocks.mp hb).1
  have hbh : h.header c (h.heapPtr + b + c.sizeofStructMem) = b := by
    unfold Heap.header
    omega
  refine ⟨by rwa [hbh], by rw [hbh], ?_, by omega⟩
  unfold Heap.inRange
  omega

/-- `lfree` is a header of the chain. -/
theorem LfreeOk.mem_or (hl : LfreeOk h B) : h.lfree ∈ B ∨ h.lfree = h.heapEnd :=
  hl.imp_left And.left

/-! ## `rt_free` -/

section Free

variable {m : Nat}

@[simp] theorem freeMark_next (x : Nat) : ((freeMark c h m).mem x).next = (h.mem x).next := by
  by_cases hlt : m < h.lfree <;> by_cases hx : x = m <;> simp [freeMark, hlt, hx]

@[simp] theorem freeMark_prev (x : Nat) : ((freeMark c h m).mem x).prev = (h.mem x).prev := by
  by_cases hlt : m < h.lfree <;> by_cases hx : x = m <;> simp [freeMark, hlt, hx]

theorem freeMark_used (x : Nat) :
    ((freeMark c h m).mem x).used = if x = m then false else (h.mem x).used := by
  by_cases hlt : m < h.lfree <;> by_cases hx : x = m <;> simp [freeMark, hlt, hx]

theorem freeMark_lfree : (freeMark c h m).lfree = if m < h.lfree then m else h.lfree := by
  by_cases hlt : m < h.lfree <;> simp [freeMark, hlt]

theorem freeMark_usedMem :
    (freeMark c h m).usedMem = c.sub h.usedMem (c.sub (h.mem m).next m) := by
  by_cases hlt : m < h.lfree <;> simp [freeMark, hlt]

theorem freeMark_region : SameRegion h (freeMark c h m) := by
  by_cases hlt : m < h.lfree <;> constructor <;> simp [freeMark, hlt]

theorem freeMark_usedBlocks : usedBlocks (freeMark c h m) B = (usedBlocks h B).erase m := by
  ext b
  simp only [mem_usedBlocks, Finset.mem_erase, freeMark_used]
  by_cases hb : b = m <;> simp [hb]

/-- **`rt_free`** of a live pointer keeps the invariant, and keeps `lfree` lowest. -/
theorem rtFree_spec (hi : HeapInv c h B live) {p : Nat} (hp : p ∈ live) :
    ∃ B', HeapInv c (rtFree c h p) B' (live.erase p) ∧ SameRegion h (rtFree c h p) ∧
      (LfreeLowest h B → LfreeLowest (rtFree c h p) B') := by
  obtain ⟨hm, hpm, hrange, hp0⟩ := hi.header_of_live hp
  generalize hmdef : h.header c p = m at hm hpm
  obtain ⟨hmB, hmu⟩ := mem_usedBlocks.mp hm
  have t := hi.tiled
  have t₁ : Tiled c (freeMark c h m) B :=
    t.congr freeMark_region (fun _ => freeMark_next _) (fun _ => freeMark_prev _)
      (by rw [freeMark_used, if_neg (t.lt_end hmB).ne'])
  have hu₁ : ((freeMark c h m).mem m).used = false := by rw [freeMark_used, if_pos rfl]
  have hl₁ : LfreeOk (freeMark c h m) B := by
    unfold LfreeOk
    rw [freeMark_lfree, freeMark_used, freeMark_region.heapEnd]
    rcases hi.lfreeOk with ⟨hlB, hlu⟩ | he
    · by_cases hlt : m < h.lfree
      · rw [if_pos hlt, if_pos rfl]
        exact Or.inl ⟨hmB, rfl⟩
      · rw [if_neg hlt, if_neg fun e => by simp [e, hmu] at hlu]
        exact Or.inl ⟨hlB, hlu⟩
    · rw [if_pos (he ▸ t.lt_end hmB)]
      exact Or.inl ⟨hmB, if_pos rfl⟩
  obtain ⟨B', hplug, hco, hlow⟩ := plugHoles_spec t₁ hmB hu₁ hl₁ (by
    intro b hb he
    rw [freeMark_next, freeMark_used, freeMark_used]
    rw [freeMark_next, freeMark_region.heapEnd] at he
    by_cases hbm : b = m
    · exact Or.inl hbm
    · by_cases hnm : (h.mem b).next = m
      · exact Or.inr (Or.inl hnm)
      · rw [if_neg hbm, if_neg hnm]
        exact Or.inr (Or.inr (hi.coalesced b hb he)))
  have hfree : rtFree c h p = plugHoles (freeMark c h m) m := by
    rw [rtFree, if_neg hp0, if_neg (not_not.mpr hrange), hmdef]
  have hreg : SameRegion h (plugHoles (freeMark c h m) m) := freeMark_region.trans hplug.region
  have hblocks : usedBlocks (plugHoles (freeMark c h m) m) B' = (usedBlocks h B).erase m :=
    hplug.same.blocks.trans freeMark_usedBlocks
  have hnext : ∀ b ∈ (usedBlocks h B).erase m,
      ((plugHoles (freeMark c h m) m).mem b).next = (h.mem b).next := fun b hb => by
    rw [hplug.same.next b (freeMark_usedBlocks ▸ hb), freeMark_next]
  rw [hfree]
  refine ⟨B', ⟨hplug.tiled, hco, hplug.lfreeOk, ?_, ?_, hi.nodup.erase p, ?_⟩, hreg, ?_⟩
  · have hsum : usedSum (freeMark c h m) B + ((h.mem m).next - m) = usedSum h B := by
      unfold usedSum
      rw [freeMark_usedBlocks, Finset.sum_congr rfl fun b _ => by rw [freeMark_next]]
      exact Finset.sum_erase_add _ _ hm
    have hle := t.usedSum_le
    have hend := t.end_lt
    rw [hplug.usedMem, freeMark_usedMem, hplug.same.usedSum_eq, t.sub_length hmB, hi.usedMem_eq,
      c.sub_of_le (by omega) (by omega)]
    omega
  · intro b hb
    rw [hblocks] at hb
    rw [hnext b hb]
    exact hi.data_pos b (Finset.mem_of_mem_erase hb)
  · intro q
    rw [hi.nodup.mem_erase_iff, hi.live_iff, hblocks, hreg.heapPtr]
    constructor
    · rintro ⟨hqp, b, hb, rfl⟩
      refine ⟨b, Finset.mem_erase.mpr ⟨fun e => hqp ?_, hb⟩, rfl⟩
      rw [hpm, e]
    · rintro ⟨b, hb, rfl⟩
      obtain ⟨hbm, hb⟩ := Finset.mem_erase.mp hb
      exact ⟨fun e => hbm (by omega), b, hb, rfl⟩
  · intro hll
    refine hlow (fun b hb hlt hbm => ?_) (Or.inl ?_)
    · rw [freeMark_used, if_neg hbm]
      rw [freeMark_lfree] at hlt
      exact hll b hb (by split_ifs at hlt <;> omega)
    · rw [freeMark_lfree]
      split_ifs <;> omega

end Free

end CoreLink.RtThread.Mem
