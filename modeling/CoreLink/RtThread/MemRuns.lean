/-
# `CoreLink.RtThread.MemRuns` — the heap under any sequence of calls.

The system is the heap together with the pointers that the callers hold. A step is one call of `rt_malloc`,
`rt_realloc` or `rt_free`, the last two on a pointer held or on `RT_NULL`, or a write by the application inside
a block it holds. A call that does not return is no step. `WellFormed` is the heap seen from outside, through the
headers reachable from the offset 0; the blocks of the invariant are exactly these headers (`reach_iff`).
-/
import CoreLink.RtThread.MemAlloc
import CoreLink.Lib.Run
import Mathlib.Order.CompletePartialOrder

namespace CoreLink.RtThread.Mem

open CoreLink.Lib

/-! ## The system -/

/-- The heap and the pointers held. -/
structure Sys where
  heap : Heap
  live : List Nat

/-- What the application does; `write` changes what the bytes at an offset read as, if taken for a header. -/
inductive Call where
  | malloc (size : Nat)
  | realloc (rmem newsize : Nat)
  | free (rmem : Nat)
  | write (o : Nat) (v : HeapMem)

/-- The offset `o` is strictly inside the block of the pointer `p`. -/
def insideBlock (c : MemCfg) (h : Heap) (o p : Nat) : Bool :=
  h.header c p < o && o < (h.mem (h.header c p)).next

/-- One call; `none` when it is not allowed, or does not return within the fuel. -/
def exec (c : MemCfg) (fuel : Nat) (s : Sys) : Call → Option Sys
  | .malloc size =>
      (rtMalloc c fuel s.heap size).map fun r => ⟨r.1, if r.2 = 0 then s.live else r.2 :: s.live⟩
  | .realloc rmem newsize =>
      if rmem ∈ s.live ∨ rmem = 0 then
        (rtRealloc c fuel s.heap rmem newsize).map fun r =>
          ⟨r.1, heldAfterRealloc c s.live rmem newsize r.2⟩
      else none
  | .free rmem =>
      if rmem ∈ s.live ∨ rmem = 0 then some ⟨rtFree c s.heap rmem, s.live.erase rmem⟩ else none
  | .write o v =>
      if s.live.any (insideBlock c s.heap o) then some ⟨s.heap.modify o fun _ => v, s.live⟩ else none

/-- The step relation: the call returns. -/
def Step (c : MemCfg) (s : Sys) (l : Call) (s' : Sys) : Prop := ∃ fuel, exec c fuel s l = some s'

/-- The calls one after the other. -/
def execAll (c : MemCfg) (fuel : Nat) (s : Sys) (ls : List Call) : Option Sys := ls.foldlM (exec c fuel) s

theorem run_of_execAll {c : MemCfg} {s s' : Sys} {ls : List Call} (fuel : Nat)
    (h : execAll c fuel s ls = some s') : Run (Step c) s ls s' :=
  Run.of_foldlM (fun _ _ _ hs => ⟨fuel, hs⟩) h

/-! ## The invariant over runs -/

section Invariant

variable {c : MemCfg} {h h₀ : Heap} {B : Finset Nat} {live : List Nat} {s s' : Sys} {l : Call}

/-- What `rt_system_heap_init` sets up. -/
theorem rtSystemHeapInit_spec {m₀ : Nat → HeapMem} {b e : Nat}
    (hinit : rtSystemHeapInit c m₀ b e = some h₀) :
    h₀.mem 0 = { magic := heapMagic, used := false, next := h₀.heapEnd, prev := 0 } ∧
    h₀.mem h₀.heapEnd = { magic := heapMagic, used := true, next := h₀.heapEnd, prev := h₀.heapEnd } ∧
    h₀.lfree = 0 ∧ h₀.usedMem = 0 ∧ h₀.heapEnd = h₀.memSizeAligned + c.sizeofStructMem ∧
    h₀.heapEnd + c.sizeofStructMem < 2 ^ c.wordBits := by
  unfold rtSystemHeapInit at hinit
  simp only at hinit
  split_ifs at hinit with hfit
  obtain rfl := Option.some.inj hinit
  have hS := c.sizeofStructMem_pos
  have hend : c.rtAlignDown e < 2 ^ c.wordBits := Word.alignDown_lt _ _ e
  refine ⟨?_, Function.update_self .., rfl, rfl, rfl, ?_⟩
  · simp only
    rw [Function.update_of_ne (by omega), Function.update_self]
  · simp only
    omega

/-- **`rt_system_heap_init`** leaves one unused block, at `lfree`. -/
theorem heapInv_init {m₀ : Nat → HeapMem} {b e : Nat} (hinit : rtSystemHeapInit c m₀ b e = some h₀) :
    HeapInv c h₀ {0} [] ∧ LfreeLowest h₀ {0} := by
  obtain ⟨hm0, hmend, hlf, hum, heq, hlt⟩ := rtSystemHeapInit_spec hinit
  have hS := c.sizeofStructMem_pos
  have hblocks : usedBlocks h₀ {0} = ∅ := by
    ext x
    simp only [mem_usedBlocks, Finset.mem_singleton, Finset.notMem_empty, iff_false, not_and]
    rintro rfl
    simp [hm0]
  refine ⟨⟨?_, ?_, ?_, ?_, ?_, List.nodup_nil, ?_⟩, ?_⟩
  · refine ⟨Finset.mem_singleton_self 0, ?_, ?_, ?_, ?_, ?_, ?_, ?_, ?_, heq, hlt⟩
    all_goals simp only [Finset.mem_singleton, forall_eq, hm0, hmend]
    · omega
    · exact Or.inr trivial
    · exact le_rfl
    · exact fun h => absurd h (lt_irrefl 0)
    · exact fun h => absurd rfl h
  · intro b hb he
    obtain rfl := Finset.mem_singleton.mp hb
    exact absurd (by rw [hm0]) he
  · exact Or.inl (by simp [hlf, hm0])
  · rw [hum, usedSum, hblocks, Finset.sum_empty]
  · simp [hblocks]
  · simp [hblocks]
  · intro b hb hlt
    omega

/-- A write inside a block that the caller holds reaches no header of the chain. -/
theorem HeapInv.write (hi : HeapInv c h B live) {o p : Nat} {v : HeapMem} (hp : p ∈ live)
    (ho : insideBlock c h o p) :
    HeapInv c (h.modify o fun _ => v) B live ∧
      (LfreeLowest h B → LfreeLowest (h.modify o fun _ => v) B) := by
  have t := hi.tiled
  obtain ⟨hb, -, -, -⟩ := hi.header_of_live hp
  have hbB := (mem_usedBlocks.mp hb).1
  obtain ⟨hlo, hhi⟩ : h.header c p < o ∧ o < (h.mem (h.header c p)).next := by
    simpa [insideBlock] using ho
  have hnot : o ∉ B := fun hoB => by
    have := t.no_between _ hbB o hoB hlo
    omega
  have hsame : ∀ x ∈ B, (h.modify o fun _ => v).mem x = h.mem x := fun x hx => by
    rw [Heap.modify_mem, if_neg fun e : x = o => hnot (e ▸ hx)]
  have hend : (h.modify o fun _ => v).mem h.heapEnd = h.mem h.heapEnd := by
    have := t.next_le _ hbB
    rw [Heap.modify_mem, if_neg (by omega)]
  have hblocks : usedBlocks (h.modify o fun _ => v) B = usedBlocks h B :=
    Finset.filter_congr fun x hx => by rw [hsame x hx]
  have hnextB : ∀ x ∈ B, (h.mem x).next ≠ h.heapEnd →
      (h.modify o fun _ => v).mem (h.mem x).next = h.mem (h.mem x).next :=
    fun x hx he => hsame _ ((t.next_mem x hx).resolve_right he)
  refine ⟨⟨?_, ?_, ?_, ?_, ?_, hi.nodup, ?_⟩, ?_⟩
  · constructor
    · exact t.zero_mem
    · exact fun b hb => by rw [hsame b hb]; exact t.gap b hb
    · exact fun b hb => by rw [hsame b hb]; exact t.next_mem b hb
    · exact fun b hb => by rw [hsame b hb]; exact t.next_le b hb
    · exact fun b hb => by rw [hsame b hb]; exact t.no_between b hb
    · intro b hb he
      rw [hsame b hb] at he ⊢
      rw [hnextB b hb he]
      exact t.prev b hb he
    · rw [hsame 0 t.zero_mem]
      exact t.first_prev
    · exact (congrArg HeapMem.used hend).trans t.end_used
    · exact (congrArg HeapMem.next hend).trans t.end_next
    · exact t.end_eq
    · exact t.fits
  · intro b hb he
    rw [hsame b hb] at he ⊢
    rw [hnextB b hb he]
    exact hi.coalesced b hb he
  · exact hi.lfreeOk.imp_left fun hf => ⟨hf.1, by rw [Heap.modify_lfree, hsame _ hf.1]; exact hf.2⟩
  · rw [Heap.modify_usedMem, hi.usedMem_eq]
    unfold usedSum
    rw [hblocks]
    exact Finset.sum_congr rfl fun b hb => by rw [hsame b (mem_usedBlocks.mp hb).1]
  · intro b hb
    rw [hblocks] at hb
    rw [hsame b (mem_usedBlocks.mp hb).1]
    exact hi.data_pos b hb
  · intro q
    rw [hblocks]
    exact hi.live_iff q
  · exact fun hll b hb hlt => by rw [hsame b hb]; exact hll b hb hlt

/-- A cut in place leaves no unused block below `lfree`; other calls never do. -/
def LowestKept (c : MemCfg) (s : Sys) : Call → Prop
  | .realloc rmem newsize => CutAboveLfree c s.heap rmem newsize
  | _ => True

/-- **One step** keeps the invariant, and `LfreeLowest` if it is not a cut below `lfree`. -/
theorem step_inv (hi : HeapInv c s.heap B s.live) (hs : Step c s l s') :
    ∃ B', HeapInv c s'.heap B' s'.live ∧ SameRegion s.heap s'.heap ∧
      (LfreeLowest s.heap B → LowestKept c s l → LfreeLowest s'.heap B') := by
  obtain ⟨fuel, hs⟩ := hs
  cases l with
  | malloc size =>
    obtain ⟨⟨h', p⟩, hm, rfl⟩ := Option.map_eq_some_iff.mp hs
    rcases rtMalloc_spec hi hm with ⟨rfl, rfl⟩ | ⟨B', hi', hreg, hp0, hlow⟩
    · exact ⟨B, hi, SameRegion.refl _, fun hl _ => hl⟩
    · simp only [if_neg hp0]
      exact ⟨B', hi', hreg, fun hl _ => hlow hl⟩
  | realloc rmem newsize =>
    simp only [exec] at hs
    split_ifs at hs with hp
    obtain ⟨⟨h', r⟩, hm, rfl⟩ := Option.map_eq_some_iff.mp hs
    exact rtRealloc_spec hi hp hm
  | free rmem =>
    simp only [exec] at hs
    split_ifs at hs with hp
    obtain rfl := Option.some.inj hs
    obtain ⟨B', hi', hreg, hlow⟩ := rtFree_held hi hp
    exact ⟨B', hi', hreg, fun hl _ => hlow hl⟩
  | write o v =>
    simp only [exec] at hs
    split_ifs at hs with ho
    obtain rfl := Option.some.inj hs
    obtain ⟨p, hp, hin⟩ := List.any_eq_true.mp ho
    obtain ⟨hi', hlow⟩ := hi.write (v := v) hp hin
    exact ⟨B, hi', ⟨rfl, rfl, rfl⟩, fun hl _ => hlow hl⟩

/-- **Every run** from an accepted region keeps the invariant. -/
theorem run_inv {m₀ : Nat → HeapMem} {b e : Nat} {ls : List Call}
    (hinit : rtSystemHeapInit c m₀ b e = some h₀) (hr : Run (Step c) ⟨h₀, []⟩ ls s) :
    ∃ B, HeapInv c s.heap B s.live :=
  hr.invariant (I := fun s => ∃ B, HeapInv c s.heap B s.live) ⟨_, (heapInv_init hinit).1⟩
    fun _ _ _ ⟨_, hi⟩ hs =>
      let ⟨B', hi', _, _⟩ := step_inv hi hs
      ⟨B', hi'⟩

end Invariant

/-! ## The heap seen through its chain of headers -/

/-- The headers that `next` leads to from the offset 0. -/
def Reach (h : Heap) : Nat → Prop :=
  Relation.ReflTransGen (fun x y => x ≠ h.heapEnd ∧ y = (h.mem x).next) 0

/-- The headers reached below `heap_end`. -/
def IsBlock (h : Heap) (o : Nat) : Prop := Reach h o ∧ o ≠ h.heapEnd

/-- **The heap is well formed**: the chain rises to `heap_end` and partitions the region, `prev` inverts `next`,
no two neighbours are free, the pointers held are the used blocks, and `used_mem` adds these up. -/
structure WellFormed (c : MemCfg) (s : Sys) : Prop where
  heapEnd_eq : s.heap.heapEnd = s.heap.memSizeAligned + c.sizeofStructMem
  ends : Reach s.heap s.heap.heapEnd
  increasing : ∀ o, IsBlock s.heap o → o < (s.heap.mem o).next ∧ (s.heap.mem o).next ≤ s.heap.heapEnd
  partitions : ∀ a, a < s.heap.memSizeAligned + c.sizeofStructMem →
    ∃! o, IsBlock s.heap o ∧ o ≤ a ∧ a < (s.heap.mem o).next
  prev_next : ∀ o, IsBlock s.heap o → (s.heap.mem o).next ≠ s.heap.heapEnd →
    (s.heap.mem (s.heap.mem o).next).prev = o
  next_prev : ∀ o, IsBlock s.heap o → o ≠ 0 →
    IsBlock s.heap (s.heap.mem o).prev ∧ (s.heap.mem (s.heap.mem o).prev).next = o
  coalesced : ∀ o, IsBlock s.heap o →
    (s.heap.mem o).used = true ∨ (s.heap.mem (s.heap.mem o).next).used = true
  live_nodup : s.live.Nodup
  live_iff : ∀ p, p ∈ s.live ↔
    ∃ o, IsBlock s.heap o ∧ (s.heap.mem o).used = true ∧ p = s.heap.heapPtr + o + c.sizeofStructMem
  disjoint : ∀ p ∈ s.live, ∀ q ∈ s.live, p ≠ q →
    Disjoint (Set.Ico p (s.heap.heapPtr + (s.heap.mem (s.heap.header c p)).next))
      (Set.Ico q (s.heap.heapPtr + (s.heap.mem (s.heap.header c q)).next))
  usedMem_eq : ∃ U : Finset Nat, (∀ o, o ∈ U ↔ IsBlock s.heap o ∧ (s.heap.mem o).used = true) ∧
    s.heap.usedMem = ∑ o ∈ U, ((s.heap.mem o).next - o)

section Reach

variable {c : MemCfg} {h : Heap} {B : Finset Nat} {live : List Nat} {s : Sys}

/-- The headers reached are the blocks of the tiling and `heap_end`. -/
theorem Tiled.reach_iff (t : Tiled c h B) {o : Nat} : Reach h o ↔ o ∈ B ∨ o = h.heapEnd := by
  constructor
  · intro hr
    induction hr with
    | refl => exact Or.inl t.zero_mem
    | tail _ hxy ih =>
      obtain ⟨hne, rfl⟩ := hxy
      exact t.next_mem _ (ih.resolve_right hne)
  · have hB : ∀ o ∈ B, Reach h o := by
      intro o
      induction o using Nat.strong_induction_on with
      | _ o ih =>
        intro ho
        by_cases h0 : o = 0
        · exact h0 ▸ .refl
        · obtain ⟨x, hx, hxo⟩ := t.exists_pred ho h0
          exact (ih x (hxo ▸ t.lt_next hx) hx).tail ⟨(t.lt_end hx).ne, hxo.symm⟩
    rintro (ho | rfl)
    · exact hB o ho
    · -- the block that holds the last byte below `heap_end` is followed by it
      have h0 := t.lt_end t.zero_mem
      obtain ⟨x, ⟨hx, hxa, hax⟩, -⟩ := t.exists_block (show h.heapEnd - 1 < h.heapEnd by omega)
      have hle := t.next_le x hx
      exact (hB x hx).tail ⟨(t.lt_end hx).ne, by omega⟩

theorem Tiled.isBlock_iff (t : Tiled c h B) {o : Nat} : IsBlock h o ↔ o ∈ B := by
  rw [IsBlock, t.reach_iff]
  exact ⟨fun ho => ho.1.resolve_right ho.2, fun ho => ⟨Or.inl ho, (t.lt_end ho).ne⟩⟩

/-- The invariant gives a well-formed heap. -/
theorem HeapInv.wellFormed (hi : HeapInv c s.heap B s.live) : WellFormed c s := by
  have t := hi.tiled
  constructor
  case heapEnd_eq => exact t.end_eq
  case ends => exact t.reach_iff.mpr (Or.inr rfl)
  case live_nodup => exact hi.nodup
  case disjoint =>
    intro p hp q hq hpq
    obtain ⟨hb, hpb, -, -⟩ := hi.header_of_live hp
    obtain ⟨hb', hqb, -, -⟩ := hi.header_of_live hq
    have hne : s.heap.header c p ≠ s.heap.header c q := fun e => hpq (by rw [hpb, hqb, e])
    have hdisj := t.disjoint_blocks (mem_usedBlocks.mp hb).1 (mem_usedBlocks.mp hb').1 hne
    rw [Set.disjoint_left]
    rintro a ⟨hpa, hap⟩ ⟨hqa, haq⟩
    omega
  all_goals simp only [t.isBlock_iff]
  case increasing => exact fun o ho => ⟨t.lt_next ho, t.next_le o ho⟩
  case partitions => exact fun a ha => t.exists_block (t.end_eq ▸ ha)
  case prev_next => exact t.prev
  case next_prev => exact fun o ho h0 => t.prev_spec ho h0
  case coalesced =>
    intro o ho
    by_cases he : (s.heap.mem o).next = s.heap.heapEnd
    · exact Or.inr (he ▸ t.end_used)
    · exact hi.coalesced o ho he
  case live_iff =>
    intro p
    simp only [hi.live_iff, mem_usedBlocks, and_assoc]
  case usedMem_eq => exact ⟨usedBlocks s.heap B, fun o => mem_usedBlocks, hi.usedMem_eq⟩

/-- **The heap stays well formed** under every sequence of calls, from every region that
`rt_system_heap_init` accepts. -/
theorem heap_wellFormed (c : MemCfg) (m₀ : Nat → HeapMem) (beginAddr endAddr : Nat) (h₀ : Heap)
    (ls : List Call) (s : Sys) (hinit : rtSystemHeapInit c m₀ beginAddr endAddr = some h₀)
    (hrun : Run (Step c) ⟨h₀, []⟩ ls s) : WellFormed c s := by
  obtain ⟨B, hi⟩ := run_inv hinit hrun
  exact hi.wellFormed

/-- A 32-bit target: 4-byte alignment, 12-byte headers, `MIN_SIZE` 12. -/
def cfg32 : MemCfg where
  wordBits := 32
  alignBits := 2
  sizeofHeapMem := 12
  minSize := 12
  minSize_pos := by decide
  minSize_le := by decide
  fits := by decide

/-- A region of zero bytes from address 4096 to 4608. -/
def region512 : Option Heap := rtSystemHeapInit cfg32 (fun _ => ⟨0, false, 0, 0⟩) 4096 4608

/-- Two blocks, a cut of the first in place, a free of the second that merges on both sides. -/
theorem heap_wellFormed_run : ∃ h₀ s, region512 = some h₀ ∧
    execAll cfg32 8 ⟨h₀, []⟩ [.malloc 100, .malloc 20, .write 16 ⟨7, true, 7, 7⟩, .realloc 4108 20, .free 4220]
      = some s ∧ WellFormed cfg32 s := by
  refine ⟨_, _, rfl, rfl, ?_⟩
  exact heap_wellFormed cfg32 (fun _ => ⟨0, false, 0, 0⟩) 4096 4608 _
    [.malloc 100, .malloc 20, .write 16 ⟨7, true, 7, 7⟩, .realloc 4108 20, .free 4220] _ rfl
    (run_of_execAll 8 rfl)

end Reach

end CoreLink.RtThread.Mem
