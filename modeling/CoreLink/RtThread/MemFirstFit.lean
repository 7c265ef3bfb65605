/-
# `CoreLink.RtThread.MemFirstFit` — what `rt_malloc` finds.

`lfree` is meant to be the lowest unused block, where the search of `rt_malloc` starts. `rt_free` lowers it,
`rt_malloc` raises it; `rt_realloc` does neither when it cuts a block in place, so a cut below `lfree` hides the
remainder (`shrink_hides`). The search also has a bound, `mem_size_aligned - size`, that leaves out one block: the
one that ends at `heap_end` and fits exactly. And where the whole region is smaller than `MIN_SIZE_ALIGNED` the
bound wraps and the search does not end. `malloc_complete` says that these three are all that can go wrong.
-/
import CoreLink.RtThread.MemRuns

namespace CoreLink.RtThread.Mem

open CoreLink.Lib

variable {c : MemCfg} {h h' : Heap} {B B' : Finset Nat} {live : List Nat} {s s' : Sys}

/-! ## The two loops end -/

theorem mallocSearch_mono {size fuel fuel' ptr : Nat} {r : Option Nat} (hle : fuel ≤ fuel')
    (hs : mallocSearch c h size fuel ptr = some r) : mallocSearch c h size fuel' ptr = some r := by
  induction fuel generalizing fuel' ptr with
  | zero => simp [mallocSearch] at hs
  | succ fuel ih =>
    obtain ⟨fuel', rfl⟩ : ∃ k, fuel' = k + 1 := ⟨fuel' - 1, by omega⟩
    rw [mallocSearch] at hs ⊢
    split_ifs at hs ⊢
    · exact hs
    · exact ih (by omega) hs
    · exact hs

theorem lfreeAdvance_mono {fuel fuel' : Nat} (hle : fuel ≤ fuel') (ha : lfreeAdvance fuel h = some h') :
    lfreeAdvance fuel' h = some h' := by
  induction fuel generalizing fuel' h with
  | zero => simp [lfreeAdvance] at ha
  | succ fuel ih =>
    obtain ⟨fuel', rfl⟩ : ∃ k, fuel' = k + 1 := ⟨fuel' - 1, by omega⟩
    rw [lfreeAdvance] at ha ⊢
    split_ifs at ha ⊢
    · exact ih (by omega) ha
    · exact ha

/-- A search whose bound is below `heap_end` ends: `ptr` moves up the chain. -/
theorem mallocSearch_ends (t : Tiled c h B) {size ptr : Nat}
    (hbound : c.sub h.memSizeAligned size ≤ h.heapEnd) (hptr : ptr ∈ B ∨ ptr = h.heapEnd) :
    ∃ fuel r, mallocSearch c h size fuel ptr = some r := by
  induction hk : h.heapEnd - ptr using Nat.strong_induction_on generalizing ptr with
  | _ k ih =>
    by_cases hlt : ptr < c.sub h.memSizeAligned size
    · have hp : ptr ∈ B := hptr.resolve_right (by omega)
      have hup := t.lt_next hp
      obtain ⟨fuel, r, hr⟩ := ih _ (by omega) (t.next_mem ptr hp) rfl
      by_cases hfit : (h.mem ptr).used = false ∧ size ≤ c.sub (h.mem ptr).next (ptr + c.sizeofStructMem)
      · exact ⟨1, some ptr, by rw [mallocSearch, if_pos hlt, if_pos hfit]⟩
      · exact ⟨fuel + 1, r, by rw [mallocSearch, if_pos hlt, if_neg hfit, hr]⟩
    · exact ⟨1, none, by rw [mallocSearch, if_neg hlt]⟩

theorem lfreeAdvance_ends (t : Tiled c h B) (hl : h.lfree ∈ B ∨ h.lfree = h.heapEnd) :
    ∃ fuel h', lfreeAdvance fuel h = some h' := by
  induction hk : h.heapEnd - h.lfree using Nat.strong_induction_on generalizing h with
  | _ k ih =>
    by_cases hgo : (h.mem h.lfree).used = true ∧ h.lfree ≠ h.heapEnd
    · have hlB := hl.resolve_right hgo.2
      have hup := t.lt_next hlB
      have t' : Tiled c { h with lfree := (h.mem h.lfree).next } B :=
        t.congr ⟨rfl, rfl, rfl⟩ (fun _ => rfl) (fun _ => rfl) rfl
      have hend := t.lt_end hlB
      obtain ⟨fuel, h', hr⟩ :=
        ih (h.heapEnd - (h.mem h.lfree).next) (by omega) t' (t.next_mem _ hlB) rfl
      exact ⟨fuel + 1, h', by rw [lfreeAdvance, if_pos hgo, hr]⟩
    · exact ⟨1, h, by rw [lfreeAdvance, if_neg hgo]⟩

/-! ## When `rt_malloc` returns, and what -/

/-- `rt_malloc (n)` returns. -/
def Returns (c : MemCfg) (h : Heap) (n : Nat) : Prop := ∃ fuel r, rtMalloc c fuel h n = some r

/-- `rt_malloc (n)` returns `RT_NULL`. -/
def ReturnsNull (c : MemCfg) (h : Heap) (n : Nat) : Prop := ∃ fuel h', rtMalloc c fuel h n = some (h', 0)

/-- The free block at `o` has a data area of at least `max (RT_ALIGN (n), MIN_SIZE_ALIGNED)` bytes. -/
def FitsAt (c : MemCfg) (h : Heap) (n o : Nat) : Prop :=
  IsBlock h o ∧ (h.mem o).used = false ∧
    max (c.rtAlign n) c.minSizeAligned ≤ (h.mem o).next - (o + c.sizeofStructMem)

/-- The block at `o` ends at `heap_end` and has exactly the size that `rt_malloc (n)` needs. -/
def ExactAtTop (c : MemCfg) (h : Heap) (n o : Nat) : Prop :=
  (h.mem o).next = h.heapEnd ∧
    (h.mem o).next - (o + c.sizeofStructMem) = max (c.rtAlign n) c.minSizeAligned

theorem blockSize_eq (n : Nat) : blockSize c n = max (c.rtAlign n) c.minSizeAligned := by
  unfold blockSize
  split_ifs <;> omega

theorem Tiled.fitsAt_iff (t : Tiled c h B) {n o : Nat} :
    FitsAt c h n o ↔ o ∈ B ∧ (h.mem o).used = false ∧
      o + c.sizeofStructMem + blockSize c n ≤ (h.mem o).next := by
  have hpos := blockSize_pos (c := c) n
  rw [FitsAt, t.isBlock_iff, ← blockSize_eq]
  exact and_congr_right fun ho => and_congr_right fun _ => by
    have := t.gap o ho
    omega

/-- A data area is no larger than the region. -/
theorem Tiled.data_le (t : Tiled c h B) {o : Nat} (ho : o ∈ B) :
    (h.mem o).next ≤ o + c.sizeofStructMem + h.memSizeAligned := by
  have := t.next_le o ho
  have := t.end_eq
  omega

/-- Where the region is smaller than `MIN_SIZE_ALIGNED` the search bound wraps: the search never ends. -/
theorem mallocSearch_diverges (t : Tiled c h B) {size ptr : Nat} (hlt : h.memSizeAligned < size)
    (hsize : size ≤ c.sizeofStructMem) (hptr : ptr ∈ B ∨ ptr = h.heapEnd) (fuel : Nat) :
    mallocSearch c h size fuel ptr = none := by
  have hfits := t.fits
  have heq := t.end_eq
  induction fuel generalizing ptr with
  | zero => rfl
  | succ fuel ih =>
    have hbound : ptr < c.sub h.memSizeAligned size := by
      have hle : ptr ≤ h.heapEnd := hptr.elim (fun hp => (t.lt_end hp).le) le_of_eq
      have hsub : c.sub h.memSizeAligned size = h.memSizeAligned + 2 ^ c.wordBits - size :=
        Word.sub_of_lt hlt (by omega)
      omega
    rw [mallocSearch, if_pos hbound]
    rcases hptr with hp | rfl
    · have hdata := t.data_le hp
      rw [if_neg (by rw [t.sub_data hp]; omega)]
      exact ih (t.next_mem ptr hp)
    · rw [if_neg (by simp [t.end_used])]
      exact ih (Or.inr t.end_next)

/-- What `rt_malloc` does with the result of the search returns. -/
theorem returns_of_search (hi : HeapInv c h B live) {n fuel : Nat} {r : Option Nat}
    (hr : mallocSearch c h (blockSize c n) fuel h.lfree = some r) : Returns c h n := by
  by_cases hn : n = 0
  · exact ⟨0, (h, 0), by rw [rtMalloc, if_pos hn]⟩
  by_cases hbig : h.memSizeAligned < c.rtAlign n
  · exact ⟨0, (h, 0), by rw [rtMalloc, if_neg hn, if_pos hbig]⟩
  cases r with
  | none => exact ⟨fuel, (h, 0), by rw [rtMalloc, if_neg hn, if_neg hbig, hr]⟩
  | some q =>
    obtain ⟨hq, hu, hroom, -⟩ := mallocSearch_some hi.tiled hr hi.lfreeOk.mem_or
    obtain ⟨B₁, hp⟩ := mallocTake_spec hi.tiled hi.coalesced hq hu hroom
    obtain ⟨fuel', h₂, ha⟩ := lfreeAdvance_ends hp.tiled
      (by rw [hp.lfree, hp.region.heapEnd]; exact hi.lfreeOk.mem_or.imp_left (hp.subset ·))
    refine ⟨max fuel fuel', ?_⟩
    simp only [rtMalloc, if_neg hn, if_neg hbig, mallocSearch_mono (le_max_left fuel fuel') hr,
      lfreeAdvance_mono (le_max_right fuel fuel') ha]
    split_ifs
    · exact ⟨_, rfl⟩
    · exact ⟨_, rfl⟩

/-- **Termination.** A request makes `rt_malloc` return exactly when it is refused for its size, or
`MIN_SIZE_ALIGNED` bytes fit in the region. -/
theorem returns_iff (hi : HeapInv c h B live) {n : Nat} (hn : n ≠ 0) :
    Returns c h n ↔ h.memSizeAligned < c.rtAlign n ∨ c.minSizeAligned ≤ h.memSizeAligned := by
  have t := hi.tiled
  have hfits := t.fits
  have heq := t.end_eq
  by_cases hbig : h.memSizeAligned < c.rtAlign n
  · exact iff_of_true ⟨0, (h, 0), by rw [rtMalloc, if_neg hn, if_pos hbig]⟩ (Or.inl hbig)
  by_cases hmin : c.minSizeAligned ≤ h.memSizeAligned
  · refine iff_of_true ?_ (Or.inr hmin)
    have hsize : blockSize c n ≤ h.memSizeAligned := by rw [blockSize_eq]; omega
    have hbound : c.sub h.memSizeAligned (blockSize c n) ≤ h.heapEnd := by
      rw [MemCfg.sub_of_le c hsize (by omega)]
      omega
    obtain ⟨fuel, r, hr⟩ := mallocSearch_ends t hbound hi.lfreeOk.mem_or
    exact returns_of_search hi hr
  · refine iff_of_false ?_ (by omega)
    rintro ⟨fuel, r, hr⟩
    have hsize := c.minSizeAligned_le
    rw [rtMalloc, if_neg hn, if_neg hbig, mallocSearch_diverges t (by rw [blockSize_eq]; omega)
      (by rw [blockSize_eq]; omega) hi.lfreeOk.mem_or] at hr
    simp at hr

/-- The search leaves out a block that fits only if the block ends at `heap_end` and fits exactly. -/
theorem Tiled.exactAtTop (t : Tiled c h B) {n o : Nat} (ho : FitsAt c h n o)
    (hbound : c.sub h.memSizeAligned (blockSize c n) ≤ o) : ExactAtTop c h n o := by
  obtain ⟨hoB, -, hroom⟩ := t.fitsAt_iff.mp ho
  have hle := t.next_le o hoB
  have heq := t.end_eq
  have hend := t.end_lt
  rw [c.sub_of_le (by omega) (by omega)] at hbound
  rw [ExactAtTop, ← blockSize_eq]
  omega

/-- A block that fits exactly below `heap_end` is outside the search bound. -/
theorem Tiled.not_lt_bound (t : Tiled c h B) {n o : Nat} (ho : FitsAt c h n o) (he : ExactAtTop c h n o) :
    ¬ o < c.sub h.memSizeAligned (blockSize c n) := by
  obtain ⟨hoB, -, hroom⟩ := t.fitsAt_iff.mp ho
  have heq := t.end_eq
  have hend := t.end_lt
  rw [ExactAtTop, ← blockSize_eq] at he
  rw [c.sub_of_le (by omega) (by omega)]
  omega

/-- **Completeness.** With `lfree` lowest, `rt_malloc` returns `RT_NULL` only if nothing fits, except where all
that fits is the block at the top and that exactly. -/
theorem null_iff (hi : HeapInv c h B live) (hl : LfreeLowest h B) {n : Nat} (hn : n ≠ 0) :
    (ReturnsNull c h n → ∀ o, ¬ FitsAt c h n o) ↔
      ((∃ o, FitsAt c h n o) → ∃ o, FitsAt c h n o ∧ ¬ ExactAtTop c h n o) := by
  have t := hi.tiled
  constructor
  · rintro hnull ⟨o, ho⟩
    by_contra! hall
    obtain ⟨hoB, -, hroom⟩ := t.fitsAt_iff.mp ho
    have hdata := t.data_le hoB
    rw [blockSize_eq] at hroom
    obtain ⟨fuel, ⟨h', p⟩, hr⟩ := (returns_iff hi hn).mpr (Or.inr (by omega))
    rcases rtMalloc_cases hi hr with ⟨rfl, -, -⟩ | ⟨q, -, -, -, hs, -⟩
    · exact hnull ⟨fuel, h', hr⟩ o ho
    · -- the block found fits, so it is the one at the top, which the search cannot reach
      obtain ⟨hq, hu, hroomq, hlt⟩ := mallocSearch_some t hs hi.lfreeOk.mem_or
      have hfit : FitsAt c h n q := t.fitsAt_iff.mpr ⟨hq, hu, hroomq⟩
      exact t.not_lt_bound hfit (hall q hfit) hlt
  · rintro hcond ⟨fuel, h', hr⟩ o ho
    obtain ⟨o', ho', hne⟩ := hcond ⟨o, ho⟩
    obtain ⟨hoB, hu, hroom⟩ := t.fitsAt_iff.mp ho'
    have hle : h.lfree ≤ o' := by
      by_contra hlt
      simp [hl o' hoB (by omega)] at hu
    have hlt : o' < c.sub h.memSizeAligned (blockSize c n) :=
      not_le.mp fun e => hne (t.exactAtTop ho' e)
    have hdata := t.data_le hoB
    rcases rtMalloc_cases hi hr with ⟨-, -, h0 | hbig | hs⟩ | ⟨q, -, -, -, -, -, -, -, -, -, -, hp⟩
    · exact hn h0
    · rw [blockSize_eq] at hroom
      omega
    · have := mallocSearch_none t hs hi.lfreeOk.mem_or hoB hle hlt hu
      omega
    · have := c.sizeofStructMem_pos
      omega

/-! ## A cut below `lfree` hides the remainder -/

section Hide

variable {m ptr n : Nat}

theorem plugForward_used (x : Nat) : ((plugForward h m).mem x).used = (h.mem x).used := by
  unfold plugForward
  simp only
  split_ifs
  · exact join_used x
  · rfl

/-- The forward half moves `lfree` only away from the block behind `m`. -/
theorem plugForward_lfree (hl : (h.mem m).next ≠ h.lfree ∨ h.lfree = h.heapEnd) :
    (plugForward h m).lfree = h.lfree := by
  unfold plugForward
  simp only
  split_ifs with hjoin
  · rw [join_lfree, if_neg fun e => ?_]
    exact hl.elim (fun hne => hne e.symm) fun he => hjoin.2.2 (e ▸ he)
  · rfl

/-- The forward half leaves `m`'s own `prev` and the `next` of the other blocks. -/
theorem plugForward_links (t : Tiled c h B) (hm : m ∈ B) {x : Nat} (hx : x ≠ m) :
    ((plugForward h m).mem m).prev = (h.mem m).prev ∧
      ((plugForward h m).mem x).next = (h.mem x).next := by
  unfold plugForward
  simp only
  split_ifs with hjoin
  · have h1 := t.lt_next hm
    have h2 := t.lt_next ((t.next_mem m hm).resolve_right hjoin.2.2)
    rw [join_prev hjoin.1, if_neg (by omega), join_next hjoin.1, if_neg hx]
    exact ⟨rfl, rfl⟩
  · exact ⟨rfl, rfl⟩

/-- A cut of a block that is not below `lfree`, with something else than `lfree` behind it, leaves the remainder
unused and `lfree` where it was, above. -/
theorem shrink_hides (hi : HeapInv c h B live) (hp : ptr ∈ usedBlocks h B)
    (hroom : ptr + c.sizeofStructMem + n + c.sizeofStructMem ≤ (h.mem ptr).next)
    (hcut : ¬ (h.lfree < ptr ∨ ((h.mem ptr).next = h.lfree ∧ h.lfree ≠ h.heapEnd))) :
    ((shrink c h ptr n).mem ptr).next = ptr + c.sizeofStructMem + n ∧
      ((shrink c h ptr n).mem (ptr + c.sizeofStructMem + n)).used = false ∧
      (shrink c h ptr n).lfree = h.lfree ∧ ptr + c.sizeofStructMem + n < h.lfree := by
  obtain ⟨hpB, hpu⟩ := mem_usedBlocks.mp hp
  have t := hi.tiled
  have hS := c.sizeofStructMem_pos
  have habove : (h.mem ptr).next ≤ h.lfree := by
    rcases hi.lfreeOk with ⟨hlB, hlu⟩ | he
    · have hne : ptr ≠ h.lfree := fun e => by simp [← e, hpu] at hlu
      exact t.no_between ptr hpB _ hlB (by omega)
    · exact he ▸ t.next_le ptr hpB
  unfold shrink
  simp only
  generalize c.sub h.usedMem _ = u
  obtain ⟨h₁, hh₁⟩ : ∃ h₁ : Heap, h₁ = { h with usedMem := u } := ⟨_, rfl⟩
  rw [← hh₁]
  have hmem : h₁.mem = h.mem := by rw [hh₁]
  have hlf : h₁.lfree = h.lfree := by rw [hh₁]
  have hend : h₁.heapEnd = h.heapEnd := by rw [hh₁]
  have t₁ : Tiled c h₁ B := by
    rw [hh₁]
    exact t.congr ⟨rfl, rfl, rfl⟩ (fun _ => rfl) (fun _ => rfl) rfl
  have t₂ := t₁.splitAt hpB (by rwa [hmem])
  have hnext := @splitAt_next c h₁ ptr n (by rw [hmem]; omega)
  have hused := @splitAt_used c h₁ ptr n
  have hprev : ((splitAt c h₁ ptr n).mem (ptr + c.sizeofStructMem + n)).prev = ptr := by
    rw [splitAt_prev, hmem, if_neg (by omega), if_pos rfl]
  generalize hp2 : ptr + c.sizeofStructMem + n = p2 at *
  have hne : ptr ≠ p2 := by omega
  obtain ⟨hfprev, hfnext⟩ := plugForward_links t₂ (Finset.mem_insert_self p2 B) hne
  have hback : plugHoles (splitAt c h₁ ptr n) p2 = plugForward (splitAt c h₁ ptr n) p2 := by
    -- the block in front of the remainder is the one that was cut, and that is used
    unfold plugHoles plugBackward
    simp only [hfprev, hprev, plugForward_used, hused, if_neg hne, hmem, hpu]
    simp
  rw [hback, plugForward_used, hused, if_pos rfl, hfnext, hnext, if_pos rfl, plugForward_lfree, splitAt_lfree, hlf]
  · exact ⟨rfl, rfl, rfl, by omega⟩
  · rw [hnext, splitAt_lfree, splitAt_heapEnd, hlf, hend, if_neg hne.symm, if_pos rfl, hmem]
    by_contra! hcon
    exact hcut (Or.inr hcon)

end Hide

/-- `lfree` is the lowest free block, or `heap_end`. -/
def LowestFree (h : Heap) : Prop := ∀ o, IsBlock h o → (h.mem o).used = false → h.lfree ≤ o

theorem Tiled.lowestFree_iff (t : Tiled c h B) : LowestFree h ↔ LfreeLowest h B := by
  simp only [LowestFree, t.isBlock_iff, LfreeLowest]
  refine forall_congr' fun o => forall_congr' fun _ => ⟨fun hf hlt => ?_, fun hu hf => ?_⟩
  · by_contra hne
    exact absurd (hf (by simpa using hne)) (by omega)
  · by_contra hlt
    simp [hu (by omega)] at hf

/-- **One call** keeps `lfree` lowest exactly when it is no cut below `lfree`. -/
theorem step_lowest_iff {l : Call} (hi : HeapInv c s.heap B s.live) (hl : LfreeLowest s.heap B)
    (hs : Step c s l s') : LowestFree s'.heap ↔ LowestKept c s l := by
  obtain ⟨B', hi', hreg, hlow⟩ := step_inv hi hs
  have t' := hi'.tiled
  refine ⟨fun hf => ?_, fun hk => t'.lowestFree_iff.mpr (hlow hl hk)⟩
  obtain ⟨fuel, hs⟩ := hs
  cases l with
  | realloc p n =>
    intro hz hp0 hcut
    by_contra hbad
    simp only [exec] at hs
    split_ifs at hs with hheld
    have hpl := hheld.resolve_right hp0
    obtain ⟨hb, -, hrange, -⟩ := hi.header_of_live hpl
    have hbB := (mem_usedBlocks.mp hb).1
    have hroom := hcut
    unfold shrinksInPlace at hroom
    simp only [hi.tiled.sub_sub_data hbB] at hroom
    have hdata := hi.tiled.data_le hbB
    have hend := hreg.heapEnd
    have hle := hi.tiled.next_le _ hbB
    have hmin := c.minSize_pos
    obtain ⟨hnext, hunused, hlf, hlt⟩ := shrink_hides hi hb (n := c.rtAlign n) (by omega) hbad
    obtain ⟨x, hx, rfl⟩ := Option.map_eq_some_iff.mp hs
    rw [rtRealloc, if_neg (by omega), if_neg hz, if_neg hp0, if_neg (not_not.mpr hrange)] at hx
    simp only [hi.tiled.sub_sub_data hbB] at hx
    rw [if_neg (by omega), if_pos hcut] at hx
    obtain rfl := Option.some.inj hx
    dsimp only at hi' hreg t' hf hend
    -- the remainder is the block after the one that was cut
    have hpl' : p ∈ heldAfterRealloc c s.live p n p := by
      rw [heldAfterRealloc, if_neg hz, if_neg hp0]
      exact List.mem_cons_self
    have hb' := (mem_usedBlocks.mp (hi'.header_of_live hpl').1).1
    rw [hreg.header] at hb'
    have hrem := (t'.next_mem _ hb').resolve_right fun e => by
      rw [← e, hnext] at hend
      omega
    rw [hnext] at hrem
    have := hf _ (t'.isBlock_iff.mpr hrem) hunused
    rw [hlf] at this
    omega
  | malloc size => trivial
  | free rmem => trivial
  | write o v => trivial

/-! ## The first-fit allocator -/

/-- `lfree` is the lowest free block, and `rt_malloc` returns, with `RT_NULL` only when nothing fits. -/
def FirstFitComplete (c : MemCfg) (h : Heap) : Prop :=
  LowestFree h ∧ ∀ n, n ≠ 0 → Returns c h n ∧ (ReturnsNull c h n → ∀ o, ¬ FitsAt c h n o)

/-- **First fit.** Along the runs whose cuts are all at or above `lfree`, `lfree` is the lowest free block, and the
next call keeps it so exactly when it is no cut below `lfree` either. There `rt_malloc` returns exactly when it
refuses the size or `MIN_SIZE_ALIGNED` bytes fit in the region, and its `RT_NULL` means that nothing fits exactly
when the block that fits is not only one that ends at `heap_end` and fits exactly. -/
theorem firstFit_complete (c : MemCfg) (m₀ : Nat → HeapMem) (beginAddr endAddr : Nat) (h₀ : Heap)
    (ls : List Call) (s : Sys) (hinit : rtSystemHeapInit c m₀ beginAddr endAddr = some h₀)
    (hrun : Run (Guarded (LowestKept c) (Step c)) ⟨h₀, []⟩ ls s) :
    LowestFree s.heap ∧
    (∀ l s', Step c s l s' → (LowestFree s'.heap ↔ LowestKept c s l)) ∧
    ∀ n, n ≠ 0 →
      (Returns c s.heap n ↔ s.heap.memSizeAligned < c.rtAlign n ∨ c.minSizeAligned ≤ s.heap.memSizeAligned) ∧
      ((ReturnsNull c s.heap n → ∀ o, ¬ FitsAt c s.heap n o) ↔
        ((∃ o, FitsAt c s.heap n o) → ∃ o, FitsAt c s.heap n o ∧ ¬ ExactAtTop c s.heap n o)) := by
  obtain ⟨B, hi, hl⟩ : ∃ B, HeapInv c s.heap B s.live ∧ LfreeLowest s.heap B := by
    refine hrun.guarded (I := fun s => ∃ B, HeapInv c s.heap B s.live ∧ LfreeLowest s.heap B)
      ⟨_, heapInv_init hinit⟩ ?_
    rintro s l s' ⟨B, hi, hl⟩ hg hs
    obtain ⟨B', hi', -, hlow⟩ := step_inv hi hs
    exact ⟨B', hi', hlow hl hg⟩
  exact ⟨hi.tiled.lowestFree_iff.mpr hl, fun l s' hs => step_lowest_iff hi hl hs,
    fun n hn => ⟨returns_iff hi hn, null_iff hi hl hn⟩⟩

/-- A cut with `lfree` right behind the block: the remainder joins it, and `lfree` moves down. -/
theorem firstFit_complete_run : ∃ h₀ s, region512 = some h₀ ∧
    execAll cfg32 8 ⟨h₀, []⟩ [.malloc 100, .realloc 4108 20] = some s ∧ s.heap.lfree = 32 ∧
    LowestFree s.heap := by
  refine ⟨_, _, rfl, rfl, rfl, ?_⟩
  refine (firstFit_complete cfg32 (fun _ => ⟨0, false, 0, 0⟩) 4096 4608 _ [.malloc 100, .realloc 4108 20] _
    rfl ?_).1
  refine (Run.single ⟨trivial, 8, rfl⟩).append (Run.single ⟨fun _ _ _ => Or.inr ?_, 8, rfl⟩)
  decide

/-- Three blocks fill the region up to `heap_end`; the cut of the first leaves 68 bytes below `lfree`, which is at
`heap_end`, and a request of 60 bytes is refused. -/
theorem firstFit_not_complete : ¬ ∀ (c : MemCfg) (m₀ : Nat → HeapMem) (beginAddr endAddr : Nat) (h₀ : Heap)
    (ls : List Call) (s : Sys), rtSystemHeapInit c m₀ beginAddr endAddr = some h₀ →
    Run (Step c) ⟨h₀, []⟩ ls s → FirstFitComplete c s.heap := by
  intro hall
  obtain ⟨-, hnull⟩ := (hall cfg32 (fun _ => ⟨0, false, 0, 0⟩) 4096 4608 _
    [.malloc 100, .malloc 20, .malloc 340, .realloc 4108 20] _ rfl (run_of_execAll 8 rfl)).2 60
    (by decide)
  exact hnull ⟨8, _, rfl⟩ 32 ⟨⟨Relation.ReflTransGen.single (by decide), by decide⟩, by decide, by decide⟩

end CoreLink.RtThread.Mem
