/-
# `CoreLink.RtThread.MemRoom` — the room behind the pointers that `mem.c` returns.

A request is rounded up with `RT_ALIGN`, raised to `MIN_SIZE_ALIGNED` and searched for. The block taken holds the
rounded size (`rtMalloc_room`), so that everything turns on the rounding: from `2 ^ wordBits - 2 ^ alignBits + 1` on,
`RT_ALIGN` wraps to 0. Then `rt_malloc` grants the smallest block there is, and `rt_realloc` takes the request for one
of size 0 and frees the block. The product of `rt_calloc` wraps on its own.
-/
import CoreLink.RtThread.MemFirstFit
import Mathlib.Algebra.Order.Ring.Int

namespace CoreLink.RtThread.Mem

open CoreLink.Lib

variable {c : MemCfg} {h h' : Heap} {B B' : Finset Nat} {live : List Nat}

/-! ## `rt_calloc` -/

/-- `rt_calloc`: the product is a machine word. The bytes that it clears are user data, which the heap does not show. -/
def rtCalloc (c : MemCfg) (fuel : Nat) (h : Heap) (count size : Nat) : Option (Heap × Nat) :=
  rtMalloc c fuel h (count * size % 2 ^ c.wordBits)

/-! ## The rounding of a request -/

/-- The largest request that `RT_ALIGN` does not wrap. -/
def maxRequest (c : MemCfg) : Nat := 2 ^ c.wordBits - 2 ^ c.alignBits

/-- Up to `maxRequest` rounding does not shrink. -/
theorem le_rtAlign {n : Nat} (hn : n ≤ maxRequest c) : n ≤ c.rtAlign n := by
  have hfits := c.fits
  unfold maxRequest at hn
  exact Word.le_alignUp c.alignBits_le (by omega)

/-- From there on a word rounds to 0. -/
theorem rtAlign_eq_zero {n : Nat} (hn : maxRequest c < n) (hw : n < 2 ^ c.wordBits) : c.rtAlign n = 0 :=
  Word.alignUp_wraps c.alignBits_le hn hw

/-- A rounded size stays what it is. -/
theorem rtAlign_le_maxRequest (n : Nat) : c.rtAlign n ≤ maxRequest c :=
  Word.alignUp_le_highMask

/-- The region is smaller than any request that wraps. -/
theorem Tiled.memSizeAligned_lt (t : Tiled c h B) : h.memSizeAligned < maxRequest c := by
  have hfits := t.fits
  have heq := t.end_eq
  have hS := Nat.le_of_dvd c.sizeofStructMem_pos c.sizeofStructMem_dvd
  unfold maxRequest
  omega

/-! ## The room behind a pointer -/

/-- The bytes of data in the block behind `p`. -/
def dataSize (c : MemCfg) (h : Heap) (p : Nat) : Nat :=
  (h.mem (h.header c p)).next - (h.header c p + c.sizeofStructMem)

/-- The block behind `p` is marked used. -/
def BlockUsed (c : MemCfg) (h : Heap) (p : Nat) : Prop := (h.mem (h.header c p)).used = true

theorem header_add (h : Heap) (o : Nat) : h.header c (h.heapPtr + o + c.sizeofStructMem) = o := by
  unfold Heap.header
  omega

/-- **A block that `rt_malloc` returns** holds the size it searched for, and lies in the region. -/
theorem rtMalloc_room (hi : HeapInv c h B live) {fuel n p : Nat} (hm : rtMalloc c fuel h n = some (h', p))
    (hp : p ≠ 0) : blockSize c n ≤ dataSize c h' p ∧ dataSize c h' p ≤ h.memSizeAligned := by
  rcases rtMalloc_cases hi hm with ⟨h0, -⟩ | ⟨q, h₁, B₁, l, -, hq, -, htaken, rfl, -, -, rfl⟩
  · exact absurd h0 hp
  have hroom := htaken.room
  have hle := htaken.tiled.data_le (htaken.subset hq)
  rw [htaken.region.memSizeAligned] at hle
  have hheader : Heap.header c { h₁ with lfree := l } (h.heapPtr + q + c.sizeofStructMem) = q := by
    rw [← htaken.region.heapPtr]
    exact header_add _ q
  unfold dataSize
  rw [hheader]
  change _ ≤ (h₁.mem q).next - _ ∧ (h₁.mem q).next - _ ≤ _
  omega

/-- `rt_malloc` leaves the used blocks as they are. -/
theorem rtMalloc_keeps (hi : HeapInv c h B live) {fuel n p b : Nat} (hm : rtMalloc c fuel h n = some (h', p))
    (hb : b ∈ usedBlocks h B) : (h'.mem b).used = true ∧ (h'.mem b).next = (h.mem b).next := by
  obtain ⟨hbB, hbu⟩ := mem_usedBlocks.mp hb
  rcases rtMalloc_cases hi hm with ⟨-, rfl, -⟩ | ⟨q, h₁, B₁, l, -, hq, hqu, htaken, rfl, -, -, -⟩
  · exact ⟨hbu, rfl⟩
  · have hne : b ≠ q := fun e => by simp [e, hqu] at hbu
    exact ⟨(htaken.keeps b hbB hne).trans hbu, htaken.next b hb⟩

theorem le_blockSize (n : Nat) : c.rtAlign n ≤ blockSize c n := by
  rw [blockSize_eq]
  exact le_max_left _ _

/-! ## When `rt_malloc` has a block to grant -/

/-- `rt_malloc (n)` has a block to grant: an unused one that is large enough, from `lfree` on, and inside the bound of
the search. -/
def Grantable (c : MemCfg) (h : Heap) (n : Nat) : Prop :=
  n ≠ 0 ∧ ∃ o, FitsAt c h n o ∧ h.lfree ≤ o ∧ ¬ ExactAtTop c h n o

/-- The search only moves up. -/
theorem mallocSearch_ge (t : Tiled c h B) {size fuel ptr q : Nat}
    (hs : mallocSearch c h size fuel ptr = some (some q)) (hptr : ptr ∈ B ∨ ptr = h.heapEnd) : ptr ≤ q := by
  induction fuel generalizing ptr with
  | zero => simp [mallocSearch] at hs
  | succ fuel ih =>
    rw [mallocSearch] at hs
    split_ifs at hs with hb hfit
    · exact le_of_eq (by simpa using hs)
    · rcases hptr with hp | rfl
      · have hup := t.lt_next hp
        have hle := ih hs (t.next_mem ptr hp)
        omega
      · rw [t.end_next] at hs
        exact ih hs (Or.inr rfl)
    · simp at hs

/-- **`rt_malloc` returns a pointer** exactly when it has a block to grant. -/
theorem grants_iff (hi : HeapInv c h B live) {n : Nat} :
    (∃ fuel h' p, rtMalloc c fuel h n = some (h', p) ∧ p ≠ 0) ↔ Grantable c h n := by
  have t := hi.tiled
  constructor
  · rintro ⟨fuel, h', p, hm, hp⟩
    have hn : n ≠ 0 := by
      rintro rfl
      obtain ⟨-, rfl⟩ : h = h' ∧ 0 = p := by simpa [rtMalloc] using hm
      exact hp rfl
    rcases rtMalloc_cases hi hm with ⟨h0, -⟩ | ⟨q, -, -, -, hs, -⟩
    · exact absurd h0 hp
    · obtain ⟨hq, hu, hroom, hlt⟩ := mallocSearch_some t hs hi.lfreeOk.mem_or
      have hfit : FitsAt c h n q := t.fitsAt_iff.mpr ⟨hq, hu, hroom⟩
      exact ⟨hn, q, hfit, mallocSearch_ge t hs hi.lfreeOk.mem_or, fun he => t.not_lt_bound hfit he hlt⟩
  · rintro ⟨hn, o, ho, hle, hne⟩
    obtain ⟨hoB, hu, hroom⟩ := t.fitsAt_iff.mp ho
    have hdata := t.data_le hoB
    have hsize := blockSize_eq (c := c) n
    obtain ⟨fuel, ⟨h', p⟩, hm⟩ := (returns_iff hi hn).mpr (Or.inr (by omega))
    refine ⟨fuel, h', p, hm, ?_⟩
    rintro rfl
    rcases rtMalloc_cases hi hm with ⟨-, -, h0 | hbig | hs⟩ | ⟨q, -, -, -, -, -, -, -, -, -, -, hp⟩
    · exact hn h0
    · omega
    · have hlt : o < c.sub h.memSizeAligned (blockSize c n) := not_le.mp fun e => hne (t.exactAtTop ho e)
      have := mallocSearch_none t hs hi.lfreeOk.mem_or hoB hle hlt hu
      omega
    · have := c.sizeofStructMem_pos
      omega

/-! ## What a call may not fall short of -/

/-- Whenever `rt_malloc (n)` returns a pointer, the block behind it has `n` bytes of data. -/
def MallocGrants (c : MemCfg) (h : Heap) (n : Nat) : Prop :=
  ∀ fuel h' p, rtMalloc c fuel h n = some (h', p) → p ≠ 0 → n ≤ dataSize c h' p

/-- Whenever `rt_calloc (count, size)` returns a pointer, the block behind it has `count * size` bytes of data. -/
def CallocGrants (c : MemCfg) (h : Heap) (count size : Nat) : Prop :=
  ∀ fuel h' p, rtCalloc c fuel h count size = some (h', p) → p ≠ 0 → count * size ≤ dataSize c h' p

/-- Whenever `rt_realloc (p, n)` returns a pointer, the block behind it has `n` bytes of data; and it frees the block of
`p` only for `n = 0`, or if it returns another block. -/
def ReallocGrants (c : MemCfg) (h : Heap) (p n : Nat) : Prop :=
  ∀ fuel h' r, rtRealloc c fuel h p n = some (h', r) →
    (r ≠ 0 → n ≤ dataSize c h' r) ∧
      (p ≠ 0 → BlockUsed c h p → ¬ BlockUsed c h' p → n = 0 ∨ (r ≠ 0 ∧ r ≠ p))

/-- A request of `req` bytes that `rt_malloc` sees as `n`. -/
theorem grants_of_request (hi : HeapInv c h B live) {n req : Nat} (hle : req ≤ maxRequest c → n = req) :
    (∀ fuel h' p, rtMalloc c fuel h n = some (h', p) → p ≠ 0 → req ≤ dataSize c h' p) ↔
      req ≤ maxRequest c ∨ ¬ Grantable c h n := by
  constructor
  · intro hall
    by_cases hmax : req ≤ maxRequest c
    · exact Or.inl hmax
    · refine Or.inr fun hg => ?_
      obtain ⟨fuel, h', p, hm, hp⟩ := (grants_iff hi).mpr hg
      have hroom := (rtMalloc_room hi hm hp).2
      have hlt := hi.tiled.memSizeAligned_lt
      have hreq := hall fuel h' p hm hp
      omega
  · rintro (hmax | hg) fuel h' p hm hp
    · obtain rfl := hle hmax
      exact (le_rtAlign hmax).trans ((le_blockSize n).trans (rtMalloc_room hi hm hp).1)
    · exact absurd ((grants_iff hi).mp ⟨fuel, h', p, hm, hp⟩) hg

/-- **`rt_malloc`**: right exactly where rounding does not wrap, or there is nothing left to grant. -/
theorem mallocGrants_iff (hi : HeapInv c h B live) (n : Nat) :
    MallocGrants c h n ↔ n ≤ maxRequest c ∨ ¬ Grantable c h n :=
  grants_of_request hi fun _ => rfl

/-- **`rt_calloc`**: the same, for the product, of which `rt_malloc` sees the low bits. -/
theorem callocGrants_iff (hi : HeapInv c h B live) (count size : Nat) :
    CallocGrants c h count size ↔
      count * size ≤ maxRequest c ∨ ¬ Grantable c h (count * size % 2 ^ c.wordBits) := by
  refine grants_of_request hi fun hle => Nat.mod_eq_of_lt ?_
  have hfits := c.fits
  have hpos := Nat.two_pow_pos c.alignBits
  unfold maxRequest at hle
  omega

/-! ## What `rt_free` and the cut in place leave alone -/

section Keeps

variable {m ptr n b : Nat}

theorem plugHoles_used (x : Nat) : ((plugHoles h m).mem x).used = (h.mem x).used := by
  unfold plugHoles plugBackward
  simp only
  split_ifs
  · rw [join_used, plugForward_used]
  · exact plugForward_used x

theorem plugForward_next (hm : (h.mem m).used = false) (hb : (h.mem b).used = true) :
    ((plugForward h m).mem b).next = (h.mem b).next := by
  have hne : b ≠ m := fun e => by simp [e, hm] at hb
  unfold plugForward
  simp only
  split_ifs with hjoin
  · rw [join_next hjoin.1, if_neg hne]
  · rfl

/-- `plug_holes` at an unused block joins unused blocks only: a used one keeps its length. -/
theorem plugHoles_next (hm : (h.mem m).used = false) (hb : (h.mem b).used = true) :
    ((plugHoles h m).mem b).next = (h.mem b).next := by
  unfold plugHoles plugBackward
  simp only
  split_ifs with hjoin
  · have hne : b ≠ ((plugForward h m).mem m).prev := fun e => by
      rw [← e, plugForward_used] at hjoin
      simp [hb] at hjoin
    rw [join_next hjoin.1, if_neg hne, plugForward_next hm hb]
  · exact plugForward_next hm hb

/-- `rt_free` of a pointer held marks its block unused, and leaves every other used block as it is. -/
theorem rtFree_keeps (hi : HeapInv c h B live) {p : Nat} (hp : p ∈ live) :
    ¬ BlockUsed c (rtFree c h p) p ∧
      ∀ b, b ≠ h.header c p → (h.mem b).used = true →
        ((rtFree c h p).mem b).used = true ∧ ((rtFree c h p).mem b).next = (h.mem b).next := by
  obtain ⟨-, -, hrange, hp0⟩ := hi.header_of_live hp
  obtain ⟨B', -, hreg, -⟩ := rtFree_spec hi hp
  rw [BlockUsed, hreg.header p]
  rw [rtFree, if_neg hp0, if_neg (not_not.mpr hrange)]
  have hmark : ((freeMark c h (h.header c p)).mem (h.header c p)).used = false := by
    rw [freeMark_used, if_pos rfl]
  refine ⟨by simp [plugHoles_used, hmark], fun b hb hu => ?_⟩
  have hu' : ((freeMark c h (h.header c p)).mem b).used = true := by rwa [freeMark_used, if_neg hb]
  exact ⟨by rw [plugHoles_used, hu'], by rw [plugHoles_next hmark hu', freeMark_next]⟩

/-- The cut in place sets the length of its block, and leaves every other used block as it is. -/
theorem shrink_keeps (t : Tiled c h B) (hp : ptr ∈ usedBlocks h B) (hn : 0 < n)
    (hlt : ptr + c.sizeofStructMem + n < (h.mem ptr).next) (hb : b ∈ usedBlocks h B) :
    ((shrink c h ptr n).mem b).used = true ∧
      ((shrink c h ptr n).mem b).next = if b = ptr then ptr + c.sizeofStructMem + n else (h.mem b).next := by
  obtain ⟨hpB, -⟩ := mem_usedBlocks.mp hp
  obtain ⟨hbB, hbu⟩ := mem_usedBlocks.mp hb
  unfold shrink
  simp only
  generalize c.sub h.usedMem (c.sub (c.sub (c.sub (h.mem ptr).next ptr) c.sizeofStructMem) n) = u
  obtain ⟨h₀, hh₀⟩ : ∃ h₀ : Heap, h₀ = { h with usedMem := u } := ⟨_, rfl⟩
  rw [← hh₀]
  have hmem₀ : h₀.mem = h.mem := by rw [hh₀]
  have hused := @splitAt_used c h₀ ptr n
  have hnext := splitAt_next (show ptr + c.sizeofStructMem + n ≤ (h₀.mem ptr).next by rw [hmem₀]; omega)
  rw [hmem₀] at hused hnext
  have hne : b ≠ ptr + c.sizeofStructMem + n := fun e => by
    have := t.no_between ptr hpB b hbB (by omega)
    omega
  have hu : ((splitAt c h₀ ptr n).mem b).used = true := by rwa [hused, if_neg hne]
  refine ⟨by rw [plugHoles_used, hu], ?_⟩
  rw [plugHoles_next (by rw [hused, if_pos rfl]) hu, hnext, if_neg hne]

end Keeps

/-! ## `rt_realloc` -/

/-- **`rt_realloc`** of a request that rounding does not wrap. -/
theorem reallocGrants_of_le (hi : HeapInv c h B live) {p n : Nat} (hp : p ∈ live ∨ p = 0) (hn : n ≤ maxRequest c) :
    ReallocGrants c h p n := by
  intro fuel h' r hr
  have hle := le_rtAlign hn
  unfold rtRealloc at hr
  simp only at hr
  split_ifs at hr with hbig hzero hnull hrange hsame hcut
  · obtain ⟨rfl, rfl⟩ := Prod.mk.inj (Option.some.inj hr)
    exact ⟨fun h0 => absurd rfl h0, fun _ hu hnu => absurd hu hnu⟩
  · obtain ⟨rfl, rfl⟩ := Prod.mk.inj (Option.some.inj hr)
    exact ⟨fun h0 => absurd rfl h0, fun _ _ _ => Or.inl (by omega)⟩
  · subst hnull
    refine ⟨fun hr0 => ?_, fun h0 => absurd rfl h0⟩
    have hroom := (rtMalloc_room hi hr hr0).1
    have hblock := le_blockSize (c := c) (c.rtAlign n)
    have hagain := le_rtAlign (rtAlign_le_maxRequest (c := c) n)
    omega
  rotate_right
  · exact absurd (hi.header_of_live (hp.resolve_right hnull)).2.2.1 hrange
  all_goals
    have hpl := hp.resolve_right hnull
    have hb := (hi.header_of_live hpl).1
    have hbB := (mem_usedBlocks.mp hb).1
    rw [hi.tiled.sub_sub_data hbB] at hsame
  · obtain ⟨rfl, rfl⟩ := Prod.mk.inj (Option.some.inj hr)
    exact ⟨fun _ => by unfold dataSize; omega, fun _ hu hnu => absurd hu hnu⟩
  · obtain ⟨rfl, rfl⟩ := Prod.mk.inj (Option.some.inj hr)
    unfold shrinksInPlace at hcut
    simp only [hi.tiled.sub_sub_data hbB] at hcut
    obtain ⟨B', -, hreg, -⟩ := shrink_spec hi hb (Nat.pos_of_ne_zero hzero) (by omega)
    have hmin := c.minSize_pos
    obtain ⟨hu', hnext⟩ := shrink_keeps (n := c.rtAlign n) hi.tiled hb (by omega) (by omega) hb
    rw [if_pos rfl] at hnext
    refine ⟨fun _ => ?_, fun _ _ hnu => absurd ?_ hnu⟩
    · rw [dataSize, hreg.header, hnext]
      omega
    · rw [BlockUsed, hreg.header, hu']
  · cases hmal : rtMalloc c fuel h (c.rtAlign n) with
    | none => simp [hmal] at hr
    | some x =>
      obtain ⟨h₁, q⟩ := x
      simp only [hmal] at hr
      rcases rtMalloc_spec hi hmal with ⟨rfl, rfl⟩ | ⟨B₁, hi₁, hreg₁, hq0, -⟩
      · obtain ⟨rfl, rfl⟩ : h' = h₁ ∧ r = 0 := by simpa [eq_comm] using hr
        exact ⟨fun h0 => absurd rfl h0, fun _ hu hnu => absurd hu hnu⟩
      · -- the block has moved: the new one is used, and stays so while the old one is freed
        obtain ⟨rfl, rfl⟩ : h' = rtFree c h₁ p ∧ r = q := by simpa [hq0, eq_comm] using hr
        have hqp : r ≠ p := fun e => (List.nodup_cons.mp hi₁.nodup).1 (e ▸ hpl)
        have hpl₁ := List.mem_cons_of_mem r hpl
        obtain ⟨hbr, hr_eq, -, -⟩ := hi₁.header_of_live (List.mem_cons_self (a := r) (l := live))
        obtain ⟨-, hp_eq, -, -⟩ := hi₁.header_of_live hpl₁
        obtain ⟨B', -, hreg, -⟩ := rtFree_spec hi₁ hpl₁
        have hne : h₁.header c r ≠ h₁.header c p := fun e => hqp (by omega)
        have hkeep := (rtFree_keeps hi₁ hpl₁).2 _ hne (mem_usedBlocks.mp hbr).2
        have hroom := (rtMalloc_room hi hmal hq0).1
        have hblock := le_blockSize (c := c) (c.rtAlign n)
        have hagain := le_rtAlign (rtAlign_le_maxRequest (c := c) n)
        refine ⟨fun _ => ?_, fun _ _ _ => Or.inr ⟨hq0, hqp⟩⟩
        rw [dataSize, hreg.header, hkeep.2]
        unfold dataSize at hroom
        omega

/-- **`rt_realloc`** of a pointer held, or of `RT_NULL`: right exactly where rounding does not wrap, or there is no
block to lose. -/
theorem reallocGrants_iff (hi : HeapInv c h B live) {p n : Nat} (hp : p ∈ live ∨ p = 0) (hw : n < 2 ^ c.wordBits) :
    ReallocGrants c h p n ↔ n ≤ maxRequest c ∨ p = 0 := by
  by_cases hn : n ≤ maxRequest c
  · exact iff_of_true (reallocGrants_of_le hi hp hn) (Or.inl hn)
  have hzero := rtAlign_eq_zero (by omega) hw
  have hcall : ∀ fuel, rtRealloc c fuel h p n = some (rtFree c h p, 0) := fun fuel => by
    rw [rtRealloc]
    simp only [hzero, Nat.not_lt_zero, if_false, if_true]
  rcases hp with hp | rfl
  · obtain ⟨hb, -, -, hp0⟩ := hi.header_of_live hp
    refine iff_of_false (fun hall => ?_) (by omega)
    obtain ⟨-, hfreed⟩ := hall 0 _ _ (hcall 0)
    rcases hfreed hp0 (mem_usedBlocks.mp hb).2 (rtFree_keeps hi hp).1 with h0 | h0
    · omega
    · exact h0.1 rfl
  · refine iff_of_true (fun fuel h' r hr => ?_) (Or.inr rfl)
    rw [hcall] at hr
    obtain ⟨rfl, rfl⟩ := Prod.mk.inj (Option.some.inj hr)
    exact ⟨fun h0 => absurd rfl h0, fun h0 => absurd rfl h0⟩

end CoreLink.RtThread.Mem
