/-
# `CoreLink.RtThread.MemheapRealloc` — changing the size of a block in place, or moving it.

Growing takes the free block behind `ptr` off both lists and puts a smaller one behind the new end; its header may lie
over the old one, which is no item any more by then. Shrinking cuts a block off, and joins it with a free one behind. Both
put a new block on the free list, so that they end in the same step, `Releasing.finish`.
-/
import CoreLink.RtThread.MemheapCalls

namespace CoreLink.RtThread.Memheap

open CoreLink.Lib CoreLink.Lib.Layout

variable {c : MemheapCfg} {h h' : Memheap} {bs bs' fs fs' as cs : List Nat} {a b d n p x v size : Nat} {listed : Bool}

/-! ## Cutting off a free block -/

/-- The count of available bytes is no part of the books while a block becomes free. -/
theorem Releasing.setAvailableSize (r : Releasing c h bs fs x listed) (v : Nat) :
    Releasing c (h.setAvailableSize v) bs fs x listed :=
  ⟨r.blocks.congr rfl rfl rfl rfl rfl rfl rfl, r.pending, r.pool⟩

theorem insertFree_setAvailableSize (h : Memheap) (x v : Nat) :
    (h.insertFree x).setAvailableSize v = (h.setAvailableSize v).insertFree x := rfl

/-- The address of a new header is none of the headers there are. -/
theorem Blocks.fresh (i : Blocks c h (as ++ a :: b :: cs) fs) (han : a + c.memheapSize ≤ n)
    (hnb : n + c.memheapSize ≤ b) : n ∉ as ++ a :: b :: cs := by
  have hnd := (i.insertBlock han hnb).ring.nodup
  rw [← List.singleton_append, ← List.append_assoc, List.nodup_middle] at hnd
  simpa using (List.nodup_cons.mp hnd).1

/-- **A block is cut off** a block in use, and becomes free. -/
theorem Releasing.cut (i : Blocks c h (as ++ a :: b :: cs) fs) (l : Listed h.isUsed (as ++ a :: b :: cs) fs)
    (hpool : ∀ y ∈ as ++ a :: b :: cs, h.poolPtr y = h.addr) (ha : h.isUsed a = true) (han : a + c.memheapSize ≤ n)
    (hnb : n + c.memheapSize ≤ b) :
    Releasing c (h.insertBlock a n) (as ++ a :: n :: b :: cs) fs n false ∧
      freeBytes c.memheapSize (h.insertBlock a n).isUsed (as ++ a :: n :: b :: cs) =
        freeBytes c.memheapSize h.isUsed (as ++ a :: b :: cs) + (b - (n + c.memheapSize)) ∧
      ∀ y, InUse (h.insertBlock a n) (as ++ a :: n :: b :: cs) y ↔ InUse h (as ++ a :: b :: cs) y := by
  have hblocks := i.insertBlock han hnb
  have hfresh := i.fresh han hnb
  refine ⟨⟨hblocks, ?_, fun y hy => ?_⟩, ?_, fun y => ?_⟩
  · rw [insertBlock_isUsed]
    exact l.cut ha hfresh
  · simp only [insertBlock_same]
    by_cases hyn : y = n
    · simp [hyn]
    · rw [Function.update_of_ne hyn]
      refine hpool y ?_
      simp only [List.mem_append, List.mem_cons] at hy ⊢
      tauto
  · rw [insertBlock_isUsed]
    exact freeBytes_cut hblocks.ring.nodup ha
  · rw [InUse, InUse, insertBlock_isUsed]
    by_cases hyn : y = n
    · subst hyn
      simp only [List.mem_append, List.mem_cons] at hfresh
      simp
      tauto
    · simp [hyn]

/-! ## Shrinking -/

/-- The end of `shrinkInPlace`, with the block cut off as far as it goes. -/
theorem Releasing.insertFree (r : Releasing c h bs fs x false) (hb : h.isUsed (h.next x) = true)
    (hav : v = freeBytes c.memheapSize h.isUsed bs) :
    MemheapInv c ((h.insertFree x).setAvailableSize v) bs (x :: fs) := by
  rw [insertFree_setAvailableSize]
  refine (r.setAvailableSize v).finish ?_ ?_
  · simpa using hb
  · simpa using hav

/-- `shrinkInPlace` where the next block is in use. -/
theorem shrinkInPlace_used (hn : add (add a size) c.memheapSize = n) (hk : h.insertBlock a n = h')
    (hb : h'.isUsed (h'.next n) = true) :
    shrinkInPlace c h a size =
      (h'.insertFree n).setAvailableSize (add (h'.insertFree n).availableSize ((h'.insertFree n).memitemSize c n)) := by
  simp only [shrinkInPlace, hn, hk, hb, if_true]

/-- Where it is free, it becomes a part of the block that is cut off. -/
theorem shrinkInPlace_free (hn : add (add a size) c.memheapSize = n) (hk : h.insertBlock a n = h')
    (hb : h'.isUsed (h'.next n) = false) {m : Memheap}
    (hm : mergeNext h' n (sub h'.availableSize (h'.memitemSize c (h'.next n))) = m) :
    shrinkInPlace c h a size =
      (m.insertFree n).setAvailableSize (add (m.insertFree n).availableSize ((m.insertFree n).memitemSize c n)) := by
  simp only [shrinkInPlace, hn, hk, hb, Bool.false_eq_true, if_false]
  generalize sub h'.availableSize (h'.memitemSize c (h'.next n)) = v at hm ⊢
  have heq := mergeNext_eq h' n v
  simp only [setAvailableSize_same] at heq ⊢
  rw [heq, hm]

theorem insertFree_memitemSize (c : MemheapCfg) (h : Memheap) (x : Nat) :
    (h.insertFree x).memitemSize c = h.memitemSize c := by
  funext y
  simp only [memitemSize, insertFree_same]

/-- **Shrinking in place.** -/
theorem shrinkInPlace_spec (i : MemheapInv c h (as ++ a :: b :: cs) fs) (ha : h.isUsed a = true)
    (hsize : size + c.memheapSize + memheapMinialloc < h.memitemSize c a) :
    ∃ bs' fs', MemheapInv c (shrinkInPlace c h a size) bs' fs' ∧ SameObject h (shrinkInPlace c h a size) ∧
      ∀ y, InUse (shrinkInPlace c h a size) bs' y ↔ InUse h (as ++ a :: b :: cs) y := by
  obtain ⟨hgap, hend, hfits⟩ := i.blocks.gap
  have hH := le_memheapSize c
  rw [i.blocks.memitemSize_eq] at hsize
  obtain ⟨n, hn⟩ : ∃ n, n = a + size + c.memheapSize := ⟨_, rfl⟩
  have han : a + c.memheapSize ≤ n := by omega
  have hnb : n + c.memheapSize ≤ b := by omega
  have hadd : add (add a size) c.memheapSize = n := by
    have ha' : add a size = a + size := add_of_lt (by omega)
    rw [ha', hn]
    exact add_of_lt (by omega)
  obtain ⟨r, hbytes, huse⟩ := Releasing.cut i.blocks i.listed i.pool ha han hnb
  obtain ⟨k, hk⟩ : ∃ k, h.insertBlock a n = k := ⟨_, rfl⟩
  have hkav : k.availableSize = h.availableSize := by simp [← hk]
  have hsame : SameObject h k := by
    rw [← hk]
    exact ⟨by simp, by simp, by simp, by simp, by simp⟩
  rw [hk] at r hbytes huse
  have hmid : as ++ a :: n :: b :: cs = (as ++ [a]) ++ n :: b :: cs := by simp
  have hsizen := (hmid ▸ r.blocks).memitemSize_eq
  have hnext : k.next n = b := (hmid ▸ r.blocks).next_eq.1
  rw [← i.available, ← hsizen] at hbytes
  by_cases hb : k.isUsed (k.next n) = true
  · have hlt := r.blocks.freeBytes_lt k.isUsed
    rw [shrinkInPlace_used hadd hk hb, insertFree_memitemSize, (insertFree_same k n).2.2.2.2.2.2.2.2.1]
    refine ⟨_, _, r.insertFree hb ?_, ?_, fun y => ?_⟩
    · rw [hbytes] at hlt ⊢
      rw [hkav, add_of_lt hlt]
    · exact ⟨by simpa using hsame.addr, by simpa using hsame.startAddr, by simpa using hsame.poolSize,
        by simpa using hsame.freeList, by simpa using hsame.blockList⟩
    · rw [← huse y]
      simp [InUse]
  · have hb' := Bool.eq_false_iff.mpr hb
    -- the free block behind is counted anew, with its header
    obtain ⟨v, hv⟩ : ∃ v, v = sub k.availableSize (k.memitemSize c (k.next n)) := ⟨_, rfl⟩
    obtain ⟨bs', fs', hr, hused, hbytes', hsize', huse'⟩ := r.merge hb' v
    have hle : k.memitemSize c (k.next n) ≤ k.availableSize := by
      obtain ⟨d, cs, rfl⟩ : ∃ d ds, cs = d :: ds := by
        cases cs with
        | nil =>
          have hlast := r.pending.last b (by simp)
          rw [← hnext, hb'] at hlast
          cases hlast
        | cons d cs => exact ⟨d, cs, rfl⟩
      have hsplit : as ++ a :: n :: b :: d :: cs = (as ++ [a, n]) ++ b :: d :: cs := by simp
      have hsplit' : as ++ a :: b :: d :: cs = (as ++ [a]) ++ b :: d :: cs := by simp
      have hfree : h.isUsed b = false := by
        have hbn : b ≠ n := by omega
        rw [hnext, ← hk, insertBlock_isUsed, Function.update_of_ne hbn] at hb'
        exact hb'
      have i' : MemheapInv c h ((as ++ [a]) ++ b :: d :: cs) fs := hsplit' ▸ i
      have hk' : Blocks c k ((as ++ [a, n]) ++ b :: d :: cs) fs := hsplit ▸ r.blocks
      have hsz := i'.size_le hfree
      rw [i'.blocks.memitemSize_eq] at hsz
      rw [hnext, hk'.memitemSize_eq, hkav]
      exact hsz
    have hlt := hr.blocks.freeBytes_lt k.isUsed
    have hv' : v = k.availableSize - k.memitemSize c (k.next n) := by
      rw [hv, hkav]
      exact sub_of_le (hkav ▸ hle) i.available_lt
    have hmused := (mergeNext_same k n v).1
    have hmerge : mergeNext k n (sub k.availableSize (k.memitemSize c (k.next n))) = mergeNext k n v := by rw [hv]
    rw [shrinkInPlace_free hadd hk hb' hmerge, insertFree_memitemSize, (insertFree_same _ n).2.2.2.2.2.2.2.2.1,
      (mergeNext_same k n v).2.2.2.2.2.2.2.1]
    have hsum : v + (mergeNext k n v).memitemSize c n = freeBytes c.memheapSize k.isUsed bs' := by
      rw [hsize', hbytes', hbytes, ← hkav]
      omega
    refine ⟨_, _, hr.insertFree (by rw [hmused]; exact hused) ?_, ?_, fun y => ?_⟩
    · rw [hmused, ← hsum]
      exact add_of_lt (hsum ▸ hlt)
    · exact ⟨by simpa using hsame.addr, by simpa using hsame.startAddr, by simpa using hsame.poolSize,
        by simpa using hsame.freeList, by simpa using hsame.blockList⟩
    · rw [← huse y, ← huse' y]
      simp [InUse]

/-! ## Growing -/

/-- `growInPlace`, with the values it computes. -/
theorem growInPlace_eq (ha : sub p c.memheapSize = a) (hn : h.next a = n) (hprev : h.prev n = a) (hd : add p size = d)
    (hv : sub h.availableSize (sub size (h.memitemSize c a)) = v) :
    growInPlace c h p size = ((((h.setAvailable v).removeFree n).joinBlock a n).insertBlock a d).insertFree d := by
  simp only [growInPlace, ha, hn, hd, hv]
  rw [joinBlock_remove]
  simpa using hprev

/-- **Growing in place**, where the new header fits in front of the next item but one. -/
theorem growInPlace_spec (i : MemheapInv c h (as ++ a :: n :: b :: cs) fs) (hn : h.isUsed n = false)
    (hold : h.memitemSize c a < size) (hsize : a + c.memheapSize + size + c.memheapSize ≤ b) :
    ∃ bs' fs', MemheapInv c (growInPlace c h (a + c.memheapSize) size) bs' fs' ∧
      SameObject h (growInPlace c h (a + c.memheapSize) size) ∧
      ∀ y, InUse (growInPlace c h (a + c.memheapSize) size) bs' y ↔ InUse h (as ++ a :: n :: b :: cs) y := by
  have hH := le_memheapSize c
  have hmid : as ++ a :: n :: b :: cs = (as ++ [a]) ++ n :: b :: cs := by simp
  have i' : MemheapInv c h ((as ++ [a]) ++ n :: b :: cs) fs := hmid ▸ i
  obtain ⟨hgap, -, -⟩ := i.blocks.gap
  obtain ⟨hgapn, hend, hfits⟩ := i'.blocks.gap
  have hnd := i.nodup.1
  have ha : h.isUsed a = true := i.listed.coalesced.before hn
  have hnfs : n ∈ fs := (i.listed.free_iff n).mpr ⟨by simp, hn⟩
  have hsub : sub (a + c.memheapSize) c.memheapSize = a := by
    rw [sub_of_le (by omega) (by omega)]
    omega
  obtain ⟨d, hd⟩ : ∃ d, add (a + c.memheapSize) size = d := ⟨_, rfl⟩
  have hd' : d = a + c.memheapSize + size := by
    rw [← hd]
    exact add_of_lt (by omega)
  have hszn := i'.size_le hn
  have hlt := i.available_lt
  rw [i'.blocks.memitemSize_eq] at hszn
  rw [i.blocks.memitemSize_eq] at hold
  obtain ⟨v, hv⟩ : ∃ v, sub h.availableSize (sub size (h.memitemSize c a)) = v := ⟨_, rfl⟩
  have hv' : v = h.availableSize - (size - (n - (a + c.memheapSize))) := by
    rw [← hv, i.blocks.memitemSize_eq]
    have hdiff : sub size (n - (a + c.memheapSize)) = size - (n - (a + c.memheapSize)) :=
      sub_of_le (by omega) (by omega)
    rw [hdiff]
    exact sub_of_le (by omega) hlt
  rw [growInPlace_eq hsub i.blocks.next_eq.1 i.blocks.next_eq.2 hd hv]
  -- without the old free block
  obtain ⟨k, hk⟩ : ∃ k, ((h.setAvailable v).removeFree n).joinBlock a n = k := ⟨_, rfl⟩
  have hkused : k.isUsed = h.isUsed := by simp [← hk]
  have hkav : k.availableSize = v := by simp [← hk]
  have hblocks : Blocks c k (as ++ a :: b :: cs) (fs.erase n) := by
    rw [← hk]
    exact ((i.blocks.setAvailable v).removeFree hnfs).joinBlock
  have hlisted : Listed k.isUsed (as ++ a :: b :: cs) (fs.erase n) := by
    rw [hkused]
    exact i.listed.absorb hnd i.nodup.2 hn
  have hpool : ∀ y ∈ as ++ a :: b :: cs, k.poolPtr y = k.addr := fun y hy => by
    rw [← hk]
    simpa using i.pool y (by simp only [List.mem_append, List.mem_cons] at hy ⊢; tauto)
  have hbytes : freeBytes c.memheapSize h.isUsed (as ++ a :: b :: cs) + (b - (n + c.memheapSize)) = _ :=
    freeBytes_absorb ha hn
  rw [← i.available, ← hkused] at hbytes
  -- with the new one
  obtain ⟨r, hcut, huse⟩ := Releasing.cut (n := d) hblocks hlisted hpool (by rw [hkused]; exact ha) (by omega) (by omega)
  have hmid' : as ++ a :: d :: b :: cs = (as ++ [a]) ++ d :: b :: cs := by simp
  have hb : (k.insertBlock a d).isUsed ((k.insertBlock a d).next d) = true := by
    have hbd : b ≠ d := by omega
    have hcutb : Blocks c (k.insertBlock a d) ((as ++ [a]) ++ d :: b :: cs) (fs.erase n) := hmid' ▸ r.blocks
    rw [hcutb.next_eq.1, insertBlock_isUsed, Function.update_of_ne hbd, hkused]
    exact i'.listed.coalesced.behind hn
  rw [hk]
  refine ⟨_, _, r.finish hb ?_, ?_, fun y => ?_⟩
  · have hsame := (insertBlock_same k a d).2.2.2.2.1
    rw [hcut, hsame, hkav]
    omega
  · rw [← hk]
    exact ⟨by simp, by simp, by simp, by simp, by simp⟩
  · have hins : InUse ((k.insertBlock a d).insertFree d) (as ++ a :: d :: b :: cs) y ↔
        InUse (k.insertBlock a d) (as ++ a :: d :: b :: cs) y := by simp [InUse]
    rw [hins, huse y]
    simp only [InUse, hkused, List.mem_append, List.mem_cons]
    by_cases hy : y = n
    · simp [hy, hn]
    · simp [hy]

/-! ## `rt_memheap_realloc` -/

/-- The tailer is the item that ends with the pool; behind any other there is one more. -/
theorem MemheapInv.split_item (i : MemheapInv c h bs fs) (ha : a ∈ bs)
    (hlast : a + c.memheapSize ≠ h.startAddr + h.poolSize) : ∃ as b cs, bs = as ++ a :: b :: cs := by
  obtain ⟨z, hz, hend⟩ := i.blocks.last
  refine i.split ha fun hl => hlast ?_
  obtain rfl : z = a := Option.some.inj (hz.symm.trans hl)
  exact hend

/-- The test for growing in place is sound: where it holds, `newsize + RT_MEMHEAP_MINIALLOC` has not wrapped. -/
def GrowthFits (c : MemheapCfg) (h : Memheap) (ptr newsize : Nat) : Prop :=
  blockSize c newsize > h.memitemSize c (sub ptr c.memheapSize) →
    fitsInPlace c h (sub ptr c.memheapSize) (blockSize c newsize) → blockSize c newsize + memheapMinialloc < 2 ^ 32

instance (c : MemheapCfg) (h : Memheap) (ptr newsize : Nat) : Decidable (GrowthFits c h ptr newsize) :=
  inferInstanceAs (Decidable (_ → _ → _))

/-- **`rt_memheap_realloc`** of a block in use returns. The block is given back (`newsize` 0), or left as it is where there
is no memory, or exchanged for the one returned, which is the same one unless it had to move. -/
theorem rtMemheapRealloc_spec (i : MemheapInv c h (as ++ a :: b :: cs) fs) (ha : h.isUsed a = true) (newsize : Nat)
    (hfits : newsize ≠ 0 → GrowthFits c h (a + c.memheapSize) newsize) :
    ∃ h' q bs' fs', rtMemheapRealloc c h (a + c.memheapSize) newsize = some (h', q) ∧ MemheapInv c h' bs' fs' ∧
      SameObject h h' ∧
      (newsize = 0 ∧ q = 0 ∧ (∀ y, InUse h' bs' y ↔ InUse h (as ++ a :: b :: cs) y ∧ y ≠ a) ∨
        newsize ≠ 0 ∧ q = 0 ∧ (∀ y, InUse h' bs' y ↔ InUse h (as ++ a :: b :: cs) y) ∨
        newsize ≠ 0 ∧ ∃ d, q = d + c.memheapSize ∧ (d = a ∨ ¬ InUse h (as ++ a :: b :: cs) d) ∧
          ∀ y, InUse h' bs' y ↔ InUse h (as ++ a :: b :: cs) y ∧ y ≠ a ∨ y = d) := by
  have hH := le_memheapSize c
  obtain ⟨hgap, hend, htop⟩ := i.blocks.gap
  have hsub : sub (a + c.memheapSize) c.memheapSize = a := by
    rw [sub_of_le (by omega) (by omega)]
    omega
  have hp : a + c.memheapSize ≠ 0 := by omega
  have hin : InUse h (as ++ a :: b :: cs) a := ⟨by simp, ha⟩
  -- in place, the block stays in use
  have hstay : ∀ {h' bs'}, (∀ y, InUse h' bs' y ↔ InUse h (as ++ a :: b :: cs) y) →
      ∀ y, InUse h' bs' y ↔ InUse h (as ++ a :: b :: cs) y ∧ y ≠ a ∨ y = a := fun hu y => by
    rw [hu y]
    by_cases hy : y = a
    · simp [hy, hin]
    · simp [hy]
  by_cases hzero : newsize = 0
  · obtain ⟨bs', fs', hi, hs, hu⟩ := rtMemheapFree_spec i ha
    exact ⟨_, _, bs', fs', by rw [rtMemheapRealloc, if_pos hzero], hi, hs, .inl ⟨hzero, rfl, hu⟩⟩
  have hfits := hfits hzero
  rw [GrowthFits, hsub] at hfits
  simp only [rtMemheapRealloc, if_neg hzero, if_neg hp, hsub]
  generalize blockSize c newsize = size at hfits ⊢
  have hold := i.blocks.memitemSize_eq
  by_cases hgrow : size > h.memitemSize c a
  · rw [if_pos hgrow]
    by_cases hplace : fitsInPlace c h a size
    · -- the next block is free, and not the tailer
      have hwide := hfits hgrow hplace
      have hn := hplace.1
      have hroom := hplace.2
      rw [i.blocks.next_eq.1] at hn hroom
      obtain ⟨d, ds, rfl⟩ : ∃ d ds, cs = d :: ds := by
        cases cs with
        | nil =>
          have hlast := i.listed.last b (by simp)
          rw [hn] at hlast
          cases hlast
        | cons d ds => exact ⟨d, ds, rfl⟩
      have hmid : as ++ a :: b :: d :: ds = (as ++ [a]) ++ b :: d :: ds := by simp
      have i' : MemheapInv c h ((as ++ [a]) ++ b :: d :: ds) fs := hmid ▸ i
      obtain ⟨hgapb, hendb, -⟩ := i'.blocks.gap
      have hsum : add (h.memitemSize c b) (h.memitemSize c a) = h.memitemSize c b + h.memitemSize c a := by
        rw [i'.blocks.memitemSize_eq, hold]
        exact add_of_lt (by omega)
      rw [hsum, add_of_lt hwide, i'.blocks.memitemSize_eq, hold] at hroom
      obtain ⟨bs', fs', hi, hs, hu⟩ := growInPlace_spec i hn hgrow (by omega : a + c.memheapSize + size + c.memheapSize ≤ d)
      exact ⟨_, _, bs', fs', by rw [if_pos hplace], hi, hs, .inr (.inr ⟨hzero, a, rfl, .inl rfl, hstay hu⟩)⟩
    · -- the block moves, unless there is no memory
      obtain ⟨k, q, bs₁, fs₁, halloc, hi, hs, hcase⟩ := rtMemheapAlloc_spec i size
      rw [if_neg hplace, halloc, Option.map_some]
      rcases hcase with ⟨rfl, rfl, rfl⟩ | ⟨d, rfl, hd, hu⟩
      · exact ⟨_, _, _, fs₁, by rw [if_neg (not_not.mpr rfl)], hi, hs, .inr (.inl ⟨hzero, rfl, fun y => Iff.rfl⟩)⟩
      · obtain ⟨hmem, hka⟩ := (hu a).mpr (.inl hin)
        obtain ⟨as', b', cs', rfl⟩ := hi.split_item hmem (by rw [hs.startAddr, hs.poolSize]; omega)
        obtain ⟨bs', fs', hi', hs', hu'⟩ := rtMemheapFree_spec hi hka
        have hq : d + c.memheapSize ≠ 0 := by omega
        have hda : d ≠ a := by
          rintro rfl
          exact hd hin
        refine ⟨_, _, bs', fs', by rw [if_pos hq], hi', hs.trans hs', .inr (.inr ⟨hzero, d, rfl, .inr hd, fun y => ?_⟩)⟩
        rw [hu' y, hu y]
        by_cases hy : y = d
        · simp [hy, hda]
        · simp [hy]
  · rw [if_neg hgrow]
    by_cases hkeep : add size (c.memheapSize + memheapMinialloc) ≥ h.memitemSize c a
    · exact ⟨h, _, _, fs, by rw [if_pos hkeep], i, ⟨rfl, rfl, rfl, rfl, rfl⟩,
        .inr (.inr ⟨hzero, a, rfl, .inl rfl, hstay fun y => Iff.rfl⟩)⟩
    · have hroom : size + c.memheapSize + memheapMinialloc < h.memitemSize c a := by
        have hsum : add size (c.memheapSize + memheapMinialloc) = size + (c.memheapSize + memheapMinialloc) :=
          add_of_lt (by unfold memheapMinialloc; omega)
        omega
      obtain ⟨bs', fs', hi, hs, hu⟩ := shrinkInPlace_spec i ha hroom
      exact ⟨_, _, bs', fs', by rw [if_neg hkeep], hi, hs, .inr (.inr ⟨hzero, a, rfl, .inl rfl, hstay hu⟩)⟩

end CoreLink.RtThread.Memheap
