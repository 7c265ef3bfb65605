/-
# `CoreLink.RtThread.Slab` — the slab allocator, `src/slab.c`.

A request below `zone_limit` is rounded up to one of 72 chunk sizes, and served from a zone: some pages with a header, behind
which the chunks of one size are. A chunk comes from the part of the zone that has never been used, or from the list of those
that have been freed; a zone with chunks left is in the `zone_array` of its index, a zone all of whose chunks are free may be
kept for any index, or its pages are given back. Larger requests are pages. What a page belongs to is found in `memusage`.

A zone is the number of its first page here, and the lists of zones and of chunks are lists. This module has the functions, and
what `zoneindex` and the offset of the first chunk are for each index.
-/
import CoreLink.Lib.Word
import CoreLink.RtThread.SlabPage

namespace CoreLink.RtThread

open CoreLink.Lib

/-! ## The data -/

/-- The types of pages. -/
inductive PageType where
  | free
  | small
  | large
deriving DecidableEq

/-- `struct memusage`. -/
structure Memusage where
  type : PageType
  size : ℕ
deriving DecidableEq

/-- `struct slab_zone`, but for the link. -/
structure SlabZone where
  magic : ℤ
  nfree : ℕ
  nmax : ℕ
  baseptr : ℕ
  uindex : ℕ
  chunksize : ℕ
  zoneindex : ℕ
  freechunk : List ℕ

/-- The variables of the file. -/
structure Slab where
  pages : PageHeap
  zone : ℕ → SlabZone
  zoneArray : ℕ → List ℕ
  zoneFree : List ℕ
  zoneFreeCnt : ℕ
  zoneSize : ℕ
  zoneLimit : ℕ
  memusage : ℕ → Memusage
  usedMem : ℕ
  maxMem : ℕ

namespace Slab

/-- `RT_MM_PAGE_SIZE`. -/
def pageSize : ℕ := 4096

/-- `sizeof(slab_zone)`. -/
def zoneHeader : ℕ := 36

/-- `ZALLOC_SLAB_MAGIC`. -/
def slabMagic : ℤ := 0x51ab51ab

/-- `NZONES`. -/
def nzones : ℕ := 72

/-- `ZONE_RELEASE_THRESH`. -/
def zoneReleaseThresh : ℕ := 2

/-! ## The functions -/

/-- `zoneindex`: the size of the chunk and the index; the last line is for a size that is too large. -/
def zoneindex (bytes : ℕ) : ℕ × ℕ :=
  if bytes < 128 then
    let n := Word.alignUp 32 3 bytes
    (n, n / 8 - 1)
  else if bytes < 256 then
    let n := Word.alignUp 32 4 bytes
    (n, n / 16 + 7)
  else if bytes < 8192 then
    if bytes < 512 then
      let n := Word.alignUp 32 5 bytes
      (n, n / 32 + 15)
    else if bytes < 1024 then
      let n := Word.alignUp 32 6 bytes
      (n, n / 64 + 23)
    else if bytes < 2048 then
      let n := Word.alignUp 32 7 bytes
      (n, n / 128 + 31)
    else if bytes < 4096 then
      let n := Word.alignUp 32 8 bytes
      (n, n / 256 + 39)
    else
      let n := Word.alignUp 32 9 bytes
      (n, n / 512 + 47)
  else if bytes < 16384 then
    let n := Word.alignUp 32 10 bytes
    (n, n / 1024 + 55)
  else (bytes, 0)

/-- The offset of the first chunk of `rt_malloc`: behind the header, and a multiple of the size if that is a power of two. -/
def zoneOff (size : ℕ) : ℕ :=
  if (size ||| (size - 1)) + 1 = size <<< 1 then (zoneHeader + size - 1) &&& (2 ^ 32 - size)
  else (zoneHeader + 7) &&& (2 ^ 32 - 8)

/-- `used_mem` grows. -/
def addUsed (s : Slab) (size : ℕ) : Slab :=
  { s with usedMem := s.usedMem + size, maxMem := max s.maxMem (s.usedMem + size) }

/-- The header of a zone is written. -/
def setZone (s : Slab) (z : ℕ) (h : SlabZone) : Slab := { s with zone := Function.update s.zone z h }

/-- The list of an index is written. -/
def setArray (s : Slab) (zi : ℕ) (zs : List ℕ) : Slab := { s with zoneArray := Function.update s.zoneArray zi zs }

/-- The loops of `rt_malloc` and of `rt_free` over the pages of a zone. -/
def setUsage (s : Slab) (z : ℕ) (kup : ℕ → Memusage) : Slab :=
  { s with memusage := fun p => if z ≤ p ∧ p < z + s.zoneSize / pageSize then kup (p - z) else s.memusage p }

/-- The part of `rt_malloc` for a zone that has chunks left; `none` when the assertion fails, or for a list of chunks that is
empty. -/
def takeChunk (s : Slab) (zi size z : ℕ) (zs : List ℕ) : Option (ℕ × Slab) :=
  let h := s.zone z
  if h.nfree = 0 then none
  else
    let s := if h.nfree - 1 = 0 then s.setArray zi zs else s
    if h.uindex + 1 ≠ h.nmax then
      let h := { h with nfree := h.nfree - 1, uindex := h.uindex + 1 }
      some (h.baseptr + h.uindex * size, (s.setZone z h).addUsed h.chunksize)
    else
      match h.freechunk with
      | [] => none
      | chunk :: chunks =>
        some (chunk, (s.setZone z { h with nfree := h.nfree - 1, freechunk := chunks }).addUsed h.chunksize)

/-- The end of `rt_malloc`, for a zone that has none yet. -/
def setUp (s : Slab) (zi size z : ℕ) : ℕ × Slab :=
  let off := zoneOff size
  let nmax := (s.zoneSize - off) / size
  let baseptr := z * pageSize + off
  let h : SlabZone := ⟨slabMagic, nmax - 1, nmax, baseptr, 0, size, zi, []⟩
  (baseptr + 0 * size, ((s.setZone z h).setArray zi (z :: s.zoneArray zi)).addUsed size)

/-- `rt_malloc`; `none` when it does not return, or an assertion fails. -/
def rtMalloc (fuel size : ℕ) (s : Slab) : Option (Option ℕ × Slab) :=
  if size = 0 then some (none, s)
  else if s.zoneLimit ≤ size then
    let size := Word.alignUp 32 12 size
    match s.pages.rtPageAlloc fuel (size / pageSize) with
    | none => none
    | some (none, pages) => some (none, { s with pages := pages })
    | some (some p, pages) =>
      let s := { s with pages := pages, memusage := Function.update s.memusage p ⟨.large, size / pageSize⟩ }
      some (some (p * pageSize), s.addUsed size)
  else
    let size' := (zoneindex size).1
    let zi := (zoneindex size).2
    if nzones ≤ zi then none
    else
      match s.zoneArray zi with
      | z :: zs => (s.takeChunk zi size' z zs).map fun r => (some r.1, r.2)
      | [] =>
        match s.zoneFree with
        | z :: zs =>
          let r := { s with zoneFree := zs, zoneFreeCnt := s.zoneFreeCnt - 1 }.setUp zi size' z
          some (some r.1, r.2)
        | [] =>
          match s.pages.rtPageAlloc fuel (s.zoneSize / pageSize) with
          | none => none
          | some (none, pages) => some (none, { s with pages := pages })
          | some (some z, pages) =>
            let r := ({ s with pages := pages }.setUsage z fun off => ⟨.small, off⟩).setUp zi size' z
            some (some r.1, r.2)

/-- The zone to which a chunk belongs. -/
def owner (s : Slab) (ptr : ℕ) : ℕ := ptr / pageSize - (s.memusage (ptr / pageSize)).size

/-- The part of `rt_free` that puts a chunk on the list of its zone. -/
def freeChunk (s : Slab) (z ptr : ℕ) : Slab :=
  let h := s.zone z
  let s := { s with usedMem := s.usedMem - h.chunksize }
  let s := if h.nfree = 0 then s.setArray h.zoneindex (z :: s.zoneArray h.zoneindex) else s
  s.setZone z { h with nfree := h.nfree + 1, freechunk := ptr :: h.freechunk }

/-- A zone that is totally free is kept for any index. -/
def retire (s : Slab) (z : ℕ) : Slab :=
  let s := s.setArray (s.zone z).zoneindex ((s.zoneArray (s.zone z).zoneindex).erase z)
  let s := s.setZone z { s.zone z with magic := -1 }
  { s with zoneFree := z :: s.zoneFree, zoneFreeCnt := s.zoneFreeCnt + 1 }

/-- The pages of the first zone that is kept are given back. -/
def release (fuel : ℕ) (s : Slab) : Option Slab :=
  match s.zoneFree with
  | [] => none
  | z :: zs =>
    let s := { s with zoneFree := zs, zoneFreeCnt := s.zoneFreeCnt - 1 }.setUsage z fun _ => ⟨.free, 0⟩
    (s.pages.rtPageFree fuel z (s.zoneSize / pageSize)).map fun pages => { s with pages := pages }

/-- `rt_free`; `none` when it does not return, or an assertion fails. -/
def rtFree (fuel ptr : ℕ) (s : Slab) : Option Slab :=
  if ptr = 0 then some s
  else
    let kup := s.memusage (ptr / pageSize)
    if kup.type = .large then
      if ptr % pageSize ≠ 0 then none
      else
        let s :=
          { s with
            memusage := Function.update s.memusage (ptr / pageSize) { kup with size := 0 }
            usedMem := s.usedMem - kup.size * pageSize }
        (s.pages.rtPageFree fuel (ptr / pageSize) kup.size).map fun pages => { s with pages := pages }
    else
      let z := s.owner ptr
      if (s.zone z).magic ≠ slabMagic then none
      else
        let s := s.freeChunk z ptr
        let h := s.zone z
        if h.nfree = h.nmax ∧ s.zoneArray h.zoneindex ≠ [z] then
          let s := s.retire z
          if zoneReleaseThresh < s.zoneFreeCnt then s.release fuel else some s
        else some s

/-- The loop of `rt_system_heap_init` that computes `zone_size`. -/
def zoneSizeFor (limsize : ℕ) : ℕ :=
  let bigger (size : ℕ) : ℕ := if size < 131072 ∧ size * 2 < limsize / 1024 then size * 2 else size
  bigger (bigger 32768)

/-- `rt_system_heap_init`, for addresses that are not wrong; `zone_array` and `zone_free` are static, and so empty. -/
def rtSystemHeapInit (fuel beginAddr endAddr : ℕ) (pages : PageHeap) (zone : ℕ → SlabZone) (memusage : ℕ → Memusage) :
    Option Slab :=
  let heapStart := Word.alignUp 32 12 beginAddr
  let heapEnd := Word.alignDown 32 12 endAddr
  if heapEnd ≤ heapStart then none
  else
    let limsize := heapEnd - heapStart
    let npages := limsize / pageSize
    match pages.rtPageInit fuel (heapStart / pageSize) npages with
    | none => none
    | some pages =>
      let zoneSize := zoneSizeFor limsize
      let zoneLimit := min (zoneSize / 4) 16384
      (pages.rtPageAlloc fuel (Word.alignUp 32 12 (npages * 4) / pageSize)).map fun r =>
        ⟨r.2, zone, fun _ => [], [], 0, zoneSize, zoneLimit, memusage, 0, 0⟩

/-! ## The chunks of an index -/

/-- The size of the chunks of an index. -/
def chunkOf (zi : ℕ) : ℕ :=
  if zi ≤ 15 then 8 * (zi + 1)
  else if zi ≤ 23 then 16 * (zi - 7)
  else if zi ≤ 31 then 32 * (zi - 15)
  else if zi ≤ 39 then 64 * (zi - 23)
  else if zi ≤ 47 then 128 * (zi - 31)
  else if zi ≤ 55 then 256 * (zi - 39)
  else if zi ≤ 63 then 512 * (zi - 47)
  else 1024 * (zi - 55)

/-- Where two ranges meet, both say the same. -/
theorem chunkOf_spec (zi : ℕ) :
    (zi ≤ 15 → chunkOf zi = 8 * (zi + 1)) ∧ (15 ≤ zi ∧ zi ≤ 23 → chunkOf zi = 16 * (zi - 7)) ∧
    (23 ≤ zi ∧ zi ≤ 31 → chunkOf zi = 32 * (zi - 15)) ∧ (31 ≤ zi ∧ zi ≤ 39 → chunkOf zi = 64 * (zi - 23)) ∧
    (39 ≤ zi ∧ zi ≤ 47 → chunkOf zi = 128 * (zi - 31)) ∧ (47 ≤ zi ∧ zi ≤ 55 → chunkOf zi = 256 * (zi - 39)) ∧
    (55 ≤ zi ∧ zi ≤ 63 → chunkOf zi = 512 * (zi - 47)) ∧ (63 ≤ zi → chunkOf zi = 1024 * (zi - 55)) := by
  unfold chunkOf
  split_ifs <;> omega

/-- What `zoneindex` is to give for `n`: an index of the table, and its chunk size, which is large enough and not above 8192 for
a size below. -/
def Fits (n : ℕ) (r : ℕ × ℕ) : Prop := r.2 < nzones ∧ r.1 = chunkOf r.2 ∧ n ≤ r.1 ∧ (n < 8192 → r.1 ≤ 8192)

/-- A range of sizes, which are rounded up to a multiple of `d`. -/
theorem fits_class {k n : ℕ} (d idx : ℕ) (f : ℕ → ℕ) (hd : 2 ^ k = d) (hk : k ≤ 10) (hn : n < 16384)
    (hf : f ((n + d - 1) / d) = idx) (hidx : idx < nzones) (hchunk : chunkOf idx = d * ((n + d - 1) / d))
    (hmax : n < 8192 → d * ((n + d - 1) / d) ≤ 8192) : Fits n (Word.alignUp 32 k n, f (Word.alignUp 32 k n / d)) := by
  subst hd
  have hpow : 2 ^ k ≤ 2 ^ 10 := Nat.pow_le_pow_right (by decide) hk
  have heq : Word.alignUp 32 k n = 2 ^ k * ((n + 2 ^ k - 1) / 2 ^ k) := by
    rw [Word.alignUp_eq (by omega) (by omega), Nat.mul_comm]
  have hle : n ≤ Word.alignUp 32 k n := Word.le_alignUp (by omega) (by omega)
  have hdiv : f (Word.alignUp 32 k n / 2 ^ k) = idx := by
    rw [heq, Nat.mul_div_cancel_left _ (Nat.two_pow_pos k), hf]
  rw [hdiv]
  exact ⟨hidx, heq.trans hchunk.symm, hle, fun h => heq ▸ hmax h⟩

/-- **`zoneindex`** gives the index whose chunks are large enough. -/
theorem zoneindex_fits {n : ℕ} (h0 : 0 < n) (hn : n < 16384) : Fits n (zoneindex n) := by
  unfold zoneindex
  split_ifs
  · refine fits_class 8 ((n + 8 - 1) / 8 - 1) (fun m => m - 1) rfl (by decide) hn rfl ?_ ?_ (by omega)
    · unfold nzones
      omega
    · rw [(chunkOf_spec _).1 (by omega)]
      omega
  · refine fits_class 16 ((n + 16 - 1) / 16 + 7) (fun m => m + 7) rfl (by decide) hn rfl ?_ ?_ (by omega)
    · unfold nzones
      omega
    · rw [(chunkOf_spec _).2.1 (by omega)]
      omega
  · refine fits_class 32 ((n + 32 - 1) / 32 + 15) (fun m => m + 15) rfl (by decide) hn rfl ?_ ?_ (by omega)
    · unfold nzones
      omega
    · rw [(chunkOf_spec _).2.2.1 (by omega)]
      omega
  · refine fits_class 64 ((n + 64 - 1) / 64 + 23) (fun m => m + 23) rfl (by decide) hn rfl ?_ ?_ (by omega)
    · unfold nzones
      omega
    · rw [(chunkOf_spec _).2.2.2.1 (by omega)]
      omega
  · refine fits_class 128 ((n + 128 - 1) / 128 + 31) (fun m => m + 31) rfl (by decide) hn rfl ?_ ?_ (by omega)
    · unfold nzones
      omega
    · rw [(chunkOf_spec _).2.2.2.2.1 (by omega)]
      omega
  · refine fits_class 256 ((n + 256 - 1) / 256 + 39) (fun m => m + 39) rfl (by decide) hn rfl ?_ ?_ (by omega)
    · unfold nzones
      omega
    · rw [(chunkOf_spec _).2.2.2.2.2.1 (by omega)]
      omega
  · refine fits_class 512 ((n + 512 - 1) / 512 + 47) (fun m => m + 47) rfl (by decide) hn rfl ?_ ?_ (by omega)
    · unfold nzones
      omega
    · rw [(chunkOf_spec _).2.2.2.2.2.2.1 (by omega)]
      omega
  · refine fits_class 1024 ((n + 1024 - 1) / 1024 + 55) (fun m => m + 55) rfl (by decide) hn rfl ?_ ?_ (by omega)
    · unfold nzones
      omega
    · rw [(chunkOf_spec _).2.2.2.2.2.2.2 (by omega)]
      omega

/-- The offset of the first chunk, for each index: behind the header, and at least two chunks fit behind it. -/
theorem zoneOff_spec {zi : ℕ} (hzi : zi < nzones) :
    8 ≤ chunkOf zi ∧ zoneHeader ≤ zoneOff (chunkOf zi) ∧ (chunkOf zi ≤ 8192 → zoneOff (chunkOf zi) + 2 * chunkOf zi ≤ 32768) ∧
      zoneOff (chunkOf zi) + 2 * chunkOf zi ≤ 65536 := by
  revert zi
  decide

/-- A power of two is not rounded, but for those below 8, and the first chunk is at a multiple of it. -/
theorem zoneindex_two_pow {k : ℕ} (hk : k < 14) :
    2 ^ k ∣ (zoneindex (2 ^ k)).1 ∧ 2 ^ k ∣ zoneOff (zoneindex (2 ^ k)).1 := by
  revert k
  decide

end Slab

end CoreLink.RtThread
