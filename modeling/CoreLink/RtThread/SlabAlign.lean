/-
# `CoreLink.RtThread.SlabAlign` — where the slab allocator puts powers of two, `src/slab.c`.

The comment at the beginning of the file promises that all power-of-two sized allocations are aligned to their size. The offset of
the first chunk is a multiple of such a size, and so are the chunks; but a zone is at a multiple of the page size only, and so is
a run of pages. So a size up to the page size is aligned always, and a larger one when the zone or the run is (`slab_alignment`).
-/
import CoreLink.RtThread.SlabMemory

namespace CoreLink.RtThread

open CoreLink.Lib CoreLink.Lib.Extent

/-- A list of free pages represents one list of runs. -/
theorem PageHeap.Rep.unique {h : PageHeap} {runs runs' : List Extent} (r : Rep h runs) (r' : Rep h runs') : runs = runs' := by
  have hruns : ∀ {runs : List Extent}, Rep h runs → (runs.map Extent.start).map (fun a => ⟨a, h.page a⟩) = runs := by
    intro runs r
    rw [List.map_map]
    refine (List.map_congr_left fun e he => ?_).trans (List.map_id runs)
    show (⟨e.start, h.page e.start⟩ : Extent) = e
    rw [r.page e he]
  rw [← hruns r, ← hruns r', r.chain.unique r'.chain]

namespace SlabSys

open Slab

/-- The page at which the memory begins that a request is served from: the first run of free pages that is large enough, or a
zone. -/
def source (s : Slab) (runs : List Extent) (size : ℕ) : Option ℕ :=
  if s.zoneLimit ≤ size then (takeFirst (size / pageSize) runs).map Prod.fst else s.zoneFor runs (zoneindex size).2

/-- The memory that a request is served from begins at a multiple of its size. -/
def SourceAligned (s : Slab) (size : ℕ) : Prop :=
  ∃ runs b, PageHeap.Rep s.pages runs ∧ source s runs size = some b ∧ size ∣ b * pageSize

/-- A power of two that is a multiple of the page size is not rounded. -/
theorem alignUp_two_pow {k : ℕ} (hk : 12 ≤ k) (hlt : k < 32) : Word.alignUp 32 12 (2 ^ k) = 2 ^ k := by
  have hdvd : 2 ^ 12 ∣ 2 ^ k := Nat.pow_dvd_pow 2 hk
  have hpow : 2 ^ k ≤ 2 ^ 31 := Nat.pow_le_pow_right (by decide) (by omega)
  exact Nat.le_antisymm (Word.alignUp_le (by decide) (Nat.le_refl _) hdvd (by omega)) (Word.le_alignUp (by decide) (by omega))

/-- **Where a power of two is.** -/
theorem served_two_pow {s : Slab} {runs : List Extent} {k p : ℕ} (c : s.Config) (hrep : PageHeap.Rep s.pages runs) (hk : k < 32)
    (hserved : Served s runs (2 ^ k) p) : 2 ^ k ∣ p ↔ 2 ^ k ≤ pageSize ∨ SourceAligned s (2 ^ k) := by
  have hlimit := c.limit
  have hbound : 8192 ≤ s.zoneLimit ∧ s.zoneLimit ≤ 16384 := by rcases c.size with h | h | h <;> omega
  have hpage : pageSize = 2 ^ 12 := rfl
  have hsmall : 2 ^ k ≤ pageSize → k ≤ 12 := fun hle => (Nat.pow_le_pow_iff_right (by decide)).mp hle
  -- the alignment of the memory decides, for one source or the other
  have hiff : ∀ {b}, source s runs (2 ^ k) = some b → (2 ^ k ∣ b * pageSize ↔ 2 ^ k ≤ pageSize ∨ SourceAligned s (2 ^ k)) := by
    intro b hb
    constructor
    · exact fun hdvd => Or.inr ⟨runs, b, hrep, hb, hdvd⟩
    · rintro (hle | ⟨runs', b', hrep', hb', hdvd⟩)
      · exact Dvd.dvd.mul_left (Nat.pow_dvd_pow 2 (hsmall hle)) b
      · obtain rfl := hrep'.unique hrep
        obtain rfl := Option.some.inj (hb'.symm.trans hb)
        exact hdvd
  rcases hserved with ⟨hlarge, b, hb, rfl⟩ | ⟨hlt, b, j, hb, rfl⟩
  · have hge : 12 ≤ k := by
      by_contra hlt
      have hle : 2 ^ k ≤ 2 ^ 12 := Nat.pow_le_pow_right (by decide) (by omega)
      omega
    refine hiff ?_
    rw [alignUp_two_pow hge hk] at hb
    unfold source
    rw [if_pos hlarge, hb]
  · have hk14 : k < 14 := by
      by_contra hge
      have hle : 2 ^ 14 ≤ 2 ^ k := Nat.pow_le_pow_right (by decide) (by omega)
      omega
    obtain ⟨hsize, hoff⟩ := zoneindex_two_pow hk14
    rw [← hiff (b := b) (by unfold source; rw [if_neg (by omega), hb]), Nat.add_assoc]
    exact (Nat.dvd_add_iff_left (Nat.dvd_add hoff (Dvd.dvd.mul_left hsize j))).symm

/-- **The alignment of powers of two**, in every state that is reached. -/
theorem slab_alignment {fuel beginAddr endAddr : ℕ} {pages : PageHeap} {zone : ℕ → SlabZone} {memusage : ℕ → Memusage}
    {heap : Slab} {cs : List SlabCall} {s : SlabSys}
    (hinit : rtSystemHeapInit fuel beginAddr endAddr pages zone memusage = some heap) (hrun : Run Step ⟨heap, []⟩ cs s)
    {k fuel' p : ℕ} {heap' : Slab} (hk : k < 32) (hcall : s.heap.rtMalloc fuel' (2 ^ k) = some (some p, heap')) :
    2 ^ k ∣ p ↔ 2 ^ k ≤ pageSize ∨ SourceAligned s.heap (2 ^ k) := by
  obtain ⟨lo, n, hlo, hcnt, runs, other, zs, larges, out, i⟩ := of_run hinit hrun
  have hlt : 2 ^ k < 2 ^ 32 := Nat.pow_lt_pow_right (by decide) hk
  obtain ⟨o, heap'', hreturns, -, hserved⟩ := i.malloc hcnt hlt
  obtain ⟨rfl, -⟩ := Prod.mk.inj (hreturns.unique hcall)
  exact served_two_pow i.config i.store.rep hk (hserved p rfl)

/-- Behind a large area of 3 pages there is one at a multiple of 8192. -/
theorem slab_alignment_run : ∃ s heap, Run Step ⟨twentyPages, []⟩ [.malloc 12288] s ∧
    s.heap.rtMalloc 1 (2 ^ 13) = some (some 24576, heap) ∧
      (2 ^ 13 ∣ 24576 ↔ 2 ^ 13 ≤ pageSize ∨ SourceAligned s.heap (2 ^ 13)) := by
  have hsome : (List.foldlM (exec 1) (⟨twentyPages, []⟩ : SlabSys) [.malloc 12288]).isSome := by decide
  have hrun := run_of_exec 1 ⟨twentyPages, []⟩ [.malloc 12288] hsome
  have hcall : (Option.get _ hsome).heap.rtMalloc 1 (2 ^ 13) = some (some 24576, _) := rfl
  exact ⟨_, _, hrun, hcall, slab_alignment twentyPages_init hrun (by decide) hcall⟩

/-- The first pages of the heap behind `memusage` are not at a multiple of 8192. -/
theorem slab_alignment_large : ¬∀ (fuel beginAddr endAddr : ℕ) (pages : PageHeap) (zone : ℕ → SlabZone)
    (memusage : ℕ → Memusage) (heap : Slab) (cs : List SlabCall) (s : SlabSys) (k fuel' p : ℕ) (heap' : Slab),
    rtSystemHeapInit fuel beginAddr endAddr pages zone memusage = some heap → Run Step ⟨heap, []⟩ cs s → k < 32 →
      s.heap.rtMalloc fuel' (2 ^ k) = some (some p, heap') → 2 ^ k ∣ p := by
  intro hall
  have hcall : twentyPages.rtMalloc 1 (2 ^ 13) = some (some 12288, ((twentyPages.rtMalloc 1 (2 ^ 13)).get (by decide)).2) := rfl
  have hdvd := hall _ _ _ _ _ _ _ [] ⟨twentyPages, []⟩ 13 1 12288 _ twentyPages_init .nil (by decide) hcall
  revert hdvd
  decide

end SlabSys

end CoreLink.RtThread
