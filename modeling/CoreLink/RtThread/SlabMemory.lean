/-
# `CoreLink.RtThread.SlabMemory` — the memory that the slab allocator hands out, `src/slab.c`.

What the invariant says of the pages and of the zones, told of the memory: whatever the callers have asked for and freed, the
chunks and the large areas that they have are apart from each other, from the headers of the zones and from the free pages, each
is as large as was asked for, and the counters are right (`slab_allocator`).
-/
import CoreLink.RtThread.SlabRuns

namespace CoreLink.RtThread.SlabSys

open CoreLink.Lib CoreLink.Lib.Extent Slab

/-- The bytes of some pages. -/
def bytes (e : Extent) : Extent := ⟨e.start * pageSize, e.size * pageSize⟩

theorem apart_bytes {e f : Extent} (h : Apart e f) : Apart (bytes e) (bytes f) := by
  unfold Apart bytes pageSize at *
  dsimp only
  omega

/-- The header of a zone. -/
def header (z : ℕ) : Extent := ⟨z * pageSize, zoneHeader⟩

/-- A zone: it is in the list of its index, or one of its chunks is in use. -/
def IsZone (s : SlabSys) (z : ℕ) : Prop :=
  (∃ zi, z ∈ s.heap.zoneArray zi) ∨
    ∃ l ∈ s.live, (s.heap.memusage (l.1 / pageSize)).type = .small ∧ s.heap.owner l.1 = z

/-- **What is promised of the allocator**, where `runs` are the free pages. -/
structure SlabOk (s : SlabSys) (runs : List Extent) : Prop where
  pages : PageHeap.Rep s.heap.pages runs
  nfree : ∀ z, s.IsZone z ∨ z ∈ s.heap.zoneFree → (s.heap.zone z).nfree =
    ((s.heap.zone z).nmax - 1 - (s.heap.zone z).uindex) + (s.heap.zone z).freechunk.length
  array : ∀ zi z, z ∈ s.heap.zoneArray zi ↔ s.IsZone z ∧ (s.heap.zone z).zoneindex = zi ∧ 0 < (s.heap.zone z).nfree
  once : ∀ zi, (s.heap.zoneArray zi).Nodup
  apart : (s.live.map fun l => s.heap.area l.1).Pairwise Apart
  headers : ∀ z, s.IsZone z ∨ z ∈ s.heap.zoneFree → ∀ l ∈ s.live, Apart (s.heap.area l.1) (header z)
  free : ∀ e ∈ runs, ∀ l ∈ s.live, Apart (s.heap.area l.1) (bytes e)
  asked : ∀ l ∈ s.live, l.2 ≤ (s.heap.area l.1).size
  used : s.heap.usedMem = (s.live.map fun l => (s.heap.area l.1).size).sum
  malloc_ends : ∀ size < 2 ^ 32, ∃ fuel x, s.heap.rtMalloc fuel size = some x
  free_ends : ∀ l ∈ s.live, ∃ fuel x, s.heap.rtFree fuel l.1 = some x

variable {lo n z p q : ℕ} {s : SlabSys} {runs other : List Extent} {zs larges : List ℕ} {out : ℕ → List ℕ}

/-- The zones of the invariant are the zones. -/
theorem isZone_iff (i : Inv lo n s.heap s.live runs other zs s.heap.zoneFree larges out) : s.IsZone z ↔ z ∈ zs := by
  constructor
  · rintro (⟨zi, hz⟩ | ⟨l, hl, htype, howner⟩)
    · exact ((i.array zi z).mp hz).1
    · rcases (i.pointers l.1).mp (List.mem_map_of_mem hl) with ⟨q, hq, heq⟩ | ⟨z', hz', hp⟩
      · rw [heq, Inv.page_of_large, i.large q hq] at htype
        exact nomatch htype
      · rw [i.owner_of_chunk hz' hp] at howner
        exact howner ▸ hz'
  · intro hz
    have ok := i.zones z hz
    by_cases hfree : 0 < (s.heap.zone z).nfree
    · exact Or.inl ⟨_, (i.array _ z).mpr ⟨hz, rfl, hfree⟩⟩
    · -- no chunk is free, and there are some
      have hcounted : (s.heap.zone z).nfree =
          ((s.heap.zone z).nmax - 1 - (s.heap.zone z).uindex) + (s.heap.zone z).freechunk.length := ok.nfree
      have hlen := ok.parts.length_eq
      unfold chunks at hlen
      rw [List.length_append, List.length_map, List.length_range] at hlen
      have hpos : 0 < (out z).length := by omega
      obtain ⟨p, hp⟩ := List.exists_mem_of_length_pos hpos
      obtain ⟨l, hl, rfl⟩ := List.mem_map.mp ((i.pointers p).mpr (Or.inr ⟨z, hz, hp⟩))
      exact Or.inr ⟨l, hl, i.type_of_chunk hz hp, i.owner_of_chunk hz hp⟩

/-- A chunk is in its zone, behind the header. -/
theorem chunk_within (i : Inv lo n s.heap s.live runs other zs s.heap.zoneFree larges out) (hz : z ∈ zs) (hp : p ∈ out z) :
    Within (s.heap.area p) (bytes (s.heap.zoneExtent z)) ∧ Apart (s.heap.area p) (header z) := by
  have ok := i.zones z hz
  obtain ⟨hle, hend⟩ := ok.within (List.mem_append_left _ hp)
  have hoff := (zoneOff_spec ok.index).2.1
  rw [← ok.chunksize] at hoff
  have hsize := i.config.zonePages_mul
  rw [i.area_of_chunk hz hp]
  unfold Within Apart bytes header zoneExtent
  dsimp only
  omega

/-- Two extents of the zones and of the large areas that begin at different pages are apart. -/
theorem owned_apart (i : Inv lo n s.heap s.live runs other zs s.heap.zoneFree larges out) {e f : Extent}
    (he : e ∈ s.heap.owned zs s.heap.zoneFree larges) (hf : f ∈ s.heap.owned zs s.heap.zoneFree larges)
    (hne : e.start ≠ f.start) : Apart (bytes e) (bytes f) := by
  rcases i.store.packed.apart_of_mem (List.mem_append_right other he) (List.mem_append_right other hf) with rfl | h
  · exact absurd rfl hne
  · exact apart_bytes h

theorem zoneExtent_mem (hz : z ∈ zs ++ s.heap.zoneFree) : s.heap.zoneExtent z ∈ s.heap.owned zs s.heap.zoneFree larges :=
  List.mem_append_left _ (List.mem_map_of_mem hz)

theorem largeExtent_mem (hq : q ∈ larges) : s.heap.largeExtent q ∈ s.heap.owned zs s.heap.zoneFree larges :=
  List.mem_append_right _ (List.mem_map_of_mem hq)

/-- The first page of a zone is not that of a large area. -/
theorem zone_ne_large (i : Inv lo n s.heap s.live runs other zs s.heap.zoneFree larges out) (hz : z ∈ zs ++ s.heap.zoneFree)
    (hq : q ∈ larges) : z ≠ q := by
  rintro rfl
  have hsmall := i.small z hz 0 i.config.zonePages_pos
  have hlarge := i.large z hq
  rw [Nat.add_zero] at hsmall
  rw [hsmall] at hlarge
  exact nomatch hlarge

/-- A large area is the bytes of its pages. -/
theorem area_large (i : Inv lo n s.heap s.live runs other zs s.heap.zoneFree larges out) (hq : q ∈ larges) :
    s.heap.area (q * pageSize) = bytes (s.heap.largeExtent q) := i.area_of_large hq

/-- **Two pointers** stand for memory that is apart. -/
theorem area_apart (i : Inv lo n s.heap s.live runs other zs s.heap.zoneFree larges out) (hp : p ∈ s.live.map Prod.fst)
    (hq : q ∈ s.live.map Prod.fst) (hne : p ≠ q) : Apart (s.heap.area p) (s.heap.area q) := by
  have hmixed : ∀ {a z p}, a ∈ larges → z ∈ zs → p ∈ out z → Apart (s.heap.area (a * pageSize)) (s.heap.area p) := by
    intro a z p ha hz hp
    have hz' := List.mem_append_left s.heap.zoneFree hz
    have hapart := owned_apart i (zoneExtent_mem hz') (largeExtent_mem ha) (zone_ne_large i hz' ha)
    rw [area_large i ha]
    exact (hapart.within (chunk_within i hz hp).1).symm
  rcases (i.pointers p).mp hp with ⟨a, ha, rfl⟩ | ⟨z, hz, hp⟩
  · rcases (i.pointers q).mp hq with ⟨b, hb, rfl⟩ | ⟨z, hz, hq⟩
    · have hab : a ≠ b := fun heq => hne (by rw [heq])
      rw [area_large i ha, area_large i hb]
      exact owned_apart i (largeExtent_mem ha) (largeExtent_mem hb) hab
    · exact hmixed ha hz hq
  · rcases (i.pointers q).mp hq with ⟨b, hb, rfl⟩ | ⟨z', hz', hq⟩
    · exact (hmixed hb hz hp).symm
    · by_cases heq : z = z'
      · subst heq
        rw [i.area_of_chunk hz hp, i.area_of_chunk hz hq]
        exact (i.zones z hz).apart (List.mem_append_left _ hp) (List.mem_append_left _ hq) hne
      · have hapart := owned_apart i (zoneExtent_mem (List.mem_append_left _ hz))
          (zoneExtent_mem (List.mem_append_left _ hz')) heq
        exact ((hapart.within (chunk_within i hz hp).1).symm.within (chunk_within i hz' hq).1).symm

/-- **A pointer and a header**: the memory is apart from it. -/
theorem header_apart (i : Inv lo n s.heap s.live runs other zs s.heap.zoneFree larges out) (hz : z ∈ zs ++ s.heap.zoneFree)
    (hp : p ∈ s.live.map Prod.fst) : Apart (s.heap.area p) (header z) := by
  have hheader : Within (header z) (bytes (s.heap.zoneExtent z)) := by
    have hpos := i.config.zonePages_pos
    unfold Within header bytes zoneExtent zoneHeader pageSize
    dsimp only
    omega
  rcases (i.pointers p).mp hp with ⟨q, hq, rfl⟩ | ⟨z', hz', hp⟩
  · have hapart := owned_apart i (zoneExtent_mem hz) (largeExtent_mem hq) (zone_ne_large i hz hq)
    rw [area_large i hq]
    exact (hapart.within hheader).symm
  · by_cases heq : z = z'
    · subst heq
      exact (chunk_within i hz' hp).2
    · have hapart := owned_apart i (zoneExtent_mem hz) (zoneExtent_mem (List.mem_append_left _ hz')) heq
      exact ((hapart.within hheader).symm.within (chunk_within i hz' hp).1)

/-- **A pointer and a free run**: the memory is apart from its pages. -/
theorem free_apart (i : Inv lo n s.heap s.live runs other zs s.heap.zoneFree larges out) {e : Extent} (he : e ∈ runs)
    (hp : p ∈ s.live.map Prod.fst) : Apart (s.heap.area p) (bytes e) := by
  rcases (i.pointers p).mp hp with ⟨q, hq, rfl⟩ | ⟨z, hz, hp⟩
  · rw [area_large i hq]
    exact (apart_bytes (i.store.apart he (List.mem_append_right other (largeExtent_mem hq)))).symm
  · have hmem : s.heap.zoneExtent z ∈ s.heap.owned zs s.heap.zoneFree larges :=
      zoneExtent_mem (List.mem_append_left s.heap.zoneFree hz)
    exact (apart_bytes (i.store.apart he (List.mem_append_right other hmem))).symm.within (chunk_within i hz hp).1

/-- **The slab allocator**, after any calls of `rt_malloc` and of `rt_free` for pointers that the callers have. -/
theorem slab_allocator {fuel beginAddr endAddr : ℕ} {pages : PageHeap} {zone : ℕ → SlabZone} {memusage : ℕ → Memusage}
    {heap : Slab} {cs : List SlabCall} (hinit : rtSystemHeapInit fuel beginAddr endAddr pages zone memusage = some heap)
    (hrun : Run Step ⟨heap, []⟩ cs s) : ∃ runs, SlabOk s runs := by
  obtain ⟨lo, n, hlo, hsound⟩ := of_run hinit hrun
  obtain ⟨hcnt, runs, other, zs, larges, out, i⟩ := hsound
  have hzone : ∀ z, s.IsZone z ∨ z ∈ s.heap.zoneFree → z ∈ zs ++ s.heap.zoneFree := fun z hz =>
    List.mem_append.mpr (hz.imp_left (isZone_iff i).mp)
  refine ⟨runs, ?_⟩
  constructor
  case pages => exact i.store.rep
  case nfree =>
    intro z hz
    rcases List.mem_append.mp (hzone z hz) with hz | hz
    · exact (i.zones z hz).nfree
    · exact i.kept z hz
  case array =>
    intro zi z
    rw [isZone_iff i]
    exact i.array zi z
  case once => exact i.arrayNodup
  case apart =>
    rw [List.pairwise_map]
    have hnd := i.nodup
    rw [List.Nodup, List.pairwise_map] at hnd
    exact hnd.imp_of_mem fun hl hl' hne => area_apart i (List.mem_map_of_mem hl) (List.mem_map_of_mem hl') hne
  case headers => exact fun z hz l hl => header_apart i (hzone z hz) (List.mem_map_of_mem hl)
  case free => exact fun e he l hl => free_apart i he (List.mem_map_of_mem hl)
  case asked => exact i.asked
  case used => exact i.used
  case malloc_ends =>
    intro size hsize
    obtain ⟨o, heap', hreturns, -⟩ := i.malloc hcnt hsize
    obtain ⟨fuel, hcall⟩ := hreturns.ends
    exact ⟨fuel, _, hcall⟩
  case free_ends =>
    intro l hl
    obtain ⟨heap', hreturns, -⟩ := Sound.free ⟨hcnt, runs, other, zs, larges, out, i⟩ hlo (r := l.2) hl
    obtain ⟨fuel, hcall⟩ := hreturns.ends
    exact ⟨fuel, _, hcall⟩

/-- A heap of 20 pages, from the third one on. -/
def twentyPages : Slab :=
  (rtSystemHeapInit 1 8192 90112 PageSys.noPages (fun _ => ⟨0, 0, 0, 0, 0, 0, 0, []⟩) fun _ => ⟨.free, 0⟩).get (by decide)

theorem twentyPages_init : rtSystemHeapInit 1 8192 90112 PageSys.noPages (fun _ => ⟨0, 0, 0, 0, 0, 0, 0, []⟩)
    (fun _ => ⟨.free, 0⟩) = some twentyPages := (Option.some_get (by decide)).symm

/-- A chunk and a large area are asked for, and the chunk is freed. -/
theorem slab_allocator_run : ∃ s, Run Step ⟨twentyPages, []⟩ [.malloc 100, .malloc 9000, .free 12328] s ∧
    s.live = [(45056, 9000)] ∧ ∃ runs, SlabOk s runs := by
  have hrun := run_of_exec 1 ⟨twentyPages, []⟩ [.malloc 100, .malloc 9000, .free 12328] (by decide)
  exact ⟨_, hrun, by decide, slab_allocator twentyPages_init hrun⟩

end CoreLink.RtThread.SlabSys
