/-
# `CoreLink.RtThread.SlabInvariant` — what holds of the slab allocator, `src/slab.c`.

The pages of the heap are divided into free runs and what is handed out: the zones, the large areas, and the pages of `memusage`
(`Store`). A zone is divided into its header, chunks in use, chunks on its list, and the part that has never been used (`ZoneOk`).
`Inv` puts these together with the lists of zones and with the pointers that the callers have.

A call is made of a few operations: pages are taken or given back, they become a large area or a zone, a chunk is taken or given
back. Each has a lemma that it keeps the invariant; the zones that are kept for any index, and pages that are nothing yet, are
arguments of the invariant, so that it can be stated in between.
-/
import CoreLink.RtThread.Slab

namespace CoreLink.RtThread

open CoreLink.Lib CoreLink.Lib.Extent

/-! ## Pages -/

namespace PageHeap

/-- **The heap of `n` pages from `lo` on**: the runs are what the items leave free. -/
structure Store (lo n : ℕ) (h : PageHeap) (runs items : List Extent) : Prop where
  rep : Rep h runs
  gapped : Gapped runs
  packed : Packed lo (lo + n) items
  free : ∀ x, Covers runs x ↔ (lo ≤ x ∧ x < lo + n) ∧ ¬Covers items x

namespace Store

variable {lo n k a : ℕ} {h : PageHeap} {runs items items' : List Extent}

theorem perm (st : Store lo n h runs items) (hperm : items.Perm items') : Store lo n h runs items' where
  rep := st.rep
  gapped := st.gapped
  packed := st.packed.perm hperm
  free := fun x => by
    have hiff : Covers items' x ↔ Covers items x := exists_congr fun e => and_congr_left fun _ => hperm.mem_iff.symm
    rw [st.free, hiff]

/-- An item and a run are apart. -/
theorem apart (st : Store lo n h runs items) {e f : Extent} (he : e ∈ runs) (hf : f ∈ items) : Apart e f :=
  apart_of_forall (st.gapped.nonempty e he) (st.packed.inside f hf).2.2 fun x hxe hxf =>
    ((st.free x).mp ⟨e, he, hxe⟩).2 ⟨f, hf, hxf⟩

/-- **Pages are taken.** -/
theorem alloc (st : Store lo n h runs items) (hk : 0 < k) :
    ∃ o h', Returns (fun fuel => rtPageAlloc fuel k h) (o, h') ∧
      ((takeFirst k runs = none ∧ o = none ∧ h' = h) ∨
        ∃ b runs', takeFirst k runs = some (b, runs') ∧ o = some b ∧ Store lo n h' runs' (⟨b, k⟩ :: items)) := by
  obtain ⟨o, h', hreturns, hcase⟩ := rtPageAlloc_spec hk st.rep st.gapped
  refine ⟨o, h', hreturns, hcase.imp_right ?_⟩
  rintro ⟨b, runs', htake, ho, hrep⟩
  obtain ⟨g', hcov, hfresh⟩ := takeFirst_spec st.gapped hk htake
  have hin : ∀ x, Has ⟨b, k⟩ x → (lo ≤ x ∧ x < lo + n) ∧ ¬Covers items x := fun x hx =>
    (st.free x).mp ((hcov x).mpr (Or.inl hx))
  have hfirst := (hin b ⟨Nat.le_refl b, Nat.lt_add_of_pos_right hk⟩).1
  have hlast := (hin (b + (k - 1)) ⟨Nat.le_add_right b _, by show b + (k - 1) < b + k; omega⟩).1
  refine ⟨b, runs', htake, ho, hrep, g', Packed.cons_iff.mpr ⟨⟨hfirst.1, by show b + k ≤ lo + n; omega, hk⟩, ?_, st.packed⟩, ?_⟩
  · intro f hf
    exact apart_of_forall hk (st.packed.inside f hf).2.2 fun x hx hxf => (hin x hx).2 ⟨f, hf, hxf⟩
  · intro x
    have hx := st.free x
    rw [hcov] at hx
    rw [covers_cons]
    have := hfresh x
    tauto

/-- **Pages are given back.** -/
theorem release (st : Store lo n h runs (⟨a, k⟩ :: items)) (hlo : lo ≠ 0) :
    ∃ h', Returns (fun fuel => rtPageFree fuel a k h) h' ∧ Store lo n h' (Extent.insert ⟨a, k⟩ runs) items := by
  obtain ⟨⟨hle, hend, hk⟩, hapart, hpacked⟩ := Packed.cons_iff.mp st.packed
  have hruns : ∀ e ∈ runs, Apart e ⟨a, k⟩ := fun e he => st.apart he List.mem_cons_self
  have ha : a ≠ 0 := fun heq => hlo (Nat.le_zero.mp (heq ▸ hle))
  obtain ⟨h', hreturns, hrep⟩ := rtPageFree_spec st.rep st.gapped ha hk hruns
  obtain ⟨g', hcov⟩ := insert_spec st.gapped hk hruns
  refine ⟨h', hreturns, hrep, g', hpacked, fun x => ?_⟩
  have hx := st.free x
  rw [covers_cons] at hx
  have hin : Has ⟨a, k⟩ x → (lo ≤ x ∧ x < lo + n) ∧ ¬Covers items x := by
    rintro ⟨h₁, h₂⟩
    dsimp only at h₁ h₂ hle hend
    refine ⟨by omega, ?_⟩
    rintro ⟨f, hf, h₃, h₄⟩
    have := hapart f hf
    unfold Apart at this
    dsimp only at this
    omega
  rw [hcov]
  tauto

/-- The heap after `rt_page_init`. -/
theorem init {fuel : ℕ} {h₀ : PageHeap} (hinit : rtPageInit fuel lo n h₀ = some h) :
    lo ≠ 0 ∧ Store lo n h [⟨lo, n⟩] [] := by
  obtain ⟨hlo, p⟩ := PageSys.pages_init hinit
  refine ⟨hlo, p.rep, p.gapped, ⟨nofun, .nil⟩, fun x => ?_⟩
  rw [and_iff_left (covers_nil x), ← p.all x]
  exact (or_iff_left (Finset.notMem_empty x)).symm

end Store

end PageHeap

/-! ## A zone -/

namespace Slab

/-- The chunks of a zone that have been used, the first `k` ones. -/
def chunks (h : SlabZone) (k : ℕ) : List ℕ := (List.range k).map fun j => h.baseptr + j * h.chunksize

/-- The chunks that are left are those that have never been used and those on the list. -/
def Counted (h : SlabZone) : Prop := h.nfree = (h.nmax - 1 - h.uindex) + h.freechunk.length

/-- **A zone** of `size` bytes, with the chunks `out` in use: its header says what its pages are divided into. -/
structure ZoneOk (size z : ℕ) (h : SlabZone) (out : List ℕ) : Prop where
  magic : h.magic = slabMagic
  index : h.zoneindex < nzones
  chunksize : h.chunksize = chunkOf h.zoneindex
  room : zoneOff h.chunksize + 2 * h.chunksize ≤ size
  base : h.baseptr = z * pageSize + zoneOff h.chunksize
  max : h.nmax = (size - zoneOff h.chunksize) / h.chunksize
  unused : h.uindex < h.nmax
  nfree : Counted h
  parts : (out ++ h.freechunk).Perm (chunks h (h.uindex + 1))

namespace ZoneOk

variable {size z p : ℕ} {h : SlabZone} {out : List ℕ}

theorem chunksize_pos (ok : ZoneOk size z h out) : 0 < h.chunksize := by
  have := (zoneOff_spec ok.index).1
  rw [ok.chunksize]
  omega

/-- All the chunks are in the zone. -/
theorem nmax_le (ok : ZoneOk size z h out) : zoneOff h.chunksize + h.nmax * h.chunksize ≤ size := by
  have hroom := ok.room
  have hdiv := Nat.div_mul_le_self (size - zoneOff h.chunksize) h.chunksize
  rw [ok.max]
  omega

/-- Where a chunk is. -/
theorem position (ok : ZoneOk size z h out) (hp : p ∈ out ++ h.freechunk) :
    ∃ j, j ≤ h.uindex ∧ p = h.baseptr + j * h.chunksize := by
  obtain ⟨j, hj, rfl⟩ := List.mem_map.mp (ok.parts.mem_iff.mp hp)
  exact ⟨j, Nat.lt_succ_iff.mp (List.mem_range.mp hj), rfl⟩

/-- A chunk is behind the header, and in the zone. -/
theorem within (ok : ZoneOk size z h out) (hp : p ∈ out ++ h.freechunk) :
    z * pageSize + zoneOff h.chunksize ≤ p ∧ p + h.chunksize ≤ z * pageSize + size := by
  obtain ⟨j, hj, rfl⟩ := ok.position hp
  have hle : (j + 1) * h.chunksize ≤ h.nmax * h.chunksize :=
    Nat.mul_le_mul_right _ (Nat.lt_of_le_of_lt hj ok.unused)
  have hmax := ok.nmax_le
  rw [Nat.add_mul, Nat.one_mul] at hle
  rw [ok.base]
  omega

/-- A chunk is in a page of the zone. -/
theorem page (ok : ZoneOk size z h out) {pages : ℕ} (hsize : pages * pageSize = size) (hp : p ∈ out ++ h.freechunk) :
    ∃ off < pages, p / pageSize = z + off := by
  obtain ⟨hle, hend⟩ := ok.within hp
  have hpos := ok.chunksize_pos
  rw [← hsize] at hend
  unfold pageSize at *
  exact ⟨p / 4096 - z, by omega, by omega⟩

/-- Two chunks are apart. -/
theorem apart (ok : ZoneOk size z h out) {q : ℕ} (hp : p ∈ out ++ h.freechunk) (hq : q ∈ out ++ h.freechunk) (hne : p ≠ q) :
    Apart ⟨p, h.chunksize⟩ ⟨q, h.chunksize⟩ := by
  obtain ⟨i, -, rfl⟩ := ok.position hp
  obtain ⟨j, -, rfl⟩ := ok.position hq
  unfold Apart
  dsimp only
  rcases Nat.lt_trichotomy i j with hlt | rfl | hlt
  · have hle : (i + 1) * h.chunksize ≤ j * h.chunksize := Nat.mul_le_mul_right _ hlt
    rw [Nat.add_mul, Nat.one_mul] at hle
    omega
  · exact absurd rfl hne
  · have hle : (j + 1) * h.chunksize ≤ i * h.chunksize := Nat.mul_le_mul_right _ hlt
    rw [Nat.add_mul, Nat.one_mul] at hle
    omega

/-- No chunk is twice in it. -/
theorem nodup (ok : ZoneOk size z h out) : (out ++ h.freechunk).Nodup := by
  refine ok.parts.nodup_iff.mpr (List.Nodup.map ?_ List.nodup_range)
  intro i j hij
  have hij : h.baseptr + i * h.chunksize = h.baseptr + j * h.chunksize := hij
  exact Nat.eq_of_mul_eq_mul_right ok.chunksize_pos (Nat.add_left_cancel hij)

/-- A zone all of whose chunks are free has none in use. -/
theorem out_eq_nil (ok : ZoneOk size z h out) (hfree : h.nfree = h.nmax) : out = [] := by
  have hlen := ok.parts.length_eq
  unfold chunks at hlen
  rw [List.length_append, List.length_map, List.length_range] at hlen
  have hnfree : h.nfree = (h.nmax - 1 - h.uindex) + h.freechunk.length := ok.nfree
  have hunused := ok.unused
  exact List.eq_nil_of_length_eq_zero (by omega)

/-- A chunk that has never been used is taken. -/
theorem grow (ok : ZoneOk size z h out) (hlt : h.uindex + 1 ≠ h.nmax) :
    ZoneOk size z { h with nfree := h.nfree - 1, uindex := h.uindex + 1 } ((h.baseptr + (h.uindex + 1) * h.chunksize) :: out) where
  magic := ok.magic
  index := ok.index
  chunksize := ok.chunksize
  room := ok.room
  base := ok.base
  max := ok.max
  unused := by
    have := ok.unused
    show h.uindex + 1 < h.nmax
    omega
  nfree := by
    have hnfree : h.nfree = (h.nmax - 1 - h.uindex) + h.freechunk.length := ok.nfree
    have hunused := ok.unused
    show h.nfree - 1 = h.nmax - 1 - (h.uindex + 1) + h.freechunk.length
    omega
  parts := by
    have hrange : chunks h (h.uindex + 1 + 1) = chunks h (h.uindex + 1) ++ [h.baseptr + (h.uindex + 1) * h.chunksize] := by
      unfold chunks
      rw [List.range_succ, List.map_append, List.map_singleton]
    show ((h.baseptr + (h.uindex + 1) * h.chunksize) :: (out ++ h.freechunk)).Perm (chunks h (h.uindex + 1 + 1))
    rw [hrange]
    exact (ok.parts.cons _).trans (List.perm_append_singleton _ _).symm

/-- A chunk is taken from the list. -/
theorem pop (ok : ZoneOk size z h out) {c : ℕ} {cs : List ℕ} (hlist : h.freechunk = c :: cs) :
    ZoneOk size z { h with nfree := h.nfree - 1, freechunk := cs } (c :: out) where
  magic := ok.magic
  index := ok.index
  chunksize := ok.chunksize
  room := ok.room
  base := ok.base
  max := ok.max
  unused := ok.unused
  nfree := by
    have hnfree : h.nfree = (h.nmax - 1 - h.uindex) + h.freechunk.length := ok.nfree
    rw [hlist, List.length_cons] at hnfree
    show h.nfree - 1 = h.nmax - 1 - h.uindex + cs.length
    omega
  parts := by
    have hparts := ok.parts
    rw [hlist] at hparts
    exact List.perm_middle.symm.trans hparts

/-- A chunk is put on the list. -/
theorem push (ok : ZoneOk size z h out) (hp : p ∈ out) :
    ZoneOk size z { h with nfree := h.nfree + 1, freechunk := p :: h.freechunk } (out.erase p) where
  magic := ok.magic
  index := ok.index
  chunksize := ok.chunksize
  room := ok.room
  base := ok.base
  max := ok.max
  unused := ok.unused
  nfree := by
    have hnfree : h.nfree = (h.nmax - 1 - h.uindex) + h.freechunk.length := ok.nfree
    show h.nfree + 1 = h.nmax - 1 - h.uindex + (p :: h.freechunk).length
    rw [List.length_cons]
    omega
  parts := List.perm_middle.trans (((List.perm_cons_erase hp).append_right h.freechunk).symm.trans ok.parts)

end ZoneOk

/-- A zone is set up with its first chunk in use. -/
theorem zoneOk_new {size z zi : ℕ} (hzi : zi < nzones) (hroom : zoneOff (chunkOf zi) + 2 * chunkOf zi ≤ size) :
    ZoneOk size z ⟨slabMagic, (size - zoneOff (chunkOf zi)) / chunkOf zi - 1, (size - zoneOff (chunkOf zi)) / chunkOf zi,
      z * pageSize + zoneOff (chunkOf zi), 0, chunkOf zi, zi, []⟩ [z * pageSize + zoneOff (chunkOf zi)] ∧
      1 < (size - zoneOff (chunkOf zi)) / chunkOf zi := by
  have hpos : 0 < chunkOf zi := by
    have := (zoneOff_spec hzi).1
    omega
  have htwo : 2 ≤ (size - zoneOff (chunkOf zi)) / chunkOf zi := (Nat.le_div_iff_mul_le hpos).mpr (by omega)
  refine ⟨⟨rfl, hzi, rfl, hroom, rfl, rfl, ?_, rfl, ?_⟩, htwo⟩
  · show 0 < (size - zoneOff (chunkOf zi)) / chunkOf zi
    omega
  · have hfirst : z * pageSize + zoneOff (chunkOf zi) + 0 * chunkOf zi = z * pageSize + zoneOff (chunkOf zi) := by
      rw [Nat.zero_mul, Nat.add_zero]
    unfold chunks
    rw [List.append_nil, Nat.zero_add, List.range_one, List.map_singleton, hfirst]

/-! ## The invariant -/

/-- How many pages a zone has, `zone_page_cnt`. -/
def zonePages (s : Slab) : ℕ := s.zoneSize / pageSize

/-- The pages of a zone. -/
def zoneExtent (s : Slab) (z : ℕ) : Extent := ⟨z, s.zonePages⟩

/-- The pages of a large area. -/
def largeExtent (s : Slab) (p : ℕ) : Extent := ⟨p, (s.memusage p).size⟩

/-- The pages of the zones, those that are kept for any index among them, and of the large areas. -/
def owned (s : Slab) (zs idle larges : List ℕ) : List Extent := (zs ++ idle).map s.zoneExtent ++ larges.map s.largeExtent

/-- The memory that a pointer stands for: its pages, or its chunk. -/
def area (s : Slab) (p : ℕ) : Extent :=
  if (s.memusage (p / pageSize)).type = .large then ⟨p, (s.memusage (p / pageSize)).size * pageSize⟩
  else ⟨p, (s.zone (s.owner p)).chunksize⟩

/-- What `rt_system_heap_init` computes. -/
structure Config (s : Slab) : Prop where
  size : s.zoneSize = 32768 ∨ s.zoneSize = 65536 ∨ s.zoneSize = 131072
  limit : s.zoneLimit = min (s.zoneSize / 4) 16384

/-- **The invariant** of the heap of `n` pages from `lo` on: `live` are the pointers the callers have with the sizes they asked
for, `other` pages that are neither free nor a zone nor a large area, `zs` the zones, `idle` the zones that are kept for any
index, `larges` the large areas, and `out` the chunks of each zone that are in use. -/
structure Inv (lo n : ℕ) (s : Slab) (live : List (ℕ × ℕ)) (runs other : List Extent) (zs idle larges : List ℕ)
    (out : ℕ → List ℕ) : Prop where
  config : s.Config
  store : PageHeap.Store lo n s.pages runs (other ++ s.owned zs idle larges)
  small : ∀ z ∈ zs ++ idle, ∀ off < s.zonePages, s.memusage (z + off) = ⟨.small, off⟩
  large : ∀ q ∈ larges, (s.memusage q).type = .large
  zones : ∀ z ∈ zs, ZoneOk s.zoneSize z (s.zone z) (out z)
  kept : ∀ z ∈ idle, Counted (s.zone z)
  array : ∀ zi z, z ∈ s.zoneArray zi ↔ z ∈ zs ∧ (s.zone z).zoneindex = zi ∧ 0 < (s.zone z).nfree
  arrayNodup : ∀ zi, (s.zoneArray zi).Nodup
  pointers : ∀ p, p ∈ live.map Prod.fst ↔ (∃ q ∈ larges, p = q * pageSize) ∨ ∃ z ∈ zs, p ∈ out z
  nodup : (live.map Prod.fst).Nodup
  asked : ∀ l ∈ live, l.2 ≤ (s.area l.1).size
  used : s.usedMem = (live.map fun l => (s.area l.1).size).sum

theorem Config.zonePages_mul {s : Slab} (c : s.Config) : s.zonePages * pageSize = s.zoneSize := by
  unfold zonePages pageSize
  rcases c.size with h | h | h <;> rw [h]

theorem Config.zonePages_pos {s : Slab} (c : s.Config) : 0 < s.zonePages := by
  unfold zonePages pageSize
  rcases c.size with h | h | h <;> rw [h] <;> decide

namespace Inv

variable {lo n p q z k a : ℕ} {s : Slab} {live : List (ℕ × ℕ)} {runs other : List Extent} {zs idle larges : List ℕ}
  {out : ℕ → List ℕ}

theorem page_of_large (q : ℕ) : q * pageSize / pageSize = q := Nat.mul_div_cancel q (by decide)

theorem owner_eq {off : ℕ} (hpage : p / pageSize = z + off) (husage : s.memusage (z + off) = ⟨.small, off⟩) : s.owner p = z := by
  unfold owner
  rw [hpage, husage]
  exact Nat.add_sub_cancel z off

/-- What a pointer into a zone stands for. -/
theorem area_small {off : ℕ} (hpage : p / pageSize = z + off) (husage : s.memusage (z + off) = ⟨.small, off⟩) :
    s.area p = ⟨p, (s.zone z).chunksize⟩ := by
  unfold area
  rw [owner_eq hpage husage, hpage, husage, if_neg nofun]

/-- What a pointer to a large area stands for. -/
theorem area_large {k : ℕ} (husage : s.memusage q = ⟨.large, k⟩) : s.area (q * pageSize) = ⟨q * pageSize, k * pageSize⟩ := by
  unfold area
  rw [page_of_large, husage, if_pos rfl]

theorem covers_zone (hz : z ∈ zs ++ idle) {off : ℕ} (hoff : off < s.zonePages) : Covers (s.owned zs idle larges) (z + off) :=
  ⟨s.zoneExtent z, List.mem_append_left _ (List.mem_map_of_mem hz), Nat.le_add_right z off, Nat.add_lt_add_left hoff z⟩

theorem covers_large (i : Inv lo n s live runs other zs idle larges out) (hq : q ∈ larges) :
    Covers (s.owned zs idle larges) q := by
  have hmem : s.largeExtent q ∈ s.owned zs idle larges := List.mem_append_right _ (List.mem_map_of_mem hq)
  have hpos := (i.store.packed.inside _ (List.mem_append_right other hmem)).2.2
  exact ⟨s.largeExtent q, hmem, Nat.le_refl q, Nat.lt_add_of_pos_right hpos⟩

/-- A chunk in use is in a page of its zone. -/
theorem page_of_chunk (i : Inv lo n s live runs other zs idle larges out) (hz : z ∈ zs) (hp : p ∈ out z) :
    ∃ off < s.zonePages, p / pageSize = z + off :=
  (i.zones z hz).page i.config.zonePages_mul (List.mem_append_left _ hp)

theorem owner_of_chunk (i : Inv lo n s live runs other zs idle larges out) (hz : z ∈ zs) (hp : p ∈ out z) : s.owner p = z := by
  obtain ⟨off, hoff, hpage⟩ := i.page_of_chunk hz hp
  exact owner_eq hpage (i.small z (List.mem_append_left idle hz) off hoff)

theorem type_of_chunk (i : Inv lo n s live runs other zs idle larges out) (hz : z ∈ zs) (hp : p ∈ out z) :
    (s.memusage (p / pageSize)).type = .small := by
  obtain ⟨off, hoff, hpage⟩ := i.page_of_chunk hz hp
  rw [hpage, i.small z (List.mem_append_left idle hz) off hoff]

theorem area_of_chunk (i : Inv lo n s live runs other zs idle larges out) (hz : z ∈ zs) (hp : p ∈ out z) :
    s.area p = ⟨p, (s.zone z).chunksize⟩ := by
  obtain ⟨off, hoff, hpage⟩ := i.page_of_chunk hz hp
  exact area_small hpage (i.small z (List.mem_append_left idle hz) off hoff)

theorem area_of_large (i : Inv lo n s live runs other zs idle larges out) (hq : q ∈ larges) :
    s.area (q * pageSize) = ⟨q * pageSize, (s.memusage q).size * pageSize⟩ := by
  unfold area
  rw [page_of_large, i.large q hq, if_pos rfl]

/-- The page of a pointer is a page of a zone or of a large area. -/
theorem covers_of_live (i : Inv lo n s live runs other zs idle larges out) (hp : p ∈ live.map Prod.fst) :
    Covers (s.owned zs idle larges) (p / pageSize) := by
  rcases (i.pointers p).mp hp with ⟨q, hq, rfl⟩ | ⟨z, hz, hp⟩
  · rw [page_of_large]
    exact i.covers_large hq
  · obtain ⟨off, hoff, hpage⟩ := i.page_of_chunk hz hp
    rw [hpage]
    exact covers_zone (List.mem_append_left idle hz) hoff

/-- Other pages are not. -/
theorem not_covers_of_other (i : Inv lo n s live runs (⟨a, k⟩ :: other) zs idle larges out) {x : ℕ} (hx : Has ⟨a, k⟩ x) :
    ¬Covers (s.owned zs idle larges) x := by
  rintro ⟨f, hf, hxf⟩
  have hapart := (Packed.cons_iff.mp i.store.packed).2.1 f (List.mem_append_right other hf)
  unfold Apart Has at *
  omega

/-- What `memusage` says of the pages of the zones and of the large areas says what the pointers stand for. -/
theorem area_congr (i : Inv lo n s live runs other zs idle larges out) {s' : Slab}
    (husage : ∀ x, Covers (s.owned zs idle larges) x → s'.memusage x = s.memusage x)
    (hzone : ∀ z ∈ zs, (s'.zone z).chunksize = (s.zone z).chunksize) (hp : p ∈ live.map Prod.fst) :
    s'.area p = s.area p := by
  rcases (i.pointers p).mp hp with ⟨q, hq, rfl⟩ | ⟨z, hz, hp⟩
  · unfold area
    rw [page_of_large, husage q (i.covers_large hq), i.large q hq, if_pos rfl, if_pos rfl]
  · obtain ⟨off, hoff, hpage⟩ := i.page_of_chunk hz hp
    have hz' := List.mem_append_left idle hz
    have hsmall := i.small z hz' off hoff
    have hsmall' : s'.memusage (z + off) = ⟨.small, off⟩ := (husage _ (covers_zone hz' hoff)).trans hsmall
    rw [area_small hpage hsmall, area_small hpage hsmall', hzone z hz]

end Inv

end Slab

end CoreLink.RtThread
