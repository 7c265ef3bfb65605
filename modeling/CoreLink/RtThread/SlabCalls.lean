/-
# `CoreLink.RtThread.SlabCalls` — the operations of the slab allocator, `src/slab.c`.

One lemma for each operation that `rt_malloc` and `rt_free` are made of: it keeps the invariant, and moves what it is about from
one argument of the invariant to another. Pages go from the runs to `other` and back (`pageAlloc`, `pageFree`), from `other` to
the large areas and back (`claimLarge`, `dropLarge`), from `other` to the zones (`setUp`), and from the zones that are kept to
`other` (`dropIdle`). Chunks go from a zone to the callers and back (`handOut`, `freeChunk`), and zones that are totally free to
those that are kept (`retire`).
-/
import CoreLink.RtThread.SlabInvariant

namespace CoreLink.RtThread.Slab.Inv

open CoreLink.Lib CoreLink.Lib.Extent

variable {lo n p q z k a r zi : ℕ} {s : Slab} {live : List (ℕ × ℕ)} {runs other : List Extent} {zs idle larges : List ℕ}
  {out : ℕ → List ℕ}

/-! ## Pages -/

/-- **Pages are taken.** -/
theorem pageAlloc (i : Inv lo n s live runs other zs idle larges out) (hk : 0 < k) :
    ∃ o pages, Returns (fun fuel => s.pages.rtPageAlloc fuel k) (o, pages) ∧
      ((takeFirst k runs = none ∧ o = none ∧ pages = s.pages) ∨
        ∃ b runs', takeFirst k runs = some (b, runs') ∧ o = some b ∧
          Inv lo n { s with pages := pages } live runs' (⟨b, k⟩ :: other) zs idle larges out) := by
  obtain ⟨o, pages, hreturns, hcase⟩ := i.store.alloc hk
  refine ⟨o, pages, hreturns, hcase.imp_right ?_⟩
  rintro ⟨b, runs', htake, ho, hstore⟩
  exact ⟨b, runs', htake, ho, { i with config := ⟨i.config.size, i.config.limit⟩, store := hstore }⟩

/-- **Pages are given back.** -/
theorem pageFree (i : Inv lo n s live runs (⟨a, k⟩ :: other) zs idle larges out) (hlo : lo ≠ 0) :
    ∃ pages, Returns (fun fuel => s.pages.rtPageFree fuel a k) pages ∧
      Inv lo n { s with pages := pages } live (Extent.insert ⟨a, k⟩ runs) other zs idle larges out := by
  obtain ⟨pages, hreturns, hstore⟩ := i.store.release hlo
  exact ⟨pages, hreturns, { i with config := ⟨i.config.size, i.config.limit⟩, store := hstore }⟩

/-- The list of zones that are kept is written; which these are is an argument of the invariant. -/
theorem setFree (i : Inv lo n s live runs other zs idle larges out) (zs' : List ℕ) (cnt : ℕ) :
    Inv lo n { s with zoneFree := zs', zoneFreeCnt := cnt } live runs other zs idle larges out :=
  { i with config := ⟨i.config.size, i.config.limit⟩ }

/-- `memusage` is written for pages that are neither a zone nor a large area. -/
theorem usage (i : Inv lo n s live runs other zs idle larges out) (kup : ℕ → Memusage)
    (hkup : ∀ x, Covers (s.owned zs idle larges) x → kup x = s.memusage x) :
    Inv lo n { s with memusage := kup } live runs other zs idle larges out := by
  have hlarge : ∀ q ∈ larges, kup q = s.memusage q := fun q hq => hkup q (i.covers_large hq)
  have hsize : ∀ q ∈ larges, largeExtent { s with memusage := kup } q = s.largeExtent q := by
    intro q hq
    exact congrArg (fun kup : Memusage => (⟨q, kup.size⟩ : Extent)) (hlarge q hq)
  have howned : owned { s with memusage := kup } zs idle larges = s.owned zs idle larges := by
    unfold owned
    rw [List.map_congr_left hsize]
    rfl
  have harea : ∀ l ∈ live, area { s with memusage := kup } l.1 = s.area l.1 := fun l hl =>
    i.area_congr hkup (fun z _ => rfl) (List.mem_map_of_mem hl)
  constructor
  case config => exact ⟨i.config.size, i.config.limit⟩
  case store => exact howned ▸ i.store
  case small =>
    intro z hz off hoff
    exact (hkup _ (covers_zone hz hoff)).trans (i.small z hz off hoff)
  case large =>
    intro q hq
    show (kup q).type = .large
    rw [hlarge q hq]
    exact i.large q hq
  case zones => exact i.zones
  case kept => exact i.kept
  case array => exact i.array
  case arrayNodup => exact i.arrayNodup
  case pointers => exact i.pointers
  case nodup => exact i.nodup
  case asked =>
    intro l hl
    rw [harea l hl]
    exact i.asked l hl
  case used =>
    have hmap : (live.map fun l => (area { s with memusage := kup } l.1).size) = live.map fun l => (s.area l.1).size :=
      List.map_congr_left fun l hl => congrArg Extent.size (harea l hl)
    rw [hmap]
    exact i.used

/-! ## Large areas -/

/-- A pointer into other pages is not one that the callers have. -/
theorem fresh (i : Inv lo n s live runs (⟨a, k⟩ :: other) zs idle larges out) (hp : Has ⟨a, k⟩ (p / pageSize)) :
    p ∉ live.map Prod.fst := fun hm => i.not_covers_of_other hp (i.covers_of_live hm)

/-- **Pages become a large area.** -/
theorem claimLarge (i : Inv lo n s live runs (⟨q, k⟩ :: other) zs idle larges out) (hq : s.memusage q = ⟨.large, k⟩)
    (hr : r ≤ k * pageSize) :
    Inv lo n (s.addUsed (k * pageSize)) ((q * pageSize, r) :: live) runs other zs idle (q :: larges) out := by
  have hk : 0 < k := (Packed.cons_iff.mp i.store.packed).1.2.2
  have harea : s.area (q * pageSize) = ⟨q * pageSize, k * pageSize⟩ := area_large hq
  constructor
  case config => exact ⟨i.config.size, i.config.limit⟩
  case store =>
    refine i.store.perm ?_
    have hext : s.largeExtent q = ⟨q, k⟩ := by
      unfold largeExtent
      rw [hq]
    show (⟨q, k⟩ :: (other ++ s.owned zs idle larges)).Perm (other ++ s.owned zs idle (q :: larges))
    unfold owned
    rw [List.map_cons, hext]
    exact (List.perm_middle.symm).trans (List.Perm.append_left other List.perm_middle.symm)
  case small => exact i.small
  case large =>
    refine List.forall_mem_cons.mpr ⟨?_, i.large⟩
    show (s.memusage q).type = .large
    rw [hq]
  case zones => exact i.zones
  case kept => exact i.kept
  case array => exact i.array
  case arrayNodup => exact i.arrayNodup
  case pointers =>
    intro p
    rw [List.map_cons, List.mem_cons, i.pointers, List.exists_mem_cons_iff, or_assoc]
  case nodup =>
    refine List.nodup_cons.mpr ⟨i.fresh ?_, i.nodup⟩
    rw [page_of_large]
    exact ⟨Nat.le_refl q, Nat.lt_add_of_pos_right hk⟩
  case asked =>
    refine List.forall_mem_cons.mpr ⟨?_, i.asked⟩
    show r ≤ (s.area (q * pageSize)).size
    rw [harea]
    exact hr
  case used =>
    show s.usedMem + k * pageSize = (s.area (q * pageSize)).size + (live.map fun l => (s.area l.1).size).sum
    rw [harea, i.used, Nat.add_comm]

/-- The lists of zones and of large areas have everything once. -/
theorem owned_nodup (i : Inv lo n s live runs other zs idle larges out) : (zs ++ idle).Nodup ∧ larges.Nodup := by
  have hnd := i.store.packed.starts_nodup
  unfold owned at hnd
  rw [List.map_append, List.map_append, List.map_map, List.map_map] at hnd
  have hnd' := (List.nodup_append.mp hnd).2.1
  have hzone : (zs ++ idle).map (Extent.start ∘ s.zoneExtent) = zs ++ idle := List.map_id _
  have hlarge : larges.map (Extent.start ∘ s.largeExtent) = larges := List.map_id _
  rw [hzone, hlarge] at hnd'
  obtain ⟨h₁, h₂, -⟩ := List.nodup_append.mp hnd'
  exact ⟨h₁, h₂⟩

/-- Pointers that the callers have, but for one. -/
theorem mem_erase {l : ℕ × ℕ} (hnd : (live.map Prod.fst).Nodup) (hl : l ∈ live) :
    p ∈ (live.erase l).map Prod.fst ↔ p ∈ live.map Prod.fst ∧ p ≠ l.1 := by
  have hperm := (List.perm_cons_erase hl).map Prod.fst
  have hnd' := hperm.nodup_iff.mp hnd
  rw [List.map_cons] at hperm hnd'
  rw [hperm.mem_iff, List.mem_cons]
  obtain ⟨hnot, -⟩ := List.nodup_cons.mp hnd'
  constructor
  · intro hp
    exact ⟨Or.inr hp, ne_of_mem_of_not_mem hp hnot⟩
  · rintro ⟨heq | hp, hne⟩
    · exact absurd heq hne
    · exact hp

theorem nodup_erase {l : ℕ × ℕ} (hnd : (live.map Prod.fst).Nodup) : ((live.erase l).map Prod.fst).Nodup :=
  hnd.sublist (List.erase_sublist.map Prod.fst)

/-- What is in use, without one pointer. -/
theorem sum_erase {l : ℕ × ℕ} (hl : l ∈ live) (f : ℕ × ℕ → ℕ) : (live.map f).sum - f l = ((live.erase l).map f).sum := by
  have hsum := ((List.perm_cons_erase hl).map f).sum_nat
  rw [List.map_cons, List.sum_cons] at hsum
  rw [hsum, Nat.add_sub_cancel_left]

/-- **A large area is freed**: its pages are other pages. -/
theorem dropLarge (i : Inv lo n s live runs other zs idle larges out) (hq : q ∈ larges) (hl : (q * pageSize, r) ∈ live) :
    Inv lo n { s with usedMem := s.usedMem - (s.memusage q).size * pageSize } (live.erase (q * pageSize, r)) runs
      (⟨q, (s.memusage q).size⟩ :: other) zs idle (larges.erase q) out := by
  have hnd := i.owned_nodup.2
  constructor
  case config => exact ⟨i.config.size, i.config.limit⟩
  case store =>
    refine i.store.perm ?_
    show (other ++ s.owned zs idle larges).Perm (s.largeExtent q :: (other ++ s.owned zs idle (larges.erase q)))
    unfold owned
    have hperm := (List.perm_cons_erase hq).map s.largeExtent
    rw [List.map_cons] at hperm
    refine (List.Perm.append_left other ((List.Perm.append_left _ hperm).trans List.perm_middle)).trans List.perm_middle
  case small => exact i.small
  case large => exact fun q' hq' => i.large q' (List.mem_of_mem_erase hq')
  case zones => exact i.zones
  case kept => exact i.kept
  case array => exact i.array
  case arrayNodup => exact i.arrayNodup
  case pointers =>
    intro p
    rw [mem_erase i.nodup hl, i.pointers]
    constructor
    · rintro ⟨⟨q', hq', rfl⟩ | hchunk, hne⟩
      · have hne' : q' ≠ q := fun heq => hne (by rw [heq])
        exact Or.inl ⟨q', (List.mem_erase_of_ne hne').mpr hq', rfl⟩
      · exact Or.inr hchunk
    · rintro (⟨q', hq', rfl⟩ | ⟨z, hz, hp⟩)
      · obtain ⟨hne, hq'⟩ := hnd.mem_erase_iff.mp hq'
        exact ⟨Or.inl ⟨q', hq', rfl⟩, fun heq => hne (Nat.eq_of_mul_eq_mul_right (by decide) heq)⟩
      · refine ⟨Or.inr ⟨z, hz, hp⟩, ?_⟩
        rintro rfl
        have htype := i.type_of_chunk hz hp
        rw [page_of_large, i.large q hq] at htype
        exact nomatch htype
  case nodup => exact nodup_erase i.nodup
  case asked => exact fun l hl' => i.asked l (List.mem_of_mem_erase hl')
  case used =>
    show s.usedMem - (s.memusage q).size * pageSize = _
    have hsize : (s.memusage q).size * pageSize = (s.area (q * pageSize)).size := by rw [i.area_of_large hq]
    rw [i.used, hsize]
    exact sum_erase hl fun l => (s.area l.1).size

/-! ## Zones -/

/-- **A zone that is kept is taken**: its pages are other pages. -/
theorem dropIdle (i : Inv lo n s live runs other zs (z :: idle) larges out) :
    Inv lo n s live runs (s.zoneExtent z :: other) zs idle larges out where
  config := i.config
  store := by
    refine i.store.perm ?_
    unfold owned
    have hperm : ((zs ++ z :: idle).map s.zoneExtent).Perm (s.zoneExtent z :: (zs ++ idle).map s.zoneExtent) := by
      rw [← List.map_cons]
      exact List.perm_middle.map s.zoneExtent
    exact (List.Perm.append_left other (hperm.append_right _)).trans List.perm_middle
  small := fun z' hz' => i.small z' (by
    rcases List.mem_append.mp hz' with h | h
    · exact List.mem_append_left _ h
    · exact List.mem_append_right _ (List.mem_cons_of_mem z h))
  large := i.large
  zones := i.zones
  kept := fun z' hz' => i.kept z' (List.mem_cons_of_mem z hz')
  array := i.array
  arrayNodup := i.arrayNodup
  pointers := i.pointers
  nodup := i.nodup
  asked := i.asked
  used := i.used

/-- Other pages are no zone. -/
theorem notMem_of_other (i : Inv lo n s live runs (s.zoneExtent z :: other) zs idle larges out) : z ∉ zs ++ idle := by
  intro hz
  refine i.not_covers_of_other ⟨Nat.le_refl z, Nat.lt_add_of_pos_right i.config.zonePages_pos⟩ ?_
  exact covers_zone hz i.config.zonePages_pos

/-- **Pages become a zone**, with its first chunk in use. -/
theorem setUp (i : Inv lo n s live runs (s.zoneExtent z :: other) zs idle larges out)
    (hsmall : ∀ off < s.zonePages, s.memusage (z + off) = ⟨.small, off⟩) (hzi : zi < nzones)
    (hroom : zoneOff (chunkOf zi) + 2 * chunkOf zi ≤ s.zoneSize) (hr : r ≤ chunkOf zi) :
    Inv lo n (s.setUp zi (chunkOf zi) z).2 (((s.setUp zi (chunkOf zi) z).1, r) :: live) runs other (z :: zs) idle larges
      (Function.update out z [(s.setUp zi (chunkOf zi) z).1]) := by
  have hz : z ∉ zs := fun hz => i.notMem_of_other (List.mem_append_left idle hz)
  obtain ⟨ok, hmax⟩ := zoneOk_new (z := z) hzi hroom
  have hchunk : (s.setUp zi (chunkOf zi) z).1 = z * pageSize + zoneOff (chunkOf zi) := by
    show z * pageSize + zoneOff (chunkOf zi) + 0 * chunkOf zi = _
    rw [Nat.zero_mul, Nat.add_zero]
  rw [hchunk]
  generalize hc : z * pageSize + zoneOff (chunkOf zi) = c at ok
  obtain ⟨off, hoff, hpage⟩ := ok.page i.config.zonePages_mul (List.mem_append_left _ List.mem_cons_self)
  let h : SlabZone := ⟨slabMagic, (s.zoneSize - zoneOff (chunkOf zi)) / chunkOf zi - 1,
    (s.zoneSize - zoneOff (chunkOf zi)) / chunkOf zi, c, 0, chunkOf zi, zi, []⟩
  let s' : Slab := ((s.setZone z h).setArray zi (z :: s.zoneArray zi)).addUsed (chunkOf zi)
  have hs : (s.setUp zi (chunkOf zi) z).2 = s' := by
    subst hc
    rfl
  rw [hs]
  have hself : s'.zone z = h := Function.update_self _ _ _
  have hother : ∀ z' ∈ zs, s'.zone z' = s.zone z' := fun z' hz' =>
    Function.update_of_ne (ne_of_mem_of_not_mem hz' hz) _ _
  have hout : ∀ z' ∈ zs, Function.update out z [c] z' = out z' := fun z' hz' =>
    Function.update_of_ne (ne_of_mem_of_not_mem hz' hz) _ _
  have hnotArray : ∀ zi, z ∉ s.zoneArray zi := fun zi hm => hz ((i.array zi z).mp hm).1
  have harea : s'.area c = ⟨c, chunkOf zi⟩ := area_small (s := s') hpage (hsmall off hoff) |>.trans (by rw [hself])
  have hareas : ∀ l ∈ live, s'.area l.1 = s.area l.1 := fun l hl =>
    i.area_congr (fun x _ => rfl) (fun z' hz' => by rw [hother z' hz']) (List.mem_map_of_mem hl)
  constructor
  case config => exact ⟨i.config.size, i.config.limit⟩
  case store =>
    refine i.store.perm ?_
    show (s.zoneExtent z :: (other ++ s.owned zs idle larges)).Perm (other ++ s.owned (z :: zs) idle larges)
    exact List.perm_middle.symm
  case small =>
    intro z' hz' off' hoff'
    rcases List.mem_cons.mp hz' with rfl | hz'
    · exact hsmall off' hoff'
    · exact i.small z' hz' off' hoff'
  case large => exact i.large
  case zones =>
    refine List.forall_mem_cons.mpr ⟨?_, fun z' hz' => ?_⟩
    · rw [hself, Function.update_self]
      exact ok
    · rw [hother z' hz', hout z' hz']
      exact i.zones z' hz'
  case kept =>
    intro z' hz'
    have hne : z' ≠ z := ne_of_mem_of_not_mem (List.mem_append_right zs hz') i.notMem_of_other
    have hsame : s'.zone z' = s.zone z' := Function.update_of_ne hne _ _
    exact hsame ▸ i.kept z' hz'
  case array =>
    intro zi' z'
    show z' ∈ Function.update s.zoneArray zi (z :: s.zoneArray zi) zi' ↔ _
    by_cases hz' : z' = z
    · subst hz'
      rw [hself]
      have hpos : 0 < h.nfree := by
        show 0 < (s.zoneSize - zoneOff (chunkOf zi)) / chunkOf zi - 1
        omega
      by_cases heq : zi' = zi
      · subst heq
        rw [Function.update_self]
        exact iff_of_true List.mem_cons_self ⟨List.mem_cons_self, rfl, hpos⟩
      · rw [Function.update_of_ne heq]
        exact iff_of_false (hnotArray zi') fun hand => heq hand.2.1.symm
    · have hmem : z' ∈ Function.update s.zoneArray zi (z :: s.zoneArray zi) zi' ↔ z' ∈ s.zoneArray zi' := by
        by_cases heq : zi' = zi
        · subst heq
          rw [Function.update_self, List.mem_cons, or_iff_right hz']
        · rw [Function.update_of_ne heq]
      rw [hmem, i.array, List.mem_cons, or_iff_right hz']
      exact and_congr_right fun hm => by rw [hother z' hm]
  case arrayNodup =>
    intro zi'
    show (Function.update s.zoneArray zi (z :: s.zoneArray zi) zi').Nodup
    by_cases heq : zi' = zi
    · subst heq
      rw [Function.update_self]
      exact List.nodup_cons.mpr ⟨hnotArray zi', i.arrayNodup zi'⟩
    · rw [Function.update_of_ne heq]
      exact i.arrayNodup zi'
  case pointers =>
    intro p
    rw [List.map_cons, List.mem_cons, i.pointers, List.exists_mem_cons_iff, Function.update_self, List.mem_singleton, or_left_comm]
    refine or_congr_right (or_congr_right (exists_congr fun z' => and_congr_right fun hz' => ?_))
    rw [hout z' hz']
  case nodup =>
    refine List.nodup_cons.mpr ⟨i.fresh (p := c) ?_, i.nodup⟩
    rw [hpage]
    exact ⟨Nat.le_add_right z off, Nat.add_lt_add_left hoff z⟩
  case asked =>
    refine List.forall_mem_cons.mpr ⟨?_, fun l hl => ?_⟩
    · show r ≤ (s'.area c).size
      rw [harea]
      exact hr
    · rw [hareas l hl]
      exact i.asked l hl
  case used =>
    rw [List.map_cons, List.sum_cons, List.map_congr_left fun l hl => congrArg Extent.size (hareas l hl), harea]
    show s.usedMem + chunkOf zi = chunkOf zi + _
    rw [i.used, Nat.add_comm]

/-! ## Chunks -/

/-- The header of a zone is written, and the zone is in the list of its index when it has chunks left. -/
theorem rezone (i : Inv lo n s live runs other zs idle larges out) (hz : z ∈ zs) {h : SlabZone} {array : ℕ → List ℕ}
    {cs : List ℕ} {live' : List (ℕ × ℕ)} {used m : ℕ} (ok : ZoneOk s.zoneSize z h cs)
    (hidx : h.zoneindex = (s.zone z).zoneindex) (hsize : h.chunksize = (s.zone z).chunksize)
    (hlists : ∀ zi, zi ≠ h.zoneindex → array zi = s.zoneArray zi)
    (hothers : ∀ z', z' ≠ z → (z' ∈ array h.zoneindex ↔ z' ∈ s.zoneArray h.zoneindex))
    (hself : z ∈ array h.zoneindex ↔ 0 < h.nfree) (hlist : (array h.zoneindex).Nodup)
    (hpointers : ∀ p, p ∈ live'.map Prod.fst ↔ (∃ q ∈ larges, p = q * pageSize) ∨ ∃ z' ∈ zs, p ∈ Function.update out z cs z')
    (hnodup : (live'.map Prod.fst).Nodup) (hasked : ∀ l ∈ live', l.2 ≤ (s.area l.1).size)
    (hused : used = (live'.map fun l => (s.area l.1).size).sum) :
    Inv lo n { s with zone := Function.update s.zone z h, zoneArray := array, usedMem := used, maxMem := m } live' runs other
      zs idle larges (Function.update out z cs) := by
  let s' : Slab := { s with zone := Function.update s.zone z h, zoneArray := array, usedMem := used, maxMem := m }
  have hzone : s'.zone z = h := Function.update_self _ _ _
  have hother : ∀ z', z' ≠ z → s'.zone z' = s.zone z' := fun z' hne => Function.update_of_ne hne _ _
  have harea : ∀ p, s'.area p = s.area p := by
    intro p
    have hchunk : ∀ z', (s'.zone z').chunksize = (s.zone z').chunksize := by
      intro z'
      by_cases hne : z' = z
      · rw [hne, hzone, hsize]
      · rw [hother z' hne]
    show (if (s.memusage (p / pageSize)).type = .large then _ else (⟨p, (s'.zone (s.owner p)).chunksize⟩ : Extent)) = _
    rw [hchunk]
    rfl
  constructor
  case config => exact ⟨i.config.size, i.config.limit⟩
  case store => exact i.store
  case small => exact i.small
  case large => exact i.large
  case zones =>
    intro z' hz'
    by_cases hne : z' = z
    · subst hne
      rw [Function.update_self]
      exact hzone.symm ▸ ok
    · rw [Function.update_of_ne hne]
      exact (hother z' hne).symm ▸ i.zones z' hz'
  case kept =>
    intro z' hz'
    have hne : z ≠ z' := (List.nodup_append.mp i.owned_nodup.1).2.2 z hz z' hz'
    exact (hother z' hne.symm).symm ▸ i.kept z' hz'
  case array =>
    intro zi z'
    show z' ∈ array zi ↔ z' ∈ zs ∧ (s'.zone z').zoneindex = zi ∧ 0 < (s'.zone z').nfree
    by_cases hne : z' = z
    · subst hne
      rw [hzone]
      by_cases heq : zi = h.zoneindex
      · subst heq
        rw [hself]
        exact ⟨fun hpos => ⟨hz, rfl, hpos⟩, fun hand => hand.2.2⟩
      · have hnot : z' ∉ s.zoneArray zi := fun hm => heq (((i.array zi z').mp hm).2.1.symm.trans hidx.symm)
        rw [hlists zi heq]
        exact iff_of_false hnot fun hand => heq hand.2.1.symm
    · rw [hother z' hne, ← i.array]
      by_cases heq : zi = h.zoneindex
      · rw [heq, hothers z' hne]
      · rw [hlists zi heq]
  case arrayNodup =>
    intro zi
    show (array zi).Nodup
    by_cases heq : zi = h.zoneindex
    · rw [heq]
      exact hlist
    · rw [hlists zi heq]
      exact i.arrayNodup zi
  case pointers => exact hpointers
  case nodup => exact hnodup
  case asked =>
    intro l hl
    rw [harea]
    exact hasked l hl
  case used =>
    refine hused.trans ?_
    rw [List.map_congr_left fun l _ => congrArg Extent.size (harea l.1).symm]

/-- A chunk of a zone that is not in use is not one that the callers have. -/
theorem fresh_chunk (i : Inv lo n s live runs other zs idle larges out) (hz : z ∈ zs) {off : ℕ} (hoff : off < s.zonePages)
    (hpage : p / pageSize = z + off) (hp : p ∉ out z) : p ∉ live.map Prod.fst := by
  intro hm
  have hsmall := i.small z (List.mem_append_left idle hz) off hoff
  rcases (i.pointers p).mp hm with ⟨q, hq, rfl⟩ | ⟨z', hz', hp'⟩
  · rw [page_of_large] at hpage
    have hlarge := i.large q hq
    rw [hpage, hsmall] at hlarge
    exact nomatch hlarge
  · have howner := i.owner_of_chunk hz' hp'
    rw [owner_eq hpage hsmall] at howner
    exact hp (howner ▸ hp')

/-- **A chunk is handed out** by the first zone of its index. -/
theorem handOut (i : Inv lo n s live runs other zs idle larges out) {cs : List ℕ}
    (harray : s.zoneArray zi = z :: cs) {h : SlabZone} {c : ℕ} (ok : ZoneOk s.zoneSize z h (c :: out z))
    (hidx : h.zoneindex = (s.zone z).zoneindex) (hsize : h.chunksize = (s.zone z).chunksize) (hr : r ≤ h.chunksize) {m : ℕ} :
    Inv lo n { s with
        zone := Function.update s.zone z h
        zoneArray := if h.nfree = 0 then Function.update s.zoneArray zi cs else s.zoneArray
        usedMem := s.usedMem + h.chunksize
        maxMem := m } ((c, r) :: live) runs other zs idle larges (Function.update out z (c :: out z)) := by
  obtain ⟨hz, hzi, hpos⟩ := (i.array zi z).mp (harray ▸ List.mem_cons_self)
  rw [← hidx] at hzi
  subst hzi
  have hnd := i.arrayNodup h.zoneindex
  rw [harray] at hnd
  obtain ⟨hnot, hnd'⟩ := List.nodup_cons.mp hnd
  obtain ⟨off, hoff, hpage⟩ := ok.page i.config.zonePages_mul (List.mem_append_left _ List.mem_cons_self)
  have hfresh : c ∉ out z := by
    have hnd := (List.nodup_append.mp ok.nodup).1
    exact (List.nodup_cons.mp hnd).1
  have harea : s.area c = ⟨c, h.chunksize⟩ := by
    rw [area_small hpage (i.small z (List.mem_append_left idle hz) off hoff), hsize]
  refine i.rezone hz ok hidx hsize ?_ ?_ ?_ ?_ ?_ ?_ ?_ ?_
  · intro zi hne
    split
    · exact Function.update_of_ne hne _ _
    · rfl
  · intro z' hne
    split
    · rw [Function.update_self, harray, List.mem_cons, or_iff_right hne]
    · exact Iff.rfl
  · split
    next hzero =>
      rw [Function.update_self]
      exact iff_of_false hnot (by omega)
    next hnonzero =>
      rw [harray]
      exact iff_of_true List.mem_cons_self (Nat.pos_of_ne_zero hnonzero)
  · split
    · rw [Function.update_self]
      exact hnd'
    · exact i.arrayNodup _
  · intro p
    have hmem : (∃ z' ∈ zs, p ∈ Function.update out z (c :: out z) z') ↔ p = c ∨ ∃ z' ∈ zs, p ∈ out z' := by
      constructor
      · rintro ⟨z', hz', hp⟩
        by_cases hne : z' = z
        · rw [hne, Function.update_self, List.mem_cons] at hp
          exact hp.imp_right fun hp => ⟨z, hz, hp⟩
        · rw [Function.update_of_ne hne] at hp
          exact Or.inr ⟨z', hz', hp⟩
      · rintro (rfl | ⟨z', hz', hp⟩)
        · exact ⟨z, hz, by rw [Function.update_self]; exact List.mem_cons_self⟩
        · by_cases hne : z' = z
          · subst hne
            exact ⟨z', hz, by rw [Function.update_self]; exact List.mem_cons_of_mem _ hp⟩
          · exact ⟨z', hz', by rwa [Function.update_of_ne hne]⟩
    rw [List.map_cons, List.mem_cons, i.pointers, hmem, or_left_comm]
  · exact List.nodup_cons.mpr ⟨i.fresh_chunk hz hoff hpage hfresh, i.nodup⟩
  · refine List.forall_mem_cons.mpr ⟨?_, i.asked⟩
    show r ≤ (s.area c).size
    rw [harea]
    exact hr
  · rw [List.map_cons, List.sum_cons, harea, i.used, Nat.add_comm]

/-- **A chunk is freed**: it is on the list of its zone, and the zone in the list of its index. -/
theorem freeChunk (i : Inv lo n s live runs other zs idle larges out) (hz : z ∈ zs) (hp : p ∈ out z) (hl : (p, r) ∈ live) :
    Inv lo n (s.freeChunk z p) (live.erase (p, r)) runs other zs idle larges (Function.update out z ((out z).erase p)) := by
  have ok := i.zones z hz
  have hnd := (List.nodup_append.mp ok.nodup).1
  have harray := i.array (s.zone z).zoneindex
  have hlist : Function.update s.zoneArray (s.zone z).zoneindex (z :: s.zoneArray (s.zone z).zoneindex) (s.zone z).zoneindex =
      z :: s.zoneArray (s.zone z).zoneindex := Function.update_self _ _ _
  have hcall : s.freeChunk z p = { s with
      zone := Function.update s.zone z { s.zone z with nfree := (s.zone z).nfree + 1, freechunk := p :: (s.zone z).freechunk }
      zoneArray := if (s.zone z).nfree = 0 then
        Function.update s.zoneArray (s.zone z).zoneindex (z :: s.zoneArray (s.zone z).zoneindex) else s.zoneArray
      usedMem := s.usedMem - (s.zone z).chunksize } := by
    unfold Slab.freeChunk
    dsimp only
    split <;> rfl
  rw [hcall]
  refine i.rezone hz (ok.push hp) rfl rfl ?_ ?_ ?_ ?_ ?_ (nodup_erase i.nodup) (fun l hl' => i.asked l (List.mem_of_mem_erase hl')) ?_
  · intro zi hne
    split
    · exact Function.update_of_ne hne _ _
    · rfl
  · intro z' hne
    split
    · dsimp only
      rw [hlist, List.mem_cons, or_iff_right hne]
    · exact Iff.rfl
  · refine iff_of_true ?_ (Nat.succ_pos _)
    split
    · dsimp only
      rw [hlist]
      exact List.mem_cons_self
    next hpos => exact (harray z).mpr ⟨hz, rfl, Nat.pos_of_ne_zero hpos⟩
  · split
    next hzero =>
      dsimp only
      rw [hlist]
      refine List.nodup_cons.mpr ⟨fun hm => ?_, i.arrayNodup _⟩
      have := ((harray z).mp hm).2.2
      omega
    · exact i.arrayNodup _
  · intro p'
    rw [mem_erase i.nodup hl, i.pointers]
    constructor
    · rintro ⟨hlarge | ⟨z', hz', hp'⟩, hne⟩
      · exact Or.inl hlarge
      · refine Or.inr ⟨z', hz', ?_⟩
        by_cases heq : z' = z
        · subst heq
          rw [Function.update_self]
          exact (List.mem_erase_of_ne hne).mpr hp'
        · rwa [Function.update_of_ne heq]
    · rintro (⟨q, hq, rfl⟩ | ⟨z', hz', hp'⟩)
      · refine ⟨Or.inl ⟨q, hq, rfl⟩, ?_⟩
        rintro rfl
        have htype := i.type_of_chunk hz hp
        rw [page_of_large, i.large q hq] at htype
        exact nomatch htype
      · by_cases heq : z' = z
        · subst heq
          rw [Function.update_self] at hp'
          obtain ⟨hne, hp'⟩ := hnd.mem_erase_iff.mp hp'
          exact ⟨Or.inr ⟨z', hz', hp'⟩, hne⟩
        · rw [Function.update_of_ne heq] at hp'
          refine ⟨Or.inr ⟨z', hz', hp'⟩, ?_⟩
          rintro rfl
          exact heq ((i.owner_of_chunk hz' hp').symm.trans (i.owner_of_chunk hz hp))
  · have hsize : (s.zone z).chunksize = (s.area p).size := by rw [i.area_of_chunk hz hp]
    rw [i.used, hsize]
    exact sum_erase hl fun l => (s.area l.1).size

/-- **A zone that is totally free is kept** for any index. -/
theorem retire (i : Inv lo n s live runs other zs idle larges out) (hz : z ∈ zs) (hfree : (s.zone z).nfree = (s.zone z).nmax) :
    Inv lo n (s.retire z) live runs other (zs.erase z) (z :: idle) larges out := by
  have hnil := (i.zones z hz).out_eq_nil hfree
  have hnd := (List.nodup_append.mp i.owned_nodup.1).1
  have hperm : (zs ++ idle).Perm (zs.erase z ++ z :: idle) :=
    ((List.perm_cons_erase hz).append_right idle).trans List.perm_middle.symm
  have hother : ∀ z', z' ≠ z → (s.retire z).zone z' = s.zone z' := fun z' hne => Function.update_of_ne hne _ _
  have hchunk : ∀ z', ((s.retire z).zone z').chunksize = (s.zone z').chunksize := by
    intro z'
    by_cases hne : z' = z
    · subst hne
      show (Function.update s.zone z' _ z').chunksize = _
      rw [Function.update_self]
      rfl
    · rw [hother z' hne]
  have harea : ∀ l ∈ live, (s.retire z).area l.1 = s.area l.1 := fun l hl =>
    i.area_congr (fun x _ => rfl) (fun z' _ => hchunk z') (List.mem_map_of_mem hl)
  constructor
  case config => exact ⟨i.config.size, i.config.limit⟩
  case store =>
    refine i.store.perm (List.Perm.append_left other ?_)
    exact (hperm.map s.zoneExtent).append_right _
  case small => exact fun z' hz' => i.small z' (hperm.mem_iff.mpr hz')
  case large => exact i.large
  case zones =>
    intro z' hz'
    obtain ⟨hne, hz'⟩ := hnd.mem_erase_iff.mp hz'
    rw [hother z' hne]
    exact i.zones z' hz'
  case kept =>
    refine List.forall_mem_cons.mpr ⟨?_, fun z' hz' => ?_⟩
    · have hself : (s.retire z).zone z = { s.zone z with magic := -1 } := Function.update_self _ _ _
      rw [hself]
      exact (i.zones z hz).nfree
    · have hne : z ≠ z' := (List.nodup_append.mp i.owned_nodup.1).2.2 z hz z' hz'
      rw [hother z' hne.symm]
      exact i.kept z' hz'
  case array =>
    intro zi z'
    show z' ∈ Function.update s.zoneArray (s.zone z).zoneindex ((s.zoneArray (s.zone z).zoneindex).erase z) zi ↔ _
    by_cases hne : z' = z
    · subst hne
      refine iff_of_false (fun hm => ?_) fun hand => (hnd.mem_erase_iff.mp hand.1).1 rfl
      by_cases heq : zi = (s.zone z').zoneindex
      · rw [heq, Function.update_self] at hm
        exact ((i.arrayNodup _).mem_erase_iff.mp hm).1 rfl
      · rw [Function.update_of_ne heq] at hm
        exact heq ((i.array zi z').mp hm).2.1.symm
    · rw [hother z' hne, List.mem_erase_of_ne hne, ← i.array]
      by_cases heq : zi = (s.zone z).zoneindex
      · rw [heq, Function.update_self, List.mem_erase_of_ne hne]
      · rw [Function.update_of_ne heq]
  case arrayNodup =>
    intro zi
    show (Function.update s.zoneArray (s.zone z).zoneindex ((s.zoneArray (s.zone z).zoneindex).erase z) zi).Nodup
    by_cases heq : zi = (s.zone z).zoneindex
    · rw [heq, Function.update_self]
      exact (i.arrayNodup _).erase z
    · rw [Function.update_of_ne heq]
      exact i.arrayNodup zi
  case pointers =>
    intro p
    rw [i.pointers]
    refine or_congr_right ⟨?_, ?_⟩
    · rintro ⟨z', hz', hp⟩
      refine ⟨z', (List.mem_erase_of_ne ?_).mpr hz', hp⟩
      rintro rfl
      rw [hnil] at hp
      exact List.not_mem_nil hp
    · rintro ⟨z', hz', hp⟩
      exact ⟨z', List.mem_of_mem_erase hz', hp⟩
  case nodup => exact i.nodup
  case asked =>
    intro l hl
    rw [harea l hl]
    exact i.asked l hl
  case used =>
    rw [List.map_congr_left fun l hl => congrArg Extent.size (harea l hl)]
    exact i.used

end CoreLink.RtThread.Slab.Inv
