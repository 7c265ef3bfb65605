/-
# `CoreLink.RtThread.SlabRuns` — runs of the slab allocator, `src/slab.c`.

The operations are put together to the calls: `rt_malloc` and `rt_free` return, no assertion fails in them, and they keep the
invariant, with one pointer more or less. So it holds in every state that is reached from `rt_system_heap_init` on (`of_run`).
-/
import CoreLink.RtThread.SlabCalls

namespace CoreLink.RtThread.Slab

open CoreLink.Lib CoreLink.Lib.Extent

variable {lo n r z p : ℕ} {s s' : Slab} {live : List (ℕ × ℕ)} {runs other : List Extent} {zs idle larges : List ℕ}
  {out : ℕ → List ℕ}

/-! ## `rt_malloc` -/

/-- The zone from which a request is served: the first of its index, or the first that is kept, or one in the first run of pages
that is large enough. -/
def zoneFor (s : Slab) (runs : List Extent) (zi : ℕ) : Option ℕ :=
  match s.zoneArray zi with
  | z :: _ => some z
  | [] =>
    match s.zoneFree with
    | z :: _ => some z
    | [] => (takeFirst s.zonePages runs).map Prod.fst

/-- Where the memory is that a request is served with. -/
def Served (s : Slab) (runs : List Extent) (r p : ℕ) : Prop :=
  (s.zoneLimit ≤ r ∧ ∃ b, (takeFirst (Word.alignUp 32 12 r / pageSize) runs).map Prod.fst = some b ∧ p = b * pageSize) ∨
    (r < s.zoneLimit ∧ ∃ b j, s.zoneFor runs (zoneindex r).2 = some b ∧
      p = b * pageSize + zoneOff (zoneindex r).1 + j * (zoneindex r).1)

/-- A size that is rounded up to pages, but for those that are too large for that. -/
theorem alignUp_page (hr : r < 2 ^ 32) : Word.alignUp 32 12 r / pageSize * pageSize = Word.alignUp 32 12 r ∧
    (0 < Word.alignUp 32 12 r / pageSize → r ≤ Word.alignUp 32 12 r) := by
  have hdvd : pageSize ∣ Word.alignUp 32 12 r := Word.dvd_alignUp (by decide)
  refine ⟨Nat.div_mul_cancel hdvd, fun hpos => ?_⟩
  by_cases hle : r + 2 ^ 12 ≤ 2 ^ 32
  · exact Word.le_alignUp (by decide) hle
  · rw [Word.alignUp_wraps (by decide) (by omega) hr] at hpos
    exact absurd hpos (by decide)

/-- What a request below the limit is rounded up to. -/
theorem Config.small (c : s.Config) (h0 : 0 < r) (hr : r < s.zoneLimit) :
    (zoneindex r).2 < nzones ∧ (zoneindex r).1 = chunkOf (zoneindex r).2 ∧ r ≤ chunkOf (zoneindex r).2 ∧
      zoneOff (chunkOf (zoneindex r).2) + 2 * chunkOf (zoneindex r).2 ≤ s.zoneSize := by
  have hlimit := c.limit
  obtain ⟨hzi, hchunk, hle, hmax⟩ := zoneindex_fits h0 (by omega)
  obtain ⟨-, -, hroom, hroom'⟩ := zoneOff_spec hzi
  rw [hchunk] at hle hmax
  refine ⟨hzi, hchunk, hle, ?_⟩
  rcases c.size with hsize | hsize | hsize
  · have := hroom (hmax (by omega))
    omega
  · omega
  · omega

/-- **`rt_malloc` for a large request.** -/
theorem Inv.malloc_large (i : Inv lo n s live runs other zs s.zoneFree larges out) (hr : r < 2 ^ 32) (hlimit : s.zoneLimit ≤ r) :
    ∃ o s', Returns (fun fuel => s.rtMalloc fuel r) (o, s') ∧ s'.zoneFree = s.zoneFree ∧ s'.zoneFreeCnt = s.zoneFreeCnt ∧
      ((o = none ∧ Inv lo n s' live runs other zs s'.zoneFree larges out) ∨
        ∃ p runs' q, o = some p ∧ Served s runs r p ∧
          Inv lo n s' ((p, r) :: live) runs' other zs s'.zoneFree (q :: larges) out) := by
  have hne : r ≠ 0 := by
    have := i.config.limit
    rcases i.config.size with h | h | h <;> omega
  obtain ⟨hmul, hle⟩ := alignUp_page hr
  generalize hk : Word.alignUp 32 12 r / pageSize = k at hmul hle
  let f : Option ℕ × PageHeap → Option ℕ × Slab := fun x => x.1.elim (none, { s with pages := x.2 }) fun b =>
    (some (b * pageSize),
      { s with pages := x.2, memusage := Function.update s.memusage b ⟨.large, k⟩ }.addUsed (Word.alignUp 32 12 r))
  have hcall : (fun fuel => s.rtMalloc fuel r) = fun fuel => (s.pages.rtPageAlloc fuel k).map f := by
    funext fuel
    unfold rtMalloc
    rw [if_neg hne, if_pos hlimit]
    dsimp only
    rw [hk]
    cases s.pages.rtPageAlloc fuel k with
    | none => rfl
    | some x =>
      obtain ⟨o, pages⟩ := x
      cases o with
      | none => rfl
      | some b => rfl
  rw [hcall]
  by_cases hzero : k = 0
  · have hreturns : Returns (fun fuel => s.pages.rtPageAlloc fuel k) (none, s.pages) :=
      .of_const fun fuel => if_pos hzero
    exact ⟨none, s, hreturns.map f, rfl, rfl, Or.inl ⟨rfl, i⟩⟩
  · have hpos : 0 < k := Nat.pos_of_ne_zero hzero
    obtain ⟨o, pages, hreturns, ⟨-, rfl, rfl⟩ | ⟨b, runs', htake, rfl, i'⟩⟩ := i.pageAlloc hpos
    · exact ⟨none, s, hreturns.map f, rfl, rfl, Or.inl ⟨rfl, i⟩⟩
    · refine ⟨_, _, hreturns.map f, rfl, rfl, Or.inr ⟨b * pageSize, runs', b, rfl, Or.inl ⟨hlimit, b, ?_, rfl⟩, ?_⟩⟩
      · rw [hk, htake]
        rfl
      · have hfresh : ∀ x, Covers (s.owned zs s.zoneFree larges) x → x ≠ b := by
          rintro x hx rfl
          exact i'.not_covers_of_other ⟨Nat.le_refl x, Nat.lt_add_of_pos_right hpos⟩ hx
        have iu := i'.usage (Function.update s.memusage b ⟨.large, k⟩) fun x hx =>
          Function.update_of_ne (hfresh x hx) _ _
        have ic := iu.claimLarge (Function.update_self _ _ _) (hmul ▸ hle hpos)
        rw [hmul] at ic
        exact ic

/-- What `rt_malloc` writes when a chunk is taken. -/
theorem takeChunk_state (s : Slab) (zi z k : ℕ) (cs : List ℕ) {h : SlabZone} (hnfree : h.nfree = (s.zone z).nfree - 1) :
    ((if (s.zone z).nfree - 1 = 0 then s.setArray zi cs else s).setZone z h).addUsed k = { s with
      zone := Function.update s.zone z h
      zoneArray := if h.nfree = 0 then Function.update s.zoneArray zi cs else s.zoneArray
      usedMem := s.usedMem + k
      maxMem := max s.maxMem (s.usedMem + k) } := by
  rw [hnfree]
  split <;> rfl

/-- **A chunk of the first zone of its index**: one that has never been used, or the first on the list. -/
theorem Inv.takeChunk (i : Inv lo n s live runs other zs idle larges out) {cs : List ℕ} {zi : ℕ}
    (harray : s.zoneArray zi = z :: cs) (hr : r ≤ chunkOf zi) :
    ∃ p j s', s.takeChunk zi (chunkOf zi) z cs = some (p, s') ∧ p = z * pageSize + zoneOff (chunkOf zi) + j * chunkOf zi ∧
      s'.zoneFree = s.zoneFree ∧ s'.zoneFreeCnt = s.zoneFreeCnt ∧
      Inv lo n s' ((p, r) :: live) runs other zs idle larges (Function.update out z (p :: out z)) := by
  obtain ⟨hz, hzi, hpos⟩ := (i.array zi z).mp (harray ▸ List.mem_cons_self)
  have ok := i.zones z hz
  have hchunk : (s.zone z).chunksize = chunkOf zi := hzi ▸ ok.chunksize
  have hbase := ok.base
  rw [hchunk] at hbase
  unfold Slab.takeChunk
  dsimp only
  rw [if_neg (Nat.pos_iff_ne_zero.mp hpos)]
  by_cases hunused : (s.zone z).uindex + 1 ≠ (s.zone z).nmax
  · have i' := i.handOut harray (ok.grow hunused) rfl rfl (hchunk ▸ hr) (m := max s.maxMem (s.usedMem + (s.zone z).chunksize))
    rw [if_pos hunused, takeChunk_state s zi z _ cs rfl]
    refine ⟨_, (s.zone z).uindex + 1, _, rfl, by rw [hbase], rfl, rfl, ?_⟩
    rw [← hchunk]
    exact i'
  · rw [if_neg hunused]
    cases hlist : (s.zone z).freechunk with
    | nil =>
      -- all chunks have been used, and some are free
      have hnfree : (s.zone z).nfree = ((s.zone z).nmax - 1 - (s.zone z).uindex) + (s.zone z).freechunk.length := ok.nfree
      rw [hlist, List.length_nil] at hnfree
      omega
    | cons c chunks =>
      have i' := i.handOut harray (ok.pop hlist) rfl rfl (hchunk ▸ hr) (m := max s.maxMem (s.usedMem + (s.zone z).chunksize))
      obtain ⟨j, -, hc⟩ := ok.position (p := c) (List.mem_append_right _ (hlist ▸ List.mem_cons_self))
      dsimp only
      rw [takeChunk_state s zi z _ cs rfl]
      exact ⟨c, j, _, rfl, by rw [hc, hbase, hchunk], rfl, rfl, i'⟩

/-- `rt_malloc` for a small request, with a zone of its index in use. -/
theorem Config.rtMalloc_zone (c : s.Config) (h0 : 0 < r) (hlimit : r < s.zoneLimit) {z : ℕ} {cs : List ℕ}
    (harray : s.zoneArray (zoneindex r).2 = z :: cs) (fuel : ℕ) :
    s.rtMalloc fuel r =
      (s.takeChunk (zoneindex r).2 (chunkOf (zoneindex r).2) z cs).map fun x => (some x.1, x.2) := by
  obtain ⟨hzi, hchunk, -, -⟩ := c.small h0 hlimit
  unfold rtMalloc
  rw [if_neg (Nat.pos_iff_ne_zero.mp h0), if_neg (Nat.not_le.mpr hlimit)]
  dsimp only
  rw [if_neg (Nat.not_le.mpr hzi), harray, hchunk]

/-- `rt_malloc` for a small request, with no zone of its index and an idle one. -/
theorem Config.rtMalloc_idle (c : s.Config) (h0 : 0 < r) (hlimit : r < s.zoneLimit) {z : ℕ} {idle : List ℕ}
    (harray : s.zoneArray (zoneindex r).2 = []) (hfree : s.zoneFree = z :: idle) (fuel : ℕ) :
    s.rtMalloc fuel r = some (some (z * pageSize + zoneOff (chunkOf (zoneindex r).2) + 0 * chunkOf (zoneindex r).2),
      ({ s with zoneFree := idle, zoneFreeCnt := s.zoneFreeCnt - 1 }.setUp (zoneindex r).2
        (chunkOf (zoneindex r).2) z).2) := by
  obtain ⟨hzi, hchunk, -, -⟩ := c.small h0 hlimit
  unfold rtMalloc
  rw [if_neg (Nat.pos_iff_ne_zero.mp h0), if_neg (Nat.not_le.mpr hlimit)]
  dsimp only
  rw [if_neg (Nat.not_le.mpr hzi), harray, hfree, hchunk]
  rfl

/-- What `rt_malloc` makes of the pages it asks for: a zone for the chunks of one index. -/
def freshZone (s : Slab) (zi size : ℕ) (x : Option ℕ × PageHeap) : Option ℕ × Slab :=
  x.1.elim (none, { s with pages := x.2 }) fun z =>
    let r := ({ s with pages := x.2 }.setUsage z fun off => ⟨.small, off⟩).setUp zi size z
    (some r.1, r.2)

/-- `rt_malloc` for a small request, with no zone at hand. -/
theorem Config.rtMalloc_fresh (c : s.Config) (h0 : 0 < r) (hlimit : r < s.zoneLimit)
    (harray : s.zoneArray (zoneindex r).2 = []) (hfree : s.zoneFree = []) (fuel : ℕ) :
    s.rtMalloc fuel r =
      (s.pages.rtPageAlloc fuel s.zonePages).map (s.freshZone (zoneindex r).2 (chunkOf (zoneindex r).2)) := by
  obtain ⟨hzi, hchunk, -, -⟩ := c.small h0 hlimit
  unfold rtMalloc
  rw [if_neg (Nat.pos_iff_ne_zero.mp h0), if_neg (Nat.not_le.mpr hlimit)]
  dsimp only
  rw [if_neg (Nat.not_le.mpr hzi), harray, hchunk]
  dsimp only
  split
  next z idle heq => exact nomatch hfree.symm.trans heq
  next =>
    unfold zonePages
    cases s.pages.rtPageAlloc fuel (s.zoneSize / pageSize) with
    | none => rfl
    | some x =>
      obtain ⟨o, pages⟩ := x
      cases o with
      | none => rfl
      | some b => rfl

/-- **`rt_malloc` for a small request.** -/
theorem Inv.malloc_small (i : Inv lo n s live runs other zs s.zoneFree larges out) (h0 : 0 < r) (hlimit : r < s.zoneLimit) :
    ∃ o s', Returns (fun fuel => s.rtMalloc fuel r) (o, s') ∧
      (s.zoneFreeCnt = s.zoneFree.length → s'.zoneFreeCnt = s'.zoneFree.length) ∧
      ((o = none ∧ Inv lo n s' live runs other zs s'.zoneFree larges out) ∨
        ∃ p runs' zs' out', o = some p ∧ Served s runs r p ∧
          Inv lo n s' ((p, r) :: live) runs' other zs' s'.zoneFree larges out') := by
  obtain ⟨hzi, hchunk, hle, hroom⟩ := i.config.small h0 hlimit
  cases harray : s.zoneArray (zoneindex r).2 with
  | cons z cs =>
    obtain ⟨p, j, s', htake, hp, hfree, hcnt, i'⟩ := i.takeChunk harray hle
    refine ⟨some p, s', .of_const fun fuel => ?_, fun h => by rw [hcnt, hfree, h], Or.inr ⟨p, runs, zs, _, rfl, ?_, hfree ▸ i'⟩⟩
    · rw [i.config.rtMalloc_zone h0 hlimit harray, htake]
      rfl
    · refine Or.inr ⟨hlimit, z, j, ?_, hchunk ▸ hp⟩
      unfold zoneFor
      rw [harray]
  | nil =>
    cases hfree : s.zoneFree with
    | cons z idle =>
      rw [hfree] at i
      have hsmall : ∀ off < s.zonePages, s.memusage (z + off) = ⟨.small, off⟩ :=
        i.small z (List.mem_append_right zs List.mem_cons_self)
      have i' := (i.dropIdle.setFree idle (s.zoneFreeCnt - 1)).setUp hsmall hzi hroom hle
      refine ⟨_, _, .of_const fun fuel => i.config.rtMalloc_idle h0 hlimit harray hfree fuel, fun h => ?_,
        Or.inr ⟨_, runs, z :: zs, _, rfl, ?_, i'⟩⟩
      · rw [List.length_cons] at h
        show s.zoneFreeCnt - 1 = idle.length
        omega
      · refine Or.inr ⟨hlimit, z, 0, ?_, by rw [hchunk]⟩
        unfold zoneFor
        rw [harray, hfree]
    | nil =>
      rw [hfree] at i
      obtain ⟨o, pages, hreturns, hcase⟩ := i.pageAlloc i.config.zonePages_pos
      let f := s.freshZone (zoneindex r).2 (chunkOf (zoneindex r).2)
      have hmap : (fun fuel => s.rtMalloc fuel r) = fun fuel => (s.pages.rtPageAlloc fuel s.zonePages).map f :=
        funext fun fuel => i.config.rtMalloc_fresh h0 hlimit harray hfree fuel
      rw [hmap]
      rcases hcase with ⟨-, rfl, rfl⟩ | ⟨b, runs', htake, rfl, i'⟩
      · refine ⟨none, s, hreturns.map f, fun h => h.trans (by rw [hfree]), Or.inl ⟨rfl, ?_⟩⟩
        rw [hfree]
        exact i
      · have hsmall : ∀ off < s.zonePages,
            (setUsage { s with pages := pages } b fun off => ⟨.small, off⟩).memusage (b + off) = ⟨.small, off⟩ := by
          intro off hoff
          show (if b ≤ b + off ∧ b + off < b + s.zonePages then (⟨.small, b + off - b⟩ : Memusage) else _) = _
          rw [if_pos ⟨Nat.le_add_right b off, Nat.add_lt_add_left hoff b⟩, Nat.add_sub_cancel_left]
        have iu := i'.usage (setUsage { s with pages := pages } b fun off => ⟨.small, off⟩).memusage fun x hx => by
          have hnot : ¬Has ⟨b, s.zonePages⟩ x := fun hhas => i'.not_covers_of_other hhas hx
          exact if_neg hnot
        have i'' := Inv.setUp (r := r) iu hsmall hzi hroom hle
        let x := ({ s with pages := pages }.setUsage b fun off => ⟨.small, off⟩).setUp (zoneindex r).2
          (chunkOf (zoneindex r).2) b
        refine ⟨_, _, hreturns.map f, fun h => ?_,
          Or.inr ⟨x.1, runs', b :: zs, Function.update out b [x.1], rfl, ?_, ?_⟩⟩
        · exact h.trans (congrArg List.length hfree.symm)
        · refine Or.inr ⟨hlimit, b, 0, ?_, by rw [hchunk]; rfl⟩
          unfold zoneFor
          rw [harray, hfree]
          dsimp only
          rw [htake]
          rfl
        · have hnil : x.2.zoneFree = [] := hfree
          show Inv lo n x.2 ((x.1, r) :: live) runs' other (b :: zs) x.2.zoneFree larges _
          rw [hnil]
          exact i''

/-! ## `rt_free` -/

/-- **`rt_free` of a large area.** -/
theorem Inv.free_large (i : Inv lo n s live runs other zs s.zoneFree larges out) (hlo : lo ≠ 0) {q : ℕ} (hq : q ∈ larges)
    (hl : (q * pageSize, r) ∈ live) :
    ∃ s', Returns (fun fuel => s.rtFree fuel (q * pageSize)) s' ∧ s'.zoneFree = s.zoneFree ∧ s'.zoneFreeCnt = s.zoneFreeCnt ∧
      ∃ runs', Inv lo n s' (live.erase (q * pageSize, r)) runs' other zs s'.zoneFree (larges.erase q) out := by
  have hmem : s.largeExtent q ∈ other ++ s.owned zs s.zoneFree larges :=
    List.mem_append_right _ (List.mem_append_right _ (List.mem_map_of_mem hq))
  obtain ⟨hge, -, hpos⟩ := i.store.packed.inside _ hmem
  have hge : lo ≤ q := hge
  have hpos : 0 < (s.memusage q).size := hpos
  have i₁ := i.dropLarge hq hl
  have i₂ := i₁.usage (Function.update s.memusage q { s.memusage q with size := 0 }) fun x hx =>
    Function.update_of_ne (fun heq => i₁.not_covers_of_other ⟨Nat.le_of_eq heq.symm, heq ▸ Nat.lt_add_of_pos_right hpos⟩ hx) _ _
  obtain ⟨pages, hreturns, i₃⟩ := i₂.pageFree hlo
  have hcall : (fun fuel => s.rtFree fuel (q * pageSize)) = fun fuel =>
      (s.pages.rtPageFree fuel q (s.memusage q).size).map fun pages =>
        { s with
          memusage := Function.update s.memusage q { s.memusage q with size := 0 }
          usedMem := s.usedMem - (s.memusage q).size * pageSize
          pages := pages } := by
    funext fuel
    have hne : q * pageSize ≠ 0 := by
      unfold pageSize
      omega
    unfold rtFree
    rw [if_neg hne, Inv.page_of_large]
    dsimp only
    rw [if_pos (i.large q hq), if_neg (not_not.mpr (Nat.mul_mod_left q pageSize))]
  rw [hcall]
  exact ⟨_, hreturns.map _, rfl, rfl, _, i₃⟩

/-- **The pages of the first zone that is kept** are given back. -/
theorem Inv.release (i : Inv lo n s live runs other zs (z :: idle) larges out) (hlo : lo ≠ 0) (hfree : s.zoneFree = z :: idle)
    (hcnt : s.zoneFreeCnt = s.zoneFree.length) :
    ∃ s', Returns (fun fuel => s.release fuel) s' ∧ s'.zoneFreeCnt = s'.zoneFree.length ∧
      ∃ runs', Inv lo n s' live runs' other zs s'.zoneFree larges out := by
  have i₁ := i.dropIdle.setFree idle (s.zoneFreeCnt - 1)
  have i₂ := i₁.usage (setUsage s z fun _ => ⟨.free, 0⟩).memusage fun x hx => by
    have hnot : ¬Has ⟨z, s.zonePages⟩ x := fun hhas => i₁.not_covers_of_other hhas hx
    exact if_neg hnot
  obtain ⟨pages, hreturns, i₃⟩ := i₂.pageFree hlo
  have hcall : (fun fuel => s.release fuel) = fun fuel =>
      (s.pages.rtPageFree fuel z s.zonePages).map fun pages =>
        { setUsage { s with zoneFree := idle, zoneFreeCnt := s.zoneFreeCnt - 1 } z (fun _ => ⟨.free, 0⟩) with pages := pages } := by
    funext fuel
    unfold Slab.release
    rw [hfree]
    rfl
  rw [hcall]
  refine ⟨_, hreturns.map _, ?_, _, i₃⟩
  rw [hfree, List.length_cons] at hcnt
  show s.zoneFreeCnt - 1 = idle.length
  omega

/-- **`rt_free` of a chunk.** -/
theorem Inv.free_small (i : Inv lo n s live runs other zs s.zoneFree larges out) (hlo : lo ≠ 0) (hz : z ∈ zs) (hp : p ∈ out z)
    (hl : (p, r) ∈ live) (hcnt : s.zoneFreeCnt = s.zoneFree.length) :
    ∃ s', Returns (fun fuel => s.rtFree fuel p) s' ∧ s'.zoneFreeCnt = s'.zoneFree.length ∧
      ∃ runs' zs' out', Inv lo n s' (live.erase (p, r)) runs' other zs' s'.zoneFree larges out' := by
  have ok := i.zones z hz
  have hne : p ≠ 0 := by
    have hwithin := (ok.within (List.mem_append_left _ hp)).1
    have hoff := (zoneOff_spec ok.index).2.1
    rw [← ok.chunksize] at hoff
    unfold zoneHeader at hoff
    omega
  have i₁ := i.freeChunk hz hp hl
  have hsame : (s.freeChunk z p).zoneFree = s.zoneFree ∧ (s.freeChunk z p).zoneFreeCnt = s.zoneFreeCnt := by
    unfold Slab.freeChunk
    dsimp only
    split <;> exact ⟨rfl, rfl⟩
  rw [← hsame.1] at i₁
  have hcall : ∀ fuel, s.rtFree fuel p =
      if ((s.freeChunk z p).zone z).nfree = ((s.freeChunk z p).zone z).nmax ∧
          (s.freeChunk z p).zoneArray ((s.freeChunk z p).zone z).zoneindex ≠ [z] then
        if zoneReleaseThresh < ((s.freeChunk z p).retire z).zoneFreeCnt then ((s.freeChunk z p).retire z).release fuel
        else some ((s.freeChunk z p).retire z)
      else some (s.freeChunk z p) := by
    intro fuel
    unfold rtFree
    rw [if_neg hne]
    dsimp only
    rw [if_neg (by rw [i.type_of_chunk hz hp]; exact nofun), i.owner_of_chunk hz hp, if_neg (not_not.mpr ok.magic)]
  generalize s.freeChunk z p = s₁ at i₁ hsame hcall
  by_cases hall : (s₁.zone z).nfree = (s₁.zone z).nmax ∧ s₁.zoneArray (s₁.zone z).zoneindex ≠ [z]
  · have i₂ := i₁.retire hz hall.1
    have hcnt₂ : (s₁.retire z).zoneFreeCnt = (s₁.retire z).zoneFree.length := by
      show s₁.zoneFreeCnt + 1 = (z :: s₁.zoneFree).length
      rw [hsame.1, hsame.2, hcnt, List.length_cons]
    by_cases hmany : zoneReleaseThresh < (s₁.retire z).zoneFreeCnt
    · obtain ⟨s', hreturns, hcnt', runs', i'⟩ := i₂.release hlo rfl hcnt₂
      refine ⟨s', ?_, hcnt', runs', _, _, i'⟩
      have heq : (fun fuel => s.rtFree fuel p) = fun fuel => (s₁.retire z).release fuel := by
        funext fuel
        rw [hcall, if_pos hall, if_pos hmany]
      exact heq ▸ hreturns
    · refine ⟨s₁.retire z, .of_const fun fuel => ?_, hcnt₂, runs, _, _, i₂⟩
      rw [hcall, if_pos hall, if_neg hmany]
  · refine ⟨s₁, .of_const fun fuel => ?_, ?_, runs, _, _, i₁⟩
    · rw [hcall, if_neg hall]
    · rw [hsame.1, hsame.2, hcnt]

/-! ## Runs -/

/-- What holds between the calls. -/
def Sound (lo n : ℕ) (s : Slab) (live : List (ℕ × ℕ)) : Prop :=
  s.zoneFreeCnt = s.zoneFree.length ∧ ∃ runs other zs larges out, Inv lo n s live runs other zs s.zoneFree larges out

/-- **`rt_malloc`** returns, and the memory is one more that the callers have. -/
theorem Inv.malloc (i : Inv lo n s live runs other zs s.zoneFree larges out) (hcnt : s.zoneFreeCnt = s.zoneFree.length)
    (hr : r < 2 ^ 32) :
    ∃ o s', Returns (fun fuel => s.rtMalloc fuel r) (o, s') ∧
      Sound lo n s' (o.elim live fun p => (p, r) :: live) ∧ ∀ p, o = some p → Served s runs r p := by
  by_cases hzero : r = 0
  · exact ⟨none, s, .of_const fun fuel => if_pos hzero, ⟨hcnt, runs, other, zs, larges, out, i⟩, nofun⟩
  · by_cases hlimit : s.zoneLimit ≤ r
    · obtain ⟨o, s', hreturns, hfree, hcnt', ⟨rfl, i'⟩ | ⟨p, runs', q, rfl, hserved, i'⟩⟩ := i.malloc_large hr hlimit
      · exact ⟨none, s', hreturns, ⟨by rw [hcnt', hfree, hcnt], _, _, _, _, _, i'⟩, nofun⟩
      · refine ⟨some p, s', hreturns, ⟨by rw [hcnt', hfree, hcnt], _, _, _, _, _, i'⟩, ?_⟩
        rintro _ ⟨rfl⟩
        exact hserved
    · obtain ⟨o, s', hreturns, hcnt', ⟨rfl, i'⟩ | ⟨p, runs', zs', out', rfl, hserved, i'⟩⟩ :=
        i.malloc_small (Nat.pos_of_ne_zero hzero) (Nat.lt_of_not_le hlimit)
      · exact ⟨none, s', hreturns, ⟨hcnt' hcnt, _, _, _, _, _, i'⟩, nofun⟩
      · refine ⟨some p, s', hreturns, ⟨hcnt' hcnt, _, _, _, _, _, i'⟩, ?_⟩
        rintro _ ⟨rfl⟩
        exact hserved

/-- **`rt_free`** of a pointer that the callers have returns, and they have it no longer. -/
theorem Sound.free (h : Sound lo n s live) (hlo : lo ≠ 0) (hl : (p, r) ∈ live) :
    ∃ s', Returns (fun fuel => s.rtFree fuel p) s' ∧ Sound lo n s' (live.erase (p, r)) := by
  obtain ⟨hcnt, runs, other, zs, larges, out, i⟩ := h
  rcases (i.pointers p).mp (List.mem_map_of_mem hl) with ⟨q, hq, rfl⟩ | ⟨z, hz, hp⟩
  · obtain ⟨s', hreturns, hfree, hcnt', runs', i'⟩ := i.free_large hlo hq hl
    exact ⟨s', hreturns, by rw [hcnt', hfree, hcnt], _, _, _, _, _, i'⟩
  · obtain ⟨s', hreturns, hcnt', runs', zs', out', i'⟩ := i.free_small hlo hz hp hl hcnt
    exact ⟨s', hreturns, hcnt', _, _, _, _, _, i'⟩

/-- `zone_size` is one of three. -/
theorem zoneSizeFor_cases (limsize : ℕ) :
    zoneSizeFor limsize = 32768 ∨ zoneSizeFor limsize = 65536 ∨ zoneSizeFor limsize = 131072 := by
  unfold zoneSizeFor
  dsimp only
  split_ifs <;> omega

/-- **`rt_system_heap_init`.** -/
theorem Sound.init {fuel beginAddr endAddr : ℕ} {pages : PageHeap} {zone : ℕ → SlabZone} {memusage : ℕ → Memusage}
    (hinit : rtSystemHeapInit fuel beginAddr endAddr pages zone memusage = some s) :
    ∃ lo n, lo ≠ 0 ∧ Sound lo n s [] := by
  unfold rtSystemHeapInit at hinit
  dsimp only at hinit
  split at hinit
  next => exact nomatch hinit
  next hlt =>
    generalize hlo : Word.alignUp 32 12 beginAddr / pageSize = lo at hinit
    generalize hend : Word.alignDown 32 12 endAddr - Word.alignUp 32 12 beginAddr = limsize at hinit
    have hsize : limsize < 2 ^ 32 := by
      have := Word.alignDown_lt 32 12 endAddr
      omega
    generalize hn : limsize / pageSize = n at hinit
    cases hpages : pages.rtPageInit fuel lo n with
    | none =>
      rw [hpages] at hinit
      exact nomatch hinit
    | some pages' =>
      rw [hpages] at hinit
      obtain ⟨⟨o, pages''⟩, halloc, rfl⟩ := Option.map_eq_some_iff.mp hinit
      obtain ⟨hne, hstore⟩ := PageHeap.Store.init hpages
      have hconfig : Config ⟨pages'', zone, fun _ => [], [], 0, zoneSizeFor limsize, min (zoneSizeFor limsize / 4) 16384,
          memusage, 0, 0⟩ := ⟨zoneSizeFor_cases limsize, rfl⟩
      have hinv : ∀ {runs other}, PageHeap.Store lo n pages'' runs other → Inv lo n ⟨pages'', zone, fun _ => [], [], 0,
          zoneSizeFor limsize, min (zoneSizeFor limsize / 4) 16384, memusage, 0, 0⟩ [] runs other [] [] [] fun _ => [] := by
        intro runs other hstore
        constructor
        case config => exact hconfig
        case store => exact (List.append_nil other).symm ▸ hstore
        case small => exact nofun
        case large => exact nofun
        case zones => exact nofun
        case kept => exact nofun
        case array => exact fun zi z => iff_of_false List.not_mem_nil fun hand => List.not_mem_nil hand.1
        case arrayNodup => exact fun zi => List.nodup_nil
        case pointers =>
          intro p
          refine iff_of_false List.not_mem_nil ?_
          rintro (⟨q, hq, -⟩ | ⟨z, hz, -⟩)
          · exact List.not_mem_nil hq
          · exact List.not_mem_nil hz
        case nodup => exact List.nodup_nil
        case asked => exact nofun
        case used => rfl
      refine ⟨lo, n, hne, rfl, ?_⟩
      by_cases hzero : Word.alignUp 32 12 (n * 4) / pageSize = 0
      · rw [hzero] at halloc
        obtain ⟨-, rfl⟩ := Prod.mk.inj (Option.some.inj halloc)
        exact ⟨_, _, _, _, _, hinv hstore⟩
      · obtain ⟨o', h', hreturns, hcase⟩ := hstore.alloc (Nat.pos_of_ne_zero hzero)
        obtain ⟨rfl, rfl⟩ := Prod.mk.inj (hreturns.unique halloc)
        rcases hcase with ⟨-, -, rfl⟩ | ⟨b, runs', -, -, hstore'⟩
        · exact ⟨_, _, _, _, _, hinv hstore⟩
        · exact ⟨_, _, _, _, _, hinv hstore'⟩

end CoreLink.RtThread.Slab

namespace CoreLink.RtThread

open CoreLink.Lib Slab

/-- The allocator, and the pointers that the callers have with the sizes that they asked for. -/
structure SlabSys where
  heap : Slab
  live : List (ℕ × ℕ)

/-- The calls. -/
inductive SlabCall where
  | malloc (size : ℕ)
  | free (ptr : ℕ)

namespace SlabSys

/-- A call that returns; the callers free pointers that they have. -/
def Step (s : SlabSys) : SlabCall → SlabSys → Prop
  | .malloc size, s' => size < 2 ^ 32 ∧ ∃ fuel o, s.heap.rtMalloc fuel size = some (o, s'.heap) ∧
      s'.live = o.elim s.live fun p => (p, size) :: s.live
  | .free ptr, s' => ∃ fuel size, (ptr, size) ∈ s.live ∧ s.heap.rtFree fuel ptr = some s'.heap ∧
      s'.live = s.live.erase (ptr, size)

/-- **A call keeps what holds between the calls.** -/
theorem sound_step {lo n : ℕ} {s s' : SlabSys} {c : SlabCall} (hlo : lo ≠ 0) (h : Sound lo n s.heap s.live)
    (hstep : Step s c s') : Sound lo n s'.heap s'.live := by
  cases c with
  | malloc size =>
    obtain ⟨hsize, fuel, o, hcall, hlive⟩ := hstep
    obtain ⟨hcnt, runs, other, zs, larges, out, i⟩ := h
    obtain ⟨o', heap, hreturns, hsound, -⟩ := i.malloc hcnt hsize
    obtain ⟨rfl, rfl⟩ := Prod.mk.inj (hreturns.unique hcall)
    rw [hlive]
    exact hsound
  | free ptr =>
    obtain ⟨fuel, size, hl, hcall, hlive⟩ := hstep
    obtain ⟨heap, hreturns, hsound⟩ := h.free hlo hl
    obtain rfl := hreturns.unique hcall
    rw [hlive]
    exact hsound

/-- It holds in every state that is reached. -/
theorem of_run {fuel beginAddr endAddr : ℕ} {pages : PageHeap} {zone : ℕ → SlabZone} {memusage : ℕ → Memusage} {heap : Slab}
    {cs : List SlabCall} {s : SlabSys} (hinit : rtSystemHeapInit fuel beginAddr endAddr pages zone memusage = some heap)
    (hrun : Run Step ⟨heap, []⟩ cs s) : ∃ lo n, lo ≠ 0 ∧ Sound lo n s.heap s.live := by
  obtain ⟨lo, n, hlo, hstart⟩ := Sound.init hinit
  exact ⟨lo, n, hlo, hrun.invariant hstart fun _ _ _ h hs => sound_step hlo h hs⟩

/-- A call with some fuel, as a function. -/
def exec (fuel : ℕ) (s : SlabSys) : SlabCall → Option SlabSys
  | .malloc size =>
    if size < 2 ^ 32 then
      (s.heap.rtMalloc fuel size).map fun x => ⟨x.2, x.1.elim s.live fun p => (p, size) :: s.live⟩
    else none
  | .free ptr =>
    (s.live.find? fun l => l.1 = ptr).bind fun l => (s.heap.rtFree fuel ptr).map fun heap => ⟨heap, s.live.erase l⟩

theorem step_of_exec {fuel : ℕ} {s s' : SlabSys} {c : SlabCall} (h : s.exec fuel c = some s') : Step s c s' := by
  cases c with
  | malloc size =>
    unfold exec at h
    dsimp only at h
    by_cases hsize : size < 2 ^ 32
    · rw [if_pos hsize] at h
      obtain ⟨⟨o, heap⟩, hcall, rfl⟩ := Option.map_eq_some_iff.mp h
      exact ⟨hsize, fuel, o, hcall, rfl⟩
    · rw [if_neg hsize] at h
      cases h
  | free ptr =>
    obtain ⟨l, hfind, h⟩ := Option.bind_eq_some_iff.mp h
    obtain ⟨heap, hcall, rfl⟩ := Option.map_eq_some_iff.mp h
    have heq : l.1 = ptr := by simpa using List.find?_some hfind
    subst heq
    exact ⟨fuel, l.2, List.mem_of_find?_eq_some hfind, hcall, rfl⟩

/-- Calls that can be executed are a run. -/
theorem run_of_exec (fuel : ℕ) (s₀ : SlabSys) (cs : List SlabCall) (h : (cs.foldlM (exec fuel) s₀).isSome) :
    Run Step s₀ cs (Option.get _ h) :=
  Run.of_foldlM (fun _ _ _ hs => step_of_exec hs) (Option.some_get h).symm

end SlabSys

end CoreLink.RtThread
