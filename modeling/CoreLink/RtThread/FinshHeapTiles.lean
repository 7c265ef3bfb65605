/-
# `CoreLink.RtThread.FinshHeapTiles` — the blocks of the shell's heap.

The two lists stand for one list of tiles (`FinshHeap.Rep`), in which no two neighbours are free, and the last one always is:
a block is allocated at the front of a free one, and what is left of that stays free, even if it has no bytes. So a block
that is given back never comes to the end of the free list, where its old link would be left as it is.
-/
import CoreLink.RtThread.FinshHeap
import CoreLink.Lib.Tiles

namespace CoreLink.RtThread

open CoreLink.Lib Tile

/-! ## The edits of a list -/

variable {next : ℕ → Option ℕ} {list : Option ℕ} {xs ys : List ℕ} {header : ℕ}

/-- **A block is taken off a list.** -/
theorem finshBlockRemove_spec (h : Chain next list (xs ++ header :: ys)) (hnd : (xs ++ header :: ys).Nodup)
    (hfuel : xs.length < walkFuel) :
    ∃ l, finshBlockRemove next list header = some l ∧ Chain l.1 l.2 (xs ++ ys) ∧
      ∀ node, node ∉ xs → node ≠ header → l.1 node = next node := by
  unfold finshBlockRemove
  rcases List.eq_nil_or_concat' xs with rfl | ⟨zs, m, rfl⟩
  · rw [if_pos h.1]
    refine ⟨_, rfl, h.2.update (List.nodup_cons.mp hnd).1 none, fun node _ hne => ?_⟩
    exact Function.update_of_ne hne _ _
  · rw [← List.append_cons] at h hnd
    obtain ⟨-, hrest, hdisj⟩ := List.nodup_append.mp hnd
    obtain ⟨hm, hrest⟩ := List.nodup_cons.mp hrest
    have hlist : list ≠ some header := by
      rw [h.head_eq]
      cases zs with
      | nil => exact fun heq => hm (Option.some.inj heq ▸ List.mem_cons_self)
      | cons z zs =>
        intro heq
        exact hdisj z List.mem_cons_self header (List.mem_cons_of_mem m List.mem_cons_self) (Option.some.inj heq)
    have hfind := h.findFrom_found (p := fun node => decide (next node = some header))
      (fun x hx => decide_eq_false (h.next_ne hnd hx)) (decide_eq_true h.next_eq)
      (Nat.lt_of_le_of_lt (by rw [List.length_append]; omega) hfuel)
    rw [if_neg hlist, hfind]
    refine ⟨_, rfl, ?_, fun node hnode _ => ?_⟩
    · rw [← List.append_cons]
      rw [List.append_cons] at hnd
      obtain ⟨hfront, hback, hdisj⟩ := List.nodup_append.mp hnd
      exact h.skip hfront h.behind.2 fun x hx hy => hdisj x hx x (List.mem_cons_of_mem header hy) rfl
    · refine Function.update_of_ne ?_ _ _
      rintro rfl
      exact hnode (List.mem_append_right zs (List.mem_singleton_self node))

/-- **A block is put in its place.** At the end of the list its link has to be `NULL` already. -/
theorem finshBlockInsert_spec (h : Chain next list (xs ++ ys)) (hsorted : (xs ++ header :: ys).Pairwise (· < ·))
    (hlast : ys = [] → next header = none) (hfuel : xs.length < walkFuel) :
    ∃ l, finshBlockInsert next list header = some l ∧ Chain l.1 l.2 (xs ++ header :: ys) ∧
      ∀ node, node ∉ xs → node ≠ header → l.1 node = next node := by
  obtain ⟨hxs, hrest, hlt⟩ := List.pairwise_append.mp hsorted
  obtain ⟨hys, hysorted⟩ := List.pairwise_cons.mp hrest
  have hnd : (xs ++ header :: ys).Nodup := hsorted.imp Nat.ne_of_lt
  unfold finshBlockInsert
  rcases List.eq_nil_or_concat' xs with rfl | ⟨zs, m, rfl⟩
  · cases ys with
    | nil =>
      rw [show list = none from h]
      exact ⟨_, rfl, ⟨rfl, hlast rfl⟩, fun _ _ _ => rfl⟩
    | cons y ys =>
      rw [h.1]
      dsimp only
      rw [if_pos (hys y List.mem_cons_self)]
      refine ⟨_, rfl, h.1 ▸ h.push (List.nodup_cons.mp hnd).1, fun node _ hne => ?_⟩
      exact Function.update_of_ne hne _ _
  · have hltm : m < header := hlt m (List.mem_append_right zs (List.mem_singleton_self m)) header List.mem_cons_self
    rw [← List.append_cons] at h
    have hchain : list = some m ∧ zs = [] ∨ ∃ z ∈ zs, list = some z := by
      rw [h.head_eq]
      cases zs with
      | nil => exact Or.inl ⟨rfl, rfl⟩
      | cons z zs => exact Or.inr ⟨z, List.mem_cons_self, rfl⟩
    obtain ⟨first, hlist, hfirst⟩ : ∃ first, list = some first ∧ first < header := by
      rcases hchain with ⟨hlist, -⟩ | ⟨z, hz, hlist⟩
      · exact ⟨m, hlist, hltm⟩
      · exact ⟨z, hlist, hlt z (List.mem_append_left [m] hz) header List.mem_cons_self⟩
    have hfront : ∀ x ∈ zs, (decide (∃ w ∈ next x, header < w) || (next x).isNone) = false := by
      intro x hx
      obtain ⟨us, vs, rfl⟩ := List.append_of_mem hx
      have hnext : next x = (vs ++ m :: ys).head? := by
        rw [List.append_assoc, List.cons_append] at h
        exact h.next_eq
      obtain ⟨w, hw, hnext⟩ : ∃ w, w ∈ vs ++ [m] ∧ next x = some w := by
        cases vs with
        | nil => exact ⟨m, List.mem_singleton_self m, hnext⟩
        | cons v vs => exact ⟨v, List.mem_cons_self, hnext⟩
      have hwlt : w < header := by
        refine hlt w ?_ header List.mem_cons_self
        rw [List.append_assoc, List.cons_append]
        exact List.mem_append_right us (List.mem_cons_of_mem x hw)
      rw [hnext, Option.isNone_some, Bool.or_false]
      refine decide_eq_false ?_
      rintro ⟨w', hw', hlt'⟩
      rw [← Option.some.inj hw'] at hlt'
      exact Nat.lt_asymm hwlt hlt'
    have hend : (decide (∃ w ∈ next m, header < w) || (next m).isNone) = true := by
      rw [h.next_eq]
      cases ys with
      | nil => rfl
      | cons y ys => exact Bool.or_eq_true_iff.mpr (Or.inl (decide_eq_true ⟨y, rfl, hys y List.mem_cons_self⟩))
    have hfind := h.findFrom_found (p := fun node => decide (∃ w ∈ next node, header < w) || (next node).isNone) hfront hend
      (Nat.lt_of_le_of_lt (by rw [List.length_append]; omega) hfuel)
    have hheader : header ∉ zs ++ m :: ys := by
      intro hm
      rcases List.mem_append.mp hm with hm | hm
      · exact Nat.lt_irrefl _ (hlt header (List.mem_append_left [m] hm) header List.mem_cons_self)
      · rcases List.mem_cons.mp hm with heq | hm
        · exact Nat.ne_of_gt hltm heq
        · exact Nat.lt_irrefl _ (hys header hm)
    -- the link of the new block is what is behind it now
    obtain ⟨next', hnext', hlink, hsame⟩ : ∃ next',
        (if (next m).isSome then Function.update next header (next m) else next) = next' ∧ next' header = ys.head? ∧
          ∀ node, node ≠ header → next' node = next node := by
      refine ⟨_, rfl, ?_, fun node hne => ?_⟩
      · rw [h.next_eq]
        cases ys with
        | nil => exact hlast rfl
        | cons y ys => exact Function.update_self ..
      · cases hsome : (next m).isSome with
        | true => exact Function.update_of_ne hne _ _
        | false => rfl
    have hchain' : Chain next' list (zs ++ m :: ys) := h.congr fun n hn => hsame n (ne_of_mem_of_not_mem hn hheader)
    have hnd' : (zs ++ m :: ys).Nodup := by
      rw [List.append_cons]
      exact hnd.sublist ((List.Sublist.refl _).append (List.sublist_cons_self header ys))
    rw [hlist]
    dsimp only
    rw [if_neg (Nat.lt_asymm hfirst), ← hlist, hfind]
    dsimp only
    rw [hnext']
    refine ⟨_, rfl, ?_, fun node hnode hne => ?_⟩
    · rw [← List.append_cons]
      exact hchain'.insertBehind hnd' hheader hlink
    · have hnm : node ≠ m := by
        rintro rfl
        exact hnode (List.mem_append_right zs (List.mem_singleton_self node))
      exact (Function.update_of_ne hnm _ _).trans (hsame node hne)

/-! ## The tiles of the heap -/

namespace FinshHeap

/-- **The heap is cut into the tiles**: the lists are the ones of the free tiles and of those in use, and the last tile is
free. -/
structure Shape (s : FinshHeap) (ts : List Tile) : Prop where
  tiled : Tiled blockHeaderSize 0 ts finshHeapMax
  length : ∀ t ∈ ts, s.length t.start = t.length
  freeList : Chain s.next s.freeList (starts (frees ts))
  allocateList : Chain s.next s.allocateList (starts (used ts))
  last : EndsFree ts

/-- And no two neighbours are free. -/
structure Rep (s : FinshHeap) (ts : List Tile) : Prop extends Shape s ts where
  coalesced : Coalesced ts

variable {s s' : FinshHeap} {ts us : List Tile} {t u : Tile} {size : ℕ}

theorem header_pos : 0 < blockHeaderSize := by decide

theorem rep_init : init.Rep [⟨0, finshHeapMax - blockHeaderSize, true⟩] where
  tiled := ⟨rfl, rfl⟩
  length t ht := by
    rw [List.mem_singleton.mp ht]
    rfl
  freeList := ⟨rfl, rfl⟩
  allocateList := rfl
  coalesced := List.isChain_singleton _
  last := ⟨_, rfl, rfl⟩

/-- The starts of some of the tiles are in order. -/
theorem starts_sublist (h : Tiled blockHeaderSize 0 ts finshHeapMax) (hsub : us.Sublist ts) :
    (starts us).Pairwise (· < ·) :=
  (h.starts_sorted header_pos).sublist (hsub.map Tile.start)

theorem frees_sublist (ts : List Tile) : (frees ts).Sublist ts := List.filter_sublist

theorem used_sublist (ts : List Tile) : (used ts).Sublist ts := List.filter_sublist

/-- No block is on both lists. -/
theorem starts_disjoint (h : Tiled blockHeaderSize 0 ts finshHeapMax) {a : ℕ} (hf : a ∈ starts (frees ts))
    (hu : a ∈ starts (used ts)) : False := by
  obtain ⟨t, ht, rfl⟩ := mem_starts.mp hf
  obtain ⟨u, hu, heq⟩ := mem_starts.mp hu
  have hsame := h.eq_of_start header_pos (mem_frees.mp ht).1 (mem_used.mp hu).1 heq.symm
  have hfree := (mem_frees.mp ht).2
  rw [hsame, (mem_used.mp hu).2] at hfree
  exact Bool.false_ne_true hfree

/-- A walk along either list has fuel enough. -/
theorem length_lt_fuel (h : Tiled blockHeaderSize 0 ts finshHeapMax) (hsub : us.Sublist ts) :
    (starts us).length < walkFuel := by
  have hle := h.length_le header_pos
  have hus := hsub.length_le
  unfold starts walkFuel
  rw [List.length_map]
  omega

/-! ### Splitting -/

/-- The tiles when `size` bytes of one are allocated. -/
def cutTiles (ts : List Tile) (t : Tile) (us : List Tile) (size : ℕ) : List Tile :=
  ts ++ ⟨t.start, size, false⟩ ::
    ⟨t.start + blockHeaderSize + size, t.length - (size + blockHeaderSize), true⟩ :: us

theorem frees_cutTiles : starts (frees (cutTiles ts t us size)) =
    starts (frees ts) ++ (t.start + blockHeaderSize + size) :: starts (frees us) := by
  unfold cutTiles
  rw [frees_append, frees_cons_of_used rfl, frees_cons_of_free rfl, starts_append, starts_cons]

theorem used_cutTiles : used (cutTiles ts t us size) = used ts ++ ⟨t.start, size, false⟩ :: used us := by
  unfold cutTiles
  rw [used_append, used_cons_of_used rfl, used_cons_of_free rfl]

theorem finshBlockSplit_eq {header r : ℕ} (hr : (header + blockHeaderSize + size) % 2 ^ 32 = r)
    (hfit : r + blockHeaderSize ≤ finshHeapMax) : s.finshBlockSplit header size = some { s with
      length := Function.update (Function.update s.length r
        (Word.sub 32 (Word.sub 32 (s.length header) blockHeaderSize) size)) header size
      next := Function.update (Function.update s.next r (s.next header)) header (some r) } := by
  unfold finshBlockSplit
  dsimp only
  rw [hr, if_neg (Nat.not_lt.mpr hfit)]
  rfl

/-- What `finsh_block_split` leaves: two blocks on the free list. -/
theorem Rep.split (h : s.Rep (ts ++ t :: us)) (ht : t.free = true) (hsize : size + blockHeaderSize ≤ t.length) :
    ∃ s₁, s.finshBlockSplit t.start size = some s₁ ∧ (∀ x ∈ cutTiles ts t us size, s₁.length x.start = x.length) ∧
      Chain s₁.next s₁.freeList
        (starts (frees ts) ++ t.start :: (t.start + blockHeaderSize + size) :: starts (frees us)) ∧
      Chain s₁.next s₁.allocateList (starts (used ts) ++ starts (used us)) ∧ s₁.bytes = s.bytes := by
  have hcut : Tiled blockHeaderSize 0 (cutTiles ts t us size) finshHeapMax := h.tiled.cut hsize false true
  have hin := h.tiled.inside (List.mem_append_right ts List.mem_cons_self)
  have hlen := h.length t (List.mem_append_right ts List.mem_cons_self)
  have hmax : finshHeapMax < 2 ^ 32 := by decide
  have hpos := header_pos
  have hrest : Word.sub 32 (Word.sub 32 (s.length t.start) blockHeaderSize) size = t.length - (size + blockHeaderSize) := by
    have hinner : Word.sub 32 t.length blockHeaderSize = t.length - blockHeaderSize :=
      Word.sub_of_le (by omega) (by omega)
    rw [hlen, hinner, Word.sub_of_le (by omega) (by omega)]
    omega
  have hfree := h.freeList
  rw [frees_append, frees_cons_of_free ht, starts_append, starts_cons] at hfree
  have hused := h.allocateList
  rw [used_append, used_cons_of_free ht, starts_append] at hused
  -- the address of the rest is the one of no block yet
  have hnd : (starts (cutTiles ts t us size)).Nodup := hcut.starts_nodup hpos
  unfold cutTiles at hnd hcut
  obtain ⟨r, hreq⟩ : ∃ r, r = t.start + blockHeaderSize + size := ⟨_, rfl⟩
  rw [← hreq] at hnd ⊢
  have hr : (t.start + blockHeaderSize + size) % 2 ^ 32 = r := by
    rw [hreq]
    exact Nat.mod_eq_of_lt (by omega)
  rw [starts_append, starts_cons, starts_cons] at hnd
  obtain ⟨hts, hnd, hdisj⟩ := List.nodup_append.mp hnd
  obtain ⟨htr, hnd⟩ := List.nodup_cons.mp hnd
  obtain ⟨hrus, hus⟩ := List.nodup_cons.mp hnd
  have hrts : r ∉ starts ts := fun hm => hdisj r hm r (List.mem_cons_of_mem _ List.mem_cons_self) rfl
  have htts : t.start ∉ starts ts := fun hm => hdisj _ hm _ List.mem_cons_self rfl
  have hrt : r ≠ t.start := fun heq => htr (heq ▸ List.mem_cons_self)
  have htus : t.start ∉ starts us := fun hm => htr (List.mem_cons_of_mem r hm)
  have hsub : ∀ {a : ℕ} {vs ws : List Tile}, ws.Sublist vs → a ∈ starts ws → a ∈ starts vs := fun hs hm =>
    (hs.map Tile.start).subset hm
  rw [finshBlockSplit_eq hr (by omega)]
  refine ⟨_, rfl, fun x hx => ?_, ?_, ?_, rfl⟩
  · have hother : ∀ x ∈ ts ++ t :: us, x.start ≠ t.start → x.start ≠ r →
        Function.update (Function.update s.length r (Word.sub 32 (Word.sub 32 (s.length t.start) blockHeaderSize) size))
          t.start size x.start = x.length := by
      intro x hx hxt hxr
      rw [Function.update_of_ne hxt, Function.update_of_ne hxr, h.length x hx]
    unfold cutTiles at hx
    rw [← hreq] at hx
    rcases List.mem_append.mp hx with hx | hx
    · have hm : x.start ∈ starts ts := mem_starts.mpr ⟨x, hx, rfl⟩
      exact hother x (List.mem_append_left _ hx) (ne_of_mem_of_not_mem hm htts) (ne_of_mem_of_not_mem hm hrts)
    · rcases List.mem_cons.mp hx with rfl | hx
      · exact Function.update_self ..
      · rcases List.mem_cons.mp hx with rfl | hx
        · exact (Function.update_of_ne hrt _ _).trans ((Function.update_self ..).trans hrest)
        · have hm : x.start ∈ starts us := mem_starts.mpr ⟨x, hx, rfl⟩
          exact hother x (List.mem_append_right _ (List.mem_cons_of_mem t hx)) (ne_of_mem_of_not_mem hm htus)
            (ne_of_mem_of_not_mem hm hrus)
  · have hrfree : r ∉ starts (frees ts) ++ t.start :: starts (frees us) := by
      rw [List.mem_append, List.mem_cons]
      rintro (hm | rfl | hm)
      · exact hrts (hsub (frees_sublist ts) hm)
      · exact hrt rfl
      · exact hrus (hsub (frees_sublist us) hm)
    have hsorted := starts_sublist h.tiled (frees_sublist (ts ++ t :: us))
    rw [frees_append, frees_cons_of_free ht, starts_append, starts_cons] at hsorted
    exact (hfree.update hrfree _).insertBehind (hsorted.imp Nat.ne_of_lt) hrfree
      ((Function.update_self ..).trans hfree.next_eq)
  · refine hused.congr fun n hn => ?_
    have hnt : n ≠ t.start ∧ n ≠ r := by
      rcases List.mem_append.mp hn with hn | hn
      · have hm := hsub (used_sublist ts) hn
        exact ⟨ne_of_mem_of_not_mem hm htts, ne_of_mem_of_not_mem hm hrts⟩
      · have hm := hsub (used_sublist us) hn
        exact ⟨ne_of_mem_of_not_mem hm htus, ne_of_mem_of_not_mem hm hrus⟩
    exact (Function.update_of_ne hnt.1 _ _).trans (Function.update_of_ne hnt.2 _ _)

/-- **Allocating from a free tile**: its front comes to the other list, and the rest of it stays on the free list. -/
theorem Rep.take (h : s.Rep (ts ++ t :: us)) (ht : t.free = true) (hsize : size + blockHeaderSize ≤ t.length) :
    ∃ s', s.takeBlock t.start size = some (s', some (t.start + blockHeaderSize)) ∧ s'.Rep (cutTiles ts t us size) ∧
      s'.bytes = fun x =>
        if t.start + blockHeaderSize ≤ x ∧ x < t.start + blockHeaderSize + size then 0 else s.bytes x := by
  have hcut : Tiled blockHeaderSize 0 (cutTiles ts t us size) finshHeapMax := h.tiled.cut hsize false true
  have hin := h.tiled.inside (List.mem_append_right ts List.mem_cons_self)
  obtain ⟨s₁, hsplit, hlen, hfree, hused, hbytes⟩ := h.split ht hsize
  have hfsorted := starts_sublist hcut (frees_sublist _)
  have husorted := starts_sublist hcut (used_sublist _)
  have hdisj : ∀ {a : ℕ}, a ∈ starts (frees (cutTiles ts t us size)) → a ∈ starts (used (cutTiles ts t us size)) → False :=
    starts_disjoint hcut
  rw [frees_cutTiles] at hfsorted hdisj
  rw [used_cutTiles, starts_append, starts_cons] at husorted hdisj
  have hftile : t.start ∉ starts (frees ts) ++ (t.start + blockHeaderSize + size) :: starts (frees us) := fun hm =>
    hdisj hm (List.mem_append_right _ List.mem_cons_self)
  have hutile : t.start ∉ starts (used ts) ++ starts (used us) :=
    (List.nodup_cons.mp (List.nodup_middle.mp (husorted.imp Nat.ne_of_lt))).1
  have hfnd : (starts (frees ts) ++ t.start :: (t.start + blockHeaderSize + size) :: starts (frees us)).Nodup :=
    List.nodup_middle.mpr (List.nodup_cons.mpr ⟨hftile, hfsorted.imp Nat.ne_of_lt⟩)
  have hts : ts.Sublist (ts ++ t :: us) := List.sublist_append_left ts _
  -- off the free list
  obtain ⟨l, hremove, hlfree, hlsame⟩ :=
    finshBlockRemove_spec hfree hfnd (length_lt_fuel h.tiled ((frees_sublist ts).trans hts))
  have hfree₂ := hlfree.update hftile none
  have hused₂ : Chain (Function.update l.1 t.start none) s₁.allocateList (starts (used ts) ++ starts (used us)) := by
    refine hused.congr fun n hn => ?_
    have hne : n ≠ t.start := ne_of_mem_of_not_mem hn hutile
    have hfront : n ∉ starts (frees ts) := fun hm => by
      refine hdisj (List.mem_append_left _ hm) ?_
      rcases List.mem_append.mp hn with hn | hn
      · exact List.mem_append_left _ hn
      · exact List.mem_append_right _ (List.mem_cons_of_mem _ hn)
    rw [Function.update_of_ne hne, hlsame n hfront hne]
  -- and on the other one
  obtain ⟨l', hinsert, hlused, hlsame'⟩ := finshBlockInsert_spec hused₂ husorted (fun _ => Function.update_self ..)
    (length_lt_fuel h.tiled ((used_sublist ts).trans hts))
  have hfree₃ : Chain l'.1 l.2 (starts (frees ts) ++ (t.start + blockHeaderSize + size) :: starts (frees us)) :=
    hfree₂.congr fun n hn => hlsame' n (fun hm => hdisj hn (List.mem_append_left _ hm)) (ne_of_mem_of_not_mem hn hftile)
  refine ⟨{ s₁ with
    next := l'.1
    freeList := l.2
    allocateList := l'.2
    bytes := fun x => if t.start + blockHeaderSize ≤ x ∧ x < t.start + blockHeaderSize + size then 0 else s₁.bytes x },
    ?_, ?_, ?_⟩
  · unfold takeBlock
    rw [hsplit, Option.bind_some, hremove, Option.bind_some]
    show (finshBlockInsert (Function.update l.1 t.start none) s₁.allocateList t.start).bind _ = _
    rw [hinsert, Option.bind_some]
    dsimp only
    rw [if_neg (by omega)]
    rfl
  · refine ⟨⟨hcut, hlen, ?_, ?_, ?_⟩, h.coalesced.left.of_used (h.coalesced.right.replace_head ht.symm) rfl⟩
    · rw [frees_cutTiles]
      exact hfree₃
    · rw [used_cutTiles, starts_append, starts_cons]
      exact hlused
    · have hlast := endsFree_middle.mp h.last
      unfold cutTiles
      rw [List.append_cons]
      exact endsFree_middle.mpr (hlast.imp (fun hend => ⟨hend.1, rfl⟩) id)
  · show (fun x => if t.start + blockHeaderSize ≤ x ∧ x < t.start + blockHeaderSize + size then 0 else s₁.bytes x) = _
    rw [hbytes]

/-! ### Freeing -/

/-- **A free tile takes in the free tiles behind it**: its length and its link are changed. -/
theorem Shape.absorb (vs : List Tile) (len : ℕ) {v : Option ℕ} (h : s.Shape (ts ++ t :: (vs ++ us))) (ht : t.free = true)
    (hvs : ∀ x ∈ vs, x.free = true) (hlen : Tiled blockHeaderSize (t.start + blockHeaderSize + len) us finshHeapMax)
    (hv : Chain s.next v (starts (frees us))) :
    ((s.setLength t.start len).setNext t.start v).Shape (ts ++ ⟨t.start, len, true⟩ :: us) := by
  have hfvs : frees vs = vs := List.filter_eq_self.mpr hvs
  have huvs : used vs = [] := List.filter_eq_nil_iff.mpr fun x hx => by rw [hvs x hx]; exact Bool.false_ne_true
  have hnd : (starts (ts ++ t :: (vs ++ us))).Nodup := h.tiled.starts_nodup header_pos
  rw [starts_append, starts_cons, starts_append] at hnd
  obtain ⟨hts, hnd, hdisj⟩ := List.nodup_append.mp hnd
  obtain ⟨htvs, hnd⟩ := List.nodup_cons.mp hnd
  have htts : t.start ∉ starts ts := fun hm => hdisj _ hm _ List.mem_cons_self rfl
  have htus : t.start ∉ starts us := fun hm => htvs (List.mem_append_right _ hm)
  have hsub : ∀ {a : ℕ} {vs ws : List Tile}, ws.Sublist vs → a ∈ starts ws → a ∈ starts vs := fun hs hm =>
    (hs.map Tile.start).subset hm
  constructor
  · exact Tiled.middle_iff.mpr ⟨(Tiled.middle_iff.mp h.tiled).1, hlen⟩
  · intro x hx
    show Function.update s.length t.start len x.start = x.length
    rcases List.mem_append.mp hx with hx | hx
    · rw [Function.update_of_ne (ne_of_mem_of_not_mem (mem_starts.mpr ⟨x, hx, rfl⟩) htts)]
      exact h.length x (List.mem_append_left _ hx)
    · rcases List.mem_cons.mp hx with rfl | hx
      · exact Function.update_self ..
      · rw [Function.update_of_ne (ne_of_mem_of_not_mem (mem_starts.mpr ⟨x, hx, rfl⟩) htus)]
        exact h.length x (List.mem_append_right _ (List.mem_cons_of_mem t (List.mem_append_right vs hx)))
  · have hfree := h.freeList
    have hsorted := starts_sublist h.tiled (frees_sublist _)
    rw [frees_append, frees_cons_of_free ht, frees_append, hfvs, starts_append, starts_cons, starts_append] at hfree hsorted
    rw [frees_append, frees_cons_of_free rfl, starts_append, starts_cons]
    have hfnd : (starts (frees ts) ++ t.start :: (starts vs ++ starts (frees us))).Nodup := hsorted.imp Nat.ne_of_lt
    rw [List.append_cons] at hfnd
    obtain ⟨hfront, -, hfdisj⟩ := List.nodup_append.mp hfnd
    exact hfree.skip hfront hv fun x hx hm => hfdisj x hx x (List.mem_append_right _ hm) rfl
  · have hused := h.allocateList
    rw [used_append, used_cons_of_free ht, used_append, huvs, List.nil_append, starts_append] at hused
    rw [used_append, used_cons_of_free rfl, starts_append]
    refine hused.update ?_ v
    rw [List.mem_append]
    rintro (hm | hm)
    · exact htts (hsub (used_sublist ts) hm)
    · exact htus (hsub (used_sublist us) hm)
  · rw [endsFree_middle]
    by_cases hus : us = []
    · exact Or.inl ⟨hus, rfl⟩
    · have hlast := h.last
      rw [show ts ++ t :: (vs ++ us) = (ts ++ t :: vs) ++ us by rw [List.append_assoc, List.cons_append],
        endsFree_append hus] at hlast
      exact Or.inr hlast

/-- The search of `finsh_block_merge` finds the free block in front of a free one. -/
theorem Shape.prevNode_eq (h : s.Shape (ts ++ t :: us)) (ht : t.free = true) :
    (if s.freeList = some t.start then some none
      else findFrom s.next (fun node => decide (s.next node = some t.start)) walkFuel s.freeList) =
      some (starts (frees ts)).getLast? := by
  have hfree := h.freeList
  have hsorted := starts_sublist h.tiled (frees_sublist _)
  have hfuel := length_lt_fuel h.tiled ((frees_sublist ts).trans (List.sublist_append_left ts (t :: us)))
  rw [frees_append, frees_cons_of_free ht, starts_append, starts_cons] at hfree hsorted
  generalize starts (frees ts) = xs at *
  have hnd : (xs ++ t.start :: starts (frees us)).Nodup := hsorted.imp Nat.ne_of_lt
  rcases List.eq_nil_or_concat' xs with rfl | ⟨zs, m, rfl⟩
  · rw [if_pos hfree.1]
    rfl
  · rw [← List.append_cons] at hfree hnd
    have hlist : s.freeList ≠ some t.start := by
      intro heq
      rw [hfree.head_eq] at heq
      obtain ⟨-, hrest, hdisj⟩ := List.nodup_append.mp hnd
      cases zs with
      | nil => exact (List.nodup_cons.mp hrest).1 (Option.some.inj heq ▸ List.mem_cons_self)
      | cons z zs => exact hdisj z List.mem_cons_self _ (List.mem_cons_of_mem m List.mem_cons_self) (Option.some.inj heq)
    rw [if_neg hlist, List.getLast?_concat]
    exact hfree.findFrom_found (fun x hx => decide_eq_false (hfree.next_ne hnd hx)) (decide_eq_true hfree.next_eq)
      (Nat.lt_of_le_of_lt (by rw [List.length_append]; omega) hfuel)

/-- Where a tile ends. -/
theorem Shape.blockEnd_eq (h : s.Shape ts) (ht : t ∈ ts) : s.blockEnd t.start = t.start + blockHeaderSize + t.length := by
  have hin := h.tiled.inside ht
  have hmax : finshHeapMax < 2 ^ 32 := by decide
  unfold blockEnd
  rw [h.length t ht, Nat.mod_eq_of_lt (by omega)]
  omega

/-- The free block that ends where a block begins is the one in front of it, if that is free. -/
theorem Shape.front_eq (h : s.Shape (ts ++ t :: us)) :
    (starts (frees ts)).getLast?.filter (fun prev => s.blockEnd prev = t.start) =
      (ts.getLast?.filter fun p => p.free).map Tile.start := by
  rcases List.eq_nil_or_concat' ts with rfl | ⟨vs, p, rfl⟩
  · rfl
  · have hp : p ∈ vs ++ [p] ++ t :: us := List.mem_append_left _ (List.mem_append_right vs (List.mem_singleton_self p))
    rw [List.getLast?_concat]
    cases hfree : p.free with
    | true =>
      have hend : s.blockEnd p.start = t.start := by
        have htiled := h.tiled
        rw [← List.append_cons] at htiled
        rw [h.blockEnd_eq hp, (Tiled.middle_iff.mp htiled).2.1]
      rw [frees_append, frees_cons_of_free hfree, starts_append, starts_cons]
      show ((starts (frees vs) ++ [p.start]).getLast?).filter _ = _
      rw [List.getLast?_concat, Option.filter_some, if_pos (decide_eq_true hend), Option.filter_some, if_pos hfree]
      rfl
    | false =>
      rw [Option.filter_some, if_neg (by rw [hfree]; exact Bool.false_ne_true)]
      refine Option.filter_eq_none_iff.mpr fun m hm hend => ?_
      obtain ⟨u, hu, rfl⟩ := mem_starts.mp (List.mem_of_getLast? hm)
      obtain ⟨hmem, hufree⟩ := mem_frees.mp hu
      have hend := of_decide_eq_true hend
      rw [h.blockEnd_eq (List.mem_append_left _ hmem)] at hend
      obtain ⟨ws, hws⟩ := h.tiled.front_of_end header_pos hmem hend
      have hup : p = u := List.head_eq_of_cons_eq (List.append_inj' hws rfl).2
      rw [hup, hufree] at hfree
      cases hfree

/-- The free block that begins where a block ends is the one behind it, if that is free. -/
theorem Shape.back_eq (h : s.Shape (ts ++ t :: us)) (ht : t.free = true) :
    (s.next t.start).filter (fun next => s.blockEnd t.start = next) = (us.head?.filter fun n => n.free).map Tile.start := by
  have hchain := h.freeList
  rw [frees_append, frees_cons_of_free ht, starts_append, starts_cons] at hchain
  rw [hchain.next_eq, h.blockEnd_eq (List.mem_append_right ts List.mem_cons_self)]
  cases us with
  | nil => rfl
  | cons n us =>
    have hstart : n.start = t.start + blockHeaderSize + t.length := (Tiled.middle_iff.mp h.tiled).2.1
    rw [List.head?_cons, ← hstart]
    cases hfree : n.free with
    | true =>
      rw [frees_cons_of_free hfree, starts_cons, List.head?_cons, Option.filter_some, if_pos (decide_eq_true rfl),
        Option.filter_some, if_pos hfree]
      rfl
    | false =>
      rw [frees_cons_of_used hfree, Option.filter_some, if_neg (by rw [hfree]; exact Bool.false_ne_true)]
      refine Option.filter_eq_none_iff.mpr fun m hm heq => ?_
      obtain ⟨u, hu, rfl⟩ := mem_starts.mp (List.mem_of_head? hm)
      obtain ⟨hmem, hufree⟩ := mem_frees.mp hu
      have hnu := h.tiled.eq_of_start header_pos (List.mem_append_right ts (List.mem_cons_of_mem t List.mem_cons_self))
        (List.mem_append_right ts (List.mem_cons_of_mem t (List.mem_cons_of_mem n hmem))) (of_decide_eq_true heq)
      rw [hnu, hufree] at hfree
      cases hfree

/-- Whether there is a free tile in front, with the tile. -/
theorem front_cases (ts : List Tile) : (∃ vs p, ts = vs ++ [p] ∧ p.free = true) ∨ ∀ x ∈ ts.getLast?, x.free = false := by
  rcases List.eq_nil_or_concat' ts with rfl | ⟨vs, p, rfl⟩
  · exact Or.inr nofun
  · cases hfree : p.free with
    | true => exact Or.inl ⟨vs, p, rfl, hfree⟩
    | false =>
      refine Or.inr fun x hx => ?_
      rw [List.getLast?_concat] at hx
      rw [← Option.some.inj hx, hfree]

/-- Whether there is a free tile behind, with the tile. -/
theorem back_cases (us : List Tile) : (∃ n ws, us = n :: ws ∧ n.free = true) ∨ ∀ x ∈ us.head?, x.free = false := by
  cases us with
  | nil => exact Or.inr nofun
  | cons n ws =>
    cases hfree : n.free with
    | true => exact Or.inl ⟨n, ws, rfl, hfree⟩
    | false =>
      refine Or.inr fun x hx => ?_
      rw [← Option.some.inj hx, hfree]

theorem filter_free_none {o : Option Tile} (h : ∀ x ∈ o, x.free = false) : o.filter (fun p => p.free) = none :=
  Option.filter_eq_none_iff.mpr fun x hx => by rw [h x hx]; exact Bool.false_ne_true

/-- The part of the free list behind a free tile. -/
theorem Shape.behind (h : s.Shape (ts ++ t :: us)) (ht : t.free = true) :
    Chain s.next (s.next t.start) (starts (frees us)) := by
  have hfree := h.freeList
  rw [frees_append, frees_cons_of_free ht, starts_append, starts_cons] at hfree
  exact hfree.behind

/-- **Merging**: with the free tiles on both sides of it. -/
theorem Shape.merge (h : s.Shape (ts ++ t :: us)) (ht : t.free = true) (hts : Coalesced ts) (hus : Coalesced us) :
    ∃ s' ts', s.finshBlockMerge t.start = some s' ∧ s'.Rep ts' ∧ used ts' = used ts ++ used us ∧ s'.bytes = s.bytes := by
  have hmax : finshHeapMax < 2 ^ 32 := by decide
  have hlen := h.length t (List.mem_append_right ts List.mem_cons_self)
  have hin := h.tiled.inside (List.mem_append_right ts List.mem_cons_self)
  unfold finshBlockMerge
  dsimp only
  rw [h.prevNode_eq ht, Option.map_some, h.front_eq, h.back_eq ht]
  rcases front_cases ts with ⟨vs, p, rfl, hp⟩ | hfront
  · have hplen := h.length p (List.mem_append_left _ (List.mem_append_right vs (List.mem_singleton_self p)))
    have hmid := h
    rw [← List.append_cons] at hmid
    obtain ⟨-, htstart, htile⟩ := Tiled.middle_iff.mp hmid.tiled
    have hptile : used (vs ++ [p]) = used vs := by
      rw [used_append, used_cons_of_free hp]
      exact List.append_nil _
    rw [List.getLast?_concat, Option.filter_some, if_pos hp, Option.map_some]
    rcases back_cases us with ⟨n, ws, rfl, hn⟩ | hback
    · obtain ⟨hnstart, hntile⟩ := htile
      have hnlen := h.length n (List.mem_append_right _ (List.mem_cons_of_mem t List.mem_cons_self))
      have hle := hntile.le
      have hsum : (s.length p.start + (s.length t.start + s.length n.start + 2 * blockHeaderSize)) % 2 ^ 32 =
          p.length + (t.length + n.length + 2 * blockHeaderSize) := by
        rw [hplen, hlen, hnlen, Nat.mod_eq_of_lt (by omega)]
      rw [List.head?_cons, Option.filter_some, if_pos hn, Option.map_some]
      dsimp only
      rw [hsum]
      have hbehind : Chain s.next (s.next n.start) (starts (frees ws)) := by
        have hmid' := h
        rw [show vs ++ [p] ++ t :: n :: ws = (vs ++ [p] ++ [t]) ++ n :: ws by rw [List.append_assoc _ [t]]; rfl] at hmid'
        exact hmid'.behind hn
      have hshape := hmid.absorb [t, n] (p.length + (t.length + n.length + 2 * blockHeaderSize)) hp
        (List.forall_mem_cons.mpr ⟨ht, List.forall_mem_singleton.mpr hn⟩) (by
          rwa [show p.start + blockHeaderSize + (p.length + (t.length + n.length + 2 * blockHeaderSize)) =
            p.start + blockHeaderSize + p.length + blockHeaderSize + t.length + blockHeaderSize + n.length by omega]) hbehind
      refine ⟨_, _, rfl, ⟨hshape, ?_⟩, ?_, rfl⟩
      · exact Coalesced.middle_iff.mpr ⟨hts.replace_last hp.symm, hus.replace_head hn.symm⟩
      · rw [hptile, used_append, used_cons_of_free rfl, used_cons_of_free hn]
    · have hsum : (s.length p.start + (s.length t.start + blockHeaderSize)) % 2 ^ 32 =
          p.length + (t.length + blockHeaderSize) := by
        rw [hplen, hlen, Nat.mod_eq_of_lt (by omega)]
      rw [filter_free_none hback, Option.map_none]
      dsimp only
      rw [hsum]
      have hshape := hmid.absorb [t] (p.length + (t.length + blockHeaderSize)) hp (List.forall_mem_singleton.mpr ht) (by
          rwa [show p.start + blockHeaderSize + (p.length + (t.length + blockHeaderSize)) =
            p.start + blockHeaderSize + p.length + blockHeaderSize + t.length by omega]) (h.behind ht)
      refine ⟨_, _, rfl, ⟨hshape, ?_⟩, ?_, rfl⟩
      · exact Coalesced.middle_iff.mpr ⟨hts.replace_last hp.symm, hus.cons hback⟩
      · rw [hptile, used_append, used_cons_of_free rfl]
  · rw [filter_free_none hfront, Option.map_none]
    rcases back_cases us with ⟨n, ws, rfl, hn⟩ | hback
    · obtain ⟨-, hnstart, hntile⟩ := Tiled.middle_iff.mp h.tiled
      have hnlen := h.length n (List.mem_append_right _ (List.mem_cons_of_mem t List.mem_cons_self))
      have hle := hntile.le
      have hsum : (s.length t.start + (s.length n.start + blockHeaderSize)) % 2 ^ 32 =
          t.length + (n.length + blockHeaderSize) := by
        rw [hlen, hnlen, Nat.mod_eq_of_lt (by omega)]
      rw [List.head?_cons, Option.filter_some, if_pos hn, Option.map_some]
      dsimp only
      rw [hsum]
      have hbehind : Chain s.next (s.next n.start) (starts (frees ws)) := by
        have hmid' := h
        rw [List.append_cons] at hmid'
        exact hmid'.behind hn
      have hshape := h.absorb [n] (t.length + (n.length + blockHeaderSize)) ht (List.forall_mem_singleton.mpr hn) (by
          rwa [show t.start + blockHeaderSize + (t.length + (n.length + blockHeaderSize)) =
            t.start + blockHeaderSize + t.length + blockHeaderSize + n.length by omega]) hbehind
      refine ⟨_, _, rfl, ⟨hshape, ?_⟩, ?_, rfl⟩
      · exact Coalesced.middle_iff.mpr ⟨hts.concat hfront, hus.replace_head hn.symm⟩
      · rw [used_append, used_cons_of_free rfl, used_cons_of_free hn]
    · rw [filter_free_none hback, Option.map_none]
      refine ⟨s, _, rfl, ⟨h, Coalesced.middle_iff.mpr ⟨hts.concat hfront, hus.cons hback⟩⟩, ?_, rfl⟩
      rw [used_append, used_cons_of_free ht]

/-- **Giving a block back.** -/
theorem Rep.free (h : s.Rep (ts ++ t :: us)) (ht : t.free = false) :
    ∃ s' ts', s.finshHeapFree (t.start + blockHeaderSize) = some s' ∧ s'.Rep ts' ∧ used ts' = used ts ++ used us ∧
      s'.bytes = s.bytes := by
  have hmax : finshHeapMax < 2 ^ 32 := by decide
  have hin := h.tiled.inside (List.mem_append_right ts List.mem_cons_self)
  have hheader : Word.sub 32 (t.start + blockHeaderSize) blockHeaderSize = t.start := by
    rw [Word.sub_of_le (Nat.le_add_left _ _) (by omega), Nat.add_sub_cancel]
  have hts : ts.Sublist (ts ++ t :: us) := List.sublist_append_left ts _
  have hused := h.allocateList
  have husorted := starts_sublist h.tiled (used_sublist _)
  rw [used_append, used_cons_of_used ht, starts_append, starts_cons] at hused husorted
  have hutile : t.start ∉ starts (used ts) ++ starts (used us) :=
    (List.nodup_cons.mp (List.nodup_middle.mp (husorted.imp Nat.ne_of_lt))).1
  -- the tile is marked as free
  have hmark : Tiled blockHeaderSize 0 (ts ++ ⟨t.start, t.length, true⟩ :: us) finshHeapMax := h.tiled.mark true
  have hfsorted := starts_sublist hmark (frees_sublist _)
  have hdisj : ∀ {a : ℕ}, a ∈ starts (frees (ts ++ ⟨t.start, t.length, true⟩ :: us)) →
      a ∈ starts (used (ts ++ ⟨t.start, t.length, true⟩ :: us)) → False := starts_disjoint hmark
  rw [frees_append, frees_cons_of_free rfl, starts_append, starts_cons] at hfsorted hdisj
  rw [used_append, used_cons_of_free rfl, starts_append] at hdisj
  have hftile : t.start ∉ starts (frees ts) ++ starts (frees us) :=
    (List.nodup_cons.mp (List.nodup_middle.mp (hfsorted.imp Nat.ne_of_lt))).1
  have hfree := h.freeList
  rw [frees_append, frees_cons_of_used ht, starts_append] at hfree
  -- something free is behind it
  have hlast : EndsFree us := (endsFree_middle.mp h.last).resolve_left fun hend => by rw [ht] at hend; cases hend.2
  have hne : starts (frees us) ≠ [] := by
    obtain ⟨w, hw, hwfree⟩ := hlast
    exact List.ne_nil_of_mem (mem_starts.mpr ⟨w, mem_frees.mpr ⟨List.mem_of_getLast? hw, hwfree⟩, rfl⟩)
  obtain ⟨l, hremove, hlused, hlsame⟩ := finshBlockRemove_spec hused (husorted.imp Nat.ne_of_lt)
    (length_lt_fuel h.tiled ((used_sublist ts).trans hts))
  have hfree₁ : Chain l.1 s.freeList (starts (frees ts) ++ starts (frees us)) := by
    refine hfree.congr fun n hn => hlsame n (fun hm => ?_) (ne_of_mem_of_not_mem hn hftile)
    refine hdisj ?_ (List.mem_append_left _ hm)
    rcases List.mem_append.mp hn with hn | hn
    · exact List.mem_append_left _ hn
    · exact List.mem_append_right _ (List.mem_cons_of_mem _ hn)
  obtain ⟨l', hinsert, hlfree, hlsame'⟩ := finshBlockInsert_spec hfree₁ hfsorted (fun hnil => absurd hnil hne)
    (length_lt_fuel h.tiled ((frees_sublist ts).trans hts))
  have hused₂ : Chain l'.1 l.2 (starts (used ts) ++ starts (used us)) :=
    hlused.congr fun n hn => hlsame' n (fun hm => hdisj (List.mem_append_left _ hm) hn) (ne_of_mem_of_not_mem hn hutile)
  have hshape : Shape { s with next := l'.1, freeList := l'.2, allocateList := l.2 }
      (ts ++ ⟨t.start, t.length, true⟩ :: us) := by
    refine ⟨hmark, fun x hx => ?_, ?_, ?_, endsFree_middle.mpr (Or.inr hlast)⟩
    · rcases List.mem_append.mp hx with hx | hx
      · exact h.length x (List.mem_append_left _ hx)
      · rcases List.mem_cons.mp hx with rfl | hx
        · exact h.length t (List.mem_append_right ts List.mem_cons_self)
        · exact h.length x (List.mem_append_right ts (List.mem_cons_of_mem t hx))
    · rw [frees_append, frees_cons_of_free rfl, starts_append, starts_cons]
      exact hlfree
    · rw [used_append, used_cons_of_free rfl, starts_append]
      exact hused₂
  obtain ⟨s', ts', hmerge, hrep, hused', hbytes⟩ :=
    hshape.merge rfl h.coalesced.left (h.coalesced.right.of_cons)
  refine ⟨s', ts', ?_, hrep, hused', hbytes⟩
  unfold finshHeapFree
  rw [hheader]
  dsimp only
  rw [hremove, Option.bind_some]
  show (finshBlockInsert l.1 s.freeList t.start).bind _ = _
  rw [hinsert, Option.bind_some]
  exact hmerge

/-! ### Collecting -/

/-- The collector frees the blocks that no variable points at, from one of the list on. -/
theorem Rep.gcLoop_spec {vars : List HeapVar} {fuel : ℕ} {done rest : List Tile} (h : s.Rep ts)
    (hused : used ts = done ++ rest) (hfuel : rest.length < fuel) :
    ∃ s' ts', gcLoop vars fuel s (starts rest).head? = some s' ∧ s'.Rep ts' ∧
      used ts' = done ++ rest.filter (fun t => Referenced vars t.start) ∧ s'.bytes = s.bytes := by
  induction rest generalizing s ts done fuel with
  | nil =>
    obtain ⟨fuel, rfl⟩ := Nat.exists_eq_succ_of_ne_zero (Nat.ne_of_gt hfuel)
    exact ⟨s, ts, rfl, h, hused, rfl⟩
  | cons t rest ih =>
    obtain ⟨fuel, rfl⟩ := Nat.exists_eq_succ_of_ne_zero (Nat.ne_of_gt (Nat.zero_lt_of_lt hfuel))
    have hfuel := Nat.lt_of_succ_lt_succ hfuel
    have hfollowing : s.next t.start = (starts rest).head? := by
      have hchain := h.allocateList
      rw [hused, starts_append, starts_cons] at hchain
      exact hchain.next_eq
    rw [starts_cons, List.head?_cons, gcLoop, hfollowing]
    by_cases href : Referenced vars t.start
    · obtain ⟨s', ts', hloop, hrep, hused', hbytes⟩ := 
        ih h (show used ts = done ++ [t] ++ rest by rw [hused, List.append_cons]) hfuel
      refine ⟨s', ts', ?_, hrep, ?_, hbytes⟩
      · rw [if_pos href, hloop]
      · have hfilter : List.filter (fun t => decide (Referenced vars t.start)) (t :: rest) =
            t :: rest.filter fun t => Referenced vars t.start := List.filter_cons_of_pos (decide_eq_true href)
        rw [hused', hfilter, List.append_assoc]
        rfl
    · obtain ⟨vs, ws, rfl, rfl, rfl, ht⟩ := used_eq_middle hused
      obtain ⟨s₁, ts₁, hfree, hrep₁, hused₁, hbytes₁⟩ := h.free ht
      obtain ⟨s', ts', hloop, hrep, hused', hbytes⟩ := ih hrep₁ hused₁ hfuel
      refine ⟨s', ts', ?_, hrep, ?_, hbytes.trans hbytes₁⟩
      · rw [if_neg href, hfree, Option.bind_some, hloop]
      · have hfilter : List.filter (fun t => decide (Referenced vars t.start)) (t :: used ws) =
            (used ws).filter fun t => Referenced vars t.start :=
          List.filter_cons_of_neg (by rw [decide_eq_true_eq]; exact href)
        rw [hused', hfilter]

/-- **The collector** keeps the blocks that a variable points at. -/
theorem Rep.collect (h : s.Rep ts) (vars : List HeapVar) : ∃ s' ts', s.finshHeapGc vars = some s' ∧ s'.Rep ts' ∧
    used ts' = (used ts).filter (fun t => Referenced vars t.start) ∧ s'.bytes = s.bytes := by
  have hfuel := length_lt_fuel h.tiled (used_sublist ts)
  unfold starts at hfuel
  rw [List.length_map] at hfuel
  unfold finshHeapGc
  rw [h.allocateList.head_eq]
  exact h.gcLoop_spec (show used ts = [] ++ used ts from rfl) hfuel

/-! ### Allocating -/

/-- The first fit: the free tiles are all too small, or there is one that is not. -/
theorem Rep.fit (h : s.Rep ts) (q : ℕ → Bool) :
    (findFrom s.next (fun header => q (s.length header)) walkFuel s.freeList = some none ∧
      ∀ t ∈ frees ts, q t.length = false) ∨
    ∃ vs t ws, ts = vs ++ t :: ws ∧ t.free = true ∧ q t.length = true ∧
      findFrom s.next (fun header => q (s.length header)) walkFuel s.freeList = some (some t.start) := by
  have hlen : ∀ t ∈ frees ts, q (s.length t.start) = q t.length := fun t ht =>
    congrArg q (h.length t (mem_frees.mp ht).1)
  have hfuel := length_lt_fuel h.tiled (frees_sublist ts)
  cases hfind : (frees ts).find? fun t => q t.length with
  | none =>
    have hall : ∀ t ∈ frees ts, q t.length = false := fun t ht =>
      Bool.eq_false_iff.mpr (List.find?_eq_none.mp hfind t ht)
    refine Or.inl ⟨h.freeList.findFrom_none (fun a ha => ?_) hfuel, hall⟩
    obtain ⟨t, ht, rfl⟩ := mem_starts.mp ha
    rw [hlen t ht]
    exact hall t ht
  | some t =>
    obtain ⟨hq, as, bs, heq, has⟩ := List.find?_eq_some_iff_append.mp hfind
    obtain ⟨htm, htfree⟩ := mem_frees.mp (heq ▸ List.mem_append_right as List.mem_cons_self)
    obtain ⟨vs, ws, hts⟩ := List.append_of_mem htm
    have hfree := h.freeList
    rw [heq] at hfree hlen
    rw [heq, starts_append, List.length_append] at hfuel
    rw [starts_append, starts_cons] at hfree
    refine Or.inr ⟨vs, t, ws, hts, htfree, hq, hfree.findFrom_found (fun a ha => ?_) ?_ (by omega)⟩
    · obtain ⟨u, hu, rfl⟩ := mem_starts.mp ha
      rw [hlen u (List.mem_append_left _ hu)]
      exact Bool.not_eq_true' _ ▸ has u hu
    · rw [hlen t (List.mem_append_right as List.mem_cons_self)]
      exact hq

/-- Rounding up, and adding a header, for a size that does not wrap. -/
theorem heapAlignSize_spec (h : size + 11 < 2 ^ 32) :
    size ≤ heapAlignSize size ∧ (heapAlignSize size + blockHeaderSize) % 2 ^ 32 = heapAlignSize size + blockHeaderSize := by
  have halign : heapAlignSize size = (size + 3) / 4 * 4 := by
    unfold heapAlignSize heapAlignment
    rw [Nat.mod_eq_of_lt (by omega)]
  have hheader : blockHeaderSize = 8 := rfl
  rw [halign, hheader]
  refine ⟨by omega, Nat.mod_eq_of_lt (by omega)⟩

/-- There is a free block of `n` bytes at least. -/
def HasFree (s : FinshHeap) (n : ℕ) : Prop :=
  ∃ free, Chain s.next s.freeList free ∧ ∃ header ∈ free, n ≤ s.length header

/-- There is room for `size` bytes without collecting: a free block is longer than they need with a header. -/
def RoomNow (s : FinshHeap) (size : ℕ) : Prop := s.HasFree (heapAlignSize size + blockHeaderSize + 1)

/-- There is room for `size` bytes after collecting. -/
def RoomAfterGc (s : FinshHeap) (vars : List HeapVar) (size : ℕ) : Prop :=
  ∃ s', s.finshHeapGc vars = some s' ∧ s'.HasFree (heapAlignSize size + blockHeaderSize)

theorem Rep.hasFree_iff (h : s.Rep ts) {n : ℕ} : s.HasFree n ↔ ∃ t ∈ frees ts, n ≤ t.length := by
  constructor
  · rintro ⟨free, hchain, a, ha, hle⟩
    rw [hchain.unique h.freeList] at ha
    obtain ⟨t, ht, rfl⟩ := mem_starts.mp ha
    rw [h.length t (mem_frees.mp ht).1] at hle
    exact ⟨t, ht, hle⟩
  · rintro ⟨t, ht, hle⟩
    refine ⟨_, h.freeList, t.start, mem_starts.mpr ⟨t, ht, rfl⟩, ?_⟩
    rw [h.length t (mem_frees.mp ht).1]
    exact hle

/-- The blocks that are in use behind the place where `finsh_heap_allocate` may collect. -/
def Kept (s : FinshHeap) (ts : List Tile) (vars : List HeapVar) (size : ℕ) (kept : List Tile) : Prop :=
  s.RoomNow size ∧ kept = used ts ∨ ¬s.RoomNow size ∧ kept = (used ts).filter fun t => Referenced vars t.start

/-- **Allocating**: if there is room, now or after collecting, there is a new block among the others, with all its bytes 0. -/
theorem Rep.allocate (h : s.Rep ts) (hsize : size + 11 < 2 ^ 32) (vars : List HeapVar) :
    ∃ s' result ts' kept, s.finshHeapAllocate vars size = some (s', result) ∧ s'.Rep ts' ∧ s.Kept ts vars size kept ∧
      (result = none ∧ ¬s.RoomNow size ∧ ¬s.RoomAfterGc vars size ∧ used ts' = kept ∧ s'.bytes = s.bytes ∨
        ∃ a xs ys, result = some (a + blockHeaderSize) ∧ (s.RoomNow size ∨ s.RoomAfterGc vars size) ∧ kept = xs ++ ys ∧
          used ts' = xs ++ ⟨a, heapAlignSize size, false⟩ :: ys ∧
          s'.bytes = fun x => if a + blockHeaderSize ≤ x ∧ x < a + blockHeaderSize + heapAlignSize size then 0
            else s.bytes x) := by
  obtain ⟨-, hneed⟩ := heapAlignSize_spec hsize
  unfold finshHeapAllocate
  dsimp only
  rw [hneed]
  rcases h.fit fun len => decide (heapAlignSize size + blockHeaderSize < len) with
    ⟨hnone, hall⟩ | ⟨vs, t, ws, rfl, ht, hfits, hfound⟩
  · have hroom : ¬s.RoomNow size := by
      intro hnow
      obtain ⟨t, ht, hlt⟩ := h.hasFree_iff.mp hnow
      exact of_decide_eq_false (hall t ht) hlt
    obtain ⟨s₁, ts₁, hgc, hrep₁, hused₁, hbytes₁⟩ := h.collect vars
    rw [hnone]
    dsimp only
    rw [hgc, Option.bind_some]
    rcases hrep₁.fit fun len => decide (heapAlignSize size + blockHeaderSize ≤ len) with
      ⟨hnone', hall'⟩ | ⟨vs, t, ws, rfl, ht, hfits, hfound⟩
    · have hafter : ¬s.RoomAfterGc vars size := by
        rintro ⟨s₂, hgc', hfree⟩
        obtain rfl := Option.some.inj (hgc.symm.trans hgc')
        obtain ⟨t, ht, hle⟩ := hrep₁.hasFree_iff.mp hfree
        exact of_decide_eq_false (hall' t ht) hle
      rw [hnone']
      exact ⟨s₁, none, ts₁, _, rfl, hrep₁, Or.inr ⟨hroom, hused₁⟩, Or.inl ⟨rfl, hroom, hafter, rfl, hbytes₁⟩⟩
    · have hfits := of_decide_eq_true hfits
      have hafter : s.RoomAfterGc vars size :=
        ⟨s₁, hgc, hrep₁.hasFree_iff.mpr ⟨t, mem_frees.mpr ⟨List.mem_append_right vs List.mem_cons_self, ht⟩, hfits⟩⟩
      obtain ⟨s', htake, hrep, hbytes⟩ := hrep₁.take ht hfits
      rw [hfound]
      refine ⟨s', _, _, _, htake, hrep, Or.inr ⟨hroom, rfl⟩,
        Or.inr ⟨t.start, used vs, used ws, rfl, Or.inr hafter, ?_, used_cutTiles, ?_⟩⟩
      · rw [← hused₁, used_append, used_cons_of_free ht]
      · rw [hbytes, hbytes₁]
  · have hfits := of_decide_eq_true hfits
    have hroom : s.RoomNow size :=
      h.hasFree_iff.mpr ⟨t, mem_frees.mpr ⟨List.mem_append_right vs List.mem_cons_self, ht⟩, hfits⟩
    obtain ⟨s', htake, hrep, hbytes⟩ := h.take ht (Nat.le_of_lt hfits)
    rw [hfound]
    refine ⟨s', _, _, _, htake, hrep, Or.inl ⟨hroom, rfl⟩,
      Or.inr ⟨t.start, used vs, used ws, rfl, Or.inl hroom, ?_, used_cutTiles, hbytes⟩⟩
    rw [used_append, used_cons_of_free ht]

/-! ## The runs -/

/-- The lists are as promised. -/
theorem Rep.sound (h : s.Rep ts) : s.Sound (starts (frees ts)) (starts (used ts)) := by
  have hmem : ∀ {a : ℕ}, a ∈ starts (frees ts) ++ starts (used ts) ↔ ∃ t ∈ ts, t.start = a := by
    intro a
    rw [List.mem_append, mem_starts, mem_starts]
    constructor
    · rintro (⟨t, ht, heq⟩ | ⟨t, ht, heq⟩)
      · exact ⟨t, (mem_frees.mp ht).1, heq⟩
      · exact ⟨t, (mem_used.mp ht).1, heq⟩
    · rintro ⟨t, ht, heq⟩
      cases hfree : t.free with
      | true => exact Or.inl ⟨t, mem_frees.mpr ⟨ht, hfree⟩, heq⟩
      | false => exact Or.inr ⟨t, mem_used.mpr ⟨ht, hfree⟩, heq⟩
  constructor
  · exact h.freeList
  · exact h.allocateList
  · exact starts_sublist h.tiled (frees_sublist ts)
  · exact starts_sublist h.tiled (used_sublist ts)
  · exact fun a hf hu => starts_disjoint h.tiled hf hu
  · intro x hx
    obtain ⟨t, ht, htx⟩ := h.tiled.covers (Nat.zero_le x) hx
    refine ⟨t.start, ⟨hmem.mpr ⟨t, ht, rfl⟩, ?_⟩, ?_⟩
    · rw [h.length t ht]
      exact htx
    · rintro a ⟨ha, hax⟩
      obtain ⟨u, hu, rfl⟩ := hmem.mp ha
      rw [h.length u hu] at hax
      rw [h.tiled.eq_of_covers hu ht hax htx]
  · intro a ha
    obtain ⟨t, ht, rfl⟩ := hmem.mp ha
    rw [h.length t ht]
    exact (h.tiled.inside ht).2
  · intro a ha b hb
    obtain ⟨t, ht, rfl⟩ := mem_starts.mp ha
    obtain ⟨u, hu, rfl⟩ := mem_starts.mp hb
    rw [h.length t (mem_frees.mp ht).1]
    exact h.coalesced.apart h.tiled header_pos ht hu

theorem Rep.live_iff (h : s.Rep ts) {ptr : ℕ} : s.Live ptr ↔ ∃ t ∈ used ts, ptr = t.start + blockHeaderSize := by
  constructor
  · rintro ⟨us, hchain, a, ha, rfl⟩
    rw [hchain.unique h.allocateList] at ha
    obtain ⟨t, ht, rfl⟩ := mem_starts.mp ha
    exact ⟨t, ht, rfl⟩
  · rintro ⟨t, ht, rfl⟩
    exact ⟨_, h.allocateList, t.start, mem_starts.mpr ⟨t, ht, rfl⟩, rfl⟩

/-- **The step lemma**: the heap stays cut into tiles, and the call does what it promises. -/
theorem Rep.step (h : s.Rep ts) {call : HeapCall} (hok : SizeOk call) (hen : s.Enabled call) :
    ∃ s' ts' result, s.exec call = some (s', result) ∧ s'.Rep ts' ∧ s.Served call := by
  cases call with
  | allocate size vars =>
    obtain ⟨s', result, ts', kept, hexec, hrep, -, hresult⟩ := h.allocate hok vars
    refine ⟨s', ts', result, hexec, hrep, s', result, hexec, fun ptr hptr => ?_⟩
    rcases hresult with ⟨rfl, -⟩ | ⟨a, xs, ys, rfl, -, -, hused, -⟩
    · cases hptr
    · obtain rfl := Option.some.inj hptr
      have hm : (⟨a, heapAlignSize size, false⟩ : Tile) ∈ used ts' := by
        rw [hused]
        exact List.mem_append_right xs List.mem_cons_self
      refine ⟨size, vars, a, rfl, rfl, hrep.live_iff.mpr ⟨_, hm, rfl⟩, ?_⟩
      rw [hrep.length _ (mem_used.mp hm).1]
      exact (heapAlignSize_spec hok).1
  | free ptr =>
    obtain ⟨t, ht, rfl⟩ := h.live_iff.mp hen
    obtain ⟨xs, ys, hused⟩ := List.append_of_mem ht
    obtain ⟨vs, ws, rfl, -, -, htused⟩ := used_eq_middle hused
    obtain ⟨s', ts', hfree, hrep, -, -⟩ := h.free htused
    have hexec : s.exec (.free (t.start + blockHeaderSize)) = some (s', none) := by
      show (s.finshHeapFree (t.start + blockHeaderSize)).map _ = _
      rw [hfree]
      rfl
    exact ⟨s', ts', none, hexec, hrep, s', none, hexec, nofun⟩

theorem rep_of_run {ls : List (HeapCall × Option ℕ)} (h : Run (Guarded (fun _ l => SizeOk l.1) Step) init ls s) :
    ∃ ts, s.Rep ts :=
  h.guarded (I := fun s => ∃ ts, s.Rep ts) ⟨_, rep_init⟩ fun s l s' hs hok hstep => by
    obtain ⟨ts, hs⟩ := hs
    obtain ⟨s₁, ts₁, result, hexec, hrep, -⟩ := hs.step hok hstep.1
    obtain ⟨rfl, -⟩ := Prod.mk.inj (Option.some.inj (hexec.symm.trans hstep.2))
    exact ⟨ts₁, hrep⟩

/-- **The shell's heap**, in every state that is reached from the beginning with sizes that do not wrap: its lists are in
order, without a block in common, and cover the heap; no two neighbours are free; and the next call, with such a size, ends
and returns a block that is large enough. -/
theorem finsh_heap_sound {ls : List (HeapCall × Option ℕ)}
    (h : Run (Guarded (fun _ l => SizeOk l.1) Step) init ls s) :
    (∃ free used, s.Sound free used) ∧ ∀ call, s.Enabled call → SizeOk call → s.Served call := by
  obtain ⟨ts, hrep⟩ := rep_of_run h
  refine ⟨⟨_, _, hrep.sound⟩, fun call hen hok => ?_⟩
  obtain ⟨-, -, -, -, -, hserved⟩ := hrep.step hok hen
  exact hserved

/-- An allocation in the heap as it is at the beginning: what it returns, and the length of the first block then. -/
def firstAllocation (size : ℕ) : Option (Option ℕ × ℕ) :=
  (init.exec (.allocate size [])).map fun r => (r.2, r.1.length 0)

theorem exec_of_firstAllocation {p : Option ℕ × ℕ} (h : firstAllocation size = some p) :
    ∃ s', init.exec (.allocate size []) = some (s', p.1) ∧ s'.length 0 = p.2 := by
  obtain ⟨r, hexec, rfl⟩ := Option.map_eq_some_iff.mp h
  exact ⟨r.1, hexec, rfl⟩

/-- With ten bytes allocated. -/
theorem finsh_heap_sound_ten : ∃ s : FinshHeap, (∃ free used, s.Sound free used) ∧ s.Served (.allocate 100 []) := by
  obtain ⟨s, hexec, -⟩ := exec_of_firstAllocation (show firstAllocation 10 = some (some 8, 12) by decide)
  have hrun : Run (Guarded (fun _ l => SizeOk l.1) Step) init [(.allocate 10 [], some 8)] s :=
    .single ⟨show 10 + 11 < 2 ^ 32 by decide, show 10 < 2 ^ 32 by decide, hexec⟩
  obtain ⟨hsound, hserved⟩ := finsh_heap_sound hrun
  exact ⟨s, hsound, hserved (.allocate 100 []) (show 100 < 2 ^ 32 by decide) (show 100 + 11 < 2 ^ 32 by decide)⟩

/-- A size that is rounded up to 0: the block has no bytes. -/
theorem finsh_heap_unsound : ¬ ∀ (ls : List (HeapCall × Option ℕ)) (s : FinshHeap), Run Step init ls s →
    (∃ free used, s.Sound free used) ∧ ∀ call, s.Enabled call → s.Served call := by
  intro hall
  obtain ⟨-, hserved⟩ := hall [] init .nil
  obtain ⟨s', hexec, hlen⟩ := exec_of_firstAllocation (show firstAllocation (2 ^ 32 - 1) = some (some 8, 0) by decide)
  obtain ⟨s₁, result, hexec', hptr⟩ := hserved (.allocate (2 ^ 32 - 1) []) (show 2 ^ 32 - 1 < 2 ^ 32 by decide)
  obtain ⟨rfl, rfl⟩ := Prod.mk.inj (Option.some.inj (hexec.symm.trans hexec'))
  obtain ⟨size, vars, header, hcall, hheader, -, hle⟩ := hptr 8 rfl
  cases hcall
  have hzero : header = 0 := by
    unfold blockHeaderSize at hheader
    omega
  rw [hzero, hlen] at hle
  exact absurd hle (by decide)

end FinshHeap

end CoreLink.RtThread
