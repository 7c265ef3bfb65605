/-
# `CoreLink.Lib.Tiles` — a region cut into tiles, each behind a header.

A region of memory from `a` to `b` is cut into tiles that follow one another without a gap; each is a header of `hdr` bytes
with the bytes behind it, and is free or in use. An allocator cuts a free tile in two, and joins a tile that is given back
with the free ones next to it, so that no two neighbours are free (`Coalesced`). What is free and what is in use are then
two lists of addresses, both in order, which have no address in common and cover the region between them.
-/
import Mathlib.Data.List.Chain
import Mathlib.Data.List.Nodup

namespace CoreLink.Lib

/-- A tile: where its header is, and how many bytes are behind it. -/
structure Tile where
  start : ℕ
  length : ℕ
  free : Bool

namespace Tile

/-- **The tiles cover the region** from `a` to `b`, one behind the other. -/
def Tiled (hdr : ℕ) : ℕ → List Tile → ℕ → Prop
  | a, [], b => a = b
  | a, t :: ts, b => t.start = a ∧ Tiled hdr (a + hdr + t.length) ts b

/-- The tiles that are free. -/
def frees (ts : List Tile) : List Tile := ts.filter fun t => t.free

/-- The tiles that are in use. -/
def used (ts : List Tile) : List Tile := ts.filter fun t => !t.free

/-- Where the headers are. -/
def starts (ts : List Tile) : List ℕ := ts.map start

/-- No two neighbours are free. -/
def Coalesced (ts : List Tile) : Prop := ts.IsChain fun t u => ¬(t.free = true ∧ u.free = true)

/-- The last tile is free. -/
def EndsFree (ts : List Tile) : Prop := ∃ t, ts.getLast? = some t ∧ t.free = true

variable {hdr a b n : ℕ} {t u : Tile} {ts us : List Tile}

@[simp] theorem starts_cons (t : Tile) (ts : List Tile) : starts (t :: ts) = t.start :: starts ts := rfl

@[simp] theorem starts_append (ts us : List Tile) : starts (ts ++ us) = starts ts ++ starts us := List.map_append

@[simp] theorem frees_append (ts us : List Tile) : frees (ts ++ us) = frees ts ++ frees us := List.filter_append ..

@[simp] theorem used_append (ts us : List Tile) : used (ts ++ us) = used ts ++ used us := List.filter_append ..

theorem frees_cons_of_free (h : t.free = true) : frees (t :: ts) = t :: frees ts := List.filter_cons_of_pos h

theorem frees_cons_of_used (h : t.free = false) : frees (t :: ts) = frees ts :=
  List.filter_cons_of_neg (by rw [h]; exact Bool.false_ne_true)

theorem used_cons_of_free (h : t.free = true) : used (t :: ts) = used ts :=
  List.filter_cons_of_neg (by rw [h]; exact Bool.false_ne_true)

theorem used_cons_of_used (h : t.free = false) : used (t :: ts) = t :: used ts :=
  List.filter_cons_of_pos (by rw [h]; rfl)

theorem mem_frees : t ∈ frees ts ↔ t ∈ ts ∧ t.free = true := List.mem_filter

theorem mem_used : t ∈ used ts ↔ t ∈ ts ∧ t.free = false := by
  unfold used
  rw [List.mem_filter, Bool.not_eq_true']

/-- Where a tile in use is among all the tiles. -/
theorem used_eq_middle {xs ys : List Tile} (h : used ts = xs ++ t :: ys) :
    ∃ vs ws, ts = vs ++ t :: ws ∧ used vs = xs ∧ used ws = ys ∧ t.free = false := by
  obtain ⟨vs, ws, rfl, hvs, hws⟩ := List.filter_eq_append_iff.mp h
  obtain ⟨us, ws, rfl, hus, ht, hws⟩ := List.filter_eq_cons_iff.mp hws
  refine ⟨vs ++ us, ws, (List.append_assoc vs us (t :: ws)).symm, ?_, hws, by rwa [Bool.not_eq_true'] at ht⟩
  rw [used_append, show used us = [] from List.filter_eq_nil_iff.mpr hus, List.append_nil]
  exact hvs

theorem mem_starts : n ∈ starts ts ↔ ∃ t ∈ ts, t.start = n := List.mem_map

/-! ## The tiling -/

namespace Tiled

theorem append_iff : Tiled hdr a (ts ++ us) b ↔ ∃ m, Tiled hdr a ts m ∧ Tiled hdr m us b := by
  induction ts generalizing a with
  | nil => exact ⟨fun h => ⟨a, rfl, h⟩, fun ⟨m, hm, h⟩ => (show a = m from hm) ▸ h⟩
  | cons t ts ih =>
    constructor
    · rintro ⟨hstart, h⟩
      obtain ⟨m, hts, hus⟩ := ih.mp h
      exact ⟨m, ⟨hstart, hts⟩, hus⟩
    · rintro ⟨m, ⟨hstart, hts⟩, hus⟩
      exact ⟨hstart, ih.mpr ⟨m, hts, hus⟩⟩

theorem le (h : Tiled hdr a ts b) : a ≤ b := by
  induction ts generalizing a with
  | nil => exact Nat.le_of_eq h
  | cons t ts ih =>
    have hle := ih h.2
    omega

/-- Every tile lies in the region. -/
theorem inside (h : Tiled hdr a ts b) (ht : t ∈ ts) : a ≤ t.start ∧ t.start + hdr + t.length ≤ b := by
  induction ts generalizing a with
  | nil => exact absurd ht List.not_mem_nil
  | cons u ts ih =>
    obtain ⟨hstart, h⟩ := h
    rcases List.mem_cons.mp ht with rfl | ht
    · have hle := h.le
      omega
    · have hin := ih h ht
      omega

/-- **The tiles are in order**, each behind the end of the ones in front of it. -/
theorem ordered (h : Tiled hdr a ts b) : ts.Pairwise fun t u => t.start + hdr + t.length ≤ u.start := by
  induction ts generalizing a with
  | nil => exact .nil
  | cons t ts ih =>
    obtain ⟨hstart, h⟩ := h
    refine List.pairwise_cons.mpr ⟨fun u hu => ?_, ih h⟩
    have hin := h.inside hu
    omega

theorem starts_sorted (h : Tiled hdr a ts b) (hpos : 0 < hdr) : (starts ts).Pairwise (· < ·) := by
  unfold starts
  rw [List.pairwise_map]
  exact h.ordered.imp fun hle => by omega

theorem starts_nodup (h : Tiled hdr a ts b) (hpos : 0 < hdr) : (starts ts).Nodup :=
  (h.starts_sorted hpos).imp Nat.ne_of_lt

/-- There are no more tiles than bytes. -/
theorem length_le (h : Tiled hdr a ts b) (hpos : 0 < hdr) : a + ts.length ≤ b := by
  induction ts generalizing a with
  | nil => exact Nat.le_of_eq h
  | cons t ts ih =>
    have hle := ih h.2
    rw [List.length_cons]
    omega

/-- **No address is left out.** -/
theorem covers (h : Tiled hdr a ts b) {x : ℕ} (ha : a ≤ x) (hb : x < b) :
    ∃ t ∈ ts, t.start ≤ x ∧ x < t.start + hdr + t.length := by
  induction ts generalizing a with
  | nil =>
    have heq : a = b := h
    omega
  | cons t ts ih =>
    obtain ⟨hstart, h⟩ := h
    by_cases hx : x < a + hdr + t.length
    · exact ⟨t, List.mem_cons_self, by omega, by omega⟩
    · obtain ⟨u, hu, hux⟩ := ih h (Nat.le_of_not_lt hx)
      exact ⟨u, List.mem_cons_of_mem t hu, hux⟩

/-- **And none is in two tiles.** -/
theorem eq_of_covers (h : Tiled hdr a ts b) (ht : t ∈ ts) (hu : u ∈ ts) {x : ℕ}
    (htx : t.start ≤ x ∧ x < t.start + hdr + t.length) (hux : u.start ≤ x ∧ x < u.start + hdr + u.length) : t = u := by
  induction ts generalizing a with
  | nil => exact absurd ht List.not_mem_nil
  | cons v ts ih =>
    obtain ⟨hstart, h⟩ := h
    rcases List.mem_cons.mp ht with rfl | htm
    · rcases List.mem_cons.mp hu with rfl | hum
      · rfl
      · have hin := h.inside hum
        omega
    · rcases List.mem_cons.mp hu with rfl | hum
      · have hin := h.inside htm
        omega
      · exact ih h htm hum

/-- Where a tile is. -/
theorem middle_iff : Tiled hdr a (ts ++ t :: us) b ↔ Tiled hdr a ts t.start ∧ Tiled hdr (t.start + hdr + t.length) us b := by
  rw [append_iff]
  constructor
  · rintro ⟨m, hts, rfl, hus⟩
    exact ⟨hts, hus⟩
  · rintro ⟨hts, hus⟩
    exact ⟨t.start, hts, rfl, hus⟩

/-- **Cutting a tile in two.** -/
theorem cut (h : Tiled hdr a (ts ++ t :: us) b) (hn : n + hdr ≤ t.length) (f g : Bool) :
    Tiled hdr a (ts ++ ⟨t.start, n, f⟩ :: ⟨t.start + hdr + n, t.length - (n + hdr), g⟩ :: us) b := by
  obtain ⟨hts, hus⟩ := middle_iff.mp h
  refine middle_iff.mpr ⟨hts, rfl, ?_⟩
  rwa [show t.start + hdr + n + hdr + (t.length - (n + hdr)) = t.start + hdr + t.length by omega]

/-- A tile gets another owner. -/
theorem mark (h : Tiled hdr a (ts ++ t :: us) b) (f : Bool) : Tiled hdr a (ts ++ ⟨t.start, t.length, f⟩ :: us) b :=
  middle_iff.mpr ⟨(middle_iff.mp h).1, (middle_iff.mp h).2⟩

/-- The address of a tile determines it. -/
theorem eq_of_start (h : Tiled hdr a ts b) (hpos : 0 < hdr) (ht : t ∈ ts) (hu : u ∈ ts) (heq : t.start = u.start) : t = u :=
  List.inj_on_of_nodup_map (h.starts_nodup hpos) ht hu heq

end Tiled

/-! ## Neighbours -/

/-- What ends where a tile begins is the tile in front of it. -/
theorem Tiled.front_of_end (h : Tiled hdr a (ts ++ t :: us) b) (hpos : 0 < hdr) (hu : u ∈ ts)
    (hend : u.start + hdr + u.length = t.start) : ∃ vs, ts = vs ++ [u] := by
  obtain ⟨vs, ws, rfl⟩ := List.append_of_mem hu
  cases ws with
  | nil => exact ⟨vs, rfl⟩
  | cons w ws =>
    have hfront := (Tiled.middle_iff.mp h).1
    obtain ⟨-, hwstart, hrest⟩ := Tiled.middle_iff.mp hfront
    have hle := hrest.le
    omega

theorem Coalesced.middle_iff : Coalesced (ts ++ t :: us) ↔ Coalesced (ts ++ [t]) ∧ Coalesced (t :: us) :=
  List.isChain_split

/-- A tile in use keeps what is on both sides of it apart. -/
theorem Coalesced.of_used (hts : Coalesced ts) (hus : Coalesced us) (ht : t.free = false) : Coalesced (ts ++ t :: us) := by
  refine List.isChain_append.mpr ⟨hts, List.isChain_cons.mpr ⟨fun y _ hxy => ?_, hus⟩, fun x _ y hy hxy => ?_⟩
  · rw [ht] at hxy
    exact Bool.false_ne_true hxy.1
  · rw [List.head?_cons, Option.mem_some_iff] at hy
    rw [← hy, ht] at hxy
    exact Bool.false_ne_true hxy.2

/-- Only whether it is free counts. -/
theorem Coalesced.replace_head (h : Coalesced (t :: us)) (hu : u.free = t.free) : Coalesced (u :: us) := by
  obtain ⟨hhead, htail⟩ := List.isChain_cons.mp h
  refine List.isChain_cons.mpr ⟨fun y hy => ?_, htail⟩
  rw [hu]
  exact hhead y hy

theorem Coalesced.replace_last (h : Coalesced (ts ++ [t])) (hu : u.free = t.free) : Coalesced (ts ++ [u]) := by
  obtain ⟨hts, -, hlast⟩ := List.isChain_append.mp h
  refine List.isChain_append.mpr ⟨hts, List.isChain_singleton u, fun x hx y hy => ?_⟩
  rw [List.head?_cons, Option.mem_some_iff] at hy
  rw [← hy, hu]
  exact hlast x hx t rfl

/-- A tile behind one that is in use. -/
theorem Coalesced.concat (h : Coalesced ts) (hlast : ∀ x ∈ ts.getLast?, x.free = false) : Coalesced (ts ++ [t]) := by
  refine List.isChain_append.mpr ⟨h, List.isChain_singleton t, fun x hx y _ hxy => ?_⟩
  rw [hlast x hx] at hxy
  exact Bool.false_ne_true hxy.1

/-- A tile in front of one that is in use. -/
theorem Coalesced.cons (h : Coalesced us) (hhead : ∀ x ∈ us.head?, x.free = false) : Coalesced (t :: us) := by
  refine List.isChain_cons.mpr ⟨fun y hy hxy => ?_, h⟩
  rw [hhead y hy] at hxy
  exact Bool.false_ne_true hxy.2

/-- **No free tile begins where another one ends.** -/
theorem Coalesced.apart (hc : Coalesced ts) (h : Tiled hdr a ts b) (hpos : 0 < hdr) (ht : t ∈ frees ts) (hu : u ∈ frees ts) :
    t.start + hdr + t.length ≠ u.start := by
  obtain ⟨htm, htfree⟩ := mem_frees.mp ht
  obtain ⟨hum, hufree⟩ := mem_frees.mp hu
  intro hend
  obtain ⟨vs, ws, rfl⟩ := List.append_of_mem hum
  obtain ⟨-, hws⟩ := Tiled.middle_iff.mp h
  rcases List.mem_append.mp htm with hm | hm
  · obtain ⟨us, rfl⟩ := h.front_of_end hpos hm hend
    rw [← List.append_cons] at hc
    exact (List.isChain_cons.mp (List.IsChain.right_of_append hc)).1 u rfl ⟨htfree, hufree⟩
  · rcases List.mem_cons.mp hm with rfl | hm
    · omega
    · have hin := hws.inside hm
      omega

theorem endsFree_append (h : us ≠ []) : EndsFree (ts ++ us) ↔ EndsFree us := by
  unfold EndsFree
  rw [List.getLast?_append_of_ne_nil _ h]

theorem endsFree_middle : EndsFree (ts ++ t :: us) ↔ us = [] ∧ t.free = true ∨ EndsFree us := by
  rw [endsFree_append (List.cons_ne_nil t us)]
  cases us with
  | nil =>
    constructor
    · rintro ⟨u, hu, hfree⟩
      have htu : t = u := Option.some.inj hu
      exact Or.inl ⟨rfl, htu ▸ hfree⟩
    · rintro (⟨-, hfree⟩ | ⟨u, hu, -⟩)
      · exact ⟨t, rfl, hfree⟩
      · cases hu
  | cons v us =>
    unfold EndsFree
    rw [List.getLast?_cons_cons]
    refine (or_iff_right ?_).symm
    rintro ⟨hnil, -⟩
    exact List.cons_ne_nil v us hnil

theorem Coalesced.left (h : Coalesced (ts ++ us)) : Coalesced ts := List.IsChain.left_of_append h

theorem Coalesced.right (h : Coalesced (ts ++ us)) : Coalesced us := List.IsChain.right_of_append h

end Tile

end CoreLink.Lib
