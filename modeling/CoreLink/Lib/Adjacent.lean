/-
# `CoreLink.Lib.Adjacent` — areas that make one range.

Areas `es` are adjacent from `lo` on when the first begins at `lo` and each of the others where the one before
it ends. For areas in ascending order this is the same as covering exactly the range that begins at `lo` and is
as long as they are together, areas without a size aside (`covers_iff_adjacent`): nothing is left out and nothing
is covered twice.
-/
import CoreLink.Lib.FreeRuns

namespace CoreLink.Lib.Extent

variable {es : List Extent} {lo : Nat}

/-- How much the areas have together. -/
def total (es : List Extent) : Nat := (es.map Extent.size).sum

@[simp] theorem total_nil : total [] = 0 := rfl

@[simp] theorem total_cons (e : Extent) (es : List Extent) : total (e :: es) = e.size + total es := rfl

/-- The first area begins at `lo`, and each of the others where the one before it ends. -/
def Adjacent (lo : Nat) : List Extent → Prop
  | [] => True
  | e :: es => e.start = lo ∧ Adjacent (lo + e.size) es

/-- The areas that have a size. -/
def sized (es : List Extent) : List Extent := es.filter fun e => 0 < e.size

theorem sized_cons_of_pos {e : Extent} (h : 0 < e.size) : sized (e :: es) = e :: sized es :=
  List.filter_cons_of_pos (by simpa using h)

theorem sized_cons_of_zero {e : Extent} (h : ¬0 < e.size) : sized (e :: es) = sized es :=
  List.filter_cons_of_neg (by simpa using h)

theorem not_has_of_zero {e : Extent} (h : ¬0 < e.size) (x : Nat) : ¬e.Has x := by
  unfold Has
  omega

/-- What areas cover is no more than what they have. -/
theorem card_le_total {u : Finset Nat} (h : ∀ x ∈ u, Covers es x) : u.card ≤ total es := by
  induction es generalizing u with
  | nil =>
    have hu : u = ∅ := Finset.eq_empty_of_forall_notMem fun x hx => covers_nil x (h x hx)
    rw [hu, total_nil, Finset.card_empty]
  | cons e es ih =>
    have hrest : (u \ Finset.Ico e.start (e.start + e.size)).card ≤ total es := by
      refine ih fun x hx => ?_
      obtain ⟨hxu, hxe⟩ := Finset.mem_sdiff.mp hx
      exact (covers_cons.mp (h x hxu)).resolve_left fun hhas => hxe (Finset.mem_Ico.mpr hhas)
    have hcard : u.card - (Finset.Ico e.start (e.start + e.size)).card ≤
        (u \ Finset.Ico e.start (e.start + e.size)).card := Finset.le_card_sdiff _ _
    rw [Nat.card_Ico, Nat.add_sub_cancel_left] at hcard
    rw [total_cons]
    omega

/-- **Areas that cover as much as they have** cover nothing else. -/
theorem mem_of_card_eq_total {u : Finset Nat} (h : ∀ x ∈ u, Covers es x) (hcard : u.card = total es) {x : Nat}
    (hx : Covers es x) : x ∈ u := by
  by_contra hmem
  have hle : (Insert.insert x u).card ≤ total es := by
    refine card_le_total fun y hy => ?_
    rcases Finset.mem_insert.mp hy with rfl | hy
    · exact hx
    · exact h y hy
  rw [Finset.card_insert_of_notMem hmem] at hle
  omega

/-- Adjacent areas cover one range. -/
theorem Adjacent.covers_iff (h : Adjacent lo (sized es)) (x : Nat) : Covers es x ↔ lo ≤ x ∧ x < lo + total es := by
  induction es generalizing lo with
  | nil =>
    rw [total_nil]
    exact iff_of_false (covers_nil x) (by omega)
  | cons e es ih =>
    rw [covers_cons, total_cons]
    by_cases hpos : 0 < e.size
    · rw [sized_cons_of_pos hpos] at h
      obtain ⟨rfl, hrest⟩ := h
      rw [ih hrest]
      unfold Has
      omega
    · rw [sized_cons_of_zero hpos] at h
      rw [ih h]
      have hnone := not_has_of_zero hpos x
      have hzero : e.size = 0 := by omega
      rw [hzero, Nat.zero_add]
      exact or_iff_right hnone

/-- **Areas in ascending order cover one range** as long as they are together exactly when they are adjacent. -/
theorem covers_iff_adjacent (hsorted : es.Pairwise fun e f => e.start ≤ f.start) :
    (∀ x, Covers es x ↔ lo ≤ x ∧ x < lo + total es) ↔ Adjacent lo (sized es) := by
  refine ⟨fun h => ?_, fun h x => h.covers_iff x⟩
  induction es generalizing lo with
  | nil => trivial
  | cons e es ih =>
    obtain ⟨hfirst, hsorted⟩ := List.pairwise_cons.mp hsorted
    rw [total_cons] at h
    by_cases hpos : 0 < e.size
    · -- the lowest address that is covered is where the first area begins
      have hstart : e.start = lo := by
        have hlow := (h e.start).mp (covers_cons.mpr (Or.inl ⟨Nat.le_refl _, by omega⟩))
        obtain ⟨f, hf, hhas⟩ := (h lo).mpr ⟨Nat.le_refl _, by omega⟩
        have hle : e.start ≤ f.start := by
          rcases List.mem_cons.mp hf with rfl | hf
          · exact Nat.le_refl _
          · exact hfirst f hf
        have := hhas.1
        omega
      rw [sized_cons_of_pos hpos]
      refine ⟨hstart, ih hsorted fun x => ?_⟩
      have hbehind : ∀ y ∈ Finset.Ico (lo + e.size) (lo + e.size + total es), Covers es y := by
        intro y hy
        have hy := Finset.mem_Ico.mp hy
        refine (covers_cons.mp ((h y).mpr ⟨by omega, by omega⟩)).resolve_left fun hhas => ?_
        unfold Has at hhas
        omega
      refine ⟨fun hx => ?_, fun hx => hbehind x (Finset.mem_Ico.mpr hx)⟩
      have hcard : (Finset.Ico (lo + e.size) (lo + e.size + total es)).card = total es := by
        rw [Nat.card_Ico, Nat.add_sub_cancel_left]
      exact Finset.mem_Ico.mp (mem_of_card_eq_total hbehind hcard hx)
    · rw [sized_cons_of_zero hpos]
      refine ih hsorted fun x => ?_
      have hiff := h x
      have hzero : e.size = 0 := by omega
      rw [covers_cons, or_iff_right (not_has_of_zero hpos x), hzero, Nat.zero_add] at hiff
      exact hiff

end CoreLink.Lib.Extent
