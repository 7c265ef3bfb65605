/-
# `CoreLink.Lib.FreeRuns` — the free runs of a region, in order and never adjacent.

A free list that is sorted by address and joins what touches is determined by the set of addresses that are free. Taking the
first run that is large enough, and putting a run back, keep such a list, and change the set of free addresses by the ones
that are taken or put back (`takeFirst_spec`, `insert_spec`).
-/
import CoreLink.Lib.Extent

namespace CoreLink.Lib.Extent

/-- An address is in an extent. -/
def Has (e : Extent) (x : Nat) : Prop := e.start ≤ x ∧ x < e.start + e.size

/-- An address is in one of the extents. -/
def Covers (es : List Extent) (x : Nat) : Prop := ∃ e ∈ es, e.Has x

/-- **The runs** are not empty, in order, and there is something in between any two of them. -/
structure Gapped (es : List Extent) : Prop where
  nonempty : ∀ e ∈ es, 0 < e.size
  gap : es.Pairwise fun e f => e.start + e.size < f.start

/-- The first run of `k` addresses at least gives its first `k`. -/
def takeFirst (k : Nat) : List Extent → Option (Nat × List Extent)
  | [] => none
  | e :: es =>
    if k < e.size then some (e.start, ⟨e.start + k, e.size - k⟩ :: es)
    else if e.size = k then some (e.start, es)
    else (takeFirst k es).map fun r => (r.1, e :: r.2)

/-- A run is made longer, and joined with the next one if it touches it. -/
def extend (b : Extent) (k : Nat) : List Extent → List Extent
  | [] => [⟨b.start, b.size + k⟩]
  | c :: cs =>
    if b.start + (b.size + k) = c.start then ⟨b.start, b.size + k + c.size⟩ :: cs
    else ⟨b.start, b.size + k⟩ :: c :: cs

/-- A run is put in its place, and joined with those that it touches. -/
def insert (n : Extent) : List Extent → List Extent
  | [] => [n]
  | b :: es =>
    if b.start + b.size = n.start then extend b n.size es
    else if b.start = n.start + n.size then ⟨n.start, b.size + n.size⟩ :: es
    else if n.start + n.size < b.start then n :: b :: es
    else b :: insert n es

variable {e n : Extent} {es es' : List Extent} {b k x lo : Nat}

/-! ## What is covered -/

theorem covers_nil (x : Nat) : ¬Covers [] x := fun ⟨_, he, _⟩ => List.not_mem_nil he

theorem covers_cons : Covers (e :: es) x ↔ e.Has x ∨ Covers es x := by
  unfold Covers
  rw [List.exists_mem_cons_iff]

/-- Extents that are not empty and share no address are apart. -/
theorem apart_of_forall {f : Extent} (he : 0 < e.size) (hf : 0 < f.size) (h : ∀ x, e.Has x → ¬f.Has x) : Apart e f := by
  by_contra hnot
  -- the first address that both of them have
  unfold Apart at hnot
  refine h (max e.start f.start) ?_ ?_
  · unfold Has
    omega
  · unfold Has
    omega

/-- Two runs that touch cover what the joined one covers. -/
theorem has_join (start m k x : Nat) : Has ⟨start, m + k⟩ x ↔ Has ⟨start, m⟩ x ∨ Has ⟨start + m, k⟩ x := by
  unfold Has
  dsimp only
  omega

namespace Gapped

theorem nil : Gapped [] := ⟨nofun, .nil⟩

theorem cons_iff : Gapped (e :: es) ↔ 0 < e.size ∧ (∀ f ∈ es, e.start + e.size < f.start) ∧ Gapped es := by
  constructor
  · intro g
    obtain ⟨h₁, h₂⟩ := List.pairwise_cons.mp g.gap
    exact ⟨g.nonempty e List.mem_cons_self, h₁, fun f hf => g.nonempty f (List.mem_cons_of_mem e hf), h₂⟩
  · rintro ⟨h₁, h₂, g⟩
    exact ⟨List.forall_mem_cons.mpr ⟨h₁, g.nonempty⟩, List.pairwise_cons.mpr ⟨h₂, g.gap⟩⟩

/-- What follows a run begins behind it. -/
theorem lt_of_covers (h : ∀ f ∈ es, lo < f.start) (hx : Covers es x) : lo < x := by
  obtain ⟨f, hf, hle, -⟩ := hx
  exact Nat.lt_of_lt_of_le (h f hf) hle

/-- A later run begins behind an earlier one. -/
theorem starts_nodup (g : Gapped es) : (es.map Extent.start).Nodup := by
  rw [List.Nodup, List.pairwise_map]
  exact g.gap.imp fun h => by omega

/-- Where the runs before one and behind it are. -/
theorem around (g : Gapped (es ++ e :: es')) :
    (∀ f ∈ es, f.start + f.size < e.start) ∧ ∀ f ∈ es', e.start + e.size < f.start := by
  obtain ⟨-, hbehind, hfront⟩ := List.pairwise_append.mp g.gap
  exact ⟨fun f hf => hfront f hf e List.mem_cons_self, (List.pairwise_cons.mp hbehind).1⟩

end Gapped

/-! ## Taking -/

/-- There is none, exactly if every run is too small. -/
theorem takeFirst_none_iff : takeFirst k es = none ↔ ∀ e ∈ es, e.size < k := by
  induction es with
  | nil => exact iff_of_true rfl nofun
  | cons e es ih =>
    rw [List.forall_mem_cons, takeFirst]
    split
    next h => exact iff_of_false nofun fun hall => absurd hall.1 (by omega)
    next h =>
      split
      next heq => exact iff_of_false nofun fun hall => absurd hall.1 (by omega)
      next hne =>
        rw [Option.map_eq_none_iff, ih]
        exact (and_iff_right (by omega)).symm

/-- What is left lies within what was there. -/
theorem takeFirst_within (h : takeFirst k es = some (b, es')) : ∀ f ∈ es', ∃ e ∈ es, e.start ≤ f.start := by
  induction es generalizing es' with
  | nil => exact nomatch h
  | cons e es ih =>
    rw [takeFirst] at h
    split at h
    next =>
      obtain ⟨-, rfl⟩ := Prod.mk.inj (Option.some.inj h)
      refine List.forall_mem_cons.mpr ⟨⟨e, List.mem_cons_self, Nat.le_add_right _ _⟩, fun f hf => ?_⟩
      exact ⟨f, List.mem_cons_of_mem e hf, Nat.le_refl _⟩
    next =>
      split at h
      next =>
        obtain ⟨-, rfl⟩ := Prod.mk.inj (Option.some.inj h)
        exact fun f hf => ⟨f, List.mem_cons_of_mem e hf, Nat.le_refl _⟩
      next =>
        obtain ⟨r, hr, heq⟩ := Option.map_eq_some_iff.mp h
        obtain ⟨rfl, rfl⟩ := Prod.mk.inj heq
        refine List.forall_mem_cons.mpr ⟨⟨e, List.mem_cons_self, Nat.le_refl _⟩, fun f hf => ?_⟩
        obtain ⟨e', he', hle⟩ := ih hr f hf
        exact ⟨e', List.mem_cons_of_mem e he', hle⟩

/-- **Taking `k` addresses** from a run. -/
theorem takeFirst_spec (g : Gapped es) (hk : 0 < k) (h : takeFirst k es = some (b, es')) :
    Gapped es' ∧ (∀ x, Covers es x ↔ Has ⟨b, k⟩ x ∨ Covers es' x) ∧ ∀ x, Has ⟨b, k⟩ x → ¬Covers es' x := by
  induction es generalizing es' with
  | nil => exact nomatch h
  | cons e es ih =>
    obtain ⟨hpos, hgap, g'⟩ := Gapped.cons_iff.mp g
    rw [takeFirst] at h
    split at h
    next hlt =>
      obtain ⟨rfl, rfl⟩ := Prod.mk.inj (Option.some.inj h)
      have hsum : e.start + k + (e.size - k) = e.start + e.size := by omega
      refine ⟨Gapped.cons_iff.mpr ⟨Nat.sub_pos_of_lt hlt, fun f hf => ?_, g'⟩, fun x => ?_, fun x hx hc => ?_⟩
      · show e.start + k + (e.size - k) < f.start
        rw [hsum]
        exact hgap f hf
      · rw [covers_cons, covers_cons, ← or_assoc, ← has_join, Nat.add_sub_cancel' (Nat.le_of_lt hlt)]
      · unfold Has at hx
        rcases covers_cons.mp hc with ⟨hle, -⟩ | hc
        · dsimp only at hx hle
          omega
        · have := Gapped.lt_of_covers hgap hc
          dsimp only at hx
          omega
    next hnlt =>
      split at h
      next heq =>
        obtain ⟨rfl, rfl⟩ := Prod.mk.inj (Option.some.inj h)
        subst heq
        refine ⟨g', fun x => covers_cons, fun x hx hc => ?_⟩
        have := Gapped.lt_of_covers hgap hc
        unfold Has at hx
        dsimp only at hx
        omega
      next hne =>
        obtain ⟨r, hr, heq⟩ := Option.map_eq_some_iff.mp h
        obtain ⟨rfl, rfl⟩ := Prod.mk.inj heq
        obtain ⟨g'', hcov, hfresh⟩ := ih g' hr
        refine ⟨Gapped.cons_iff.mpr ⟨hpos, fun f hf => ?_, g''⟩, fun x => ?_, fun x hx hc => ?_⟩
        · obtain ⟨e', he', hle⟩ := takeFirst_within hr f hf
          exact Nat.lt_of_lt_of_le (hgap e' he') hle
        · rw [covers_cons, covers_cons, hcov, or_left_comm]
        · rcases covers_cons.mp hc with hc | hc
          · have := Gapped.lt_of_covers hgap ((hcov x).mpr (Or.inl hx))
            unfold Has at hc
            omega
          · exact hfresh x hx hc

/-! ## Putting back -/

/-- No run begins in front of those that were there and the new one. -/
theorem lt_of_mem_insert (h : ∀ f ∈ es, lo < f.start) (hn : lo < n.start) : ∀ f ∈ insert n es, lo < f.start := by
  induction es with
  | nil => exact List.forall_mem_cons.mpr ⟨hn, nofun⟩
  | cons b es ih =>
    obtain ⟨hb, hes⟩ := List.forall_mem_cons.mp h
    rw [insert]
    split
    next =>
      cases es with
      | nil => exact List.forall_mem_cons.mpr ⟨hb, nofun⟩
      | cons c cs =>
        rw [extend]
        split
        next => exact List.forall_mem_cons.mpr ⟨hb, (List.forall_mem_cons.mp hes).2⟩
        next => exact List.forall_mem_cons.mpr ⟨hb, hes⟩
    next =>
      split
      next => exact List.forall_mem_cons.mpr ⟨hn, hes⟩
      next =>
        split
        next => exact List.forall_mem_cons.mpr ⟨hn, h⟩
        next => exact List.forall_mem_cons.mpr ⟨hb, ih hes⟩

/-- **Putting back** a run that overlaps none. -/
theorem insert_spec (g : Gapped es) (hn : 0 < n.size) (hapart : ∀ e ∈ es, Apart e n) :
    Gapped (insert n es) ∧ ∀ x, Covers (insert n es) x ↔ n.Has x ∨ Covers es x := by
  induction es with
  | nil => exact ⟨Gapped.cons_iff.mpr ⟨hn, nofun, .nil⟩, fun x => covers_cons⟩
  | cons b es ih =>
    obtain ⟨hpos, hgap, g'⟩ := Gapped.cons_iff.mp g
    obtain ⟨hb, hes⟩ := List.forall_mem_cons.mp hapart
    rw [insert]
    split
    next htouch =>
      -- the run before is made longer
      have hjoin : ∀ x, Has ⟨b.start, b.size + n.size⟩ x ↔ n.Has x ∨ b.Has x := by
        intro x
        rw [has_join, htouch, or_comm]
      cases es with
      | nil =>
        rw [extend]
        refine ⟨Gapped.cons_iff.mpr ⟨Nat.add_pos_left hpos _, nofun, .nil⟩, fun x => ?_⟩
        rw [covers_cons, covers_cons, hjoin, or_assoc]
      | cons c cs =>
        obtain ⟨hc, hcs⟩ := List.forall_mem_cons.mp hgap
        obtain ⟨hcpos, hcgap, gcs⟩ := Gapped.cons_iff.mp g'
        have hapc := hes c List.mem_cons_self
        unfold Apart at hapc
        rw [extend]
        split
        next htouch' =>
          -- and touches the next one
          refine ⟨Gapped.cons_iff.mpr ⟨by show 0 < b.size + n.size + c.size; omega, fun f hf => ?_, gcs⟩, fun x => ?_⟩
          · have := hcgap f hf
            show b.start + (b.size + n.size + c.size) < f.start
            omega
          · rw [covers_cons, covers_cons, covers_cons, has_join, hjoin, htouch', or_assoc, or_assoc]
        next hne =>
          refine ⟨Gapped.cons_iff.mpr ⟨Nat.add_pos_left hpos _, fun f hf => ?_, g'⟩, fun x => ?_⟩
          · show b.start + (b.size + n.size) < f.start
            have hle : c.start ≤ f.start := by
              rcases List.mem_cons.mp hf with rfl | hf
              · exact Nat.le_refl _
              · have := hcgap f hf
                omega
            omega
          · rw [covers_cons, covers_cons (e := b), hjoin, or_assoc]
    next hnot =>
      split
      next htouch =>
        -- the run behind is made longer
        refine ⟨Gapped.cons_iff.mpr ⟨Nat.add_pos_left hpos _, fun f hf => ?_, g'⟩, fun x => ?_⟩
        · have := hgap f hf
          show n.start + (b.size + n.size) < f.start
          omega
        · rw [covers_cons, covers_cons, Nat.add_comm b.size, has_join, ← htouch, or_assoc]
      next hnot' =>
        split
        next hfront =>
          refine ⟨Gapped.cons_iff.mpr ⟨hn, List.forall_mem_cons.mpr ⟨hfront, fun f hf => ?_⟩, g⟩, fun x => covers_cons⟩
          have := hgap f hf
          omega
        next hbehind =>
          have hlt : b.start + b.size < n.start := by
            unfold Apart at hb
            omega
          obtain ⟨g'', hcov⟩ := ih g' hes
          refine ⟨Gapped.cons_iff.mpr ⟨hpos, lt_of_mem_insert hgap hlt, g''⟩, fun x => ?_⟩
          rw [covers_cons, covers_cons, hcov, or_left_comm]

end CoreLink.Lib.Extent
