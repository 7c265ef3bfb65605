/-
# `CoreLink.Lib.Extent` — intervals of a region that do not overlap.

An extent is a start and a size. `Packed lo hi es` says that the extents `es` lie in the region from `lo` to `hi` and that
no two of them overlap. The list stands for all that a region is divided into, in no particular order. What is not covered is
nobody's.
-/
import Mathlib.Order.Interval.Finset.Nat
import Mathlib.Order.CompletePartialOrder
import Mathlib.Algebra.Order.Ring.Nat

namespace CoreLink.Lib

/-- The interval of `size` addresses from `start` on. -/
structure Extent where
  start : Nat
  size : Nat

namespace Extent

/-- The two do not overlap: one ends in front of the other. -/
def Apart (e f : Extent) : Prop := e.start + e.size ≤ f.start ∨ f.start + f.size ≤ e.start

theorem Apart.symm {e f : Extent} (h : Apart e f) : Apart f e := Or.symm h

/-- `f` lies within `e`. -/
def Within (f e : Extent) : Prop := e.start ≤ f.start ∧ f.start + f.size ≤ e.start + e.size

theorem Apart.within {e f g : Extent} (h : Apart e g) (hf : Within f e) : Apart f g := by
  unfold Apart Within at *
  omega

/-- **The extents lie in the region, and are apart.** None is empty, so that apart means different. -/
structure Packed (lo hi : Nat) (es : List Extent) : Prop where
  inside : ∀ e ∈ es, lo ≤ e.start ∧ e.start + e.size ≤ hi ∧ 0 < e.size
  apart : es.Pairwise Apart

namespace Packed

variable {lo hi b m n : Nat} {es fs : List Extent} {e f : Extent}

/-- The order does not matter. -/
theorem perm (p : Packed lo hi es) (h : es.Perm fs) : Packed lo hi fs :=
  ⟨fun e he => p.inside e (h.mem_iff.mpr he), (h.pairwise_iff fun h => Apart.symm h).mp p.apart⟩

theorem cons_iff : Packed lo hi (e :: es) ↔
    (lo ≤ e.start ∧ e.start + e.size ≤ hi ∧ 0 < e.size) ∧ (∀ f ∈ es, Apart e f) ∧ Packed lo hi es := by
  constructor
  · intro p
    obtain ⟨h1, h2⟩ := List.pairwise_cons.mp p.apart
    exact ⟨p.inside e List.mem_cons_self, h1, fun f hf => p.inside f (List.mem_cons_of_mem e hf), h2⟩
  · rintro ⟨h1, h2, p⟩
    refine ⟨fun f hf => ?_, List.pairwise_cons.mpr ⟨h2, p.apart⟩⟩
    rcases List.mem_cons.mp hf with rfl | hf
    · exact h1
    · exact p.inside f hf

/-- No two of the list begin at the same address. -/
theorem starts_nodup (p : Packed lo hi es) : (es.map Extent.start).Nodup := by
  rw [List.Nodup, List.pairwise_map]
  refine p.apart.imp_of_mem fun he hf hapart heq => ?_
  have hpos := (p.inside _ he).2.2
  have hpos' := (p.inside _ hf).2.2
  unfold Apart at hapart
  omega

/-- Two of the list are the same one, or apart. -/
theorem apart_of_mem (p : Packed lo hi es) (he : e ∈ es) (hf : f ∈ es) : e = f ∨ Apart e f := by
  induction es with
  | nil => exact absurd he List.not_mem_nil
  | cons g es ih =>
    obtain ⟨-, h2, h3⟩ := cons_iff.mp p
    rcases List.mem_cons.mp he with he | he
    · rcases List.mem_cons.mp hf with hf | hf
      · exact .inl (he.trans hf.symm)
      · exact .inr (he ▸ h2 f hf)
    · rcases List.mem_cons.mp hf with hf | hf
      · exact .inr (hf ▸ (h2 e he).symm)
      · exact ih h3 he hf

end Packed

end Extent

end CoreLink.Lib
