/-
# `CoreLink.Lib.Fuel` — loops that are given fuel.

A loop that need not end is a function of the number of rounds that it may take, and gives nothing when they are used up. It
returns `r` when some number of rounds is enough for `r`, and nothing else comes out for any other number. The rules follow the
first round: it may be the last one, or hand over to the rest of the loop.
-/
import Mathlib.Tactic.TypeStar

namespace CoreLink.Lib

variable {α β : Type*}

/-- A function of its fuel returns `r`. -/
structure Returns (f : Nat → Option α) (r : α) : Prop where
  unique : ∀ {fuel r'}, f fuel = some r' → r' = r
  ends : ∃ fuel, f fuel = some r

namespace Returns

variable {f g : Nat → Option α} {r r' : α}

/-- The first round is the last one. -/
theorem now (hzero : f 0 = none) (hsucc : ∀ fuel, f (fuel + 1) = some r) : Returns f r := by
  constructor
  case unique =>
    intro fuel r' h
    cases fuel with
    | zero => exact nomatch hzero.symm.trans h
    | succ fuel => exact (Option.some.inj ((hsucc fuel).symm.trans h)).symm
  case ends => exact ⟨1, hsucc 0⟩

/-- The first round hands over. -/
theorem later (hzero : f 0 = none) (hsucc : ∀ fuel, f (fuel + 1) = g fuel) (h : Returns g r) : Returns f r := by
  constructor
  case unique =>
    intro fuel r' hf
    cases fuel with
    | zero => exact nomatch hzero.symm.trans hf
    | succ fuel => exact h.unique ((hsucc fuel).symm.trans hf)
  case ends =>
    obtain ⟨fuel, hg⟩ := h.ends
    exact ⟨fuel + 1, (hsucc fuel).trans hg⟩

/-- A function without a loop. -/
theorem of_const (h : ∀ fuel, f fuel = some r) : Returns f r :=
  ⟨fun {fuel _} hf => (Option.some.inj ((h fuel).symm.trans hf)).symm, ⟨0, h 0⟩⟩

/-- What is done with what is returned. -/
theorem map {f : Nat → Option α} {r : α} (h : Returns f r) (k : α → β) : Returns (fun fuel => (f fuel).map k) (k r) := by
  constructor
  case unique =>
    intro fuel r' hf
    obtain ⟨a, ha, rfl⟩ := Option.map_eq_some_iff.mp hf
    rw [h.unique ha]
  case ends =>
    obtain ⟨fuel, hf⟩ := h.ends
    exact ⟨fuel, by rw [hf]; rfl⟩

end Returns

end CoreLink.Lib
