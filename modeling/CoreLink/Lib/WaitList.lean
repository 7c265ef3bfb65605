/-
# `CoreLink.Lib.WaitList` — lists of the parties that wait at an object.

An object keeps the parties that wait for it on a list, and each party has a position of its own that says whether it
waits. `Waits p pos ts` says that both agree: `ts` lists, each once, exactly the parties whose position satisfies `p`.
A party goes to sleep, is taken off the list, or changes its position without a change of what it waits for.
-/
import Mathlib.Data.List.Nodup

namespace CoreLink.Lib

variable {T P : Type*}

/-- `ts` are the parties whose position satisfies `p`, each once. -/
structure Waits (p : P → Prop) (pos : T → P) (ts : List T) : Prop where
  nodup : ts.Nodup
  mem_iff : ∀ t, t ∈ ts ↔ p (pos t)

namespace Waits

variable {p : P → Prop} {pos : T → P} {ts ts' : List T} {t : T} {q : P}

/-- Nobody waits. -/
theorem init (h : ∀ t, ¬ p (pos t)) : Waits p pos [] := ⟨List.nodup_nil, fun t => by simpa using h t⟩

variable [DecidableEq T]

/-- A party goes to sleep, anywhere on the list. -/
theorem suspend (h : Waits p pos ts) (ht : ¬ p (pos t)) (hq : p q) (hp : ts'.Perm (t :: ts)) :
    Waits p (Function.update pos t q) ts' := by
  have hnot : t ∉ ts := fun hmem => ht ((h.mem_iff t).mp hmem)
  refine ⟨hp.nodup_iff.mpr (List.nodup_cons.mpr ⟨hnot, h.nodup⟩), fun u => ?_⟩
  rw [hp.mem_iff, List.mem_cons]
  by_cases hu : u = t
  · subst hu
    simpa using hq
  · rw [Function.update_of_ne hu, h.mem_iff u]
    exact ⟨fun hm => hm.resolve_left hu, .inr⟩

/-- A party is taken off the list. -/
theorem wake (h : Waits p pos ts) (hq : ¬ p q) : Waits p (Function.update pos t q) (ts.erase t) := by
  refine ⟨h.nodup.erase t, fun u => ?_⟩
  rw [h.nodup.mem_erase_iff]
  by_cases hu : u = t
  · subst hu
    simpa using hq
  · rw [Function.update_of_ne hu, h.mem_iff u]
    exact ⟨And.right, fun hp => ⟨hu, hp⟩⟩

/-- A party changes its position, and waits after it as it did before. -/
theorem update (h : Waits p pos ts) (hq : p q ↔ p (pos t)) : Waits p (Function.update pos t q) ts := by
  refine ⟨h.nodup, fun u => ?_⟩
  by_cases hu : u = t
  · subst hu
    rw [Function.update_self, hq]
    exact h.mem_iff u
  · rw [Function.update_of_ne hu]
    exact h.mem_iff u

end Waits

end CoreLink.Lib
