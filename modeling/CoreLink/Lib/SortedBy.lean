/-
# `CoreLink.Lib.SortedBy` — lists that are sorted by a key of their members.

A queue keeps its members in the order of a key, and the key of a member is read afresh each time: a list is sorted or
not under a key function. A member is put in its place (`insert_iff`), leaves (`sublist`), or its key changes while it
stays where it is (`rekey_iff`): then it is enough to look at its neighbours.
-/
import Mathlib.Data.List.Pairwise
import Mathlib.Order.CompletePartialOrder

namespace CoreLink.Lib

variable {T K : Type*} [LinearOrder K]

/-- The keys of the members increase. -/
def SortedBy (key : T → K) (ts : List T) : Prop := ts.Pairwise fun a b => key a < key b

namespace SortedBy

variable {key key' : T → K} {ts as bs : List T} {t : T}

theorem congr (h : ∀ x ∈ ts, key' x = key x) : SortedBy key' ts ↔ SortedBy key ts := by
  refine List.Pairwise.iff_of_mem fun {a b} ha hb => ?_
  rw [h a ha, h b hb]

theorem sublist (h : SortedBy key ts) (hs : as.Sublist ts) : SortedBy key as := List.Pairwise.sublist hs h

/-- The first member has the least key. -/
theorem head_le (h : SortedBy key (t :: ts)) : ∀ u ∈ t :: ts, key t ≤ key u := by
  intro u hu
  rcases List.mem_cons.mp hu with rfl | hu
  · exact le_refl _
  · exact le_of_lt (List.rel_of_pairwise_cons h hu)

/-- What is above the last of the keys is above all of them. -/
theorem last_lt {k : K} (h : SortedBy key as) (hk : ∀ a ∈ as.getLast?, key a < k) : ∀ a ∈ as, key a < k := by
  intro a ha
  obtain ⟨cs, c, rfl⟩ : ∃ cs c, as = cs ++ [c] := ⟨_, _, (List.dropLast_concat_getLast (List.ne_nil_of_mem ha)).symm⟩
  have hc : key c < k := hk c (by simp)
  rcases List.mem_append.mp ha with ha | ha
  · exact lt_trans ((List.pairwise_append.mp h).2.2 a ha c (List.mem_singleton_self c)) hc
  · rw [List.mem_singleton.mp ha]
    exact hc

/-- What is below the first of the keys is below all of them. -/
theorem lt_head {k : K} (h : SortedBy key bs) (hk : ∀ b ∈ bs.head?, k < key b) : ∀ b ∈ bs, k < key b := by
  cases bs with
  | nil => simp
  | cons c cs => exact fun b hb => lt_of_lt_of_le (hk c rfl) (h.head_le b hb)

/-- **Insertion** behind the smaller keys and in front of the larger ones. -/
theorem insert_iff (has : ∀ a ∈ as, key a < key t) (hbs : ∀ b ∈ bs.head?, key t < key b) :
    SortedBy key (as ++ t :: bs) ↔ SortedBy key (as ++ bs) := by
  refine ⟨fun h => h.sublist ((List.sublist_cons_self t bs).append_left as), fun h => ?_⟩
  obtain ⟨h₁, h₂, h₁₂⟩ := List.pairwise_append.mp h
  refine List.pairwise_append.mpr ⟨h₁, List.pairwise_cons.mpr ⟨lt_head h₂ hbs, h₂⟩, fun a ha b hb => ?_⟩
  rcases List.mem_cons.mp hb with rfl | hb
  · exact has a ha
  · exact h₁₂ a ha b hb

/-- **A new key** for a member keeps the list sorted exactly when it lies between those of the neighbours. -/
theorem rekey_iff (h : SortedBy key (as ++ t :: bs)) (has : ∀ a ∈ as, key' a = key a) (hbs : ∀ b ∈ bs, key' b = key b) :
    SortedBy key' (as ++ t :: bs) ↔
      (∀ a ∈ as.getLast?, key a < key' t) ∧ ∀ b ∈ bs.head?, key' t < key b := by
  have hlast : ∀ a ∈ as.getLast?, key' a = key a := fun a ha => has a (List.mem_of_mem_getLast? ha)
  have hhead : ∀ b ∈ bs.head?, key' b = key b := fun b hb => hbs b (List.mem_of_mem_head? hb)
  constructor
  · intro h'
    obtain ⟨-, h₂, h₁₂⟩ := List.pairwise_append.mp h'
    refine ⟨fun a ha => ?_, fun b hb => ?_⟩
    · rw [← hlast a ha]
      exact h₁₂ a (List.mem_of_mem_getLast? ha) t List.mem_cons_self
    · rw [← hhead b hb]
      exact List.rel_of_pairwise_cons h₂ (List.mem_of_mem_head? hb)
  · rintro ⟨hl, hr⟩
    have hrest : SortedBy key (as ++ bs) := h.sublist ((List.sublist_cons_self t bs).append_left as)
    have hrest' : SortedBy key' (as ++ bs) := by
      refine (congr fun x hx => ?_).mpr hrest
      exact (List.mem_append.mp hx).elim (has x) (hbs x)
    have hbefore : SortedBy key' as := hrest'.sublist (List.sublist_append_left as bs)
    refine (insert_iff (hbefore.last_lt fun a ha => ?_) fun b hb => ?_).mpr hrest'
    · rw [hlast a ha]
      exact hl a ha
    · rw [hhead b hb]
      exact hr b hb

end SortedBy

end CoreLink.Lib
