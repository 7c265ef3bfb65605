/-
# `CoreLink.Lib.PathPrefix` — one absolute path in front of another.

A path that is written from names has a separator in front of each of them. So it is a prefix of another one at a
boundary of components, byte by byte, exactly when its names are a prefix of the other one's names; and the bytes that are
left are the path that is written from the names that are left.
-/
import CoreLink.Lib.Paths

namespace CoreLink.Lib

namespace Paths

variable {c d s t : List Char} {cs ds : List (List Char)}

/-- The names, each with a separator in front of it. -/
def slashed (names : List (List Char)) : List Char := names.flatMap fun c => '/' :: c

@[simp] theorem slashed_nil : slashed [] = [] := rfl

@[simp] theorem slashed_cons (c : List Char) (names : List (List Char)) : slashed (c :: names) = '/' :: c ++ slashed names :=
  rfl

theorem slashed_append (cs ds : List (List Char)) : slashed (cs ++ ds) = slashed cs ++ slashed ds :=
  List.flatMap_append

theorem absolute_nil : absolute [] = ['/'] := rfl

/-- Apart from the root, an absolute path is its names with separators in front of them. -/
theorem absolute_eq_slashed (h : cs ≠ []) : absolute cs = slashed cs := by
  induction cs with
  | nil => exact absurd rfl h
  | cons c cs ih =>
    cases cs with
    | nil =>
      rw [slashed_cons, slashed_nil, List.append_nil]
      exact congrArg ('/' :: ·) List.intercalate_singleton
    | cons d ds =>
      show '/' :: List.intercalate ['/'] (c :: d :: ds) = '/' :: c ++ slashed (d :: ds)
      rw [← ih (List.cons_ne_nil d ds), List.intercalate_cons_cons, List.cons_append, List.append_assoc]
      rfl

theorem absolute_ne_nil (cs : List (List Char)) : absolute cs ≠ [] := List.cons_ne_nil _ _

/-- What follows a component is nothing, or begins with a separator. -/
def Boundary (t : List Char) : Prop := t = [] ∨ t.head? = some '/'

theorem boundary_slashed (names : List (List Char)) : Boundary (slashed names) := by
  cases names with
  | nil => exact Or.inl rfl
  | cons c names => exact Or.inr rfl

/-- A name is told by what is in front of the next boundary. -/
theorem takeWhile_boundary (hc : '/' ∉ c) (ht : Boundary t) : (c ++ t).takeWhile (· ≠ '/') = c := by
  have hname : ∀ x ∈ c, decide (x ≠ '/') = true := fun x hx => decide_eq_true fun heq => hc (heq ▸ hx)
  rw [List.takeWhile_append_of_pos hname]
  rcases ht with rfl | hhead
  · exact List.append_nil c
  · obtain ⟨t', rfl⟩ := List.head?_eq_some_iff.mp hhead
    rw [List.takeWhile_cons_of_neg (by decide), List.append_nil]

theorem name_unique (hc : '/' ∉ c) (hd : '/' ∉ d) (hs : Boundary s) (ht : Boundary t) (heq : c ++ s = d ++ t) :
    c = d ∧ s = t := by
  have hname : c = d := by rw [← takeWhile_boundary hc hs, heq, takeWhile_boundary hd ht]
  subst hname
  exact ⟨rfl, List.append_cancel_left heq⟩

/-- **A prefix at a boundary of components** is a prefix of names. -/
theorem slashed_prefix_iff (hcs : ∀ c ∈ cs, IsName c) (hds : ∀ d ∈ ds, IsName d) :
    (∃ t, slashed cs ++ t = slashed ds ∧ Boundary t) ↔ cs <+: ds := by
  induction cs generalizing ds with
  | nil => exact iff_of_true ⟨slashed ds, rfl, boundary_slashed ds⟩ List.nil_prefix
  | cons c cs ih =>
    obtain ⟨hc, hcs⟩ := List.forall_mem_cons.mp hcs
    cases ds with
    | nil =>
      refine iff_of_false ?_ fun hp => List.cons_ne_nil c cs (List.prefix_nil.mp hp)
      rintro ⟨t, ht, -⟩
      exact List.cons_ne_nil _ _ ht
    | cons d ds =>
      obtain ⟨hd, hds⟩ := List.forall_mem_cons.mp hds
      rw [List.cons_prefix_cons, ← ih hcs hds]
      constructor
      · rintro ⟨t, heq, hb⟩
        have hrest : Boundary (slashed cs ++ t) := by
          rcases boundary_slashed cs with hnil | hhead
          · rwa [hnil, List.nil_append]
          · obtain ⟨u, hu⟩ := List.head?_eq_some_iff.mp hhead
            rw [hu]
            exact Or.inr rfl
        rw [slashed_cons, slashed_cons, List.append_assoc] at heq
        obtain ⟨rfl, htail⟩ :=
          name_unique hc.noSep hd.noSep hrest (boundary_slashed ds) (List.cons_inj_right '/' |>.mp heq)
        exact ⟨rfl, t, htail, hb⟩
      · rintro ⟨rfl, t, heq, hb⟩
        refine ⟨t, ?_, hb⟩
        rw [slashed_cons, slashed_cons, List.append_assoc, heq]

theorem slashed_inj (hcs : ∀ c ∈ cs, IsName c) (hds : ∀ d ∈ ds, IsName d) (h : slashed cs = slashed ds) : cs = ds := by
  have hle : cs <+: ds := (slashed_prefix_iff hcs hds).mp ⟨[], (List.append_nil _).trans h, Or.inl rfl⟩
  have hge : ds <+: cs := (slashed_prefix_iff hds hcs).mp ⟨[], (List.append_nil _).trans h.symm, Or.inl rfl⟩
  exact hle.eq_of_length (Nat.le_antisymm hle.length_le hge.length_le)

theorem absolute_inj (hcs : ∀ c ∈ cs, IsName c) (hds : ∀ d ∈ ds, IsName d) (h : absolute cs = absolute ds) : cs = ds := by
  have hroot : ∀ {es : List (List Char)}, es ≠ [] → (∀ e ∈ es, IsName e) → absolute [] ≠ absolute es := by
    intro es hne hes heq
    rw [absolute_nil, absolute_eq_slashed hne] at heq
    obtain ⟨e, es, rfl⟩ := List.exists_cons_of_ne_nil hne
    obtain ⟨hnil, -⟩ := List.append_eq_nil_iff.mp (List.cons_inj_right '/' |>.mp heq).symm
    exact (hes e List.mem_cons_self).nonempty hnil
  by_cases hc : cs = []
  · subst hc
    by_cases hd : ds = []
    · exact hd.symm
    · exact absurd h (hroot hd hds)
  · by_cases hd : ds = []
    · subst hd
      exact absurd h.symm (hroot hc hcs)
    · rw [absolute_eq_slashed hc, absolute_eq_slashed hd] at h
      exact slashed_inj hcs hds h

/-- The names of a path, and what follows behind a boundary. -/
theorem components_slashed_append (hds : ∀ d ∈ ds, IsName d) (ht : Boundary t) :
    components (slashed ds ++ t) = ds ++ components t := by
  induction ds with
  | nil => rfl
  | cons d ds ih =>
    obtain ⟨hd, hds⟩ := List.forall_mem_cons.mp hds
    have hrest : components (d ++ (slashed ds ++ t)) = d :: components (slashed ds ++ t) := by
      have hb : Boundary (slashed ds ++ t) := by
        rcases boundary_slashed ds with hnil | hhead
        · rwa [hnil, List.nil_append]
        · obtain ⟨u, hu⟩ := List.head?_eq_some_iff.mp hhead
          rw [hu]
          exact Or.inr rfl
      rcases hb with hnil | hhead
      · rw [hnil, List.append_nil, components_name hd]
        rfl
      · obtain ⟨u, hu⟩ := List.head?_eq_some_iff.mp hhead
        rw [hu, components_append hd.noSep, components_name hd, components_sep]
        rfl
    rw [slashed_cons, List.cons_append, List.cons_append, List.append_assoc, components_sep, hrest, ih hds]
    rfl

end Paths

end CoreLink.Lib
