/-
# `CoreLink.Lib.Paths` — absolute paths as lists of names.

A path is split at its separators. Empty components and `.` say nothing, and `..` goes up one level, or nowhere from the
root. What is left is the list of names of the file, and every file has one path that is written from its names: the
normalized one.
-/
import Mathlib.Data.List.Basic

namespace CoreLink.Lib

namespace Paths

/-- The components of a path that say something. -/
def components (path : List Char) : List (List Char) := (path.splitOn '/').filter fun c => c ≠ [] ∧ c ≠ ['.']

/-- The component that goes up. -/
def up : List Char := ['.', '.']

/-- What can be a name. -/
structure IsName (c : List Char) : Prop where
  nonempty : c ≠ []
  noSep : '/' ∉ c
  notDot : c ≠ ['.']
  notUp : c ≠ up

/-- One component, with the names in reverse order. -/
def push (names : List (List Char)) (c : List Char) : List (List Char) := if c = up then names.tail else c :: names

/-- The names of the file that a path leads to. -/
def resolve (path : List Char) : List (List Char) := ((components path).foldl push []).reverse

/-- The names with separators between them. -/
def relative (names : List (List Char)) : List Char := ['/'].intercalate names

/-- The path that is written from names. -/
def absolute (names : List (List Char)) : List Char := '/' :: relative names

def normalize (path : List Char) : List Char := absolute (resolve path)

/-! ## Components -/

/-- A component in front of a separator. -/
theorem components_append {c : List Char} (h : '/' ∉ c) (path : List Char) :
    components (c ++ '/' :: path) = components c ++ components path := by
  unfold components
  rw [List.splitOn_append_cons_self_of_not_mem h, List.splitOn_eq_singleton h, ← List.filter_append,
    List.singleton_append]

theorem components_of_not_mem {c : List Char} (h : '/' ∉ c) :
    components c = [c].filter fun c => c ≠ [] ∧ c ≠ ['.'] := by
  unfold components
  rw [List.splitOn_eq_singleton h]

theorem components_dot : components ['.'] = [] := rfl

theorem components_up : components up = [up] := rfl

theorem components_sep (path : List Char) : components ('/' :: path) = components path :=
  components_append List.not_mem_nil path

/-- Separators at the beginning say nothing. -/
theorem components_dropWhile (path : List Char) : components (path.dropWhile (· = '/')) = components path := by
  induction path with
  | nil => rfl
  | cons c path ih =>
    by_cases hc : c = '/'
    · subst hc
      show components (path.dropWhile (· = '/')) = _
      rw [ih, components_sep]
    · rw [List.dropWhile_cons_of_neg (by rw [decide_eq_false hc]; exact Bool.false_ne_true)]

/-- There is no separator in a component. -/
theorem not_mem_of_mem_splitOn {c path : List Char} (h : c ∈ path.splitOn '/') : '/' ∉ c := by
  induction path generalizing c with
  | nil =>
    rw [List.mem_singleton.mp h]
    exact List.not_mem_nil
  | cons x path ih =>
    rw [List.splitOn_cons_eq_if_modifyHead] at h
    split at h
    next =>
      rcases List.mem_cons.mp h with rfl | hc
      · exact List.not_mem_nil
      · exact ih hc
    next hx =>
      obtain ⟨d, ds, hds⟩ := List.exists_cons_of_ne_nil (List.splitOn_ne_nil '/' path)
      rw [hds] at h ih
      rcases List.mem_cons.mp h with rfl | hc
      · rw [List.mem_cons, not_or]
        exact ⟨fun heq => hx (beq_iff_eq.mpr heq.symm), ih List.mem_cons_self⟩
      · exact ih (List.mem_cons_of_mem d hc)

/-- A component is a name, or goes up. -/
theorem isName_of_mem {c path : List Char} (h : c ∈ components path) (hup : c ≠ up) : IsName c := by
  obtain ⟨hmem, hc⟩ := List.mem_filter.mp h
  obtain ⟨hne, hdot⟩ := of_decide_eq_true hc
  exact ⟨hne, not_mem_of_mem_splitOn hmem, hdot, hup⟩

theorem components_name {c : List Char} (h : IsName c) : components c = [c] := by
  rw [components_of_not_mem h.noSep]
  exact List.filter_cons_of_pos (decide_eq_true ⟨h.nonempty, h.notDot⟩)

/-- The components of a path that is written from names. -/
theorem components_relative {names : List (List Char)} (h : ∀ c ∈ names, IsName c) :
    components (relative names) = names := by
  by_cases hnil : names = []
  · subst hnil
    rfl
  · unfold components relative
    rw [List.splitOn_intercalate '/' (fun c hc => (h c hc).noSep) hnil, List.filter_eq_self]
    exact fun c hc => decide_eq_true ⟨(h c hc).nonempty, (h c hc).notDot⟩

/-- Names are pushed one after the other. -/
theorem foldl_push {names : List (List Char)} (h : ∀ c ∈ names, IsName c) (stack : List (List Char)) :
    names.foldl push stack = names.reverse ++ stack := by
  induction names generalizing stack with
  | nil => rfl
  | cons c names ih =>
    have hc : push stack c = c :: stack := if_neg (h c List.mem_cons_self).notUp
    rw [List.foldl_cons, hc, ih fun c hm => h c (List.mem_cons_of_mem _ hm), List.reverse_cons, List.append_assoc]
    rfl

/-- What is left when components are resolved are names. -/
theorem names_foldl_push {cs : List (List Char)} (hcs : ∀ c ∈ cs, c ≠ up → IsName c) {names : List (List Char)}
    (hnames : ∀ c ∈ names, IsName c) : ∀ c ∈ cs.foldl push names, IsName c := by
  induction cs generalizing names with
  | nil => exact hnames
  | cons c cs ih =>
    obtain ⟨hc, hcs'⟩ := List.forall_mem_cons.mp hcs
    apply ih hcs'
    unfold push
    split
    next => exact fun d hd => hnames d (List.mem_of_mem_tail hd)
    next hup => exact List.forall_mem_cons.mpr ⟨hc hup, hnames⟩

theorem isName_of_mem_resolve {path c : List Char} (h : c ∈ resolve path) : IsName c :=
  names_foldl_push (fun _ hd hup => isName_of_mem hd hup) (List.forall_mem_nil _) c (List.mem_reverse.mp h)

/-- **A path that is written from names** is normalized. -/
theorem normalize_absolute {names : List (List Char)} (h : ∀ c ∈ names, IsName c) :
    normalize (absolute names) = absolute names := by
  unfold normalize resolve
  rw [show absolute names = '/' :: relative names from rfl, components_sep, components_relative h, foldl_push h,
    List.append_nil, List.reverse_reverse]
  rfl

end Paths

end CoreLink.Lib
