/-
# `CoreLink.RtThread.DfsPath` — `dfs_normalize_path` of `components/dfs/src/dfs.c`.

The function copies the path onto itself, from `src` to `dst`, one component a round, and goes back in what it has written
for a `..`. `dst` is never ahead of `src`, so the model has what is still to be read and what has been written, the latter
in reverse. What comes out is the normalization of the path, unless a `..` goes up from the root: it takes the separator
away that makes the path absolute, and the names that follow are written without it (`normalize_eq`).
-/
import CoreLink.Lib.Paths

namespace CoreLink.RtThread

open CoreLink.Lib

/-! ## The function -/

/-- At `up_one`: back over the last separator and the name before it. -/
def upOne : List Char → Option (List Char)
  | [] => none
  | _ :: dst => some (dst.dropWhile (· ≠ '/'))

/-- The loop; a round reads one character at least, so `fuel` is the length of the path and one more
(`normLoop_eq`). -/
def normLoop : Nat → List Char → List Char → Option (List Char)
  | 0, _, _ => none
  | fuel + 1, src, dst =>
    match src with
    | ['.'] => some dst
    | '.' :: '/' :: src => normLoop fuel (src.dropWhile (· = '/')) dst
    | ['.', '.'] => (upOne dst).bind fun dst => normLoop fuel [] dst
    | '.' :: '.' :: '/' :: src => (upOne dst).bind fun dst => normLoop fuel (src.dropWhile (· = '/')) dst
    | src =>
      -- copy up to the next separator, and skip the separators
      let dst := (src.takeWhile (· ≠ '/')).reverse ++ dst
      match src.dropWhile (· ≠ '/') with
      | [] => some dst
      | _ :: src => normLoop fuel (src.dropWhile (· = '/')) ('/' :: dst)

/-- The end of the function: a separator at the end goes, and an empty path is the root. For an empty path the source looks
for the separator in the byte before the block, which is no part of the path. -/
def normFinish (dst : List Char) : List Char :=
  let dst := match dst with
    | '/' :: c :: dst => c :: dst
    | dst => dst
  if dst = [] then ['/'] else dst.reverse

/-- The path that is normalized: a relative one is joined with the directory, if there is one. -/
def fullPath (directory : Option (List Char)) (filename : List Char) : Option (List Char) :=
  if filename.head? = some '/' then some filename else directory.map fun directory => directory ++ '/' :: filename

/-- `dfs_normalize_path`, with the working directory if there is one (`DFS_USING_WORKDIR`); `memory` says whether there is
a block for the path. -/
def dfsNormalizePath (directory : Option (List Char)) (memory : Bool) (filename : List Char) : Option (List Char) :=
  (fullPath directory filename).bind fun path =>
    if memory then (normLoop (path.length + 1) path []).map normFinish else none

/-! ## What it computes -/

/-- The components one after the other: whether there is still a separator at the beginning, and the names, in reverse.
A `..` that finds no name takes the separator, and fails if there is none. -/
def walk : Bool → List (List Char) → List (List Char) → Option (Bool × List (List Char))
  | rooted, names, [] => some (rooted, names)
  | rooted, names, c :: cs =>
    if c = Paths.up then
      match names, rooted with
      | _ :: names, rooted => walk rooted names cs
      | [], true => walk false [] cs
      | [], false => none
    else walk rooted (c :: names) cs

/-- The path that is written in the end. -/
def render (r : Bool × List (List Char)) : List Char :=
  if r.1 = true ∨ r.2 = [] then Paths.absolute r.2.reverse else Paths.relative r.2.reverse

theorem render_rooted (names : List (List Char)) : render (true, names) = Paths.absolute names.reverse :=
  if_pos (Or.inl rfl)

theorem render_cons (c : List Char) (names : List (List Char)) :
    render (false, c :: names) = Paths.relative (names.reverse ++ [c]) := by
  rw [← List.reverse_cons]
  exact if_neg fun h => h.elim Bool.false_ne_true (List.cons_ne_nil c names)

/-- What has been written after a component, in reverse. -/
def written (rooted : Bool) : List (List Char) → List Char
  | [] => if rooted then ['/'] else []
  | c :: names => '/' :: (c.reverse ++ written rooted names)

theorem written_head (rooted : Bool) (names : List (List Char)) :
    (written rooted names).dropWhile (· ≠ '/') = written rooted names := by
  cases names with
  | nil => cases rooted <;> rfl
  | cons c names => rfl

theorem dropWhile_name {c : List Char} (h : '/' ∉ c) (dst : List Char) :
    (c.reverse ++ dst).dropWhile (· ≠ '/') = dst.dropWhile (· ≠ '/') := by
  apply List.dropWhile_append_of_pos
  intro x hx
  rw [decide_eq_true_eq]
  rintro rfl
  exact h (List.mem_reverse.mp hx)

/-- Names are written one after the other. -/
theorem reverse_written (rooted : Bool) (names : List (List Char)) (c : List Char) :
    (c.reverse ++ written rooted names).reverse =
      (if rooted then ['/'] else []) ++ Paths.relative (names.reverse ++ [c]) := by
  have hrel : ∀ (ns : List (List Char)), Paths.relative (ns ++ [c]) = (ns.flatMap fun n => n ++ ['/']) ++ c := by
    intro ns
    induction ns with
    | nil => exact List.intercalate_singleton
    | cons n ns ih =>
      have hne : ns ++ [c] ≠ [] := List.append_ne_nil_of_right_ne_nil _ (List.cons_ne_nil c [])
      unfold Paths.relative at ih ⊢
      rw [List.cons_append, List.intercalate_cons_of_ne_nil hne, ih, List.flatMap_cons]
      simp only [List.append_assoc]
  have hwritten : (written rooted names).reverse =
      (if rooted then ['/'] else []) ++ names.reverse.flatMap fun n => n ++ ['/'] := by
    induction names with
    | nil => cases rooted <;> rfl
    | cons n names ih =>
      rw [written, List.reverse_cons, List.reverse_append, List.reverse_reverse, ih, List.reverse_cons,
        List.flatMap_append]
      simp
  rw [List.reverse_append, List.reverse_reverse, hwritten, hrel, List.append_assoc]

/-- The end, after a component with a separator. -/
theorem normFinish_written (rooted : Bool) {names : List (List Char)} (h : ∀ c ∈ names, Paths.IsName c) :
    normFinish (written rooted names) = render (rooted, names) := by
  cases names with
  | nil => cases rooted <;> rfl
  | cons c names =>
    have hc := (h c List.mem_cons_self).nonempty
    obtain ⟨x, xs, hx⟩ := List.exists_cons_of_ne_nil (List.append_ne_nil_of_left_ne_nil
      (List.reverse_ne_nil_iff.mpr hc) (written rooted names))
    have hfin : normFinish (written rooted (c :: names)) = (c.reverse ++ written rooted names).reverse := by
      rw [written, hx]
      show (if x :: xs = [] then ['/'] else (x :: xs).reverse) = _
      rw [if_neg (List.cons_ne_nil x xs)]
    rw [hfin, reverse_written]
    cases rooted with
    | true =>
      rw [render_rooted, List.reverse_cons]
      rfl
    | false =>
      rw [render_cons]
      rfl

/-- The end, after a name that nothing follows. -/
theorem normFinish_name (rooted : Bool) (names : List (List Char)) {c : List Char} (h : Paths.IsName c) :
    normFinish (c.reverse ++ written rooted names) = render (rooted, c :: names) := by
  obtain ⟨x, xs, hx⟩ := List.exists_cons_of_ne_nil (List.reverse_ne_nil_iff.mpr h.nonempty)
  have hsep : x ≠ '/' := by
    rintro rfl
    exact h.noSep (List.mem_reverse.mp (by rw [hx]; exact List.mem_cons_self))
  have hfin : normFinish (c.reverse ++ written rooted names) = (c.reverse ++ written rooted names).reverse := by
    rw [hx, List.cons_append]
    unfold normFinish
    dsimp only
    split
    next heq => exact absurd (List.cons.inj heq).1 hsep
    next => exact if_neg (List.cons_ne_nil _ _)
  rw [hfin, reverse_written]
  cases rooted with
  | true =>
    rw [render_rooted, List.reverse_cons]
    rfl
  | false =>
    rw [render_cons]
    rfl

theorem upOne_written (rooted : Bool) {c : List Char} (h : '/' ∉ c) (names : List (List Char)) :
    upOne (written rooted (c :: names)) = some (written rooted names) := by
  show some ((c.reverse ++ written rooted names).dropWhile _) = _
  rw [dropWhile_name h, written_head]

section Loop

variable {β : Type*} {F : List Char → β} {G : Bool × List (List Char) → β}

/-- `F` reads off what has been written what `G` reads off the names, after a component with a separator and after a name
that nothing follows. -/
structure ReadsOff (F : List Char → β) (G : Bool × List (List Char) → β) : Prop where
  written (rooted : Bool) {names : List (List Char)} (h : ∀ c ∈ names, Paths.IsName c) :
    F (CoreLink.RtThread.written rooted names) = G (rooted, names)
  name (rooted : Bool) (names : List (List Char)) {c : List Char} (h : Paths.IsName c) :
    F (c.reverse ++ CoreLink.RtThread.written rooted names) = G (rooted, c :: names)

/-- **The loop**, from the beginning of a component on. -/
theorem normLoop_eq (reads : ReadsOff F G) {fuel : Nat} {src : List Char} (hfuel : src.length < fuel)
    (hsrc : src.head? ≠ some '/') (rooted : Bool) {names : List (List Char)} (hnames : ∀ c ∈ names, Paths.IsName c) :
    (normLoop fuel src (written rooted names)).map F = (walk rooted names (Paths.components src)).map G := by
  induction fuel generalizing src rooted names with
  | zero => exact absurd hfuel (Nat.not_lt_zero _)
  | succ fuel ih =>
    -- the separators after a component are skipped
    have hskip : ∀ (rest : List Char) (rooted : Bool) (names : List (List Char)), rest.length < fuel →
        (∀ c ∈ names, Paths.IsName c) →
        (normLoop fuel (rest.dropWhile (· = '/')) (written rooted names)).map F =
          (walk rooted names (Paths.components rest)).map G := by
      intro rest rooted names hlen hnames
      have hdrop := (List.dropWhile_sublist (· = '/') (l := rest)).length_le
      rw [ih (by omega) ?_ rooted hnames, Paths.components_dropWhile]
      intro hhead
      have hnot := List.head?_dropWhile_not (· = '/') rest
      rw [hhead] at hnot
      exact Bool.false_ne_true (hnot.symm.trans (decide_eq_true rfl))
    -- one level up, with the rest of the path
    have hup : ∀ (rest : List Char), rest.length < fuel →
        ((upOne (written rooted names)).bind fun dst => normLoop fuel (rest.dropWhile (· = '/')) dst).map F =
          (walk rooted names (Paths.up :: Paths.components rest)).map G := by
      intro rest hlen
      cases names with
      | cons c names =>
        rw [upOne_written rooted (hnames c List.mem_cons_self).noSep]
        exact hskip rest rooted names hlen fun c hc => hnames c (List.mem_cons_of_mem _ hc)
      | nil =>
        cases rooted with
        | true => exact hskip rest false [] hlen hnames
        | false => rfl
    unfold normLoop
    split
    next => exact congrArg some (reads.written rooted hnames)
    next rest =>
      rw [show '.' :: '/' :: rest = ['.'] ++ '/' :: rest from rfl, Paths.components_append (by decide),
        Paths.components_dot]
      rw [List.length_cons, List.length_cons] at hfuel
      exact hskip rest rooted names (by omega) hnames
    next =>
      rw [show (['.', '.'] : List Char) = Paths.up from rfl, Paths.components_up]
      exact hup [] (by rw [List.length_cons] at hfuel; simp at hfuel ⊢; omega)
    next rest =>
      rw [show '.' :: '.' :: '/' :: rest = Paths.up ++ '/' :: rest from rfl, Paths.components_append (by decide),
        Paths.components_up]
      rw [List.length_cons, List.length_cons, List.length_cons] at hfuel
      exact hup rest (by omega)
    next hdot hdotSep hdots hdotsSep =>
      have hsplit : src.takeWhile (· ≠ '/') ++ src.dropWhile (· ≠ '/') = src := List.takeWhile_append_dropWhile
      have hnoSep : '/' ∉ src.takeWhile (· ≠ '/') := fun hm => by simpa using List.all_eq_true.mp List.all_takeWhile _ hm
      have hrest : ∀ x rest, src.dropWhile (· ≠ '/') = x :: rest → x = '/' := by
        intro x rest hx
        have hnot := List.head?_dropWhile_not (· ≠ '/') src
        rw [hx] at hnot
        exact not_not.mp (of_decide_eq_false hnot)
      by_cases hnil : src = []
      · subst hnil
        exact congrArg some (reads.written rooted hnames)
      · -- the component is a name, as the special cases are excluded
        have hname : Paths.IsName (src.takeWhile (· ≠ '/')) := by
          constructor
          case nonempty =>
            obtain ⟨x, xs, rfl⟩ := List.exists_cons_of_ne_nil hnil
            have hx : x ≠ '/' := fun hx => hsrc (congrArg some hx)
            rw [List.takeWhile_cons, if_pos (decide_eq_true hx)]
            exact List.cons_ne_nil x _
          case noSep => exact hnoSep
          case notDot =>
            intro hd
            rw [hd] at hsplit
            cases hr : src.dropWhile (· ≠ '/') with
            | nil =>
              rw [hr] at hsplit
              exact hdot hsplit.symm
            | cons x rest =>
              rw [hr, hrest x rest hr] at hsplit
              exact hdotSep rest hsplit.symm
          case notUp =>
            intro hd
            rw [hd] at hsplit
            cases hr : src.dropWhile (· ≠ '/') with
            | nil =>
              rw [hr] at hsplit
              exact hdots hsplit.symm
            | cons x rest =>
              rw [hr, hrest x rest hr] at hsplit
              exact hdotsSep rest hsplit.symm
        have hwalk : ∀ cs, walk rooted names (src.takeWhile (· ≠ '/') :: cs) =
            walk rooted (src.takeWhile (· ≠ '/') :: names) cs := fun cs => if_neg hname.notUp
        cases hr : src.dropWhile (· ≠ '/') with
        | nil =>
          rw [hr, List.append_nil] at hsplit
          have hcomp : Paths.components src = [src.takeWhile (· ≠ '/')] := by
            rw [← Paths.components_name hname, hsplit]
          rw [hcomp, hwalk]
          exact congrArg some (reads.name rooted names hname)
        | cons x rest =>
          obtain rfl := hrest x rest hr
          have hcomp : Paths.components src = src.takeWhile (· ≠ '/') :: Paths.components rest := by
            rw [hr] at hsplit
            rw [← List.singleton_append, ← Paths.components_name hname, ← Paths.components_append hnoSep, hsplit]
          have hlen : rest.length < fuel := by
            have hle := (List.dropWhile_sublist (· ≠ '/') (l := src)).length_le
            rw [hr, List.length_cons] at hle
            omega
          rw [hcomp, hwalk]
          exact hskip rest rooted _ hlen (List.forall_mem_cons.mpr ⟨hname, hnames⟩)

/-- **The normalization**, by components. -/
theorem normalize_map (reads : ReadsOff F G) (path : List Char) :
    (normLoop (path.length + 1) path []).map F =
      (walk (decide (path.head? = some '/')) [] (Paths.components path)).map G := by
  by_cases hhead : path.head? = some '/'
  · obtain ⟨rest, rfl⟩ : ∃ rest, path = '/' :: rest := by
      cases path with
      | nil => exact absurd hhead nofun
      | cons c rest => exact ⟨rest, by rw [Option.some.inj hhead]⟩
    -- the first round copies the separators at the beginning
    have hround : normLoop (('/' :: rest).length + 1) ('/' :: rest) [] =
        normLoop ('/' :: rest).length (rest.dropWhile (· = '/')) (written true []) := rfl
    have hdrop := (List.dropWhile_sublist (· = '/') (l := rest)).length_le
    rw [hround, decide_eq_true hhead, Paths.components_sep, ← Paths.components_dropWhile]
    apply normLoop_eq reads
    · rw [List.length_cons]
      omega
    · intro hslash
      have hnot := List.head?_dropWhile_not (· = '/') rest
      rw [hslash] at hnot
      exact Bool.false_ne_true (hnot.symm.trans (decide_eq_true rfl))
    · exact nofun
  · rw [decide_eq_false hhead]
    have hnone : ∀ c ∈ ([] : List (List Char)), Paths.IsName c := nofun
    exact normLoop_eq reads (Nat.lt_succ_self _) hhead false hnone

end Loop

/-- The path that comes out. -/
theorem normalize_eq (path : List Char) :
    (normLoop (path.length + 1) path []).map normFinish =
      (walk (decide (path.head? = some '/')) [] (Paths.components path)).map render :=
  normalize_map ⟨normFinish_written, normFinish_name⟩ path

/-! ## When the path is right -/

/-- What is left of the components are names. -/
theorem walk_names {rooted r : Bool} {names names' cs : List (List Char)} (h : walk rooted names cs = some (r, names'))
    (hcs : ∀ c ∈ cs, c ≠ Paths.up → Paths.IsName c) (hnames : ∀ c ∈ names, Paths.IsName c) :
    ∀ c ∈ names', Paths.IsName c := by
  induction cs generalizing rooted names with
  | nil =>
    obtain ⟨-, rfl⟩ := Prod.mk.inj (Option.some.inj h)
    exact hnames
  | cons c cs ih =>
    obtain ⟨hc, hcs'⟩ := List.forall_mem_cons.mp hcs
    unfold walk at h
    split at h
    next =>
      split at h
      next => exact ih h hcs' fun c hm => hnames c (List.mem_cons_of_mem _ hm)
      next => exact ih h hcs' hnames
      next => exact absurd h nofun
    next hup => exact ih h hcs' (List.forall_mem_cons.mpr ⟨hc hup, hnames⟩)

/-- The separator at the beginning does not come back. -/
theorem walk_false {r : Bool} {names names' cs : List (List Char)} (h : walk false names cs = some (r, names')) :
    r = false := by
  induction cs generalizing names with
  | nil => exact (Prod.mk.inj (Option.some.inj h)).1.symm
  | cons c cs ih =>
    unfold walk at h
    split at h
    next =>
      split at h
      next => exact ih h
      next hb => exact absurd hb Bool.false_ne_true
      next => exact absurd h nofun
    next => exact ih h

/-- As long as it is there, the components are resolved. -/
theorem walk_true {names names' cs : List (List Char)} (h : walk true names cs = some (true, names')) :
    cs.foldl Paths.push names = names' := by
  induction cs generalizing names with
  | nil => exact (Prod.mk.inj (Option.some.inj h)).2
  | cons c cs ih =>
    unfold walk at h
    rw [List.foldl_cons, Paths.push]
    split at h
    next hc =>
      rw [if_pos hc]
      split at h
      next => exact ih h
      next => exact absurd (walk_false h) Bool.noConfusion
      next hb => exact absurd hb.symm Bool.false_ne_true
    next hc =>
      rw [if_neg hc]
      exact ih h

/-- **A path that does not go up from the root** is normalized. -/
theorem normalize_of_rooted {path : List Char} {names : List (List Char)}
    (h : walk (decide (path.head? = some '/')) [] (Paths.components path) = some (true, names)) :
    (normLoop (path.length + 1) path []).map normFinish = some (Paths.normalize path) := by
  rw [normalize_eq, h]
  have hrooted : decide (path.head? = some '/') = true := by
    cases hb : decide (path.head? = some '/') with
    | true => rfl
    | false =>
      rw [hb] at h
      exact absurd (walk_false h) Bool.noConfusion
  rw [hrooted] at h
  have hnames := walk_true h
  show some (render (true, names)) = _
  rw [render_rooted, Paths.normalize, Paths.resolve, hnames]

/-- No `..` goes up from the root, or nothing is named below it afterwards. -/
def PathOk (path : List Char) : Prop :=
  ∀ names, walk (decide (path.head? = some '/')) [] (Paths.components path) = some (false, names) → names = []

instance (path : List Char) : Decidable (PathOk path) :=
  decidable_of_iff (∀ r ∈ walk (decide (path.head? = some '/')) [] (Paths.components path), r.1 = false → r.2 = [])
    ⟨fun h _ hn => h _ hn rfl, fun h r hr hf => h r.2 (by rw [← hf]; exact hr)⟩

/-- **The result is a normalized absolute path** exactly under that condition. -/
theorem normal_iff {path full : List Char} (h : (normLoop (path.length + 1) path []).map normFinish = some full) :
    Paths.normalize full = full ↔ PathOk path := by
  rw [normalize_eq] at h
  obtain ⟨⟨r, names⟩, hwalk, rfl⟩ := Option.map_eq_some_iff.mp h
  have hnames : ∀ c ∈ names.reverse, Paths.IsName c := fun c hc =>
    walk_names hwalk (fun c hm hup => Paths.isName_of_mem hm hup) nofun c (List.mem_reverse.mp hc)
  constructor
  · intro hnormal names' hfalse
    obtain ⟨rfl, rfl⟩ := Prod.mk.inj (Option.some.inj (hwalk.symm.trans hfalse))
    cases names with
    | nil => rfl
    | cons c names =>
      -- a path that begins with a name is not normalized
      exfalso
      rw [render_cons, ← List.reverse_cons] at hnormal
      have hhead : (Paths.relative (c :: names).reverse).head? = some '/' := by
        rw [← hnormal]
        rfl
      obtain ⟨d, ds, hds⟩ := List.exists_cons_of_ne_nil (List.reverse_ne_nil_iff.mpr (List.cons_ne_nil c names))
      have hd : Paths.IsName d := hnames d (by rw [hds]; exact List.mem_cons_self)
      obtain ⟨x, xs, rfl⟩ := List.exists_cons_of_ne_nil hd.nonempty
      rw [hds, Paths.relative] at hhead
      cases ds with
      | nil =>
        rw [List.intercalate_singleton] at hhead
        exact hd.noSep (by rw [Option.some.inj hhead]; exact List.mem_cons_self)
      | cons e es =>
        rw [List.intercalate_cons_cons] at hhead
        exact hd.noSep (by rw [Option.some.inj hhead]; exact List.mem_cons_self)
  · intro hok
    cases r with
    | true =>
      rw [render_rooted]
      exact Paths.normalize_absolute hnames
    | false =>
      obtain rfl := hok names hwalk
      exact Paths.normalize_absolute nofun

end CoreLink.RtThread
