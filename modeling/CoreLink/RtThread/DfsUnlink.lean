/-
# `CoreLink.RtThread.DfsUnlink` — the files that are open, `components/dfs/src/dfs.c` and `dfs_file.c`.

`dfs_file_open` stores the path that the file system gets; `fd_is_open` rebuilds it from the path it is asked for, and
compares. It takes the bytes behind the mount path, whatever the flags of the file system are: for the directory that is
the mount point that is nothing where `dfs_file_open` stores a separator, and a file system with full paths has the full
path stored. So `dfs_file_unlink`, which asks `fd_is_open`, removes files of such a file system while they are open.
`fd_is_open_iff` says when the answer is right.
-/
import CoreLink.RtThread.DfsLookup

namespace CoreLink.RtThread

open CoreLink.Lib

/-! ## The functions -/

/-- The test of `fd_is_open` for a descriptor. -/
def FileFd.Matches (fd : FileFd) (i : ℕ) (mountpath : List Char) : Prop :=
  fd.hasFops = true ∧ fd.fs = i ∧ fd.path = some mountpath

instance (fd : FileFd) (i : ℕ) (mountpath : List Char) : Decidable (fd.Matches i mountpath) :=
  inferInstanceAs (Decidable (_ ∧ _ ∧ _))

/-- `fd_is_open`, on the descriptor table `fds`, if there is memory for the path. -/
def fdIsOpen (table : List DfsFilesystem) (fds : List (Option FileFd)) (workdir : Option (List Char)) (memory : Bool)
    (pathname : List Char) : Int :=
  match dfsNormalizePath workdir memory pathname with
  | none => -1
  | some fullpath =>
    match dfsFilesystemLookup table fullpath with
    | none => -1
    | some i =>
      match table[i]? with
      | some ⟨some mount, _⟩ =>
        let mountpath := if mount = ['/'] then fullpath else fullpath.drop mount.length
        if ∃ fd ∈ fds.reduceOption, fd.Matches i mountpath then 0 else -1
      | _ => -1

/-- `dfs_file_unlink`: the file system and the path with which its `unlink` is called. `memory` and `memory'` say whether
there is memory for the path here, and in `fd_is_open`. -/
def dfsFileUnlink (table : List DfsFilesystem) (fds : List (Option FileFd)) (workdir : Option (List Char))
    (memory memory' : Bool) (path : List Char) : Except DfsFileErr (ℕ × List Char) :=
  match dfsNormalizePath workdir memory path with
  | none => .error .einval
  | some fullpath =>
    match dfsFilesystemLookup table fullpath with
    | none => .error .enoent
    | some i =>
      if fdIsOpen table fds workdir memory' fullpath = 0 then .error .ebusy
      else
        match table[i]? with
        | some ⟨some mount, some ops⟩ =>
          if ops.hasUnlink then .ok (i, fsPath mount ops fullpath) else .error .enosys
        | _ => .error .enosys

/-! ## Open files -/

/-- The descriptor is what `dfs_file_open` makes for the file `names` of file system `i`. -/
def OpenOn (table : List DfsFilesystem) (fd : FileFd) (i : ℕ) (names : List (List Char)) : Prop :=
  ∃ cs ops, MountedAt table i cs ∧ table[i]? = some ⟨some (Paths.absolute cs), some ops⟩ ∧ cs <+: names ∧
    (∀ c ∈ names, Paths.IsName c) ∧ fd.hasFops = true ∧ fd.fs = i ∧
      fd.path = some (fsPath (Paths.absolute cs) ops (Paths.absolute names))

/-- A descriptor of the table is open on the file. -/
def OpenAt (table : List DfsFilesystem) (fds : List (Option FileFd)) (i : ℕ) (names : List (List Char)) : Prop :=
  ∃ fd ∈ fds.reduceOption, OpenOn table fd i names

/-- A descriptor of the table is open on the file that a path denotes. -/
def IsOpen (table : List DfsFilesystem) (fds : List (Option FileFd)) (names : List (List Char)) : Prop :=
  ∃ i, dfsFilesystemLookup table (Paths.absolute names) = some i ∧ OpenAt table fds i names

/-- The descriptors in use have been opened with `dfs_file_open`. -/
def Descriptors (table : List DfsFilesystem) (fds : List (Option FileFd)) : Prop :=
  ∀ fd ∈ fds.reduceOption, fd.hasFops = true → fd.path.isSome → ∃ i names, OpenOn table fd i names

variable {table : List DfsFilesystem} {fds : List (Option FileFd)} {workdir : Option (List Char)} {memory : Bool}
  {path : List Char} {i : ℕ} {cs ds names : List (List Char)} {ops : DfsOps} {fd : FileFd}

/-- A path that is normalized stays as it is. -/
theorem normalizePath_absolute (hnames : ∀ c ∈ names, Paths.IsName c) (workdir : Option (List Char)) :
    dfsNormalizePath workdir true (Paths.absolute names) = some (Paths.absolute names) := by
  have hwalk : ∀ {cs stack : List (List Char)}, (∀ c ∈ cs, Paths.IsName c) →
      walk true stack cs = some (true, cs.reverse ++ stack) := by
    intro cs
    induction cs with
    | nil => exact fun _ => rfl
    | cons c cs ih =>
      intro stack h
      obtain ⟨hc, hcs⟩ := List.forall_mem_cons.mp h
      unfold walk
      rw [if_neg hc.notUp, ih hcs, List.reverse_cons, List.append_assoc]
      rfl
  have hcomponents : Paths.components (Paths.absolute names) = names := by
    rw [show Paths.absolute names = '/' :: Paths.relative names from rfl, Paths.components_sep,
      Paths.components_relative hnames]
  have hrooted : decide ((Paths.absolute names).head? = some '/') = true := rfl
  show (normLoop _ _ _).map normFinish = _
  rw [normalize_of_rooted (by rw [hrooted, hcomponents, hwalk hnames]), Paths.normalize_absolute hnames]

/-- **What `dfs_file_open` returns** is open on the file that its path denotes. -/
theorem dfsFileOpen_openOn (h : Mounts table) (hnames : ∀ c ∈ names, Paths.IsName c) {fsOpen : FileFd → Int} {flags : ℕ}
    (hpath : dfsNormalizePath workdir memory path = some (Paths.absolute names))
    (hopen : dfsFileOpen table workdir memory fsOpen path flags = .ok fd) :
    ∃ i, dfsFilesystemLookup table (Paths.absolute names) = some i ∧ OpenOn table fd i names := by
  unfold dfsFileOpen at hopen
  rw [hpath] at hopen
  dsimp only at hopen
  cases hlookup : dfsFilesystemLookup table (Paths.absolute names) with
  | none =>
    rw [hlookup] at hopen
    exact nomatch hopen
  | some i =>
    obtain ⟨cs, hm, hpre, -⟩ := (h.lookup_some_iff hnames).mp hlookup
    obtain ⟨⟨fspath, fsops⟩, hi, hp, ho, -⟩ := id hm
    obtain rfl : fspath = some (Paths.absolute cs) := hp
    obtain ⟨ops, rfl⟩ := Option.isSome_iff_exists.mp ho
    rw [hlookup] at hopen
    dsimp only at hopen
    rw [hi] at hopen
    dsimp only at hopen
    by_cases hno : ops.hasOpen = false
    · rw [if_pos hno] at hopen
      exact nomatch hopen
    · rw [if_neg hno] at hopen
      by_cases hfail : fsOpen (fdFor i (Paths.absolute cs) ops (Paths.absolute names) flags) < 0
      · rw [if_pos hfail] at hopen
        exact nomatch hopen
      · rw [if_neg hfail] at hopen
        obtain rfl := Except.ok.inj hopen
        refine ⟨i, rfl, cs, ops, hm, hi, hpre, hnames, ?_⟩
        unfold opened
        dsimp only
        split <;> exact ⟨rfl, rfl, rfl⟩

/-! ## When the answer is right -/

/-- **The condition**, for the file `names` of the file system that it belongs to. If there is no memory for the path the
file is not open. Else, if the file system is not mounted at the root: the file is not the mount point with an open
descriptor; and if the file system wants full paths, the file is open exactly if the one is whose full path is what follows
the mount path. -/
def AnswerOk (table : List DfsFilesystem) (fds : List (Option FileFd)) (memory : Bool) (names : List (List Char)) : Prop :=
  ∀ i cs ops, dfsFilesystemLookup table (Paths.absolute names) = some i → MountedAt table i cs →
    table[i]? = some ⟨some (Paths.absolute cs), some ops⟩ →
      if memory = false then ¬OpenAt table fds i names
      else if cs = [] then True
      else if ops.fullpath = true then (OpenAt table fds i names ↔ ∃ ds, names = cs ++ ds ∧ OpenAt table fds i ds)
      else names = cs → ¬OpenAt table fds i names

/-- What a descriptor that is open on a file matches. -/
theorem OpenOn.matches_iff (h : OpenOn table fd i names) (hm : MountedAt table i cs)
    (hi : table[i]? = some ⟨some (Paths.absolute cs), some ops⟩) (mountpath : List Char) :
    fd.Matches i mountpath ↔ fsPath (Paths.absolute cs) ops (Paths.absolute names) = mountpath := by
  obtain ⟨cs', ops', hm', hi', -, -, hfops, hfs, hpath⟩ := h
  obtain rfl := hm.unique hm'
  obtain rfl : ops = ops' := by
    have heq := Option.some.inj (hi.symm.trans hi')
    injection heq with _ hops
    exact Option.some.inj hops
  unfold FileFd.Matches
  rw [and_iff_right hfops, and_iff_right hfs, hpath, Option.some_inj]

/-- The descriptors that match. -/
theorem exists_matches_iff (hfds : Descriptors table fds) (hm : MountedAt table i cs)
    (hi : table[i]? = some ⟨some (Paths.absolute cs), some ops⟩) (mountpath : List Char) :
    (∃ fd ∈ fds.reduceOption, fd.Matches i mountpath) ↔ ∃ names, OpenAt table fds i names ∧
      fsPath (Paths.absolute cs) ops (Paths.absolute names) = mountpath := by
  constructor
  · rintro ⟨fd, hfd, hmatch⟩
    obtain ⟨j, names, hopen⟩ := hfds fd hfd hmatch.1 (by rw [hmatch.2.2]; rfl)
    obtain ⟨-, -, -, -, -, -, -, hfs, -⟩ := id hopen
    obtain rfl : i = j := hmatch.2.1.symm.trans hfs
    exact ⟨names, ⟨fd, hfd, hopen⟩, (hopen.matches_iff hm hi mountpath).mp hmatch⟩
  · rintro ⟨names, ⟨fd, hfd, hopen⟩, heq⟩
    exact ⟨fd, hfd, (hopen.matches_iff hm hi mountpath).mpr heq⟩

theorem OpenAt.within (h : OpenAt table fds i names) (hm : MountedAt table i cs) :
    cs <+: names ∧ ∀ c ∈ names, Paths.IsName c := by
  obtain ⟨fd, -, cs', ops, hm', -, hpre, hnames, -⟩ := h
  obtain rfl := hm.unique hm'
  exact ⟨hpre, hnames⟩

/-- **The path that `fd_is_open` looks for** is stored in the descriptors of these files. -/
theorem stored_iff (hfds : Descriptors table fds) (hm : MountedAt table i cs)
    (hi : table[i]? = some ⟨some (Paths.absolute cs), some ops⟩) (hnames : ∀ c ∈ cs ++ ds, Paths.IsName c) :
    (∃ fd ∈ fds.reduceOption, fd.Matches i
      (if Paths.absolute cs = ['/'] then Paths.absolute (cs ++ ds) else (Paths.absolute (cs ++ ds)).drop (Paths.absolute cs).length)) ↔
      if cs = [] then OpenAt table fds i (cs ++ ds)
      else if ops.fullpath = true then OpenAt table fds i ds
      else ds ≠ [] ∧ OpenAt table fds i (cs ++ ds) := by
  obtain ⟨hcs, hds⟩ := List.forall_mem_append.mp hnames
  have hplain : ∀ {es : List (List Char)}, ops.fullpath = false → OpenAt table fds i es →
      ∃ t, es = cs ++ t ∧ (∀ d ∈ t, Paths.IsName d) ∧
        fsPath (Paths.absolute cs) ops (Paths.absolute es) = Paths.absolute t := by
    intro es hops hes
    obtain ⟨⟨t, rfl⟩, hes⟩ := hes.within hm
    have ht := (List.forall_mem_append.mp hes).2
    exact ⟨t, rfl, ht, fsPath_eq hcs ht hops⟩
  have hfull : ∀ {es : List (List Char)}, ops.fullpath = true →
      fsPath (Paths.absolute cs) ops (Paths.absolute es) = Paths.absolute es := fun hops => if_pos hops
  rw [exists_matches_iff hfds hm hi]
  by_cases hroot : cs = []
  · subst hroot
    rw [if_pos rfl, if_pos Paths.absolute_nil, List.nil_append]
    cases hops : ops.fullpath with
    | true =>
      constructor
      · rintro ⟨es, hes, heq⟩
        rw [hfull hops] at heq
        rwa [← Paths.absolute_inj (hes.within hm).2 hds heq]
      · exact fun hopen => ⟨ds, hopen, hfull hops⟩
    | false =>
      constructor
      · rintro ⟨es, hes, heq⟩
        obtain ⟨t, rfl, ht, hpath⟩ := hplain hops hes
        rw [← Paths.absolute_inj ht hds (hpath.symm.trans heq)]
        exact hes
      · exact fun hopen => ⟨ds, hopen, fsPath_eq hcs hds hops⟩
  · have hslash : Paths.absolute cs ≠ ['/'] := fun h => hroot (Paths.absolute_inj hcs nofun h)
    have hdrop : (Paths.absolute (cs ++ ds)).drop (Paths.absolute cs).length = Paths.slashed ds := by
      rw [Paths.absolute_eq_slashed (List.append_ne_nil_of_left_ne_nil hroot ds), Paths.slashed_append,
        Paths.absolute_eq_slashed hroot, List.drop_left]
    rw [if_neg hroot, if_neg hslash, hdrop]
    have hinj : ∀ {t : List (List Char)}, (∀ d ∈ t, Paths.IsName d) → (Paths.absolute t = Paths.slashed ds ↔ ds ≠ [] ∧ t = ds) := by
      intro t ht
      by_cases hnil : ds = []
      · subst hnil
        exact iff_of_false (Paths.absolute_ne_nil t) fun h => h.1 rfl
      · rw [← Paths.absolute_eq_slashed hnil, and_iff_right hnil]
        exact ⟨Paths.absolute_inj ht hds, fun h => congrArg _ h⟩
    cases hops : ops.fullpath with
    | true =>
      rw [if_pos rfl]
      constructor
      · rintro ⟨es, hes, heq⟩
        rw [hfull hops] at heq
        rwa [← ((hinj (hes.within hm).2).mp heq).2]
      · intro hopen
        have hne : ds ≠ [] := by
          rintro rfl
          exact hroot (List.prefix_nil.mp (hopen.within hm).1)
        exact ⟨ds, hopen, (hfull hops).trans ((hinj hds).mpr ⟨hne, rfl⟩)⟩
    | false =>
      rw [if_neg Bool.false_ne_true]
      constructor
      · rintro ⟨es, hes, heq⟩
        obtain ⟨t, rfl, ht, hpath⟩ := hplain hops hes
        obtain ⟨hne, rfl⟩ := (hinj ht).mp (hpath.symm.trans heq)
        exact ⟨hne, hes⟩
      · rintro ⟨hne, hopen⟩
        exact ⟨cs ++ ds, hopen, (fsPath_eq hcs hds hops).trans ((hinj hds).mpr ⟨hne, rfl⟩)⟩

/-- What `fd_is_open` returns, from the normalized path on. -/
theorem fdIsOpen_eq_zero_iff (h : Mounts table) (hnames : ∀ c ∈ names, Paths.IsName c)
    (hpath : dfsNormalizePath workdir true path = some (Paths.absolute names)) :
    fdIsOpen table fds workdir memory path = 0 ↔ memory = true ∧ ∃ i cs,
      dfsFilesystemLookup table (Paths.absolute names) = some i ∧ MountedAt table i cs ∧ ∃ fd ∈ fds.reduceOption, fd.Matches i
        (if Paths.absolute cs = ['/'] then Paths.absolute names else (Paths.absolute names).drop (Paths.absolute cs).length) := by
  have hneg : ¬(-1 : Int) = 0 := by decide
  unfold fdIsOpen
  cases memory with
  | false =>
    have hnone : dfsNormalizePath workdir false path = none := by
      unfold dfsNormalizePath
      cases fullPath workdir path <;> rfl
    rw [hnone]
    exact iff_of_false hneg fun hand => Bool.false_ne_true hand.1
  | true =>
    rw [hpath, and_iff_right rfl]
    dsimp only
    cases hlookup : dfsFilesystemLookup table (Paths.absolute names) with
    | none =>
      refine iff_of_false hneg ?_
      rintro ⟨i, cs, hsome, -⟩
      exact nomatch hsome
    | some i =>
      obtain ⟨cs, hm, -, -⟩ := (h.lookup_some_iff hnames).mp hlookup
      obtain ⟨⟨fspath, fsops⟩, hi, hp, -, -⟩ := id hm
      obtain rfl : fspath = some (Paths.absolute cs) := hp
      dsimp only
      rw [hi]
      dsimp only
      constructor
      · intro hzero
        refine ⟨i, cs, rfl, hm, ?_⟩
        by_contra hno
        rw [if_neg hno] at hzero
        exact hneg hzero
      · rintro ⟨j, cs', hij, hm', hmatch⟩
        obtain rfl := Option.some.inj hij
        obtain rfl := hm.unique hm'
        exact if_pos hmatch

/-- **The answer of `fd_is_open`** is right exactly under the condition, for every mount table, every table of descriptors
that have been opened, and every path. -/
theorem answer_iff (h : Mounts table) (hfds : Descriptors table fds) (hnames : ∀ c ∈ names, Paths.IsName c)
    (hpath : dfsNormalizePath workdir true path = some (Paths.absolute names)) :
    (fdIsOpen table fds workdir memory path = 0 ↔ IsOpen table fds names) ↔ AnswerOk table fds memory names := by
  rw [fdIsOpen_eq_zero_iff h hnames hpath]
  unfold IsOpen AnswerOk
  cases hlookup : dfsFilesystemLookup table (Paths.absolute names) with
  | none =>
    refine iff_of_true (iff_of_false ?_ ?_) ?_
    · rintro ⟨-, i, cs, hsome, -⟩
      exact nomatch hsome
    · rintro ⟨i, hsome, -⟩
      exact nomatch hsome
    · intro i cs ops hsome
      exact nomatch hsome
  | some i =>
    obtain ⟨cs, hm, ⟨ds, rfl⟩, -⟩ := (h.lookup_some_iff hnames).mp hlookup
    obtain ⟨⟨fspath, fsops⟩, hi, hp, ho, -⟩ := id hm
    obtain rfl : fspath = some (Paths.absolute cs) := hp
    obtain ⟨ops, rfl⟩ := Option.isSome_iff_exists.mp ho
    -- there is one file system to look at
    have hleft : (∃ j cs', some i = some j ∧ MountedAt table j cs' ∧ ∃ fd ∈ fds.reduceOption, fd.Matches j
        (if Paths.absolute cs' = ['/'] then Paths.absolute (cs ++ ds)
          else (Paths.absolute (cs ++ ds)).drop (Paths.absolute cs').length)) ↔
        if cs = [] then OpenAt table fds i (cs ++ ds)
        else if ops.fullpath = true then OpenAt table fds i ds
        else ds ≠ [] ∧ OpenAt table fds i (cs ++ ds) := by
      rw [← stored_iff hfds hm hi hnames]
      constructor
      · rintro ⟨j, cs', hij, hm', hmatch⟩
        obtain rfl := Option.some.inj hij
        obtain rfl := hm.unique hm'
        exact hmatch
      · exact fun hmatch => ⟨i, cs, rfl, hm, hmatch⟩
    have hright : (∃ j, some i = some j ∧ OpenAt table fds j (cs ++ ds)) ↔ OpenAt table fds i (cs ++ ds) := by
      constructor
      · rintro ⟨j, hij, hopen⟩
        obtain rfl := Option.some.inj hij
        exact hopen
      · exact fun hopen => ⟨i, rfl, hopen⟩
    have hrest : (∃ ds', cs ++ ds = cs ++ ds' ∧ OpenAt table fds i ds') ↔ OpenAt table fds i ds := by
      constructor
      · rintro ⟨ds', heq, hopen⟩
        exact (List.append_cancel_left heq) ▸ hopen
      · exact fun hopen => ⟨ds, rfl, hopen⟩
    have hnil : cs ++ ds = cs ↔ ds = [] := List.append_right_eq_self
    rw [hleft, hright]
    constructor
    · intro hiff j cs' ops' hij hm' hi'
      obtain rfl := Option.some.inj hij
      obtain rfl := hm.unique hm'
      obtain rfl : ops = ops' := by
        have heq := Option.some.inj (hi.symm.trans hi')
        injection heq with _ hops
        exact Option.some.inj hops
      rw [hrest, hnil]
      cases memory with
      | false =>
        rw [if_pos rfl]
        exact fun hopen => Bool.false_ne_true (hiff.mpr hopen).1
      | true =>
        rw [and_iff_right rfl] at hiff
        rw [if_neg (by decide)]
        by_cases hroot : cs = []
        · rw [if_pos hroot]
          trivial
        · rw [if_neg hroot] at hiff ⊢
          by_cases hops : ops.fullpath = true
          · rw [if_pos hops] at hiff ⊢
            exact hiff.symm
          · rw [if_neg hops] at hiff ⊢
            exact fun hd hopen => (hiff.mpr hopen).1 hd
    · intro hok
      have hok := hok i cs ops rfl hm hi
      rw [hrest, hnil] at hok
      cases memory with
      | false =>
        rw [if_pos rfl] at hok
        exact iff_of_false (fun hand => Bool.false_ne_true hand.1) hok
      | true =>
        rw [and_iff_right rfl]
        rw [if_neg (by decide)] at hok
        by_cases hroot : cs = []
        · rw [if_pos hroot]
        · rw [if_neg hroot] at hok ⊢
          by_cases hops : ops.fullpath = true
          · rw [if_pos hops] at hok ⊢
            exact hok.symm
          · rw [if_neg hops] at hok ⊢
            exact and_iff_right_of_imp fun hopen hd => hok hd hopen

/-- A file is removed only if `fd_is_open` says that it is not open. -/
theorem dfsFileUnlink_ok {memory' : Bool} {r : ℕ × List Char} (hnames : ∀ c ∈ names, Paths.IsName c)
    (hpath : dfsNormalizePath workdir true path = some (Paths.absolute names))
    (hr : dfsFileUnlink table fds workdir memory memory' path = .ok r) :
    fdIsOpen table fds workdir memory' path ≠ 0 := by
  unfold dfsFileUnlink at hr
  cases memory with
  | false =>
    have hnone : dfsNormalizePath workdir false path = none := by
      unfold dfsNormalizePath
      cases fullPath workdir path <;> rfl
    rw [hnone] at hr
    exact nomatch hr
  | true =>
    rw [hpath] at hr
    dsimp only at hr
    cases hlookup : dfsFilesystemLookup table (Paths.absolute names) with
    | none =>
      rw [hlookup] at hr
      exact nomatch hr
    | some i =>
      rw [hlookup] at hr
      dsimp only at hr
      have hsame : dfsNormalizePath workdir memory' path = dfsNormalizePath workdir memory' (Paths.absolute names) := by
        cases memory' with
        | false =>
          unfold dfsNormalizePath
          cases fullPath workdir path <;> cases fullPath workdir (Paths.absolute names) <;> rfl
        | true => rw [hpath, normalizePath_absolute hnames]
      have hanswer : fdIsOpen table fds workdir memory' path = fdIsOpen table fds workdir memory' (Paths.absolute names) := by
        unfold fdIsOpen
        rw [hsame]
      rw [hanswer]
      intro hzero
      rw [if_pos hzero] at hr
      exact nomatch hr

/-- **The guard of `dfs_file_unlink`**: `fd_is_open` answers 0 exactly for the files that are open, and no open file is
removed, exactly under the condition. -/
theorem fd_is_open_iff (h : Mounts table) (hfds : Descriptors table fds) (hnames : ∀ c ∈ names, Paths.IsName c)
    (hpath : dfsNormalizePath workdir true path = some (Paths.absolute names)) :
    ((fdIsOpen table fds workdir memory path = 0 ↔ IsOpen table fds names) ∧
      ∀ memory' r, dfsFileUnlink table fds workdir memory' memory path = .ok r → ¬IsOpen table fds names) ↔
        AnswerOk table fds memory names := by
  rw [← answer_iff h hfds hnames hpath]
  exact and_iff_left_of_imp fun hiff memory' r hr hopen => dfsFileUnlink_ok hnames hpath hr (hiff.mpr hopen)

/-- With `/mnt/a` open on the file system at `/mnt`, the answer for it is 0, and it is not removed. -/
theorem fd_is_open_mnt : fdIsOpen twoMounts [some (fdFor 1 ['/', 'm', 'n', 't'] ⟨false, true, true⟩ ['/', 'm', 'n', 't', '/', 'a'] 0)]
    none true ['/', 'm', 'n', 't', '/', 'a'] = 0 := by
  have hnames : ∀ c ∈ [['m', 'n', 't'], ['a']], Paths.IsName c := by
    intro c hc
    rcases List.mem_cons.mp hc with rfl | hc
    · exact ⟨by decide, by decide, by decide, by decide⟩
    · rw [List.mem_singleton.mp hc]
      exact ⟨by decide, by decide, by decide, by decide⟩
  have hm : MountedAt twoMounts 1 [['m', 'n', 't']] :=
    ⟨_, rfl, rfl, rfl, fun c hc => hnames c (List.mem_singleton.mp hc ▸ List.mem_cons_self)⟩
  have hopen : OpenOn twoMounts (fdFor 1 ['/', 'm', 'n', 't'] ⟨false, true, true⟩ ['/', 'm', 'n', 't', '/', 'a'] 0) 1
      [['m', 'n', 't'], ['a']] :=
    ⟨[['m', 'n', 't']], ⟨false, true, true⟩, hm, rfl, ⟨[['a']], rfl⟩, hnames, rfl, rfl, rfl⟩
  have hlookup : dfsFilesystemLookup twoMounts (Paths.absolute [['m', 'n', 't'], ['a']]) = some 1 := by decide
  refine ((fd_is_open_iff mounts_twoMounts ?_ hnames (by decide)).mpr ?_).1.mpr
    ⟨1, hlookup, _, List.mem_singleton_self _, hopen⟩
  · intro fd hfd _ _
    obtain rfl := List.mem_singleton.mp hfd
    exact ⟨1, _, hopen⟩
  · intro i cs ops hi hm' hi'
    obtain rfl := Option.some.inj (hlookup.symm.trans hi)
    obtain rfl := hm.unique hm'
    obtain rfl : (⟨false, true, true⟩ : DfsOps) = ops := by
      injection Option.some.inj hi' with _ hops
      exact Option.some.inj hops
    rw [if_neg (by decide), if_neg (by decide), if_neg (by decide)]
    exact fun heq => absurd heq (by decide)

/-- A file system with full paths, at `/dev`. -/
def devMount : List DfsFilesystem := [⟨some ['/', 'd', 'e', 'v'], some ⟨true, true, true⟩⟩]

/-- `/dev/a` is open, the answer for it is -1, and it is removed. -/
theorem fd_is_open_dev : ¬∀ (table : List DfsFilesystem) (fds : List (Option FileFd)) (workdir : Option (List Char))
    (path : List Char) (names : List (List Char)), Mounts table → Descriptors table fds → (∀ c ∈ names, Paths.IsName c) →
      dfsNormalizePath workdir true path = some (Paths.absolute names) →
        ((fdIsOpen table fds workdir true path = 0 ↔ IsOpen table fds names) ∧
          ∀ r, dfsFileUnlink table fds workdir true true path = .ok r → ¬IsOpen table fds names) := by
  intro hall
  have hname : ∀ c ∈ [['d', 'e', 'v']], Paths.IsName c := by
    intro c hc
    rw [List.mem_singleton.mp hc]
    exact ⟨by decide, by decide, by decide, by decide⟩
  have hnames : ∀ c ∈ [['d', 'e', 'v'], ['a']], Paths.IsName c := by
    intro c hc
    rcases List.mem_cons.mp hc with rfl | hc
    · exact hname _ List.mem_cons_self
    · rw [List.mem_singleton.mp hc]
      exact ⟨by decide, by decide, by decide, by decide⟩
  have hm : MountedAt devMount 0 [['d', 'e', 'v']] := ⟨_, rfl, rfl, rfl, hname⟩
  have htable : Mounts devMount := by
    constructor
    · intro i fs hi _ _
      match i with
      | 0 => exact ⟨_, hm⟩
      | i + 1 => exact nomatch hi
    · rintro i j cs ⟨fs, hi, -⟩ ⟨fs', hj, -⟩
      have hi := (List.getElem?_eq_some_iff.mp hi).1
      have hj := (List.getElem?_eq_some_iff.mp hj).1
      have hlen : devMount.length = 1 := rfl
      omega
  have hopen : OpenOn devMount (fdFor 0 ['/', 'd', 'e', 'v'] ⟨true, true, true⟩ ['/', 'd', 'e', 'v', '/', 'a'] 0) 0
      [['d', 'e', 'v'], ['a']] :=
    ⟨[['d', 'e', 'v']], ⟨true, true, true⟩, hm, rfl, ⟨[['a']], rfl⟩, hnames, rfl, rfl, rfl⟩
  have hfds : Descriptors devMount [some (fdFor 0 ['/', 'd', 'e', 'v'] ⟨true, true, true⟩ ['/', 'd', 'e', 'v', '/', 'a'] 0)] := by
    intro fd hfd _ _
    obtain rfl := List.mem_singleton.mp hfd
    exact ⟨0, _, hopen⟩
  have hanswer := (hall devMount _ none ['/', 'd', 'e', 'v', '/', 'a'] _ htable hfds hnames (by decide)).1.mpr
    ⟨0, by decide, _, List.mem_singleton_self _, hopen⟩
  revert hanswer
  decide

end CoreLink.RtThread
