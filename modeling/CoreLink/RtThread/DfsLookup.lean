/-
# `CoreLink.RtThread.DfsLookup` — from a path to a file system, `components/dfs/src/dfs_fs.c` and `dfs.c`.

`dfs_filesystem_lookup` compares the bytes of the mount paths with those of the path, and keeps the longest that fits as it
goes through the table; `dfs_subdir` finds the place from which on the file system gets the path, on its own. The two agree:
the file system is the one with the longest mount path whose names are the first of the path (`filesystem_lookup`).
-/
import CoreLink.Lib.PathPrefix
import CoreLink.RtThread.DfsPath

namespace CoreLink.RtThread

open CoreLink.Lib

/-! ## The functions -/

/-- `struct dfs_filesystem_ops`: `flags & DFS_FS_FLAG_FULLPATH`, and which of the functions there are. -/
structure DfsOps where
  fullpath : Bool
  hasOpen : Bool
  hasUnlink : Bool

/-- `struct dfs_filesystem`, an entry of `filesystem_table`. -/
structure DfsFilesystem where
  path : Option (List Char)
  ops : Option DfsOps

/-- The loop of `dfs_filesystem_lookup`, from entry `i` on: the file system that has been found, and the length of its path. -/
def lookupLoop (path : List Char) : List DfsFilesystem → ℕ → Option ℕ → ℕ → Option ℕ
  | [], _, fs, _ => fs
  | iter :: rest, i, fs, prefixlen =>
    match iter.path, iter.ops with
    | some fspath, some _ =>
      if fspath.length < prefixlen ∨ ¬fspath <+: path then lookupLoop path rest (i + 1) fs prefixlen
      -- check next path separator
      else if fspath.length > 1 ∧ path.length > fspath.length ∧ path[fspath.length]? ≠ some '/' then
        lookupLoop path rest (i + 1) fs prefixlen
      else lookupLoop path rest (i + 1) (some i) fspath.length
    | _, _ => lookupLoop path rest (i + 1) fs prefixlen

/-- `dfs_filesystem_lookup`: the index of the entry. -/
def dfsFilesystemLookup (table : List DfsFilesystem) (path : List Char) : Option ℕ := lookupLoop path table 0 none 0

/-- `dfs_subdir`; `none` for `NULL`. -/
def dfsSubdir (directory filename : List Char) : Option (List Char) :=
  if directory.length = filename.length then none
  else
    let dir := filename.drop directory.length
    if dir.head? ≠ some '/' ∧ directory.length ≠ 0 then some (filename.drop (directory.length - 1)) else some dir

/-- The path that a file system gets: what `dfs_file_open` stores in the descriptor, and `dfs_file_unlink` passes on. -/
def fsPath (mount : List Char) (ops : DfsOps) (fullpath : List Char) : List Char :=
  if ops.fullpath then fullpath else (dfsSubdir mount fullpath).getD ['/']

/-- The types of a descriptor that `dfs_file_open` sets. -/
inductive FdType where
  | regular
  | directory
deriving DecidableEq

/-- `struct dfs_fd`, without `pos`, `size` and `data`, which the file system sets, and what `fd_get` and `fd_put` use. -/
structure FileFd where
  fs : ℕ
  /-- `fops != NULL` -/
  hasFops : Bool
  path : Option (List Char)
  type : FdType
  flags : ℕ

/-- The errors of `dfs_file_open` and `dfs_file_unlink`, and what the file system returns. -/
inductive DfsFileErr where
  | einval
  | enomem
  | enoent
  | ebusy
  | enosys
  | failed (result : Int)

/-- The descriptor that `dfs_file_open` hands over to the file system. -/
def fdFor (i : ℕ) (mount : List Char) (ops : DfsOps) (fullpath : List Char) (flags : ℕ) : FileFd where
  fs := i
  hasFops := true
  path := some (fsPath mount ops fullpath)
  type := .regular
  flags := flags

def dfsFOpen : ℕ := 0x01000000

def dfsFDirectory : ℕ := 0x02000000

/-- `O_DIRECTORY` of `libc_fcntl.h`, without newlib. -/
def oDirectory : ℕ := 0x10000

/-- The end of `dfs_file_open`. -/
def opened (fd : FileFd) (flags : ℕ) : FileFd :=
  let fd := { fd with flags := fd.flags ||| dfsFOpen }
  if flags &&& oDirectory ≠ 0 then { fd with type := .directory, flags := fd.flags ||| dfsFDirectory } else fd

/-- `dfs_file_open`, with the working directory, if there is memory for the path, and what `open` of the file system says. -/
def dfsFileOpen (table : List DfsFilesystem) (workdir : Option (List Char)) (memory : Bool) (fsOpen : FileFd → Int)
    (path : List Char) (flags : ℕ) : Except DfsFileErr FileFd :=
  match dfsNormalizePath workdir memory path with
  | none => .error .enomem
  | some fullpath =>
    match dfsFilesystemLookup table fullpath with
    | none => .error .enoent
    | some i =>
      match table[i]? with
      | some ⟨some mount, some ops⟩ =>
        let fd := fdFor i mount ops fullpath flags
        if ops.hasOpen = false then .error .enosys
        else if fsOpen fd < 0 then .error (.failed (fsOpen fd))
        else .ok (opened fd flags)
      | _ => .error .enoent

/-! ## What they find -/

/-- Entry `i` is in use, and mounted at the path that is written from `cs`. -/
def MountedAt (table : List DfsFilesystem) (i : ℕ) (cs : List (List Char)) : Prop :=
  ∃ fs, table[i]? = some fs ∧ fs.path = some (Paths.absolute cs) ∧ fs.ops.isSome ∧ ∀ c ∈ cs, Paths.IsName c

/-- **The mount table**: the entries in use have normalized absolute paths, no two of them the same. -/
structure Mounts (table : List DfsFilesystem) : Prop where
  normal : ∀ i fs, table[i]? = some fs → fs.path.isSome → fs.ops.isSome → ∃ cs, MountedAt table i cs
  distinct : ∀ i j cs, MountedAt table i cs → MountedAt table j cs → i = j

/-- The test of an entry: it is in use, its path is a prefix of the path, and the next byte is a separator. -/
def Fits (path : List Char) (iter : DfsFilesystem) (fspath : List Char) : Prop :=
  iter.path = some fspath ∧ iter.ops.isSome ∧ fspath <+: path ∧
    ¬(fspath.length > 1 ∧ path.length > fspath.length ∧ path[fspath.length]? ≠ some '/')

variable {table rest : List DfsFilesystem} {path fspath : List Char} {i j k prefixlen : ℕ} {fs : Option ℕ}
  {cs ds names : List (List Char)} {iter : DfsFilesystem}

theorem MountedAt.unique (h : MountedAt table i cs) (h' : MountedAt table i ds) : cs = ds := by
  obtain ⟨fs, hi, hpath, -, hcs⟩ := h
  obtain ⟨fs', hi', hpath', -, hds⟩ := h'
  obtain rfl := Option.some.inj (hi.symm.trans hi')
  exact Paths.absolute_inj hcs hds (Option.some.inj (hpath.symm.trans hpath'))

theorem Fits.path_unique {fspath' : List Char} (h : Fits path iter fspath) (h' : Fits path iter fspath') : fspath = fspath' :=
  Option.some.inj (h.1.symm.trans h'.1)

/-- One round, on an entry that does not count. -/
theorem lookupLoop_skip (h : ∀ fspath, Fits path iter fspath → fspath.length < prefixlen) :
    lookupLoop path (iter :: rest) i fs prefixlen = lookupLoop path rest (i + 1) fs prefixlen := by
  conv_lhs => unfold lookupLoop
  cases hp : iter.path with
  | none => rfl
  | some fspath =>
    cases ho : iter.ops with
    | none => rfl
    | some ops =>
      dsimp only
      by_cases hpre : fspath.length < prefixlen ∨ ¬fspath <+: path
      · rw [if_pos hpre]
      · rw [if_neg hpre]
        by_cases hsep : fspath.length > 1 ∧ path.length > fspath.length ∧ path[fspath.length]? ≠ some '/'
        · rw [if_pos hsep]
        · obtain ⟨hlen, hprefix⟩ := not_or.mp hpre
          exact absurd (h fspath ⟨hp, by rw [ho]; rfl, not_not.mp hprefix, hsep⟩) hlen

/-- One round, on an entry that fits and is not shorter. -/
theorem lookupLoop_take (h : Fits path iter fspath) (hlen : ¬fspath.length < prefixlen) :
    lookupLoop path (iter :: rest) i fs prefixlen = lookupLoop path rest (i + 1) (some i) fspath.length := by
  obtain ⟨hp, ho, hprefix, hsep⟩ := h
  obtain ⟨ops, hops⟩ := Option.isSome_iff_exists.mp ho
  conv_lhs => unfold lookupLoop
  rw [hp, hops]
  dsimp only
  rw [if_neg (not_or.mpr ⟨hlen, not_not.mpr hprefix⟩), if_neg hsep]

/-- **The loop**: the entry that comes out is the one found before or fits, and no entry that fits has a longer path. -/
theorem lookupLoop_spec (path : List Char) (rest : List DfsFilesystem) (i : ℕ) (fs : Option ℕ) (prefixlen : ℕ) :
    (lookupLoop path rest i fs prefixlen = fs ∧
        ∀ iter ∈ rest, ∀ fspath, Fits path iter fspath → fspath.length < prefixlen) ∨
      ∃ k iter fspath, lookupLoop path rest i fs prefixlen = some (i + k) ∧ rest[k]? = some iter ∧
        Fits path iter fspath ∧ prefixlen ≤ fspath.length ∧
        ∀ iter' ∈ rest, ∀ fspath', Fits path iter' fspath' → fspath'.length ≤ fspath.length := by
  induction rest generalizing i fs prefixlen with
  | nil => exact Or.inl ⟨rfl, nofun⟩
  | cons iter rest ih =>
    by_cases htake : ∃ fspath, Fits path iter fspath ∧ ¬fspath.length < prefixlen
    · obtain ⟨fspath, hfits, hlen⟩ := htake
      have hhead : ∀ fspath', Fits path iter fspath' → fspath'.length ≤ fspath.length := fun fspath' h =>
        (h.path_unique hfits) ▸ Nat.le_refl _
      rw [lookupLoop_take hfits hlen]
      rcases ih (i + 1) (some i) fspath.length with ⟨heq, hall⟩ | ⟨k, iter', fspath', heq, hk, hfits', hle, hall⟩
      · refine Or.inr ⟨0, iter, fspath, heq, rfl, hfits, Nat.le_of_not_lt hlen, fun iter' hm fspath' h => ?_⟩
        rcases List.mem_cons.mp hm with rfl | hm
        · exact hhead fspath' h
        · exact Nat.le_of_lt (hall iter' hm fspath' h)
      · refine Or.inr ⟨k + 1, iter', fspath', ?_, hk, hfits', by omega, fun iter'' hm fspath'' h => ?_⟩
        · rw [heq, Nat.add_assoc, Nat.add_comm 1]
        · rcases List.mem_cons.mp hm with rfl | hm
          · exact Nat.le_trans (hhead fspath'' h) hle
          · exact hall iter'' hm fspath'' h
    · have hskip : ∀ fspath, Fits path iter fspath → fspath.length < prefixlen := fun fspath h =>
        not_not.mp fun hlen => htake ⟨fspath, h, hlen⟩
      rw [lookupLoop_skip hskip]
      rcases ih (i + 1) fs prefixlen with ⟨heq, hall⟩ | ⟨k, iter', fspath', heq, hk, hfits', hle, hall⟩
      · refine Or.inl ⟨heq, fun iter' hm fspath' h => ?_⟩
        rcases List.mem_cons.mp hm with rfl | hm
        · exact hskip fspath' h
        · exact hall iter' hm fspath' h
      · refine Or.inr ⟨k + 1, iter', fspath', ?_, hk, hfits', hle, fun iter'' hm fspath'' h => ?_⟩
        · rw [heq, Nat.add_assoc, Nat.add_comm 1]
        · rcases List.mem_cons.mp hm with rfl | hm
          · exact Nat.le_of_lt (Nat.lt_of_lt_of_le (hskip fspath'' h) hle)
          · exact hall iter'' hm fspath'' h

/-! ## Bytes and names -/

/-- **The test of a mount path** is that its names are the first of the path. -/
theorem fits_iff (hcs : ∀ c ∈ cs, Paths.IsName c) (hnames : ∀ c ∈ names, Paths.IsName c) (hp : iter.path = some (Paths.absolute cs))
    (ho : iter.ops.isSome) : Fits (Paths.absolute names) iter (Paths.absolute cs) ↔ cs <+: names := by
  unfold Fits
  rw [and_iff_right hp, and_iff_right ho]
  by_cases hroot : cs = []
  · subst hroot
    refine iff_of_true ⟨⟨Paths.relative names, rfl⟩, fun h => ?_⟩ List.nil_prefix
    exact absurd h.1 (by decide)
  · have hlong : (Paths.absolute cs).length > 1 := by
      rw [Paths.absolute_eq_slashed hroot]
      obtain ⟨c, cs, rfl⟩ := List.exists_cons_of_ne_nil hroot
      have hc := List.length_pos_of_ne_nil (hcs c List.mem_cons_self).nonempty
      rw [Paths.slashed_cons, List.length_append, List.length_cons]
      omega
    by_cases hnil : names = []
    · subst hnil
      refine iff_of_false (fun h => ?_) fun h => hroot (List.prefix_nil.mp h)
      have hle := h.1.length_le
      rw [Paths.absolute_nil, List.length_singleton] at hle
      omega
    · rw [and_iff_right hlong, ← Paths.slashed_prefix_iff hcs hnames, Paths.absolute_eq_slashed hroot,
        Paths.absolute_eq_slashed hnil]
      constructor
      · rintro ⟨⟨t, ht⟩, hsep⟩
        refine ⟨t, ht, ?_⟩
        by_cases htnil : t = []
        · exact Or.inl htnil
        · refine Or.inr ?_
          have hpos := List.length_pos_of_ne_nil htnil
          rw [← ht, List.length_append, List.getElem?_append_right (Nat.le_refl _), Nat.sub_self] at hsep
          rw [List.head?_eq_getElem?]
          by_contra hne
          exact hsep ⟨by omega, hne⟩
      · rintro ⟨t, ht, hb⟩
        refine ⟨⟨t, ht⟩, ?_⟩
        rw [← ht, List.length_append, List.getElem?_append_right (Nat.le_refl _), Nat.sub_self, ← List.head?_eq_getElem?]
        rintro ⟨hpos, hne⟩
        rcases hb with rfl | hhead
        · rw [List.length_nil] at hpos
          omega
        · exact hne hhead

/-- For two prefixes of one list of names the longer one has the longer path. -/
theorem length_absolute_le (hcs : cs <+: names) (hds : ds <+: names) (hnames : ∀ c ∈ names, Paths.IsName c) :
    (Paths.absolute cs).length ≤ (Paths.absolute ds).length ↔ cs.length ≤ ds.length := by
  have hmono : ∀ {as bs : List (List Char)}, as <+: bs → (∀ b ∈ bs, Paths.IsName b) → as ≠ bs →
      (Paths.absolute as).length < (Paths.absolute bs).length := by
    rintro as bs ⟨t, rfl⟩ hbs hne
    have ht : t ≠ [] := fun h => hne (by rw [h, List.append_nil])
    obtain ⟨c, t, rfl⟩ := List.exists_cons_of_ne_nil ht
    have hc := List.length_pos_of_ne_nil (hbs c (List.mem_append_right as List.mem_cons_self)).nonempty
    rw [Paths.absolute_eq_slashed (List.append_ne_nil_of_right_ne_nil as ht), Paths.slashed_append, Paths.slashed_cons,
      List.length_append, List.length_append, List.length_cons]
    by_cases has : as = []
    · subst has
      rw [Paths.absolute_nil, List.length_singleton]
      omega
    · rw [Paths.absolute_eq_slashed has]
      omega
  rcases Nat.le_total cs.length ds.length with hle | hle
  · refine iff_of_true ?_ hle
    have hpre := List.prefix_of_prefix_length_le hcs hds hle
    by_cases heq : cs = ds
    · exact heq ▸ Nat.le_refl _
    · exact Nat.le_of_lt (hmono hpre (fun d hd => hnames d (hds.subset hd)) heq)
  · have hpre := List.prefix_of_prefix_length_le hds hcs hle
    by_cases heq : ds = cs
    · rw [heq]
      exact iff_of_true (Nat.le_refl _) (Nat.le_refl _)
    · have hlt := hmono hpre (fun c hc => hnames c (hcs.subset hc)) heq
      have hne : ds.length ≠ cs.length := fun h => heq (hpre.eq_of_length h)
      constructor
      · intro h
        omega
      · intro h
        omega

/-- **`dfs_subdir` finds the names that are left**, with a separator in front of each of them. -/
theorem dfsSubdir_eq (hcs : ∀ c ∈ cs, Paths.IsName c) (hds : ∀ d ∈ ds, Paths.IsName d) :
    dfsSubdir (Paths.absolute cs) (Paths.absolute (cs ++ ds)) = if ds = [] then none else some (Paths.slashed ds) := by
  unfold dfsSubdir
  by_cases hnil : ds = []
  · subst hnil
    rw [List.append_nil, if_pos rfl, if_pos rfl]
  · obtain ⟨d, ds, rfl⟩ := List.exists_cons_of_ne_nil hnil
    have hd := hds d List.mem_cons_self
    have hpos := List.length_pos_of_ne_nil hd.nonempty
    have hfull : Paths.absolute (cs ++ d :: ds) = Paths.slashed cs ++ Paths.slashed (d :: ds) := by
      rw [Paths.absolute_eq_slashed (List.append_ne_nil_of_right_ne_nil cs hnil), Paths.slashed_append]
    have hlen : (Paths.slashed (d :: ds)).length = 1 + d.length + (Paths.slashed ds).length := by
      rw [Paths.slashed_cons, List.length_append, List.length_cons, Nat.add_comm d.length]
    rw [if_neg hnil, hfull]
    by_cases hroot : cs = []
    · -- the separator is the whole mount path, and `dfs_subdir` goes back to it
      subst hroot
      rw [Paths.slashed_nil, List.nil_append, Paths.absolute_nil, List.length_singleton, if_neg (by omega)]
      have hhead : (List.drop 1 (Paths.slashed (d :: ds))).head? ≠ some '/' := by
        obtain ⟨x, xs, rfl⟩ := List.exists_cons_of_ne_nil hd.nonempty
        intro h
        have hx : x = '/' := Option.some.inj h
        exact hd.noSep (hx ▸ List.mem_cons_self)
      dsimp only
      rw [if_pos ⟨hhead, Nat.one_ne_zero⟩]
      rfl
    · rw [Paths.absolute_eq_slashed hroot, List.length_append, if_neg (by omega), List.drop_left]
      dsimp only
      have hhead : (Paths.slashed (d :: ds)).head? = some '/' := rfl
      rw [if_neg fun h => h.1 hhead]

/-- **The path that the file system gets**, if it does not want the full one. -/
theorem fsPath_eq (hcs : ∀ c ∈ cs, Paths.IsName c) (hds : ∀ d ∈ ds, Paths.IsName d) {ops : DfsOps}
    (hops : ops.fullpath = false) : fsPath (Paths.absolute cs) ops (Paths.absolute (cs ++ ds)) = Paths.absolute ds := by
  unfold fsPath
  rw [if_neg (by rw [hops]; exact Bool.false_ne_true), dfsSubdir_eq hcs hds]
  by_cases hnil : ds = []
  · rw [if_pos hnil, hnil]
    rfl
  · rw [if_neg hnil, Paths.absolute_eq_slashed hnil]
    rfl

/-- The mount path and the rest of the path name the file together. -/
theorem normalize_mount_append (hcs : ∀ c ∈ cs, Paths.IsName c) (hds : ∀ d ∈ ds, Paths.IsName d) :
    Paths.normalize (Paths.absolute cs ++ Paths.absolute ds) = Paths.absolute (cs ++ ds) := by
  have hcomponents : Paths.components (Paths.absolute cs ++ Paths.absolute ds) = cs ++ ds := by
    have hrest : Paths.components (Paths.absolute ds) = ds := by
      rw [show Paths.absolute ds = '/' :: Paths.relative ds from rfl, Paths.components_sep, Paths.components_relative hds]
    by_cases hroot : cs = []
    · subst hroot
      rw [Paths.absolute_nil, List.singleton_append, Paths.components_sep, hrest]
      rfl
    · rw [Paths.absolute_eq_slashed hroot, Paths.components_slashed_append hcs (Or.inr rfl), hrest]
  unfold Paths.normalize Paths.resolve
  rw [hcomponents, Paths.foldl_push (List.forall_mem_append.mpr ⟨hcs, hds⟩), List.append_nil, List.reverse_reverse]

/-! ## The lookup -/

/-- The entries that fit are those with the names of their mount path in front. -/
theorem Mounts.fits_iff (h : Mounts table) (hnames : ∀ c ∈ names, Paths.IsName c) (hi : table[i]? = some iter) :
    Fits (Paths.absolute names) iter fspath ↔ ∃ cs, MountedAt table i cs ∧ cs <+: names ∧ fspath = Paths.absolute cs := by
  constructor
  · intro hfits
    obtain ⟨cs, hm⟩ := h.normal i iter hi (by rw [hfits.1]; rfl) hfits.2.1
    obtain ⟨fs, hi', hp, ho, hcs⟩ := hm
    obtain rfl := Option.some.inj (hi.symm.trans hi')
    obtain rfl := Option.some.inj (hfits.1.symm.trans hp)
    exact ⟨cs, ⟨iter, hi, hp, ho, hcs⟩, (RtThread.fits_iff hcs hnames hp ho).mp hfits, rfl⟩
  · rintro ⟨cs, ⟨fs, hi', hp, ho, hcs⟩, hprefix, rfl⟩
    obtain rfl := Option.some.inj (hi.symm.trans hi')
    exact (RtThread.fits_iff hcs hnames hp ho).mpr hprefix

/-- The file system that a path belongs to. -/
theorem Mounts.lookup_some_iff (h : Mounts table) (hnames : ∀ c ∈ names, Paths.IsName c) :
    dfsFilesystemLookup table (Paths.absolute names) = some i ↔ ∃ cs, MountedAt table i cs ∧ cs <+: names ∧
      ∀ j ds, MountedAt table j ds → ds <+: names → (Paths.absolute ds).length ≤ (Paths.absolute cs).length := by
  unfold dfsFilesystemLookup
  rcases lookupLoop_spec (Paths.absolute names) table 0 none 0 with ⟨heq, hall⟩ | ⟨k, iter, fspath, heq, hk, hfits, -, hall⟩
  · rw [heq]
    refine iff_of_false nofun ?_
    rintro ⟨cs, hm, hprefix, -⟩
    obtain ⟨fs, hi, -⟩ := id hm
    exact absurd (hall fs (List.mem_of_getElem? hi) _ ((h.fits_iff hnames hi).mpr ⟨cs, hm, hprefix, rfl⟩)) (Nat.not_lt_zero _)
  · rw [heq, Nat.zero_add]
    obtain ⟨cs, hm, hprefix, rfl⟩ := (h.fits_iff hnames hk).mp hfits
    have hlongest : ∀ j ds, MountedAt table j ds → ds <+: names →
        (Paths.absolute ds).length ≤ (Paths.absolute cs).length := by
      intro j ds hm' hprefix'
      obtain ⟨fs, hj, -⟩ := id hm'
      exact hall fs (List.mem_of_getElem? hj) _ ((h.fits_iff hnames hj).mpr ⟨ds, hm', hprefix', rfl⟩)
    constructor
    · intro hki
      obtain rfl := Option.some.inj hki
      exact ⟨cs, hm, hprefix, hlongest⟩
    · rintro ⟨ds, hm', hprefix', hlongest'⟩
      have hle := (length_absolute_le hprefix' hprefix hnames).mp (hlongest i ds hm' hprefix')
      have hge := (length_absolute_le hprefix hprefix' hnames).mp (hlongest' k cs hm hprefix)
      have hsame : cs = ds :=
        (List.prefix_of_prefix_length_le hprefix hprefix' hge).eq_of_length (Nat.le_antisymm hge hle)
      rw [h.distinct k i cs hm (hsame ▸ hm')]

/-- No file system has a path. -/
theorem Mounts.lookup_none_iff (h : Mounts table) (hnames : ∀ c ∈ names, Paths.IsName c) :
    dfsFilesystemLookup table (Paths.absolute names) = none ↔ ∀ i cs, MountedAt table i cs → ¬cs <+: names := by
  unfold dfsFilesystemLookup
  rcases lookupLoop_spec (Paths.absolute names) table 0 none 0 with ⟨heq, hall⟩ | ⟨k, iter, fspath, heq, hk, hfits, -, -⟩
  · rw [heq]
    refine iff_of_true rfl fun i cs hm hprefix => ?_
    obtain ⟨fs, hi, -⟩ := id hm
    exact absurd (hall fs (List.mem_of_getElem? hi) _ ((h.fits_iff hnames hi).mpr ⟨cs, hm, hprefix, rfl⟩)) (Nat.not_lt_zero _)
  · rw [heq]
    obtain ⟨cs, hm, hprefix, -⟩ := (h.fits_iff hnames hk).mp hfits
    exact iff_of_false nofun fun hnone => hnone k cs hm hprefix

/-- **The route of a path**, for every table with distinct normalized mount paths: the file system is the one with the
longest mount path in front of the path, component by component; and if it does not want full paths, it gets one that begins
with a separator, and names the same file behind the mount path. -/
theorem filesystem_lookup (h : Mounts table) (hnames : ∀ c ∈ names, Paths.IsName c) :
    (∀ i, dfsFilesystemLookup table (Paths.absolute names) = some i ↔ ∃ cs, MountedAt table i cs ∧ cs <+: names ∧
      ∀ j ds, MountedAt table j ds → ds <+: names → (Paths.absolute ds).length ≤ (Paths.absolute cs).length) ∧
    (dfsFilesystemLookup table (Paths.absolute names) = none ↔ ∀ i cs, MountedAt table i cs → ¬cs <+: names) ∧
    ∀ i mount ops flags, dfsFilesystemLookup table (Paths.absolute names) = some i →
      table[i]? = some ⟨some mount, some ops⟩ → ops.fullpath = false →
        ∃ sub, (fdFor i mount ops (Paths.absolute names) flags).path = some sub ∧ sub.head? = some '/' ∧
          Paths.normalize (mount ++ sub) = Paths.absolute names := by
  refine ⟨fun i => h.lookup_some_iff hnames, h.lookup_none_iff hnames, fun i mount ops flags hlookup hi hops => ?_⟩
  obtain ⟨cs, ⟨fs, hi', hp, -, hcs⟩, ⟨ds, rfl⟩, -⟩ := (h.lookup_some_iff hnames).mp hlookup
  obtain rfl := Option.some.inj (hi.symm.trans hi')
  obtain rfl := Option.some.inj hp
  have hds : ∀ d ∈ ds, Paths.IsName d := fun d hd => hnames d (List.mem_append_right cs hd)
  exact ⟨Paths.absolute ds, congrArg some (fsPath_eq hcs hds hops), rfl, normalize_mount_append hcs hds⟩

/-- A file system at the root, and one at `/mnt`. -/
def twoMounts : List DfsFilesystem :=
  [⟨some ['/'], some ⟨false, true, true⟩⟩, ⟨some ['/', 'm', 'n', 't'], some ⟨false, true, true⟩⟩]

theorem mounts_twoMounts : Mounts twoMounts where
  normal := by
    intro i fs hi _ _
    match i with
    | 0 => exact ⟨[], fs, hi, (Option.some.inj hi) ▸ rfl, (Option.some.inj hi) ▸ rfl, nofun⟩
    | 1 =>
      refine ⟨[['m', 'n', 't']], fs, hi, (Option.some.inj hi) ▸ rfl, (Option.some.inj hi) ▸ rfl, fun c hc => ?_⟩
      rw [List.mem_singleton.mp hc]
      exact ⟨by decide, by decide, by decide, by decide⟩
    | i + 2 => exact nomatch hi
  distinct := by
    rintro i j cs ⟨fs, hi, hp, -, -⟩ ⟨fs', hj, hp', -, -⟩
    have hlen : ∀ {k : ℕ} {fs : DfsFilesystem}, twoMounts[k]? = some fs → fs.path = some (Paths.absolute cs) →
        (Paths.absolute cs).length = 1 + 3 * k ∧ k < 2 := by
      intro k fs hk hpath
      match k with
      | 0 =>
        obtain rfl := Option.some.inj hk
        rw [← Option.some.inj hpath]
        decide
      | 1 =>
        obtain rfl := Option.some.inj hk
        rw [← Option.some.inj hpath]
        decide
      | k + 2 => exact nomatch hk
    have h := hlen hi hp
    have h' := hlen hj hp'
    omega

/-- `/mnt/a` belongs to the file system at `/mnt`, which gets `/a`. -/
theorem filesystem_lookup_mnt : ∃ sub,
    dfsFilesystemLookup twoMounts (Paths.absolute [['m', 'n', 't'], ['a']]) = some 1 ∧
      (fdFor 1 ['/', 'm', 'n', 't'] ⟨false, true, true⟩ (Paths.absolute [['m', 'n', 't'], ['a']]) 0).path = some sub ∧
        sub.head? = some '/' := by
  have hnames : ∀ c ∈ [['m', 'n', 't'], ['a']], Paths.IsName c := by
    intro c hc
    rcases List.mem_cons.mp hc with rfl | hc
    · exact ⟨by decide, by decide, by decide, by decide⟩
    · rw [List.mem_singleton.mp hc]
      exact ⟨by decide, by decide, by decide, by decide⟩
  obtain ⟨sub, hsub, hhead, -⟩ :=
    (filesystem_lookup mounts_twoMounts hnames).2.2 1 ['/', 'm', 'n', 't'] ⟨false, true, true⟩ 0 (by decide) rfl rfl
  exact ⟨sub, by decide, hsub, hhead⟩

end CoreLink.RtThread
