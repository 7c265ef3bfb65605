/-
# `CoreLink.RtThread.RamfsNames` — the names of `components/dfs/filesystems/ramfs/dfs_ramfs.c`.

A path comes from DFS with a separator in front. `dfs_ramfs_lookup` and `dfs_ramfs_open` take it away, `dfs_ramfs_getdents`
lists what is stored, and `dfs_ramfs_rename` stores the new path as it comes: no lookup finds such an entry again, under
either of its names. Without such a rename the directory is a set of names, and that is what a reader of it gets
(`ramfs_names`).
-/
import CoreLink.RtThread.Ramfs
import Mathlib.Data.List.Nodup

namespace CoreLink.RtThread

open CoreLink.Lib

/-! ## The functions -/

/-- The errors of the operations on names. -/
inductive NameErr where
  | enoent
  | eexist
  | einval
  deriving DecidableEq

/-- The calls that DFS makes: the ones on a descriptor, and the ones for names. -/
inductive NameCall (F : Type*) where
  | file (call : RamCall F)
  | unlink (path : List Char)
  | rename (oldpath newpath : List Char)
  | getdents (f : F) (count : ℕ)

/-- What the calls return: an error or 0, or the number of bytes with the names in the records. -/
inductive NameOut where
  | file (out : RamOut)
  | unlinked (result : Option NameErr)
  | renamed (result : Option NameErr)
  | dents (result : Except NameErr (Int × List (List Char)))

/-- `sizeof(struct dirent)`, with `DFS_PATH_MAX`. -/
def direntSize : ℕ := 4 + 256

/-- `sizeof(struct ramfs_dirent)`. -/
def ramfsDirentSize : ℕ := 52

namespace Ramfs

variable {D F : Type*}

/-- The loop of `dfs_ramfs_getdents`: where it leaves the position, and the names. -/
def getdentsLoop (name : D → List Char) (stop : ℕ) : List D → ℕ → ℕ → ℕ × List (List Char)
  | [], _, pos => (pos, [])
  | d :: ds, index, pos =>
    if index < stop then
      if pos ≤ index then
        let r := getdentsLoop name stop ds (index + 1) (pos + 1)
        (r.1, (name d).take ramfsNameMax :: r.2)
      else getdentsLoop name stop ds (index + 1) pos
    else (pos, [])

section Calls

variable [DecidableEq D] [DecidableEq F]

/-- `dfs_ramfs_getdents`. -/
def dfsRamfsGetdents (s : Ramfs D F) (f : F) (x : RamFd D) (count : ℕ) :
    Ramfs D F × Except NameErr (Int × List (List Char)) :=
  if x.dirent ≠ s.root then (s, .error .einval)
  -- make integer count
  else if count / direntSize = 0 then (s, .error .einval)
  else
    let r := getdentsLoop s.name ((x.pos + count / direntSize) % 2 ^ 32) s.list 0 x.pos
    (s.setFd f (some { x with pos := r.1 }), .ok (toSigned (r.2.length * direntSize % 2 ^ 32), r.2))

/-- `dfs_ramfs_unlink`. The root directory is no block of memheap, and freeing it fails an assertion. -/
def dfsRamfsUnlink (s : Ramfs D F) (path : List Char) : Option (Ramfs D F × Option NameErr) :=
  match s.lookup path with
  | none => none
  | some none => some (s, some .enoent)
  | some (some d) =>
    if d = s.root then none
    else some ({ s with list := s.list.erase d, data := Function.update s.data d none }, none)

/-- `dfs_ramfs_rename`. -/
def dfsRamfsRename (s : Ramfs D F) (oldpath newpath : List Char) : Option (Ramfs D F × Option NameErr) :=
  match s.lookup newpath with
  | none => none
  | some (some _) => some (s, some .eexist)
  | some none =>
    match s.lookup oldpath with
    | none => none
    | some none => some (s, some .enoent)
    | some (some d) => some ({ s with name := Function.update s.name d (newpath.take ramfsNameMax) }, none)

/-- A call, with its result; `none` is a fault. -/
def execName (s : Ramfs D F) (call : NameCall F) (answer : RamAnswer D) : Option (Ramfs D F × NameOut) :=
  match call with
  | .file call => (s.exec call answer).map fun r => (r.1, .file r.2)
  | .unlink path => (s.dfsRamfsUnlink path).map fun r => (r.1, .unlinked r.2)
  | .rename oldpath newpath => (s.dfsRamfsRename oldpath newpath).map fun r => (r.1, .renamed r.2)
  | .getdents f count =>
    (s.fd f).map fun x => ((s.dfsRamfsGetdents f x count).1, .dents (s.dfsRamfsGetdents f x count).2)

end Calls

/-- That DFS makes a call, with names shorter than `RAMFS_NAME_MAX`: it hands over paths with a separator in front, and does
not unlink what is open. The entries are blocks of a memory with 32-bit addresses. -/
def NameEnabled (s : Ramfs D F) (call : NameCall F) (answer : RamAnswer D) : Prop :=
  match call with
  | .file call => s.Enabled call answer ∧
      (∀ f path flags, call = .openFd f path flags → (subpath path).length < ramfsNameMax) ∧
      (answer.entry.isSome → ramfsDirentSize * (s.list.length + 1) < 2 ^ 32)
  | .unlink path => path.head? = some '/' ∧ ∀ f x, s.fd f = some x → s.lookup path ≠ some (some x.dirent)
  | .rename oldpath newpath => oldpath.head? = some '/' ∧ newpath.head? = some '/' ∧
      (subpath newpath).length < ramfsNameMax
  | .getdents f count => (s.fd f).isSome ∧ count < 2 ^ 32

/-- One step: a call with its result. -/
def NameStep [DecidableEq D] [DecidableEq F] (s : Ramfs D F) (l : (NameCall F × RamAnswer D) × NameOut) (s' : Ramfs D F) :
    Prop :=
  s.NameEnabled l.1.1 l.1.2 ∧ s.execName l.1.1 l.1.2 = some (s', l.2)

/-! ## What a directory is for -/

/-- There is a file of the name. -/
def HasName (s : Ramfs D F) (name : List Char) : Prop := ∃ d, d ≠ s.root ∧ s.lookup ('/' :: name) = some (some d)

section Spec

variable [DecidableEq D] [DecidableEq F]

/-- **A rename that succeeds moves the entry**: the new path finds it with the same bytes, the old path finds nothing, and
every other name what it has found before. -/
def RenameRight (s : Ramfs D F) (oldpath newpath : List Char) : Prop :=
  ∀ s', s.dfsRamfsRename oldpath newpath = some (s', none) → ∀ d, s.lookup oldpath = some (some d) →
    s'.lookup newpath = some (some d) ∧ s'.data d = s.data d ∧ s'.size d = s.size d ∧ s'.lookup oldpath = some none ∧
      ∀ path, subpath path ≠ subpath oldpath → subpath path ≠ subpath newpath → s'.lookup path = s.lookup path

/-- Calls of `dfs_ramfs_getdents` one after the other, with buffers of `counts` bytes: the names that are listed. -/
def readDir (s : Ramfs D F) (f : F) : List ℕ → Option (Ramfs D F × List (List Char))
  | [] => some (s, [])
  | count :: counts =>
    (s.fd f).bind fun x =>
      (readDir (s.dfsRamfsGetdents f x count).1 f counts).map fun r =>
        (r.1, ((s.dfsRamfsGetdents f x count).2.toOption.elim [] Prod.snd) ++ r.2)

/-- The end of the directory: the next call returns 0. -/
def AtEnd (s : Ramfs D F) (f : F) : Prop :=
  ∃ x count, s.fd f = some x ∧ count < 2 ^ 32 ∧ (s.dfsRamfsGetdents f x count).2 = .ok (0, [])

/-- **Reading the directory to the end** lists each name once, and comes to an end. -/
def ReadsAll (s : Ramfs D F) (f : F) : Prop :=
  (∀ counts s' names, (∀ count ∈ counts, count < 2 ^ 32) → s.readDir f counts = some (s', names) → s'.AtEnd f →
    names.Nodup ∧ ∀ name, name.head? ≠ some '/' → (name ∈ names ↔ s.HasName name)) ∧
  ∀ counts, (∀ count ∈ counts, direntSize ≤ count ∧ count < 2 ^ 32) → s.list.length ≤ counts.length →
    ∃ s' names, s.readDir f counts = some (s', names) ∧ s'.AtEnd f

end Spec

/-! ## The directory -/

/-- **The directory between the calls**: the names are distinct, and what a path can be without its separators. -/
structure DirOk (s : Ramfs D F) : Prop where
  short : ∀ d ∈ s.list, (s.name d).length < ramfsNameMax
  named : ∀ d ∈ s.list, s.name d ≠ [] ∧ (s.name d).head? ≠ some '/'
  distinct : (s.list.map s.name).Nodup
  root : s.root ∉ s.list
  room : ramfsDirentSize * s.list.length < 2 ^ 32

theorem dirOk_init (root : D) : (init root : Ramfs D F).DirOk where
  short _ := nofun
  named _ := nofun
  distinct := List.nodup_nil
  root := List.not_mem_nil
  room := Nat.two_pow_pos 32

theorem subpath_head (path : List Char) : (subpath path).head? ≠ some '/' := by
  unfold subpath
  cases h : path.dropWhile (· = '/') with
  | nil => exact nofun
  | cons c cs =>
    have hc := List.head?_dropWhile_not (· = '/') path
    rw [h, List.head?_cons] at hc
    intro hhead
    rw [Option.some.inj hhead] at hc
    exact absurd hc (by decide)

theorem subpath_sep {name : List Char} (h : name.head? ≠ some '/') : subpath ('/' :: name) = name := by
  unfold subpath
  rw [List.dropWhile_cons_of_pos (by decide)]
  cases name with
  | nil => rfl
  | cons c cs => exact List.dropWhile_cons_of_neg fun hc => h (congrArg some (of_decide_eq_true hc))

variable {s s' : Ramfs D F} {d e : D} {path oldpath newpath : List Char} {f : F} {x : RamFd D}

/-- The lookup goes by the names. -/
theorem DirOk.lookup_eq (h : s.DirOk) (path : List Char) : s.lookup path =
    if subpath path = [] then some (some s.root) else some (s.list.find? fun d => s.name d = subpath path) := by
  unfold lookup
  rw [lookupIn_eq h.short]

theorem find_name {name : List Char} {ds : List D} (h : (ds.find? fun d => s.name d = name) = some d) :
    d ∈ ds ∧ s.name d = name :=
  ⟨List.mem_of_find?_eq_some h, by simpa using List.find?_some h⟩

/-- What a path finds other than the root directory. -/
theorem DirOk.lookup_some_iff (h : s.DirOk) (hne : d ≠ s.root) :
    s.lookup path = some (some d) ↔ d ∈ s.list ∧ s.name d = subpath path := by
  rw [h.lookup_eq]
  by_cases hroot : subpath path = []
  · rw [if_pos hroot]
    refine iff_of_false (fun heq => hne (Option.some.inj (Option.some.inj heq)).symm) ?_
    rintro ⟨hd, hname⟩
    exact (h.named d hd).1 (hname.trans hroot)
  · rw [if_neg hroot]
    constructor
    · intro hfind
      exact find_name (Option.some.inj hfind)
    · rintro ⟨hd, hname⟩
      cases hfind : s.list.find? fun d => s.name d = subpath path with
      | none => exact absurd (decide_eq_true hname) (List.find?_eq_none.mp hfind d hd)
      | some e =>
        obtain ⟨he, hname'⟩ := find_name hfind
        rw [List.inj_on_of_nodup_map h.distinct he hd (hname'.trans hname.symm)]

/-- A path that finds nothing is a new name. -/
theorem DirOk.lookup_none_iff (h : s.DirOk) :
    s.lookup path = some none ↔ subpath path ≠ [] ∧ ∀ d ∈ s.list, s.name d ≠ subpath path := by
  rw [h.lookup_eq]
  by_cases hroot : subpath path = []
  · rw [if_pos hroot]
    exact iff_of_false nofun fun hne => hne.1 hroot
  · rw [if_neg hroot, and_iff_right hroot, Option.some.injEq, List.find?_eq_none]
    exact forall₂_congr fun d _ => not_congr decide_eq_true_iff

theorem DirOk.hasName_iff (h : s.DirOk) {name : List Char} (hname : name.head? ≠ some '/') :
    s.HasName name ↔ name ∈ s.list.map s.name := by
  rw [List.mem_map]
  constructor
  · rintro ⟨d, hne, hlookup⟩
    rw [h.lookup_some_iff hne, subpath_sep hname] at hlookup
    exact ⟨d, hlookup⟩
  · rintro ⟨d, hd, heq⟩
    have hne : d ≠ s.root := fun hroot => h.root (hroot ▸ hd)
    exact ⟨d, hne, (h.lookup_some_iff hne).mpr ⟨hd, heq.trans (subpath_sep hname).symm⟩⟩

/-! ## The calls -/

/-- What the directory consists of. -/
def SameDir (s s' : Ramfs D F) : Prop := s'.root = s.root ∧ s'.list = s.list ∧ s'.name = s.name

theorem DirOk.congr (h : s.DirOk) (hsame : s.SameDir s') : s'.DirOk := by
  obtain ⟨hroot, hlist, hname⟩ := hsame
  constructor
  · rw [hlist, hname]
    exact h.short
  · rw [hlist, hname]
    exact h.named
  · rw [hlist, hname]
    exact h.distinct
  · rw [hroot, hlist]
    exact h.root
  · rw [hlist]
    exact h.room

section Steps

variable [DecidableEq D]

/-- A new entry, under a name that nothing has. -/
theorem DirOk.grow (h : s.DirOk) (hnone : s.lookup path = some none) (hroot : d ≠ s.root) (hnew : d ∉ s.list)
    (hshort : (subpath path).length < ramfsNameMax) (hroom : ramfsDirentSize * (s.list.length + 1) < 2 ^ 32)
    (hs' : s'.root = s.root ∧ s'.list = d :: s.list ∧ s'.name = Function.update s.name d (subpath path)) : s'.DirOk := by
  obtain ⟨hroot', hlist, hname⟩ := hs'
  obtain ⟨hne, hfresh⟩ := h.lookup_none_iff.mp hnone
  have hkeep : ∀ e ∈ s.list, s'.name e = s.name e := by
    intro e he
    rw [hname, Function.update_of_ne (ne_of_mem_of_not_mem he hnew)]
  have hd : s'.name d = subpath path := by rw [hname, Function.update_self]
  constructor
  · rw [hlist, List.forall_mem_cons, hd]
    refine ⟨hshort, fun e he => ?_⟩
    rw [hkeep e he]
    exact h.short e he
  · rw [hlist, List.forall_mem_cons, hd]
    refine ⟨⟨hne, subpath_head path⟩, fun e he => ?_⟩
    rw [hkeep e he]
    exact h.named e he
  · rw [hlist, List.map_cons, hd, List.map_congr_left hkeep, List.nodup_cons, List.mem_map]
    refine ⟨?_, h.distinct⟩
    rintro ⟨e, he, heq⟩
    exact hfresh e he heq
  · rw [hroot', hlist, List.mem_cons]
    rintro (heq | hm)
    · exact hroot heq.symm
    · exact h.root hm
  · rw [hlist, List.length_cons]
    exact hroom

/-- An entry is taken away. -/
theorem DirOk.erase (h : s.DirOk) (hs' : s'.root = s.root ∧ s'.list = s.list.erase d ∧ s'.name = s.name) : s'.DirOk := by
  obtain ⟨hroot, hlist, hname⟩ := hs'
  have hsub : (s.list.erase d).Sublist s.list := List.erase_sublist
  constructor
  · rw [hlist, hname]
    exact fun e he => h.short e (hsub.subset he)
  · rw [hlist, hname]
    exact fun e he => h.named e (hsub.subset he)
  · rw [hlist, hname]
    exact h.distinct.sublist (hsub.map s.name)
  · rw [hroot, hlist]
    exact fun hm => h.root (hsub.subset hm)
  · rw [hlist]
    exact Nat.lt_of_le_of_lt (Nat.mul_le_mul_left _ hsub.length_le) h.room

variable [DecidableEq F]

theorem sameDir_attach (s : Ramfs D F) (f : F) (d : D) (flags : OpenFlags) :
    s.SameDir ((if flags.trunc then s.truncate d else s).attach f d flags) := by
  by_cases h : flags.trunc = true
  · rw [if_pos h]
    exact ⟨rfl, rfl, rfl⟩
  · rw [if_neg h]
    exact ⟨rfl, rfl, rfl⟩

/-- **An open** leaves the directory as it is, or puts an entry in front. -/
theorem open_dir {flags : OpenFlags} {entry : Option D} {result : Option RamErr}
    (h : s.dfsRamfsOpen f path flags entry = some (s', result)) :
    s.SameDir s' ∨ ∃ d, entry = some d ∧ s.lookup path = some none ∧
      s'.root = s.root ∧ s'.list = d :: s.list ∧ s'.name = Function.update s.name d ((subpath path).take ramfsNameMax) := by
  unfold dfsRamfsOpen at h
  by_cases hdir : flags.directory = true
  · rw [if_pos hdir] at h
    by_cases hcreat : flags.creat = true
    · rw [if_pos hcreat] at h
      cases h
      exact Or.inl ⟨rfl, rfl, rfl⟩
    · rw [if_neg hcreat] at h
      cases hlookup : s.lookup path with
      | none => rw [hlookup] at h; cases h
      | some o =>
        rw [hlookup] at h
        cases o with
        | none => cases h; exact Or.inl ⟨rfl, rfl, rfl⟩
        | some d => cases h; exact Or.inl ⟨rfl, rfl, rfl⟩
  · rw [if_neg hdir] at h
    cases hlookup : s.lookup path with
    | none => rw [hlookup] at h; cases h
    | some o =>
      rw [hlookup] at h
      dsimp only at h
      cases o with
      | some d =>
        dsimp only at h
        by_cases hroot : d = s.root
        · rw [if_pos hroot] at h
          cases h
          exact Or.inl ⟨rfl, rfl, rfl⟩
        · rw [if_neg hroot] at h
          cases h
          exact Or.inl (sameDir_attach s f d flags)
      | none =>
        dsimp only at h
        by_cases hcreate : flags.creat = true ∨ flags.wronly = true
        · rw [if_pos hcreate] at h
          cases entry with
          | none => cases h; exact Or.inl ⟨rfl, rfl, rfl⟩
          | some d =>
            cases h
            obtain ⟨hroot, hlist, hname⟩ := sameDir_attach (s.addEntry d (subpath path)) f d flags
            exact Or.inr ⟨d, rfl, rfl, hroot, hlist, hname⟩
        · rw [if_neg hcreate] at h
          cases h
          exact Or.inl ⟨rfl, rfl, rfl⟩

omit [DecidableEq D] in
theorem read_dir {count : ℕ} {r : Ramfs D F × Int × List UInt8} (h : s.dfsRamfsRead f x count = some r) :
    s.SameDir r.1 := by
  unfold dfsRamfsRead at h
  dsimp only at h
  rw [Option.ite_none_left_eq_some] at h
  rw [← Option.some.inj h.2]
  exact ⟨rfl, rfl, rfl⟩

theorem write_dir {buf : List UInt8} {block : Option (ℕ → UInt8)} {r : Ramfs D F × Int}
    (h : s.dfsRamfsWrite f x buf block = some r) : s.SameDir r.1 := by
  unfold dfsRamfsWrite at h
  dsimp only at h
  split at h
  · cases h
    exact ⟨rfl, rfl, rfl⟩
  · split at h
    · cases h
    · cases h
      exact ⟨rfl, rfl, rfl⟩

omit [DecidableEq D] in
theorem lseek_dir (s : Ramfs D F) (f : F) (x : RamFd D) (offset : ℕ) : s.SameDir (s.dfsRamfsLseek f x offset).1 := by
  unfold dfsRamfsLseek
  by_cases hoffset : offset ≤ toSigned x.size
  · rw [if_pos hoffset]
    exact ⟨rfl, rfl, rfl⟩
  · rw [if_neg hoffset]
    exact ⟨rfl, rfl, rfl⟩

/-- **A call on a descriptor** leaves the directory as it is, or puts an entry in front. -/
theorem exec_dir {call : RamCall F} {answer : RamAnswer D} {r : Ramfs D F × RamOut} (h : s.exec call answer = some r) :
    s.SameDir r.1 ∨ ∃ f path flags d, call = .openFd f path flags ∧ answer.entry = some d ∧ s.lookup path = some none ∧
      r.1.root = s.root ∧ r.1.list = d :: s.list ∧
        r.1.name = Function.update s.name d ((subpath path).take ramfsNameMax) := by
  unfold exec at h
  cases call with
  | openFd f path flags =>
    obtain ⟨r, hopen, rfl⟩ := Option.map_eq_some_iff.mp h
    rcases open_dir hopen with hsame | ⟨d, hentry, hrest⟩
    · exact Or.inl hsame
    · exact Or.inr ⟨f, path, flags, d, rfl, hentry, hrest⟩
  | read f count =>
    obtain ⟨x, -, hread⟩ := Option.bind_eq_some_iff.mp h
    obtain ⟨r, hr, rfl⟩ := Option.map_eq_some_iff.mp hread
    exact Or.inl (read_dir hr)
  | write f buf =>
    obtain ⟨x, -, hwrite⟩ := Option.bind_eq_some_iff.mp h
    obtain ⟨r, hr, rfl⟩ := Option.map_eq_some_iff.mp hwrite
    exact Or.inl (write_dir hr)
  | lseek f offset =>
    obtain ⟨x, -, rfl⟩ := Option.map_eq_some_iff.mp h
    exact Or.inl (lseek_dir s f x offset)
  | close f =>
    cases h
    exact Or.inl ⟨rfl, rfl, rfl⟩

theorem sameDir_getdents (s : Ramfs D F) (f : F) (x : RamFd D) (count : ℕ) :
    s.SameDir (s.dfsRamfsGetdents f x count).1 := by
  unfold dfsRamfsGetdents
  by_cases hroot : x.dirent ≠ s.root
  · rw [if_pos hroot]
    exact ⟨rfl, rfl, rfl⟩
  · rw [if_neg hroot]
    by_cases hcount : count / direntSize = 0
    · rw [if_pos hcount]
      exact ⟨rfl, rfl, rfl⟩
    · rw [if_neg hcount]
      exact ⟨rfl, rfl, rfl⟩

omit [DecidableEq F] in
/-- **An unlink** takes away an entry, or nothing. -/
theorem unlink_dir {result : Option NameErr} (h : s.dfsRamfsUnlink path = some (s', result)) :
    s.SameDir s' ∨ ∃ d, s'.root = s.root ∧ s'.list = s.list.erase d ∧ s'.name = s.name := by
  unfold dfsRamfsUnlink at h
  cases hlookup : s.lookup path with
  | none => rw [hlookup] at h; cases h
  | some o =>
    rw [hlookup] at h
    cases o with
    | none =>
      cases h
      exact Or.inl ⟨rfl, rfl, rfl⟩
    | some d =>
      dsimp only at h
      by_cases hroot : d = s.root
      · rw [if_pos hroot] at h
        cases h
      · rw [if_neg hroot] at h
        cases h
        exact Or.inr ⟨d, rfl, rfl, rfl⟩

/-- A rename is refused: the new name is there, or the old one is not. -/
def RenameRefused (s : Ramfs D F) (oldpath newpath : List Char) : Prop :=
  s.lookup newpath ≠ some none ∨ s.lookup oldpath = some none

omit [DecidableEq F] in
/-- A rename that is refused changes nothing. -/
theorem rename_refused {result : Option NameErr} (href : s.RenameRefused oldpath newpath)
    (h : s.dfsRamfsRename oldpath newpath = some (s', result)) : s' = s ∧ result ≠ none := by
  unfold dfsRamfsRename at h
  cases hnew : s.lookup newpath with
  | none => rw [hnew] at h; cases h
  | some o =>
    rw [hnew] at h
    cases o with
    | some e =>
      cases h
      exact ⟨rfl, nofun⟩
    | none =>
      rcases href with hne | hold
      · exact absurd hnew hne
      · rw [hold] at h
        cases h
        exact ⟨rfl, nofun⟩

/-- The condition on a call: a rename is refused. -/
def RenamesNothing (s : Ramfs D F) (call : NameCall F) : Prop :=
  match call with
  | .rename oldpath newpath => s.RenameRefused oldpath newpath
  | _ => True

/-- **The step lemma.** -/
theorem DirOk.step (h : s.DirOk) {call : NameCall F} {answer : RamAnswer D} {out : NameOut}
    (hok : s.RenamesNothing call) (hen : s.NameEnabled call answer) (hexec : s.execName call answer = some (s', out)) :
    s'.DirOk := by
  unfold execName at hexec
  cases call with
  | file call =>
    obtain ⟨hcall, hnames, hroom⟩ := hen
    obtain ⟨r, hfile, hr⟩ := Option.map_eq_some_iff.mp hexec
    cases hr
    rcases exec_dir hfile with hsame | ⟨f, path, flags, d, rfl, hentry, hnone, hroot, hlist, hname⟩
    · exact h.congr hsame
    · obtain ⟨hdroot, hnew⟩ := hcall.2 d hentry
      have hshort := hnames f path flags rfl
      rw [List.take_of_length_le (Nat.le_of_lt hshort)] at hname
      exact h.grow hnone hdroot hnew hshort (hroom (by rw [hentry]; rfl)) ⟨hroot, hlist, hname⟩
  | unlink path =>
    obtain ⟨r, hunlink, hr⟩ := Option.map_eq_some_iff.mp hexec
    cases hr
    rcases unlink_dir hunlink with hsame | ⟨d, hs'⟩
    · exact h.congr hsame
    · exact h.erase hs'
  | rename oldpath newpath =>
    obtain ⟨r, hrename, hr⟩ := Option.map_eq_some_iff.mp hexec
    cases hr
    rw [(rename_refused hok hrename).1]
    exact h
  | getdents f count =>
    obtain ⟨x, -, hr⟩ := Option.map_eq_some_iff.mp hexec
    cases hr
    exact h.congr (sameDir_getdents s f x count)

/-! ## Renaming -/

omit [DecidableEq D] in
/-- A name with a separator in front is not the one of any path. -/
theorem nameEq_sep {name : List Char} (h : name.head? = some '/') (path : List Char) :
    nameEq name (subpath path) = some false := by
  obtain ⟨cs, rfl⟩ := List.head?_eq_some_iff.mp h
  have hhead := subpath_head path
  unfold nameEq
  cases hsub : subpath path with
  | nil =>
    have hpre : ¬('/' :: cs).isPrefixOf [] = true := Bool.false_ne_true
    rw [decide_eq_false (List.cons_ne_nil _ _), if_neg hpre]
    exact ite_self _
  | cons d ds =>
    rw [hsub, List.head?_cons] at hhead
    have hne : '/' ≠ d := fun heq => hhead (congrArg some heq.symm)
    have hpre : ¬('/' :: cs).isPrefixOf (d :: ds) = true := fun hp => by
      rw [List.isPrefixOf_iff_prefix, List.cons_prefix_cons] at hp
      exact hne hp.1
    rw [decide_eq_false fun heq => hne (List.cons.inj heq).1, if_neg hpre]
    exact ite_self _

omit [DecidableEq D] [DecidableEq F] in
theorem lookupIn_none {ds : List D} (h : ∀ d ∈ ds, nameEq (s.name d) path = some false) :
    s.lookupIn path ds = some none := by
  induction ds with
  | nil => rfl
  | cons d ds ih =>
    obtain ⟨hd, hds⟩ := List.forall_mem_cons.mp h
    rw [lookupIn, hd]
    exact ih hds

omit [DecidableEq F] in
/-- **Where a rename succeeds, the new path finds nothing afterwards.** -/
theorem DirOk.rename_lost (h : s.DirOk) (hhead : newpath.head? = some '/') (hnew : s.lookup newpath = some none)
    (d : D) : lookup { s with name := Function.update s.name d (newpath.take ramfsNameMax) } newpath = some none := by
  obtain ⟨hne, hfresh⟩ := h.lookup_none_iff.mp hnew
  unfold lookup
  rw [if_neg hne]
  refine lookupIn_none fun e he => ?_
  show nameEq (Function.update s.name d (newpath.take ramfsNameMax) e) (subpath newpath) = some false
  by_cases heq : e = d
  · rw [heq, Function.update_self]
    refine nameEq_sep ?_ newpath
    obtain ⟨cs, rfl⟩ := List.head?_eq_some_iff.mp hhead
    rfl
  · rw [Function.update_of_ne heq]
    unfold nameEq
    rw [if_pos (h.short e he), decide_eq_false (hfresh e he)]

omit [DecidableEq F] in
/-- **A rename is right exactly if it is refused.** -/
theorem DirOk.renameRight_iff (h : s.DirOk) (hhead : newpath.head? = some '/') :
    s.RenameRight oldpath newpath ↔ s.RenameRefused oldpath newpath := by
  constructor
  · intro hright
    by_contra href
    obtain ⟨hnew, hold⟩ := not_or.mp href
    have hnew := not_not.mp hnew
    have hlookup : ∃ d, s.lookup oldpath = some (some d) := by
      rw [h.lookup_eq] at hold ⊢
      by_cases hroot : subpath oldpath = []
      · rw [if_pos hroot]
        exact ⟨s.root, rfl⟩
      · rw [if_neg hroot] at hold ⊢
        obtain ⟨d, hd⟩ := Option.ne_none_iff_exists'.mp fun hnone => hold (congrArg some hnone)
        exact ⟨d, congrArg some hd⟩
    obtain ⟨d, hd⟩ := hlookup
    have hrename : s.dfsRamfsRename oldpath newpath =
        some ({ s with name := Function.update s.name d (newpath.take ramfsNameMax) }, none) := by
      unfold dfsRamfsRename
      rw [hnew, hd]
    obtain ⟨hfound, -⟩ := hright _ hrename d hd
    rw [h.rename_lost hhead hnew d] at hfound
    cases hfound
  · intro href s' hrename
    exact absurd rfl (rename_refused href hrename).2

/-! ## Reading the directory -/

omit [DecidableEq D] [DecidableEq F] in
/-- **The loop of `dfs_ramfs_getdents`** lists the entries from the position on. -/
theorem getdentsLoop_eq (name : D → List Char) (stop : ℕ) (ds : List D) (index pos : ℕ) (h : index ≤ pos) :
    getdentsLoop name stop ds index pos =
      (pos + ((ds.drop (pos - index)).take (stop - pos)).length,
        ((ds.drop (pos - index)).take (stop - pos)).map fun d => (name d).take ramfsNameMax) := by
  induction ds generalizing index pos with
  | nil => simp only [getdentsLoop, List.drop_nil, List.take_nil, List.length_nil, List.map_nil, Nat.add_zero]
  | cons d ds ih =>
    unfold getdentsLoop
    by_cases hstop : index < stop
    · rw [if_pos hstop]
      by_cases hpos : pos ≤ index
      · have heq : pos - index = 0 := Nat.sub_eq_zero_of_le hpos
        have htake : stop - pos = stop - (pos + 1) + 1 := by omega
        rw [if_pos hpos, ih (index + 1) (pos + 1) (Nat.succ_le_succ h), Nat.add_sub_add_right, heq, List.drop_zero,
          List.drop_zero, htake, List.take_succ_cons, List.length_cons, List.map_cons, Nat.add_assoc, Nat.add_comm 1]
      · have hdrop : pos - index = pos - (index + 1) + 1 := by omega
        rw [if_neg hpos, ih (index + 1) pos (by omega), hdrop, List.drop_succ_cons]
    · have hnone : stop - pos = 0 := by omega
      rw [if_neg hstop, hnone, List.take_zero, List.length_nil, List.map_nil, Nat.add_zero]

/-- What a call of `dfs_ramfs_getdents` lists. -/
def listed (s : Ramfs D F) (f : F) (x : RamFd D) (count : ℕ) : List (List Char) :=
  (s.dfsRamfsGetdents f x count).2.toOption.elim [] Prod.snd

/-- **A call of `dfs_ramfs_getdents`** on the root directory: what it lists and what is left are what was left before, and
with room for a record it gets on. -/
theorem DirOk.getdents (h : s.DirOk) (hroot : x.dirent = s.root) (hpos : x.pos ≤ s.list.length) {count : ℕ}
    (hcount : count < 2 ^ 32) (hfd : s.fd f = some x) :
    ∃ y, (s.dfsRamfsGetdents f x count).1.fd f = some y ∧ y.dirent = s.root ∧ x.pos ≤ y.pos ∧ y.pos ≤ s.list.length ∧
      s.listed f x count ++ (s.list.drop y.pos).map s.name = (s.list.drop x.pos).map s.name ∧
        (direntSize ≤ count → min (x.pos + 1) s.list.length ≤ y.pos) := by
  unfold listed dfsRamfsGetdents
  rw [if_neg (not_not.mpr hroot)]
  by_cases hzero : count / direntSize = 0
  · rw [if_pos hzero]
    refine ⟨x, hfd, hroot, Nat.le_refl _, hpos, rfl, fun hle => absurd hzero ?_⟩
    exact Nat.ne_of_gt (Nat.div_pos hle (by decide))
  · have hroom := h.room
    have hstop : (x.pos + count / direntSize) % 2 ^ 32 = x.pos + count / direntSize := by
      refine Nat.mod_eq_of_lt ?_
      have hsmall : count / direntSize ≤ count / 260 := Nat.le_refl _
      unfold ramfsDirentSize at hroom
      omega
    have hnames : ∀ n, (((s.list.drop x.pos).take n).map fun d => (s.name d).take ramfsNameMax) =
        ((s.list.drop x.pos).take n).map s.name := fun n => List.map_congr_left fun d hd =>
      List.take_of_length_le (Nat.le_of_lt (h.short d (List.mem_of_mem_drop (List.mem_of_mem_take hd))))
    rw [if_neg hzero, hstop, getdentsLoop_eq s.name _ s.list 0 x.pos (Nat.zero_le _), Nat.sub_zero, Nat.add_sub_cancel_left,
      hnames]
    have hlen : ((s.list.drop x.pos).take (count / direntSize)).length =
        min (count / direntSize) (s.list.length - x.pos) := by rw [List.length_take, List.length_drop]
    refine ⟨_, Function.update_self .., hroot, Nat.le_add_right _ _, ?_, ?_, fun _ => ?_⟩
    · dsimp only
      omega
    · dsimp only [Except.toOption, Option.elim]
      rw [← List.map_append, ← List.drop_drop, List.prefix_iff_eq_append.mp (List.take_prefix _ _)]
    · dsimp only
      omega

/-- **Reading on and on**: what is listed and what is left are what was left at the beginning, and each call with room for a
record gets on. -/
theorem DirOk.readDir_spec (h : s.DirOk) {counts : List ℕ} (hcounts : ∀ count ∈ counts, count < 2 ^ 32)
    (hroot : x.dirent = s.root) (hpos : x.pos ≤ s.list.length) (hfd : s.fd f = some x) :
    ∃ s' names y, s.readDir f counts = some (s', names) ∧ s.SameDir s' ∧ s'.fd f = some y ∧ y.dirent = s.root ∧
      y.pos ≤ s.list.length ∧ names ++ (s.list.drop y.pos).map s.name = (s.list.drop x.pos).map s.name ∧
        ((∀ count ∈ counts, direntSize ≤ count) → min (x.pos + counts.length) s.list.length ≤ y.pos) := by
  induction counts generalizing s x with
  | nil => exact ⟨s, [], x, rfl, ⟨rfl, rfl, rfl⟩, hfd, hroot, hpos, rfl, fun _ => Nat.min_le_left _ _⟩
  | cons count counts ih =>
    obtain ⟨hcount, hcounts⟩ := List.forall_mem_cons.mp hcounts
    have hsame := sameDir_getdents s f x count
    obtain ⟨hroot', hlist, hname⟩ := id hsame
    obtain ⟨y, hy, hyroot, hxy, hypos, hylist, hyon⟩ := h.getdents hroot hpos hcount hfd
    obtain ⟨s', names, z, hread, hsame', hz, hzroot, hzpos, hzlist, hzon⟩ :=
      ih (h.congr hsame) hcounts (hyroot.trans hroot'.symm) (hlist ▸ hypos) hy
    obtain ⟨hroot'', hlist', hname'⟩ := hsame'
    rw [hlist] at hzpos hzon
    rw [hlist, hname] at hzlist
    refine ⟨s', s.listed f x count ++ names, z, ?_, ⟨hroot''.trans hroot', hlist'.trans hlist, hname'.trans hname⟩, hz,
      hzroot.trans hroot', hzpos, ?_, fun hall => ?_⟩
    · rw [readDir, hfd, Option.bind_some, hread]
      rfl
    · rw [List.append_assoc, hzlist, hylist]
    · obtain ⟨hle, hall⟩ := List.forall_mem_cons.mp hall
      have hfirst := hyon hle
      have hrest := hzon hall
      rw [List.length_cons]
      omega

/-- The end of the directory is where nothing is left. -/
theorem DirOk.atEnd_iff (h : s.DirOk) (hroot : x.dirent = s.root) (hpos : x.pos ≤ s.list.length) (hfd : s.fd f = some x) :
    s.AtEnd f ↔ x.pos = s.list.length := by
  constructor
  · rintro ⟨x', count, hfd', hcount, hend⟩
    obtain rfl := Option.some.inj (hfd.symm.trans hfd')
    have hlisted : s.listed f x count = [] := by
      unfold listed
      rw [hend]
      rfl
    have hle : direntSize ≤ count := by
      by_contra hlt
      have herror : (s.dfsRamfsGetdents f x count).2 = .error .einval := by
        unfold dfsRamfsGetdents
        rw [if_neg (not_not.mpr hroot), if_pos (Nat.div_eq_of_lt (Nat.lt_of_not_le hlt))]
      rw [herror] at hend
      cases hend
    obtain ⟨y, -, -, -, hypos, hlist, hon⟩ := h.getdents hroot hpos hcount hfd
    rw [hlisted, List.nil_append] at hlist
    have hlen := congrArg List.length hlist
    rw [List.length_map, List.length_map, List.length_drop, List.length_drop] at hlen
    have hon := hon hle
    omega
  · intro hend
    refine ⟨x, direntSize, hfd, by decide, ?_⟩
    unfold dfsRamfsGetdents
    rw [if_neg (not_not.mpr hroot), if_neg (by decide), getdentsLoop_eq s.name _ s.list 0 x.pos (Nat.zero_le _),
      Nat.sub_zero, hend, List.drop_length, List.take_nil, List.map_nil]
    dsimp only
    rw [List.length_nil, Nat.zero_mul, Nat.zero_mod]
    exact congrArg (fun n => Except.ok (n, [])) (if_pos (Nat.two_pow_pos 31))

/-- **A reader gets the names of the directory**, from the beginning to the end. -/
theorem DirOk.readsAll (h : s.DirOk) (hfd : s.fd f = some x) (hroot : x.dirent = s.root) (hpos : x.pos = 0) :
    s.ReadsAll f := by
  have hle : x.pos ≤ s.list.length := hpos ▸ Nat.zero_le _
  constructor
  · intro counts s' names hcounts hread hend
    obtain ⟨s'', names', y, hread', hsame, hy, hyroot, hypos, hlist, -⟩ := h.readDir_spec hcounts hroot hle hfd
    obtain ⟨rfl, rfl⟩ := Prod.mk.inj (Option.some.inj (hread.symm.trans hread'))
    obtain ⟨hroot', hlist', -⟩ := id hsame
    have hfull := ((h.congr hsame).atEnd_iff (hyroot.trans hroot'.symm) (hlist' ▸ hypos) hy).mp hend
    rw [hlist'] at hfull
    rw [hfull, List.drop_length, List.map_nil, List.append_nil, hpos, List.drop_zero] at hlist
    rw [hlist]
    exact ⟨h.distinct, fun name hname => (h.hasName_iff hname).symm⟩
  · intro counts hcounts hmany
    obtain ⟨s', names, y, hread, hsame, hy, hyroot, hypos, -, hon⟩ :=
      h.readDir_spec (fun count hm => (hcounts count hm).2) hroot hle hfd
    have hon := hon fun count hm => (hcounts count hm).1
    obtain ⟨hroot', hlist', -⟩ := id hsame
    refine ⟨s', names, hread, ((h.congr hsame).atEnd_iff (hyroot.trans hroot'.symm) (hlist' ▸ hypos) hy).mpr ?_⟩
    rw [hlist']
    omega

/-! ## The runs -/

/-- The condition on a step. -/
def NoRename (s : Ramfs D F) (l : (NameCall F × RamAnswer D) × NameOut) : Prop := s.RenamesNothing l.1.1

/-- **The names of a directory**, in every state that is reached from an empty one with all renames refused: they are
distinct, and a reader of the directory gets each of them once. A rename that is made next does what it promises exactly if it
is refused as well. -/
theorem ramfs_names {root : D} {ls : List ((NameCall F × RamAnswer D) × NameOut)}
    (h : Run (Guarded NoRename NameStep) (init root) ls s) :
    (s.list.map s.name).Nodup ∧
    (∀ f x, s.fd f = some x → x.dirent = s.root → x.pos = 0 → s.ReadsAll f) ∧
    ∀ oldpath newpath answer, s.NameEnabled (.rename oldpath newpath) answer →
      (s.RenameRight oldpath newpath ↔ s.RenameRefused oldpath newpath) := by
  have hok : s.DirOk := h.guarded (dirOk_init root) fun s l s' hs hG hstep => hs.step hG hstep.1 hstep.2
  exact ⟨hok.distinct, fun f x hfd hroot hpos => hok.readsAll hfd hroot hpos, fun oldpath newpath answer hen =>
    hok.renameRight_iff hen.2.1⟩

end Steps

/-- The file system with an empty file `a`, and the root directory open. -/
def withA : Ramfs ℕ Bool :=
  (((init 0).addEntry 1 ['a']).attach false 1 { creat := true }).attach true 0 { directory := true }

theorem run_withA : ∃ ls : List ((NameCall Bool × RamAnswer ℕ) × NameOut),
    Run (Guarded NoRename NameStep) (init 0) ls withA := by
  refine ⟨[((.file (.openFd false ['/', 'a'] { creat := true }), ⟨some 1, none⟩), .file (.opened none)),
    ((.file (.openFd true ['/'] { directory := true }), ⟨none, none⟩), .file (.opened none))],
    .snoc (s := ((init 0).addEntry 1 ['a']).attach false 1 { creat := true })
      (.single ⟨trivial, ⟨⟨rfl, ?_⟩, ?_, ?_⟩, rfl⟩) ⟨trivial, ⟨⟨rfl, nofun⟩, ?_, nofun⟩, rfl⟩⟩
  · rintro d hd
    obtain rfl := Option.some.inj hd
    exact ⟨by decide, List.not_mem_nil⟩
  · rintro f path flags heq
    cases heq
    decide
  · decide
  · rintro f path flags heq
    cases heq
    decide

/-- Its directory is read to the end. -/
theorem ramfs_names_withA : (withA.list.map withA.name).Nodup ∧ withA.ReadsAll true ∧
    (withA.RenameRight ['/', 'b'] ['/', 'c'] ↔ withA.RenameRefused ['/', 'b'] ['/', 'c']) := by
  obtain ⟨ls, hrun⟩ := run_withA
  obtain ⟨hnodup, hreads, hrename⟩ := ramfs_names hrun
  exact ⟨hnodup, hreads true ⟨0, 0, 0⟩ rfl rfl rfl, hrename _ _ ⟨none, none⟩ ⟨rfl, rfl, by decide⟩⟩

/-- The rename of `a` to `b` succeeds, and there is no `b` then. -/
theorem ramfs_names_lost : ¬ ∀ (ls : List ((NameCall Bool × RamAnswer ℕ) × NameOut)) (s : Ramfs ℕ Bool),
    Run NameStep (init 0) ls s → ∀ oldpath newpath answer, s.NameEnabled (.rename oldpath newpath) answer →
      s.RenameRight oldpath newpath := by
  intro hall
  obtain ⟨ls, hrun⟩ := run_withA
  have hright := hall ls withA hrun.of_guarded ['/', 'a'] ['/', 'b'] ⟨none, none⟩ ⟨rfl, rfl, by decide⟩
  obtain ⟨hfound, -⟩ := hright _ rfl 1 rfl
  cases hfound

end Ramfs

end CoreLink.RtThread
