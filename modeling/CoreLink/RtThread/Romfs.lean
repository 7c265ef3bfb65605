/-
# `CoreLink.RtThread.Romfs` — the lookup of `components/dfs/filesystems/romfs/dfs_romfs.c`.

A romfs is a tree of entries in read-only memory; a directory is an array of entries and its length. `dfs_romfs_lookup`
cuts the path into names while it goes down: when a name has been found, the length of the directory and the place in the
path are those of the next level already, though it is decided only afterwards whether there is one. `romfs_lookup` shows
that it finds what following the names leads to, and nothing else.
-/
import Mathlib.Algebra.Group.Nat.Defs
import Mathlib.Data.List.Nodup
import CoreLink.Lib.Fuel
import CoreLink.Lib.PathPrefix

namespace CoreLink.RtThread

open CoreLink.Lib

/-! ## The function -/

def romfsDirentFile : ℕ := 0x00

def romfsDirentDir : ℕ := 0x01

/-- `struct romfs_dirent`; `data` is the array of a directory, `none` for `NULL`. The bytes of a file are not read here. -/
inductive RomfsDirent where
  | mk (type : ℕ) (name : List Char) (data : Option (List RomfsDirent)) (size : ℕ)

namespace RomfsDirent

def type : RomfsDirent → ℕ
  | mk type _ _ _ => type

def name : RomfsDirent → List Char
  | mk _ name _ _ => name

def data : RomfsDirent → Option (List RomfsDirent)
  | mk _ _ data _ => data

def size : RomfsDirent → ℕ
  | mk _ _ _ size => size

/-- `check_dirent` returns 0. -/
def Checked (dirent : RomfsDirent) : Prop :=
  (dirent.type = romfsDirentFile ∨ dirent.type = romfsDirentDir) ∧ dirent.size ≠ 2 ^ 32 - 1

instance (dirent : RomfsDirent) : Decidable dirent.Checked := inferInstanceAs (Decidable (_ ∧ _))

end RomfsDirent

/-- How the search in a folder ends: with `NULL`, at the end of the path, in a directory to enter, or outside of the
array. -/
inductive RomfsSearch where
  | null
  | notFound
  | found (dirent : RomfsDirent)
  | enter (dirent : RomfsDirent)
  | outside

/-- The end of the name at `subpath`, and the beginning of the next one. -/
def nextSubpath (subpath : List Char) : List Char := (subpath.dropWhile (· ≠ '/')).dropWhile (· = '/')

/-- The `for` loop of `dfs_romfs_lookup`, with `n` entries to go. -/
def searchFolder (subpath : List Char) : ℕ → List RomfsDirent → RomfsSearch
  | 0, _ => .notFound
  | _ + 1, [] => .outside
  | n + 1, dirent :: rest =>
    let len := (subpath.takeWhile (· ≠ '/')).length
    if ¬dirent.Checked then .null
    else if dirent.name.length = len ∧ dirent.name.take len = subpath.take len then
      -- the next name is cut out before it is known whether there is a directory to look in
      if nextSubpath subpath = [] then .found dirent
      else if dirent.type = romfsDirentDir then .enter dirent
      else .notFound
    else searchFolder subpath n rest

/-- The `while` loop: the entry with its size, and `NULL`; nothing if it reads outside of an array. -/
def romfsLoop : ℕ → Option (List RomfsDirent) → ℕ → List Char → Option (Option (RomfsDirent × ℕ))
  | 0, _, _, _ => none
  | _ + 1, none, _, _ => some none
  | fuel + 1, some dirents, direntSize, subpath =>
    match searchFolder subpath direntSize dirents with
    | .null | .notFound => some none
    | .found dirent => some (some (dirent, dirent.size))
    | .enter dirent => romfsLoop fuel dirent.data dirent.size (nextSubpath subpath)
    | .outside => none

/-- `dfs_romfs_lookup`. -/
def dfsRomfsLookup (fuel : ℕ) (rootDirent : RomfsDirent) (path : List Char) : Option (Option (RomfsDirent × ℕ)) :=
  if ¬rootDirent.Checked then some none
  else if path = ['/'] then some (some (rootDirent, rootDirent.size))
  else romfsLoop fuel rootDirent.data rootDirent.size (path.dropWhile (· = '/'))

/-! ## The tree -/

namespace RomfsDirent

/-- The entries of a directory. -/
def entries (dirent : RomfsDirent) : List RomfsDirent := dirent.data.getD []

/-- **A well-formed tree**: every entry is valid, and a directory has an array of its size, with distinct names, or no array
and the size 0. -/
inductive WellFormed : RomfsDirent → Prop where
  | file {name : List Char} {data : Option (List RomfsDirent)} {size : ℕ} (hsize : size < 2 ^ 32 - 1) :
      WellFormed (mk romfsDirentFile name data size)
  | dir {name : List Char} {dirents : List RomfsDirent} (hsize : dirents.length < 2 ^ 32 - 1)
      (hnames : (dirents.map RomfsDirent.name).Nodup) (hentries : ∀ d ∈ dirents, WellFormed d) :
      WellFormed (mk romfsDirentDir name (some dirents) dirents.length)
  | empty {name : List Char} : WellFormed (mk romfsDirentDir name none 0)

/-- **Following names** through nested directories. -/
inductive Reaches : RomfsDirent → List (List Char) → RomfsDirent → Prop where
  | here (dirent : RomfsDirent) : Reaches dirent [] dirent
  | down {dirent next last : RomfsDirent} {names : List (List Char)} (hdir : dirent.type = romfsDirentDir)
      (hnext : next ∈ dirent.entries) (h : Reaches next names last) : Reaches dirent (next.name :: names) last

variable {dirent next last : RomfsDirent} {dirents : List RomfsDirent} {c s : List Char} {names cs : List (List Char)}

theorem WellFormed.checked (h : dirent.WellFormed) : dirent.Checked := by
  cases h with
  | file hsize => exact ⟨Or.inl rfl, Nat.ne_of_lt hsize⟩
  | dir hsize _ _ => exact ⟨Or.inr rfl, Nat.ne_of_lt hsize⟩
  | empty => exact ⟨Or.inr rfl, Nat.ne_of_lt (by decide : 0 < 2 ^ 32 - 1)⟩

theorem WellFormed.of_mem (h : dirent.WellFormed) (hdir : dirent.type = romfsDirentDir) (hm : next ∈ dirent.entries) :
    next.WellFormed := by
  cases h with
  | file _ => exact absurd hdir Nat.zero_ne_one
  | dir _ _ hentries => exact hentries next hm
  | empty => exact absurd hm List.not_mem_nil

/-- In a directory a name stands for one entry. -/
theorem WellFormed.name_unique (h : dirent.WellFormed) (hdir : dirent.type = romfsDirentDir) {d e : RomfsDirent}
    (hd : d ∈ dirent.entries) (he : e ∈ dirent.entries) (heq : d.name = e.name) : d = e := by
  cases h with
  | file _ => exact absurd hdir Nat.zero_ne_one
  | dir _ hnames _ => exact List.inj_on_of_nodup_map hnames hd he heq
  | empty => exact absurd hd List.not_mem_nil

/-- The first step of following names. -/
theorem reaches_cons_iff : Reaches dirent (c :: names) last ↔
    dirent.type = romfsDirentDir ∧ ∃ next ∈ dirent.entries, next.name = c ∧ Reaches next names last := by
  constructor
  · intro h
    cases h with
    | @down _ next _ _ hdir hnext h => exact ⟨hdir, next, hnext, rfl, h⟩
  · rintro ⟨hdir, next, hnext, rfl, h⟩
    exact .down hdir hnext h

theorem reaches_nil_iff : Reaches dirent [] last ↔ last = dirent := by
  constructor
  · intro h
    cases h with
    | here => rfl
  · rintro rfl
    exact .here last

/-- Names lead to one entry. -/
theorem Reaches.unique {last' : RomfsDirent} (hw : dirent.WellFormed) (h : Reaches dirent names last)
    (h' : Reaches dirent names last') : last = last' := by
  induction h with
  | here dirent => exact (reaches_nil_iff.mp h').symm
  | @down dirent next last names hdir hnext h ih =>
    obtain ⟨-, next', hnext', hname, hrest⟩ := reaches_cons_iff.mp h'
    rw [hw.name_unique hdir hnext' hnext hname] at hrest
    exact ih (hw.of_mem hdir hnext) hrest

/-! ## The search -/

/-- The next name of a path. -/
theorem nextSubpath_slashed (hc : '/' ∉ c) (hcs : ∀ d ∈ cs, Paths.IsName d) :
    nextSubpath (c ++ Paths.slashed cs) = (Paths.slashed cs).dropWhile (· = '/') := by
  have hname : ∀ x ∈ c, decide (x ≠ '/') = true := fun x hx => decide_eq_true fun heq => hc (heq ▸ hx)
  unfold nextSubpath
  rw [List.dropWhile_append_of_pos hname]
  cases cs with
  | nil => rfl
  | cons d cs =>
    rw [Paths.slashed_cons, List.cons_append, List.dropWhile_cons_of_neg (by decide)]

theorem dropWhile_slashed_cons (hc : Paths.IsName c) (cs : List (List Char)) :
    (Paths.slashed (c :: cs)).dropWhile (· = '/') = c ++ Paths.slashed cs := by
  obtain ⟨x, xs, rfl⟩ := List.exists_cons_of_ne_nil hc.nonempty
  have hx : x ≠ '/' := fun heq => hc.noSep (heq ▸ List.mem_cons_self)
  rw [Paths.slashed_cons, List.cons_append, List.dropWhile_cons_of_pos (by decide), List.cons_append,
    List.dropWhile_cons_of_neg (by rw [decide_eq_true_eq]; exact hx)]

/-- The comparison of an entry with the name at `subpath`. -/
theorem sameName_iff (hc : '/' ∉ c) (n : List Char) :
    n.length = ((c ++ Paths.slashed cs).takeWhile (· ≠ '/')).length ∧
        n.take ((c ++ Paths.slashed cs).takeWhile (· ≠ '/')).length =
          (c ++ Paths.slashed cs).take ((c ++ Paths.slashed cs).takeWhile (· ≠ '/')).length ↔ n = c := by
  rw [Paths.takeWhile_boundary hc (Paths.boundary_slashed cs), List.take_left]
  constructor
  · rintro ⟨hlen, htake⟩
    rwa [List.take_of_length_le (Nat.le_of_eq hlen)] at htake
  · rintro rfl
    exact ⟨rfl, List.take_length⟩

/-- **The search in a folder** whose entries are valid: no entry has the name, or the one with the name decides. -/
theorem searchFolder_spec (hc : '/' ∉ c) (hcs : ∀ d ∈ cs, Paths.IsName d) (hvalid : ∀ d ∈ dirents, d.Checked) :
    (searchFolder (c ++ Paths.slashed cs) dirents.length dirents = .notFound ∧ ∀ d ∈ dirents, d.name ≠ c) ∨
      ∃ d ∈ dirents, d.name = c ∧ searchFolder (c ++ Paths.slashed cs) dirents.length dirents =
        if cs = [] then .found d else if d.type = romfsDirentDir then .enter d else .notFound := by
  have hend : nextSubpath (c ++ Paths.slashed cs) = [] ↔ cs = [] := by
    rw [nextSubpath_slashed hc hcs]
    cases cs with
    | nil => exact iff_of_true rfl rfl
    | cons d cs =>
      have hd := hcs d List.mem_cons_self
      rw [dropWhile_slashed_cons hd]
      exact iff_of_false (List.append_ne_nil_of_left_ne_nil hd.nonempty _) (List.cons_ne_nil d cs)
  induction dirents with
  | nil => exact Or.inl ⟨rfl, nofun⟩
  | cons d dirents ih =>
    obtain ⟨hd, hvalid⟩ := List.forall_mem_cons.mp hvalid
    unfold searchFolder
    rw [List.length_cons]
    dsimp only
    rw [if_neg (not_not.mpr hd)]
    by_cases hname : d.name = c
    · refine Or.inr ⟨d, List.mem_cons_self, hname, ?_⟩
      rw [if_pos ((sameName_iff hc _).mpr hname)]
      exact if_congr hend rfl rfl
    · rw [if_neg fun h => hname ((sameName_iff hc _).mp h)]
      rcases ih hvalid with ⟨hnot, hall⟩ | ⟨e, he, hename, hfound⟩
      · exact Or.inl ⟨hnot, List.forall_mem_cons.mpr ⟨hname, hall⟩⟩
      · exact Or.inr ⟨e, List.mem_cons_of_mem d he, hename, hfound⟩

/-! ## The rounds -/

/-- What the names lead to, with its size. -/
def Answer (dirent : RomfsDirent) (names : List (List Char)) : Option (RomfsDirent × ℕ) → Prop
  | some (last, size) => Reaches dirent names last ∧ size = last.size
  | none => ∀ last, ¬Reaches dirent names last

/-- An entry that is reached by one name more. -/
theorem Answer.down {r : Option (RomfsDirent × ℕ)} (hw : dirent.WellFormed) (hdir : dirent.type = romfsDirentDir)
    (hnext : next ∈ dirent.entries) (h : Answer next names r) : Answer dirent (next.name :: names) r := by
  cases r with
  | some r => exact ⟨.down hdir hnext h.1, h.2⟩
  | none =>
    intro last hreaches
    obtain ⟨-, next', hnext', hname, hrest⟩ := reaches_cons_iff.mp hreaches
    rw [hw.name_unique hdir hnext' hnext hname] at hrest
    exact h last hrest

theorem answer_here (dirent : RomfsDirent) : Answer dirent [] (some (dirent, dirent.size)) := ⟨.here dirent, rfl⟩

theorem answer_none_of_missing (hmiss : ∀ d ∈ dirent.entries, d.name ≠ c) : Answer dirent (c :: names) none := by
  intro last h
  obtain ⟨-, next, hnext, hname, -⟩ := reaches_cons_iff.mp h
  exact hmiss next hnext hname

/-- Below a file there is nothing. -/
theorem answer_none_of_file (hfile : dirent.type ≠ romfsDirentDir) (hnames : names ≠ []) : Answer dirent names none := by
  obtain ⟨c, names, rfl⟩ := List.exists_cons_of_ne_nil hnames
  intro last h
  exact hfile (reaches_cons_iff.mp h).1

/-- **One round of the loop**, in a directory. -/
theorem romfsLoop_round (hw : dirent.WellFormed) (hdir : dirent.type = romfsDirentDir) (hc : '/' ∉ c)
    (hcs : ∀ d ∈ cs, Paths.IsName d) :
    ((∀ d ∈ dirent.entries, d.name ≠ c) ∧
      ∀ fuel, romfsLoop (fuel + 1) dirent.data dirent.size (c ++ Paths.slashed cs) = some none) ∨
    ∃ d ∈ dirent.entries, d.name = c ∧
      ∀ fuel, romfsLoop (fuel + 1) dirent.data dirent.size (c ++ Paths.slashed cs) =
        if cs = [] then some (some (d, d.size))
        else if d.type = romfsDirentDir then
          romfsLoop fuel d.data d.size ((Paths.slashed cs).dropWhile (· = '/'))
        else some none := by
  cases hw with
  | file _ => exact absurd hdir Nat.zero_ne_one
  | empty => exact Or.inl ⟨nofun, fun fuel => rfl⟩
  | @dir name dirents hsize hnames hentries =>
    rcases searchFolder_spec hc hcs fun d hd => (hentries d hd).checked with ⟨hnot, hall⟩ | ⟨d, hd, hname, hfound⟩
    · refine Or.inl ⟨hall, fun fuel => ?_⟩
      unfold romfsLoop
      simp only [data, size, hnot]
    · refine Or.inr ⟨d, hd, hname, fun fuel => ?_⟩
      conv_lhs => unfold romfsLoop
      simp only [data, size, hfound]
      by_cases hend : cs = []
      · simp only [if_pos hend]
      · by_cases hsub : d.type = romfsDirentDir
        · simp only [if_neg hend, if_pos hsub, nextSubpath_slashed hc hcs]
        · simp only [if_neg hend, if_neg hsub]

/-- **The loop**: one round for each name. -/
theorem romfsLoop_spec (hw : dirent.WellFormed) (hdir : dirent.type = romfsDirentDir) (hc : Paths.IsName c)
    (hcs : ∀ d ∈ cs, Paths.IsName d) : ∃ r, Answer dirent (c :: cs) r ∧
      Returns (fun fuel => romfsLoop fuel dirent.data dirent.size (c ++ Paths.slashed cs)) r := by
  induction cs generalizing dirent c with
  | nil =>
    rcases romfsLoop_round hw hdir hc.noSep hcs with ⟨hmiss, hround⟩ | ⟨d, hd, rfl, hround⟩
    · exact ⟨none, answer_none_of_missing hmiss, .now rfl hround⟩
    · refine ⟨some (d, d.size), (answer_here d).down hw hdir hd, .now rfl fun fuel => ?_⟩
      rw [hround, if_pos rfl]
  | cons e cs ih =>
    obtain ⟨he, hcs'⟩ := List.forall_mem_cons.mp hcs
    rcases romfsLoop_round hw hdir hc.noSep hcs with ⟨hmiss, hround⟩ | ⟨d, hd, rfl, hround⟩
    · exact ⟨none, answer_none_of_missing hmiss, .now rfl hround⟩
    · have hne : e :: cs ≠ [] := List.cons_ne_nil e cs
      by_cases hsub : d.type = romfsDirentDir
      · obtain ⟨r, hr, hreturns⟩ := ih (hw.of_mem hdir hd) hsub he hcs'
        refine ⟨r, hr.down hw hdir hd, .later rfl (fun fuel => ?_) hreturns⟩
        rw [hround, if_neg hne, if_pos hsub, dropWhile_slashed_cons he]
      · refine ⟨none, (answer_none_of_file hsub hne).down hw hdir hd, .now rfl fun fuel => ?_⟩
        rw [hround, if_neg hne, if_neg hsub]

end RomfsDirent

/-! ## The lookup -/

open RomfsDirent

/-- **The lookup of a normalised path.** Below a well-formed root directory it returns the entry that the names lead to, with
its size, and `NULL` where they lead to none. -/
theorem romfs_lookup (root : RomfsDirent) (hw : root.WellFormed) (hdir : root.type = romfsDirentDir)
    (names : List (List Char)) (hnames : ∀ c ∈ names, Paths.IsName c) :
    ∃ r, Returns (fun fuel => dfsRomfsLookup fuel root (Paths.absolute names)) r ∧
      (∀ last size, r = some (last, size) ↔ Reaches root names last ∧ size = last.size) ∧
      (r = none ↔ ∀ last, ¬Reaches root names last) := by
  have hchecked : ¬¬root.Checked := not_not.mpr hw.checked
  have hanswer : ∃ r, Answer root names r ∧ Returns (fun fuel => dfsRomfsLookup fuel root (Paths.absolute names)) r := by
    cases names with
    | nil =>
      refine ⟨some (root, root.size), answer_here root, .of_const fun fuel => ?_⟩
      unfold dfsRomfsLookup
      rw [if_neg hchecked, if_pos Paths.absolute_nil]
    | cons c names =>
      obtain ⟨hc, hnames⟩ := List.forall_mem_cons.mp hnames
      obtain ⟨r, hr, hreturns⟩ := romfsLoop_spec hw hdir hc hnames
      refine ⟨r, hr, ?_⟩
      have hroot : Paths.absolute (c :: names) ≠ ['/'] := by
        rw [← Paths.absolute_nil]
        intro heq
        exact List.cons_ne_nil _ _ (Paths.absolute_inj (List.forall_mem_cons.mpr ⟨hc, hnames⟩) nofun heq)
      have heq : (fun fuel => dfsRomfsLookup fuel root (Paths.absolute (c :: names))) =
          fun fuel => romfsLoop fuel root.data root.size (c ++ Paths.slashed names) := by
        funext fuel
        unfold dfsRomfsLookup
        rw [if_neg hchecked, if_neg hroot, Paths.absolute_eq_slashed (List.cons_ne_nil c names), dropWhile_slashed_cons hc]
      rw [heq]
      exact hreturns
  obtain ⟨r, hr, hreturns⟩ := hanswer
  refine ⟨r, hreturns, fun last size => ⟨?_, ?_⟩, ?_, ?_⟩
  · rintro rfl
    exact hr
  · rintro ⟨hreaches, rfl⟩
    cases r with
    | none => exact absurd hreaches (hr last)
    | some r => rw [← hr.1.unique hw hreaches, ← hr.2]
  · rintro rfl
    exact hr
  · intro hnone
    cases r with
    | none => rfl
    | some r => exact absurd hr.1 (hnone r.1)

/-- A root with the directory `bin` and the file `sh` in it. -/
def binSh : RomfsDirent :=
  .mk romfsDirentDir ['/'] (some [.mk romfsDirentDir ['b', 'i', 'n'] (some [.mk romfsDirentFile ['s', 'h'] none 3]) 1]) 1

theorem binSh_wellFormed : binSh.WellFormed := by
  have hsh : WellFormed (.mk romfsDirentFile ['s', 'h'] none 3) := .file (by decide)
  have hbin : WellFormed (.mk romfsDirentDir ['b', 'i', 'n'] (some [.mk romfsDirentFile ['s', 'h'] none 3]) 1) :=
    @WellFormed.dir _ [_] (Nat.lt_of_sub_eq_succ rfl) (List.nodup_singleton _) (List.forall_mem_singleton.mpr hsh)
  exact @WellFormed.dir _ [_] (Nat.lt_of_sub_eq_succ rfl) (List.nodup_singleton _) (List.forall_mem_singleton.mpr hbin)

theorem binSh_reaches :
    Reaches binSh [['b', 'i', 'n'], ['s', 'h']] (.mk romfsDirentFile ['s', 'h'] none 3) :=
  reaches_cons_iff.mpr ⟨rfl, _, List.mem_cons_self, rfl,
    reaches_cons_iff.mpr ⟨rfl, _, List.mem_cons_self, rfl, .here _⟩⟩

/-- In it `/bin/sh` is found with its size. -/
theorem romfs_lookup_binSh :
    Returns (fun fuel => dfsRomfsLookup fuel binSh (Paths.absolute [['b', 'i', 'n'], ['s', 'h']]))
      (some (.mk romfsDirentFile ['s', 'h'] none 3, 3)) := by
  have hnames : ∀ c ∈ [['b', 'i', 'n'], ['s', 'h']], Paths.IsName c := by
    simp only [List.forall_mem_cons]
    exact ⟨⟨by decide, by decide, by decide, by decide⟩, ⟨by decide, by decide, by decide, by decide⟩, nofun⟩
  obtain ⟨r, hreturns, hfound, -⟩ := romfs_lookup binSh binSh_wellFormed rfl [['b', 'i', 'n'], ['s', 'h']] hnames
  rw [(hfound _ _).mpr ⟨binSh_reaches, rfl⟩] at hreturns
  exact hreturns

end CoreLink.RtThread
