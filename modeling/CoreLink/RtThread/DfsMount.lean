/-
# `CoreLink.RtThread.DfsMount` — the mount table of `components/dfs/src/dfs_fs.c`.

`dfs_mount` normalizes the path, and registers what comes out; but it looks for the path in the table as it has been
given to it. So a path that is mounted can be mounted again in another spelling. A call says what it gets from elsewhere
(`DfsEnv`): what is registered as a file system, and how the calls to the device and to the file system end.
-/
import CoreLink.Lib.Run
import CoreLink.RtThread.DfsPath

namespace CoreLink.RtThread

open CoreLink.Lib

/-! ## Calls -/

/-- `struct dfs_filesystem_ops`: its name, and whether it has the two functions. -/
structure FsOps where
  name : List Char
  hasMount : Bool
  hasUnmount : Bool

/-- An entry of `filesystem_table` that is in use. The other ones are 0. -/
structure DfsMount (Dev : Type*) where
  path : List Char
  ops : FsOps
  devId : Option Dev

/-- The calls. The device is what `rt_device_find` finds, if a name is given. -/
inductive DfsCall (Dev : Type*) where
  | mount (device : Option (Option Dev)) (path fsType : List Char)
  | unmount (path : List Char)

/-- What a call finds. -/
structure DfsEnv where
  /-- `filesystem_operation_table` -/
  ops : List (Option FsOps)
  /-- the working directory, if there is one (`DFS_USING_WORKDIR`) -/
  workdir : Option (List Char)
  /-- there is memory for the path -/
  memory : Bool
  /-- the path can be opened as a directory -/
  opens : Bool
  /-- `rt_device_open` succeeds -/
  device : Bool
  /-- `mount` of the file system succeeds -/
  mounts : Bool
  /-- `unmount` of the file system succeeds -/
  unmounts : Bool

/-- Why a call returns -1: the error number, or a failure of the device or the file system, which sets its own. -/
inductive DfsErr where
  | enodev
  | enosys
  | enotdir
  | einval
  | enospc
  | failed
  deriving DecidableEq

/-- `filesystem_table`. -/
abbrev DfsTable (Dev : Type*) := List (Option (DfsMount Dev))

namespace DfsTable

variable {Dev : Type*}

/-- A table with room for `n` file systems, and nothing mounted. -/
def init (n : Nat) : DfsTable Dev := List.replicate n none

/-- An entry has this path. -/
def isMounted (table : DfsTable Dev) (path : List Char) : Bool := table.any fun e => e.any fun m => m.path = path

/-- `dfs_mount`, from where the path is normalized on. -/
def register (table : DfsTable Dev) (env : DfsEnv) (device : Option (Option Dev)) (path full : List Char) (ops : FsOps) :
    DfsTable Dev × Option DfsErr :=
  if full ≠ ['/'] ∧ full ≠ ['/', 'd', 'e', 'v'] ∧ env.opens = false then (table, some .enotdir)
  else if table.isMounted path then (table, some .einval)
  else
    match table.findIdx? Option.isNone with
    | none => (table, some .enospc)
    | some i =>
      let table := table.set i (some { path := full, ops := ops, devId := device.join })
      if device.join.isSome ∧ env.device = false then (table.set i none, some .failed)
      else if env.mounts = false then (table.set i none, some .failed)
      else (table, none)

/-- `dfs_mount`. -/
def dfsMount (table : DfsTable Dev) (env : DfsEnv) (device : Option (Option Dev)) (path fsType : List Char) :
    DfsTable Dev × Option DfsErr :=
  match device with
  | some none => (table, some .enodev)
  | _ =>
    match env.ops.find? fun o => o.any fun ops => ops.name = fsType with
    | none => (table, some .enodev)
    | some none => (table, some .enosys)
    | some (some ops) =>
      if ops.hasMount = false then (table, some .enosys)
      else
        match dfsNormalizePath env.workdir env.memory path with
        | none => (table, some .enotdir)
        | some full => table.register env device path full ops

/-- `dfs_unmount`. -/
def dfsUnmount (table : DfsTable Dev) (env : DfsEnv) (path : List Char) : DfsTable Dev × Option DfsErr :=
  match dfsNormalizePath env.workdir env.memory path with
  | none => (table, some .enotdir)
  | some full =>
    match table.findIdx? fun e => e.any fun m => m.path = full with
    | none => (table, some .failed)
    | some i =>
      if (table[i]?.join.any fun m => m.ops.hasUnmount) ∧ env.unmounts = true then (table.set i none, none)
      else (table, some .failed)

/-- A call. -/
def exec (table : DfsTable Dev) (call : DfsCall Dev) (env : DfsEnv) : DfsTable Dev × Option DfsErr :=
  match call with
  | .mount device path fsType => table.dfsMount env device path fsType
  | .unmount path => table.dfsUnmount env path

/-- One step: a call with its result. -/
def Step (table : DfsTable Dev) (l : (DfsCall Dev × DfsEnv) × Option DfsErr) (table' : DfsTable Dev) : Prop :=
  table.exec l.1.1 l.1.2 = (table', l.2)

/-! ## What is promised -/

/-- The mounted paths are normalized absolute paths, and no two of them are the same. -/
structure Ok (table : DfsTable Dev) : Prop where
  normal : ∀ (i : Nat) (m : DfsMount Dev), table[i]? = some (some m) → Paths.normalize m.path = m.path
  distinct : ∀ (i j : Nat) (m m' : DfsMount Dev), table[i]? = some (some m) → table[j]? = some (some m') →
    Paths.normalize m.path = Paths.normalize m'.path → i = j

/-- The condition on a call. A path that is mounted does not go up from the root to name something below it afterwards;
and if what it normalizes to is mounted, then the spelling that is given is one of those in the table. -/
def CallOk (table : DfsTable Dev) (call : DfsCall Dev) (env : DfsEnv) : Prop :=
  match call with
  | .mount _ path _ => (∀ p ∈ fullPath env.workdir path, PathOk p) ∧
      ∀ full ∈ dfsNormalizePath env.workdir env.memory path, table.isMounted full = true → table.isMounted path = true
  | .unmount _ => True

/-- The condition on a step. -/
def StepOk (table : DfsTable Dev) (l : (DfsCall Dev × DfsEnv) × Option DfsErr) : Prop := table.CallOk l.1.1 l.1.2

instance (table : DfsTable Dev) (call : DfsCall Dev) (env : DfsEnv) : Decidable (table.CallOk call env) :=
  match call with
  | .mount _ path _ => inferInstanceAs (Decidable ((∀ p ∈ fullPath env.workdir path, PathOk p) ∧
      ∀ full ∈ dfsNormalizePath env.workdir env.memory path,
        table.isMounted full = true → table.isMounted path = true))
  | .unmount _ => inferInstanceAs (Decidable True)

instance (table : DfsTable Dev) (l : (DfsCall Dev × DfsEnv) × Option DfsErr) : Decidable (table.StepOk l) :=
  inferInstanceAs (Decidable (table.CallOk l.1.1 l.1.2))

/-! ## Calls and the table -/

variable {table table' : DfsTable Dev} {env : DfsEnv} {m : DfsMount Dev} {path full : List Char}

theorem isMounted_iff : table.isMounted path = true ↔ ∃ (i : Nat) (m : DfsMount Dev), table[i]? = some (some m) ∧ m.path = path := by
  unfold isMounted
  rw [List.any_eq_true]
  constructor
  · rintro ⟨e, he, hany⟩
    cases e with
    | none => exact absurd hany Bool.false_ne_true
    | some m =>
      obtain ⟨i, hi⟩ := List.mem_iff_getElem?.mp he
      exact ⟨i, m, hi, of_decide_eq_true hany⟩
  · rintro ⟨i, m, hi, hm⟩
    exact ⟨some m, List.mem_iff_getElem?.mpr ⟨i, hi⟩, decide_eq_true hm⟩

/-- The empty entry that is found. -/
theorem getElem?_of_find {i : Nat} (h : table.findIdx? Option.isNone = some i) : table[i]? = some none := by
  obtain ⟨hi, hnone, -⟩ := List.findIdx?_eq_some_iff_getElem.mp h
  rw [List.getElem?_eq_getElem hi, Option.isNone_iff_eq_none.mp hnone]

/-- An entry that is registered and cleared again is as it was. -/
theorem set_clear {i : Nat} (h : table[i]? = some none) (e : Option (DfsMount Dev)) :
    (table.set i e).set i none = table := by
  obtain ⟨hi, hget⟩ := List.getElem?_eq_some_iff.mp h
  rw [List.set_set, ← hget, List.set_getElem_self]

/-- **What a mount can do**: leave the table as it is and fail, or fill an empty entry with the path that it has
normalized, when the path that it has been given is not in the table. -/
theorem mount_cases (table : DfsTable Dev) (env : DfsEnv) (device : Option (Option Dev)) (path fsType : List Char) :
    (∃ err, table.dfsMount env device path fsType = (table, some err)) ∨
      ∃ (i : Nat) (m : DfsMount Dev), dfsNormalizePath env.workdir env.memory path = some m.path ∧
        table[i]? = some none ∧ table.isMounted path = false ∧
          table.dfsMount env device path fsType = (table.set i (some m), none) := by
  unfold dfsMount
  split
  next => exact .inl ⟨_, rfl⟩
  next =>
    split
    next => exact .inl ⟨_, rfl⟩
    next => exact .inl ⟨_, rfl⟩
    next ops _ =>
      by_cases hmount : ops.hasMount = false
      · rw [if_pos hmount]
        exact .inl ⟨_, rfl⟩
      rw [if_neg hmount]
      split
      next => exact .inl ⟨_, rfl⟩
      next full hfull =>
        unfold register
        by_cases hopens : full ≠ ['/'] ∧ full ≠ ['/', 'd', 'e', 'v'] ∧ env.opens = false
        · rw [if_pos hopens]
          exact .inl ⟨_, rfl⟩
        rw [if_neg hopens]
        cases hmounted : table.isMounted path with
        | true => exact .inl ⟨_, if_pos rfl⟩
        | false =>
          rw [if_neg Bool.false_ne_true]
          cases hfind : table.findIdx? Option.isNone with
          | none => exact .inl ⟨_, rfl⟩
          | some i =>
            have hi := getElem?_of_find hfind
            dsimp only
            rw [set_clear hi]
            by_cases hdevice : device.join.isSome ∧ env.device = false
            · rw [if_pos hdevice]
              exact .inl ⟨_, rfl⟩
            rw [if_neg hdevice]
            by_cases hfs : env.mounts = false
            · rw [if_pos hfs]
              exact .inl ⟨_, rfl⟩
            rw [if_neg hfs]
            exact .inr ⟨i, _, hfull, hi, rfl, rfl⟩

/-- An unmount leaves the table as it is, or clears an entry. -/
theorem unmount_cases (table : DfsTable Dev) (env : DfsEnv) (path : List Char) :
    (table.dfsUnmount env path).1 = table ∨ ∃ i, (table.dfsUnmount env path).1 = table.set i none := by
  unfold dfsUnmount
  split
  next => exact .inl rfl
  next =>
    split
    next => exact .inl rfl
    next i _ =>
      split
      next => exact .inr ⟨i, rfl⟩
      next => exact .inl rfl

theorem Ok.clear (h : table.Ok) (i : Nat) : Ok (table.set i none) := by
  have hold : ∀ (j : Nat) (m : DfsMount Dev), (table.set i none)[j]? = some (some m) → table[j]? = some (some m) := by
    intro j m hj
    rw [List.getElem?_set] at hj
    split at hj
    next =>
      split at hj
      next => exact absurd hj nofun
      next => exact absurd hj nofun
    next => exact hj
  exact ⟨fun j m hj => h.normal j m (hold j m hj),
    fun j k m m' hj hk => h.distinct j k m m' (hold j m hj) (hold k m' hk)⟩

/-- The entries of a table in which an empty one has been filled. -/
theorem getElem?_fill {i j : Nat} (hi : table[i]? = some none) {e : Option (DfsMount Dev)} :
    (table.set i e)[j]? = if j = i then some e else table[j]? := by
  obtain ⟨hlt, -⟩ := List.getElem?_eq_some_iff.mp hi
  rw [List.getElem?_set]
  by_cases hj : j = i
  · rw [if_pos hj.symm, if_pos hj, if_pos hlt]
  · rw [if_neg fun h => hj h.symm, if_neg hj]

/-- **An entry that is filled** keeps the table in order exactly if its path is normalized and not in the table. -/
theorem Ok.fill_iff (h : table.Ok) {i : Nat} (hi : table[i]? = some none) :
    Ok (table.set i (some m)) ↔ Paths.normalize m.path = m.path ∧ table.isMounted m.path = false := by
  constructor
  · intro hok
    have hself : (table.set i (some m))[i]? = some (some m) := by rw [getElem?_fill hi, if_pos rfl]
    refine ⟨hok.normal i m hself, ?_⟩
    by_contra hm
    obtain ⟨j, m', hj, hpath⟩ := isMounted_iff.mp (Bool.not_eq_false _ ▸ hm)
    have hne : j ≠ i := by
      rintro rfl
      exact absurd (Option.some.inj (hi.symm.trans hj)) nofun
    have hother : (table.set i (some m))[j]? = some (some m') := by rw [getElem?_fill hi, if_neg hne, hj]
    exact hne (hok.distinct j i m' m hother hself (by rw [hpath]))
  · rintro ⟨hnormal, hfree⟩
    have hnew : ∀ (j : Nat) (m' : DfsMount Dev), table[j]? = some (some m') →
        Paths.normalize m'.path ≠ Paths.normalize m.path := by
      intro j m' hj heq
      rw [h.normal j m' hj, hnormal] at heq
      rw [isMounted_iff.mpr ⟨j, m', hj, heq⟩] at hfree
      exact Bool.noConfusion hfree
    constructor
    · intro j m' hj
      rw [getElem?_fill hi] at hj
      split at hj
      next =>
        obtain rfl := Option.some.inj (Option.some.inj hj)
        exact hnormal
      next => exact h.normal j m' hj
    · intro j k m₁ m₂ hj hk heq
      rw [getElem?_fill hi] at hj hk
      split at hj
      next hji =>
        obtain rfl := Option.some.inj (Option.some.inj hj)
        split at hk
        next hki => exact hji.trans hki.symm
        next => exact absurd heq.symm (hnew k m₂ hk)
      next =>
        split at hk
        next =>
          obtain rfl := Option.some.inj (Option.some.inj hk)
          exact absurd heq (hnew j m₁ hj)
        next => exact h.distinct j k m₁ m₂ hj hk heq

/-- What is registered is a normalized absolute path exactly if the path does not leave the root. -/
theorem normalize_iff {directory : Option (List Char)} {memory : Bool}
    (h : dfsNormalizePath directory memory path = some full) :
    Paths.normalize full = full ↔ ∀ p ∈ fullPath directory path, PathOk p := by
  unfold dfsNormalizePath at h
  obtain ⟨p, hp, hloop⟩ := Option.bind_eq_some_iff.mp h
  cases memory with
  | false => exact absurd hloop nofun
  | true =>
    rw [normal_iff hloop]
    constructor
    · intro hok q hq
      obtain rfl := Option.some.inj (hp.symm.trans hq)
      exact hok
    · exact fun hall => hall p hp

/-- **A mount that succeeds** keeps the table in order exactly under the condition. -/
theorem Ok.mount_iff (h : table.Ok) {device : Option (Option Dev)} {fsType : List Char}
    (hs : table.dfsMount env device path fsType = (table', none)) :
    table.CallOk (.mount device path fsType) env ↔ table'.Ok := by
  rcases mount_cases table env device path fsType with ⟨err, herr⟩ | ⟨i, m, hfull, hi, hfree, hset⟩
  · exact absurd (congrArg Prod.snd (herr.symm.trans hs)) nofun
  · obtain rfl : table.set i (some m) = table' := congrArg Prod.fst (hset.symm.trans hs)
    rw [h.fill_iff hi, normalize_iff hfull]
    show _ ∧ _ ↔ _
    rw [hfull]
    constructor
    · rintro ⟨hpath, hmounted⟩
      refine ⟨hpath, ?_⟩
      by_contra hm
      have htrue := hmounted m.path rfl (Bool.not_eq_false _ ▸ hm)
      exact Bool.noConfusion (hfree.symm.trans htrue)
    · rintro ⟨hpath, hmounted⟩
      refine ⟨hpath, ?_⟩
      intro q hq hm
      obtain rfl := Option.some.inj hq
      exact absurd (hmounted.symm.trans hm) Bool.noConfusion

/-! ## Runs -/

theorem ok_init (n : Nat) : Ok (init n : DfsTable Dev) := by
  have hnone : ∀ (i : Nat) (m : DfsMount Dev), (init n : DfsTable Dev)[i]? ≠ some (some m) := by
    intro i m hi
    unfold init at hi
    rw [List.getElem?_replicate] at hi
    split at hi <;> exact absurd hi nofun
  exact ⟨fun i m hi => absurd hi (hnone i m), fun i _ m _ hi => absurd hi (hnone i m)⟩

/-- A mount that fails leaves the table as it was. -/
theorem mount_failed {device : Option (Option Dev)} {fsType : List Char} {err : DfsErr}
    (hs : table.dfsMount env device path fsType = (table', some err)) : table' = table := by
  rcases mount_cases table env device path fsType with ⟨err', herr⟩ | ⟨i, m, -, -, -, hset⟩
  · exact congrArg Prod.fst (hs.symm.trans herr)
  · exact absurd (congrArg Prod.snd (hs.symm.trans hset)) nofun

/-- **One step.** -/
theorem ok_step {l : (DfsCall Dev × DfsEnv) × Option DfsErr} (h : table.Ok) (hok : table.StepOk l)
    (hs : table.Step l table') : table'.Ok := by
  obtain ⟨⟨call, env⟩, result⟩ := l
  cases call with
  | mount device path fsType =>
    cases result with
    | none => exact (h.mount_iff hs).mp hok
    | some err =>
      rw [mount_failed hs]
      exact h
  | unmount path =>
    obtain rfl : (table.dfsUnmount env path).1 = table' := congrArg Prod.fst hs
    rcases unmount_cases table env path with hsame | ⟨i, hclear⟩
    · rw [hsame]
      exact h
    · rw [hclear]
      exact h.clear i

/-- **The mount table.** In a run whose mounts meet the condition, the mounted paths are normalized and differ. From the
table that is reached, a mount that fails changes nothing, and one that succeeds keeps the table in order exactly if it
meets the condition. -/
theorem mount_table {n : Nat} {ls : List ((DfsCall Dev × DfsEnv) × Option DfsErr)}
    (hrun : Run (Guarded StepOk Step) (init n) ls table) :
    table.Ok ∧ ∀ device path fsType env result table',
      table.Step ((.mount device path fsType, env), result) table' →
        (result ≠ none → table' = table) ∧
          (result = none → (table.StepOk ((.mount device path fsType, env), result) ↔ table'.Ok)) := by
  have hok : table.Ok := hrun.guarded (ok_init n) fun _ _ _ h hok hs => ok_step h hok hs
  refine ⟨hok, ?_⟩
  intro device path fsType env result table' hs
  constructor
  · intro hne
    obtain ⟨err, rfl⟩ := Option.ne_none_iff_exists'.mp hne
    exact mount_failed hs
  · rintro rfl
    exact hok.mount_iff hs

/-- A call with a result that is expected. -/
def tryCall (table : DfsTable Dev) (l : (DfsCall Dev × DfsEnv) × Option DfsErr) : Option (DfsTable Dev) :=
  if (table.exec l.1.1 l.1.2).2 = l.2 then some (table.exec l.1.1 l.1.2).1 else none

theorem step_of_tryCall {l : (DfsCall Dev × DfsEnv) × Option DfsErr} (h : table.tryCall l = some table') :
    table.Step l table' := by
  unfold tryCall at h
  split at h
  next hl => exact Prod.ext (Option.some.inj h) hl
  next => exact absurd h nofun

/-- One file system that can be mounted, with everything going well, and the root as working directory. -/
def ramEnv : DfsEnv where
  ops := [some { name := ['r', 'a', 'm'], hasMount := true, hasUnmount := true }]
  workdir := some ['/']
  memory := true
  opens := true
  device := true
  mounts := true
  unmounts := true

/-- The root is mounted, and then `dev/../mnt//`; the table is full then. -/
theorem mount_table_run : ∃ table : DfsTable Nat,
    (table.isMounted ['/'] = true ∧ table.isMounted ['/', 'm', 'n', 't'] = true) ∧
    table.Ok ∧ ∀ device path fsType env result table', table.Step ((.mount device path fsType, env), result) table' →
      (result ≠ none → table' = table) ∧
        (result = none → (table.StepOk ((.mount device path fsType, env), result) ↔ table'.Ok)) := by
  have hexec : ((([((.mount none ['/'] ['r', 'a', 'm'], ramEnv), none),
      ((.mount none "dev/../mnt//".toList ['r', 'a', 'm'], ramEnv), none),
      ((.mount none "/tmp".toList ['r', 'a', 'm'], ramEnv), some .enospc)] :
        List ((DfsCall Nat × DfsEnv) × Option DfsErr)).foldlM (fun table l =>
          if StepOk table l then tryCall table l else none) (init 2)).map fun table : DfsTable Nat =>
            table.isMounted ['/'] && table.isMounted ['/', 'm', 'n', 't']) = some true := by decide +kernel
  obtain ⟨table, hs, hobs⟩ := Option.map_eq_some_iff.mp hexec
  exact ⟨table, Bool.and_eq_true_iff.mp hobs, mount_table (Run.of_foldlM_guarded (fun _ _ _ => step_of_tryCall) hs)⟩

/-- **The root is mounted twice**, as `/` and as `//`. -/
theorem mount_table_twice : ¬ ∀ (n : Nat) (ls : List ((DfsCall Nat × DfsEnv) × Option DfsErr)) (table : DfsTable Nat),
    Run Step (init n) ls table → table.Ok := by
  intro hall
  have hexec : ((([((.mount none ['/'] ['r', 'a', 'm'], ramEnv), none),
      ((.mount none ['/', '/'] ['r', 'a', 'm'], ramEnv), none)] :
        List ((DfsCall Nat × DfsEnv) × Option DfsErr)).foldlM tryCall (init 2)).map fun table : DfsTable Nat =>
          table.map fun e => e.map fun m => m.path) = some [some ['/'], some ['/']] := by decide +kernel
  obtain ⟨table, hs, hobs⟩ := Option.map_eq_some_iff.mp hexec
  have hok := hall 2 _ table (Run.of_foldlM (fun _ _ _ => step_of_tryCall) hs)
  have hentry : ∀ i, i < 2 → ∃ m : DfsMount Nat, table[i]? = some (some m) ∧ m.path = ['/'] := by
    intro i hi
    have hget : (table.map fun e => e.map fun m => m.path)[i]? = some (some ['/']) := by
      rw [hobs]
      match i, hi with
      | 0, _ => rfl
      | 1, _ => rfl
    rw [List.getElem?_map] at hget
    obtain ⟨e, he, hpath⟩ := Option.map_eq_some_iff.mp hget
    obtain ⟨m, rfl, hm⟩ := Option.map_eq_some_iff.mp hpath
    exact ⟨m, he, hm⟩
  obtain ⟨m, hm, hpath⟩ := hentry 0 (by decide)
  obtain ⟨m', hm', hpath'⟩ := hentry 1 (by decide)
  exact absurd (hok.distinct 0 1 m m' hm hm' (by rw [hpath, hpath'])) (by decide)

end DfsTable

end CoreLink.RtThread
