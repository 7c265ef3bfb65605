/-
# `CoreLink.RtThread.Ramfs` — the files of `components/dfs/filesystems/ramfs/dfs_ramfs.c`.

A file is a directory entry with a block of memheap, which is reallocated when a write goes beyond the end. The size of
the file stands in the entry, and once more in every descriptor, from where `dfs_ramfs_read`, `dfs_ramfs_write` and
`dfs_ramfs_lseek` take it: it is copied when the file is opened, and changed by the writes of that descriptor.

memheap itself is a parameter: a call comes with what it answers, if it is asked (`RamAnswer`). A call that accesses
memory outside of a block, or reads a name beyond its array, is a fault, and the model says nothing about what comes
after it.
-/
import CoreLink.Lib.Run
import CoreLink.Lib.Word

namespace CoreLink.RtThread

open CoreLink.Lib

/-! ## Calls -/

/-- The flags that `dfs_ramfs_open` tests. Each is a bit of its own. -/
structure OpenFlags where
  directory : Bool := false
  creat : Bool := false
  wronly : Bool := false
  trunc : Bool := false
  append : Bool := false
  deriving DecidableEq

/-- The errors of the operations. -/
inductive RamErr where
  | enospc
  | enoent
  | enomem
  | eio
  deriving DecidableEq

/-- The calls on a descriptor. -/
inductive RamCall (F : Type*) where
  | openFd (f : F) (path : List Char) (flags : OpenFlags)
  | read (f : F) (count : Nat)
  | write (f : F) (buf : List UInt8)
  | lseek (f : F) (offset : Nat)
  | close (f : F)

/-- What the calls return: an error or 0, a number and the bytes that were read, a number, an error or 0. -/
inductive RamOut where
  | opened (result : Option RamErr)
  | read (result : Int) (bytes : List UInt8)
  | wrote (result : Int)
  | sought (result : Option RamErr)
  | closed
  deriving DecidableEq

/-- What memheap answers to a call: the block of `rt_memheap_alloc` for a directory entry, and for `rt_memheap_realloc`
the bytes that are new in the block. -/
structure RamAnswer (D : Type*) where
  entry : Option D
  block : Option (Nat → UInt8)

def ramfsNameMax : Nat := 32

/-- The value as an `int` or an `off_t`. -/
def toSigned (n : Nat) : Int := if n < 2 ^ 31 then n else n - 2 ^ 32

/-! ## The file system -/

/-- `struct dfs_fd`, as far as these functions use it. -/
structure RamFd (D : Type*) where
  dirent : D
  size : Nat
  pos : Nat

/-- `struct dfs_ramfs` with its entries, in the order of the list, and the open descriptors. -/
structure Ramfs (D F : Type*) where
  root : D
  list : List D
  /-- the characters of `name` up to the terminating 0, or all 32 if there is none -/
  name : D → List Char
  /-- the bytes of the block; `none` for `NULL` -/
  data : D → Option (List UInt8)
  size : D → Nat
  fd : F → Option (RamFd D)

/-- `rt_strcmp` of a name with a path, as a test; `none` if it reads beyond the array. -/
def nameEq (name subpath : List Char) : Option Bool :=
  if name.length < ramfsNameMax then some (decide (name = subpath))
  else if name.isPrefixOf subpath then none
  else some false

/-- The path without its leading separators. -/
def subpath (path : List Char) : List Char := path.dropWhile (· = '/')

/-- `rt_memheap_realloc` to a larger or smaller size. -/
def reallocBytes (old : Option (List UInt8)) (size : Nat) (fresh : Nat → UInt8) : List UInt8 :=
  (old.getD []).take size ++ (List.range (size - (old.getD []).length)).map fresh

/-- The bytes with others at a position. -/
def replaceAt (bytes : List UInt8) (pos : Nat) (buf : List UInt8) : List UInt8 :=
  bytes.take pos ++ buf ++ bytes.drop (pos + buf.length)

namespace Ramfs

variable {D F : Type*}

/-- After `dfs_ramfs_create`, with nothing open. -/
def init (root : D) : Ramfs D F where
  root := root
  list := []
  name _ := ['.']
  data _ := none
  size _ := 0
  fd _ := none

/-- The loop of `dfs_ramfs_lookup`. -/
def lookupIn (s : Ramfs D F) (path : List Char) : List D → Option (Option D)
  | [] => some none
  | d :: ds =>
    match nameEq (s.name d) path with
    | none => none
    | some true => some (some d)
    | some false => lookupIn s path ds

/-- The loop over names with a 0 at their end. -/
theorem lookupIn_eq {s : Ramfs D F} {path : List Char} {ds : List D}
    (h : ∀ d ∈ ds, (s.name d).length < ramfsNameMax) :
    s.lookupIn path ds = some (ds.find? fun d => s.name d = path) := by
  induction ds with
  | nil => rfl
  | cons d ds ih =>
    obtain ⟨hd, hds⟩ := List.forall_mem_cons.mp h
    have heq : nameEq (s.name d) path = some (decide (s.name d = path)) := if_pos hd
    rw [lookupIn, heq, List.find?_cons]
    by_cases hname : s.name d = path
    · rw [decide_eq_true hname]
    · rw [decide_eq_false hname]
      exact ih hds

/-- `dfs_ramfs_lookup`. -/
def lookup (s : Ramfs D F) (path : List Char) : Option (Option D) :=
  if subpath path = [] then some (some s.root) else s.lookupIn (subpath path) s.list

section Calls

variable [DecidableEq D] [DecidableEq F]

def setFd (s : Ramfs D F) (f : F) (x : Option (RamFd D)) : Ramfs D F := { s with fd := Function.update s.fd f x }

/-- A new entry, at the head of the list. -/
def addEntry (s : Ramfs D F) (d : D) (name : List Char) : Ramfs D F :=
  { s with
    list := d :: s.list
    name := Function.update s.name d (name.take ramfsNameMax)
    data := Function.update s.data d none
    size := Function.update s.size d 0 }

/-- What `O_TRUNC` does. -/
def truncate (s : Ramfs D F) (d : D) : Ramfs D F :=
  { s with size := Function.update s.size d 0, data := Function.update s.data d none }

/-- The end of `dfs_ramfs_open`. -/
def attach (s : Ramfs D F) (f : F) (d : D) (flags : OpenFlags) : Ramfs D F :=
  s.setFd f (some { dirent := d, size := s.size d, pos := if flags.append then s.size d else 0 })

/-- `dfs_ramfs_open`. -/
def dfsRamfsOpen (s : Ramfs D F) (f : F) (path : List Char) (flags : OpenFlags) (entry : Option D) :
    Option (Ramfs D F × Option RamErr) :=
  if flags.directory then
    if flags.creat then some (s, some .enospc)
    else
      match s.lookup path with
      | none => none
      | some none => some (s, some .enoent)
      | some (some d) => some (s.attach f d flags, none)
  else
    match s.lookup path with
    | none => none
    | some (some d) =>
      if d = s.root then some (s, some .enoent)
      else some ((if flags.trunc then s.truncate d else s).attach f d flags, none)
    | some none =>
      if flags.creat ∨ flags.wronly then
        match entry with
        | none => some (s, some .enomem)
        | some d =>
          let s := s.addEntry d (subpath path)
          some ((if flags.trunc then s.truncate d else s).attach f d flags, none)
      else some (s, some .enoent)

/-- `dfs_ramfs_read`. -/
def dfsRamfsRead (s : Ramfs D F) (f : F) (x : RamFd D) (count : Nat) : Option (Ramfs D F × Int × List UInt8) :=
  let left := Word.sub 32 x.size x.pos
  let length := if count < left then count else left
  let bytes := (((s.data x.dirent).getD []).drop x.pos).take length
  if bytes.length < length then none
  else some (s.setFd f (some { x with pos := x.pos + length }), toSigned length, bytes)

/-- `dfs_ramfs_write`. -/
def dfsRamfsWrite (s : Ramfs D F) (f : F) (x : RamFd D) (buf : List UInt8) (block : Option (Nat → UInt8)) :
    Option (Ramfs D F × Int) :=
  let top := (x.pos + buf.length) % 2 ^ 32
  -- the block and the sizes, after a reallocation if there is one
  let grown : Option (Option (List UInt8) × Nat × Nat) :=
    if x.size < top then block.map fun fresh => (some (reallocBytes (s.data x.dirent) top fresh), top, top)
    else some (s.data x.dirent, s.size x.dirent, x.size)
  match grown with
  | none => some (s, 0)
  | some (data, size, fdSize) =>
    if buf ≠ [] ∧ (data.getD []).length < x.pos + buf.length then none
    else
      some ({ s with
        data := Function.update s.data x.dirent (data.map fun bytes => replaceAt bytes x.pos buf)
        size := Function.update s.size x.dirent size }.setFd f (some { x with size := fdSize, pos := top }),
        toSigned buf.length)

/-- `dfs_ramfs_lseek`. -/
def dfsRamfsLseek (s : Ramfs D F) (f : F) (x : RamFd D) (offset : Nat) : Ramfs D F × Option RamErr :=
  if offset ≤ toSigned x.size then (s.setFd f (some { x with pos := offset }), none) else (s, some .eio)

/-- A call, with its result; `none` is a fault. -/
def exec (s : Ramfs D F) (call : RamCall F) (answer : RamAnswer D) : Option (Ramfs D F × RamOut) :=
  match call with
  | .openFd f path flags => (s.dfsRamfsOpen f path flags answer.entry).map fun r => (r.1, .opened r.2)
  | .read f count => (s.fd f).bind fun x => (s.dfsRamfsRead f x count).map fun r => (r.1, .read r.2.1 r.2.2)
  | .write f buf => (s.fd f).bind fun x => (s.dfsRamfsWrite f x buf answer.block).map fun r => (r.1, .wrote r.2)
  | .lseek f offset => (s.fd f).map fun x => ((s.dfsRamfsLseek f x offset).1, .sought (s.dfsRamfsLseek f x offset).2)
  | .close f => some (s.setFd f none, .closed)

end Calls

/-- That a call can be made: a descriptor that is opened is not in use, and the others are; `size_t` has 32 bits; and a
new block of memheap is in nobody's use. -/
def Enabled (s : Ramfs D F) (call : RamCall F) (answer : RamAnswer D) : Prop :=
  (match call with
    | .openFd f _ _ => s.fd f = none
    | .read f count => (s.fd f).isSome ∧ count < 2 ^ 32
    | .write f buf => (s.fd f).isSome ∧ buf.length < 2 ^ 32
    | .lseek f _ | .close f => (s.fd f).isSome) ∧
  ∀ d, answer.entry = some d → d ≠ s.root ∧ d ∉ s.list

instance [DecidableEq D] (s : Ramfs D F) (call : RamCall F) (answer : RamAnswer D) : Decidable (s.Enabled call answer) :=
  haveI : Decidable (∀ d, answer.entry = some d → d ≠ s.root ∧ d ∉ s.list) :=
    inferInstanceAs (Decidable (∀ d ∈ answer.entry, d ≠ s.root ∧ d ∉ s.list))
  match call with
  | .openFd f _ _ =>
    haveI : Decidable (s.fd f = none) := decidable_of_iff ((s.fd f).isNone = true) Option.isNone_iff_eq_none
    inferInstanceAs (Decidable (s.fd f = none ∧ ∀ d, answer.entry = some d → d ≠ s.root ∧ d ∉ s.list))
  | .read f count => inferInstanceAs (Decidable (((s.fd f).isSome ∧ count < 2 ^ 32) ∧
      ∀ d, answer.entry = some d → d ≠ s.root ∧ d ∉ s.list))
  | .write f buf => inferInstanceAs (Decidable (((s.fd f).isSome ∧ buf.length < 2 ^ 32) ∧
      ∀ d, answer.entry = some d → d ≠ s.root ∧ d ∉ s.list))
  | .lseek f _ | .close f => inferInstanceAs (Decidable ((s.fd f).isSome ∧
      ∀ d, answer.entry = some d → d ≠ s.root ∧ d ∉ s.list))

/-- One step: a call with its result. -/
def Step [DecidableEq D] [DecidableEq F] (s : Ramfs D F) (l : (RamCall F × RamAnswer D) × RamOut) (s' : Ramfs D F) :
    Prop :=
  s.Enabled l.1.1 l.1.2 ∧ s.exec l.1.1 l.1.2 = some (s', l.2)

end Ramfs

/-! ## What a file system is for -/

/-- A map from names to byte strings, and where the descriptors stand. The name of the root directory is empty. -/
structure RamSpec (F : Type*) where
  files : List Char → Option (List UInt8)
  fd : F → Option (List Char × Nat)

namespace RamSpec

variable {F : Type*}

/-- Nothing but the root directory. -/
def init : RamSpec F where
  files := fun name => if name = [] then some [] else none
  fd _ := none

/-- **What the calls promise.** An open that succeeds puts the descriptor at the beginning or the end of its file, which
it has created or truncated if need be; a read returns the bytes at its position, up to the end of the file; a write that
returns the number of its bytes replaces or appends them; and a call that fails changes nothing. -/
def Step [DecidableEq F] (a : RamSpec F) (l : RamCall F × RamOut) (a' : RamSpec F) : Prop :=
  match l with
  | (.openFd f path flags, .opened none) =>
    let bytes := if flags.trunc then [] else (a.files (subpath path)).getD []
    (a.files (subpath path) = none → flags.creat = true ∨ flags.wronly = true) ∧
      a' = { files := Function.update a.files (subpath path) (some bytes)
             fd := Function.update a.fd f (some (subpath path, if flags.append then bytes.length else 0)) }
  | (.openFd .., .opened (some _)) => a' = a
  | (.read f count, .read result bytes) => ∃ name pos content, a.fd f = some (name, pos) ∧
      a.files name = some content ∧ bytes = (content.drop pos).take count ∧ result = bytes.length ∧
        a' = { a with fd := Function.update a.fd f (some (name, pos + bytes.length)) }
  | (.write f buf, .wrote result) =>
    if result = buf.length then ∃ name pos content, a.fd f = some (name, pos) ∧ a.files name = some content ∧
      (buf ≠ [] → pos ≤ content.length) ∧
        a' = { files := Function.update a.files name (some (replaceAt content pos buf))
               fd := Function.update a.fd f (some (name, pos + buf.length)) }
    else a' = a
  | (.lseek f offset, .sought none) => ∃ name pos, a.fd f = some (name, pos) ∧
      a' = { a with fd := Function.update a.fd f (some (name, offset)) }
  | (.lseek .., .sought (some _)) => a' = a
  | (.close f, .closed) => a' = { a with fd := Function.update a.fd f none }
  | _ => False

end RamSpec

namespace Ramfs

variable {D F : Type*} [DecidableEq D]

/-- The bytes of an entry. -/
def content (s : Ramfs D F) (d : D) : List UInt8 := (s.data d).getD []

/-- What an entry is called. -/
def entryName (s : Ramfs D F) (d : D) : List Char := if d = s.root then [] else s.name d

/-- The map that the file system stands for. -/
def abs (s : Ramfs D F) : RamSpec F where
  files := fun name => ((s.root :: s.list).find? fun d => s.entryName d = name).map s.content
  fd f := (s.fd f).map fun x => (s.entryName x.dirent, x.pos)

/-- A call keeps its promise: it is no fault, and does what the specification says. -/
def Kept [DecidableEq F] (s : Ramfs D F) (call : RamCall F) (answer : RamAnswer D) : Prop :=
  ∃ s' out, s.exec call answer = some (s', out) ∧ s.abs.Step (call, out) s'.abs

/-- The condition on a call. A name fits into its array with the 0 at its end, and a file that is not empty is not opened
as a directory and to be truncated; a read that goes beyond the end of the file in the descriptor goes as far beyond the
one of the entry, and not beyond it otherwise; a write that is longer than the file in the descriptor leaves the file no
shorter and no gap, and another one stays within the file. -/
def CallOk (s : Ramfs D F) (call : RamCall F) (answer : RamAnswer D) : Prop :=
  match call with
  | .openFd _ path flags => (subpath path).length < ramfsNameMax ∧
      (flags.directory = true → flags.trunc = true → flags.creat = false →
        ∀ d, s.lookup path = some (some d) → s.content d = [])
  | .read f count => ∀ x, s.fd f = some x →
      min count (x.size - x.pos) = min count (s.size x.dirent - x.pos) ∧ min count (x.size - x.pos) < 2 ^ 31
  | .write f buf => ∀ x, s.fd f = some x → buf = [] ∨
      (x.size < (x.pos + buf.length) % 2 ^ 32 ∧ answer.block = none) ∨
      (buf.length < 2 ^ 31 ∧ x.pos + buf.length < 2 ^ 32 ∧
        if x.size < x.pos + buf.length then x.pos ≤ s.size x.dirent ∧ s.size x.dirent ≤ x.pos + buf.length
        else x.pos + buf.length ≤ s.size x.dirent)
  | .lseek .. | .close _ => True

instance (s : Ramfs D F) (call : RamCall F) (answer : RamAnswer D) : Decidable (s.CallOk call answer) :=
  match call with
  | .openFd _ path flags =>
    haveI : Decidable (∀ d, s.lookup path = some (some d) → s.content d = []) :=
      decidable_of_iff (∀ o ∈ s.lookup path, ∀ d ∈ o, s.content d = [])
        ⟨fun h d hd => h (some d) hd d rfl, fun h o ho d hd => h d (by rw [ho, hd])⟩
    inferInstanceAs (Decidable ((subpath path).length < ramfsNameMax ∧
      (flags.directory = true → flags.trunc = true → flags.creat = false →
        ∀ d, s.lookup path = some (some d) → s.content d = [])))
  | .read f count => inferInstanceAs (Decidable (∀ x ∈ s.fd f,
      min count (x.size - x.pos) = min count (s.size x.dirent - x.pos) ∧ min count (x.size - x.pos) < 2 ^ 31))
  | .write f buf =>
    haveI (x : RamFd D) : Decidable (x.size < (x.pos + buf.length) % 2 ^ 32 ∧ answer.block = none) :=
      decidable_of_iff (x.size < (x.pos + buf.length) % 2 ^ 32 ∧ answer.block.isNone = true)
        (and_congr_right fun _ => Option.isNone_iff_eq_none)
    inferInstanceAs (Decidable (∀ x ∈ s.fd f, buf = [] ∨
      (x.size < (x.pos + buf.length) % 2 ^ 32 ∧ answer.block = none) ∨
      (buf.length < 2 ^ 31 ∧ x.pos + buf.length < 2 ^ 32 ∧
        if x.size < x.pos + buf.length then x.pos ≤ s.size x.dirent ∧ s.size x.dirent ≤ x.pos + buf.length
        else x.pos + buf.length ≤ s.size x.dirent)))
  | .lseek .. | .close _ => inferInstanceAs (Decidable True)

end Ramfs

end CoreLink.RtThread
