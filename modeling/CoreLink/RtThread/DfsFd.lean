/-
# `CoreLink.RtThread.DfsFd` — the file descriptors of `components/dfs/src/dfs.c` and `dfs_posix.c`, and when one is freed.

A call is its critical sections: `fd_new` and `fd_get` take a reference, `fd_put` drops one and frees the descriptor at
zero, and the operation of the file system runs in between, without the lock. A descriptor that is open has one reference
for that. `close` drops two, its own and the one for being open, and nothing in `struct dfs_fd` says that the second one
is gone: while some other call holds the descriptor, its number still leads to it, also for another `close`.

`magic` and `ref_count` are the fields of the source that the lifetime depends on. The others of `DfsFd` record what has
happened to the descriptor: no function reads them, and the properties speak of them.
-/
import CoreLink.Lib.Run
import CoreLink.Lib.WaitList

namespace CoreLink.RtThread

open CoreLink.Lib

/-! ## The source -/

/-- `DFS_FD_OFFSET` of `dfs.h`. -/
def dfsFdOffset : Int := 3

/-- `DFS_FD_MAGIC` of `dfs_file.h`. -/
def dfsFdMagic : Nat := 0xfdfd

/-- `struct dfs_fd`. -/
structure DfsFd where
  magic : Nat
  refCount : Int
  /-- it has been allocated and not freed -/
  live : Bool
  /-- its index in the table -/
  index : Nat
  /-- the reference for being open has not been dropped -/
  openRef : Bool
  /-- how often the `open` of the file system has succeeded for it -/
  opens : Nat
  /-- how often the `close` of the file system has run on it -/
  closes : Nat
  /-- a call of `close` has got it -/
  closeGot : Bool

/-- The file operation of a call. -/
inductive FdOp where
  | open
  | close
  /-- `read`, `write` or `lseek` -/
  | other
  deriving DecidableEq

/-- Where a thread is in its call. -/
inductive FdPc where
  /-- in none of the calls -/
  | idle
  /-- in `open`, between `fd_new`, which has returned the number for the index `i`, and `fd_get`; `d` is what was new -/
  | opening (i d : Nat)
  /-- after `fd_get`, before the file operation -/
  | file (op : FdOp) (d : Nat)
  /-- before the only `fd_put` that is left -/
  | put (d : Nat)
  /-- before the first of two -/
  | putTwice (d : Nat)
  /-- before the second of two, which drops the reference for being open -/
  | drop (d : Nat)
  /-- in the handler of an `RT_ASSERT` that has failed -/
  | asserted
  deriving DecidableEq

namespace FdPc

/-- The descriptor that the thread has got, and not put. -/
def holds : FdPc → Option Nat
  | file _ d | put d | putTwice d => some d
  | idle | opening .. | drop _ | asserted => none

/-- The descriptor whose reference for being open is the thread's, to keep or to drop. -/
def owns : FdPc → Option Nat
  | opening _ d | file .open d | file .close d | putTwice d | drop d => some d
  | idle | file .other _ | put _ | asserted => none

/-- The descriptor that the thread works with. -/
def desc : FdPc → Option Nat
  | opening _ d | file _ d | put d | putTwice d | drop d => some d
  | idle | asserted => none

/-- The descriptor that the next `fd_put` of the thread is for. -/
def puts : FdPc → Option Nat
  | put d | putTwice d | drop d => some d
  | idle | opening .. | file .. | asserted => none

def isOpening : FdPc → Bool
  | opening .. => true
  | idle | file .. | put _ | putTwice _ | drop _ | asserted => false

def isFile : FdPc → Bool
  | file .. => true
  | idle | opening .. | put _ | putTwice _ | drop _ | asserted => false

end FdPc

/-- What can happen next. -/
inductive FdEvent (T : Type*) where
  /-- `open` begins: `fd_new`, with the results of its `rt_realloc` and its `rt_calloc` -/
  | open (t : T) (reallocOk callocOk : Bool)
  /-- `fd_get` in `open` -/
  | get (t : T)
  /-- `close` begins: `fd_get` -/
  | close (t : T) (fd : Int)
  /-- `read`, `write` or `lseek` begins: `fd_get` -/
  | other (t : T) (fd : Int)
  /-- the file operation of a call, and whether it succeeds -/
  | file (t : T) (ok : Bool)
  /-- the next `fd_put` of a call -/
  | put (t : T)

/-- `struct dfs_fdtable`, the descriptors by identity, and the threads. -/
structure FdSys (T : Type*) where
  fds : List (Option Nat)
  desc : Nat → DfsFd
  /-- the identities from here on have not been allocated -/
  next : Nat
  pc : T → FdPc

variable {T : Type*}

namespace FdSys

/-- The loop of `fd_alloc`: the first entry without a descriptor, or whose descriptor has no reference; `maxfd` if there
is none. -/
def findFd (s : FdSys T) : Nat :=
  s.fds.findIdx fun entry => entry.all fun d => (s.desc d).refCount = 0

/-- The table after `fd_alloc` has grown it, by 4 entries up to `DFS_FD_MAX`, if no entry was found. -/
def growFds (s : FdSys T) (fdMax : Nat) (reallocOk : Bool) : List (Option Nat) :=
  if s.findFd = s.fds.length ∧ s.fds.length < fdMax ∧ reallocOk = true then
    s.fds ++ List.replicate (min (s.fds.length + 4) fdMax - s.fds.length) none
  else s.fds

/-- What `fd_new` sets in a descriptor at the index `i`. -/
def newFd (i : Nat) : DfsFd where
  magic := dfsFdMagic
  refCount := 1
  live := true
  index := i
  openRef := true
  opens := 0
  closes := 0
  closeGot := false

/-- `fd_get` with an index for the number: the descriptor, if there is a valid one. -/
def fdGet (s : FdSys T) (i : Int) : Option Nat :=
  if i < 0 ∨ (s.fds.length : Int) ≤ i then none
  else
    match s.fds[i.toNat]? with
    | some (some d) => if (s.desc d).magic = dfsFdMagic then some d else none
    | some none | none => none

section Steps

variable [DecidableEq T]

def setPc (s : FdSys T) (t : T) (pc : FdPc) : FdSys T := { s with pc := Function.update s.pc t pc }

def setDesc (s : FdSys T) (d : Nat) (o : DfsFd) : FdSys T := { s with desc := Function.update s.desc d o }

/-- `fd_new`. -/
def fdNew (s : FdSys T) (fdMax : Nat) (t : T) (reallocOk callocOk : Bool) : FdSys T :=
  let i := s.findFd
  let s' := { s with fds := s.growFds fdMax reallocOk }
  match s'.fds[i]? with
  | none => s'
  | some (some d) => (s'.setDesc d (newFd i)).setPc t (.opening i d)
  | some none =>
    if callocOk = true then
      ({ s' with fds := s'.fds.set i (some s.next), next := s.next + 1 }.setDesc s.next (newFd i)).setPc t
        (.opening i s.next)
    else s'

/-- `fd_get` has found `d`, and the thread goes on with the file operation. -/
def acquire (s : FdSys T) (t : T) (op : FdOp) (d : Nat) : FdSys T :=
  (s.setDesc d { s.desc d with
    refCount := (s.desc d).refCount + 1, closeGot := (s.desc d).closeGot || op == .close }).setPc t (.file op d)

/-- `fd_get` in `open`; `fd_put` asserts that it is not called with `NULL`. -/
def openGet (s : FdSys T) (t : T) : FdSys T :=
  match s.pc t with
  | .opening i _ =>
    match s.fdGet i with
    | some d => s.acquire t .open d
    | none => s.setPc t .asserted
  | .idle | .file .. | .put _ | .putTwice _ | .drop _ | .asserted => s

/-- `fd_get` at the beginning of the other calls. -/
def callGet (s : FdSys T) (t : T) (op : FdOp) (fd : Int) : FdSys T :=
  match s.fdGet (fd - dfsFdOffset) with
  | some d => s.acquire t op d
  | none => s

/-- The file operation; `dfs_file_open` and `dfs_file_close` decide how often the descriptor is put. -/
def fileOp (s : FdSys T) (t : T) (ok : Bool) : FdSys T :=
  match s.pc t with
  | .file .open d =>
    if ok = true then (s.setDesc d { s.desc d with opens := (s.desc d).opens + 1 }).setPc t (.put d)
    else s.setPc t (.putTwice d)
  | .file .close d =>
    (s.setDesc d { s.desc d with closes := (s.desc d).closes + 1 }).setPc t (if ok = true then .putTwice d else .put d)
  | .file .other d => s.setPc t (.put d)
  | .idle | .opening .. | .put _ | .putTwice _ | .drop _ | .asserted => s

/-- `fd_put`; the descriptor keeps the reference for being open if `keep`. -/
def fdPut (s : FdSys T) (d : Nat) (keep : Bool) : FdSys T :=
  let o := { s.desc d with refCount := (s.desc d).refCount - 1, openRef := (s.desc d).openRef && keep }
  if o.refCount = 0 ∧ some d ∈ s.fds then
    { s.setDesc d { o with live := false } with fds := s.fds.set (s.fds.idxOf (some d)) none }
  else s.setDesc d o

/-- The next `fd_put` of a call. -/
def putNext (s : FdSys T) (t : T) : FdSys T :=
  match s.pc t with
  | .put d => (s.fdPut d true).setPc t .idle
  | .putTwice d => (s.fdPut d true).setPc t (.drop d)
  | .drop d => (s.fdPut d false).setPc t .idle
  | .idle | .opening .. | .file .. | .asserted => s

/-- That an event can happen in a state. -/
def Enabled (s : FdSys T) : FdEvent T → Prop
  | .open t _ _ | .close t _ | .other t _ => s.pc t = .idle
  | .get t => (s.pc t).isOpening = true
  | .file t _ => (s.pc t).isFile = true
  | .put t => (s.pc t).puts.isSome = true

instance (s : FdSys T) : (e : FdEvent T) → Decidable (s.Enabled e)
  | .open t _ _ | .close t _ | .other t _ => inferInstanceAs (Decidable (s.pc t = .idle))
  | .get t => inferInstanceAs (Decidable ((s.pc t).isOpening = true))
  | .file t _ => inferInstanceAs (Decidable ((s.pc t).isFile = true))
  | .put t => inferInstanceAs (Decidable ((s.pc t).puts.isSome = true))

/-- The effect of an event. -/
def exec (fdMax : Nat) (s : FdSys T) : FdEvent T → FdSys T
  | .open t reallocOk callocOk => s.fdNew fdMax t reallocOk callocOk
  | .get t => s.openGet t
  | .close t fd => s.callGet t .close fd
  | .other t fd => s.callGet t .other fd
  | .file t ok => s.fileOp t ok
  | .put t => s.putNext t

/-- One step of the system. -/
def Step (fdMax : Nat) (s : FdSys T) (e : FdEvent T) (s' : FdSys T) : Prop := s.Enabled e ∧ s' = s.exec fdMax e

end Steps

/-- The table before the first call, with nobody in one. -/
def init : FdSys T where
  fds := []
  desc i := { newFd i with refCount := 0, live := false, openRef := false }
  next := 0
  pc _ := .idle

/-! ## The lifetime of a descriptor -/

/-- The number of a descriptor is in use as long as the descriptor has not been freed, or is open. -/
def InUse (o : DfsFd) : Prop := o.live = true ∨ o.openRef = true

/-- What holds in a state of the lifetime of all descriptors: one that a thread has got and not put has not been freed,
nor has one that a thread is going to put; the `close` of the file system has run at most once for a successful `open`;
and what `fd_new` would return now is not in use. -/
structure Safe [DecidableEq T] (fdMax : Nat) (s : FdSys T) : Prop where
  held : ∀ t d, (s.pc t).holds = some d → (s.desc d).live = true
  puts : ∀ t d, (s.pc t).puts = some d → (s.desc d).live = true
  closes : ∀ d, (s.desc d).closes ≤ (s.desc d).opens
  fresh : ∀ t reallocOk callocOk i d, s.pc t = .idle → (s.fdNew fdMax t reallocOk callocOk).pc t = .opening i d →
    ∀ e, InUse (s.desc e) → (s.desc e).index ≠ i

/-- The condition on a step: a `close` that gets a descriptor gets one whose `open` has succeeded, and is the first
`close` to get it. -/
def StepOk (s : FdSys T) : FdEvent T → Prop
  | .close _ fd => ∀ d ∈ s.fdGet (fd - dfsFdOffset), (s.desc d).opens = 1 ∧ (s.desc d).closeGot = false
  | .open .. | .get _ | .other .. | .file .. | .put _ => True

instance (s : FdSys T) : (e : FdEvent T) → Decidable (s.StepOk e)
  | .close _ fd => inferInstanceAs (Decidable
      (∀ d ∈ s.fdGet (fd - dfsFdOffset), (s.desc d).opens = 1 ∧ (s.desc d).closeGot = false))
  | .open .. | .get _ | .other .. | .file .. | .put _ => inferInstanceAs (Decidable True)

/-- The event is no call of `close` that begins. -/
def NoClose : FdEvent T → Prop
  | .close .. => False
  | .open .. | .get _ | .other .. | .file .. | .put _ => True

end FdSys

end CoreLink.RtThread
