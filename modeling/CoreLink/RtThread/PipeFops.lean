/-
# `CoreLink.RtThread.PipeFops` — a pipe as a file, the `pipe_fops_` functions of `components/drivers/src/pipe.c`.

A read and a write test a counter without the lock, and go round a loop with it; when the fifo is empty or full they wait in
between. Each test and each round is one step, and a thread that waits may go on at any time. The counters of descriptors are
8 bits wide.

What has been accepted is what has been delivered and what is in the fifo. A read returns 0 for the only reason that
`writers` is 0, whatever is in the fifo (`pipe_eof`).
-/
import CoreLink.RtThread.Pipe

namespace CoreLink.RtThread

open CoreLink.Lib

/-! ## State -/

/-- `fd->flags & O_ACCMODE`. -/
inductive AccMode where
  | rdonly
  | wronly
  | rdwr
  deriving DecidableEq, Repr

/-- The sizes that `rt_ringbuffer_create` and `rt_ringbuffer_init` accept. -/
abbrev PipeSize := { bufsz : Nat // 4 ≤ bufsz ∧ bufsz < 2 ^ 15 }

/-- Where a thread stands: in no call, or before a round of one of the two loops. -/
inductive FopsPc (V : Type*) where
  | idle
  | reading (nonblock : Bool) (count : UInt32)
  | writing (nonblock : Bool) (buf : Nat → V) (count : UInt32) (ret : Nat)

namespace FopsPc

variable {V : Type*}

def isIdle : FopsPc V → Bool
  | .idle => true
  | _ => false

def isReading : FopsPc V → Bool
  | .reading _ _ => true
  | _ => false

def isWriting : FopsPc V → Bool
  | .writing _ _ _ _ => true
  | _ => false

end FopsPc

/-- `struct rt_pipe_device`, with the descriptors that are open and where the threads stand. `accepted` and `delivered` are the
bytes that calls have put into a fifo and got from it. -/
structure PosixPipe (V F T : Type*) where
  fifo : Option (Pipe V)
  readers : UInt8
  writers : UInt8
  refCount : UInt8
  isNamed : Bool
  deleted : Bool
  opened : F → Option (AccMode × Bool)
  pc : T → FopsPc V
  accepted : List V
  delivered : List V

/-- The steps. `pool` is the memory that a new fifo gets, if any, and `ptr` what is at `buf` before a read. -/
inductive FopsAct (V F T : Type*) where
  | open (f : F) (mode : AccMode) (nonblock : Bool) (pool : Option (Nat → V))
  | close (f : F)
  | read (t : T) (f : F) (count : UInt32)
  | readRound (t : T) (ptr : Nat → V)
  | write (t : T) (f : F) (buf : Nat → V) (count : UInt32)
  | writeRound (t : T)

namespace Pipe

variable {V : Type*}

/-- `rt_ringbuffer_put`. -/
def put (p : Pipe V) (ptr : Nat → V) (length : UInt16) : Pipe V × Nat :=
  (⟨(p.1.rtRingbufferPut ptr length).1, (put_spec p.2 ptr length rfl).1⟩, (p.1.rtRingbufferPut ptr length).2)

/-- `rt_ringbuffer_get`, with the bytes that it gives. -/
def get (p : Pipe V) (ptr : Nat → V) (length : UInt16) : Pipe V × List V :=
  (⟨(p.1.rtRingbufferGet ptr length).1, (get_spec p.2 ptr length rfl).1⟩,
    block (p.1.rtRingbufferGet ptr length).2.1 0 (p.1.rtRingbufferGet ptr length).2.2)

/-- A fifo that has just been created is empty. -/
theorem stored_open (pool : Nat → V) (size : PipeSize) : (rtPipeOpen pool size.1 size.2.1 size.2.2).stored = [] := rfl

/-- What is put in is behind what was there. -/
theorem stored_put (p : Pipe V) (ptr : Nat → V) (length : UInt16) :
    (p.put ptr length).1.stored = p.stored ++ block ptr 0 (p.put ptr length).2 := by
  obtain ⟨-, -, hcontents, hvalue⟩ := put_spec p.2 ptr length rfl
  refine hcontents.trans ?_
  rw [← hvalue]
  rfl

/-- What is got was there first. -/
theorem stored_get (p : Pipe V) (ptr : Nat → V) (length : UInt16) :
    p.stored = (p.get ptr length).2 ++ (p.get ptr length).1.stored := by
  obtain ⟨-, hcontents, hvalue, hbytes⟩ := get_spec p.2 ptr length rfl
  have hgot : (p.get ptr length).2 = p.stored.take (min length.toNat p.1.contents.length) := by
    refine Eq.trans ?_ hbytes
    show block _ 0 (p.1.rtRingbufferGet ptr length).2.2 = _
    rw [hvalue]
  rw [hgot, show (p.get ptr length).1.stored = p.stored.drop (min length.toNat p.1.contents.length) from hcontents]
  exact (List.take_append_drop _ _).symm

end Pipe

namespace PosixPipe

variable {V F T : Type*} [DecidableEq F] [DecidableEq T]

/-! ## The functions -/

/-- What a descriptor counts for. -/
def AccMode.readers : AccMode → UInt8
  | .rdonly | .rdwr => 1
  | .wronly => 0

def AccMode.writers : AccMode → UInt8
  | .wronly | .rdwr => 1
  | .rdonly => 0

/-- `pipe_fops_open`. -/
def fopsOpen (size : PipeSize) (f : F) (mode : AccMode) (nonblock : Bool) (pool : Option (Nat → V)) (s : PosixPipe V F T) :
    PosixPipe V F T :=
  { s with
    fifo := if s.refCount = 0 then pool.map fun pool => Pipe.rtPipeOpen pool size.1 size.2.1 size.2.2 else s.fifo
    readers := s.readers + AccMode.readers mode
    writers := s.writers + AccMode.writers mode
    refCount := s.refCount + 1
    opened := Function.update s.opened f (some (mode, nonblock)) }

/-- `pipe_fops_close`. -/
def fopsClose (f : F) (s : PosixPipe V F T) : PosixPipe V F T :=
  match s.opened f with
  | none => s
  | some (mode, _) =>
    { s with
      readers := s.readers - AccMode.readers mode
      writers := s.writers - AccMode.writers mode
      fifo := if s.refCount = 1 then none else s.fifo
      refCount := s.refCount - 1
      deleted := decide (s.refCount - 1 = 0) && !s.isNamed
      opened := Function.update s.opened f none }

/-- `-EAGAIN` and `-EPIPE`. -/
def eagain : Int := -11
def epipe : Int := -32

/-- A step that ends a `pipe_fops_read` or a `pipe_fops_write`, with the value that it returns. -/
def goIdle (t : T) (s : PosixPipe V F T) : PosixPipe V F T := { s with pc := Function.update s.pc t .idle }

/-- The first test of `pipe_fops_read`. -/
def fopsRead (t : T) (f : F) (count : UInt32) (s : PosixPipe V F T) : PosixPipe V F T × Option Int :=
  if s.writers = 0 then (s, some 0)
  else ({ s with pc := Function.update s.pc t (.reading ((s.opened f).elim false Prod.snd) count) }, none)

/-- A round of its loop. -/
def readRound (t : T) (ptr : Nat → V) (s : PosixPipe V F T) : PosixPipe V F T × Option Int :=
  match s.pc t with
  | .reading nonblock count =>
    if s.writers = 0 then (goIdle t s, some 0)
    else
      match s.fifo with
      | none => (s, none)
      | some p =>
        let r := p.get ptr (UInt16.ofNat count.toNat)
        if 0 < r.2.length then
          (goIdle t { s with fifo := some r.1, delivered := s.delivered ++ r.2 }, some r.2.length)
        else if nonblock then (goIdle t s, some eagain)
        else (s, none)
  | _ => (s, none)

/-- The first tests of `pipe_fops_write`. -/
def fopsWrite (t : T) (f : F) (buf : Nat → V) (count : UInt32) (s : PosixPipe V F T) : PosixPipe V F T × Option Int :=
  if s.readers = 0 then (s, some epipe)
  else if count = 0 then (s, some 0)
  else ({ s with pc := Function.update s.pc t (.writing ((s.opened f).elim false Prod.snd) buf count 0) }, none)

/-- A round of its loop. -/
def writeRound (t : T) (s : PosixPipe V F T) : PosixPipe V F T × Option Int :=
  match s.pc t with
  | .writing nonblock buf count ret =>
    if s.readers = 0 then (goIdle t s, some (if ret = 0 then epipe else ret))
    else
      match s.fifo with
      | none => (s, none)
      | some p =>
        let r := p.put (fun i => buf (ret + i)) (UInt16.ofNat (count.toNat - ret))
        let s := { s with fifo := some r.1, accepted := s.accepted ++ block (fun i => buf (ret + i)) 0 r.2 }
        let ret := ret + r.2
        if ret = count.toNat then (goIdle t s, some ret)
        else if nonblock then (goIdle t s, some (if ret = 0 then eagain else ret))
        else ({ s with pc := Function.update s.pc t (.writing nonblock buf count ret) }, none)
  | _ => (s, none)

/-! ## Runs -/

/-- When a step can be made. Without a fifo an assertion of the ring buffer fails. -/
def Enabled (s : PosixPipe V F T) (a : FopsAct V F T) : Prop :=
  s.deleted = false ∧
    match a with
    | .open f _ _ _ => s.opened f = none
    | .close f => s.opened f ≠ none ∧ (s.refCount = 1 → s.fifo ≠ none)
    | .read t f _ | .write t f _ _ => s.opened f ≠ none ∧ (s.pc t).isIdle = true
    | .readRound t _ => (s.pc t).isReading = true ∧ (s.writers ≠ 0 → s.fifo ≠ none)
    | .writeRound t => (s.pc t).isWriting = true ∧ (s.readers ≠ 0 → s.fifo ≠ none)

instance (s : PosixPipe V F T) (a : FopsAct V F T) : Decidable (s.Enabled a) := by
  cases a <;> unfold Enabled <;> dsimp only <;> infer_instance

/-- What a step does, with the value that a read or a write returns at it. -/
def exec (size : PipeSize) (s : PosixPipe V F T) : FopsAct V F T → PosixPipe V F T × Option Int
  | .open f mode nonblock pool => (fopsOpen size f mode nonblock pool s, none)
  | .close f => (fopsClose f s, none)
  | .read t f count => fopsRead t f count s
  | .readRound t ptr => readRound t ptr s
  | .write t f buf count => fopsWrite t f buf count s
  | .writeRound t => writeRound t s

/-- A step. -/
def Step (size : PipeSize) (s : PosixPipe V F T) (a : FopsAct V F T) (s' : PosixPipe V F T) : Prop :=
  s.Enabled a ∧ s' = (s.exec size a).1

/-- `rt_pipe_create`. -/
def init (isNamed : Bool) : PosixPipe V F T where
  fifo := none
  readers := 0
  writers := 0
  refCount := 0
  isNamed := isNamed
  deleted := false
  opened _ := none
  pc _ := .idle
  accepted := []
  delivered := []

/-! ## The bytes -/

/-- The bytes in the fifo. -/
def stored (s : PosixPipe V F T) : List V := s.fifo.elim [] Pipe.stored

/-- What has been accepted is what has been delivered and what is in the fifo. -/
def Kept (s : PosixPipe V F T) : Prop := s.accepted = s.delivered ++ s.stored

/-- A step of a read. -/
def isRead : FopsAct V F T → Bool
  | .read _ _ _ | .readRound _ _ => true
  | _ => false

/-- What is promised of a step: a read returns 0 only when everything accepted has been delivered, and nothing is discarded. -/
structure EofOk (size : PipeSize) (s : PosixPipe V F T) (a : FopsAct V F T) (s' : PosixPipe V F T) : Prop where
  eof : isRead a = true → (s.exec size a).2 = some 0 → s.accepted = s.delivered
  kept : s'.Kept

/-- The fifo is empty when a read finds no writers, when it is created anew, and when it is destroyed. -/
def Drained (s : PosixPipe V F T) : FopsAct V F T → Prop
  | .read _ _ _ | .readRound _ _ => s.writers = 0 → s.stored = []
  | .open _ _ _ _ => s.refCount = 0 → s.stored = []
  | .close _ => s.refCount = 1 → s.stored = []
  | .write _ _ _ _ | .writeRound _ => True

instance (s : PosixPipe V F T) (a : FopsAct V F T) : Decidable (s.Drained a) := by
  cases a <;> unfold Drained <;> infer_instance

variable {size : PipeSize} {s s' : PosixPipe V F T} {a : FopsAct V F T} {t : T} {f : F}

theorem Kept.delivered_iff (h : s.Kept) : s.accepted = s.delivered ↔ s.stored = [] := by
  rw [h]
  exact List.append_right_eq_self

/-- The first test of a read changes nothing of the bytes, and returns 0 if there are no writers. -/
theorem fopsRead_spec (t : T) (f : F) (count : UInt32) (s : PosixPipe V F T) :
    ((fopsRead t f count s).1.Kept ↔ s.Kept) ∧ ((fopsRead t f count s).2 = some 0 ↔ s.writers = 0) := by
  unfold fopsRead
  split
  next hw => exact ⟨Iff.rfl, iff_of_true rfl hw⟩
  next hw => exact ⟨Iff.rfl, iff_of_false nofun hw⟩

/-- A round of a read takes bytes from the fifo to the reader, and returns 0 if there are no writers. -/
theorem readRound_spec (h : s.Kept) (hpc : (s.pc t).isReading = true) (ptr : Nat → V) :
    (readRound t ptr s).1.Kept ∧ ((readRound t ptr s).2 = some 0 ↔ s.writers = 0) := by
  obtain ⟨nonblock, count, hreading⟩ : ∃ nonblock count, s.pc t = .reading nonblock count := by
    cases hp : s.pc t with
    | reading nonblock count => exact ⟨nonblock, count, rfl⟩
    | idle => rw [hp] at hpc; exact nomatch hpc
    | writing nonblock buf count ret => rw [hp] at hpc; exact nomatch hpc
  unfold readRound
  rw [hreading]
  dsimp only
  split
  next hw => exact ⟨h, iff_of_true rfl hw⟩
  next hw =>
    split
    next => exact ⟨h, iff_of_false nofun hw⟩
    next p hp =>
      have hstored : s.stored = (p.get ptr (UInt16.ofNat count.toNat)).2 ++
          (p.get ptr (UInt16.ofNat count.toNat)).1.stored := by
        unfold stored
        rw [hp]
        exact p.stored_get ptr _
      split
      next hpos =>
        refine ⟨?_, iff_of_false (fun hret => ?_) hw⟩
        · show s.accepted = (s.delivered ++ _) ++ _
          rw [List.append_assoc]
          exact Eq.trans h (congrArg (s.delivered ++ ·) hstored)
        · have hlen := Option.some.inj hret
          omega
      next =>
        split
        next => exact ⟨h, iff_of_false (fun hret => by simp [eagain] at hret) hw⟩
        next => exact ⟨h, iff_of_false nofun hw⟩

theorem fopsWrite_kept (t : T) (f : F) (buf : Nat → V) (count : UInt32) (h : s.Kept) :
    (fopsWrite t f buf count s).1.Kept := by
  unfold fopsWrite
  split
  · exact h
  · split
    · exact h
    · exact h

/-- A round of a write puts bytes into the fifo. -/
theorem writeRound_kept (t : T) (h : s.Kept) : (writeRound t s).1.Kept := by
  unfold writeRound
  split
  next nonblock buf count ret hwriting =>
    split
    next => exact h
    next =>
      split
      next => exact h
      next p hp =>
        -- the bytes that are put in are accepted
        have hkept : ∀ (n : Nat) (p' : Pipe V), p'.stored = p.stored ++ block (fun i => buf (ret + i)) 0 n →
            s.accepted ++ block (fun i => buf (ret + i)) 0 n = s.delivered ++ p'.stored := by
          intro n p' hp'
          have hstored : s.stored = p.stored := by
            unfold stored
            rw [hp]
            rfl
          rw [hp', ← List.append_assoc, ← hstored]
          exact congrArg (· ++ _) h
        have hput := hkept _ _ (p.stored_put (fun i => buf (ret + i)) (UInt16.ofNat (count.toNat - ret)))
        dsimp only
        split
        · exact hput
        · split
          · exact hput
          · exact hput
  next => exact h

variable (size f) in
/-- The fifo is created anew, and forgets what was in it. -/
theorem fopsOpen_kept_iff (h : s.Kept) (mode : AccMode) (nonblock : Bool) (pool : Option (Nat → V)) :
    (fopsOpen size f mode nonblock pool s).Kept ↔ (s.refCount = 0 → s.stored = []) := by
  by_cases hzero : s.refCount = 0
  · have hnew : (fopsOpen size f mode nonblock pool s).stored = [] := by
      unfold stored fopsOpen
      dsimp only
      rw [if_pos hzero]
      cases pool with
      | none => rfl
      | some pool => exact Pipe.stored_open pool size
    have hiff : (fopsOpen size f mode nonblock pool s).Kept ↔ s.accepted = s.delivered := by
      unfold Kept
      rw [hnew, List.append_nil]
      rfl
    rw [hiff, h.delivered_iff]
    exact ⟨fun hnil _ => hnil, fun hd => hd hzero⟩
  · have hsame : (fopsOpen size f mode nonblock pool s).stored = s.stored := by
      unfold stored fopsOpen
      dsimp only
      rw [if_neg hzero]
    refine iff_of_true ?_ fun hz => absurd hz hzero
    unfold Kept
    rw [hsame]
    exact h

/-- It is destroyed. -/
theorem fopsClose_kept_iff (h : s.Kept) (hopen : s.opened f ≠ none) :
    (fopsClose f s).Kept ↔ (s.refCount = 1 → s.stored = []) := by
  obtain ⟨⟨mode, nonblock⟩, hf⟩ := Option.ne_none_iff_exists'.mp hopen
  unfold fopsClose
  rw [hf]
  dsimp only
  by_cases hone : s.refCount = 1
  · rw [if_pos hone]
    have hiff : s.accepted = s.delivered ++ [] ↔ s.stored = [] := by
      rw [List.append_nil]
      exact h.delivered_iff
    exact hiff.trans ⟨fun hnil _ => hnil, fun hd => hd hone⟩
  · rw [if_neg hone]
    exact iff_of_true h fun h1 => absurd h1 hone

/-- **A step** keeps the promise exactly if it finds the fifo drained where it has to be. -/
theorem Kept.step (h : s.Kept) (hstep : Step size s a s') : EofOk size s a s' ↔ s.Drained a := by
  obtain ⟨⟨-, henabled⟩, rfl⟩ := hstep
  cases a with
  | «open» f mode nonblock pool =>
    have hiff := fopsOpen_kept_iff size f h mode nonblock pool
    exact ⟨fun hok => hiff.mp hok.kept, fun hd => ⟨nofun, hiff.mpr hd⟩⟩
  | close f =>
    have hiff := fopsClose_kept_iff h henabled.1
    exact ⟨fun hok => hiff.mp hok.kept, fun hd => ⟨nofun, hiff.mpr hd⟩⟩
  | read t f count =>
    obtain ⟨hkept, hzero⟩ := fopsRead_spec t f count s
    exact ⟨fun hok hw => h.delivered_iff.mp (hok.eof rfl (hzero.mpr hw)),
      fun hd => ⟨fun _ hret => h.delivered_iff.mpr (hd (hzero.mp hret)), hkept.mpr h⟩⟩
  | readRound t ptr =>
    obtain ⟨hkept, hzero⟩ := readRound_spec h henabled.1 ptr
    exact ⟨fun hok hw => h.delivered_iff.mp (hok.eof rfl (hzero.mpr hw)),
      fun hd => ⟨fun _ hret => h.delivered_iff.mpr (hd (hzero.mp hret)), hkept⟩⟩
  | write t f buf count => exact iff_of_true ⟨nofun, fopsWrite_kept t f buf count h⟩ trivial
  | writeRound t => exact iff_of_true ⟨nofun, writeRound_kept t h⟩ trivial

/-- **The end of the file**: in a run in which the fifo has been drained where it had to be, the next step keeps the promise
exactly if it is drained again. -/
theorem pipe_eof {isNamed : Bool} {as : List (FopsAct V F T)}
    (hrun : Run (Guarded Drained (Step size)) (init isNamed) as s) (hstep : Step size s a s') :
    EofOk size s a s' ↔ s.Drained a := by
  have hkept : s.Kept := hrun.guarded rfl fun _ _ _ hI hG hs => ((hI.step hs).mpr hG).kept
  exact hkept.step hstep

section Example

/-- A size of 512 bytes. -/
def size512 : PipeSize := ⟨512, by decide⟩

/-- A descriptor for reading, one for writing, and a byte that is written. -/
def oneByte : List (FopsAct Nat Bool Bool) :=
  [.open true .rdonly false (some fun _ => 0), .open false .wronly false none, .write false false (fun _ => 7) 1,
    .writeRound false]

/-- The pipe after some steps. -/
def after (as : List (FopsAct Nat Bool Bool)) : PosixPipe Nat Bool Bool :=
  as.foldl (fun s a => (s.exec size512 a).1) (init true)

theorem run_after {as : List (FopsAct Nat Bool Bool)} (h : as.foldlM (fun s a => if s.Drained a then
    Run.tryStep Enabled (fun s a => (s.exec size512 a).1) s a else none) (init true) = some (after as)) :
    Run (Guarded Drained (Step size512)) (init true) as (after as) := by
  refine Run.of_foldlM_guarded (fun s a s' hs => ?_) h
  obtain ⟨henabled, rfl⟩ := Run.of_tryStep hs
  exact ⟨henabled, rfl⟩

/-- With a writer, a read takes the byte. -/
theorem pipe_eof_read : EofOk size512 (after oneByte) (.read true true 1) (after (oneByte ++ [.read true true 1])) :=
  (pipe_eof (run_after rfl) ⟨by decide, rfl⟩).mpr (by decide)

/-- When the writer has closed its descriptor, a read returns 0, and the byte has not been delivered. -/
theorem pipe_eof_closed : ∃ s s' : PosixPipe Nat Bool Bool,
    Run (Guarded Drained (Step size512)) (init true) (oneByte ++ [.close false]) s ∧ Step size512 s (.read true true 1) s' ∧
      (s.exec size512 (.read true true 1)).2 = some 0 ∧ s.accepted = [7] ∧ s.delivered = [] ∧
      ¬EofOk size512 s (.read true true 1) s' := by
  refine ⟨after (oneByte ++ [.close false]), _, run_after rfl, ⟨by decide, rfl⟩, rfl, rfl, rfl, fun hok => ?_⟩
  exact absurd (hok.eof rfl rfl) (by decide)

end Example

end PosixPipe

end CoreLink.RtThread
