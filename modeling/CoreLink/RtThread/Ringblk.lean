/-
# `CoreLink.RtThread.Ringblk` — the ring block buffer, `components/drivers/src/ringblk_buf.c`.

A ring block buffer hands out blocks of a buffer in the order of the buffer. Its blocks are records in an array,
`blk_set`; those in use are on `blk_list`, in the order in which they were allocated, and where the next one goes is
computed from the first and the last on the list. A block is its index in the array here, an address a 32-bit word.

`rt_rbb_blk_queue_get` takes blocks from the list, and describes them by the first and their number, as a part of the
array. This module has the functions, the runs, and what every state that is reached satisfies (`Listed`).
-/
import CoreLink.Lib.Adjacent
import CoreLink.Lib.Run
import CoreLink.Lib.Word

namespace CoreLink.RtThread

open CoreLink.Lib

/-! ## The functions -/

/-- `rt_rbb_status_t`. -/
inductive RbbStatus where
  | unused
  | inited
  | put
  | get
deriving DecidableEq

/-- `struct rt_rbb_blk`. -/
structure RbbBlk where
  status : RbbStatus
  size : ℕ
  buf : ℕ

/-- `struct rt_rbb`. -/
structure Rbb where
  buf : ℕ
  bufSize : ℕ
  blkSet : ℕ → RbbBlk
  blkMaxNum : ℕ
  blkList : List ℕ

/-- `struct rt_rbb_blk_queue`. -/
structure BlkQueue where
  blocks : ℕ
  blkNum : ℕ
deriving DecidableEq

/-- The part of `blk_set` that a queue stands for. -/
def BlkQueue.slice (q : BlkQueue) : List ℕ := List.range' q.blocks q.blkNum

namespace Rbb

/-- `block->status = st`. -/
def setStatus (r : Rbb) (block : ℕ) (st : RbbStatus) : Rbb :=
  { r with blkSet := Function.update r.blkSet block { r.blkSet block with status := st } }

/-- `rt_slist_remove` of a block. -/
def unlink (r : Rbb) (block : ℕ) : Rbb := { r with blkList := r.blkList.erase block }

/-- `rt_rbb_init`. -/
def rtRbbInit (buf bufSize : ℕ) (blockSet : ℕ → RbbBlk) (blkMaxNum : ℕ) : Rbb where
  buf := buf
  bufSize := bufSize
  blkSet := fun i => if i < blkMaxNum then { blockSet i with status := .unused } else blockSet i
  blkMaxNum := blkMaxNum
  blkList := []

/-- `find_empty_blk_in_set`. -/
def findEmptyBlkInSet (r : Rbb) : Option ℕ :=
  (List.range r.blkMaxNum).find? fun i => (r.blkSet i).status = .unused

/-- Where a block ends; the sum is a pointer. -/
def blkEnd (r : Rbb) (block : ℕ) : ℕ := ((r.blkSet block).buf + (r.blkSet block).size) % 2 ^ 32

/-- The branches of `rt_rbb_blk_alloc`: where a new block goes, if there is space. -/
def place (r : Rbb) (blkSize : ℕ) : Option ℕ :=
  match r.blkList.head?, r.blkList.getLast? with
  | some head, some tail =>
    if (r.blkSet head).buf ≤ (r.blkSet tail).buf then
      let empty1 := Word.sub 32 ((r.buf + r.bufSize) % 2 ^ 32) (r.blkEnd tail)
      let empty2 := Word.sub 32 (r.blkSet head).buf r.buf
      if blkSize ≤ empty1 then some (r.blkEnd tail)
      else if blkSize ≤ empty2 then some r.buf
      else none
    else
      let empty1 := Word.sub 32 (r.blkSet head).buf (r.blkEnd tail)
      if blkSize ≤ empty1 then some (r.blkEnd tail) else none
  | _, _ => some r.buf

/-- The four lines of each branch that has found space. -/
def addBlk (r : Rbb) (new blkSize buf : ℕ) : Rbb :=
  { r with
    blkList := r.blkList ++ [new]
    blkSet := Function.update r.blkSet new ⟨.inited, blkSize, buf⟩ }

/-- `rt_rbb_blk_alloc`; `none` when the assertion fails. -/
def rtRbbBlkAlloc (blkSize : ℕ) (r : Rbb) : Option (Option ℕ × Rbb) :=
  if blkSize < 2 ^ 24 then
    match r.findEmptyBlkInSet with
    | none => some (none, r)
    | some new =>
      if r.blkList.length < r.blkMaxNum then
        match r.place blkSize with
        | none => some (none, r)
        | some buf => some (some new, r.addBlk new blkSize buf)
      else some (none, r)
  else none

/-- `rt_rbb_blk_put`. -/
def rtRbbBlkPut (block : ℕ) (r : Rbb) : Option Rbb :=
  if (r.blkSet block).status = .inited then some (r.setStatus block .put) else none

/-- `rt_rbb_blk_get`; the block stays on the list. -/
def rtRbbBlkGet (r : Rbb) : Option ℕ × Rbb :=
  match r.blkList.find? fun i => (r.blkSet i).status = .put with
  | none => (none, r)
  | some block => (some block, r.setStatus block .get)

/-- `rt_rbb_blk_free`. -/
def rtRbbBlkFree (block : ℕ) (r : Rbb) : Option Rbb :=
  if (r.blkSet block).status = .unused then none else some ((r.unlink block).setStatus block .unused)

/-- The three conditions of `rt_rbb_blk_queue_get` that break the loop. -/
def Breaks (r : Rbb) (len last total block : ℕ) : Prop :=
  (r.blkSet block).status ≠ .put ∨ (r.blkSet block).buf < (r.blkSet last).buf ∨
    len < (total + (r.blkSet block).size) % 2 ^ 32

instance (r : Rbb) (len last total block : ℕ) : Decidable (r.Breaks len last total block) :=
  inferInstanceAs (Decidable (_ ∨ _ ∨ _))

/-- A block is taken. -/
def take (r : Rbb) (block : ℕ) : Rbb := (r.unlink block).setStatus block .get

/-- The loop of `rt_rbb_blk_queue_get`, over the rest of the list: the links of a block that is removed stay. -/
def queueGetLoop (len : ℕ) : List ℕ → Option ℕ → ℕ → BlkQueue → Rbb → ℕ × BlkQueue × Rbb
  | [], _, total, q, r => (total, q, r)
  | node :: nodes, none, total, q, r =>
    if (r.blkSet node).status = .put then
      queueGetLoop len nodes (some node) ((total + (r.blkSet node).size) % 2 ^ 32) ⟨node, 0 + 1⟩ (r.take node)
    else queueGetLoop len nodes none total q r
  | node :: nodes, some last, total, q, r =>
    if r.Breaks len last total node then (total, q, r)
    else
      queueGetLoop len nodes (some node) ((total + (r.blkSet node).size) % 2 ^ 32) { q with blkNum := q.blkNum + 1 }
        (r.take node)

/-- `rt_rbb_blk_queue_get`: the length, the queue, and the buffer after it. -/
def rtRbbBlkQueueGet (len : ℕ) (q : BlkQueue) (r : Rbb) : ℕ × BlkQueue × Rbb :=
  queueGetLoop len r.blkList none 0 q r

/-- `rt_rbb_blk_queue_len`. -/
def rtRbbBlkQueueLen (q : BlkQueue) (r : Rbb) : ℕ :=
  q.slice.foldl (fun total i => (total + (r.blkSet i).size) % 2 ^ 32) 0

/-- `rt_rbb_blk_queue_buf`. -/
def rtRbbBlkQueueBuf (q : BlkQueue) (r : Rbb) : ℕ := (r.blkSet q.blocks).buf

/-- `rt_rbb_blk_queue_free`. -/
def rtRbbBlkQueueFree (q : BlkQueue) (r : Rbb) : Option Rbb := q.slice.foldlM (fun r i => r.rtRbbBlkFree i) r

end Rbb

/-! ## Runs -/

/-- The calls. -/
inductive RbbCall where
  | alloc (blkSize : ℕ)
  | put (block : ℕ)
  | get
  | queueGet (len : ℕ) (q : BlkQueue)
  | free (block : ℕ)
  | queueFree (q : BlkQueue)

namespace Rbb

/-- The blocks in a call are blocks of the buffer, and its lengths are words. -/
def Enabled (r : Rbb) : RbbCall → Prop
  | .alloc blkSize => blkSize < 2 ^ 32
  | .put block => block < r.blkMaxNum
  | .get => True
  | .queueGet len _ => len < 2 ^ 32
  | .free block => block < r.blkMaxNum
  | .queueFree q => q.blocks + q.blkNum ≤ r.blkMaxNum

instance (r : Rbb) : ∀ c, Decidable (r.Enabled c)
  | .alloc _ => inferInstanceAs (Decidable (_ < _))
  | .put _ => inferInstanceAs (Decidable (_ < _))
  | .get => inferInstanceAs (Decidable True)
  | .queueGet _ _ => inferInstanceAs (Decidable (_ < _))
  | .free _ => inferInstanceAs (Decidable (_ < _))
  | .queueFree _ => inferInstanceAs (Decidable (_ ≤ _))

/-- A call; `none` when an assertion fails. -/
def exec (r : Rbb) : RbbCall → Option Rbb
  | .alloc blkSize => (r.rtRbbBlkAlloc blkSize).map Prod.snd
  | .put block => r.rtRbbBlkPut block
  | .get => some r.rtRbbBlkGet.2
  | .queueGet len q => some (r.rtRbbBlkQueueGet len q).2.2
  | .free block => r.rtRbbBlkFree block
  | .queueFree q => r.rtRbbBlkQueueFree q

/-- The calls, as steps. -/
def Step (r : Rbb) (c : RbbCall) (r' : Rbb) : Prop := r.Enabled c ∧ r.exec c = some r'

/-! ## What a call leaves as it is -/

section Fields

variable (r : Rbb) (block i : ℕ) (st : RbbStatus)

theorem setStatus_blkSet :
    (r.setStatus block st).blkSet i = if i = block then { r.blkSet block with status := st } else r.blkSet i :=
  Function.update_apply r.blkSet block _ i

theorem setStatus_status : ((r.setStatus block st).blkSet i).status = if i = block then st else (r.blkSet i).status := by
  rw [setStatus_blkSet]
  split <;> rfl

/-- The fields that are written once, when the block is allocated. -/
theorem setStatus_area :
    ((r.setStatus block st).blkSet i).size = (r.blkSet i).size ∧ ((r.setStatus block st).blkSet i).buf = (r.blkSet i).buf := by
  rw [setStatus_blkSet]
  by_cases heq : i = block
  · rw [if_pos heq, heq]
    exact ⟨rfl, rfl⟩
  · rw [if_neg heq]
    exact ⟨rfl, rfl⟩

end Fields

/-! ## What is on the list -/

/-- The list has every block once, and no block that is not in use; its sizes are what the assertion lets pass. -/
structure Listed (r : Rbb) : Prop where
  nodup : r.blkList.Nodup
  inUse : ∀ i ∈ r.blkList, (r.blkSet i).status ≠ .unused
  small : ∀ i ∈ r.blkList, (r.blkSet i).size < 2 ^ 24

namespace Listed

variable {r r' : Rbb} {block new blkSize : ℕ} {st : RbbStatus}

/-- A block gets a status, one in which it is in use if it is on the list. -/
theorem setStatus (h : r.Listed) (hst : block ∈ r.blkList → st ≠ .unused) : (r.setStatus block st).Listed where
  nodup := h.nodup
  inUse := by
    intro i hi
    rw [setStatus_status]
    by_cases heq : i = block
    · rw [if_pos heq]
      exact hst (heq ▸ hi)
    · rw [if_neg heq]
      exact h.inUse i hi
  small := fun i hi => by
    rw [(setStatus_area r block i st).1]
    exact h.small i hi

/-- A block leaves the list. -/
theorem unlink (h : r.Listed) (block : ℕ) : (r.unlink block).Listed where
  nodup := h.nodup.erase block
  inUse := fun i hi => h.inUse i (List.mem_of_mem_erase hi)
  small := fun i hi => h.small i (List.mem_of_mem_erase hi)

/-- A block comes on the list. -/
theorem addBlk (h : r.Listed) (hnew : (r.blkSet new).status = .unused) (hsize : blkSize < 2 ^ 24) (buf : ℕ) :
    (r.addBlk new blkSize buf).Listed := by
  have hfresh : new ∉ r.blkList := fun hm => h.inUse new hm hnew
  have hold : ∀ i ∈ r.blkList, (r.addBlk new blkSize buf).blkSet i = r.blkSet i := fun i hi =>
    Function.update_of_ne (ne_of_mem_of_not_mem hi hfresh) _ _
  have hself : (r.addBlk new blkSize buf).blkSet new = ⟨.inited, blkSize, buf⟩ := Function.update_self _ _ _
  constructor
  case nodup =>
    have hnd := (List.nodup_concat r.blkList new).mpr ⟨hfresh, h.nodup⟩
    rwa [List.concat_eq_append] at hnd
  case inUse =>
    intro i hi
    rcases List.mem_append.mp hi with hi | hi
    · rw [hold i hi]
      exact h.inUse i hi
    · rw [List.mem_singleton.mp hi, hself]
      exact nofun
  case small =>
    intro i hi
    rcases List.mem_append.mp hi with hi | hi
    · rw [hold i hi]
      exact h.small i hi
    · rw [List.mem_singleton.mp hi, hself]
      exact hsize

theorem rtRbbBlkFree (h : r.Listed) (hr : r.rtRbbBlkFree block = some r') : r'.Listed := by
  unfold Rbb.rtRbbBlkFree at hr
  by_cases hunused : (r.blkSet block).status = .unused
  · rw [if_pos hunused] at hr
    cases hr
  · rw [if_neg hunused] at hr
    obtain rfl := Option.some.inj hr
    exact (h.unlink block).setStatus fun hm => absurd hm h.nodup.not_mem_erase

theorem rtRbbBlkQueueFree (h : r.Listed) {q : BlkQueue} (hr : r.rtRbbBlkQueueFree q = some r') : r'.Listed := by
  unfold Rbb.rtRbbBlkQueueFree at hr
  generalize q.slice = is at hr
  induction is generalizing r with
  | nil =>
    obtain rfl := Option.some.inj hr
    exact h
  | cons i is ih =>
    obtain ⟨r₁, hfree, hrest⟩ := Option.bind_eq_some_iff.mp hr
    exact ih (h.rtRbbBlkFree hfree) hrest

theorem queueGetLoop (len : ℕ) (nodes : List ℕ) (last : Option ℕ) (total : ℕ) (q : BlkQueue) (h : r.Listed) :
    (queueGetLoop len nodes last total q r).2.2.Listed := by
  have htake : ∀ {r : Rbb} (node : ℕ), r.Listed → (r.take node).Listed := fun node h =>
    (h.unlink node).setStatus fun _ => nofun
  induction nodes generalizing last total q r with
  | nil => exact h
  | cons node nodes ih =>
    cases last with
    | none =>
      unfold Rbb.queueGetLoop
      by_cases hput : (r.blkSet node).status = .put
      · rw [if_pos hput]
        exact ih _ _ _ (htake node h)
      · rw [if_neg hput]
        exact ih _ _ _ h
    | some last =>
      unfold Rbb.queueGetLoop
      by_cases hbreaks : r.Breaks len last total node
      · rw [if_pos hbreaks]
        exact h
      · rw [if_neg hbreaks]
        exact ih _ _ _ (htake node h)

theorem rtRbbBlkAlloc (h : r.Listed) {o : Option ℕ} (hr : r.rtRbbBlkAlloc blkSize = some (o, r')) : r'.Listed := by
  unfold Rbb.rtRbbBlkAlloc at hr
  by_cases hsize : blkSize < 2 ^ 24
  · rw [if_pos hsize] at hr
    cases hfind : r.findEmptyBlkInSet with
    | none =>
      rw [hfind] at hr
      cases hr
      exact h
    | some new =>
      have hnew : (r.blkSet new).status = .unused := by simpa using List.find?_some hfind
      rw [hfind] at hr
      dsimp only at hr
      by_cases hlen : r.blkList.length < r.blkMaxNum
      · rw [if_pos hlen] at hr
        cases hplace : r.place blkSize with
        | none =>
          rw [hplace] at hr
          cases hr
          exact h
        | some buf =>
          rw [hplace] at hr
          cases hr
          exact h.addBlk hnew hsize buf
      · rw [if_neg hlen] at hr
        cases hr
        exact h
  · rw [if_neg hsize] at hr
    cases hr

/-- **Every call keeps it.** -/
theorem exec (h : r.Listed) {c : RbbCall} (hr : r.exec c = some r') : r'.Listed := by
  cases c with
  | alloc blkSize =>
    obtain ⟨⟨o, r₁⟩, halloc, rfl⟩ := Option.map_eq_some_iff.mp hr
    exact h.rtRbbBlkAlloc halloc
  | put block =>
    change r.rtRbbBlkPut block = some r' at hr
    unfold rtRbbBlkPut at hr
    by_cases hinited : (r.blkSet block).status = .inited
    · rw [if_pos hinited] at hr
      obtain rfl := Option.some.inj hr
      exact h.setStatus fun _ => nofun
    · rw [if_neg hinited] at hr
      cases hr
  | get =>
    obtain rfl := Option.some.inj hr
    unfold rtRbbBlkGet
    cases r.blkList.find? fun i => (r.blkSet i).status = .put with
    | none => exact h
    | some block => exact h.setStatus fun _ => nofun
  | queueGet len q =>
    obtain rfl := Option.some.inj hr
    exact h.queueGetLoop len r.blkList none 0 q
  | free block => exact h.rtRbbBlkFree hr
  | queueFree q => exact h.rtRbbBlkQueueFree hr

/-- It holds in every state that is reached. -/
theorem of_run {buf bufSize blkMaxNum : ℕ} {blockSet : ℕ → RbbBlk} {cs : List RbbCall}
    (hrun : Run Step (rtRbbInit buf bufSize blockSet blkMaxNum) cs r) : r.Listed :=
  hrun.invariant ⟨.nil, nofun, nofun⟩ fun _ _ _ h hs => h.exec hs.2

end Listed

end Rbb

end CoreLink.RtThread
