/-
# `CoreLink.RtThread.RingblkQueue` — the queue of a ring block buffer, `components/drivers/src/ringblk_buf.c`.

`rt_rbb_blk_queue_get` walks the list, and takes the first block that is put and those that follow. What it leaves in
the queue is a part of the array: the first of them, and how many there are. That the order of the list, the order of
the array and the order in memory are the same is not checked, and it is not so when blocks have been freed in another
order than they were allocated; and the first block is taken whatever its size is.

`queue_get` says when the blocks that are taken are what the queue stands for, together in memory and no more than asked
for.
-/
import CoreLink.RtThread.Ringblk

namespace CoreLink.RtThread.Rbb

open CoreLink.Lib CoreLink.Lib.Extent

/-! ## What is taken -/

/-- The memory of a block. -/
def area (r : Rbb) (block : ℕ) : Extent := ⟨(r.blkSet block).buf, (r.blkSet block).size⟩

/-- How much the blocks have together. -/
def sizes (r : Rbb) (bs : List ℕ) : ℕ := Extent.total (bs.map r.area)

/-- Blocks are taken one after the other. -/
def takeAll (r : Rbb) (bs : List ℕ) : Rbb := bs.foldl take r

/-- The blocks `ts` are taken after `last`, with `total` bytes until there, and then the loop stops in front of `rest`. -/
def TakenFrom (r : Rbb) (len : ℕ) : ℕ → ℕ → List ℕ → List ℕ → Prop
  | last, total, [], rest => ∀ c ∈ rest.head?, r.Breaks len last total c
  | last, total, t :: ts, rest =>
    ¬r.Breaks len last total t ∧ TakenFrom r len t ((total + (r.blkSet t).size) % 2 ^ 32) ts rest

variable {r : Rbb} {len last total b : ℕ} {ts ts' rest rest' : List ℕ} {q : BlkQueue}

@[simp] theorem sizes_nil (r : Rbb) : r.sizes [] = 0 := rfl

@[simp] theorem sizes_cons (r : Rbb) (b : ℕ) (bs : List ℕ) : r.sizes (b :: bs) = (r.blkSet b).size + r.sizes bs := rfl

theorem take_area (r : Rbb) (b i : ℕ) :
    ((r.take b).blkSet i).size = (r.blkSet i).size ∧ ((r.take b).blkSet i).buf = (r.blkSet i).buf :=
  setStatus_area (r.unlink b) b i .get

theorem takeAll_blkList (r : Rbb) (bs : List ℕ) : (r.takeAll bs).blkList = r.blkList.diff bs := by
  induction bs generalizing r with
  | nil => rfl
  | cons b bs ih =>
    rw [List.diff_cons]
    exact ih (r.take b)

theorem takeAll_area (r : Rbb) (bs : List ℕ) : (r.takeAll bs).area = r.area := by
  induction bs generalizing r with
  | nil => rfl
  | cons b bs ih =>
    have htake : (r.take b).area = r.area := by
      funext i
      unfold area
      rw [(take_area r b i).1, (take_area r b i).2]
    exact (ih (r.take b)).trans htake

/-- Taking one block changes nothing for the others. -/
theorem breaks_take {c : ℕ} (hne : c ≠ b) : (r.take b).Breaks len last total c ↔ r.Breaks len last total c := by
  have hstatus : ((r.take b).blkSet c).status = (r.blkSet c).status := by
    rw [take, setStatus_status, if_neg hne]
    rfl
  unfold Breaks
  rw [hstatus, (take_area r b c).1, (take_area r b c).2, (take_area r b last).2]

theorem takenFrom_take (hts : b ∉ ts ++ rest) : (r.take b).TakenFrom len last total ts rest ↔
    r.TakenFrom len last total ts rest := by
  induction ts generalizing last total with
  | nil =>
    refine forall₂_congr fun c hc => breaks_take ?_
    rintro rfl
    exact hts (List.mem_of_mem_head? hc)
  | cons t ts ih =>
    obtain ⟨hne, hts⟩ := List.ne_and_not_mem_of_not_mem_cons hts
    unfold TakenFrom
    rw [breaks_take (Ne.symm hne), (take_area r b t).1, ih hts]

/-- What is taken is told by the list. -/
theorem TakenFrom.unique (h : r.TakenFrom len last total ts rest) (h' : r.TakenFrom len last total ts' rest')
    (heq : ts ++ rest = ts' ++ rest') : ts = ts' := by
  induction ts generalizing last total ts' with
  | nil =>
    cases ts' with
    | nil => rfl
    | cons t ts' =>
      obtain rfl : rest = t :: (ts' ++ rest') := heq
      exact absurd (h t rfl) h'.1
  | cons t ts ih =>
    cases ts' with
    | nil =>
      obtain rfl : t :: (ts ++ rest) = rest' := heq
      exact absurd (h' t rfl) h.1
    | cons t' ts' =>
      obtain ⟨rfl, htail⟩ := List.cons_eq_cons.mp heq
      rw [ih h.2 h'.2 htail]

/-! ## The loop -/

variable (r len last q) in
/-- **The loop, once a block has been taken.** -/
theorem queueGetLoop_some (nodes : List ℕ) (hnd : nodes.Nodup) (htotal : total < 2 ^ 32) :
    ∃ ts rest, nodes = ts ++ rest ∧ r.TakenFrom len last total ts rest ∧
      queueGetLoop len nodes (some last) total q r =
        ((total + r.sizes ts) % 2 ^ 32, ⟨q.blocks, q.blkNum + ts.length⟩, r.takeAll ts) := by
  induction nodes generalizing last total q r with
  | nil =>
    refine ⟨[], [], rfl, nofun, ?_⟩
    rw [sizes_nil, Nat.add_zero, Nat.mod_eq_of_lt htotal]
    rfl
  | cons node nodes ih =>
    unfold queueGetLoop
    by_cases hbreaks : r.Breaks len last total node
    · refine ⟨[], node :: nodes, rfl, ?_, ?_⟩
      · intro c hc
        obtain rfl := Option.some.inj hc
        exact hbreaks
      · rw [if_pos hbreaks, sizes_nil, Nat.add_zero, Nat.mod_eq_of_lt htotal]
        rfl
    · obtain ⟨hnode, hnd⟩ := List.nodup_cons.mp hnd
      have hlt : (total + (r.blkSet node).size) % 2 ^ 32 < 2 ^ 32 := Nat.mod_lt _ (Nat.two_pow_pos 32)
      obtain ⟨ts, rest, rfl, htaken, hloop⟩ :=
        ih (r.take node) node { q with blkNum := q.blkNum + 1 } hnd hlt
      refine ⟨node :: ts, rest, rfl, ⟨hbreaks, (takenFrom_take hnode).mp htaken⟩, ?_⟩
      have hsizes : (r.take node).sizes ts = r.sizes ts := by
        have harea : (r.take node).area = r.area := takeAll_area r [node]
        rw [sizes, sizes, harea]
      rw [if_neg hbreaks, hloop, hsizes, Nat.mod_add_mod, sizes_cons, Nat.add_assoc, List.length_cons, Nat.add_assoc,
        Nat.add_comm 1]
      rfl

variable (r len q) in
/-- **The loop, as long as no block has been taken.** -/
theorem queueGetLoop_none (nodes : List ℕ) (hnd : nodes.Nodup) (hsmall : ∀ i ∈ nodes, (r.blkSet i).size < 2 ^ 24) :
    ((∀ i ∈ nodes, (r.blkSet i).status ≠ .put) ∧ queueGetLoop len nodes none 0 q r = (0, q, r)) ∨
      ∃ as b ts rest, nodes = as ++ b :: (ts ++ rest) ∧ (∀ a ∈ as, (r.blkSet a).status ≠ .put) ∧
        (r.blkSet b).status = .put ∧ r.TakenFrom len b (r.blkSet b).size ts rest ∧
        queueGetLoop len nodes none 0 q r =
          (r.sizes (b :: ts) % 2 ^ 32, ⟨b, ts.length + 1⟩, r.takeAll (b :: ts)) := by
  induction nodes with
  | nil => exact Or.inl ⟨nofun, rfl⟩
  | cons node nodes ih =>
    obtain ⟨hnode, hnd⟩ := List.nodup_cons.mp hnd
    unfold queueGetLoop
    by_cases hput : (r.blkSet node).status = .put
    · have hsize : (0 + (r.blkSet node).size) % 2 ^ 32 = (r.blkSet node).size := by
        have := hsmall node List.mem_cons_self
        omega
      obtain ⟨ts, rest, rfl, htaken, hloop⟩ :=
        queueGetLoop_some (r.take node) len node ⟨node, 0 + 1⟩ nodes hnd
          (Nat.mod_lt (0 + (r.blkSet node).size) (Nat.two_pow_pos 32))
      rw [hsize] at htaken hloop
      refine Or.inr ⟨[], node, ts, rest, rfl, nofun, hput, (takenFrom_take hnode).mp htaken, ?_⟩
      have hsizes : (r.take node).sizes ts = r.sizes ts := by
        have harea : (r.take node).area = r.area := takeAll_area r [node]
        rw [sizes, sizes, harea]
      rw [if_pos hput, hsize, hloop, hsizes, sizes_cons, Nat.zero_add, Nat.add_comm 1]
      rfl
    · rw [if_neg hput]
      rcases ih hnd fun i hi => hsmall i (List.mem_cons_of_mem node hi) with ⟨hnone, hloop⟩ | ⟨as, b, ts, rest, heq, has, hb⟩
      · refine Or.inl ⟨fun i hi => ?_, hloop⟩
        rcases List.mem_cons.mp hi with rfl | hi
        · exact hput
        · exact hnone i hi
      · refine Or.inr ⟨node :: as, b, ts, rest, by rw [heq, List.cons_append], fun a ha => ?_, hb⟩
        rcases List.mem_cons.mp ha with rfl | ha
        · exact hput
        · exact has a ha

/-! ## The front of the list -/

/-- Nothing more is taken behind `last`, with `total` bytes until there: the next block is not put, is at a lower address
or does not fit. -/
def Ends (r : Rbb) (len last total : ℕ) (rest : List ℕ) : Prop :=
  ∀ c ∈ rest.head?, (r.blkSet c).status ≠ .put ∨ (r.blkSet c).buf < (r.blkSet last).buf ∨
    (len < total + (r.blkSet c).size ∧ total + (r.blkSet c).size < 2 ^ 32)

/-- As long as the length is kept, no sum wraps around. -/
theorem takenFrom_iff (hlen : len < 2 ^ 32) (hsmall : ∀ i ∈ ts ++ rest, (r.blkSet i).size < 2 ^ 24)
    (hfits : total + r.sizes ts ≤ len) : r.TakenFrom len last total ts rest ↔
      (∀ t ∈ ts, (r.blkSet t).status = .put) ∧ (last :: ts).IsChain (fun i j => (r.blkSet i).buf ≤ (r.blkSet j).buf) ∧
        r.Ends len (ts.getLastD last) (total + r.sizes ts) rest := by
  induction ts generalizing last total with
  | nil =>
    rw [sizes_nil, Nat.add_zero] at hfits ⊢
    have hiff : r.TakenFrom len last total [] rest ↔ r.Ends len last total rest := by
      refine forall₂_congr fun c hc => ?_
      have hc := hsmall c (List.mem_of_mem_head? hc)
      refine or_congr_right (or_congr_right ?_)
      omega
    rw [hiff]
    exact ⟨fun h => ⟨nofun, .singleton last, h⟩, fun h => h.2.2⟩
  | cons t ts ih =>
    rw [sizes_cons, ← Nat.add_assoc] at hfits
    have hmod : (total + (r.blkSet t).size) % 2 ^ 32 = total + (r.blkSet t).size := Nat.mod_eq_of_lt (by omega)
    have hbreaks : ¬r.Breaks len last total t ↔ (r.blkSet t).status = .put ∧ (r.blkSet last).buf ≤ (r.blkSet t).buf := by
      unfold Breaks
      rw [hmod, not_or, not_or, not_not, not_lt]
      refine and_congr_right fun _ => and_iff_left ?_
      omega
    unfold TakenFrom
    rw [hmod, hbreaks, ih (fun i hi => hsmall i (List.mem_cons_of_mem t hi)) hfits, List.forall_mem_cons,
      List.isChain_cons_cons, List.getLastD_cons, sizes_cons, ← Nat.add_assoc]
    constructor
    · rintro ⟨⟨hput, hle⟩, hputs, hchain, hends⟩
      exact ⟨⟨hput, hputs⟩, ⟨hle, hchain⟩, hends⟩
    · rintro ⟨⟨hput, hputs⟩, ⟨hle, hchain⟩, hends⟩
      exact ⟨⟨hput, hle⟩, hputs, hchain, hends⟩

/-- **The first block that is put and those behind it**, up to one with which it ends, are no more than `len` bytes,
each of them begins where the one before it ends, and they are a part of the array that begins with the first. -/
structure Front (r : Rbb) (len : ℕ) (as : List ℕ) (b : ℕ) (ts rest : List ℕ) : Prop where
  list : r.blkList = as ++ b :: (ts ++ rest)
  before : ∀ a ∈ as, (r.blkSet a).status ≠ .put
  put : ∀ i ∈ b :: ts, (r.blkSet i).status = .put
  ascending : (b :: ts).IsChain fun i j => (r.blkSet i).buf ≤ (r.blkSet j).buf
  ends : r.Ends len (ts.getLastD b) (r.sizes (b :: ts)) rest
  fits : r.sizes (b :: ts) ≤ len
  adjacent : Adjacent (r.blkSet b).buf (sized ((b :: ts).map r.area))
  slice : ∀ i, i ∈ b :: ts ↔ b ≤ i ∧ i < b + (ts.length + 1)

/-- The request is met by the front of the list, or there is nothing to take and the queue says so already. -/
def QueueReady (r : Rbb) (len : ℕ) (q : BlkQueue) : Prop :=
  ((∀ i ∈ r.blkList, (r.blkSet i).status ≠ .put) ∧ q.blkNum = 0) ∨ ∃ as b ts rest, r.Front len as b ts rest

/-- The blocks that are no longer on the list. -/
def taken (r r' : Rbb) : List ℕ := r.blkList.filter fun i => i ∉ r'.blkList

/-- **What a queue is for**: `ret` is the size of the blocks taken together and no more than asked for, they are the
memory from `rt_rbb_blk_queue_buf` on, and they are the part of the array that the other functions on queues go
through. -/
structure QueueTaken (r : Rbb) (len ret : ℕ) (q : BlkQueue) (r' : Rbb) : Prop where
  total : r.sizes (r.taken r') = ret
  fits : ret ≤ len
  range : ∀ x, Covers ((r.taken r').map r.area) x ↔ rtRbbBlkQueueBuf q r' ≤ x ∧ x < rtRbbBlkQueueBuf q r' + ret
  slice : ∀ i, i ∈ r.taken r' ↔ i ∈ q.slice

/-- The blocks that are taken one after the other are those that are no longer on the list. -/
theorem taken_takeAll {as bs cs : List ℕ} (hnd : r.blkList.Nodup) (hlist : r.blkList = as ++ (bs ++ cs)) :
    r.taken (r.takeAll bs) = bs := by
  have hmem : ∀ i ∈ r.blkList, (i ∉ (r.takeAll bs).blkList ↔ i ∈ bs) := by
    intro i hi
    rw [takeAll_blkList, hnd.mem_sdiff_iff, not_and_not_right]
    exact ⟨fun h => h hi, fun h _ => h⟩
  have hfilter : r.taken (r.takeAll bs) = r.blkList.filter fun i => i ∈ bs :=
    List.filter_congr fun i hi => decide_eq_decide.mpr (hmem i hi)
  rw [hlist] at hnd
  obtain ⟨-, hnd', hapart⟩ := List.nodup_append.mp hnd
  obtain ⟨-, -, hapart'⟩ := List.nodup_append.mp hnd'
  have has : as.filter (fun i => decide (i ∈ bs)) = [] := by
    refine List.filter_eq_nil_iff.mpr fun i hi hmem => ?_
    exact hapart i hi i (List.mem_append_left cs (of_decide_eq_true hmem)) rfl
  have hcs : cs.filter (fun i => decide (i ∈ bs)) = [] := by
    refine List.filter_eq_nil_iff.mpr fun i hi hmem => ?_
    exact hapart' i (of_decide_eq_true hmem) i hi rfl
  have hbs : bs.filter (fun i => decide (i ∈ bs)) = bs := List.filter_eq_self.mpr fun i hi => decide_eq_true hi
  rw [hfilter, hlist, List.filter_append, List.filter_append, has, hbs, hcs, List.nil_append, List.append_nil]

theorem mem_slice {i : ℕ} : i ∈ q.slice ↔ q.blocks ≤ i ∧ i < q.blocks + q.blkNum := by
  unfold BlkQueue.slice
  rw [List.mem_range'_1]

/-- When nothing is taken. -/
theorem queueTaken_none_iff : r.QueueTaken len 0 q r ↔ q.blkNum = 0 := by
  have htaken : r.taken r = [] := by
    refine List.filter_eq_nil_iff.mpr fun i hi hmem => ?_
    exact of_decide_eq_true hmem hi
  constructor
  · intro h
    by_contra hne
    have hmem := (h.slice q.blocks).mpr (mem_slice.mpr ⟨Nat.le_refl _, by omega⟩)
    rw [htaken] at hmem
    exact List.not_mem_nil hmem
  · intro h
    constructor
    case total => rw [htaken, sizes_nil]
    case fits => exact Nat.zero_le len
    case range =>
      intro x
      rw [htaken]
      exact iff_of_false (covers_nil x) (by omega)
    case slice =>
      intro i
      rw [htaken, mem_slice]
      exact iff_of_false List.not_mem_nil (by omega)

/-- When a block is taken. -/
theorem queueTaken_some_iff {as : List ℕ} (h : r.Listed) (hlen : len < 2 ^ 32) (hlist : r.blkList = as ++ b :: (ts ++ rest))
    (has : ∀ a ∈ as, (r.blkSet a).status ≠ .put) (hb : (r.blkSet b).status = .put)
    (htaken : r.TakenFrom len b (r.blkSet b).size ts rest) :
    r.QueueTaken len (r.sizes (b :: ts) % 2 ^ 32) ⟨b, ts.length + 1⟩ (r.takeAll (b :: ts)) ↔
      r.Front len as b ts rest := by
  have heq : r.taken (r.takeAll (b :: ts)) = b :: ts := taken_takeAll h.nodup hlist
  have hsmall : ∀ i ∈ ts ++ rest, (r.blkSet i).size < 2 ^ 24 := fun i hi =>
    h.small i (hlist ▸ List.mem_append_right as (List.mem_cons_of_mem b hi))
  have hbuf : rtRbbBlkQueueBuf ⟨b, ts.length + 1⟩ (r.takeAll (b :: ts)) = (r.blkSet b).buf :=
    congrArg Extent.start (congrFun (takeAll_area r (b :: ts)) b)
  have hsorted : ∀ {is : List ℕ}, is.IsChain (fun i j => (r.blkSet i).buf ≤ (r.blkSet j).buf) →
      (is.map r.area).Pairwise fun e f => e.start ≤ f.start := by
    intro is hchain
    rw [List.pairwise_map]
    have htrans : Trans (fun i j => (r.blkSet i).buf ≤ (r.blkSet j).buf)
        (fun i j => (r.blkSet i).buf ≤ (r.blkSet j).buf) fun i j => (r.blkSet i).buf ≤ (r.blkSet j).buf :=
      ⟨fun h₁ h₂ => Nat.le_trans h₁ h₂⟩
    exact List.isChain_iff_pairwise.mp hchain
  constructor
  · intro hq
    have htotal : r.sizes (b :: ts) % 2 ^ 32 = r.sizes (b :: ts) := by
      have := hq.total
      rw [heq] at this
      exact this.symm
    have hfits : r.sizes (b :: ts) ≤ len := htotal ▸ hq.fits
    obtain ⟨hputs, hchain, hends⟩ := (takenFrom_iff hlen hsmall hfits).mp htaken
    have hrange := hq.range
    rw [heq, hbuf, htotal] at hrange
    constructor
    case list => exact hlist
    case before => exact has
    case put => exact List.forall_mem_cons.mpr ⟨hb, hputs⟩
    case ascending => exact hchain
    case ends => exact hends
    case fits => exact hfits
    case adjacent => exact (covers_iff_adjacent (hsorted hchain)).mp hrange
    case slice =>
      intro i
      have hslice := hq.slice i
      rw [heq, mem_slice] at hslice
      exact hslice
  · intro hf
    have htotal : r.sizes (b :: ts) % 2 ^ 32 = r.sizes (b :: ts) := Nat.mod_eq_of_lt (Nat.lt_of_le_of_lt hf.fits hlen)
    constructor
    case total => rw [heq, htotal]
    case fits => exact htotal.symm ▸ hf.fits
    case range =>
      intro x
      rw [heq, hbuf, htotal]
      exact hf.adjacent.covers_iff x
    case slice =>
      intro i
      rw [heq, mem_slice]
      exact hf.slice i

/-- The first block that is put is one only. -/
theorem first_unique {as as' bs bs' : List ℕ} {b' : ℕ} (has : ∀ a ∈ as, (r.blkSet a).status ≠ .put)
    (hb : (r.blkSet b).status = .put) (has' : ∀ a ∈ as', (r.blkSet a).status ≠ .put) (hb' : (r.blkSet b').status = .put)
    (heq : as ++ b :: bs = as' ++ b' :: bs') : as = as' ∧ b = b' ∧ bs = bs' := by
  induction as generalizing as' with
  | nil =>
    cases as' with
    | nil => exact ⟨rfl, List.cons_eq_cons.mp heq⟩
    | cons a' as' =>
      obtain ⟨rfl, -⟩ := List.cons_eq_cons.mp heq
      exact absurd hb (has' b List.mem_cons_self)
  | cons a as ih =>
    cases as' with
    | nil =>
      obtain ⟨rfl, -⟩ := List.cons_eq_cons.mp heq
      exact absurd hb' (has a List.mem_cons_self)
    | cons a' as' =>
      obtain ⟨rfl, htail⟩ := List.cons_eq_cons.mp heq
      obtain ⟨rfl, hrest⟩ := ih (fun x hx => has x (List.mem_cons_of_mem a hx))
        (fun x hx => has' x (List.mem_cons_of_mem a hx)) htail
      exact ⟨rfl, hrest⟩

/-- What is taken is the front of the list, if it has one. -/
theorem Front.of_taken {as as' : List ℕ} {b' : ℕ} (hf : r.Front len as b ts rest) (h : r.Listed) (hlen : len < 2 ^ 32)
    (hlist : r.blkList = as' ++ b' :: (ts' ++ rest')) (has' : ∀ a ∈ as', (r.blkSet a).status ≠ .put)
    (hb' : (r.blkSet b').status = .put) (htaken : r.TakenFrom len b' (r.blkSet b').size ts' rest') :
    r.Front len as' b' ts' rest' := by
  obtain ⟨rfl, rfl, htail⟩ :=
    first_unique hf.before (hf.put b List.mem_cons_self) has' hb' (hf.list.symm.trans hlist)
  have hsmall : ∀ i ∈ ts ++ rest, (r.blkSet i).size < 2 ^ 24 := fun i hi =>
    h.small i (hf.list ▸ List.mem_append_right as (List.mem_cons_of_mem b hi))
  have htaken' : r.TakenFrom len b (r.blkSet b).size ts rest :=
    (takenFrom_iff hlen hsmall hf.fits).mpr ⟨fun t ht => hf.put t (List.mem_cons_of_mem b ht), hf.ascending, hf.ends⟩
  obtain rfl := htaken'.unique htaken htail
  obtain rfl := List.append_cancel_left htail
  exact hf

/-! ## The statement -/

/-- Calls that can be executed are a run. -/
theorem run_of_exec (r₀ : Rbb) (cs : List RbbCall)
    (h : (cs.foldlM (fun (r : Rbb) c => if r.Enabled c then r.exec c else none) r₀).isSome) :
    Run Step r₀ cs (Option.get _ h) :=
  Run.of_foldlM_guarded (fun _ _ _ hs => hs) (Option.some_get h).symm

/-- **What `rt_rbb_blk_queue_get` takes is what the queue stands for** exactly when the front of the list is as it should be,
in every state that is reached. -/
theorem queue_get {buf bufSize blkMaxNum : ℕ} {blockSet : ℕ → RbbBlk} {cs : List RbbCall}
    (hrun : Run Step (rtRbbInit buf bufSize blockSet blkMaxNum) cs r) (hlen : len < 2 ^ 32) (q : BlkQueue) :
    r.QueueTaken len (r.rtRbbBlkQueueGet len q).1 (r.rtRbbBlkQueueGet len q).2.1 (r.rtRbbBlkQueueGet len q).2.2 ↔
      r.QueueReady len q := by
  have h := Listed.of_run hrun
  unfold rtRbbBlkQueueGet QueueReady
  rcases queueGetLoop_none r len q r.blkList h.nodup h.small with
    ⟨hnone, hloop⟩ | ⟨as, b, ts, rest, hlist, has, hb, htaken, hloop⟩
  · rw [hloop, queueTaken_none_iff]
    refine ⟨fun hzero => Or.inl ⟨hnone, hzero⟩, ?_⟩
    rintro (⟨-, hzero⟩ | ⟨as, b, ts, rest, hf⟩)
    · exact hzero
    · have hm : b ∈ r.blkList := hf.list ▸ List.mem_append_right as List.mem_cons_self
      exact absurd (hf.put b List.mem_cons_self) (hnone b hm)
  · rw [hloop, queueTaken_some_iff h hlen hlist has hb htaken]
    refine ⟨fun hf => Or.inr ⟨as, b, ts, rest, hf⟩, ?_⟩
    rintro (⟨hnone, -⟩ | ⟨as', b', ts', rest', hf⟩)
    · have hm : b ∈ r.blkList := hlist ▸ List.mem_append_right as List.mem_cons_self
      exact absurd hb (hnone b hm)
    · exact hf.of_taken h hlen hlist has hb htaken

/-- Two blocks that follow each other are put, and both are taken. -/
theorem queue_get_two : ∃ r : Rbb, Run Step (rtRbbInit 4096 64 (fun _ => ⟨.unused, 0, 0⟩) 3)
    [.alloc 8, .alloc 8, .put 0, .put 1] r ∧ r.blkList = [0, 1] ∧
      r.QueueTaken 16 (r.rtRbbBlkQueueGet 16 ⟨0, 0⟩).1 (r.rtRbbBlkQueueGet 16 ⟨0, 0⟩).2.1
        (r.rtRbbBlkQueueGet 16 ⟨0, 0⟩).2.2 := by
  have hrun := run_of_exec (rtRbbInit 4096 64 (fun _ => ⟨.unused, 0, 0⟩) 3)
    [.alloc 8, .alloc 8, .put 0, .put 1] (by decide)
  refine ⟨_, hrun, by decide, (queue_get hrun (by decide) ⟨0, 0⟩).mpr (Or.inr ⟨[], 0, [1], [], ?_⟩)⟩
  constructor
  case list => decide
  case before => exact nofun
  case put => decide
  case ascending => decide
  case ends => exact nofun
  case fits => decide
  case adjacent => exact ⟨by decide, by decide, trivial⟩
  case slice =>
    intro i
    rw [List.mem_cons, List.mem_singleton, List.length_singleton]
    omega

/-- Three blocks are allocated, the second is freed, and the others are put: the list has the first and the third, and two
blocks from the first on in the array are the first and the second. -/
theorem queue_get_gap : ¬∀ (buf bufSize : ℕ) (blockSet : ℕ → RbbBlk) (blkMaxNum : ℕ) (cs : List RbbCall) (r : Rbb) (len : ℕ)
    (q : BlkQueue), Run Step (rtRbbInit buf bufSize blockSet blkMaxNum) cs r → len < 2 ^ 32 →
      r.QueueTaken len (r.rtRbbBlkQueueGet len q).1 (r.rtRbbBlkQueueGet len q).2.1 (r.rtRbbBlkQueueGet len q).2.2 := by
  intro hall
  have hrun := run_of_exec (rtRbbInit 4096 64 (fun _ => ⟨.unused, 0, 0⟩) 3)
    [.alloc 8, .alloc 8, .alloc 8, .put 0, .put 2, .free 1] (by decide)
  have hslice := (hall 4096 64 _ 3 _ _ 64 ⟨0, 0⟩ hrun (by decide)).slice 1
  revert hslice
  decide

end CoreLink.RtThread.Rbb
