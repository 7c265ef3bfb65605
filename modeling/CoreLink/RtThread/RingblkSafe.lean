/-
# `CoreLink.RtThread.RingblkSafe` — the memory of a ring block buffer, `components/drivers/src/ringblk_buf.c`.

The space that is free is not recorded. `rt_rbb_blk_alloc` tells it from the first and the last block on the list, and when
the list is empty it takes the buffer to be empty and large enough. So a block can be larger than the buffer, and the memory
of blocks that `rt_rbb_blk_queue_get` has taken from the list can be handed out again while they are in use.

As long as neither happens the blocks on the list are in the order of a ring (`Lib.RingOrder`), and every block in use has
memory of its own (`ringblk_safe`).
-/
import CoreLink.Lib.RingOrder
import CoreLink.RtThread.RingblkQueue

namespace CoreLink.RtThread.Rbb

open CoreLink.Lib CoreLink.Lib.Extent

/-! ## What is to be shown, and on what condition -/

/-- A block is in use. -/
def Used (r : Rbb) (i : ℕ) : Prop := i < r.blkMaxNum ∧ (r.blkSet i).status ≠ .unused

/-- **Memory safety**: the blocks in use lie in the buffer, and no two of them have an address in common. -/
structure Safe (r : Rbb) : Prop where
  inside : ∀ i, r.Used i → r.buf ≤ (r.area i).start ∧ (r.area i).start + (r.area i).size ≤ r.buf + r.bufSize
  apart : ∀ i j, r.Used i → r.Used j → i ≠ j → ∀ x, (r.area i).Has x → ¬(r.area j).Has x

/-- None of the blocks that are in use without being on the list has memory in the area. -/
def Clear (r : Rbb) (e : Extent) : Prop := ∀ i, r.Used i → i ∉ r.blkList → ∀ x, e.Has x → ¬(r.area i).Has x

/-- How many bytes there are between the last block and what is behind it. -/
def gap (r : Rbb) (head tail : ℕ) : ℕ :=
  bound (r.buf + r.bufSize) (r.area head) (r.area tail) - ((r.area tail).start + (r.area tail).size)

/-- **What an allocation needs**: on an empty list, that the request is no larger than the buffer, and that no block off the
list is in the first bytes of the buffer; else, that none is in the bytes behind the last block if they are enough for the
request, and that none is in the first bytes of the buffer if those are taken. -/
structure Room (r : Rbb) (size : ℕ) : Prop where
  empty : r.blkList = [] → size ≤ r.bufSize ∧ r.Clear ⟨r.buf, size⟩
  behind : ∀ head ∈ r.blkList.head?, ∀ tail ∈ r.blkList.getLast?, size ≤ r.gap head tail →
    r.Clear ⟨(r.area tail).start + (r.area tail).size, size⟩
  front : ∀ head ∈ r.blkList.head?, ∀ tail ∈ r.blkList.getLast?, r.gap head tail < size →
    (r.area head).start ≤ (r.area tail).start → size ≤ (r.area head).start - r.buf → r.Clear ⟨r.buf, size⟩

/-- The condition on a call: there is room for what is allocated, if there is a block left. -/
def StepSafe (r : Rbb) : RbbCall → Prop
  | .alloc size => (∃ i < r.blkMaxNum, (r.blkSet i).status = .unused) → r.Room size
  | _ => True

/-- No block without a size fills the gap between the last block and the first. -/
def NotFlush (r : Rbb) : RbbCall → Prop
  | .alloc size => size = 0 → ∀ head ∈ r.blkList.head?, ∀ tail ∈ r.blkList.getLast?,
      (r.area tail).start < (r.area head).start → (r.area tail).start + (r.area tail).size ≠ (r.area head).start
  | _ => True

/-- What holds of every state that is reached under the condition. -/
structure Inv (r : Rbb) : Prop where
  object : r.buf + r.bufSize < 2 ^ 32
  listed : r.Listed
  bounded : ∀ i ∈ r.blkList, i < r.blkMaxNum
  ring : RingOrder (r.blkList.map r.area)
  safe : r.Safe

variable {r r' r'' : Rbb} {i new size lo : ℕ} {c : RbbCall}

/-! ## The calls that allocate nothing -/

/-- Nothing moves, and nothing comes into use or on the list. -/
structure Shrinks (r r' : Rbb) : Prop where
  buf : r'.buf = r.buf
  bufSize : r'.bufSize = r.bufSize
  blkMaxNum : r'.blkMaxNum = r.blkMaxNum
  area : r'.area = r.area
  list : r'.blkList.Sublist r.blkList
  used : ∀ i, r'.Used i → r.Used i

namespace Shrinks

theorem refl (r : Rbb) : Shrinks r r := ⟨rfl, rfl, rfl, rfl, .refl _, fun _ h => h⟩

theorem trans (h : Shrinks r r') (h' : Shrinks r' r'') : Shrinks r r'' where
  buf := h'.buf.trans h.buf
  bufSize := h'.bufSize.trans h.bufSize
  blkMaxNum := h'.blkMaxNum.trans h.blkMaxNum
  area := h'.area.trans h.area
  list := h'.list.trans h.list
  used := fun i hi => h.used i (h'.used i hi)

/-- A block that is in use gets another status. -/
theorem setStatus {block : ℕ} (hused : (r.blkSet block).status ≠ .unused) (st : RbbStatus) :
    Shrinks r (r.setStatus block st) where
  buf := rfl
  bufSize := rfl
  blkMaxNum := rfl
  area := by
    funext i
    obtain ⟨hsize, hbuf⟩ := setStatus_area r block i st
    unfold Rbb.area
    rw [hsize, hbuf]
  list := .refl _
  used := by
    rintro i ⟨hi, hst⟩
    refine ⟨hi, ?_⟩
    rw [setStatus_status] at hst
    by_cases heq : i = block
    · rw [heq]
      exact hused
    · rwa [if_neg heq] at hst

theorem unlink (r : Rbb) (block : ℕ) : Shrinks r (r.unlink block) :=
  ⟨rfl, rfl, rfl, rfl, List.erase_sublist, fun _ h => h⟩

theorem free {block : ℕ} (hr : r.rtRbbBlkFree block = some r') : Shrinks r r' := by
  unfold rtRbbBlkFree at hr
  by_cases hunused : (r.blkSet block).status = .unused
  · rw [if_pos hunused] at hr
    cases hr
  · rw [if_neg hunused] at hr
    obtain rfl := Option.some.inj hr
    exact (unlink r block).trans (setStatus (r := r.unlink block) hunused .unused)

theorem queueFree {q : BlkQueue} (hr : r.rtRbbBlkQueueFree q = some r') : Shrinks r r' := by
  unfold rtRbbBlkQueueFree at hr
  generalize q.slice = is at hr
  induction is generalizing r with
  | nil =>
    obtain rfl := Option.some.inj hr
    exact refl r
  | cons i is ih =>
    obtain ⟨r₁, hfree, hrest⟩ := Option.bind_eq_some_iff.mp hr
    exact (free hfree).trans (ih hrest)

/-- Only blocks that are put are taken. -/
theorem queueGetLoop (len : ℕ) (nodes : List ℕ) (last : Option ℕ) (total : ℕ) (q : BlkQueue) :
    Shrinks r (queueGetLoop len nodes last total q r).2.2 := by
  have htake : ∀ {r : Rbb} {node : ℕ}, (r.blkSet node).status = .put → Shrinks r (r.take node) := by
    intro r node hput
    have hused : ((r.unlink node).blkSet node).status ≠ .unused := by
      show (r.blkSet node).status ≠ .unused
      rw [hput]
      exact nofun
    exact (unlink r node).trans (setStatus hused .get)
  induction nodes generalizing last total q r with
  | nil => exact refl r
  | cons node nodes ih =>
    cases last with
    | none =>
      unfold Rbb.queueGetLoop
      by_cases hput : (r.blkSet node).status = .put
      · rw [if_pos hput]
        exact (htake hput).trans (ih _ _ _)
      · rw [if_neg hput]
        exact ih _ _ _
    | some last =>
      unfold Rbb.queueGetLoop
      by_cases hbreaks : r.Breaks len last total node
      · rw [if_pos hbreaks]
        exact refl r
      · rw [if_neg hbreaks]
        exact (htake (not_not.mp (not_or.mp hbreaks).1)).trans (ih _ _ _)

/-- **Every call that does not allocate.** -/
theorem exec (hc : ∀ size, c ≠ .alloc size) (hr : r.exec c = some r') : Shrinks r r' := by
  cases c with
  | alloc size => exact absurd rfl (hc size)
  | put block =>
    change r.rtRbbBlkPut block = some r' at hr
    unfold rtRbbBlkPut at hr
    by_cases hinited : (r.blkSet block).status = .inited
    · rw [if_pos hinited] at hr
      obtain rfl := Option.some.inj hr
      refine setStatus ?_ .put
      rw [hinited]
      exact nofun
    · rw [if_neg hinited] at hr
      cases hr
  | get =>
    obtain rfl := Option.some.inj hr
    unfold rtRbbBlkGet
    cases hfind : r.blkList.find? fun i => (r.blkSet i).status = .put with
    | none => exact refl r
    | some block =>
      have hput : (r.blkSet block).status = .put := by simpa using List.find?_some hfind
      refine setStatus ?_ .get
      rw [hput]
      exact nofun
  | queueGet len q =>
    obtain rfl := Option.some.inj hr
    exact queueGetLoop len r.blkList none 0 q
  | free block => exact free hr
  | queueFree q => exact queueFree hr

theorem safe (h : Shrinks r r') (hs : r.Safe) : r'.Safe where
  inside := by
    intro i hi
    rw [h.area, h.buf, h.bufSize]
    exact hs.inside i (h.used i hi)
  apart := by
    intro i j hi hj hne
    rw [h.area]
    exact hs.apart i j (h.used i hi) (h.used j hj) hne

theorem inv (h : Shrinks r r') (hi : r.Inv) (hlisted : r'.Listed) : r'.Inv where
  object := by
    rw [h.buf, h.bufSize]
    exact hi.object
  listed := hlisted
  bounded := by
    intro i hm
    rw [h.blkMaxNum]
    exact hi.bounded i (h.list.subset hm)
  ring := by
    rw [h.area]
    exact hi.ring.sublist (h.list.map r.area)
  safe := h.safe hi.safe

end Shrinks

/-! ## The call that allocates -/

theorem Inv.used (h : r.Inv) (hm : i ∈ r.blkList) : r.Used i := ⟨h.bounded i hm, h.listed.inUse i hm⟩

theorem Inv.inside (h : r.Inv) : ∀ e ∈ r.blkList.map r.area, r.buf ≤ e.start ∧ e.start + e.size ≤ r.buf + r.bufSize := by
  intro e he
  obtain ⟨i, hi, rfl⟩ := List.mem_map.mp he
  exact h.safe.inside i (h.used hi)

section Ends

variable {head tail : ℕ}

theorem map_head (hhead : head ∈ r.blkList.head?) : r.area head ∈ (r.blkList.map r.area).head? := by
  rw [List.head?_map]
  exact Option.mem_map_of_mem r.area hhead

theorem map_getLast (htail : tail ∈ r.blkList.getLast?) : r.area tail ∈ (r.blkList.map r.area).getLast? := by
  rw [List.getLast?_map]
  exact Option.mem_map_of_mem r.area htail

/-- **Where a block goes**, without the arithmetic of words. -/
theorem Inv.place_eq (h : r.Inv) (hhead : head ∈ r.blkList.head?) (htail : tail ∈ r.blkList.getLast?) (size : ℕ) :
    r.place size =
      if size ≤ r.gap head tail then some ((r.area tail).start + (r.area tail).size)
      else if (r.area head).start ≤ (r.area tail).start ∧ size ≤ (r.area head).start - r.buf then some r.buf
      else none := by
  obtain ⟨hlow, hhigh⟩ := h.safe.inside head (h.used (List.mem_of_mem_head? hhead))
  obtain ⟨hlow', hhigh'⟩ := h.safe.inside tail (h.used (List.mem_of_mem_getLast? htail))
  have hobject := h.object
  have hend : r.blkEnd tail = (r.area tail).start + (r.area tail).size :=
    Nat.mod_eq_of_lt (Nat.lt_of_le_of_lt hhigh' hobject)
  have htop : (r.buf + r.bufSize) % 2 ^ 32 = r.buf + r.bufSize := Nat.mod_eq_of_lt hobject
  unfold place
  rw [Option.mem_def.mp hhead, Option.mem_def.mp htail]
  dsimp only
  rw [hend, htop]
  change (if (r.area head).start ≤ (r.area tail).start then _ else _) = _
  by_cases hle : (r.area head).start ≤ (r.area tail).start
  · have hgap : r.gap head tail = r.buf + r.bufSize - ((r.area tail).start + (r.area tail).size) := by
      rw [gap, bound, if_pos hle]
    have hfront : Word.sub 32 (r.area head).start r.buf = (r.area head).start - r.buf := Word.sub_of_le hlow (by omega)
    rw [if_pos hle, Word.sub_of_le hhigh' hobject, ← hgap]
    change (if _ then _ else if size ≤ Word.sub 32 (r.area head).start r.buf then _ else _) = _
    rw [hfront]
    refine if_congr Iff.rfl rfl (if_congr ?_ rfl rfl)
    exact (and_iff_right hle).symm
  · have hgap : r.gap head tail = (r.area head).start - ((r.area tail).start + (r.area tail).size) := by
      rw [gap, bound, if_neg hle]
    obtain ⟨us, ws, -, hpair, -, hfirst, hlast⟩ :=
      h.ring.wrapped (map_head hhead) (map_getLast htail) (Nat.lt_of_not_le hle)
    have hbefore : Precedes (r.area tail) (r.area head) := (List.pairwise_append.mp hpair).2.2 _
      (List.mem_of_mem_getLast? hlast) _ (List.mem_of_mem_head? hfirst)
    have hbetween : Word.sub 32 (r.area head).start ((r.area tail).start + (r.area tail).size) = r.gap head tail :=
      hgap ▸ Word.sub_of_le hbefore (by omega)
    rw [if_neg hle]
    change (if size ≤ Word.sub 32 (r.area head).start ((r.area tail).start + (r.area tail).size) then _ else _) = _
    rw [hbetween]
    refine if_congr Iff.rfl rfl ?_
    exact (if_neg fun hand => hle hand.1).symm

/-- There is room behind the last block. -/
theorem room_iff_behind (hhead : head ∈ r.blkList.head?) (htail : tail ∈ r.blkList.getLast?)
    (hfits : size ≤ r.gap head tail) : r.Room size ↔ r.Clear ⟨(r.area tail).start + (r.area tail).size, size⟩ := by
  refine ⟨fun h => h.behind head hhead tail htail hfits, fun h => ⟨fun hnil => ?_, ?_, ?_⟩⟩
  · rw [hnil] at hhead
    cases hhead
  · intro head' hhead' tail' htail' _
    obtain rfl := Option.mem_unique htail htail'
    exact h
  · intro head' hhead' tail' htail' hlt
    obtain rfl := Option.mem_unique hhead hhead'
    obtain rfl := Option.mem_unique htail htail'
    omega

/-- There is room in front of the first block only, or nowhere. -/
theorem room_iff_front (hhead : head ∈ r.blkList.head?) (htail : tail ∈ r.blkList.getLast?)
    (hlarge : ¬size ≤ r.gap head tail) : r.Room size ↔
      ((r.area head).start ≤ (r.area tail).start ∧ size ≤ (r.area head).start - r.buf → r.Clear ⟨r.buf, size⟩) := by
  refine ⟨fun h hand => h.front head hhead tail htail (Nat.lt_of_not_le hlarge) hand.1 hand.2,
    fun h => ⟨fun hnil => ?_, ?_, ?_⟩⟩
  · rw [hnil] at hhead
    cases hhead
  · intro head' hhead' tail' htail' hle
    obtain rfl := Option.mem_unique hhead hhead'
    obtain rfl := Option.mem_unique htail htail'
    exact absurd hle hlarge
  · intro head' hhead' tail' htail' _ hle hfits
    obtain rfl := Option.mem_unique hhead hhead'
    obtain rfl := Option.mem_unique htail htail'
    exact h ⟨hle, hfits⟩

end Ends

theorem addBlk_area (r : Rbb) (new size lo : ℕ) : (r.addBlk new size lo).area = Function.update r.area new ⟨lo, size⟩ := by
  funext i
  show (⟨(Function.update r.blkSet new ⟨.inited, size, lo⟩ i).buf,
    (Function.update r.blkSet new ⟨.inited, size, lo⟩ i).size⟩ : Extent) = _
  by_cases heq : i = new
  · subst heq
    rw [Function.update_self, Function.update_self]
  · rw [Function.update_of_ne heq, Function.update_of_ne heq]
    rfl

theorem addBlk_used (hnew : new < r.blkMaxNum) (i : ℕ) : (r.addBlk new size lo).Used i ↔ i = new ∨ r.Used i := by
  show (i < r.blkMaxNum ∧ (Function.update r.blkSet new ⟨.inited, size, lo⟩ i).status ≠ .unused) ↔ _
  by_cases heq : i = new
  · subst heq
    rw [Function.update_self]
    exact iff_of_true ⟨hnew, nofun⟩ (Or.inl rfl)
  · rw [Function.update_of_ne heq, or_iff_right heq]
    rfl

/-- **A new block keeps memory safe** when it lies in the buffer and meets no block in use. -/
theorem Safe.addBlk_iff (h : r.Safe) (hnew : new < r.blkMaxNum) (hunused : (r.blkSet new).status = .unused) :
    (r.addBlk new size lo).Safe ↔ (r.buf ≤ lo ∧ lo + size ≤ r.buf + r.bufSize) ∧
      ∀ i, r.Used i → ∀ x, Has ⟨lo, size⟩ x → ¬(r.area i).Has x := by
  have hne : ∀ {i}, r.Used i → i ≠ new := fun hi heq => hi.2 (heq ▸ hunused)
  have hself : (r.addBlk new size lo).area new = ⟨lo, size⟩ := by rw [addBlk_area, Function.update_self]
  have hold : ∀ {i}, r.Used i → (r.addBlk new size lo).area i = r.area i := fun hi => by
    rw [addBlk_area, Function.update_of_ne (hne hi)]
  have hused : ∀ {i}, r.Used i → (r.addBlk new size lo).Used i := fun hi => (addBlk_used hnew _).mpr (Or.inr hi)
  have husednew : (r.addBlk new size lo).Used new := (addBlk_used hnew _).mpr (Or.inl rfl)
  constructor
  · intro hs
    refine ⟨?_, fun i hi x hx => ?_⟩
    · have hin := hs.inside new husednew
      rwa [hself] at hin
    · have hapart := hs.apart new i husednew (hused hi) (hne hi).symm x
      rw [hself, hold hi] at hapart
      exact hapart hx
  · rintro ⟨hin, hapart⟩
    constructor
    case inside =>
      intro i hi
      rcases (addBlk_used hnew i).mp hi with rfl | hi
      · rw [hself]
        exact hin
      · rw [hold hi]
        exact h.inside i hi
    case apart =>
      intro i j hi hj hij x
      rcases (addBlk_used hnew i).mp hi with rfl | hiu
      · rcases (addBlk_used hnew j).mp hj with rfl | hju
        · exact absurd rfl hij
        · rw [hself, hold hju]
          exact hapart j hju x
      · rcases (addBlk_used hnew j).mp hj with rfl | hju
        · rw [hself, hold hiu]
          exact fun hx hx' => hapart i hiu x hx' hx
        · rw [hold hiu, hold hju]
          exact h.apart i j hiu hju hij x

/-- The blocks on the list are out of the way: it is left to those that are not on it. -/
theorem Safe.addBlk_iff_clear (h : r.Safe) (hnew : new < r.blkMaxNum) (hunused : (r.blkSet new).status = .unused)
    (hin : r.buf ≤ lo ∧ lo + size ≤ r.buf + r.bufSize)
    (hlist : ∀ e ∈ r.blkList.map r.area, Precedes e ⟨lo, size⟩ ∨ Precedes ⟨lo, size⟩ e) :
    (r.addBlk new size lo).Safe ↔ r.Clear ⟨lo, size⟩ := by
  rw [h.addBlk_iff hnew hunused, and_iff_right hin]
  refine ⟨fun hall i hi _ => hall i hi, fun hclear i hi x hx => ?_⟩
  by_cases hm : i ∈ r.blkList
  · have hcases := hlist (r.area i) (List.mem_map_of_mem hm)
    unfold Precedes at hcases
    unfold Has at hx ⊢
    dsimp only at hx hcases
    omega
  · exact hclear i hi hm x hx

/-- The order of the ring with a new block. -/
theorem addBlk_map_area (hfresh : new ∉ r.blkList) :
    (r.addBlk new size lo).blkList.map (r.addBlk new size lo).area = r.blkList.map r.area ++ [⟨lo, size⟩] := by
  show (r.blkList ++ [new]).map (r.addBlk new size lo).area = _
  rw [List.map_append, addBlk_area, List.map_singleton, Function.update_self]
  refine congrArg (· ++ _) (List.map_congr_left fun i hi => ?_)
  exact Function.update_of_ne (ne_of_mem_of_not_mem hi hfresh) _ _

theorem Inv.addBlk (h : r.Inv) (hnew : new < r.blkMaxNum) (hunused : (r.blkSet new).status = .unused)
    (hsize : size < 2 ^ 24) (hsafe : (r.addBlk new size lo).Safe)
    (hring : RingOrder (r.blkList.map r.area ++ [⟨lo, size⟩])) : (r.addBlk new size lo).Inv where
  object := h.object
  listed := h.listed.addBlk hunused hsize lo
  bounded := by
    intro i hi
    rcases List.mem_append.mp hi with hi | hi
    · exact h.bounded i hi
    · exact List.mem_singleton.mp hi ▸ hnew
  ring := by
    rw [addBlk_map_area fun hm => h.listed.inUse new hm hunused]
    exact hring
  safe := hsafe

/-- With a block left the list is shorter than the array. -/
theorem Inv.length_lt (h : r.Inv) (hnew : new < r.blkMaxNum) (hunused : (r.blkSet new).status = .unused) :
    r.blkList.length < r.blkMaxNum := by
  have hnd : (new :: r.blkList).Nodup := List.nodup_cons.mpr ⟨fun hm => h.listed.inUse new hm hunused, h.listed.nodup⟩
  have hsub : new :: r.blkList ⊆ List.range r.blkMaxNum := by
    intro i hi
    rcases List.mem_cons.mp hi with rfl | hi
    · exact List.mem_range.mpr hnew
    · exact List.mem_range.mpr (h.bounded i hi)
  have hle := (hnd.subperm hsub).length_le
  rwa [List.length_range, List.length_cons] at hle

/-- **Where a block has been placed**: memory is safe after it exactly when there was room, and then the blocks on the list
are in the order of the ring. -/
theorem Inv.placed (h : r.Inv) (hnew : new < r.blkMaxNum) (hunused : (r.blkSet new).status = .unused)
    (hplace : r.place size = some lo) : ((r.addBlk new size lo).Safe ↔ r.Room size) ∧
      (r.NotFlush (.alloc size) → RingOrder (r.blkList.map r.area ++ [⟨lo, size⟩])) := by
  cases hlist : r.blkList.head? with
  | none =>
    have hnil : r.blkList = [] := List.head?_eq_none_iff.mp hlist
    obtain rfl : r.buf = lo := by
      unfold place at hplace
      rw [hnil] at hplace
      exact Option.some.inj hplace
    have hroom : r.Room size ↔ size ≤ r.bufSize ∧ r.Clear ⟨r.buf, size⟩ := by
      refine ⟨fun hr => hr.empty hnil, fun hr => ⟨fun _ => hr, ?_, ?_⟩⟩
      · intro head hhead
        rw [hlist] at hhead
        cases hhead
      · intro head hhead
        rw [hlist] at hhead
        cases hhead
    constructor
    · rw [hroom]
      by_cases hle : size ≤ r.bufSize
      · rw [h.safe.addBlk_iff_clear hnew hunused ⟨Nat.le_refl _, by omega⟩ (by rw [hnil]; exact nofun), and_iff_right hle]
      · refine iff_of_false (fun hs => ?_) fun hr => hle hr.1
        have hin := ((h.safe.addBlk_iff hnew hunused).mp hs).1.2
        omega
    · intro _
      rw [hnil]
      exact .of_ascending (List.pairwise_singleton _ _)
  | some head =>
    have hhead : head ∈ r.blkList.head? := hlist
    obtain ⟨tail, htail⟩ : ∃ tail, tail ∈ r.blkList.getLast? := by
      cases hlast : r.blkList.getLast? with
      | none =>
        rw [List.getLast?_eq_none_iff.mp hlast] at hhead
        cases hhead
      | some tail => exact ⟨tail, rfl⟩
    have hhi : ∀ e ∈ r.blkList.map r.area, e.start + e.size ≤ r.buf + r.bufSize := fun e he => (h.inside e he).2
    obtain ⟨hlow, -⟩ := h.safe.inside tail (h.used (List.mem_of_mem_getLast? htail))
    obtain ⟨hlow', hhigh'⟩ := h.safe.inside head (h.used (List.mem_of_mem_head? hhead))
    rw [h.place_eq hhead htail] at hplace
    by_cases hfits : size ≤ r.gap head tail
    · -- behind the last block
      rw [if_pos hfits] at hplace
      obtain rfl := Option.some.inj hplace
      obtain ⟨happ, hend, hring⟩ := h.ring.append_behind (n := ⟨(r.area tail).start + (r.area tail).size, size⟩)
        (map_head hhead) (map_getLast htail) hhi rfl hfits
      rw [room_iff_behind hhead htail hfits]
      refine ⟨h.safe.addBlk_iff_clear hnew hunused ⟨by omega, hend⟩ happ, fun hflush => hring fun hzero => ?_⟩
      exact hflush hzero head hhead tail htail
    · rw [if_neg hfits] at hplace
      by_cases hfront : (r.area head).start ≤ (r.area tail).start ∧ size ≤ (r.area head).start - r.buf
      · -- in front of the first block
        rw [if_pos hfront] at hplace
        obtain rfl := Option.some.inj hplace
        obtain ⟨happ, hring⟩ := h.ring.append_front (n := ⟨r.buf, size⟩) (map_head hhead) (map_getLast htail) hfront.1
          (by dsimp only; omega) (by dsimp only; omega)
        rw [room_iff_front hhead htail hfits]
        refine ⟨?_, fun _ => hring⟩
        rw [h.safe.addBlk_iff_clear hnew hunused ⟨Nat.le_refl _, by omega⟩ fun e he => Or.inr (happ e he)]
        exact ⟨fun hc _ => hc, fun hc => hc hfront⟩
      · rw [if_neg hfront] at hplace
        cases hplace

/-- **The call that allocates**: memory is safe after it exactly when the condition holds. -/
theorem Inv.alloc (h : r.Inv) {o : Option ℕ} (hr : r.rtRbbBlkAlloc size = some (o, r')) :
    (r'.Safe ↔ r.StepSafe (.alloc size)) ∧ (r.StepSafe (.alloc size) → r.NotFlush (.alloc size) → r'.Inv) := by
  unfold rtRbbBlkAlloc at hr
  by_cases hsize : size < 2 ^ 24
  · rw [if_pos hsize] at hr
    cases hfind : r.findEmptyBlkInSet with
    | none =>
      rw [hfind] at hr
      cases hr
      have hnone : ¬∃ i < r.blkMaxNum, (r.blkSet i).status = .unused := by
        rintro ⟨i, hi, hunused⟩
        have hnot := List.find?_eq_none.mp hfind i (List.mem_range.mpr hi)
        exact hnot (decide_eq_true hunused)
      exact ⟨iff_of_true h.safe fun hex => absurd hex hnone, fun _ _ => h⟩
    | some new =>
      have hunused : (r.blkSet new).status = .unused := by simpa using List.find?_some hfind
      have hnew : new < r.blkMaxNum := List.mem_range.mp (List.mem_of_find?_eq_some hfind)
      have hroom : r.StepSafe (.alloc size) ↔ r.Room size := ⟨fun hs => hs ⟨new, hnew, hunused⟩, fun hs _ => hs⟩
      rw [hfind] at hr
      dsimp only at hr
      rw [if_pos (h.length_lt hnew hunused)] at hr
      rw [hroom]
      cases hplace : r.place size with
      | none =>
        rw [hplace] at hr
        cases hr
        refine ⟨iff_of_true h.safe ?_, fun _ _ => h⟩
        cases hlist : r.blkList.head? with
        | none =>
          unfold place at hplace
          rw [hlist] at hplace
          cases hplace
        | some head =>
          have hhead : head ∈ r.blkList.head? := hlist
          cases hlast : r.blkList.getLast? with
          | none =>
            rw [List.getLast?_eq_none_iff.mp hlast] at hhead
            cases hhead
          | some tail =>
            rw [h.place_eq hhead hlast] at hplace
            by_cases hfits : size ≤ r.gap head tail
            · rw [if_pos hfits] at hplace
              cases hplace
            · rw [if_neg hfits] at hplace
              refine (room_iff_front hhead hlast hfits).mpr fun hfront => ?_
              rw [if_pos hfront] at hplace
              cases hplace
      | some lo =>
        rw [hplace] at hr
        cases hr
        obtain ⟨hsafe, hring⟩ := h.placed hnew hunused hplace
        exact ⟨hsafe, fun hr hflush => h.addBlk hnew hunused hsize (hsafe.mpr hr) (hring hflush)⟩
  · rw [if_neg hsize] at hr
    cases hr

/-! ## Runs -/

/-- **Every call**: memory is safe after it exactly when the condition holds. -/
theorem Inv.step (h : r.Inv) (hs : Step r c r') :
    (r'.Safe ↔ r.StepSafe c) ∧ (r.StepSafe c → r.NotFlush c → r'.Inv) := by
  have hlisted := h.listed.exec hs.2
  cases c with
  | alloc size =>
    obtain ⟨⟨o, r₁⟩, halloc, rfl⟩ := Option.map_eq_some_iff.mp hs.2
    exact h.alloc halloc
  | _ =>
    have hshrinks : Shrinks r r' := by
      refine Shrinks.exec ?_ hs.2
      exact fun _ => nofun
    exact ⟨iff_of_true (hshrinks.safe h.safe) trivial, fun _ _ => hshrinks.inv h hlisted⟩

theorem not_used_init (buf bufSize : ℕ) (blockSet : ℕ → RbbBlk) (blkMaxNum i : ℕ) :
    ¬(rtRbbInit buf bufSize blockSet blkMaxNum).Used i := by
  rintro ⟨hi, hst⟩
  have hi : i < blkMaxNum := hi
  change (if i < blkMaxNum then { blockSet i with status := .unused } else blockSet i).status ≠ .unused at hst
  rw [if_pos hi] at hst
  exact hst rfl

theorem Inv.init {buf bufSize : ℕ} (hbuf : buf + bufSize < 2 ^ 32) (blockSet : ℕ → RbbBlk) (blkMaxNum : ℕ) :
    (rtRbbInit buf bufSize blockSet blkMaxNum).Inv where
  object := hbuf
  listed := ⟨.nil, nofun, nofun⟩
  bounded := nofun
  ring := .of_ascending .nil
  safe := ⟨fun i hi => absurd hi (not_used_init _ _ _ _ i), fun i _ hi => absurd hi (not_used_init _ _ _ _ i)⟩

/-- **Every block in use has memory of its own**, in every state that is reached by calls for which there is room; and a
call keeps this exactly when there is room. -/
theorem ringblk_safe {buf bufSize blkMaxNum : ℕ} {blockSet : ℕ → RbbBlk} {cs : List RbbCall}
    (hbuf : buf + bufSize < 2 ^ 32)
    (hrun : Run (Guarded (fun r c => r.StepSafe c ∧ r.NotFlush c) Step) (rtRbbInit buf bufSize blockSet blkMaxNum) cs r) :
    r.Safe ∧ ∀ c r', Step r c r' → (r'.Safe ↔ r.StepSafe c) := by
  have h : r.Inv := hrun.guarded (Inv.init hbuf blockSet blkMaxNum) fun _ _ _ h hG hs => (h.step hs).2 hG.1 hG.2
  exact ⟨h.safe, fun c r' hs => (h.step hs).1⟩

/-- The whole buffer is allocated as one block. -/
theorem ringblk_safe_whole : ∃ r, Step (rtRbbInit 4096 64 (fun _ => ⟨.unused, 0, 0⟩) 3) (.alloc 64) r ∧ r.Safe := by
  let r₀ := rtRbbInit 4096 64 (fun _ => ⟨.unused, 0, 0⟩) 3
  have hstep : Step r₀ (.alloc 64) (r₀.addBlk 0 64 4096) := ⟨by decide, rfl⟩
  have hunused : ∀ i, ¬r₀.Used i := not_used_init 4096 64 _ 3
  have hroom : r₀.StepSafe (.alloc 64) := fun _ => ⟨fun _ => ⟨by decide, fun i hi => absurd hi (hunused i)⟩, nofun, nofun⟩
  exact ⟨_, hstep, (ringblk_safe (by decide) (Run.single ⟨⟨hroom, fun hzero => nomatch hzero⟩, hstep⟩)).1⟩

/-- A block of 32 bytes in a buffer of 16. -/
theorem ringblk_safe_large : ¬∀ (buf bufSize : ℕ) (blockSet : ℕ → RbbBlk) (blkMaxNum : ℕ) (cs : List RbbCall) (r : Rbb),
    buf + bufSize < 2 ^ 32 → Run Step (rtRbbInit buf bufSize blockSet blkMaxNum) cs r → r.Safe := by
  intro hall
  have hrun := run_of_exec (rtRbbInit 4096 16 (fun _ => ⟨.unused, 0, 0⟩) 2) [.alloc 32] (by decide)
  have hin := ((hall 4096 16 _ 2 _ _ (by decide) hrun).inside 0 ⟨by decide, by decide⟩).2
  revert hin
  decide

end CoreLink.RtThread.Rbb
