/-
# `CoreLink.RtThread.FinshLiterals` — the string literals of a command line, `finsh_node_new_string` of `finsh_node.c`.

The parser copies each string literal to the shell's heap, and only the syntax tree has the pointer. If there is no room for
a literal the heap is collected, and the roots are the variables: the literals that come before it on the line are freed,
though they are used when the line is executed (`finsh_literals`).
-/
import CoreLink.RtThread.FinshHeapTiles

namespace CoreLink.RtThread.FinshHeap

open CoreLink.Lib Tile

/-! ## The function -/

/-- `strncpy` of a literal to its block, with the 0 behind it. -/
def copyString (bytes : ℕ → UInt8) (ptr : ℕ) (lit : List UInt8) (x : ℕ) : UInt8 :=
  if ptr ≤ x ∧ x < ptr + (lit ++ [0]).length then (lit ++ [0]).getD (x - ptr) 0 else bytes x

/-- What `finsh_node_new_string` does with the heap, and the pointer that it stores in the node. If there is no memory it
copies to `NULL`, which is a fault. -/
def finshNodeNewString (s : FinshHeap) (vars : List HeapVar) (lit : List UInt8) : Option (FinshHeap × ℕ) :=
  (s.finshHeapAllocate vars (lit.length + 1)).bind fun r =>
    r.2.map fun ptr => ({ r.1 with bytes := copyString r.1.bytes ptr lit }, ptr)

/-- The literals of a line, one after the other, each with the variables at that time: the pointers. -/
def newStrings : FinshHeap → List (List HeapVar × List UInt8) → Option (FinshHeap × List ℕ)
  | s, [] => some (s, [])
  | s, (vars, lit) :: lits =>
    (s.finshNodeNewString vars lit).bind fun r => (newStrings r.1 lits).map fun r' => (r'.1, r.2 :: r'.2)

/-! ## What is promised -/

/-- The pointer is the one to a block that has the bytes of the literal and a 0. -/
def Holds (s : FinshHeap) (ptr : ℕ) (lit : List UInt8) : Prop :=
  s.Live ptr ∧ lit.length + 1 ≤ s.length (ptr - blockHeaderSize) ∧
    ∀ i, i < (lit ++ [0]).length → s.bytes (ptr + i) = (lit ++ [0]).getD i 0

/-- The blocks of two pointers have no byte in common. -/
def BlocksApart (s : FinshHeap) (p q : ℕ) : Prop :=
  p + s.length (p - blockHeaderSize) ≤ q ∨ q + s.length (q - blockHeaderSize) ≤ p

/-- **The literals are valid**: each pointer is the one to a block with the bytes, and no two blocks overlap. -/
def Valid (s : FinshHeap) (ptrs : List ℕ) (lits : List (List UInt8)) : Prop :=
  List.Forall₂ s.Holds ptrs lits ∧ ptrs.Pairwise s.BlocksApart

/-- There is room for a literal, if need be after a collection, which frees none of the ones before it: a variable points at
each of them. -/
def KeepsLiterals (s : FinshHeap) (ptrs : List ℕ) (vars : List HeapVar) (lit : List UInt8) : Prop :=
  s.RoomNow (lit.length + 1) ∨
    (∀ ptr ∈ ptrs, Referenced vars (ptr - blockHeaderSize)) ∧ s.RoomAfterGc vars (lit.length + 1)

/-- **The condition**, for each literal of the line, with the pointers to the ones before it. -/
def LiteralsKept : FinshHeap → List ℕ → List (List HeapVar × List UInt8) → Prop
  | _, _, [] => True
  | s, ptrs, (vars, lit) :: lits =>
    s.KeepsLiterals ptrs vars lit ∧ ∀ s' ptr, s.finshNodeNewString vars lit = some (s', ptr) → LiteralsKept s' (ptrs ++ [ptr]) lits

variable {s s' : FinshHeap} {ts ts' : List Tile} {t u : Tile} {vars : List HeapVar} {lit : List UInt8} {ptr : ℕ}

/-! ## One literal -/

/-- A block that is in use in two states, and not written in between, holds what it has held. -/
theorem Rep.holds_of_used (h' : s'.Rep ts') (ht' : t ∈ used ts') (hsize : lit.length + 1 ≤ t.length)
    (hbytes : ∀ i, i < (lit ++ [0]).length → s'.bytes (t.start + blockHeaderSize + i) = (lit ++ [0]).getD i 0) :
    s'.Holds (t.start + blockHeaderSize) lit := by
  refine ⟨h'.live_iff.mpr ⟨t, ht', rfl⟩, ?_, hbytes⟩
  rw [Nat.add_sub_cancel, h'.length t (mem_used.mp ht').1]
  exact hsize

/-- What a pointer that holds a literal points at. -/
theorem Rep.holds_iff (h : s.Rep ts) : s.Holds ptr lit ↔ ∃ t ∈ used ts, ptr = t.start + blockHeaderSize ∧
    lit.length + 1 ≤ t.length ∧
      ∀ i, i < (lit ++ [0]).length → s.bytes (t.start + blockHeaderSize + i) = (lit ++ [0]).getD i 0 := by
  constructor
  · rintro ⟨hlive, hsize, hbytes⟩
    obtain ⟨t, ht, rfl⟩ := h.live_iff.mp hlive
    rw [Nat.add_sub_cancel, h.length t (mem_used.mp ht).1] at hsize
    exact ⟨t, ht, rfl, hsize, hbytes⟩
  · rintro ⟨t, ht, rfl, hsize, hbytes⟩
    exact h.holds_of_used ht hsize hbytes

/-- **A new literal**: with room for it there is a new block, which holds it, and the bytes of the other blocks in use are as
they were; without room there is a fault. -/
theorem Rep.newString (h : s.Rep ts) (hshort : lit.length + 12 < 2 ^ 32) (vars : List HeapVar) :
    ∃ kept, s.Kept ts vars (lit.length + 1) kept ∧
      (¬s.RoomNow (lit.length + 1) ∧ ¬s.RoomAfterGc vars (lit.length + 1) ∧ s.finshNodeNewString vars lit = none ∨
        ∃ s' ts' xs ys t, (s.RoomNow (lit.length + 1) ∨ s.RoomAfterGc vars (lit.length + 1)) ∧
          s.finshNodeNewString vars lit = some (s', t.start + blockHeaderSize) ∧ s'.Rep ts' ∧ kept = xs ++ ys ∧
          used ts' = xs ++ t :: ys ∧ s'.Holds (t.start + blockHeaderSize) lit ∧
          ∀ u ∈ kept, ∀ i, i < u.length → s'.bytes (u.start + blockHeaderSize + i) = s.bytes (u.start + blockHeaderSize + i)) := by
  obtain ⟨s₁, result, ts₁, kept, hexec, hrep, hkept, hresult⟩ := h.allocate (show lit.length + 1 + 11 < 2 ^ 32 by omega) vars
  refine ⟨kept, hkept, ?_⟩
  unfold finshNodeNewString
  rw [hexec, Option.bind_some]
  rcases hresult with ⟨rfl, hnow, hafter, -⟩ | ⟨a, xs, ys, rfl, hroom, hsplit, hused, hbytes⟩
  · exact Or.inl ⟨hnow, hafter, rfl⟩
  · refine Or.inr ?_
    have ht : (⟨a, heapAlignSize (lit.length + 1), false⟩ : Tile) ∈ used ts₁ := by
      rw [hused]
      exact List.mem_append_right xs List.mem_cons_self
    have hsize := (heapAlignSize_spec (show lit.length + 1 + 11 < 2 ^ 32 by omega)).1
    have hrep' : Rep { s₁ with bytes := copyString s₁.bytes (a + blockHeaderSize) lit } ts₁ :=
      ⟨⟨hrep.tiled, hrep.length, hrep.freeList, hrep.allocateList, hrep.last⟩, hrep.coalesced⟩
    refine ⟨_, ts₁, xs, ys, ⟨a, heapAlignSize (lit.length + 1), false⟩, hroom, rfl, hrep', hsplit, hused, ?_, ?_⟩
    · refine hrep'.holds_of_used ht hsize fun i hi => ?_
      show copyString s₁.bytes (a + blockHeaderSize) lit (a + blockHeaderSize + i) = _
      unfold copyString
      rw [if_pos ⟨Nat.le_add_right _ _, Nat.add_lt_add_left hi _⟩, Nat.add_sub_cancel_left]
    · intro u hu i hi
      have hstarts := starts_sublist hrep.tiled (used_sublist ts₁)
      rw [hused, starts_append, starts_cons] at hstarts
      have hnew : a ∉ starts xs ++ starts ys := (List.nodup_cons.mp (List.nodup_middle.mp (hstarts.imp Nat.ne_of_lt))).1
      rw [hsplit] at hu
      have hum : u ∈ used ts₁ := by
        rw [hused]
        exact (List.Sublist.append (List.Sublist.refl xs) (List.sublist_cons_self _ ys)).subset hu
      have hout : ¬(a + blockHeaderSize ≤ u.start + blockHeaderSize + i ∧
          u.start + blockHeaderSize + i < a + blockHeaderSize + heapAlignSize (lit.length + 1)) := by
        rintro ⟨hle, hlt⟩
        have hsame := hrep.tiled.eq_of_covers (mem_used.mp hum).1 (mem_used.mp ht).1
          (x := u.start + blockHeaderSize + i) ⟨by omega, by omega⟩ ⟨by dsimp only; omega, hlt⟩
        refine hnew ?_
        rw [← starts_append]
        exact mem_starts.mpr ⟨u, hu, congrArg Tile.start hsame⟩
      show copyString s₁.bytes (a + blockHeaderSize) lit (u.start + blockHeaderSize + i) = _
      unfold copyString
      rw [if_neg fun hin => hout ⟨hin.1, Nat.lt_of_lt_of_le hin.2 ?_⟩, hbytes]
      · exact if_neg hout
      · rw [List.length_append, List.length_singleton]
        omega

/-! ## The literals of a line -/

/-- What is in use after the literals of a line was in use before, or is a literal of the line. -/
theorem Rep.newStrings_used (h : s.Rep ts) {lits : List (List HeapVar × List UInt8)}
    (hshort : ∀ l ∈ lits, l.2.length + 12 < 2 ^ 32) {ptrs : List ℕ} (hexec : s.newStrings lits = some (s', ptrs)) :
    ∃ ts', s'.Rep ts' ∧ ∀ t ∈ used ts', t ∈ used ts ∨ t.start + blockHeaderSize ∈ ptrs := by
  induction lits generalizing s ts ptrs with
  | nil =>
    obtain ⟨rfl, rfl⟩ := Prod.mk.inj (Option.some.inj hexec)
    exact ⟨ts, h, fun t ht => Or.inl ht⟩
  | cons l lits ih =>
    obtain ⟨hl, hlits⟩ := List.forall_mem_cons.mp hshort
    obtain ⟨vars, lit⟩ := l
    obtain ⟨r, hr, hrest⟩ := Option.bind_eq_some_iff.mp hexec
    obtain ⟨r', hr', heq⟩ := Option.map_eq_some_iff.mp hrest
    obtain ⟨rfl, rfl⟩ := Prod.mk.inj heq
    obtain ⟨kept, hkept, ⟨-, -, hnone⟩ | ⟨s₁, ts₁, xs, ys, t, -, hnew, hrep, hsplit, hused, -⟩⟩ := h.newString hl vars
    · rw [hnone] at hr
      cases hr
    · obtain rfl := Option.some.inj (hnew.symm.trans hr)
      obtain ⟨ts', hrep', hall⟩ := ih hrep hlits hr'
      refine ⟨ts', hrep', fun u hu => ?_⟩
      rcases hall u hu with hu | hu
      · rw [hused, List.mem_append, List.mem_cons, or_left_comm, ← List.mem_append, ← hsplit] at hu
        rcases hu with rfl | hu
        · exact Or.inr List.mem_cons_self
        · rcases hkept with ⟨-, rfl⟩ | ⟨-, rfl⟩
          · exact Or.inl hu
          · exact Or.inl (List.mem_of_mem_filter hu)
      · exact Or.inr (List.mem_cons_of_mem _ hu)

/-- Blocks of different pointers have no byte in common. -/
theorem Rep.apart_iff (h : s.Rep ts) {p q : ℕ} (hp : ∃ lit, s.Holds p lit) (hq : ∃ lit, s.Holds q lit) :
    s.BlocksApart p q ↔ p ≠ q := by
  obtain ⟨lit, hp⟩ := hp
  obtain ⟨lit', hq⟩ := hq
  have hppos := hp.2.1
  have hqpos := hq.2.1
  obtain ⟨t, ht, rfl, -, -⟩ := h.holds_iff.mp hp
  obtain ⟨u, hu, rfl, -, -⟩ := h.holds_iff.mp hq
  unfold BlocksApart
  constructor
  · rintro hapart heq
    rw [heq] at hapart
    omega
  · intro hne
    rw [Nat.add_sub_cancel, Nat.add_sub_cancel, h.length t (mem_used.mp ht).1, h.length u (mem_used.mp hu).1]
    rw [Nat.add_sub_cancel, h.length t (mem_used.mp ht).1] at hppos
    rw [Nat.add_sub_cancel, h.length u (mem_used.mp hu).1] at hqpos
    by_contra hnot
    -- the larger of the two addresses is in both of them
    have hsame := h.tiled.eq_of_covers (mem_used.mp ht).1 (mem_used.mp hu).1
      (x := max t.start u.start + blockHeaderSize) (by omega) (by omega)
    exact hne (congrArg (fun v => v.start + blockHeaderSize) hsame)

/-- The literals are valid if they are held, by different blocks. -/
theorem Rep.valid_iff (h : s.Rep ts) {ptrs : List ℕ} {lits : List (List UInt8)} :
    s.Valid ptrs lits ↔ List.Forall₂ s.Holds ptrs lits ∧ ptrs.Nodup := by
  refine and_congr_right fun hheld => ?_
  have hholds : ∀ p ∈ ptrs, ∃ lit, s.Holds p lit := fun p hp => by
    obtain ⟨i, hi, rfl⟩ := List.getElem_of_mem hp
    exact ⟨_, hheld.get hi (hheld.length_eq ▸ hi)⟩
  constructor
  · exact fun hapart => hapart.imp_of_mem fun hp hq hpq => (h.apart_iff (hholds _ hp) (hholds _ hq)).mp hpq
  · exact fun hnd => hnd.imp_of_mem fun hp hq hpq => (h.apart_iff (hholds _ hp) (hholds _ hq)).mpr hpq

/-- **One literal more**: the ones before it stay valid if they are kept. -/
theorem Rep.valid_step (h : s.Rep ts) {ptrs : List ℕ} {lits : List (List UInt8)} (hvalid : s.Valid ptrs lits)
    {kept xs ys : List Tile} (hkept : s.Kept ts vars (lit.length + 1) kept) (hok : s.KeepsLiterals ptrs vars lit)
    (h' : s'.Rep ts') (hsplit : kept = xs ++ ys) (hused : used ts' = xs ++ t :: ys)
    (hnew : s'.Holds (t.start + blockHeaderSize) lit) (hbytes : ∀ u ∈ kept, ∀ i, i < u.length →
      s'.bytes (u.start + blockHeaderSize + i) = s.bytes (u.start + blockHeaderSize + i)) :
    s'.Valid (ptrs ++ [t.start + blockHeaderSize]) (lits ++ [lit]) := by
  obtain ⟨hheld, hnd⟩ := h.valid_iff.mp hvalid
  -- the blocks of the literals before are among those that are kept
  have hmem : ∀ u ∈ used ts, u.start + blockHeaderSize ∈ ptrs → u ∈ kept := by
    intro u hu hptr
    rcases hkept with ⟨-, rfl⟩ | ⟨hno, rfl⟩
    · exact hu
    · obtain ⟨hall, -⟩ := hok.resolve_left hno
      have href := hall _ hptr
      rw [Nat.add_sub_cancel] at href
      exact List.mem_filter.mpr ⟨hu, decide_eq_true href⟩
  have hin : ∀ u ∈ kept, u ∈ used ts' := fun u hu => by
    rw [hsplit] at hu
    rw [hused]
    exact (List.Sublist.append (List.Sublist.refl xs) (List.sublist_cons_self _ ys)).subset hu
  have hstill : ∀ p ∈ ptrs, ∀ l, s.Holds p l → s'.Holds p l ∧ p ≠ t.start + blockHeaderSize := by
    intro p hp l hholds
    obtain ⟨u, hu, rfl, hsize, hsame⟩ := h.holds_iff.mp hholds
    have huk := hmem u hu hp
    refine ⟨h'.holds_of_used (hin u huk) hsize fun i hi => ?_, fun heq => ?_⟩
    · rw [hbytes u huk i (Nat.lt_of_lt_of_le hi (by rw [List.length_append, List.length_singleton]; exact hsize))]
      exact hsame i hi
    · have hstarts := starts_sublist h'.tiled (used_sublist ts')
      rw [hused, starts_append, starts_cons] at hstarts
      refine (List.nodup_cons.mp (List.nodup_middle.mp (hstarts.imp Nat.ne_of_lt))).1 ?_
      rw [← starts_append, ← hsplit]
      exact mem_starts.mpr ⟨u, huk, Nat.add_right_cancel heq⟩
  have hholds : ∀ p ∈ ptrs, ∃ l, s.Holds p l := fun p hp => by
    obtain ⟨i, hi, rfl⟩ := List.getElem_of_mem hp
    exact ⟨_, hheld.get hi (hheld.length_eq ▸ hi)⟩
  refine h'.valid_iff.mpr ⟨?_, ?_⟩
  · refine List.rel_append ?_ (.cons hnew .nil)
    have hboth := (List.forall₂_and_left ptrs lits).mpr ⟨fun p hp => hp, hheld⟩
    exact hboth.imp fun p l hpl => (hstill p hpl.1 l hpl.2).1
  · refine List.nodup_append.mpr ⟨hnd, List.nodup_singleton _, fun p hp q hq => ?_⟩
    obtain ⟨l, hpl⟩ := hholds p hp
    rw [List.mem_singleton.mp hq]
    exact (hstill p hp l hpl).2

/-- **The literals of a line, after others**: all of them are valid at the end exactly if they are kept all along. -/
theorem Rep.newStrings_valid_iff (h : s.Rep ts) {lits : List (List HeapVar × List UInt8)}
    (hshort : ∀ l ∈ lits, l.2.length + 12 < 2 ^ 32) {ptrs : List ℕ} {before : List (List UInt8)}
    (hvalid : s.Valid ptrs before) :
    (∃ s' ptrs', s.newStrings lits = some (s', ptrs') ∧ s'.Valid (ptrs ++ ptrs') (before ++ lits.map Prod.snd)) ↔
      s.LiteralsKept ptrs lits := by
  induction lits generalizing s ts ptrs before with
  | nil =>
    refine iff_of_true ⟨s, [], rfl, ?_⟩ trivial
    rw [List.append_nil, List.map_nil, List.append_nil]
    exact hvalid
  | cons l lits ih =>
    obtain ⟨hl, hlits⟩ := List.forall_mem_cons.mp hshort
    obtain ⟨vars, lit⟩ := l
    obtain ⟨kept, hkept, ⟨hnow, hafter, hnone⟩ | ⟨s₁, ts₁, xs, ys, t, hroom, hnew, hrep, hsplit, hused, hheld, hbytes⟩⟩ :=
      h.newString hl vars
    · -- no memory
      refine iff_of_false ?_ fun hall => ?_
      · rintro ⟨s', ptrs', hexec, -⟩
        unfold newStrings at hexec
        rw [hnone] at hexec
        cases hexec
      · rcases hall.1 with hroom | ⟨-, hroom⟩
        · exact hnow hroom
        · exact hafter hroom
    · have hexec : s.newStrings ((vars, lit) :: lits) =
          (s₁.newStrings lits).map fun r => (r.1, (t.start + blockHeaderSize) :: r.2) := by
        conv_lhs => unfold newStrings
        rw [hnew]
        rfl
      have hstep := fun hok => h.valid_step hvalid hkept hok hrep hsplit hused hheld hbytes
      have happend : ∀ ptrs' : List ℕ, ptrs ++ (t.start + blockHeaderSize) :: ptrs' =
          ptrs ++ [t.start + blockHeaderSize] ++ ptrs' := fun ptrs' => List.append_cons ..
      have hmap : before ++ ((vars, lit) :: lits).map Prod.snd = before ++ [lit] ++ lits.map Prod.snd :=
        List.append_cons ..
      constructor
      · rintro ⟨s', ptrs', hrun, hend⟩
        rw [hexec] at hrun
        obtain ⟨r, hrest, heq⟩ := Option.map_eq_some_iff.mp hrun
        obtain ⟨rfl, rfl⟩ := Prod.mk.inj heq
        obtain ⟨ts', hrep', hfrom⟩ := hrep.newStrings_used hlits hrest
        obtain ⟨hallheld, hnd⟩ := hrep'.valid_iff.mp hend
        have hok : s.KeepsLiterals ptrs vars lit := by
          by_cases hnow : s.RoomNow (lit.length + 1)
          · exact Or.inl hnow
          · refine Or.inr ⟨fun p hp => ?_, hroom.resolve_left hnow⟩
            have hpm : p ∈ ptrs ++ (t.start + blockHeaderSize) :: r.2 := List.mem_append_left _ hp
            obtain ⟨i, hi, hpi⟩ := List.getElem_of_mem hpm
            have hholds := hallheld.get hi (hallheld.length_eq ▸ hi)
            obtain ⟨u, hu, heq, -⟩ := hrep'.holds_iff.mp hholds
            rw [List.get_eq_getElem, hpi] at heq
            have hlater : p ∉ (t.start + blockHeaderSize) :: r.2 := fun hm => (List.nodup_append.mp hnd).2.2 p hp p hm rfl
            rw [heq, List.mem_cons, not_or] at hlater
            have huk : u ∈ kept := by
              have hm := (hfrom u hu).resolve_right hlater.2
              rw [hused, List.mem_append, List.mem_cons, or_left_comm, ← List.mem_append, ← hsplit] at hm
              refine hm.resolve_left ?_
              rintro rfl
              exact hlater.1 rfl
            rcases hkept with ⟨hyes, -⟩ | ⟨-, rfl⟩
            · exact absurd hyes hnow
            · rw [heq, Nat.add_sub_cancel]
              exact of_decide_eq_true (List.mem_filter.mp huk).2
        refine ⟨hok, fun s'' ptr hagain => ?_⟩
        obtain ⟨rfl, rfl⟩ := Prod.mk.inj (Option.some.inj (hnew.symm.trans hagain))
        refine (ih hrep hlits (hstep hok)).mp ⟨r.1, r.2, hrest, ?_⟩
        rw [← happend, ← hmap]
        exact hend
      · rintro ⟨hok, hall⟩
        obtain ⟨s', ptrs', hrest, hend⟩ := (ih hrep hlits (hstep hok)).mpr (hall _ _ hnew)
        refine ⟨s', _, by rw [hexec, hrest]; rfl, ?_⟩
        rw [happend, hmap]
        exact hend

/-- **The string literals of a command line**, in every heap that is reached: when the line is executed they are valid, exactly
if there is room for each of them, and a collection on the way frees none of those before it. -/
theorem finsh_literals {ls : List (HeapCall × Option ℕ)} (h : Run (Guarded (fun _ l => SizeOk l.1) Step) init ls s)
    (lits : List (List HeapVar × List UInt8)) (hshort : ∀ l ∈ lits, l.2.length + 12 < 2 ^ 32) :
    (∃ s' ptrs, s.newStrings lits = some (s', ptrs) ∧ s'.Valid ptrs (lits.map Prod.snd)) ↔ s.LiteralsKept [] lits := by
  obtain ⟨ts, hrep⟩ := rep_of_run h
  have hnil : s.Valid [] [] := ⟨.nil, .nil⟩
  exact hrep.newStrings_valid_iff hshort hnil

/-- One literal in the heap as it is at the beginning. -/
theorem finsh_literals_one : ∃ s' ptrs, init.newStrings [([], [65])] = some (s', ptrs) ∧ s'.Valid ptrs [[65]] := by
  refine (finsh_literals .nil [([], [65])] (by decide)).mpr ⟨Or.inl ?_, fun _ _ _ => trivial⟩
  exact ⟨[0], ⟨rfl, rfl⟩, 0, List.mem_singleton_self 0, by decide⟩

/-- The heap after a line with a literal of 60 bytes. -/
def oldLine : Option FinshHeap := (init.exec (.allocate 61 [])).map Prod.fst

/-- Two literals of 20 bytes. -/
def twoLiterals : List (List HeapVar × List UInt8) := [([], List.replicate 20 97), ([], List.replicate 20 98)]

/-- Their pointers, and the first two blocks of the list of allocated ones afterwards. -/
def literalBlocks (s : FinshHeap) : Option (List ℕ × Option ℕ × Option ℕ) :=
  (s.newStrings twoLiterals).map fun r => (r.2, r.1.allocateList, r.1.allocateList.bind r.1.next)

/-- The second one has the heap collected, and the first one is gone. -/
theorem finsh_literals_lost : ¬ ∀ (ls : List (HeapCall × Option ℕ)) (s : FinshHeap), Run Step init ls s →
    ∀ lits : List (List HeapVar × List UInt8), (∀ l ∈ lits, l.2.length + 12 < 2 ^ 32) →
      ∃ s' ptrs, s.newStrings lits = some (s', ptrs) ∧ s'.Valid ptrs (lits.map Prod.snd) := by
  intro hall
  have hblocks : oldLine.bind literalBlocks = some ([80, 8], some 0, none) := by decide
  obtain ⟨s, hold, hblocks⟩ := Option.bind_eq_some_iff.mp hblocks
  obtain ⟨⟨s₁, result⟩, hexec, rfl⟩ := Option.map_eq_some_iff.mp hold
  obtain ⟨⟨s', ptrs⟩, hnew, heq⟩ := Option.map_eq_some_iff.mp hblocks
  obtain ⟨s'', ptrs', hnew', hheld, -⟩ :=
    hall _ s₁ (.single (l := (HeapCall.allocate 61 [], result)) ⟨show 61 < 2 ^ 32 by decide, hexec⟩) twoLiterals (by decide)
  obtain ⟨rfl, rfl⟩ := Prod.mk.inj (Option.some.inj (hnew.symm.trans hnew'))
  obtain ⟨rfl, hlists⟩ := Prod.mk.inj heq
  obtain ⟨hlist, hnext⟩ := Prod.mk.inj hlists
  have hused : Chain s'.next s'.allocateList [0] := by
    refine ⟨hlist, ?_⟩
    rw [show s'.allocateList = some 0 from hlist] at hnext
    exact hnext
  cases hheld with
  | cons hfirst _ =>
    obtain ⟨used, hchain, header, hm, hptr⟩ := hfirst.1
    rw [hchain.unique hused, List.mem_singleton] at hm
    rw [hm] at hptr
    exact absurd hptr (by decide)

end CoreLink.RtThread.FinshHeap
