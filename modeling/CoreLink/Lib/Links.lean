/-
# `CoreLink.Lib.Links` — circular doubly linked lists with intrusive nodes.

The nodes of such a list are list heads and the link fields of the objects on it; the head is part of the circle,
and a node that is on no list points at itself. Any number of lists share the nodes, and an object is on at most
one of them. The three edits are the assignments of the usual C header. `Rep L c` says that the links `L` hold, for
each head `h`, the objects `c h` in this order; one lemma per edit gives the lists it leaves.
-/
import Mathlib.Data.List.Nodup

namespace CoreLink.Lib

/-- A node: a list head, or the link fields of an object. -/
inductive Node (H E : Type*) where
  | head (h : H)
  | item (e : E)
  deriving DecidableEq

/-- The link fields of all nodes. -/
structure Links (N : Type*) where
  next : N → N
  prev : N → N

namespace Links

/-- Every node on its own. -/
def init {N : Type*} : Links N := ⟨id, id⟩

section Edits

variable {N : Type*} [DecidableEq N]

/-- `n->next = x`. -/
def setNext (L : Links N) (n x : N) : Links N := { L with next := Function.update L.next n x }

/-- `n->prev = x`. -/
def setPrev (L : Links N) (n x : N) : Links N := { L with prev := Function.update L.prev n x }

/-- Insert `n` after `l`. -/
def insertAfter (L : Links N) (l n : N) : Links N :=
  let L := L.setPrev (L.next l) n
  let L := L.setNext n (L.next l)
  let L := L.setNext l n
  L.setPrev n l

/-- Insert `n` before `l`. -/
def insertBefore (L : Links N) (l n : N) : Links N :=
  let L := L.setNext (L.prev l) n
  let L := L.setPrev n (L.prev l)
  let L := L.setPrev l n
  L.setNext n l

/-- Take `n` out. -/
def remove (L : Links N) (n : N) : Links N :=
  let L := L.setPrev (L.next n) (L.prev n)
  let L := L.setNext (L.prev n) (L.next n)
  let L := L.setPrev n n
  L.setNext n n

/-- Nothing but the head is on the circle. -/
def isEmpty (L : Links N) (l : N) : Prop := L.next l = l

instance (L : Links N) (l : N) : Decidable (L.isEmpty l) := by
  unfold isEmpty
  infer_instance

end Edits

section Circles

variable {N : Type*} {L : Links N}

/-- `next` and `prev` undo each other: the nodes form circles. -/
structure Circular (L : Links N) : Prop where
  prev_next : ∀ n, L.prev (L.next n) = n
  next_prev : ∀ n, L.next (L.prev n) = n

theorem circular_init : (init : Links N).Circular := ⟨fun _ => rfl, fun _ => rfl⟩

theorem Circular.next_eq_iff (hc : L.Circular) {x y : N} : L.next x = y ↔ x = L.prev y :=
  ⟨fun h => h ▸ (hc.prev_next x).symm, fun h => h ▸ hc.next_prev y⟩

variable [DecidableEq N]

/-- What `remove` leaves, seen from a node: only the node in front of `n` gets a new `next`. -/
theorem remove_next (hc : L.Circular) (n x : N) :
    (L.remove n).next x = if x = n then n else if L.next x = n then L.next n else L.next x := by
  simp only [remove, setNext, setPrev, Function.update_apply, hc.next_eq_iff]
  grind [hc.prev_next, hc.next_prev]

theorem remove_prev (hc : L.Circular) (n x : N) :
    (L.remove n).prev x = if x = n then n else if L.prev x = n then L.prev n else L.prev x := by
  simp only [remove, setNext, setPrev, Function.update_apply]
  grind [hc.prev_next, hc.next_prev]

theorem Circular.remove (hc : L.Circular) (n : N) : (L.remove n).Circular := by
  constructor <;> intro x <;> rw [remove_next hc, remove_prev hc] <;>
    have h1 := hc.prev_next x <;> have h2 := hc.next_prev x <;> grind [hc.prev_next, hc.next_prev]

/-- What `insertBefore` leaves: only the node in front of `l` gets a new `next`. -/
theorem insertBefore_next (hc : L.Circular) {l n : N} (x : N) :
    (L.insertBefore l n).next x = if x = n then l else if L.next x = l then n else L.next x := by
  simp only [insertBefore, setNext, setPrev, Function.update_apply, hc.next_eq_iff]

theorem insertBefore_prev {l n : N} (x : N) :
    (L.insertBefore l n).prev x = if x = l then n else if x = n then L.prev l else L.prev x := by
  simp only [insertBefore, setNext, setPrev, Function.update_apply]

theorem Circular.insertBefore (hc : L.Circular) {l n : N} (hne : n ≠ l) (hself : L.next n = n) :
    (L.insertBefore l n).Circular := by
  constructor <;> intro x <;> rw [insertBefore_next hc, insertBefore_prev] <;>
    have h1 := hc.prev_next x <;> have h2 := hc.next_prev x <;> have h3 := hc.prev_next n <;>
    grind [hc.prev_next, hc.next_prev]

/-- Inserting after a node is inserting before the next one. -/
theorem insertAfter_eq (hc : L.Circular) {l n : N} (hne : n ≠ l) (hself : L.next n = n) :
    L.insertAfter l n = L.insertBefore (L.next l) n := by
  have hnl : L.next l ≠ n := fun e => by
    have h1 := hc.prev_next n
    rw [hself, ← e, hc.prev_next] at h1
    exact hne (e.symm.trans h1.symm).symm.symm
  simp only [insertAfter, Links.insertBefore, setNext, setPrev, Links.mk.injEq]
  constructor <;> funext x <;> simp only [Function.update_apply] <;> grind [hc.prev_next, hc.next_prev]

end Circles

/-! ## What the lists hold -/

section Lists

variable {H E : Type*}

/-- From the node `m`, following `f`, the items `es` and then the node `b`. -/
def Seg (f : Node H E → Node H E) : Node H E → List E → Node H E → Prop
  | m, [], b => m = b
  | m, e :: es, b => m = .item e ∧ Seg f (f (.item e)) es b

instance Seg.decidable [DecidableEq (Node H E)] (f : Node H E → Node H E) (b : Node H E) :
    ∀ (es : List E) (m : Node H E), Decidable (Seg f m es b)
  | [], m => inferInstanceAs (Decidable (m = b))
  | e :: es, m =>
      have := Seg.decidable f b es (f (.item e))
      inferInstanceAs (Decidable (m = .item e ∧ Seg f (f (.item e)) es b))

section Seg

variable {f g : Node H E → Node H E} {m b k k' : Node H E} {es es' : List E}

theorem seg_append : Seg f m (es ++ es') b ↔ ∃ k, Seg f m es k ∧ Seg f k es' b := by
  induction es generalizing m with
  | nil => simp [Seg]
  | cons e es ih => simp [Seg, ih, and_assoc]

/-- A segment depends on the links of its items only. -/
theorem Seg.congr (h : Seg f m es b) (hfg : ∀ e ∈ es, g (.item e) = f (.item e)) : Seg g m es b := by
  induction es generalizing m with
  | nil => exact h
  | cons e es ih =>
    obtain ⟨rfl, h⟩ := h
    refine ⟨rfl, ?_⟩
    rw [hfg e List.mem_cons_self]
    exact ih h fun x hx => hfg x (List.mem_cons_of_mem e hx)

/-- Redirecting the arrow that arrives at the end of a segment moves its end. -/
theorem Seg.retarget [DecidableEq (Node H E)] (h : Seg f m es k) (hk : ∀ e ∈ es, Node.item e ≠ k)
    (hg : ∀ e ∈ es, g (.item e) = if f (.item e) = k then k' else f (.item e)) :
    Seg g (if m = k then k' else m) es k' := by
  induction es generalizing m with
  | nil => exact if_pos h
  | cons e es ih =>
    obtain ⟨rfl, h⟩ := h
    refine ⟨if_neg (hk e List.mem_cons_self), ?_⟩
    rw [hg e List.mem_cons_self]
    exact ih h (fun x hx => hk x (List.mem_cons_of_mem e hx)) fun x hx => hg x (List.mem_cons_of_mem e hx)

/-- A segment starts at its first item, or is empty. -/
theorem Seg.start (h : Seg f m es b) : m = b ∨ ∃ e ∈ es, m = .item e := by
  cases es with
  | nil => exact Or.inl h
  | cons e es => exact Or.inr ⟨e, List.mem_cons_self, h.1⟩

/-- An arrow from an item arrives at a later item of the segment, or at its end. -/
theorem Seg.next_mem (h : Seg f m es b) {x : E} (hx : x ∈ es) :
    f (.item x) = b ∨ ∃ e ∈ es.tail, f (.item x) = .item e := by
  induction es generalizing m with
  | nil => simp at hx
  | cons e es ih =>
    obtain ⟨-, h⟩ := h
    rcases List.mem_cons.mp hx with rfl | hx
    · exact h.start
    · exact (ih h hx).imp_right fun ⟨y, hy, he⟩ => ⟨y, List.mem_of_mem_tail hy, he⟩

/-- The items and the end of a segment determine where it starts. -/
theorem Seg.start_unique (h : Seg f m es b) (h' : Seg f k es b) : m = k := by
  cases es with
  | nil => exact h.trans h'.symm
  | cons e es => exact h.1.trans h'.1.symm

/-- A segment up to a list head is determined by where it starts. -/
theorem Seg.unique {h : H} (hs : Seg f m es (.head h)) (hs' : Seg f m es' (.head h)) : es = es' := by
  induction es generalizing m es' with
  | nil =>
    obtain rfl : m = .head h := hs
    cases es' with
    | nil => rfl
    | cons e' es' => cases hs'.1
  | cons e es ih =>
    obtain ⟨rfl, hs⟩ := hs
    cases es' with
    | nil => cases hs'
    | cons e' es' =>
      obtain ⟨he, hs'⟩ := hs'
      cases he
      rw [ih hs hs']

end Seg

/-- Following `next` from the head `h` and back to it, the object `e` is passed. -/
def OnList (L : Links (Node H E)) (h : H) (e : E) : Prop :=
  ∃ es, Seg L.next (L.next (.head h)) es (.head h) ∧ e ∈ es

/-- No path from a node that points at itself leads to a head. -/
theorem not_seg_of_isEmpty {L : Links (Node H E)} {e : E} (he : L.isEmpty (.item e)) (es : List E) (h : H) :
    ¬ Seg L.next (.item e) es (.head h) := by
  induction es with
  | nil => exact fun hs => by cases hs
  | cons x es ih =>
    rintro ⟨hx, hs⟩
    cases hx
    rw [show L.next (.item e) = .item e from he] at hs
    exact ih hs

/-- An object whose node points at itself is on no list. -/
theorem not_onList_of_isEmpty {L : Links (Node H E)} {h : H} {e : E} (he : L.isEmpty (.item e)) : ¬ L.OnList h e := by
  rintro ⟨es, hs, hm⟩
  obtain ⟨as, bs, rfl⟩ := List.append_of_mem hm
  obtain ⟨k, -, rfl, hs⟩ := seg_append.mp hs
  rw [show L.next (.item e) = .item e from he] at hs
  exact not_seg_of_isEmpty he bs h hs

/-- **The lists in the links.** The list of the head `h` holds the objects `c h`; an object is on one list at most,
once, and on its own otherwise. -/
structure Rep (L : Links (Node H E)) (c : H → List E) : Prop where
  circular : L.Circular
  seg : ∀ h, Seg L.next (L.next (.head h)) (c h) (.head h)
  nodup : ∀ h, (c h).Nodup
  disjoint : ∀ h h' e, e ∈ c h → e ∈ c h' → h = h'
  alone : ∀ e, (∀ h, e ∉ c h) → L.next (.item e) = .item e

theorem rep_init : Rep (init : Links (Node H E)) fun _ => [] :=
  ⟨circular_init, fun _ => rfl, fun _ => List.nodup_nil, fun _ _ _ h => by simp at h, fun _ _ => rfl⟩

namespace Rep

variable {L : Links (Node H E)} {c : H → List E} {h : H} {e : E}

/-- `isEmpty` of a head is that its list is empty. -/
theorem isEmpty_iff (r : Rep L c) : L.isEmpty (.head h) ↔ c h = [] := by
  have hs := r.seg h
  cases hc : c h with
  | nil =>
    rw [hc] at hs
    exact iff_of_true hs rfl
  | cons e es =>
    rw [hc] at hs
    refine iff_of_false (fun he => ?_) (by simp)
    rw [isEmpty, hs.1] at he
    cases he

/-- The node after the head is the first object. -/
theorem next_head (r : Rep L c) {es : List E} (hc : c h = e :: es) : L.next (.head h) = .item e :=
  (hc ▸ r.seg h).1

theorem onList_iff (r : Rep L c) : L.OnList h e ↔ e ∈ c h := by
  refine ⟨?_, fun he => ⟨c h, r.seg h, he⟩⟩
  rintro ⟨es, hs, he⟩
  rwa [← hs.unique (r.seg h)]

/-- The node in front of the head is the last object. -/
theorem prev_head (r : Rep L c) {es : List E} (hc : c h = es ++ [e]) : L.prev (.head h) = .item e := by
  have hs := r.seg h
  rw [hc, seg_append] at hs
  obtain ⟨k, -, rfl, hs⟩ := hs
  have hn : L.next (.item e) = .head h := hs
  rw [← hn, r.circular.prev_next]

/-- The node after an object is the next object of its list, if there is one. -/
theorem next_item_iff (r : Rep L c) {as bs : List E} (hc : c h = as ++ e :: bs) (b : E) :
    L.next (.item e) = .item b ↔ b ∈ bs.head? := by
  have hs := r.seg h
  rw [hc, seg_append] at hs
  obtain ⟨k, -, rfl, hs⟩ := hs
  cases bs with
  | nil => simp [show L.next (.item e) = .head h from hs]
  | cons x bs => simp [show L.next (.item e) = .item x from hs.1, eq_comm]

/-- The node in front of an object is the object before it, if there is one. -/
theorem prev_item_iff (r : Rep L c) {as bs : List E} (hc : c h = as ++ e :: bs) (a : E) :
    L.prev (.item e) = .item a ↔ a ∈ as.getLast? := by
  have hs := r.seg h
  rw [hc, seg_append] at hs
  obtain ⟨k, hs, rfl, -⟩ := hs
  rcases List.eq_nil_or_concat as with rfl | ⟨as, x, rfl⟩
  · have hn : L.next (.head h) = .item e := hs
    simp [← hn, r.circular.prev_next]
  · obtain ⟨k, -, rfl, hs⟩ := seg_append.mp (List.concat_eq_append ▸ hs)
    have hn : L.next (.item x) = .item e := hs
    simp [← hn, r.circular.prev_next, eq_comm]

/-- A list without `e` has no arrow to `e`. -/
theorem next_ne (r : Rep L c) (he : e ∉ c h) :
    L.next (.head h) ≠ .item e ∧ ∀ y ∈ c h, L.next (.item y) ≠ .item e := by
  have hs := r.seg h
  constructor
  · rcases hs.start with h1 | ⟨x, hx, h1⟩ <;> rw [h1]
    · simp
    · exact fun hxe => he (by cases hxe; exact hx)
  · intro y hy
    rcases hs.next_mem hy with h1 | ⟨x, hx, h1⟩ <;> rw [h1]
    · simp
    · exact fun hxe => he (by cases hxe; exact List.mem_of_mem_tail hx)

variable [DecidableEq H] [DecidableEq E]

/-- **Removing** an object takes it off the list it is on, if any. -/
theorem remove (r : Rep L c) (e : E) : Rep (L.remove (.item e)) fun h => (c h).erase e := by
  have hnext := remove_next r.circular (Node.item e)
  refine ⟨r.circular.remove _, fun h => ?_, fun h => (r.nodup h).erase e,
    fun h h' x hx hx' => r.disjoint h h' x (List.mem_of_mem_erase hx) (List.mem_of_mem_erase hx'), ?_⟩
  · have hhead : (L.remove (.item e)).next (.head h)
        = if L.next (.head h) = .item e then L.next (.item e) else L.next (.head h) := by
      rw [hnext, if_neg (by simp)]
    by_cases he : e ∈ c h
    · obtain ⟨as, bs, hc⟩ := List.append_of_mem he
      have hnd := hc ▸ r.nodup h
      have has : e ∉ as := fun hm => List.disjoint_of_nodup_append hnd hm List.mem_cons_self
      have hbs : e ∉ bs := (List.nodup_cons.mp (List.Nodup.of_append_right hnd)).1
      have hs := r.seg h
      rw [hc, seg_append] at hs
      obtain ⟨k, hs1, rfl, hs2⟩ := hs
      rw [hc, List.erase_append_right _ has, List.erase_cons_head, seg_append, hhead]
      refine ⟨L.next (.item e), hs1.retarget ?_ ?_, hs2.congr ?_⟩
      · exact fun x hx hxe => has (by cases hxe; exact hx)
      · intro x hx
        rw [hnext, if_neg fun hxe => has (by cases hxe; exact hx)]
      · intro x hx
        have hxn : L.next (.item x) ≠ .item e := by
          rcases hs2.next_mem hx with h1 | ⟨y, hy, h1⟩ <;> rw [h1]
          · simp
          · exact fun hye => hbs (by cases hye; exact List.mem_of_mem_tail hy)
        rw [hnext, if_neg fun hxe => hbs (by cases hxe; exact hx), if_neg hxn]
    · rw [List.erase_of_not_mem he, hhead, if_neg (r.next_ne he).1]
      refine (r.seg h).congr fun x hx => ?_
      rw [hnext, if_neg fun hxe => he (by cases hxe; exact hx), if_neg ((r.next_ne he).2 x hx)]
  · intro x hx
    rw [hnext]
    split_ifs with h1 h2
    · exact h1.symm
    · have hxe : x ≠ e := fun hxe => h1 (by rw [hxe])
      have hself := r.alone x fun h hm => hx h ((List.mem_erase_of_ne hxe).mpr hm)
      exact absurd (hself.symm.trans h2) h1
    · have hxe : x ≠ e := fun hxe => h1 (by rw [hxe])
      exact r.alone x fun h hm => hx h ((List.mem_erase_of_ne hxe).mpr hm)

/-- **Inserting** an object that is on no list, in front of the node where the objects `bs` begin. -/
theorem insertBefore (r : Rep L c) {as bs : List E} {l : Node H E} (hc : c h = as ++ bs)
    (hl : Seg L.next l bs (.head h)) (he : ∀ h, e ∉ c h) :
    Rep (L.insertBefore l (.item e)) (Function.update c h (as ++ e :: bs)) := by
  have hnext := insertBefore_next r.circular (l := l) (n := Node.item e)
  have hself := r.alone e he
  have hcb : e ∉ as ++ bs := hc ▸ he h
  have hle : Node.item e ≠ l := by
    rintro rfl
    rcases hl.start with h1 | ⟨x, hx, h1⟩
    · cases h1
    · cases h1
      exact hcb (List.mem_append_right as hx)
  have hnd := hc ▸ r.nodup h
  have hbe : ∀ x ∈ as ++ bs, (Node.item x : Node H E) ≠ .item e := fun x hx hxe => by
    cases hxe
    exact hcb hx
  -- `l` is the head itself, or the first of `bs`
  have hlh : ∀ h' x, x ∈ c h' → (h' ≠ h ∨ x ∈ as) → (Node.item x : Node H E) ≠ l := by
    rintro h' x hx hor rfl
    rcases hl.start with h1 | ⟨y, hy, h1⟩
    · cases h1
    · cases h1
      rcases hor with hne | hxa
      · exact hne (r.disjoint h' h x hx (hc ▸ List.mem_append_right as hy))
      · exact List.disjoint_of_nodup_append hnd hxa hy
  refine ⟨r.circular.insertBefore hle hself, fun h' => ?_, fun h' => ?_, fun h' h'' x hx hx' => ?_, ?_⟩
  · have hhead : (L.insertBefore l (.item e)).next (.head h')
        = if L.next (.head h') = l then .item e else L.next (.head h') := by
      rw [hnext, if_neg (by simp)]
    by_cases hh : h' = h
    · subst hh
      have hs := r.seg h'
      rw [hc, seg_append] at hs
      obtain ⟨k, hs1, hs2⟩ := hs
      obtain rfl := hs2.start_unique hl
      rw [Function.update_self, seg_append, hhead]
      refine ⟨.item e, hs1.retarget ?_ ?_, rfl, ?_⟩
      · exact fun x hx => hlh h' x (hc ▸ List.mem_append_left bs hx) (Or.inr hx)
      · exact fun x hx => by rw [hnext, if_neg (hbe x (List.mem_append_left bs hx))]
      · rw [hnext, if_pos rfl]
        refine hs2.congr fun x hx => ?_
        rw [hnext, if_neg (hbe x (List.mem_append_right as hx)), if_neg fun hxk => ?_]
        -- nothing behind `l` points at it
        cases bs with
        | nil => simp at hx
        | cons b bs =>
          rcases hs2.next_mem hx with h1 | ⟨y, hy, h1⟩
          · rw [h1, hs2.1] at hxk
            cases hxk
          · rw [h1, hs2.1] at hxk
            cases hxk
            exact (List.nodup_cons.mp (List.Nodup.of_append_right hnd)).1 hy
    · have hs := r.seg h'
      have hlh' : (Node.head h' : Node H E) ≠ l := by
        rintro rfl
        rcases hl.start with h1 | ⟨y, hy, h1⟩ <;> cases h1
        exact hh rfl
      rw [Function.update_of_ne hh, hhead, if_neg]
      · refine hs.congr fun x hx => ?_
        rw [hnext, if_neg fun hxe => he h' (by cases hxe; exact hx), if_neg]
        rcases hs.next_mem hx with h1 | ⟨y, hy, h1⟩ <;> rw [h1]
        · exact hlh'
        · exact hlh h' y (List.mem_of_mem_tail hy) (Or.inl hh)
      · rcases hs.start with h1 | ⟨y, hy, h1⟩ <;> rw [h1]
        · exact hlh'
        · exact hlh h' y hy (Or.inl hh)
  · by_cases hh : h' = h
    · rw [hh, Function.update_self, List.nodup_middle]
      exact List.nodup_cons.mpr ⟨hcb, hnd⟩
    · rw [Function.update_of_ne hh]
      exact r.nodup h'
  · have hmem : ∀ g, x ∈ Function.update c h (as ++ e :: bs) g → x = e ∧ g = h ∨ x ≠ e ∧ x ∈ c g := by
      intro g hg
      by_cases hxe : x = e
      · by_cases hgh : g = h
        · exact Or.inl ⟨hxe, hgh⟩
        · rw [Function.update_of_ne hgh, hxe] at hg
          exact absurd hg (he g)
      · refine Or.inr ⟨hxe, ?_⟩
        by_cases hgh : g = h
        · rw [hgh, Function.update_self] at hg
          rw [hgh, hc]
          simpa [hxe] using hg
        · rwa [Function.update_of_ne hgh] at hg
    rcases hmem h' hx with ⟨h1, h2⟩ | ⟨h1, h2⟩ <;> rcases hmem h'' hx' with ⟨h3, h4⟩ | ⟨h3, h4⟩
    · exact h2.trans h4.symm
    · exact absurd h1 h3
    · exact absurd h3 h1
    · exact r.disjoint h' h'' x h2 h4
  · intro x hx
    have hxe : x ≠ e := by
      rintro rfl
      exact hx h (by simp)
    have hxc : ∀ g, x ∉ c g := by
      intro g hg
      refine hx g ?_
      by_cases hgh : g = h
      · rw [hgh, Function.update_self]
        rw [hgh, hc] at hg
        simp only [List.mem_append, List.mem_cons] at hg ⊢
        tauto
      · rwa [Function.update_of_ne hgh]
    have hxl : (Node.item x : Node H E) ≠ l := by
      rintro rfl
      rcases hl.start with h1 | ⟨y, hy, h1⟩ <;> cases h1
      exact hxc h (hc ▸ List.mem_append_right as hy)
    rw [hnext, if_neg (by simpa using hxe), r.alone x hxc, if_neg hxl]

/-- Inserting before the head appends to its list. -/
theorem insertBefore_head (r : Rep L c) (he : ∀ h, e ∉ c h) :
    Rep (L.insertBefore (.head h) (.item e)) (Function.update c h (c h ++ [e])) :=
  r.insertBefore (List.append_nil (c h)).symm rfl he

/-- Inserting after the node behind which the objects `bs` begin. -/
theorem insertAfter (r : Rep L c) {as bs : List E} {l : Node H E} (hc : c h = as ++ bs)
    (hl : Seg L.next (L.next l) bs (.head h)) (hle : l ≠ .item e) (he : ∀ h, e ∉ c h) :
    Rep (L.insertAfter l (.item e)) (Function.update c h (as ++ e :: bs)) := by
  rw [insertAfter_eq r.circular hle.symm (r.alone e he)]
  exact r.insertBefore hc hl he

/-- Inserting after the head puts an object in front of its list. -/
theorem insertAfter_head (r : Rep L c) (he : ∀ h, e ∉ c h) :
    Rep (L.insertAfter (.head h) (.item e)) (Function.update c h (e :: c h)) :=
  r.insertAfter (List.nil_append (c h)).symm (r.seg h) (by simp) he

end Rep

end Lists

end Links

end CoreLink.Lib
