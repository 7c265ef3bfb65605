/-
# `CoreLink.Lib.SkipList` — rows of linked lists, each over some of the objects of the row below.

Row 0 is the sparsest, and the last row holds every object. A search walks row 0 from the list head, then goes down
to the next row at the node where it stopped. What makes it stop is a predicate `later` on the objects; nothing is
assumed about it, so that the rows stay rows of one skip list whatever the objects are ordered by. Where the objects
of the last row are in order, the search stops in front of the first later one.
-/
import CoreLink.Lib.Links
import Mathlib.Data.Fintype.Card
import Mathlib.Data.List.TakeWhile

namespace CoreLink.Lib

open Links

variable {H E : Type*}

/-! ## Lists cut in two -/

/-- A cut with `p` just before it and not just behind it is the cut between the objects with `p` and the others. -/
theorem filter_of_cut {p : E → Bool} {as bs : List E} (h : (as ++ bs).Pairwise fun a b => p b → p a)
    (has : ∀ a ∈ as.getLast?, p a = true) (hbs : ∀ b ∈ bs.head?, p b = false) :
    as = (as ++ bs).filter p ∧ bs = (as ++ bs).filter fun e => !p e := by
  obtain ⟨h1, h2, -⟩ := List.pairwise_append.mp h
  have hall : ∀ a ∈ as, p a = true := by
    intro a ha
    rcases List.eq_nil_or_concat as with rfl | ⟨as', x, rfl⟩
    · simp at ha
    · have hx : p x = true := has x (by simp)
      rw [List.concat_eq_append] at ha h1
      rcases List.mem_append.mp ha with ha | ha
      · exact (List.pairwise_append.mp h1).2.2 a ha x (by simp) hx
      · obtain rfl := List.mem_singleton.mp ha
        exact hx
  have hnone : ∀ b ∈ bs, p b = false := by
    intro b hb
    cases bs with
    | nil => simp at hb
    | cons x bs =>
      have hx : p x = false := hbs x (by simp)
      rcases List.mem_cons.mp hb with rfl | hb
      · exact hx
      · have hxb := (List.pairwise_cons.mp h2).1 b hb
        rw [hx] at hxb
        simpa using hxb
  constructor
  · rw [List.filter_append, List.filter_eq_self.mpr hall, List.filter_eq_nil_iff.mpr, List.append_nil]
    exact fun b hb => by simp [hnone b hb]
  · rw [List.filter_append, List.filter_eq_nil_iff.mpr, List.nil_append, List.filter_eq_self.mpr]
    · exact fun b hb => by simp [hnone b hb]
    · exact fun a ha => by simp [hall a ha]

/-- Where `p` never comes back once it is lost, the objects with `p` are in front of those without. -/
theorem filter_append_filter_of_pairwise {p : E → Bool} {l : List E} (h : l.Pairwise fun a b => p b → p a) :
    l.filter p ++ l.filter (fun e => !p e) = l := by
  have hl : l.takeWhile p ++ l.dropWhile p = l := List.takeWhile_append_dropWhile
  have has : ∀ a ∈ (l.takeWhile p).getLast?, p a = true := fun a ha =>
    List.mem_takeWhile_imp (List.mem_of_getLast? ha)
  have hbs : ∀ b ∈ (l.dropWhile p).head?, p b = false := by
    intro b hb
    have h1 := List.head?_dropWhile_not p l
    rw [Option.mem_def.mp hb] at h1
    simpa using h1
  obtain ⟨h1, h2⟩ := filter_of_cut (hl.symm ▸ h) has hbs
  rw [hl] at h1 h2
  rw [← h1, ← h2, hl]

/-- What begins outside `xs` and is on `xs ++ ys` is on `ys`. -/
theorem sublist_of_sublist_append {p : E → Bool} {bs xs ys : List E} (h : bs.Sublist (xs ++ ys))
    (hxs : ∀ x ∈ xs, p x = false) (hbs : ∀ b ∈ bs.head?, p b = true) : bs.Sublist ys := by
  induction xs with
  | nil => exact h
  | cons x xs ih =>
    refine ih ?_ fun y hy => hxs y (List.mem_cons_of_mem x hy)
    cases h with
    | cons _ h => exact h
    | cons_cons _ h =>
      have h1 : p x = true := hbs x (by simp)
      rw [hxs x List.mem_cons_self] at h1
      cases h1

/-- A list and a sublist of it, cut behind the same object. -/
theorem sublist_of_cut {x : E} {as bs as' bs' : List E} (h : (as ++ x :: bs).Sublist (as' ++ x :: bs'))
    (hnd : (as' ++ x :: bs').Nodup) : as.Sublist as' ∧ bs.Sublist bs' := by
  induction as' generalizing as with
  | nil =>
    have hx : x ∉ bs' := (List.nodup_cons.mp hnd).1
    cases as with
    | nil => exact ⟨List.Sublist.refl _, by simpa using h⟩
    | cons a as =>
      refine absurd ?_ hx
      cases h with
      | cons _ h => exact h.subset (by simp)
      | cons_cons _ h => exact h.subset (by simp)
  | cons a' as' ih =>
    obtain ⟨ha', hnd'⟩ := List.nodup_cons.mp hnd
    cases as with
    | nil =>
      cases h with
      | cons _ h => exact ⟨List.nil_sublist _, (@ih [] h hnd').2⟩
      | cons_cons _ h => exact absurd (by simp) ha'
    | cons a as =>
      cases h with
      | cons _ h =>
        obtain ⟨h1, h2⟩ := @ih (a :: as) h hnd'
        exact ⟨h1.cons a', h2⟩
      | cons_cons _ h =>
        obtain ⟨h1, h2⟩ := ih h hnd'
        exact ⟨h1.cons_cons a', h2⟩

/-! ## The search -/

/-- The node of the last object, or the list head where there is none. -/
def lastNode (h : H) (as : List E) : Node H E :=
  match as.getLast? with
  | some e => .item e
  | none => .head h

@[simp] theorem lastNode_nil (h : H) : lastNode h ([] : List E) = .head h := rfl

@[simp] theorem lastNode_append_singleton (h : H) (as : List E) (e : E) : lastNode h (as ++ [e]) = .item e := by
  simp [lastNode]

section Walk

variable [DecidableEq H] [DecidableEq E]

/-- From the node `n`, as long as it is not the last of the row and the object behind it is not later, to the next
one. `none` is that `fuel` nodes are not enough, or that the head is read as an object. -/
def walk (L : Links (Node H E)) (h : H) (later : E → Bool) : Nat → Node H E → Option (Node H E)
  | 0, _ => none
  | fuel + 1, n =>
      if n = L.prev (.head h) then some n
      else match L.next n with
        | .head _ => none
        | .item t => if later t then some n else walk L h later fuel (.item t)

/-- Where the search stops in row `r`. -/
def search (rows : Nat → Links (Node H E)) (h : H) (later : E → Bool) (fuel : Nat) : Nat → Option (Node H E)
  | 0 => walk (rows 0) h later fuel (.head h)
  | r + 1 => (search rows h later fuel r).bind (walk (rows (r + 1)) h later fuel)

/-- A cut of a row at which the search may stop: behind an object that is not later, in front of one that is. -/
structure Cut (later : E → Bool) (as bs : List E) : Prop where
  before : ∀ a ∈ as.getLast?, later a = false
  behind : ∀ b ∈ bs.head?, later b = true

namespace Links.Rep

variable {L : Links (Node H E)} {c : H → List E} {h : H} {e : E}

omit [DecidableEq H] [DecidableEq E]

theorem prev_head_eq (r : Rep L c) : L.prev (.head h) = lastNode h (c h) := by
  rcases List.eq_nil_or_concat (c h) with hc | ⟨as, x, hc⟩
  · have hn : L.next (.head h) = .head h := r.isEmpty_iff.mpr hc
    rw [hc, lastNode_nil]
    exact (r.circular.next_eq_iff.mp hn).symm
  · rw [List.concat_eq_append] at hc
    rw [hc, lastNode_append_singleton, r.prev_head hc]

/-- Behind the last node of a prefix the rest of the list begins. -/
theorem seg_next_lastNode (r : Rep L c) {as bs : List E} (hc : c h = as ++ bs) :
    Seg L.next (L.next (lastNode h as)) bs (.head h) := by
  rcases List.eq_nil_or_concat as with rfl | ⟨as', x, rfl⟩
  · have hs := r.seg h
    rw [hc] at hs
    exact hs
  · have hs := r.seg h
    rw [hc, List.concat_eq_append, List.append_assoc, seg_append] at hs
    obtain ⟨k, -, rfl, hs⟩ := hs
    rw [List.concat_eq_append, lastNode_append_singleton]
    exact hs

theorem lastNode_ne (r : Rep L c) {as bs : List E} {b : E} (hc : c h = as ++ b :: bs) :
    lastNode h as ≠ lastNode h (c h) := by
  intro he
  have h1 := (r.seg_next_lastNode hc).1
  rw [he, ← r.prev_head_eq, r.circular.next_prev] at h1
  cases h1

variable [DecidableEq H] [DecidableEq E]

/-- **The walk along one row** passes objects that are not later, and stops at a cut. -/
theorem walk (r : Rep L c) (later : E → Bool) (fuel : Nat) {as bs : List E} (hc : c h = as ++ bs)
    (has : ∀ a ∈ as.getLast?, later a = false) (hfuel : bs.length < fuel) :
    ∃ xs ys, bs = xs ++ ys ∧ (∀ x ∈ xs, later x = false) ∧ Cut later (as ++ xs) ys ∧
      walk L h later fuel (lastNode h as) = some (lastNode h (as ++ xs)) := by
  induction bs generalizing as fuel with
  | nil =>
    obtain ⟨fuel, rfl⟩ := Nat.exists_eq_add_one_of_ne_zero (by omega : fuel ≠ 0)
    refine ⟨[], [], rfl, by simp, ⟨by simpa using has, by simp⟩, ?_⟩
    rw [List.append_nil, Lib.walk, if_pos]
    rw [r.prev_head_eq, hc, List.append_nil]
  | cons b bs ih =>
    obtain ⟨fuel, rfl⟩ := Nat.exists_eq_add_one_of_ne_zero (by omega : fuel ≠ 0)
    have hnext : L.next (lastNode h as) = .item b := (r.seg_next_lastNode hc).1
    have hlast : lastNode h as ≠ L.prev (.head h) := r.prev_head_eq ▸ r.lastNode_ne hc
    simp only [Lib.walk, if_neg hlast, hnext]
    cases hb : later b with
    | true => exact ⟨[], b :: bs, rfl, by simp, ⟨by simpa using has, by simp [hb]⟩, by simp⟩
    | false =>
      have hc' : c h = (as ++ [b]) ++ bs := by rw [hc, List.append_assoc, List.singleton_append]
      obtain ⟨xs, ys, rfl, hxs, hcut, hw⟩ :=
        ih fuel hc' (by simp [hb]) (by simpa using hfuel)
      rw [List.append_assoc, List.singleton_append] at hcut hw
      rw [lastNode_append_singleton] at hw
      refine ⟨b :: xs, ys, rfl, ?_, hcut, by simpa using hw⟩
      exact List.forall_mem_cons.mpr ⟨hb, hxs⟩

end Links.Rep

end Walk

/-! ## All rows -/

/-- **A skip list of `lv` rows.** Row `r` holds the objects `c r h` under the head `h`, each of them on the row below
as well and in the same order. -/
structure SkipRep (lv : Nat) (rows : Nat → Links (Node H E)) (c : Nat → H → List E) : Prop where
  rep : ∀ r < lv, Rep (rows r) (c r)
  sub : ∀ r h, r + 1 < lv → (c r h).Sublist (c (r + 1) h)

namespace SkipRep

variable {lv : Nat} {rows : Nat → Links (Node H E)} {c : Nat → H → List E} {h : H} {e : E}

theorem init : SkipRep lv (fun _ => (Links.init : Links (Node H E))) fun _ _ => [] :=
  ⟨fun _ _ => rep_init, fun _ _ _ => List.Sublist.refl _⟩

/-- Every row is a sublist of the last one. -/
theorem sublist_last (s : SkipRep lv rows c) {r : Nat} (hr : r < lv) : (c r h).Sublist (c (lv - 1) h) := by
  suffices ∀ k, r + k < lv → (c r h).Sublist (c (r + k) h) by
    have h1 := this (lv - 1 - r) (by omega)
    rwa [show r + (lv - 1 - r) = lv - 1 by omega] at h1
  intro k
  induction k with
  | zero => exact fun _ => List.Sublist.refl _
  | succ k ih => exact fun hk => (ih (by omega)).trans (s.sub (r + k) h hk)

/-- What is not on the last row is on none. -/
theorem not_mem (s : SkipRep lv rows c) {r : Nat} (hr : r < lv) (he : e ∉ c (lv - 1) h) : e ∉ c r h :=
  fun hm => he ((s.sublist_last hr).subset hm)

variable [DecidableEq H] [DecidableEq E]

/-- Taking an object out of every row. -/
theorem remove (s : SkipRep lv rows c) (e : E) :
    SkipRep lv (fun r => if r < lv then (rows r).remove (.item e) else rows r) fun r h => (c r h).erase e where
  rep r hr := by
    rw [if_pos hr]
    exact (s.rep r hr).remove e
  sub r h hr := (s.sub r h hr).erase e

omit [DecidableEq H] [DecidableEq E] in
/-- A cut of a row is a cut of the row below behind the same object. -/
theorem below (s : SkipRep lv rows c) {r : Nat} {as bs : List E} (hr : r + 1 < lv) (hc : c r h = as ++ bs) :
    ∃ as' bs', c (r + 1) h = as' ++ bs' ∧ as.getLast? = as'.getLast? ∧ as.Sublist as' ∧ bs.Sublist bs' := by
  have hsub := s.sub r h hr
  rcases List.eq_nil_or_concat as with rfl | ⟨as₁, x, rfl⟩
  · exact ⟨[], c (r + 1) h, rfl, rfl, List.Sublist.refl _, by rwa [hc] at hsub⟩
  · have hx : x ∈ c (r + 1) h := hsub.subset (by simp [hc])
    obtain ⟨as', bs', hc'⟩ := List.append_of_mem hx
    rw [List.concat_eq_append, List.append_assoc, List.singleton_append] at hc
    obtain ⟨h1, h2⟩ := sublist_of_cut (hc ▸ hc' ▸ hsub) (hc' ▸ (s.rep (r + 1) hr).nodup h)
    refine ⟨as' ++ [x], bs', by rw [hc', List.append_assoc, List.singleton_append], by simp, ?_, h2⟩
    rw [List.concat_eq_append]
    exact h1.append_right [x]

/-- **The search** stops in every row at a cut, and the cuts of two rows fit. -/
theorem search [Fintype E] (s : SkipRep lv rows c) (later : E → Bool) (h : H) :
    ∃ as bs : Nat → List E, ∀ r < lv, c r h = as r ++ bs r ∧ Cut later (as r) (bs r) ∧
      search rows h later (Fintype.card E + 1) r = some (lastNode h (as r)) ∧
      (r + 1 < lv → (as r).Sublist (as (r + 1)) ∧ (bs r).Sublist (bs (r + 1))) := by
  have hlen : ∀ r < lv, (c r h).length < Fintype.card E + 1 := fun r hr =>
    Nat.lt_succ_of_le ((s.rep r hr).nodup h).length_le_card
  -- one row after the other: a row is cut where the one above was, or further on
  suffices ∀ k ≤ lv, ∃ as bs : Nat → List E, ∀ r < k, c r h = as r ++ bs r ∧ Cut later (as r) (bs r) ∧
      Lib.search rows h later (Fintype.card E + 1) r = some (lastNode h (as r)) ∧
      (r + 1 < k → (as r).Sublist (as (r + 1)) ∧ (bs r).Sublist (bs (r + 1))) from this lv le_rfl
  intro k
  induction k with
  | zero => exact fun _ => ⟨fun _ => [], fun _ => [], fun r hr => absurd hr (Nat.not_lt_zero r)⟩
  | succ k ih =>
    intro hk
    obtain ⟨as, bs, hrows⟩ := ih (by omega)
    suffices ∃ as' bs', c k h = as' ++ bs' ∧ Cut later as' bs' ∧
        Lib.search rows h later (Fintype.card E + 1) k = some (lastNode h as') ∧
        ∀ r, r + 1 = k → (as r).Sublist as' ∧ (bs r).Sublist bs' by
      obtain ⟨as', bs', hc, hcut, hsearch, hsub⟩ := this
      refine ⟨Function.update as k as', Function.update bs k bs', fun r hr => ?_⟩
      rcases Nat.lt_succ_iff_lt_or_eq.mp hr with hrk | rfl
      · obtain ⟨h1, h2, h3, h4⟩ := hrows r hrk
        rw [Function.update_of_ne hrk.ne, Function.update_of_ne hrk.ne]
        refine ⟨h1, h2, h3, fun _ => ?_⟩
        by_cases hrk' : r + 1 = k
        · subst hrk'
          rw [Function.update_self, Function.update_self]
          exact hsub r rfl
        · rw [Function.update_of_ne hrk', Function.update_of_ne hrk']
          exact h4 (by omega)
      · rw [Function.update_self, Function.update_self]
        exact ⟨hc, hcut, hsearch, fun hlt => absurd hlt (by omega)⟩
    cases k with
    | zero =>
      obtain ⟨xs, ys, hc, -, hcut, hw⟩ := (s.rep 0 hk).walk later _ (List.nil_append (c 0 h)).symm
        (by simp) (hlen 0 hk)
      exact ⟨xs, ys, hc, hcut, hw, fun r hr => absurd hr (Nat.succ_ne_zero r)⟩
    | succ k =>
      obtain ⟨hc, hcut, hsearch, -⟩ := hrows k (Nat.lt_succ_self k)
      obtain ⟨as₁, bs₁, hc₁, hlast, hsubs⟩ := s.below hk hc
      have hnode : lastNode h (as k) = lastNode h as₁ := by rw [lastNode, lastNode, hlast]
      have hfuel := hlen (k + 1) hk
      rw [hc₁, List.length_append] at hfuel
      obtain ⟨xs, ys, rfl, hxs, hcut', hw⟩ := (s.rep (k + 1) hk).walk later (Fintype.card E + 1) hc₁
        (hlast ▸ hcut.before) (by omega)
      refine ⟨as₁ ++ xs, ys, by rw [hc₁, List.append_assoc], hcut', ?_, ?_⟩
      · rw [Lib.search, hsearch, Option.bind_some, hnode, hw]
      · rintro r hr
        obtain rfl : r = k := by omega
        exact ⟨hsubs.1.trans (List.sublist_append_left _ _), sublist_of_sublist_append hsubs.2 hxs hcut.behind⟩

/-- **Inserting** an object that is on no row behind the nodes where the search stopped, in the rows from `ht` on. -/
theorem insertAfter {later : E → Bool} {as bs : Nat → List E} (s : SkipRep lv rows c)
    (hrows : ∀ r < lv, c r h = as r ++ bs r ∧ Cut later (as r) (bs r) ∧
      (r + 1 < lv → (as r).Sublist (as (r + 1)) ∧ (bs r).Sublist (bs (r + 1))))
    (he : ∀ h, e ∉ c (lv - 1) h) (ht : Nat) :
    SkipRep lv (fun r => if ht ≤ r ∧ r < lv then (rows r).insertAfter (lastNode h (as r)) (.item e) else rows r)
      fun r => if ht ≤ r then Function.update (c r) h (as r ++ e :: bs r) else c r where
  rep r hr := by
    by_cases hht : ht ≤ r
    · obtain ⟨hc, -, -⟩ := hrows r hr
      have her : ∀ h, e ∉ c r h := fun h => s.not_mem hr (he h)
      rw [if_pos ⟨hht, hr⟩, if_pos hht]
      refine (s.rep r hr).insertAfter hc ((s.rep r hr).seg_next_lastNode hc) ?_ her
      intro hn
      refine her h (hc ▸ List.mem_append_left _ ?_)
      rw [lastNode] at hn
      split at hn
      next x hx =>
        cases hn
        exact List.mem_of_getLast? hx
      next => cases hn
    · rw [if_neg (fun hlt => hht hlt.1), if_neg hht]
      exact s.rep r hr
  sub r h' hr := by
    by_cases hh : h' = h
    · subst hh
      obtain ⟨hc, -, hsub⟩ := hrows r (by omega)
      obtain ⟨hc', -, -⟩ := hrows (r + 1) hr
      obtain ⟨h1, h2⟩ := hsub hr
      -- the object is on both rows, on the lower one only, or on neither
      by_cases hht : ht ≤ r
      · rw [if_pos hht, if_pos (by omega), Function.update_self, Function.update_self]
        exact h1.append (h2.cons_cons e)
      · rw [if_neg hht]
        by_cases hht' : ht ≤ r + 1
        · rw [if_pos hht', Function.update_self, hc]
          exact h1.append (h2.cons e)
        · rw [if_neg hht']
          exact s.sub r h' hr
    · have hrow : ∀ k, (if ht ≤ k then Function.update (c k) h (as k ++ e :: bs k) else c k) h' = c k h' := by
        intro k
        split_ifs
        · rw [Function.update_of_ne hh]
        · rfl
      rw [hrow, hrow]
      exact s.sub r h' hr

end SkipRep

end CoreLink.Lib
