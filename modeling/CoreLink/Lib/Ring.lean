/-
# `CoreLink.Lib.Ring` — circular doubly linked lists in two pointer fields.

`next` and `prev` are two fields of a heap: a pointer for every node, also for those that are in no ring. `Ring next prev
ns` says that the nodes `ns`, each once, form a ring: following `next` from each leads to the one after it, from the last
to the first, and `prev` leads back. Where the ring starts does not matter (`rotate`), so that putting a node behind a
node and taking out the node behind it are each one argument about the first of the list.
-/
import Mathlib.Data.List.Nodup
import Mathlib.Logic.Relation

namespace CoreLink.Lib

variable {N : Type*}

/-- From `a` by way of `ns` to `b`, along `next` and back along `prev`. -/
def Path (next prev : N → N) : N → List N → N → Prop
  | a, [], b => next a = b ∧ prev b = a
  | a, n :: ns, b => (next a = n ∧ prev n = a) ∧ Path next prev n ns b

section Path

variable {next prev next' prev' : N → N} {a b x : N} {ns ms : List N}

theorem path_append : Path next prev a (ns ++ x :: ms) b ↔ Path next prev a ns x ∧ Path next prev x ms b := by
  induction ns generalizing a with
  | nil => rfl
  | cons n ns ih => simp only [List.cons_append, Path, ih, and_assoc]

theorem Path.congr (h : Path next prev a ns b) (hn : ∀ y ∈ a :: ns, next' y = next y)
    (hp : ∀ y ∈ ns ++ [b], prev' y = prev y) : Path next' prev' a ns b := by
  induction ns generalizing a with
  | nil =>
    obtain ⟨h1, h2⟩ := h
    exact ⟨(hn a (by simp)).trans h1, (hp b (by simp)).trans h2⟩
  | cons n ns ih =>
    obtain ⟨⟨h1, h2⟩, h3⟩ := h
    refine ⟨⟨(hn a (by simp)).trans h1, (hp n (by simp)).trans h2⟩, ih h3 (fun y hy => ?_) fun y hy => ?_⟩
    · exact hn y (List.mem_cons_of_mem a hy)
    · exact hp y (List.mem_cons_of_mem n hy)

/-- `next` leads from `a` to all the nodes of the path. -/
theorem Path.reach (h : Path next prev a ns b) :
    ∀ y ∈ a :: ns, Relation.ReflTransGen (fun x y => y = next x) a y := by
  induction ns generalizing a with
  | nil =>
    intro y hy
    obtain rfl := List.mem_singleton.mp hy
    exact .refl
  | cons n ns ih =>
    obtain ⟨⟨hn, -⟩, h⟩ := h
    intro y hy
    rcases List.mem_cons.mp hy with rfl | hy
    · exact .refl
    · exact .head hn.symm (ih h y hy)

end Path

/-- The nodes `ns`, each once, in a ring. -/
structure Ring (next prev : N → N) (ns : List N) : Prop where
  path : ∀ h ts, ns = h :: ts → Path next prev h ts h
  nodup : ns.Nodup

namespace Ring

variable {next prev next' prev' : N → N} {a b n : N} {as bs cs ns : List N}

/-- A ring of one node. -/
theorem single (h : next a = a ∧ prev a = a) : Ring next prev [a] := by
  refine ⟨?_, List.nodup_singleton a⟩
  rintro b ts heq
  obtain ⟨rfl, rfl⟩ := List.cons.inj heq
  exact h

/-- The ring may be read from any of its nodes. -/
theorem rotate (as bs : List N) (r : Ring next prev (as ++ bs)) : Ring next prev (bs ++ as) := by
  refine ⟨?_, List.nodup_append_comm.mp r.nodup⟩
  cases as with
  | nil => simpa using r.path
  | cons x as =>
    cases bs with
    | nil => simpa using r.path
    | cons y bs =>
      rintro h ts heq
      obtain ⟨rfl, rfl⟩ := List.cons.inj heq
      have hp := r.path x (as ++ y :: bs) rfl
      rw [path_append] at hp
      exact path_append.mpr hp.symm

theorem congr (r : Ring next prev ns) (hn : ∀ x ∈ ns, next' x = next x) (hp : ∀ x ∈ ns, prev' x = prev x) :
    Ring next' prev' ns := by
  refine ⟨?_, r.nodup⟩
  rintro h ts rfl
  refine (r.path h ts rfl).congr hn fun y hy => hp y ?_
  simpa [or_comm] using hy

/-- Neighbours. -/
theorem adjacent (r : Ring next prev (as ++ a :: b :: cs)) : next a = b ∧ prev b = a :=
  ((r.rotate as (a :: b :: cs)).path a (b :: cs ++ as) rfl).1

/-- From the last node to the first. -/
theorem wrap (r : Ring next prev (a :: (as ++ [b]))) : next b = a ∧ prev a = b := by
  have hp := r.path a (as ++ [b]) rfl
  exact (path_append.mp hp).2

/-- Where the ring goes on behind `a`. -/
theorem next_head (r : Ring next prev (a :: ns)) : (ns ++ [a]).head? = some (next a) ∧ prev (next a) = a := by
  have hp := r.path a ns rfl
  cases ns with
  | nil => exact ⟨by rw [hp.1]; rfl, by rw [hp.1]; exact hp.2⟩
  | cons x xs => exact ⟨by rw [hp.1.1]; rfl, by rw [hp.1.1]; exact hp.1.2⟩

/-- `next` does not lead out of the ring. -/
theorem next_mem (r : Ring next prev (a :: ns)) : next a ∈ a :: ns := by
  have hmem := List.mem_of_mem_head? (r.next_head.1 ▸ rfl : next a ∈ (ns ++ [a]).head?)
  simpa [or_comm] using hmem

variable [DecidableEq N]

/-- The nodes are what `next` leads to. -/
theorem reach_iff (r : Ring next prev (a :: ns)) {y : N} :
    Relation.ReflTransGen (fun x y => y = next x) a y ↔ y ∈ a :: ns := by
  refine ⟨fun h => ?_, (r.path a ns rfl).reach y⟩
  induction h with
  | refl => exact List.mem_cons_self
  | @tail x _ _ hxy ih =>
    subst hxy
    obtain ⟨as, bs, hsplit⟩ := List.append_of_mem ih
    -- the ring read from `x`
    have hmem := (Ring.rotate as (x :: bs) (hsplit ▸ r)).next_mem
    rw [hsplit]
    simpa [or_comm, or_assoc, or_left_comm] using hmem

/-- **Putting `n` behind `a`.** -/
theorem insert (r : Ring next prev (as ++ a :: cs)) (hn : n ∉ as ++ a :: cs)
    (hnext : ∀ x ∈ as ++ a :: cs, next' x = if x = a then n else next x) (hnextn : next' n = next a)
    (hprev : ∀ x ∈ as ++ a :: cs, prev' x = if x = next a then n else prev x) (hprevn : prev' n = a) :
    Ring next' prev' (as ++ a :: n :: cs) := by
  have hmem : ∀ x ∈ a :: (cs ++ as), x ∈ as ++ a :: cs := fun x hx => by
    simp only [List.mem_append, List.mem_cons] at hx ⊢
    tauto
  have r' : Ring next prev (a :: (cs ++ as)) := r.rotate as (a :: cs)
  have hnot : n ∉ a :: (cs ++ as) := fun h => hn (hmem n h)
  suffices h : Ring next' prev' (a :: n :: (cs ++ as)) from rotate (a :: n :: cs) as h
  refine ⟨?_, List.nodup_cons.mpr ⟨?_, List.nodup_cons.mpr ⟨?_, (List.nodup_cons.mp r'.nodup).2⟩⟩⟩
  · rintro h ts heq
    obtain ⟨rfl, rfl⟩ := List.cons.inj heq
    have hp := r'.path a _ rfl
    have hfirst : next' a = n := by rw [hnext a (hmem a (by simp)), if_pos rfl]
    refine ⟨⟨hfirst, hprevn⟩, ?_⟩
    generalize cs ++ as = ts at *
    cases ts with
    | nil =>
      refine ⟨hnextn.trans hp.1, ?_⟩
      rw [hprev a (hmem a (by simp)), if_pos hp.1.symm]
    | cons q ts =>
      obtain ⟨⟨hq, -⟩, hp⟩ := hp
      have hnd := r'.nodup
      refine ⟨⟨hnextn.trans hq, by rw [hprev q (hmem q (by simp)), if_pos hq.symm]⟩, hp.congr (fun y hy => ?_)
        fun y hy => ?_⟩
      · rw [hnext y (hmem y (by simp at hy ⊢; tauto)), if_neg]
        rintro rfl
        exact (List.nodup_cons.mp hnd).1 hy
      · rw [hprev y (hmem y (by simp at hy ⊢; tauto)), if_neg]
        rintro rfl
        rw [hq] at hy
        simp only [List.mem_append, List.mem_singleton] at hy
        rcases hy with hy | rfl
        · exact (List.nodup_cons.mp (List.nodup_cons.mp hnd).2).1 hy
        · exact (List.nodup_cons.mp hnd).1 (by simp)
  · intro h
    rcases List.mem_cons.mp h with rfl | h
    · exact hnot (by simp)
    · exact (List.nodup_cons.mp r'.nodup).1 h
  · exact fun h => hnot (List.mem_cons_of_mem a h)

/-- Putting `n` behind the node the list starts with. -/
theorem push (r : Ring next prev (a :: ns)) (hn : n ∉ a :: ns)
    (hnext : ∀ x ∈ a :: ns, next' x = if x = a then n else next x) (hnextn : next' n = next a)
    (hprev : ∀ x ∈ a :: ns, prev' x = if x = next a then n else prev x) (hprevn : prev' n = a) :
    Ring next' prev' (a :: n :: ns) :=
  show Ring next' prev' ([] ++ a :: n :: ns) from
    insert (show Ring next prev ([] ++ a :: ns) from r) hn hnext hnextn hprev hprevn

/-- **Taking out** the node `n` behind `a`. -/
theorem remove (r : Ring next prev (as ++ a :: n :: cs))
    (hnext : ∀ x ∈ as ++ a :: cs, next' x = if x = a then next n else next x)
    (hprev : ∀ x ∈ as ++ a :: cs, prev' x = if x = next n then a else prev x) :
    Ring next' prev' (as ++ a :: cs) := by
  have hmem : ∀ x ∈ a :: (cs ++ as), x ∈ as ++ a :: cs := fun x hx => by
    simp only [List.mem_append, List.mem_cons] at hx ⊢
    tauto
  have r' : Ring next prev (a :: n :: (cs ++ as)) := r.rotate as (a :: n :: cs)
  obtain ⟨ha, hn⟩ := List.nodup_cons.mp r'.nodup
  suffices h : Ring next' prev' (a :: (cs ++ as)) from rotate (a :: cs) as h
  refine ⟨?_, List.nodup_cons.mpr ⟨fun h => ha (List.mem_cons_of_mem n h), (List.nodup_cons.mp hn).2⟩⟩
  rintro h ts heq
  obtain ⟨rfl, rfl⟩ := List.cons.inj heq
  have hp := (r'.path a _ rfl).2
  have hfirst : next' a = next n := by rw [hnext a (hmem a (by simp)), if_pos rfl]
  generalize cs ++ as = ts at *
  cases ts with
  | nil =>
    refine ⟨hfirst.trans hp.1, ?_⟩
    rw [hprev a (hmem a (by simp)), if_pos hp.1.symm]
  | cons q ts =>
    obtain ⟨⟨hq, -⟩, hp⟩ := hp
    refine ⟨⟨hfirst.trans hq, by rw [hprev q (hmem q (by simp)), if_pos hq.symm]⟩, hp.congr (fun y hy => ?_)
      fun y hy => ?_⟩
    · rw [hnext y (hmem y (by simp at hy ⊢; tauto)), if_neg]
      rintro rfl
      exact ha (List.mem_cons_of_mem n hy)
    · rw [hprev y (hmem y (by simp at hy ⊢; tauto)), if_neg]
      rintro rfl
      rw [hq] at hy
      simp only [List.mem_append, List.mem_singleton] at hy
      rcases hy with hy | rfl
      · exact (List.nodup_cons.mp (List.nodup_cons.mp hn).2).1 hy
      · exact ha (by simp)

end Ring

end CoreLink.Lib
