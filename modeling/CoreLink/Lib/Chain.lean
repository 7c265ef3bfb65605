/-
# `CoreLink.Lib.Chain` — singly linked lists that end in NULL.

A singly linked list is a `next` map on nodes, read from a first pointer on: `Chain next a ns` says that from `a`
one visits `ns` in order and then finds NULL. `TailChain` adds the pointer to the last node that a queue keeps
beside the pointer to the first. The updates a C program makes on such lists (put in front, append behind the
tail, take the first node off) each get the rule that says which list results.

Nodes that belong to a fixed pool are at any time either on one of the lists or held by somebody. `Partition`
states that nothing is lost and nothing has two places; `Partition.move` is the one rule for a node that changes
its place.
-/
import Mathlib.Data.Finset.Card

namespace CoreLink.Lib

variable {N : Type*}

/-! ## Chains -/

/-- From `a` on, `next` leads through the nodes `ns` in order and then to NULL. -/
def Chain (next : N → Option N) : Option N → List N → Prop
  | a, [] => a = none
  | a, n :: ns => a = some n ∧ Chain next (next n) ns

/-- What a pointer to a pointer into a list points to: the list variable (`none`), or the link of a node. -/
def readLink (next : N → Option N) (head : Option N) : Option N → Option N
  | none => head
  | some p => next p

/-- A store through a pointer to a pointer, seen from the list variable. -/
def writeHead (head : Option N) : Option N → Option N → Option N
  | none, v => v
  | some _, _ => head

/-- The same store, seen from the links. -/
def writeNext [DecidableEq N] (next : N → Option N) : Option N → Option N → N → Option N
  | none, _ => next
  | some p, v => Function.update next p v

/-- A chain with a pointer to its last node. -/
structure TailChain (next : N → Option N) (head tail : Option N) (ns : List N) : Prop where
  chain : Chain next head ns
  tail_eq : tail = ns.getLast?

namespace Chain

variable {next next' : N → Option N} {a : Option N} {ns : List N} {n m : N}

theorem congr (h : Chain next a ns) (hn : ∀ n ∈ ns, next' n = next n) : Chain next' a ns := by
  induction ns generalizing a with
  | nil => exact h
  | cons n ns ih =>
      refine ⟨h.1, ?_⟩
      rw [hn n List.mem_cons_self]
      exact ih h.2 fun m hm => hn m (List.mem_cons_of_mem _ hm)

theorem head_eq (h : Chain next a ns) : a = ns.head? := by
  cases ns with
  | nil => exact h
  | cons n ns => exact h.1

/-- The chain from a given pointer is determined. -/
theorem unique {ms : List N} (h : Chain next a ns) (h' : Chain next a ms) : ns = ms := by
  induction ns generalizing a ms with
  | nil =>
      cases ms with
      | nil => rfl
      | cons m ms => exact absurd (h.symm.trans h'.1) (by simp)
  | cons n ns ih =>
      cases ms with
      | nil => exact absurd (h.1.symm.trans h') (by simp)
      | cons m ms =>
          obtain rfl : n = m := Option.some.inj (h.1.symm.trans h'.1)
          rw [ih h.2 h'.2]

/-- Where the pointer to the link behind `as` leads. -/
theorem split {as bs : List N} (h : Chain next a (as ++ bs)) : Chain next (readLink next a as.getLast?) bs := by
  induction as generalizing a with
  | nil => exact h
  | cons x xs ih =>
      cases xs with
      | nil => exact h.2
      | cons y ys =>
          obtain ⟨q, hq⟩ : ∃ q, (y :: ys).getLast? = some q := ⟨_, List.getLast?_eq_some_getLast (List.cons_ne_nil y ys)⟩
          have hrest := ih h.2
          rw [hq] at hrest
          rw [List.getLast?_cons_cons, hq]
          exact hrest

variable [DecidableEq N]

theorem update (h : Chain next a ns) (hn : n ∉ ns) (b : Option N) :
    Chain (Function.update next n b) a ns :=
  h.congr fun m hm => Function.update_of_ne (fun e => hn (by rwa [← e])) _ _

/-- A node put in front. -/
theorem push (h : Chain next a ns) (hn : n ∉ ns) :
    Chain (Function.update next n a) (some n) (n :: ns) := by
  refine ⟨rfl, ?_⟩
  rw [Function.update_self]
  exact h.update hn a

/-- **A store through the pointer to a link**: what follows `as` is replaced. -/
theorem write {as bs ms : List N} {v : Option N} (h : Chain next a (as ++ bs)) (hnd : as.Nodup) (hv : Chain next v ms)
    (hms : ∀ p ∈ as, p ∉ ms) : Chain (writeNext next as.getLast? v) (writeHead a as.getLast? v) (as ++ ms) := by
  induction as generalizing a with
  | nil => exact hv
  | cons x xs ih =>
      obtain ⟨rfl, h⟩ := h
      obtain ⟨hx, hnd⟩ := List.nodup_cons.mp hnd
      cases xs with
      | nil =>
          refine ⟨rfl, ?_⟩
          show Chain (Function.update next x v) (Function.update next x v x) ms
          rw [Function.update_self]
          exact hv.update (hms x List.mem_cons_self) v
      | cons y ys =>
          have hrest := ih h hnd fun p hp => hms p (List.mem_cons_of_mem x hp)
          obtain ⟨q, hq⟩ : ∃ q, (y :: ys).getLast? = some q := ⟨_, List.getLast?_eq_some_getLast (List.cons_ne_nil y ys)⟩
          have hxq : x ≠ q := fun e => hx (e ▸ List.mem_of_getLast? hq)
          rw [hq] at hrest
          rw [List.getLast?_cons_cons, hq]
          refine ⟨rfl, ?_⟩
          show Chain (Function.update next q v) (Function.update next q v x) (y :: ys ++ ms)
          rw [Function.update_of_ne hxq]
          exact hrest

/-- A node appended behind the last one. -/
theorem append_tail (h : Chain next a (ns ++ [m])) (hm : m ∉ ns) (hn : n ∉ ns ++ [m]) (hnull : next n = none) :
    Chain (Function.update next m (some n)) a (ns ++ [m, n]) := by
  have hnm : n ≠ m := fun e => hn (by simp [e])
  induction ns generalizing a with
  | nil =>
      refine ⟨h.1, ?_⟩
      rw [Function.update_self]
      exact ⟨rfl, by rw [Function.update_of_ne hnm]; exact hnull⟩
  | cons x xs ih =>
      have hxm : x ≠ m := fun e => hm (by simp [e])
      refine ⟨h.1, ?_⟩
      rw [Function.update_of_ne hxm]
      exact ih h.2 (fun hm' => hm (List.mem_cons_of_mem _ hm')) fun hn' => hn (List.mem_cons_of_mem _ hn')

end Chain

/-! ## Chains with a tail pointer -/

namespace TailChain

variable {next next' : N → Option N} {head tail : Option N} {ns : List N} {n : N}

theorem congr (h : TailChain next head tail ns) (hn : ∀ n ∈ ns, next' n = next n) :
    TailChain next' head tail ns :=
  ⟨h.chain.congr hn, h.tail_eq⟩

/-- The first node taken off: the head pointer moves on, and the tail pointer is cleared if it named that node. -/
theorem pop [DecidableEq N] (h : TailChain next head tail (n :: ns)) (hn : n ∉ ns) :
    head = some n ∧ TailChain next (next n) (if tail = some n then none else tail) ns := by
  refine ⟨h.chain.1, h.chain.2, ?_⟩
  rw [h.tail_eq]
  cases ns with
  | nil => simp
  | cons m ms =>
      have hne : (n :: m :: ms).getLast? ≠ some n := by
        rw [List.getLast?_cons_cons]
        exact fun e => hn (List.mem_of_getLast? e)
      rw [if_neg hne, List.getLast?_cons_cons]

variable [DecidableEq N]

theorem update (h : TailChain next head tail ns) (hn : n ∉ ns) (b : Option N) :
    TailChain (Function.update next n b) head tail ns :=
  ⟨h.chain.update hn b, h.tail_eq⟩

/-- A node put in front; it becomes the tail as well if there was none. -/
theorem push (h : TailChain next head tail ns) (hn : n ∉ ns) :
    TailChain (Function.update next n head) (some n) (if tail = none then some n else tail) (n :: ns) := by
  refine ⟨h.chain.push hn, ?_⟩
  rw [h.tail_eq]
  cases ns with
  | nil => simp
  | cons m ms => simp [List.getLast?_cons_cons]

/-- A node appended: linked behind the old tail if there is one, and made the head if there is none. -/
theorem append (h : TailChain next head tail ns) (hnd : ns.Nodup) (hn : n ∉ ns) (hnull : next n = none)
    (hnext : ∀ m, next' m = if tail = some m then some n else next m) :
    TailChain next' (if head = none then some n else head) (some n) (ns ++ [n]) := by
  refine ⟨?_, by simp⟩
  rcases List.eq_nil_or_concat' ns with rfl | ⟨xs, m, rfl⟩
  · obtain rfl : head = none := h.chain
    obtain rfl : tail = none := h.tail_eq
    exact ⟨rfl, by rw [hnext, if_neg (by simp)]; exact hnull⟩
  · have hm : m ∉ xs := by
      rw [List.nodup_append] at hnd
      exact fun hm => hnd.2.2 m hm m (by simp) rfl
    obtain rfl : tail = some m := by simpa using h.tail_eq
    have hhead : head ≠ none := by
      rw [h.chain.head_eq]
      simp
    have hupd : next' = Function.update next m (some n) := by
      funext x
      rw [hnext, Function.update_apply]
      simp [eq_comm]
    rw [if_neg hhead, List.append_assoc, hupd]
    exact h.chain.append_tail hm hn hnull

end TailChain

/-! ## The nodes of a pool -/

/-- The nodes of a pool: each is exactly once on the lists `listed`, or it is held by exactly one holder. -/
structure Partition {T : Type*} (pool : N → Prop) (listed : List N) (held : T → Option N) : Prop where
  nodup : listed.Nodup
  held_notMem : ∀ {t n}, held t = some n → n ∉ listed
  held_inj : ∀ {t u n}, held t = some n → held u = some n → t = u
  cover : ∀ n, pool n ↔ n ∈ listed ∨ ∃ t, held t = some n

namespace Partition

variable {T : Type*} {pool : N → Prop} {listed listed' : List N} {held held' : T → Option N}

theorem perm (h : Partition pool listed held) (hp : listed'.Perm listed) : Partition pool listed' held where
  nodup := hp.nodup_iff.mpr h.nodup
  held_notMem ht := fun hm => h.held_notMem ht (hp.mem_iff.mp hm)
  held_inj := h.held_inj
  cover n := by rw [h.cover n, hp.mem_iff]

/-- No more of `n` numbered nodes than `n` are on the lists. -/
theorem length_le {n : Nat} {listed : List Nat} {held : T → Option Nat} (h : Partition (· < n) listed held) :
    listed.length ≤ n := by
  have hsub : listed.toFinset ⊆ Finset.range n := fun i hi => by
    rw [List.mem_toFinset] at hi
    exact Finset.mem_range.mpr ((h.cover i).mpr (.inl hi))
  calc listed.length = listed.toFinset.card := (List.toFinset_card_of_nodup h.nodup).symm
    _ ≤ (Finset.range n).card := Finset.card_le_card hsub
    _ = n := Finset.card_range n

/-- A new node of the pool, held by `t`. -/
theorem grow [DecidableEq T] {pool' : N → Prop} (h : Partition pool listed held) {t : T} {x : N} (hx : ¬ pool x)
    (ht : held t = none) (hp : ∀ n, pool' n ↔ pool n ∨ n = x) :
    Partition pool' listed (Function.update held t (some x)) := by
  have hlisted : x ∉ listed := fun hm => hx ((h.cover x).mpr (.inl hm))
  have hheld : ∀ u, held u ≠ some x := fun u hu => hx ((h.cover x).mpr (.inr ⟨u, hu⟩))
  have hupd : ∀ u n, Function.update held t (some x) u = some n ↔ held u = some n ∨ (u = t ∧ n = x) := fun u n => by
    by_cases hut : u = t
    · subst hut
      simp [ht, eq_comm]
    · simp [hut]
  refine ⟨h.nodup, ?_, ?_, ?_⟩
  · intro u n hu
    rcases (hupd u n).mp hu with hu | ⟨rfl, rfl⟩
    · exact h.held_notMem hu
    · exact hlisted
  · intro u v n hu hv
    rw [hupd] at hu hv
    rcases hu with hu | ⟨hut, hn⟩ <;> rcases hv with hv | ⟨hvt, hn'⟩
    · exact h.held_inj hu hv
    · exact absurd (hn' ▸ hu) (hheld u)
    · exact absurd (hn ▸ hv) (hheld v)
    · rw [hut, hvt]
  · intro n
    rw [hp, h.cover n, or_assoc]
    refine or_congr_right ?_
    constructor
    · rintro (⟨u, hu⟩ | rfl)
      · exact ⟨u, (hupd u n).mpr (.inl hu)⟩
      · exact ⟨t, (hupd t n).mpr (.inr ⟨rfl, rfl⟩)⟩
    · rintro ⟨u, hu⟩
      exact ((hupd u n).mp hu).imp (fun hu => ⟨u, hu⟩) fun hu => hu.2

/-- **A node changes its place.** What was on the lists or held by `t` is again on the lists or held by `t`. -/
theorem move [DecidableEq T] (h : Partition pool listed held) (t : T) (o : Option N)
    (hp : (listed' ++ o.toList).Perm (listed ++ (held t).toList)) :
    Partition pool listed' (Function.update held t o) := by
  have hnd : (listed' ++ o.toList).Nodup := by
    refine hp.nodup_iff.mpr (List.nodup_append.mpr ⟨h.nodup, ?_, ?_⟩)
    · cases held t <;> simp
    · rintro a ha b hb rfl
      exact h.held_notMem (by simpa using hb) ha
  have hmem : ∀ n, n ∈ listed' ∨ o = some n ↔ n ∈ listed ∨ held t = some n := fun n => by
    simpa using hp.mem_iff (a := n)
  -- nobody else holds a node that `t` gets or that goes to the lists
  have hother : ∀ {u n}, u ≠ t → held u = some n → ¬ (n ∈ listed' ∨ o = some n) := fun hu hn hm =>
    ((hmem _).mp hm).elim (h.held_notMem hn) fun ht => hu (h.held_inj hn ht)
  refine ⟨hnd.of_append_left, ?_, ?_, ?_⟩
  · intro u n hu
    by_cases hut : u = t
    · subst hut
      rw [Function.update_self] at hu
      subst hu
      intro hn
      exact (List.nodup_append.mp hnd).2.2 n hn n (by simp) rfl
    · rw [Function.update_of_ne hut] at hu
      exact fun hm => hother hut hu (.inl hm)
  · intro u v n hu hv
    by_cases hut : u = t <;> by_cases hvt : v = t
    · rw [hut, hvt]
    · subst hut
      rw [Function.update_self] at hu
      rw [Function.update_of_ne hvt] at hv
      exact absurd (.inr hu) (hother hvt hv)
    · subst hvt
      rw [Function.update_self] at hv
      rw [Function.update_of_ne hut] at hu
      exact absurd (.inr hv) (hother hut hu)
    · rw [Function.update_of_ne hut] at hu
      rw [Function.update_of_ne hvt] at hv
      exact h.held_inj hu hv
  · intro n
    rw [h.cover n]
    constructor
    · rintro (hn | ⟨u, hu⟩)
      · exact ((hmem n).mpr (.inl hn)).imp id fun ho => ⟨t, by rw [Function.update_self, ho]⟩
      · by_cases hut : u = t
        · subst hut
          exact ((hmem n).mpr (.inr hu)).imp id fun ho => ⟨u, by rw [Function.update_self, ho]⟩
        · exact .inr ⟨u, by rw [Function.update_of_ne hut, hu]⟩
    · rintro (hn | ⟨u, hu⟩)
      · exact ((hmem n).mp (.inl hn)).imp id fun ht => ⟨t, ht⟩
      · by_cases hut : u = t
        · subst hut
          rw [Function.update_self] at hu
          exact ((hmem n).mp (.inr hu)).imp id fun ht => ⟨u, ht⟩
        · rw [Function.update_of_ne hut] at hu
          exact .inr ⟨u, hu⟩

end Partition

/-! ## Lists by key -/

/-- One of several lists changes: what is on all of them changes as this one does. -/
theorem flatMap_update_perm {K : Type*} [DecidableEq K] {ks : List K} (hnd : ks.Nodup) {k : K} (hk : k ∈ ks)
    {f : K → List N} {l xs ys : List N} (h : (l ++ xs).Perm (f k ++ ys)) :
    (ks.flatMap (Function.update f k l) ++ xs).Perm (ks.flatMap f ++ ys) := by
  obtain ⟨as, bs, rfl⟩ := List.append_of_mem hk
  obtain ⟨hmem, -⟩ := List.nodup_cons.mp (List.nodup_middle.mp hnd)
  have hsame : ∀ cs : List K, k ∉ cs → cs.flatMap (Function.update f k l) = cs.flatMap f := fun cs hcs =>
    List.flatMap_congr fun x hx => Function.update_of_ne (ne_of_mem_of_not_mem hx hcs) _ _
  rw [List.mem_append, not_or] at hmem
  simp only [List.flatMap_append, List.flatMap_cons, Function.update_self, hsame as hmem.1, hsame bs hmem.2]
  have hmid : ∀ l xs : List N, (as.flatMap f ++ (l ++ bs.flatMap f) ++ xs).Perm
      (as.flatMap f ++ bs.flatMap f ++ (l ++ xs)) := fun l xs => by
    simp only [List.append_assoc]
    refine List.Perm.append_left _ ?_
    rw [← List.append_assoc, ← List.append_assoc]
    exact List.perm_append_comm.append_right xs
  exact (hmid l xs).trans ((h.append_left _).trans (hmid (f k) ys).symm)

end CoreLink.Lib
