/-
# `CoreLink.RtThread.SlabPage` — the page allocator below the slabs, `src/slab.c`.

The free runs of pages are a list that is kept in the pages themselves: the first page of a run has the number of its pages and
the link. `prev` goes through the list as a pointer to a link, the variable `rt_page_list` first. A page is its number here, as
the pointers to `struct rt_page_head` are all at multiples of the page size.

The list always represents the free runs in order, with something in between any two (`allocLoop_spec`, `freeLoop_spec`), whatever
part of what has been handed out is freed (`rt_page_allocator`).
-/
import CoreLink.Lib.Chain
import CoreLink.Lib.FreeRuns
import CoreLink.Lib.Fuel
import CoreLink.Lib.Run

namespace CoreLink.RtThread

open CoreLink.Lib CoreLink.Lib.Extent

/-! ## The functions -/

/-- `rt_page_list`, and the two fields of the `struct rt_page_head` of every page. -/
structure PageHeap where
  next : Nat → Option Nat
  page : Nat → Nat
  pageList : Option Nat

namespace PageHeap

/-- `*prev`; `none` points to `rt_page_list`. -/
def load (h : PageHeap) (prev : Option Nat) : Option Nat := readLink h.next h.pageList prev

/-- `*prev = v`. -/
def store (h : PageHeap) (prev v : Option Nat) : PageHeap :=
  { h with next := writeNext h.next prev v, pageList := writeHead h.pageList prev v }

/-- `n->next = v`. -/
def setNext (h : PageHeap) (n : Nat) (v : Option Nat) : PageHeap := { h with next := Function.update h.next n v }

/-- `n->page = k`. -/
def setPage (h : PageHeap) (n k : Nat) : PageHeap := { h with page := Function.update h.page n k }

/-- The loop of `rt_page_alloc`. -/
def allocLoop (npages : Nat) : Nat → Option Nat → PageHeap → Option (Option Nat × PageHeap)
  | 0, _, _ => none
  | fuel + 1, prev, h =>
    match h.load prev with
    | none => some (none, h)
    | some b =>
      if npages < h.page b then
        let n := b + npages
        some (some b, ((h.setNext n (h.next b)).setPage n (h.page b - npages)).store prev (some n))
      else if h.page b = npages then some (some b, h.store prev (h.next b))
      else allocLoop npages fuel (some b) h

/-- `rt_page_alloc`. -/
def rtPageAlloc (fuel npages : Nat) (h : PageHeap) : Option (Option Nat × PageHeap) :=
  if npages = 0 then some (none, h) else allocLoop npages fuel none h

/-- The loop of `rt_page_free`; it does not go on when an assertion fails. -/
def freeLoop (n npages : Nat) : Nat → Option Nat → PageHeap → Option PageHeap
  | 0, _, _ => none
  | fuel + 1, prev, h =>
    match h.load prev with
    | none => some (((h.setPage n npages).setNext n none).store prev (some n))
    | some b =>
      if h.page b = 0 then none
      else if ¬(n < b ∨ b + h.page b ≤ n) then none
      else if b + h.page b = n then
        let h := h.setPage b (h.page b + npages)
        match h.next b with
        | none => some h
        | some c =>
          if b + h.page b = c then some ((h.setPage b (h.page b + h.page c)).setNext b (h.next c)) else some h
      else if b = n + npages then some (((h.setPage n (h.page b + npages)).setNext n (h.next b)).store prev (some n))
      else if n + npages < b then some (((h.setPage n npages).setNext n (some b)).store prev (some n))
      else freeLoop n npages fuel (some b) h

/-- `rt_page_free`. -/
def rtPageFree (fuel addr npages : Nat) (h : PageHeap) : Option PageHeap :=
  if addr = 0 ∨ npages = 0 then none else freeLoop addr npages fuel none h

/-- `rt_page_init`. -/
def rtPageInit (fuel addr npages : Nat) (h : PageHeap) : Option PageHeap :=
  if addr = 0 ∨ npages = 0 then none else rtPageFree fuel addr npages { h with pageList := none }

/-! ## What the list represents -/

/-- The list goes through the runs, and their first pages have their numbers of pages. -/
structure Rep (h : PageHeap) (runs : List Extent) : Prop where
  chain : Chain h.next h.pageList (runs.map Extent.start)
  page : ∀ e ∈ runs, h.page e.start = e.size

variable {h : PageHeap} {as bs ds : List Extent} {e n : Extent} {a k : Nat} {v : Option Nat}

/-- The pointer to the link behind a part of the list. -/
def prevOf (as : List Extent) : Option Nat := (as.map Extent.start).getLast?

theorem prevOf_concat (as : List Extent) (e : Extent) : prevOf (as ++ [e]) = some e.start := by
  rw [prevOf, List.map_append, List.map_singleton, List.getLast?_concat]

namespace Rep

/-- What is behind the pointer to a link. -/
theorem behind (r : Rep h (as ++ bs)) : Chain h.next (h.load (prevOf as)) (bs.map Extent.start) := by
  have hchain := r.chain
  rw [List.map_append] at hchain
  exact hchain.split

theorem load_nil (r : Rep h (as ++ [])) : h.load (prevOf as) = none := r.behind

theorem load_cons (r : Rep h (as ++ e :: bs)) :
    h.load (prevOf as) = some e.start ∧ Chain h.next (h.next e.start) (bs.map Extent.start) ∧ h.page e.start = e.size :=
  ⟨r.behind.1, r.behind.2, r.page e (List.mem_append_right as List.mem_cons_self)⟩

variable (ds) in
/-- **The link behind `as` is redirected**, to what a part of the list begins with. -/
theorem store (r : Rep h (as ++ (ds ++ bs))) (hnd : ((as ++ (ds ++ bs)).map Extent.start).Nodup)
    (hv : Chain h.next v (bs.map Extent.start)) : Rep (h.store (prevOf as) v) (as ++ bs) := by
  have hchain := r.chain
  rw [List.map_append] at hchain hnd
  have hapart : ∀ p ∈ as.map Extent.start, p ∉ bs.map Extent.start := by
    intro p hp hp'
    refine (List.disjoint_of_nodup_append hnd) hp ?_
    rw [List.map_append]
    exact List.mem_append_right _ hp'
  constructor
  case chain =>
    rw [List.map_append]
    exact hchain.write (List.nodup_append.mp hnd).1 hv hapart
  case page =>
    intro f hf
    refine r.page f ?_
    rcases List.mem_append.mp hf with hf | hf
    · exact List.mem_append_left _ hf
    · exact List.mem_append_right _ (List.mem_append_right _ hf)

variable (ds e) in
/-- **A node is written and linked in** behind `as`. -/
theorem link (r : Rep h (as ++ (ds ++ bs))) (hnd : ((as ++ (ds ++ bs)).map Extent.start).Nodup)
    (hnew : ∀ f ∈ as ++ (ds ++ bs), f.start ≠ e.start) (hv : Chain h.next v (bs.map Extent.start)) :
    Rep (((h.setPage e.start e.size).setNext e.start v).store (prevOf as) (some e.start)) (as ++ e :: bs) := by
  have hnotMem : ∀ cs : List Extent, (∀ f ∈ cs, f.start ≠ e.start) → e.start ∉ cs.map Extent.start := by
    intro cs hcs hm
    obtain ⟨f, hf, hfe⟩ := List.mem_map.mp hm
    exact hcs f hf hfe
  have hbs : ∀ f ∈ bs, f.start ≠ e.start := fun f hf =>
    hnew f (List.mem_append_right _ (List.mem_append_right _ hf))
  have hasb : ∀ f ∈ as, f.start ≠ e.start := fun f hf => hnew f (List.mem_append_left _ hf)
  have hchain := r.chain.update (hnotMem _ hnew) v
  rw [List.map_append] at hchain hnd
  have htail : Chain (Function.update h.next e.start v) (some e.start) ((e :: bs).map Extent.start) := by
    refine ⟨rfl, ?_⟩
    rw [Function.update_self]
    exact hv.update (hnotMem bs hbs) v
  have hapart : ∀ p ∈ as.map Extent.start, p ∉ (e :: bs).map Extent.start := by
    intro p hp hp'
    rcases List.mem_cons.mp hp' with rfl | hp'
    · exact hnotMem as hasb hp
    · refine (List.disjoint_of_nodup_append hnd) hp ?_
      rw [List.map_append]
      exact List.mem_append_right _ hp'
  constructor
  case chain =>
    rw [List.map_append]
    exact hchain.write (List.nodup_append.mp hnd).1 htail hapart
  case page =>
    intro f hf
    show Function.update h.page e.start e.size f.start = f.size
    have hother : f.start ≠ e.start → f ∈ as ++ (ds ++ bs) → Function.update h.page e.start e.size f.start = f.size := by
      intro hne hm
      rw [Function.update_of_ne hne]
      exact r.page f hm
    rcases List.mem_append.mp hf with hf | hf
    · exact hother (hasb f hf) (List.mem_append_left _ hf)
    · rcases List.mem_cons.mp hf with rfl | hf
      · exact Function.update_self _ _ _
      · exact hother (hbs f hf) (List.mem_append_right _ (List.mem_append_right _ hf))

/-- The number of pages of a run is written. -/
theorem setPage (r : Rep h (as ++ e :: bs)) (hnd : ((as ++ e :: bs).map Extent.start).Nodup) (k : Nat) :
    Rep (h.setPage e.start k) (as ++ ⟨e.start, k⟩ :: bs) := by
  have hchain := r.chain
  rw [List.map_append, List.map_cons] at hchain hnd
  obtain ⟨hnotMem, -⟩ := List.nodup_cons.mp (List.nodup_middle.mp hnd)
  have hother : ∀ f ∈ as ++ bs, f.start ≠ e.start := by
    intro f hf heq
    refine hnotMem ?_
    rw [← List.map_append]
    exact heq ▸ List.mem_map_of_mem hf
  constructor
  case chain =>
    rw [List.map_append, List.map_cons]
    exact hchain
  case page =>
    intro f hf
    show Function.update h.page e.start k f.start = f.size
    rcases List.mem_append.mp hf with hf | hf
    · rw [Function.update_of_ne (hother f (List.mem_append_left _ hf))]
      exact r.page f (List.mem_append_left _ hf)
    · rcases List.mem_cons.mp hf with rfl | hf
      · exact Function.update_self _ _ _
      · rw [Function.update_of_ne (hother f (List.mem_append_right _ hf))]
        exact r.page f (List.mem_append_right _ (List.mem_cons_of_mem e hf))

end Rep

/-! ## The loops -/

variable (as) in
/-- **The loop of `rt_page_alloc`**, from a link on. -/
theorem allocLoop_spec (hk : 0 < k) (r : Rep h (as ++ bs)) (g : Gapped (as ++ bs)) :
    ∃ o h', Returns (fun fuel => allocLoop k fuel (prevOf as) h) (o, h') ∧
      ((takeFirst k bs = none ∧ o = none ∧ h' = h) ∨
        ∃ b bs', takeFirst k bs = some (b, bs') ∧ o = some b ∧ Rep h' (as ++ bs')) := by
  induction bs generalizing as with
  | nil =>
    refine ⟨none, h, .now rfl fun fuel => ?_, Or.inl ⟨rfl, rfl, rfl⟩⟩
    rw [allocLoop, r.load_nil]
  | cons e bs ih =>
    obtain ⟨hload, htail, hpage⟩ := r.load_cons
    obtain ⟨has, hbs⟩ := g.around
    by_cases hlt : k < e.size
    · -- the run is split
      have htake : takeFirst k (e :: bs) = some (e.start, ⟨e.start + k, e.size - k⟩ :: bs) := if_pos hlt
      have hnew : ∀ f ∈ as ++ ([e] ++ bs), f.start ≠ e.start + k := by
        intro f hf
        rcases List.mem_append.mp hf with hf | hf
        · have := has f hf
          omega
        · rcases List.mem_cons.mp hf with rfl | hf
          · omega
          · have := hbs f hf
            omega
      have hlink := Rep.link [e] ⟨e.start + k, e.size - k⟩ r g.starts_nodup hnew htail
      refine ⟨_, _, .now rfl fun fuel => ?_, Or.inr ⟨_, _, htake, rfl, hlink⟩⟩
      rw [allocLoop, hload]
      dsimp only
      rw [hpage, if_pos hlt]
      rfl
    · by_cases heq : e.size = k
      · -- the run fits
        have htake : takeFirst k (e :: bs) = some (e.start, bs) := by
          rw [takeFirst, if_neg hlt, if_pos heq]
        have hstore := Rep.store [e] r g.starts_nodup htail
        refine ⟨_, _, .now rfl fun fuel => ?_, Or.inr ⟨_, _, htake, rfl, hstore⟩⟩
        rw [allocLoop, hload]
        dsimp only
        rw [hpage, if_neg hlt, if_pos heq]
      · -- it is too small
        have htake : takeFirst k (e :: bs) = (takeFirst k bs).map fun r => (r.1, e :: r.2) := by
          rw [takeFirst, if_neg hlt, if_neg heq]
        have hassoc : as ++ e :: bs = (as ++ [e]) ++ bs := by rw [List.append_assoc, List.singleton_append]
        rw [hassoc] at r g
        obtain ⟨o, h', hreturns, hcase⟩ := ih (as ++ [e]) r g
        rw [prevOf_concat] at hreturns
        refine ⟨o, h', .later rfl (fun fuel => ?_) hreturns, ?_⟩
        · rw [allocLoop, hload]
          dsimp only
          rw [hpage, if_neg hlt, if_neg heq]
        · rcases hcase with ⟨hnone, ho⟩ | ⟨b, bs', hsome, ho, hrep⟩
          · exact Or.inl ⟨by rw [htake, hnone]; rfl, ho⟩
          · rw [List.append_assoc, List.singleton_append] at hrep
            exact Or.inr ⟨b, e :: bs', by rw [htake, hsome]; rfl, ho, hrep⟩

variable (bs ds v) in
/-- A run that is freed is put behind the link. -/
theorem Rep.putBefore (r : Rep h (as ++ (ds ++ bs))) (g : Gapped (as ++ (ds ++ bs))) (hv : Chain h.next v (bs.map Extent.start))
    (has : ∀ f ∈ as, f.start + f.size < n.start) (hds : ∀ f ∈ ds ++ bs, f.start ≠ n.start) (k : Nat) :
    Rep (((h.setPage n.start k).setNext n.start v).store (prevOf as) (some n.start)) (as ++ ⟨n.start, k⟩ :: bs) := by
  refine Rep.link ds ⟨n.start, k⟩ r g.starts_nodup (fun f hf => ?_) hv
  rcases List.mem_append.mp hf with hf | hf
  · have := has f hf
    show f.start ≠ n.start
    omega
  · exact hds f hf

variable (as n) in
/-- **The loop of `rt_page_free`**, from a link on: no assertion fails. -/
theorem freeLoop_spec (hn : 0 < n.size) (r : Rep h (as ++ bs)) (g : Gapped (as ++ bs))
    (has : ∀ f ∈ as, f.start + f.size < n.start) (hbs : ∀ f ∈ bs, Apart f n) :
    ∃ h', Returns (fun fuel => freeLoop n.start n.size fuel (prevOf as) h) h' ∧ Rep h' (as ++ insert n bs) := by
  have hstarts : ∀ f ∈ bs, f.start ≠ n.start := by
    intro f hf heq
    have hpos := g.nonempty f (List.mem_append_right as hf)
    have := hbs f hf
    unfold Apart at this
    omega
  induction bs generalizing as with
  | nil =>
    refine ⟨_, .now rfl fun fuel => ?_, Rep.putBefore [] [] none r g rfl has nofun n.size⟩
    rw [freeLoop, r.load_nil]
  | cons b bs ih =>
    obtain ⟨hload, htail, hpage⟩ := r.load_cons
    obtain ⟨hfront, hbehind⟩ := g.around
    have hpos := g.nonempty b (List.mem_append_right as List.mem_cons_self)
    have hapart := hbs b List.mem_cons_self
    unfold Apart at hapart
    -- a round, without the assertions
    have hround : ∀ fuel, freeLoop n.start n.size (fuel + 1) (prevOf as) h =
        if b.start + b.size = n.start then
          match h.next b.start with
          | none => some (h.setPage b.start (b.size + n.size))
          | some c =>
            if b.start + (b.size + n.size) = c then
              some (((h.setPage b.start (b.size + n.size)).setPage b.start
                (b.size + n.size + (h.setPage b.start (b.size + n.size)).page c)).setNext b.start (h.next c))
            else some (h.setPage b.start (b.size + n.size))
        else if b.start = n.start + n.size then
          some (((h.setPage n.start (b.size + n.size)).setNext n.start (h.next b.start)).store (prevOf as) (some n.start))
        else if n.start + n.size < b.start then
          some (((h.setPage n.start n.size).setNext n.start (some b.start)).store (prevOf as) (some n.start))
        else freeLoop n.start n.size fuel (some b.start) h := by
      intro fuel
      rw [freeLoop, hload]
      dsimp only
      have hassert : ¬¬(n.start < b.start ∨ b.start + b.size ≤ n.start) := by omega
      rw [hpage, if_neg (by omega), if_neg hassert]
      have hself : (h.setPage b.start (b.size + n.size)).page b.start = b.size + n.size := Function.update_self _ _ _
      simp only [hself]
      rfl
    by_cases htouch : b.start + b.size = n.start
    · -- the run before is made longer
      have hinsert : insert n (b :: bs) = extend b n.size bs := if_pos htouch
      have hset := r.setPage g.starts_nodup (b.size + n.size)
      rw [hinsert]
      cases bs with
      | nil =>
        refine ⟨_, .now rfl fun fuel => ?_, hset⟩
        have hnext : h.next b.start = none := htail
        rw [hround, if_pos htouch, hnext]
      | cons c cs =>
        have hnext : h.next b.start = some c.start := htail.1
        by_cases htouch' : b.start + (b.size + n.size) = c.start
        · -- and touches the next one
          have hc : c.start ≠ b.start := by omega
          have hnd : ((as ++ ⟨b.start, b.size + n.size⟩ :: c :: cs).map Extent.start).Nodup := by
            have hnd := g.starts_nodup
            rw [List.map_append, List.map_cons] at hnd ⊢
            exact hnd
          have hpageC : (h.setPage b.start (b.size + n.size)).page c.start = c.size :=
            (Function.update_of_ne hc _ _).trans (r.page c (by simp))
          let b' : Extent := ⟨b.start, b.size + n.size + c.size⟩
          have hset' : Rep ((h.setPage b.start (b.size + n.size)).setPage b.start (b.size + n.size + c.size))
              ((as ++ [b']) ++ ([c] ++ cs)) := by
            rw [List.append_assoc]
            exact hset.setPage hnd (b.size + n.size + c.size)
          have hnd' : (((as ++ [b']) ++ ([c] ++ cs)).map Extent.start).Nodup := by
            rw [List.append_assoc, List.map_append]
            rw [List.map_append] at hnd
            exact hnd
          have hstore := hset'.store [c] hnd' (v := h.next c.start) htail.2
          rw [prevOf_concat, List.append_assoc] at hstore
          rw [extend, if_pos htouch']
          refine ⟨_, .now rfl fun fuel => ?_, hstore⟩
          rw [hround, if_pos htouch, hnext]
          dsimp only
          rw [if_pos htouch', hpageC]
          rfl
        · refine ⟨_, .now rfl fun fuel => ?_, by rw [extend, if_neg htouch']; exact hset⟩
          rw [hround, if_pos htouch, hnext]
          dsimp only
          rw [if_neg htouch']
    · by_cases htouch' : b.start = n.start + n.size
      · -- the run behind is made longer
        have hinsert : insert n (b :: bs) = ⟨n.start, b.size + n.size⟩ :: bs := by
          rw [Extent.insert, if_neg htouch, if_pos htouch']
        rw [hinsert]
        refine ⟨_, .now rfl fun fuel => ?_, Rep.putBefore bs [b] _ r g htail has hstarts (b.size + n.size)⟩
        rw [hround, if_neg htouch, if_pos htouch']
      · by_cases hbefore : n.start + n.size < b.start
        · have hinsert : insert n (b :: bs) = n :: b :: bs := by
            rw [Extent.insert, if_neg htouch, if_neg htouch', if_pos hbefore]
          rw [hinsert]
          refine ⟨_, .now rfl fun fuel => ?_, Rep.putBefore (b :: bs) [] (some b.start) r g ⟨rfl, htail⟩ has hstarts
            n.size⟩
          rw [hround, if_neg htouch, if_neg htouch', if_pos hbefore]
        · have hinsert : insert n (b :: bs) = b :: insert n bs := by
            rw [Extent.insert, if_neg htouch, if_neg htouch', if_neg hbefore]
          have hassoc : as ++ b :: bs = (as ++ [b]) ++ bs := by rw [List.append_assoc, List.singleton_append]
          rw [hassoc] at r g
          have hb : ∀ f ∈ as ++ [b], f.start + f.size < n.start := by
            intro f hf
            rcases List.mem_append.mp hf with hf | hf
            · exact has f hf
            · obtain rfl := List.mem_singleton.mp hf
              omega
          obtain ⟨h', hreturns, hrep⟩ := ih (as ++ [b]) r g hb (fun f hf => hbs f (List.mem_cons_of_mem b hf)) fun f hf =>
            hstarts f (List.mem_cons_of_mem b hf)
          rw [prevOf_concat] at hreturns
          rw [List.append_assoc, List.singleton_append] at hrep
          refine ⟨h', .later rfl (fun fuel => ?_) hreturns, by rw [hinsert]; exact hrep⟩
          rw [hround, if_neg htouch, if_neg htouch', if_neg hbefore]

/-- **`rt_page_alloc`** gives the beginning of the first run that is large enough. -/
theorem rtPageAlloc_spec {runs : List Extent} (hk : 0 < k) (r : Rep h runs) (g : Gapped runs) :
    ∃ o h', Returns (fun fuel => rtPageAlloc fuel k h) (o, h') ∧
      ((takeFirst k runs = none ∧ o = none ∧ h' = h) ∨
        ∃ b runs', takeFirst k runs = some (b, runs') ∧ o = some b ∧ Rep h' runs') := by
  have hloop : (fun fuel => rtPageAlloc fuel k h) = fun fuel => allocLoop k fuel (prevOf []) h := by
    funext fuel
    exact if_neg (Nat.pos_iff_ne_zero.mp hk)
  rw [hloop]
  exact allocLoop_spec [] hk r g

/-- **`rt_page_free`** puts a run back that overlaps no free one. -/
theorem rtPageFree_spec {runs : List Extent} (r : Rep h runs) (g : Gapped runs) (ha : a ≠ 0) (hk : 0 < k)
    (hapart : ∀ e ∈ runs, Apart e ⟨a, k⟩) :
    ∃ h', Returns (fun fuel => rtPageFree fuel a k h) h' ∧ Rep h' (Extent.insert ⟨a, k⟩ runs) := by
  have hloop : (fun fuel => rtPageFree fuel a k h) = fun fuel => freeLoop a k fuel (prevOf []) h := by
    funext fuel
    exact if_neg fun hor => hor.elim ha (Nat.pos_iff_ne_zero.mp hk)
  rw [hloop]
  exact freeLoop_spec [] ⟨a, k⟩ hk r g nofun hapart

end PageHeap

/-! ## Runs -/

/-- The allocator, and the pages that are handed out. -/
structure PageSys where
  heap : PageHeap
  out : Finset Nat

/-- The calls. -/
inductive PageCall where
  | alloc (npages : Nat)
  | free (addr npages : Nat)

namespace PageSys

open PageHeap

/-- A call that returns. The pages that are freed are any that have been handed out, one behind the other. -/
def Step (s : PageSys) : PageCall → PageSys → Prop
  | .alloc npages, s' => ∃ fuel o, rtPageAlloc fuel npages s.heap = some (o, s'.heap) ∧
      s'.out = o.elim s.out fun b => s.out ∪ Finset.Ico b (b + npages)
  | .free addr npages, s' => 0 < npages ∧ Finset.Ico addr (addr + npages) ⊆ s.out ∧
      (∃ fuel, rtPageFree fuel addr npages s.heap = some s'.heap) ∧ s'.out = s.out \ Finset.Ico addr (addr + npages)

/-- The runs of the list and the pages handed out are the `n` pages from `lo` on. -/
structure Pages (lo n : Nat) (s : PageSys) (runs : List Extent) : Prop where
  rep : Rep s.heap runs
  gapped : Gapped runs
  all : ∀ x, Covers runs x ∨ x ∈ s.out ↔ lo ≤ x ∧ x < lo + n
  apart : ∀ x ∈ s.out, ¬Covers runs x

variable {lo n : Nat} {s s' : PageSys} {runs : List Extent} {c : PageCall}

/-- Pages that are handed out overlap no run of the list. -/
theorem Pages.apart_out (p : Pages lo n s runs) {a k : Nat} (hk : 0 < k) (hout : Finset.Ico a (a + k) ⊆ s.out) :
    ∀ e ∈ runs, Apart e ⟨a, k⟩ := by
  intro e he
  refine apart_of_forall (p.gapped.nonempty e he) hk fun x hxe hx => ?_
  exact p.apart x (hout (Finset.mem_Ico.mpr hx)) ⟨e, he, hxe⟩

/-- A call of `rt_page_free` returns. -/
theorem Pages.free (p : Pages lo n s runs) (hlo : lo ≠ 0) {a k : Nat} (hk : 0 < k) (hout : Finset.Ico a (a + k) ⊆ s.out) :
    ∃ h', Returns (fun fuel => rtPageFree fuel a k s.heap) h' ∧ Rep h' (Extent.insert ⟨a, k⟩ runs) := by
  have ha : a ≠ 0 := by
    have hmem := (p.all a).mp (Or.inr (hout (Finset.mem_Ico.mpr (by omega))))
    omega
  exact rtPageFree_spec p.rep p.gapped ha hk (p.apart_out hk hout)

/-- **A call** keeps the pages together. -/
theorem Pages.step (p : Pages lo n s runs) (hlo : lo ≠ 0) (hstep : Step s c s') : ∃ runs', Pages lo n s' runs' := by
  cases c with
  | alloc k =>
    obtain ⟨fuel, o, hcall, hout⟩ := hstep
    by_cases hk : k = 0
    · subst hk
      obtain ⟨rfl, hheap⟩ := Prod.mk.inj (Option.some.inj hcall)
      refine ⟨runs, ⟨hheap ▸ p.rep, p.gapped, ?_, ?_⟩⟩
      · rw [hout]
        exact p.all
      · rw [hout]
        exact p.apart
    · obtain ⟨o', h', hreturns, hcase⟩ := rtPageAlloc_spec (Nat.pos_of_ne_zero hk) p.rep p.gapped
      obtain ⟨rfl, hheap⟩ := Prod.mk.inj (hreturns.unique hcall)
      rcases hcase with ⟨-, rfl, rfl⟩ | ⟨b, runs', htake, rfl, hrep⟩
      · refine ⟨runs, ⟨hheap ▸ p.rep, p.gapped, ?_, ?_⟩⟩
        · rw [hout]
          exact p.all
        · rw [hout]
          exact p.apart
      · obtain ⟨g', hcov, hfresh⟩ := takeFirst_spec p.gapped (Nat.pos_of_ne_zero hk) htake
        have hmem : ∀ x, x ∈ s'.out ↔ x ∈ s.out ∨ Has ⟨b, k⟩ x := by
          intro x
          rw [hout]
          exact Finset.mem_union.trans (or_congr_right Finset.mem_Ico)
        refine ⟨runs', ⟨hheap ▸ hrep, g', fun x => ?_, fun x hx hc => ?_⟩⟩
        · rw [hmem, ← p.all, hcov, or_comm (a := Has ⟨b, k⟩ x), or_assoc, or_comm (a := x ∈ s.out)]
        · rcases (hmem x).mp hx with hx | hx
          · exact p.apart x hx ((hcov x).mpr (Or.inr hc))
          · exact hfresh x hx hc
  | free a k =>
    obtain ⟨hk, hsub, ⟨fuel, hcall⟩, hout⟩ := hstep
    obtain ⟨h', hreturns, hrep⟩ := p.free hlo hk hsub
    have hheap := hreturns.unique hcall
    obtain ⟨g', hcov⟩ := insert_spec (n := ⟨a, k⟩) p.gapped hk (p.apart_out hk hsub)
    have hmem : ∀ x, x ∈ s'.out ↔ x ∈ s.out ∧ ¬Has ⟨a, k⟩ x := by
      intro x
      rw [hout]
      exact Finset.mem_sdiff.trans (and_congr_right fun _ => Finset.mem_Ico.not)
    refine ⟨_, ⟨hheap ▸ hrep, g', fun x => ?_, fun x hx hc => ?_⟩⟩
    · rw [hcov, hmem, ← p.all]
      have hin : Has ⟨a, k⟩ x → x ∈ s.out := fun hx => hsub (Finset.mem_Ico.mpr hx)
      tauto
    · obtain ⟨hx, hnot⟩ := (hmem x).mp hx
      rcases (hcov x).mp hc with hc | hc
      · exact hnot hc
      · exact p.apart x hx hc

/-- What `rt_page_init` leaves. -/
theorem pages_init {fuel : Nat} {h₀ h : PageHeap} (hinit : rtPageInit fuel lo n h₀ = some h) :
    lo ≠ 0 ∧ Pages lo n ⟨h, ∅⟩ [⟨lo, n⟩] := by
  unfold rtPageInit at hinit
  split at hinit
  next => exact nomatch hinit
  next hnot =>
    obtain ⟨hlo, hn⟩ := not_or.mp hnot
    have hempty : Rep { h₀ with pageList := none } [] := ⟨rfl, nofun⟩
    obtain ⟨h', hreturns, hrep⟩ := rtPageFree_spec hempty .nil hlo (Nat.pos_of_ne_zero hn) nofun
    refine ⟨hlo, ⟨hreturns.unique hinit ▸ hrep, ?_, fun x => ?_, fun x hx => absurd hx (Finset.notMem_empty x)⟩⟩
    · exact Gapped.cons_iff.mpr ⟨Nat.pos_of_ne_zero hn, nofun, .nil⟩
    · rw [covers_cons, or_iff_left (Finset.notMem_empty x), or_iff_left (covers_nil x)]
      rfl

/-- What is promised of the allocator: the runs and the pages handed out are the pages that it was given, a call of
`rt_page_alloc` returns, fails only for no pages at all or when no run has as many, and gives pages that are free, and a call of
`rt_page_free` for pages that are handed out returns. -/
structure PagesOk (lo n : Nat) (s : PageSys) : Prop where
  runs : ∃ runs, Pages lo n s runs ∧
    ∀ k fuel h', rtPageAlloc fuel k s.heap = some (none, h') → k = 0 ∨ ∀ e ∈ runs, e.size < k
  alloc_ends : ∀ k, ∃ fuel r, rtPageAlloc fuel k s.heap = some r
  alloc_free : ∀ k fuel b h', rtPageAlloc fuel k s.heap = some (some b, h') →
    ∀ x, b ≤ x → x < b + k → (lo ≤ x ∧ x < lo + n) ∧ x ∉ s.out
  free_ends : ∀ a k, 0 < k → Finset.Ico a (a + k) ⊆ s.out → ∃ fuel h', rtPageFree fuel a k s.heap = some h'

/-- **The page allocator**, after any calls, with whatever part of what has been handed out freed at a time. -/
theorem rt_page_allocator {fuel : Nat} {h₀ h : PageHeap} {cs : List PageCall} (hinit : rtPageInit fuel lo n h₀ = some h)
    (hrun : Run Step ⟨h, ∅⟩ cs s) : PagesOk lo n s := by
  obtain ⟨hlo, hstart⟩ := pages_init hinit
  obtain ⟨runs, p⟩ : ∃ runs, Pages lo n s runs :=
    hrun.invariant (I := fun s => ∃ runs, Pages lo n s runs) ⟨_, hstart⟩ fun _ _ _ ⟨_, p⟩ hs => p.step hlo hs
  -- what a call for some pages does
  have halloc : ∀ k, 0 < k → ∃ o h', Returns (fun fuel => rtPageAlloc fuel k s.heap) (o, h') ∧
      ((takeFirst k runs = none ∧ o = none ∧ h' = s.heap) ∨
        ∃ b runs', takeFirst k runs = some (b, runs') ∧ o = some b ∧ Rep h' runs') :=
    fun k hk => rtPageAlloc_spec hk p.rep p.gapped
  constructor
  case runs =>
    refine ⟨runs, p, fun k fuel h' hcall => or_iff_not_imp_left.mpr fun hk => ?_⟩
    obtain ⟨o, h'', hreturns, hcase⟩ := halloc k (Nat.pos_of_ne_zero hk)
    obtain ⟨rfl, -⟩ := Prod.mk.inj (hreturns.unique hcall)
    rcases hcase with ⟨hnone, -⟩ | ⟨b, runs', -, ho, -⟩
    · exact takeFirst_none_iff.mp hnone
    · exact nomatch ho
  case alloc_ends =>
    intro k
    by_cases hk : k = 0
    · exact ⟨0, _, if_pos hk⟩
    · obtain ⟨o, h', hreturns, -⟩ := halloc k (Nat.pos_of_ne_zero hk)
      obtain ⟨fuel, hcall⟩ := hreturns.ends
      exact ⟨fuel, _, hcall⟩
  case alloc_free =>
    intro k fuel b h' hcall x hle hlt
    obtain ⟨o, h'', hreturns, hcase⟩ := halloc k (by omega)
    obtain ⟨rfl, -⟩ := Prod.mk.inj (hreturns.unique hcall)
    rcases hcase with ⟨-, ho, -⟩ | ⟨b', runs', htake, ho, -⟩
    · exact nomatch ho
    · obtain rfl := Option.some.inj ho
      obtain ⟨-, hcov, -⟩ := takeFirst_spec p.gapped (by omega) htake
      have hc : Covers runs x := (hcov x).mpr (Or.inl ⟨hle, hlt⟩)
      exact ⟨(p.all x).mp (Or.inl hc), fun hx => p.apart x hx hc⟩
  case free_ends =>
    intro a k hk hsub
    obtain ⟨h', hreturns, -⟩ := p.free hlo hk hsub
    obtain ⟨fuel, hcall⟩ := hreturns.ends
    exact ⟨fuel, h', hcall⟩

/-- A memory before `rt_page_init`. -/
def noPages : PageHeap := ⟨fun _ => none, fun _ => 0, none⟩

/-- Of four pages, two are handed out, and one of these is freed. -/
theorem rt_page_allocator_run : ∃ h s, rtPageInit 1 1 4 noPages = some h ∧
    Run Step ⟨h, ∅⟩ [.alloc 2, .free 2 1] s ∧ PagesOk 1 4 s := by
  let h := (rtPageInit 1 1 4 noPages).get rfl
  let r := (rtPageAlloc 1 2 h).get rfl
  let h' := (rtPageFree 1 2 1 r.2).get rfl
  have hinit : rtPageInit 1 1 4 noPages = some h := rfl
  have halloc : Step ⟨h, ∅⟩ (.alloc 2) ⟨r.2, Finset.Ico 1 3⟩ := ⟨1, some 1, rfl, by decide⟩
  have hfree : Step ⟨r.2, Finset.Ico 1 3⟩ (.free 2 1) ⟨h', {1}⟩ := ⟨by decide, by decide, ⟨1, rfl⟩, by decide⟩
  have hrun : Run Step ⟨h, ∅⟩ [.alloc 2, .free 2 1] ⟨h', {1}⟩ := (Run.single halloc).snoc hfree
  exact ⟨h, ⟨h', {1}⟩, hinit, hrun, rt_page_allocator hinit hrun⟩

/-- A call for no pages fails, although there is a run. -/
theorem rt_page_alloc_zero : ∃ h, rtPageInit 1 1 4 noPages = some h ∧ Rep h [⟨1, 4⟩] ∧
    rtPageAlloc 1 0 h = some (none, h) ∧ ¬∀ k runs, Rep h runs → rtPageAlloc 1 k h = some (none, h) →
      ∀ e ∈ runs, e.size < k := by
  have hinit : rtPageInit 1 1 4 noPages = some _ := rfl
  obtain ⟨-, p⟩ := pages_init hinit
  refine ⟨_, hinit, p.rep, rfl, fun hall => ?_⟩
  exact absurd (hall 0 _ p.rep rfl ⟨1, 4⟩ List.mem_cons_self) (Nat.not_lt_zero 4)

end PageSys

end CoreLink.RtThread
