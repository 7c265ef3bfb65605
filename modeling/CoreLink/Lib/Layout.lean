/-
# `CoreLink.Lib.Layout` — a region of memory cut into blocks with headers.

The headers lie at the addresses of a list, in order; each takes `H` bytes, and what lies between it and the next header
is the data of the block. `freeBytes` adds up the data of the blocks that are not used. An allocator cuts a block in two
(`freeBytes_cut` read from right to left), joins two, or marks one; everything else about the layout stays.
-/
import Mathlib.Data.List.Chain
import Mathlib.Data.List.Nodup
import Mathlib.Order.CompletePartialOrder
import Mathlib.Algebra.Order.Ring.Nat

namespace CoreLink.Lib.Layout

variable {H : Nat} {used used' : Nat → Bool} {as bs cs fs : List Nat} {a b d n p x z : Nat} {listed : Bool}

/-- The headers are in address order, and do not overlap. -/
def Ordered (H : Nat) (bs : List Nat) : Prop := bs.Pairwise fun a b => a + H ≤ b

/-- No two neighbours are both free. -/
def Coalesced (used : Nat → Bool) (bs : List Nat) : Prop := bs.IsChain fun a b => used a = true ∨ used b = true

/-- The data bytes of the free blocks. The last header, which ends the region, has no data. -/
def freeBytes (H : Nat) (used : Nat → Bool) : List Nat → Nat
  | a :: b :: bs => (if used a then 0 else b - (a + H)) + freeBytes H used (b :: bs)
  | _ => 0

/-- A relation between neighbours, read off the splittings of the list. -/
theorem isChain_of_split {R : Nat → Nat → Prop} (h : ∀ as a b cs, bs = as ++ a :: b :: cs → R a b) : bs.IsChain R := by
  induction bs with
  | nil => exact List.isChain_nil
  | cons a bs ih =>
    have htail := ih fun as x y cs e => h (a :: as) x y cs (by rw [e]; rfl)
    cases bs with
    | nil => exact List.isChain_singleton a
    | cons b bs => exact List.isChain_cons_cons.mpr ⟨h [] a b bs rfl, htail⟩

/-! ## Order -/

/-- Behind a header come the ones with higher addresses. -/
theorem Ordered.behind (h : Ordered H (as ++ a :: bs)) : ∀ b ∈ bs, a + H ≤ b := fun _ hb =>
  List.rel_of_pairwise_cons (List.pairwise_append.mp h).2.1 hb

theorem Ordered.before (h : Ordered H (as ++ a :: bs)) : ∀ b ∈ as, b + H ≤ a := fun b hb =>
  (List.pairwise_append.mp h).2.2 b hb a List.mem_cons_self

theorem Ordered.nodup (h : Ordered H bs) (hH : 0 < H) : bs.Nodup :=
  List.Pairwise.imp (fun {a b} hab => by omega) h

/-- **Cutting**: a new header between two neighbours. -/
theorem Ordered.cut (h : Ordered H (as ++ a :: cs)) (han : a + H ≤ n) (hn : ∀ c ∈ cs.head?, n + H ≤ c) :
    Ordered H (as ++ a :: n :: cs) := by
  obtain ⟨has, hcs, hac⟩ := List.pairwise_append.mp h
  have hbehind : ∀ c ∈ cs, n + H ≤ c := by
    cases cs with
    | nil => simp
    | cons q cs =>
      intro c hc
      have hq := hn q rfl
      rcases List.mem_cons.mp hc with rfl | hc
      · exact hq
      · have hqc := List.rel_of_pairwise_cons (List.pairwise_cons.mp hcs).2 hc
        omega
  refine List.pairwise_append.mpr ⟨has, List.pairwise_cons.mpr ⟨fun c hc => ?_, List.pairwise_cons.mpr
    ⟨hbehind, (List.pairwise_cons.mp hcs).2⟩⟩, fun x hx c hc => ?_⟩
  · rcases List.mem_cons.mp hc with rfl | hc
    · exact han
    · exact List.rel_of_pairwise_cons hcs hc
  · rcases List.mem_cons.mp hc with rfl | hc
    · exact hac x hx c List.mem_cons_self
    · rcases List.mem_cons.mp hc with rfl | hc
      · have hxa := hac x hx a List.mem_cons_self
        omega
      · exact hac x hx c (List.mem_cons_of_mem a hc)

/-- **Joining**: a header less. -/
theorem Ordered.join (h : Ordered H (as ++ a :: n :: cs)) : Ordered H (as ++ a :: cs) :=
  List.Pairwise.sublist (((List.sublist_cons_self n cs).cons_cons a).append_left as) h

/-- The headers and the free data fit in front of the last header. -/
theorem Ordered.length_add_freeBytes_le (used : Nat → Bool) (h : Ordered H (a :: bs)) (hz : (a :: bs).getLast? = some z) :
    a + H * bs.length + freeBytes H used (a :: bs) ≤ z := by
  induction bs generalizing a with
  | nil =>
    obtain rfl : a = z := by simpa using hz
    simp [freeBytes]
  | cons b bs ih =>
    have hab : a + H ≤ b := List.rel_of_pairwise_cons h List.mem_cons_self
    have hle := ih (List.pairwise_cons.mp h).2 (by simpa using hz)
    simp only [freeBytes, List.length_cons, Nat.mul_succ] at hle ⊢
    split_ifs <;> omega

/-! ## Free bytes -/

theorem freeBytes_append : freeBytes H used (as ++ a :: bs) = freeBytes H used (as ++ [a]) + freeBytes H used (a :: bs) := by
  induction as with
  | nil => simp [freeBytes]
  | cons x as ih =>
    cases as with
    | nil => cases bs <;> simp [freeBytes]
    | cons y as => simp only [List.cons_append, freeBytes] at ih ⊢; omega

/-- The free bytes are the sizes of the free blocks, added up. -/
theorem freeBytes_eq_sum {size : Nat → Nat} (h : bs.IsChain fun a b => size a = b - (a + H))
    (hlast : ∀ z ∈ bs.getLast?, used z = true) :
    freeBytes H used bs = ((bs.filter fun b => !used b).map size).sum := by
  induction bs with
  | nil => rfl
  | cons a bs ih =>
    cases bs with
    | nil =>
      have ha := hlast a rfl
      simp [freeBytes, ha]
    | cons b bs =>
      obtain ⟨hab, hbs⟩ := List.isChain_cons_cons.mp h
      have hsum := ih hbs (by simpa using hlast)
      rw [freeBytes, hsum, ← hab]
      cases ha : used a <;> simp [List.filter_cons, ha]

/-- Only the marks of the blocks count. -/
theorem freeBytes_congr (h : ∀ x ∈ bs, used' x = used x) : freeBytes H used' bs = freeBytes H used bs := by
  induction bs with
  | nil => rfl
  | cons a bs ih =>
    cases bs with
    | nil => rfl
    | cons b bs =>
      simp only [freeBytes]
      rw [h a List.mem_cons_self, ih fun x hx => h x (List.mem_cons_of_mem a hx)]

/-- A mark of the last header does not count. -/
theorem freeBytes_congr_last (h : ∀ x ∈ as, used' x = used x) :
    freeBytes H used' (as ++ [a]) = freeBytes H used (as ++ [a]) := by
  induction as with
  | nil => rfl
  | cons x as ih =>
    cases as with
    | nil => simp [freeBytes, h x]
    | cons y as =>
      simp only [List.cons_append, freeBytes] at ih ⊢
      rw [h x List.mem_cons_self, ih fun x hx => h x (List.mem_cons_of_mem _ hx)]

/-- The data of one block, with what lies in front of it and behind it. -/
theorem freeBytes_block : freeBytes H used (as ++ a :: b :: cs) =
    freeBytes H used (as ++ [a]) + ((if used a then 0 else b - (a + H)) + freeBytes H used (b :: cs)) := by
  rw [freeBytes_append]
  rfl

/-- The same where the mark of the block is new. -/
theorem freeBytes_mark (hnd : (as ++ a :: b :: cs).Nodup) (v : Bool) :
    freeBytes H (Function.update used a v) (as ++ a :: b :: cs) =
      freeBytes H used (as ++ [a]) + ((if v then 0 else b - (a + H)) + freeBytes H used (b :: cs)) := by
  have has : ∀ x ∈ as, x ≠ a := fun x hx e => List.disjoint_of_nodup_append hnd hx (e ▸ List.mem_cons_self)
  have hbs : ∀ x ∈ b :: cs, x ≠ a := fun x hx e =>
    (List.nodup_cons.mp (List.nodup_append.mp hnd).2.1).1 (e ▸ hx)
  rw [freeBytes_block, Function.update_self, freeBytes_congr_last fun x hx => Function.update_of_ne (has x hx) _ _,
    freeBytes_congr fun x hx => Function.update_of_ne (hbs x hx) _ _]

theorem freeBytes_take (hnd : (as ++ a :: b :: cs).Nodup) (ha : used a = false) :
    freeBytes H (Function.update used a true) (as ++ a :: b :: cs) + (b - (a + H)) =
      freeBytes H used (as ++ a :: b :: cs) := by
  rw [freeBytes_mark hnd, freeBytes_block, ha, if_pos rfl, if_neg Bool.false_ne_true]
  omega

theorem freeBytes_release (hnd : (as ++ a :: b :: cs).Nodup) (ha : used a = true) :
    freeBytes H (Function.update used a false) (as ++ a :: b :: cs) =
      freeBytes H used (as ++ a :: b :: cs) + (b - (a + H)) := by
  rw [freeBytes_mark hnd, freeBytes_block, ha, if_pos rfl, if_neg Bool.false_ne_true]
  omega

theorem freeBytes_cut (hnd : (as ++ a :: n :: b :: cs).Nodup) (ha : used a = true) :
    freeBytes H (Function.update used n false) (as ++ a :: n :: b :: cs) =
      freeBytes H used (as ++ a :: b :: cs) + (b - (n + H)) := by
  have hsplit : as ++ a :: n :: b :: cs = (as ++ [a]) ++ n :: b :: cs := by simp
  have hlast : freeBytes H used (as ++ [a] ++ [n]) = freeBytes H used (as ++ [a]) := by
    rw [List.append_assoc, List.singleton_append, freeBytes_block, ha, if_pos rfl]
    simp [freeBytes]
  rw [hsplit] at hnd ⊢
  rw [freeBytes_mark hnd, hlast, freeBytes_block, ha, if_pos rfl, if_neg Bool.false_ne_true]
  omega

theorem freeBytes_join (hx : used x = false) (hn : used n = false) (hxn : x + H ≤ n) (hnb : n + H ≤ b) :
    freeBytes H used (as ++ x :: b :: cs) = freeBytes H used (as ++ x :: n :: b :: cs) + H := by
  rw [freeBytes_block, freeBytes_block, hx, if_neg Bool.false_ne_true]
  simp only [freeBytes, hn, if_neg Bool.false_ne_true]
  omega

theorem freeBytes_absorb (ha : used a = true) (hn : used n = false) :
    freeBytes H used (as ++ a :: b :: cs) + (b - (n + H)) = freeBytes H used (as ++ a :: n :: b :: cs) := by
  rw [freeBytes_block, freeBytes_block]
  simp only [freeBytes, ha, hn, if_true, if_neg Bool.false_ne_true]
  omega

/-! ## Marks -/

/-- The block behind a free one is used, and so is the one in front of it. -/
theorem Coalesced.behind (h : Coalesced used (as ++ a :: b :: cs)) (ha : used a = false) : used b = true := by
  have hab := (List.isChain_cons_cons.mp (List.isChain_split.mp h).2).1
  simpa [ha] using hab

theorem Coalesced.before (h : Coalesced used (as ++ a :: b :: cs)) (hb : used b = false) : used a = true := by
  have hab := (List.isChain_cons_cons.mp (List.isChain_split.mp h).2).1
  simpa [hb] using hab

/-- **The books of an allocator**: the free list `fs` holds the free blocks of `bs`, the last header is used, and no two
neighbours are both free. -/
structure Listed (used : Nat → Bool) (bs fs : List Nat) : Prop where
  free_iff : ∀ b, b ∈ fs ↔ b ∈ bs ∧ used b = false
  last : ∀ z ∈ bs.getLast?, used z = true
  coalesced : Coalesced used bs

/-- The books while a block `x` has become free: it may still have a free block behind it, and it is on the free list
already exactly when `listed`. -/
structure Pending (used : Nat → Bool) (bs fs : List Nat) (x : Nat) (listed : Bool) : Prop where
  mem : x ∈ bs
  free : used x = false
  free_iff : ∀ b, b ∈ fs ↔ (b ∈ bs ∧ used b = false) ∧ (b = x → listed = true)
  last : ∀ z ∈ bs.getLast?, used z = true
  coalesced : bs.IsChain fun a b => used a = true ∨ used b = true ∨ a = x

namespace Listed

/-- **Taking** a free block. -/
theorem take (l : Listed used bs fs) (hnd : fs.Nodup) (a : Nat) :
    Listed (Function.update used a true) bs (fs.erase a) := by
  refine ⟨fun b => ?_, fun z hz => ?_, ?_⟩
  · rw [hnd.mem_erase_iff, l.free_iff]
    by_cases hb : b = a <;> simp [hb]
  · by_cases hza : z = a
    · simp [hza]
    · rw [Function.update_of_ne hza]
      exact l.last z hz
  · have hmono : ∀ x, used x = true → Function.update used a true x = true := fun x hx => by
      by_cases hxa : x = a <;> simp [hxa, hx]
    exact l.coalesced.imp fun {x y} hxy => hxy.imp (hmono x) (hmono y)

/-- The neighbours in a part of the list that the new mark of `x` does not concern. -/
theorem part (h : Coalesced used bs) (hx : x ∉ bs) (v : Bool) :
    bs.IsChain fun a b => Function.update used x v a = true ∨ Function.update used x v b = true ∨ a = x := by
  refine List.IsChain.imp_of_mem_imp (fun a b ha hb hab => ?_) h
  have hax : a ≠ x := fun e => hx (e ▸ ha)
  have hbx : b ≠ x := fun e => hx (e ▸ hb)
  rw [Function.update_of_ne hax, Function.update_of_ne hbx]
  exact hab.imp_right .inl

/-- **Cutting** a free block `n` off a used one. -/
theorem cut (l : Listed used (as ++ a :: b :: cs) fs) (ha : used a = true) (hn : n ∉ as ++ a :: b :: cs) :
    Pending (Function.update used n false) (as ++ a :: n :: b :: cs) fs n false := by
  have hne : ∀ x ∈ as ++ a :: b :: cs, x ≠ n := fun x hx e => hn (e ▸ hx)
  refine ⟨by simp, by simp, fun x => ?_, fun z hz => ?_, ?_⟩
  · rw [l.free_iff]
    by_cases hx : x = n
    · subst hx
      simp only [List.mem_append, List.mem_cons] at hn
      simp
      tauto
    · simp [hx]
  · have hz' : z ∈ (as ++ a :: b :: cs).getLast? := by simpa [List.getLast?_append] using hz
    rw [Function.update_of_ne (hne z (List.mem_of_mem_getLast? hz'))]
    exact l.last z hz'
  · obtain ⟨hfront, hback⟩ := List.isChain_split.mp l.coalesced
    have hna : n ∉ as ++ [a] := fun h => hn (by simp at h ⊢; tauto)
    have hnb : n ∉ b :: cs := fun h => hn (by simp at h ⊢; tauto)
    refine List.isChain_split.mpr ⟨part hfront hna false, List.isChain_cons_cons.mpr
      ⟨.inl ?_, List.isChain_cons_cons.mpr ⟨.inr (.inr rfl), part hback.tail hnb false⟩⟩⟩
    rw [Function.update_of_ne (hne a (by simp))]
    exact ha

/-- **Releasing** a block behind a used one, or at the start. -/
theorem release (l : Listed used (as ++ a :: b :: cs) fs) (hnd : (as ++ a :: b :: cs).Nodup) (ha : used a = true)
    (has : ∀ p ∈ as.getLast?, used p = true) :
    Pending (Function.update used a false) (as ++ a :: b :: cs) fs a false := by
  have hsplit := List.nodup_append.mp hnd
  have hbs := (List.nodup_cons.mp hsplit.2.1).1
  have hna : a ∉ as := fun h => List.disjoint_of_nodup_append hnd h List.mem_cons_self
  refine ⟨by simp, by simp, fun x => ?_, fun z hz => ?_, ?_⟩
  · rw [l.free_iff]
    by_cases hx : x = a
    · simp [hx, ha]
    · simp [hx]
  · have hz' : z ∈ (b :: cs).getLast? := by simpa [List.getLast?_append] using hz
    have hza : z ≠ a := fun e => hbs (e ▸ List.mem_of_mem_getLast? hz')
    rw [Function.update_of_ne hza]
    exact l.last z hz
  · obtain ⟨hfront, hback⟩ := List.isChain_split.mp l.coalesced
    refine List.isChain_split.mpr ⟨?_, List.isChain_cons_cons.mpr ⟨.inr (.inr rfl), part hback.tail hbs false⟩⟩
    refine List.isChain_append.mpr ⟨part (List.isChain_append.mp hfront).1 hna false, List.isChain_singleton _, ?_⟩
    intro p hp y hy
    obtain rfl : a = y := by simpa using hy
    have hpa : p ≠ a := fun e => hna (e ▸ List.mem_of_mem_getLast? hp)
    rw [Function.update_of_ne hpa]
    exact .inl (has p hp)

/-- Releasing a block behind a free one, of which it becomes a part. -/
theorem releaseLeft (l : Listed used (as ++ p :: a :: b :: cs) fs) (hnd : (as ++ p :: a :: b :: cs).Nodup)
    (hp : used p = false) : Pending (Function.update used a false) (as ++ p :: b :: cs) fs p true := by
  have hpa : p ≠ a := by
    rintro rfl
    exact (List.nodup_cons.mp (List.nodup_append.mp hnd).2.1).1 (by simp)
  have ha : used a = true := l.coalesced.behind hp
  have hnd' : (a :: (as ++ p :: b :: cs)).Nodup := by
    have hsplit : as ++ p :: a :: b :: cs = (as ++ [p]) ++ a :: (b :: cs) := by simp
    rw [hsplit, List.nodup_middle] at hnd
    simpa using hnd
  have hne : ∀ x ∈ as ++ p :: b :: cs, x ≠ a := fun x hx e => (List.nodup_cons.mp hnd').1 (e ▸ hx)
  refine ⟨by simp, by rw [Function.update_of_ne hpa]; exact hp, fun x => ?_, fun z hz => ?_, ?_⟩
  · rw [l.free_iff]
    by_cases hx : x = a
    · subst hx
      have hnot := (List.nodup_cons.mp hnd').1
      simp [ha] at hnot ⊢
      tauto
    · simp [hx]
  · have hz' : z ∈ (as ++ p :: a :: b :: cs).getLast? := by simpa [List.getLast?_append] using hz
    rw [Function.update_of_ne (hne z (List.mem_of_mem_getLast? hz))]
    exact l.last z hz'
  · obtain ⟨hfront, hback⟩ := List.isChain_split.mp l.coalesced
    have hafront : a ∉ as ++ [p] := fun h => hne a (by simp at h ⊢; tauto) rfl
    have haback : a ∉ b :: cs := fun h => hne a (by simp at h ⊢; tauto) rfl
    have h1 := part hfront hafront false
    have h2 := part hback.tail.tail haback false
    refine List.isChain_split.mpr ⟨?_, List.isChain_cons_cons.mpr ⟨.inr (.inr rfl), ?_⟩⟩
    · exact List.IsChain.imp_of_mem_imp (fun x y hx _ hxy => hxy.imp_right fun h => h.imp_right fun e =>
        absurd (e ▸ hx) hafront) h1
    · exact List.IsChain.imp_of_mem_imp (fun x y hx _ hxy => hxy.imp_right fun h => h.imp_right fun e =>
        absurd (e ▸ hx) haback) h2

/-- **Absorbing** the free block `n` behind a used one. -/
theorem absorb (l : Listed used (as ++ a :: n :: b :: cs) fs) (hnd : (as ++ a :: n :: b :: cs).Nodup)
    (hfs : fs.Nodup) (hn : used n = false) : Listed used (as ++ a :: b :: cs) (fs.erase n) := by
  have ha : used a = true := l.coalesced.before hn
  have hnot : n ∉ as ++ a :: b :: cs := by
    have hsplit : as ++ a :: n :: b :: cs = (as ++ [a]) ++ n :: (b :: cs) := by simp
    rw [hsplit, List.nodup_middle] at hnd
    simpa using (List.nodup_cons.mp hnd).1
  refine ⟨fun x => ?_, fun z hz => l.last z ?_, ?_⟩
  · rw [hfs.mem_erase_iff, l.free_iff]
    by_cases hx : x = n
    · subst hx
      simp only [List.mem_append, List.mem_cons] at hnot
      simp
      tauto
    · simp [hx]
  · simpa [List.getLast?_append] using hz
  · obtain ⟨hfront, hback⟩ := List.isChain_split.mp l.coalesced
    exact List.isChain_split.mpr ⟨hfront, List.isChain_cons_cons.mpr ⟨.inl ha, hback.tail.tail⟩⟩

end Listed

/-- Only the marks of the blocks count. -/
theorem Listed.congr (l : Listed used bs fs) (h : ∀ b ∈ bs, used' b = used b) : Listed used' bs fs := by
  refine ⟨fun b => ?_, fun z hz => ?_, List.IsChain.imp_of_mem_imp (fun a b ha hb hab => ?_) l.coalesced⟩
  · rw [l.free_iff]
    exact and_congr_right fun hb => by rw [h b hb]
  · rw [h z (List.mem_of_mem_getLast? hz)]
    exact l.last z hz
  · rw [h a ha, h b hb]
    exact hab

/-- The free list holds the free blocks, in some order. -/
theorem Listed.perm (l : Listed used bs fs) (hbs : bs.Nodup) (hfs : fs.Nodup) :
    fs.Perm (bs.filter fun b => !used b) := by
  refine (List.perm_ext_iff_of_nodup hfs (hbs.filter _)).mpr fun b => ?_
  rw [l.free_iff, List.mem_filter, Bool.not_eq_true']

namespace Pending

/-- **Joining** a free block behind `x` to it. -/
theorem join (l : Pending used bs fs x listed) (hbs : bs = as ++ x :: n :: b :: cs) (hnd : bs.Nodup)
    (hfs : fs.Nodup) (hn : used n = false) :
    Pending used (as ++ x :: b :: cs) (fs.erase n) x listed ∧ used b = true := by
  subst hbs
  have hxn : n ≠ x := by
    rintro rfl
    exact (List.nodup_cons.mp (List.nodup_append.mp hnd).2.1).1 (by simp)
  have hnot : n ∉ as ++ x :: b :: cs := by
    have hsplit : as ++ x :: n :: b :: cs = (as ++ [x]) ++ n :: (b :: cs) := by simp
    rw [hsplit, List.nodup_middle] at hnd
    simpa using (List.nodup_cons.mp hnd).1
  obtain ⟨hfront, hback⟩ := List.isChain_split.mp l.coalesced
  have hb : used b = true := by
    have hnb := (List.isChain_cons_cons.mp hback.tail).1
    simpa [hn, hxn] using hnb
  refine ⟨⟨by simp, l.free, fun y => ?_, fun z hz => l.last z ?_, ?_⟩, hb⟩
  · rw [hfs.mem_erase_iff, l.free_iff]
    by_cases hy : y = n
    · subst hy
      simp only [List.mem_append, List.mem_cons] at hnot
      simp
      tauto
    · simp [hy]
  · simpa [List.getLast?_append] using hz
  · exact List.isChain_split.mpr ⟨hfront, List.isChain_cons_cons.mpr ⟨.inr (.inr rfl), hback.tail.tail⟩⟩

/-- **Done**: the block behind `x` is used, and `x` is put on the free list, if it is not there yet. -/
theorem done (l : Pending used bs fs x listed) (hbs : bs = as ++ x :: b :: cs) (hnd : bs.Nodup)
    (hb : used b = true) : Listed used bs (if listed then fs else x :: fs) := by
  subst hbs
  refine ⟨fun y => ?_, l.last, ?_⟩
  · have hx := l.free
    have hiff := l.free_iff y
    cases listed with
    | true => simpa using hiff
    | false =>
      simp only [Bool.false_eq_true, if_false, List.mem_cons, hiff, imp_false]
      by_cases hy : y = x
      · simp [hy, hx]
      · simp [hy]
  · obtain ⟨hfront, hback⟩ := List.isChain_split.mp l.coalesced
    have hxas : x ∉ as := fun h => List.disjoint_of_nodup_append hnd h List.mem_cons_self
    have hxbs : x ∉ b :: cs := (List.nodup_cons.mp (List.nodup_append.mp hnd).2.1).1
    refine List.isChain_split.mpr ⟨?_, List.isChain_cons_cons.mpr ⟨.inr hb, ?_⟩⟩
    · obtain ⟨h1, -, h3⟩ := List.isChain_append.mp hfront
      refine List.isChain_append.mpr ⟨?_, List.isChain_singleton _, fun p hp y hy => ?_⟩
      · exact List.IsChain.imp_of_mem_imp (fun p y hp _ hpy => hpy.imp_right fun h => h.resolve_right fun e =>
          hxas (e ▸ hp)) h1
      · have hpx : p ≠ x := fun e => hxas (e ▸ List.mem_of_mem_getLast? hp)
        exact (h3 p hp y hy).imp_right fun h => h.resolve_right hpx
    · exact List.IsChain.imp_of_mem_imp (fun p y hp _ hpy => hpy.imp_right fun h => h.resolve_right fun e =>
        hxbs (e ▸ hp)) hback.tail

end Pending

end CoreLink.Lib.Layout
