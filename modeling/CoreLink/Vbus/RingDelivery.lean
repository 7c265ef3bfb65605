/-
# `CoreLink.Vbus.RingDelivery` — every packet that is sent arrives as it was sent.

Seen from the index of the reader, a ring is a line: `view` are the bytes from `get_idx` on. The packets that are on the ring
stand in this line one behind the other, each at the start of a block (`Packed`), and the writer stores behind the last of
them, in front of the index of the reader. Both `rt_memcpy` of a packet that goes around the end are one piece of the line
(`outStores_get`, `inLoads_get`).

The two threads test an identifier differently from how they use it: the writer not at all, the reader one too far. The
results are about packets whose identifier is in the channel tables.
-/
import CoreLink.Vbus.Ring
import Mathlib.Data.List.Forall2

namespace CoreLink.Vbus

open CoreLink.Lib

/-! ## Blocks -/

/-- The blocks of a packet hold its header and its data. -/
theorem le_len2bnr (len : Nat) : rtVbusBlkHeadSz + len ≤ len2bnr len * sizeofBlk := by
  unfold len2bnr rtVbusBlkHeadSz sizeofBlk
  omega

theorem ringAdd_eq {nr idx bnr : Nat} (hidx : idx < nr) (hbnr : bnr ≤ nr) : ringAdd nr idx bnr = (idx + bnr) % nr := by
  rw [Ring.wrap_add hidx hbnr]
  unfold ringAdd
  simp only
  split_ifs <;> omega

/-- The free space is what the reader is ahead of the writer, less one block. -/
theorem busRingSpaceNr_eq {nr : Nat} {rg : VbusRing} (hget : rg.getIdx < nr) :
    busRingSpaceNr nr rg = (nr : Int) - 1 - Ring.dist nr rg.getIdx rg.putIdx := by
  unfold busRingSpaceNr Ring.dist
  simp only
  split_ifs <;> omega

/-! ## The bytes of a packet -/

/-- The byte of the header and the data that store number `k` writes; the reserved byte of the header is left out. -/
def imageByte (p : VbusPkg) (k : Nat) : Option UInt8 := ([p.id, p.prio, UInt8.ofNat p.len] ++ p.data)[k]?

/-- Where that byte lies, from the start of the packet. -/
def imageOff (k : Nat) : Nat := if k < 3 then k else k + 1

section Image

variable {nr put get size k : Nat} {p : VbusPkg}

theorem memcpyStores_get (dst : Nat) (bytes : List UInt8) (i : Nat) :
    (memcpyStores dst bytes)[i]? = bytes[i]?.map fun b => (dst + i, b) := by
  simp [memcpyStores]

theorem memcpyLoads_get (src n i : Nat) : (memcpyLoads src n)[i]? = if i < n then some (src + i) else none := by
  unfold memcpyLoads
  split_ifs with hi
  · simp [hi]
  · simp; omega

theorem tailSz_le (nr idx len : Nat) : tailSz nr idx len ≤ len := by
  unfold tailSz
  simp only
  split_ifs <;> omega

/-- Data in front of the end of the ring are where they would be without it. -/
theorem addr_front {idx len i : Nat} (hidx : idx < nr) (hi : i < tailSz nr idx len) :
    idx * sizeofBlk + rtVbusBlkHeadSz + i = (idx * sizeofBlk + (rtVbusBlkHeadSz + i)) % (nr * sizeofBlk) := by
  have hlt : idx * sizeofBlk + (rtVbusBlkHeadSz + i) < nr * sizeofBlk := by
    unfold tailSz sizeofBlk rtVbusBlkHeadSz at *
    simp only at hi
    split_ifs at hi <;> omega
  rw [Nat.mod_eq_of_lt hlt, Nat.add_assoc]

/-- Data behind the end of the ring are at its beginning. -/
theorem addr_back {idx len i : Nat} (hidx : idx < nr) (hfit : len2bnr len ≤ nr) (hi : tailSz nr idx len ≤ i)
    (hlen : i < len) :
    0 + (i - tailSz nr idx len) = (idx * sizeofBlk + (rtVbusBlkHeadSz + i)) % (nr * sizeofBlk) := by
  have hbytes := le_len2bnr len
  have htail : tailSz nr idx len = (nr - idx) * sizeofBlk - rtVbusBlkHeadSz := by
    unfold tailSz at *
    simp only at *
    split_ifs at * <;> omega
  have hmul : len2bnr len * sizeofBlk ≤ nr * sizeofBlk := Nat.mul_le_mul_right _ hfit
  rw [htail] at hi ⊢
  unfold sizeofBlk rtVbusBlkHeadSz at *
  rw [Nat.mod_eq_sub_mod (by omega), Nat.mod_eq_of_lt (by omega)]
  omega

/-- Where the packet does not reach the end of the ring. -/
theorem addr_inside {idx len i : Nat} (hin : ¬ idx + len2bnr len ≥ nr) (hlen : i < len) :
    idx * sizeofBlk + rtVbusBlkHeadSz + i = (idx * sizeofBlk + (rtVbusBlkHeadSz + i)) % (nr * sizeofBlk) := by
  have hbytes := le_len2bnr len
  have hmul : (idx + len2bnr len) * sizeofBlk ≤ nr * sizeofBlk := Nat.mul_le_mul_right _ (by omega)
  have hlt : idx * sizeofBlk + (rtVbusBlkHeadSz + i) < nr * sizeofBlk := by
    unfold sizeofBlk rtVbusBlkHeadSz at *
    omega
  rw [Nat.mod_eq_of_lt hlt, Nat.add_assoc]

/-- The stores of the data, without those of the header. -/
def dataStores (nr put : Nat) (p : VbusPkg) : List (Nat × UInt8) :=
  if put + len2bnr p.len ≥ nr then
    memcpyStores (put * sizeofBlk + rtVbusBlkHeadSz) (p.data.take (tailSz nr put p.len)) ++
      memcpyStores 0 (p.data.drop (tailSz nr put p.len))
  else memcpyStores (put * sizeofBlk + rtVbusBlkHeadSz) p.data

theorem dataStores_get (hput : put < nr) (hfit : len2bnr p.len ≤ nr) (i : Nat) :
    (dataStores nr put p)[i]? =
      p.data[i]?.map fun b => ((put * sizeofBlk + (rtVbusBlkHeadSz + i)) % (nr * sizeofBlk), b) := by
  have htail := tailSz_le nr put p.len
  have hlen : p.data.length = p.len := rfl
  rcases Nat.lt_or_ge i p.len with hi | hi
  · obtain ⟨b, hb⟩ : ∃ b, p.data[i]? = some b := ⟨p.data[i], List.getElem?_eq_getElem hi⟩
    unfold dataStores
    split_ifs with hend
    · -- two copies, before the end and after it
      have hfirst : (memcpyStores (put * sizeofBlk + rtVbusBlkHeadSz) (p.data.take (tailSz nr put p.len))).length =
          tailSz nr put p.len := by
        simp [memcpyStores]
        omega
      rcases Nat.lt_or_ge i (tailSz nr put p.len) with hit | hit
      · rw [List.getElem?_append_left (by omega), memcpyStores_get, List.getElem?_take_of_lt hit, hb,
          Option.map_some, Option.map_some, addr_front hput hit]
      · rw [List.getElem?_append_right (by omega), hfirst, memcpyStores_get, List.getElem?_drop,
          Nat.add_sub_cancel' hit, hb, Option.map_some, Option.map_some, addr_back hput hfit hit hi]
    · rw [memcpyStores_get, hb, Option.map_some, Option.map_some, addr_inside hend hi]
  · have hnone : p.data[i]? = none := List.getElem?_eq_none hi
    have hlength : (dataStores nr put p).length = p.len := by
      unfold dataStores
      split_ifs
      · simp [memcpyStores]
        omega
      · simp [memcpyStores, VbusPkg.len]
    rw [hnone, Option.map_none, List.getElem?_eq_none (by omega)]

/-- **The stores of a packet** write its bytes one behind the other, around the end. -/
theorem outStores_get (hput : put < nr) (hfit : len2bnr p.len ≤ nr) :
    (outStores nr put p)[k]? =
      (imageByte p k).map fun b => ((put * sizeofBlk + imageOff k) % (nr * sizeofBlk), b) := by
  show ([_, _, _] ++ dataStores nr put p)[k]? = _
  unfold imageByte imageOff
  split_ifs with hk
  · have haddr : ∀ j < 3, put * sizeofBlk + j = (put * sizeofBlk + j) % (nr * sizeofBlk) := fun j hj => by
      unfold sizeofBlk
      rw [Nat.mod_eq_of_lt (by omega)]
    rw [List.getElem?_append_left hk, List.getElem?_append_left hk]
    match k, hk with
    | 0, _ => simpa using haddr 0 (by omega)
    | 1, _ => simpa using haddr 1 (by omega)
    | 2, _ => simpa using haddr 2 (by omega)
  · obtain ⟨i, rfl⟩ : ∃ i, k = 3 + i := ⟨k - 3, by omega⟩
    rw [List.getElem?_append_right (by simp), List.getElem?_append_right (by simp)]
    simp only [List.length_cons, List.length_nil, Nat.zero_add, Nat.reduceAdd, Nat.add_sub_cancel_left]
    rw [dataStores_get hput hfit]
    have hoff : rtVbusBlkHeadSz + i = 3 + i + 1 := by unfold rtVbusBlkHeadSz; omega
    rw [hoff]

/-- **The loads of the data of a packet** read its bytes one behind the other, around the end. -/
theorem inLoads_get (hget : get < nr) (hfit : len2bnr size ≤ nr) :
    (inLoads nr get size)[k]? =
      if k < size then some ((get * sizeofBlk + (rtVbusBlkHeadSz + k)) % (nr * sizeofBlk)) else none := by
  have htail := tailSz_le nr get size
  unfold inLoads
  by_cases hend : get + len2bnr size ≥ nr
  · have hfirst : (memcpyLoads (get * sizeofBlk + rtVbusBlkHeadSz) (tailSz nr get size)).length = tailSz nr get size := by
      simp [memcpyLoads]
    rw [if_pos hend]
    rcases Nat.lt_or_ge k (tailSz nr get size) with hkt | hkt
    · rw [List.getElem?_append_left (by omega), memcpyLoads_get, if_pos hkt, if_pos (by omega), addr_front hget hkt]
    · rw [List.getElem?_append_right (by omega), hfirst, memcpyLoads_get]
      by_cases hk : k < size
      · rw [if_pos (by omega), if_pos hk, addr_back hget hfit hkt hk]
      · rw [if_neg (by omega), if_neg hk]
  · rw [if_neg hend, memcpyLoads_get]
    by_cases hk : k < size
    · rw [if_pos hk, if_pos hk, addr_inside hend hk]
    · rw [if_neg hk, if_neg hk]

/-- The data on channel 0 are in the first block. -/
theorem chn0Loads_get (hget : get < nr) (hsize : size ≤ 60) :
    (chn0Loads get size)[k]? =
      if k < size then some ((get * sizeofBlk + (rtVbusBlkHeadSz + k)) % (nr * sizeofBlk)) else none := by
  unfold chn0Loads
  rw [memcpyLoads_get]
  by_cases hk : k < size
  · have hlt : get * sizeofBlk + (rtVbusBlkHeadSz + k) < nr * sizeofBlk := by
      unfold sizeofBlk rtVbusBlkHeadSz
      omega
    rw [if_pos hk, if_pos hk, Nat.mod_eq_of_lt hlt, Nat.add_assoc]
  · rw [if_neg hk, if_neg hk]

theorem imageByte_lt {b : UInt8} (hb : imageByte p k = some b) : k < 3 + p.len := by
  have hlt : k < ([p.id, p.prio, UInt8.ofNat p.len] ++ p.data).length := (List.getElem?_eq_some_iff.mp hb).1
  simp only [List.length_append, List.length_cons, List.length_nil] at hlt
  exact hlt

/-- A byte of a packet is in its blocks. -/
theorem imageOff_lt {b : UInt8} (hb : imageByte p k = some b) : imageOff k < len2bnr p.len * sizeofBlk := by
  have hlt := imageByte_lt hb
  have hbytes := le_len2bnr p.len
  unfold imageOff
  unfold rtVbusBlkHeadSz at hbytes
  split_ifs <;> omega

theorem imageOff_inj {j : Nat} (h : imageOff j = imageOff k) : j = k := by
  unfold imageOff at h
  split_ifs at h <;> omega

end Image

/-! ## Packets on a line -/

/-- The packet `p` stands at `o`. -/
def StandsAt (view : Nat → UInt8) (o : Nat) (p : VbusPkg) : Prop :=
  ∀ k b, imageByte p k = some b → view (o + imageOff k) = b

/-- The packets stand one behind the other, from `o` on. -/
def Packed (view : Nat → UInt8) : Nat → List VbusPkg → Prop
  | _, [] => True
  | o, p :: ps => StandsAt view o p ∧ Packed view (o + len2bnr p.len * sizeofBlk) ps

/-- The blocks that packets take. -/
def blocks : List VbusPkg → Nat
  | [] => 0
  | p :: ps => len2bnr p.len + blocks ps

section Line

variable {view view' : Nat → UInt8} {o d : Nat} {p : VbusPkg} {ps : List VbusPkg}

theorem blocks_append : blocks (ps ++ [p]) = blocks ps + len2bnr p.len := by
  induction ps with
  | nil => simp [blocks]
  | cons q ps ih => simp only [List.cons_append, blocks, ih]; omega

theorem StandsAt.congr (h : StandsAt view o p)
    (hview : ∀ i, o ≤ i → i < o + len2bnr p.len * sizeofBlk → view' i = view i) : StandsAt view' o p := fun k b hb => by
  have hlt := imageOff_lt hb
  rw [hview _ (by omega) (by omega)]
  exact h k b hb

theorem Packed.congr (h : Packed view o ps)
    (hview : ∀ i, o ≤ i → i < o + blocks ps * sizeofBlk → view' i = view i) : Packed view' o ps := by
  induction ps generalizing o with
  | nil => trivial
  | cons p ps ih =>
      have hsum : (len2bnr p.len + blocks ps) * sizeofBlk = len2bnr p.len * sizeofBlk + blocks ps * sizeofBlk :=
        Nat.add_mul _ _ _
      simp only [blocks, hsum] at hview
      exact ⟨h.1.congr fun i hlo hhi => hview i hlo (by omega), ih h.2 fun i hlo hhi => hview i (by omega) (by omega)⟩

theorem Packed.append (h : Packed view o ps) (hp : StandsAt view (o + blocks ps * sizeofBlk) p) :
    Packed view o (ps ++ [p]) := by
  induction ps generalizing o with
  | nil => exact ⟨by simpa [blocks] using hp, trivial⟩
  | cons q ps ih =>
      refine ⟨h.1, ih h.2 ?_⟩
      have hsum : o + blocks (q :: ps) * sizeofBlk = o + len2bnr q.len * sizeofBlk + blocks ps * sizeofBlk := by
        rw [blocks, Nat.add_mul, Nat.add_assoc]
      exact hsum ▸ hp

theorem Packed.shift (h : Packed view (o + d) ps) (hview : ∀ i, view' i = view (d + i)) : Packed view' o ps := by
  induction ps generalizing o with
  | nil => trivial
  | cons p ps ih =>
      refine ⟨fun k b hb => ?_, ih ?_⟩
      · have hk := h.1 k b hb
        rwa [hview, show d + (o + imageOff k) = o + d + imageOff k by omega]
      · have hrest := h.2
        rwa [show o + d + len2bnr p.len * sizeofBlk = o + len2bnr p.len * sizeofBlk + d by omega] at hrest

end Line

/-! ## The ring from the reader's index on -/

/-- The bytes of the ring from `get_idx` on, around the end. -/
def view (nr : Nat) (rg : VbusRing) (i : Nat) : UInt8 := rg.blks ((rg.getIdx * sizeofBlk + i) % (nr * sizeofBlk))

/-- An index some blocks further on, in bytes. -/
theorem index_bytes (nr idx n i : Nat) :
    ((idx + n) % nr * sizeofBlk + i) % (nr * sizeofBlk) = (idx * sizeofBlk + (n * sizeofBlk + i)) % (nr * sizeofBlk) := by
  rw [← Nat.mul_mod_mul_right, Nat.mod_add_mod, Nat.add_mul, Nat.add_assoc]

/-- When the reader moves on, the line begins further on. -/
theorem view_getIdx (nr : Nat) (rg : VbusRing) (n i : Nat) :
    view nr { rg with getIdx := (rg.getIdx + n) % nr } i = view nr rg (n * sizeofBlk + i) := by
  unfold view
  simp only
  rw [index_bytes]

/-- A store changes one place of the line. -/
theorem view_store {nr : Nat} (rg : VbusRing) {o i : Nat} (b : UInt8) (ho : o < nr * sizeofBlk) (hi : i < nr * sizeofBlk) :
    view nr { rg with
      blks := Function.update rg.blks ((rg.getIdx * sizeofBlk + o) % (nr * sizeofBlk)) b } i =
      if i = o then b else view nr rg i := by
  unfold view
  simp only
  split_ifs with hio
  · rw [hio, Function.update_self]
  · exact Function.update_of_ne (fun e => hio (Ring.offset_inj hi ho e)) _ _

/-! ## The invariant -/

/-- A packet of a length that packets have, whose identifier is in the channel tables. -/
def VbusPkg.Ok (p : VbusPkg) : Prop := p.LengthOk ∧ p.id.toNat < rtVbusChannelNr

instance (p : VbusPkg) : Decidable p.Ok := inferInstanceAs (Decidable (_ ∧ _))

/-- **What was taken is what was sent**: the same identifier and length, and if the channel was connected the same bytes;
otherwise the packet was skipped. -/
structure Took (t : VbusTaken) (p : VbusPkg) : Prop where
  id : t.id = p.id
  size : t.size = p.len
  data : t.data = if t.connected then some p.data else none

/-- The position of the writer; `q` are the packets on the ring. -/
def OutOk (nr : Nat) (rg : VbusRing) (q : List VbusPkg) : OutPc → Prop
  | .popping => True
  | .sampling p | .waiting p => p.Ok
  | .storing p k =>
      p.Ok ∧ blocks q + len2bnr p.len < nr ∧
        ∀ j < k, ∀ b, imageByte p j = some b → view nr rg (blocks q * sizeofBlk + imageOff j) = b
  | .undefined => False

/-- The position of the reader. -/
def InOk (q : List VbusPkg) : InPc → Prop
  | .testing => True
  | .nonempty => q ≠ []
  | .sized size => ∃ p ∈ q.head?, size = p.len
  | .checking id size => ∃ p ∈ q.head?, id = p.id ∧ size = p.len
  | .loading id size bytes => ∃ p ∈ q.head?, id = p.id ∧ size = p.len ∧ bytes = p.data.take bytes.length
  | .releasing t => ∃ p ∈ q.head?, Took t p
  | .undefined => False

/-- The packet that the writer has in hand. -/
def OutPc.pkg : OutPc → Option VbusPkg
  | sampling p | waiting p | storing p _ => some p
  | popping | undefined => none

/-- The invariant; `q` are the packets on the ring. -/
structure VbusInv (nr : Nat) (pkts : List VbusPkg) (s : VbusSys) (q : List VbusPkg) : Prop where
  getIdx_lt : s.ring.getIdx < nr
  putIdx_eq : s.ring.putIdx = (s.ring.getIdx + blocks q) % nr
  room : blocks q < nr
  packed : Packed (view nr s.ring) 0 q
  ok : ∀ p, p ∈ q ∨ p ∈ s.todo → p.Ok
  out : OutOk nr s.ring q s.out
  inn : InOk q s.inn
  sent : ∃ front, s.sent = front ++ q ∧ List.Forall₂ Took s.taken front
  handled : s.handled.map Prod.fst ++ s.todo = pkts
  accepted : (s.handled.filter Prod.snd).map Prod.fst = s.sent ++ s.out.pkg.toList

section Steps

variable {nr : Nat} {pkts : List VbusPkg} {s : VbusSys} {q : List VbusPkg}

theorem VbusInv.putIdx_lt (i : VbusInv nr pkts s q) : s.ring.putIdx < nr := by
  have hget := i.getIdx_lt
  rw [i.putIdx_eq]
  exact Nat.mod_lt _ (by omega)

/-- The indices are as far apart as the packets on the ring. -/
theorem VbusInv.dist_eq (i : VbusInv nr pkts s q) : Ring.dist nr s.ring.getIdx s.ring.putIdx = blocks q := by
  rw [i.putIdx_eq, Ring.dist_add i.getIdx_lt i.room]

/-- The next store of the writer, seen from the reader. -/
theorem VbusInv.store_addr (i : VbusInv nr pkts s q) {p : VbusPkg} (hroom : blocks q + len2bnr p.len < nr) (k : Nat) :
    (outStores nr s.ring.putIdx p)[k]? = (imageByte p k).map fun b =>
      ((s.ring.getIdx * sizeofBlk + (blocks q * sizeofBlk + imageOff k)) % (nr * sizeofBlk), b) := by
  rw [outStores_get i.putIdx_lt (by omega), i.putIdx_eq]
  simp only [index_bytes]

/-! ## The writer -/

theorem VbusInv.outPop (i : VbusInv nr pkts s q) (ho : s.out = .popping) : VbusInv nr pkts s.outPop q := by
  have hacc := i.accepted
  rw [ho] at hacc
  unfold VbusSys.outPop
  cases htodo : s.todo with
  | nil => exact i
  | cons p todo =>
      have hp : p.Ok := i.ok p (.inr (by simp [htodo]))
      have hok : ∀ p', p' ∈ q ∨ p' ∈ todo → p'.Ok := fun p' hp' =>
        i.ok p' (hp'.imp_right fun h => htodo ▸ List.mem_cons_of_mem p h)
      have hhandled := i.handled
      rw [htodo] at hhandled
      simp only
      rw [if_neg (not_le.mpr hp.2)]
      refine ⟨i.getIdx_lt, i.putIdx_eq, i.room, i.packed, hok, ?_, i.inn, i.sent, ?_, ?_⟩
      · cases s.outChn p.id.toNat
        · trivial
        · exact hp
      · simpa using hhandled
      · cases hc : s.outChn p.id.toNat
        · simpa [hc, OutPc.pkg] using hacc
        · simpa [hc, OutPc.pkg] using hacc

/-- **The free space** that the writer finds is there. -/
theorem VbusInv.outSample (i : VbusInv nr pkts s q) {p : VbusPkg} (ho : s.out = .sampling p) :
    VbusInv nr pkts { s with
      out := if busRingSpaceNr nr s.ring < len2bnr p.len then .waiting p else .storing p 0 } q := by
  have hp : p.Ok := by
    have hout := i.out
    rwa [ho] at hout
  have hspace := busRingSpaceNr_eq i.getIdx_lt
  rw [i.dist_eq] at hspace
  have hacc := i.accepted
  rw [ho] at hacc
  refine ⟨i.getIdx_lt, i.putIdx_eq, i.room, i.packed, i.ok, ?_, i.inn, i.sent, i.handled, ?_⟩
  · split_ifs with hlt
    · exact hp
    · exact ⟨hp, by omega, fun j hj => absurd hj (Nat.not_lt_zero j)⟩
  · rw [hacc]
    split_ifs <;> rfl

/-- **One store** of the writer goes behind the packets on the ring. -/
theorem VbusInv.outStore (i : VbusInv nr pkts s q) {p : VbusPkg} {k : Nat} (ho : s.out = .storing p k) {b : UInt8}
    (hb : imageByte p k = some b) :
    VbusInv nr pkts { s with
      ring := { s.ring with
        blks := Function.update s.ring.blks
          ((s.ring.getIdx * sizeofBlk + (blocks q * sizeofBlk + imageOff k)) % (nr * sizeofBlk)) b }
      out := .storing p (k + 1) } q := by
  obtain ⟨hp, hroom, hdone⟩ : OutOk nr s.ring q (.storing p k) := ho ▸ i.out
  have hfit : (blocks q + len2bnr p.len) * sizeofBlk ≤ nr * sizeofBlk := Nat.mul_le_mul_right _ (by omega)
  rw [Nat.add_mul] at hfit
  have hlt := imageOff_lt hb
  have hstore := fun j (hj : j < nr * sizeofBlk) => view_store s.ring (i := j) b
    (by omega : blocks q * sizeofBlk + imageOff k < nr * sizeofBlk) hj
  refine ⟨i.getIdx_lt, i.putIdx_eq, i.room, ?_, i.ok, ⟨hp, hroom, fun j hj b' hb' => ?_⟩, i.inn, i.sent, i.handled,
    by rw [i.accepted, ho]; rfl⟩
  · refine i.packed.congr fun j _ hj => ?_
    rw [hstore j (by omega), if_neg (by omega)]
  · have hjlt := imageOff_lt hb'
    rw [hstore _ (by omega)]
    by_cases hjk : j = k
    · subst hjk
      rw [if_pos rfl]
      exact Option.some.inj (hb.symm.trans hb')
    · rw [if_neg fun e => hjk (imageOff_inj (by omega))]
      exact hdone j (by omega) b' hb'

/-- The packet that the reader is at stays when another one is put on the ring. -/
theorem InOk.append {pc : InPc} (h : InOk q pc) (p : VbusPkg) : InOk (q ++ [p]) pc := by
  have hhead : ∀ p' ∈ q.head?, p' ∈ (q ++ [p]).head? := fun p' hp' => by
    cases q with
    | nil => simp at hp'
    | cons x xs => exact hp'
  cases pc with
  | testing => trivial
  | nonempty => exact fun he => h (by simp at he)
  | sized size => exact h.imp fun p' hp' => ⟨hhead p' hp'.1, hp'.2⟩
  | checking id size => exact h.imp fun p' hp' => ⟨hhead p' hp'.1, hp'.2⟩
  | loading id size bytes => exact h.imp fun p' hp' => ⟨hhead p' hp'.1, hp'.2⟩
  | releasing t => exact h.imp fun p' hp' => ⟨hhead p' hp'.1, hp'.2⟩
  | undefined => exact h

/-- **The packet is put on the ring** when all of it is stored. -/
theorem VbusInv.outPublish (i : VbusInv nr pkts s q) {p : VbusPkg} {k : Nat} (ho : s.out = .storing p k)
    (hk : imageByte p k = none) :
    VbusInv nr pkts { s with
      ring := { s.ring with putIdx := ringAdd nr s.ring.putIdx (len2bnr p.len) }
      out := .popping
      sent := s.sent ++ [p] } (q ++ [p]) := by
  obtain ⟨hp, hroom, hdone⟩ : OutOk nr s.ring q (.storing p k) := ho ▸ i.out
  have hall : ∀ j b, imageByte p j = some b → j < k := fun j b hb => by
    have hj := imageByte_lt hb
    have hlen := List.getElem?_eq_none_iff.mp hk
    simp only [List.length_append, List.length_cons, List.length_nil] at hlen
    have hlen' : p.data.length = p.len := rfl
    omega
  obtain ⟨front, hfront, htook⟩ := i.sent
  have hacc := i.accepted
  rw [ho] at hacc
  refine ⟨i.getIdx_lt, ?_, by rw [blocks_append]; exact hroom, i.packed.append fun j b hb => ?_, ?_, trivial, i.inn.append p,
    ⟨front, by rw [hfront, List.append_assoc], htook⟩, i.handled, ?_⟩
  · show ringAdd nr s.ring.putIdx (len2bnr p.len) = (s.ring.getIdx + blocks (q ++ [p])) % nr
    rw [ringAdd_eq i.putIdx_lt (by omega), i.putIdx_eq, blocks_append, Nat.mod_add_mod, Nat.add_assoc]
  · rw [Nat.zero_add]
    exact hdone j (hall j b hb) b hb
  · intro p' hp'
    rcases hp' with hp' | hp'
    · rcases List.mem_append.mp hp' with hp' | hp'
      · exact i.ok p' (.inl hp')
      · exact List.mem_singleton.mp hp' ▸ hp
    · exact i.ok p' (.inr hp')
  · rw [hacc]
    simp [OutPc.pkg]

/-- One step of `_bus_out_entry`. -/
theorem VbusInv.outStep (i : VbusInv nr pkts s q) : ∃ q', VbusInv nr pkts (s.outStep nr) q' := by
  unfold VbusSys.outStep
  cases ho : s.out with
  | popping => exact ⟨q, i.outPop ho⟩
  | sampling p => exact ⟨q, i.outSample ho⟩
  | waiting p =>
      have hout := i.out
      have hacc := i.accepted
      rw [ho] at hout hacc
      exact ⟨q, i.getIdx_lt, i.putIdx_eq, i.room, i.packed, i.ok, hout, i.inn, i.sent, i.handled, hacc⟩
  | storing p k =>
      obtain ⟨-, hroom, -⟩ : OutOk nr s.ring q (.storing p k) := ho ▸ i.out
      simp only [i.store_addr hroom]
      cases hk : imageByte p k with
      | none => exact ⟨q ++ [p], i.outPublish ho hk⟩
      | some b => exact ⟨q, i.outStore ho hk⟩
  | undefined => exact ⟨q, i⟩

/-! ## The reader -/

/-- A test or a load of the reader changes its position only. -/
theorem VbusInv.withInn (i : VbusInv nr pkts s q) {pc : InPc} (h : InOk q pc) : VbusInv nr pkts { s with inn := pc } q :=
  ⟨i.getIdx_lt, i.putIdx_eq, i.room, i.packed, i.ok, i.out, h, i.sent, i.handled, i.accepted⟩

/-- **The first packet on the ring** stands at the index of the reader. -/
theorem VbusInv.first (i : VbusInv nr pkts s q) {p : VbusPkg} (hp : p ∈ q.head?) :
    p.Ok ∧ len2bnr p.len ≤ nr ∧
      ∀ k b, imageByte p k = some b → s.ring.blks ((s.ring.getIdx * sizeofBlk + imageOff k) % (nr * sizeofBlk)) = b := by
  obtain ⟨q', rfl⟩ : ∃ q', q = p :: q' := by
    cases q with
    | nil => simp at hp
    | cons x q' => exact ⟨q', by rw [Option.some.inj hp]⟩
  have hroom := i.room
  simp only [blocks] at hroom
  refine ⟨i.ok p (.inl (List.mem_cons_self ..)), by omega, fun k b hb => ?_⟩
  have hstands := i.packed.1 k b hb
  rwa [Nat.zero_add] at hstands

/-- The header is in the block at the index of the reader. -/
theorem VbusInv.header_addr (i : VbusInv nr pkts s q) {k : Nat} (hk : k < 3) :
    (s.ring.getIdx * sizeofBlk + imageOff k) % (nr * sizeofBlk) = s.ring.getIdx * sizeofBlk + k := by
  have hget := i.getIdx_lt
  have hmul : (s.ring.getIdx + 1) * sizeofBlk ≤ nr * sizeofBlk := Nat.mul_le_mul_right _ (by omega)
  rw [Nat.add_mul] at hmul
  rw [imageOff, if_pos hk, Nat.mod_eq_of_lt]
  unfold sizeofBlk at *
  omega

theorem VbusInv.inTest (i : VbusInv nr pkts s q) (hne : s.ring.getIdx ≠ s.ring.putIdx) :
    VbusInv nr pkts { s with inn := .nonempty } q := by
  refine i.withInn fun he => hne ?_
  rw [i.putIdx_eq, he, blocks, Nat.add_zero, Nat.mod_eq_of_lt i.getIdx_lt]

theorem VbusInv.inLen (i : VbusInv nr pkts s q) (hi : s.inn = .nonempty) :
    VbusInv nr pkts { s with inn := .sized (s.ring.blks (s.ring.getIdx * sizeofBlk + 2)).toNat } q := by
  have hne : q ≠ [] := by
    have hinn := i.inn
    rwa [hi] at hinn
  obtain ⟨p, q', rfl⟩ := List.exists_cons_of_ne_nil hne
  obtain ⟨hp, -, hbytes⟩ := i.first (p := p) rfl
  have hlen : p.len ≤ 252 := hp.1.1
  refine i.withInn ⟨p, rfl, ?_⟩
  have hb := hbytes 2 (UInt8.ofNat p.len) rfl
  rw [i.header_addr (by omega)] at hb
  rw [hb, UInt8.toNat_ofNat', Nat.mod_eq_of_lt (by omega)]

theorem VbusInv.inId (i : VbusInv nr pkts s q) {size : Nat} (hi : s.inn = .sized size) :
    VbusInv nr pkts { s with inn := .checking (s.ring.blks (s.ring.getIdx * sizeofBlk)) size } q := by
  obtain ⟨p, hp, hsize⟩ : InOk q (.sized size) := hi ▸ i.inn
  refine i.withInn ⟨p, hp, ?_, hsize⟩
  have hb := (i.first hp).2.2 0 p.id rfl
  rwa [i.header_addr (by omega), Nat.add_zero] at hb

/-- **The channel of a packet** on the ring is in the table. -/
theorem VbusInv.inCheck (i : VbusInv nr pkts s q) {id : UInt8} {size : Nat} (hi : s.inn = .checking id size) :
    VbusInv nr pkts (s.inCheck id size) q := by
  obtain ⟨p, hp, rfl, rfl⟩ : InOk q (.checking id size) := hi ▸ i.inn
  obtain ⟨⟨hlen, hid⟩, -, -⟩ := i.first hp
  have hskip : Took ⟨p.id, p.len, false, none⟩ p := ⟨rfl, rfl, rfl⟩
  unfold VbusSys.inCheck
  rw [if_neg (by omega), if_neg (by omega)]
  split_ifs with hchn hsize
  · have hshort := hlen.2 hsize.1
    omega
  · exact i.withInn ⟨p, hp, rfl, rfl, rfl⟩
  · exact i.withInn ⟨p, hp, hskip⟩

/-- The loads of the data of a packet, on any channel. -/
theorem VbusInv.loads_get (i : VbusInv nr pkts s q) {p : VbusPkg} (hp : p ∈ q.head?) (k : Nat) :
    (s.loads nr p.id p.len)[k]? =
      if k < p.len then some ((s.ring.getIdx * sizeofBlk + (rtVbusBlkHeadSz + k)) % (nr * sizeofBlk)) else none := by
  obtain ⟨⟨hlen, -⟩, hfit, -⟩ := i.first hp
  unfold VbusSys.loads
  by_cases hid : p.id = 0
  · rw [if_pos hid, chn0Loads_get i.getIdx_lt (hlen.2 hid)]
  · rw [if_neg hid, inLoads_get i.getIdx_lt hfit]

/-- **One load** of the reader is the next byte of the packet, and when there is none all bytes are read. -/
theorem VbusInv.inLoad (i : VbusInv nr pkts s q) {id : UInt8} {size : Nat} {bytes : List UInt8}
    (hi : s.inn = .loading id size bytes) : VbusInv nr pkts (s.inStep nr) q := by
  obtain ⟨p, hp, rfl, rfl, hread⟩ : InOk q (.loading id size bytes) := hi ▸ i.inn
  have hlen : p.data.length = p.len := rfl
  unfold VbusSys.inStep
  simp only [hi, i.loads_get hp]
  split_ifs with hk
  · obtain ⟨b, hb⟩ : ∃ b, p.data[bytes.length]? = some b := ⟨_, List.getElem?_eq_getElem (hlen ▸ hk)⟩
    have himage : imageByte p (3 + bytes.length) = some b := by
      unfold imageByte
      rw [List.getElem?_append_right (by simp)]
      simpa using hb
    have hload := (i.first hp).2.2 _ b himage
    have hoff : imageOff (3 + bytes.length) = rtVbusBlkHeadSz + bytes.length := by
      unfold imageOff rtVbusBlkHeadSz
      rw [if_neg (by omega)]
      omega
    rw [hoff] at hload
    refine i.withInn ⟨p, hp, rfl, rfl, ?_⟩
    rw [hload, List.length_append, List.length_singleton, List.take_add_one, hb, ← hread]
    rfl
  · refine i.withInn ⟨p, hp, rfl, rfl, ?_⟩
    rw [List.take_of_length_le (by omega)] at hread
    rw [hread]
    rfl

/-- **The index of the reader moves on** over the packet that was taken. -/
theorem VbusInv.inRelease (i : VbusInv nr pkts s q) {t : VbusTaken} (hi : s.inn = .releasing t) :
    ∃ q', VbusInv nr pkts { s with
      ring := { s.ring with getIdx := ringAdd nr s.ring.getIdx (len2bnr t.size) }
      inn := .testing
      taken := s.taken ++ [t] } q' := by
  obtain ⟨p, hp, htook⟩ : InOk q (.releasing t) := hi ▸ i.inn
  obtain ⟨hok, hfit, -⟩ := i.first hp
  obtain ⟨q', rfl⟩ : ∃ q', q = p :: q' := by
    cases q with
    | nil => simp at hp
    | cons x q' => exact ⟨q', by rw [Option.some.inj hp]⟩
  have hget := i.getIdx_lt
  have hroom := i.room
  have hput := i.putIdx_eq
  simp only [blocks] at hroom hput
  obtain ⟨front, hfront, hall⟩ := i.sent
  rw [htook.size, ringAdd_eq hget hfit]
  have hview := view_getIdx nr s.ring (len2bnr p.len)
  refine ⟨q', Nat.mod_lt _ (by omega), ?_, by omega, ?_, ?_, ?_, trivial, ⟨front ++ [p], ?_, ?_⟩, i.handled, i.accepted⟩
  · show s.ring.putIdx = ((s.ring.getIdx + len2bnr p.len) % nr + blocks q') % nr
    rw [hput, Nat.mod_add_mod, Nat.add_assoc]
  · exact Packed.shift i.packed.2 hview
  · exact fun p' hp' => i.ok p' (hp'.imp_left (List.mem_cons_of_mem p))
  · -- the packet that is being stored keeps its place on the ring
    have hout := i.out
    show OutOk nr { s.ring with getIdx := _ } q' s.out
    cases ho : s.out with
    | storing p' k =>
        rw [ho] at hout
        obtain ⟨hp', hroom', hdone⟩ := hout
        simp only [blocks] at hroom' hdone
        refine ⟨hp', by omega, fun j hj b hb => ?_⟩
        rw [hview, ← Nat.add_assoc, ← Nat.add_mul]
        exact hdone j hj b hb
    | popping => trivial
    | sampling p' => rwa [ho] at hout
    | waiting p' => rwa [ho] at hout
    | undefined => rwa [ho] at hout
  · rw [hfront, List.append_assoc]
    rfl
  · exact List.rel_append hall (.cons htook .nil)

/-- One step of `_bus_in_entry`. -/
theorem VbusInv.inStep (i : VbusInv nr pkts s q) : ∃ q', VbusInv nr pkts (s.inStep nr) q' := by
  cases hi : s.inn with
  | loading id size bytes => exact ⟨q, i.inLoad hi⟩
  | testing =>
      unfold VbusSys.inStep
      simp only [hi]
      split_ifs with hne
      · exact ⟨q, i.inTest hne⟩
      · exact ⟨q, i⟩
  | nonempty => exact ⟨q, by simpa only [VbusSys.inStep, hi] using i.inLen hi⟩
  | sized size => exact ⟨q, by simpa only [VbusSys.inStep, hi] using i.inId hi⟩
  | checking id size => exact ⟨q, by simpa only [VbusSys.inStep, hi] using i.inCheck hi⟩
  | releasing t =>
      obtain ⟨q', i'⟩ := i.inRelease hi
      exact ⟨q', by simpa only [VbusSys.inStep, hi] using i'⟩
  | undefined =>
      have hinn := i.inn
      rw [hi] at hinn
      exact hinn.elim

end Steps

/-! ## Runs -/

/-- One step of the system. -/
theorem VbusInv.step {nr : Nat} {pkts : List VbusPkg} {s s' : VbusSys} {e : VbusEvent} (h : VbusSys.Step nr s e s')
    (i : ∃ q, VbusInv nr pkts s q) : ∃ q, VbusInv nr pkts s' q := by
  obtain ⟨q, i⟩ := i
  rw [h]
  cases e with
  | out => exact i.outStep
  | inn => exact i.inStep
  | setOut chn => exact ⟨q, i.getIdx_lt, i.putIdx_eq, i.room, i.packed, i.ok, i.out, i.inn, i.sent, i.handled, i.accepted⟩
  | setIn chn => exact ⟨q, i.getIdx_lt, i.putIdx_eq, i.room, i.packed, i.ok, i.out, i.inn, i.sent, i.handled, i.accepted⟩

theorem VbusInv.init {nr : Nat} {pkts : List VbusPkg} (hnr : 0 < nr) (hok : ∀ p ∈ pkts, p.Ok) (blks : Nat → UInt8)
    (outChn inChn : Nat → Bool) : VbusInv nr pkts (VbusSys.init blks outChn inChn pkts) [] where
  getIdx_lt := hnr
  putIdx_eq := by simp [VbusSys.init, blocks]
  room := hnr
  packed := trivial
  ok p hp := hok p (by simpa [VbusSys.init] using hp)
  out := trivial
  inn := trivial
  sent := ⟨[], rfl, .nil⟩
  handled := rfl
  accepted := rfl

/-! ## What the ring is for -/

/-- The packets `pkts` are **delivered** as far as the system has come. Each was accepted or not, in order; the accepted ones
were sent, in order, and those that the other side took arrived as they were sent. The block that the writer stores to next
is not one between the indices, which the reader may still read. Neither thread has indexed outside of the channel tables. -/
structure VbusSys.Delivers (nr : Nat) (pkts : List VbusPkg) (s : VbusSys) : Prop where
  handled : s.handled.map Prod.fst ++ s.todo = pkts
  accepted : (s.handled.filter Prod.snd).map Prod.fst = s.sent ++ s.out.pkg.toList
  taken : List.Forall₂ Took s.taken (s.sent.take s.taken.length)
  unread : ∀ p k a b, s.out = .storing p k → (outStores nr s.ring.putIdx p)[k]? = some (a, b) →
    ∀ n < Ring.dist nr s.ring.getIdx s.ring.putIdx, (s.ring.getIdx + n) % nr ≠ a / sizeofBlk
  out : s.out ≠ .undefined
  inn : s.inn ≠ .undefined

theorem VbusInv.delivers {nr : Nat} {pkts : List VbusPkg} {s : VbusSys} {q : List VbusPkg} (i : VbusInv nr pkts s q) :
    s.Delivers nr pkts where
  handled := i.handled
  accepted := i.accepted
  taken := by
    obtain ⟨front, hfront, hall⟩ := i.sent
    rw [hfront, hall.length_eq, List.take_left]
    exact hall
  unread p k a b ho hstore n hn := by
    obtain ⟨-, hroom, -⟩ : OutOk nr s.ring q (.storing p k) := ho ▸ i.out
    rw [i.store_addr hroom] at hstore
    obtain ⟨b', hb', heq⟩ := Option.map_eq_some_iff.mp hstore
    rw [i.dist_eq] at hn
    have hoff := imageOff_lt hb'
    obtain ⟨m, hm⟩ : ∃ m, imageOff k / sizeofBlk = m := ⟨_, rfl⟩
    have ha : a / sizeofBlk = (s.ring.getIdx + (blocks q + m)) % nr := by
      have haddr : s.ring.getIdx * sizeofBlk + (blocks q * sizeofBlk + imageOff k) =
          imageOff k + (s.ring.getIdx + blocks q) * sizeofBlk := by rw [Nat.add_mul]; omega
      rw [← (Prod.mk.inj heq).1, Nat.mod_mul_left_div_self, haddr, Nat.add_mul_div_right _ _ (by unfold sizeofBlk; omega),
        hm, Nat.add_left_comm, Nat.add_comm m, ← Nat.add_assoc]
    have hdiv : m < len2bnr p.len := hm ▸ Nat.div_lt_of_lt_mul (by rwa [Nat.mul_comm])
    rw [ha]
    intro he
    have hoffset := Ring.offset_inj (by omega) (by omega) he
    omega
  out ho := by
    have hout := i.out
    rw [ho] at hout
    exact hout
  inn hi := by
    have hinn := i.inn
    rw [hi] at hinn
    exact hinn

/-- A packet with an identifier that is not in the tables makes the writer index outside of them, when no channel is
connected at the latest. -/
theorem reaches_undefined (nr : Nat) {s : VbusSys} (hout : s.out = .popping) (hchn : s.outChn = fun _ => false)
    (h : ∃ p ∈ s.todo, rtVbusChannelNr ≤ p.id.toNat) : ∃ evs s', Run (VbusSys.Step nr) s evs s' ∧ s'.out = .undefined := by
  obtain ⟨todo, htodo⟩ : ∃ todo, s.todo = todo := ⟨_, rfl⟩
  rw [htodo] at h
  induction todo generalizing s with
  | nil => simp at h
  | cons p todo ih =>
      have hstep : s.exec nr .out = s.outPop := by
        simp only [VbusSys.exec, VbusSys.outStep, hout]
      rw [VbusSys.outPop, htodo] at hstep
      simp only [hchn] at hstep
      by_cases hp : rtVbusChannelNr ≤ p.id.toNat
      · exact ⟨[.out], _, Run.single rfl, by rw [hstep, if_pos hp]⟩
      · obtain ⟨p', hp', hbad⟩ := h
        have htail : p' ∈ todo := (List.mem_cons.mp hp').resolve_left fun e => hp (e ▸ hbad)
        rw [if_neg hp] at hstep
        obtain ⟨evs, s', hrun, hundef⟩ := ih (s := s.exec nr .out) (by rw [hstep]; rfl) (by rw [hstep])
          ⟨p', htail, hbad⟩ (by rw [hstep])
        exact ⟨_, s', (Run.single rfl).append hrun, hundef⟩

/-- **Every packet that is sent arrives as it was sent**, whatever the order in which the two threads take their steps and
the channels change, exactly if every identifier is in the channel tables. -/
theorem ring_delivers {nr : Nat} (hnr : 0 < nr) {pkts : List VbusPkg} (hlen : ∀ p ∈ pkts, p.LengthOk)
    (blks : Nat → UInt8) (outChn inChn : Nat → Bool) :
    (∀ evs s, Run (VbusSys.Step nr) (VbusSys.init blks outChn inChn pkts) evs s → s.Delivers nr pkts) ↔
      ∀ p ∈ pkts, p.id.toNat < rtVbusChannelNr := by
  constructor
  · intro h p hp
    by_contra hid
    have hset : Run (VbusSys.Step nr) (VbusSys.init blks outChn inChn pkts) [.setOut fun _ => false] _ := Run.single rfl
    obtain ⟨evs, s', hrun, hundef⟩ := reaches_undefined nr
      (s := (VbusSys.init blks outChn inChn pkts).exec nr (.setOut fun _ => false)) rfl rfl ⟨p, hp, not_lt.mp hid⟩
    exact (h _ s' (hset.append hrun)).out hundef
  · intro hid evs s h
    obtain ⟨q, i⟩ : ∃ q, VbusInv nr pkts s q :=
      h.invariant ⟨[], .init hnr (fun p hp => ⟨hlen p hp, hid p hp⟩) blks outChn inChn⟩
        fun _ _ _ i hstep => VbusInv.step hstep i
    exact i.delivers

/-- The stores that are left of a packet, and the new index. -/
theorem storing_ends (nr : Nat) {s : VbusSys} {p : VbusPkg} {k : Nat} (hout : s.out = .storing p k) :
    ∃ evs, Run (VbusSys.Step nr) s evs
      { s with
        ring := { s.ring with
          putIdx := ringAdd nr s.ring.putIdx (len2bnr p.len)
          blks := ((outStores nr s.ring.putIdx p).drop k).foldl (fun b a => Function.update b a.1 a.2) s.ring.blks }
        out := .popping
        sent := s.sent ++ [p] } := by
  obtain ⟨n, hn⟩ : ∃ n, (outStores nr s.ring.putIdx p).length - k = n := ⟨_, rfl⟩
  induction n generalizing s k with
  | zero =>
      have hend : (outStores nr s.ring.putIdx p)[k]? = none := List.getElem?_eq_none (by omega)
      refine ⟨[.out], Run.single ?_⟩
      rw [List.drop_eq_nil_of_le (by omega)]
      simp only [VbusSys.Step, List.foldl_nil, VbusSys.exec, VbusSys.outStep, hout, hend]
  | succ n ih =>
      have hlt : k < (outStores nr s.ring.putIdx p).length := by omega
      have hnext : (outStores nr s.ring.putIdx p)[k]? = some (outStores nr s.ring.putIdx p)[k] := List.getElem?_eq_getElem hlt
      have hstep : s.exec nr .out =
          { s with
            ring := { s.ring with
              blks := Function.update s.ring.blks (outStores nr s.ring.putIdx p)[k].1 (outStores nr s.ring.putIdx p)[k].2 }
            out := .storing p (k + 1) } := by
        simp only [VbusSys.exec, VbusSys.outStep, hout, hnext]
      obtain ⟨evs, hevs⟩ := ih (s := s.exec nr .out) (k := k + 1) (by rw [hstep]) (by rw [hstep]; dsimp only; omega)
      rw [hstep] at hevs
      rw [List.drop_eq_getElem_cons hlt, List.foldl_cons]
      exact ⟨_, (Run.single hstep.symm).append hevs⟩

/-- The writer gets a packet onto a ring that has room for it. -/
theorem out_ends (nr : Nat) {s : VbusSys} {p : VbusPkg} {todo : List VbusPkg} (hout : s.out = .popping) (htodo : s.todo = p :: todo)
    (hid : p.id.toNat < rtVbusChannelNr) (hchn : s.outChn p.id.toNat = true)
    (hroom : (len2bnr p.len : Int) ≤ busRingSpaceNr nr s.ring) :
    ∃ evs, Run (VbusSys.Step nr) s evs
      { s with
        ring := { s.ring with
          putIdx := ringAdd nr s.ring.putIdx (len2bnr p.len)
          blks := (outStores nr s.ring.putIdx p).foldl (fun b a => Function.update b a.1 a.2) s.ring.blks }
        out := .popping
        todo := todo
        handled := s.handled ++ [(p, true)]
        sent := s.sent ++ [p] } := by
  have hpop : s.exec nr .out = { s with out := .sampling p, todo := todo, handled := s.handled ++ [(p, true)] } := by
    simp only [VbusSys.exec, VbusSys.outStep, hout, VbusSys.outPop, htodo, hchn, if_true]
    rw [if_neg (by omega)]
  have hsample : (s.exec nr .out).exec nr .out =
      { s with out := .storing p 0, todo := todo, handled := s.handled ++ [(p, true)] } := by
    rw [hpop]
    simp only [VbusSys.exec, VbusSys.outStep]
    rw [if_neg (by omega)]
  obtain ⟨evs, hevs⟩ := storing_ends nr (s := (s.exec nr .out).exec nr .out) (p := p) (k := 0) (by rw [hsample])
  rw [hsample] at hevs
  exact ⟨_, (Run.single rfl).append ((Run.single hsample.symm).append hevs)⟩

/-- The loads that are left of a packet, and the new index. -/
theorem loading_ends (nr : Nat) {s : VbusSys} {id : UInt8} {size : Nat} {bytes : List UInt8}
    (hinn : s.inn = .loading id size bytes) :
    ∃ evs data, Run (VbusSys.Step nr) s evs
      { s with
        ring := { s.ring with getIdx := ringAdd nr s.ring.getIdx (len2bnr size) }
        inn := .testing
        taken := s.taken ++ [⟨id, size, true, some data⟩] } := by
  obtain ⟨n, hn⟩ : ∃ n, (s.loads nr id size).length - bytes.length = n := ⟨_, rfl⟩
  induction n generalizing s bytes with
  | zero =>
      have hend : (s.loads nr id size)[bytes.length]? = none := List.getElem?_eq_none (by omega)
      have hstep : s.exec nr .inn = { s with inn := .releasing ⟨id, size, true, some bytes⟩ } := by
        simp only [VbusSys.exec, VbusSys.inStep, hinn, hend]
      have hrelease : Run (VbusSys.Step nr) { s with inn := .releasing ⟨id, size, true, some bytes⟩ } [.inn] _ := Run.single rfl
      exact ⟨_, bytes, (Run.single hstep.symm).append hrelease⟩
  | succ n ih =>
      have hlt : bytes.length < (s.loads nr id size).length := by omega
      have hnext : (s.loads nr id size)[bytes.length]? = some (s.loads nr id size)[bytes.length] := List.getElem?_eq_getElem hlt
      have hstep : s.exec nr .inn =
          { s with inn := .loading id size (bytes ++ [s.ring.blks (s.loads nr id size)[bytes.length]]) } := by
        simp only [VbusSys.exec, VbusSys.inStep, hinn, hnext]
      obtain ⟨evs, data, hevs⟩ := ih (s := s.exec nr .inn) (by rw [hstep]) (by
        rw [hstep, List.length_append, List.length_singleton]
        change (s.loads nr id size).length - _ = n
        omega)
      rw [hstep] at hevs
      exact ⟨_, data, (Run.single hstep.symm).append hevs⟩

/-- The reader gets a packet of a connected channel off the ring. -/
theorem in_ends (nr : Nat) {s : VbusSys} {id : UInt8} {size : Nat} (hinn : s.inn = .testing) (hne : s.ring.getIdx ≠ s.ring.putIdx)
    (hsize : (s.ring.blks (s.ring.getIdx * sizeofBlk + 2)).toNat = size) (hid : s.ring.blks (s.ring.getIdx * sizeofBlk) = id)
    (hlt : id.toNat < rtVbusChannelNr) (hzero : id ≠ 0) (hchn : s.inChn id.toNat = true) :
    ∃ evs data, Run (VbusSys.Step nr) s evs
      { s with
        ring := { s.ring with getIdx := ringAdd nr s.ring.getIdx (len2bnr size) }
        inn := .testing
        taken := s.taken ++ [⟨id, size, true, some data⟩] } := by
  have hload : [VbusEvent.inn, .inn, .inn, .inn].foldl (VbusSys.exec nr) s = { s with inn := .loading id size [] } := by
    simp only [List.foldl_cons, List.foldl_nil, VbusSys.exec, VbusSys.inStep, hinn, if_pos hne, hsize, hid, VbusSys.inCheck, hchn,
      if_true]
    rw [if_neg (by omega), if_neg (by omega), if_neg fun h => hzero h.1]
  have hrun : Run (VbusSys.Step nr) s [.inn, .inn, .inn, .inn] { s with inn := .loading id size [] } :=
    hload ▸ Run.of_foldl (VbusSys.exec nr) s [.inn, .inn, .inn, .inn]
  obtain ⟨evs, data, hevs⟩ := loading_ends nr (s := { s with inn := .loading id size [] }) rfl
  exact ⟨_, data, hrun.append hevs⟩

/-- Two packets of two blocks each on a ring of three; the second goes around the end. -/
theorem ring_delivers_run :
    ∃ evs s, Run (VbusSys.Step 3) (VbusSys.init (fun _ => 0) (fun _ => true) (fun _ => true)
      [⟨1, 0, List.replicate 61 7⟩, ⟨2, 0, List.replicate 62 9⟩]) evs s ∧
      s.taken = [⟨1, 61, true, some (List.replicate 61 7)⟩, ⟨2, 62, true, some (List.replicate 62 9)⟩] ∧
      s.ring.getIdx = 1 ∧ s.Delivers 3 [⟨1, 0, List.replicate 61 7⟩, ⟨2, 0, List.replicate 62 9⟩] := by
  obtain ⟨b₁, hb₁⟩ : ∃ b : Nat → UInt8, b =
    (outStores 3 0 ⟨1, 0, List.replicate 61 7⟩).foldl (fun b a => Function.update b a.1 a.2) fun _ => 0 := ⟨_, rfl⟩
  obtain ⟨b₂, hb₂⟩ : ∃ b : Nat → UInt8, b =
    (outStores 3 2 ⟨2, 0, List.replicate 62 9⟩).foldl (fun b a => Function.update b a.1 a.2) b₁ := ⟨_, rfl⟩
  have hlen₁ : (b₁ 2).toNat = 61 := by
    rw [hb₁]
    decide +kernel
  have hid₁ : b₁ 0 = 1 := by
    rw [hb₁]
    decide +kernel
  have hlen₂ : (b₂ 130).toNat = 62 := by
    rw [hb₂, hb₁]
    decide +kernel
  have hid₂ : b₂ 128 = 2 := by
    rw [hb₂, hb₁]
    decide +kernel
  obtain ⟨out₁, hout₁⟩ := out_ends 3 (s := VbusSys.init (fun _ => 0) (fun _ => true) (fun _ => true)
    [⟨1, 0, List.replicate 61 7⟩, ⟨2, 0, List.replicate 62 9⟩]) rfl rfl (by decide) rfl (by decide)
  replace hout₁ : Run (VbusSys.Step 3) (VbusSys.init (fun _ => 0) (fun _ => true) (fun _ => true)
      [⟨1, 0, List.replicate 61 7⟩, ⟨2, 0, List.replicate 62 9⟩]) out₁ ⟨⟨2, 0, b₁⟩, .popping, .testing, fun _ => true, fun _ => true,
      [⟨2, 0, List.replicate 62 9⟩], [(⟨1, 0, List.replicate 61 7⟩, true)], [⟨1, 0, List.replicate 61 7⟩], []⟩ := by
    rw [hb₁]
    exact hout₁
  obtain ⟨in₁, data₁, hin₁⟩ := in_ends 3 (s := ⟨⟨2, 0, b₁⟩, .popping, .testing, fun _ => true, fun _ => true,
    [⟨2, 0, List.replicate 62 9⟩], [(⟨1, 0, List.replicate 61 7⟩, true)], [⟨1, 0, List.replicate 61 7⟩], []⟩)
    rfl (by decide : 0 ≠ 2) hlen₁ hid₁ (by decide) (by decide) rfl
  obtain ⟨out₂, hout₂⟩ := out_ends 3 (s := ⟨⟨2, 2, b₁⟩, .popping, .testing, fun _ => true, fun _ => true,
    [⟨2, 0, List.replicate 62 9⟩], [(⟨1, 0, List.replicate 61 7⟩, true)], [⟨1, 0, List.replicate 61 7⟩],
    [⟨1, 61, true, some data₁⟩]⟩) rfl rfl (by decide) rfl
    (by decide : (len2bnr 62 : Int) ≤ busRingSpaceNr 3 ⟨2, 2, fun _ => 0⟩)
  obtain ⟨in₂, data₂, hin₂⟩ := in_ends 3 (s := ⟨⟨1, 2, b₂⟩, .popping, .testing, fun _ => true, fun _ => true,
    [], [(⟨1, 0, List.replicate 61 7⟩, true), (⟨2, 0, List.replicate 62 9⟩, true)],
    [⟨1, 0, List.replicate 61 7⟩, ⟨2, 0, List.replicate 62 9⟩], [⟨1, 61, true, some data₁⟩]⟩)
    rfl (by decide : 2 ≠ 1) hlen₂ hid₂ (by decide) (by decide) rfl
  rw [hb₂] at hin₂
  have hrun := ((hout₁.append hin₁).append hout₂).append hin₂
  have hdelivers := (ring_delivers (by decide) (by decide) _ _ _).mpr (by decide) _ _ hrun
  refine ⟨_, _, hrun, ?_, rfl, hdelivers⟩
  -- what was taken is what was sent
  have htaken : List.Forall₂ Took [⟨1, 61, true, some data₁⟩, ⟨2, 62, true, some data₂⟩]
      [⟨1, 0, List.replicate 61 7⟩, ⟨2, 0, List.replicate 62 9⟩] := hdelivers.taken
  obtain ⟨hfirst, hsecond, -⟩ : Took ⟨1, 61, true, some data₁⟩ ⟨1, 0, List.replicate 61 7⟩ ∧
      Took ⟨2, 62, true, some data₂⟩ ⟨2, 0, List.replicate 62 9⟩ ∧ True := by
    simpa using htaken
  have hdata₁ : some data₁ = some (List.replicate 61 7) := hfirst.data
  have hdata₂ : some data₂ = some (List.replicate 62 9) := hsecond.data
  rw [← hdata₁, ← hdata₂]
  rfl

/-- Both tests of the identifier 32 fail to see that it is no channel. The writer reads an entry behind the end of the
status table for it. The reader compares with `>`: it skips 33, but reads that entry for 32. -/
theorem ring_indexes_outside :
    (∃ evs s, Run (VbusSys.Step 4) (VbusSys.init (fun _ => 0) (fun _ => true) (fun _ => true) [⟨32, 0, []⟩]) evs s ∧
      ¬ s.Delivers 4 [⟨32, 0, []⟩]) ∧
    ∀ s : VbusSys, (s.inCheck 32 0).inn = .undefined ∧ (s.inCheck 33 0).inn = .releasing ⟨33, 0, false, none⟩ :=
  ⟨⟨[.out], _, Run.single rfl, fun h => h.out rfl⟩, fun _ => ⟨rfl, rfl⟩⟩

end CoreLink.Vbus
