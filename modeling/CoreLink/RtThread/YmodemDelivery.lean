/-
# `CoreLink.RtThread.YmodemDelivery` — which blocks `on_data` is called with.

The receiver tests that the two bytes of a block number fit each other, but not that the number is the one it waits for. So
`on_data` is called with every block of the file that is sent, and with one that is sent again because its ACK was lost a
second time. A session that ends well delivers the file exactly if no block was sent again.

The packets of the sender form a chain: each may only be followed by itself or by the next one (`Follows`). What the receiver
has read is a piece at the front of this chain, and where it is in the protocol is told by the last packet of this piece.
-/
import CoreLink.RtThread.Ymodem
import Mathlib.Data.List.Chain

namespace CoreLink.RtThread

open CoreLink.Lib

/-! ## The bytes of a packet -/

section Packet

variable {seq : UInt8} {data : List UInt8}

theorem crc_bytes (c : UInt16) : ((c >>> 8).toUInt8.toUInt16 <<< 8) ||| c.toUInt8.toUInt16 = c := by
  have hlt := c.toNat_lt
  have hhigh : c.toNat >>> 8 % 2 ^ 8 = c.toNat / 256 := by
    rw [Nat.shiftRight_eq_div_pow]
    omega
  have hshift : (c.toNat / 256) <<< 8 % 2 ^ 16 = (c.toNat / 256) <<< 8 := by
    rw [Nat.shiftLeft_eq]
    omega
  apply UInt16.toNat_inj.mp
  simp only [UInt16.toNat_or, UInt16.toNat_shiftLeft, UInt8.toNat_toUInt16, UInt16.toNat_toUInt8, UInt16.toNat_shiftRight]
  show (c.toNat >>> 8 % 2 ^ 8) <<< 8 % 2 ^ 16 ||| c.toNat % 2 ^ 8 = c.toNat
  rw [hhigh, hshift, ← Nat.shiftLeft_add_eq_or_of_lt (Nat.mod_lt _ (by omega)), Nat.shiftLeft_eq]
  omega

theorem seq_sum (s : UInt8) : s.toNat + (255 - s).toNat = 0xFF := by
  have h : (255 : UInt8).toNat = 255 := rfl
  have hle := s.toNat_lt
  have hsub := UInt8.toNat_sub_of_le 255 s (UInt8.le_iff_toNat_le.mpr (by omega))
  omega

/-- What the receiver reads of a packet behind the code. -/
theorem packet_tail : (packet seq data).tail =
    seq :: (255 - seq) :: (data ++ [(crc16 data >>> 8).toUInt8, (crc16 data).toUInt8]) := rfl

theorem packet_seq : (packet seq data).tail.getD 0 0 = seq := rfl

theorem packet_complement : (packet seq data).tail.getD 1 0 = 255 - seq := rfl

theorem packet_tail_length : (packet seq data).tail.length = 2 + data.length + 2 := by
  rw [packet_tail]
  simp only [List.length_cons, List.length_append, List.length_nil]
  omega

theorem packet_payload (seq : UInt8) (data : List UInt8) : RymCtx.payload (packet seq data).tail data.length = data := by
  rw [packet_tail]
  unfold RymCtx.payload
  simp

/-- The checksum in a packet is the one of its data. -/
theorem packet_crc (seq : UInt8) (data : List UInt8) : RymCtx.recvCrc (packet seq data).tail data.length = crc16 data := by
  rw [packet_tail]
  unfold RymCtx.recvCrc
  have hhigh : (seq :: (255 - seq) :: (data ++ [(crc16 data >>> 8).toUInt8, (crc16 data).toUInt8])).getD
      (2 + data.length) 0 = (crc16 data >>> 8).toUInt8 := by
    rw [Nat.add_comm]
    simp [List.getD_eq_getElem?_getD]
  have hlow : (seq :: (255 - seq) :: (data ++ [(crc16 data >>> 8).toUInt8, (crc16 data).toUInt8])).getD
      (2 + data.length + 1) 0 = (crc16 data).toUInt8 := by
    rw [show 2 + data.length + 1 = data.length + 1 + 1 + 1 by omega]
    simp [List.getD_eq_getElem?_getD]
  rw [hhigh, hlow, crc_bytes]

end Packet

namespace RymPkt

/-- The number of a block. -/
def seq : RymPkt → UInt8
  | block k => UInt8.ofNat (k + 1)
  | header | eot | null => 0

/-- The data of a block. -/
def data (f : RymFile) : RymPkt → List UInt8
  | header => f.header
  | block k => f.blocks.getD k []
  | eot => []
  | null => f.null

theorem encode_eq {f : RymFile} {p : RymPkt} (h : p ≠ .eot) : p.encode f = packet p.seq (p.data f) := by
  cases p with
  | header => rfl
  | block k => rfl
  | eot => exact absurd rfl h
  | null => rfl

/-- Which packet may follow which, for a file of `n` blocks. -/
def Follows (n : Nat) : RymPkt → RymPkt → Prop
  | header, header => True
  | header, block k => k = 0 ∧ k < n
  | header, eot => n = 0
  | block k, block j => (j = k ∨ j = k + 1) ∧ j < n
  | block k, eot => k + 1 = n
  | eot, eot => True
  | eot, null => True
  | null, null => True
  | _, _ => False

/-- The file block that a packet is. -/
def blockNo : RymPkt → Option Nat
  | block k => some k
  | header | eot | null => none

theorem data_length {f : RymFile} {x p : RymPkt} (h : p ≠ .eot) (hx : Follows f.blocks.length x p) :
    (p.data f).length = 128 ∨ (p.data f).length = 1024 := by
  cases p with
  | header => exact f.header_length
  | block k =>
      have hk : k < f.blocks.length := by
        cases x with
        | header => exact hx.2
        | block j => exact hx.2
        | eot => exact hx.elim
        | null => exact hx.elim
      refine f.blocks_length _ ?_
      show f.blocks.getD k [] ∈ f.blocks
      rw [List.getD_eq_getElem?_getD, List.getElem?_eq_getElem hk]
      exact List.getElem_mem hk
  | eot => exact absurd rfl h
  | null => exact .inl f.null_length

end RymPkt

/-- The blocks of the file among some packets. -/
def fileBlocks (ps : List RymPkt) : List Nat := ps.filterMap RymPkt.blockNo

/-- The data that `on_data` is called with for some packets. -/
def delivered (f : RymFile) (ps : List RymPkt) : List (List UInt8) := (fileBlocks ps).map fun k => f.blocks.getD k []

theorem fileBlocks_append (ps : List RymPkt) (p : RymPkt) :
    fileBlocks (ps ++ [p]) = fileBlocks ps ++ p.blockNo.toList := by
  unfold fileBlocks
  rw [List.filterMap_append]
  cases hp : p.blockNo <;> simp [hp]

theorem delivered_append (f : RymFile) (ps : List RymPkt) (p : RymPkt) :
    delivered f (ps ++ [p]) = delivered f ps ++ (p.blockNo.toList.map fun k => f.blocks.getD k []) := by
  unfold delivered
  rw [fileBlocks_append, List.map_append]

/-! ## The sender -/

/-- The numbers `0`, …, `m - 1` in order, with `r` repetitions behind their first time. -/
inductive Covers : Nat → Nat → List Nat → Prop
  | nil : Covers 0 0 []
  | next {m r : Nat} {ks : List Nat} (h : Covers m r ks) : Covers (m + 1) r (ks ++ [m])
  | again {m r : Nat} {ks : List Nat} (h : Covers (m + 1) r ks) : Covers (m + 1) (r + 1) (ks ++ [m])

theorem Covers.length_eq {m r : Nat} {ks : List Nat} (h : Covers m r ks) : ks.length = m + r := by
  induction h with
  | nil => rfl
  | next h ih => rw [List.length_append, ih, List.length_singleton]; omega
  | again h ih => rw [List.length_append, ih, List.length_singleton]; omega

theorem Covers.eq_range {m r : Nat} {ks : List Nat} (h : Covers m r ks) (hr : r = 0) : ks = List.range m := by
  induction h with
  | nil => rfl
  | next h ih => rw [List.range_succ, ih hr]
  | again h ih => cases hr

namespace RymSndPc

/-- The packet that the sender sent last. -/
def last : RymSndPc → Option RymPkt
  | idle => none
  | header | headerAcked => some .header
  | block k => some (.block k)
  | eot | eotAcked => some .eot
  | null | done => some .null

/-- The number of blocks, of `n`, that have been sent. -/
def covered (n : Nat) : RymSndPc → Nat
  | idle | header | headerAcked => 0
  | block k => k + 1
  | eot | eotAcked | null | done => n

end RymSndPc

/-- The invariant of the sender, for a file of `n` blocks. -/
structure SndInv (n : Nat) (s : RymSys) : Prop where
  chain : s.sent.IsChain (RymPkt.Follows n)
  head : ∀ p ∈ s.sent.head?, p = .header
  last : s.sent.getLast? = s.snd.last
  covers : Covers (s.snd.covered n) s.resent (fileBlocks s.sent)
  covered_le : s.snd.covered n ≤ n

section Sender

variable {f : RymFile} {n : Nat} {s : RymSys}

theorem SndInv.send {p : RymPkt} {pc : RymSndPc} {r : Nat} (i : SndInv n s) (hpc : pc.last = some p)
    (hnext : ∀ x ∈ s.snd.last, RymPkt.Follows n x p) (hfirst : s.snd.last = none → p = .header)
    (hcovers : Covers (pc.covered n) r (fileBlocks s.sent ++ p.blockNo.toList)) (hle : pc.covered n ≤ n) :
    SndInv n { s.send f p pc with resent := r } where
  chain := List.isChain_append.mpr ⟨i.chain, .singleton p, fun x hx y hy => by
    obtain rfl : p = y := by simpa using hy
    exact hnext x (i.last ▸ hx)⟩
  head q hq := by
    replace hq : q ∈ (s.sent ++ [p]).head? := hq
    cases hs : s.sent with
    | nil =>
        rw [hs] at hq
        obtain rfl : p = q := by simpa using hq
        refine hfirst ?_
        rw [← i.last, hs]
        rfl
    | cons x xs =>
        refine i.head q ?_
        rw [hs] at hq ⊢
        exact hq
  last := by
    show (s.sent ++ [p]).getLast? = pc.last
    rw [List.getLast?_concat, hpc]
  covers := by
    show Covers _ r (fileBlocks (s.sent ++ [p]))
    rw [fileBlocks_append]
    exact hcovers
  covered_le := hle

/-- What the sender does with a byte, or again, is to send one packet or to move on without one. -/
structure Sends (f : RymFile) (s s' : RymSys) : Prop where
  recv : s'.recv = s.recv
  inv : SndInv f.blocks.length s'
  grows : (s'.sent = s.sent ∧ s'.line = s.line) ∨ ∃ p, s'.sent = s.sent ++ [p] ∧ s'.line = s.line ++ p.encode f

theorem Sends.of_send {p : RymPkt} {pc : RymSndPc} {r : Nat} (h : SndInv f.blocks.length { s.send f p pc with resent := r }) :
    Sends f s { s.send f p pc with resent := r } := ⟨rfl, h, .inr ⟨p, rfl, rfl⟩⟩

theorem Sends.refl (i : SndInv f.blocks.length s) : Sends f s s := ⟨rfl, i, .inl ⟨rfl, rfl⟩⟩

/-- The sender goes on without sending. -/
theorem Sends.wait {pc : RymSndPc} (i : SndInv n s) (hn : n = f.blocks.length) (hlast : pc.last = s.snd.last)
    (hcovered : pc.covered n = s.snd.covered n) : Sends f s { s with snd := pc } := by
  subst hn
  exact ⟨rfl, ⟨i.chain, i.head, i.last.trans hlast.symm, by rw [hcovered]; exact i.covers, by rw [hcovered]; exact i.covered_le⟩, .inl ⟨rfl, rfl⟩⟩

/-- **The next block**, or EOT behind the last one, follows what was sent. -/
theorem SndInv.sendBlock {k : Nat} (i : SndInv f.blocks.length s) (hk : s.snd.covered f.blocks.length = k)
    (hlast : (k = 0 ∧ s.snd.last = some .header) ∨ ∃ j, k = j + 1 ∧ s.snd.last = some (.block j)) :
    Sends f s (s.sendBlock f k) := by
  have hcovers := i.covers
  have hle := i.covered_le
  rw [hk] at hcovers hle
  have hsome : s.snd.last ≠ none := by
    rcases hlast with ⟨-, h⟩ | ⟨j, -, h⟩
    · rw [h]; exact Option.some_ne_none _
    · rw [h]; exact Option.some_ne_none _
  unfold RymSys.sendBlock
  by_cases hlt : k < f.blocks.length
  · rw [if_pos hlt]
    refine Sends.of_send (i.send rfl (fun x hx => ?_) (fun h => absurd h hsome) (.next hcovers) hlt)
    rcases hlast with ⟨rfl, h⟩ | ⟨j, rfl, h⟩
    · obtain rfl : RymPkt.header = x := Option.some.inj (h.symm.trans hx)
      exact ⟨rfl, hlt⟩
    · obtain rfl : RymPkt.block j = x := Option.some.inj (h.symm.trans hx)
      exact ⟨.inr rfl, hlt⟩
  · rw [if_neg hlt]
    obtain rfl : k = f.blocks.length := by omega
    refine Sends.of_send (i.send rfl (fun x hx => ?_) (fun h => absurd h hsome) ?_ le_rfl)
    rotate_left
    · rw [show RymPkt.eot.blockNo.toList = [] from rfl, List.append_nil]
      exact hcovers
    rcases hlast with ⟨hzero, h⟩ | ⟨j, hj, h⟩
    · obtain rfl : RymPkt.header = x := Option.some.inj (h.symm.trans hx)
      exact hzero
    · obtain rfl : RymPkt.block j = x := Option.some.inj (h.symm.trans hx)
      exact hj.symm

/-- **A byte that arrives** at the sender. -/
theorem SndInv.take (i : SndInv f.blocks.length s) (b : UInt8) : Sends f s (s.take f b) := by
  have hcovers := i.covers
  have hle := i.covered_le
  unfold RymSys.take
  cases hs : s.snd with
  | idle =>
      rw [hs] at hcovers hle
      simp only
      split_ifs
      · exact Sends.of_send (i.send rfl (by simp [hs, RymSndPc.last]) (fun _ => rfl)
          (by rw [show RymPkt.header.blockNo.toList = [] from rfl, List.append_nil]; exact hcovers) hle)
      · exact .refl i
  | header =>
      simp only
      split_ifs
      · exact Sends.wait i rfl (by rw [hs]; rfl) (by rw [hs]; rfl)
      · exact .refl i
  | headerAcked =>
      simp only
      split_ifs
      · exact i.sendBlock (by rw [hs]; rfl) (.inl ⟨rfl, by rw [hs]; rfl⟩)
      · exact .refl i
  | block k =>
      simp only
      split_ifs
      · exact i.sendBlock (by rw [hs]; rfl) (.inr ⟨k, rfl, by rw [hs]; rfl⟩)
      · exact .refl i
  | eot =>
      rw [hs] at hcovers hle
      simp only
      split_ifs
      · refine Sends.of_send (i.send rfl (fun x hx => ?_) (by simp [hs, RymSndPc.last])
          (by rw [show RymPkt.eot.blockNo.toList = [] from rfl, List.append_nil]; exact hcovers) hle)
        rw [hs] at hx
        obtain rfl := Option.some.inj hx
        trivial
      · exact Sends.wait i rfl (by rw [hs]; rfl) (by rw [hs]; rfl)
      · exact .refl i
  | eotAcked =>
      rw [hs] at hcovers hle
      simp only
      split_ifs
      · refine Sends.of_send (i.send rfl (fun x hx => ?_) (by simp [hs, RymSndPc.last])
          (by rw [show RymPkt.null.blockNo.toList = [] from rfl, List.append_nil]; exact hcovers) hle)
        rw [hs] at hx
        obtain rfl := Option.some.inj hx
        trivial
      · exact .refl i
  | null =>
      simp only
      split_ifs
      · exact Sends.wait i rfl (by rw [hs]; rfl) (by rw [hs]; rfl)
      · exact .refl i
  | done => exact .refl i

/-- **A packet that is sent again**; only one with a block of the file counts. -/
theorem SndInv.resend (i : SndInv f.blocks.length s) : Sends f s (s.resend f) := by
  have hcovers := i.covers
  have hle := i.covered_le
  -- a packet that is not a block of the file is sent once more
  have hagain : ∀ p pc, s.snd.last = some p → pc.last = some p → pc.covered f.blocks.length = s.snd.covered f.blocks.length →
      RymPkt.Follows f.blocks.length p p → p.blockNo = none → Sends f s (s.send f p pc) :=
    fun p pc hlast hpc hcovered hfollows hno => by
      refine Sends.of_send (i.send hpc (fun x hx => ?_) (fun h => by rw [hlast] at h; cases h) ?_ (hcovered ▸ hle))
      · obtain rfl : p = x := Option.some.inj (hlast.symm.trans hx)
        exact hfollows
      · rw [hno, hcovered]
        simpa using hcovers
  unfold RymSys.resend
  cases hs : s.snd with
  | header => exact hagain _ _ (by rw [hs]; rfl) rfl (by rw [hs]) trivial rfl
  | block k =>
      rw [hs] at hcovers hle
      refine Sends.of_send (i.send rfl (fun x hx => ?_) (by simp [hs, RymSndPc.last]) (.again hcovers) hle)
      rw [hs] at hx
      obtain rfl := Option.some.inj hx
      exact ⟨.inl rfl, hle⟩
  | eot => exact hagain _ _ (by rw [hs]; rfl) rfl (by rw [hs]) trivial rfl
  | null => exact hagain _ _ (by rw [hs]; rfl) rfl (by rw [hs]) trivial rfl
  | idle => exact .refl i
  | headerAcked => exact .refl i
  | eotAcked => exact .refl i
  | done => exact .refl i

end Sender

/-! ## The receiver -/

/-- The receiver is in the middle of a packet with `n` bytes of data, the first of those in `rest`. -/
def Reads (f : RymFile) (n : Nat) (buf line : List UInt8) (rest : List RymPkt) : Prop :=
  ∃ p rest', rest = p :: rest' ∧ p ≠ .eot ∧ (p.data f).length = n ∧
    buf ++ line = (packet p.seq (p.data f)).tail ++ rest'.flatMap (RymPkt.encode f)

/-- What `_rym_do_trans` knows: it has read the header, or a block of the file. -/
def InTrans (stage : RymStage) (consumed : List RymPkt) : Prop :=
  (consumed.getLast? = some .header ∧ stage = .established) ∨
    ∃ k, consumed.getLast? = some (.block k) ∧ stage = .transmitting

/-- Where the receiver is, when it has read the packets `consumed` and the bytes in `line` are those of the packets in `rest`,
without what it has read of the first one. -/
def RecvOk (f : RymFile) (ctx : RymCtx) (line : List UInt8) (consumed rest : List RymPkt) : Prop :=
  match ctx.pc with
  | .handshakeCode _ => consumed = [] ∧ line = rest.flatMap (RymPkt.encode f)
  | .handshakeData dataSz buf => consumed = [] ∧ Reads f (dataSz - 5) buf line rest
  | .transCode => InTrans ctx.stage consumed ∧ line = rest.flatMap (RymPkt.encode f)
  | .transData dataSz buf => InTrans ctx.stage consumed ∧ Reads f dataSz buf line rest
  | .finEot | .finCode => consumed.getLast? = some .eot ∧ line = rest.flatMap (RymPkt.encode f)
  | .finData _ buf => consumed.getLast? = some .eot ∧ Reads f 128 buf line rest
  | .returned err => err = .eok → consumed.getLast? = some .null

/-- The invariant: `consumed` are the packets that the receiver has read, and `rest` the others. -/
structure RymInv (f : RymFile) (s : RymSys) (consumed rest : List RymPkt) : Prop where
  snd : SndInv f.blocks.length s
  sent : s.sent = consumed ++ rest
  recv : RecvOk f s.recv s.line consumed rest
  calls : s.recv.onDataCalls = delivered f consumed

section Receiver

variable {f : RymFile} {s : RymSys} {consumed rest : List RymPkt}

theorem Reads.send {n : Nat} {buf line : List UInt8} (h : Reads f n buf line rest) (p : RymPkt) :
    Reads f n buf (line ++ p.encode f) (rest ++ [p]) := by
  obtain ⟨q, rest', rfl, hq, hlen, hbytes⟩ := h
  refine ⟨q, rest' ++ [p], rfl, hq, hlen, ?_⟩
  rw [← List.append_assoc, hbytes, List.flatMap_append, List.flatMap_singleton, List.append_assoc]

/-- What the sender adds does not matter to the receiver. -/
theorem RecvOk.send {ctx : RymCtx} {line : List UInt8} (h : RecvOk f ctx line consumed rest) (p : RymPkt) :
    RecvOk f ctx (line ++ p.encode f) consumed (rest ++ [p]) := by
  have hline : line = rest.flatMap (RymPkt.encode f) →
      line ++ p.encode f = (rest ++ [p]).flatMap (RymPkt.encode f) := by
    rintro rfl
    rw [List.flatMap_append, List.flatMap_singleton]
  unfold RecvOk at *
  cases hpc : ctx.pc with
  | handshakeCode i => rw [hpc] at h; exact ⟨h.1, hline h.2⟩
  | handshakeData dataSz buf => rw [hpc] at h; exact ⟨h.1, h.2.send p⟩
  | transCode => rw [hpc] at h; exact ⟨h.1, hline h.2⟩
  | transData dataSz buf => rw [hpc] at h; exact ⟨h.1, h.2.send p⟩
  | finEot => rw [hpc] at h; exact ⟨h.1, hline h.2⟩
  | finCode => rw [hpc] at h; exact ⟨h.1, hline h.2⟩
  | finData dataSz buf => rw [hpc] at h; exact ⟨h.1, h.2.send p⟩
  | returned err => rw [hpc] at h; exact h

/-- A step of the sender. -/
theorem RymInv.sends {s' : RymSys} (i : RymInv f s consumed rest) (h : Sends f s s') : ∃ rest', RymInv f s' consumed rest' := by
  rcases h.grows with ⟨hsent, hline⟩ | ⟨p, hsent, hline⟩
  · exact ⟨rest, h.inv, hsent.trans i.sent, by rw [h.recv, hline]; exact i.recv, by rw [h.recv]; exact i.calls⟩
  · refine ⟨rest ++ [p], h.inv, ?_, by rw [h.recv, hline]; exact i.recv.send p, by rw [h.recv]; exact i.calls⟩
    rw [hsent, i.sent, List.append_assoc]

/-- The packet that comes next follows the last one that was read. -/
theorem RymInv.follows {x p : RymPkt} {rest' : List RymPkt} (i : RymInv f s consumed (p :: rest'))
    (hx : consumed.getLast? = some x) : RymPkt.Follows f.blocks.length x p := by
  have hchain := i.snd.chain
  rw [i.sent, List.isChain_append] at hchain
  exact hchain.2.2 x hx p rfl

/-- The first packet that the receiver reads is the header. -/
theorem RymInv.first {p : RymPkt} {rest' : List RymPkt} (i : RymInv f s [] (p :: rest')) : p = .header :=
  i.snd.head p (by rw [i.sent]; rfl)

/-- **A code is read**: it is the code of the next packet, and behind it there are the other bytes of this packet. -/
theorem read_code {b : UInt8} {line : List UInt8} (h : b :: line = rest.flatMap (RymPkt.encode f)) :
    ∃ p rest', rest = p :: rest' ∧
      ((p = .eot ∧ b = rymCodeEot ∧ line = rest'.flatMap (RymPkt.encode f)) ∨
        (p ≠ .eot ∧ b = (if (p.data f).length = 1024 then rymCodeStx else rymCodeSoh) ∧
          Reads f (p.data f).length [] line rest)) := by
  cases rest with
  | nil => cases h
  | cons p rest' =>
      refine ⟨p, rest', rfl, ?_⟩
      rw [List.flatMap_cons] at h
      by_cases hp : p = .eot
      · subst hp
        obtain ⟨hb, hline⟩ := List.cons.inj h
        exact .inl ⟨rfl, hb, hline⟩
      · rw [RymPkt.encode_eq hp] at h
        obtain ⟨hb, hline⟩ := List.cons.inj h
        exact .inr ⟨hp, hb, p, rest', rfl, hp, rfl, hline⟩

/-- **Bytes of data are read**: the packet goes on, or all of it is there. -/
theorem Reads.read {n k : Nat} {buf line : List UInt8} (h : Reads f n buf line rest) (hk : k ≤ 2 + n + 2 - buf.length)
    (hpos : 0 < k) (hline : k ≤ line.length) :
    if (buf ++ line.take k).length < 2 + n + 2 then Reads f n (buf ++ line.take k) (line.drop k) rest
    else ∃ p rest', rest = p :: rest' ∧ p ≠ .eot ∧ (p.data f).length = n ∧
      buf ++ line.take k = (packet p.seq (p.data f)).tail ∧ line.drop k = rest'.flatMap (RymPkt.encode f) := by
  obtain ⟨p, rest', rfl, hp, hlen, hbytes⟩ := h
  have hsplit : buf ++ line.take k ++ line.drop k = (packet p.seq (p.data f)).tail ++ rest'.flatMap (RymPkt.encode f) := by
    rw [List.append_assoc, List.take_append_drop, hbytes]
  split_ifs with hlt
  · exact ⟨p, rest', rfl, hp, hlen, hsplit⟩
  · have hread : (buf ++ line.take k).length = (packet p.seq (p.data f)).tail.length := by
      rw [packet_tail_length, hlen]
      simp only [List.length_append, List.length_take] at hlt ⊢
      omega
    obtain ⟨hbuf, hdrop⟩ := List.append_inj hsplit hread
    exact ⟨p, rest', rfl, hp, hlen, hbuf, hdrop⟩

/-- The receiver moves on, and may be done with some packets. -/
theorem RymInv.withRecv {ctx : RymCtx} {line : List UInt8} {consumed' rest' : List RymPkt} (i : RymInv f s consumed rest)
    (hsent : consumed ++ rest = consumed' ++ rest') (hrecv : RecvOk f ctx line consumed' rest')
    (hcalls : ctx.onDataCalls = delivered f consumed') :
    ∃ consumed' rest', RymInv f { s with recv := ctx, line := line } consumed' rest' :=
  ⟨consumed', rest', ⟨i.snd.chain, i.snd.head, i.snd.last, i.snd.covers, i.snd.covered_le⟩, i.sent.trans hsent, hrecv, hcalls⟩

/-- The receiver is done with a packet. -/
theorem RymInv.readPacket {ctx : RymCtx} {line : List UInt8} {p : RymPkt} {rest' : List RymPkt}
    (i : RymInv f s consumed (p :: rest')) (hrecv : RecvOk f ctx line (consumed ++ [p]) rest')
    (hcalls : ctx.onDataCalls = s.recv.onDataCalls ++ p.blockNo.toList.map fun k => f.blocks.getD k []) :
    ∃ consumed' rest', RymInv f { s with recv := ctx, line := line } consumed' rest' :=
  i.withRecv (by rw [List.append_assoc]; rfl) hrecv (by rw [delivered_append, hcalls, i.calls])

/-- The receiver gives up. -/
theorem RymInv.ret {ctx : RymCtx} {line : List UInt8} {err : RymErr} (i : RymInv f s consumed rest)
    (hcalls : ctx.onDataCalls = s.recv.onDataCalls) (herr : err ≠ .eok) :
    ∃ consumed' rest', RymInv f { s with recv := ctx.ret err, line := line } consumed' rest' :=
  i.withRecv rfl (fun h => absurd h herr) (hcalls.trans i.calls)

theorem handshakeLoop_calls (tmSec : Nat) (ctx : RymCtx) (k : Nat) :
    (RymCtx.handshakeLoop tmSec ctx k).onDataCalls = ctx.onDataCalls := by
  unfold RymCtx.handshakeLoop
  split_ifs <;> rfl

/-- The loop of the handshake goes on, or gives up. -/
theorem RecvOk.handshakeLoop {tmSec k : Nat} {ctx : RymCtx} {line : List UInt8} (h : line = rest.flatMap (RymPkt.encode f)) :
    RecvOk f (RymCtx.handshakeLoop tmSec ctx k) line [] rest := by
  unfold RymCtx.handshakeLoop
  split_ifs
  · exact ⟨rfl, h⟩
  · exact fun he => by cases he

/-- The code of a block tells its size. -/
theorem code_cases {b : UInt8} {n : Nat} (hn : n = 128 ∨ n = 1024)
    (hb : b = if n = 1024 then rymCodeStx else rymCodeSoh) : (b = rymCodeSoh ∧ n = 128) ∨ (b = rymCodeStx ∧ n = 1024) := by
  rcases hn with rfl | rfl
  · exact .inl ⟨hb, rfl⟩
  · exact .inr ⟨hb, rfl⟩

theorem InTrans.getLast {stage : RymStage} (h : InTrans stage consumed) : ∃ x, consumed.getLast? = some x := by
  rcases h with ⟨h, -⟩ | ⟨k, h, -⟩
  · exact ⟨_, h⟩
  · exact ⟨_, h⟩

/-- **A code is read** by the receiver. -/
theorem RymInv.readCode {b : UInt8} {line : List UInt8} (i : RymInv f s consumed rest) (hline : s.line = b :: line)
    (hw : s.recv.WantsCode) (tmSec : Nat) :
    ∃ consumed' rest', RymInv f { s with recv := s.recv.readCode tmSec b, line := line } consumed' rest' := by
  have hrecv := i.recv
  have hcalls := i.calls
  unfold RecvOk at hrecv
  unfold RymCtx.WantsCode at hw
  unfold RymCtx.readCode
  rw [hline] at hrecv
  cases hpc : s.recv.pc with
  | handshakeCode k =>
      rw [hpc] at hrecv
      obtain ⟨rfl, hbytes⟩ := hrecv
      obtain ⟨p, rest', rfl, hcode⟩ := read_code hbytes
      obtain rfl : p = .header := i.first
      rcases hcode with ⟨hp, -, -⟩ | ⟨-, hb, hreads⟩
      · cases hp
      replace hreads : Reads f f.header.length [] line (.header :: rest') := hreads
      rcases code_cases f.header_length hb with ⟨rfl, hn⟩ | ⟨rfl, hn⟩
      · rw [hn] at hreads
        exact i.withRecv rfl ⟨rfl, hreads⟩ hcalls
      · rw [hn] at hreads
        exact i.withRecv rfl ⟨rfl, hreads⟩ hcalls
  | transCode =>
      rw [hpc] at hrecv
      obtain ⟨htrans, hbytes⟩ := hrecv
      obtain ⟨p, rest', rfl, hcode⟩ := read_code hbytes
      rcases hcode with ⟨rfl, rfl, hrest⟩ | ⟨hp, hb, hreads⟩
      · exact i.readPacket ⟨by simp, hrest⟩ (List.append_nil _).symm
      · obtain ⟨x, hx⟩ := htrans.getLast
        rcases code_cases (RymPkt.data_length hp (i.follows hx)) hb with ⟨rfl, hn⟩ | ⟨rfl, hn⟩
        · exact i.withRecv rfl ⟨htrans, hn ▸ hreads⟩ hcalls
        · exact i.withRecv rfl ⟨htrans, hn ▸ hreads⟩ hcalls
  | finEot =>
      rw [hpc] at hrecv
      obtain ⟨hlast, hbytes⟩ := hrecv
      simp only
      split_ifs with hb
      · exact i.ret rfl (by decide)
      · obtain ⟨p, rest', rfl, hcode⟩ := read_code hbytes
        rcases hcode with ⟨rfl, -, hrest⟩ | ⟨hp, hb', -⟩
        · exact i.readPacket ⟨by simp, hrest⟩ (List.append_nil _).symm
        · -- the code of a block is not that of an EOT
          rcases code_cases (RymPkt.data_length hp (i.follows hlast)) hb' with ⟨rfl, -⟩ | ⟨rfl, -⟩
          · exact absurd (by decide) hb
          · exact absurd (by decide) hb
  | finCode =>
      rw [hpc] at hrecv
      obtain ⟨hlast, hbytes⟩ := hrecv
      obtain ⟨p, rest', rfl, hcode⟩ := read_code hbytes
      have hfollows := i.follows hlast
      rcases hcode with ⟨rfl, rfl, -⟩ | ⟨hp, hb, hreads⟩
      · exact i.ret rfl (by decide)
      · cases p with
        | null =>
            have hn : (RymPkt.null.data f).length = 128 := f.null_length
            rw [hn] at hb hreads
            subst hb
            exact i.withRecv rfl ⟨hlast, hreads⟩ hcalls
        | eot => exact absurd rfl hp
        | header => exact hfollows.elim
        | block k => exact hfollows.elim
  | handshakeData dataSz buf => rw [hpc] at hw; exact hw.elim
  | transData dataSz buf => rw [hpc] at hw; exact hw.elim
  | finData dataSz buf => rw [hpc] at hw; exact hw.elim
  | returned err => rw [hpc] at hw; exact hw.elim

/-- The callbacks answer `RYM_CODE_ACK`. -/
structure Acks (cb : RymCallbacks) : Prop where
  onBegin : ∀ data, cb.onBegin data = rymCodeAck
  onData : ∀ data, cb.onData data = rymCodeAck

/-- The header passes the tests of the handshake. -/
theorem handshakePacket_eq {cb : RymCallbacks} (hcb : Acks cb) (ctx : RymCtx) {p : RymPkt} {dataSz : Nat} (hp : p = .header)
    (hn : (p.data f).length = dataSz - 5) :
    ctx.handshakePacket cb dataSz (packet p.seq (p.data f)).tail = ctx.rymDoTrans := by
  subst hp
  unfold RymCtx.handshakePacket
  rw [if_neg (by rw [packet_seq, packet_complement]; decide), ← hn, if_neg (by rw [packet_crc, packet_payload]; simp),
    if_neg (by rw [hcb.onBegin]; simp)]

/-- A header that is sent again is ignored in front of the first block. -/
theorem transPacket_header {cb : RymCallbacks} {ctx : RymCtx} {n : Nat} (hstage : ctx.stage = .established) :
    ctx.transPacket cb n (packet (RymPkt.header.seq) (RymPkt.header.data f)).tail = { ctx with pc := .transCode } := by
  unfold RymCtx.transPacket
  rw [if_neg (by rw [packet_seq, packet_complement]; decide), if_pos ⟨hstage, rfl⟩]

/-- **A block of the file** is delivered, whatever its number is. -/
theorem transPacket_block {cb : RymCallbacks} (hcb : Acks cb) {ctx : RymCtx} {k : Nat}
    (hseq : ctx.stage = .established → k = 0) :
    ctx.transPacket cb ((RymPkt.block k).data f).length (packet (RymPkt.block k).seq ((RymPkt.block k).data f)).tail =
      { ctx with
        stage := .transmitting
        wire := ctx.wire ++ [rymCodeAck]
        onDataCalls := ctx.onDataCalls ++ [(RymPkt.block k).data f]
        pc := .transCode } := by
  have hnot : ¬ (ctx.stage = .established ∧
      (packet (RymPkt.block k).seq ((RymPkt.block k).data f)).tail.getD 0 0 = 0x00) := by
    rintro ⟨hstage, hzero⟩
    obtain rfl := hseq hstage
    rw [packet_seq] at hzero
    exact absurd hzero (by decide)
  have hsum : ((packet (RymPkt.block k).seq ((RymPkt.block k).data f)).tail.getD 0 0).toNat +
      ((packet (RymPkt.block k).seq ((RymPkt.block k).data f)).tail.getD 1 0).toNat = 0xFF := seq_sum _
  unfold RymCtx.transPacket
  rw [if_neg (not_not.mpr hsum), if_neg hnot]
  simp only [packet_crc, packet_payload, hcb.onData, RymCtx.transAnswer]
  rw [if_neg (by simp), if_neg (by decide)]
  rfl

/-- The empty block 0 ends the session. -/
theorem finPacket_null (cb : RymCallbacks) (ctx : RymCtx) (dataSz : Nat) :
    ctx.finPacket cb dataSz (packet RymPkt.null.seq (RymPkt.null.data f)).tail =
      ({ ctx with stage := .finished }.rymPutchar rymCodeAck).ret .eok := by
  have hn : (RymPkt.null.data f).length = 128 := f.null_length
  have hcrc := packet_crc RymPkt.null.seq (RymPkt.null.data f)
  have hpayload := packet_payload RymPkt.null.seq (RymPkt.null.data f)
  rw [hn] at hcrc hpayload
  have hhead : (packet RymPkt.null.seq (RymPkt.null.data f)).tail.getD 2 0 = 0 := by
    obtain ⟨data, hdata⟩ := List.head?_eq_some_iff.mp f.null_head
    have hdata' : RymPkt.null.data f = 0 :: data := hdata
    rw [packet_tail, hdata']
    rfl
  unfold RymCtx.finPacket
  rw [if_neg (by rw [packet_seq, packet_complement]; decide), if_neg (by
    show ¬ RymCtx.recvCrc _ 128 ≠ crc16 (RymCtx.payload _ 128)
    rw [hcrc, hpayload]
    simp), if_neg (not_not.mpr hhead)]

/-- **A read times out**: the handshake goes on, everything else ends. -/
theorem RymInv.timeout (i : RymInv f s consumed rest) (tmSec : Nat) :
    ∃ consumed' rest', RymInv f { s with recv := s.recv.timeout tmSec } consumed' rest' := by
  have hrecv := i.recv
  unfold RecvOk at hrecv
  unfold RymCtx.timeout
  cases hpc : s.recv.pc with
  | handshakeCode k =>
      rw [hpc] at hrecv
      obtain ⟨rfl, hbytes⟩ := hrecv
      exact i.withRecv rfl (.handshakeLoop hbytes) ((handshakeLoop_calls ..).trans i.calls)
  | transCode => exact i.ret rfl (by decide)
  | finEot => exact i.ret rfl (by decide)
  | finCode => exact i.ret rfl (by decide)
  | handshakeData dataSz buf => exact i.ret rfl (by decide)
  | transData dataSz buf => exact i.ret rfl (by decide)
  | finData dataSz buf => exact i.ret rfl (by decide)
  | returned err => exact ⟨consumed, rest, i⟩

/-- **Bytes of data are read** by the receiver. -/
theorem RymInv.readData {cb : RymCallbacks} (hcb : Acks cb) {n : Nat} (i : RymInv f s consumed rest) (hpos : 0 < n)
    (hn : n ≤ RymCtx.remaining s.recv.pc) (hline : n ≤ s.line.length) :
    ∃ consumed' rest',
      RymInv f { s with recv := s.recv.readData cb (s.line.take n), line := s.line.drop n } consumed' rest' := by
  have hrecv := i.recv
  have hcalls := i.calls
  unfold RecvOk at hrecv
  unfold RymCtx.readData
  cases hpc : s.recv.pc with
  | handshakeData dataSz buf =>
      rw [hpc] at hrecv hn
      obtain ⟨rfl, hreads⟩ := hrecv
      obtain ⟨p, rest', rfl, hp, hlen, -⟩ := id hreads
      obtain rfl : p = .header := i.first
      -- the size is that of a block
      obtain ⟨k, hk, hsz⟩ : ∃ k, dataSz - 5 = k ∧ dataSz - 1 = 2 + k + 2 := by
        refine ⟨dataSz - 5, rfl, ?_⟩
        have hheader : f.header.length = dataSz - 5 := hlen
        rcases f.header_length with h | h <;> omega
      rw [hk] at hreads
      have hread := hreads.read (hsz ▸ hn) hpos hline
      simp only
      rw [hsz]
      split_ifs at hread ⊢ with hlt
      · exact i.withRecv rfl ⟨rfl, hk.symm ▸ hread⟩ hcalls
      · obtain ⟨q, rest'', hrest, -, -, hbuf, hdrop⟩ := hread
        obtain ⟨rfl, rfl⟩ := List.cons.inj hrest
        rw [hbuf, handshakePacket_eq hcb _ rfl hlen]
        exact i.readPacket ⟨.inl ⟨rfl, rfl⟩, hdrop⟩ (List.append_nil _).symm
  | transData dataSz buf =>
      rw [hpc] at hrecv hn
      obtain ⟨htrans, hreads⟩ := hrecv
      have hread := hreads.read hn hpos hline
      simp only
      split_ifs at hread ⊢ with hlt
      · exact i.withRecv rfl ⟨htrans, hread⟩ hcalls
      · obtain ⟨p, rest', rfl, hp, rfl, hbuf, hdrop⟩ := hread
        rw [hbuf]
        obtain ⟨x, hx⟩ := htrans.getLast
        have hfollows := i.follows hx
        cases p with
        | header =>
            -- only a header can stand in front of it
            have hstage : s.recv.stage = .established := by
              rcases htrans with ⟨-, h⟩ | ⟨k, hk, -⟩
              · exact h
              · obtain rfl := Option.some.inj (hx.symm.trans hk)
                exact hfollows.elim
            rw [transPacket_header hstage]
            exact i.readPacket ⟨.inl ⟨by simp, hstage⟩, hdrop⟩ (List.append_nil _).symm
        | block k =>
            have hseq : s.recv.stage = .established → k = 0 := fun hstage => by
              rcases htrans with ⟨hlast, -⟩ | ⟨j, -, h⟩
              · obtain rfl := Option.some.inj (hx.symm.trans hlast)
                exact hfollows.1
              · rw [hstage] at h
                cases h
            rw [transPacket_block hcb hseq]
            exact i.readPacket ⟨.inr ⟨k, by simp, rfl⟩, hdrop⟩ rfl
        | eot => exact absurd rfl hp
        | null =>
            rcases htrans with ⟨hlast, -⟩ | ⟨j, hlast, -⟩
            · obtain rfl := Option.some.inj (hx.symm.trans hlast)
              exact hfollows.elim
            · obtain rfl := Option.some.inj (hx.symm.trans hlast)
              exact hfollows.elim
  | finData dataSz buf =>
      rw [hpc] at hrecv hn
      obtain ⟨hlast, hreads⟩ := hrecv
      have hread := hreads.read hn hpos hline
      simp only
      have hsz : rymSohPkgSz - 1 = 2 + 128 + 2 := rfl
      rw [hsz]
      split_ifs at hread ⊢ with hlt
      · exact i.withRecv rfl ⟨hlast, hread⟩ hcalls
      · obtain ⟨p, rest', rfl, hp, -, hbuf, hdrop⟩ := hread
        rw [hbuf]
        have hfollows := i.follows hlast
        cases p with
        | null =>
            rw [finPacket_null]
            exact i.readPacket (fun _ => by simp) (List.append_nil _).symm
        | eot => exact absurd rfl hp
        | header => exact hfollows.elim
        | block k => exact hfollows.elim
  | handshakeCode k => rw [hpc] at hn; exact absurd (hpos.trans_le hn) (Nat.lt_irrefl 0)
  | transCode => rw [hpc] at hn; exact absurd (hpos.trans_le hn) (Nat.lt_irrefl 0)
  | finEot => rw [hpc] at hn; exact absurd (hpos.trans_le hn) (Nat.lt_irrefl 0)
  | finCode => rw [hpc] at hn; exact absurd (hpos.trans_le hn) (Nat.lt_irrefl 0)
  | returned err => rw [hpc] at hn; exact absurd (hpos.trans_le hn) (Nat.lt_irrefl 0)

end Receiver

/-! ## Sessions -/

section Session

variable {f : RymFile} {cb : RymCallbacks} {tmSec : Nat}

/-- One step of the system. -/
theorem RymInv.step {s s' : RymSys} {e : RymEvent} (hcb : Acks cb) (h : RymSys.Step f cb tmSec s e s')
    (i : ∃ consumed rest, RymInv f s consumed rest) : ∃ consumed rest, RymInv f s' consumed rest := by
  obtain ⟨consumed, rest, i⟩ := i
  unfold RymSys.Step RymSys.exec at h
  cases e with
  | take =>
      cases hwire : s.recv.wire with
      | nil => simp [hwire] at h
      | cons b wire =>
          simp only [hwire, Option.some.injEq] at h
          subst h
          have i' : RymInv f { s with recv := { s.recv with wire := wire } } consumed rest :=
            ⟨⟨i.snd.chain, i.snd.head, i.snd.last, i.snd.covers, i.snd.covered_le⟩, i.sent, i.recv, i.calls⟩
          obtain ⟨rest', i''⟩ := i'.sends (i'.snd.take b)
          exact ⟨consumed, rest', i''⟩
  | resend =>
      obtain rfl := Option.some.inj h
      obtain ⟨rest', i'⟩ := i.sends i.snd.resend
      exact ⟨consumed, rest', i'⟩
  | lose k =>
      simp only at h
      split_ifs at h
      obtain rfl := Option.some.inj h
      exact ⟨consumed, rest, ⟨i.snd.chain, i.snd.head, i.snd.last, i.snd.covers, i.snd.covered_le⟩, i.sent, i.recv, i.calls⟩
  | code =>
      cases hline : s.line with
      | nil => simp [hline] at h
      | cons b line =>
          simp only [hline] at h
          split_ifs at h with hw
          obtain rfl := Option.some.inj h
          exact i.readCode hline hw tmSec
  | data n =>
      simp only at h
      split_ifs at h with hn
      obtain rfl := Option.some.inj h
      exact i.readData hcb hn.1 hn.2.1 hn.2.2
  | timeout =>
      obtain rfl := Option.some.inj h
      exact i.timeout tmSec

theorem RymInv.init (f : RymFile) (tmSec : Nat) : RymInv f (RymSys.init tmSec) [] [] where
  snd := ⟨.nil, by simp [RymSys.init], rfl, .nil, Nat.zero_le _⟩
  sent := rfl
  recv := .handshakeLoop rfl
  calls := handshakeLoop_calls ..

/-- Behind the empty block 0 the sender sends nothing else. -/
theorem eq_null_of_chain {n : Nat} {ps : List RymPkt} (h : (RymPkt.null :: ps).IsChain (RymPkt.Follows n)) :
    ∀ p ∈ ps, p = .null := by
  induction ps with
  | nil => simp
  | cons q ps ih =>
      rw [List.isChain_cons_cons] at h
      have hq : q = .null := by
        cases q with
        | null => rfl
        | header => exact h.1.elim
        | block k => exact h.1.elim
        | eot => exact h.1.elim
      subst hq
      intro p hp
      rcases List.mem_cons.mp hp with rfl | hp
      · rfl
      · exact ih h.2 p hp

/-- **When the receiver returns `RT_EOK`** it has read all packets with blocks of the file, and all blocks were sent. -/
theorem RymInv.complete {s : RymSys} {consumed rest : List RymPkt} (i : RymInv f s consumed rest)
    (hret : s.recv.pc = .returned .eok) :
    Covers f.blocks.length s.resent (fileBlocks consumed) := by
  have hlast : consumed.getLast? = some .null := by
    have hrecv := i.recv
    unfold RecvOk at hrecv
    rw [hret] at hrecv
    exact hrecv rfl
  obtain ⟨front, rfl⟩ := List.getLast?_eq_some_iff.mp hlast
  have hchain := i.snd.chain
  rw [i.sent, List.append_assoc, List.isChain_append] at hchain
  have hrest : ∀ p ∈ rest, p = .null := eq_null_of_chain hchain.2.1
  have hblocks : fileBlocks rest = [] := by
    unfold fileBlocks
    rw [List.filterMap_eq_nil_iff]
    intro p hp
    rw [hrest p hp]
    rfl
  -- so the last packet that was sent is the empty block
  have hsnd : s.snd.last = some .null := by
    rw [← i.snd.last, i.sent]
    cases hr : rest.getLast? with
    | none => rw [List.getLast?_eq_none_iff.mp hr, List.append_nil, hlast]
    | some p => rw [List.getLast?_append, hr, hrest p (List.mem_of_getLast? hr)]; rfl
  have hcovered : s.snd.covered f.blocks.length = f.blocks.length := by
    cases hs : s.snd with
    | null => rfl
    | done => rfl
    | idle => rw [hs] at hsnd; cases hsnd
    | header => rw [hs] at hsnd; cases hsnd
    | headerAcked => rw [hs] at hsnd; cases hsnd
    | block k => rw [hs] at hsnd; cases hsnd
    | eot => rw [hs] at hsnd; cases hsnd
    | eotAcked => rw [hs] at hsnd; cases hsnd
  have hcovers := i.snd.covers
  have hsent : fileBlocks s.sent = fileBlocks (front ++ [.null]) ++ fileBlocks rest := by
    rw [i.sent]
    exact List.filterMap_append
  rwa [hcovered, hsent, hblocks, List.append_nil] at hcovers

/-- **A session that ends well delivers the file**, each block once and in order, exactly if no block of the file was sent
again. -/
theorem ymodem_delivers (hcb : Acks cb) {evs : List RymEvent} {s : RymSys}
    (h : Run (RymSys.Step f cb tmSec) (RymSys.init tmSec) evs s) (hret : s.recv.pc = .returned .eok) :
    s.recv.onDataCalls = f.blocks ↔ s.resent = 0 := by
  obtain ⟨consumed, rest, i⟩ : ∃ consumed rest, RymInv f s consumed rest :=
    h.invariant ⟨[], [], .init f tmSec⟩ fun _ _ _ i hstep => RymInv.step hcb hstep i
  have hcovers := i.complete hret
  rw [i.calls]
  constructor
  · intro heq
    have hlength := congrArg List.length heq
    rw [delivered, List.length_map, hcovers.length_eq] at hlength
    omega
  · intro hzero
    rw [delivered, hcovers.eq_range hzero]
    refine List.ext_getElem (by simp) fun k _ hk => ?_
    rw [List.getElem_map, List.getElem_range, List.getD_eq_getElem?_getD, List.getElem?_eq_getElem hk]
    rfl

end Session

/-- A file of one block. -/
def oneBlock : RymFile where
  header := 97 :: List.replicate 127 0
  blocks := [List.replicate 128 5]
  null := List.replicate 128 0
  header_length := by simp
  blocks_length := by simp
  null_length := by simp
  null_head := by simp

/-- Callbacks that answer `RYM_CODE_ACK`. -/
def ackAll : RymCallbacks := ⟨fun _ => rymCodeAck, fun _ => rymCodeAck⟩

/-- A session in which no byte is lost. -/
theorem ymodem_delivers_run : ∃ evs s, Run (RymSys.Step oneBlock ackAll 10) (RymSys.init 10) evs s ∧
    s.recv.pc = .returned .eok ∧ s.resent = 0 ∧ s.recv.onDataCalls = oneBlock.blocks := by
  have hend : ([.take, .code, .data 132, .take, .take, .code, .data 132, .take, .code, .take, .code, .take, .take, .code,
      .data 132, .take].foldlM (RymSys.exec oneBlock ackAll 10) (RymSys.init 10)).map (fun s => (s.recv.pc, s.resent)) =
        some (.returned .eok, 0) := by decide +kernel
  obtain ⟨s, hs, hend⟩ := Option.map_eq_some_iff.mp hend
  obtain ⟨hret, hresent⟩ := Prod.mk.inj hend
  have hrun : Run (RymSys.Step oneBlock ackAll 10) (RymSys.init 10) _ s := Run.of_foldlM (fun _ _ _ h => h) hs
  exact ⟨_, s, hrun, hret, hresent, (ymodem_delivers ⟨fun _ => rfl, fun _ => rfl⟩ hrun hret).mpr hresent⟩

/-- The ACK of the block is lost, the sender sends the block again, and `on_data` is called with it twice. -/
theorem ymodem_delivers_twice : ∃ evs s, Run (RymSys.Step oneBlock ackAll 10) (RymSys.init 10) evs s ∧
    s.recv.pc = .returned .eok ∧ s.recv.onDataCalls ≠ oneBlock.blocks := by
  have hend : ([.take, .code, .data 132, .take, .take, .code, .data 132, .lose 0, .resend, .code, .data 132, .take, .code,
      .take, .code, .take, .take, .code, .data 132, .take].foldlM (RymSys.exec oneBlock ackAll 10) (RymSys.init 10)).map
        (fun s => (s.recv.pc, s.recv.onDataCalls.length)) = some (.returned .eok, 2) := by decide +kernel
  obtain ⟨s, hs, hend⟩ := Option.map_eq_some_iff.mp hend
  obtain ⟨hret, hcalls⟩ := Prod.mk.inj hend
  refine ⟨_, s, Run.of_foldlM (fun _ _ _ h => h) hs, hret, fun heq => ?_⟩
  rw [heq] at hcalls
  exact absurd hcalls (by decide)

end CoreLink.RtThread
