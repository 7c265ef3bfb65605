/-
# `CoreLink.Vbus.Ring` — the packets on a ring of `components/vbus/vbus.c`.

A ring lies in memory that two processors share: `RT_VMM_RB_BLK_NR` blocks of 64 bytes, the index where the writer puts
the next packet and the index where the reader gets one. A packet takes as many blocks as its bytes and a header of 4
bytes need, and may go around the end. `_bus_out_entry` on one side and `_bus_in_entry` on the other are the two threads
of the system; each of their loads and stores of the ring is a step, so that a run is any interleaving of these.

The number of blocks is a constant that keeps the ring in memory, so that the sums of indices and the difference that is
taken as an `int` do not wrap; they are sums of natural numbers and an integer here. Where a thread indexes a channel table
outside of its 32 entries, it goes on in no defined way: `undefined`. The status of the channels changes as it will. What
a thread that waits for space waits for is left out (it tests again at any time), and so are the statistics, the water
marks, the log and the indication of a transmission. Allocations succeed.
-/
import CoreLink.Lib.Cells

namespace CoreLink.Vbus

open CoreLink.Lib

/-! ## Packets and blocks -/

/-- `RT_VBUS_CHANNEL_NR`. -/
def rtVbusChannelNr : Nat := 32

/-- `RT_VBUS_BLK_HEAD_SZ`. -/
def rtVbusBlkHeadSz : Nat := 4

/-- `RT_VBUS_MAX_PKT_SZ`. -/
def rtVbusMaxPktSz : Nat := 256 - rtVbusBlkHeadSz

/-- `sizeof (struct rt_vbus_blk)`. -/
def sizeofBlk : Nat := 64

/-- `LEN2BNR`. -/
def len2bnr (len : Nat) : Nat := (len + rtVbusBlkHeadSz + sizeofBlk - 1) / sizeofBlk

/-- `struct rt_vbus_pkg` with the bytes that `data` points to; `len` is their number. -/
structure VbusPkg where
  id : UInt8
  prio : UInt8
  data : List UInt8
  deriving DecidableEq

namespace VbusPkg

def len (p : VbusPkg) : Nat := p.data.length

/-- The length is one that packets have: `RT_VBUS_MAX_PKT_SZ`, and 60 on channel 0. -/
def LengthOk (p : VbusPkg) : Prop := p.len ≤ rtVbusMaxPktSz ∧ (p.id = 0 → p.len ≤ 60)

instance (p : VbusPkg) : Decidable p.LengthOk := inferInstanceAs (Decidable (_ ∧ _))

end VbusPkg

/-- `struct rt_vbus_ring`; `blks` are the bytes of the blocks. -/
structure VbusRing where
  putIdx : Nat
  getIdx : Nat
  blks : Nat → UInt8

/-- `_bus_ring_space_nr`, for a ring of `nr` blocks. -/
def busRingSpaceNr (nr : Nat) (rg : VbusRing) : Int :=
  let delta : Int := rg.getIdx - rg.putIdx
  if delta > 0 then delta - 1 else nr + delta - 1

/-- `bnr` blocks behind an index: `_ring_add_get_bnr`, and what the two threads do on their own. -/
def ringAdd (nr idx bnr : Nat) : Nat :=
  let nidx := idx + bnr
  if nidx ≥ nr then nidx - nr else nidx

/-- The bytes of a packet of `len` bytes at the index `idx` that lie in front of the end of the ring. -/
def tailSz (nr idx len : Nat) : Nat :=
  let tailsz := (nr - idx) * sizeofBlk - rtVbusBlkHeadSz
  if tailsz > len then len else tailsz

/-- The stores of an `rt_memcpy` to `dst`. -/
def memcpyStores (dst : Nat) (bytes : List UInt8) : List (Nat × UInt8) := bytes.mapIdx fun i b => (dst + i, b)

/-- The loads of an `rt_memcpy` of `n` bytes from `src`. -/
def memcpyLoads (src n : Nat) : List Nat := (List.range n).map (src + ·)

/-- The stores of `_bus_out_entry` for the packet `p` at the index `put`. -/
def outStores (nr put : Nat) (p : VbusPkg) : List (Nat × UInt8) :=
  [(put * sizeofBlk, p.id), (put * sizeofBlk + 1, p.prio), (put * sizeofBlk + 2, UInt8.ofNat p.len)] ++
    if put + len2bnr p.len ≥ nr then
      memcpyStores (put * sizeofBlk + rtVbusBlkHeadSz) (p.data.take (tailSz nr put p.len)) ++
        memcpyStores 0 (p.data.drop (tailSz nr put p.len))
    else memcpyStores (put * sizeofBlk + rtVbusBlkHeadSz) p.data

/-- The loads of `_bus_in_entry` for the data of a packet of `size` bytes at the index `get`. -/
def inLoads (nr get size : Nat) : List Nat :=
  if get + len2bnr size ≥ nr then
    memcpyLoads (get * sizeofBlk + rtVbusBlkHeadSz) (tailSz nr get size) ++ memcpyLoads 0 (size - tailSz nr get size)
  else memcpyLoads (get * sizeofBlk + rtVbusBlkHeadSz) size

/-- The loads of `_chn0_actor`, which is given a pointer to the data of the block. -/
def chn0Loads (get size : Nat) : List Nat := memcpyLoads (get * sizeofBlk + rtVbusBlkHeadSz) size

/-! ## The two threads -/

/-- Where `_bus_out_entry` is. -/
inductive OutPc where
  /-- before `rt_prio_queue_pop` -/
  | popping
  /-- before the free space is computed -/
  | sampling (p : VbusPkg)
  /-- waiting for enough space -/
  | waiting (p : VbusPkg)
  /-- after the first `k` of the stores for `p` -/
  | storing (p : VbusPkg) (k : Nat)
  | undefined

/-- What `_bus_in_entry` took off the ring: the header, whether the channel was found connected, and the data if they were
read. -/
structure VbusTaken where
  id : UInt8
  size : Nat
  connected : Bool
  data : Option (List UInt8)
  deriving DecidableEq

/-- Where `_bus_in_entry` is. -/
inductive InPc where
  /-- before `while (not empty)` -/
  | testing
  /-- before `len` of the header is read -/
  | nonempty
  /-- before `id` of the header is read -/
  | sized (size : Nat)
  /-- before the channel is tested -/
  | checking (id : UInt8) (size : Nat)
  /-- reading the data; `bytes` have been read -/
  | loading (id : UInt8) (size : Nat) (bytes : List UInt8)
  /-- before `get_idx` moves on -/
  | releasing (t : VbusTaken)
  | undefined

/-- The ring and the two ends. `outChn` and `inChn` say for each side which channels are connected. `todo` are the packets
that `_bus_out_entry` will pop, `handled` those that it has popped with the outcome of its test, `sent` those it has put on
the ring, and `taken` what the other side took off it. -/
structure VbusSys where
  ring : VbusRing
  out : OutPc
  inn : InPc
  outChn : Nat → Bool
  inChn : Nat → Bool
  todo : List VbusPkg
  handled : List (VbusPkg × Bool)
  sent : List VbusPkg
  taken : List VbusTaken

/-- What can happen next: one of the threads takes a step, or the channels of one side change. -/
inductive VbusEvent where
  | out
  | inn
  | setOut (chn : Nat → Bool)
  | setIn (chn : Nat → Bool)

namespace VbusSys

variable (nr : Nat)

/-- `_bus_out_entry` takes a packet off its queue and tests the channel. -/
def outPop (s : VbusSys) : VbusSys :=
  match s.todo with
  | [] => s
  | p :: todo =>
      if rtVbusChannelNr ≤ p.id.toNat then { s with out := .undefined }
      else
        { s with
          todo := todo
          handled := s.handled ++ [(p, s.outChn p.id.toNat)]
          out := if s.outChn p.id.toNat then .sampling p else .popping }

/-- One step of `_bus_out_entry`. -/
def outStep (s : VbusSys) : VbusSys :=
  match s.out with
  | .popping => s.outPop
  | .sampling p => { s with out := if busRingSpaceNr nr s.ring < len2bnr p.len then .waiting p else .storing p 0 }
  | .waiting p => { s with out := .sampling p }
  | .storing p k =>
      match (outStores nr s.ring.putIdx p)[k]? with
      | some (a, b) =>
          { s with ring := { s.ring with blks := Function.update s.ring.blks a b }, out := .storing p (k + 1) }
      | none =>
          { s with
            ring := { s.ring with putIdx := ringAdd nr s.ring.putIdx (len2bnr p.len) }
            out := .popping
            sent := s.sent ++ [p] }
  | .undefined => s

/-- The tests of `_bus_in_entry` on the header of a packet. -/
def inCheck (s : VbusSys) (id : UInt8) (size : Nat) : VbusSys :=
  if id.toNat > rtVbusChannelNr then { s with inn := .releasing ⟨id, size, false, none⟩ }
  else if rtVbusChannelNr ≤ id.toNat then { s with inn := .undefined }
  else if s.inChn id.toNat then
    if id = 0 ∧ size > 60 then { s with inn := .releasing ⟨id, size, true, none⟩ }
    else { s with inn := .loading id size [] }
  else { s with inn := .releasing ⟨id, size, false, none⟩ }

/-- The loads of the data of the packet that is being read. -/
def loads (s : VbusSys) (id : UInt8) (size : Nat) : List Nat :=
  if id = 0 then chn0Loads s.ring.getIdx size else inLoads nr s.ring.getIdx size

/-- One step of `_bus_in_entry`. -/
def inStep (s : VbusSys) : VbusSys :=
  match s.inn with
  | .testing => if s.ring.getIdx ≠ s.ring.putIdx then { s with inn := .nonempty } else s
  | .nonempty => { s with inn := .sized (s.ring.blks (s.ring.getIdx * sizeofBlk + 2)).toNat }
  | .sized size => { s with inn := .checking (s.ring.blks (s.ring.getIdx * sizeofBlk)) size }
  | .checking id size => s.inCheck id size
  | .loading id size bytes =>
      match (s.loads nr id size)[bytes.length]? with
      | some a => { s with inn := .loading id size (bytes ++ [s.ring.blks a]) }
      | none => { s with inn := .releasing ⟨id, size, true, some bytes⟩ }
  | .releasing t =>
      { s with
        ring := { s.ring with getIdx := ringAdd nr s.ring.getIdx (len2bnr t.size) }
        inn := .testing
        taken := s.taken ++ [t] }
  | .undefined => s

/-- The effect of an event. -/
def exec (s : VbusSys) : VbusEvent → VbusSys
  | .out => s.outStep nr
  | .inn => s.inStep nr
  | .setOut chn => { s with outChn := chn }
  | .setIn chn => { s with inChn := chn }

/-- One step of the system. -/
def Step (s : VbusSys) (e : VbusEvent) (s' : VbusSys) : Prop := s' = s.exec nr e

/-- An empty ring, whatever its bytes are, and the packets that will be sent. -/
def init (blks : Nat → UInt8) (outChn inChn : Nat → Bool) (pkts : List VbusPkg) : VbusSys where
  ring := ⟨0, 0, blks⟩
  out := .popping
  inn := .testing
  outChn := outChn
  inChn := inChn
  todo := pkts
  handled := []
  sent := []
  taken := []

end VbusSys

end CoreLink.Vbus
