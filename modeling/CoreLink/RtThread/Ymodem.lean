/-
# `CoreLink.RtThread.Ymodem` — receiving files by YMODEM, `components/utilities/ymodem/ymodem.c`.

`rym_recv_on_device` is the receiver: a handshake, in which it sends `C` until block 0 with the name of the file arrives; the
transmission, in which it answers every data block with an ACK; and the end, with two EOT and an empty block 0. It is a
sequence of reads with tests in between. `RymPc` says which read it is in, and each function of the source is the part of
the machine between two reads.

A read of a code gives one byte or times out, and a read of data gives some of the bytes that are there. Both may time out
at any moment. The loop around the first read of data gives up 100 ms after its beginning, and a read that times out has
waited for longer (`RYM_WAIT_CHR_TICK`), so that it reads once.

The sender is no code of the repository. It is what the protocol asks of it: it sends a block, waits for the ACK and may
send the block again at any moment until it has it. What it sends arrives; of the bytes of the receiver each ACK may be lost.
-/
import CoreLink.Lib.Run

namespace CoreLink.RtThread

open CoreLink.Lib

/-! ## Packets -/

/-- `ccitt_table`. -/
def ccittTable : List UInt16 :=
  [0x0000, 0x1021, 0x2042, 0x3063, 0x4084, 0x50A5, 0x60C6, 0x70E7,
   0x8108, 0x9129, 0xA14A, 0xB16B, 0xC18C, 0xD1AD, 0xE1CE, 0xF1EF,
   0x1231, 0x0210, 0x3273, 0x2252, 0x52B5, 0x4294, 0x72F7, 0x62D6,
   0x9339, 0x8318, 0xB37B, 0xA35A, 0xD3BD, 0xC39C, 0xF3FF, 0xE3DE,
   0x2462, 0x3443, 0x0420, 0x1401, 0x64E6, 0x74C7, 0x44A4, 0x5485,
   0xA56A, 0xB54B, 0x8528, 0x9509, 0xE5EE, 0xF5CF, 0xC5AC, 0xD58D,
   0x3653, 0x2672, 0x1611, 0x0630, 0x76D7, 0x66F6, 0x5695, 0x46B4,
   0xB75B, 0xA77A, 0x9719, 0x8738, 0xF7DF, 0xE7FE, 0xD79D, 0xC7BC,
   0x48C4, 0x58E5, 0x6886, 0x78A7, 0x0840, 0x1861, 0x2802, 0x3823,
   0xC9CC, 0xD9ED, 0xE98E, 0xF9AF, 0x8948, 0x9969, 0xA90A, 0xB92B,
   0x5AF5, 0x4AD4, 0x7AB7, 0x6A96, 0x1A71, 0x0A50, 0x3A33, 0x2A12,
   0xDBFD, 0xCBDC, 0xFBBF, 0xEB9E, 0x9B79, 0x8B58, 0xBB3B, 0xAB1A,
   0x6CA6, 0x7C87, 0x4CE4, 0x5CC5, 0x2C22, 0x3C03, 0x0C60, 0x1C41,
   0xEDAE, 0xFD8F, 0xCDEC, 0xDDCD, 0xAD2A, 0xBD0B, 0x8D68, 0x9D49,
   0x7E97, 0x6EB6, 0x5ED5, 0x4EF4, 0x3E13, 0x2E32, 0x1E51, 0x0E70,
   0xFF9F, 0xEFBE, 0xDFDD, 0xCFFC, 0xBF1B, 0xAF3A, 0x9F59, 0x8F78,
   0x9188, 0x81A9, 0xB1CA, 0xA1EB, 0xD10C, 0xC12D, 0xF14E, 0xE16F,
   0x1080, 0x00A1, 0x30C2, 0x20E3, 0x5004, 0x4025, 0x7046, 0x6067,
   0x83B9, 0x9398, 0xA3FB, 0xB3DA, 0xC33D, 0xD31C, 0xE37F, 0xF35E,
   0x02B1, 0x1290, 0x22F3, 0x32D2, 0x4235, 0x5214, 0x6277, 0x7256,
   0xB5EA, 0xA5CB, 0x95A8, 0x8589, 0xF56E, 0xE54F, 0xD52C, 0xC50D,
   0x34E2, 0x24C3, 0x14A0, 0x0481, 0x7466, 0x6447, 0x5424, 0x4405,
   0xA7DB, 0xB7FA, 0x8799, 0x97B8, 0xE75F, 0xF77E, 0xC71D, 0xD73C,
   0x26D3, 0x36F2, 0x0691, 0x16B0, 0x6657, 0x7676, 0x4615, 0x5634,
   0xD94C, 0xC96D, 0xF90E, 0xE92F, 0x99C8, 0x89E9, 0xB98A, 0xA9AB,
   0x5844, 0x4865, 0x7806, 0x6827, 0x18C0, 0x08E1, 0x3882, 0x28A3,
   0xCB7D, 0xDB5C, 0xEB3F, 0xFB1E, 0x8BF9, 0x9BD8, 0xABBB, 0xBB9A,
   0x4A75, 0x5A54, 0x6A37, 0x7A16, 0x0AF1, 0x1AD0, 0x2AB3, 0x3A92,
   0xFD2E, 0xED0F, 0xDD6C, 0xCD4D, 0xBDAA, 0xAD8B, 0x9DE8, 0x8DC9,
   0x7C26, 0x6C07, 0x5C64, 0x4C45, 0x3CA2, 0x2C83, 0x1CE0, 0x0CC1,
   0xEF1F, 0xFF3E, 0xCF5D, 0xDF7C, 0xAF9B, 0xBFBA, 0x8FD9, 0x9FF8,
   0x6E17, 0x7E36, 0x4E55, 0x5E74, 0x2E93, 0x3EB2, 0x0ED1, 0x1EF0]

/-- `CRC16`. -/
def crc16 (q : List UInt8) : UInt16 :=
  q.foldl (fun crc b => (crc <<< 8) ^^^ ccittTable.getD (((crc >>> 8) ^^^ b.toUInt16) &&& 0xff).toNat 0) 0

/-- `RYM_CODE_SOH`. -/
def rymCodeSoh : UInt8 := 0x01
/-- `RYM_CODE_STX`. -/
def rymCodeStx : UInt8 := 0x02
/-- `RYM_CODE_EOT`. -/
def rymCodeEot : UInt8 := 0x04
/-- `RYM_CODE_ACK`. -/
def rymCodeAck : UInt8 := 0x06
/-- `RYM_CODE_NAK`. -/
def rymCodeNak : UInt8 := 0x15
/-- `RYM_CODE_CAN`. -/
def rymCodeCan : UInt8 := 0x18
/-- `RYM_CODE_C`. -/
def rymCodeC : UInt8 := 0x43

/-- `_RYM_SOH_PKG_SZ`. -/
def rymSohPkgSz : Nat := 1 + 2 + 128 + 2
/-- `_RYM_STX_PKG_SZ`. -/
def rymStxPkgSz : Nat := 1 + 2 + 1024 + 2

/-- `RYM_END_SESSION_SEND_CAN_NUM`. -/
def rymEndSessionSendCanNum : Nat := 7

/-- `RT_EOK` and the `RYM_ERR_*`. -/
inductive RymErr where
  | eok | tmo | code | seq | crc | dsz | can
  deriving DecidableEq

/-- `enum rym_stage`. -/
inductive RymStage where
  | none | establishing | established | transmitting | finishing | finished
  deriving DecidableEq

/-- The answers of `on_begin` and `on_data`; `on_end` has none. -/
structure RymCallbacks where
  onBegin : List UInt8 → UInt8
  onData : List UInt8 → UInt8

/-! ## The receiver -/

/-- The read that the receiver is in. `buf` are the bytes that are already read, behind the code. -/
inductive RymPc where
  /-- `_rym_do_handshake`, after `i` codes -/
  | handshakeCode (i : Nat)
  | handshakeData (dataSz : Nat) (buf : List UInt8)
  /-- `_rym_do_trans` -/
  | transCode
  /-- `_rym_trans_data` -/
  | transData (dataSz : Nat) (buf : List UInt8)
  /-- `_rym_do_fin`, before the second EOT -/
  | finEot
  | finCode
  | finData (dataSz : Nat) (buf : List UInt8)
  | returned (err : RymErr)
  deriving DecidableEq

/-- `struct rym_ctx`. `wire` are the bytes written to the device that have not arrived at the sender, and `onDataCalls` what
`on_data` was called with. -/
structure RymCtx where
  pc : RymPc
  stage : RymStage
  wire : List UInt8
  onDataCalls : List (List UInt8)

namespace RymCtx

/-- `_rym_putchar`. -/
def rymPutchar (ctx : RymCtx) (code : UInt8) : RymCtx := { ctx with wire := ctx.wire ++ [code] }

def ret (ctx : RymCtx) (err : RymErr) : RymCtx := { ctx with pc := .returned err }

/-- The checksum behind `n` bytes of data. -/
def recvCrc (buf : List UInt8) (n : Nat) : UInt16 :=
  ((buf.getD (2 + n) 0).toUInt16 <<< 8) ||| (buf.getD (2 + n + 1) 0).toUInt16

/-- The data behind the two bytes of the sequence number. -/
def payload (buf : List UInt8) (n : Nat) : List UInt8 := (buf.drop 2).take n

/-- The head of the loop of `_rym_do_handshake`. -/
def handshakeLoop (tmSec : Nat) (ctx : RymCtx) (i : Nat) : RymCtx :=
  if i < tmSec then { ctx.rymPutchar rymCodeC with pc := .handshakeCode i } else ctx.ret .tmo

/-- The beginning of `_rym_do_recv`. -/
def rymDoRecv (tmSec : Nat) : RymCtx := handshakeLoop tmSec ⟨.handshakeCode 0, .establishing, [], []⟩ 0

/-- The beginning of `_rym_do_trans`. -/
def rymDoTrans (ctx : RymCtx) : RymCtx :=
  { (ctx.rymPutchar rymCodeAck).rymPutchar rymCodeC with stage := .established, pc := .transCode }

/-- The tests of `_rym_do_handshake` on a packet. -/
def handshakePacket (cb : RymCallbacks) (ctx : RymCtx) (dataSz : Nat) (buf : List UInt8) : RymCtx :=
  if buf.getD 0 0 ≠ 0 ∨ buf.getD 1 0 ≠ 0xFF then ctx.ret .seq
  else if recvCrc buf (dataSz - 5) ≠ crc16 (payload buf (dataSz - 5)) then ctx.ret .crc
  else if cb.onBegin (payload buf (dataSz - 5)) ≠ rymCodeAck then ctx.ret .can
  else ctx.rymDoTrans

/-- What `_rym_do_trans` does with the code that `_rym_trans_data` gives. -/
def transAnswer (ctx : RymCtx) (code : UInt8) : RymCtx :=
  if code = rymCodeCan then
    { ctx with wire := ctx.wire ++ List.replicate rymEndSessionSendCanNum rymCodeCan }.ret .can
  else if code = rymCodeAck then { ctx.rymPutchar rymCodeAck with pc := .transCode }
  else { ctx with pc := .transCode }

/-- `_rym_trans_data`, when all bytes are there. -/
def transPacket (cb : RymCallbacks) (ctx : RymCtx) (dataSz : Nat) (buf : List UInt8) : RymCtx :=
  if (buf.getD 0 0).toNat + (buf.getD 1 0).toNat ≠ 0xFF then ctx.ret .seq
  else if ctx.stage = .established ∧ buf.getD 0 0 = 0x00 then { ctx with pc := .transCode }
  else
    let ctx := { ctx with stage := .transmitting }
    if recvCrc buf dataSz ≠ crc16 (payload buf dataSz) then ctx.ret .crc
    else
      { ctx with onDataCalls := ctx.onDataCalls ++ [payload buf dataSz] }.transAnswer (cb.onData (payload buf dataSz))

/-- The beginning of `_rym_do_fin`. -/
def rymDoFin (ctx : RymCtx) : RymCtx := { ctx.rymPutchar rymCodeNak with stage := .finishing, pc := .finEot }

/-- The tests of `_rym_do_fin` on a packet. -/
def finPacket (cb : RymCallbacks) (ctx : RymCtx) (dataSz : Nat) (buf : List UInt8) : RymCtx :=
  if buf.getD 0 0 ≠ 0 ∨ buf.getD 1 0 ≠ 0xFF then ctx.ret .seq
  else if recvCrc buf (rymSohPkgSz - 5) ≠ crc16 (payload buf (rymSohPkgSz - 5)) then ctx.ret .crc
  else if buf.getD 2 0 ≠ 0 then
    -- the next file
    if cb.onBegin (payload buf (dataSz - 5)) ≠ rymCodeAck then ctx.ret .can else ctx.rymDoTrans
  else { ctx with stage := .finished }.rymPutchar rymCodeAck |>.ret .eok

/-- A code is read. -/
def readCode (tmSec : Nat) (ctx : RymCtx) (code : UInt8) : RymCtx :=
  match ctx.pc with
  | .handshakeCode i =>
      if code = rymCodeSoh then { ctx with pc := .handshakeData rymSohPkgSz [] }
      else if code = rymCodeStx then { ctx with pc := .handshakeData rymStxPkgSz [] }
      else handshakeLoop tmSec ctx (i + 1)
  | .transCode =>
      if code = rymCodeSoh then { ctx with pc := .transData 128 [] }
      else if code = rymCodeStx then { ctx with pc := .transData 1024 [] }
      else if code = rymCodeEot then ctx.rymDoFin
      else ctx.ret .code
  | .finEot =>
      if code ≠ rymCodeEot then ctx.ret .code
      else { (ctx.rymPutchar rymCodeAck).rymPutchar rymCodeC with pc := .finCode }
  | .finCode =>
      if code = rymCodeSoh then { ctx with pc := .finData rymSohPkgSz [] }
      else if code = rymCodeStx then { ctx with pc := .finData rymStxPkgSz [] }
      else ctx.ret .code
  | _ => ctx

/-- The bytes that a read of data has yet to read. -/
def remaining : RymPc → Nat
  | .handshakeData dataSz buf => dataSz - 1 - buf.length
  | .transData dataSz buf => 2 + dataSz + 2 - buf.length
  | .finData _ buf => rymSohPkgSz - 1 - buf.length
  | _ => 0

/-- Some bytes of data are read, and what follows when it is the last of them. -/
def readData (cb : RymCallbacks) (ctx : RymCtx) (bytes : List UInt8) : RymCtx :=
  match ctx.pc with
  | .handshakeData dataSz buf =>
      if (buf ++ bytes).length < dataSz - 1 then { ctx with pc := .handshakeData dataSz (buf ++ bytes) }
      else ctx.handshakePacket cb dataSz (buf ++ bytes)
  | .transData dataSz buf =>
      if (buf ++ bytes).length < 2 + dataSz + 2 then { ctx with pc := .transData dataSz (buf ++ bytes) }
      else ctx.transPacket cb dataSz (buf ++ bytes)
  | .finData dataSz buf =>
      if (buf ++ bytes).length < rymSohPkgSz - 1 then { ctx with pc := .finData dataSz (buf ++ bytes) }
      else ctx.finPacket cb dataSz (buf ++ bytes)
  | _ => ctx

/-- A read times out. -/
def timeout (tmSec : Nat) (ctx : RymCtx) : RymCtx :=
  match ctx.pc with
  | .handshakeCode i => handshakeLoop tmSec ctx (i + 1)
  | .transCode | .finEot | .finCode => ctx.ret .code
  | .handshakeData .. | .transData .. | .finData .. => ctx.ret .dsz
  | .returned _ => ctx

/-- The receiver is in a read of a code. -/
def WantsCode (ctx : RymCtx) : Prop :=
  match ctx.pc with
  | .handshakeCode _ | .transCode | .finEot | .finCode => True
  | _ => False

instance (ctx : RymCtx) : Decidable ctx.WantsCode := by
  unfold WantsCode
  split <;> infer_instance

end RymCtx

/-! ## The sender -/

/-- What a sender sends: block 0 with the name, the blocks of the file, and the block 0 that ends the session. -/
structure RymFile where
  header : List UInt8
  blocks : List (List UInt8)
  null : List UInt8
  header_length : header.length = 128 ∨ header.length = 1024
  blocks_length : ∀ b ∈ blocks, b.length = 128 ∨ b.length = 1024
  null_length : null.length = 128
  null_head : null.head? = some 0

/-- A packet of the sender; the blocks of the file are counted from 0. -/
inductive RymPkt where
  | header
  | block (k : Nat)
  | eot
  | null
  deriving DecidableEq

/-- The bytes of a block: the code for its size, the number and its complement, the data and their checksum. -/
def packet (seq : UInt8) (data : List UInt8) : List UInt8 :=
  (if data.length = 1024 then rymCodeStx else rymCodeSoh) :: seq :: (255 - seq) ::
    (data ++ [(crc16 data >>> 8).toUInt8, (crc16 data).toUInt8])

/-- The bytes of a packet. Block 0 is the header, so that the first block of the file has number 1. -/
def RymPkt.encode (f : RymFile) : RymPkt → List UInt8
  | header => packet 0 f.header
  | block k => packet (UInt8.ofNat (k + 1)) (f.blocks.getD k [])
  | eot => [rymCodeEot]
  | null => packet 0 f.null

/-- Where the sender is. -/
inductive RymSndPc where
  /-- before the first `C` -/
  | idle
  /-- waiting for the ACK of the header -/
  | header
  /-- waiting for the `C` behind it -/
  | headerAcked
  /-- waiting for the ACK of a block -/
  | block (k : Nat)
  /-- waiting for the NAK or the ACK of an EOT -/
  | eot
  /-- waiting for the `C` behind it -/
  | eotAcked
  /-- waiting for the ACK of the last block 0 -/
  | null
  | done
  deriving DecidableEq

/-- Both ends. `line` are the bytes on their way to the receiver, `sent` all packets that were sent, and `resent` counts the
blocks of the file among them that were sent again. -/
structure RymSys where
  recv : RymCtx
  snd : RymSndPc
  line : List UInt8
  sent : List RymPkt
  resent : Nat

/-- What can happen next: the sender takes a byte or sends its packet again; an ACK is lost; the receiver reads a code or some
bytes of data, or its read times out. -/
inductive RymEvent where
  | take
  | resend
  | lose (i : Nat)
  | code
  | data (n : Nat)
  | timeout
  deriving DecidableEq

namespace RymSys

variable (f : RymFile)

/-- A packet is sent. -/
def send (s : RymSys) (p : RymPkt) (pc : RymSndPc) : RymSys :=
  { s with snd := pc, line := s.line ++ p.encode f, sent := s.sent ++ [p] }

/-- The block `k` is sent, or EOT when there is none. -/
def sendBlock (s : RymSys) (k : Nat) : RymSys :=
  if k < f.blocks.length then s.send f (.block k) (.block k) else s.send f .eot .eot

/-- The sender gets a byte; one that it does not wait for is ignored. -/
def take (s : RymSys) (b : UInt8) : RymSys :=
  match s.snd with
  | .idle => if b = rymCodeC then s.send f .header .header else s
  | .header => if b = rymCodeAck then { s with snd := .headerAcked } else s
  | .headerAcked => if b = rymCodeC then s.sendBlock f 0 else s
  | .block k => if b = rymCodeAck then s.sendBlock f (k + 1) else s
  | .eot =>
      if b = rymCodeNak then s.send f .eot .eot
      else if b = rymCodeAck then { s with snd := .eotAcked }
      else s
  | .eotAcked => if b = rymCodeC then s.send f .null .null else s
  | .null => if b = rymCodeAck then { s with snd := .done } else s
  | .done => s

/-- The sender sends the packet again that it has no ACK for. -/
def resend (s : RymSys) : RymSys :=
  match s.snd with
  | .header => s.send f .header .header
  | .block k => { s.send f (.block k) (.block k) with resent := s.resent + 1 }
  | .eot => s.send f .eot .eot
  | .null => s.send f .null .null
  | _ => s

/-- The effect of an event. -/
def exec (cb : RymCallbacks) (tmSec : Nat) (s : RymSys) : RymEvent → Option RymSys
  | .take =>
      match s.recv.wire with
      | [] => none
      | b :: wire => some ({ s with recv := { s.recv with wire := wire } }.take f b)
  | .resend => some (s.resend f)
  | .lose i =>
      if s.recv.wire[i]? = some rymCodeAck then some { s with recv := { s.recv with wire := s.recv.wire.eraseIdx i } }
      else none
  | .code =>
      match s.line with
      | [] => none
      | b :: line => if s.recv.WantsCode then some { s with recv := s.recv.readCode tmSec b, line := line } else none
  | .data n =>
      if 0 < n ∧ n ≤ RymCtx.remaining s.recv.pc ∧ n ≤ s.line.length then
        some { s with recv := s.recv.readData cb (s.line.take n), line := s.line.drop n }
      else none
  | .timeout => some { s with recv := s.recv.timeout tmSec }

/-- One step of the system. -/
def Step (cb : RymCallbacks) (tmSec : Nat) (s : RymSys) (e : RymEvent) (s' : RymSys) : Prop :=
  s.exec f cb tmSec e = some s'

/-- The receiver begins, and the sender waits for it. -/
def init (tmSec : Nat) : RymSys := ⟨RymCtx.rymDoRecv tmSec, .idle, [], [], 0⟩

end RymSys

end CoreLink.RtThread
