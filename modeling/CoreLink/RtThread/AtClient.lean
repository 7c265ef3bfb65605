/-
# `CoreLink.RtThread.AtClient` — the AT client, `components/net/at/src/at_client.c`.

`at_obj_exec_cmd` sends a command and waits for a semaphore. A thread of the client, `client_parser`, reads what the device
sends line by line, and writes the lines to the response object that `client->resp` points to, until one of them ends the
response.

A received line is one step; `at_obj_exec_cmd` is a step up to each point where a line can come in between. The lock lets one
command in at a time. A pointer to a response object is a number, its timeout a step that may come at any time, and
`resp_notice` a counter. The functions of the URC table, the logs and the CLI mode are left out.
-/
import CoreLink.Lib.Run
import CoreLink.Lib.Terminated

namespace CoreLink.RtThread

open CoreLink.Lib

/-! ## Reading a line -/

def cr : UInt8 := 13
def lf : UInt8 := 10

/-- `struct at_urc`. -/
structure AtUrc where
  cmdPrefix : List UInt8
  cmdSuffix : List UInt8

/-- The fields of `struct at_client` that are set up once. Without an `end_sign` it is 0. -/
structure AtConf where
  recvBufsz : Nat
  endSign : UInt8
  urcTable : List AtUrc

/-- `get_urc_obj`. -/
def getUrcObj (urcTable : List AtUrc) (buffer : List UInt8) : Option AtUrc :=
  urcTable.find? fun urc => !decide (buffer.length < urc.cmdPrefix.length + urc.cmdSuffix.length) &&
    urc.cmdPrefix.isPrefixOf buffer && urc.cmdSuffix.isSuffixOf buffer

/-- What `at_recv_readline` does with what comes in: it reads a line, or too long a one, or waits for more. -/
inductive Readline where
  | line (recvBuffer rest : List UInt8)
  | full (rest : List UInt8)
  | wait
  deriving DecidableEq

/-- The loop of `at_recv_readline`; of `recv_buffer` the part that is filled. -/
def readlineLoop (conf : AtConf) : List UInt8 → UInt8 → Bool → List UInt8 → Readline
  | _, _, _, [] => .wait
  | recvBuffer, lastCh, isFull, ch :: input =>
      let r := if recvBuffer.length < conf.recvBufsz then (recvBuffer ++ [ch], isFull) else (recvBuffer, true)
      if (ch = lf ∧ lastCh = cr) ∨ (conf.endSign ≠ 0 ∧ ch = conf.endSign) ∨ (getUrcObj conf.urcTable r.1).isSome then
        if r.2 then .full input else .line r.1 input
      else readlineLoop conf r.1 ch r.2 input

/-- `at_recv_readline`. -/
def atRecvReadline (conf : AtConf) (input : List UInt8) : Readline := readlineLoop conf [] 0 false input

/-! ## Response objects -/

/-- `struct at_response`; `buf_size` is the length of `buf`. -/
structure AtResponse where
  buf : List UInt8
  lineNum : Nat
  lineCounts : Nat

namespace AtResponse

/-- `at_create_resp`. -/
def atCreateResp (bufSize lineNum : Nat) : AtResponse := ⟨List.replicate bufSize 0, lineNum, 0⟩

/-- `at_resp_set_info`; `more` is what is behind the old contents in a longer buffer of `rt_realloc`. -/
def atRespSetInfo (resp : AtResponse) (bufSize lineNum : Nat) (more : List UInt8) : AtResponse :=
  { resp with buf := (resp.buf ++ more).take bufSize, lineNum := lineNum }

/-- The loop of `at_resp_get_line`, with `n` iterations left. A read behind the buffer gives nothing. -/
def getLineLoop (respLine : Nat) : Nat → Nat → List UInt8 → Option (List UInt8)
  | 0, _, _ => none
  | n + 1, lineNum, respBuf =>
      if respLine = lineNum then cstring 0 respBuf
      else (cstring 0 respBuf).bind fun l => getLineLoop respLine n (lineNum + 1) (respBuf.drop (l.length + 1))

/-- `at_resp_get_line`, the string that it points to. -/
def atRespGetLine (resp : AtResponse) (respLine : Nat) : Option (List UInt8) :=
  if respLine > resp.lineCounts ∨ respLine ≤ 0 then none else getLineLoop respLine resp.lineCounts 1 resp.buf

end AtResponse

/-- `enum at_resp_status`. -/
inductive AtRespStatus where
  | ok
  | error
  | timeout
  | buffFull
  deriving DecidableEq

/-! ## The client -/

/-- The fields of `struct at_client` that a command changes. -/
structure AtClient where
  resp : Option Nat
  respNotice : Nat
  respStatus : AtRespStatus

/-- The variables of `client_parser`, which it keeps from line to line. -/
structure AtParser where
  respBufLen : Nat
  lineCounts : Nat
  deriving DecidableEq

/-- Where a command is in `at_obj_exec_cmd`. -/
inductive AtPhase where
  /-- The command is being sent. -/
  | sent
  /-- `line_counts` is 0, and it waits for the semaphore. -/
  | waiting
  /-- It has the semaphore. -/
  | taken
  /-- The timeout is over. -/
  | timedOut
  deriving DecidableEq

/-- A command that holds the lock. -/
structure AtCmd where
  resp : Option Nat
  phase : AtPhase
  deriving DecidableEq

structure AtSys where
  resps : Nat → AtResponse
  client : AtClient
  parser : AtParser
  cmd : Option AtCmd

/-- `AT_RESP_END_OK`. -/
def atRespEndOk : List UInt8 := [79, 75]
/-- `AT_RESP_END_ERROR`. -/
def atRespEndError : List UInt8 := [69, 82, 82, 79, 82]
/-- `AT_RESP_END_FAIL`. -/
def atRespEndFail : List UInt8 := [70, 65, 73, 76]

/-- `memcmp` of a buffer with a string. -/
def startsWith (buffer str : List UInt8) : Bool := str.isPrefixOf buffer

/-- `strstr`. -/
def strstr (buffer str : List UInt8) : Bool := (buffer.takeWhile (· ≠ 0)).tails.any str.isPrefixOf

/-- The line is one of the two that end a response with an error. -/
def endsError (recvBuffer : List UInt8) : Bool :=
  strstr recvBuffer atRespEndError || startsWith recvBuffer atRespEndFail

/-- The result of `at_obj_exec_cmd`. -/
inductive AtResult where
  | ok
  | error
  | timeout
  deriving DecidableEq

namespace AtSys

/-- The end of a response in `client_parser`. -/
def endResp (s : AtSys) (id : Nat) (resp : AtResponse) (parser : AtParser) (status : AtRespStatus) : AtSys :=
  { s with
    resps := Function.update s.resps id { resp with lineCounts := parser.lineCounts }
    client := ⟨none, s.client.respNotice + 1, status⟩
    parser := ⟨0, 0⟩ }

/-- `client_parser` with a line of a response; its last byte is a 0 already. -/
def parseResp (s : AtSys) (id : Nat) (recvBuffer : List UInt8) : AtSys :=
  let resp := s.resps id
  let len := s.parser.respBufLen
  let fits := len + recvBuffer.length < resp.buf.length
  let resp := if fits then { resp with buf := resp.buf.take len ++ recvBuffer ++ resp.buf.drop (len + recvBuffer.length) }
    else resp
  let parser := if fits then ⟨len + recvBuffer.length, s.parser.lineCounts + 1⟩ else s.parser
  let status := if fits then s.client.respStatus else .buffFull
  if startsWith recvBuffer atRespEndOk ∧ resp.lineNum = 0 then s.endResp id resp parser .ok
  else if endsError recvBuffer then s.endResp id resp parser .error
  else if parser.lineCounts = resp.lineNum ∧ resp.lineNum ≠ 0 then s.endResp id resp parser .ok
  else
    { s with
      resps := Function.update s.resps id resp
      client := { s.client with respStatus := status }
      parser := parser }

/-- An iteration of `client_parser`. -/
def clientParser (conf : AtConf) (s : AtSys) (input : List UInt8) : AtSys :=
  match atRecvReadline conf input with
  | .line recvBuffer _ =>
      if (getUrcObj conf.urcTable recvBuffer).isSome then s
      else
        match s.client.resp with
        | some id => s.parseResp id (recvBuffer.dropLast ++ [0])
        | none => s
  | _ => s

/-- The beginning of `at_obj_exec_cmd`, up to the end of `at_vprintfln`. -/
def send (s : AtSys) (resp : Option Nat) : AtSys :=
  { s with client := { s.client with resp := resp, respStatus := .ok }, cmd := some ⟨resp, .sent⟩ }

/-- The end of `at_obj_exec_cmd`, with its result. -/
def ret (s : AtSys) (cmd : AtCmd) : Option (AtResult × AtSys) :=
  let exit := fun (s : AtSys) => { s with client := { s.client with resp := none }, cmd := none }
  match cmd.phase, cmd.resp with
  | .sent, none => some (.ok, exit s)
  | .taken, _ => some (if s.client.respStatus ≠ .ok then .error else .ok, exit s)
  | .timedOut, _ => some (.timeout, exit { s with client := { s.client with respStatus := .timeout } })
  | _, _ => none

end AtSys

/-- A line that is not a URC, without what ends it: no 0 and no end in it, and shorter than `recv_buffer`. -/
def GoodLine (conf : AtConf) (l : List UInt8) : Prop :=
  (0 ∉ l ∧ l.length + 2 < conf.recvBufsz) ∧ (¬ [cr, lf] <:+: l ++ [cr]) ∧
    (conf.endSign ≠ 0 → conf.endSign ∉ l ++ [cr, lf]) ∧
      ∀ buffer ∈ (l ++ [cr, lf]).inits, getUrcObj conf.urcTable buffer = none

instance (conf : AtConf) (l : List UInt8) : Decidable (GoodLine conf l) := inferInstanceAs (Decidable (_ ∧ _))

/-- What happens: a response object is made or changed, `at_obj_exec_cmd` goes on, or a line comes in. -/
inductive AtEvent where
  | create (id bufSize lineNum : Nat)
  | setInfo (id bufSize lineNum : Nat) (more : List UInt8)
  | send (resp : Option Nat)
  | reset
  | take
  | timeout
  | ret (result : AtResult)
  | line (l : List UInt8)
  deriving DecidableEq

namespace AtSys

/-- The effect of an event. Nobody else uses the object of the command that is in progress. -/
def exec (conf : AtConf) (s : AtSys) : AtEvent → Option AtSys
  | .create id bufSize lineNum =>
      if s.cmd.bind AtCmd.resp ≠ some id then
        some { s with resps := Function.update s.resps id (.atCreateResp bufSize lineNum) }
      else none
  | .setInfo id bufSize lineNum more =>
      if s.cmd.bind AtCmd.resp ≠ some id ∧ bufSize ≤ (s.resps id).buf.length + more.length then
        some { s with resps := Function.update s.resps id ((s.resps id).atRespSetInfo bufSize lineNum more) }
      else none
  | .send resp => if s.cmd = none then some (s.send resp) else none
  | .reset =>
      match s.cmd with
      | some ⟨some id, .sent⟩ =>
          some { s with
            resps := Function.update s.resps id { s.resps id with lineCounts := 0 }
            cmd := some ⟨some id, .waiting⟩ }
      | _ => none
  | .take =>
      match s.cmd with
      | some ⟨some id, .waiting⟩ =>
          if 0 < s.client.respNotice then
            some { s with
              client := { s.client with respNotice := s.client.respNotice - 1 }
              cmd := some ⟨some id, .taken⟩ }
          else none
      | _ => none
  | .timeout =>
      match s.cmd with
      | some ⟨some id, .waiting⟩ =>
          if s.client.respNotice = 0 then some { s with cmd := some ⟨some id, .timedOut⟩ } else none
      | _ => none
  | .ret result => (s.cmd.bind s.ret).bind fun r => if r.1 = result then some r.2 else none
  | .line l => if GoodLine conf l then some (s.clientParser conf (l ++ [cr, lf])) else none

/-- One step of the system. -/
def Step (conf : AtConf) (s : AtSys) (e : AtEvent) (s' : AtSys) : Prop := s.exec conf e = some s'

/-- A client that was initialized. -/
def init (resps : Nat → AtResponse) : AtSys := ⟨resps, ⟨none, 0, .ok⟩, ⟨0, 0⟩, none⟩

end AtSys

end CoreLink.RtThread
