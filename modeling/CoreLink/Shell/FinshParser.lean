/-
# `CoreLink.Shell.FinshParser` — the parser of `components/finsh/finsh_parser.c`.

The parser gets the tokens one by one, and can put one back. It goes on after an error: the error number is never reset, and
is looked at after the whole line. A procedure is a function on the state of the parser, the heap and the variables; it has no
result when a string literal finds no memory, since `finsh_node_new_string` then copies to `NULL`. The procedures that call
each other are written with the ones that they call as arguments, and `procs` ties the knot, with fuel.
-/
import CoreLink.RtThread.FinshLiterals
import CoreLink.RtThread.FinshToken
import CoreLink.Shell.FinshNode

namespace CoreLink.Shell.Finsh

open RtThread

/-- `FINSH_NAME_MAX`. -/
def nameMax : ℕ := 16

/-- `FINSH_NODE_MAX`. -/
def nodeMax : ℕ := 16

/-- What the parser reads of a token: its type, its value, and the characters in front of the first 0 of its string. -/
structure Token where
  type : FinshTokenType
  value : Dword := 0
  string : List UInt8 := []
  deriving DecidableEq

/-- `struct finsh_var`; `ptr` is `value.ptr`. -/
structure FinshVar where
  name : List UInt8
  type : FinshType
  ptr : ℕ

/-- A variable, as the collector of the heap sees it. -/
def FinshVar.heapVar (v : FinshVar) : HeapVar where
  declared := decide (v.type ≠ .unknown)
  ptr := v.ptr

/-- The tables of the system variables and of the system calls, and where `global_variable` and the heap lie. -/
structure FinshSystem where
  sysvar : List UInt8 → Option Symbol
  syscall : List UInt8 → Option Symbol
  variableBase : Dword
  heapBase : Dword

/-- `struct finsh_parser`, with the variables, the heap, the error number, and the number of the nodes that are taken. -/
structure FinshParser where
  /-- the tokens that are still to be read; behind them is the end of the line -/
  tokens : List Token
  current : Token
  replay : Bool
  nodes : ℕ
  vars : List FinshVar
  heap : FinshHeap
  error : Option FinshError

/-- A procedure of the parser. -/
abbrev Proc := StateT FinshParser Option

namespace FinshParser

/-! ## Tokens -/

/-- `finsh_token_token`. -/
def nextToken : Proc Token := fun s =>
  if s.replay then some (s.current, { s with replay := false })
  else
    match s.tokens with
    | [] => some ({ type := .eof }, { s with current := { type := .eof } })
    | token :: tokens => some (token, { s with tokens := tokens, current := token })

/-- `finsh_token_replay`. -/
def tokenReplay : Proc Unit := modify fun s => { s with replay := true }

/-- `finsh_error_set`. -/
def errorSet (error : FinshError) : Proc Unit := modify fun s => { s with error := some error }

/-- `check_token`. -/
def checkToken (token : Token) (type : FinshTokenType) : Proc Unit :=
  if token.type = type then pure ()
  else do
    errorSet .invalidToken
    tokenReplay

/-- `match_token`. -/
def matchToken (type : FinshTokenType) : Proc Token := do
  let token ← nextToken
  checkToken token type
  return token

/-! ## Nodes -/

/-- What a name stands for: `finsh_var_lookup`, then `finsh_sysvar_lookup`, then `finsh_syscall_lookup`. -/
def lookup (sys : FinshSystem) (vars : List FinshVar) (id : List UInt8) : Option (Byte × Symbol) :=
  match vars.findIdx? fun v => v.name = id with
  | some i =>
    let type := (vars.map FinshVar.type).getD i .unknown
    some (idtypeVar, { ptr := sys.variableBase + BitVec.ofNat 32 (24 * i), type := type })
  | none =>
    match sys.sysvar id with
    | some symbol => some (idtypeSysvar, symbol)
    | none => (sys.syscall id).map fun symbol => (idtypeSyscall, symbol)

/-- `finsh_node_allocate`: whether there is a node. -/
def finshNodeAllocate : Proc Bool := fun s =>
  if s.nodes < nodeMax then some (true, { s with nodes := s.nodes + 1 }) else some (false, s)

/-- A node without a child. -/
def newLeaf (n : FinshNode) : Proc Tree := do
  if ← finshNodeAllocate then return .node n .nil .nil
  else do
    errorSet .memoryFull
    return .nil

/-- The node of an identifier. -/
def idNode (symbol : Byte × Symbol) : FinshNode := { nodeType := .id, idtype := symbol.1, id := some symbol.2 }

/-- `finsh_node_new_id`, from the symbol on that has been found. -/
def newId : Option (Byte × Symbol) → Proc Tree
  | some symbol => newLeaf (idNode symbol)
  | none => do
    errorSet .unknownSymbol
    return .nil

/-- `finsh_node_new_id`. -/
def finshNodeNewId (sys : FinshSystem) (id : List UInt8) : Proc Tree := do newId (lookup sys (← get).vars id)

/-- `finsh_node_new_char`. -/
def finshNodeNewChar (c : Dword) : Proc Tree := newLeaf { nodeType := .valueChar, value := (c.setWidth 8).setWidth 32 }

/-- `finsh_node_new_int`. -/
def finshNodeNewInt (i : Dword) : Proc Tree := newLeaf { nodeType := .valueInt, value := i }

/-- `finsh_node_new_long`. -/
def finshNodeNewLong (l : Dword) : Proc Tree := newLeaf { nodeType := .valueLong, value := l }

/-- `finsh_node_new_ptr`, for `NULL`. -/
def finshNodeNewPtr : Proc Tree := newLeaf { nodeType := .valueNull }

/-- The part of `finsh_node_new_string` behind `finsh_node_allocate`: the pointer that the node gets. -/
def newString (string : List UInt8) : Proc ℕ := fun s =>
  (s.heap.finshNodeNewString (s.vars.map FinshVar.heapVar) string).map fun r => (r.2, { s with heap := r.1 })

/-- `finsh_node_new_string`. -/
def finshNodeNewString (sys : FinshSystem) (string : List UInt8) : Proc Tree := do
  if ← finshNodeAllocate then do
    let ptr ← newString string
    return .node { nodeType := .valueString, value := sys.heapBase + BitVec.ofNat 32 ptr } .nil .nil
  else do
    errorSet .memoryFull
    return .nil

/-- `make_sys_node`. -/
def makeSysNode (type : NodeType) (node1 node2 : Tree) : Proc Tree := do
  let allocated ← finshNodeAllocate
  if allocated = true ∧ node1 ≠ .nil then return Finsh.makeSysNode type node1 node2
  else do
    errorSet .nullNode
    return if allocated then .node { nodeType := type } .nil .nil else .nil

/-! ## Types and identifiers -/

/-- `is_base_type`. -/
def isBaseType : FinshTokenType → Bool
  | .void | .char | .short | .int | .long => true
  | _ => false

/-- The type of a base type. -/
def baseType : FinshTokenType → FinshType
  | .void => .void
  | .char => .char
  | .short => .short
  | .int => .int
  | .long => .long
  | _ => .unknown

/-- The type of a base type behind `unsigned`; there is none for `void`. -/
def unsignedType : FinshTokenType → FinshType
  | .char => .uchar
  | .short => .ushort
  | .int => .uint
  | .long => .ulong
  | _ => .unknown

/-- The type of a pointer. -/
def pointerType : FinshType → FinshType
  | .void => .voidp
  | .char | .uchar => .charp
  | .short | .ushort => .shortp
  | .int | .uint => .intp
  | .long | .ulong => .longp
  | _ => .voidp

/-- `proc_type`, from its label `__return` on. -/
def procTypeFail : Proc FinshType := do
  tokenReplay
  errorSet .unknownType
  return .unknown

/-- The end of `proc_type`, which looks for a pointer. -/
def procTypePointer (type : FinshType) : Proc FinshType := do
  let token ← nextToken
  if token.type = .mul then return pointerType type
  else do
    tokenReplay
    return type

/-- `proc_type`. -/
def procType : Proc FinshType := do
  let token ← nextToken
  if isBaseType token.type then procTypePointer (baseType token.type)
  else if token.type = .unsigned then do
    let token ← nextToken
    if isBaseType token.type then
      -- there is no unsigned void
      if token.type = .void then procTypeFail else procTypePointer (unsignedType token.type)
    else do
      tokenReplay
      errorSet .expectType
      procTypePointer .unknown
  else procTypeFail

/-- `proc_identifier`. The name is copied, whatever the token is. -/
def procIdentifier : Proc (List UInt8) := do
  let token ← matchToken .identifier
  return token.string.take nameMax

/-! ## Expressions -/

/-- `cast->data_type = type`, with the number of the type. -/
def setDataType (type : FinshType) : Tree → Tree
  | .nil => .nil
  | .node n child sibling => .node { n with dataType := BitVec.ofNat 8 type.ctorIdx } child sibling

/-- The fuel of a loop: each round takes a token. -/
def loopFuel : Proc ℕ := return (← get).tokens.length + 2

/-- The node of a binary operator, with an operand that can be missing. -/
def binaryNode (type : NodeType) (left right : Tree) : Proc Tree :=
  if right = .nil then do
    errorSet .expectOperator
    return left
  else makeSysNode type left right

/-- The loop of a procedure for binary operators. -/
def binaryLoop (operand : Proc Tree) (operator : FinshTokenType → Option NodeType) : ℕ → Tree → Token → Proc Tree
  | 0, _, _ => failure
  | fuel + 1, left, token =>
    match operator token.type with
    | some type => do
      let right ← operand
      let left ← binaryNode type left right
      let token ← nextToken
      binaryLoop operand operator fuel left token
    | none => do
      tokenReplay
      return left

/-- A procedure for binary operators, which associate to the left. -/
def procBinaryExpr (operand : Proc Tree) (operator : FinshTokenType → Option NodeType) : Proc Tree := do
  let left ← operand
  let token ← nextToken
  binaryLoop operand operator (← loopFuel) left token

/-- The operators of `proc_multiplicative_expr`. -/
def multiplicativeOperator : FinshTokenType → Option NodeType
  | .mul => some .sysMul
  | .div => some .sysDiv
  | .mod => some .sysMod
  | _ => none

/-- The operators of `proc_additive_expr`. -/
def additiveOperator : FinshTokenType → Option NodeType
  | .sub => some .sysSub
  | .add => some .sysAdd
  | _ => none

/-- The operators of `proc_shift_expr`. -/
def shiftOperator : FinshTokenType → Option NodeType
  | .shl => some .sysShl
  | .shr => some .sysShr
  | _ => none

/-- The operator of `proc_and_expr`. -/
def andOperator : FinshTokenType → Option NodeType
  | .and => some .sysAnd
  | _ => none

/-- The operator of `proc_exclusive_or_expr`. -/
def exclusiveOrOperator : FinshTokenType → Option NodeType
  | .xor => some .sysXor
  | _ => none

/-- The operator of `proc_inclusive_or_expr`. -/
def inclusiveOrOperator : FinshTokenType → Option NodeType
  | .or => some .sysOr
  | _ => none

/-- `proc_multiplicative_expr`. -/
def procMultiplicativeExpr (cast : Proc Tree) : Proc Tree := procBinaryExpr cast multiplicativeOperator

/-- `proc_additive_expr`. -/
def procAdditiveExpr (cast : Proc Tree) : Proc Tree := procBinaryExpr (procMultiplicativeExpr cast) additiveOperator

/-- `proc_shift_expr`. -/
def procShiftExpr (cast : Proc Tree) : Proc Tree := procBinaryExpr (procAdditiveExpr cast) shiftOperator

/-- `proc_and_expr`. -/
def procAndExpr (cast : Proc Tree) : Proc Tree := procBinaryExpr (procShiftExpr cast) andOperator

/-- `proc_exclusive_or_expr`. -/
def procExclusiveOrExpr (cast : Proc Tree) : Proc Tree := procBinaryExpr (procAndExpr cast) exclusiveOrOperator

/-- `proc_inclusive_or_expr`. -/
def procInclusiveOrExpr (cast : Proc Tree) : Proc Tree := procBinaryExpr (procExclusiveOrExpr cast) inclusiveOrOperator

/-- The siblings of a list of nodes. -/
def chain (trees : List Tree) : Tree := trees.foldr Tree.setSibling .nil

/-- One operand more, which can be missing. -/
def addParam (params : List Tree) (next : Tree) : Proc (List Tree) :=
  if next = .nil then do
    errorSet .expectOperator
    return params
  else return params ++ [next]

/-- The loop of `proc_param_list`. -/
def paramLoop (assign : Proc Tree) : ℕ → List Tree → Token → Proc Tree
  | 0, _, _ => failure
  | fuel + 1, params, token =>
    if token.type = .comma then do
      let next ← assign
      let params ← addParam params next
      let token ← nextToken
      paramLoop assign fuel params token
    else do
      tokenReplay
      return chain params

/-- `proc_param_list`. -/
def procParamList (assign : Proc Tree) : Proc Tree := do
  let first ← assign
  if first = .nil then return .nil
  else do
    let token ← nextToken
    paramLoop assign (← loopFuel) [first] token

/-- The operands of a call in `proc_postfix_expr`, with the parenthesis behind them. -/
def procParams (assign : Proc Tree) : Proc Tree := do
  let token ← nextToken
  if token.type = .rightParen then return .nil
  else do
    tokenReplay
    let params ← procParamList assign
    let _ ← matchToken .rightParen
    return params

/-- The loop of `proc_postfix_expr`. -/
def postfixLoop (assign : Proc Tree) : ℕ → Tree → Token → Proc Tree
  | 0, _, _ => failure
  | fuel + 1, node, token =>
    if token.type = .inc then do
      let node ← makeSysNode .sysInc node .nil
      postfixLoop assign fuel node (← nextToken)
    else if token.type = .dec then do
      let node ← makeSysNode .sysDec node .nil
      postfixLoop assign fuel node (← nextToken)
    else if token.type = .leftParen then do
      let params ← procParams assign
      let node ← makeSysNode .sysFunc node params
      postfixLoop assign fuel node (← nextToken)
    else do
      tokenReplay
      return node

variable (sys : FinshSystem)

/-- `proc_primary_expr`. -/
def procPrimaryExpr (assign : Proc Tree) : Proc Tree := do
  let token ← nextToken
  match token.type with
  | .identifier => do
    tokenReplay
    let id ← procIdentifier
    finshNodeNewId sys id
  | .leftParen => do
    let expr ← assign
    let _ ← matchToken .rightParen
    return expr
  | .valueInt => finshNodeNewInt token.value
  | .valueLong => finshNodeNewLong token.value
  | .valueChar => finshNodeNewChar token.value
  | .valueString => finshNodeNewString sys token.string
  | .valueNull => finshNodeNewPtr
  | _ => do
    errorSet .invalidToken
    return .nil

/-- `proc_postfix_expr`. -/
def procPostfixExpr (assign : Proc Tree) : Proc Tree := do
  let node ← procPrimaryExpr sys assign
  let token ← nextToken
  postfixLoop assign (← loopFuel) node token

/-- `proc_unary_expr`. -/
def procUnaryExpr (cast assign : Proc Tree) : Proc Tree := do
  let token ← nextToken
  match token.type with
  | .add => cast
  | .inc => do makeSysNode .sysPreinc (← cast) .nil
  | .sub => do
    let operand ← cast
    let zero ← finshNodeNewLong 0
    makeSysNode .sysSub zero operand
  | .dec => do makeSysNode .sysPredec (← cast) .nil
  | .bitwise => do makeSysNode .sysBitwise (← cast) .nil
  | .mul => do makeSysNode .sysGetvalue (← cast) .nil
  | .and => do makeSysNode .sysGetaddr (← cast) .nil
  | _ => do
    tokenReplay
    procPostfixExpr sys assign

/-- `proc_cast_expr`, with itself and `proc_assign_expr` for the calls behind a parenthesis. -/
def procCastExprWith (cast assign : Proc Tree) : Proc Tree := do
  let token ← nextToken
  if token.type = .leftParen then do
    let type ← procType
    let _ ← matchToken .rightParen
    let operand ← cast
    if operand = .nil then do
      tokenReplay
      procUnaryExpr sys cast assign
    else return setDataType type operand
  else do
    tokenReplay
    procUnaryExpr sys cast assign

/-- `proc_assign_expr`, with `proc_cast_expr` and itself. -/
def procAssignExprWith (cast assign : Proc Tree) : Proc Tree := do
  let left ← procInclusiveOrExpr cast
  let token ← nextToken
  if token.type = .assign then do
    let value ← assign
    makeSysNode .sysAssign left value
  else do
    tokenReplay
    return left

/-- `proc_cast_expr` and `proc_assign_expr`, with fuel for their calls of each other. -/
def procs : ℕ → Proc Tree × Proc Tree
  | 0 => (failure, failure)
  | fuel + 1 =>
    let (cast, assign) := procs fuel
    (procCastExprWith sys cast assign, procAssignExprWith cast assign)

/-- `proc_expr`, which is `proc_assign_expr`: a call inside a call takes a token. -/
def procExpr : Proc Tree := do (procs sys (2 * (← get).tokens.length + 4)).2

end FinshParser

end CoreLink.Shell.Finsh
