/-
# `CoreLink.Shell.FinshCompiler` — the compiler of `components/finsh/finsh_compiler.c`.

A pass over the tree first hands the wish for an address down to the identifiers that are assigned to, and hands the
widths up from the identifiers and literals. The code of a node then follows that of its child (and of the siblings of
the child: the operands), and comes before that of its sibling. The emitter checks no bound: `finshCompilerRun` has no
result where the code is longer than the text segment.
-/
import CoreLink.Shell.FinshNode
import Mathlib.Logic.Function.Basic

namespace CoreLink.Shell.Finsh

/-! ## The instructions: `finsh_ops.h` -/

/-- `FINSH_TEXT_MAX`. -/
def textMax : ℕ := 128

/-- The distance of the opcode of a width from that of the bytes, in a family of three. -/
def Width.offset : Width → Byte
  | .byte => 0
  | .word => 1
  | .dword => 2

/-- `FINSH_OP_ADD_BYTE`, `FINSH_OP_SUB_BYTE`, …. -/
def BinOp.opByte : BinOp → Byte
  | .add => 0x01
  | .sub => 0x04
  | .div => 0x07
  | .mod => 0x0A
  | .mul => 0x0D
  | .and => 0x10
  | .or => 0x13
  | .xor => 0x16
  | .shl => 0x1C
  | .shr => 0x1F

/-- `FINSH_OP_ADD_BYTE`, `FINSH_OP_ADD_WORD`, `FINSH_OP_ADD_DWORD`, and so on. -/
def BinOp.op (f : BinOp) (w : Width) : Byte := f.opByte + w.offset

/-- `FINSH_OP_BITWISE_BYTE`, …. -/
def opBitwise (w : Width) : Byte := 0x19 + w.offset

/-- `FINSH_OP_LD_BYTE`, …. -/
def opLd (w : Width) : Byte := 0x22 + w.offset

/-- `FINSH_OP_LD_VALUE_BYTE`, …. -/
def opLdValue (w : Width) : Byte := 0x25 + w.offset

/-- `FINSH_OP_ST_BYTE`, …. -/
def opSt (w : Width) : Byte := 0x28 + w.offset

/-- `FINSH_OP_POP`. -/
def opPop : Byte := 0x2B

/-- `FINSH_OP_SYSCALL`. -/
def opSyscall : Byte := 0x2C

/-- `FINSH_OP_LD_VALUE_BYTE_STACK`, …. -/
def opLdValueStack (w : Width) : Byte := 0x2D + w.offset

/-- `finsh_code_word`: `FINSH_SET16`. -/
def codeWord (x : BitVec 16) : List Byte := [x.extractLsb' 0 8, x.extractLsb' 8 8]

/-- `finsh_code_dword`: `FINSH_SET32`. -/
def codeDword (x : Dword) : List Byte :=
  [x.extractLsb' 0 8, x.extractLsb' 8 8, x.extractLsb' 16 8, x.extractLsb' 24 8]

@[simp] theorem codeDword_length (x : Dword) : (codeDword x).length = 4 := rfl

/-! ## `finsh_type_check` -/

/-- The data type of an identifier of a type. There is none for a type that is not known, which is an error. -/
def FinshType.dataType : FinshType → Option Byte
  | .unknown => none
  | .void => some dataTypeVoid
  | .char | .uchar => some (Width.dataType .byte)
  | .short | .ushort => some (Width.dataType .word)
  | .int | .uint | .long | .ulong => some (Width.dataType .dword)
  | .charp | .voidp | .shortp | .intp | .longp => some (Width.dataType .dword)

/-- What is handed to the child of a node of a kind. -/
def childAddr (type : NodeType) (isAddr : Byte) : Byte :=
  match type with
  | .sysAssign | .sysPreinc | .sysPredec | .sysGetaddr => idtypeAddress
  -- the attribute of a dereference on the left of an assignment stays with the dereference
  | .sysGetvalue => if isAddr ≠ 0 then 0 else isAddr
  | _ => isAddr

/-- Whether a node is an identifier that the check takes for a variable or a system variable. -/
def FinshNode.isVariable (n : FinshNode) : Bool :=
  n.idtype &&& idtypeVar != 0 || n.idtype &&& idtypeSysvar != 0

/-- The data type of a node without a child. -/
def leafType (n : FinshNode) : Byte :=
  match n.nodeType with
  | .id =>
    if n.isVariable then (n.id.bind fun s => s.type.dataType).getD n.dataType
    else n.dataType
  | .valueChar => Width.dataType .byte
  | .valueInt | .valueLong | .valueString | .valueNull => Width.dataType .dword
  | _ => n.dataType

/-- `node->idtype |= is_addr`, which leaves system calls alone. -/
def FinshNode.setAddr (n : FinshNode) (isAddr : Byte) : FinshNode :=
  if n.idtype ≠ idtypeSyscall then { n with idtype := n.idtype ||| isAddr } else n

/-- The attributes of a node, after those of its child. -/
def setAttributes (n : FinshNode) (child : Tree) (isAddr : Byte) : FinshNode :=
  let n := n.setAddr isAddr
  match child.head with
  | some c => { n with dataType := c.dataType }
  | none => { n with dataType := leafType n }

/-- `finsh_type_check`. -/
def finshTypeCheck : Tree → Byte → Tree
  | .nil, _ => .nil
  | .node n child sibling, isAddr =>
    let child := finshTypeCheck child (childAddr n.nodeType isAddr)
    .node (setAttributes n child isAddr) child (finshTypeCheck sibling nodeValue)

/-- Whether `finsh_type_check` sets `FINSH_ERROR_UNKNOWN_TYPE`. -/
def typeCheckError : Tree → Byte → Bool
  | .nil, _ => false
  | .node n child sibling, isAddr =>
    typeCheckError child (childAddr n.nodeType isAddr) || typeCheckError sibling nodeValue ||
      (child.head.isNone && n.nodeType == .id && (n.setAddr isAddr).isVariable &&
        n.id.any fun s => s.type.dataType.isNone)

/-! ## `finsh_compile` -/

/-- The width in which an identifier of a type is loaded; types without one get no instruction. -/
def FinshType.loadWidth : FinshType → Option Width
  | .char | .uchar => some .byte
  | .short | .ushort => some .word
  | .int | .uint | .long | .ulong => some .dword
  | .charp | .shortp | .intp | .longp => some .dword
  | .unknown | .void | .voidp => none

/-- The load of the address or of the value of an identifier. -/
def codeLoadId (idtype : Byte) (type : FinshType) (addr : Dword) : List Byte :=
  match type.loadWidth with
  | none => []
  | some w => (if idtype &&& idtypeAddress ≠ 0 then opLd .dword else opLdValue w) :: codeDword addr

/-- The code of `FINSH_NODE_ID`. -/
def codeId (n : FinshNode) : List Byte :=
  match n.id with
  | none => []
  | some s =>
    if n.idtype &&& idtypeSyscall ≠ 0 then opLd .dword :: codeDword s.target
    else if n.idtype &&& idtypeSysvar ≠ 0 then codeLoadId n.idtype s.type s.target
    else codeLoadId n.idtype s.type s.valueAddr

/-- The code of an instruction that comes in three widths. -/
def codeOp (op : Width → Byte) (dataType : Byte) : List Byte :=
  match Width.ofDataType dataType with
  | none => []
  | some w => [op w]

/-- The literal one, in a width. -/
def codeOne : Width → List Byte
  | .byte => [opLd .byte, 1]
  | .word => opLd .word :: codeWord 1
  | .dword => opLd .dword :: codeDword 1

/-- `&(var->value)` of the identifier below an increment or decrement. The emitter takes the pointer for that of a
`finsh_var`, whatever the identifier is. -/
def childVar (child : Tree) : Option Dword :=
  match child.head with
  | some c => if c.nodeType = .id then c.id.map Symbol.valueAddr else none
  | none => none

/-- The code of `++id` and `--id`: the address is below. The last instruction reloads a double word in every width. -/
def codePre (op : BinOp) (n : FinshNode) (child : Tree) : List Byte :=
  match childVar child, Width.ofDataType n.dataType with
  | some var, some w =>
    opLdValue w :: codeDword var ++ codeOne w ++ [op.op w, opSt w, opLdValueStack .dword]
  | _, _ => []

/-- The code of `id++` and `id--`: the old value is below. -/
def codePost (op : BinOp) (n : FinshNode) (child : Tree) : List Byte :=
  match childVar child, Width.ofDataType n.dataType with
  | some var, some w =>
    opLd .dword :: codeDword var ++ (opLdValue w :: codeDword var) ++ codeOne w ++ [op.op w, opSt w, opPop]
  | _, _ => []

/-- The width of an assignment: that of the identifier, or of the dereferenced pointer. -/
def assignWidth (child : Tree) : Option Width :=
  match child.head with
  | none => none
  | some c =>
    match c.nodeType with
    | .id => Width.ofDataType c.dataType
    | .sysGetvalue => Width.ofDataType (c.dataType &&& 0x0F)
    | _ => none

/-- The code of one node, after that of its child. -/
def codeNode (n : FinshNode) (child : Tree) : List Byte :=
  match n.nodeType with
  | .id => codeId n
  | .valueChar => [opLd .byte, n.value.setWidth 8]
  | .valueInt | .valueLong | .valueNull | .valueString => opLd .dword :: codeDword n.value
  | .sysAdd => codeOp BinOp.add.op n.dataType
  | .sysSub => codeOp BinOp.sub.op n.dataType
  | .sysMul => codeOp BinOp.mul.op n.dataType
  | .sysDiv => codeOp BinOp.div.op n.dataType
  | .sysMod => codeOp BinOp.mod.op n.dataType
  | .sysAnd => codeOp BinOp.and.op n.dataType
  | .sysOr => codeOp BinOp.or.op n.dataType
  | .sysXor => codeOp BinOp.xor.op n.dataType
  | .sysBitwise => codeOp opBitwise n.dataType
  | .sysShl => codeOp BinOp.shl.op n.dataType
  | .sysShr => codeOp BinOp.shr.op n.dataType
  | .sysFunc => if child.siblings = 0 then [] else [opSyscall, BitVec.ofNat 8 (child.siblings - 1)]
  | .sysAssign =>
    match assignWidth child with
    | some w => [opSt w, opLdValueStack w]
    | none => []
  | .sysPreinc => codePre .add n child
  | .sysPredec => codePre .sub n child
  | .sysInc => codePost .add n child
  | .sysDec => codePost .sub n child
  | .sysNull => codeDword 0
  | .sysGetvalue => if n.idtype &&& idtypeAddress ≠ 0 then [] else codeOp opLdValueStack n.dataType
  | .sysGetaddr => []
  | .sysCast | .unknown => []

/-- `finsh_compile`. -/
def finshCompile : Tree → List Byte
  | .nil => []
  | .node n child sibling => finshCompile child ++ codeNode n child ++ finshCompile sibling

/-- Whether the code of one node sets an error: `FINSH_ERROR_UNKNOWN_TYPE` for an assignment of no width,
`FINSH_ERROR_UNKNOWN_NODE` for a kind of node without code. -/
def codeNodeError (n : FinshNode) (child : Tree) : Bool :=
  match n.nodeType with
  | .sysAssign =>
    match child.head with
    | some c => (c.nodeType == .id || c.nodeType == .sysGetvalue) && (assignWidth child).isNone
    | none => false
  | .sysCast | .unknown => true
  | _ => false

/-- Whether `finsh_compile` sets an error. -/
def compileError : Tree → Bool
  | .nil => false
  | .node n child sibling => compileError child || codeNodeError n child || compileError sibling

/-! ## `finsh_compiler_run` -/

/-- The loop over the statements. A `FINSH_OP_POP` follows each but the last. -/
def compileStatements : Tree → List Byte
  | .nil => []
  | .node n child sibling =>
    finshCompile (.node n child .nil) ++ (if sibling.siblings = 0 then [] else [opPop]) ++ compileStatements sibling

/-- The code of a list of statements. -/
def finshCode (node : Tree) : List Byte := compileStatements (finshTypeCheck node nodeValue)

/-- Whether `finsh_errno` is not `FINSH_ERROR_OK` after the compiler. -/
def finshErrno (node : Tree) : Bool := typeCheckError node nodeValue || compileError (finshTypeCheck node nodeValue)

/-- `finsh_compiler_run`: the text segment and the stack after it. There are none where the emitter writes past the end
of the text segment. -/
def finshCompilerRun (node : Tree) (stack : ℕ → Dword) : Option (List Byte × (ℕ → Dword)) :=
  if (finshCode node).length ≤ textMax then
    some (finshCode node ++ List.replicate (textMax - (finshCode node).length) 0, Function.update stack 0 0)
  else none

end CoreLink.Shell.Finsh
