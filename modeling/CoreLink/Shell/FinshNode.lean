/-
# `CoreLink.Shell.FinshNode` — the syntax trees of `components/finsh/finsh_node.h`.

The parser of the shell hands a tree to the compiler whose nodes are linked by first child and next sibling: the operands
of a node are its first child and the siblings of that child. `Tree` is such a tree (a null pointer is `Tree.nil`), with
the data of each node as `struct finsh_node` has it.
-/
import Mathlib.Data.Nat.Notation

namespace CoreLink.Shell.Finsh

/-- A byte, `uint8_t`. -/
abbrev Byte := BitVec 8

/-- A `long`, or a pointer. -/
abbrev Dword := BitVec 32

/-! ## Types -/

/-- `enum finsh_type`. -/
inductive FinshType
  | unknown | void | voidp | char | uchar | charp | short | ushort | shortp
  | int | uint | intp | long | ulong | longp
  deriving DecidableEq, Repr

/-- The three widths of the instructions. -/
inductive Width
  | byte | word | dword
  deriving DecidableEq, Repr

/-- `FINSH_DATA_TYPE_VOID`, the type of a node before the type check. -/
def dataTypeVoid : Byte := 0

/-- `FINSH_DATA_TYPE_BYTE`, `FINSH_DATA_TYPE_WORD`, `FINSH_DATA_TYPE_DWORD`. -/
def Width.dataType : Width → Byte
  | .byte => 1
  | .word => 2
  | .dword => 3

/-- The width that a `switch` over the three data types picks; `none` is its default. -/
def Width.ofDataType (d : Byte) : Option Width :=
  if d = Width.dataType .byte then some .byte
  else if d = Width.dataType .word then some .word
  else if d = Width.dataType .dword then some .dword
  else none

@[simp] theorem Width.ofDataType_dataType (w : Width) : Width.ofDataType w.dataType = some w := by
  cases w <;> rfl

/-! ## Identifiers -/

/-- What an identifier stands for: a `finsh_var`, a `finsh_sysvar` or a `finsh_syscall`. `target` is the field `var` of
the second and the field `func` of the third. -/
structure Symbol where
  ptr : Dword
  type : FinshType := .unknown
  target : Dword := 0
  deriving DecidableEq, Repr

/-- `&(var->value)`: a `finsh_var` is a name of `FINSH_NAME_MAX + 1 = 17` bytes, a byte for the type, and the value at
the next multiple of four. -/
def Symbol.valueAddr (var : Symbol) : Dword := var.ptr + 20

/-- `FINSH_IDTYPE_VAR`. -/
def idtypeVar : Byte := 0x01

/-- `FINSH_IDTYPE_SYSVAR`. -/
def idtypeSysvar : Byte := 0x02

/-- `FINSH_IDTYPE_SYSCALL`. -/
def idtypeSyscall : Byte := 0x04

/-- `FINSH_IDTYPE_ADDRESS`. -/
def idtypeAddress : Byte := 0x08

/-- `FINSH_NODE_VALUE`, what the type check hands to a node whose value is wanted. -/
def nodeValue : Byte := 0

/-! ## Nodes -/

/-- The operators with two operands. -/
inductive BinOp
  | add | sub | mul | div | mod | and | or | xor | shl | shr
  deriving DecidableEq, Repr

/-- `FINSH_NODE_UNKNOWN`, `FINSH_NODE_ID`, …: the kinds of node. -/
inductive NodeType
  | unknown | id
  | valueChar | valueInt | valueLong | valueString | valueNull
  | sysAdd | sysSub | sysMul | sysDiv | sysMod | sysAnd | sysOr | sysXor | sysBitwise | sysShl | sysShr
  | sysFunc | sysAssign | sysCast | sysPreinc | sysPredec | sysInc | sysDec | sysGetvalue | sysGetaddr | sysNull
  deriving DecidableEq, Repr

/-- The node of an operator with two operands. -/
def BinOp.node : BinOp → NodeType
  | .add => .sysAdd
  | .sub => .sysSub
  | .mul => .sysMul
  | .div => .sysDiv
  | .mod => .sysMod
  | .and => .sysAnd
  | .or => .sysOr
  | .xor => .sysXor
  | .shl => .sysShl
  | .shr => .sysShr

/-- `struct finsh_node`, without its links. `value` is the union of the literals, `id` the union of the symbols. -/
structure FinshNode where
  nodeType : NodeType
  dataType : Byte := dataTypeVoid
  idtype : Byte := 0
  value : Dword := 0
  id : Option Symbol := none
  deriving DecidableEq, Repr

/-- A node with its links: `finsh_node_child` and `finsh_node_sibling`. -/
inductive Tree
  | nil
  | node (n : FinshNode) (child sibling : Tree)
  deriving DecidableEq, Repr

namespace Tree

/-- The node that a pointer points to. -/
def head : Tree → Option FinshNode
  | nil => none
  | node n _ _ => some n

/-- How many nodes a pointer and its siblings make. -/
def siblings : Tree → ℕ
  | nil => 0
  | node _ _ sibling => sibling.siblings + 1

/-- `finsh_node_sibling(node) = sibling`. -/
def setSibling (t sibling : Tree) : Tree :=
  match t with
  | nil => nil
  | node n child _ => node n child sibling

end Tree

/-! ## What the parser makes -/

/-- `finsh_node_new_id`, for an identifier that is a variable. -/
def finshNodeNewId (var : Symbol) : Tree := .node { nodeType := .id, idtype := idtypeVar, id := some var } .nil .nil

/-- `finsh_node_new_int`. -/
def finshNodeNewInt (i : Dword) : Tree := .node { nodeType := .valueInt, value := i } .nil .nil

/-- `finsh_node_new_long`. -/
def finshNodeNewLong (l : Dword) : Tree := .node { nodeType := .valueLong, value := l } .nil .nil

/-- `make_sys_node`, for a `node1` that is not null. -/
def makeSysNode (type : NodeType) (node1 node2 : Tree) : Tree := .node { nodeType := type } (node1.setSibling node2) .nil

end CoreLink.Shell.Finsh
