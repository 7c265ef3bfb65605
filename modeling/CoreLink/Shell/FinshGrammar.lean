/-
# `CoreLink.Shell.FinshGrammar` — the expressions that the comments of `components/finsh/finsh_parser.c` describe.

A derivation of the grammar has a constructor for each production, its tokens, and the tree that it stands for: operators bind
in the order of the levels, and the binary ones associate to the left. A cast has no node of its own, but is the data type of
its operand. A string is copied to the heap where it stands, so that the tree has pointers and a heap goes along.
-/
import CoreLink.Shell.FinshParser

namespace CoreLink.Shell.Finsh

open RtThread

/-! ## Terminals -/

/-- The token of a punctuation mark or an operator. -/
def mark (type : FinshTokenType) : Token := { type := type }

/-- The token of a keyword. -/
def keyword (type : FinshTokenType) (text : String) : Token where
  type := type
  string := text.toList.map fun c => UInt8.ofNat c.toNat

/-- `type_basic`, with `LONG`. -/
inductive BaseType where
  | void | char | short | int | long
  deriving DecidableEq

def BaseType.token : BaseType → Token
  | void => keyword .void "void"
  | char => keyword .char "char"
  | short => keyword .short "short"
  | int => keyword .int "int"
  | long => keyword .long "long"

/-- A type, which can be a pointer. -/
structure TypeName where
  isUnsigned : Bool
  base : BaseType
  isPointer : Bool

namespace TypeName

def tokens (type : TypeName) : List Token :=
  (if type.isUnsigned then [keyword .unsigned "unsigned"] else []) ++ type.base.token ::
    if type.isPointer then [mark .mul] else []

/-- The type without the pointer; there is no `unsigned void`. -/
def simple (type : TypeName) : FinshType :=
  match type.base, type.isUnsigned with
  | .void, false => .void
  | .void, true => .unknown
  | .char, false => .char
  | .char, true => .uchar
  | .short, false => .short
  | .short, true => .ushort
  | .int, false => .int
  | .int, true => .uint
  | .long, false => .long
  | .long, true => .ulong

def finshType (type : TypeName) : FinshType :=
  if type.isPointer then FinshParser.pointerType type.simple else type.simple

/-- It is not `unsigned void`. -/
def Ok (type : TypeName) : Prop := ¬(type.base = .void ∧ type.isUnsigned = true)

end TypeName

/-- A literal. -/
inductive LiteralToken where
  | int (v : Dword)
  | long (v : Dword)
  | char (v : Dword)
  | string (bytes : List UInt8)
  | null

def LiteralToken.token : LiteralToken → Token
  | int v => { type := .valueInt, value := v }
  | long v => { type := .valueLong, value := v }
  | char v => { type := .valueChar, value := v }
  | string bytes => { type := .valueString, string := bytes }
  | null => mark .valueNull

/-- The levels of the binary operators, from the weakest on. -/
inductive Level where
  | inclusiveOr | exclusiveOr | and | shift | additive | multiplicative
  deriving DecidableEq

/-- The operators of a level. -/
inductive Level.Operator : Level → Type where
  | or : Operator .inclusiveOr
  | xor : Operator .exclusiveOr
  | and : Operator .and
  | shl : Operator .shift
  | shr : Operator .shift
  | sub : Operator .additive
  | add : Operator .additive
  | mul : Operator .multiplicative
  | div : Operator .multiplicative
  | mod : Operator .multiplicative

namespace Level.Operator

def type : {level : Level} → level.Operator → FinshTokenType
  | _, or => .or
  | _, xor => .xor
  | _, and => .and
  | _, shl => .shl
  | _, shr => .shr
  | _, sub => .sub
  | _, add => .add
  | _, mul => .mul
  | _, div => .div
  | _, mod => .mod

def node : {level : Level} → level.Operator → NodeType
  | _, or => .sysOr
  | _, xor => .sysXor
  | _, and => .sysAnd
  | _, shl => .sysShl
  | _, shr => .sysShr
  | _, sub => .sysSub
  | _, add => .sysAdd
  | _, mul => .sysMul
  | _, div => .sysDiv
  | _, mod => .sysMod

end Level.Operator

/-- The operators in front of their operand. -/
inductive UnaryOp where
  | add | inc | sub | dec | bitwise | mul | and

namespace UnaryOp

def type : UnaryOp → FinshTokenType
  | add => .add
  | inc => .inc
  | sub => .sub
  | dec => .dec
  | bitwise => .bitwise
  | mul => .mul
  | and => .and

/-- How many nodes the operator needs. -/
def size : UnaryOp → ℕ
  | add => 0
  | sub => 2
  | _ => 1

/-- The tree, from that of the operand: there is no node for `+`, and `-` subtracts from 0. -/
def tree (t : Tree) : UnaryOp → Tree
  | add => t
  | inc => makeSysNode .sysPreinc t .nil
  | sub => makeSysNode .sysSub (finshNodeNewLong 0) t
  | dec => makeSysNode .sysPredec t .nil
  | bitwise => makeSysNode .sysBitwise t .nil
  | mul => makeSysNode .sysGetvalue t .nil
  | and => makeSysNode .sysGetaddr t .nil

end UnaryOp

/-! ## Derivations -/

/-- The nonterminals; `binary` are those of the binary operators. -/
inductive Nonterminal where
  | assign | binary (level : Level) | cast | unary | postfixed | primary | params

/-- What the operands of a level are. -/
def Level.operand : Level → Nonterminal
  | inclusiveOr => .binary .exclusiveOr
  | exclusiveOr => .binary .and
  | and => .binary .shift
  | shift => .binary .additive
  | additive => .binary .multiplicative
  | multiplicative => .cast

/-- **Derivations**: a constructor for each production of the comments. -/
inductive Derivation : Nonterminal → Type where
  | value (e : Derivation (.binary .inclusiveOr)) : Derivation .assign
  | assign (target : Derivation .unary) (e : Derivation .assign) : Derivation .assign
  | operand {level : Level} (e : Derivation level.operand) : Derivation (.binary level)
  | binary {level : Level} (left : Derivation (.binary level)) (op : level.Operator) (right : Derivation level.operand) :
      Derivation (.binary level)
  | uncast (e : Derivation .unary) : Derivation .cast
  | cast (type : TypeName) (e : Derivation .cast) : Derivation .cast
  | plain (e : Derivation .postfixed) : Derivation .unary
  | unary (op : UnaryOp) (e : Derivation .cast) : Derivation .unary
  | primary (e : Derivation .primary) : Derivation .postfixed
  | inc (e : Derivation .postfixed) : Derivation .postfixed
  | dec (e : Derivation .postfixed) : Derivation .postfixed
  | call (e : Derivation .postfixed) (params : Derivation .params) : Derivation .postfixed
  | literal (lit : LiteralToken) : Derivation .primary
  | paren (e : Derivation .assign) : Derivation .primary
  | identifier (name : List UInt8) : Derivation .primary
  | empty : Derivation .params
  | param (e : Derivation .assign) : Derivation .params
  | comma (params : Derivation .params) (e : Derivation .assign) : Derivation .params

/-- The siblings of a node, and one behind them. -/
def Tree.addSibling : Tree → Tree → Tree
  | nil, t => t
  | node n child sibling, t => node n child (sibling.addSibling t)

namespace Derivation

/-- The tokens. -/
def tokens : {symbol : Nonterminal} → Derivation symbol → List Token
  | _, value e => e.tokens
  | _, assign target e => target.tokens ++ mark .assign :: e.tokens
  | _, operand e => e.tokens
  | _, binary left op right => left.tokens ++ mark op.type :: right.tokens
  | _, uncast e => e.tokens
  | _, cast type e => mark .leftParen :: (type.tokens ++ mark .rightParen :: e.tokens)
  | _, plain e => e.tokens
  | _, unary op e => mark op.type :: e.tokens
  | _, primary e => e.tokens
  | _, inc e => e.tokens ++ [mark .inc]
  | _, dec e => e.tokens ++ [mark .dec]
  | _, call e params => e.tokens ++ mark .leftParen :: (params.tokens ++ [mark .rightParen])
  | _, literal lit => [lit.token]
  | _, paren e => mark .leftParen :: (e.tokens ++ [mark .rightParen])
  | _, identifier name => [{ type := .identifier, string := name }]
  | _, empty => []
  | _, param e => e.tokens
  | _, comma params e => params.tokens ++ mark .comma :: e.tokens

/-- How many nodes the tree has. -/
def size : {symbol : Nonterminal} → Derivation symbol → ℕ
  | _, value e => e.size
  | _, assign target e => target.size + e.size + 1
  | _, operand e => e.size
  | _, binary left _ right => left.size + right.size + 1
  | _, uncast e => e.size
  | _, cast _ e => e.size
  | _, plain e => e.size
  | _, unary op e => e.size + op.size
  | _, primary e => e.size
  | _, inc e => e.size + 1
  | _, dec e => e.size + 1
  | _, call e params => e.size + params.size + 1
  | _, literal _ => 1
  | _, paren e => e.size
  | _, identifier _ => 1
  | _, empty => 0
  | _, param e => e.size
  | _, comma params e => params.size + e.size

/-- The identifiers are known. -/
def Known (sys : FinshSystem) (vars : List FinshVar) : {symbol : Nonterminal} → Derivation symbol → Prop
  | _, value e => e.Known sys vars
  | _, assign target e => target.Known sys vars ∧ e.Known sys vars
  | _, operand e => e.Known sys vars
  | _, binary left _ right => left.Known sys vars ∧ right.Known sys vars
  | _, uncast e => e.Known sys vars
  | _, cast _ e => e.Known sys vars
  | _, plain e => e.Known sys vars
  | _, unary _ e => e.Known sys vars
  | _, primary e => e.Known sys vars
  | _, inc e => e.Known sys vars
  | _, dec e => e.Known sys vars
  | _, call e params => e.Known sys vars ∧ params.Known sys vars
  | _, literal _ => True
  | _, paren e => e.Known sys vars
  | _, identifier name => (FinshParser.lookup sys vars (name.take nameMax)).isSome
  | _, empty => True
  | _, param e => e.Known sys vars
  | _, comma params e => params.Known sys vars ∧ e.Known sys vars

/-- The string literals, in the order of the text. -/
def strings : {symbol : Nonterminal} → Derivation symbol → List (List UInt8)
  | _, value e => e.strings
  | _, assign target e => target.strings ++ e.strings
  | _, operand e => e.strings
  | _, binary left _ right => left.strings ++ right.strings
  | _, uncast e => e.strings
  | _, cast _ e => e.strings
  | _, plain e => e.strings
  | _, unary _ e => e.strings
  | _, primary e => e.strings
  | _, inc e => e.strings
  | _, dec e => e.strings
  | _, call e params => e.strings ++ params.strings
  | _, literal (.string bytes) => [bytes]
  | _, literal _ => []
  | _, paren e => e.strings
  | _, identifier _ => []
  | _, empty => []
  | _, param e => e.strings
  | _, comma params e => params.strings ++ e.strings

/-- It is the empty list of operands. -/
def IsEmpty : {symbol : Nonterminal} → Derivation symbol → Prop
  | _, empty => True
  | _, _ => False

/-- **What the parser knows**: no expression in parentheses, no cast to `unsigned void`, and no missing operand in front of a
comma. -/
def Plain : {symbol : Nonterminal} → Derivation symbol → Prop
  | _, value e => e.Plain
  | _, assign target e => target.Plain ∧ e.Plain
  | _, operand e => e.Plain
  | _, binary left _ right => left.Plain ∧ right.Plain
  | _, uncast e => e.Plain
  | _, cast type e => type.Ok ∧ e.Plain
  | _, plain e => e.Plain
  | _, unary _ e => e.Plain
  | _, primary e => e.Plain
  | _, inc e => e.Plain
  | _, dec e => e.Plain
  | _, call e params => e.Plain ∧ params.Plain
  | _, literal _ => True
  | _, paren _ => False
  | _, identifier _ => True
  | _, empty => True
  | _, param e => e.Plain
  | _, comma params e => ¬params.IsEmpty ∧ params.Plain ∧ e.Plain

section Trees

variable (sys : FinshSystem) (vars : List FinshVar)

/-- The tree of a literal. -/
def literalTree : LiteralToken → StateT FinshHeap Option Tree
  | .int v => return finshNodeNewInt v
  | .long v => return finshNodeNewLong v
  | .char v => return .node { nodeType := .valueChar, value := (v.setWidth 8).setWidth 32 } .nil .nil
  | .string bytes => fun heap => (heap.finshNodeNewString (vars.map FinshVar.heapVar) bytes).map fun r =>
    (.node { nodeType := .valueString, value := sys.heapBase + BitVec.ofNat 32 r.2 } .nil .nil, r.1)
  | .null => return .node { nodeType := .valueNull } .nil .nil

/-- The tree of an identifier. -/
def identifierTree (name : List UInt8) : Tree :=
  match FinshParser.lookup sys vars (name.take nameMax) with
  | some symbol => .node (FinshParser.idNode symbol) .nil .nil
  | none => .nil

/-- **The tree**; that of the operands of a call is the first one, with the others as its siblings. -/
def tree : {symbol : Nonterminal} → Derivation symbol → StateT FinshHeap Option Tree
  | _, value e => e.tree
  | _, assign target e => do
    let left ← target.tree
    return makeSysNode .sysAssign left (← e.tree)
  | _, operand e => e.tree
  | _, binary left op right => do
    let left ← left.tree
    return makeSysNode op.node left (← right.tree)
  | _, uncast e => e.tree
  | _, cast type e => return FinshParser.setDataType type.finshType (← e.tree)
  | _, plain e => e.tree
  | _, unary op e => return op.tree (← e.tree)
  | _, primary e => e.tree
  | _, inc e => return makeSysNode .sysInc (← e.tree) .nil
  | _, dec e => return makeSysNode .sysDec (← e.tree) .nil
  | _, call e params => do
    let e ← e.tree
    return makeSysNode .sysFunc e (← params.tree)
  | _, literal lit => literalTree sys vars lit
  | _, paren e => e.tree
  | _, identifier name => return identifierTree sys vars name
  | _, empty => return .nil
  | _, param e => e.tree
  | _, comma params e => do
    let params ← params.tree
    return params.addSibling (← e.tree)

end Trees

end Derivation

end CoreLink.Shell.Finsh
