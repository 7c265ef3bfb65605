/-
# `CoreLink.Shell.FinshExpr` — the expressions of the shell over `int` and `long` variables, and their code.

`Expr` has the expressions made of integer literals, declared variables, the operators with two operands, `-` and `~`,
assignments to a variable, and `++` and `--` before and after one. `Expr.eval` is their meaning: the operands from left
to right, each result taken modulo `2 ^ 32`. `Expr.tree` is the tree that the parser makes of an expression, with its own
`make_sys_node`, and `finshCode_tree` is what the compiler makes of a list of such trees.
-/
import CoreLink.Shell.FinshVm
import Mathlib.Data.List.Basic

namespace CoreLink.Shell.Finsh

/-! ## The variables -/

/-- `FINSH_VARIABLE_MAX`. -/
abbrev varMax : ℕ := 8

/-- `global_variable`: an array of variables of 24 bytes each, that lies in the address space. -/
structure VarTable where
  base : ℕ
  type : Fin varMax → FinshType
  fits : base + varMax * 24 ≤ 2 ^ 32

namespace VarTable

/-- `&global_variable[x]`. -/
def var (table : VarTable) (x : Fin varMax) : Symbol where
  ptr := BitVec.ofNat 32 (table.base + 24 * x)
  type := table.type x

/-- Where the value of a variable lies. -/
def addr (table : VarTable) (x : Fin varMax) : ℕ := table.base + 24 * x + 20

/-- The address that the compiler puts into the code. -/
theorem toNat_valueAddr (table : VarTable) (x : Fin varMax) : (table.var x).valueAddr.toNat = table.addr x := by
  have hx := x.isLt
  have hfits := table.fits
  rw [Symbol.valueAddr, var, BitVec.toNat_add, BitVec.toNat_ofNat, addr]
  have h20 : (20 : Dword).toNat = 20 := rfl
  rw [h20, Nat.mod_eq_of_lt (by omega), Nat.mod_eq_of_lt (by omega)]

/-- The values of two variables do not overlap. -/
theorem addr_disjoint (table : VarTable) {x y : Fin varMax} (hxy : x ≠ y) :
    table.addr x + 4 ≤ table.addr y ∨ table.addr y + 4 ≤ table.addr x := by
  have hval : (x : ℕ) ≠ y := fun h => hxy (Fin.ext h)
  unfold addr
  omega

/-- A declared variable of type `int` or `long`. -/
def IsLong (table : VarTable) (x : Fin varMax) : Prop := table.type x = .int ∨ table.type x = .long

end VarTable

/-! ## The language -/

/-- `++` and `--`. -/
inductive Step
  | inc | dec
  deriving DecidableEq, Repr

/-- The operation of a step. -/
def Step.op : Step → BinOp
  | .inc => .add
  | .dec => .sub

/-- The node of a step before the variable. -/
def Step.preNode : Step → NodeType
  | .inc => .sysPreinc
  | .dec => .sysPredec

/-- The node of a step after the variable. -/
def Step.postNode : Step → NodeType
  | .inc => .sysInc
  | .dec => .sysDec

/-- The expressions. -/
inductive Expr
  | int (v : Dword)
  | long (v : Dword)
  | var (x : Fin varMax)
  | bin (f : BinOp) (l r : Expr)
  | neg (e : Expr)
  | not (e : Expr)
  | assign (x : Fin varMax) (e : Expr)
  | pre (s : Step) (x : Fin varMax)
  | post (s : Step) (x : Fin varMax)
  deriving DecidableEq, Repr

/-- The values of the variables. -/
abbrev Store := Fin varMax → Dword

/-- A value of C as a `long`: modulo `2 ^ 32`. -/
def toLong (a : ℤ) : Dword := BitVec.ofInt 32 a

namespace Expr

/-- The value of an expression, and the variables after it; there is none where C has none. -/
def eval : Expr → Store → Option (Dword × Store)
  | int v, σ => some (v, σ)
  | long v, σ => some (v, σ)
  | var x, σ => some (σ x, σ)
  | bin f l r, σ =>
    (l.eval σ).bind fun a => (r.eval a.2).bind fun b =>
      (f.apply a.1.toInt b.1.toInt).map fun c => (toLong c, b.2)
  | neg e, σ => (e.eval σ).map fun a => (toLong (-a.1.toInt), a.2)
  | not e, σ => (e.eval σ).map fun a => (toLong (complement a.1.toInt), a.2)
  | assign x e, σ => (e.eval σ).map fun a => (a.1, Function.update a.2 x a.1)
  | pre s x, σ =>
    (s.op.apply (σ x).toInt 1).map fun c => (toLong c, Function.update σ x (toLong c))
  | post s x, σ =>
    (s.op.apply (σ x).toInt 1).map fun c => (σ x, Function.update σ x (toLong c))

/-- The variables of an expression are declared, as `int` or `long`. -/
def Declared (table : VarTable) : Expr → Prop
  | int _ => True
  | long _ => True
  | var x => table.IsLong x
  | bin _ l r => l.Declared table ∧ r.Declared table
  | neg e => e.Declared table
  | not e => e.Declared table
  | assign x e => table.IsLong x ∧ e.Declared table
  | pre _ x => table.IsLong x
  | post _ x => table.IsLong x

/-- The tree that the parser makes: `proc_assign_expr`, `proc_inclusive_or_expr` down to `proc_multiplicative_expr`,
`proc_unary_expr`, `proc_postfix_expr` and `proc_primary_expr`. -/
def tree (table : VarTable) : Expr → Tree
  | int v => finshNodeNewInt v
  | long v => finshNodeNewLong v
  | var x => finshNodeNewId (table.var x)
  | bin f l r => makeSysNode f.node (l.tree table) (r.tree table)
  | neg e => makeSysNode .sysSub (finshNodeNewLong 0) (e.tree table)
  | not e => makeSysNode .sysBitwise (e.tree table) .nil
  | assign x e => makeSysNode .sysAssign (finshNodeNewId (table.var x)) (e.tree table)
  | pre s x => makeSysNode s.preNode (finshNodeNewId (table.var x)) .nil
  | post s x => makeSysNode s.postNode (finshNodeNewId (table.var x)) .nil

end Expr

/-- The value of the last of a list of statements, and the variables after them. `v` is the value before them. -/
def evalStatements : List Expr → Dword → Store → Option (Dword × Store)
  | [], v, σ => some (v, σ)
  | e :: es, _, σ => (e.eval σ).bind fun a => evalStatements es a.1 a.2

/-- The tree of a list of statements: `finsh_parser_run` links each as the sibling of the one before. -/
def statementsTree (table : VarTable) : List Expr → Tree
  | [] => .nil
  | e :: es => (e.tree table).setSibling (statementsTree table es)

/-! ## The code of an expression -/

/-- `ld_dword`. -/
def loadLong (v : Dword) : List Byte := opLd .dword :: codeDword v

/-- `ld_value_dword`. -/
def loadVar (addr : Dword) : List Byte := opLdValue .dword :: codeDword addr

@[simp] theorem loadLong_length (v : Dword) : (loadLong v).length = 5 := rfl

@[simp] theorem loadVar_length (addr : Dword) : (loadVar addr).length = 5 := rfl

namespace Expr

variable (table : VarTable)

/-- The code that the compiler emits for an expression. -/
def code : Expr → List Byte
  | int v => loadLong v
  | long v => loadLong v
  | var x => loadVar (table.var x).valueAddr
  | bin f l r => l.code ++ r.code ++ [f.op .dword]
  | neg e => loadLong 0 ++ e.code ++ [BinOp.sub.op .dword]
  | not e => e.code ++ [opBitwise .dword]
  | assign x e => loadLong (table.var x).valueAddr ++ e.code ++ [opSt .dword, opLdValueStack .dword]
  | pre s x =>
    loadLong (table.var x).valueAddr ++ (loadVar (table.var x).valueAddr ++ loadLong 1 ++
      [s.op.op .dword, opSt .dword, opLdValueStack .dword])
  | post s x =>
    loadVar (table.var x).valueAddr ++ (loadLong (table.var x).valueAddr ++
      (loadVar (table.var x).valueAddr ++ loadLong 1 ++ [s.op.op .dword, opSt .dword, opPop]))

/-- The code of an expression begins with a load. -/
theorem five_le_code_length (e : Expr) : 5 ≤ (e.code table).length := by
  induction e with
  | int v => exact Nat.le_refl 5
  | long v => exact Nat.le_refl 5
  | var x => exact Nat.le_refl 5
  | bin f l r ihl _ => simp only [code, List.length_append]; omega
  | neg e _ => simp only [code, List.length_append, loadLong_length]; omega
  | not e ih => simp only [code, List.length_append]; omega
  | assign x e _ => simp only [code, List.length_append, loadLong_length]; omega
  | pre s x => simp only [code, List.length_append, loadLong_length]; omega
  | post s x => simp only [code, List.length_append, loadVar_length]; omega

end Expr

/-! ## What the compiler makes of the trees -/

/-- An identifier after the type check. -/
def idNode (table : VarTable) (x : Fin varMax) (isAddr : Byte) : FinshNode where
  nodeType := .id
  idtype := idtypeVar ||| isAddr
  dataType := Width.dataType .dword
  id := some (table.var x)

/-- The type check of an `int` or `long` variable. -/
theorem typeCheck_id {table : VarTable} {x : Fin varMax} (hx : table.IsLong x) (s : Tree) (isAddr : Byte)
    (haddr : isAddr = nodeValue ∨ isAddr = idtypeAddress) :
    finshTypeCheck ((finshNodeNewId (table.var x)).setSibling s) isAddr =
      .node (idNode table x isAddr) .nil (finshTypeCheck s nodeValue) := by
  have htype : FinshType.dataType (table.var x).type = some (Width.dataType .dword) := by
    rcases hx with hx | hx <;> exact congrArg _ hx
  rcases haddr with rfl | rfl <;>
    simp [finshTypeCheck, finshNodeNewId, Tree.setSibling, setAttributes, FinshNode.setAddr, leafType,
      FinshNode.isVariable, Tree.head, idNode, idtypeVar, idtypeSyscall, idtypeAddress, nodeValue, htype]

/-- The code of an identifier whose value is wanted. -/
theorem codeId_value {table : VarTable} {x : Fin varMax} (hx : table.IsLong x) :
    codeNode (idNode table x nodeValue) .nil = loadVar (table.var x).valueAddr := by
  have htype : FinshType.loadWidth (table.var x).type = some .dword := by
    rcases hx with hx | hx <;> exact congrArg _ hx
  simp [codeNode, idNode, codeId, codeLoadId, htype, idtypeVar, idtypeSyscall, idtypeSysvar, idtypeAddress, nodeValue,
    loadVar]

/-- The code of an identifier whose address is wanted. -/
theorem codeId_address {table : VarTable} {x : Fin varMax} (hx : table.IsLong x) :
    codeNode (idNode table x idtypeAddress) .nil = loadLong (table.var x).valueAddr := by
  have htype : FinshType.loadWidth (table.var x).type = some .dword := by
    rcases hx with hx | hx <;> exact congrArg _ hx
  simp [codeNode, idNode, codeId, codeLoadId, htype, idtypeVar, idtypeSyscall, idtypeSysvar, idtypeAddress, loadLong]

/-- The type check of `int` and `long` variables sets no error. -/
theorem typeCheckError_id {table : VarTable} {x : Fin varMax} (hx : table.IsLong x) (s : Tree) (isAddr : Byte) :
    typeCheckError ((finshNodeNewId (table.var x)).setSibling s) isAddr = typeCheckError s nodeValue := by
  have htype : FinshType.dataType (table.var x).type = some (Width.dataType .dword) := by
    rcases hx with hx | hx <;> exact congrArg _ hx
  simp [typeCheckError, finshNodeNewId, Tree.setSibling, Tree.head, htype]

/-- What the compiler makes of a tree that is followed by the sibling `s`: `n` and `child` are its node and the operands
after the type check. -/
structure CompilesTo (t s : Tree) (code : List Byte) (n : FinshNode) (child : Tree) : Prop where
  check : finshTypeCheck (t.setSibling s) nodeValue = .node n child (finshTypeCheck s nodeValue)
  checkError : typeCheckError (t.setSibling s) nodeValue = typeCheckError s nodeValue
  dataType : n.dataType = Width.dataType .dword
  code : finshCompile child ++ codeNode n child = code
  codeError : compileError child = false ∧ codeNodeError n child = false

/-- A tree that the compiler takes for a value of four bytes, computed by `code`, whatever sibling follows it. -/
def Compiles (t : Tree) (code : List Byte) : Prop := ∀ s, ∃ n child, CompilesTo t s code n child

/-- The code of a tree, and of its sibling. -/
theorem Compiles.compile_setSibling {t : Tree} {code : List Byte} (h : Compiles t code) (s : Tree) :
    finshCompile (finshTypeCheck (t.setSibling s) nodeValue) = code ++ finshCompile (finshTypeCheck s nodeValue) := by
  obtain ⟨n, child, ht⟩ := h s
  rw [ht.check, finshCompile, ht.code]

/-- The errors of a tree with a sibling are those of the sibling. -/
theorem Compiles.error_setSibling {t : Tree} {code : List Byte} (h : Compiles t code) (s : Tree) :
    compileError (finshTypeCheck (t.setSibling s) nodeValue) = compileError (finshTypeCheck s nodeValue) := by
  obtain ⟨n, child, ht⟩ := h s
  rw [ht.check, compileError, ht.codeError.1, ht.codeError.2]
  rfl

/-- A last operand: its code, and no error. -/
structure LastOperand (t : Tree) (code : List Byte) : Prop where
  checkError : typeCheckError t nodeValue = false
  code : finshCompile (finshTypeCheck t nodeValue) = code
  codeError : compileError (finshTypeCheck t nodeValue) = false

/-- No operand. -/
theorem LastOperand.nil : LastOperand .nil [] := ⟨rfl, rfl, rfl⟩

/-- An operand that has no sibling. -/
theorem Compiles.lastOperand {t : Tree} {code : List Byte} (h : Compiles t code) (ht : t.setSibling .nil = t) :
    LastOperand t code where
  checkError := by
    obtain ⟨n, child, hto⟩ := h .nil
    rw [← ht, hto.checkError, typeCheckError]
  code := by
    have hcode := h.compile_setSibling .nil
    rwa [ht, finshTypeCheck, finshCompile, List.append_nil] at hcode
  codeError := by
    have herror := h.error_setSibling .nil
    rwa [ht, finshTypeCheck, compileError] at herror

/-- Literals. -/
theorem compiles_literal {type : NodeType} (v : Dword) (htype : type = .valueInt ∨ type = .valueLong) :
    Compiles (.node { nodeType := type, value := v } .nil .nil) (loadLong v) := by
  intro s
  refine ⟨_, _, rfl, ?_, ?_, ?_, rfl, ?_⟩ <;> rcases htype with rfl | rfl <;>
    simp [typeCheckError, Tree.setSibling, Tree.head, setAttributes, FinshNode.setAddr, leafType, idtypeSyscall,
      nodeValue, finshCompile, finshTypeCheck, codeNode, codeNodeError, loadLong]

/-- Identifiers. -/
theorem compiles_id {table : VarTable} {x : Fin varMax} (hx : table.IsLong x) :
    Compiles (finshNodeNewId (table.var x)) (loadVar (table.var x).valueAddr) := by
  intro s
  exact ⟨_, _, typeCheck_id hx s nodeValue (.inl rfl), typeCheckError_id hx s nodeValue, rfl, codeId_value hx, rfl, rfl⟩

/-- A node that `make_sys_node` makes is not taken for a variable. -/
theorem isVariable_sysNode (type : NodeType) :
    (FinshNode.setAddr { nodeType := type } nodeValue).isVariable = false := by
  simp [FinshNode.setAddr, FinshNode.isVariable, idtypeSyscall, nodeValue]

/-- A node whose first operand is wanted for its value: the code of the operands, and then its own. -/
theorem Compiles.makeSysNode {k : NodeType} {a b : Tree} {ca cb o : List Byte} (ha : Compiles a ca)
    (hb : LastOperand b cb) (haddr : childAddr k nodeValue = nodeValue)
    (hown : ∀ n child, n.nodeType = k → n.dataType = Width.dataType .dword →
      codeNode n child = o ∧ codeNodeError n child = false) :
    Compiles (makeSysNode k a b) (ca ++ cb ++ o) := by
  intro s
  obtain ⟨na, child, hta⟩ := ha b
  obtain ⟨hn, herror⟩ := hown
    (setAttributes { nodeType := k } (.node na child (finshTypeCheck b nodeValue)) nodeValue)
    (.node na child (finshTypeCheck b nodeValue)) rfl hta.dataType
  refine ⟨setAttributes { nodeType := k } (.node na child (finshTypeCheck b nodeValue)) nodeValue,
    .node na child (finshTypeCheck b nodeValue), ?_, ?_, hta.dataType, ?_, ?_, herror⟩
  · rw [Finsh.makeSysNode, Tree.setSibling, finshTypeCheck, haddr, hta.check]
  · rw [Finsh.makeSysNode, Tree.setSibling, typeCheckError, haddr, hta.checkError, hb.checkError, Bool.false_or,
      isVariable_sysNode, Bool.and_false, Bool.false_and, Bool.or_false]
  · rw [hn, finshCompile, hta.code, hb.code]
  · rw [compileError, hta.codeError.1, hta.codeError.2, hb.codeError]
    rfl

/-- A node whose first operand is an identifier, whose address or value it wants. -/
theorem compiles_of_id {table : VarTable} {x : Fin varMax} (hx : table.IsLong x) {k : NodeType} {b : Tree}
    {isAddr : Byte} {cx cb o : List Byte} (hisAddr : isAddr = nodeValue ∨ isAddr = idtypeAddress)
    (haddr : childAddr k nodeValue = isAddr) (hcx : codeNode (idNode table x isAddr) .nil = cx)
    (hb : LastOperand b cb)
    (hown : ∀ n s, n.nodeType = k → n.dataType = Width.dataType .dword →
      codeNode n (.node (idNode table x isAddr) .nil s) = o ∧
        codeNodeError n (.node (idNode table x isAddr) .nil s) = false) :
    Compiles (makeSysNode k (finshNodeNewId (table.var x)) b) (cx ++ cb ++ o) := by
  intro s
  obtain ⟨hn, herror⟩ := hown
    (setAttributes { nodeType := k } (.node (idNode table x isAddr) .nil (finshTypeCheck b nodeValue)) nodeValue)
    (finshTypeCheck b nodeValue) rfl rfl
  refine ⟨setAttributes { nodeType := k } (.node (idNode table x isAddr) .nil (finshTypeCheck b nodeValue)) nodeValue,
    .node (idNode table x isAddr) .nil (finshTypeCheck b nodeValue), ?_, ?_, rfl, ?_, ?_, herror⟩
  · rw [makeSysNode, Tree.setSibling, finshTypeCheck, haddr, typeCheck_id hx b _ hisAddr]
  · rw [makeSysNode, Tree.setSibling, typeCheckError, haddr, typeCheckError_id hx, hb.checkError, Bool.false_or,
      isVariable_sysNode, Bool.and_false, Bool.false_and, Bool.or_false]
  · rw [hn, finshCompile, hcx, hb.code, finshCompile, List.nil_append]
  · rw [compileError, hb.codeError]
    rfl

/-- An operator with two operands does not ask for an address. -/
theorem BinOp.childAddr_node (f : BinOp) : childAddr f.node nodeValue = nodeValue := by
  cases f <;> rfl

/-- The instruction of an operator with two operands, for values of four bytes. -/
theorem BinOp.codeNode_node (f : BinOp) {n : FinshNode} (child : Tree) (hn : n.nodeType = f.node)
    (htype : n.dataType = Width.dataType .dword) :
    codeNode n child = [f.op .dword] ∧ codeNodeError n child = false := by
  cases f <;> simp [codeNode, codeNodeError, hn, BinOp.node, codeOp, htype]

/-- The node of a step before a variable wants the address of the variable. -/
theorem Step.childAddr_preNode (s : Step) : childAddr s.preNode nodeValue = idtypeAddress := by
  cases s <;> rfl

/-- The node of a step after a variable does not. -/
theorem Step.childAddr_postNode (s : Step) : childAddr s.postNode nodeValue = nodeValue := by
  cases s <;> rfl

/-- The instructions of a step before a variable, below which the address is. -/
theorem Step.codeNode_preNode {table : VarTable} (s : Step) (x : Fin varMax) {n : FinshNode} (isAddr : Byte)
    (sibling : Tree) (hn : n.nodeType = s.preNode) (htype : n.dataType = Width.dataType .dword) :
    codeNode n (.node (idNode table x isAddr) .nil sibling) =
        loadVar (table.var x).valueAddr ++ loadLong 1 ++ [s.op.op .dword, opSt .dword, opLdValueStack .dword] ∧
      codeNodeError n (.node (idNode table x isAddr) .nil sibling) = false := by
  cases s <;>
    simp [codeNode, codeNodeError, hn, Step.preNode, codePre, childVar, Tree.head, idNode, htype, loadVar, loadLong, codeOne, Step.op]

/-- The instructions of a step after a variable, below which its value is. -/
theorem Step.codeNode_postNode {table : VarTable} (s : Step) (x : Fin varMax) {n : FinshNode} (isAddr : Byte)
    (sibling : Tree) (hn : n.nodeType = s.postNode) (htype : n.dataType = Width.dataType .dword) :
    codeNode n (.node (idNode table x isAddr) .nil sibling) =
        loadLong (table.var x).valueAddr ++
          (loadVar (table.var x).valueAddr ++ loadLong 1 ++ [s.op.op .dword, opSt .dword, opPop]) ∧
      codeNodeError n (.node (idNode table x isAddr) .nil sibling) = false := by
  cases s <;>
    simp [codeNode, codeNodeError, hn, Step.postNode, codePost, childVar, Tree.head, idNode, htype, loadVar, loadLong, codeOne, Step.op]

namespace Expr

/-- The tree of an expression has no sibling yet. -/
@[simp] theorem tree_setSibling_nil (table : VarTable) (e : Expr) : (e.tree table).setSibling .nil = e.tree table := by
  cases e <;> rfl

/-- **The compiler on expressions.** The type check and the emitter make `Expr.code` of the tree of an expression. -/
theorem compiles {table : VarTable} {e : Expr} (he : e.Declared table) : Compiles (e.tree table) (e.code table) := by
  induction e with
  | int v => exact compiles_literal v (.inl rfl)
  | long v => exact compiles_literal v (.inr rfl)
  | var x => exact compiles_id he
  | bin f l r ihl ihr =>
    have hr := (ihr he.2).lastOperand (tree_setSibling_nil table r)
    exact (ihl he.1).makeSysNode hr f.childAddr_node fun n child hn htype => f.codeNode_node child hn htype
  | neg e ih =>
    have hzero : Compiles (finshNodeNewLong 0) (loadLong 0) := compiles_literal 0 (.inr rfl)
    exact hzero.makeSysNode ((ih he).lastOperand (tree_setSibling_nil table e)) rfl fun n child hn htype =>
      BinOp.sub.codeNode_node child hn htype
  | not e ih =>
    have h := (ih he).makeSysNode (k := .sysBitwise) (o := [opBitwise .dword]) .nil rfl fun n child hn htype => by
      simp [codeNode, codeNodeError, hn, codeOp, htype]
    rwa [List.append_nil] at h
  | assign x e ih =>
    refine compiles_of_id he.1 (.inr rfl) rfl (codeId_address he.1)
      ((ih he.2).lastOperand (tree_setSibling_nil table e)) fun n s hn htype => ?_
    simp [codeNode, codeNodeError, hn, assignWidth, Tree.head, idNode]
  | pre s x =>
    have h := compiles_of_id (k := s.preNode) he (.inr rfl) s.childAddr_preNode (codeId_address he) .nil
      fun n sibling hn htype => s.codeNode_preNode x idtypeAddress sibling hn htype
    rwa [List.append_nil] at h
  | post s x =>
    have h := compiles_of_id (k := s.postNode) he (.inl rfl) s.childAddr_postNode (codeId_value he) .nil
      fun n sibling hn htype => s.codeNode_postNode x nodeValue sibling hn htype
    rwa [List.append_nil] at h

end Expr

/-! ## The code of a list of statements -/

/-- The code of a list of statements. -/
def statementsCode (table : VarTable) : List Expr → List Byte
  | [] => []
  | e :: es => e.code table ++ (if es.length = 0 then [] else [opPop]) ++ statementsCode table es

/-- The type check keeps the shape of a tree. -/
theorem siblings_typeCheck : ∀ (t : Tree) (isAddr : Byte), (finshTypeCheck t isAddr).siblings = t.siblings
  | .nil, _ => rfl
  | .node _ _ s, _ => congrArg (· + 1) (siblings_typeCheck s nodeValue)

theorem siblings_setSibling_tree (table : VarTable) (e : Expr) (s : Tree) :
    ((e.tree table).setSibling s).siblings = s.siblings + 1 := by
  cases e <;> rfl

theorem siblings_statementsTree (table : VarTable) (es : List Expr) : (statementsTree table es).siblings = es.length := by
  induction es with
  | nil => rfl
  | cons e es ih => rw [statementsTree, siblings_setSibling_tree, ih, List.length_cons]

/-- **The compiler on statements.** The code of a list of statements is that of each, with a pop after each but the
last. -/
theorem finshCode_tree {table : VarTable} {es : List Expr} (hes : ∀ e ∈ es, e.Declared table) :
    finshCode (statementsTree table es) = statementsCode table es := by
  induction es with
  | nil => rfl
  | cons e es ih =>
    have ih := ih fun e he => hes e (List.mem_cons_of_mem _ he)
    obtain ⟨n, child, ht⟩ := Expr.compiles (hes e List.mem_cons_self) (statementsTree table es)
    rw [finshCode] at ih ⊢
    rw [statementsTree, ht.check, compileStatements, ih, siblings_typeCheck, siblings_statementsTree, finshCompile,
      ht.code, finshCompile, List.append_nil, statementsCode]

/-- The compiler reports no error for such statements. -/
theorem finshErrno_tree {table : VarTable} {es : List Expr} (hes : ∀ e ∈ es, e.Declared table) :
    finshErrno (statementsTree table es) = false := by
  induction es with
  | nil => rfl
  | cons e es ih =>
    have ih := ih fun e he => hes e (List.mem_cons_of_mem _ he)
    have he := Expr.compiles (hes e List.mem_cons_self)
    obtain ⟨n, child, ht⟩ := he (statementsTree table es)
    rw [finshErrno] at ih ⊢
    rw [statementsTree, ht.checkError, he.error_setSibling, ih]

end CoreLink.Shell.Finsh
