/-
# `CoreLink.Shell.FinshParses` — what the parser of the shell makes of an expression.

For each production there is a lemma about the procedure of its nonterminal. The productions for binary operators, for what is
behind a primary expression and for the operands of a call are left recursive, and the procedures are loops: the lemmas about
these say from which round of the loop on the parser goes on (`Loops`). Where the parser does not know a derivation
(`Derivation.Plain`), it sets an error, whatever follows (`Fails`).
-/
import CoreLink.Shell.FinshGrammar
import CoreLink.Shell.FinshParserState

namespace CoreLink.Shell.Finsh

open RtThread

namespace FinshParser

/-! ## What goes on behind an expression -/

/-- How tightly a token binds that can stand behind an expression; 0 for those that end it. -/
def tightness : FinshTokenType → ℕ
  | .comma => 1
  | .assign => 2
  | .or => 3
  | .xor => 4
  | .and => 5
  | .shl | .shr => 6
  | .add | .sub => 7
  | .mul | .div | .mod => 8
  | .inc | .dec | .leftParen => 9
  | _ => 0

/-- The tightness of the operators of a level. -/
def levelTightness : Level → ℕ
  | .inclusiveOr => 3
  | .exclusiveOr => 4
  | .and => 5
  | .shift => 6
  | .additive => 7
  | .multiplicative => 8

theorem tightness_operator {level : Level} (op : level.Operator) : tightness op.type = levelTightness level := by
  cases op <;> rfl

/-- The operators of the procedure of a level. -/
def levelOperator : Level → FinshTokenType → Option NodeType
  | .inclusiveOr => inclusiveOrOperator
  | .exclusiveOr => exclusiveOrOperator
  | .and => andOperator
  | .shift => shiftOperator
  | .additive => additiveOperator
  | .multiplicative => multiplicativeOperator

theorem levelOperator_type {level : Level} (op : level.Operator) : levelOperator level op.type = some op.node := by
  cases op <;> rfl

/-- What does not bind as tightly is no operator of the level, unless it binds more tightly. -/
theorem levelOperator_eq_none {level : Level} {type : FinshTokenType} (h : tightness type < levelTightness level) :
    levelOperator level type = none := by
  cases level <;> cases type <;> first | rfl | exact absurd h (by decide)

variable (sys : FinshSystem)

/-- The procedure of a nonterminal, with fuel. -/
def parse (fuel : ℕ) : Nonterminal → Proc Tree
  | .assign => (procs sys fuel).2
  | .binary .inclusiveOr => procInclusiveOrExpr (procs sys fuel).1
  | .binary .exclusiveOr => procExclusiveOrExpr (procs sys fuel).1
  | .binary .and => procAndExpr (procs sys fuel).1
  | .binary .shift => procShiftExpr (procs sys fuel).1
  | .binary .additive => procAdditiveExpr (procs sys fuel).1
  | .binary .multiplicative => procMultiplicativeExpr (procs sys fuel).1
  | .cast => (procs sys fuel).1
  | .unary => procUnaryExpr sys (procs sys fuel).1 (procs sys fuel).2
  | .postfixed => procPostfixExpr sys (procs sys fuel).2
  | .primary => procPrimaryExpr sys (procs sys fuel).2
  | .params => procParamList (procs sys fuel).2

variable {sys} {fuel : ℕ} {level : Level}

theorem parse_binary : parse sys fuel (.binary level) = procBinaryExpr (parse sys fuel level.operand) (levelOperator level) := by
  cases level <;> rfl

theorem keepsError_parse (sys : FinshSystem) (fuel : ℕ) (symbol : Nonterminal) : KeepsError (parse sys fuel symbol) := by
  obtain ⟨hcast, hassign⟩ := keepsError_procs sys fuel
  have hmul : KeepsError (procMultiplicativeExpr (procs sys fuel).1) := keepsError_procBinaryExpr hcast _
  have hadd : KeepsError (procAdditiveExpr (procs sys fuel).1) := keepsError_procBinaryExpr hmul _
  have hshift : KeepsError (procShiftExpr (procs sys fuel).1) := keepsError_procBinaryExpr hadd _
  have hand : KeepsError (procAndExpr (procs sys fuel).1) := keepsError_procBinaryExpr hshift _
  have hxor : KeepsError (procExclusiveOrExpr (procs sys fuel).1) := keepsError_procBinaryExpr hand _
  cases symbol with
  | assign => exact hassign
  | binary level => cases level <;> first | assumption | exact keepsError_procBinaryExpr hxor _
  | cast => exact hcast
  | unary => exact keepsError_procUnaryExpr sys hcast hassign
  | postfixed => exact keepsError_procPostfixExpr sys hassign
  | primary => exact keepsError_procPrimaryExpr sys hassign
  | params => exact keepsError_procParamList hassign

/-! ## What is shown of a derivation -/

variable {symbol : Nonterminal} {e : Derivation symbol} {s : FinshParser} {next : Token} {rest : List Token}

/-- The parser is in front of the derivation; its identifiers are known, and there are nodes for it. -/
structure Ready (sys : FinshSystem) (e : Derivation symbol) (s : FinshParser) (next : Token) (rest : List Token) : Prop where
  ahead : s.ahead = e.tokens ++ next :: rest
  known : e.Known sys s.vars
  nodes : s.nodes + e.size ≤ nodeMax

/-- **A derivation is parsed**, in front of a token that does not bind so tightly: the tree is the one of the grammar, and the
token behind it is put back. -/
def Parses (sys : FinshSystem) (e : Derivation symbol) (p : Proc Tree) (bound : ℕ) : Prop :=
  ∀ s next rest, Ready sys e s next rest → tightness next.type < bound →
    p s = (e.tree sys s.vars s.heap).map fun r => (r.1, (s.grow e.size r.2).unread next rest)

/-- **A derivation is not parsed**: whatever follows it, the error number is set. -/
def Fails (sys : FinshSystem) (e : Derivation symbol) (p : Proc Tree) : Prop :=
  ∀ s next rest, Ready sys e s next rest → Errs p s

/-- A derivation is the beginning of what a loop reads, which goes on with the token behind it. -/
def Loops (sys : FinshSystem) (e : Derivation symbol) (p : Proc Tree) (loop : ℕ → Tree → Token → Proc Tree) (bound : ℕ) : Prop :=
  ∀ s next rest, Ready sys e s next rest → tightness next.type < bound → ∃ fuel, rest.length + 2 ≤ fuel ∧
    p s = (e.tree sys s.vars s.heap).bind fun r => loop fuel r.1 next ((s.grow e.size r.2).read next rest)

/-! ## Nodes -/

theorem makeSysNode_run {type : NodeType} {node1 node2 : Tree} (hs : s.nodes < nodeMax) (h : node1 ≠ .nil) :
    makeSysNode type node1 node2 s = some (Finsh.makeSysNode type node1 node2, s.grow 1 s.heap) := by
  rw [makeSysNode, bind_apply, finshNodeAllocate, if_pos hs, Option.bind_some, if_pos ⟨rfl, h⟩]
  rfl

theorem newLeaf_run {n : FinshNode} (hs : s.nodes < nodeMax) : newLeaf n s = some (.node n .nil .nil, s.grow 1 s.heap) := by
  rw [newLeaf, bind_apply, finshNodeAllocate, if_pos hs, Option.bind_some]
  rfl

/-- The tree of an expression is one node, without a sibling. -/
def IsOne (t : Tree) : Prop := ∃ n child, t = .node n child .nil

theorem IsOne.ne_nil {t : Tree} (h : IsOne t) : t ≠ .nil := by
  obtain ⟨n, child, rfl⟩ := h
  exact nofun

theorem isOne_makeSysNode (type : NodeType) (a b : Tree) : IsOne (Finsh.makeSysNode type a b) := ⟨_, _, rfl⟩

theorem isOne_tree {vars : List FinshVar} (hknown : e.Known sys vars) (hsymbol : symbol ≠ .params) {heap : FinshHeap}
    {r : Tree × FinshHeap} (h : e.tree sys vars heap = some r) : IsOne r.1 := by
  induction e generalizing heap r with
  | value e ih => exact ih hknown nofun h
  | assign target e iht ihe =>
    obtain ⟨r₁, -, h⟩ := Option.bind_eq_some_iff.mp h
    obtain ⟨r₂, -, h⟩ := Option.bind_eq_some_iff.mp h
    obtain rfl := Option.some.inj h
    exact isOne_makeSysNode _ _ _
  | @operand level e ih => exact ih hknown (by cases level <;> nofun) h
  | binary left op right ihl ihr =>
    obtain ⟨r₁, -, h⟩ := Option.bind_eq_some_iff.mp h
    obtain ⟨r₂, -, h⟩ := Option.bind_eq_some_iff.mp h
    obtain rfl := Option.some.inj h
    exact isOne_makeSysNode _ _ _
  | uncast e ih => exact ih hknown nofun h
  | cast type e ih =>
    obtain ⟨r₁, h₁, h⟩ := Option.bind_eq_some_iff.mp h
    obtain rfl := Option.some.inj h
    obtain ⟨n, child, heq⟩ := ih hknown nofun h₁
    exact ⟨_, child, by rw [heq]; rfl⟩
  | plain e ih => exact ih hknown nofun h
  | unary op e ih =>
    obtain ⟨r₁, h₁, h⟩ := Option.bind_eq_some_iff.mp h
    obtain rfl := Option.some.inj h
    cases op with
    | add => exact ih hknown nofun h₁
    | _ => exact isOne_makeSysNode _ _ _
  | primary e ih => exact ih hknown nofun h
  | inc e ih =>
    obtain ⟨r₁, -, h⟩ := Option.bind_eq_some_iff.mp h
    obtain rfl := Option.some.inj h
    exact isOne_makeSysNode _ _ _
  | dec e ih =>
    obtain ⟨r₁, -, h⟩ := Option.bind_eq_some_iff.mp h
    obtain rfl := Option.some.inj h
    exact isOne_makeSysNode _ _ _
  | call e params ihe ihp =>
    obtain ⟨r₁, -, h⟩ := Option.bind_eq_some_iff.mp h
    obtain ⟨r₂, -, h⟩ := Option.bind_eq_some_iff.mp h
    obtain rfl := Option.some.inj h
    exact isOne_makeSysNode _ _ _
  | literal lit =>
    cases lit with
    | string bytes =>
      obtain ⟨r₁, -, rfl⟩ := Option.map_eq_some_iff.mp h
      exact ⟨_, _, rfl⟩
    | _ =>
      obtain rfl := Option.some.inj h
      exact ⟨_, _, rfl⟩
  | paren e ih => exact ih hknown nofun h
  | identifier name =>
    obtain rfl := Option.some.inj h
    obtain ⟨symbol, hsome⟩ := Option.isSome_iff_exists.mp hknown
    exact ⟨_, _, by rw [Derivation.identifierTree, hsome]⟩
  | empty => exact absurd rfl hsymbol
  | param e ih => exact absurd rfl hsymbol
  | comma params e ihp ihe => exact absurd rfl hsymbol

/-! ## Binary operators -/

theorem binaryLoop_some {operand : Proc Tree} {operator : FinshTokenType → Option NodeType} {token : Token} {type : NodeType}
    (h : operator token.type = some type) (fuel : ℕ) (left : Tree) : binaryLoop operand operator (fuel + 1) left token =
      (operand >>= fun right => binaryNode type left right >>= fun left => nextToken >>= fun token =>
        binaryLoop operand operator fuel left token) := by
  rw [binaryLoop, h]

/-- The loop of a level ends at a token that does not bind so tightly. -/
theorem Loops.parses {e : Derivation symbol} {p operand : Proc Tree} {bound : ℕ}
    (h : Loops sys e p (binaryLoop operand (levelOperator level)) bound) (hbound : levelTightness level ≤ bound) :
    Parses sys e p (levelTightness level) := by
  intro s next rest hready hnext
  obtain ⟨fuel, hfuel, hrun⟩ := h s next rest hready (Nat.lt_of_lt_of_le hnext hbound)
  obtain ⟨fuel, rfl⟩ := Nat.exists_eq_add_of_le' (Nat.le_of_add_left_le hfuel)
  rw [hrun]
  cases e.tree sys s.vars s.heap with
  | none => rfl
  | some r =>
    rw [Option.bind_some, Option.map_some, binaryLoop, levelOperator_eq_none hnext]
    rfl

/-- **One operand** of a level. -/
theorem loops_operand {e : Derivation level.operand} {operand : Proc Tree} {bound : ℕ} (h : Parses sys e operand bound) :
    Loops sys (.operand e) (procBinaryExpr operand (levelOperator level)) (binaryLoop operand (levelOperator level)) bound := by
  intro s next rest hready hnext
  have hready : Ready sys e s next rest := ⟨hready.ahead, hready.known, hready.nodes⟩
  refine ⟨rest.length + 2, Nat.le_refl _, ?_⟩
  rw [procBinaryExpr, bind_apply, h s next rest hready hnext]
  cases htree : e.tree sys s.vars s.heap with
  | none => simp [Derivation.tree, htree]
  | some r =>
    simp only [Derivation.tree, Derivation.size, htree, Option.map_some, Option.bind_some, bind_apply, nextToken_unread,
      loopFuel_read]

theorem Ready.left {left : Derivation (.binary level)} {op : level.Operator} {right : Derivation level.operand}
    (h : Ready sys (.binary left op right) s next rest) : Ready sys left s (mark op.type) (right.tokens ++ next :: rest) := by
  refine ⟨?_, h.known.1, Nat.le_trans ?_ h.nodes⟩
  · rw [h.ahead, Derivation.tokens, List.append_assoc, List.cons_append]
  · simp only [Derivation.size]
    omega

theorem Ready.right {left : Derivation (.binary level)} {op : level.Operator} {right : Derivation level.operand}
    (h : Ready sys (.binary left op right) s next rest) (heap : FinshHeap) :
    Ready sys right ((s.grow left.size heap).read (mark op.type) (right.tokens ++ next :: rest)) next rest := by
  refine ⟨rfl, h.known.2, Nat.le_trans ?_ h.nodes⟩
  simp only [Derivation.size, nodes_read, nodes_grow]
  omega

/-- **One round of the loop**: one operator more. -/
theorem loops_binary {left : Derivation (.binary level)} {op : level.Operator} {right : Derivation level.operand}
    {operand : Proc Tree} {bound : ℕ} (hop : levelTightness level < bound)
    (hleft : Loops sys left (procBinaryExpr operand (levelOperator level)) (binaryLoop operand (levelOperator level)) bound)
    (hright : Parses sys right operand bound) :
    Loops sys (.binary left op right) (procBinaryExpr operand (levelOperator level))
      (binaryLoop operand (levelOperator level)) bound := by
  intro s next rest hready hnext
  obtain ⟨fuel, hfuel, hrun⟩ := hleft s _ _ hready.left (tightness_operator op ▸ hop)
  rw [List.length_append, List.length_cons] at hfuel
  obtain ⟨fuel, rfl⟩ := Nat.exists_eq_add_of_le' (show 1 ≤ fuel by omega)
  refine ⟨fuel, by omega, ?_⟩
  rw [hrun]
  cases hl : left.tree sys s.vars s.heap with
  | none => simp [Derivation.tree, bind_apply, hl]
  | some r =>
    rw [Option.bind_some, binaryLoop_some (levelOperator_type op), bind_apply, hright _ next rest (hready.right r.2) hnext]
    simp only [vars_read, vars_grow, heap_read, heap_grow]
    cases hr : right.tree sys s.vars r.2 with
    | none => simp [Derivation.tree, bind_apply, map_apply, hl, hr]
    | some r' =>
      have hone := isOne_tree hready.known.2 (by cases level <;> nofun) hr
      have hnodes := hready.nodes
      simp only [Derivation.size] at hnodes
      have hone' : r.1 ≠ .nil := (isOne_tree hready.known.1 nofun hl).ne_nil
      have hroom : ((s.grow (left.size + right.size) r'.2).unread next rest).nodes < nodeMax := by
        simp only [nodes_unread, nodes_grow]
        omega
      simp only [Option.map_some, Option.bind_some, bind_apply, binaryNode, if_neg hone.ne_nil, grow_read, grow_grow,
        read_unread, makeSysNode_run hroom hone', nextToken_of_ahead ahead_unread]
      simp [Derivation.tree, Derivation.size, bind_apply, map_apply, hl, hr, Nat.add_assoc]

/-- A loop that has been reached, and where something behind is wrong. -/
theorem Loops.errs {e : Derivation symbol} {p : Proc Tree} {loop : ℕ → Tree → Token → Proc Tree} {bound : ℕ}
    (h : Loops sys e p loop bound) (hready : Ready sys e s next rest) (hnext : tightness next.type < bound)
    (hloop : ∀ fuel r, rest.length + 1 ≤ fuel → e.tree sys s.vars s.heap = some r →
      Errs (loop (fuel + 1) r.1 next) ((s.grow e.size r.2).read next rest)) : Errs p s := by
  intro a s' hrun
  obtain ⟨fuel, hfuel, heq⟩ := h s next rest hready hnext
  obtain ⟨fuel, rfl⟩ := Nat.exists_eq_add_of_le' (show 1 ≤ fuel by omega)
  rw [heq] at hrun
  obtain ⟨r, hr, hrun⟩ := Option.bind_eq_some_iff.mp hrun
  exact hloop fuel r (Nat.le_of_succ_le_succ hfuel) hr a s' hrun

theorem errs_procBinaryExpr {operand : Proc Tree} (hkeeps : KeepsError operand) (h : Errs operand s)
    (operator : FinshTokenType → Option NodeType) : Errs (procBinaryExpr operand operator) s :=
  h.bind fun _ => keepsError_nextToken.bind fun _ => keepsError_loopFuel.bind fun _ => keepsError_binaryLoop hkeeps _ _ _

theorem fails_binary_left {left : Derivation (.binary level)} {op : level.Operator} {right : Derivation level.operand}
    {p : Proc Tree} (h : Fails sys left p) : Fails sys (.binary left op right) p :=
  fun s _ _ hready => h s _ _ hready.left

theorem fails_binary_right {left : Derivation (.binary level)} {op : level.Operator} {right : Derivation level.operand}
    {p operand : Proc Tree} {bound : ℕ} (hop : levelTightness level < bound) (hkeeps : KeepsError operand)
    (hleft : Loops sys left p (binaryLoop operand (levelOperator level)) bound) (hright : Fails sys right operand) :
    Fails sys (.binary left op right) p := by
  intro s next rest hready
  refine hleft.errs hready.left (tightness_operator op ▸ hop) fun fuel r _ _ => ?_
  rw [binaryLoop_some (levelOperator_type op)]
  refine (hright _ next rest (hready.right r.2)).bind fun _ => (keepsError_binaryNode _ _ _).bind fun _ => ?_
  exact keepsError_nextToken.bind fun _ => keepsError_binaryLoop hkeeps _ _ _

/-! ## How a derivation begins -/

/-- It begins with an expression in parentheses. -/
def StartsParen : {symbol : Nonterminal} → Derivation symbol → Prop
  | _, .plain e => StartsParen e
  | _, .primary e => StartsParen e
  | _, .inc e => StartsParen e
  | _, .dec e => StartsParen e
  | _, .call e _ => StartsParen e
  | _, .paren _ => True
  | _, _ => False

theorem not_isEmpty (e : Derivation symbol) (h : symbol ≠ .params) : ¬e.IsEmpty := by
  cases e <;> first | exact id | exact absurd rfl h

/-- A token that a type does not begin with, and that is no closing parenthesis. -/
def Begins (t : Token) : Prop := isBaseType t.type = false ∧ t.type ≠ .unsigned ∧ t.type ≠ .rightParen

theorem begins_of_append {us vs : List Token} (h : ∃ t ts, us = t :: ts ∧ Begins t) : ∃ t ts, us ++ vs = t :: ts ∧ Begins t := by
  obtain ⟨t, ts, rfl, ht⟩ := h
  exact ⟨t, ts ++ vs, rfl, ht⟩

theorem tokens_begin (e : Derivation symbol) (h : ¬e.IsEmpty) : ∃ t ts, e.tokens = t :: ts ∧ Begins t := by
  induction e with
  | value e ih => exact ih (not_isEmpty e nofun)
  | assign target e iht ihe => exact begins_of_append (iht (not_isEmpty target nofun))
  | @operand level e ih => exact ih (not_isEmpty e (by cases level <;> nofun))
  | binary left op right ihl ihr => exact begins_of_append (ihl (not_isEmpty left nofun))
  | uncast e ih => exact ih (not_isEmpty e nofun)
  | cast type e ih => exact ⟨_, _, rfl, rfl, nofun, nofun⟩
  | plain e ih => exact ih (not_isEmpty e nofun)
  | unary op e ih => exact ⟨_, _, rfl, by cases op <;> exact ⟨rfl, nofun, nofun⟩⟩
  | primary e ih => exact ih (not_isEmpty e nofun)
  | inc e ih => exact begins_of_append (ih (not_isEmpty e nofun))
  | dec e ih => exact begins_of_append (ih (not_isEmpty e nofun))
  | call e params ihe ihp => exact begins_of_append (ihe (not_isEmpty e nofun))
  | literal lit => exact ⟨_, _, rfl, by cases lit <;> exact ⟨rfl, nofun, nofun⟩⟩
  | paren e ih => exact ⟨_, _, rfl, rfl, nofun, nofun⟩
  | identifier name => exact ⟨_, _, rfl, rfl, nofun, nofun⟩
  | empty => exact absurd trivial h
  | param e ih => exact ih (not_isEmpty e nofun)
  | comma params e ihp ihe =>
    by_cases hempty : params.IsEmpty
    · cases params with
      | empty => exact ⟨_, _, rfl, rfl, nofun, nofun⟩
      | param e => exact absurd hempty id
      | comma params e => exact absurd hempty id
    · exact begins_of_append (ihp hempty)

/-- What `proc_cast_expr` and `proc_unary_expr` look for. -/
def IsUnary (type : FinshTokenType) : Prop :=
  type = .add ∨ type = .inc ∨ type = .sub ∨ type = .dec ∨ type = .bitwise ∨ type = .mul ∨ type = .and

theorem begins_postfixed (e : Derivation symbol) (hsymbol : symbol = .postfixed ∨ symbol = .primary) (hparen : ¬StartsParen e) :
    ∃ t ts, e.tokens = t :: ts ∧ t.type ≠ .leftParen ∧ ¬IsUnary t.type := by
  have happend : ∀ (us vs : List Token), (∃ t ts, us = t :: ts ∧ t.type ≠ .leftParen ∧ ¬IsUnary t.type) →
      ∃ t ts, us ++ vs = t :: ts ∧ t.type ≠ .leftParen ∧ ¬IsUnary t.type := by
    rintro us vs ⟨t, ts, rfl, ht⟩
    exact ⟨t, ts ++ vs, rfl, ht⟩
  induction e with
  | primary e ih => exact ih (.inr rfl) hparen
  | inc e ih => exact happend _ _ (ih (.inl rfl) hparen)
  | dec e ih => exact happend _ _ (ih (.inl rfl) hparen)
  | call e params ihe ihp => exact happend _ _ (ihe (.inl rfl) hparen)
  | literal lit => exact ⟨_, _, rfl, by cases lit <;> exact ⟨nofun, by simp [IsUnary, LiteralToken.token, mark]⟩⟩
  | paren e ih => exact absurd trivial hparen
  | identifier name => exact ⟨_, _, rfl, nofun, by simp [IsUnary]⟩
  | _ => rcases hsymbol with h | h <;> cases h

theorem begins_unary (e : Derivation .unary) (hparen : ¬StartsParen e) : ∃ t ts, e.tokens = t :: ts ∧ t.type ≠ .leftParen := by
  cases e with
  | plain e =>
    obtain ⟨t, ts, htokens, ht, -⟩ := begins_postfixed e (.inl rfl) hparen
    exact ⟨t, ts, htokens, ht⟩
  | unary op e => exact ⟨_, _, rfl, by cases op <;> nofun⟩

theorem tokens_startsParen (e : Derivation symbol) (h : StartsParen e) :
    ∃ t ts, e.tokens = mark .leftParen :: t :: ts ∧ Begins t := by
  have happend : ∀ (us vs : List Token), (∃ t ts, us = mark .leftParen :: t :: ts ∧ Begins t) →
      ∃ t ts, us ++ vs = mark .leftParen :: t :: ts ∧ Begins t := by
    rintro us vs ⟨t, ts, rfl, ht⟩
    exact ⟨t, ts ++ vs, rfl, ht⟩
  induction e with
  | plain e ih => exact ih h
  | primary e ih => exact ih h
  | inc e ih => exact happend _ _ (ih h)
  | dec e ih => exact happend _ _ (ih h)
  | call e params ihe ihp => exact happend _ _ (ihe h)
  | paren e ih =>
    obtain ⟨t, ts, htokens, ht⟩ := tokens_begin e (not_isEmpty e nofun)
    exact ⟨t, ts ++ [mark .rightParen], by rw [Derivation.tokens, htokens]; rfl, ht⟩
  | _ => exact absurd h id

/-! ## Casts -/

theorem Ready.unread {t : Token} {ts : List Token} (h : Ready sys e s next rest) (htokens : e.tokens = t :: ts) :
    Ready sys e (s.unread t (ts ++ next :: rest)) next rest :=
  ⟨by rw [ahead_unread, htokens]; rfl, h.known, h.nodes⟩

theorem parses_uncast {e : Derivation .unary} {bound : ℕ} (hparen : ¬StartsParen e)
    (h : Parses sys e (parse sys fuel .unary) bound) : Parses sys (.uncast e) (parse sys (fuel + 1) .cast) bound := by
  intro s next rest hready hnext
  have hready : Ready sys e s next rest := ⟨hready.ahead, hready.known, hready.nodes⟩
  obtain ⟨t, ts, htokens, ht⟩ := begins_unary e hparen
  have hahead : s.ahead = t :: (ts ++ next :: rest) := by rw [hready.ahead, htokens]; rfl
  change procCastExprWith sys (procs sys fuel).1 (procs sys fuel).2 s = _
  rw [procCastExprWith, bind_apply, nextToken_of_ahead hahead, Option.bind_some, if_neg ht, bind_apply, tokenReplay_read,
    Option.bind_some]
  exact h _ next rest (hready.unread htokens) hnext

theorem fails_uncast {e : Derivation .unary} (hparen : ¬StartsParen e) (h : Fails sys e (parse sys fuel .unary)) :
    Fails sys (.uncast e) (parse sys (fuel + 1) .cast) := by
  intro s next rest hready
  have hready : Ready sys e s next rest := ⟨hready.ahead, hready.known, hready.nodes⟩
  obtain ⟨t, ts, htokens, ht⟩ := begins_unary e hparen
  have hahead : s.ahead = t :: (ts ++ next :: rest) := by rw [hready.ahead, htokens]; rfl
  refine errs_nextToken hahead ?_
  rw [if_neg ht]
  exact errs_tokenReplay (h _ next rest (hready.unread htokens))

/-- **A parenthesis is taken for a cast**, and what follows it is no type. -/
theorem fails_uncast_paren {e : Derivation .unary} (hparen : StartsParen e) :
    Fails sys (.uncast e) (parse sys (fuel + 1) .cast) := by
  intro s next rest hready
  obtain ⟨t, ts, htokens, hbase, hunsigned, -⟩ := tokens_startsParen e hparen
  have hahead : s.ahead = mark .leftParen :: t :: (ts ++ next :: rest) := by
    rw [hready.ahead, Derivation.tokens, htokens]
    rfl
  refine errs_nextToken hahead ?_
  rw [if_pos (by rfl)]
  refine Errs.bind ?_ fun _ => (keepsError_matchToken _).bind fun _ => (keepsError_parse sys fuel .cast).bind fun operand => ?_
  · refine errs_nextToken (ahead_read) ?_
    rw [if_neg (by simp [hbase]), if_neg hunsigned]
    exact errs_procTypeFail _
  · split
    · exact keepsError_tokenReplay.bind fun _ => keepsError_parse sys fuel .unary
    · exact keepsError_pure _

theorem procTypePointer_run (type : FinshType) (isPointer : Bool) {ts : List Token}
    (h : s.ahead = (if isPointer then [mark .mul] else []) ++ mark .rightParen :: ts) :
    ∃ s', procTypePointer type s = some (if isPointer then pointerType type else type, s') ∧
      s'.ahead = mark .rightParen :: ts ∧ ∀ t us, s'.read t us = s.read t us := by
  cases isPointer with
  | false =>
    refine ⟨s.unread (mark .rightParen) ts, ?_, rfl, fun _ _ => rfl⟩
    rw [procTypePointer, bind_apply, nextToken_of_ahead h]
    rfl
  | true =>
    refine ⟨s.read (mark .mul) (mark .rightParen :: ts), ?_, rfl, fun _ _ => rfl⟩
    rw [procTypePointer, bind_apply, nextToken_of_ahead h]
    rfl

theorem not_isBaseType_unsigned : ¬isBaseType (keyword .unsigned "unsigned").type = true := Bool.false_ne_true

/-- **A type** is read. -/
theorem procType_run {type : TypeName} (hok : type.Ok) {ts : List Token} (h : s.ahead = type.tokens ++ mark .rightParen :: ts) :
    ∃ s', procType s = some (type.finshType, s') ∧ s'.ahead = mark .rightParen :: ts ∧ ∀ t us, s'.read t us = s.read t us := by
  obtain ⟨isUnsigned, base, isPointer⟩ := type
  have hbase : isBaseType base.token.type = true := by cases base <;> rfl
  cases isUnsigned with
  | false =>
    have hahead : s.ahead = base.token :: ((if isPointer then [mark .mul] else []) ++ mark .rightParen :: ts) := h
    obtain ⟨s', hrun, hs', hread⟩ := procTypePointer_run (baseType base.token.type) isPointer (ahead_read (s := s))
    refine ⟨s', ?_, hs', hread⟩
    rw [procType, bind_apply, nextToken_of_ahead hahead, Option.bind_some, if_pos hbase, hrun]
    cases base <;> rfl
  | true =>
    have hahead : s.ahead = keyword .unsigned "unsigned" :: base.token ::
      ((if isPointer then [mark .mul] else []) ++ mark .rightParen :: ts) := h
    obtain ⟨s', hrun, hs', hread⟩ := procTypePointer_run (unsignedType base.token.type) isPointer (ahead_read (s := s))
    refine ⟨s', ?_, hs', hread⟩
    have hvoid : base.token.type ≠ .void := by
      cases base with
      | void => exact absurd ⟨rfl, rfl⟩ hok
      | _ => exact nofun
    rw [procType, bind_apply, nextToken_of_ahead hahead, Option.bind_some, if_neg not_isBaseType_unsigned, if_pos (by rfl), bind_apply,
      nextToken_of_ahead ahead_read, Option.bind_some, if_pos hbase, if_neg hvoid, read_read, hrun]
    cases base <;> first | rfl | exact absurd rfl hvoid

/-- There is no `unsigned void`. -/
theorem errs_procType {type : TypeName} (hno : ¬type.Ok) {ts : List Token} (h : s.ahead = type.tokens ++ ts) : Errs procType s := by
  obtain ⟨isUnsigned, base, isPointer⟩ := type
  obtain ⟨rfl, rfl⟩ : base = .void ∧ isUnsigned = true := not_not.mp hno
  have hahead : s.ahead = keyword .unsigned "unsigned" :: BaseType.void.token ::
    ((if isPointer then [mark .mul] else []) ++ ts) := h
  refine errs_nextToken hahead ?_
  rw [if_neg not_isBaseType_unsigned, if_pos (by rfl)]
  refine errs_nextToken ahead_read ?_
  rw [if_pos (by rfl), if_pos (by rfl)]
  exact errs_procTypeFail _

theorem Ready.cast {type : TypeName} {e : Derivation .cast} (h : Ready sys (.cast type e) s next rest) :
    Ready sys e (s.read (mark .rightParen) (e.tokens ++ next :: rest)) next rest :=
  ⟨rfl, h.known, h.nodes⟩

theorem Ready.ahead_cast {type : TypeName} {e : Derivation .cast} (h : Ready sys (.cast type e) s next rest) :
    s.ahead = mark .leftParen :: (type.tokens ++ mark .rightParen :: (e.tokens ++ next :: rest)) := by
  rw [h.ahead, Derivation.tokens, List.cons_append, List.append_assoc, List.cons_append]

theorem parses_cast {type : TypeName} {e : Derivation .cast} {bound : ℕ} (hok : type.Ok)
    (h : Parses sys e (parse sys fuel .cast) bound) : Parses sys (.cast type e) (parse sys (fuel + 1) .cast) bound := by
  intro s next rest hready hnext
  obtain ⟨s', htype, hahead, hread⟩ := procType_run hok (ahead_read (s := s) (t := mark .leftParen))
  have hparen : matchToken .rightParen s' = some (mark .rightParen, s'.read _ _) := matchToken_of_ahead hahead rfl
  change procCastExprWith sys (parse sys fuel .cast) (parse sys fuel .assign) s = _
  rw [procCastExprWith, bind_apply, nextToken_of_ahead hready.ahead_cast, Option.bind_some, if_pos (by rfl), bind_apply, htype,
    Option.bind_some, bind_apply, hparen, Option.bind_some, hread, read_read, bind_apply, h _ next rest hready.cast hnext]
  simp only [vars_read, heap_read]
  cases htree : e.tree sys s.vars s.heap with
  | none => simp [Derivation.tree, bind_apply, htree]
  | some r =>
    have hone := isOne_tree hready.cast.known nofun htree
    simp [Derivation.tree, Derivation.size, bind_apply, pure_apply, htree, hone.ne_nil]

theorem fails_cast {type : TypeName} {e : Derivation .cast} (h : type.Ok → Fails sys e (parse sys fuel .cast)) :
    Fails sys (.cast type e) (parse sys (fuel + 1) .cast) := by
  intro s next rest hready
  have hlast : ∀ operand type, KeepsError (if operand = Tree.nil then tokenReplay >>= fun _ => parse sys fuel .unary
      else pure (setDataType type operand)) := by
    intro operand type
    split
    · exact keepsError_tokenReplay.bind fun _ => keepsError_parse sys fuel .unary
    · exact keepsError_pure _
  refine errs_nextToken hready.ahead_cast ?_
  rw [if_pos (by rfl)]
  by_cases hok : type.Ok
  · obtain ⟨s', htype, hahead, hread⟩ := procType_run hok (ahead_read (s := s) (t := mark .leftParen))
    refine errs_bind fun a s₁ hrun => ?_
    obtain ⟨rfl, rfl⟩ := Prod.mk.inj (Option.some.inj (htype.symm.trans hrun))
    refine errs_bind fun a s₂ hrun => ?_
    obtain ⟨rfl, rfl⟩ := Prod.mk.inj (Option.some.inj ((matchToken_of_ahead hahead rfl).symm.trans hrun))
    rw [hread, read_read]
    exact (h hok _ next rest hready.cast).bind fun operand => hlast operand _
  · exact (errs_procType hok ahead_read).bind fun _ => (keepsError_matchToken _).bind fun _ =>
      (keepsError_parse sys fuel .cast).bind fun operand => hlast operand _

/-! ## Behind an operator, and in front of one -/

theorem Ready.operand {op : UnaryOp} {e : Derivation .cast} (h : Ready sys (.unary op e) s next rest) :
    Ready sys e (s.read (mark op.type) (e.tokens ++ next :: rest)) next rest :=
  ⟨rfl, h.known, Nat.le_trans (Nat.add_le_add_left (Nat.le_add_right _ _) _) h.nodes⟩

/-- What `proc_unary_expr` does with the operand of an operator. -/
def unaryNode (t : Tree) : UnaryOp → Proc Tree
  | .add => pure t
  | .inc => makeSysNode .sysPreinc t .nil
  | .sub => finshNodeNewLong 0 >>= fun zero => makeSysNode .sysSub zero t
  | .dec => makeSysNode .sysPredec t .nil
  | .bitwise => makeSysNode .sysBitwise t .nil
  | .mul => makeSysNode .sysGetvalue t .nil
  | .and => makeSysNode .sysGetaddr t .nil

theorem procUnaryExpr_of_operator {op : UnaryOp} {cast assign : Proc Tree} {ts : List Token} (h : s.ahead = mark op.type :: ts) :
    procUnaryExpr sys cast assign s = (cast >>= fun t => unaryNode t op) (s.read (mark op.type) ts) := by
  rw [procUnaryExpr, bind_apply, nextToken_of_ahead h, Option.bind_some]
  cases op with
  | add =>
    rw [bind_apply]
    exact (Option.bind_fun_some _).symm
  | _ => rfl

theorem unaryNode_run {op : UnaryOp} {t : Tree} (ht : t ≠ .nil) (hs : s.nodes + op.size ≤ nodeMax) :
    unaryNode t op s = some (op.tree t, s.grow op.size s.heap) := by
  cases op with
  | add => rfl
  | sub =>
    have hzero : finshNodeNewLong 0 s = some (Finsh.finshNodeNewLong 0, s.grow 1 s.heap) :=
      newLeaf_run (Nat.lt_of_lt_of_le (Nat.lt_add_of_pos_right (by decide)) hs)
    have hnode : (s.grow 1 s.heap).nodes < nodeMax := hs
    rw [unaryNode, bind_apply, hzero, Option.bind_some, makeSysNode_run hnode (by exact fun h => nomatch h)]
    rfl
  | _ => exact makeSysNode_run hs ht

theorem keepsError_unaryNode (t : Tree) (op : UnaryOp) : KeepsError (unaryNode t op) := by
  cases op with
  | add => exact keepsError_pure t
  | sub => exact (keepsError_newLeaf _).bind fun _ => keepsError_makeSysNode _ _ _
  | _ => exact keepsError_makeSysNode _ _ _

theorem parses_unary {op : UnaryOp} {e : Derivation .cast} {bound : ℕ} (h : Parses sys e (parse sys fuel .cast) bound) :
    Parses sys (.unary op e) (parse sys fuel .unary) bound := by
  intro s next rest hready hnext
  have hnodes := hready.nodes
  simp only [Derivation.size] at hnodes
  have hahead : s.ahead = mark op.type :: (e.tokens ++ next :: rest) := hready.ahead
  change procUnaryExpr sys (parse sys fuel .cast) (parse sys fuel .assign) s = _
  rw [procUnaryExpr_of_operator hahead, bind_apply, h _ next rest hready.operand hnext]
  simp only [vars_read, heap_read]
  cases htree : e.tree sys s.vars s.heap with
  | none => simp [Derivation.tree, bind_apply, htree]
  | some r =>
    have hone := isOne_tree hready.operand.known nofun htree
    have hroom : ((s.grow e.size r.2).unread next rest).nodes + op.size ≤ nodeMax := by
      simp only [nodes_unread, nodes_grow]
      omega
    simp [Derivation.tree, Derivation.size, bind_apply, pure_apply, htree, unaryNode_run hone.ne_nil hroom]

theorem fails_unary {op : UnaryOp} {e : Derivation .cast} (h : Fails sys e (parse sys fuel .cast)) :
    Fails sys (.unary op e) (parse sys fuel .unary) := by
  intro s next rest hready a s' hrun
  change procUnaryExpr sys (parse sys fuel .cast) (parse sys fuel .assign) s = _ at hrun
  rw [procUnaryExpr_of_operator hready.ahead] at hrun
  exact (h _ next rest hready.operand).bind (fun t => keepsError_unaryNode t op) a s' hrun

/-- Without an operator. -/
theorem procUnaryExpr_of_not_isUnary {cast assign : Proc Tree} {t : Token} {ts : List Token} (h : s.ahead = t :: ts)
    (ht : ¬IsUnary t.type) : procUnaryExpr sys cast assign s = procPostfixExpr sys assign (s.unread t ts) := by
  rw [procUnaryExpr, bind_apply, nextToken_of_ahead h, Option.bind_some]
  dsimp only
  generalize t.type = type at ht
  cases type <;> first | rfl | exact absurd (by simp [IsUnary]) ht

theorem postfixLoop_end {assign : Proc Tree} {node : Tree} (fuel : ℕ) (hnext : tightness next.type < 9) :
    postfixLoop assign (fuel + 1) node next (s.read next rest) = some (node, s.unread next rest) := by
  have hinc : next.type ≠ .inc := fun h => absurd hnext (by rw [h]; decide)
  have hdec : next.type ≠ .dec := fun h => absurd hnext (by rw [h]; decide)
  have hparen : next.type ≠ .leftParen := fun h => absurd hnext (by rw [h]; decide)
  rw [postfixLoop, if_neg hinc, if_neg hdec, if_neg hparen]
  rfl

theorem Ready.plain {t : Token} {ts : List Token} {e : Derivation .postfixed} (h : Ready sys (.plain e) s next rest)
    (htokens : e.tokens = t :: ts) : Ready sys e (s.unread t (ts ++ next :: rest)) next rest :=
  ⟨by rw [ahead_unread, htokens]; rfl, h.known, h.nodes⟩

theorem parses_plain {e : Derivation .postfixed} {bound : ℕ} (hbound : 9 ≤ bound) (hparen : ¬StartsParen e)
    (h : Loops sys e (parse sys fuel .postfixed) (postfixLoop (parse sys fuel .assign)) bound) :
    Parses sys (.plain e) (parse sys fuel .unary) 9 := by
  intro s next rest hready hnext
  obtain ⟨t, ts, htokens, -, ht⟩ := begins_postfixed e (.inl rfl) hparen
  have hahead : s.ahead = t :: (ts ++ next :: rest) := by rw [hready.ahead, Derivation.tokens, htokens]; rfl
  obtain ⟨n, hn, hrun⟩ := h _ next rest (hready.plain htokens) (Nat.lt_of_lt_of_le hnext hbound)
  obtain ⟨n, rfl⟩ := Nat.exists_eq_add_of_le' (show 1 ≤ n by omega)
  change procUnaryExpr sys (parse sys fuel .cast) (parse sys fuel .assign) s = _
  rw [procUnaryExpr_of_not_isUnary hahead ht]
  change parse sys fuel .postfixed _ = _
  rw [hrun]
  simp only [vars_unread, heap_unread]
  change _ = (e.tree sys s.vars s.heap).map _
  cases e.tree sys s.vars s.heap with
  | none => rfl
  | some r => exact postfixLoop_end n hnext

theorem fails_plain {e : Derivation .postfixed} (hparen : ¬StartsParen e) (h : Fails sys e (parse sys fuel .postfixed)) :
    Fails sys (.plain e) (parse sys fuel .unary) := by
  intro s next rest hready a s' hrun
  obtain ⟨t, ts, htokens, -, ht⟩ := begins_postfixed e (.inl rfl) hparen
  have hahead : s.ahead = t :: (ts ++ next :: rest) := by rw [hready.ahead, Derivation.tokens, htokens]; rfl
  change procUnaryExpr sys (parse sys fuel .cast) (parse sys fuel .assign) s = _ at hrun
  rw [procUnaryExpr_of_not_isUnary hahead ht] at hrun
  exact h _ next rest (hready.plain htokens) a s' hrun

/-! ## Behind a primary expression -/

variable {assign : Proc Tree}

/-- A primary expression is read, and nothing behind it. -/
def Reads (sys : FinshSystem) (e : Derivation .primary) (p : Proc Tree) : Prop :=
  ∀ s next rest, Ready sys e s next rest → ∃ t, p s = (e.tree sys s.vars s.heap).map fun r =>
    (r.1, (s.grow e.size r.2).read t (next :: rest))

theorem reads_literal (lit : LiteralToken) : Reads sys (.literal lit) (procPrimaryExpr sys assign) := by
  intro s next rest hready
  have hahead : s.ahead = lit.token :: next :: rest := hready.ahead
  have hroom : (s.read lit.token (next :: rest)).nodes < nodeMax := hready.nodes
  refine ⟨lit.token, ?_⟩
  rw [procPrimaryExpr, bind_apply, nextToken_of_ahead hahead, Option.bind_some]
  cases lit with
  | string bytes =>
    change finshNodeNewString sys bytes _ = _
    rw [finshNodeNewString, bind_apply, finshNodeAllocate, if_pos hroom, Option.bind_some, if_pos rfl, bind_apply, newString]
    simp only [Derivation.tree, Derivation.literalTree, Option.map_map]
    change Option.bind (Option.map _ (s.heap.finshNodeNewString (s.vars.map FinshVar.heapVar) bytes)) _ = _
    cases s.heap.finshNodeNewString (s.vars.map FinshVar.heapVar) bytes with
    | none => rfl
    | some r => rfl
  | _ => exact newLeaf_run hroom

theorem reads_identifier (name : List UInt8) : Reads sys (.identifier name) (procPrimaryExpr sys assign) := by
  intro s next rest hready
  let token : Token := { type := .identifier, string := name }
  have hahead : s.ahead = token :: next :: rest := hready.ahead
  have hroom : (s.read token (next :: rest)).nodes < nodeMax := hready.nodes
  obtain ⟨symbol, hsymbol⟩ := Option.isSome_iff_exists.mp hready.known
  have hmatch : matchToken .identifier (s.unread token (next :: rest)) = some (token, s.read token (next :: rest)) :=
    matchToken_of_ahead ahead_unread rfl
  refine ⟨token, ?_⟩
  rw [procPrimaryExpr, bind_apply, nextToken_of_ahead hahead, Option.bind_some]
  change (tokenReplay >>= fun _ => procIdentifier >>= fun id => finshNodeNewId sys id) (s.read token (next :: rest)) = _
  rw [bind_apply, tokenReplay_read, Option.bind_some, bind_apply, procIdentifier, bind_apply, hmatch, Option.bind_some]
  change finshNodeNewId sys (name.take nameMax) (s.read token (next :: rest)) = _
  have hlookup : finshNodeNewId sys (name.take nameMax) (s.read token (next :: rest)) =
      newLeaf (idNode symbol) (s.read token (next :: rest)) := by
    change newId (lookup sys s.vars (name.take nameMax)) (s.read token (next :: rest)) = _
    rw [hsymbol]
    rfl
  rw [hlookup, newLeaf_run hroom]
  simp [Derivation.tree, Derivation.size, Derivation.identifierTree, hsymbol, pure_apply]

theorem loops_primary {e : Derivation .primary} (h : Reads sys e (procPrimaryExpr sys assign)) (bound : ℕ) :
    Loops sys (.primary e) (procPostfixExpr sys assign) (postfixLoop assign) bound := by
  intro s next rest hready hnext
  obtain ⟨t, hrun⟩ := h s next rest ⟨hready.ahead, hready.known, hready.nodes⟩
  refine ⟨rest.length + 2, Nat.le_refl _, ?_⟩
  rw [procPostfixExpr, bind_apply, hrun]
  cases htree : e.tree sys s.vars s.heap with
  | none => simp [Derivation.tree, htree]
  | some r =>
    simp only [Derivation.tree, Derivation.size, htree, Option.map_some, Option.bind_some, bind_apply, nextToken_read,
      loopFuel_read]

theorem Ready.stepped {e e' : Derivation .postfixed} {type : FinshTokenType} (h : Ready sys e' s next rest)
    (htokens : e'.tokens = e.tokens ++ [mark type]) (hsize : e.size ≤ e'.size)
    (hknown : ∀ vars, e'.Known sys vars → e.Known sys vars) : Ready sys e s (mark type) (next :: rest) :=
  ⟨by rw [h.ahead, htokens, List.append_assoc]; rfl, hknown _ h.known, Nat.le_trans (Nat.add_le_add_left hsize _) h.nodes⟩

/-- **`++` or `--`** behind an expression. -/
theorem loops_step (type : FinshTokenType) (node : NodeType) {e e' : Derivation .postfixed} {p : Proc Tree} {bound : ℕ}
    (htype : tightness type < bound) (htokens : e'.tokens = e.tokens ++ [mark type]) (hsize : e'.size = e.size + 1)
    (hknown : ∀ vars, e'.Known sys vars → e.Known sys vars)
    (htree : ∀ vars heap, e'.tree sys vars heap = (e.tree sys vars heap).map fun r => (Finsh.makeSysNode node r.1 .nil, r.2))
    (hloop : ∀ fuel t, postfixLoop assign (fuel + 1) t (mark type) =
      (makeSysNode node t .nil >>= fun t => nextToken >>= fun token => postfixLoop assign fuel t token))
    (h : Loops sys e p (postfixLoop assign) bound) : Loops sys e' p (postfixLoop assign) bound := by
  intro s next rest hready _
  have hnodes := hready.nodes
  rw [hsize] at hnodes
  have hready' := hready.stepped htokens (hsize ▸ Nat.le_succ _) hknown
  obtain ⟨fuel, hfuel, hrun⟩ := h s _ _ hready' htype
  rw [List.length_cons] at hfuel
  obtain ⟨fuel, rfl⟩ := Nat.exists_eq_add_of_le' (show 1 ≤ fuel by omega)
  refine ⟨fuel, by omega, ?_⟩
  rw [hrun, htree, hsize]
  cases hr : e.tree sys s.vars s.heap with
  | none => rfl
  | some r =>
    have hone := isOne_tree hready'.known nofun hr
    have hroom : ((s.grow e.size r.2).read (mark type) (next :: rest)).nodes < nodeMax := by
      simp only [nodes_read, nodes_grow]
      omega
    rw [Option.bind_some, hloop, bind_apply, makeSysNode_run hroom hone.ne_nil]
    simp [bind_apply]

/-- The siblings of a node, one by one. -/
def toList : Tree → List Tree
  | .nil => []
  | .node n child sibling => .node n child .nil :: toList sibling

theorem chain_toList (t : Tree) : chain (toList t) = t := by
  induction t with
  | nil => rfl
  | node n child sibling _ ih =>
    rw [toList, chain, List.foldr_cons]
    exact congrArg (Tree.node n child) ih

theorem toList_addSibling {t u : Tree} (hu : IsOne u) : toList (t.addSibling u) = toList t ++ [u] := by
  induction t with
  | nil =>
    obtain ⟨n, child, rfl⟩ := hu
    rfl
  | node n child sibling _ ih => exact congrArg (Tree.node n child .nil :: ·) ih

/-- The loop over the operands of a call, from the tree of those that have been read. -/
def paramsFrom (assign : Proc Tree) (fuel : ℕ) (t : Tree) (token : Token) : Proc Tree := paramLoop assign fuel (toList t) token

theorem loops_param {e : Derivation .assign} {bound : ℕ} (h : Parses sys e assign bound) :
    Loops sys (.param e) (procParamList assign) (paramsFrom assign) bound := by
  intro s next rest hready hnext
  have hready : Ready sys e s next rest := ⟨hready.ahead, hready.known, hready.nodes⟩
  refine ⟨rest.length + 2, Nat.le_refl _, ?_⟩
  rw [procParamList, bind_apply, h s next rest hready hnext]
  cases htree : e.tree sys s.vars s.heap with
  | none => simp [Derivation.tree, htree]
  | some r =>
    obtain ⟨n, child, hone⟩ := isOne_tree hready.known nofun htree
    simp only [Derivation.tree, Derivation.size, htree, Option.map_some, Option.bind_some, hone, paramsFrom, toList]
    rw [if_neg nofun, bind_apply, nextToken_unread, Option.bind_some, bind_apply, loopFuel_read]
    rfl

theorem Ready.params {params : Derivation .params} {e : Derivation .assign} (h : Ready sys (.comma params e) s next rest) :
    Ready sys params s (mark .comma) (e.tokens ++ next :: rest) := by
  refine ⟨?_, h.known.1, Nat.le_trans ?_ h.nodes⟩
  · rw [h.ahead, Derivation.tokens, List.append_assoc, List.cons_append]
  · simp only [Derivation.size]
    omega

theorem Ready.lastParam {params : Derivation .params} {e : Derivation .assign} (h : Ready sys (.comma params e) s next rest)
    (heap : FinshHeap) : Ready sys e ((s.grow params.size heap).read (mark .comma) (e.tokens ++ next :: rest)) next rest := by
  refine ⟨rfl, h.known.2, Nat.le_trans ?_ h.nodes⟩
  simp only [Derivation.size, nodes_read, nodes_grow]
  omega

theorem paramsFrom_comma (fuel : ℕ) (t : Tree) : paramsFrom assign (fuel + 1) t (mark .comma) =
    (assign >>= fun next => addParam (toList t) next >>= fun params => nextToken >>= fun token =>
      paramLoop assign fuel params token) := by
  rw [paramsFrom, paramLoop, if_pos (by rfl)]

/-- **One operand more.** -/
theorem loops_comma {params : Derivation .params} {e : Derivation .assign} {bound : ℕ} (hbound : 1 < bound)
    (hparams : Loops sys params (procParamList assign) (paramsFrom assign) bound) (h : Parses sys e assign bound) :
    Loops sys (.comma params e) (procParamList assign) (paramsFrom assign) bound := by
  intro s next rest hready hnext
  obtain ⟨fuel, hfuel, hrun⟩ := hparams s _ _ hready.params hbound
  rw [List.length_append, List.length_cons] at hfuel
  obtain ⟨fuel, rfl⟩ := Nat.exists_eq_add_of_le' (show 1 ≤ fuel by omega)
  refine ⟨fuel, by omega, ?_⟩
  rw [hrun]
  cases hp : params.tree sys s.vars s.heap with
  | none => simp [Derivation.tree, bind_apply, map_apply, hp]
  | some r =>
    rw [Option.bind_some, paramsFrom_comma, bind_apply, h _ next rest (hready.lastParam r.2) hnext]
    simp only [vars_read, vars_grow, heap_read, heap_grow]
    cases he : e.tree sys s.vars r.2 with
    | none => simp [Derivation.tree, bind_apply, map_apply, hp, he]
    | some r' =>
      have hone := isOne_tree hready.known.2 nofun he
      simp [Derivation.tree, Derivation.size, bind_apply, map_apply, pure_apply, hp, he, addParam, hone.ne_nil, paramsFrom,
        toList_addSibling hone]

theorem fails_param {e : Derivation .assign} (hassign : KeepsError assign) (h : Fails sys e assign) :
    Fails sys (.param e) (procParamList assign) := by
  intro s next rest hready
  refine (h s next rest ⟨hready.ahead, hready.known, hready.nodes⟩).bind fun first => ?_
  split
  · exact keepsError_pure _
  · exact keepsError_nextToken.bind fun _ => keepsError_loopFuel.bind fun _ => keepsError_paramLoop hassign _ _ _

theorem fails_comma_left {params : Derivation .params} {e : Derivation .assign} {p : Proc Tree} (h : Fails sys params p) :
    Fails sys (.comma params e) p := fun s _ _ hready => h s _ _ hready.params

theorem fails_comma_right {params : Derivation .params} {e : Derivation .assign} {bound : ℕ} (hbound : 1 < bound)
    (hassign : KeepsError assign) (hparams : Loops sys params (procParamList assign) (paramsFrom assign) bound)
    (h : Fails sys e assign) : Fails sys (.comma params e) (procParamList assign) := by
  intro s next rest hready
  refine hparams.errs hready.params hbound fun fuel r _ _ => ?_
  rw [paramsFrom_comma]
  refine (h _ next rest (hready.lastParam r.2)).bind fun _ => (keepsError_addParam _ _).bind fun _ => ?_
  exact keepsError_nextToken.bind fun _ => keepsError_paramLoop hassign _ _ _

/-- **The operands of a call**, with the parenthesis behind them. -/
theorem procParams_run {params : Derivation .params} {bound : ℕ} (hbound : 0 < bound)
    (hready : Ready sys params s (mark .rightParen) rest)
    (hparams : ¬params.IsEmpty → Loops sys params (procParamList assign) (paramsFrom assign) bound) :
    procParams assign s = (params.tree sys s.vars s.heap).map fun r =>
      (r.1, (s.grow params.size r.2).read (mark .rightParen) rest) := by
  by_cases hempty : params.IsEmpty
  · cases params with
    | empty =>
      rw [procParams, bind_apply, nextToken_of_ahead hready.ahead]
      rfl
    | param e => exact absurd hempty id
    | comma params e => exact absurd hempty id
  · obtain ⟨t, ts, htokens, -, -, ht⟩ := tokens_begin params hempty
    have hahead : s.ahead = t :: (ts ++ mark .rightParen :: rest) := by rw [hready.ahead, htokens]; rfl
    obtain ⟨fuel, hfuel, hrun⟩ := hparams hempty _ _ _ (hready.unread htokens) hbound
    obtain ⟨fuel, rfl⟩ := Nat.exists_eq_add_of_le' (show 1 ≤ fuel by omega)
    rw [procParams, bind_apply, nextToken_of_ahead hahead, Option.bind_some, if_neg ht, bind_apply, tokenReplay_read,
      Option.bind_some, bind_apply, hrun]
    simp only [vars_unread, heap_unread]
    cases params.tree sys s.vars s.heap with
    | none => rfl
    | some r =>
      rw [Option.bind_some, paramsFrom, paramLoop, if_neg (by exact fun h => nomatch h), chain_toList]
      rfl

theorem errs_procParams {params : Derivation .params} (hassign : KeepsError assign) (hempty : ¬params.IsEmpty)
    (hready : Ready sys params s next rest) (hparams : Fails sys params (procParamList assign)) : Errs (procParams assign) s := by
  obtain ⟨t, ts, htokens, -, -, ht⟩ := tokens_begin params hempty
  have hahead : s.ahead = t :: (ts ++ next :: rest) := by rw [hready.ahead, htokens]; rfl
  refine errs_nextToken hahead ?_
  rw [if_neg ht]
  refine errs_tokenReplay ?_
  exact (hparams _ next rest (hready.unread htokens)).bind fun _ => (keepsError_matchToken _).bind fun _ => keepsError_pure _

theorem Ready.called {e : Derivation .postfixed} {params : Derivation .params} (h : Ready sys (.call e params) s next rest) :
    Ready sys e s (mark .leftParen) (params.tokens ++ mark .rightParen :: next :: rest) := by
  refine ⟨?_, h.known.1, Nat.le_trans ?_ h.nodes⟩
  · rw [h.ahead, Derivation.tokens]
    simp
  · simp only [Derivation.size]
    omega

theorem Ready.operands {e : Derivation .postfixed} {params : Derivation .params} (h : Ready sys (.call e params) s next rest)
    (heap : FinshHeap) : Ready sys params
      ((s.grow e.size heap).read (mark .leftParen) (params.tokens ++ mark .rightParen :: next :: rest)) (mark .rightParen)
      (next :: rest) := by
  refine ⟨rfl, h.known.2, Nat.le_trans ?_ h.nodes⟩
  simp only [Derivation.size, nodes_read, nodes_grow]
  omega

theorem postfixLoop_paren (fuel : ℕ) (t : Tree) : postfixLoop assign (fuel + 1) t (mark .leftParen) =
    (procParams assign >>= fun params => makeSysNode .sysFunc t params >>= fun t => nextToken >>= fun token =>
      postfixLoop assign fuel t token) := by
  rw [postfixLoop, if_neg (by exact fun h => nomatch h), if_neg (by exact fun h => nomatch h), if_pos (by rfl)]

/-- **A call.** -/
theorem loops_call {e : Derivation .postfixed} {params : Derivation .params} {p : Proc Tree} {bound bound' : ℕ}
    (hbound : 9 < bound) (hbound' : 0 < bound')
    (hparams : ¬params.IsEmpty → Loops sys params (procParamList assign) (paramsFrom assign) bound')
    (h : Loops sys e p (postfixLoop assign) bound) : Loops sys (.call e params) p (postfixLoop assign) bound := by
  intro s next rest hready _
  have hnodes := hready.nodes
  simp only [Derivation.size] at hnodes
  obtain ⟨fuel, hfuel, hrun⟩ := h s _ _ hready.called hbound
  rw [List.length_append, List.length_cons, List.length_cons] at hfuel
  obtain ⟨fuel, rfl⟩ := Nat.exists_eq_add_of_le' (show 1 ≤ fuel by omega)
  refine ⟨fuel, by omega, ?_⟩
  rw [hrun]
  cases hr : e.tree sys s.vars s.heap with
  | none => simp [Derivation.tree, bind_apply, map_apply, hr]
  | some r =>
    rw [Option.bind_some, postfixLoop_paren, bind_apply, procParams_run hbound' (hready.operands r.2) hparams]
    simp only [vars_read, vars_grow, heap_read, heap_grow]
    cases hp : params.tree sys s.vars r.2 with
    | none => simp [Derivation.tree, bind_apply, map_apply, hr, hp]
    | some r' =>
      have hone := isOne_tree hready.known.1 nofun hr
      have hroom : ((s.grow (e.size + params.size) r'.2).read (mark .rightParen) (next :: rest)).nodes < nodeMax := by
        simp only [nodes_read, nodes_grow]
        omega
      simp only [Option.map_some, Option.bind_some, bind_apply, grow_read, grow_grow, read_read,
        makeSysNode_run hroom hone.ne_nil]
      simp [Derivation.tree, Derivation.size, bind_apply, map_apply, hr, hp, Nat.add_assoc]

theorem fails_call_left {e : Derivation .postfixed} {params : Derivation .params} {p : Proc Tree} (h : Fails sys e p) :
    Fails sys (.call e params) p := fun s _ _ hready => h s _ _ hready.called

theorem fails_call_right {e : Derivation .postfixed} {params : Derivation .params} {p : Proc Tree} {bound : ℕ}
    (hbound : 9 < bound) (hassign : KeepsError assign) (hempty : ¬params.IsEmpty)
    (he : Loops sys e p (postfixLoop assign) bound) (h : Fails sys params (procParamList assign)) :
    Fails sys (.call e params) p := by
  intro s next rest hready
  refine he.errs hready.called hbound fun fuel r _ _ => ?_
  rw [postfixLoop_paren]
  refine (errs_procParams hassign hempty (hready.operands r.2) h).bind fun _ => (keepsError_makeSysNode _ _ _).bind fun _ => ?_
  exact keepsError_nextToken.bind fun _ => keepsError_postfixLoop hassign _ _ _

/-! ## Assignments -/

theorem parses_value {e : Derivation (.binary .inclusiveOr)} {bound : ℕ} (hbound : 2 ≤ bound)
    (h : Parses sys e (parse sys fuel (.binary .inclusiveOr)) bound) : Parses sys (.value e) (parse sys (fuel + 1) .assign) 2 := by
  intro s next rest hready hnext
  have hassign : next.type ≠ .assign := fun h => absurd hnext (by rw [h]; decide)
  change procAssignExprWith (parse sys fuel .cast) (parse sys fuel .assign) s = _
  rw [procAssignExprWith, bind_apply]
  change (parse sys fuel (.binary .inclusiveOr) s).bind _ = _
  rw [h s next rest ⟨hready.ahead, hready.known, hready.nodes⟩ (Nat.lt_of_lt_of_le hnext hbound)]
  cases htree : e.tree sys s.vars s.heap with
  | none => simp [Derivation.tree, htree]
  | some r =>
    rw [Option.map_some, Option.bind_some, bind_apply, nextToken_unread, Option.bind_some, if_neg hassign, bind_apply,
      tokenReplay_read]
    simp [Derivation.tree, Derivation.size, pure_apply, htree]

theorem fails_value {e : Derivation (.binary .inclusiveOr)} (h : Fails sys e (parse sys fuel (.binary .inclusiveOr))) :
    Fails sys (.value e) (parse sys (fuel + 1) .assign) := by
  intro s next rest hready
  refine Errs.bind (h s next rest ⟨hready.ahead, hready.known, hready.nodes⟩) fun left => keepsError_nextToken.bind fun token => ?_
  split
  · exact (keepsError_parse sys fuel .assign).bind fun _ => keepsError_makeSysNode _ _ _
  · exact keepsError_tokenReplay.bind fun _ => keepsError_pure _

theorem Ready.target {target : Derivation .unary} {e : Derivation .assign} (h : Ready sys (.assign target e) s next rest) :
    Ready sys target s (mark .assign) (e.tokens ++ next :: rest) := by
  refine ⟨?_, h.known.1, Nat.le_trans ?_ h.nodes⟩
  · rw [h.ahead, Derivation.tokens, List.append_assoc, List.cons_append]
  · simp only [Derivation.size]
    omega

theorem Ready.assigned {target : Derivation .unary} {e : Derivation .assign} (h : Ready sys (.assign target e) s next rest)
    (heap : FinshHeap) : Ready sys e ((s.grow target.size heap).read (mark .assign) (e.tokens ++ next :: rest)) next rest := by
  refine ⟨rfl, h.known.2, Nat.le_trans ?_ h.nodes⟩
  simp only [Derivation.size, nodes_read, nodes_grow]
  omega

/-- **An assignment**, whose target is read as an expression of the operators. -/
theorem parses_assign {target : Derivation .unary} {e : Derivation .assign} {bound : ℕ} (hbound : 2 < bound)
    (htarget : Parses sys target (parse sys fuel (.binary .inclusiveOr)) bound) (h : Parses sys e (parse sys fuel .assign) 2) :
    Parses sys (.assign target e) (parse sys (fuel + 1) .assign) 2 := by
  intro s next rest hready hnext
  have hnodes := hready.nodes
  simp only [Derivation.size] at hnodes
  change procAssignExprWith (parse sys fuel .cast) (parse sys fuel .assign) s = _
  rw [procAssignExprWith, bind_apply]
  change (parse sys fuel (.binary .inclusiveOr) s).bind _ = _
  rw [htarget s _ _ hready.target hbound]
  cases ht : target.tree sys s.vars s.heap with
  | none => simp [Derivation.tree, bind_apply, map_apply, ht]
  | some r =>
    rw [Option.map_some, Option.bind_some, bind_apply, nextToken_unread, Option.bind_some, if_pos (by rfl), bind_apply,
      h _ next rest (hready.assigned r.2) hnext]
    simp only [vars_read, vars_grow, heap_read, heap_grow]
    cases he : e.tree sys s.vars r.2 with
    | none => simp [Derivation.tree, bind_apply, map_apply, ht, he]
    | some r' =>
      have hone := isOne_tree hready.known.1 nofun ht
      have hroom : ((s.grow (target.size + e.size) r'.2).unread next rest).nodes < nodeMax := by
        simp only [nodes_unread, nodes_grow]
        omega
      simp only [Option.map_some, Option.bind_some, grow_read, grow_grow, read_unread, makeSysNode_run hroom hone.ne_nil]
      simp [Derivation.tree, Derivation.size, bind_apply, map_apply, ht, he, Nat.add_assoc]

theorem fails_assign_left {target : Derivation .unary} {e : Derivation .assign}
    (h : Fails sys target (parse sys fuel (.binary .inclusiveOr))) : Fails sys (.assign target e) (parse sys (fuel + 1) .assign) := by
  intro s next rest hready
  refine Errs.bind (h s _ _ hready.target) fun left => keepsError_nextToken.bind fun token => ?_
  split
  · exact (keepsError_parse sys fuel .assign).bind fun _ => keepsError_makeSysNode _ _ _
  · exact keepsError_tokenReplay.bind fun _ => keepsError_pure _

theorem fails_assign_right {target : Derivation .unary} {e : Derivation .assign} {bound : ℕ} (hbound : 2 < bound)
    (htarget : Parses sys target (parse sys fuel (.binary .inclusiveOr)) bound) (h : Fails sys e (parse sys fuel .assign)) :
    Fails sys (.assign target e) (parse sys (fuel + 1) .assign) := by
  intro s next rest hready
  refine errs_bind fun a s₁ hrun => ?_
  have hrun : parse sys fuel (.binary .inclusiveOr) s = some (a, s₁) := hrun
  rw [htarget s _ _ hready.target hbound] at hrun
  obtain ⟨r, -, heq⟩ := Option.map_eq_some_iff.mp hrun
  obtain ⟨-, rfl⟩ := Prod.mk.inj heq
  refine errs_nextToken ahead_unread ?_
  rw [if_pos (by rfl)]
  exact (h _ next rest (hready.assigned r.2)).bind fun _ => keepsError_makeSysNode _ _ _

end FinshParser

end CoreLink.Shell.Finsh
