/-
# `CoreLink.Shell.FinshParserExpr` — the expression parser of the shell, for every expression.

`FinshParser.spec` puts the productions together. `finsh_parser_expr` says for which expressions the parser succeeds with the
tree of the grammar: for those without an expression in parentheses, since `proc_cast_expr` takes every parenthesis for that of
a cast, and sets an error when no type follows.
-/
import CoreLink.Shell.FinshParses

namespace CoreLink.Shell.Finsh

open RtThread

namespace FinshParser

variable {sys : FinshSystem} {fuel : ℕ} {level : Level} {symbol : Nonterminal} {e : Derivation symbol} {s : FinshParser}
  {next : Token} {rest : List Token}

/-! ## Every derivation -/

theorem plain_not_startsParen (h : e.Plain) : ¬StartsParen e := by
  induction e with
  | plain e ih => exact ih h
  | primary e ih => exact ih h
  | inc e ih => exact ih h
  | dec e ih => exact ih h
  | call e params ihe ihp => exact ihe h.1
  | paren e ih => exact absurd h id
  | _ => exact id

theorem parses_operand (level : Level) {e : Derivation level.operand}
    (h : Parses sys e (parse sys fuel level.operand) (levelTightness level + 1)) :
    Parses sys (.operand e) (parse sys fuel (.binary level)) (levelTightness level) := by
  rw [parse_binary]
  exact (loops_operand h).parses (Nat.le_succ _)

/-- A cast expression, as one of the weakest operators. -/
def weaken (e : Derivation .cast) : Derivation (.binary .inclusiveOr) :=
  let mul : Derivation (.binary .multiplicative) := .operand e
  let add : Derivation (.binary .additive) := .operand mul
  let shift : Derivation (.binary .shift) := .operand add
  let and : Derivation (.binary .and) := .operand shift
  let xor : Derivation (.binary .exclusiveOr) := .operand and
  .operand xor

theorem parses_weaken {e : Derivation .cast} (h : Parses sys e (parse sys fuel .cast) 9) :
    Parses sys (weaken e) (parse sys fuel (.binary .inclusiveOr)) 3 := by
  have hmul := parses_operand .multiplicative h
  have hadd := parses_operand .additive hmul
  have hshift := parses_operand .shift hadd
  have hand := parses_operand .and hshift
  have hxor := parses_operand .exclusiveOr hand
  exact parses_operand .inclusiveOr hxor

theorem fails_level (level : Level) {e : Derivation level.operand} (h : Fails sys e (parse sys fuel level.operand)) :
    Fails sys (.operand e) (parse sys fuel (.binary level)) := by
  intro s next rest hready
  rw [parse_binary]
  exact errs_procBinaryExpr (keepsError_parse sys fuel _) (h s next rest ⟨hready.ahead, hready.known, hready.nodes⟩) _

theorem fails_weaken {e : Derivation .cast} (h : Fails sys e (parse sys fuel .cast)) :
    Fails sys (weaken e) (parse sys fuel (.binary .inclusiveOr)) := by
  have hmul := fails_level .multiplicative h
  have hadd := fails_level .additive hmul
  have hshift := fails_level .shift hadd
  have hand := fails_level .and hshift
  have hxor := fails_level .exclusiveOr hand
  exact fails_level .inclusiveOr hxor

/-- How much fuel a nonterminal takes, besides that for the tokens. -/
def cost : Nonterminal → ℕ
  | .assign => 2
  | .binary _ => 1
  | .cast => 1
  | .unary => 0
  | .postfixed => 0
  | .primary => 0
  | .params => 2

theorem cost_operand (level : Level) : cost level.operand = 1 := by
  cases level <;> rfl

/-- **What is shown of a derivation.** -/
def Spec (sys : FinshSystem) (fuel : ℕ) : {symbol : Nonterminal} → Derivation symbol → Prop
  | .assign, e => (e.Plain → Parses sys e (parse sys fuel .assign) 2) ∧ (¬e.Plain → Fails sys e (parse sys fuel .assign))
  | .binary level, e =>
    (e.Plain → Loops sys e (parse sys fuel (.binary level)) (binaryLoop (parse sys fuel level.operand) (levelOperator level))
      (levelTightness level + 1)) ∧ (¬e.Plain → Fails sys e (parse sys fuel (.binary level)))
  | .cast, e => (e.Plain → Parses sys e (parse sys fuel .cast) 9) ∧ (¬e.Plain → Fails sys e (parse sys fuel .cast))
  | .unary, e => (e.Plain → Parses sys e (parse sys fuel .unary) 9) ∧
    (¬e.Plain → ¬StartsParen e → Fails sys e (parse sys fuel .unary))
  | .postfixed, e => (e.Plain → Loops sys e (parse sys fuel .postfixed) (postfixLoop (parse sys fuel .assign)) 10) ∧
    (¬e.Plain → ¬StartsParen e → Fails sys e (parse sys fuel .postfixed))
  | .primary, e => (e.Plain → Reads sys e (parse sys fuel .primary)) ∧ (¬e.Plain → StartsParen e)
  | .params, e => ¬e.IsEmpty →
    (e.Plain → Loops sys e (parse sys fuel .params) (paramsFrom (parse sys fuel .assign)) 2) ∧
      (¬e.Plain → Fails sys e (parse sys fuel .params))

theorem operand_parses (level : Level) {e : Derivation level.operand} (h : Spec sys fuel e) (hplain : e.Plain) :
    Parses sys e (parse sys fuel level.operand) (levelTightness level + 1) := by
  cases level with
  | multiplicative => exact h.1 hplain
  | _ => exact (h.1 hplain).parses (Nat.le_succ _)

theorem operand_fails (level : Level) {e : Derivation level.operand} (h : Spec sys fuel e) (hplain : ¬e.Plain) :
    Fails sys e (parse sys fuel level.operand) := by
  cases level <;> exact h.2 hplain

theorem spec_uncast {e : Derivation .unary} (h : Spec sys fuel e) : Spec sys (fuel + 1) (.uncast e) := by
  refine ⟨fun hplain => parses_uncast (plain_not_startsParen hplain) (h.1 hplain), fun hplain => ?_⟩
  by_cases hparen : StartsParen e
  · exact fails_uncast_paren hparen
  · exact fails_uncast hparen (h.2 hplain hparen)

/-- An operand that is missing in front of a comma. -/
theorem fails_comma_empty {e : Derivation .assign} : Fails sys (.comma .empty e) (parse sys (fuel + 2) .params) := by
  intro s next rest hready
  have hahead : s.ahead = mark .comma :: (e.tokens ++ next :: rest) := hready.ahead
  have hprimary : Errs (parse sys fuel .primary) (s.unread (mark .comma) (e.tokens ++ next :: rest)) := by
    refine errs_nextToken ahead_unread ?_
    exact (errs_errorSet .invalidToken _).bind fun _ => keepsError_pure _
  have hcast : Errs (parse sys (fuel + 1) .cast) s := by
    refine errs_nextToken hahead ?_
    rw [if_neg (by intro h; cases h)]
    refine errs_tokenReplay ?_
    have hpostfixed : Errs (parse sys fuel .postfixed) (s.unread (mark .comma) (e.tokens ++ next :: rest)) :=
      hprimary.bind fun _ => keepsError_nextToken.bind fun _ => keepsError_loopFuel.bind fun _ =>
        keepsError_postfixLoop (keepsError_parse sys fuel .assign) _ _ _
    exact hpostfixed.of_eq (procUnaryExpr_of_not_isUnary ahead_unread (by simp [IsUnary, mark]))
  have hlevel : ∀ level, Errs (parse sys (fuel + 1) (Level.operand level)) s → Errs (parse sys (fuel + 1) (.binary level)) s := by
    intro level h
    rw [parse_binary]
    exact errs_procBinaryExpr (keepsError_parse sys _ _) h _
  have hor := hlevel .inclusiveOr (hlevel .exclusiveOr (hlevel .and (hlevel .shift (hlevel .additive
    (hlevel .multiplicative hcast)))))
  have hassign : Errs (parse sys (fuel + 2) .assign) s := by
    refine Errs.bind hor fun left => keepsError_nextToken.bind fun token => ?_
    split
    · exact (keepsError_parse sys (fuel + 1) .assign).bind fun _ => keepsError_makeSysNode _ _ _
    · exact keepsError_tokenReplay.bind fun _ => keepsError_pure _
  refine Errs.bind hassign fun first => ?_
  split
  · exact keepsError_pure _
  · exact keepsError_nextToken.bind fun _ => keepsError_loopFuel.bind fun _ =>
      keepsError_paramLoop (keepsError_parse sys (fuel + 2) .assign) _ _ _

/-- **The procedures, and the grammar.** -/
theorem spec (e : Derivation symbol) : ∀ fuel, 2 * e.tokens.length + cost symbol ≤ fuel → Spec sys fuel e := by
  induction e with
  | value e ih =>
    intro fuel hfuel
    obtain ⟨fuel, rfl⟩ := Nat.exists_eq_add_of_le' (Nat.le_trans (Nat.le_add_left 1 _) hfuel)
    have h := ih fuel (Nat.le_of_succ_le_succ hfuel)
    exact ⟨fun hplain => parses_value (by decide) ((h.1 hplain).parses (Nat.le_succ _)), fun hplain => fails_value (h.2 hplain)⟩
  | assign target e iht ihe =>
    intro fuel hfuel
    simp only [Derivation.tokens, List.length_append, List.length_cons, cost] at hfuel
    obtain ⟨fuel, rfl⟩ := Nat.exists_eq_add_of_le' (show 2 ≤ fuel by omega)
    have ht := spec_uncast (iht fuel (by simp only [cost]; omega))
    have he := ihe (fuel + 1) (by simp only [cost]; omega)
    have htarget : target.Plain → Parses sys target (parse sys (fuel + 1) (.binary .inclusiveOr)) 3 := fun hplain s next rest h =>
      parses_weaken (ht.1 hplain) s next rest ⟨h.ahead, h.known, h.nodes⟩
    have htarget' : ¬target.Plain → Fails sys target (parse sys (fuel + 1) (.binary .inclusiveOr)) := fun hplain s next rest h =>
      fails_weaken (ht.2 hplain) s next rest ⟨h.ahead, h.known, h.nodes⟩
    refine ⟨fun hplain => parses_assign (by decide) (htarget hplain.1) (he.1 hplain.2), fun hplain => ?_⟩
    by_cases hp : target.Plain
    · exact fails_assign_right (by decide) (htarget hp) (he.2 fun h => hplain ⟨hp, h⟩)
    · exact fails_assign_left (htarget' hp)
  | @operand level e ih =>
    intro fuel hfuel
    have h := ih fuel (by cases level <;> exact hfuel)
    refine ⟨fun hplain => ?_, fun hplain => fails_level level (operand_fails level h hplain)⟩
    rw [parse_binary]
    exact loops_operand (operand_parses level h hplain)
  | @binary level left op right ihl ihr =>
    intro fuel hfuel
    simp only [Derivation.tokens, List.length_append, List.length_cons, cost] at hfuel
    have hl := ihl fuel (by simp only [cost]; omega)
    have hr := ihr fuel (by rw [cost_operand]; omega)
    simp only [Spec, parse_binary] at hl ⊢
    refine ⟨fun hplain => loops_binary (Nat.lt_succ_self _) (hl.1 hplain.1) (operand_parses level hr hplain.2), fun hplain => ?_⟩
    by_cases hp : left.Plain
    · exact fails_binary_right (Nat.lt_succ_self _) (keepsError_parse sys fuel _) (hl.1 hp)
        (operand_fails level hr fun h => hplain ⟨hp, h⟩)
    · exact fails_binary_left (hl.2 hp)
  | uncast e ih =>
    intro fuel hfuel
    obtain ⟨fuel, rfl⟩ := Nat.exists_eq_add_of_le' (Nat.le_trans (Nat.le_add_left 1 _) hfuel)
    exact spec_uncast (ih fuel (Nat.le_of_succ_le_succ hfuel))
  | cast type e ih =>
    intro fuel hfuel
    simp only [Derivation.tokens, List.length_append, List.length_cons, cost] at hfuel
    obtain ⟨fuel, rfl⟩ := Nat.exists_eq_add_of_le' (show 1 ≤ fuel by omega)
    have h := ih fuel (by simp only [cost]; omega)
    exact ⟨fun hplain => parses_cast hplain.1 (h.1 hplain.2), fun hplain => fails_cast fun hok => h.2 fun hp => hplain ⟨hok, hp⟩⟩
  | plain e ih =>
    intro fuel hfuel
    have h := ih fuel hfuel
    exact ⟨fun hplain => parses_plain (by decide) (plain_not_startsParen hplain) (h.1 hplain),
      fun hplain hparen => fails_plain hparen (h.2 hplain hparen)⟩
  | unary op e ih =>
    intro fuel hfuel
    simp only [Derivation.tokens, List.length_cons, cost] at hfuel
    have h := ih fuel (by simp only [cost]; omega)
    exact ⟨fun hplain => parses_unary (h.1 hplain), fun hplain _ => fails_unary (h.2 hplain)⟩
  | primary e ih =>
    intro fuel hfuel
    have h := ih fuel hfuel
    exact ⟨fun hplain => loops_primary (h.1 hplain) 10, fun hplain hparen => absurd (h.2 hplain) hparen⟩
  | inc e ih =>
    intro fuel hfuel
    simp only [Derivation.tokens, List.length_append, cost] at hfuel
    have h := ih fuel (by simp only [cost]; omega)
    refine ⟨fun hplain => loops_step .inc .sysInc (by decide) rfl rfl (fun _ hknown => hknown) ?_ ?_ (h.1 hplain),
      fun hplain hparen s next rest hready => h.2 hplain hparen s (mark .inc) (next :: rest) (hready.stepped rfl (Nat.le_succ _) fun _ h => h)⟩
    · exact fun _ _ => Option.map_eq_bind.symm
    · exact fun _ _ => by rw [postfixLoop, if_pos (by rfl)]
  | dec e ih =>
    intro fuel hfuel
    simp only [Derivation.tokens, List.length_append, cost] at hfuel
    have h := ih fuel (by simp only [cost]; omega)
    refine ⟨fun hplain => loops_step .dec .sysDec (by decide) rfl rfl (fun _ hknown => hknown) ?_ ?_ (h.1 hplain),
      fun hplain hparen s next rest hready => h.2 hplain hparen s (mark .dec) (next :: rest) (hready.stepped rfl (Nat.le_succ _) fun _ h => h)⟩
    · exact fun _ _ => Option.map_eq_bind.symm
    · exact fun _ _ => by rw [postfixLoop, if_neg (by intro h; cases h), if_pos (by rfl)]
  | call e params ihe ihp =>
    intro fuel hfuel
    simp only [Derivation.tokens, List.length_append, List.length_cons, cost] at hfuel
    have he := ihe fuel (by simp only [cost]; omega)
    have hp := ihp fuel (by simp only [cost]; omega)
    have hparams : params.Plain → ¬params.IsEmpty → Loops sys params (parse sys fuel .params) (paramsFrom (parse sys fuel .assign)) 2 :=
      fun hplain hempty => (hp hempty).1 hplain
    refine ⟨fun hplain => loops_call (by decide) (by decide) (hparams hplain.2) (he.1 hplain.1), fun hplain hparen => ?_⟩
    by_cases hplain' : e.Plain
    · have hno : ¬params.Plain := fun h => hplain ⟨hplain', h⟩
      have hempty : ¬params.IsEmpty := by
        cases params with
        | empty => exact absurd trivial hno
        | param e => exact id
        | comma params e => exact id
      exact fails_call_right (by decide) (keepsError_parse sys fuel .assign) hempty (he.1 hplain') ((hp hempty).2 hno)
    · exact fails_call_left (he.2 hplain' hparen)
  | literal lit => exact fun fuel _ => ⟨fun _ => reads_literal lit, fun hplain => absurd trivial hplain⟩
  | paren e ih => exact fun fuel _ => ⟨fun hplain => absurd hplain id, fun _ => trivial⟩
  | identifier name => exact fun fuel _ => ⟨fun _ => reads_identifier name, fun hplain => absurd trivial hplain⟩
  | empty => exact fun _ _ hempty => absurd trivial hempty
  | param e ih =>
    intro fuel hfuel _
    have h := ih fuel hfuel
    exact ⟨fun hplain => loops_param (h.1 hplain), fun hplain => fails_param (keepsError_parse sys fuel .assign) (h.2 hplain)⟩
  | comma params e ihp ihe =>
    intro fuel hfuel _
    simp only [Derivation.tokens, List.length_append, List.length_cons, cost] at hfuel
    have hp := ihp fuel (by simp only [cost]; omega)
    have he := ihe fuel (by simp only [cost]; omega)
    refine ⟨fun hplain => loops_comma (by decide) ((hp hplain.1).1 hplain.2.1) (he.1 hplain.2.2), fun hplain => ?_⟩
    by_cases hempty : params.IsEmpty
    · obtain ⟨fuel, rfl⟩ := Nat.exists_eq_add_of_le' (show 2 ≤ fuel by omega)
      cases params with
      | empty => exact fails_comma_empty
      | param e => exact absurd hempty id
      | comma params e => exact absurd hempty id
    · by_cases hplain' : params.Plain
      · exact fails_comma_right (by decide) (keepsError_parse sys fuel .assign) ((hp hempty).1 hplain')
          (he.2 fun h => hplain ⟨hempty, hplain', h⟩)
      · exact fails_comma_left ((hp hempty).2 hplain')

/-! ## The string literals -/

/-- The heap after some string literals, one after the other; there is none when one of them finds no memory. -/
def takeStrings (vars : List FinshVar) (heap : FinshHeap) (strings : List (List UInt8)) : Option FinshHeap :=
  strings.foldlM (fun heap lit => (heap.finshNodeNewString (vars.map FinshVar.heapVar) lit).map Prod.fst) heap

theorem takeStrings_append (vars : List FinshVar) (heap : FinshHeap) (xs ys : List (List UInt8)) :
    takeStrings vars heap (xs ++ ys) = (takeStrings vars heap xs).bind fun heap => takeStrings vars heap ys :=
  List.foldlM_append

/-- A node on one tree. -/
theorem heap_one {p : StateT FinshHeap Option Tree} {vars : List FinshVar} {xs : List (List UInt8)} (f : Tree → Tree)
    (hp : ∀ heap, (p heap).map Prod.snd = takeStrings vars heap xs) (heap : FinshHeap) :
    ((p >>= fun t => pure (f t)) heap).map Prod.snd = takeStrings vars heap xs := by
  rw [← hp, bind_apply]
  cases p heap <;> rfl

/-- A node on two trees. -/
theorem heap_two {p q : StateT FinshHeap Option Tree} {vars : List FinshVar} {xs ys : List (List UInt8)}
    (f : Tree → Tree → Tree) (hp : ∀ heap, (p heap).map Prod.snd = takeStrings vars heap xs)
    (hq : ∀ heap, (q heap).map Prod.snd = takeStrings vars heap ys) (heap : FinshHeap) :
    ((p >>= fun t => q >>= fun u => pure (f t u)) heap).map Prod.snd = takeStrings vars heap (xs ++ ys) := by
  rw [takeStrings_append, ← hp, bind_apply]
  cases p heap with
  | none => rfl
  | some r => exact heap_one (f r.1) hq r.2

/-- The tree of a derivation takes the heap of its string literals. -/
theorem heap_tree (sys : FinshSystem) (vars : List FinshVar) (e : Derivation symbol) (heap : FinshHeap) :
    (e.tree sys vars heap).map Prod.snd = takeStrings vars heap e.strings := by
  induction e generalizing heap with
  | value e ih => exact ih heap
  | assign target e iht ihe => exact heap_two (Finsh.makeSysNode .sysAssign) iht ihe heap
  | operand e ih => exact ih heap
  | binary left op right ihl ihr => exact heap_two (Finsh.makeSysNode op.node) ihl ihr heap
  | uncast e ih => exact ih heap
  | cast type e ih => exact heap_one (setDataType type.finshType) ih heap
  | plain e ih => exact ih heap
  | unary op e ih => exact heap_one (fun t => op.tree t) ih heap
  | primary e ih => exact ih heap
  | inc e ih => exact heap_one (fun t => Finsh.makeSysNode .sysInc t .nil) ih heap
  | dec e ih => exact heap_one (fun t => Finsh.makeSysNode .sysDec t .nil) ih heap
  | call e params ihe ihp => exact heap_two (Finsh.makeSysNode .sysFunc) ihe ihp heap
  | literal lit =>
    cases lit with
    | string bytes =>
      change Option.map _ (Option.map _ (heap.finshNodeNewString (vars.map FinshVar.heapVar) bytes)) = _
      simp only [Derivation.strings, takeStrings, List.foldlM_cons, List.foldlM_nil]
      cases heap.finshNodeNewString (vars.map FinshVar.heapVar) bytes <;> rfl
    | _ => rfl
  | paren e ih => exact ih heap
  | identifier name => rfl
  | empty => rfl
  | param e ih => exact ih heap
  | comma params e ihp ihe => exact heap_two Tree.addSibling ihp ihe heap

/-! ## The result -/

theorem spec_procExpr {e : Derivation .assign} (hahead : s.ahead = e.tokens ++ next :: rest) :
    Spec sys (2 * s.tokens.length + 4) e := by
  refine spec e _ ?_
  have hlength : s.ahead.length ≤ s.tokens.length + 1 := by
    unfold ahead
    split
    · exact Nat.le_refl _
    · exact Nat.le_succ _
  rw [hahead, List.length_append, List.length_cons] at hlength
  simp only [cost]
  omega

theorem errs_procExpr {e : Derivation .assign} (hready : Ready sys e s next rest) (hplain : ¬e.Plain) : Errs (procExpr sys) s :=
  fun t s' hrun => (spec_procExpr hready.ahead).2 hplain s next rest hready t s' hrun

theorem procExpr_run {e : Derivation .assign} (hready : Ready sys e s next rest) (hnext : tightness next.type < 2)
    (hplain : e.Plain) : procExpr sys s = (e.tree sys s.vars s.heap).map fun r => (r.1, (s.grow e.size r.2).unread next rest) :=
  (spec_procExpr hready.ahead).1 hplain s next rest hready hnext

/-- **Expressions.** In front of the tokens of an expression and a semicolon, when the identifiers are known and there are
nodes enough, the parser succeeds with the tree of the grammar, and the semicolon ahead, if and only if no operand is an
expression in parentheses, no cast is to `unsigned void`, no operand of a call is missing in front of a comma, and the string
literals find memory. -/
theorem finsh_parser_expr (sys : FinshSystem) (s : FinshParser) (e : Derivation .assign) (rest : List Token)
    (hahead : s.ahead = e.tokens ++ mark .semicolon :: rest) (herror : s.error = none) (hknown : e.Known sys s.vars)
    (hnodes : s.nodes + e.size ≤ nodeMax) :
    (∃ t heap s', e.tree sys s.vars s.heap = some (t, heap) ∧ procExpr sys s = some (t, s') ∧ s'.error = none ∧
      s'.ahead = mark .semicolon :: rest) ↔ e.Plain ∧ (takeStrings s.vars s.heap e.strings).isSome := by
  have hready : Ready sys e s (mark .semicolon) rest := ⟨hahead, hknown, hnodes⟩
  rw [← heap_tree sys s.vars e s.heap, Option.isSome_map]
  constructor
  · rintro ⟨t, heap, s', htree, hrun, hnone, -⟩
    refine ⟨?_, by rw [htree]; rfl⟩
    by_contra hplain
    exact errs_procExpr hready hplain t s' hrun hnone
  · rintro ⟨hplain, hsome⟩
    obtain ⟨⟨t, heap⟩, htree⟩ := Option.isSome_iff_exists.mp hsome
    have hrun := procExpr_run hready (by decide) hplain
    rw [htree] at hrun
    exact ⟨t, heap, _, htree, hrun, herror, rfl⟩

/-- A parser in front of some tokens, without symbols. -/
def start (tokens : List Token) : FinshParser where
  tokens := tokens
  current := { type := .bad }
  replay := false
  nodes := 0
  vars := []
  heap := FinshHeap.init
  error := none

/-- Tables without symbols. -/
def noSystem : FinshSystem where
  sysvar _ := none
  syscall _ := none
  variableBase := 0
  heapBase := 0

/-- An integer literal, as a primary expression. -/
def intPrimary (v : Dword) : Derivation .postfixed := .primary (.literal (.int v))

/-- `-1`. -/
def minusOne : Derivation .assign := .value (weaken (.uncast (.unary .sub (.uncast (.plain (intPrimary 1))))))

/-- `(1)`. -/
def parenOne : Derivation .assign :=
  .value (weaken (.uncast (.plain (.primary (.paren (.value (weaken (.uncast (.plain (intPrimary 1))))))))))

/-- `-1;` is parsed. -/
theorem finsh_parser_expr_minusOne : ∃ t heap s', minusOne.tree noSystem [] FinshHeap.init = some (t, heap) ∧
    procExpr noSystem (start (minusOne.tokens ++ [mark .semicolon])) = some (t, s') ∧ s'.error = none ∧
    s'.ahead = [mark .semicolon] :=
  (finsh_parser_expr noSystem (start (minusOne.tokens ++ [mark .semicolon])) minusOne [] rfl rfl trivial (by decide)).mpr
    ⟨trivial, rfl⟩

/-- `(1);` sets an error. -/
theorem finsh_parser_expr_paren : parenOne.Known noSystem [] ∧ parenOne.size ≤ nodeMax ∧
    ¬∃ t heap s', parenOne.tree noSystem [] FinshHeap.init = some (t, heap) ∧
      procExpr noSystem (start (parenOne.tokens ++ [mark .semicolon])) = some (t, s') ∧ s'.error = none ∧
      s'.ahead = [mark .semicolon] := by
  refine ⟨trivial, by decide, ?_⟩
  rintro ⟨t, heap, s', -, hrun, hnone, -⟩
  have hready : Ready noSystem parenOne (start (parenOne.tokens ++ [mark .semicolon])) (mark .semicolon) [] :=
    ⟨rfl, trivial, by decide⟩
  exact errs_procExpr hready id t s' hrun hnone

end FinshParser

end CoreLink.Shell.Finsh
