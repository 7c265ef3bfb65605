/-
# `CoreLink.Shell.FinshParserState` — the token that the parser of the shell can put back, and its errors.

Whether the next token is a new one or the one that has been put back makes no difference to what is read: the tokens ahead
are the same (`FinshParser.ahead`). No procedure resets the error number (`KeepsError`), so that a line is wrong as soon as one
of them sets it (`Errs`).
-/
import CoreLink.Shell.FinshParser

namespace CoreLink.Shell.Finsh

open RtThread

namespace FinshParser

variable {α β : Type} {s s' : FinshParser} {t u : Token} {ts us : List Token}

/-! ## Running a procedure -/

theorem bind_apply {σ : Type} (p : StateT σ Option α) (f : α → StateT σ Option β) (s : σ) :
    (p >>= f) s = (p s).bind fun r => f r.1 r.2 := rfl

theorem map_apply {σ : Type} (f : α → β) (p : StateT σ Option α) (s : σ) : (f <$> p) s = (p s).map fun r => (f r.1, r.2) := by
  change ((p s).bind fun r => some (f r.1, r.2)) = _
  rw [Option.map_eq_bind]
  rfl

theorem pure_apply {σ : Type} (a : α) (s : σ) : (pure a : StateT σ Option α) s = some (a, s) := rfl

/-- The tokens ahead. -/
def ahead (s : FinshParser) : List Token := if s.replay then s.current :: s.tokens else s.tokens

/-- `t` has been read, and `ts` are ahead. -/
def read (s : FinshParser) (t : Token) (ts : List Token) : FinshParser := { s with tokens := ts, current := t, replay := false }

/-- `t` has been put back. -/
def unread (s : FinshParser) (t : Token) (ts : List Token) : FinshParser := { s with tokens := ts, current := t, replay := true }

/-- Some nodes more, and another heap. -/
def grow (s : FinshParser) (n : ℕ) (heap : FinshHeap) : FinshParser := { s with nodes := s.nodes + n, heap := heap }

@[simp] theorem ahead_read : (s.read t ts).ahead = ts := rfl

@[simp] theorem ahead_unread : (s.unread t ts).ahead = t :: ts := rfl

@[simp] theorem read_read : (s.read t ts).read u us = s.read u us := rfl

@[simp] theorem unread_read : (s.unread t ts).read u us = s.read u us := rfl

@[simp] theorem read_unread : (s.read t ts).unread u us = s.unread u us := rfl

@[simp] theorem unread_unread : (s.unread t ts).unread u us = s.unread u us := rfl

@[simp] theorem vars_read : (s.read t ts).vars = s.vars := rfl

@[simp] theorem vars_unread : (s.unread t ts).vars = s.vars := rfl

@[simp] theorem vars_grow (n : ℕ) (heap : FinshHeap) : (s.grow n heap).vars = s.vars := rfl

@[simp] theorem nodes_read : (s.read t ts).nodes = s.nodes := rfl

@[simp] theorem nodes_unread : (s.unread t ts).nodes = s.nodes := rfl

@[simp] theorem nodes_grow (n : ℕ) (heap : FinshHeap) : (s.grow n heap).nodes = s.nodes + n := rfl

@[simp] theorem heap_read : (s.read t ts).heap = s.heap := rfl

@[simp] theorem heap_unread : (s.unread t ts).heap = s.heap := rfl

@[simp] theorem heap_grow (n : ℕ) (heap : FinshHeap) : (s.grow n heap).heap = heap := rfl

@[simp] theorem grow_read (n : ℕ) (heap : FinshHeap) : (s.read t ts).grow n heap = (s.grow n heap).read t ts := rfl

@[simp] theorem grow_unread (n : ℕ) (heap : FinshHeap) : (s.unread t ts).grow n heap = (s.grow n heap).unread t ts := rfl

@[simp] theorem grow_grow (n m : ℕ) (heap heap' : FinshHeap) : (s.grow n heap).grow m heap' = s.grow (n + m) heap' := by
  simp [grow, Nat.add_assoc]

@[simp] theorem grow_zero : s.grow 0 s.heap = s := rfl

theorem nextToken_of_ahead (h : s.ahead = t :: ts) : nextToken s = some (t, s.read t ts) := by
  unfold ahead at h
  unfold nextToken
  split
  · next hr =>
    rw [if_pos hr] at h
    obtain ⟨rfl, rfl⟩ := List.cons.inj h
    rfl
  · next hr =>
    rw [if_neg hr] at h
    rw [h]
    simp [read, hr]

@[simp] theorem nextToken_read : nextToken (s.read t (u :: us)) = some (u, s.read u us) := nextToken_of_ahead rfl

@[simp] theorem nextToken_unread : nextToken (s.unread t ts) = some (t, s.read t ts) := nextToken_of_ahead rfl

@[simp] theorem tokenReplay_read : tokenReplay (s.read t ts) = some ((), s.unread t ts) := rfl

@[simp] theorem loopFuel_read : loopFuel (s.read t ts) = some (ts.length + 2, s.read t ts) := rfl

theorem matchToken_of_ahead {type : FinshTokenType} (h : s.ahead = t :: ts) (ht : t.type = type) :
    matchToken type s = some (t, s.read t ts) := by
  rw [matchToken, bind_apply, nextToken_of_ahead h, Option.bind_some, checkToken, if_pos ht]
  rfl

/-! ## Errors -/

/-- The procedure does not reset the error number. -/
def KeepsError (p : Proc α) : Prop := ∀ s a s', p s = some (a, s') → s.error ≠ none → s'.error ≠ none

/-- The procedure sets the error number, from a state on, when it has a result. -/
def Errs (p : Proc α) (s : FinshParser) : Prop := ∀ a s', p s = some (a, s') → s'.error ≠ none

theorem keepsError_pure (a : α) : KeepsError (pure a : Proc α) := by
  intro s b s' h hs
  obtain ⟨-, rfl⟩ := Prod.mk.inj (Option.some.inj h)
  exact hs

theorem keepsError_failure : KeepsError (failure : Proc α) := fun _ _ _ h _ => nomatch h

theorem KeepsError.bind {p : Proc α} {f : α → Proc β} (hp : KeepsError p) (hf : ∀ a, KeepsError (f a)) : KeepsError (p >>= f) := by
  intro s b s' h hs
  obtain ⟨⟨a, s₁⟩, hrun, hrest⟩ := Option.bind_eq_some_iff.mp h
  exact hf a s₁ b s' hrest (hp s a s₁ hrun hs)

/-- What runs behind an error. -/
theorem Errs.bind {p : Proc α} {f : α → Proc β} (hp : Errs p s) (hf : ∀ a, KeepsError (f a)) : Errs (p >>= f) s := by
  intro b s' h
  obtain ⟨⟨a, s₁⟩, hrun, hrest⟩ := Option.bind_eq_some_iff.mp h
  exact hf a s₁ b s' hrest (hp a s₁ hrun)

/-- What is run first. -/
theorem errs_bind {p : Proc α} {f : α → Proc β} (h : ∀ a s', p s = some (a, s') → Errs (f a) s') : Errs (p >>= f) s := by
  intro b s' hrun
  obtain ⟨⟨a, s₁⟩, hfirst, hrest⟩ := Option.bind_eq_some_iff.mp hrun
  exact h a s₁ hfirst b s' hrest

theorem Errs.of_eq {p q : Proc α} (hq : Errs q s') (h : p s = q s') : Errs p s := fun a s₁ hrun => hq a s₁ (h.symm.trans hrun)

/-- The next token. -/
theorem errs_nextToken {f : Token → Proc β} (h : s.ahead = t :: ts) (hf : Errs (f t) (s.read t ts)) :
    Errs (nextToken >>= f) s := by
  refine errs_bind fun a s' hrun => ?_
  obtain ⟨rfl, rfl⟩ := Prod.mk.inj (Option.some.inj ((nextToken_of_ahead h).symm.trans hrun))
  exact hf

/-- The token is put back. -/
theorem errs_tokenReplay {f : Unit → Proc β} (hf : Errs (f ()) (s.unread t ts)) : Errs (tokenReplay >>= f) (s.read t ts) := by
  refine errs_bind fun a s' hrun => ?_
  obtain ⟨-, rfl⟩ := Prod.mk.inj (Option.some.inj (tokenReplay_read.symm.trans hrun))
  exact hf

theorem keepsError_nextToken : KeepsError nextToken := by
  intro s a s' h hs
  unfold nextToken at h
  split at h
  · obtain ⟨-, rfl⟩ := Prod.mk.inj (Option.some.inj h)
    exact hs
  · split at h
    · obtain ⟨-, rfl⟩ := Prod.mk.inj (Option.some.inj h)
      exact hs
    · obtain ⟨-, rfl⟩ := Prod.mk.inj (Option.some.inj h)
      exact hs

theorem keepsError_tokenReplay : KeepsError tokenReplay := by
  intro s a s' h hs
  obtain ⟨-, rfl⟩ := Prod.mk.inj (Option.some.inj h)
  exact hs

theorem errs_errorSet (error : FinshError) (s : FinshParser) : Errs (errorSet error) s := by
  intro a s' h
  obtain ⟨-, rfl⟩ := Prod.mk.inj (Option.some.inj h)
  exact Option.some_ne_none error

theorem keepsError_errorSet (error : FinshError) : KeepsError (errorSet error) := fun s a s' h _ => errs_errorSet error s a s' h

theorem keepsError_loopFuel : KeepsError loopFuel := by
  intro s a s' h hs
  obtain ⟨-, rfl⟩ := Prod.mk.inj (Option.some.inj h)
  exact hs

theorem keepsError_matchToken (type : FinshTokenType) : KeepsError (matchToken type) := by
  refine keepsError_nextToken.bind fun token => KeepsError.bind ?_ fun _ => keepsError_pure token
  unfold checkToken
  split
  · exact keepsError_pure ()
  · exact (keepsError_errorSet _).bind fun _ => keepsError_tokenReplay

theorem keepsError_finshNodeAllocate : KeepsError finshNodeAllocate := by
  intro s a s' h hs
  unfold finshNodeAllocate at h
  split at h
  · obtain ⟨-, rfl⟩ := Prod.mk.inj (Option.some.inj h)
    exact hs
  · obtain ⟨-, rfl⟩ := Prod.mk.inj (Option.some.inj h)
    exact hs

theorem keepsError_newLeaf (n : FinshNode) : KeepsError (newLeaf n) := by
  refine keepsError_finshNodeAllocate.bind fun allocated => ?_
  split
  · exact keepsError_pure _
  · exact (keepsError_errorSet _).bind fun _ => keepsError_pure _

theorem keepsError_makeSysNode (type : NodeType) (node1 node2 : Tree) : KeepsError (makeSysNode type node1 node2) := by
  refine keepsError_finshNodeAllocate.bind fun allocated => ?_
  split
  · exact keepsError_pure _
  · exact (keepsError_errorSet _).bind fun _ => keepsError_pure _

theorem keepsError_finshNodeNewId (sys : FinshSystem) (id : List UInt8) : KeepsError (finshNodeNewId sys id) := by
  refine KeepsError.bind (p := get) ?_ fun s => ?_
  · intro s a s' h hs
    obtain ⟨-, rfl⟩ := Prod.mk.inj (Option.some.inj h)
    exact hs
  · unfold newId
    split
    · exact keepsError_newLeaf _
    · exact (keepsError_errorSet _).bind fun _ => keepsError_pure _

theorem keepsError_finshNodeNewString (sys : FinshSystem) (string : List UInt8) : KeepsError (finshNodeNewString sys string) := by
  refine keepsError_finshNodeAllocate.bind fun allocated => ?_
  split
  · refine KeepsError.bind ?_ fun _ => keepsError_pure _
    intro s a s' h hs
    obtain ⟨r, -, heq⟩ := Option.map_eq_some_iff.mp h
    obtain ⟨-, rfl⟩ := Prod.mk.inj heq
    exact hs
  · exact (keepsError_errorSet _).bind fun _ => keepsError_pure _

/-! ## No procedure resets the error number -/

theorem keepsError_procTypePointer (type : FinshType) : KeepsError (procTypePointer type) := by
  refine keepsError_nextToken.bind fun token => ?_
  split
  · exact keepsError_pure _
  · exact keepsError_tokenReplay.bind fun _ => keepsError_pure _

theorem keepsError_procTypeFail : KeepsError procTypeFail :=
  keepsError_tokenReplay.bind fun _ => (keepsError_errorSet _).bind fun _ => keepsError_pure _

theorem errs_procTypeFail (s : FinshParser) : Errs procTypeFail s :=
  errs_bind fun _ s' _ => (errs_errorSet .unknownType s').bind fun _ => keepsError_pure _

theorem keepsError_procType : KeepsError procType := by
  refine keepsError_nextToken.bind fun token => ?_
  split
  · exact keepsError_procTypePointer _
  · split
    · refine keepsError_nextToken.bind fun base => ?_
      split
      · split
        · exact keepsError_procTypeFail
        · exact keepsError_procTypePointer _
      · exact keepsError_tokenReplay.bind fun _ => (keepsError_errorSet _).bind fun _ => keepsError_procTypePointer _
    · exact keepsError_procTypeFail

theorem keepsError_procIdentifier : KeepsError procIdentifier :=
  (keepsError_matchToken _).bind fun _ => keepsError_pure _

variable {operand cast assign : Proc Tree} {operator : FinshTokenType → Option NodeType}

theorem keepsError_binaryNode (type : NodeType) (left right : Tree) : KeepsError (binaryNode type left right) := by
  unfold binaryNode
  split
  · exact (keepsError_errorSet _).bind fun _ => keepsError_pure _
  · exact keepsError_makeSysNode _ _ _

theorem keepsError_addParam (params : List Tree) (next : Tree) : KeepsError (addParam params next) := by
  unfold addParam
  split
  · exact (keepsError_errorSet _).bind fun _ => keepsError_pure _
  · exact keepsError_pure _

theorem keepsError_binaryLoop (hoperand : KeepsError operand) (fuel : ℕ) :
    ∀ left token, KeepsError (binaryLoop operand operator fuel left token) := by
  induction fuel with
  | zero => exact fun _ _ => keepsError_failure
  | succ fuel ih =>
    intro left token
    unfold binaryLoop
    split
    · exact hoperand.bind fun right => (keepsError_binaryNode _ _ _).bind fun left =>
        keepsError_nextToken.bind fun token => ih left token
    · exact keepsError_tokenReplay.bind fun _ => keepsError_pure _

theorem keepsError_procBinaryExpr (hoperand : KeepsError operand) (operator : FinshTokenType → Option NodeType) :
    KeepsError (procBinaryExpr operand operator) :=
  hoperand.bind fun _ => keepsError_nextToken.bind fun _ => keepsError_loopFuel.bind fun fuel =>
    keepsError_binaryLoop hoperand fuel _ _

theorem keepsError_procInclusiveOrExpr (hcast : KeepsError cast) : KeepsError (procInclusiveOrExpr cast) :=
  keepsError_procBinaryExpr (keepsError_procBinaryExpr (keepsError_procBinaryExpr (keepsError_procBinaryExpr
    (keepsError_procBinaryExpr (keepsError_procBinaryExpr hcast _) _) _) _) _) _

theorem keepsError_paramLoop (hassign : KeepsError assign) (fuel : ℕ) :
    ∀ params token, KeepsError (paramLoop assign fuel params token) := by
  induction fuel with
  | zero => exact fun _ _ => keepsError_failure
  | succ fuel ih =>
    intro params token
    unfold paramLoop
    split
    · exact hassign.bind fun next => (keepsError_addParam _ _).bind fun params =>
        keepsError_nextToken.bind fun token => ih params token
    · exact keepsError_tokenReplay.bind fun _ => keepsError_pure _

theorem keepsError_procParamList (hassign : KeepsError assign) : KeepsError (procParamList assign) := by
  refine hassign.bind fun first => ?_
  split
  · exact keepsError_pure _
  · exact keepsError_nextToken.bind fun _ => keepsError_loopFuel.bind fun fuel => keepsError_paramLoop hassign fuel _ _

theorem keepsError_procParams (hassign : KeepsError assign) : KeepsError (procParams assign) := by
  refine keepsError_nextToken.bind fun token => ?_
  split
  · exact keepsError_pure _
  · exact keepsError_tokenReplay.bind fun _ => (keepsError_procParamList hassign).bind fun _ =>
      (keepsError_matchToken _).bind fun _ => keepsError_pure _

theorem keepsError_postfixLoop (hassign : KeepsError assign) (fuel : ℕ) :
    ∀ node token, KeepsError (postfixLoop assign fuel node token) := by
  induction fuel with
  | zero => exact fun _ _ => keepsError_failure
  | succ fuel ih =>
    intro node token
    have hnext : ∀ type node1 node2, KeepsError
        (makeSysNode type node1 node2 >>= fun node => nextToken >>= fun token => postfixLoop assign fuel node token) :=
      fun _ _ _ => (keepsError_makeSysNode _ _ _).bind fun node => keepsError_nextToken.bind fun token => ih node token
    unfold postfixLoop
    split
    · exact hnext _ _ _
    · split
      · exact hnext _ _ _
      · split
        · exact (keepsError_procParams hassign).bind fun _ => hnext _ _ _
        · exact keepsError_tokenReplay.bind fun _ => keepsError_pure _

variable (sys : FinshSystem)

theorem keepsError_procPrimaryExpr (hassign : KeepsError assign) : KeepsError (procPrimaryExpr sys assign) := by
  refine keepsError_nextToken.bind fun token => ?_
  split
  · exact keepsError_tokenReplay.bind fun _ => keepsError_procIdentifier.bind fun _ => keepsError_finshNodeNewId sys _
  · exact hassign.bind fun _ => (keepsError_matchToken _).bind fun _ => keepsError_pure _
  · exact keepsError_newLeaf _
  · exact keepsError_newLeaf _
  · exact keepsError_newLeaf _
  · exact keepsError_finshNodeNewString sys _
  · exact keepsError_newLeaf _
  · exact (keepsError_errorSet _).bind fun _ => keepsError_pure _

theorem keepsError_procPostfixExpr (hassign : KeepsError assign) : KeepsError (procPostfixExpr sys assign) :=
  (keepsError_procPrimaryExpr sys hassign).bind fun _ => keepsError_nextToken.bind fun _ => keepsError_loopFuel.bind fun fuel =>
    keepsError_postfixLoop hassign fuel _ _

theorem keepsError_procUnaryExpr (hcast : KeepsError cast) (hassign : KeepsError assign) :
    KeepsError (procUnaryExpr sys cast assign) := by
  have hnode : ∀ type, KeepsError (cast >>= fun operand => makeSysNode type operand .nil) :=
    fun type => hcast.bind fun _ => keepsError_makeSysNode _ _ _
  refine keepsError_nextToken.bind fun token => ?_
  split
  · exact hcast
  · exact hnode _
  · exact hcast.bind fun _ => (keepsError_newLeaf _).bind fun _ => keepsError_makeSysNode _ _ _
  · exact hnode _
  · exact hnode _
  · exact hnode _
  · exact hnode _
  · exact keepsError_tokenReplay.bind fun _ => keepsError_procPostfixExpr sys hassign

theorem keepsError_procCastExprWith (hcast : KeepsError cast) (hassign : KeepsError assign) :
    KeepsError (procCastExprWith sys cast assign) := by
  have hunary : KeepsError (tokenReplay >>= fun _ => procUnaryExpr sys cast assign) :=
    keepsError_tokenReplay.bind fun _ => keepsError_procUnaryExpr sys hcast hassign
  refine keepsError_nextToken.bind fun token => ?_
  split
  · refine keepsError_procType.bind fun _ => (keepsError_matchToken _).bind fun _ => hcast.bind fun operand => ?_
    split
    · exact hunary
    · exact keepsError_pure _
  · exact hunary

theorem keepsError_procAssignExprWith (hcast : KeepsError cast) (hassign : KeepsError assign) :
    KeepsError (procAssignExprWith cast assign) := by
  refine (keepsError_procInclusiveOrExpr hcast).bind fun left => keepsError_nextToken.bind fun token => ?_
  split
  · exact hassign.bind fun _ => keepsError_makeSysNode _ _ _
  · exact keepsError_tokenReplay.bind fun _ => keepsError_pure _

/-- **No procedure resets the error number.** -/
theorem keepsError_procs (fuel : ℕ) : KeepsError (procs sys fuel).1 ∧ KeepsError (procs sys fuel).2 := by
  induction fuel with
  | zero => exact ⟨keepsError_failure, keepsError_failure⟩
  | succ fuel ih => exact ⟨keepsError_procCastExprWith sys ih.1 ih.2, keepsError_procAssignExprWith ih.1 ih.2⟩

end FinshParser

end CoreLink.Shell.Finsh
