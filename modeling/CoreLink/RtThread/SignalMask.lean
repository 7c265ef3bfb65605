/-
# `CoreLink.RtThread.SignalMask` — masked signals.

The loop of `rt_thread_handle_sig` goes on as long as some signal is pending that the thread takes, but what it handles is the
first node of the list, whose signal may be a masked one. It is the order in which the signals arrive that decides
(`signal_masking`). Every pending signal has a node (`NodesOk`), as long as there are no other steps than these.
-/
import CoreLink.RtThread.Signal

namespace CoreLink.RtThread.SigTcb

open CoreLink.Lib

variable {H : Type*} {s s' : SigTcb H} {a : SigAction H} {signo : ℕ}

/-- There is a node for a signal. -/
def HasNode (s : SigTcb H) (signo : ℕ) : Prop := ∃ n ∈ s.siList, n.siSigno = signo

/-- Every pending signal has a node. -/
def NodesOk (s : SigTcb H) : Prop := ∀ signo, s.sigPending.getLsbD signo = true → s.HasNode signo

/-- The signal whose handler a step calls. -/
def handlerRun (s : SigTcb H) : SigAction H → Option ℕ
  | .handle => s.siList.head?.bind fun n => if (s.sigVectors n.siSigno).isSome then some n.siSigno else none
  | _ => none

/-- What is promised of a step: it calls a handler only for a signal that is not masked, and a masked signal that is pending
stays pending, with a node. -/
structure MaskingOk (s : SigTcb H) (a : SigAction H) (s' : SigTcb H) : Prop where
  runs : ∀ signo, s.handlerRun a = some signo → s.sigMask.getLsbD signo = true
  stays : ∀ signo, s.sigPending.getLsbD signo = true → s.sigMask.getLsbD signo = false →
    s'.sigPending.getLsbD signo = true ∧ s'.HasNode signo

/-- A round of the loop finds a signal first that is not masked. A node that is left over, of a signal that is not pending and
is ignored, does no harm. -/
def FirstUnmasked (s : SigTcb H) : SigAction H → Prop
  | .handle => ∀ n ∈ s.siList.head?, s.sigMask.getLsbD n.siSigno = true ∨
      (s.sigVectors n.siSigno = none ∧ s.sigPending.getLsbD n.siSigno = false)
  | _ => True

/-! ## What a step does to the signals -/

theorem updateInfo_signos {si : SigInfo} {l l' : List SigInfo} (h : updateInfo si l = some l') :
    l'.map SigInfo.siSigno = l.map SigInfo.siSigno := by
  induction l generalizing l' with
  | nil => exact nomatch h
  | cons entry l ih =>
    unfold updateInfo at h
    split at h
    next hsame =>
      obtain rfl := Option.some.inj h
      rw [List.map_cons, List.map_cons, hsame]
    next =>
      obtain ⟨l'', hl'', rfl⟩ := Option.map_eq_some_iff.mp h
      rw [List.map_cons, List.map_cons, ih hl'']

theorem hasNode_iff : s.HasNode signo ↔ signo ∈ s.siList.map SigInfo.siSigno := by
  rw [List.mem_map]
  rfl

/-- A step that leaves the set and the list alone. -/
structure Same (s s' : SigTcb H) : Prop where
  pending : s'.sigPending = s.sigPending
  signos : s'.siList.map SigInfo.siSigno = s.siList.map SigInfo.siSigno

theorem Same.hasNode (h : Same s s') : s'.HasNode signo ↔ s.HasNode signo := by
  rw [hasNode_iff, hasNode_iff, h.signos]

theorem Same.refl (s : SigTcb H) : Same s s := ⟨rfl, rfl⟩

theorem same_kill (sig : ℕ) (s : SigTcb H) : Same s (rtThreadKill sig s) := by
  unfold rtThreadKill
  split
  next =>
    split
    next siList hupdate =>
      split at hupdate
      next => exact ⟨rfl, updateInfo_signos hupdate⟩
      next => exact nomatch hupdate
    next => exact ⟨rfl, rfl⟩
  next => exact .refl s

theorem same_enterHandleSig (cleanState : Bool) (s : SigTcb H) : Same s (enterHandleSig cleanState s) := by
  unfold enterHandleSig
  split
  · exact ⟨rfl, rfl⟩
  · exact .refl s

theorem same_signalDeliver (self irq : Bool) (s : SigTcb H) : Same s (signalDeliver self irq s) := by
  unfold signalDeliver
  split
  next => exact .refl s
  next =>
    split
    next => exact ⟨rfl, rfl⟩
    next =>
      split
      next =>
        split
        next => exact ⟨rfl, rfl⟩
        next =>
          obtain ⟨hpending, hsignos⟩ := same_enterHandleSig true { s with statSignal := true }
          exact ⟨hpending, hsignos⟩
      next =>
        split
        next => exact ⟨rfl, rfl⟩
        next => exact .refl s

/-- Only the second part of `rt_thread_kill` and the rounds of the loop change the set or the list. -/
theorem exec_same (s : SigTcb H) (happend : ∀ sig, a ≠ .killAppend sig) (hhandle : a ≠ .handle) : Same s (s.exec a) := by
  cases a with
  | kill sig => exact same_kill sig s
  | killAppend sig => exact absurd rfl (happend sig)
  | killNoMemory sig => exact ⟨rfl, rfl⟩
  | deliver self irq => exact same_signalDeliver self irq s
  | mask signo => exact ⟨rfl, rfl⟩
  | unmask signo => exact ⟨rfl, rfl⟩
  | install signo handler =>
    unfold exec
    dsimp only
    split
    · exact ⟨rfl, rfl⟩
    · exact .refl s
  | suspend => exact ⟨rfl, rfl⟩
  | resume => exact ⟨rfl, rfl⟩
  | schedule =>
    obtain ⟨hpending, hsignos⟩ := same_enterHandleSig true { s with statSignalPending := false }
    exact ⟨hpending, hsignos⟩
  | signalEntry =>
    unfold exec signalEntry
    dsimp only
    split
    · exact ⟨rfl, rfl⟩
    · exact ⟨rfl, rfl⟩
  | handle => exact absurd rfl hhandle
  | handleEnd =>
    unfold exec handleEnd
    dsimp only
    split
    · exact .refl s
    · exact ⟨rfl, rfl⟩
    · exact ⟨rfl, rfl⟩

/-- A node is added at the end. -/
theorem killAppend_node (sig : ℕ) (s : SigTcb H) :
    (killAppend sig s).HasNode sig ∧ ∀ signo, s.HasNode signo → (killAppend sig s).HasNode signo := by
  constructor
  · exact ⟨killInfo sig, List.mem_append_right _ List.mem_cons_self, rfl⟩
  · rintro signo ⟨n, hn, hsigno⟩
    exact ⟨n, List.mem_append_left _ hn, hsigno⟩

section Round

variable {n : SigInfo} {l : List SigInfo}

/-- The signal of the first node is not pending after a round. -/
theorem handleRound_first (h : s.siList = n :: l) : (handleRound s).sigPending.getLsbD n.siSigno = false := by
  unfold handleRound
  rw [h]
  dsimp only
  by_cases hp : s.sigPending.getLsbD n.siSigno = true
  · exact getLsbD_clear hp
  · rw [BitVec.getLsbD_and, Bool.eq_false_iff.mpr hp, Bool.false_and]

/-- Any other signal is as it was. -/
theorem handleRound_other (h : s.siList = n :: l) (hne : n.siSigno ≠ signo) :
    (handleRound s).sigPending.getLsbD signo = s.sigPending.getLsbD signo ∧
      (s.HasNode signo → (handleRound s).HasNode signo) := by
  unfold handleRound HasNode
  rw [h]
  dsimp only
  refine ⟨getLsbD_clear_of_ne hne, ?_⟩
  rintro ⟨m, hm, hsigno⟩
  rcases List.mem_cons.mp hm with rfl | hm
  · exact absurd hsigno hne
  · exact ⟨m, hm, hsigno⟩

end Round

/-- **Every pending signal has a node** after a step, if it has one before. -/
theorem NodesOk.step (h : s.NodesOk) (hstep : Step s a s') : s'.NodesOk := by
  obtain ⟨henabled, rfl⟩ := hstep
  intro signo hpending
  by_cases happend : ∃ sig, a = .killAppend sig
  · obtain ⟨sig, rfl⟩ := happend
    obtain ⟨hnew, hold⟩ := killAppend_node sig s
    by_cases hsig : sig = signo
    · exact hsig ▸ hnew
    · refine hold signo (h signo ?_)
      have hbits : (s.sigPending ||| sigBit sig).getLsbD signo = true := hpending
      rw [BitVec.getLsbD_or, getLsbD_sigBit, decide_eq_false hsig, Bool.and_false, Bool.or_false] at hbits
      exact hbits
  · by_cases hhandle : a = .handle
    · subst hhandle
      obtain ⟨-, -, -, hne⟩ := henabled
      obtain ⟨n, l, hl⟩ := List.exists_cons_of_ne_nil hne
      have hother : n.siSigno ≠ signo := by
        rintro rfl
        exact Bool.false_ne_true ((handleRound_first hl).symm.trans hpending)
      obtain ⟨hsame, hnode⟩ := handleRound_other hl hother
      exact hnode (h signo (hsame ▸ hpending))
    · have hsame := exec_same s (fun sig hsig => happend ⟨sig, hsig⟩) hhandle
      rw [hsame.pending] at hpending
      exact hsame.hasNode.mpr (h signo hpending)

theorem nodesOk_init (default : H) : (init default).NodesOk := by
  intro signo hpending
  rw [show (init default).sigPending = 0#32 from rfl, BitVec.getLsbD_zero] at hpending
  exact absurd hpending Bool.false_ne_true

theorem nodesOk_run {default : H} {as : List (SigAction H)} (h : Run Step (init default) as s) : s.NodesOk :=
  h.invariant (nodesOk_init default) fun _ _ _ hI hs => hI.step hs

/-! ## Masking -/

/-- A step other than a round of the loop loses no signal. -/
theorem MaskingOk.of_ne (h : s.NodesOk) (hstep : Step s a s') (hne : a ≠ .handle) : MaskingOk s a s' := by
  have hnodes := h.step hstep
  obtain ⟨-, rfl⟩ := hstep
  refine ⟨fun signo hrun => ?_, fun signo hpending _ => ?_⟩
  · cases a <;> first | exact absurd rfl hne | exact nomatch hrun
  · have hstill : (s.exec a).sigPending.getLsbD signo = true := by
      by_cases happend : ∃ sig, a = .killAppend sig
      · obtain ⟨sig, rfl⟩ := happend
        exact getLsbD_or_left (sigBit sig) hpending
      · rw [(exec_same s (fun sig hsig => happend ⟨sig, hsig⟩) hne).pending]
        exact hpending
    exact ⟨hstill, hnodes signo hstill⟩

/-- **The masked signals** are left alone by a step, in whatever order the signals have come, exactly if a round of the loop
finds one first that is not masked. -/
theorem signal_masking {default : H} {as : List (SigAction H)} (hrun : Run Step (init default) as s) (hstep : Step s a s') :
    MaskingOk s a s' ↔ FirstUnmasked s a := by
  have hnodes := nodesOk_run hrun
  by_cases hhandle : a = .handle
  case neg =>
    refine iff_of_true (.of_ne hnodes hstep hhandle) ?_
    cases a <;> first | exact trivial | exact absurd rfl hhandle
  subst hhandle
  have hnodes' := hnodes.step hstep
  obtain ⟨⟨-, -, -, hne⟩, rfl⟩ := hstep
  obtain ⟨n, l, hl⟩ := List.exists_cons_of_ne_nil hne
  have hhead : s.siList.head? = some n := by rw [hl]; rfl
  have hcalls : s.handlerRun .handle = if (s.sigVectors n.siSigno).isSome then some n.siSigno else none := by
    unfold handlerRun
    rw [hhead]
    rfl
  constructor
  · intro hok m hm
    obtain rfl : n = m := Option.some.inj (hhead.symm.trans hm)
    rw [or_iff_not_imp_left]
    intro hmasked
    have hmasked := Bool.eq_false_iff.mpr hmasked
    constructor
    · by_contra hsome
      have hrun : s.handlerRun .handle = some n.siSigno := by
        rw [hcalls, if_pos (Option.isSome_iff_ne_none.mpr hsome)]
      exact Bool.false_ne_true (hmasked.symm.trans (hok.runs _ hrun))
    · by_contra hpending
      obtain ⟨hstill, -⟩ := hok.stays n.siSigno ((Bool.not_eq_false _).mp hpending) hmasked
      exact Bool.false_ne_true ((handleRound_first hl).symm.trans hstill)
  · intro hfirst
    refine ⟨fun signo hrun => ?_, fun signo hpending hmasked => ?_⟩
    · rw [hcalls] at hrun
      split at hrun
      next hsome =>
        obtain rfl := Option.some.inj hrun
        rcases hfirst n hhead with hun | ⟨hnone, -⟩
        · exact hun
        · rw [hnone] at hsome
          exact nomatch hsome
      next => exact nomatch hrun
    · have hother : n.siSigno ≠ signo := by
        rintro rfl
        rcases hfirst n hhead with hun | ⟨-, hnot⟩
        · exact Bool.false_ne_true (hmasked.symm.trans hun)
        · exact Bool.false_ne_true (hnot.symm.trans hpending)
      have hstill := (handleRound_other hl hother).1.trans hpending
      exact ⟨hstill, hnodes' signo hstill⟩

/-- A signal that the thread takes, and sends itself, is handled. -/
theorem signal_masking_run : ∃ s s' : SigTcb Unit, Step s .handle s' ∧ MaskingOk s .handle s' := by
  let as : List (SigAction Unit) := [.unmask 10, .kill 10, .killAppend 10, .deliver true false]
  have hrun : as.foldlM (Run.tryStep Enabled exec) (init ()) = some (as.foldl exec (init ())) := rfl
  have hstep : Step (as.foldl exec (init ())) .handle ((as.foldl exec (init ())).exec .handle) := ⟨by decide, rfl⟩
  refine ⟨_, _, hstep, (signal_masking (Run.of_foldlM_tryStep hrun) hstep).mpr fun n hn => Or.inl ?_⟩
  obtain rfl : killInfo 10 = n := Option.some.inj hn
  decide

/-- When 10 is masked and has come before 12, which is not, the handler of 10 is called, and 10 is pending no longer. -/
theorem signal_masking_first : ∃ (as : List (SigAction Unit)) (s s' : SigTcb Unit), Run Step (init ()) as s ∧
    Step s .handle s' ∧ s.sigMask.getLsbD 10 = false ∧ s.handlerRun .handle = some 10 ∧
    s.sigPending.getLsbD 10 = true ∧ s'.sigPending.getLsbD 10 = false ∧ ¬MaskingOk s .handle s' := by
  let as : List (SigAction Unit) := [.unmask 12, .kill 10, .killAppend 10, .kill 12, .killAppend 12, .deliver true false]
  have hrun : as.foldlM (Run.tryStep Enabled exec) (init ()) = some (as.foldl exec (init ())) := rfl
  have hstep : Step (as.foldl exec (init ())) .handle ((as.foldl exec (init ())).exec .handle) := ⟨by decide, rfl⟩
  have hmasked : (as.foldl exec (init ())).sigMask.getLsbD 10 = false := by decide
  have hcalls : (as.foldl exec (init ())).handlerRun .handle = some 10 := by decide
  refine ⟨as, _, _, Run.of_foldlM_tryStep hrun, hstep, hmasked, hcalls, by decide, by decide, fun hok => ?_⟩
  exact Bool.false_ne_true (hmasked.symm.trans (hok.runs 10 hcalls))

end CoreLink.RtThread.SigTcb
