/-
# `CoreLink.RtThread.Signal` — the signals of a thread, `src/signal.c`.

`rt_thread_kill` puts a node into the list of the thread and sets the bit of the signal in `sig_pending`; a bit in `sig_mask`
says that the thread takes the signal. `rt_thread_handle_sig` goes on as long as the two sets meet, and takes the first node of
the list in each round.

What runs with interrupts disabled is one step. A handler runs between two steps and may make any step of the thread, another
`rt_thread_handle_sig` among them. `rt_thread_kill` looks for a node first and adds one later. `rt_signal_wait` is left out.
-/
import CoreLink.Lib.Run
import Mathlib.Data.Nat.Notation
import Mathlib.Logic.Function.Basic

namespace CoreLink.RtThread

open CoreLink.Lib

/-! ## Sets of signals -/

/-- `RT_SIG_MAX`. -/
def rtSigMax : ℕ := 32

/-- `sig_mask(sig_no)`. -/
def sigBit (signo : ℕ) : BitVec 32 := 1#32 <<< signo

section Bits

variable {x y : BitVec 32} {i j : ℕ}

theorem getLsbD_sigBit (i j : ℕ) : (sigBit i).getLsbD j = (decide (i < 32) && decide (i = j)) := by
  rw [sigBit, ← BitVec.twoPow_eq, BitVec.getLsbD_twoPow]

/-- No signal is lost when one is added. -/
theorem getLsbD_or_left (y : BitVec 32) (h : x.getLsbD j = true) : (x ||| y).getLsbD j = true := by
  rw [BitVec.getLsbD_or, h, Bool.true_or]

/-- Other signals stay when one is taken away. -/
theorem getLsbD_clear_of_ne (hne : i ≠ j) : (x &&& ~~~sigBit i).getLsbD j = x.getLsbD j := by
  rw [BitVec.getLsbD_and, BitVec.getLsbD_not, getLsbD_sigBit, decide_eq_false hne, Bool.and_false, Bool.not_false,
    Bool.and_true]
  cases hx : x.getLsbD j with
  | false => rfl
  | true => rw [Bool.true_and, decide_eq_true (BitVec.lt_of_getLsbD hx)]

theorem getLsbD_clear (h : x.getLsbD i = true) : (x &&& ~~~sigBit i).getLsbD i = false := by
  rw [BitVec.getLsbD_and, BitVec.getLsbD_not, getLsbD_sigBit, decide_eq_true (BitVec.lt_of_getLsbD h)]
  simp

end Bits

/-! ## State -/

/-- `siginfo_t`. -/
structure SigInfo where
  siSigno : ℕ
  siCode : ℕ
  sivalPtr : ℕ
  deriving DecidableEq, Repr

/-- `SI_USER`. -/
def siUser : ℕ := 1

/-- What `rt_thread_kill` sends. -/
def killInfo (sig : ℕ) : SigInfo := ⟨sig, siUser, 0⟩

/-- The fields of `struct rt_thread` for signals. `siList` are the nodes of `si_list`; of `stat`, whether the thread is suspended
and the bits of signals; `sigRet` is whether a stack has been made up for `_signal_entry`. `killing` are the signals for which a
call of `rt_thread_kill` has not found a node and is about to add one, and `handling` the arguments of the calls of
`rt_thread_handle_sig` that are in their loops. -/
structure SigTcb (H : Type*) where
  sigPending : BitVec 32
  sigMask : BitVec 32
  siList : List SigInfo
  sigVectors : ℕ → Option H
  suspended : Bool
  statSignal : Bool
  statSignalWait : Bool
  statSignalPending : Bool
  sigRet : Bool
  killing : List ℕ
  handling : List Bool

/-- The steps. Those of `rt_signal_mask`, `rt_signal_unmask` and `rt_signal_install` are steps of the thread itself, as are
`schedule`, with which `rt_schedule` goes on in it, and the steps of `rt_thread_handle_sig`. `deliver` is `_signal_deliver`, by
the thread itself or not, in an interrupt or not. -/
inductive SigAction (H : Type*) where
  | kill (sig : ℕ)
  | killAppend (sig : ℕ)
  | killNoMemory (sig : ℕ)
  | deliver (self irq : Bool)
  | mask (signo : ℕ)
  | unmask (signo : ℕ)
  | install (signo : ℕ) (handler : Option H)
  | suspend
  | resume
  | schedule
  | signalEntry
  | handle
  | handleEnd

namespace SigTcb

variable {H : Type*}

/-! ## The functions -/

/-- The nodes with the info of the first one for the same signal replaced, if there is one. -/
def updateInfo (si : SigInfo) : List SigInfo → Option (List SigInfo)
  | [] => none
  | entry :: l => if entry.siSigno = si.siSigno then some (si :: l) else (updateInfo si l).map (entry :: ·)

/-- A signal is waiting that the thread takes. -/
def interested (s : SigTcb H) : Bool := s.sigPending &&& s.sigMask ≠ 0

/-- `rt_thread_kill` up to where it looks for memory. -/
def rtThreadKill (sig : ℕ) (s : SigTcb H) : SigTcb H :=
  if sig < rtSigMax then
    match if s.sigPending.getLsbD sig then updateInfo (killInfo sig) s.siList else none with
    | some siList => { s with siList := siList }
    | none => { s with killing := sig :: s.killing }
  else s

/-- The rest of it, with memory for a node. -/
def killAppend (sig : ℕ) (s : SigTcb H) : SigTcb H :=
  { s with
    killing := s.killing.erase sig
    siList := s.siList ++ [killInfo sig]
    sigPending := s.sigPending ||| sigBit sig }

/-- The first test of `rt_thread_handle_sig`. -/
def enterHandleSig (cleanState : Bool) (s : SigTcb H) : SigTcb H :=
  if s.interested ∧ s.statSignalWait = false then { s with handling := cleanState :: s.handling } else s

/-- `_signal_deliver`. -/
def signalDeliver (self irq : Bool) (s : SigTcb H) : SigTcb H :=
  if s.interested = false then s
  else if s.suspended then { s with suspended := false, statSignal := true, statSignalPending := true }
  else if self then
    if irq then { s with statSignal := true } else enterHandleSig true { s with statSignal := true }
  else if s.statSignal = false then { s with statSignal := true, statSignalPending := false, sigRet := true }
  else s

/-- A round of the loop of `rt_thread_handle_sig`, up to the call of the handler. -/
def handleRound (s : SigTcb H) : SigTcb H :=
  match s.siList with
  | [] => s
  | siNode :: siList => { s with siList := siList, sigPending := s.sigPending &&& ~~~sigBit siNode.siSigno }

/-- Its end; `_signal_entry` clears the bits that the caller does not. -/
def handleEnd (s : SigTcb H) : SigTcb H :=
  match s.handling with
  | [] => s
  | true :: handling => { s with handling := handling, statSignal := false }
  | false :: handling => { s with handling := handling, statSignal := false, sigRet := false }

/-- `_signal_entry` up to the loop, or to its end. -/
def signalEntry (s : SigTcb H) : SigTcb H :=
  if s.interested ∧ s.statSignalWait = false then { s with handling := false :: s.handling }
  else { s with statSignal := false, sigRet := false }

/-! ## Runs -/

/-- When a step can be made. -/
def Enabled (s : SigTcb H) : SigAction H → Prop
  | .kill _ => True
  | .killAppend sig | .killNoMemory sig => sig ∈ s.killing
  | .deliver self _ => self = true → s.suspended = false
  | .mask _ | .unmask _ | .install _ _ | .suspend => s.suspended = false
  | .resume => s.suspended = true
  | .schedule => s.suspended = false ∧ s.statSignalPending = true
  | .signalEntry => s.suspended = false ∧ s.sigRet = true
  | .handle => s.suspended = false ∧ s.handling ≠ [] ∧ s.interested = true ∧ s.siList ≠ []
  | .handleEnd => s.suspended = false ∧ s.handling ≠ [] ∧ (s.interested = false ∨ s.siList = [])

instance (s : SigTcb H) (a : SigAction H) : Decidable (s.Enabled a) := by
  cases a <;> unfold Enabled <;> infer_instance

/-- What a step does. -/
def exec (s : SigTcb H) : SigAction H → SigTcb H
  | .kill sig => rtThreadKill sig s
  | .killAppend sig => killAppend sig s
  | .killNoMemory sig => { s with killing := s.killing.erase sig }
  | .deliver self irq => signalDeliver self irq s
  | .mask signo => { s with sigMask := s.sigMask &&& ~~~sigBit signo }
  | .unmask signo => { s with sigMask := s.sigMask ||| sigBit signo }
  | .install signo handler =>
    if signo < rtSigMax then { s with sigVectors := Function.update s.sigVectors signo handler } else s
  | .suspend => { s with suspended := true }
  | .resume => { s with suspended := false }
  | .schedule => enterHandleSig true { s with statSignalPending := false }
  | .signalEntry => signalEntry s
  | .handle => handleRound s
  | .handleEnd => handleEnd s

/-- A step. -/
def Step (s : SigTcb H) (a : SigAction H) (s' : SigTcb H) : Prop := s.Enabled a ∧ s' = s.exec a

/-- The thread as `_rt_thread_init` sets it up, with the table of handlers that `rt_thread_alloc_sig` makes. -/
def init (default : H) : SigTcb H where
  sigPending := 0
  sigMask := 0
  siList := []
  sigVectors _ := some default
  suspended := false
  statSignal := false
  statSignalWait := false
  statSignalPending := false
  sigRet := false
  killing := []
  handling := []

end SigTcb

end CoreLink.RtThread
