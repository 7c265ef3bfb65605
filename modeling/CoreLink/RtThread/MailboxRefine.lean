/-
# `CoreLink.RtThread.MailboxRefine` — the mailbox is a bounded FIFO, in every interleaving.

What is observed of a run are the calls that return `RT_EOK`: a send puts its mail, a receive gets the word it wrote to
`*value`. `MbSys.Effect` says once what a step can do to the object: nothing, or one put, or one get, and the last two
only in the step in which the call returns `RT_EOK`. The refinement, the equation between the offsets, and the claim
that a failing call changes nothing are read off it.
-/
import CoreLink.Lib.WaitList
import CoreLink.RtThread.Mailbox

namespace CoreLink.RtThread

open CoreLink.Lib

variable {T V : Type*}

/-! ## The offsets -/

namespace Mb

/-- The mails in the box, the oldest first. -/
def mails (mb : Mb V) : List V := Ring.contents mb.size mb.msgPool mb.outOffset mb.entry

/-- The offsets and the number of mails of a mailbox. -/
structure Ok (mb : Mb V) : Prop where
  size_lt : mb.size < 2 ^ 16
  out_lt : mb.outOffset < mb.size
  in_eq : mb.inOffset = (mb.outOffset + mb.entry) % mb.size
  entry_le : mb.entry ≤ mb.size

/-- With a size of 16 bits no increment of an offset wraps before it is compared with the size. -/
theorem advance_eq {mb : Mb V} {offset : Nat} (hs : mb.size < 2 ^ 16) (ho : offset < mb.size) :
    mb.advance offset = (offset + 1) % mb.size := by
  unfold advance
  rw [Nat.mod_eq_of_lt (by omega : offset + 1 < 2 ^ 16)]
  exact Ring.wrap_succ ho

theorem ok_init (msgPool : Nat → V) {size : Nat} (h0 : 0 < size) (hs : size < 2 ^ 16) (flag : IpcFlag) :
    (rtMbInit msgPool size flag).Ok := by
  have hsize : (rtMbInit msgPool size flag).size = size := Nat.mod_eq_of_lt hs
  refine ⟨by rw [hsize]; exact hs, by rw [hsize]; exact h0, ?_, Nat.zero_le _⟩
  exact (Nat.zero_mod _).symm

/-- A mail goes in. -/
theorem Ok.put {mb : Mb V} (h : mb.Ok) (hroom : mb.entry ≠ mb.size) (value : V) :
    (mb.put value).Ok ∧ (mb.put value).mails = mb.mails ++ [value] := by
  have hlt : mb.entry < mb.size := lt_of_le_of_ne h.entry_le hroom
  have hentry : (mb.entry + 1) % 2 ^ 16 = mb.entry + 1 := Nat.mod_eq_of_lt (by have := h.size_lt; omega)
  have hin : mb.inOffset < mb.size := h.in_eq ▸ Nat.mod_lt _ (by omega)
  refine ⟨⟨h.size_lt, h.out_lt, ?_, ?_⟩, ?_⟩
  · show mb.advance mb.inOffset = (mb.outOffset + (mb.entry + 1) % 2 ^ 16) % mb.size
    rw [advance_eq h.size_lt hin, hentry, h.in_eq]
    exact Ring.offset_put
  · show (mb.entry + 1) % 2 ^ 16 ≤ mb.size
    rw [hentry]
    exact hlt
  · show Ring.contents mb.size (Function.update mb.msgPool mb.inOffset value) mb.outOffset ((mb.entry + 1) % 2 ^ 16) = _
    rw [hentry, h.in_eq]
    exact Ring.contents_put value hlt

/-- A mail comes out. -/
theorem Ok.get {mb : Mb V} (h : mb.Ok) (hentry : mb.entry ≠ 0) :
    mb.get.Ok ∧ mb.mails = mb.msgPool mb.outOffset :: mb.get.mails := by
  obtain ⟨n, hn⟩ : ∃ n, mb.entry = n + 1 := Nat.exists_eq_succ_of_ne_zero hentry
  have hle := h.entry_le
  have hlt := h.size_lt
  have hsub : Word.sub 16 mb.entry 1 = n := by rw [Word.sub_of_le (by omega) (by omega), hn, Nat.add_sub_cancel]
  have hget : mb.get = { mb with outOffset := (mb.outOffset + 1) % mb.size, entry := n } := by
    rw [Mb.get, hsub, advance_eq hlt h.out_lt]
  rw [hget]
  refine ⟨⟨hlt, Nat.mod_lt _ (by omega), ?_, by show n ≤ mb.size; omega⟩, ?_⟩
  · show mb.inOffset = ((mb.outOffset + 1) % mb.size + n) % mb.size
    rw [h.in_eq, hn]
    exact Ring.offset_get.symm
  · show Ring.contents mb.size mb.msgPool mb.outOffset mb.entry = _
    rw [hn]
    exact Ring.contents_get h.out_lt

end Mb

namespace MbSys

/-! ## Observations -/

/-- The call of `t` has returned with `RT_EOK`. -/
def Succeeded (s : MbSys T V) (t : T) : Prop := (s.pc t).isIdle ∧ s.result t = .eok

instance (s : MbSys T V) (t : T) : Decidable (s.Succeeded t) := inferInstanceAs (Decidable (_ ∧ _))

/-- The mail that the call of an event sends; `none` in a receive. -/
def mail (s : MbSys T V) : MbEvent T V → Option V
  | .send _ value _ _ => some value
  | .continue t _ _ =>
      match s.pc t with
      | .sendWoken value _ => some value
      | _ => none
  | .recv .. | .timeout _ | .resume _ => none

/-- What is observed of a step that leads to `s'`: if the call has returned `RT_EOK`, the mail that was sent, or the
one that was received. -/
def observe (s : MbSys T V) (e : MbEvent T V) (s' : MbSys T V) : List (FifoEvent V) :=
  if s'.Succeeded e.thread then
    match s.mail e with
    | some value => [.put value]
    | none => [.get (s'.value e.thread)]
  else []

variable [DecidableEq T]

/-- A step together with what is observed of it. -/
def ObservedStep (s : MbSys T V) (l : MbEvent T V × List (FifoEvent V)) (s' : MbSys T V) : Prop :=
  s.Step l.1 s' ∧ l.2 = s.observe l.1 s'

/-! ## What a step does to the object -/

/-- What one step of the thread `t` does to the object, where `mail` is the mail it sends. -/
inductive Effect (s : MbSys T V) (t : T) (mail : Option V) (s' : MbSys T V) : Prop
  /-- the call goes on, or fails -/
  | quiet (hmb : s'.mb = s.mb) (ht : ¬ s'.Succeeded t)
  /-- a send returns `RT_EOK` -/
  | put (value : V) (hmail : mail = some value) (hroom : s.mb.entry ≠ s.mb.size) (hmb : s'.mb = s.mb.put value)
      (ht : s'.Succeeded t)
  /-- a receive returns `RT_EOK` -/
  | get (hmail : mail = none) (hentry : s.mb.entry ≠ 0) (hmb : s'.mb = s.mb.get)
      (hvalue : s'.value t = s.mb.msgPool s.mb.outOffset) (ht : s'.Succeeded t)

variable {s s' : MbSys T V} {t : T}

/-- Returning an error is no success, and returning `RT_EOK` is. -/
theorem succeeded_ret {e : RtErr} : (s.ret t e).Succeeded t ↔ e = .eok := by
  simp [Succeeded, ret, setPc, MbPc.isIdle]

omit [DecidableEq T] in
theorem not_succeeded {pc : MbPc V} (h : s.pc t = pc) (hpc : pc.isIdle = false) : ¬ s.Succeeded t := fun hs => by
  rw [Succeeded, h, hpc] at hs
  exact absurd hs.1 (by decide)

@[simp] theorem resumeFirst_mb (ts : List T) : (s.resumeFirst ts).mb = s.mb := by cases ts <;> rfl

@[simp] theorem resumeFirst_value (ts : List T) : (s.resumeFirst ts).value = s.value := by cases ts <;> rfl

/-- `while (mb->entry == mb->size)` and what follows. -/
theorem sendEntry_effect (s : MbSys T V) (t : T) (value : V) (timeout : Int) (prio : T → Nat) :
    Effect s t (some value) (s.sendEntry t value timeout prio) := by
  unfold sendEntry
  split_ifs with hfull htime
  · exact .quiet rfl fun h => absurd (succeeded_ret.mp h) (by decide)
  · exact .quiet rfl (not_succeeded (Function.update_self ..) rfl)
  · exact .put value rfl hfull (resumeFirst_mb _) (succeeded_ret.mpr rfl)

/-- `while (mb->entry == 0)` and what follows. -/
theorem recvEntry_effect (s : MbSys T V) (t : T) (timeout : Int) (prio : T → Nat) :
    Effect s t none (s.recvEntry t timeout prio) := by
  unfold recvEntry
  split_ifs with hempty htime
  · exact .quiet rfl fun h => absurd (succeeded_ret.mp h) (by decide)
  · exact .quiet rfl (not_succeeded (Function.update_self ..) rfl)
  · refine .get rfl hempty (resumeFirst_mb _) ?_ (succeeded_ret.mpr rfl)
    show (resumeFirst _ s.suspendSenderThread).value t = _
    rw [resumeFirst_value]
    exact Function.update_self ..

/-- A call that was woken goes on, by what `thread->error` says. -/
theorem continueCall_effect (hcall : (s.pc t).inCall) (elapsed : Nat) (prio : T → Nat) :
    Effect s t (s.mail (.continue t elapsed prio)) (s.continueCall t elapsed prio) := by
  simp only [continueCall, mail]
  cases hpc : s.pc t with
  | idle | sendWaiting | recvWaiting =>
      rw [hpc] at hcall
      exact absurd hcall Bool.false_ne_true
  | sendWoken value timeout =>
      show Effect s t (some value) (s.sendWoken t value timeout elapsed prio)
      unfold sendWoken
      split
      next herr => exact .quiet rfl fun h => herr (succeeded_ret.mp h)
      next => exact sendEntry_effect s t value _ prio
  | recvWoken timeout =>
      show Effect s t none (s.recvWoken t timeout elapsed prio)
      unfold recvWoken
      split
      next herr => exact .quiet rfl fun h => herr (succeeded_ret.mp h)
      next => exact recvEntry_effect s t _ prio

/-- Whoever takes a thread off its list leaves it inside its call. -/
theorem not_succeeded_wake (hwait : (s.pc t).timeLimit.isSome) : ¬ (s.wake t).Succeeded t := by
  refine not_succeeded (Function.update_self ..) ?_
  cases hpc : s.pc t <;> rw [hpc] at hwait <;> first | rfl | exact absurd hwait Bool.false_ne_true

/-- **One step.** -/
theorem step_effect {e : MbEvent T V} (h : s.Step e s') : Effect s e.thread (s.mail e) s' := by
  obtain ⟨he, rfl⟩ := h
  cases e with
  | send t value timeout prio =>
      show Effect s t (some value) (s.rtMbSendWait t value timeout prio)
      unfold rtMbSendWait
      split
      next => exact .quiet rfl fun h => absurd (succeeded_ret.mp h) (by decide)
      next => exact sendEntry_effect s t value timeout prio
  | recv t timeout prio =>
      show Effect s t none (s.rtMbRecv t timeout prio)
      unfold rtMbRecv
      split
      next => exact .quiet rfl fun h => absurd (succeeded_ret.mp h) (by decide)
      next => exact recvEntry_effect s t timeout prio
  | «continue» t elapsed prio => exact continueCall_effect he elapsed prio
  | timeout t =>
      have hwait : (s.pc t).timeLimit.isSome := Option.isSome_of_any he
      have hstill : ¬ ((s.setError t .etimeout).wake t).Succeeded t := not_succeeded_wake hwait
      exact .quiet rfl hstill
  | resume t => exact .quiet rfl (not_succeeded_wake he)

/-! ## The refinement -/

/-- One step of the system is none or one step of the bounded FIFO, as observed. -/
theorem step_refines {l : MbEvent T V × List (FifoEvent V)} (h : s.mb.Ok) (hs : s.ObservedStep l s') :
    Run (Fifo.Step s.mb.size) s.mb.mails l.2 s'.mb.mails ∧ s'.mb.Ok ∧ s'.mb.size = s.mb.size := by
  obtain ⟨hstep, hobs⟩ := hs
  rw [hobs, observe]
  cases step_effect hstep with
  | quiet hmb ht =>
      rw [if_neg ht, hmb]
      exact ⟨.nil, h, rfl⟩
  | put value hmail hroom hmb ht =>
      obtain ⟨hok, hmails⟩ := h.put hroom value
      have hlt : s.mb.mails.length < s.mb.size := by
        rw [Mb.mails, Ring.contents_length]
        exact lt_of_le_of_ne h.entry_le hroom
      have hfifo : Fifo.Step s.mb.size s.mb.mails (.put value) (s.mb.mails ++ [value]) := .put hlt
      rw [if_pos ht, hmail, hmb, hmails]
      exact ⟨.single hfifo, hok, by rw [Mb.put]⟩
  | get hmail hentry hmb hvalue ht =>
      obtain ⟨hok, hmails⟩ := h.get hentry
      have hfifo : Fifo.Step s.mb.size (s.mb.msgPool s.mb.outOffset :: s.mb.get.mails)
        (.get (s.mb.msgPool s.mb.outOffset)) s.mb.get.mails := .get
      rw [if_pos ht, hmail, hmb, hvalue, hmails]
      exact ⟨.single hfifo, hok, by rw [Mb.get]⟩

/-- **The mailbox is a bounded FIFO, in every interleaving.** After any run from a new mailbox of 1 to 65535 words: the
offsets are `entry` mails apart, and `entry` is at most the size; what the calls that returned `RT_EOK` sent and
received is a run of the bounded FIFO that ends with the mails in the box; so what was received is, in order, the
beginning of what was sent; and whatever step a thread makes next, if with it its call does not return `RT_EOK` (the
call goes on or returns an error), the object is left as it is. -/
theorem mailbox_refines {msgPool : Nat → V} {size : Nat} (h0 : 0 < size) (hsize : size < 2 ^ 16) {flag : IpcFlag}
    {value : T → V} {ls : List (MbEvent T V × List (FifoEvent V))}
    (hrun : Run ObservedStep (init (Mb.rtMbInit msgPool size flag) value) ls s) :
    s.mb.inOffset = (s.mb.outOffset + s.mb.entry) % size ∧ s.mb.entry ≤ size ∧
      Run (Fifo.Step size) [] (ls.flatMap Prod.snd) s.mb.mails ∧
      Fifo.gets (ls.flatMap Prod.snd) <+: Fifo.puts (ls.flatMap Prod.snd) ∧
      ∀ e s', s.Step e s' → ¬ s'.Succeeded e.thread → s'.mb = s.mb := by
  have hinit : ([] : List V) = (init (Mb.rtMbInit msgPool size flag) value).mb.mails ∧
      (Mb.rtMbInit msgPool size flag).Ok ∧ (Mb.rtMbInit msgPool size flag).size = size :=
    ⟨rfl, Mb.ok_init msgPool h0 hsize flag, Nat.mod_eq_of_lt hsize⟩
  obtain ⟨mails, hfifo, rfl, hok, hs⟩ := hrun.simulate Prod.snd
    (R := fun s mails => mails = s.mb.mails ∧ s.mb.Ok ∧ s.mb.size = size) hinit fun s l s' mails ⟨hm, hok, hs⟩ hstep => by
      subst hm
      obtain ⟨hrun', hok', hs'⟩ := step_refines hok hstep
      exact ⟨_, hs ▸ hrun', rfl, hok', hs'.trans hs⟩
  refine ⟨hs ▸ hok.in_eq, hs ▸ hok.entry_le, hfifo, ⟨s.mb.mails, (Fifo.run_puts hfifo).1.symm⟩, fun e s' hstep ht => ?_⟩
  cases step_effect hstep with
  | quiet hmb _ => exact hmb
  | put _ _ _ _ ht' => exact absurd ht' ht
  | get _ _ _ _ ht' => exact absurd ht' ht

/-- A mailbox of one word: thread 0 fills it, thread 1 waits with a mail of its own, thread 2 receives the first mail,
thread 0 overtakes the woken thread 1, which waits again and is timed out. -/
theorem mailbox_refines_run : ∃ ls, ∃ s : MbSys (Fin 3) Nat,
    Run ObservedStep (init (Mb.rtMbInit (fun _ => 0) 1 .fifo) fun _ => 0) ls s ∧ s.result 1 = .etimeout ∧
      (s.mb.inOffset = (s.mb.outOffset + s.mb.entry) % 1 ∧ s.mb.entry ≤ 1 ∧
        Run (Fifo.Step 1) [] (ls.flatMap Prod.snd) s.mb.mails ∧
        Fifo.gets (ls.flatMap Prod.snd) <+: Fifo.puts (ls.flatMap Prod.snd) ∧
        ∀ e s', s.Step e s' → ¬ s'.Succeeded e.thread → s'.mb = s.mb) := by
  have hexec : ((([.send 0 7 (-1) fun _ => 0, .send 1 8 5 fun _ => 0, .recv 2 0 fun _ => 0, .send 0 9 0 fun _ => 0,
      .continue 1 2 fun _ => 0, .timeout 1, .continue 1 3 fun _ => 0] : List (MbEvent (Fin 3) Nat)).foldlM
      (Run.tryStep Enabled exec) (init (Mb.rtMbInit (fun _ => 0) 1 .fifo) fun _ => 0)).map fun s => s.result 1) =
        some .etimeout := by decide +kernel
  obtain ⟨s, hs, hresult⟩ := Option.map_eq_some_iff.mp hexec
  obtain ⟨ls, -, hrun⟩ := Run.observed_of_foldlM_tryStep observe hs
  exact ⟨ls, s, hrun, hresult, mailbox_refines (by decide) (by decide) hrun⟩

end MbSys

end CoreLink.RtThread
