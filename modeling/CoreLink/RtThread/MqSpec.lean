/-
# `CoreLink.RtThread.MqSpec` — what a message queue is for.

The abstract queue is a list of messages. A send is accepted, and later linked: at the end of the list, or in front
if it is urgent. A receive takes the first message of the list and later returns with its bytes. A reset empties the
list. `MqSpec` also keeps every message that was ever accepted, delivered or dropped, so that "none lost, none
duplicated" is a statement about one state: `MqSpec.Conserved`.

The events are what can be observed of the calls; `MqSys.observe` reads them off the steps of the code.
-/
import CoreLink.Lib.Run
import CoreLink.RtThread.Mq

namespace CoreLink.RtThread

open CoreLink.Lib

variable {T : Type*}

/-! ## The abstract queue -/

/-- One send: which one it was, who made it, with which call, and what was sent. -/
structure Message (T : Type*) where
  id : Nat
  sender : T
  urgent : Bool
  payload : List UInt8

/-- The abstract queue. A receiver also has the number of bytes it asked for. -/
structure MqSpec (T : Type*) where
  sent : List (Message T)
  pending : T → Option (Message T)
  queue : List (Message T)
  delivered : List (T × Message T)
  receiving : T → Option (Message T × Nat)
  finished : List (T × Message T)
  dropped : List (Message T)

/-- The observable events. -/
inductive MqSpecEvent (T : Type*) where
  | accept (t : T) (urgent : Bool) (payload : List UInt8)
  | link (t : T)
  | deliver (t : T) (size : Nat)
  | finish (t : T) (buffer : List UInt8)
  | reset

namespace MqSpec

/-- `size` bytes were received of a message: they are the payload as far as both reach. -/
def Received (payload : List UInt8) (size : Nat) (buffer : List UInt8) : Prop :=
  buffer.length = size ∧ buffer.take payload.length = payload.take size

def init : MqSpec T where
  sent := []
  pending _ := none
  queue := []
  delivered := []
  receiving _ := none
  finished := []
  dropped := []

variable [DecidableEq T]

/-- The steps of the abstract queue. -/
inductive Step : MqSpec T → MqSpecEvent T → MqSpec T → Prop
  | accept {a : MqSpec T} {t : T} {urgent : Bool} {payload : List UInt8}
      (hp : a.pending t = none) (hr : a.receiving t = none) :
      Step a (.accept t urgent payload)
        { a with
          sent := a.sent ++ [⟨a.sent.length, t, urgent, payload⟩]
          pending := Function.update a.pending t (some ⟨a.sent.length, t, urgent, payload⟩) }
  | link {a : MqSpec T} {t : T} {m : Message T} (hp : a.pending t = some m) :
      Step a (.link t)
        { a with
          pending := Function.update a.pending t none
          queue := if m.urgent then m :: a.queue else a.queue ++ [m] }
  | deliver {a : MqSpec T} {t : T} {m : Message T} {ms : List (Message T)} {size : Nat}
      (hq : a.queue = m :: ms) (hp : a.pending t = none) (hr : a.receiving t = none) :
      Step a (.deliver t size)
        { a with
          queue := ms
          delivered := a.delivered ++ [(t, m)]
          receiving := Function.update a.receiving t (some (m, size)) }
  | finish {a : MqSpec T} {t : T} {m : Message T} {size : Nat} {buffer : List UInt8}
      (hr : a.receiving t = some (m, size)) (hb : Received m.payload size buffer) :
      Step a (.finish t buffer)
        { a with
          receiving := Function.update a.receiving t none
          finished := a.finished ++ [(t, m)] }
  | reset {a : MqSpec T} : Step a .reset { a with queue := [], dropped := a.dropped ++ a.queue }

/-! ## Conservation -/

/-- **None lost, none duplicated.** The sends are numbered; each is still on its way into the queue, in the queue,
delivered to one receiver, or dropped by a reset, and exactly one of these; what a thread has been given, in order,
is what its calls have returned with and the message it is about to return with. -/
structure Conserved (a : MqSpec T) : Prop where
  ids : a.sent.map Message.id = List.range a.sent.length
  place : Partition (· ∈ a.sent) (a.queue ++ a.delivered.map Prod.snd ++ a.dropped) a.pending
  perThread : ∀ t, a.delivered.filter (fun d => d.1 = t) =
    a.finished.filter (fun d => d.1 = t) ++ ((a.receiving t).map fun r => (t, r.1)).toList

theorem conserved_init : Conserved (init : MqSpec T) where
  ids := rfl
  place := ⟨List.nodup_nil, nofun, nofun, fun n => by simp [init]⟩
  perThread _ := rfl

/-- The number of a new send is new. -/
theorem Conserved.fresh {a : MqSpec T} (h : a.Conserved) {m : Message T} (hm : m.id = a.sent.length) :
    m ∉ a.sent := by
  intro hmem
  have hid : m.id ∈ a.sent.map Message.id := List.mem_map_of_mem hmem
  rw [h.ids, List.mem_range] at hid
  omega

/-- One step conserves the messages. -/
theorem Step.conserved {a a' : MqSpec T} {e : MqSpecEvent T} (hs : Step a e a') (h : a.Conserved) :
    a'.Conserved := by
  cases hs with
  | accept hp hr =>
      refine ⟨by simp [h.ids, List.range_succ], ?_, h.perThread⟩
      exact h.place.grow (h.fresh rfl) hp fun n => by simp
  | @link t m hp =>
      refine ⟨h.ids, ?_, h.perThread⟩
      refine h.place.move t none ?_
      rw [hp]
      simp only [Option.toList_none, Option.toList_some, List.append_nil]
      split
      · exact (List.perm_append_singleton m _).symm
      · have hm : ([m] ++ (a.delivered.map Prod.snd ++ a.dropped)).Perm
            (a.delivered.map Prod.snd ++ a.dropped ++ [m]) := List.perm_append_comm
        simpa [List.append_assoc] using hm.append_left a.queue
  | @deliver t m ms size hq hp hr =>
      refine ⟨h.ids, ?_, ?_⟩
      · have hm : (ms ++ a.delivered.map Prod.snd ++ m :: a.dropped).Perm
            (m :: (ms ++ a.delivered.map Prod.snd ++ a.dropped)) := List.perm_middle
        refine h.place.perm ?_
        simpa [hq, List.append_assoc] using hm
      · intro u
        by_cases hu : u = t
        · subst hu
          simp [List.filter_append, h.perThread, hr]
        · have htu : t ≠ u := fun e => hu e.symm
          simp [List.filter_append, h.perThread, Function.update_of_ne hu, htu]
  | @finish t m size buffer hr hb =>
      refine ⟨h.ids, h.place, ?_⟩
      intro u
      by_cases hu : u = t
      · subst hu
        simp [List.filter_append, h.perThread, hr]
      · have htu : t ≠ u := fun e => hu e.symm
        simp [List.filter_append, h.perThread, Function.update_of_ne hu, htu]
  | reset =>
      refine ⟨h.ids, h.place.perm ?_, h.perThread⟩
      simp only [List.nil_append]
      calc (a.delivered.map Prod.snd ++ (a.dropped ++ a.queue)).Perm
            (a.queue ++ (a.delivered.map Prod.snd ++ a.dropped)) := by
            rw [← List.append_assoc]
            exact List.perm_append_comm
        _ = a.queue ++ a.delivered.map Prod.snd ++ a.dropped := (List.append_assoc _ _ _).symm

/-- Every run conserves the messages. -/
theorem run_conserved {es : List (MqSpecEvent T)} {a : MqSpec T} (hrun : Run Step init es a) : a.Conserved :=
  hrun.invariant conserved_init fun _ _ _ h hs => hs.conserved h

end MqSpec

end CoreLink.RtThread
