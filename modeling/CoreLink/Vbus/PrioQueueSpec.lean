/-
# `CoreLink.Vbus.PrioQueueSpec` — what a priority queue is for.

The abstract queue has one list of items for each priority. A push is accepted, and later linked at the end of the list of
its priority. A pop takes the first item of the lowest-numbered list that is not empty, at one instant, and later returns
with its value; it may also find all lists empty. `PqSpec` keeps every item that was ever accepted or taken, so that "at
most once and none lost" is a statement about one state: `PqSpec.Conserved`.
-/
import CoreLink.Lib.Run
import CoreLink.Vbus.PrioQueue
import Mathlib.Data.List.Range

namespace CoreLink.Vbus

open CoreLink.Lib

variable {T α : Type*}

/-! ## The abstract queue -/

/-- One push: which one it was, who made it, with which priority, and what was pushed. -/
structure PqItem (T α : Type*) where
  id : Nat
  pusher : T
  prio : Nat
  value : α

/-- The abstract queue. -/
structure PqSpec (T α : Type*) where
  pushed : List (PqItem T α)
  pending : T → Option (PqItem T α)
  queue : Nat → List (PqItem T α)
  taken : List (T × PqItem T α)
  receiving : T → Option (PqItem T α)
  popped : List (T × PqItem T α)

/-- The observable events. -/
inductive PqSpecEvent (T α : Type*) where
  | accept (t : T) (prio : Nat) (value : α)
  | link (t : T)
  | take (t : T)
  | empty (t : T)
  | finish (t : T) (value : α)

namespace PqSpec

def init : PqSpec T α where
  pushed := []
  pending _ := none
  queue _ := []
  taken := []
  receiving _ := none
  popped := []

/-- The items on all lists, by priority. -/
def queued (a : PqSpec T α) : List (PqItem T α) := (List.range rtPrioQueuePrioMax).flatMap a.queue

variable [DecidableEq T]

/-- The steps of the abstract queue. -/
inductive Step : PqSpec T α → PqSpecEvent T α → PqSpec T α → Prop
  | accept {a : PqSpec T α} {t : T} {prio : Nat} {value : α} (hprio : prio < rtPrioQueuePrioMax)
      (hp : a.pending t = none) (hr : a.receiving t = none) :
      Step a (.accept t prio value)
        { a with
          pushed := a.pushed ++ [⟨a.pushed.length, t, prio, value⟩]
          pending := Function.update a.pending t (some ⟨a.pushed.length, t, prio, value⟩) }
  | link {a : PqSpec T α} {t : T} {m : PqItem T α} (hp : a.pending t = some m) :
      Step a (.link t)
        { a with
          pending := Function.update a.pending t none
          queue := Function.update a.queue m.prio (a.queue m.prio ++ [m]) }
  | take {a : PqSpec T α} {t : T} {prio : Nat} {m : PqItem T α} {ms : List (PqItem T α)}
      (hprio : prio < rtPrioQueuePrioMax) (hlowest : ∀ p < prio, a.queue p = []) (hq : a.queue prio = m :: ms)
      (hp : a.pending t = none) (hr : a.receiving t = none) :
      Step a (.take t)
        { a with
          queue := Function.update a.queue prio ms
          taken := a.taken ++ [(t, m)]
          receiving := Function.update a.receiving t (some m) }
  | empty {a : PqSpec T α} {t : T} (hq : ∀ p < rtPrioQueuePrioMax, a.queue p = []) : Step a (.empty t) a
  | finish {a : PqSpec T α} {t : T} {m : PqItem T α} (hr : a.receiving t = some m) :
      Step a (.finish t m.value)
        { a with
          receiving := Function.update a.receiving t none
          popped := a.popped ++ [(t, m)] }

/-! ## Conservation -/

/-- **At most once, and none lost.** The pushes are numbered; each is still on its way into the queue, on a list, or has
been taken, and exactly one of these; what a thread has taken, in order, is what its pops have returned with and the item
it is about to return with. -/
structure Conserved (a : PqSpec T α) : Prop where
  ids : a.pushed.map PqItem.id = List.range a.pushed.length
  prios : ∀ m ∈ a.pushed, m.prio < rtPrioQueuePrioMax
  place : Partition (· ∈ a.pushed) (a.queued ++ a.taken.map Prod.snd) a.pending
  perThread : ∀ t, a.taken.filter (fun d => d.1 = t) =
    a.popped.filter (fun d => d.1 = t) ++ ((a.receiving t).map fun m => (t, m)).toList

theorem conserved_init : Conserved (init : PqSpec T α) where
  ids := rfl
  prios := nofun
  place := ⟨List.nodup_nil, nofun, nofun, fun n => by simp [init, queued, rtPrioQueuePrioMax]⟩
  perThread _ := rfl

/-- The number of a new push is new. -/
theorem Conserved.fresh {a : PqSpec T α} (h : a.Conserved) {m : PqItem T α} (hm : m.id = a.pushed.length) :
    m ∉ a.pushed := by
  intro hmem
  have hid : m.id ∈ a.pushed.map PqItem.id := List.mem_map_of_mem hmem
  rw [h.ids, List.mem_range] at hid
  omega

/-- One list changes. -/
theorem queued_update (a : PqSpec T α) {prio : Nat} (hprio : prio < rtPrioQueuePrioMax) (ms xs ys : List (PqItem T α))
    (h : (ms ++ xs).Perm (a.queue prio ++ ys)) :
    ((List.range rtPrioQueuePrioMax).flatMap (Function.update a.queue prio ms) ++ xs).Perm (a.queued ++ ys) :=
  flatMap_update_perm List.nodup_range (List.mem_range.mpr hprio) h

/-- One step conserves the items. -/
theorem Step.conserved {a a' : PqSpec T α} {e : PqSpecEvent T α} (hs : Step a e a') (h : a.Conserved) :
    a'.Conserved := by
  cases hs with
  | @accept t prio value hprio hp hr =>
      refine ⟨by simp [h.ids, List.range_succ], fun m hm => ?_, ?_, h.perThread⟩
      · rcases List.mem_append.mp hm with hm | hm
        · exact h.prios m hm
        · obtain rfl := List.mem_singleton.mp hm
          exact hprio
      · exact h.place.grow (h.fresh rfl) hp fun n => by simp
  | @link t m hp =>
      have hprio : m.prio < rtPrioQueuePrioMax := h.prios m ((h.place.cover m).mpr (.inr ⟨t, hp⟩))
      refine ⟨h.ids, h.prios, h.place.move t none ?_, h.perThread⟩
      have hlist := queued_update a hprio (a.queue m.prio ++ [m]) [] [m] (by simp)
      have hswap : ∀ xs : List (PqItem T α), (a.queued ++ [m] ++ xs).Perm (a.queued ++ xs ++ [m]) := fun xs => by
        simp only [List.append_assoc]
        exact List.perm_append_comm.append_left _
      rw [hp]
      simp only [Option.toList_none, Option.toList_some, List.append_nil] at hlist ⊢
      exact (hlist.append_right _).trans (hswap _)
  | @take t prio m ms hprio hlowest hq hp hr =>
      refine ⟨h.ids, h.prios, h.place.perm ?_, fun u => ?_⟩
      · have hlist := queued_update a hprio ms [m] []
          (by rw [hq, List.append_nil]; exact List.perm_append_singleton m ms)
        rw [List.append_nil] at hlist
        have hswap : ∀ xs ys : List (PqItem T α), (xs ++ (ys ++ [m])).Perm (xs ++ [m] ++ ys) := fun xs ys => by
          rw [List.append_assoc]
          exact List.perm_append_comm.append_left _
        rw [List.map_append]
        exact (hswap _ _).trans (hlist.append_right _)
      · by_cases hu : u = t
        · subst hu
          simp [List.filter_append, h.perThread, hr]
        · have htu : t ≠ u := fun e => hu e.symm
          simp [List.filter_append, h.perThread, Function.update_of_ne hu, htu]
  | empty hq => exact h
  | @finish t m hr =>
      refine ⟨h.ids, h.prios, h.place, fun u => ?_⟩
      by_cases hu : u = t
      · subst hu
        simp [List.filter_append, h.perThread, hr]
      · have htu : t ≠ u := fun e => hu e.symm
        simp [List.filter_append, h.perThread, Function.update_of_ne hu, htu]

end PqSpec

end CoreLink.Vbus
