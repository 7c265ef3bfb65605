/-
# `CoreLink.RtThread.TimerSpec` — what the hard timers are for.

An abstract timer service counts time without a bound. Each pending timer has a deadline and the number of the call
that started it; a check fires the pending timers whose deadline is reached, each once, the earlier deadline first
and among equal deadlines the one started first. A one-shot timer is then no longer pending, and a periodic one is
started again at once.
-/
import CoreLink.Lib.Run
import Mathlib.Logic.Function.Basic
import Mathlib.Tactic.SplitIfs

namespace CoreLink.RtThread

open CoreLink.Lib

/-- What happens to the timers: a call, or an advance of the tick with the check that follows it and the timers that
this check fires. -/
inductive TimerOp (T : Type*) where
  | start (t : T)
  | stop (t : T)
  | advance (d : Nat) (fired : List T)

/-- The abstract timers: the time, for each pending timer its deadline and the number of its start, and how many
starts there have been. -/
@[ext] structure TimerSpec (T : Type*) where
  now : Nat
  pending : T → Option (Nat × Nat)
  starts : Nat

namespace TimerSpec

variable {T : Type*}

def init (now : Nat) : TimerSpec T := { now, pending := fun _ => none, starts := 0 }

/-- The deadline of `t` is reached. -/
def Due (a : TimerSpec T) (t : T) : Prop := ∃ p, a.pending t = some p ∧ p.1 ≤ a.now

/-- `t` is pending and to be fired before `u`. -/
def Before (a : TimerSpec T) (t u : T) : Prop :=
  ∃ p p', a.pending t = some p ∧ a.pending u = some p' ∧ (p.1 < p'.1 ∨ p.1 = p'.1 ∧ p.2 < p'.2)

/-- **What a check fires**: the timers that are due and no others, in the order of their deadlines. -/
structure Fires (a : TimerSpec T) (fired : List T) : Prop where
  due : ∀ t, t ∈ fired ↔ a.Due t
  order : fired.Pairwise a.Before

/-- Time passes. -/
def advance (a : TimerSpec T) (d : Nat) : TimerSpec T := { a with now := a.now + d }

section Order

variable {a : TimerSpec T} {t u : T}

/-- Whatever is before a due timer is due. -/
theorem Before.due (h : a.Before t u) (hu : a.Due u) : a.Due t := by
  obtain ⟨p, p', hp, hp', hlt⟩ := h
  obtain ⟨p'', hp'', hle⟩ := hu
  obtain rfl : p' = p'' := Option.some.inj (hp'.symm.trans hp'')
  exact ⟨p, hp, by omega⟩

/-- The order depends on the two timers only. -/
theorem Before.congr {a' : TimerSpec T} (h : a.Before t u) (ht : a'.pending t = a.pending t)
    (hu : a'.pending u = a.pending u) : a'.Before t u := by
  obtain ⟨p, p', hp, hp', hlt⟩ := h
  exact ⟨p, p', ht.trans hp, hu.trans hp', hlt⟩

end Order

variable [DecidableEq T] (time : T → Nat) (periodic : T → Bool)

def start (a : TimerSpec T) (t : T) : TimerSpec T :=
  { a with pending := Function.update a.pending t (some (a.now + time t, a.starts)), starts := a.starts + 1 }

def stop (a : TimerSpec T) (t : T) : TimerSpec T := { a with pending := Function.update a.pending t none }

/-- What a timer is after it has fired. -/
def expire (a : TimerSpec T) (t : T) : TimerSpec T := if periodic t then a.start time t else a.stop t

/-- **The abstract timers**, where `time` and `periodic` are what the timers were made with. -/
def Step (a : TimerSpec T) (l : TimerOp T) (a' : TimerSpec T) : Prop :=
  match l with
  | .start t => a' = a.start time t
  | .stop t => a' = a.stop t
  | .advance d fired => (a.advance d).Fires fired ∧ a' = fired.foldl (expire time periodic) (a.advance d)

section Lemmas

variable {time periodic} {a : TimerSpec T} {t u : T}

theorem stop_start : (a.stop t).start time t = a.start time t := by
  simp [stop, start]

/-- Stopping a timer that is not pending changes nothing. -/
theorem stop_of_none (h : a.pending t = none) : a.stop t = a := by
  rw [stop, ← h, Function.update_eq_self]

@[simp] theorem start_pending :
    (a.start time t).pending = Function.update a.pending t (some (a.now + time t, a.starts)) := rfl

@[simp] theorem stop_pending : (a.stop t).pending = Function.update a.pending t none := rfl

theorem expire_now : (a.expire time periodic t).now = a.now := by
  rw [expire]
  split_ifs <;> rfl

/-- Only the timer that has fired changes. -/
theorem expire_pending (h : u ≠ t) : (a.expire time periodic t).pending u = a.pending u := by
  rw [expire]
  split_ifs <;> exact Function.update_of_ne h _ _

/-- The other timers are due as before. -/
theorem expire_due (h : u ≠ t) : (a.expire time periodic t).Due u ↔ a.Due u := by
  rw [Due, Due, expire_pending h, expire_now]

/-- A timer that has fired is pending again only with a deadline that its time puts ahead. -/
theorem expire_pending_self {p : Nat × Nat} (hp : (a.expire time periodic t).pending t = some p) :
    periodic t = true ∧ p.1 = a.now + time t := by
  rw [expire] at hp
  split_ifs at hp with hper
  · rw [start_pending, Function.update_self] at hp
    exact ⟨hper, (Option.some.inj hp) ▸ rfl⟩
  · rw [stop_pending, Function.update_self] at hp
    cases hp

/-- A timer that has fired is not due, unless it is periodic with no time in between. -/
theorem not_due_expire (hpos : periodic t = true → 0 < time t) : ¬ (a.expire time periodic t).Due t := by
  rintro ⟨p, hp, hle⟩
  obtain ⟨hper, hD⟩ := expire_pending_self hp
  have hlt := hpos hper
  rw [expire_now] at hle
  omega

end Lemmas

end TimerSpec

end CoreLink.RtThread
