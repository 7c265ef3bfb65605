/-
# `CoreLink.Lib.Run` — labelled transition systems and their runs.

A system is a step relation `step : σ → ι → σ → Prop`: from a state, under a label (the call made, or
the event that fires), to a state. `Run step s₀ ls s` is a finite run from `s₀` that takes the labels
`ls` in order and ends in `s`. Everything a development says about "every reachable state" goes through
two rules: `Run.invariant` (a predicate kept by one step holds after every run) and `Run.guarded` (the
same for the runs whose steps all meet a side condition).
-/
import Mathlib.Logic.Relation

namespace CoreLink.Lib

variable {σ ι : Type*}

/-- The runs of `step` from `s₀`, with the labels taken and the state reached. -/
inductive Run (step : σ → ι → σ → Prop) (s₀ : σ) : List ι → σ → Prop
  | nil : Run step s₀ [] s₀
  | snoc {ls : List ι} {s s' : σ} {l : ι} :
      Run step s₀ ls s → step s l s' → Run step s₀ (ls ++ [l]) s'

/-- `step` restricted to the steps whose source state and label satisfy `G`. -/
def Guarded (G : σ → ι → Prop) (step : σ → ι → σ → Prop) (s : σ) (l : ι) (s' : σ) : Prop :=
  G s l ∧ step s l s'

namespace Run

variable {step : σ → ι → σ → Prop} {s₀ s : σ} {ls : List ι}

/-- **The invariant rule.** What holds initially and is kept by every step holds after every run. -/
theorem invariant {I : σ → Prop} (h : Run step s₀ ls s) (h0 : I s₀)
    (hstep : ∀ s l s', I s → step s l s' → I s') : I s := by
  induction h with
  | nil => exact h0
  | snoc _ hs ih => exact hstep _ _ _ ih hs

/-- The invariant rule for runs whose steps all satisfy a guard. -/
theorem guarded {I : σ → Prop} {G : σ → ι → Prop} (h : Run (Guarded G step) s₀ ls s) (h0 : I s₀)
    (hstep : ∀ s l s', I s → G s l → step s l s' → I s') : I s :=
  h.invariant h0 fun _ _ _ hI hs => hstep _ _ _ hI hs.1 hs.2

/-- An invariant may be used to say more about each step of a run. -/
theorem imp {I : σ → Prop} {step' : σ → ι → σ → Prop} (h : Run step s₀ ls s) (h0 : I s₀)
    (hstep : ∀ s l s', I s → step s l s' → I s' ∧ step' s l s') : I s ∧ Run step' s₀ ls s := by
  induction h with
  | nil => exact ⟨h0, .nil⟩
  | snoc _ hs ih =>
    obtain ⟨hI', hs'⟩ := hstep _ _ _ ih.1 hs
    exact ⟨hI', .snoc ih.2 hs'⟩

/-- What a property that the steps with labels in `P` keep says about the labels: each of them is in `Q`. -/
theorem stable {I : σ → Prop} {P Q : ι → Prop} (h : Run step s₀ ls s) (h0 : I s₀) (hP : ∀ l ∈ ls, P l)
    (hstep : ∀ s l s', I s → P l → step s l s' → I s' ∧ Q l) : I s ∧ ∀ l ∈ ls, Q l := by
  induction h with
  | nil => exact ⟨h0, fun l hl => absurd hl List.not_mem_nil⟩
  | snoc _ hs ih =>
    obtain ⟨hI, hQ⟩ := ih fun l hl => hP l (List.mem_append_left _ hl)
    obtain ⟨hI', hQ'⟩ := hstep _ _ _ hI (hP _ (List.mem_append_right _ List.mem_cons_self)) hs
    refine ⟨hI', fun l hl => ?_⟩
    rcases List.mem_append.mp hl with hl | hl
    · exact hQ l hl
    · exact List.mem_singleton.mp hl ▸ hQ'

/-- Dropping the guard: a guarded run is a run. -/
theorem of_guarded {G : σ → ι → Prop} (h : Run (Guarded G step) s₀ ls s) : Run step s₀ ls s := by
  induction h with
  | nil => exact .nil
  | snoc _ hs ih => exact .snoc ih hs.2

/-- A run of one step. -/
theorem single {l : ι} {s' : σ} (h : step s₀ l s') : Run step s₀ [l] s' :=
  show Run step s₀ ([] ++ [l]) s' from .snoc .nil h

/-- A run without steps goes nowhere. -/
theorem eq_of_nil (h : Run step s₀ [] s) : s = s₀ := by
  generalize hls : ([] : List ι) = ls at h
  cases h with
  | nil => rfl
  | snoc _ _ => exact absurd hls.symm (by simp)

/-- A run of one step is that step. -/
theorem of_single {l : ι} (h : Run step s₀ [l] s) : step s₀ l s := by
  generalize hls : [l] = ls at h
  cases h with
  | nil => exact absurd hls (by simp)
  | @snoc ls s' _ l' hrun hs =>
    obtain ⟨rfl, hl⟩ := List.append_inj (show [] ++ [l] = ls ++ [l'] from hls) (by
      have hlen := congrArg List.length hls
      simp only [List.length_append, List.length_singleton] at hlen
      simp only [List.length_nil]
      omega)
    obtain rfl : l = l' := List.singleton_inj.mp hl
    rw [hrun.eq_of_nil] at hs
    exact hs

/-- Runs compose. -/
theorem append {ls' : List ι} {s' : σ} (h : Run step s₀ ls s) (h' : Run step s ls' s') :
    Run step s₀ (ls ++ ls') s' := by
  induction h' with
  | nil => simpa using h
  | snoc _ hs ih =>
      rw [← List.append_assoc]
      exact .snoc ih hs

/-- Where steps can be executed, executing inputs one after the other gives a run; `f` reads the input off a label. -/
theorem exists_of_foldlM {κ : Type*} {exec : σ → κ → Option σ} (f : ι → κ) {ks : List κ}
    (hexec : ∀ s k s', exec s k = some s' → ∃ l, f l = k ∧ step s l s')
    (h : ks.foldlM exec s₀ = some s) : ∃ ls, ls.map f = ks ∧ Run step s₀ ls s := by
  induction ks generalizing s₀ with
  | nil =>
    obtain rfl : s₀ = s := by simpa using h
    exact ⟨[], rfl, .nil⟩
  | cons k ks ih =>
    obtain ⟨s₁, h₁, h₂⟩ := Option.bind_eq_some_iff.mp (by simpa using h)
    obtain ⟨l, hl, hstep⟩ := hexec _ _ _ h₁
    obtain ⟨ls, hls, hrun⟩ := ih h₂
    exact ⟨l :: ls, by rw [List.map_cons, hl, hls], (single hstep).append hrun⟩

/-- The case in which the labels are the inputs. -/
theorem of_foldlM {exec : σ → ι → Option σ} (hexec : ∀ s l s', exec s l = some s' → step s l s')
    (h : ls.foldlM exec s₀ = some s) : Run step s₀ ls s := by
  obtain ⟨ls', hls, hrun⟩ := exists_of_foldlM id (fun s l s' hs => ⟨l, rfl, hexec s l s' hs⟩) h
  rw [List.map_id] at hls
  exact hls ▸ hrun

/-- The case in which every input can be executed. -/
theorem of_foldl (exec : σ → ι → σ) (s₀ : σ) (ls : List ι) :
    Run (fun s l s' => s' = exec s l) s₀ ls (ls.foldl exec s₀) := by
  induction ls generalizing s₀ with
  | nil => exact .nil
  | cons l ls ih => exact (single rfl).append (ih (exec s₀ l))

/-- The same for a guarded run, where the guard can be decided. -/
theorem of_foldlM_guarded {G : σ → ι → Prop} [∀ s l, Decidable (G s l)] {exec : σ → ι → Option σ}
    (hexec : ∀ s l s', exec s l = some s' → step s l s')
    (h : ls.foldlM (fun s l => if G s l then exec s l else none) s₀ = some s) : Run (Guarded G step) s₀ ls s := by
  refine of_foldlM (fun s l s' hs => ?_) h
  by_cases hG : G s l
  · exact ⟨hG, hexec s l s' (by rwa [if_pos hG] at hs)⟩
  · rw [if_neg hG] at hs
    exact absurd hs (by simp)

/-- One step of a system that is given by a condition for a label and a function. -/
def tryStep (enabled : σ → ι → Prop) [∀ s l, Decidable (enabled s l)] (exec : σ → ι → σ) (s : σ) (l : ι) : Option σ :=
  if enabled s l then some (exec s l) else none

section TryStep

variable {enabled : σ → ι → Prop} [∀ s l, Decidable (enabled s l)] {exec : σ → ι → σ}

theorem of_tryStep {s s' : σ} {l : ι} (h : tryStep enabled exec s l = some s') : enabled s l ∧ s' = exec s l := by
  unfold tryStep at h
  split at h
  next he => exact ⟨he, (Option.some.inj h).symm⟩
  next => exact absurd h (by simp)

/-- Executing the labels of such a system one after the other gives a run of it. -/
theorem of_foldlM_tryStep (h : ls.foldlM (tryStep enabled exec) s₀ = some s) :
    Run (fun s l s' => enabled s l ∧ s' = exec s l) s₀ ls s :=
  of_foldlM (fun _ _ _ hs => of_tryStep hs) h

/-- The same where something is observed of each step. -/
theorem observed_of_foldlM_tryStep {κ : Type*} (obs : σ → ι → σ → κ)
    (h : ls.foldlM (tryStep enabled exec) s₀ = some s) : ∃ ls' : List (ι × κ), ls'.map Prod.fst = ls ∧
      Run (fun s l s' => (enabled s l.1 ∧ s' = exec s l.1) ∧ l.2 = obs s l.1 s') s₀ ls' s :=
  exists_of_foldlM Prod.fst (fun s l s' hs => ⟨(l, obs s l s'), rfl, of_tryStep hs, rfl⟩) h

/-- And for a guarded run. -/
theorem observed_guarded_of_foldlM_tryStep {κ : Type*} {G : σ → ι → Prop} [∀ s l, Decidable (G s l)]
    (obs : σ → ι → σ → κ) (h : ls.foldlM (fun s l => if G s l then tryStep enabled exec s l else none) s₀ = some s) :
    ∃ ls' : List (ι × κ), ls'.map Prod.fst = ls ∧ Run (Guarded (fun s l => G s l.1) fun s l s' =>
      (enabled s l.1 ∧ s' = exec s l.1) ∧ l.2 = obs s l.1 s') s₀ ls' s := by
  refine exists_of_foldlM Prod.fst (fun s l s' hs => ?_) h
  by_cases hG : G s l
  · rw [if_pos hG] at hs
    exact ⟨(l, obs s l s'), rfl, hG, of_tryStep hs, rfl⟩
  · rw [if_neg hG] at hs
    exact absurd hs (by simp)

/-- The inputs with what is observed of their steps, if all of them can be executed. -/
def trace {κ : Type*} (enabled : σ → ι → Prop) [∀ s l, Decidable (enabled s l)] (exec : σ → ι → σ)
    (obs : σ → ι → σ → κ) : σ → List ι → Option (List (ι × κ))
  | _, [] => some []
  | s, l :: ls =>
    if enabled s l then (trace enabled exec obs (exec s l) ls).map ((l, obs s l (exec s l)) :: ·) else none

/-- The labels of a trace are those of a run. -/
theorem of_trace {κ : Type*} {obs : σ → ι → σ → κ} {ls' : List (ι × κ)} (h : trace enabled exec obs s₀ ls = some ls') :
    ∃ s, Run (fun s l s' => (enabled s l.1 ∧ s' = exec s l.1) ∧ l.2 = obs s l.1 s') s₀ ls' s := by
  induction ls generalizing s₀ ls' with
  | nil =>
    obtain rfl : [] = ls' := Option.some.inj h
    exact ⟨s₀, .nil⟩
  | cons l ls ih =>
    unfold trace at h
    by_cases he : enabled s₀ l
    · rw [if_pos he] at h
      obtain ⟨ls₁, h₁, rfl⟩ := Option.map_eq_some_iff.mp h
      obtain ⟨s, hrun⟩ := ih h₁
      exact ⟨s, (single ⟨⟨he, rfl⟩, rfl⟩).append hrun⟩
    · rw [if_neg he] at h
      exact absurd h (by simp)

end TryStep

section Feed

variable {ο : Type*}

/-- Executing inputs one after the other, where each has an output: the inputs with their outputs, and the last state. -/
def feed (exec : σ → ι → σ × ο) : σ → List ι → List (ι × ο) × σ
  | s, [] => ([], s)
  | s, i :: is => ((i, (exec s i).2) :: (feed exec (exec s i).1 is).1, (feed exec (exec s i).1 is).2)

variable {exec : σ → ι → σ × ο}

theorem feed_inputs (s : σ) (is : List ι) : (feed exec s is).1.map Prod.fst = is := by
  induction is generalizing s with
  | nil => rfl
  | cons i is ih => exact congrArg (i :: ·) (ih _)

/-- Executing inputs gives a run. -/
theorem of_feed (exec : σ → ι → σ × ο) (s₀ : σ) (is : List ι) :
    Run (fun s l s' => exec s l.1 = (s', l.2)) s₀ (feed exec s₀ is).1 (feed exec s₀ is).2 := by
  induction is generalizing s₀ with
  | nil => exact .nil
  | cons i is ih => exact (single (l := (i, (exec s₀ i).2)) rfl).append (ih _)

theorem feed_append (s : σ) (is is' : List ι) : feed exec s (is ++ is') =
    ((feed exec s is).1 ++ (feed exec (feed exec s is).2 is').1, (feed exec (feed exec s is).2 is').2) := by
  induction is generalizing s with
  | nil => rfl
  | cons i is ih =>
    show ((i, (exec s i).2) :: (feed exec (exec s i).1 (is ++ is')).1, (feed exec (exec s i).1 (is ++ is')).2) = _
    rw [ih]
    rfl

/-- Every run is one: the outputs are determined by the inputs. -/
theorem eq_feed {ls : List (ι × ο)} (h : Run (fun s l s' => exec s l.1 = (s', l.2)) s₀ ls s) :
    feed exec s₀ (ls.map Prod.fst) = (ls, s) := by
  induction h with
  | nil => rfl
  | snoc _ hs ih =>
    rw [List.map_append, feed_append, ih]
    simp only [feed, List.map_cons, List.map_nil, hs]

end Feed

/-- **The simulation rule.** If every step is matched, along a relation `R`, by a run of a second system that takes the
labels `obs l`, then every run is matched by a run that takes the labels of its steps one after the other. -/
theorem simulate {τ κ : Type*} {step' : τ → κ → τ → Prop} {t₀ : τ} {R : σ → τ → Prop} (obs : ι → List κ)
    (h : Run step s₀ ls s) (h0 : R s₀ t₀)
    (hstep : ∀ s l s' t, R s t → step s l s' → ∃ t', Run step' t (obs l) t' ∧ R s' t') :
    ∃ t, Run step' t₀ (ls.flatMap obs) t ∧ R s t := by
  induction h with
  | nil => exact ⟨t₀, .nil, h0⟩
  | snoc _ hs ih =>
      obtain ⟨t, hrun, hR⟩ := ih
      obtain ⟨t', hrun', hR'⟩ := hstep _ _ _ _ hR hs
      refine ⟨t', ?_, hR'⟩
      rw [List.flatMap_append, List.flatMap_singleton]
      exact hrun.append hrun'

end Run

/-! ## Calls with answers -/

section Answers

variable {κ ρ τ : Type*}

/-- The steps of a component whose calls have an answer, or stop it: a call with what it answers. -/
def Answers (exec : σ → κ → Option (σ × ρ)) (s : σ) (l : κ × ρ) (s' : σ) : Prop := exec s l.1 = some (s', l.2)

/-- Two components do the same: both stop, or both give the same answer and stay related. -/
def Same (R : σ → τ → Prop) : Option (σ × ρ) → Option (τ × ρ) → Prop := Option.Rel fun p q => p.2 = q.2 ∧ R p.1 q.1

theorem Same.symm {R : σ → τ → Prop} {o : Option (σ × ρ)} {o' : Option (τ × ρ)} (h : Same R o o') :
    Same (fun t s => R s t) o' o := by
  cases h with
  | some h => exact .some ⟨h.1.symm, h.2⟩
  | none => exact .none

/-- **The lockstep rule.** Components that do the same at every call, from related states, have the same runs. -/
theorem Run.lockstep {R : σ → τ → Prop} {exec : σ → κ → Option (σ × ρ)} {spec : τ → κ → Option (τ × ρ)} {s₀ s : σ} {t₀ : τ}
    {ls : List (κ × ρ)} (h0 : R s₀ t₀) (hsame : ∀ s t c, R s t → Same R (exec s c) (spec t c)) (h : Run (Answers exec) s₀ ls s) :
    ∃ t, Run (Answers spec) t₀ ls t ∧ R s t := by
  induction h with
  | nil => exact ⟨t₀, .nil, h0⟩
  | @snoc _ s s' l _ hstep ih =>
    obtain ⟨t, hrun, hR⟩ := ih
    have hcall := hsame s t l.1 hR
    rw [show exec s l.1 = some (s', l.2) from hstep] at hcall
    cases hspec : spec t l.1 with
    | none =>
      rw [hspec] at hcall
      cases hcall
    | some q =>
      rw [hspec] at hcall
      cases hcall with
      | some hq => exact ⟨q.1, hrun.snoc (hspec.trans (congrArg some (Prod.ext rfl hq.1.symm))), hq.2⟩

end Answers

end CoreLink.Lib
