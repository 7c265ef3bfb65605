/-
# `CoreLink.RtThread.MutexOwner` — who owns a mutex, and for how long.

A mutex counts in `hold`, a byte, how often its owner has taken it. `Tally` counts the same without a bound, from the
calls: the takes and the releases of the owner since it acquired the mutex. `hold` is the difference modulo 256. So a
release hands the mutex on exactly when it is the last one, unless it is made at a depth of 257, 513, ...: `NestOk` is
that it is not.
-/
import CoreLink.RtThread.MutexCalls

namespace CoreLink.RtThread.MutexSys

open CoreLink.Lib

set_option linter.unusedSectionVars false

variable {T M : Type*} [DecidableEq T] [DecidableEq M] [Fintype T] [Fintype M]

/-! ## Counting the calls -/

/-- How often the owner has successfully taken and has released a mutex since it acquired it. -/
structure Tally where
  takes : Nat
  releases : Nat

/-- The mutexes with their tallies. -/
structure Counted (T M : Type*) where
  sys : MutexSys T M
  tally : M → Tally

/-- The mutex goes from its owner to another thread, or becomes free. -/
def Passes (s : MutexSys T M) (m : M) (s' : MutexSys T M) : Prop :=
  (s.mutex m).owner.isSome ∧ (s'.mutex m).owner ≠ (s.mutex m).owner

/-- The tally of `m` after the call `l` has led from `s` to `s'`: it starts anew when the mutex has a new owner. -/
def recount (s : MutexSys T M) (l : Call T M) (s' : MutexSys T M) (tally : Tally) (m : M) : Tally :=
  if (s'.mutex m).owner ≠ (s.mutex m).owner then ⟨if (s'.mutex m).owner.isSome then 1 else 0, 0⟩
  else if (s.mutex m).owner ≠ s.running then tally
  else
    match l with
    | .take m' _ => if m' = m then { tally with takes := tally.takes + 1 } else tally
    | .release m' => if m' = m then { tally with releases := tally.releases + 1 } else tally
    | .sched _ => tally

/-- A step of the mutexes, with the tallies. -/
def CountedStep (c : SchedCfg) (x : Counted T M) (l : Call T M) (x' : Counted T M) : Prop :=
  Step c x.sys l x'.sys ∧ x'.tally = fun m => recount x.sys l x'.sys (x.tally m) m

/-- The call is the release of the owner that matches its first take. -/
def LastRelease (x : Counted T M) (m : M) (l : Call T M) : Prop :=
  l = .release m ∧ (∃ t, x.sys.running = some t ∧ (x.sys.mutex m).owner = some t) ∧
    (x.tally m).releases + 1 = (x.tally m).takes

/-- No release by the owner at a nesting depth of 257, 513, ... -/
def NestOk (x : Counted T M) : Call T M → Prop
  | .release m => ∀ t, x.sys.running = some t → (x.sys.mutex m).owner = some t →
      ((x.tally m).takes - (x.tally m).releases) % 2 ^ 8 = 1 → (x.tally m).releases + 1 = (x.tally m).takes
  | .take .. | .sched _ => True

/-! ## The counter of nested takes -/

/-- `hold` is the nesting depth modulo 256. -/
structure HoldOk (x : Counted T M) : Prop where
  free : ∀ m, (x.sys.mutex m).owner = none → (x.sys.mutex m).hold = 0
  owned : ∀ m, (x.sys.mutex m).owner.isSome → (x.tally m).releases < (x.tally m).takes ∧
    (x.sys.mutex m).hold = ((x.tally m).takes - (x.tally m).releases) % 2 ^ 8

variable {c : SchedCfg} {s s' : MutexSys T M} {q q' : ListHead M → List T} {t : T} {m : M} {l : Call T M}

/-- What one call does to a mutex with regard to its owner and `hold`. -/
inductive HoldEffect (s : MutexSys T M) (l : Call T M) (s' : MutexSys T M) (m : M) : Prop
  /-- the call is not made by the owner of this mutex, nor is the mutex taken -/
  | same (howner : (s'.mutex m).owner = (s.mutex m).owner) (hhold : (s'.mutex m).hold = (s.mutex m).hold)
      (hcall : ∀ t, s.running = some t → (s.mutex m).owner = some t → l ≠ .release m ∧ ∀ time, l ≠ .take m time)
  /-- a free mutex is taken -/
  | acquire (hfree : (s.mutex m).owner = none) (howner : (s'.mutex m).owner.isSome)
      (hhold : (s'.mutex m).hold = ((s.mutex m).hold + 1) % 2 ^ 8)
  /-- the owner takes the mutex once more -/
  | nest {t : T} {time : Int} (hcall : l = .take m time) (hrun : s.running = some t)
      (hown : (s.mutex m).owner = some t) (howner : (s'.mutex m).owner = some t)
      (hhold : (s'.mutex m).hold = ((s.mutex m).hold + 1) % 2 ^ 8)
  /-- the owner releases the mutex, and `hold` does not become zero -/
  | unnest {t : T} (hcall : l = .release m) (hrun : s.running = some t) (hown : (s.mutex m).owner = some t)
      (howner : (s'.mutex m).owner = some t) (hne : Word.sub 8 (s.mutex m).hold 1 ≠ 0)
      (hhold : (s'.mutex m).hold = Word.sub 8 (s.mutex m).hold 1)
  /-- the owner gives up the mutex -/
  | pass {t : T} (hcall : l = .release m) (hgive : s.GivesUp m t) (howner : (s'.mutex m).owner ≠ some t)
      (hhold : (s'.mutex m).hold = if (s'.mutex m).owner.isSome then 1 else 0)

/-- A mutex that the call is not about, or whose owner is not the caller. -/
theorem HoldEffect.of_eq (hmutex : s'.mutex m = s.mutex m)
    (hcall : ∀ t, s.running = some t → (s.mutex m).owner = some t → l ≠ .release m ∧ ∀ time, l ≠ .take m time) :
    HoldEffect s l s' m :=
  .same (congrArg Mutex.owner hmutex) (congrArg Mutex.hold hmutex) hcall

/-- **`rt_mutex_take`**, for one mutex. -/
theorem rtMutexTake_hold (i : MutexOk c s q) (hrun : s.running = some t) (m m' : M) (time : Int) :
    HoldEffect s (.take m' time) (s.rtMutexTake c m' time t).1 m := by
  have hother : m ≠ m' → ∀ t, s.running = some t → (s.mutex m).owner = some t →
      (Call.take m' time : Call T M) ≠ .release m ∧ ∀ time', (Call.take m' time : Call T M) ≠ .take m time' :=
    fun hm _ _ _ => ⟨nofun, fun _ he => hm (Call.take.inj he).1.symm⟩
  simp only [rtMutexTake]
  split_ifs with hown hval htime
  · by_cases hm : m = m'
    · subst hm
      exact .nest rfl hrun hown (by simpa [setMutex] using hown) (by simp [setMutex, MutexSys.setError])
    · exact .of_eq (Function.update_of_ne hm _ _) (hother hm)
  · by_cases hm : m = m'
    · subst hm
      have hnone : (s.mutex m).owner = none := by
        cases ho : (s.mutex m).owner with
        | none => rfl
        | some o =>
            have hzero : ((s.setError t .eok).mutex m).value = 0 := (i.owned m o ho).1
            omega
      exact .acquire hnone (by simp [setMutex, Mutex.give]) (by simp [setMutex, Mutex.give, MutexSys.setError])
    · exact .of_eq (Function.update_of_ne hm _ _) (hother hm)
  all_goals
    have hcall : ∀ t, s.running = some t → (s.mutex m).owner = some t →
        (Call.take m' time : Call T M) ≠ .release m ∧ ∀ time', (Call.take m' time : Call T M) ≠ .take m time' := by
      intro u hu ho
      obtain rfl : t = u := Option.some.inj (hrun.symm.trans hu)
      by_cases hm : m = m'
      · exact absurd (hm ▸ ho) hown
      · exact hother hm t hu ho
  · exact .of_eq rfl hcall
  · refine .of_eq ?_ hcall
    dsimp only
    -- lending the priority to the owner writes to no mutex
    cases ho : ((s.setError t .eok).mutex m').owner with
    | none => rfl
    | some o =>
        dsimp only
        split_ifs <;> rfl

/-- The mutexes after a release that gives up `m`: `m` has gone to somebody, or is free. -/
theorem rtMutexRelease_mutex (hg : s.GivesUp m t) :
    ∃ mutex : Mutex T, (s.rtMutexRelease c m t).1.mutex = Function.update s.mutex m mutex ∧
      mutex.hold = if mutex.owner.isSome then 1 else 0 := by
  have hrestore : ∀ (s : MutexSys T M) (prio : Nat),
      (if prio ≠ s.prio t then s.control c t prio else s).mutex = s.mutex := by
    intro s prio
    split_ifs <;> rfl
  have hmx := hrestore (s.setMutex m { s.mutex m with hold := Word.sub 8 (s.mutex m).hold 1 })
    (s.mutex m).originalPriority
  have hupdate : ∀ mutex, Function.update (Function.update s.mutex m { s.mutex m with
      hold := Word.sub 8 (s.mutex m).hold 1 }) m mutex = Function.update s.mutex m mutex :=
    fun mutex => Function.update_idem ..
  simp only [rtMutexRelease]
  rw [if_neg (not_not.mpr hg.owner), if_pos hg.last]
  generalize (if (s.mutex m).originalPriority ≠ (s.setMutex m _).prio t then _ else _ : MutexSys T M) = s₂ at hmx ⊢
  cases s₂.sched.firstEntry (.suspendThread m) with
  | some w =>
      refine ⟨_, (congrArg (Function.update · m _) hmx).trans (hupdate _), ?_⟩
      simp [Mutex.give, hg.last]
  | none =>
      refine ⟨_, (congrArg (Function.update · m _) hmx).trans (hupdate _), ?_⟩
      simp [hg.last]

/-- **`rt_mutex_release`**, for one mutex. -/
theorem rtMutexRelease_hold (i : MutexOk c s q) (hrun : s.running = some t) (m m' : M) :
    HoldEffect s (.release m') (s.rtMutexRelease c m' t).1 m := by
  have hother : m ≠ m' → ∀ t, s.running = some t → (s.mutex m).owner = some t →
      (Call.release m' : Call T M) ≠ .release m ∧ ∀ time', (Call.release m' : Call T M) ≠ .take m time' :=
    fun hm _ _ _ => ⟨fun he => hm (Call.release.inj he).symm, nofun⟩
  by_cases hown : (s.mutex m').owner = some t
  · by_cases hlast : Word.sub 8 (s.mutex m').hold 1 = 0
    · have hg : s.GivesUp m' t := ⟨hrun, hown, hlast⟩
      obtain ⟨mutex, hmutex, hhold⟩ := rtMutexRelease_mutex (c := c) hg
      by_cases hm : m = m'
      · subst hm
        obtain ⟨q', -, heffect, -⟩ := rtMutexRelease_effect i hrun m
        refine .pass rfl hg ?_ (by rw [hmutex, Function.update_self]; exact hhold)
        cases heffect with
        | other hquiet => exact absurd hg (hquiet t)
        | giveUp hg' howner =>
            rw [howner, if_pos rfl]
            exact fun hhead => (i.owned m t hown).2.1 (List.mem_of_head? hhead)
      · exact .of_eq (by rw [hmutex, Function.update_of_ne hm]) (hother hm)
    · simp only [rtMutexRelease]
      rw [if_neg (not_not.mpr hown), if_neg hlast]
      by_cases hm : m = m'
      · subst hm
        exact .unnest rfl hrun hown (by simpa [setMutex] using hown) hlast (by simp [setMutex])
      · exact .of_eq (Function.update_of_ne hm _ _) (hother hm)
  · simp only [rtMutexRelease]
    rw [if_pos hown]
    refine .of_eq rfl fun u hu ho => ?_
    obtain rfl : t = u := Option.some.inj (hrun.symm.trans hu)
    by_cases hm : m = m'
    · exact absurd (hm ▸ ho) hown
    · exact hother hm t hu ho

/-- **One call**, for one mutex. -/
theorem step_hold (i : MutexOk c s q) (hs : Step c s l s') (m : M) : HoldEffect s l s' m := by
  have htrack : ∀ {s₁ : MutexSys T M}, HoldEffect s l s₁ m → HoldEffect s l (s.track s₁) m := by
    intro s₁ h
    cases h with
    | same howner hhold hcall => exact .same howner hhold hcall
    | acquire hfree howner hhold => exact .acquire hfree howner hhold
    | nest hcall hrun hown howner hhold => exact .nest hcall hrun hown howner hhold
    | unnest hcall hrun hown howner hne hhold => exact .unnest hcall hrun hown howner hne hhold
    | pass hcall hgive howner hhold => exact .pass hcall hgive howner hhold
  unfold Step exec at hs
  cases l with
  | take m' time =>
      obtain ⟨t, hrun, rfl⟩ := Option.map_eq_some_iff.mp hs
      exact htrack (rtMutexTake_hold i hrun m m' time)
  | release m' =>
      obtain ⟨t, hrun, rfl⟩ := Option.map_eq_some_iff.mp hs
      exact htrack (rtMutexRelease_hold i hrun m m')
  | sched l =>
      simp only at hs
      split_ifs at hs
      obtain ⟨sched, -, rfl⟩ := Option.map_eq_some_iff.mp hs
      exact htrack (.of_eq rfl fun _ _ _ => ⟨nofun, nofun⟩)

/-! ## Runs -/

theorem sub_one_eq_zero_iff {hold : Nat} (h : hold < 2 ^ 8) : Word.sub 8 hold 1 = 0 ↔ hold = 1 := by
  unfold Word.sub
  omega

variable {x x' : Counted T M}

/-- The depth of a mutex that somebody owns, as `hold` has it. -/
theorem HoldOk.hold_lt (h : HoldOk x) {t : T} (ho : (x.sys.mutex m).owner = some t) :
    (x.sys.mutex m).hold < 2 ^ 8 ∧ (x.tally m).releases < (x.tally m).takes ∧
      (x.sys.mutex m).hold = ((x.tally m).takes - (x.tally m).releases) % 2 ^ 8 := by
  obtain ⟨hlt, hhold⟩ := h.owned m (by rw [ho]; rfl)
  exact ⟨hhold ▸ Nat.mod_lt _ (by decide), hlt, hhold⟩

/-- Calls of others than the owner do not count. -/
theorem recount_same {tally : Tally} (howner : (s'.mutex m).owner = (s.mutex m).owner)
    (hsome : (s.mutex m).owner.isSome)
    (hcall : ∀ t, s.running = some t → (s.mutex m).owner = some t → l ≠ .release m ∧ ∀ time, l ≠ .take m time) :
    recount s l s' tally m = tally := by
  rw [recount.eq_def, if_neg (not_not.mpr howner)]
  split
  next => rfl
  next hrun =>
    obtain ⟨t, ht⟩ := Option.isSome_iff_exists.mp hsome
    obtain ⟨hrelease, htake⟩ := hcall t ((not_not.mp hrun).symm.trans ht) ht
    cases l with
    | take m' time => exact if_neg fun e => htake time (congrArg (Call.take · time) e)
    | release m' => exact if_neg fun e => hrelease (congrArg Call.release e)
    | sched l => rfl

/-- **One call** keeps `hold` equal to the nesting depth, modulo 256. -/
theorem HoldOk.step (h : HoldOk x) (i : MutexOk c x.sys q) (hs : CountedStep c x l x') : HoldOk x' := by
  obtain ⟨hstep, htally⟩ := hs
  have htally : ∀ m, x'.tally m = recount x.sys l x'.sys (x.tally m) m := fun m => congrFun htally m
  refine ⟨fun m hnone => ?_, fun m hsome => ?_⟩
  · cases step_hold i hstep m with
    | same howner hhold => exact hhold.trans (h.free m (howner ▸ hnone))
    | acquire _ howner => exact absurd hnone (Option.isSome_iff_ne_none.mp howner)
    | nest _ _ _ howner => exact absurd (hnone.symm.trans howner) nofun
    | unnest _ _ _ howner => exact absurd (hnone.symm.trans howner) nofun
    | pass _ _ _ hhold => rw [hhold, hnone]; rfl
  · rw [htally]
    cases step_hold i hstep m with
    | same howner hhold hcall =>
        rw [recount_same howner (howner ▸ hsome) hcall, hhold]
        exact h.owned m (howner ▸ hsome)
    | acquire hfree howner hhold =>
        have hne : (x'.sys.mutex m).owner ≠ (x.sys.mutex m).owner := by
          rw [hfree]
          exact Option.isSome_iff_ne_none.mp howner
        rw [recount.eq_def, if_pos hne, if_pos howner, hhold, h.free m hfree]
        exact ⟨by decide, by decide⟩
    | nest hcall hrun hown howner hhold =>
        obtain ⟨-, hlt, hold⟩ := h.hold_lt hown
        rw [recount.eq_def, if_neg (not_not.mpr (howner.trans hown.symm)), if_neg (not_not.mpr (hown.trans hrun.symm)), hhold, hold,
          hcall]
        simp only [if_true]
        omega
    | unnest hcall hrun hown howner hne hhold =>
        obtain ⟨hbyte, hlt, hold⟩ := h.hold_lt hown
        have hdepth : (x.sys.mutex m).hold ≠ 1 := fun e => hne ((sub_one_eq_zero_iff hbyte).mpr e)
        rw [recount.eq_def, if_neg (not_not.mpr (howner.trans hown.symm)), if_neg (not_not.mpr (hown.trans hrun.symm)), hhold, hcall]
        simp only [if_true, Word.sub]
        omega
    | @pass t hcall hgive howner hhold =>
        have hne : (x'.sys.mutex m).owner ≠ (x.sys.mutex m).owner := fun e => howner (e.trans hgive.owner)
        rw [recount.eq_def, if_pos hne, if_pos hsome, hhold, if_pos hsome]
        exact ⟨by decide, by decide⟩

/-- **One call** hands mutexes on as the nesting says, exactly if it is not a release at a depth of 257, 513, ... -/
theorem passes_iff (h : HoldOk x) (i : MutexOk c x.sys q) (hs : CountedStep c x l x') :
    (∀ m, Passes x.sys m x'.sys ↔ LastRelease x m l) ↔ NestOk x l := by
  constructor
  · intro hall
    cases l with
    | take | sched => trivial
    | release m =>
        intro t hrun hown hdepth
        obtain ⟨hbyte, -, hold⟩ := h.hold_lt hown
        have hlast : Word.sub 8 (x.sys.mutex m).hold 1 = 0 := (sub_one_eq_zero_iff hbyte).mpr (hold.trans hdepth)
        refine ((hall m).mp ?_).2.2
        cases step_hold i hs.1 m with
        | same _ _ hcall => exact absurd rfl (hcall t hrun hown).1
        | acquire hfree => exact absurd (hfree.symm.trans hown) nofun
        | nest hcall => exact absurd hcall nofun
        | unnest _ _ _ _ hne => exact absurd hlast hne
        | pass _ hgive howner _ => exact ⟨by rw [hown]; rfl, fun e => howner (e.trans hgive.owner)⟩
  · intro hok m
    cases step_hold i hs.1 m with
    | same howner _ hcall =>
        refine iff_of_false (fun hp => hp.2 howner) ?_
        rintro ⟨rfl, ⟨t, hrun, hown⟩, -⟩
        exact (hcall t hrun hown).1 rfl
    | acquire hfree =>
        refine iff_of_false (fun hp => ?_) ?_
        · rw [Passes, hfree] at hp
          exact absurd hp.1 Bool.false_ne_true
        · rintro ⟨-, ⟨t, -, hown⟩, -⟩
          exact absurd (hfree.symm.trans hown) nofun
    | nest hcall _ hown howner _ =>
        refine iff_of_false (fun hp => hp.2 (howner.trans hown.symm)) ?_
        rintro ⟨hl, -⟩
        exact absurd (hcall.symm.trans hl) nofun
    | unnest _ _ hown howner hne _ =>
        obtain ⟨hbyte, -, hold⟩ := h.hold_lt hown
        refine iff_of_false (fun hp => hp.2 (howner.trans hown.symm)) ?_
        rintro ⟨-, -, hlast⟩
        exact hne ((sub_one_eq_zero_iff hbyte).mpr (by omega))
    | pass hcall hgive howner _ =>
        obtain ⟨hbyte, -, hold⟩ := h.hold_lt hgive.owner
        have hone : (x.sys.mutex m).hold = 1 := (sub_one_eq_zero_iff hbyte).mp hgive.last
        subst hcall
        exact iff_of_true ⟨by rw [hgive.owner]; rfl, fun e => howner (e.trans hgive.owner)⟩
          ⟨rfl, ⟨_, hgive.running, hgive.owner⟩, hok _ hgive.running hgive.owner (hold.symm.trans hone)⟩

/-- The initialised mutexes, which nobody has taken. -/
def initCounted (thread : T → Thread) (flag : M → IpcFlag) : Counted T M := ⟨init thread flag, fun _ => ⟨0, 0⟩⟩

/-- **Ownership.** After any run a mutex has an owner exactly if its value is 0, and its owner is not on its suspend
list; and the next call takes mutexes from their owners exactly as the nesting says (the owner makes the release that
matches its first take), if and only if it is no release by the owner at a depth of 257, 513, ... -/
theorem mutex_ownership (c : SchedCfg) (prio : T → Nat) (sys cln : T → Bool) (flag : M → IpcFlag) (ls : List (Call T M))
    (x : Counted T M) (hp : ∀ t, prio t < c.prioMax)
    (hrun : Run (CountedStep c) (initCounted (fun t => rtThreadInit (prio t) (sys t) (cln t)) flag) ls x) :
    (∀ m, (x.sys.mutex m).owner.isSome ↔ (x.sys.mutex m).value = 0) ∧
      (∀ m o, (x.sys.mutex m).owner = some o → ¬ x.sys.sched.links.OnList (.suspendThread m) o) ∧
      ∀ l x', CountedStep c x l x' → ((∀ m, Passes x.sys m x'.sys ↔ LastRelease x m l) ↔ NestOk x l) := by
  obtain ⟨⟨q, i⟩, h⟩ : (∃ q, MutexInv c x.sys q) ∧ HoldOk x := by
    refine hrun.invariant (I := fun x => (∃ q, MutexInv c x.sys q) ∧ HoldOk x)
      ⟨⟨_, mutexInv_init hp⟩, fun _ _ => rfl, fun m hm => absurd hm Bool.false_ne_true⟩ ?_
    rintro x l x' ⟨⟨q, i⟩, h⟩ hs
    obtain ⟨q', i', -, -⟩ := step_effect i hs.1
    exact ⟨⟨q', i'⟩, h.step i.toMutexOk hs⟩
  refine ⟨fun m => ?_, fun m o ho => ?_, fun l x' hs => passes_iff h i.toMutexOk hs⟩
  · cases ho : (x.sys.mutex m).owner with
    | none => simp [(i.free m ho).1]
    | some o => simp [(i.owned m o ho).1]
  · rw [i.sched.rep.onList_iff]
    exact (i.owned m o ho).2.1

/-- Calls executed one after the other. -/
def execCounted (c : SchedCfg) (x : Counted T M) (l : Call T M) : Option (Counted T M) :=
  (x.sys.exec c l).map fun s' => ⟨s', fun m => recount x.sys l s' (x.tally m) m⟩

theorem run_of_execCounted {ls : List (Call T M)} (h : ls.foldlM (execCounted c) x = some x') :
    Run (CountedStep c) x ls x' := by
  refine Run.of_foldlM (fun x l x' hx => ?_) h
  obtain ⟨s', hs', rfl⟩ := Option.map_eq_some_iff.mp hx
  exact ⟨hs', rfl⟩

/-- One thread and one mutex, which it takes `n` times. -/
def nested (n : Nat) : List (Call (Fin 1) Unit) :=
  [.sched (.startup 0), .sched .schedulerStart] ++ List.replicate n (.take () 0)

/-- Two takes and a release: the thread still owns the mutex. -/
theorem mutex_ownership_run : ∃ x : Counted (Fin 1) Unit, (x.sys.mutex ()).owner = some 0 ∧
    (∀ m, (x.sys.mutex m).owner.isSome ↔ (x.sys.mutex m).value = 0) ∧
      (∀ m o, (x.sys.mutex m).owner = some o → ¬ x.sys.sched.links.OnList (.suspendThread m) o) ∧
      ∀ l x', CountedStep ⟨32, by decide⟩ x l x' →
        ((∀ m, Passes x.sys m x'.sys ↔ LastRelease x m l) ↔ NestOk x l) := by
  have hend : ((nested 2 ++ [Call.release ()]).foldlM (execCounted ⟨32, by decide⟩)
      (initCounted (fun _ => rtThreadInit 20 false false) fun _ => .prio)).map
      (fun x : Counted (Fin 1) Unit => (x.sys.mutex ()).owner) = some (some 0) := by decide +kernel
  obtain ⟨x, hx, howner⟩ := Option.map_eq_some_iff.mp hend
  exact ⟨x, howner, mutex_ownership ⟨32, by decide⟩ (fun _ => 20) (fun _ => false) (fun _ => false) (fun _ => .prio) _ x
    (by decide) (run_of_execCounted hx)⟩

/-- **257 takes and one release.** The mutex becomes free, though its owner has taken it 256 times more than it has
released it. -/
theorem mutex_not_owned : ¬ ∀ (c : SchedCfg) (prio : Fin 1 → Nat) (sys cln : Fin 1 → Bool) (flag : Unit → IpcFlag)
    (ls : List (Call (Fin 1) Unit)) (x x' : Counted (Fin 1) Unit) (l : Call (Fin 1) Unit), (∀ t, prio t < c.prioMax) →
    Run (CountedStep c) (initCounted (fun t => rtThreadInit (prio t) (sys t) (cln t)) flag) ls x →
    CountedStep c x l x' → ∀ m, Passes x.sys m x'.sys ↔ LastRelease x m l := by
  intro hall
  have hend : ((nested 257).foldlM (execCounted ⟨32, by decide⟩)
      (initCounted (fun _ => rtThreadInit 20 false false) fun _ => .prio)).bind (fun x =>
        (execCounted ⟨32, by decide⟩ x (.release ())).map fun x' =>
          ((x.sys.mutex ()).owner, (x.tally ()).takes, (x.tally ()).releases, (x'.sys.mutex ()).owner)) =
      some (some 0, 257, 0, none) := by decide +kernel
  obtain ⟨x, hx, hend⟩ := Option.bind_eq_some_iff.mp hend
  obtain ⟨x', hx', hend⟩ := Option.map_eq_some_iff.mp hend
  simp only [Prod.mk.injEq] at hend
  obtain ⟨howner, htakes, hreleases, hfree⟩ := hend
  have hrun := run_of_execCounted hx
  have hstep : CountedStep ⟨32, by decide⟩ x (.release ()) x' := by
    obtain ⟨s', hs', rfl⟩ := Option.map_eq_some_iff.mp hx'
    exact ⟨hs', rfl⟩
  have hpasses : Passes x.sys () x'.sys := ⟨by rw [howner]; rfl, by rw [howner, hfree]; exact nofun⟩
  have hlast := (hall ⟨32, by decide⟩ (fun _ => 20) (fun _ => false) (fun _ => false) (fun _ => .prio) _ x x' _
    (by decide) hrun hstep ()).mp hpasses
  have hcount := hlast.2.2
  rw [htakes, hreleases] at hcount
  exact absurd hcount (by decide)

end CoreLink.RtThread.MutexSys
