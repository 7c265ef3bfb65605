/-
# `CoreLink.RtThread.DfsFdRuns` — no descriptor is freed early if nobody closes one twice.

The reference count of a descriptor is the number of the threads that have got it and not put it, and one more while the
reference for being open has not been dropped (`Inv.refs`). Who may drop that reference is one thread at a time: the
thread that opens the descriptor, until it is open, and later the one `close` that has got it (`Inv.unique`). The
condition on a step, `StepOk`, is what keeps the second one alone. `dfs_fd_safe` is the result for runs;
`dfs_fd_freed_early` is a run with a second `close` while a `read` is in progress.
-/
import CoreLink.RtThread.DfsFd

namespace CoreLink.RtThread

open CoreLink.Lib

/-! ## Descriptors -/

/-- What is true of a descriptor whatever the threads do. -/
structure DfsFd.Ok (o : DfsFd) : Prop where
  magic : o.live = true → o.magic = dfsFdMagic
  opens_le : o.opens ≤ 1
  closes_le : o.closes ≤ o.opens
  live_of_openRef : o.openRef = true → o.live = true
  closeGot_of_closes : 0 < o.closes → o.closeGot = true
  openRef_of_opens : o.live = true → o.opens = 1 → o.closeGot = false → o.openRef = true

/-- How far a descriptor has come, by the position of a thread that works with it. -/
def DfsFd.Fits (o : DfsFd) : FdPc → Prop
  | .opening .. | .file .open _ => o.live = true ∧ o.openRef = true ∧ o.opens = 0
  | .file .close _ => o.live = true ∧ o.openRef = true ∧ o.opens = 1 ∧ o.closes = 0 ∧ o.closeGot = true
  | .putTwice _ | .drop _ =>
    o.live = true ∧ o.openRef = true ∧ o.closes = o.opens ∧ (o.opens = 0 ∨ o.closeGot = true)
  | .file .other _ | .put _ => o.live = true
  | .idle | .asserted => True

namespace FdPc

variable {pc : FdPc} {d : Nat}

theorem desc_of_holds (h : pc.holds = some d) : pc.desc = some d := by
  cases pc with
  | file | put | putTwice => exact h
  | idle | opening | drop | asserted => exact absurd h (by simp [holds])

theorem desc_of_puts (h : pc.puts = some d) : pc.desc = some d := by
  cases pc with
  | put | putTwice | drop => exact h
  | idle | opening | file | asserted => exact absurd h (by simp [puts])

theorem desc_of_owns (h : pc.owns = some d) : pc.desc = some d := by
  cases pc with
  | opening | putTwice | drop => exact h
  | file op d =>
    cases op with
    | «open» | close => exact h
    | other => exact absurd h (by simp [owns])
  | idle | put | asserted => exact absurd h (by simp [owns])

theorem owns_eq_none (h : pc.desc = some d) (hne : pc.owns ≠ some d) : pc.owns = none := by
  cases pc with
  | opening | putTwice | drop => exact absurd h hne
  | put => rfl
  | file op _ =>
    cases op with
    | «open» | close => exact absurd h hne
    | other => rfl
  | idle | asserted => rfl

/-- A thread that works with a descriptor holds it, or owns its reference for being open. -/
theorem holds_or_owns (h : pc.desc = some d) : pc.holds = some d ∨ pc.owns = some d := by
  cases pc with
  | file | put | putTwice => exact .inl h
  | opening | drop => exact .inr h
  | idle | asserted => exact absurd h (by simp [desc])

end FdPc

namespace DfsFd

variable {o : DfsFd} {pc : FdPc} {d : Nat}

theorem Fits.live (h : o.Fits pc) (hd : pc.desc = some d) : o.live = true := by
  cases pc with
  | opening | putTwice | drop => exact h.1
  | put => exact h
  | file op _ =>
    cases op with
    | «open» | close => exact h.1
    | other => exact h
  | idle | asserted => exact absurd hd (by simp [FdPc.desc])

theorem Fits.openRef (h : o.Fits pc) (hd : pc.owns = some d) : o.openRef = true := by
  cases pc with
  | opening | putTwice | drop => exact h.2.1
  | file op _ =>
    cases op with
    | «open» | close => exact h.2.1
    | other => exact absurd hd (by simp [FdPc.owns])
  | idle | put | asserted => exact absurd hd (by simp [FdPc.owns])

/-- The thread that owns the reference for being open is the one that opens the descriptor, or a `close` that has got
it. -/
theorem Fits.owner (h : o.Fits pc) (hd : pc.owns = some d) : o.opens = 0 ∨ o.closeGot = true := by
  cases pc with
  | opening => exact .inl h.2.2
  | putTwice | drop => exact h.2.2.2
  | file op _ =>
    cases op with
    | «open» => exact .inl h.2.2
    | close => exact .inr h.2.2.2.2
    | other => exact absurd hd (by simp [FdPc.owns])
  | idle | put | asserted => exact absurd hd (by simp [FdPc.owns])

/-- For a thread that does not own the reference for being open, it is enough that the descriptor is there. -/
theorem Fits.of_live (h : o.live = true) (hd : pc.owns = none) : o.Fits pc := by
  cases pc with
  | opening | putTwice | drop => exact absurd hd (by simp [FdPc.owns])
  | file op _ =>
    cases op with
    | «open» | close => exact absurd hd (by simp [FdPc.owns])
    | other => exact h
  | put => exact h
  | idle | asserted => trivial

/-- The count does not matter to the position of a thread. -/
theorem Fits.refCount (h : o.Fits pc) (n : Int) : DfsFd.Fits { o with refCount := n } pc := by
  cases pc with
  | opening | put | idle | asserted | putTwice | drop => exact h
  | file op _ => cases op <;> exact h

/-- More references, and one more `close` that has got the descriptor, change nothing for the other threads. -/
theorem Fits.acquire (h : o.Fits pc) (n : Int) (b : Bool) :
    DfsFd.Fits { o with refCount := n, closeGot := o.closeGot || b } pc := by
  cases pc with
  | opening | put | idle | asserted => exact h
  | putTwice | drop =>
    obtain ⟨hlive, href, hcloses, hopens⟩ := h
    exact ⟨hlive, href, hcloses, hopens.imp_right fun hgot => Bool.or_eq_true_iff.mpr (.inl hgot)⟩
  | file op _ =>
    cases op with
    | «open» | other => exact h
    | close =>
      obtain ⟨hlive, href, hopens, hcloses, hgot⟩ := h
      exact ⟨hlive, href, hopens, hcloses, Bool.or_eq_true_iff.mpr (.inl hgot)⟩

end DfsFd

namespace FdSys

variable {T : Type*}

/-! ## The invariant -/

/-- What holds between the steps. -/
structure Inv (s : FdSys T) : Prop where
  ok : ∀ d, (s.desc d).Ok
  table : ∀ i d, s.fds[i]? = some (some d) ↔ (s.desc d).live = true ∧ (s.desc d).index = i
  fresh : ∀ d, s.next ≤ d → (s.desc d).live = false
  fits : ∀ t d, (s.pc t).desc = some d → (s.desc d).Fits (s.pc t)
  opening : ∀ t i d, s.pc t = .opening i d → (s.desc d).index = i
  unique : ∀ t u d, (s.pc t).owns = some d → (s.pc u).owns = some d → t = u
  refs : ∀ d, (s.desc d).live = true → ∃ hs : List T, Waits (fun pc => pc.holds = some d) s.pc hs ∧
    (s.desc d).refCount = hs.length + (s.desc d).openRef.toNat
  pos : ∀ d, (s.desc d).live = true → 0 < (s.desc d).refCount
  closer : ∀ d, (s.desc d).closeGot = true → (s.desc d).closes = 1 ∨ ∃ u, s.pc u = .file .close d

theorem inv_init : (init : FdSys T).Inv where
  ok d := ⟨nofun, Nat.zero_le _, Nat.le_refl _, nofun, nofun, nofun⟩
  table i d := by
    constructor
    · intro h
      exact absurd h (by simp [init])
    · intro h
      exact absurd h.1 Bool.noConfusion
  fresh _ _ := rfl
  fits _ _ h := absurd h (by simp [init, FdPc.desc])
  opening _ _ _ h := absurd h (by simp [init])
  unique _ _ _ h := absurd h (by simp [init, FdPc.owns])
  refs _ h := absurd h Bool.noConfusion
  pos _ h := absurd h Bool.noConfusion
  closer _ h := absurd h Bool.noConfusion

/-- **What a step has to show** that changes the position of the thread `t` to `pc'` and the descriptor `d` to `o`, where
`t` has worked with `d` or with nothing, and does so after the step. -/
theorem Inv.of_frame [DecidableEq T] {s s' : FdSys T} (h : s.Inv) {t : T} {d : Nat} {o : DfsFd} {pc' : FdPc}
    (hpc : s'.pc = Function.update s.pc t pc') (hdesc : s'.desc = Function.update s.desc d o)
    (hbefore : ∀ e, (s.pc t).desc = some e → e = d) (hafter : ∀ e, pc'.desc = some e → e = d) (hok : o.Ok)
    (htable : ∀ i e, s'.fds[i]? = some (some e) ↔ (s'.desc e).live = true ∧ (s'.desc e).index = i)
    (hfresh : ∀ e, s'.next ≤ e → (s'.desc e).live = false)
    (hfits : pc'.desc = some d → o.Fits pc')
    (hothers : ∀ u, u ≠ t → (s.pc u).desc = some d → o.Fits (s.pc u) ∧ (s.desc d).index = o.index)
    (hopening : ∀ i, pc' = .opening i d → o.index = i)
    (hunique : pc'.owns = some d → ∀ u, u ≠ t → (s.pc u).owns ≠ some d)
    (hrefs : o.live = true → 0 < o.refCount ∧ ∃ hs : List T,
      Waits (fun pc => pc.holds = some d) (Function.update s.pc t pc') hs ∧ o.refCount = hs.length + o.openRef.toNat)
    (hcloser : o.closeGot = true → o.closes = 1 ∨ ∃ u, Function.update s.pc t pc' u = .file .close d) : s'.Inv := by
  have hself : s'.desc d = o := by rw [hdesc, Function.update_self]
  have hne : ∀ e, e ≠ d → s'.desc e = s.desc e := fun e he => by rw [hdesc, Function.update_of_ne he]
  have hpcself : s'.pc t = pc' := by rw [hpc, Function.update_self]
  have hpcne : ∀ u, u ≠ t → s'.pc u = s.pc u := fun u hu => by rw [hpc, Function.update_of_ne hu]
  constructor
  case ok =>
    intro e
    by_cases he : e = d
    · subst he
      exact hself ▸ hok
    · exact hne e he ▸ h.ok e
  case table => exact htable
  case fresh => exact hfresh
  case fits =>
    intro u e hu
    by_cases hut : u = t
    · subst hut
      rw [hpcself] at hu ⊢
      obtain rfl := hafter e hu
      exact hself ▸ hfits hu
    · rw [hpcne u hut] at hu ⊢
      by_cases he : e = d
      · subst he
        exact hself ▸ (hothers u hut hu).1
      · exact hne e he ▸ h.fits u e hu
  case opening =>
    intro u i e hu
    by_cases hut : u = t
    · subst hut
      rw [hpcself] at hu
      obtain rfl := hafter e (hu ▸ rfl)
      exact hself ▸ hopening i hu
    · rw [hpcne u hut] at hu
      by_cases he : e = d
      · subst he
        rw [hself, ← (hothers u hut (hu ▸ rfl)).2]
        exact h.opening u i e hu
      · exact hne e he ▸ h.opening u i e hu
  case unique =>
    intro u v e hu hv
    by_cases hut : u = t
    · by_cases hvt : v = t
      · exact hut.trans hvt.symm
      · subst hut
        rw [hpcself] at hu
        rw [hpcne v hvt] at hv
        obtain rfl := hafter e (FdPc.desc_of_owns hu)
        exact absurd hv (hunique hu v hvt)
    · rw [hpcne u hut] at hu
      by_cases hvt : v = t
      · subst hvt
        rw [hpcself] at hv
        obtain rfl := hafter e (FdPc.desc_of_owns hv)
        exact absurd hu (hunique hv u hut)
      · rw [hpcne v hvt] at hv
        exact h.unique u v e hu hv
  case refs =>
    intro e he
    by_cases hed : e = d
    · subst hed
      rw [hself] at he ⊢
      rw [hpc]
      exact (hrefs he).2
    · rw [hne e hed] at he ⊢
      obtain ⟨hs, hwaits, hcount⟩ := h.refs e he
      refine ⟨hs, ?_, hcount⟩
      rw [hpc]
      apply hwaits.update
      constructor
      · intro hholds
        exact absurd (hafter e (FdPc.desc_of_holds hholds)) hed
      · intro hholds
        exact absurd (hbefore e (FdPc.desc_of_holds hholds)) hed
  case pos =>
    intro e he
    by_cases hed : e = d
    · subst hed
      rw [hself] at he ⊢
      exact (hrefs he).1
    · rw [hne e hed] at he ⊢
      exact h.pos e he
  case closer =>
    intro e he
    by_cases hed : e = d
    · subst hed
      rw [hself] at he ⊢
      rw [hpc]
      exact hcloser he
    · rw [hne e hed] at he ⊢
      refine (h.closer e he).imp_right ?_
      rintro ⟨u, hu⟩
      refine ⟨u, ?_⟩
      rw [hpcne u, hu]
      rintro rfl
      exact hed (hbefore e (hu ▸ rfl))

variable {s s' : FdSys T} {t : T} {d : Nat} {o : DfsFd} {pc' : FdPc}

@[simp] theorem setDesc_pc (o : DfsFd) : (s.setDesc d o).pc = s.pc := rfl
@[simp] theorem setDesc_desc (o : DfsFd) : (s.setDesc d o).desc = Function.update s.desc d o := rfl

/-- What `fd_get` finds is in the table. -/
theorem fdGet_eq_some {i : Int} (hd : s.fdGet i = some d) : s.fds[i.toNat]? = some (some d) := by
  unfold fdGet at hd
  split at hd
  next => exact absurd hd (by simp)
  next =>
    cases hslot : s.fds[i.toNat]? with
    | none =>
      rw [hslot] at hd
      exact absurd hd (by simp)
    | some entry =>
      cases entry with
      | none =>
        rw [hslot] at hd
        exact absurd hd (by simp)
      | some e =>
        rw [hslot] at hd
        dsimp only at hd
        split at hd
        next => rw [Option.some.inj hd]
        next => exact absurd hd (by simp)

theorem Inv.live_of_fdGet (h : s.Inv) {i : Int} (hd : s.fdGet i = some d) : (s.desc d).live = true :=
  ((h.table _ d).mp (fdGet_eq_some hd)).1

/-- A number leads to the descriptor at its index. -/
theorem Inv.fdGet_index (h : s.Inv) (hlive : (s.desc d).live = true) : s.fdGet (s.desc d).index = some d := by
  have hslot : s.fds[(s.desc d).index]? = some (some d) := (h.table _ d).mpr ⟨hlive, rfl⟩
  have hlt : (s.desc d).index < s.fds.length := (List.getElem?_eq_some_iff.mp hslot).1
  unfold fdGet
  rw [if_neg (by omega), Int.toNat_natCast, hslot]
  dsimp only
  rw [if_pos ((h.ok d).magic hlive)]

variable [DecidableEq T]

@[simp] theorem setPc_pc (pc : FdPc) : (s.setPc t pc).pc = Function.update s.pc t pc := rfl
@[simp] theorem setPc_desc (pc : FdPc) : (s.setPc t pc).desc = s.desc := rfl

/-- The case in which the descriptor is there before and after the step. -/
theorem Inv.of_update (h : s.Inv) (hbefore : ∀ e, (s.pc t).desc = some e → e = d)
    (hafter : ∀ e, pc'.desc = some e → e = d) (hok : o.Ok) (hlive : o.live = (s.desc d).live)
    (hindex : o.index = (s.desc d).index) (hfits : pc'.desc = some d → o.Fits pc')
    (hothers : ∀ u, u ≠ t → (s.pc u).desc = some d → o.Fits (s.pc u)) (hopening : ∀ i, pc' ≠ .opening i d)
    (hunique : pc'.owns = some d → ∀ u, u ≠ t → (s.pc u).owns ≠ some d)
    (hrefs : o.live = true → 0 < o.refCount ∧ ∃ hs : List T,
      Waits (fun pc => pc.holds = some d) (Function.update s.pc t pc') hs ∧ o.refCount = hs.length + o.openRef.toNat)
    (hcloser : o.closeGot = true → o.closes = 1 ∨ ∃ u, Function.update s.pc t pc' u = .file .close d) :
    ((s.setDesc d o).setPc t pc').Inv := by
  have hdesc : ∀ e, ((s.setDesc d o).desc e).live = (s.desc e).live ∧ ((s.setDesc d o).desc e).index = (s.desc e).index := by
    intro e
    by_cases he : e = d
    · subst he
      simp only [setDesc_desc, Function.update_self]
      exact ⟨hlive, hindex⟩
    · rw [setDesc_desc, Function.update_of_ne he]
      exact ⟨rfl, rfl⟩
  apply h.of_frame rfl rfl hbefore hafter hok
  · intro i e
    show s.fds[i]? = some (some e) ↔ ((s.setDesc d o).desc e).live = true ∧ ((s.setDesc d o).desc e).index = i
    rw [(hdesc e).1, (hdesc e).2]
    exact h.table i e
  · intro e he
    show ((s.setDesc d o).desc e).live = false
    rw [(hdesc e).1]
    exact h.fresh e he
  · exact hfits
  · intro u hu hd
    exact ⟨hothers u hu hd, hindex.symm⟩
  · intro i hi
    exact absurd hi (hopening i)
  · exact hunique
  · exact hrefs
  · exact hcloser

/-! ## Steps -/

/-- The `close` that has got a descriptor, and has not run the one of the file system, is still there. -/
theorem Inv.closer_update (h : s.Inv) (ht : s.pc t ≠ .file .close d) (pc' : FdPc) (hgot : (s.desc d).closeGot = true) :
    (s.desc d).closes = 1 ∨ ∃ u, Function.update s.pc t pc' u = .file .close d := by
  refine (h.closer d hgot).imp_right ?_
  rintro ⟨u, hu⟩
  refine ⟨u, ?_⟩
  rw [Function.update_of_ne, hu]
  rintro rfl
  exact ht hu

omit [DecidableEq T] in
/-- The threads that do not own the reference for being open go on as long as the descriptor is there. -/
theorem Inv.fits_of_live (h : s.Inv) (howns : (s.pc t).owns = some d) (hlive : o.live = true) {u : T} (hu : u ≠ t)
    (hdesc : (s.pc u).desc = some d) : o.Fits (s.pc u) := by
  apply DfsFd.Fits.of_live hlive
  apply FdPc.owns_eq_none hdesc
  intro hown
  exact hu (h.unique u t d hown howns)

/-- `fd_get` finds a descriptor. Nobody owns its reference for being open if it is for a `close`. -/
theorem Inv.acquire (h : s.Inv) {op : FdOp} (hlive : (s.desc d).live = true)
    (hbefore : ∀ e, (s.pc t).desc = some e → e = d) (hholds : (s.pc t).holds = none)
    (hfits : DfsFd.Fits { s.desc d with
      refCount := (s.desc d).refCount + 1, closeGot := (s.desc d).closeGot || op == .close } (.file op d))
    (hunique : (FdPc.file op d).owns = some d → ∀ u, u ≠ t → (s.pc u).owns ≠ some d) : (s.acquire t op d).Inv := by
  have hok := h.ok d
  obtain ⟨hs, hwaits, hcount⟩ := h.refs d hlive
  have hpos := h.pos d hlive
  apply h.of_update hbefore
  · intro e he
    exact (Option.some.inj he).symm
  · exact {
      magic := hok.magic
      opens_le := hok.opens_le
      closes_le := hok.closes_le
      live_of_openRef := hok.live_of_openRef
      closeGot_of_closes := fun hc => Bool.or_eq_true_iff.mpr (.inl (hok.closeGot_of_closes hc))
      openRef_of_opens := fun hl ho hc => hok.openRef_of_opens hl ho (Bool.or_eq_false_iff.mp hc).1 }
  · rfl
  · rfl
  · intro _
    exact hfits
  · intro u _ hu
    exact (h.fits u d hu).acquire _ _
  · intro i
    exact nofun
  · exact hunique
  · intro _
    refine ⟨by show 0 < (s.desc d).refCount + 1; omega, t :: hs, ?_, ?_⟩
    · apply hwaits.suspend
      · rw [hholds]
        exact nofun
      · rfl
      · exact List.Perm.refl _
    · show (s.desc d).refCount + 1 = _
      rw [hcount, List.length_cons]
      push_cast
      omega
  · intro hgot
    rcases Bool.or_eq_true_iff.mp hgot with hgot | hop
    · apply h.closer_update _ _ hgot
      intro ht
      rw [ht] at hholds
      exact absurd hholds (by simp [FdPc.holds])
    · obtain rfl : op = .close := by simpa using hop
      exact .inr ⟨t, Function.update_self ..⟩

/-- A step that moves the thread on with its descriptor, and takes or drops no reference. -/
theorem Inv.move (h : s.Inv) (hbefore : (s.pc t).holds = some d) (hafter : pc'.holds = some d) (hok : o.Ok)
    (hlive : o.live = (s.desc d).live) (hindex : o.index = (s.desc d).index)
    (hcount : o.refCount = (s.desc d).refCount) (hopen : o.openRef = (s.desc d).openRef) (hfits : o.Fits pc')
    (hothers : ∀ u, u ≠ t → (s.pc u).desc = some d → o.Fits (s.pc u)) (howns : pc'.owns = some d → (s.pc t).owns = some d)
    (hcloser : o.closeGot = true → o.closes = 1 ∨ ∃ u, Function.update s.pc t pc' u = .file .close d) :
    ((s.setDesc d o).setPc t pc').Inv := by
  have hdesc := FdPc.desc_of_holds hbefore
  have hdesc' := FdPc.desc_of_holds hafter
  apply h.of_update (t := t) (d := d)
  · intro e he
    exact Option.some.inj (he.symm.trans hdesc)
  · intro e he
    exact Option.some.inj (he.symm.trans hdesc')
  · exact hok
  · exact hlive
  · exact hindex
  · intro _
    exact hfits
  · exact hothers
  · intro i hi
    rw [hi] at hafter
    exact absurd hafter (by simp [FdPc.holds])
  · intro ho u hu hu'
    exact hu (h.unique u t d hu' (howns ho))
  · intro hl
    rw [hlive] at hl
    obtain ⟨hs, hwaits, hc⟩ := h.refs d hl
    refine ⟨hcount ▸ h.pos d hl, hs, ?_, by rw [hcount, hopen, hc]⟩
    exact hwaits.update (iff_of_true hafter hbefore)
  · exact hcloser

/-- The case in which the descriptor stays as it is. -/
theorem Inv.move_pc (h : s.Inv) (hbefore : (s.pc t).holds = some d) (hafter : pc'.holds = some d)
    (hfits : (s.desc d).Fits pc') (howns : pc'.owns = some d → (s.pc t).owns = some d)
    (ht : s.pc t ≠ .file .close d) : (s.setPc t pc').Inv := by
  have hsame : s.setDesc d (s.desc d) = s := by
    unfold setDesc
    rw [Function.update_eq_self]
  rw [← hsame]
  apply h.move hbefore hafter (h.ok d) rfl rfl rfl rfl hfits
  · intro u _ hu
    exact h.fits u d hu
  · exact howns
  · exact h.closer_update ht pc'

theorem Inv.fileOp (h : s.Inv) (t : T) (ok : Bool) : (s.fileOp t ok).Inv := by
  unfold FdSys.fileOp
  cases hpc : s.pc t with
  | idle | opening | put | putTwice | drop | asserted => exact h
  | file op d =>
    have hholds : (s.pc t).holds = some d := by rw [hpc]; rfl
    have hfits : (s.desc d).Fits (.file op d) := hpc ▸ h.fits t d (FdPc.desc_of_holds hholds)
    have hok := h.ok d
    cases op with
    | «open» =>
      obtain ⟨hlive, href, hopens⟩ := hfits
      have howns : (s.pc t).owns = some d := by rw [hpc]; rfl
      have hcloses : (s.desc d).closes = 0 := Nat.le_zero.mp (hopens ▸ hok.closes_le)
      have hnot : s.pc t ≠ .file .close d := by rw [hpc]; exact nofun
      dsimp only
      split
      · apply h.move hholds
        · rfl
        · exact {
            magic := hok.magic
            opens_le := by show (s.desc d).opens + 1 ≤ 1; omega
            closes_le := by show (s.desc d).closes ≤ (s.desc d).opens + 1; omega
            live_of_openRef := hok.live_of_openRef
            closeGot_of_closes := hok.closeGot_of_closes
            openRef_of_opens := fun _ _ _ => href }
        · rfl
        · rfl
        · rfl
        · rfl
        · exact hlive
        · intro u hu hdesc
          refine h.fits_of_live howns ?_ hu hdesc
          exact hlive
        · exact nofun
        · exact h.closer_update hnot _
      · apply h.move_pc hholds rfl
        · exact ⟨hlive, href, hcloses.trans hopens.symm, .inl hopens⟩
        · exact fun _ => howns
        · exact hnot
    | close =>
      obtain ⟨hlive, href, hopens, hcloses, hgot⟩ := hfits
      have howns : (s.pc t).owns = some d := by rw [hpc]; rfl
      have hone : (s.desc d).closes + 1 = 1 := by omega
      apply h.move hholds
      · split <;> rfl
      · exact {
          magic := hok.magic
          opens_le := hok.opens_le
          closes_le := by show (s.desc d).closes + 1 ≤ (s.desc d).opens; omega
          live_of_openRef := hok.live_of_openRef
          closeGot_of_closes := fun _ => hgot
          openRef_of_opens := hok.openRef_of_opens }
      · rfl
      · rfl
      · rfl
      · rfl
      · split
        · exact ⟨hlive, href, hone.trans hopens.symm, .inr hgot⟩
        · exact hlive
      · intro u hu hdesc
        refine h.fits_of_live howns ?_ hu hdesc
        exact hlive
      · exact fun _ => howns
      · exact fun _ => .inl hone
    | other =>
      show (s.setPc t (.put d)).Inv
      apply h.move_pc hholds rfl
      · exact hfits
      · exact nofun
      · rw [hpc]
        exact nofun

/-- What `fd_put` leaves of a descriptor, as long as it is not freed. -/
def afterPut (o : DfsFd) (keep : Bool) : DfsFd :=
  { o with refCount := o.refCount - 1, openRef := o.openRef && keep }

/-- The count after an `fd_put` of a thread that holds the descriptor, and keeps it open. -/
theorem Inv.put_refs (h : s.Inv) (hholds : (s.pc t).holds = some d) (hafter : pc'.holds = none) : ∃ hs : List T,
    Waits (fun pc => pc.holds = some d) (Function.update s.pc t pc') hs ∧
      (s.desc d).refCount - 1 = hs.length + (s.desc d).openRef.toNat := by
  have hlive := (h.fits t d (FdPc.desc_of_holds hholds)).live (FdPc.desc_of_holds hholds)
  obtain ⟨hs, hwaits, hcount⟩ := h.refs d hlive
  have hmem : t ∈ hs := (hwaits.mem_iff t).mpr hholds
  refine ⟨hs.erase t, ?_, ?_⟩
  · apply hwaits.wake
    rw [hafter]
    exact nofun
  · have hlen := List.length_erase_of_mem hmem
    have hpos := List.length_pos_of_mem hmem
    omega

/-- The count after the `fd_put` that drops the reference for being open. -/
theorem Inv.drop_refs (h : s.Inv) (ht : s.pc t = .drop d) : ∃ hs : List T,
    Waits (fun pc => pc.holds = some d) (Function.update s.pc t .idle) hs ∧
      (s.desc d).refCount - 1 = hs.length := by
  obtain ⟨hlive, href, -⟩ : (s.desc d).Fits (.drop d) := ht ▸ h.fits t d (by rw [ht]; rfl)
  obtain ⟨hs, hwaits, hcount⟩ := h.refs d hlive
  refine ⟨hs, ?_, ?_⟩
  · apply hwaits.update
    rw [ht]
    exact iff_of_false nofun nofun
  · rw [href] at hcount
    have hone : true.toNat = 1 := rfl
    omega

/-- The last `fd_put` frees the descriptor, and no other thread works with it. -/
theorem Inv.free (h : s.Inv) (hdesc : (s.pc t).desc = some d) (hothers : ∀ u, u ≠ t → (s.pc u).desc ≠ some d)
    (hnot : s.pc t ≠ .file .close d) (keep : Bool) (hopen : ((s.desc d).openRef && keep) = false) :
    ({ s.setDesc d { afterPut (s.desc d) keep with live := false } with
      fds := s.fds.set (s.fds.idxOf (some d)) none }.setPc t .idle).Inv := by
  have hlive := (h.fits t d hdesc).live hdesc
  have hok := h.ok d
  have hslot : s.fds[(s.desc d).index]? = some (some d) := (h.table _ d).mpr ⟨hlive, rfl⟩
  have hidx : s.fds.idxOf (some d) = (s.desc d).index := by
    have hmem : some d ∈ s.fds := List.mem_of_getElem? hslot
    have hget := List.getElem?_idxOf hmem
    exact ((h.table _ d).mp hget).2.symm
  apply h.of_frame (d := d) (o := { afterPut (s.desc d) keep with live := false }) rfl rfl
  · intro e he
    exact Option.some.inj (he.symm.trans hdesc)
  · intro e
    exact nofun
  · exact {
      magic := nofun
      opens_le := hok.opens_le
      closes_le := hok.closes_le
      live_of_openRef := fun ho => absurd (hopen.symm.trans ho) Bool.noConfusion
      closeGot_of_closes := hok.closeGot_of_closes
      openRef_of_opens := nofun }
  · intro i e
    show (s.fds.set (s.fds.idxOf (some d)) none)[i]? = some (some e) ↔
      (Function.update s.desc d { afterPut (s.desc d) keep with live := false } e).live = true ∧
        (Function.update s.desc d { afterPut (s.desc d) keep with live := false } e).index = i
    rw [hidx]
    by_cases hed : e = d
    · subst hed
      rw [Function.update_self]
      constructor
      · intro hget
        by_cases hi : (s.desc e).index = i
        · rw [hi, List.getElem?_set] at hget
          simp at hget
        · rw [List.getElem?_set_ne hi] at hget
          exact absurd ((h.table i e).mp hget).2 hi
      · intro hget
        exact absurd hget.1 Bool.noConfusion
    · rw [Function.update_of_ne hed, ← h.table i e]
      by_cases hi : (s.desc d).index = i
      · subst hi
        rw [hslot, List.getElem?_set]
        constructor
        · intro hget
          simp at hget
        · intro hget
          exact absurd (Option.some.inj (Option.some.inj hget)).symm hed
      · rw [List.getElem?_set_ne hi]
  · intro e he
    show (Function.update s.desc d { afterPut (s.desc d) keep with live := false } e).live = false
    by_cases hed : e = d
    · subst hed
      rw [Function.update_self]
    · rw [Function.update_of_ne hed]
      exact h.fresh e he
  · exact nofun
  · intro u hu hud
    exact absurd hud (hothers u hu)
  · exact nofun
  · exact nofun
  · exact nofun
  · exact h.closer_update hnot _

/-- An `fd_put` that leaves references. -/
theorem Inv.put_rest (h : s.Inv) (hdesc : (s.pc t).desc = some d) (keep : Bool) (hafter : ∀ e, pc'.desc = some e → e = d)
    (hopening : ∀ i, pc' ≠ .opening i d) (hnot : s.pc t ≠ .file .close d)
    (hkeep : keep = true ∨ (s.pc t).owns = some d) (hfits : pc'.desc = some d → (afterPut (s.desc d) keep).Fits pc')
    (howns : pc'.owns = some d → (s.pc t).owns = some d)
    (hrefs : 0 < (s.desc d).refCount - 1 ∧ ∃ hs : List T,
      Waits (fun pc => pc.holds = some d) (Function.update s.pc t pc') hs ∧
        (s.desc d).refCount - 1 = hs.length + ((s.desc d).openRef && keep).toNat) :
    ((s.setDesc d (afterPut (s.desc d) keep)).setPc t pc').Inv := by
  have hlive := (h.fits t d hdesc).live hdesc
  have hok := h.ok d
  apply h.of_update
  · intro e he
    exact Option.some.inj (he.symm.trans hdesc)
  · exact hafter
  · exact {
      magic := hok.magic
      opens_le := hok.opens_le
      closes_le := hok.closes_le
      live_of_openRef := fun _ => hlive
      closeGot_of_closes := hok.closeGot_of_closes
      openRef_of_opens := by
        intro _ hopens hgot
        rcases hkeep with rfl | hown
        · exact (Bool.and_true _).trans (hok.openRef_of_opens hlive hopens hgot)
        · rcases (h.fits t d hdesc).owner hown with hzero | hgot'
          · have hopens' : (s.desc d).opens = 1 := hopens
            omega
          · exact absurd (hgot.symm.trans hgot') Bool.noConfusion }
  · rfl
  · rfl
  · exact hfits
  · intro u hu hud
    rcases hkeep with rfl | hown
    · unfold afterPut
      rw [Bool.and_true]
      exact (h.fits u d hud).refCount _
    · refine h.fits_of_live hown ?_ hu hud
      exact hlive
  · exact hopening
  · intro ho u hu hud
    exact hu (h.unique u t d hud (howns ho))
  · intro _
    exact hrefs
  · exact h.closer_update hnot _

/-- **`fd_put`** keeps the invariant: it frees a descriptor that no other thread works with. -/
theorem Inv.putNext (h : s.Inv) (t : T) : (s.putNext t).Inv := by
  have hput : ∀ d keep pc', (s.pc t).puts = some d →
      ((s.pc t).holds = some d ∧ keep = true ∧ (pc' = .idle ∨ s.pc t = .putTwice d ∧ pc' = .drop d) ∨
        s.pc t = .drop d ∧ keep = false ∧ pc' = .idle) → ((s.fdPut d keep).setPc t pc').Inv := by
    intro d keep pc' hputs hcase
    have hdesc := FdPc.desc_of_puts hputs
    have hfit := h.fits t d hdesc
    have hlive := hfit.live hdesc
    have hslot : some d ∈ s.fds := List.mem_of_getElem? ((h.table _ d).mpr ⟨hlive, rfl⟩)
    have hnot : s.pc t ≠ .file .close d := by
      intro ht
      rw [ht] at hputs
      exact absurd hputs (by simp [FdPc.puts])
    have hpc : pc' = .idle ∨ s.pc t = .putTwice d ∧ pc' = .drop d := by
      rcases hcase with ⟨-, -, hpc⟩ | ⟨-, -, hpc⟩
      · exact hpc
      · exact .inl hpc
    have hkeep : keep = true ∨ (s.pc t).owns = some d := by
      rcases hcase with ⟨-, hk, -⟩ | ⟨ht, -, -⟩
      · exact .inl hk
      · exact .inr (by rw [ht]; rfl)
    have hrefs : ∃ hs : List T, Waits (fun pc => pc.holds = some d) (Function.update s.pc t pc') hs ∧
        (s.desc d).refCount - 1 = hs.length + ((s.desc d).openRef && keep).toNat := by
      rcases hcase with ⟨hholds, rfl, hpc⟩ | ⟨ht, rfl, rfl⟩
      · rw [Bool.and_true]
        refine h.put_refs hholds ?_
        rcases hpc with rfl | ⟨-, rfl⟩ <;> rfl
      · rw [Bool.and_false]
        exact h.drop_refs ht
    obtain ⟨hs, hwaits, hcount⟩ := hrefs
    unfold fdPut
    dsimp only
    split
    next hzero =>
      have hnil : hs = [] ∧ ((s.desc d).openRef && keep) = false := by
        have hsum : (s.desc d).refCount - 1 = 0 := hzero.1
        constructor
        · exact List.length_eq_zero_iff.mp (by omega)
        · exact Bool.toNat_eq_zero.mp (by omega)
      obtain ⟨rfl, hopen⟩ := hnil
      have hidle : pc' = .idle := by
        refine hpc.resolve_right ?_
        rintro ⟨ht, rfl⟩
        have hown : (s.pc t).owns = some d := by rw [ht]; rfl
        have hk : keep = true := by
          rcases hcase with ⟨-, hk, -⟩ | ⟨ht', -, -⟩
          · exact hk
          · exact absurd (ht.symm.trans ht') nofun
        rw [hfit.openRef hown, hk] at hopen
        exact Bool.noConfusion hopen
      subst hidle
      refine h.free hdesc ?_ hnot keep hopen
      intro u hu hud
      -- another thread that works with the descriptor would hold it, or own the reference for being open
      rcases FdPc.holds_or_owns hud with hholds | hown
      · have hmem : u ∈ ([] : List T) := (hwaits.mem_iff u).mpr (by rw [Function.update_of_ne hu]; exact hholds)
        exact absurd hmem List.not_mem_nil
      · rcases hkeep with rfl | hown'
        · rw [Bool.and_true, (h.fits u d hud).openRef hown] at hopen
          exact Bool.noConfusion hopen
        · exact hu (h.unique u t d hown hown')
    next hrest =>
      apply h.put_rest hdesc keep
      · intro e he
        rcases hpc with rfl | ⟨-, rfl⟩
        · exact absurd he nofun
        · exact (Option.some.inj he).symm
      · rcases hpc with rfl | ⟨-, rfl⟩ <;> exact nofun
      · exact hnot
      · exact hkeep
      · intro hd
        rcases hpc with rfl | ⟨ht, rfl⟩
        · trivial
        · obtain ⟨-, rfl, -⟩ := hcase.resolve_right (fun hc => absurd (ht.symm.trans hc.1) nofun)
          rw [ht] at hfit
          obtain ⟨hl, ho, hc, hg⟩ := hfit
          exact ⟨hl, (Bool.and_true _).trans ho, hc, hg⟩
      · intro ho
        rcases hpc with rfl | ⟨ht, rfl⟩
        · exact absurd ho nofun
        · rw [ht]
          rfl
      · refine ⟨?_, hs, hwaits, hcount⟩
        have hne : (s.desc d).refCount - 1 ≠ 0 := fun hz => hrest ⟨hz, hslot⟩
        omega
  unfold FdSys.putNext
  cases hpc : s.pc t with
  | idle | opening | file | asserted => exact h
  | put d => exact hput d true .idle (by rw [hpc]; rfl) (.inl ⟨by rw [hpc]; rfl, rfl, .inl rfl⟩)
  | putTwice d => exact hput d true (.drop d) (by rw [hpc]; rfl) (.inl ⟨by rw [hpc]; rfl, rfl, .inr ⟨hpc, rfl⟩⟩)
  | drop d => exact hput d false .idle (by rw [hpc]; rfl) (.inr ⟨hpc, rfl, rfl⟩)

theorem Inv.openGet (h : s.Inv) (t : T) : (s.openGet t).Inv := by
  unfold FdSys.openGet
  cases hpc : s.pc t with
  | idle | file | put | putTwice | drop | asserted => exact h
  | opening i d =>
    have hdesc : (s.pc t).desc = some d := by rw [hpc]; rfl
    have howns : (s.pc t).owns = some d := by rw [hpc]; rfl
    obtain ⟨hlive, href, hopens⟩ : (s.desc d).Fits (.opening i d) := hpc ▸ h.fits t d hdesc
    obtain rfl : (s.desc d).index = i := h.opening t i d hpc
    dsimp only
    rw [h.fdGet_index hlive]
    apply h.acquire hlive
    · intro e he
      exact Option.some.inj (he.symm.trans hdesc)
    · rw [hpc]
      rfl
    · exact ⟨hlive, href, hopens⟩
    · intro _ u hu hud
      exact hu (h.unique u t d hud howns)

theorem Inv.callGet (h : s.Inv) (ht : s.pc t = .idle) (op : FdOp) (fd : Int)
    (hop : op = .other ∨ op = .close ∧ s.StepOk (.close t fd)) : (s.callGet t op fd).Inv := by
  unfold FdSys.callGet
  cases hget : s.fdGet (fd - dfsFdOffset) with
  | none => exact h
  | some d =>
    have hlive := h.live_of_fdGet hget
    apply h.acquire hlive
    · intro e he
      rw [ht] at he
      exact absurd he nofun
    · rw [ht]
      rfl
    · rcases hop with rfl | ⟨rfl, hok⟩
      · exact hlive
      · obtain ⟨hopens, hgot⟩ := hok d hget
        have hcloses : (s.desc d).closes = 0 := by
          rcases Nat.eq_zero_or_pos (s.desc d).closes with hz | hpos
          · exact hz
          · exact absurd (hgot.symm.trans ((h.ok d).closeGot_of_closes hpos)) Bool.noConfusion
        refine ⟨hlive, (h.ok d).openRef_of_opens hlive hopens hgot, hopens, hcloses, ?_⟩
        exact Bool.or_eq_true_iff.mpr (.inr rfl)
    · rcases hop with rfl | ⟨rfl, hok⟩
      · exact nofun
      · intro _ u _ hud
        obtain ⟨hopens, hgot⟩ := hok d hget
        rcases (h.fits u d (FdPc.desc_of_owns hud)).owner hud with hzero | hgot'
        · omega
        · exact Bool.noConfusion (hgot.symm.trans hgot')

omit [DecidableEq T] in
/-- A table that has grown has the same descriptors. -/
theorem growFds_some (fdMax : Nat) (r : Bool) (i d : Nat) :
    (s.growFds fdMax r)[i]? = some (some d) ↔ s.fds[i]? = some (some d) := by
  unfold growFds
  split
  · by_cases hi : i < s.fds.length
    · rw [List.getElem?_append_left hi]
    · rw [List.getElem?_append_right (by omega), List.getElem?_replicate, List.getElem?_eq_none (by omega)]
      split <;> simp
  · exact Iff.rfl

omit [DecidableEq T] in
/-- The entry that `fd_alloc` has found has no descriptor. -/
theorem Inv.findFd_ne (h : s.Inv) (d : Nat) : s.fds[s.findFd]? ≠ some (some d) := by
  intro hd
  obtain ⟨hlt, hget⟩ := List.getElem?_eq_some_iff.mp hd
  have hfound : (s.fds[s.findFd]).all (fun d => (s.desc d).refCount = 0) = true := List.findIdx_getElem
  rw [hget] at hfound
  have hzero : (s.desc d).refCount = 0 := of_decide_eq_true hfound
  have hpos := h.pos d ((h.table _ d).mp hd).1
  omega

omit [DecidableEq T] in
theorem Inv.grow (h : s.Inv) (fdMax : Nat) (r : Bool) : ({ s with fds := s.growFds fdMax r } : FdSys T).Inv where
  ok := h.ok
  table i d := (growFds_some fdMax r i d).trans (h.table i d)
  fresh := h.fresh
  fits := h.fits
  opening := h.opening
  unique := h.unique
  refs := h.refs
  pos := h.pos
  closer := h.closer

/-- **`fd_new`** allocates a descriptor that no thread works with, or none. -/
theorem Inv.fdNew (h : s.Inv) (ht : s.pc t = .idle) (fdMax : Nat) (r c : Bool) : (s.fdNew fdMax t r c).Inv := by
  unfold FdSys.fdNew
  dsimp only
  cases hslot : (s.growFds fdMax r)[s.findFd]? with
  | none => exact h.grow fdMax r
  | some entry =>
    cases entry with
    | some d => exact absurd ((growFds_some fdMax r _ d).mp hslot) (h.findFd_ne d)
    | none =>
      dsimp only
      split
      next =>
        have hnew : (s.desc s.next).live = false := h.fresh s.next (Nat.le_refl _)
        have hnobody : ∀ u, (s.pc u).desc ≠ some s.next := fun u hu =>
          Bool.noConfusion (hnew.symm.trans ((h.fits u _ hu).live hu))
        apply h.of_frame (d := s.next) (o := newFd s.findFd) rfl rfl
        · intro e he
          rw [ht] at he
          exact absurd he nofun
        · intro e he
          exact (Option.some.inj he).symm
        · exact ⟨fun _ => rfl, Nat.zero_le _, Nat.le_refl _, fun _ => rfl, nofun, fun _ _ _ => rfl⟩
        · intro i e
          show ((s.growFds fdMax r).set s.findFd (some s.next))[i]? = some (some e) ↔
            (Function.update s.desc s.next (newFd s.findFd) e).live = true ∧
              (Function.update s.desc s.next (newFd s.findFd) e).index = i
          have hlt : s.findFd < (s.growFds fdMax r).length := (List.getElem?_eq_some_iff.mp hslot).1
          by_cases he : e = s.next
          · subst he
            rw [Function.update_self]
            constructor
            · intro hget
              by_cases hi : s.findFd = i
              · exact ⟨rfl, hi⟩
              · rw [List.getElem?_set_ne hi] at hget
                have hlive := ((h.table i _).mp ((growFds_some fdMax r i _).mp hget)).1
                exact absurd (hnew.symm.trans hlive) Bool.noConfusion
            · intro ⟨_, hi⟩
              obtain rfl : s.findFd = i := hi
              rw [List.getElem?_set_self hlt]
          · rw [Function.update_of_ne he, ← h.table i e, ← growFds_some fdMax r i e]
            by_cases hi : s.findFd = i
            · subst hi
              rw [List.getElem?_set_self hlt, hslot]
              constructor
              · intro hget
                exact absurd (Option.some.inj (Option.some.inj hget)).symm he
              · intro hget
                exact absurd hget (by simp)
            · rw [List.getElem?_set_ne hi]
        · intro e he
          have hge : s.next + 1 ≤ e := he
          show (Function.update s.desc s.next (newFd s.findFd) e).live = false
          rw [Function.update_of_ne (by omega)]
          exact h.fresh e (by omega)
        · exact fun _ => ⟨rfl, rfl, rfl⟩
        · intro u _ hu
          exact absurd hu (hnobody u)
        · intro i hi
          exact (FdPc.opening.inj hi).1
        · intro _ u _ hu
          exact hnobody u (FdPc.desc_of_owns hu)
        · intro _
          refine ⟨Int.one_pos, [], ?_, rfl⟩
          apply Waits.init
          intro u
          by_cases hu : u = t
          · subst hu
            rw [Function.update_self]
            exact nofun
          · rw [Function.update_of_ne hu]
            exact fun hholds => hnobody u (FdPc.desc_of_holds hholds)
        · exact nofun
      next => exact h.grow fdMax r

/-- **A step that meets the condition keeps the invariant.** -/
theorem inv_step {fdMax : Nat} {e : FdEvent T} (h : s.Inv) (hok : s.StepOk e) (hs : s.Step fdMax e s') : s'.Inv := by
  obtain ⟨hen, rfl⟩ := hs
  cases e with
  | «open» t r c => exact h.fdNew hen fdMax r c
  | get t => exact h.openGet t
  | close t fd => exact h.callGet hen .close fd (.inr ⟨rfl, hok⟩)
  | other t fd => exact h.callGet hen .other fd (.inl rfl)
  | file t ok => exact h.fileOp t ok
  | put t => exact h.putNext t

/-- **What the invariant says of the lifetime.** -/
theorem Inv.safe (h : s.Inv) (fdMax : Nat) : s.Safe fdMax where
  held t d hd := (h.fits t d (FdPc.desc_of_holds hd)).live (FdPc.desc_of_holds hd)
  puts t d hd := (h.fits t d (FdPc.desc_of_puts hd)).live (FdPc.desc_of_puts hd)
  closes d := (h.ok d).closes_le
  fresh t r c i d ht hnew e huse hi := by
    have hlive : (s.desc e).live = true := huse.elim id (h.ok e).live_of_openRef
    have hslot : s.fds[i]? = some (some e) := (h.table i e).mpr ⟨hlive, hi⟩
    have hidle : ∀ s'' : FdSys T, s''.pc = s.pc → s''.pc t ≠ .opening i d := fun s'' hpc hop => by
      rw [hpc, ht] at hop
      exact absurd hop nofun
    unfold FdSys.fdNew at hnew
    dsimp only at hnew
    cases hfound : (s.growFds fdMax r)[s.findFd]? with
    | none =>
      rw [hfound] at hnew
      exact hidle _ rfl hnew
    | some entry =>
      rw [hfound] at hnew
      cases entry with
      | some e' => exact h.findFd_ne e' ((growFds_some fdMax r _ e').mp hfound)
      | none =>
        dsimp only at hnew
        split at hnew
        next =>
          have hpc : FdPc.opening s.findFd s.next = .opening i d := (Function.update_self ..).symm.trans hnew
          obtain ⟨rfl, -⟩ := FdPc.opening.inj hpc
          exact h.findFd_ne e hslot
        next => exact hidle _ rfl hnew

/-! ## Runs -/

/-- The `close` of the file system runs, whatever has run before. -/
theorem fileOp_close (ht : s.pc t = .file .close d) (ok : Bool) :
    ((s.fileOp t ok).desc d).closes = (s.desc d).closes + 1 ∧ ((s.fileOp t ok).desc d).opens = (s.desc d).opens ∧
      ∀ u, u ≠ t → (s.fileOp t ok).pc u = s.pc u := by
  unfold FdSys.fileOp
  rw [ht]
  dsimp only [setPc_desc, setPc_pc, setDesc_desc, setDesc_pc]
  rw [Function.update_self]
  exact ⟨rfl, rfl, fun u hu => Function.update_of_ne hu ..⟩

theorem step_file {fdMax : Nat} {op : FdOp} (ht : s.pc t = .file op d) (ok : Bool) :
    s.Step fdMax (.file t ok) (s.fileOp t ok) := by
  refine ⟨?_, rfl⟩
  show (s.pc t).isFile = true
  rw [ht]
  rfl

/-- A `close` that has got a descriptor too early or too late can go on, with a `close` that got it before, to where the
one of the file system has run too often. -/
theorem Inv.stepOk_of_safe {fdMax : Nat} {fd : Int} (h : s.Inv) (ht : s.pc t = .idle)
    (hsafe : ∀ ls' s'', (∀ e' ∈ ls', NoClose e') → Run (Step fdMax) (s.callGet t .close fd) ls' s'' → s''.Safe fdMax) :
    s.StepOk (.close t fd) := by
  intro d hget
  have hcall : s.callGet t .close fd = s.acquire t .close d := by
    unfold FdSys.callGet
    rw [show s.fdGet (fd - dfsFdOffset) = some d from hget]
  rw [hcall] at hsafe
  have hpc : (s.acquire t .close d).pc t = .file .close d := Function.update_self ..
  have hdesc : ((s.acquire t .close d).desc d).closes = (s.desc d).closes ∧
      ((s.acquire t .close d).desc d).opens = (s.desc d).opens := by
    unfold FdSys.acquire
    rw [setPc_desc, setDesc_desc, Function.update_self]
    exact ⟨rfl, rfl⟩
  obtain ⟨hcloses, hopens, hothers⟩ := fileOp_close hpc true
  have hone := (hsafe [.file t true] _ (by simp [NoClose]) (.single (step_file hpc true))).closes d
  rw [hcloses, hopens, hdesc.1, hdesc.2] at hone
  have hle := (h.ok d).opens_le
  refine ⟨by omega, ?_⟩
  cases hgot : (s.desc d).closeGot with
  | false => rfl
  | true =>
    rcases h.closer d hgot with hclosed | ⟨u, hu⟩
    · omega
    · have hut : u ≠ t := by
        rintro rfl
        exact absurd (ht.symm.trans hu) nofun
      have hpcu : ((s.acquire t .close d).fileOp t true).pc u = .file .close d := by
        rw [hothers u hut, show (s.acquire t .close d).pc u = s.pc u from Function.update_of_ne hut .., hu]
      obtain ⟨hcloses', hopens', -⟩ := fileOp_close hpcu true
      have hrun : Run (Step fdMax) (s.acquire t .close d) ([.file t true] ++ [.file u true])
          (((s.acquire t .close d).fileOp t true).fileOp u true) :=
        (Run.single (step_file hpc true)).append (.single (step_file hpcu true))
      have htwo := (hsafe _ _ (by simp [NoClose]) hrun).closes d
      rw [hcloses', hopens', hcloses, hopens, hdesc.1, hdesc.2] at htwo
      omega

/-- **The lifetime of descriptors, as long as no `close` gets one that is not open or that another `close` has got.** In a
run whose steps all meet the condition, every state is safe. And the condition is exact: a next step meets it if and only
if nothing goes wrong after it before another `close` begins. -/
theorem dfs_fd_safe {fdMax : Nat} {ls : List (FdEvent T)} (hrun : Run (Guarded StepOk (Step fdMax)) init ls s) :
    s.Safe fdMax ∧ ∀ e s', s.Step fdMax e s' → (s.StepOk e ↔
      ∀ ls' s'', (∀ e' ∈ ls', NoClose e') → Run (Step fdMax) s' ls' s'' → s''.Safe fdMax) := by
  have hinv : s.Inv := hrun.guarded inv_init fun _ _ _ h hok hs => inv_step h hok hs
  refine ⟨hinv.safe fdMax, fun e s' hs => ⟨fun hok => ?_, fun hsafe => ?_⟩⟩
  · intro ls' s'' hno hrest
    have hinv' : s''.Inv ∧ ∀ e' ∈ ls', True := by
      apply hrest.stable (inv_step hinv hok hs) hno
      intro s₁ e₁ s₂ h₁ hno₁ hs₁
      refine ⟨inv_step h₁ ?_ hs₁, trivial⟩
      cases e₁ with
      | close => exact hno₁.elim
      | «open» | get | other | file | put => trivial
    exact hinv'.1.safe fdMax
  · cases e with
    | close t fd =>
      obtain ⟨hen, rfl⟩ := hs
      exact hinv.stepOk_of_safe hen hsafe
    | «open» | get | other | file | put => trivial

/-- A thread opens a descriptor, another one begins to read, and the first one closes it: the reader is the last to hold
it. -/
theorem dfs_fd_safe_run : ∃ s : FdSys Nat,
    ((s.pc 1).holds = some 0 ∧ (s.desc 0).openRef = false) ∧ s.Safe 4 ∧ ∀ e s', s.Step 4 e s' → (s.StepOk e ↔
      ∀ ls' s'', (∀ e' ∈ ls', NoClose e') → Run (Step 4) s' ls' s'' → s''.Safe 4) := by
  have hexec : ((([.open 0 true true, .get 0, .file 0 true, .put 0, .other 1 3, .close 0 3, .file 0 true, .put 0,
      .put 0] : List (FdEvent Nat)).foldlM
        (fun s e => if StepOk s e then Run.tryStep Enabled (exec 4) s e else none) init).map fun s =>
          ((s.pc 1).holds, (s.desc 0).openRef)) = some (some 0, false) := by decide +kernel
  obtain ⟨s, hs, hobs⟩ := Option.map_eq_some_iff.mp hexec
  refine ⟨s, ⟨congrArg Prod.fst hobs, congrArg Prod.snd hobs⟩, ?_⟩
  exact dfs_fd_safe (Run.of_foldlM_guarded (fun _ _ _ hs => Run.of_tryStep hs) hs)

/-- **A descriptor that is freed early.** While a `read` is in progress, its descriptor is closed twice. The second
`close` still finds the number in the table, runs the one of the file system again, and drops the reference that the
`read` has taken. -/
theorem dfs_fd_freed_early : ¬ ∀ (ls : List (FdEvent Nat)) (s : FdSys Nat), Run (Step 4) init ls s → s.Safe 4 := by
  intro hall
  have hexec : ((([.open 0 true true, .get 0, .file 0 true, .put 0, .other 1 3, .close 0 3, .file 0 true, .put 0,
      .put 0, .close 0 3, .file 0 true, .put 0, .put 0] : List (FdEvent Nat)).foldlM
        (Run.tryStep Enabled (exec 4)) init).map fun s => ((s.pc 1).holds, (s.desc 0).live)) =
          some (some 0, false) := by decide +kernel
  obtain ⟨s, hs, hobs⟩ := Option.map_eq_some_iff.mp hexec
  have hlive := (hall _ s (Run.of_foldlM_tryStep hs)).held 1 0 (congrArg Prod.fst hobs)
  have hfreed : (s.desc 0).live = false := congrArg Prod.snd hobs
  exact Bool.noConfusion (hfreed.symm.trans hlive)

end FdSys

end CoreLink.RtThread
