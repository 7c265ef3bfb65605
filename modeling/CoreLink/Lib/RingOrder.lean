/-
# `CoreLink.Lib.RingOrder` — areas in the order of a ring.

The areas of a ring are handed out upwards, and from the bottom again when the end is reached. In the order in which they
were handed out they are two ascending parts, the second below the first, and this stays so when any of them are given
back. Whether there is a second part is told by the first and the last of them, and with it where the next one has
space: `append_behind` and `append_front`.
-/
import CoreLink.Lib.Extent

namespace CoreLink.Lib.Extent

/-- `e` ends before `f` begins. -/
def Precedes (e f : Extent) : Prop := e.start + e.size ≤ f.start

/-- **The order of a ring**: ascending, and from some point on ascending again, below what is in front of that point. -/
def RingOrder (es : List Extent) : Prop :=
  ∃ us ws, es = us ++ ws ∧ (ws ++ us).Pairwise Precedes ∧ ∀ w ∈ ws, ∀ u ∈ us, w.start < u.start

/-- What is behind `last`: the first one, or, if that is not above `last`, the end of the region. -/
def bound (hi : Nat) (first last : Extent) : Nat := if first.start ≤ last.start then hi else first.start

variable {es fs us ws : List Extent} {first last n : Extent} {hi : Nat}

/-! ## Ascending areas -/

/-- The first of them begins first. -/
theorem start_le_of_head (h : es.Pairwise Precedes) (hfirst : first ∈ es.head?) : ∀ e ∈ es, first.start ≤ e.start := by
  cases es with
  | nil => exact nofun
  | cons e es =>
    obtain rfl := Option.some.inj hfirst
    intro f hf
    rcases List.mem_cons.mp hf with rfl | hf
    · exact Nat.le_refl _
    · have hlt := (List.pairwise_cons.mp h).1 f hf
      unfold Precedes at hlt
      omega

/-- The last of them ends last. -/
theorem stop_le_of_getLast (h : es.Pairwise Precedes) (hlast : last ∈ es.getLast?) :
    ∀ e ∈ es, e.start + e.size ≤ last.start + last.size := by
  obtain ⟨init, rfl⟩ := List.getLast?_eq_some_iff.mp hlast
  intro e he
  rcases List.mem_append.mp he with he | he
  · have hlt := (List.pairwise_append.mp h).2.2 e he last List.mem_cons_self
    unfold Precedes at hlt
    omega
  · rw [List.mem_singleton.mp he]

/-! ## The order -/

namespace RingOrder

theorem of_ascending (h : es.Pairwise Precedes) : RingOrder es :=
  ⟨es, [], (List.append_nil es).symm, h, nofun⟩

/-- Any of them can be given back. -/
theorem sublist (h : RingOrder es) (hsub : fs.Sublist es) : RingOrder fs := by
  obtain ⟨us, ws, rfl, hpair, hlow⟩ := h
  obtain ⟨us', ws', rfl, hus, hws⟩ := List.sublist_append_iff.mp hsub
  exact ⟨us', ws', rfl, hpair.sublist (hws.append hus), fun w hw u hu => hlow w (hws.subset hw) u (hus.subset hu)⟩

/-- **When the first is not above the last there is one part.** -/
theorem ascending (h : RingOrder es) (hfirst : first ∈ es.head?) (hlast : last ∈ es.getLast?)
    (hle : first.start ≤ last.start) : es.Pairwise Precedes := by
  obtain ⟨us, ws, rfl, hpair, hlow⟩ := h
  cases us with
  | nil => simpa using hpair
  | cons u us =>
    cases ws with
    | nil => simpa using hpair
    | cons w ws =>
      -- the first is above, and the last below
      obtain rfl := Option.some.inj hfirst
      have hmem : last ∈ w :: ws := by
        rw [List.getLast?_append_of_ne_nil _ (List.cons_ne_nil w ws)] at hlast
        exact List.mem_of_mem_getLast? hlast
      have hlt := hlow last hmem u List.mem_cons_self
      omega

/-- **When the first is above the last there are two parts.** -/
theorem wrapped (h : RingOrder es) (hfirst : first ∈ es.head?) (hlast : last ∈ es.getLast?)
    (hlt : last.start < first.start) : ∃ us ws, es = us ++ ws ∧ (ws ++ us).Pairwise Precedes ∧
      (∀ w ∈ ws, ∀ u ∈ us, w.start < u.start) ∧ first ∈ us.head? ∧ last ∈ ws.getLast? := by
  have hone : ¬es.Pairwise Precedes := fun hpair => by
    have hle := start_le_of_head hpair hfirst last (List.mem_of_mem_getLast? hlast)
    omega
  obtain ⟨us, ws, rfl, hpair, hlow⟩ := h
  have hus : us ≠ [] := by
    rintro rfl
    exact hone (by simpa using hpair)
  have hws : ws ≠ [] := by
    rintro rfl
    exact hone (by simpa using hpair)
  refine ⟨us, ws, rfl, hpair, hlow, ?_, ?_⟩
  · rwa [List.head?_append_of_ne_nil us hus] at hfirst
  · rwa [List.getLast?_append_of_ne_nil us hws] at hlast

/-- **Behind the last one**: up to what is behind it there is nothing, and an area there is the next one of the ring. One
without a size must leave something in between, or the ring looks as if it had not begun again. -/
theorem append_behind (h : RingOrder es) (hfirst : first ∈ es.head?) (hlast : last ∈ es.getLast?)
    (hin : ∀ e ∈ es, e.start + e.size ≤ hi) (hstart : n.start = last.start + last.size)
    (hsize : n.size ≤ bound hi first last - (last.start + last.size)) :
    (∀ e ∈ es, Precedes e n ∨ Precedes n e) ∧ n.start + n.size ≤ hi ∧
      ((n.size = 0 → last.start < first.start → last.start + last.size ≠ first.start) → RingOrder (es ++ [n])) := by
  have hlasthi := hin last (List.mem_of_mem_getLast? hlast)
  by_cases hle : first.start ≤ last.start
  · rw [bound, if_pos hle] at hsize
    have hpair := h.ascending hfirst hlast hle
    have hbefore : ∀ e ∈ es, Precedes e n := fun e he => by
      have hstop := stop_le_of_getLast hpair hlast e he
      unfold Precedes
      omega
    refine ⟨fun e he => Or.inl (hbefore e he), by omega, fun _ => of_ascending ?_⟩
    refine List.pairwise_append.mpr ⟨hpair, List.pairwise_singleton _ n, fun e he f hf => ?_⟩
    exact List.mem_singleton.mp hf ▸ hbefore e he
  · rw [bound, if_neg hle] at hsize
    obtain ⟨us, ws, rfl, hpair, hlow, hfirst', hlast'⟩ := h.wrapped hfirst hlast (Nat.lt_of_not_le hle)
    obtain ⟨hws, hus, hcross⟩ := List.pairwise_append.mp hpair
    have hfl := hcross last (List.mem_of_mem_getLast? hlast') first (List.mem_of_mem_head? hfirst')
    have hfirsthi := hin first (List.mem_of_mem_head? hfirst)
    unfold Precedes at hfl
    have hbefore : ∀ w ∈ ws, Precedes w n := fun w hw => by
      have hstop := stop_le_of_getLast hws hlast' w hw
      unfold Precedes
      omega
    have hbehind : ∀ u ∈ us, Precedes n u := fun u hu => by
      have hge := start_le_of_head hus hfirst' u hu
      unfold Precedes
      omega
    refine ⟨fun e he => ?_, by omega, fun hzero => ?_⟩
    · rcases List.mem_append.mp he with he | he
      · exact Or.inr (hbehind e he)
      · exact Or.inl (hbefore e he)
    · refine ⟨us, ws ++ [n], List.append_assoc us ws [n], ?_, fun w hw u hu => ?_⟩
      · rw [List.append_assoc]
        refine List.pairwise_append.mpr ⟨hws, List.pairwise_cons.mpr ⟨hbehind, hus⟩, fun w hw e he => ?_⟩
        rcases List.mem_cons.mp he with rfl | he
        · exact hbefore w hw
        · exact hcross w hw e he
      · rcases List.mem_append.mp hw with hw | hw
        · exact hlow w hw u hu
        · have hge := start_le_of_head hus hfirst' u hu
          rw [List.mem_singleton.mp hw]
          by_cases hn : n.size = 0
          · have hne := hzero hn (Nat.lt_of_not_le hle)
            omega
          · omega

/-- **In front of the first one**, when there is one part: there is nothing below it, and an area there begins the second
part. -/
theorem append_front (h : RingOrder es) (hfirst : first ∈ es.head?) (hlast : last ∈ es.getLast?)
    (hle : first.start ≤ last.start) (hsize : n.start + n.size ≤ first.start) (hpos : 0 < n.size) :
    (∀ e ∈ es, Precedes n e) ∧ RingOrder (es ++ [n]) := by
  have hpair := h.ascending hfirst hlast hle
  have hbehind : ∀ e ∈ es, Precedes n e := fun e he => by
    have hge := start_le_of_head hpair hfirst e he
    unfold Precedes
    omega
  refine ⟨hbehind, es, [n], rfl, List.pairwise_cons.mpr ⟨hbehind, hpair⟩, fun w hw u hu => ?_⟩
  have hlt := hbehind u hu
  rw [List.mem_singleton.mp hw]
  unfold Precedes at hlt
  omega

end RingOrder

end CoreLink.Lib.Extent
