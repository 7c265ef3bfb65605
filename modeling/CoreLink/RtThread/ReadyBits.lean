/-
# `CoreLink.RtThread.ReadyBits` — the bitmap of the ready priorities.

The scheduler marks the priorities that have a ready thread in `rt_thread_ready_priority_group`. With at most 32
priorities each has a bit there; with more, a bit of the group stands for eight priorities, whose own bits are an
entry of `rt_thread_ready_table`. Every thread carries the masks of its priority. `__rt_ffs` finds the lowest bit of
a word by table; the smallest ready priority is one or two such searches away.

`BitsOk` says that the bits mark exactly a given set of priorities; setting and clearing the bits of a priority
insert it into the set and erase it.
-/
import Mathlib.Data.BitVec

namespace CoreLink.RtThread

/-! ## `__rt_ffs` -/

/-- `__lowest_bit_bitmap`. -/
def lowestBitBitmap : List Nat :=
  [0, 0, 1, 0, 2, 0, 1, 0, 3, 0, 1, 0, 2, 0, 1, 0,
   4, 0, 1, 0, 2, 0, 1, 0, 3, 0, 1, 0, 2, 0, 1, 0,
   5, 0, 1, 0, 2, 0, 1, 0, 3, 0, 1, 0, 2, 0, 1, 0,
   4, 0, 1, 0, 2, 0, 1, 0, 3, 0, 1, 0, 2, 0, 1, 0,
   6, 0, 1, 0, 2, 0, 1, 0, 3, 0, 1, 0, 2, 0, 1, 0,
   4, 0, 1, 0, 2, 0, 1, 0, 3, 0, 1, 0, 2, 0, 1, 0,
   5, 0, 1, 0, 2, 0, 1, 0, 3, 0, 1, 0, 2, 0, 1, 0,
   4, 0, 1, 0, 2, 0, 1, 0, 3, 0, 1, 0, 2, 0, 1, 0,
   7, 0, 1, 0, 2, 0, 1, 0, 3, 0, 1, 0, 2, 0, 1, 0,
   4, 0, 1, 0, 2, 0, 1, 0, 3, 0, 1, 0, 2, 0, 1, 0,
   5, 0, 1, 0, 2, 0, 1, 0, 3, 0, 1, 0, 2, 0, 1, 0,
   4, 0, 1, 0, 2, 0, 1, 0, 3, 0, 1, 0, 2, 0, 1, 0,
   6, 0, 1, 0, 2, 0, 1, 0, 3, 0, 1, 0, 2, 0, 1, 0,
   4, 0, 1, 0, 2, 0, 1, 0, 3, 0, 1, 0, 2, 0, 1, 0,
   5, 0, 1, 0, 2, 0, 1, 0, 3, 0, 1, 0, 2, 0, 1, 0,
   4, 0, 1, 0, 2, 0, 1, 0, 3, 0, 1, 0, 2, 0, 1, 0]

/-- `__rt_ffs`. -/
def rtFfs (value : BitVec 32) : Nat :=
  if value = 0 then 0
  else if value &&& 0xff ≠ 0 then lowestBitBitmap.getD (value &&& 0xff).toNat 0 + 1
  else if value &&& 0xff00 ≠ 0 then lowestBitBitmap.getD ((value &&& 0xff00) >>> 8).toNat 0 + 9
  else if value &&& 0xff0000 ≠ 0 then lowestBitBitmap.getD ((value &&& 0xff0000) >>> 16).toNat 0 + 17
  else lowestBitBitmap.getD ((value &&& 0xff000000) >>> 24).toNat 0 + 25

theorem lowest_of_mod {n k : Nat} (h : n % 2 ^ (k + 1) = 2 ^ k) : n.testBit k = true ∧ ∀ i < k, n.testBit i = false := by
  have hbit {i : Nat} (hi : i ≤ k) : n.testBit i = decide (k = i) := by
    rw [← Nat.testBit_two_pow, ← h, Nat.testBit_mod_two_pow, decide_eq_true (Nat.lt_succ_of_le hi), Bool.true_and]
  exact ⟨by rw [hbit le_rfl, decide_eq_true rfl], fun i hi => by rw [hbit hi.le, decide_eq_false hi.ne']⟩

/-- The table holds the index of the lowest bit of each byte but zero. -/
theorem lowestBitBitmap_spec : ∀ n < 256, n ≠ 0 →
    n.testBit (lowestBitBitmap.getD n 0) = true ∧ ∀ i < lowestBitBitmap.getD n 0, n.testBit i = false := by
  have htable : ∀ p ∈ lowestBitBitmap.zipIdx, p.2 = 0 ∨ p.2 % 2 ^ (p.1 + 1) = 2 ^ p.1 := by decide +kernel
  have hlength : lowestBitBitmap.length = 256 := by decide +kernel
  intro n hn hne
  rw [← hlength] at hn
  have hget : lowestBitBitmap[n]? = some (lowestBitBitmap.getD n 0) := by
    rw [List.getD_eq_getElem?_getD, List.getElem?_eq_getElem hn, Option.getD_some]
  exact lowest_of_mod ((htable (_, n) (List.mk_mem_zipIdx_iff_getElem?.mpr hget)).resolve_left hne)

/-- The bits of the byte at `k`, shifted into place. -/
theorem mask_getLsbD {k : Nat} (hk : k ≤ 24) (i : Nat) :
    (0xff#32 <<< k).getLsbD i = decide (k ≤ i ∧ i < k + 8) := by
  have hmask : (0xff#32).getLsbD (i - k) = decide (i - k < 8) := by
    rw [BitVec.getLsbD_ofNat, show (0xff : Nat) = 2 ^ 8 - 1 from rfl, Nat.testBit_two_pow_sub_one,
      ← Bool.decide_and, decide_eq_decide]
    omega
  rw [BitVec.getLsbD_shiftLeft, hmask, ← decide_not, ← Bool.decide_and, ← Bool.decide_and, decide_eq_decide]
  omega

/-- The bits of the byte at `k`, as the index of the table. -/
theorem byte_testBit (value : BitVec 32) {k : Nat} (hk : k ≤ 24) (i : Nat) :
    ((value &&& (0xff#32 <<< k)) >>> k).toNat.testBit i = (decide (i < 8) && value.getLsbD (k + i)) := by
  rw [BitVec.testBit_toNat, BitVec.getLsbD_ushiftRight, BitVec.getLsbD_and, mask_getLsbD hk, Bool.and_comm]
  congr 1
  rw [decide_eq_decide]
  omega

/-- The byte at `k` is zero when its eight bits are. -/
theorem and_mask_eq_zero_iff {value : BitVec 32} {k : Nat} (hk : k ≤ 24) :
    value &&& (0xff#32 <<< k) = 0 ↔ ∀ i, k ≤ i → i < k + 8 → value.getLsbD i = false := by
  constructor
  · intro h i hki hik
    have hb := congrArg (fun v => v.getLsbD i) h
    rw [BitVec.getLsbD_and, mask_getLsbD hk, decide_eq_true ⟨hki, hik⟩, Bool.and_true] at hb
    simpa using hb
  · intro h
    refine BitVec.eq_of_getLsbD_eq fun i _ => ?_
    rw [BitVec.getLsbD_and, mask_getLsbD hk]
    by_cases hi : k ≤ i ∧ i < k + 8
    · simp [h i hi.1 hi.2]
    · simp [decide_eq_false hi]

/-- Where the bits below `k` are clear and the byte at `k` is not zero, the table gives the lowest bit. -/
theorem lowestBit_byte {value : BitVec 32} {k : Nat} (hk : k ≤ 24)
    (hlow : ∀ i < k, value.getLsbD i = false) (hne : value &&& (0xff#32 <<< k) ≠ 0) :
    let b := lowestBitBitmap.getD ((value &&& (0xff#32 <<< k)) >>> k).toNat 0
    value.getLsbD (k + b) = true ∧ ∀ i < k + b, value.getLsbD i = false := by
  have hlt : ((value &&& (0xff#32 <<< k)) >>> k).toNat < 256 := by
    refine Nat.lt_of_not_le fun hle => ?_
    obtain ⟨i, hi, hbit⟩ := Nat.exists_ge_and_testBit_of_ge_two_pow (n := 8) hle
    rw [byte_testBit value hk i] at hbit
    simp [show ¬ i < 8 by omega] at hbit
  have hne' : ((value &&& (0xff#32 <<< k)) >>> k).toNat ≠ 0 := by
    intro h0
    refine hne ((and_mask_eq_zero_iff hk).mpr fun i hki hik => ?_)
    have hb := byte_testBit value hk (i - k)
    rw [h0, Nat.zero_testBit, Nat.add_sub_cancel' hki] at hb
    simpa [show i - k < 8 by omega] using hb
  obtain ⟨hset, hclear⟩ := lowestBitBitmap_spec _ hlt hne'
  rw [byte_testBit value hk] at hset
  simp only [Bool.and_eq_true, decide_eq_true_eq] at hset
  refine ⟨hset.2, fun i hi => ?_⟩
  by_cases hik : i < k
  · exact hlow i hik
  · have h := hclear (i - k) (by omega)
    rw [byte_testBit value hk, Nat.add_sub_cancel' (by omega)] at h
    simpa [show i - k < 8 by omega] using h

/-- **`__rt_ffs`** of a word that is not zero is one more than the index of its lowest bit. -/
theorem rtFfs_spec {value : BitVec 32} (h : value ≠ 0) :
    value.getLsbD (rtFfs value - 1) = true ∧ ∀ i < rtFfs value - 1, value.getLsbD i = false := by
  -- what is known of the bits below a byte when the bytes before it were zero
  have hlow : ∀ {k j : Nat}, k ≤ 24 → j = k + 8 → (∀ i < k, value.getLsbD i = false) →
      value &&& (0xff#32 <<< k) = 0 → ∀ i < j, value.getLsbD i = false := by
    rintro k j hk rfl hb h0 i hi
    by_cases hik : i < k
    · exact hb i hik
    · exact (and_mask_eq_zero_iff hk).mp h0 i (by omega) hi
  have hnone : ∀ i < 0, value.getLsbD i = false := fun i hi => absurd hi (Nat.not_lt_zero i)
  unfold rtFfs
  rw [if_neg h]
  split_ifs with h0 h1 h2
  · have hb := lowestBit_byte (k := 0) (by decide) hnone h0
    simpa [Nat.add_comm] using hb
  all_goals have hlow8 := hlow (k := 0) (by decide) rfl hnone (not_not.mp h0)
  · have hb := lowestBit_byte (k := 8) (by decide) hlow8 h1
    simpa [Nat.add_comm] using hb
  all_goals have hlow16 := hlow (k := 8) (by decide) rfl hlow8 (not_not.mp h1)
  · have hb := lowestBit_byte (k := 16) (by decide) hlow16 h2
    simpa [Nat.add_comm] using hb
  have hlow24 := hlow (k := 16) (by decide) rfl hlow16 (not_not.mp h2)
  have h3 : value &&& (0xff#32 <<< 24) ≠ 0 := fun h3 =>
    h (BitVec.eq_of_getLsbD_eq fun i hi => by
      simpa using hlow (k := 24) (by decide) rfl hlow24 h3 i hi)
  have hb := lowestBit_byte (k := 24) (by decide) hlow24 h3
  simpa [Nat.add_comm] using hb

/-! ## Setting and clearing the bits of a priority -/

/-- `RT_THREAD_PRIORITY_MAX`. -/
structure SchedCfg where
  prioMax : Nat
  prioMax_le : prioMax ≤ 256

/-- `RT_THREAD_PRIORITY_MAX > 32`: the bitmap has two levels. -/
def SchedCfg.wide (c : SchedCfg) : Bool := 32 < c.prioMax

/-- The bits of a priority, as a thread carries them; `number` and `highMask` are there in the wide case only. -/
structure PrioMask where
  number : Nat
  numberMask : BitVec 32
  highMask : BitVec 8

/-- The mask of a priority: "calculate priority attribute". The narrow case leaves `number` and `highMask`. -/
def prioMask (c : SchedCfg) (m : PrioMask) (prio : Nat) : PrioMask :=
  if c.wide then
    { number := prio >>> 3, numberMask := 1#32 <<< (prio >>> 3), highMask := 1#8 <<< (prio &&& 7) }
  else { m with numberMask := 1#32 <<< prio }

/-- `rt_thread_ready_priority_group` and `rt_thread_ready_table`. -/
structure ReadyBits where
  group : BitVec 32
  table : Nat → BitVec 8

namespace ReadyBits

/-- `rt_thread_ready_table[number] |= high_mask; rt_thread_ready_priority_group |= number_mask`. -/
def set (c : SchedCfg) (b : ReadyBits) (m : PrioMask) : ReadyBits :=
  let b := if c.wide then { b with table := Function.update b.table m.number (b.table m.number ||| m.highMask) }
    else b
  { b with group := b.group ||| m.numberMask }

/-- The statements of `rt_schedule_remove_thread` once the list of the priority is empty. -/
def clear (c : SchedCfg) (b : ReadyBits) (m : PrioMask) : ReadyBits :=
  if c.wide then
    let b := { b with table := Function.update b.table m.number (b.table m.number &&& ~~~ m.highMask) }
    if b.table m.number = 0 then { b with group := b.group &&& ~~~ m.numberMask } else b
  else { b with group := b.group &&& ~~~ m.numberMask }

/-- `highest_ready_priority` in `_get_highest_priority_thread`. -/
def highest (c : SchedCfg) (b : ReadyBits) : Nat :=
  if c.wide then
    let number := rtFfs b.group - 1
    (number <<< 3) + rtFfs ((b.table number).setWidth 32) - 1
  else rtFfs b.group - 1

end ReadyBits

/-- The bits mark exactly the priorities in `P`. -/
structure BitsOk (c : SchedCfg) (b : ReadyBits) (P : Nat → Prop) : Prop where
  narrow : c.wide = false → ∀ p < 32, b.group.getLsbD p = true ↔ P p
  wideTable : c.wide = true → ∀ p < 256, (b.table (p / 8)).getLsbD (p % 8) = true ↔ P p
  wideGroup : c.wide = true → ∀ n < 32, b.group.getLsbD n = true ↔ ∃ i < 8, P (8 * n + i)

section BitsOk

variable {c : SchedCfg} {b : ReadyBits} {P : Nat → Prop} {prio : Nat} {m : PrioMask}

theorem BitsOk.congr (h : BitsOk c b P) {P' : Nat → Prop} (hP : ∀ p, P p ↔ P' p) : BitsOk c b P' := by
  obtain rfl : P = P' := funext fun p => propext (hP p)
  exact h

theorem one_shiftLeft_getLsbD {w k i : Nat} (hk : k < w) :
    (1#w <<< k).getLsbD i = decide (i = k) := by
  rw [BitVec.getLsbD_shiftLeft, BitVec.getLsbD_one]
  by_cases hi : i = k
  · simp [hi, hk, show 0 < w by omega]
  · rw [decide_eq_false hi]
    by_cases hik : i < k
    · simp [hik]
    · simp [show ¬ i - k = 0 by omega]

/-- Clearing bit `k` of a word. -/
theorem and_not_getLsbD {w k i : Nat} (x : BitVec w) (hk : k < w) (hi : i < w) :
    (x &&& ~~~(1#w <<< k)).getLsbD i = true ↔ x.getLsbD i = true ∧ i ≠ k := by
  rw [BitVec.getLsbD_and, BitVec.getLsbD_not, one_shiftLeft_getLsbD hk, decide_eq_true hi, Bool.true_and,
    Bool.and_eq_true, Bool.not_eq_true', decide_eq_false_iff_not]

/-- **Setting** the bits of a priority adds it. -/
theorem BitsOk.set (h : BitsOk c b P) (hp : prio < c.prioMax) :
    BitsOk c (b.set c (prioMask c m prio)) fun p => P p ∨ p = prio := by
  have hmax := c.prioMax_le
  have hmod : prio &&& 7 = prio % 8 := Nat.and_two_pow_sub_one_eq_mod prio 3
  have hdiv : prio >>> 3 = prio / 8 := Nat.shiftRight_eq_div_pow prio 3
  constructor <;> intro hw <;> simp only [ReadyBits.set, prioMask, hw, if_true, hmod, hdiv]
  · intro p hp32
    have hp32' : prio < 32 := by
      simp only [SchedCfg.wide, decide_eq_false_iff_not] at hw
      omega
    simp [BitVec.getLsbD_or, one_shiftLeft_getLsbD hp32', h.narrow hw p hp32]
  · intro p hp256
    rw [Function.update_apply]
    split_ifs with hn
    · rw [BitVec.getLsbD_or, one_shiftLeft_getLsbD (by omega), Bool.or_eq_true, ← hn, h.wideTable hw p hp256,
        decide_eq_true_iff]
      exact or_congr_right (by omega)
    · rw [h.wideTable hw p hp256]
      exact ⟨Or.inl, fun h => h.resolve_right (by omega)⟩
  · intro n hn
    rw [BitVec.getLsbD_or, one_shiftLeft_getLsbD (by omega), Bool.or_eq_true, h.wideGroup hw n hn,
      decide_eq_true_iff]
    constructor
    · rintro (⟨i, hi, hP⟩ | rfl)
      · exact ⟨i, hi, Or.inl hP⟩
      · exact ⟨prio % 8, Nat.mod_lt _ (by decide), Or.inr (by omega)⟩
    · rintro ⟨i, hi, hP | rfl⟩
      · exact Or.inl ⟨i, hi, hP⟩
      · exact Or.inr (by omega)

/-- **Clearing** the bits of a priority takes it away. -/
theorem BitsOk.clear (h : BitsOk c b P) (hp : prio < c.prioMax) :
    BitsOk c (b.clear c (prioMask c m prio)) fun p => P p ∧ p ≠ prio := by
  have hmax := c.prioMax_le
  have hmod : prio &&& 7 = prio % 8 := Nat.and_two_pow_sub_one_eq_mod prio 3
  have hdiv : prio >>> 3 = prio / 8 := Nat.shiftRight_eq_div_pow prio 3
  by_cases hw : c.wide = true
  swap
  · rw [Bool.not_eq_true] at hw
    refine ⟨fun _ p hp32 => ?_, fun h => absurd h (by simp [hw]), fun h => absurd h (by simp [hw])⟩
    have hp32' : prio < 32 := by
      simp only [SchedCfg.wide, decide_eq_false_iff_not] at hw
      omega
    simp only [ReadyBits.clear, prioMask, hw, Bool.false_eq_true, if_false]
    rw [and_not_getLsbD _ hp32' hp32, h.narrow hw p hp32]
  · -- the entry of the priority's group of eight, with its bit cleared
    have hentry : ∀ i < 8, (b.table (prio / 8) &&& ~~~(1#8 <<< (prio % 8))).getLsbD i = true ↔
        P (8 * (prio / 8) + i) ∧ 8 * (prio / 8) + i ≠ prio := by
      intro i hi
      have ht := h.wideTable hw (8 * (prio / 8) + i) (by omega)
      rw [show (8 * (prio / 8) + i) / 8 = prio / 8 by omega, show (8 * (prio / 8) + i) % 8 = i by omega] at ht
      rw [and_not_getLsbD _ (by omega) hi, ht]
      exact and_congr_right fun _ => by omega
    have hzero : b.table (prio / 8) &&& ~~~(1#8 <<< (prio % 8)) = 0 ↔
        ¬ ∃ i < 8, P (8 * (prio / 8) + i) ∧ 8 * (prio / 8) + i ≠ prio := by
      constructor
      · rintro h0 ⟨i, hi, hP⟩
        have := (hentry i hi).mpr hP
        rw [h0] at this
        simp at this
      · intro hall
        refine BitVec.eq_of_getLsbD_eq fun i hi => ?_
        refine (Bool.eq_false_of_not_eq_true fun hb => ?_).trans (by simp)
        exact hall ⟨i, hi, (hentry i hi).mp hb⟩
    have htable : (b.clear c (prioMask c m prio)).table
        = Function.update b.table (prio / 8) (b.table (prio / 8) &&& ~~~(1#8 <<< (prio % 8))) := by
      simp only [ReadyBits.clear, prioMask, hw, if_true, hmod, hdiv]
      split_ifs <;> rfl
    have hgroup : (b.clear c (prioMask c m prio)).group
        = if b.table (prio / 8) &&& ~~~(1#8 <<< (prio % 8)) = 0 then
            b.group &&& ~~~(1#32 <<< (prio / 8)) else b.group := by
      simp only [ReadyBits.clear, prioMask, hw, if_true, hmod, hdiv, Function.update_self]
      split_ifs <;> rfl
    refine ⟨fun h => absurd h (by simp [hw]), fun _ p hp256 => ?_, fun _ n hn => ?_⟩
    · rw [htable, Function.update_apply]
      split_ifs with hpn
      · rw [hentry (p % 8) (Nat.mod_lt _ (by decide)), ← hpn, Nat.div_add_mod]
      · rw [h.wideTable hw p hp256]
        exact ⟨fun hP => ⟨hP, fun e => hpn (by rw [e])⟩, And.left⟩
    · rw [hgroup]
      by_cases hnp : n = prio / 8
      · subst hnp
        split_ifs with h0
        · rw [and_not_getLsbD _ hn hn]
          exact iff_of_false (fun hb => hb.2 rfl) (hzero.mp h0)
        · have hex := not_not.mp (mt hzero.mpr h0)
          rw [h.wideGroup hw _ hn]
          exact iff_of_true (hex.imp fun i hi => ⟨hi.1, hi.2.1⟩) hex
      · have hkeep : (∃ i < 8, P (8 * n + i)) ↔ ∃ i < 8, P (8 * n + i) ∧ 8 * n + i ≠ prio :=
          exists_congr fun i => and_congr_right fun hi =>
            ⟨fun hP => ⟨hP, fun e => hnp (by omega)⟩, And.left⟩
        split_ifs with h0
        · rw [and_not_getLsbD _ (by omega) hn, h.wideGroup hw n hn, and_iff_left hnp, hkeep]
        · rw [h.wideGroup hw n hn, hkeep]

/-- Clearing with the empty masks of a thread that was never started changes nothing. -/
theorem BitsOk.clear_zero (h : BitsOk c b P) (hn : m.numberMask = 0) (hh : m.highMask = 0) :
    BitsOk c (b.clear c m) P := by
  have hgroup : b.group &&& ~~~m.numberMask = b.group := by
    rw [hn, show ~~~(0 : BitVec 32) = BitVec.allOnes 32 by decide, BitVec.and_allOnes]
  have htable : Function.update b.table m.number (b.table m.number &&& ~~~m.highMask) = b.table := by
    rw [hh, show ~~~(0 : BitVec 8) = BitVec.allOnes 8 by decide, BitVec.and_allOnes, Function.update_eq_self]
  have hb : b.clear c m = b := by
    simp only [ReadyBits.clear, hgroup, htable]
    split_ifs <;> rfl
  rwa [hb]

/-- The group is zero exactly when no priority is marked. -/
theorem BitsOk.group_eq_zero_iff (h : BitsOk c b P) (hP : ∀ p, P p → p < c.prioMax) :
    b.group = 0 ↔ ∀ p, ¬ P p := by
  have hmax := c.prioMax_le
  constructor
  · intro h0 p hp
    have hlt := hP p hp
    by_cases hw : c.wide = true
    · have := (h.wideGroup hw (p / 8) (by omega)).mpr
        ⟨p % 8, Nat.mod_lt _ (by decide), by rwa [Nat.div_add_mod]⟩
      simp [h0] at this
    · rw [Bool.not_eq_true] at hw
      have hp32 : p < 32 := by
        simp only [SchedCfg.wide, decide_eq_false_iff_not] at hw
        omega
      simpa [h0] using (h.narrow hw p hp32).mpr hp
  · intro hall
    refine BitVec.eq_of_getLsbD_eq fun i hi => ?_
    refine (Bool.eq_false_of_not_eq_true fun hb => ?_).trans (by simp)
    by_cases hw : c.wide = true
    · obtain ⟨j, -, hP⟩ := (h.wideGroup hw i hi).mp hb
      exact hall _ hP
    · exact hall i ((h.narrow (by simpa using hw) i hi).mp hb)

theorem rtFfs_pos {value : BitVec 32} (h : value ≠ 0) : 0 < rtFfs value := by
  unfold rtFfs
  rw [if_neg h]
  split_ifs <;> omega

/-- Every set bit is at or above the one found. -/
theorem rtFfs_le {value : BitVec 32} (h : value ≠ 0) {i : Nat} (hi : value.getLsbD i = true) :
    rtFfs value - 1 ≤ i := by
  by_contra hlt
  rw [(rtFfs_spec h).2 i (by omega)] at hi
  simp at hi

/-- **`highest_ready_priority`** is the smallest priority marked. -/
theorem BitsOk.highest_spec (h : BitsOk c b P) (hP : ∀ p, P p → p < c.prioMax) (hne : b.group ≠ 0) :
    P (b.highest c) ∧ ∀ p, P p → b.highest c ≤ p := by
  have hmax := c.prioMax_le
  obtain ⟨hset, -⟩ := rtFfs_spec hne
  by_cases hw : c.wide = true
  · have hn : rtFfs b.group - 1 < 32 := BitVec.lt_of_getLsbD hset
    have hhigh : b.highest c
        = ((rtFfs b.group - 1) <<< 3) + rtFfs ((b.table (rtFfs b.group - 1)).setWidth 32) - 1 := by
      simp only [ReadyBits.highest, hw, if_true]
    have hlow : ∀ p, P p → rtFfs b.group - 1 ≤ p / 8 := fun p hp =>
      rtFfs_le hne ((h.wideGroup hw _ (by have := hP p hp; omega)).mpr
        ⟨p % 8, Nat.mod_lt _ (by decide), by rwa [Nat.div_add_mod]⟩)
    rw [Nat.shiftLeft_eq] at hhigh
    generalize rtFfs b.group - 1 = n at *
    have hentry : ∀ i, ((b.table n).setWidth 32).getLsbD i = true ↔ i < 8 ∧ P (8 * n + i) := by
      intro i
      by_cases hi : i < 8
      · have ht := h.wideTable hw (8 * n + i) (by omega)
        rw [show (8 * n + i) / 8 = n by omega, show (8 * n + i) % 8 = i by omega] at ht
        rw [BitVec.getLsbD_setWidth, decide_eq_true (by omega), Bool.true_and, ht, and_iff_right hi]
      · refine iff_of_false (fun hb => ?_) fun hb => hi hb.1
        rw [BitVec.getLsbD_setWidth, BitVec.getLsbD_of_ge _ _ (by omega)] at hb
        simp at hb
    have hentry_ne : (b.table n).setWidth 32 ≠ 0 := by
      obtain ⟨i, hi, hPi⟩ := (h.wideGroup hw n hn).mp hset
      intro h0
      have := (hentry i).mpr ⟨hi, hPi⟩
      rw [h0] at this
      simp at this
    have hpos := rtFfs_pos hentry_ne
    obtain ⟨hj, hPj⟩ := (hentry _).mp (rtFfs_spec hentry_ne).1
    have heq : b.highest c = 8 * n + (rtFfs ((b.table n).setWidth 32) - 1) := by omega
    rw [heq]
    refine ⟨hPj, fun p hp => ?_⟩
    have hpn := hlow p hp
    by_cases hpe : p / 8 = n
    · have := rtFfs_le hentry_ne ((hentry (p % 8)).mpr
        ⟨Nat.mod_lt _ (by decide), by rwa [← hpe, Nat.div_add_mod]⟩)
      omega
    · omega
  · rw [Bool.not_eq_true] at hw
    have hhigh : b.highest c = rtFfs b.group - 1 := by
      simp only [ReadyBits.highest, hw, Bool.false_eq_true, if_false]
    rw [hhigh]
    refine ⟨(h.narrow hw _ (BitVec.lt_of_getLsbD hset)).mp hset, fun p hp => rtFfs_le hne ?_⟩
    have hlt := hP p hp
    simp only [SchedCfg.wide, decide_eq_false_iff_not] at hw
    exact (h.narrow (by simpa [SchedCfg.wide] using hw) p (by omega)).mpr hp

end BitsOk

end CoreLink.RtThread
