/-
# `CoreLink.RtThread.VsnprintfBuffer` — what `rt_vsnprintf` writes into its buffer.

Every character is counted, and those that fit are stored; the rest is the pointer arithmetic. The end of the buffer is kept
from going around the address space, but the pointer that counts the characters is not: an output that goes around it is
stored from address 0 on, and one of 2 ^ 31 characters has no length as a `rt_int32_t`. `rt_vsnprintf_truncates_iff` says for
which outputs the function keeps its contract.
-/
import CoreLink.RtThread.Vsnprintf
import Mathlib.Data.List.GetD
import Mathlib.Data.List.Induction

namespace CoreLink.RtThread.Kservice

open CoreLink.Lib

/-- **The contract**: nothing is written outside of the buffer, which holds the characters that fit and a NUL, and the result
is the length of the output. -/
structure Truncates (mem : ℕ → Char) (buf size : ℕ) (fmt : List Char) (args : Args) (r : ℤ × (ℕ → Char)) : Prop where
  outside : ∀ a, a < buf ∨ buf + size ≤ a → r.2 a = mem a
  chars : ∀ (i : ℕ) (hi : i < (output args fmt).length), i < size - 1 → r.2 (buf + i) = (output args fmt)[i]
  nul : 0 < size → r.2 (buf + min (size - 1) (output args fmt).length) = Char.ofNat 0
  result : r.1 = (output args fmt).length

/-- **An output that the pointers can count**: its length is an `rt_int32_t`, and no pointer goes around the address space.
The end of a buffer that reaches over the address space is its last address, which the output must leave free. -/
structure Counted (buf size length : ℕ) : Prop where
  int : length < 2 ^ 31
  last : buf + length ≤ 2 ^ 32
  nul : 0 < size → buf + length < 2 ^ 32
  stop : 0 < size → 2 ^ 32 ≤ buf + size → buf + length + 1 < 2 ^ 32

/-! ## The characters -/

theorem put_mem (c : Char) (o : Out) (a : ℕ) : (Out.put c o).mem a = if o.str < o.stop ∧ a = o.str then c else o.mem a := by
  unfold Out.put
  dsimp only
  by_cases hfits : o.str < o.stop
  · rw [if_pos hfits, Function.update_apply]
    simp only [hfits, true_and]
  · rw [if_neg hfits, if_neg fun h => hfits h.1]

/-- **The characters in the buffer**: those in front of its end are stored, all are counted. The last one may be at the last
address. -/
theorem puts_out (l : List Char) (o : Out) (hstr : o.str < 2 ^ 32) (hend : o.str + l.length ≤ 2 ^ 32) :
    (puts Out.put l o).str = (o.str + l.length) % 2 ^ 32 ∧ (puts Out.put l o).stop = o.stop ∧
      ∀ a, (puts Out.put l o).mem a = if o.str ≤ a ∧ a < o.stop then l.getD (a - o.str) (o.mem a) else o.mem a := by
  induction l using List.reverseRecOn with
  | nil =>
    refine ⟨(Nat.mod_eq_of_lt hstr).symm, rfl, fun a => ?_⟩
    split <;> rfl
  | append_singleton l c ih =>
    rw [List.length_append, List.length_singleton] at hend ⊢
    obtain ⟨hlast, hstop, hmem⟩ := ih (by omega)
    rw [Nat.mod_eq_of_lt (by omega)] at hlast
    rw [puts_append, puts_cons, puts_nil]
    refine ⟨?_, hstop, fun a => ?_⟩
    · change ((puts Out.put l o).str + 1) % 2 ^ 32 = _
      rw [hlast, Nat.add_assoc]
    rw [put_mem, hmem a, hlast, hstop]
    obtain hlt | rfl | hgt := Nat.lt_trichotomy a (o.str + l.length)
    · rw [if_neg (by omega)]
      by_cases hin : o.str ≤ a ∧ a < o.stop
      · rw [if_pos hin, if_pos hin, List.getD_append _ _ _ _ (by omega)]
      · rw [if_neg hin, if_neg hin]
    · by_cases hin : o.str + l.length < o.stop
      · rw [if_pos ⟨hin, rfl⟩, if_pos ⟨by omega, hin⟩, Nat.add_sub_cancel_left, List.getD_append_right _ _ _ _ (Nat.le_refl _),
          Nat.sub_self]
        rfl
      · rw [if_neg fun h => hin h.1, if_neg fun h => hin h.2, if_neg fun h => hin h.2]
    · rw [if_neg (by omega)]
      by_cases hin : o.str ≤ a ∧ a < o.stop
      · rw [if_pos hin, if_pos hin, List.getD_eq_default _ _ (by omega),
          List.getD_eq_default _ _ (by rw [List.length_append, List.length_singleton]; omega)]
      · rw [if_neg hin, if_neg hin]

/-- **The call**: `end` is the end of the buffer, but no address behind the last one. -/
theorem rtVsnprintf_eq (mem : ℕ → Char) {buf size : ℕ} (fmt : List Char) (args : Args) (hbuf : buf < 2 ^ 32)
    (hsize : size < 2 ^ 32) (o : Out)
    (ho : o = puts Out.put (output args fmt) ⟨mem, buf, min (buf + size) (2 ^ 32 - 1)⟩) :
    rtVsnprintf mem buf size fmt args = (int32 ((o.str : ℤ) - buf),
      if 0 < size ∧ buf + 1 < 2 ^ 32 then Function.update o.mem (if o.str < o.stop then o.str else o.stop - 1) (Char.ofNat 0)
      else o.mem) := by
  unfold rtVsnprintf
  simp only [scan_output, decide_eq_true_eq]
  by_cases hwraps : (buf + size) % 2 ^ 32 < buf
  · rw [min_eq_right (by omega)] at ho
    simp only [hwraps, if_true, ← ho]
    have hroom : 0 < 2 ^ 32 - 1 - buf ↔ 0 < size ∧ buf + 1 < 2 ^ 32 := by omega
    simp only [hroom]
  · have hfits : buf + size < 2 ^ 32 := by omega
    rw [min_eq_left (by omega)] at ho
    rw [Nat.mod_eq_of_lt hfits] at hwraps ⊢
    simp only [hwraps, if_false, ← ho]
    have hroom : 0 < size ↔ 0 < size ∧ buf + 1 < 2 ^ 32 := by omega
    simp only [← hroom]

/-! ## The contract -/

section Contract

variable {buf size : ℕ} {fmt : List Char} {args : Args}

/-- **Truncation**, for an output that the pointers can count. -/
theorem truncates_of_counted (mem : ℕ → Char) (hbuf : buf < 2 ^ 32) (hsize : size < 2 ^ 32)
    (h : Counted buf size (output args fmt).length) : Truncates mem buf size fmt args (rtVsnprintf mem buf size fmt args) := by
  obtain ⟨hint, hlast, hnul, hover⟩ := h
  obtain ⟨hstr, hstop, hmem⟩ := puts_out (output args fmt) ⟨mem, buf, min (buf + size) (2 ^ 32 - 1)⟩ hbuf hlast
  dsimp only at hstr hstop hmem
  rw [rtVsnprintf_eq mem fmt args hbuf hsize _ rfl]
  generalize puts Out.put (output args fmt) ⟨mem, buf, min (buf + size) (2 ^ 32 - 1)⟩ = o at hstr hstop hmem ⊢
  rw [hstr, hstop]
  have hresult : int32 ((((buf + (output args fmt).length) % 2 ^ 32 : ℕ) : ℤ) - buf) = (output args fmt).length := by
    unfold int32
    omega
  by_cases hpos : 0 < size
  · specialize hnul hpos
    specialize hover hpos
    rw [if_pos ⟨hpos, by omega⟩, Nat.mod_eq_of_lt hnul]
    -- the place of the NUL
    have hplace : (if buf + (output args fmt).length < min (buf + size) (2 ^ 32 - 1) then buf + (output args fmt).length
        else min (buf + size) (2 ^ 32 - 1) - 1) = buf + min (size - 1) (output args fmt).length := by
      split <;> omega
    rw [hplace]
    refine ⟨fun a ha => ?_, fun i hi hfits => ?_, fun _ => Function.update_self .., ?_⟩
    · dsimp only
      rw [Function.update_of_ne (by omega), hmem, if_neg (by omega)]
    · dsimp only
      rw [Function.update_of_ne (by omega), hmem, if_pos (by omega), Nat.add_sub_cancel_left, List.getD_eq_getElem _ _ hi]
    · rwa [Nat.mod_eq_of_lt hnul] at hresult
  · rw [if_neg fun h => hpos h.1]
    refine ⟨fun a ha => ?_, fun i hi hfits => absurd hfits (by omega), fun h => absurd h hpos, hresult⟩
    dsimp only
    rw [hmem, if_neg (by omega)]

/-- The result is an `rt_int32_t`. -/
theorem length_of_result {mem : ℕ → Char} (h : Truncates mem buf size fmt args (rtVsnprintf mem buf size fmt args)) :
    (output args fmt).length < 2 ^ 31 := by
  have hresult := h.result
  have hrange := int32_range (((scan Out.put args fmt 0 ⟨mem, buf, if (buf + size) % 2 ^ 32 < buf then 2 ^ 32 - 1 else
    (buf + size) % 2 ^ 32⟩).str : ℤ) - buf)
  unfold rtVsnprintf at hresult
  simp only [decide_eq_true_eq] at hresult
  omega

/-- Past the last address the characters are stored from address 0 on. -/
theorem last_of_outside (h : ∀ mem, Truncates mem buf size fmt args (rtVsnprintf mem buf size fmt args)) (hbuf : buf < 2 ^ 32)
    (hsize : size < 2 ^ 32) (hint : (output args fmt).length < 2 ^ 31) : buf + (output args fmt).length ≤ 2 ^ 32 := by
  by_contra hover
  have hin : 2 ^ 32 - buf < (output args fmt).length := by omega
  -- a memory that does not hold the character at its address 0
  obtain ⟨c, hc⟩ : ∃ c, (output args fmt)[2 ^ 32 - buf] ≠ c := by
    by_cases hc : (output args fmt)[2 ^ 32 - buf] = 'a'
    · exact ⟨'b', by rw [hc]; decide⟩
    · exact ⟨'a', hc⟩
  have hkept := (h fun _ => c).outside 0 (Or.inl (by omega))
  rw [rtVsnprintf_eq (fun _ => c) fmt args hbuf hsize _ rfl, ← List.take_append_drop (2 ^ 32 - buf) (output args fmt),
    puts_append] at hkept
  obtain ⟨hturn, hstop, -⟩ := puts_out ((output args fmt).take (2 ^ 32 - buf)) ⟨fun _ => c, buf, min (buf + size) (2 ^ 32 - 1)⟩
    hbuf (by rw [List.length_take]; dsimp only; omega)
  rw [List.length_take] at hturn
  dsimp only at hturn hstop
  generalize puts Out.put ((output args fmt).take (2 ^ 32 - buf)) ⟨fun _ => c, buf, min (buf + size) (2 ^ 32 - 1)⟩ = turned
    at hkept hturn hstop
  replace hturn : turned.str = 0 := by rw [hturn]; omega
  obtain ⟨hstr, hstop', hmem⟩ := puts_out ((output args fmt).drop (2 ^ 32 - buf)) turned (by omega)
    (by rw [List.length_drop]; omega)
  specialize hmem 0
  rw [if_pos ⟨by omega, by omega⟩, hturn, List.getD_eq_getElem _ _ (by rw [List.length_drop]; omega), List.getElem_drop] at hmem
  rw [hturn, List.length_drop] at hstr
  dsimp only at hkept
  have hplace : (if (puts Out.put ((output args fmt).drop (2 ^ 32 - buf)) turned).str <
      (puts Out.put ((output args fmt).drop (2 ^ 32 - buf)) turned).stop then
        (puts Out.put ((output args fmt).drop (2 ^ 32 - buf)) turned).str
      else (puts Out.put ((output args fmt).drop (2 ^ 32 - buf)) turned).stop - 1) ≠ 0 := by
    rw [hstr, if_pos (by omega)]
    omega
  split at hkept
  · rw [Function.update_of_ne hplace.symm, hmem] at hkept
    exact hc hkept
  · exact hc (hmem.symm.trans hkept)

/-- A NUL that the contract asks for is one that the call writes. -/
theorem nul_of_truncates (h : ∀ mem, Truncates mem buf size fmt args (rtVsnprintf mem buf size fmt args)) (hbuf : buf < 2 ^ 32)
    (hsize : size < 2 ^ 32) (hint : (output args fmt).length < 2 ^ 31) (hpos : 0 < size) :
    buf + (output args fmt).length < 2 ^ 32 ∧ (2 ^ 32 ≤ buf + size → buf + (output args fmt).length + 1 < 2 ^ 32) := by
  have hlast := last_of_outside h hbuf hsize hint
  have hnul := (h fun _ => 'a').nul hpos
  have hkept := (h fun _ => 'a').outside 0
  rw [rtVsnprintf_eq (fun _ => 'a') fmt args hbuf hsize _ rfl] at hnul hkept
  obtain ⟨hstr, hstop, hmem⟩ := puts_out (output args fmt) ⟨fun _ => 'a', buf, min (buf + size) (2 ^ 32 - 1)⟩ hbuf hlast
  dsimp only at hstr hstop hmem hnul hkept
  generalize puts Out.put (output args fmt) ⟨fun _ => 'a', buf, min (buf + size) (2 ^ 32 - 1)⟩ = o at hstr hstop hmem hnul hkept
  have hchar : 'a' ≠ Char.ofNat 0 := by decide
  by_cases hroom : buf + 1 < 2 ^ 32
  · rw [if_pos ⟨hpos, hroom⟩, hstr, hstop] at hnul hkept
    have hbelow : buf + (output args fmt).length < 2 ^ 32 := by
      -- else the NUL is at address 0
      by_contra hturn
      rw [show buf + (output args fmt).length = 2 ^ 32 by omega, Nat.mod_self, if_pos (by omega), Function.update_self] at hkept
      exact hchar (hkept (Or.inl (by omega))).symm
    refine ⟨hbelow, fun hover => ?_⟩
    -- else it is on the last character
    by_contra hlast'
    rw [Nat.mod_eq_of_lt hbelow, if_neg (by omega), Function.update_of_ne (by omega), hmem, if_neg (by omega)] at hnul
    exact hchar hnul
  · rw [if_neg fun h => hroom h.2, hmem, if_neg (by omega)] at hnul
    exact absurd hnul hchar

/-- **What `rt_vsnprintf` keeps to**: for every memory, exactly if the pointers can count the output. -/
theorem rt_vsnprintf_truncates_iff (hbuf : buf < 2 ^ 32) (hsize : size < 2 ^ 32) :
    (∀ mem, Truncates mem buf size fmt args (rtVsnprintf mem buf size fmt args)) ↔
      Counted buf size (output args fmt).length := by
  constructor
  · intro h
    have hint := length_of_result (h fun _ => 'a')
    exact ⟨hint, last_of_outside h hbuf hsize hint, fun hpos => (nul_of_truncates h hbuf hsize hint hpos).1,
      fun hpos => (nul_of_truncates h hbuf hsize hint hpos).2⟩
  · exact fun h mem => truncates_of_counted mem hbuf hsize h

end Contract

/-- A format that ends inside a conversion, cut off by the buffer. -/
theorem rt_vsnprintf_truncates_short : Truncates (fun _ => 'x') 4096 3 ['a', '%', '%', '-', '%', '5']
    ⟨fun _ => 0#32, fun _ => []⟩ (rtVsnprintf (fun _ => 'x') 4096 3 ['a', '%', '%', '-', '%', '5']
      ⟨fun _ => 0#32, fun _ => []⟩) := by
  have hlength : (output ⟨fun _ => 0#32, fun _ => []⟩ ['a', '%', '%', '-', '%', '5']).length = 4 := by
    rw [output_eq]
    simp [outputFrom, conversion, scanSpec, scanFlags, scanNumber, scanPrecision, scanQualifier, skipAtoi]
  exact (rt_vsnprintf_truncates_iff (by omega) (by omega)).mpr
    (by rw [hlength]; exact ⟨by omega, by omega, fun _ => by omega, fun _ => by omega⟩) _

/-- `"%2147483647d%d"` of two zeros: the result of its 2 ^ 31 characters is negative. -/
theorem rt_vsnprintf_length_wraps : ∃ mem args, ¬Truncates mem 4096 64
    ['%', '2', '1', '4', '7', '4', '8', '3', '6', '4', '7', 'd', '%', 'd'] args
    (rtVsnprintf mem 4096 64 ['%', '2', '1', '4', '7', '4', '8', '3', '6', '4', '7', 'd', '%', 'd'] args) := by
  refine ⟨fun _ => 'a', ⟨fun _ => 0#32, fun _ => []⟩, fun h => absurd (length_of_result h) ?_⟩
  have hwide : scanSpec ⟨fun _ => 0#32, fun _ => []⟩ 0 ['2', '1', '4', '7', '4', '8', '3', '6', '4', '7', 'd', '%', 'd'] =
      ⟨{}, 2147483647, -1, none, ['d', '%', 'd'], 0⟩ := by
    simp [scanSpec, scanFlags, scanNumber, scanPrecision, scanQualifier, skipAtoi, int32]
  have hplain : scanSpec ⟨fun _ => 0#32, fun _ => []⟩ 1 ['d'] = ⟨{}, -1, -1, none, ['d'], 1⟩ := by
    simp [scanSpec, scanFlags, scanNumber, scanPrecision, scanQualifier]
  have hdigits : digitsOf { sign := true } 10 0#32 = ['0'] := rfl
  rw [output_eq, outputFrom, if_neg (by decide), hwide]
  simp [-List.reduceReplicate, conversion, numberKind, numberText, numberArg, magnitude, signOf, hdigits, digitCount, blanksOf, counted, int32,
    outputFrom, hplain]

end CoreLink.RtThread.Kservice
