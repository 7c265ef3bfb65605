/-
# `CoreLink.Shell.LineEditorRuns` — the line editor of finsh against the one that keeps the text as a list.

`Holds` ties the two together: the arrays hold the lines with zeros behind them. Every key keeps it where the line has room. Where
a character comes that takes the room of the terminator, the positions go back to the start and the bytes stay, and the next end of
a line runs them.
-/
import CoreLink.Shell.LineEditor
import Mathlib.Data.List.Forall2

namespace CoreLink.Shell.LineEditor

open CoreLink.Lib CoreLink.Lib.Buffer

/-! ## The simulation -/

/-- What the two editors agree on. -/
structure Holds (cfg : Config) (s : FinshShell) (e : Editor) : Prop where
  stat : s.stat = e.stat
  text : Line cfg e.text
  line : s.line = pad cfg e.text
  position : s.line_position = e.text.length
  curpos : s.line_curpos = e.before.length
  count : s.history_count = e.history.length
  current : s.current_history = e.current
  current_le : e.current ≤ e.history.length
  history_le : e.history.length ≤ cfg.historyLines
  history : ∀ l ∈ e.history, Line cfg l
  cmd_history : s.cmd_history =
    e.history.map (pad cfg) ++ List.replicate (cfg.historyLines - e.history.length) (List.replicate cfg.cmdSize 0)

/-- A command that is run with a line: the terminator is at `line_position`, and the line is the string in the array. -/
structure Command.Runs (c : Command) (line : List UInt8) : Prop where
  length : c.length = line.length
  nul : c.line[c.length]? = some 0
  string : cstring 0 c.line = some line

/-- The history is filled with the lines `hs`, and the place is behind them. -/
def FinshShell.withHistory (cfg : Config) (s : FinshShell) (hs : List (List UInt8)) : FinshShell :=
  { s with
    current_history := hs.length
    history_count := hs.length
    cmd_history := hs.map (pad cfg) ++ List.replicate (cfg.historyLines - hs.length) (List.replicate cfg.cmdSize 0) }

variable {cfg : Config} {table : List Syscall} {s s' : FinshShell} {e : Editor}

theorem holds_start (cfg : Config) : Holds cfg (FinshShell.start cfg) Editor.start where
  stat := rfl
  text := line_nil
  line := rfl
  position := rfl
  curpos := rfl
  count := rfl
  current := rfl
  current_le := le_rfl
  history_le := Nat.zero_le _
  history := fun _ h => absurd h List.not_mem_nil
  cmd_history := rfl

theorem inc8_eq {n : ℕ} (h : n + 1 < 2 ^ 8) : inc8 n = n + 1 := Nat.mod_eq_of_lt h

theorem dec8_eq {n : ℕ} (h : 0 < n) (hlt : n < 2 ^ 8) : dec8 n = n - 1 := by
  unfold dec8
  omega

theorem pad_append (a b : List UInt8) : pad cfg (a ++ b) = a ++ (b ++ List.replicate (cfg.cmdSize - (a.length + b.length)) 0) := by
  rw [pad, List.length_append, List.append_assoc]

theorem delete_pad {a b : List UInt8} {c : UInt8} (h : Line cfg (a ++ c :: b)) :
    FinshShell.delete (pad cfg (a ++ c :: b)) (a.length + b.length) a.length = some (pad cfg (a ++ b)) := by
  have hlt : a.length + (b.length + 1) < cfg.cmdSize := by simpa only [List.length_append, List.length_cons] using h.length_lt
  obtain ⟨k, hk⟩ : ∃ k, cfg.cmdSize - (a.length + b.length) = k + 1 := ⟨_, (Nat.succ_pred (by omega)).symm⟩
  have hk' : cfg.cmdSize - (a.length + (c :: b).length) = k := by rw [List.length_cons]; omega
  rw [pad_append, pad_append, hk, hk', List.replicate_succ, FinshShell.delete, List.cons_append]
  by_cases hin : a.length < a.length + b.length
  · rw [if_pos hin, Nat.add_sub_cancel_left]
    exact delete_eq
  · have hb : b = [] := List.eq_nil_of_length_eq_zero (by omega)
    rw [if_neg hin, hb]
    exact store_append a c _ 0

theorem insert_pad {a b : List UInt8} (h : (a ++ b).length < cfg.cmdSize) (ch : UInt8) :
    FinshShell.insert (pad cfg (a ++ b)) (a.length + b.length) a.length ch = some (pad cfg (a ++ ch :: b)) := by
  rw [List.length_append] at h
  obtain ⟨k, hk⟩ : ∃ k, cfg.cmdSize - (a.length + b.length) = k + 1 := ⟨_, (Nat.succ_pred (by omega)).symm⟩
  have hk' : cfg.cmdSize - (a.length + (ch :: b).length) = k := by rw [List.length_cons]; omega
  rw [pad_append, pad_append, hk, hk', List.replicate_succ, FinshShell.insert]
  by_cases hin : a.length < a.length + b.length
  · rw [if_pos hin, Nat.add_sub_cancel_left]
    exact insert_eq
  · have hb : b = [] := List.eq_nil_of_length_eq_zero (by omega)
    rw [if_neg hin, hb]
    exact store_append a 0 _ ch

theorem shell_step (s : FinshShell) (ch : UInt8) : s.step cfg table ch = match (s.stat.read ch).2 with
    | none => some ({ s with stat := (s.stat.read ch).1 }, [])
    | some key => FinshShell.press cfg table { s with stat := (s.stat.read ch).1 } key := rfl

theorem editor_step (e : Editor) (ch : UInt8) : e.step cfg table ch = match (e.stat.read ch).2 with
    | none => ({ e with stat := (e.stat.read ch).1 }, [])
    | some key => Editor.press cfg table { e with stat := (e.stat.read ch).1 } key := rfl

theorem finsh_thread_entry_cons (ch : UInt8) (chs : List UInt8) : s.finsh_thread_entry cfg table (ch :: chs) =
    (s.step cfg table ch).bind fun p => (p.1.finsh_thread_entry cfg table chs).map fun p' => (p'.1, p.2 ++ p'.2) := by
  rw [FinshShell.finsh_thread_entry]
  cases s.step cfg table ch with
  | none => rfl
  | some p =>
    rw [Option.bind_eq_bind, Option.bind_some, Option.bind_some, Option.map_eq_bind]
    rfl

theorem advance_line (s : FinshShell) : (s.advance cfg).line = s.line := by
  unfold FinshShell.advance
  split <;> rfl

namespace Holds

theorem position_lt (h : Holds cfg s e) : s.line_position < cfg.cmdSize := by
  rw [h.position]
  exact h.text.length_lt

theorem curpos_le (h : Holds cfg s e) : s.line_curpos ≤ s.line_position := by
  rw [h.position, h.curpos, Editor.text, List.length_append]
  omega

/-- Only the line is another one, with the cursor where it is. -/
theorem edit (h : Holds cfg s e) {before after : List UInt8} (htext : Line cfg (before ++ after)) :
    Holds cfg { s with line := pad cfg (before ++ after), line_position := (before ++ after).length, line_curpos := before.length }
      { e with before := before, after := after } :=
  { h with text := htext, line := rfl, position := rfl, curpos := rfl }

/-- **A line with its length taken**: the cursor is at the end. -/
theorem measure (h : Holds cfg s e) {l : List UInt8} (hl : Line cfg l) :
    ∃ s', FinshShell.measure { s with line := pad cfg l } = some s' ∧ Holds cfg s' { e with before := l, after := [] } := by
  have htext : Line cfg (l ++ []) := by rwa [List.append_nil]
  refine ⟨_, ?_, h.edit htext⟩
  simp only [FinshShell.measure, hl.strlen_pad, List.append_nil, Option.bind_eq_bind, Option.bind_some, hl.mod]

/-- **A line from the history.** -/
theorem copyHistory (h : Holds cfg s e) {i : ℕ} (hi : i < e.history.length) :
    ∃ s', FinshShell.copyHistory { s with current_history := i } = some s' ∧ Holds cfg s' (e.copyHistory i) := by
  have hget : e.history.getD i [] = e.history[i] := by
    rw [List.getD_eq_getElem?_getD, List.getElem?_eq_getElem hi, Option.getD_some]
  have hread : s.cmd_history[i]? = some (pad cfg (e.history.getD i [])) := by
    rw [h.cmd_history, List.getElem?_append_left (by rwa [List.length_map]), List.getElem?_map, List.getElem?_eq_getElem hi, hget]
    rfl
  have hline : Line cfg (e.history.getD i []) := by
    rw [hget]
    exact h.history _ (List.getElem_mem hi)
  have hplace : Holds cfg { s with current_history := i } { e with current := i } :=
    { h with current := rfl, current_le := hi.le }
  obtain ⟨s', hmeasure, hs'⟩ := hplace.measure hline
  refine ⟨s', ?_, hs'⟩
  rw [FinshShell.copyHistory, hread]
  exact hmeasure

theorem up (h : Holds cfg s e) :
    ∃ s', s.up = some s' ∧ Holds cfg s' (if 0 < e.current then e.copyHistory (e.current - 1) else e) := by
  rw [FinshShell.up, h.current]
  have hle := h.current_le
  split_ifs with hpos
  · exact h.copyHistory (by omega)
  · exact ⟨_, rfl, { h with current := by simp only; omega }⟩

theorem down (h : Holds cfg s e) : ∃ s', s.down = some s' ∧ Holds cfg s'
    (if e.current + 1 < e.history.length then e.copyHistory (e.current + 1)
      else if e.history ≠ [] then e.copyHistory (e.history.length - 1) else e) := by
  have hnext : s.current_history + 1 < s.history_count ↔ e.current + 1 < e.history.length := by rw [h.current, h.count]
  have hsome : s.history_count ≠ 0 ↔ e.history ≠ [] := by rw [h.count, ne_eq, List.length_eq_zero_iff]
  rw [FinshShell.down]
  by_cases hlt : e.current + 1 < e.history.length
  · rw [if_pos (hnext.mpr hlt), if_pos hlt, h.current]
    exact h.copyHistory hlt
  · rw [if_neg (hlt ∘ hnext.mp), if_neg hlt]
    by_cases hne : e.history ≠ []
    · rw [if_pos (hsome.mpr hne), if_pos hne]
      have hlast := h.copyHistory (Nat.sub_lt (List.length_pos_iff.mpr hne) Nat.one_pos)
      simpa only [h.count] using hlast
    · rw [if_neg (hne ∘ hsome.mp), if_neg hne]
      exact ⟨s, rfl, h⟩

/-- The cursor is at another place in the same line. -/
theorem move (h : Holds cfg s e) {before after : List UInt8} (htext : before ++ after = e.text) :
    Holds cfg { s with line_curpos := before.length } { e with before := before, after := after } :=
  have htext' : ({ e with before := before, after := after } : Editor).text = e.text := htext
  { h with
    text := htext'.symm ▸ h.text
    line := htext'.symm ▸ h.line
    position := htext'.symm ▸ h.position
    curpos := rfl }

theorem before_lt (h : Holds cfg s e) : e.before.length < 2 ^ 8 := by
  have hlt := h.text.length_lt
  have hle := cfg.cmdSize_le
  rw [Editor.text, List.length_append] at hlt
  omega

theorem left (h : Holds cfg s e) :
    Holds cfg s.left { e with before := e.before.dropLast, after := e.before.getLast?.toList ++ e.after } := by
  have hlt : s.line_curpos < 2 ^ 8 := h.curpos ▸ h.before_lt
  rcases List.eq_nil_or_concat' e.before with hnil | ⟨before, c, hbefore⟩
  · have hzero : s.line_curpos = 0 := by rw [h.curpos, hnil, List.length_nil]
    rw [FinshShell.left, if_neg (not_not.mpr hzero), hnil]
    change Holds cfg s { e with before := [] }
    rw [← hnil]
    exact h
  · have hcurpos : s.line_curpos = before.length + 1 := by rw [h.curpos, hbefore, List.length_append, List.length_singleton]
    have hdec : dec8 s.line_curpos = before.length := by
      rw [hcurpos, dec8_eq (Nat.succ_pos _) (by omega)]
      rfl
    have hne : s.line_curpos ≠ 0 := by rw [hcurpos]; exact Nat.succ_ne_zero _
    rw [FinshShell.left, if_pos hne, hdec, hbefore, List.dropLast_concat, List.getLast?_concat]
    exact h.move (by rw [Editor.text, hbefore]; simp)

theorem right (h : Holds cfg s e) :
    Holds cfg s.right { e with before := e.before ++ e.after.head?.toList, after := e.after.tail } := by
  have hlt := h.text.length_lt
  have hle := cfg.cmdSize_le
  have hposition := h.position
  rw [Editor.text, List.length_append] at hlt hposition
  cases hafter : e.after with
  | nil =>
    have hend : ¬s.line_curpos < s.line_position := by
      rw [h.curpos, hposition, hafter]
      exact Nat.lt_irrefl _
    rw [FinshShell.right, if_neg hend]
    simp only [List.head?_nil, Option.toList_none, List.append_nil, List.tail_nil]
    rw [← hafter]
    exact h
  | cons c after =>
    rw [hafter, List.length_cons] at hposition hlt
    have hin : s.line_curpos < s.line_position := by rw [h.curpos, hposition]; omega
    have hinc : inc8 s.line_curpos = (e.before ++ [c]).length := by
      rw [h.curpos, List.length_append, List.length_singleton]
      exact inc8_eq (by omega)
    rw [FinshShell.right, if_pos hin, hinc]
    exact h.move (by rw [Editor.text, hafter]; simp)

/-- **Completing.** -/
theorem tab (table : List Syscall) (h : Holds cfg s e) (hroom : (Editor.complete table e.text).length < cfg.cmdSize) :
    ∃ s', s.tab table = some s' ∧ Holds cfg s' { e with before := Editor.complete table e.text, after := [] } := by
  obtain ⟨hcommon, hnul⟩ := complete_spec table h.text.nul
  obtain ⟨s', hmeasure, hs'⟩ := h.measure ⟨hroom, hnul⟩
  refine ⟨s', ?_, hs'⟩
  rw [FinshShell.tab, h.line, msh_auto_complete_eq h.text, memcpy_pad hcommon.length_le hroom.le]
  exact hmeasure

/-- A completion that has no room does not fit into the array, or leaves no terminator. -/
theorem tab_none (table : List Syscall) (h : Holds cfg s e) (hroom : ¬(Editor.complete table e.text).length < cfg.cmdSize) :
    s.tab table = none := by
  obtain ⟨hcommon, hnul⟩ := complete_spec table h.text.nul
  rw [FinshShell.tab, h.line, msh_auto_complete_eq h.text, memcpy, length_pad h.text.length_lt.le]
  by_cases hle : (Editor.complete table e.text).length ≤ cfg.cmdSize
  · have hfull : (pad cfg e.text).drop (Editor.complete table e.text).length = [] := by
      apply List.drop_eq_nil_of_le
      rw [length_pad h.text.length_lt.le]
      exact Nat.not_lt.mp hroom
    rw [if_pos hle, hfull, List.append_nil]
    simp only [Option.bind_eq_bind, Option.bind_some, FinshShell.measure, strlen, cstring_none hnul, Option.map_none,
      Option.bind_none]
  · rw [if_neg hle]
    rfl

/-- **Deleting.** -/
theorem backspace (h : Holds cfg s e) :
    ∃ s', s.backspace = some s' ∧ Holds cfg s' { e with before := e.before.dropLast } := by
  have hle := cfg.cmdSize_le
  rcases List.eq_nil_or_concat' e.before with hnil | ⟨before, c, hbefore⟩
  · have hzero : s.line_curpos = 0 := by rw [h.curpos, hnil, List.length_nil]
    rw [FinshShell.backspace, if_pos hzero, hnil]
    refine ⟨s, rfl, ?_⟩
    change Holds cfg s { e with before := [] }
    rw [← hnil]
    exact h
  · have htext : e.text = before ++ c :: e.after := by rw [Editor.text, hbefore, List.append_assoc, List.singleton_append]
    have hlt : before.length + (e.after.length + 1) < cfg.cmdSize := by
      simpa only [htext, List.length_append, List.length_cons] using h.text.length_lt
    have hcurpos : s.line_curpos = before.length + 1 := by rw [h.curpos, hbefore, List.length_append, List.length_singleton]
    have hposition : s.line_position = before.length + (e.after.length + 1) := by
      rw [h.position, htext, List.length_append, List.length_cons]
    have hne : s.line_curpos ≠ 0 := by rw [hcurpos]; exact Nat.succ_ne_zero _
    have hcur : dec8 s.line_curpos = before.length := by
      rw [hcurpos, dec8_eq (Nat.succ_pos _) (by omega)]
      rfl
    have hpos : dec8 s.line_position = before.length + e.after.length := by
      rw [hposition, dec8_eq (by omega) (by omega)]
      omega
    have hrest : Line cfg (before ++ e.after) := by
      refine ⟨by rw [List.length_append]; omega, fun hz => h.text.nul ?_⟩
      rw [htext]
      exact (List.sublist_cons_self c e.after).append_left before |>.subset hz
    rw [hbefore, List.dropLast_concat]
    refine ⟨_, ?_, h.edit hrest⟩
    rw [FinshShell.backspace, if_neg hne, hcur, hpos, h.line, htext, delete_pad (htext ▸ h.text), List.length_append]
    rfl

/-- A character goes into the line before the positions move on. -/
theorem normal_eq (h : Holds cfg s e) (ch : UInt8) :
    s.normal cfg ch = some (FinshShell.advance cfg { s with line := pad cfg (e.before ++ ch :: e.after) }) := by
  have hkeep : s.discard cfg = s := if_neg (Nat.not_le.mpr h.position_lt)
  have hposition : s.line_position = e.before.length + e.after.length := by rw [h.position, Editor.text, List.length_append]
  have hinsert : FinshShell.insert s.line s.line_position s.line_curpos ch = some (pad cfg (e.before ++ ch :: e.after)) := by
    rw [h.line, hposition, h.curpos, Editor.text]
    exact insert_pad h.text.length_lt ch
  rw [FinshShell.normal, hkeep, hinsert]
  rfl

theorem line_insert (h : Holds cfg s e) {ch : UInt8} (hch : ch ≠ 0) (hroom : e.text.length + 1 < cfg.cmdSize) :
    Line cfg (e.before ++ [ch] ++ e.after) where
  length_lt := by
    rw [Editor.text, List.length_append] at hroom
    simp only [List.length_append, List.length_singleton]
    omega
  nul := by
    have hnul := h.text.nul
    simp only [Editor.text, List.mem_append, not_or] at hnul
    simp [hch.symm, hnul]

/-- **Inserting.** -/
theorem normal (h : Holds cfg s e) {ch : UInt8} (hch : ch ≠ 0) (hroom : e.text.length + 1 < cfg.cmdSize) :
    ∃ s', s.normal cfg ch = some s' ∧ Holds cfg s' { e with before := e.before ++ [ch] } := by
  have hle := cfg.cmdSize_le
  have htext : e.before ++ [ch] ++ e.after = e.before ++ ch :: e.after := by rw [List.append_assoc, List.singleton_append]
  have hinc : inc8 s.line_position = (e.before ++ [ch] ++ e.after).length := by
    rw [h.position, inc8_eq (by omega), htext, Editor.text, List.length_append, List.length_append, List.length_cons, Nat.add_assoc]
  have hinc' : inc8 s.line_curpos = (e.before ++ [ch]).length := by
    rw [Editor.text, List.length_append] at hroom
    rw [h.curpos, inc8_eq (by omega), List.length_append, List.length_singleton]
  have hline := h.line_insert hch hroom
  refine ⟨_, ?_, h.edit hline⟩
  have hin : ¬cfg.cmdSize ≤ inc8 s.line_position := by
    rw [hinc]
    exact Nat.not_le.mpr hline.length_lt
  rw [h.normal_eq, FinshShell.advance, if_neg hin, hinc, hinc', htext]

/-- **The overflow**: the positions are at the start, and there is no terminator in the array. -/
theorem normal_overflow (h : Holds cfg s e) {ch : UInt8} (hch : ch ≠ 0) (hroom : ¬e.text.length + 1 < cfg.cmdSize) :
    ∃ s', s.normal cfg ch = some s' ∧ s'.stat = s.stat ∧ s'.line_position = 0 ∧ s'.line[0]? ≠ some 0 := by
  have hlt := h.text.length_lt
  have hle := cfg.cmdSize_le
  have hfull : e.before.length + e.after.length + 1 = cfg.cmdSize := by
    rw [Editor.text, List.length_append] at hlt hroom
    omega
  have hzero : (FinshShell.advance cfg { s with line := pad cfg (e.before ++ ch :: e.after) }).line_position = 0 := by
    have hposition : s.line_position + 1 = cfg.cmdSize := by rw [h.position, Editor.text, List.length_append, hfull]
    unfold FinshShell.advance inc8
    split_ifs with hin
    · rfl
    · simp only at hin ⊢
      omega
  have hfirst : (pad cfg (e.before ++ ch :: e.after))[0]? ≠ some 0 := by
    have hnul : (0 : UInt8) ∉ e.before ++ ch :: e.after := by
      have hnul := h.text.nul
      simp only [Editor.text, List.mem_append, not_or] at hnul
      simp [hch.symm, hnul]
    intro hread
    rw [pad, List.getElem?_append_left (List.length_pos_of_ne_nil (by simp))] at hread
    exact hnul (List.mem_of_getElem? hread)
  refine ⟨_, h.normal_eq ch, ?_, hzero, ?_⟩
  · unfold FinshShell.advance
    split <;> rfl
  · rw [advance_line]
    exact hfirst

/-- A line is put into the history. -/
theorem slot_eq (h : Holds cfg s e) : s.slot cfg = some (pad cfg e.text) := by
  rw [FinshShell.slot, h.line, h.position, pad, List.take_left]
  exact memcpy_zeros h.text.length_lt.le

theorem sameAs_eq (h : Holds cfg s e) {i : ℕ} (hi : i + 1 = e.history.length) :
    s.sameAs i = some (decide (e.history.getLast? = some e.text)) := by
  have hin : i < e.history.length := by omega
  have hlast : e.history.getLast? = some e.history[i] := by
    rw [List.getLast?_eq_getElem?, ← hi, Nat.add_sub_cancel, List.getElem?_eq_getElem hin]
  have hread : s.cmd_history[i]? = some (pad cfg e.history[i]) := by
    rw [h.cmd_history, List.getElem?_append_left (by rwa [List.length_map]), List.getElem?_map, List.getElem?_eq_getElem hin]
    rfl
  have hiff : pad cfg e.history[i] = pad cfg e.text ↔ some e.history[i] = some e.text := by
    rw [(h.history _ (List.getElem_mem hin)).pad_inj h.text, Option.some_inj]
  rw [FinshShell.sameAs, hread, hlast, h.line, Option.map_some, decide_eq_decide.mpr hiff]

theorem isLast_eq (h : Holds cfg s e) : s.isLast = some (decide (e.history.getLast? = some e.text)) := by
  rw [FinshShell.isLast]
  split_ifs with hzero
  · rw [List.length_eq_zero_iff.mp (h.count.symm.trans hzero)]
    rfl
  · exact h.sameAs_eq (Nat.sub_add_cancel (Nat.pos_of_ne_zero hzero) |>.trans h.count)

/-- The history is another one, with the place behind it. -/
theorem withHistory (h : Holds cfg s e) {hs : List (List UInt8)} (hle : hs.length ≤ cfg.historyLines)
    (hall : ∀ l ∈ hs, Line cfg l) : Holds cfg (s.withHistory cfg hs) { e with history := hs, current := hs.length } :=
  { h with
    count := rfl
    current := rfl
    current_le := le_rfl
    history_le := hle
    history := hall
    cmd_history := rfl }

/-- Nothing is pushed. -/
theorem withHistory_self (h : Holds cfg s e) : { s with current_history := s.history_count } = s.withHistory cfg e.history := by
  rw [FinshShell.withHistory, ← h.cmd_history, ← h.count]

theorem remember_length_le (h : Holds cfg s e) (l : List UInt8) : (e.remember cfg l).length ≤ cfg.historyLines := by
  have hle := h.history_le
  unfold Editor.remember
  split_ifs
  · exact hle
  · rw [List.length_drop, List.length_append, List.length_singleton]
    omega

theorem line_of_mem_remember (h : Holds cfg s e) : ∀ l ∈ e.remember cfg e.text, Line cfg l := by
  intro l hl
  unfold Editor.remember at hl
  split_ifs at hl
  · exact h.history l hl
  · rcases List.mem_append.mp (List.mem_of_mem_drop hl) with hl | hl
    · exact h.history l hl
    · rw [List.mem_singleton.mp hl]
      exact h.text

theorem pushMoving_eq (h : Holds cfg s e) (hnil : e.text ≠ []) (hfull : cfg.historyLines ≤ e.history.length) :
    (s.pushMoving cfg).map (fun s => { s with current_history := s.history_count }) =
      some (s.withHistory cfg (e.remember cfg e.text)) := by
  have hlength : e.history.length = cfg.historyLines := Nat.le_antisymm h.history_le hfull
  have hpos := cfg.historyLines_pos
  have hsame := h.sameAs_eq (i := cfg.historyLines - 1) (by omega)
  unfold FinshShell.pushMoving
  rw [hsame, Option.bind_eq_bind, Option.bind_some]
  by_cases hlast : e.history.getLast? = some e.text
  · have hkeep : e.remember cfg e.text = e.history := if_pos (.inr hlast)
    rw [if_pos (decide_eq_true hlast), hkeep, ← h.withHistory_self]
    rfl
  · have hnew : e.remember cfg e.text = e.history.tail ++ [e.text] := by
      rw [Editor.remember, if_neg (not_or.mpr ⟨hnil, hlast⟩), hlength, Nat.add_sub_cancel_left, List.drop_one]
      exact List.tail_append_of_ne_nil (List.ne_nil_of_length_pos (by omega))
    have hnewLength : (e.history.tail ++ [e.text]).length = cfg.historyLines := by
      rw [List.length_append, List.length_tail, List.length_singleton]
      omega
    rw [if_neg (by simpa using hlast), h.slot_eq, hnew]
    simp only [Option.map_some, FinshShell.withHistory, hnewLength]
    rw [h.cmd_history, hlength, Nat.sub_self, List.replicate_zero, List.append_nil, List.append_nil, List.map_append, List.map_tail]
    rfl

theorem pushNext_eq (h : Holds cfg s e) (hnil : e.text ≠ []) (hroom : e.history.length < cfg.historyLines) :
    (s.pushNext cfg).map (fun s => { s with current_history := s.history_count }) =
      some (s.withHistory cfg (e.remember cfg e.text)) := by
  have hlt := cfg.historyLines_lt
  unfold FinshShell.pushNext
  rw [h.isLast_eq, Option.bind_eq_bind, Option.bind_some]
  by_cases hlast : e.history.getLast? = some e.text
  · have hkeep : e.remember cfg e.text = e.history := if_pos (.inr hlast)
    rw [if_pos (decide_eq_true hlast), hkeep, ← h.withHistory_self]
    rfl
  · have hnew : e.remember cfg e.text = e.history ++ [e.text] := by
      rw [Editor.remember, if_neg (not_or.mpr ⟨hnil, hlast⟩), Nat.sub_eq_zero_of_le hroom, List.drop_zero]
    obtain ⟨k, hk⟩ : ∃ k, cfg.historyLines - e.history.length = k + 1 := ⟨_, (Nat.succ_pred (by omega)).symm⟩
    have hk' : cfg.historyLines - (e.history.length + 1) = k := by omega
    have hstore : store s.cmd_history s.history_count (pad cfg e.text) =
        some ((e.history ++ [e.text]).map (pad cfg) ++ List.replicate k (List.replicate cfg.cmdSize 0)) := by
      have hplace := store_append (e.history.map (pad cfg)) (List.replicate cfg.cmdSize 0)
        (List.replicate k (List.replicate cfg.cmdSize 0)) (pad cfg e.text)
      rw [List.length_map] at hplace
      rw [h.cmd_history, h.count, hk, List.replicate_succ, hplace, List.map_append, List.append_assoc]
      rfl
    have hcount : (s.history_count + 1) % 2 ^ 16 = e.history.length + 1 := by
      rw [h.count]
      exact Nat.mod_eq_of_lt (by omega)
    rw [if_neg (by simpa using hlast), h.slot_eq, Option.bind_some, hstore, hcount, hnew]
    simp only [Option.map_some, FinshShell.withHistory, List.length_append, List.length_singleton, hk']

/-- **The history.** -/
theorem push (h : Holds cfg s e) : s.shell_push_history cfg = some (s.withHistory cfg (e.remember cfg e.text)) := by
  have hempty : s.line_position = 0 ↔ e.text = [] := by rw [h.position, List.length_eq_zero_iff]
  unfold FinshShell.shell_push_history
  by_cases hnil : e.text = []
  · have hkeep : e.remember cfg e.text = e.history := if_pos (.inl hnil)
    rw [if_pos (hempty.mpr hnil), hkeep, ← h.withHistory_self]
    rfl
  · rw [if_neg (hnil ∘ hempty.mp), h.count]
    split_ifs with hfull
    · exact h.pushMoving_eq hnil hfull
    · exact h.pushNext_eq hnil (Nat.not_le.mp hfull)

/-- **The end of a line.** -/
theorem enter (h : Holds cfg s e) : ∃ s' c, s.enter cfg = some (s', [c]) ∧ c.Runs e.text ∧
    Holds cfg s'
      { e with before := [], after := [], history := e.remember cfg e.text, current := (e.remember cfg e.text).length } := by
  have hempty : Line cfg ([] ++ []) := line_nil
  have hs' := (h.withHistory (h.remember_length_le e.text) h.line_of_mem_remember).edit hempty
  refine ⟨_, ⟨s.line, s.line_position⟩, ?_, ⟨h.position, ?_, ?_⟩, hs'⟩
  · rw [FinshShell.enter, h.push]
    rfl
  · rw [h.position, h.line, pad_eq h.text.length_lt]
    simp
  · rw [h.line]
    exact h.text.cstring_pad

/-- **A key.** -/
theorem press (h : Holds cfg s e) {key : Key} (hkey : ∀ c, key = .normal c → c ≠ 0) (hroom : e.RoomFor cfg table key) :
    ∃ s' cs, s.press cfg table key = some (s', cs) ∧ Holds cfg s' (e.press cfg table key).1 ∧
      List.Forall₂ Command.Runs cs (e.press cfg table key).2 := by
  cases key with
  | up =>
    obtain ⟨s', hs', h'⟩ := h.up
    exact ⟨s', [], by rw [FinshShell.press, hs']; rfl, h', .nil⟩
  | down =>
    obtain ⟨s', hs', h'⟩ := h.down
    exact ⟨s', [], by rw [FinshShell.press, hs']; rfl, h', .nil⟩
  | left => exact ⟨s.left, [], rfl, h.left, .nil⟩
  | right => exact ⟨s.right, [], rfl, h.right, .nil⟩
  | tab =>
    obtain ⟨s', hs', h'⟩ := h.tab table hroom
    exact ⟨s', [], by rw [FinshShell.press, hs']; rfl, h', .nil⟩
  | backspace =>
    obtain ⟨s', hs', h'⟩ := h.backspace
    exact ⟨s', [], by rw [FinshShell.press, hs']; rfl, h', .nil⟩
  | enter =>
    obtain ⟨s', c, hs', hc, h'⟩ := h.enter
    exact ⟨s', [c], hs', h', .cons hc .nil⟩
  | normal ch =>
    obtain ⟨s', hs', h'⟩ := h.normal (hkey ch rfl) hroom
    have hpress : (e.press cfg table (.normal ch)).1 = { e with before := e.before ++ [ch] } := if_pos hroom
    exact ⟨s', [], by rw [FinshShell.press, hs']; rfl, hpress ▸ h', .nil⟩

theorem wait (h : Holds cfg s e) (stat : InputStat) : Holds cfg { s with stat := stat } { e with stat := stat } :=
  { h with stat := rfl }

/-- **A byte.** -/
theorem step (h : Holds cfg s e) {ch : UInt8} (hroom : e.Room cfg table ch) :
    ∃ s' cs, s.step cfg table ch = some (s', cs) ∧ Holds cfg s' (e.step cfg table ch).1 ∧
      List.Forall₂ Command.Runs cs (e.step cfg table ch).2 := by
  have hwait := h.wait (e.stat.read ch).1
  rw [shell_step, editor_step, h.stat]
  cases hkey : (e.stat.read ch).2 with
  | none => exact ⟨_, [], rfl, hwait, .nil⟩
  | some key => exact hwait.press (fun c hc => read_normal (hkey.trans (congrArg some hc))) (hroom key hkey)

/-- **A run.** -/
theorem run (h : Holds cfg s e) {chs : List UInt8} (hrooms : e.Rooms cfg table chs) :
    ∃ s' cs, s.finsh_thread_entry cfg table chs = some (s', cs) ∧ Holds cfg s' (e.run cfg table chs).1 ∧
      List.Forall₂ Command.Runs cs (e.run cfg table chs).2 := by
  induction chs generalizing s e with
  | nil => exact ⟨s, [], rfl, h, .nil⟩
  | cons ch chs ih =>
    obtain ⟨s', cs, hstep, h', hcs⟩ := h.step hrooms.1
    obtain ⟨s'', cs', hrun, h'', hcs'⟩ := ih h' hrooms.2
    refine ⟨s'', cs ++ cs', ?_, h'', List.rel_append hcs hcs'⟩
    rw [finsh_thread_entry_cons, hstep, Option.bind_some, hrun]
    rfl

end Holds

/-! ## The runs -/

/-- What is expected of a run: the positions are in the line, and the commands are the lines of the ideal editor. -/
def Sound (cfg : Config) (table : List Syscall) (chs : List UInt8) : Prop :=
  ∃ s cs, (FinshShell.start cfg).finsh_thread_entry cfg table chs = some (s, cs) ∧ s.line_curpos ≤ s.line_position ∧
    s.line_position < cfg.cmdSize ∧ List.Forall₂ Command.Runs cs (Editor.start.run cfg table chs).2

theorem finsh_thread_entry_append (chs chs' : List UInt8) : s.finsh_thread_entry cfg table (chs ++ chs') =
    (s.finsh_thread_entry cfg table chs).bind fun p => (p.1.finsh_thread_entry cfg table chs').map fun p' => (p'.1, p.2 ++ p'.2) := by
  induction chs generalizing s with
  | nil => simp [FinshShell.finsh_thread_entry]
  | cons ch chs ih =>
    rw [List.cons_append, finsh_thread_entry_cons, finsh_thread_entry_cons]
    cases s.step cfg table ch with
    | none => rfl
    | some p =>
      rw [Option.bind_some, Option.bind_some, ih]
      cases p.1.finsh_thread_entry cfg table chs with
      | none => rfl
      | some q =>
        rw [Option.bind_some, Option.map_some, Option.bind_some, Option.map_map]
        simp only [Function.comp_def, List.append_assoc]

/-- The end of a line behind an overflow. -/
theorem enter_overflow (cfg : Config) (table : List Syscall) (hstat : s.stat = .waitNormal) (hposition : s.line_position = 0) :
    ∃ s', s.step cfg table 0x0d = some (s', [⟨s.line, 0⟩]) := by
  have hread : (s.stat.read 0x0d).2 = some .enter := by rw [hstat]; rfl
  have hpush : FinshShell.enter cfg { s with stat := (s.stat.read 0x0d).1 } =
      some ({ s with
        stat := (s.stat.read 0x0d).1
        current_history := s.history_count
        line := List.replicate cfg.cmdSize 0
        line_position := 0
        line_curpos := 0 }, [⟨s.line, 0⟩]) := by
    rw [FinshShell.enter, FinshShell.shell_push_history, if_pos hposition]
    simp only [Option.map_some, hposition]
  rw [shell_step, hread]
  exact ⟨_, hpush⟩

theorem nul_of_runs {cs : List Command} {lines : List (List UInt8)} (h : List.Forall₂ Command.Runs cs lines) :
    ∀ c ∈ cs, c.line[c.length]? = some 0 := by
  induction h with
  | nil => exact fun _ hc => absurd hc List.not_mem_nil
  | cons hc _ ih => exact List.forall_mem_cons.mpr ⟨hc.nul, ih⟩

/-- **Behind a key without room** the end of a line runs bytes without a terminator, or there is no end. -/
theorem end_of_line_without_room (h : Holds cfg s e) {ch : UInt8} (hroom : ¬e.Room cfg table ch) {s' : FinshShell}
    {cs : List Command} (hrun : s.finsh_thread_entry cfg table [ch, 0x0d] = some (s', cs)) :
    ∃ c ∈ cs, c.line[c.length]? ≠ some 0 := by
  obtain ⟨key, hkey, hfor⟩ : ∃ key ∈ (e.stat.read ch).2, ¬e.RoomFor cfg table key := by
    simpa only [Editor.Room, not_forall, exists_prop] using hroom
  have hread : (s.stat.read ch).2 = some key := by rw [h.stat]; exact hkey
  have hstep : s.step cfg table ch = FinshShell.press cfg table { s with stat := .waitNormal } key := by
    rw [shell_step, hread, read_key hread]
  have hwait := h.wait .waitNormal
  rw [finsh_thread_entry_cons, hstep] at hrun
  cases key with
  | tab =>
    rw [FinshShell.press, hwait.tab_none table hfor] at hrun
    cases hrun
  | normal c =>
    obtain ⟨s₁, hs₁, hstat, hposition, hline⟩ := hwait.normal_overflow (read_normal hread) hfor
    obtain ⟨s₂, henter⟩ := enter_overflow cfg table hstat hposition
    rw [FinshShell.press, hs₁, Option.map_some, Option.bind_some, finsh_thread_entry_cons, henter] at hrun
    obtain ⟨-, rfl⟩ := Prod.mk.inj (Option.some.inj hrun)
    exact ⟨⟨s₁.line, 0⟩, List.mem_singleton_self _, hline⟩
  | up => exact absurd trivial hfor
  | down => exact absurd trivial hfor
  | left => exact absurd trivial hfor
  | right => exact absurd trivial hfor
  | backspace => exact absurd trivial hfor
  | enter => exact absurd trivial hfor

/-- **The line editor.** Where every key of a run has room, the positions are in the line, and every end of a line runs the text
that the keys make in the ideal editor, with its terminator. Where a key comes that has none, this is lost at the next end of a
line. -/
theorem line_editor_sound {chs : List UInt8} (h : Editor.start.Rooms cfg table chs) :
    Sound cfg table chs ∧ ∀ ch, ¬(Editor.start.run cfg table chs).1.Room cfg table ch → ¬Sound cfg table (chs ++ [ch, 0x0d]) := by
  obtain ⟨s, cs, hrun, hs, hcs⟩ := (holds_start cfg).run h
  refine ⟨⟨s, cs, hrun, hs.curpos_le, hs.position_lt, hcs⟩, ?_⟩
  rintro ch hroom ⟨s', cs', hrun', -, -, hcs'⟩
  rw [finsh_thread_entry_append, hrun, Option.bind_some, Option.map_eq_some_iff] at hrun'
  obtain ⟨p, hlast, hp⟩ := hrun'
  obtain ⟨c, hc, hnul⟩ := end_of_line_without_room hs hroom hlast
  obtain ⟨-, rfl⟩ := Prod.mk.inj hp
  exact hnul (nul_of_runs hcs' c (List.mem_append_right _ hc))

/-- `b`, the left key, `a` and the end of the line. -/
theorem line_editor_sound_insert : Sound .rtconfig [] [0x62, 0x1b, 0x5b, 0x44, 0x61, 0x0d] ∧
    ∀ ch, ¬(Editor.start.run .rtconfig [] [0x62, 0x1b, 0x5b, 0x44, 0x61, 0x0d]).1.Room .rtconfig [] ch →
      ¬Sound .rtconfig [] ([0x62, 0x1b, 0x5b, 0x44, 0x61, 0x0d] ++ [ch, 0x0d]) :=
  line_editor_sound (by decide)

/-- The line is full with the 80th `a`: the positions go back, and `b` comes before the 79 that are left. -/
theorem line_editor_overflow : ¬Sound .rtconfig [] (List.replicate 80 0x61 ++ [0x62, 0x0d]) := by
  rintro ⟨s, cs, hrun, -, -, hcs⟩
  have hlast : ((FinshShell.start .rtconfig).finsh_thread_entry .rtconfig [] (List.replicate 80 0x61 ++ [0x62, 0x0d])).map Prod.snd =
      some [⟨0x62 :: List.replicate 79 0x61, 1⟩] := by
    decide +kernel
  rw [hrun, Option.map_some, Option.some_inj] at hlast
  obtain rfl : cs = _ := hlast
  exact absurd (nul_of_runs hcs _ List.mem_cons_self) (by decide)

end CoreLink.Shell.LineEditor
