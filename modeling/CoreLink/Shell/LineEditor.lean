/-
# `CoreLink.Shell.LineEditor` — the line editor of `finsh_thread_entry` (`finsh/shell.c`), with history and completion.

The build is the one of `rtconfig.h`: `FINSH_USING_MSH_ONLY` and `FINSH_USING_HISTORY`, without `RT_USING_DFS`. A key that would
touch a byte outside of `line` or `cmd_history`, or read a string without a terminator, has no result. What the editor prints is
left out. Beside the code stands an editor that keeps the text as a list, cut at the cursor.
-/
import CoreLink.Lib.Buffer
import CoreLink.Lib.CommonPrefix
import Mathlib.Algebra.Group.Nat.Defs

namespace CoreLink.Shell.LineEditor

open CoreLink.Lib CoreLink.Lib.Buffer

/-! ## Keys -/

/-- `enum input_stat`. -/
inductive InputStat
  | waitNormal
  | waitSpecKey
  | waitFuncKey
deriving DecidableEq, Repr

inductive Key
  | up
  | down
  | left
  | right
  | tab
  | backspace
  | enter
  | normal (ch : UInt8)
deriving DecidableEq, Repr

/-- A byte that is not part of a control key. -/
def plainKey (ch : UInt8) : Option Key :=
  if ch = 0 ∨ ch = 0xff then none
  else if ch = 0x09 then some .tab
  else if ch = 0x7f ∨ ch = 0x08 then some .backspace
  else if ch = 0x0d ∨ ch = 0x0a then some .enter
  else some (.normal ch)

/-- What the loop makes of a byte. A byte that cuts a control key short counts as itself. -/
def InputStat.read (stat : InputStat) (ch : UInt8) : InputStat × Option Key :=
  if ch = 0x1b then (.waitSpecKey, none)
  else match stat with
    | .waitNormal => (.waitNormal, plainKey ch)
    | .waitSpecKey => if ch = 0x5b then (.waitFuncKey, none) else (.waitNormal, plainKey ch)
    | .waitFuncKey =>
      (.waitNormal,
        if ch = 0x41 then some .up
        else if ch = 0x42 then some .down
        else if ch = 0x44 then some .left
        else if ch = 0x43 then some .right
        else plainKey ch)

/-! ## The code -/

/-- `FINSH_CMD_SIZE` and `FINSH_HISTORY_LINES`: the positions in a line are of 8 bits, the counters of the history of 16. -/
structure Config where
  cmdSize : ℕ
  historyLines : ℕ
  cmdSize_pos : 0 < cmdSize
  cmdSize_le : cmdSize ≤ 2 ^ 8
  historyLines_pos : 0 < historyLines
  historyLines_lt : historyLines < 2 ^ 16

/-- `rtconfig.h`. -/
def Config.rtconfig : Config := ⟨80, 10, by decide, by decide, by decide, by decide⟩

/-- A name in the symbol table. -/
structure Syscall where
  name : List UInt8
  terminated : 0 ∉ name

/-- `struct finsh_shell`. -/
structure FinshShell where
  stat : InputStat
  current_history : ℕ
  history_count : ℕ
  cmd_history : List (List UInt8)
  line : List UInt8
  line_position : ℕ
  line_curpos : ℕ
deriving DecidableEq, Repr

/-- What `msh_exec` is called with. -/
structure Command where
  line : List UInt8
  length : ℕ
deriving DecidableEq, Repr

/-- `strlen`. -/
def strlen (cells : List UInt8) : Option ℕ := (cstring 0 cells).map List.length

/-- `++` and `--` on a `rt_uint8_t`. -/
def inc8 (n : ℕ) : ℕ := (n + 1) % 2 ^ 8

def dec8 (n : ℕ) : ℕ := (n + (2 ^ 8 - 1)) % 2 ^ 8

/-! ### Completion -/

/-- `"__cmd_"`. -/
def cmdMark : List UInt8 := [0x5f, 0x5f, 0x63, 0x6d, 0x64, 0x5f]

/-- `str_common`, of two strings. -/
def str_common : List UInt8 → List UInt8 → ℕ
  | a :: str1, b :: str2 => if a = b then str_common str1 str2 + 1 else 0
  | _, _ => 0

/-- The variables `name_ptr` and `min_length`. -/
structure Match where
  name_ptr : Option (List UInt8)
  min_length : ℕ
deriving DecidableEq, Repr

/-- A command that begins with the text. -/
def Match.accept (m : Match) (cmd_name : List UInt8) : Match :=
  let m := if m.min_length = 0 then ⟨some cmd_name, cmd_name.length⟩ else m
  let length := str_common (m.name_ptr.getD []) cmd_name
  if length < m.min_length then { m with min_length := length } else m

/-- The body of the loop over the symbol table. -/
def Match.visit (text : List UInt8) (m : Match) (index : Syscall) : Match :=
  if index.name.take 6 ≠ cmdMark then m
  else if (index.name.drop 6).take text.length ≠ text then m
  else m.accept (index.name.drop 6)

/-- `msh_auto_complete`. -/
def msh_auto_complete (table : List Syscall) (line : List UInt8) : Option (List UInt8) := do
  let text ← cstring 0 line
  if text = [] then some line
  else
    let m := table.foldl (Match.visit text) ⟨none, 0⟩
    match m.name_ptr with
    | none => some line
    | some name => memcpy line (padded 0 name m.min_length)

/-! ### The keys -/

namespace FinshShell

section Keys

variable (cfg : Config) (table : List Syscall) (s : FinshShell)

/-- The shell as `rt_calloc` leaves it. -/
def start : FinshShell where
  stat := .waitNormal
  current_history := 0
  history_count := 0
  cmd_history := List.replicate cfg.historyLines (List.replicate cfg.cmdSize 0)
  line := List.replicate cfg.cmdSize 0
  line_position := 0
  line_curpos := 0

/-- `line_curpos = line_position = strlen(line)`. -/
def measure : Option FinshShell := do
  let n ← strlen s.line
  some { s with line_position := n % 2 ^ 8, line_curpos := n % 2 ^ 8 }

/-- Copying the history command. -/
def copyHistory : Option FinshShell := do
  let cmd ← s.cmd_history[s.current_history]?
  measure { s with line := cmd }

def up : Option FinshShell :=
  if 0 < s.current_history then copyHistory { s with current_history := s.current_history - 1 }
  else some { s with current_history := 0 }

def down : Option FinshShell :=
  if s.current_history + 1 < s.history_count then copyHistory { s with current_history := s.current_history + 1 }
  else if s.history_count ≠ 0 then copyHistory { s with current_history := s.history_count - 1 }
  else some s

def left : FinshShell := if s.line_curpos ≠ 0 then { s with line_curpos := dec8 s.line_curpos } else s

def right : FinshShell := if s.line_curpos < s.line_position then { s with line_curpos := inc8 s.line_curpos } else s

def tab : Option FinshShell := do
  let line ← msh_auto_complete table s.line
  measure { s with line := line }

/-- The line without the character at `curpos`, `position` characters of it. -/
def delete (line : List UInt8) (position curpos : ℕ) : Option (List UInt8) :=
  if curpos < position then (memmove line curpos (curpos + 1) (position - curpos)).bind (store · position 0)
  else store line position 0

def backspace : Option FinshShell :=
  if s.line_curpos = 0 then some s
  else (delete s.line (dec8 s.line_position) (dec8 s.line_curpos)).map fun line =>
    { s with line := line, line_position := dec8 s.line_position, line_curpos := dec8 s.line_curpos }

/-- `!memcmp(&cmd_history[i], line, FINSH_CMD_SIZE)`. -/
def sameAs (i : ℕ) : Option Bool := s.cmd_history[i]?.map fun cmd => cmd = s.line

/-- The line is the one that was pushed last. -/
def isLast : Option Bool := if s.history_count = 0 then some false else s.sameAs (s.history_count - 1)

/-- A slot of the history: zeros, and the first `line_position` bytes of the line. -/
def slot : Option (List UInt8) := memcpy (List.replicate cfg.cmdSize 0) (s.line.take s.line_position)

/-- The history is full: it moves. -/
def pushMoving : Option FinshShell := do
  if ← s.sameAs (cfg.historyLines - 1) then some s
  else (slot cfg s).map fun cmd => { s with cmd_history := s.cmd_history.tail ++ [cmd], history_count := cfg.historyLines }

/-- The history has a free slot. -/
def pushNext : Option FinshShell := do
  if ← s.isLast then some s
  else (slot cfg s).bind fun cmd => (store s.cmd_history s.history_count cmd).map fun cmd_history =>
    { s with
      current_history := s.history_count
      cmd_history := cmd_history
      history_count := (s.history_count + 1) % 2 ^ 16 }

def shell_push_history : Option FinshShell :=
  (if s.line_position = 0 then some s
    else if cfg.historyLines ≤ s.history_count then pushMoving cfg s
    else pushNext cfg s).map fun s => { s with current_history := s.history_count }

def enter : Option (FinshShell × List Command) :=
  (shell_push_history cfg s).map fun s =>
    ({ s with line := List.replicate cfg.cmdSize 0, line_position := 0, line_curpos := 0 }, [⟨s.line, s.line_position⟩])

/-- The line with a character at `curpos`, before `position` characters of it. -/
def insert (line : List UInt8) (position curpos : ℕ) (ch : UInt8) : Option (List UInt8) :=
  if curpos < position then (memmove line (curpos + 1) curpos (position - curpos)).bind (store · curpos ch)
  else store line position ch

/-- The guard before a character: a large line is discarded. -/
def discard : FinshShell := if cfg.cmdSize ≤ s.line_position then { s with line_position := 0 } else s

/-- Moving on, with the guard behind a character. -/
def advance : FinshShell :=
  if cfg.cmdSize ≤ inc8 s.line_position then { s with line_position := 0, line_curpos := 0 }
  else { s with line_position := inc8 s.line_position, line_curpos := inc8 s.line_curpos }

def normal (ch : UInt8) : Option FinshShell :=
  let s := discard cfg s
  (insert s.line s.line_position s.line_curpos ch).map fun line => advance cfg { s with line := line }

/-- One key, with the commands that it runs. -/
def press : Key → Option (FinshShell × List Command)
  | .up => s.up.map (·, [])
  | .down => s.down.map (·, [])
  | .left => some (s.left, [])
  | .right => some (s.right, [])
  | .tab => (s.tab table).map (·, [])
  | .backspace => s.backspace.map (·, [])
  | .enter => s.enter cfg
  | .normal ch => (s.normal cfg ch).map (·, [])

/-- One round of the loop of `finsh_thread_entry`. -/
def step (ch : UInt8) : Option (FinshShell × List Command) :=
  let (stat, key) := s.stat.read ch
  match key with
  | none => some ({ s with stat := stat }, [])
  | some key => press cfg table { s with stat := stat } key

/-- **`finsh_thread_entry`**, on the bytes there are. -/
def finsh_thread_entry : FinshShell → List UInt8 → Option (FinshShell × List Command)
  | s, [] => some (s, [])
  | s, ch :: chs => do
    let (s, commands) ← step cfg table s ch
    let (s, commands') ← finsh_thread_entry s chs
    some (s, commands ++ commands')

end Keys

end FinshShell

/-! ## The editor as it should be -/

/-- A line cut at the cursor, and the lines of the history with the place in it. -/
structure Editor where
  stat : InputStat
  before : List UInt8
  after : List UInt8
  history : List (List UInt8)
  current : ℕ
deriving DecidableEq, Repr

namespace Editor

section Keys

variable (cfg : Config) (table : List Syscall) (e : Editor)

def start : Editor := ⟨.waitNormal, [], [], [], 0⟩

def text : List UInt8 := e.before ++ e.after

/-- The line from the history, with the cursor at its end. -/
def copyHistory (current : ℕ) : Editor := { e with before := e.history.getD current [], after := [], current := current }

/-- The commands that begin with the text. -/
def candidates (text : List UInt8) : List (List UInt8) :=
  table.filterMap fun index => if cmdMark ++ text <+: index.name then some (index.name.drop 6) else none

/-- The text, completed as far as all commands agree that begin with it. -/
def complete (text : List UInt8) : List UInt8 :=
  match candidates table text with
  | [] => text
  | name :: names => if text = [] then text else names.foldl commonPrefix name

/-- The history with a line behind it; the oldest lines make room. -/
def remember (line : List UInt8) : List (List UInt8) :=
  if line = [] ∨ e.history.getLast? = some line then e.history
  else (e.history ++ [line]).drop (e.history.length + 1 - cfg.historyLines)

/-- A key, with the lines that it runs. A line that has no room for a terminator is given up. -/
def press : Key → Editor × List (List UInt8)
  | .up => (if 0 < e.current then e.copyHistory (e.current - 1) else e, [])
  | .down =>
    (if e.current + 1 < e.history.length then e.copyHistory (e.current + 1)
      else if e.history ≠ [] then e.copyHistory (e.history.length - 1)
      else e, [])
  | .left => ({ e with before := e.before.dropLast, after := e.before.getLast?.toList ++ e.after }, [])
  | .right => ({ e with before := e.before ++ e.after.head?.toList, after := e.after.tail }, [])
  | .tab => ({ e with before := complete table e.text, after := [] }, [])
  | .backspace => ({ e with before := e.before.dropLast }, [])
  | .enter =>
    ({ e with before := [], after := [], history := e.remember cfg e.text, current := (e.remember cfg e.text).length }, [e.text])
  | .normal ch =>
    (if e.text.length + 1 < cfg.cmdSize then { e with before := e.before ++ [ch] } else { e with before := [], after := [] }, [])

def step (ch : UInt8) : Editor × List (List UInt8) :=
  let (stat, key) := e.stat.read ch
  match key with
  | none => ({ e with stat := stat }, [])
  | some key => press cfg table { e with stat := stat } key

/-- The editor and the lines that were run, when the bytes are through. -/
def run : Editor → List UInt8 → Editor × List (List UInt8)
  | e, [] => (e, [])
  | e, ch :: chs => ((run (step cfg table e ch).1 chs).1, (step cfg table e ch).2 ++ (run (step cfg table e ch).1 chs).2)

/-- **The condition** on a key: a character comes only where a terminator fits behind it, and a completion only where it fits
with one. -/
def RoomFor : Key → Prop
  | .normal _ => e.text.length + 1 < cfg.cmdSize
  | .tab => (complete table e.text).length < cfg.cmdSize
  | _ => True

instance : DecidablePred (RoomFor cfg table e)
  | .normal _ => inferInstanceAs (Decidable (_ < _))
  | .tab => inferInstanceAs (Decidable (_ < _))
  | .up | .down | .left | .right | .backspace | .enter => inferInstanceAs (Decidable True)

/-- The condition on a byte. -/
def Room (ch : UInt8) : Prop := ∀ key ∈ (e.stat.read ch).2, RoomFor cfg table e key

/-- The condition on the bytes of a run. -/
def Rooms : Editor → List UInt8 → Prop
  | _, [] => True
  | e, ch :: chs => Room cfg table e ch ∧ Rooms (step cfg table e ch).1 chs

instance (ch : UInt8) : Decidable (Room cfg table e ch) := inferInstanceAs (Decidable (∀ key ∈ (e.stat.read ch).2, _))

instance decidableRooms : (e : Editor) → (chs : List UInt8) → Decidable (Rooms cfg table e chs)
  | _, [] => inferInstanceAs (Decidable True)
  | e, ch :: chs =>
    have := decidableRooms (step cfg table e ch).1 chs
    inferInstanceAs (Decidable (Room cfg table e ch ∧ Rooms cfg table (step cfg table e ch).1 chs))

end Keys

end Editor

/-! ## The keys of the two -/

theorem plainKey_normal {ch c : UInt8} (h : plainKey ch = some (.normal c)) : c ≠ 0 := by
  rintro rfl
  unfold plainKey at h
  split_ifs at h with hnull htab hback hend
  · simp at h
  · simp at h
  · simp at h
  · exact hnull (.inl (Key.normal.inj (Option.some.inj h)))

theorem read_normal {stat : InputStat} {ch c : UInt8} (h : (stat.read ch).2 = some (.normal c)) : c ≠ 0 := by
  cases stat <;> unfold InputStat.read at h <;> simp only at h <;> split_ifs at h <;>
    first | exact plainKey_normal h | simp at h

/-- A key that is complete leaves nothing to wait for. -/
theorem read_key {stat : InputStat} {ch : UInt8} {key : Key} (h : (stat.read ch).2 = some key) :
    (stat.read ch).1 = .waitNormal := by
  cases stat <;> unfold InputStat.read at h ⊢ <;> simp only at h ⊢ <;> split_ifs at h ⊢ <;> rfl

/-! ## Lines in arrays -/

section Arrays

variable {cfg : Config} {l m : List UInt8}

/-- A line that fits into the array with its terminator. -/
structure Line (cfg : Config) (l : List UInt8) : Prop where
  length_lt : l.length < cfg.cmdSize
  nul : 0 ∉ l

/-- The array that holds a line: zeros behind it. -/
def pad (cfg : Config) (l : List UInt8) : List UInt8 := l ++ List.replicate (cfg.cmdSize - l.length) 0

theorem length_pad (h : l.length ≤ cfg.cmdSize) : (pad cfg l).length = cfg.cmdSize := by
  rw [pad, List.length_append, List.length_replicate]
  omega

theorem pad_eq (h : l.length < cfg.cmdSize) : pad cfg l = l ++ 0 :: List.replicate (cfg.cmdSize - (l.length + 1)) 0 := by
  rw [pad, ← List.replicate_succ]
  congr 2
  omega

theorem line_nil : Line cfg [] := ⟨cfg.cmdSize_pos, List.not_mem_nil⟩

theorem Line.cstring_pad (h : Line cfg l) : cstring 0 (pad cfg l) = some l := by
  rw [pad_eq h.length_lt]
  exact cstring_append h.nul _

theorem Line.strlen_pad (h : Line cfg l) : strlen (pad cfg l) = some l.length := by
  rw [strlen, h.cstring_pad]
  rfl

theorem Line.pad_inj (hl : Line cfg l) (hm : Line cfg m) : pad cfg l = pad cfg m ↔ l = m := by
  constructor
  · intro h
    have hread := hl.cstring_pad
    rw [h, hm.cstring_pad] at hread
    exact (Option.some.inj hread).symm
  · exact congrArg _

theorem Line.mod (h : Line cfg l) : l.length % 2 ^ 8 = l.length :=
  Nat.mod_eq_of_lt (Nat.lt_of_lt_of_le h.length_lt cfg.cmdSize_le)

theorem memcpy_pad (h : m.length ≤ l.length) (hl : l.length ≤ cfg.cmdSize) : memcpy (pad cfg m) l = some (pad cfg l) := by
  have hpad : pad cfg m = (m ++ List.replicate (l.length - m.length) 0) ++ List.replicate (cfg.cmdSize - l.length) 0 := by
    rw [pad, List.append_assoc, List.replicate_append_replicate]
    congr 2
    omega
  rw [hpad]
  exact memcpy_append (by simp [h])

theorem memcpy_zeros (hl : l.length ≤ cfg.cmdSize) : memcpy (List.replicate cfg.cmdSize 0) l = some (pad cfg l) :=
  memcpy_pad (m := []) (Nat.zero_le _) hl

end Arrays

/-! ## Completion -/

section Completion

variable {cfg : Config} {table : List Syscall} {text : List UInt8}

theorem str_common_eq (l m : List UInt8) : str_common l m = (commonPrefix l m).length := by
  induction l generalizing m with
  | nil => cases m <;> rfl
  | cons a l ih =>
    cases m with
    | nil => rfl
    | cons b m =>
      rw [str_common, commonPrefix, ih]
      split <;> rfl

/-- The variables after the names. -/
def Match.of : List (List UInt8) → Match
  | [] => ⟨none, 0⟩
  | name :: names => ⟨some name, (names.foldl commonPrefix name).length⟩

theorem visit_eq (m : Match) (index : Syscall) :
    m.visit text index = if cmdMark ++ text <+: index.name then m.accept (index.name.drop 6) else m := by
  have hmark : index.name.take 6 = cmdMark ↔ cmdMark <+: index.name := by
    rw [List.prefix_iff_eq_take, eq_comm]
    rfl
  have htext : (index.name.drop 6).take text.length = text ↔ text <+: index.name.drop cmdMark.length := by
    rw [List.prefix_iff_eq_take, eq_comm]
    rfl
  rw [Match.visit, if_congr (append_prefix_iff.trans (and_congr hmark.symm htext.symm)) rfl rfl]
  by_cases h : index.name.take 6 = cmdMark
  · by_cases h' : (index.name.drop 6).take text.length = text
    · rw [if_neg (not_not.mpr h), if_neg (not_not.mpr h'), if_pos ⟨h, h'⟩]
    · rw [if_neg (not_not.mpr h), if_pos h', if_neg (fun hand => h' hand.2)]
  · rw [if_pos h, if_neg (fun hand => h hand.1)]

/-- **One command** of the loop. -/
theorem accept_of {cmd_name : List UInt8} {names : List (List UInt8)} (htext : text ≠ []) (hnames : ∀ n ∈ names, text <+: n) :
    (Match.of names).accept cmd_name = Match.of (names ++ [cmd_name]) := by
  cases names with
  | nil =>
    have hself : str_common cmd_name cmd_name = cmd_name.length := by rw [str_common_eq, commonPrefix_self]
    simp [Match.accept, Match.of, hself]
  | cons n names =>
    have hcommon : text <+: names.foldl commonPrefix n := by
      rw [prefix_foldl_commonPrefix_iff]
      exact List.forall_mem_cons.mp hnames
    have hne : (names.foldl commonPrefix n).length ≠ 0 := fun h =>
      htext (List.prefix_nil.mp (List.eq_nil_of_length_eq_zero h ▸ hcommon))
    have hcut : names.foldl commonPrefix n = n.take (names.foldl commonPrefix n).length :=
      List.prefix_iff_eq_take.mp (foldl_commonPrefix_le n names)
    have hlast : ((names ++ [cmd_name]).foldl commonPrefix n).length =
        min (commonPrefix n cmd_name).length (names.foldl commonPrefix n).length := by
      have hle : (commonPrefix n cmd_name).length ≤ n.length := (prefix_commonPrefix_iff.mp List.prefix_rfl).1.length_le
      rw [List.foldl_append, List.foldl_cons, List.foldl_nil, hcut, commonPrefix_take, ← hcut, List.length_take]
      omega
    rw [Match.of, Match.accept, if_neg hne, List.cons_append, Match.of, hlast, Option.getD_some, str_common_eq]
    split_ifs with hlt
    · rw [Nat.min_eq_left hlt.le]
    · rw [Nat.min_eq_right (Nat.not_lt.mp hlt)]

open Editor

theorem candidates_cons (index : Syscall) : candidates (index :: table) text =
    if cmdMark ++ text <+: index.name then index.name.drop 6 :: candidates table text else candidates table text := by
  unfold candidates
  rw [List.filterMap_cons]
  split_ifs <;> rfl

/-- **The loop** over the symbol table. -/
theorem visit_loop (htext : text ≠ []) {names : List (List UInt8)} (hnames : ∀ n ∈ names, text <+: n) :
    table.foldl (Match.visit text) (Match.of names) = Match.of (names ++ candidates table text) := by
  induction table generalizing names with
  | nil => simp [candidates]
  | cons index table ih =>
    rw [List.foldl_cons, visit_eq, candidates_cons]
    split_ifs with h
    · have hname : text <+: index.name.drop 6 := (append_prefix_iff.mp h).2
      have hnames' : ∀ n ∈ names ++ [index.name.drop 6], text <+: n := by
        intro n hn
        rcases List.mem_append.mp hn with hn | hn
        · exact hnames n hn
        · rw [List.mem_singleton.mp hn]
          exact hname
      rw [accept_of htext hnames, ih hnames', List.append_assoc, List.singleton_append]
    · exact ih hnames

theorem of_mem_candidates {n : List UInt8} (h : n ∈ candidates table text) : text <+: n ∧ 0 ∉ n := by
  obtain ⟨index, -, hindex⟩ := List.mem_filterMap.mp h
  split_ifs at hindex with hbegin
  rw [← Option.some.inj hindex]
  exact ⟨(append_prefix_iff.mp hbegin).2, fun hz => index.terminated (List.mem_of_mem_drop hz)⟩

/-- A completion begins with the text, and has no terminator in it. -/
theorem complete_spec (table : List Syscall) (h : 0 ∉ text) : text <+: complete table text ∧ 0 ∉ complete table text := by
  unfold complete
  have hall : ∀ n ∈ candidates table text, text <+: n ∧ 0 ∉ n := fun n hn => of_mem_candidates hn
  cases hc : candidates table text with
  | nil => exact ⟨List.prefix_rfl, h⟩
  | cons name names =>
    rw [hc] at hall
    split_ifs with hnil
    · exact ⟨List.prefix_rfl, h⟩
    · constructor
      · rw [prefix_foldl_commonPrefix_iff]
        exact List.forall_mem_cons.mp fun n hn => (hall n hn).1
      · intro hz
        exact (hall name List.mem_cons_self).2 ((foldl_commonPrefix_le name names).subset hz)

/-- **`msh_auto_complete`** writes the completion over the text. -/
theorem msh_auto_complete_eq (h : Line cfg text) :
    msh_auto_complete table (pad cfg text) = memcpy (pad cfg text) (complete table text) := by
  have hself : memcpy (pad cfg text) text = some (pad cfg text) := memcpy_pad le_rfl h.length_lt.le
  unfold msh_auto_complete
  rw [h.cstring_pad]
  by_cases hnil : text = []
  · subst hnil
    have hcomplete : complete table [] = [] := by
      unfold complete
      split
      · rfl
      · exact if_pos rfl
    rw [hcomplete, hself]
    rfl
  · have hloop : table.foldl (Match.visit text) ⟨none, 0⟩ = Match.of (candidates table text) :=
      visit_loop hnil fun _ hn => absurd hn List.not_mem_nil
    simp only [Option.bind_eq_bind, Option.bind_some, if_neg hnil, hloop]
    unfold complete
    cases candidates table text with
    | nil => exact hself.symm
    | cons name names =>
      have hcommon := foldl_commonPrefix_le name names
      have hwritten : padded 0 name (names.foldl commonPrefix name).length = names.foldl commonPrefix name := by
        rw [padded, List.take_append_of_le_length hcommon.length_le, ← List.prefix_iff_eq_take.mp hcommon]
      simp only [Match.of, hwritten, if_neg hnil]

end Completion

end CoreLink.Shell.LineEditor
