/-
# `CoreLink.Shell.MshSplit` — `msh_split` of `finsh/msh.c`: a command line cut into arguments in place.

The memory from the start of the line on is a list of bytes. A byte outside of it can neither be read nor written. The arguments
come out as offsets into it, and the bytes behind them have become terminators.
-/
import CoreLink.Lib.Terminated
import Mathlib.Data.List.Forall2

namespace CoreLink.Shell

open CoreLink.Lib

/-! ## The function -/

def quote : UInt8 := 0x22

def backslash : UInt8 := 0x5c

/-- A blank or a tab. -/
def isBlank (c : UInt8) : Bool := c = 0x20 ∨ c = 0x09

/-- The variables of `msh_split`, with the memory behind `cmd`. -/
structure Split where
  cells : List UInt8
  ptr : ℕ
  position : ℕ
  /-- Offsets, of which there are `argc`. -/
  argv : List ℕ
deriving DecidableEq, Repr

namespace Split

/-- `*ptr`. -/
def deref (s : Split) : Option UInt8 := s.cells[s.ptr]?

/-- `ptr ++; position ++`. -/
def advance (s : Split) : Split := { s with ptr := s.ptr + 1, position := s.position + 1 }

/-- `*ptr = '\0'`. -/
def terminate (s : Split) : Option Split :=
  if s.ptr < s.cells.length then some { s with cells := s.cells.set s.ptr 0 } else none

/-- `argv[argc] = ptr; argc ++`. -/
def addArg (s : Split) : Split := { s with argv := s.argv ++ [s.ptr] }

/-- The loop that strips blanks and tabs, with a bound on the rounds like all of them. -/
def stripBlanks (length : ℕ) : ℕ → Split → Option Split
  | 0, _ => none
  | rounds + 1, s => do
    let c ← s.deref
    if isBlank c ∧ s.position < length then stripBlanks length rounds (← s.terminate).advance else some s

/-- The loop that skips a string. -/
def skipString (length : ℕ) : ℕ → Split → Option Split
  | 0, _ => none
  | rounds + 1, s => do
    let c ← s.deref
    if c ≠ quote ∧ s.position < length then
      if c = backslash then do
        let next ← s.advance.deref
        if next = quote then skipString length rounds s.advance.advance else skipString length rounds s.advance
      else skipString length rounds s.advance
    else some s

/-- The loop that skips a word. -/
def skipWord (length : ℕ) : ℕ → Split → Option Split
  | 0, _ => none
  | rounds + 1, s => do
    let c ← s.deref
    if ¬isBlank c ∧ s.position < length then skipWord length rounds s.advance else some s

/-- The outer loop; `argMax` is `FINSH_ARG_MAX`. -/
def loop (argMax length : ℕ) : ℕ → Split → Option Split
  | 0, _ => none
  | rounds + 1, s =>
    if s.position < length then do
      let s ← stripBlanks length (length + 1) s
      -- the message about too many arguments changes nothing
      if argMax ≤ s.argv.length then some s
      else if length ≤ s.position then some s
      else do
        let c ← s.deref
        if c = quote then do
          let s ← skipString length (length + 1) s.advance.addArg
          if length ≤ s.position then some s else loop argMax length rounds (← s.terminate).advance
        else do
          let s ← skipWord length (length + 1) s.addArg
          if length ≤ s.position then some s else loop argMax length rounds s
    else some s

end Split

/-- **`msh_split`**: the memory afterwards, and the arguments. -/
def msh_split (argMax : ℕ) (cmd : List UInt8) (length : ℕ) : Option (List UInt8 × List ℕ) :=
  (Split.loop argMax length (length + 1) ⟨cmd, 0, 0, []⟩).map fun s => (s.cells, s.argv)

/-! ## Command lines -/

/-- No quote without a backslash before it, and no backslash at the end, behind a first character. -/
def Escaped : UInt8 → List UInt8 → Prop
  | prev, [] => prev ≠ backslash
  | prev, c :: cs => (c = quote → prev = backslash) ∧ Escaped c cs

/-- An argument as it is written. -/
inductive Arg
  | word (w : List UInt8)
  | quoted (body : List UInt8)

namespace Arg

/-- A word is not empty and has neither blanks nor quotes; a body has no quote that would end it. -/
def Valid : Arg → Prop
  | word w => w ≠ [] ∧ 0 ∉ w ∧ quote ∉ w ∧ ∀ c ∈ w, isBlank c = false
  | quoted body => 0 ∉ body ∧ Escaped quote body

/-- What the command is to get. -/
def contents : Arg → List UInt8
  | word w => w
  | quoted body => body

/-- The text on the command line. -/
def text : Arg → List UInt8
  | word w => w
  | quoted body => quote :: (body ++ [quote])

/-- What the text has become. -/
def written : Arg → List UInt8
  | word w => w
  | quoted body => quote :: (body ++ [0])

/-- Where in the text the contents begin. -/
def skip : Arg → ℕ
  | word _ => 0
  | quoted _ => 1

end Arg

/-- Arguments with the blanks before each. -/
abbrev Line := List (List UInt8 × Arg)

namespace Line

/-- Blanks and arguments are what they should be, and there are blanks between two arguments. -/
structure Valid (line : Line) : Prop where
  blank : ∀ piece ∈ line, ∀ c ∈ piece.1, isBlank c = true
  arg : ∀ piece ∈ line, piece.2.Valid
  apart : ∀ piece ∈ line.tail, piece.1 ≠ []

def render (line : Line) : List UInt8 := line.flatMap fun piece => piece.1 ++ piece.2.text

def written (line : Line) : List UInt8 := line.flatMap fun piece => List.replicate piece.1.length 0 ++ piece.2.written

/-- Where the contents of the arguments begin, from `start` on. -/
def offsets : ℕ → Line → List ℕ
  | _, [] => []
  | start, (blanks, arg) :: line =>
    (start + blanks.length + arg.skip) :: offsets (start + blanks.length + arg.text.length) line

end Line

/-! ## The loops -/

namespace Split

variable {done rest : List UInt8} {c : UInt8} {argv : List ℕ} {length rounds : ℕ}

/-- Before the bytes `rest`, with `done` behind. -/
def before (done rest : List UInt8) (argv : List ℕ) : Split := ⟨done ++ rest, done.length, done.length, argv⟩

@[simp] theorem deref_before : (before done (c :: rest) argv).deref = some c := by
  unfold deref before
  simp

@[simp] theorem position_before : (before done rest argv).position = done.length := rfl

@[simp] theorem argv_before : (before done rest argv).argv = argv := rfl

theorem advance_before : (before done (c :: rest) argv).advance = before (done ++ [c]) rest argv := by
  unfold advance before
  simp

theorem terminate_before : (before done (c :: rest) argv).terminate = some (before done (0 :: rest) argv) := by
  unfold terminate before
  simp

theorem addArg_before : (before done rest argv).addArg = before done rest (argv ++ [done.length]) := rfl

/-- **Blanks** become terminators. -/
theorem stripBlanks_before {blanks : List UInt8} (hc : isBlank c = false) : ∀ (done : List UInt8) (rounds : ℕ),
    (∀ b ∈ blanks, isBlank b = true) → blanks.length < rounds → done.length + blanks.length ≤ length →
    stripBlanks length rounds (before done (blanks ++ c :: rest) argv) =
      some (before (done ++ List.replicate blanks.length 0) (c :: rest) argv) := by
  induction blanks with
  | nil =>
    intro done rounds _ hrounds _
    obtain ⟨rounds, rfl⟩ := Nat.exists_eq_succ_of_ne_zero hrounds.ne'
    simp [stripBlanks, hc]
  | cons b blanks ih =>
    intro done rounds hblank hrounds hlength
    obtain ⟨rounds, rfl⟩ := Nat.exists_eq_succ_of_ne_zero (Nat.ne_of_gt (Nat.zero_lt_of_lt hrounds))
    rw [List.length_cons] at hrounds hlength
    have hb : isBlank b = true := hblank b List.mem_cons_self
    have hgo : isBlank b = true ∧ done.length < length := ⟨hb, by omega⟩
    have hstep := ih (done ++ [0]) rounds (fun b' h => hblank b' (List.mem_cons_of_mem b h)) (by omega)
      (by rw [List.length_append, List.length_singleton]; omega)
    rw [List.cons_append, stripBlanks, deref_before]
    simp only [Option.bind_eq_bind, Option.bind_some, position_before, if_pos hgo, terminate_before, advance_before, hstep]
    simp [List.replicate_succ]

/-- **A word** ends before a blank, or at the end of the line. -/
theorem skipWord_before {w : List UInt8} : ∀ (done : List UInt8) (rounds : ℕ), (∀ b ∈ w, isBlank b = false) → w.length < rounds →
    done.length + w.length ≤ length → (isBlank c = true ∨ done.length + w.length = length) →
    skipWord length rounds (before done (w ++ c :: rest) argv) = some (before (done ++ w) (c :: rest) argv) := by
  induction w with
  | nil =>
    intro done rounds _ hrounds _ hstop
    obtain ⟨rounds, rfl⟩ := Nat.exists_eq_succ_of_ne_zero hrounds.ne'
    have hend : ¬(¬isBlank c = true ∧ done.length < length) := by
      rintro ⟨hblank, hlt⟩
      rcases hstop with hc | hlength
      · exact hblank hc
      · exact hlt.ne hlength
    rw [List.nil_append, skipWord, deref_before, Option.bind_eq_bind, Option.bind_some, position_before, if_neg hend,
      List.append_nil]
  | cons b w ih =>
    intro done rounds hword hrounds hlength hstop
    obtain ⟨rounds, rfl⟩ := Nat.exists_eq_succ_of_ne_zero (Nat.ne_of_gt (Nat.zero_lt_of_lt hrounds))
    rw [List.length_cons] at hrounds hlength hstop
    have hgo : ¬isBlank b = true ∧ done.length < length := ⟨by simp [hword b List.mem_cons_self], by omega⟩
    have hdone : (done ++ [b]).length = done.length + 1 := List.length_append
    rw [List.cons_append, skipWord, deref_before, Option.bind_eq_bind, Option.bind_some, position_before, if_pos hgo,
      advance_before, ih (done ++ [b]) rounds (fun b' h => hword b' (List.mem_cons_of_mem b h)) (by omega) (by omega)
        (hstop.imp_right fun h => by omega), List.append_assoc, List.singleton_append]

/-- **A string** ends at the first quote that has no backslash before it. The rest of a body never starts with a quote: its first
character is the one behind the opening quote, behind a character that is no backslash, or behind an escaped quote. -/
theorem skipString_before (n : ℕ) : ∀ (prev : UInt8) (body done : List UInt8) (rounds : ℕ), body.length ≤ n → Escaped prev body →
    body.head? ≠ some quote → body.length < rounds → done.length + body.length < length →
    skipString length rounds (before done (body ++ quote :: rest) argv) = some (before (done ++ body) (quote :: rest) argv) := by
  induction n with
  | zero =>
    intro prev body done rounds hn _ _ hrounds _
    obtain rfl := List.eq_nil_of_length_eq_zero (Nat.le_zero.mp hn)
    obtain ⟨rounds, rfl⟩ := Nat.exists_eq_succ_of_ne_zero hrounds.ne'
    simp [skipString]
  | succ n ih =>
    intro prev body done rounds hn hescaped hhead hrounds hlength
    obtain ⟨rounds, rfl⟩ := Nat.exists_eq_succ_of_ne_zero (Nat.ne_of_gt (Nat.zero_lt_of_lt hrounds))
    cases body with
    | nil => simp [skipString]
    | cons c body =>
      rw [List.length_cons] at hn hrounds hlength
      have hdone : (done ++ [c]).length = done.length + 1 := List.length_append
      have hc : c ≠ quote := fun h => hhead (congrArg some h)
      have hgo : c ≠ quote ∧ done.length < length := ⟨hc, by omega⟩
      have hrest := hescaped.2
      -- one character is skipped
      have hone : body.head? ≠ some quote →
          skipString length rounds (before (done ++ [c]) (body ++ quote :: rest) argv) =
            some (before (done ++ c :: body) (quote :: rest) argv) := fun h => by
        rw [ih c body (done ++ [c]) rounds (by omega) hrest h (by omega) (by omega), List.append_assoc, List.singleton_append]
      rw [List.cons_append, skipString, deref_before, Option.bind_eq_bind, Option.bind_some, position_before, if_pos hgo,
        advance_before]
      by_cases hback : c = backslash
      · rw [if_pos hback]
        cases body with
        | nil => exact absurd hback hrest
        | cons d body =>
          rw [List.cons_append, deref_before, Option.bind_some]
          by_cases hd : d = quote
          · -- the escaped quote is skipped with its backslash
            have hnext : body.head? ≠ some quote := by
              cases body with
              | nil => exact (Option.some_ne_none quote).symm
              | cons e body =>
                intro h
                have hprev := hrest.2.1 (Option.some.inj h)
                rw [hd] at hprev
                exact absurd hprev (by decide)
            have hdone' : (done ++ [c] ++ [d]).length = done.length + 2 := by simp
            rw [List.length_cons] at hn hrounds hlength
            rw [if_pos hd, advance_before, ih d body (done ++ [c] ++ [d]) rounds (by omega) hrest.2 hnext (by omega) (by omega)]
            simp
          · rw [if_neg hd, ← List.cons_append]
            exact hone fun h => hd (Option.some.inj h)
      · rw [if_neg hback]
        apply hone
        cases body with
        | nil => exact (Option.some_ne_none quote).symm
        | cons d body => exact fun h => hback (hrest.1 (Option.some.inj h))

end Split

/-! ## The line -/

namespace Line

variable {blanks : List UInt8} {arg : Arg} {line : Line}

@[simp] theorem render_cons : render ((blanks, arg) :: line) = blanks ++ (arg.text ++ render line) := by
  unfold render
  simp

@[simp] theorem written_cons : written ((blanks, arg) :: line) = List.replicate blanks.length 0 ++ (arg.written ++ written line) := by
  unfold written
  simp

theorem length_written_arg (arg : Arg) : arg.written.length = arg.text.length := by
  cases arg with
  | word w => rfl
  | quoted body => simp [Arg.written, Arg.text]

/-- Only bytes of the line are replaced. -/
theorem length_written (line : Line) : line.written.length = line.render.length := by
  induction line with
  | nil => rfl
  | cons piece line ih =>
    rw [written_cons, render_cons]
    simp [ih, length_written_arg]

theorem Valid.tail (h : Valid ((blanks, arg) :: line)) : Valid line where
  blank := fun piece hpiece => h.blank piece (List.mem_cons_of_mem _ hpiece)
  arg := fun piece hpiece => h.arg piece (List.mem_cons_of_mem _ hpiece)
  apart := fun piece hpiece => h.apart piece (List.mem_of_mem_tail hpiece)

/-- Every argument has a first character, and this is no blank. -/
theorem Valid.text_head (h : Valid ((blanks, arg) :: line)) :
    ∃ c cs, arg.text = c :: cs ∧ isBlank c = false := by
  have harg := h.arg _ List.mem_cons_self
  cases arg with
  | word w =>
    cases w with
    | nil => exact absurd rfl harg.1
    | cons c cs => exact ⟨c, cs, rfl, harg.2.2.2 c List.mem_cons_self⟩
  | quoted body => exact ⟨quote, _, rfl, rfl⟩

/-- Every argument takes a byte at least. -/
theorem Valid.length_le : ∀ {line : Line}, Valid line → line.length ≤ line.render.length
  | [], _ => Nat.le_refl 0
  | (blanks, arg) :: line, h => by
    obtain ⟨c, cs, htext, -⟩ := h.text_head
    have hline := h.tail.length_le
    rw [render_cons, htext]
    simp only [List.length_cons, List.length_append]
    omega

/-- Behind an argument is a blank, or the terminator of the line. -/
theorem Valid.next (h : Valid ((blanks, arg) :: line)) (mem : List UInt8) :
    ∃ c rest, line.render ++ 0 :: mem = c :: rest ∧ (isBlank c = true ∨ line = []) := by
  cases line with
  | nil => exact ⟨0, mem, rfl, Or.inr rfl⟩
  | cons piece line =>
    obtain ⟨blanks', arg'⟩ := piece
    have hne : blanks' ≠ [] := h.apart (blanks', arg') List.mem_cons_self
    obtain ⟨b, bs, hb⟩ := List.exists_cons_of_ne_nil hne
    refine ⟨b, _, by rw [render_cons, hb, List.append_assoc, List.cons_append], Or.inl ?_⟩
    exact h.blank (blanks', arg') (List.mem_cons_of_mem _ List.mem_cons_self) b (hb ▸ List.mem_cons_self)

end Line

namespace Split

variable {argMax length : ℕ} {mem : List UInt8}

/-- Where the line ends, the loop ends. -/
theorem loop_end {s : Split} {rounds : ℕ} (hlength : length ≤ s.position) (hrounds : 0 < rounds) :
    loop argMax length rounds s = some s := by
  obtain ⟨rounds, rfl⟩ := Nat.exists_eq_succ_of_ne_zero hrounds.ne'
  exact if_neg (not_lt.mpr hlength)

/-- The test at the end of a round only anticipates the one of the loop. -/
theorem loop_test {s : Split} {rounds : ℕ} (hrounds : 0 < rounds) :
    (if length ≤ s.position then some s else loop argMax length rounds s) = loop argMax length rounds s := by
  split
  case isTrue hlength => exact (loop_end hlength hrounds).symm
  case isFalse => rfl

/-- **The outer loop** makes an argument of every one on the line. -/
theorem loop_before {line : Line} : ∀ (done : List UInt8) (argv : List ℕ) (rounds : ℕ), line.Valid →
    argv.length + line.length ≤ argMax → line.length < rounds → length = done.length + line.render.length →
    loop argMax length rounds (before done (line.render ++ 0 :: mem) argv) =
      some (before (done ++ line.written) (0 :: mem) (argv ++ line.offsets done.length)) := by
  induction line with
  | nil =>
    intro done argv rounds _ _ hrounds hlength
    have hrest : loop argMax length rounds (before done (0 :: mem) argv) = some (before done (0 :: mem) argv) :=
      loop_end hlength.le hrounds
    simpa [Line.render, Line.written, Line.offsets] using hrest
  | cons piece line ih =>
    intro done argv rounds hvalid hmax hrounds hlength
    obtain ⟨blanks, arg⟩ := piece
    obtain ⟨rounds, rfl⟩ := Nat.exists_eq_succ_of_ne_zero (Nat.ne_of_gt (Nat.zero_lt_of_lt hrounds))
    obtain ⟨c, cs, htext, hc⟩ := hvalid.text_head
    obtain ⟨next, rest, hnext, hstop⟩ := hvalid.next mem
    have harg := hvalid.arg _ List.mem_cons_self
    rw [Line.render_cons, List.length_append, List.length_append] at hlength
    rw [List.length_cons] at hmax hrounds
    have hpos : 0 < arg.text.length := by
      rw [htext]
      exact Nat.succ_pos _
    have hzeros : (done ++ List.replicate blanks.length 0).length = done.length + blanks.length := by simp
    -- the blanks are stripped
    have hstrip : stripBlanks length (length + 1) (before done (blanks ++ c :: (cs ++ (Line.render line ++ 0 :: mem))) argv) =
        some (before (done ++ List.replicate blanks.length 0) (c :: (cs ++ (Line.render line ++ 0 :: mem))) argv) :=
      stripBlanks_before hc done (length + 1) (hvalid.blank _ List.mem_cons_self) (by omega) (by omega)
    rw [loop, if_pos (show (before done _ argv).position < length by rw [position_before]; omega), Line.render_cons, htext,
      List.append_assoc, List.append_assoc, List.cons_append, hstrip, Option.bind_eq_bind, Option.bind_some, argv_before,
      if_neg (by omega), position_before, hzeros, if_neg (by omega), deref_before, Option.bind_eq_bind, Option.bind_some]
    cases arg with
    | word w =>
      obtain rfl : w = c :: cs := htext
      have hcq : c ≠ quote := fun h => harg.2.2.1 (h ▸ List.mem_cons_self)
      have hwlength : (Arg.word (c :: cs)).text.length = (c :: cs).length := rfl
      have hdone : (done ++ List.replicate blanks.length 0 ++ (c :: cs)).length = done.length + blanks.length + (c :: cs).length := by
        rw [List.length_append, hzeros]
      have hword : skipWord length (length + 1) (before (done ++ List.replicate blanks.length 0) ((c :: cs) ++ next :: rest)
          (argv ++ [done.length + blanks.length])) =
          some (before (done ++ List.replicate blanks.length 0 ++ (c :: cs)) (next :: rest) (argv ++ [done.length + blanks.length])) :=
        skipWord_before _ (length + 1) harg.2.2.2 (by omega) (by omega) (hstop.imp_right fun h => by
          rw [h] at hlength
          simp only [Line.render, List.flatMap_nil, List.length_nil] at hlength
          omega)
      rw [if_neg hcq, addArg_before, hzeros, ← List.cons_append, hnext, hword, Option.bind_some, ← hnext, loop_test (by omega),
        ih _ _ rounds hvalid.tail (by rw [List.length_append, List.length_singleton]; omega) (by omega) (by rw [hdone]; omega), hdone]
      simp [Line.offsets, Arg.written, Arg.text, Arg.skip]
    | quoted body =>
      obtain ⟨rfl, rfl⟩ : quote = c ∧ body ++ [quote] = cs := List.cons.inj htext
      have hqlength : (Arg.quoted body).text.length = body.length + 2 := by simp [Arg.text]
      have hopen : (done ++ List.replicate blanks.length 0 ++ [quote]).length = done.length + blanks.length + 1 := by
        rw [List.length_append, hzeros, List.length_singleton]
      have hclose : (done ++ List.replicate blanks.length 0 ++ [quote] ++ body).length = done.length + blanks.length + 1 + body.length := by
        rw [List.length_append, hopen]
      have hdone : (done ++ List.replicate blanks.length 0 ++ [quote] ++ body ++ [0]).length =
          done.length + blanks.length + (body.length + 2) := by
        rw [List.length_append, hclose, List.length_singleton]
        omega
      have hhead : body.head? ≠ some quote := by
        cases body with
        | nil => exact (Option.some_ne_none quote).symm
        | cons d body => exact fun h => absurd (harg.2.1 (Option.some.inj h)) (by decide)
      have hstring : skipString length (length + 1) (before (done ++ List.replicate blanks.length 0 ++ [quote])
          (body ++ quote :: (Line.render line ++ 0 :: mem)) (argv ++ [done.length + blanks.length + 1])) =
          some (before (done ++ List.replicate blanks.length 0 ++ [quote] ++ body) (quote :: (Line.render line ++ 0 :: mem))
            (argv ++ [done.length + blanks.length + 1])) :=
        skipString_before body.length quote body _ (length + 1) le_rfl harg.2 hhead (by omega) (by omega)
      rw [if_pos rfl, advance_before, addArg_before, hopen, List.append_assoc body, List.singleton_append, hstring, Option.bind_some,
        position_before, hclose, if_neg (by omega), terminate_before, Option.bind_some, advance_before,
        ih _ _ rounds hvalid.tail (by rw [List.length_append, List.length_singleton]; omega) (by omega) (by rw [hdone]; omega), hdone]
      simp [Line.offsets, Arg.written, Arg.text, Arg.skip]

end Split

/-! ## The arguments -/

namespace Line

variable {blanks : List UInt8} {arg : Arg} {line : Line}

/-- Behind an argument there is a terminator now. -/
theorem Valid.terminated (h : Valid ((blanks, arg) :: line)) (mem : List UInt8) : ∃ rest, line.written ++ 0 :: mem = 0 :: rest := by
  cases line with
  | nil => exact ⟨mem, rfl⟩
  | cons piece line =>
    obtain ⟨blanks', arg'⟩ := piece
    have hne : blanks' ≠ [] := h.apart (blanks', arg') List.mem_cons_self
    obtain ⟨b, bs, rfl⟩ := List.exists_cons_of_ne_nil hne
    exact ⟨_, by rw [written_cons, List.length_cons, List.replicate_succ, List.append_assoc, List.cons_append]⟩

/-- **Every argument can be read** where it begins. -/
theorem Valid.strings {mem : List UInt8} : ∀ {line : Line} (done : List UInt8), Valid line →
    List.Forall₂ (fun off piece => cstring 0 ((done ++ (written line ++ 0 :: mem)).drop off) = some piece.2.contents)
      (offsets done.length line) line
  | [], _, _ => .nil
  | (blanks, arg) :: line, done, h => by
    have harg := h.arg _ List.mem_cons_self
    have hnext : (done ++ (List.replicate blanks.length 0 ++ arg.written)).length = done.length + blanks.length + arg.text.length := by
      rw [List.length_append, List.length_append, List.length_replicate, length_written_arg, Nat.add_assoc]
    have hsplit : done ++ (written ((blanks, arg) :: line) ++ 0 :: mem) =
        done ++ (List.replicate blanks.length 0 ++ arg.written) ++ (written line ++ 0 :: mem) := by
      rw [written_cons]
      simp
    rw [offsets, hsplit, ← hnext]
    refine .cons ?_ (Valid.strings _ h.tail)
    cases arg with
    | word w =>
      obtain ⟨rest, hrest⟩ := h.terminated mem
      have hread : done ++ (List.replicate blanks.length 0 ++ (Arg.word w).written) ++ (written line ++ 0 :: mem) =
          done ++ List.replicate blanks.length 0 ++ (w ++ 0 :: rest) := by
        rw [hrest]
        simp [Arg.written]
      rw [hread, List.drop_left' (by simp [Arg.skip])]
      exact cstring_append harg.2.1 rest
    | quoted body =>
      have hread : done ++ (List.replicate blanks.length 0 ++ (Arg.quoted body).written) ++ (written line ++ 0 :: mem) =
          done ++ List.replicate blanks.length 0 ++ [quote] ++ (body ++ 0 :: (written line ++ 0 :: mem)) := by
        simp [Arg.written]
      rw [hread, List.drop_left' (by simp [Arg.skip, Nat.add_assoc])]
      exact cstring_append harg.1 _

end Line

/-- **Splitting a line gives the arguments back**: as many, each with its contents and a terminator, and nothing outside of the line
is written. -/
theorem msh_split_render {argMax : ℕ} {line : Line} (hvalid : line.Valid) (hmax : line.length ≤ argMax) (mem : List UInt8) :
    ∃ line' argv, msh_split argMax (line.render ++ 0 :: mem) line.render.length = some (line' ++ 0 :: mem, argv) ∧
      line'.length = line.render.length ∧ argv.length = line.length ∧
      List.Forall₂ (fun off piece => cstring 0 ((line' ++ 0 :: mem).drop off) = some piece.2.contents) argv line := by
  have hrun : Split.loop argMax line.render.length (line.render.length + 1) ⟨line.render ++ 0 :: mem, 0, 0, []⟩ =
      some (Split.before line.written (0 :: mem) (line.offsets 0)) :=
    Split.loop_before [] [] (line.render.length + 1) hvalid (by simpa using hmax) (Nat.lt_succ_of_le hvalid.length_le) (by simp)
  have hstrings : List.Forall₂ (fun off piece => cstring 0 ((line.written ++ 0 :: mem).drop off) = some piece.2.contents)
      (line.offsets 0) line := Line.Valid.strings [] hvalid
  refine ⟨line.written, line.offsets 0, ?_, line.length_written, hstrings.length_eq, hstrings⟩
  rw [msh_split, hrun]
  rfl

/-- `echo "a \"b\"!"`, with a tab and a blank between the arguments. -/
def echoLine : Line :=
  [([], .word [0x65, 0x63, 0x68, 0x6f]), ([0x09, 0x20], .quoted [0x61, 0x20, 0x5c, 0x22, 0x62, 0x5c, 0x22, 0x21])]

theorem msh_split_echo :
    ∃ line' argv, msh_split 8 (echoLine.render ++ [0]) echoLine.render.length = some (line' ++ [0], argv) ∧
      line'.length = echoLine.render.length ∧ argv.length = echoLine.length ∧
      List.Forall₂ (fun off piece => cstring 0 ((line' ++ [0]).drop off) = some piece.2.contents) argv echoLine := by
  have hpieces : ∀ piece ∈ echoLine, (∀ c ∈ piece.1, isBlank c = true) ∧ piece.2.Valid := by
    intro piece hpiece
    rcases List.mem_pair.mp hpiece with rfl | rfl
    · refine ⟨fun c hc => absurd hc List.not_mem_nil, by decide, by decide, by decide, ?_⟩
      simp [isBlank]
    · refine ⟨by simp [isBlank], by decide, ?_⟩
      simp only [Escaped]
      decide
  exact msh_split_render ⟨fun piece h => (hpieces piece h).1, fun piece h => (hpieces piece h).2, by simp [echoLine]⟩ (by decide) []

end CoreLink.Shell
