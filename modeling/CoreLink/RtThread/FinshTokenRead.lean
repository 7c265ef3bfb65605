/-
# `CoreLink.RtThread.FinshTokenRead` — what the tokenizer of finsh reads.

What is left of a line (`FinshToken.rest`), and what is left from the character on that has been read last
(`FinshToken.Read`). The flag at the end of the line and the position 0 come up in the lemmas about one character only;
reading on while a test holds, the blanks and the start of a token are said in these terms.
-/
import Mathlib.Data.List.TakeWhile
import CoreLink.RtThread.FinshToken

namespace CoreLink.RtThread

namespace FinshToken

/-! ## The characters that are left -/

/-- What stands in front of the end of the line. -/
def inLine (ch : Char) : Bool := decide ¬(ch = '\x00' ∨ ch = '\n')

/-- **The characters that are left.** -/
def rest (s : FinshToken) : List Char := if s.eof then [] else (s.line.drop s.position).takeWhile inLine

/-- `ch` has been read last, and `r` is what is left from it on: it is nothing at the end of the line. -/
structure Read (s : FinshToken) (ch : Char) (r : List Char) : Prop where
  back : s.tokenPrevChar.rest = r
  last : r = ch :: s.rest ∨ r = [] ∧ ch = '\x00' ∧ s.eof = true

variable {s t : FinshToken} {ch c : Char} {r : List Char}

theorem rest_length_le (s : FinshToken) : s.rest.length ≤ s.line.length := by
  unfold rest
  split
  · exact Nat.zero_le _
  · exact (List.takeWhile_sublist _).length_le.trans (List.length_drop ▸ Nat.sub_le _ _)

@[simp] theorem tokenPrevChar_line (s : FinshToken) : s.tokenPrevChar.line = s.line := by
  unfold tokenPrevChar
  split
  · rfl
  · split <;> rfl

@[simp] theorem tokenPrevChar_eof (s : FinshToken) : s.tokenPrevChar.eof = s.eof := by
  unfold tokenPrevChar
  split
  · rfl
  · split <;> rfl

@[simp] theorem tokenNextChar_line (s : FinshToken) : s.tokenNextChar.2.line = s.line := by
  unfold tokenNextChar
  split
  · rfl
  · cases s.line[s.position]? with
    | none => rfl
    | some c => dsimp only; split <;> rfl

/-- **Reading one character.** -/
theorem read_next (s : FinshToken) : Read s.tokenNextChar.2 s.tokenNextChar.1 s.rest := by
  unfold tokenNextChar
  split
  · next he => exact ⟨by simp [tokenPrevChar, rest, he], .inr ⟨by simp [rest, he], rfl, he⟩⟩
  · next he =>
    cases hc : s.line[s.position]? with
    | none =>
      have hr : s.rest = [] := by
        rw [rest, if_neg he, List.drop_eq_nil_of_le (List.getElem?_eq_none_iff.mp hc)]
        rfl
      exact ⟨by rw [hr]; simp [tokenPrevChar, rest], .inr ⟨hr, rfl, rfl⟩⟩
    | some c =>
      obtain ⟨hlt, hget⟩ := List.getElem?_eq_some_iff.mp hc
      have hdrop : s.line.drop s.position = c :: s.line.drop (s.position + 1) := by
        rw [← hget, List.drop_eq_getElem_cons hlt]
      by_cases hend : c = '\x00' ∨ c = '\n'
      · have hr : s.rest = [] := by
          rw [rest, if_neg he, hdrop, List.takeWhile_cons_of_neg (by simp [inLine, hend])]
        simp only [if_pos hend]
        exact ⟨by rw [hr]; simp [tokenPrevChar, rest], .inr ⟨hr, rfl, rfl⟩⟩
      · have hr : s.rest = c :: (s.line.drop (s.position + 1)).takeWhile inLine := by
          rw [rest, if_neg he, hdrop, List.takeWhile_cons_of_pos (by simp [inLine, hend])]
        simp only [if_neg hend]
        refine ⟨?_, .inl ?_⟩
        · simp [tokenPrevChar, rest, he]
        · rw [hr]
          simp [rest, he]

theorem Read.of_eq (h : Read s ch r) (he : t.eof = s.eof) (hp : t.position = s.position) (hl : t.line = s.line) :
    Read t ch r := by
  have hrest : t.rest = s.rest := by simp [rest, he, hp, hl]
  have hback : t.tokenPrevChar.rest = s.tokenPrevChar.rest := by
    simp only [tokenPrevChar, he, hp]
    split
    · exact hrest
    · split
      · exact hrest
      · simp [rest, he, hl]
  exact ⟨hback.trans h.back, he ▸ hrest ▸ h.last⟩

theorem Read.eq_of_cons (h : Read s ch (c :: r)) : ch = c := by
  rcases h.last with hl | ⟨hl, -⟩
  · exact (List.cons.inj hl).1.symm
  · exact absurd hl (List.cons_ne_nil _ _)

theorem Read.rest_of_cons (h : Read s ch (c :: r)) : s.rest = r := by
  rcases h.last with hl | ⟨hl, -⟩
  · exact (List.cons.inj hl).2.symm
  · exact absurd hl (List.cons_ne_nil _ _)

theorem Read.eof_of_cons (h : Read s ch (c :: r)) : s.eof = false := by
  by_contra he
  rw [Bool.not_eq_false] at he
  have hback := h.back
  simp [tokenPrevChar, rest, he] at hback

theorem Read.eq_of_nil (h : Read s ch []) : ch = '\x00' := by
  rcases h.last with hl | ⟨-, hc, -⟩
  · exact absurd hl.symm (List.cons_ne_nil _ _)
  · exact hc

theorem Read.length_le (h : Read s ch r) : r.length ≤ s.line.length := by
  rw [← h.back, ← tokenPrevChar_line]
  exact rest_length_le _

/-- The characters that have been read do not satisfy `p`, when the next one of the line does not. -/
theorem Read.not_of (h : Read s ch r) {p : Char → Bool} (hr : ∀ c ∈ r.head?, p c = false) (h0 : p '\x00' = false) :
    p ch = false := by
  cases r with
  | nil => rw [h.eq_of_nil, h0]
  | cons c r => rw [h.eq_of_cons]; exact hr c rfl

/-- **Reading on**: the loop takes what satisfies `p`, and has read one character more. -/
theorem scanLoop_spec {α : Type} (p : Char → Bool) (f : α → Char → α) (ds : List Char) :
    ∀ (fuel : ℕ) (acc : α) (ch : Char) (s : FinshToken) (r : List Char), Read s ch (ds ++ r) → (∀ d ∈ ds, p d = true) →
      (∀ c ∈ r.head?, p c = false) → p '\x00' = false → ds.length < fuel →
      ∃ ch' s', scanLoop p f fuel acc ch s = some (ds.foldl f acc, ch', s') ∧ Read s' ch' r ∧ s'.line = s.line := by
  induction ds with
  | nil =>
    intro fuel acc ch s r hread _ hr h0 hfuel
    obtain ⟨fuel, rfl⟩ := Nat.exists_eq_add_of_lt hfuel
    refine ⟨ch, s, ?_, hread, rfl⟩
    rw [List.length_nil, Nat.zero_add, scanLoop, if_neg (by simp [hread.not_of hr h0])]
    rfl
  | cons d ds ih =>
    intro fuel acc ch s r hread hds hr h0 hfuel
    cases fuel with
    | zero => exact absurd hfuel (Nat.not_lt_zero _)
    | succ fuel =>
      obtain rfl := hread.eq_of_cons
      have hnext := read_next s
      rw [hread.rest_of_cons] at hnext
      obtain ⟨ch', s', heq, hread', hline⟩ := ih fuel (f acc ch) _ _ r hnext (fun e he => hds e (List.mem_cons_of_mem _ he))
        hr h0 (Nat.lt_of_succ_lt_succ hfuel)
      refine ⟨ch', s', ?_, hread', hline.trans (tokenNextChar_line s)⟩
      rw [scanLoop, if_pos (hds ch List.mem_cons_self), heq]
      rfl

/-- With the fuel of the functions. -/
theorem Read.scanLoop {α : Type} {ds : List Char} (hread : Read s ch (ds ++ r)) (p : Char → Bool) (f : α → Char → α) (acc : α)
    (hds : ∀ d ∈ ds, p d = true) (hr : ∀ c ∈ r.head?, p c = false) (h0 : p '\x00' = false) :
    ∃ ch' s', FinshToken.scanLoop p f s.fuel acc ch s = some (ds.foldl f acc, ch', s') ∧ Read s' ch' r ∧
      s'.line = s.line := by
  refine scanLoop_spec p f ds s.fuel acc ch s r hread hds hr h0 ?_
  have := hread.length_le
  rw [List.length_append] at this
  unfold fuel
  omega

/-- Reading on as far as `p` holds. -/
theorem Read.scanLoop_span {α : Type} (hread : Read s ch r) (p : Char → Bool) (f : α → Char → α) (acc : α)
    (h0 : p '\x00' = false) :
    ∃ ch' s', FinshToken.scanLoop p f s.fuel acc ch s = some ((r.takeWhile p).foldl f acc, ch', s') ∧
      Read s' ch' (r.dropWhile p) ∧ s'.line = s.line := by
  have hhead : ∀ c ∈ (r.dropWhile p).head?, p c = false := by
    intro c hc
    have hne : r.dropWhile p ≠ [] := fun hnil => by simp [hnil] at hc
    rw [List.head?_eq_some_head hne, Option.mem_some_iff] at hc
    exact hc ▸ List.head_dropWhile_not p hne
  refine Read.scanLoop ?_ p f acc (fun d hd => List.mem_takeWhile_imp hd) hhead h0
  rwa [List.takeWhile_append_dropWhile]

/-! ## The start of a token -/

/-- `ch` is a blank. -/
def isBlank (ch : Char) : Bool := ch == ' ' || ch == '\t' || ch == '\r'

theorem tokenTrimSpace_spec {blanks : List Char} (hs : s.rest = blanks ++ c :: r) (hb : ∀ b ∈ blanks, isBlank b = true)
    (hc : isBlank c = false) : ∃ s', s.tokenTrimSpace = some s' ∧ s'.rest = c :: r := by
  have hread := read_next s
  rw [hs] at hread
  obtain ⟨ch', s', heq, hread', -⟩ := hread.scanLoop isBlank (fun _ _ => ()) () hb
    (fun d hd => (Option.mem_some_iff.mp hd) ▸ hc) (by decide)
  refine ⟨s'.tokenPrevChar, ?_, hread'.back⟩
  have hfuel : s.tokenNextChar.2.fuel = s.fuel := by simp [fuel]
  rw [hfuel] at heq
  exact congrArg (Option.map _) heq

/-- In front of a literal there is no identifier. -/
theorem tokenGetString_spec (hs : s.rest = c :: r) (hc : isDigit c = true ∨ isSeparator c = true) :
    ∃ s', s.tokenGetString = some s' ∧ s'.rest = c :: r ∧ s'.string = [] ∧ s'.eof = false := by
  have hread := read_next s
  rw [hs] at hread
  have heof := hread.eof_of_cons
  have hch := hread.eq_of_cons
  rw [tokenGetString]
  simp only [heof, Bool.false_eq_true, if_false, hch]
  by_cases hd : isDigit c = true
  · simp only [if_pos hd]
    exact ⟨_, rfl, hread.back, rfl, (tokenPrevChar_eof _).trans heof⟩
  · have hsep := hc.resolve_left hd
    have hloop : FinshToken.scanLoop (fun ch => !isSeparator ch) (fun str ch => str ++ [ch.toNat]) s.tokenNextChar.2.fuel [] c
        s.tokenNextChar.2 = some ([], c, s.tokenNextChar.2) := by
      rw [fuel, FinshToken.scanLoop, hsep]
      rfl
    simp only [if_neg hd, hloop, Option.bind_some]
    refine ⟨_, if_neg (by decide), ?_, rfl, tokenPrevChar_eof _⟩
    exact (hread.of_eq (t := { s.tokenNextChar.2 with eof := false }) heof.symm rfl rfl).back

/-- **A token that is not a name** begins with its first character. -/
theorem tokenRun_spec {blanks : List Char} (hs : s.rest = blanks ++ c :: r) (hb : ∀ b ∈ blanks, isBlank b = true)
    (hc : isBlank c = false) (hc' : isDigit c = true ∨ isSeparator c = true) :
    ∃ s' : FinshToken, s.tokenRun = s'.runOperator ∧ s'.rest = c :: r := by
  obtain ⟨s₁, htrim, hrest₁⟩ := tokenTrimSpace_spec hs hb hc
  obtain ⟨s₂, hget, hrest₂, hstring, heof⟩ := tokenGetString_spec hrest₁ hc'
  refine ⟨s₂, ?_, hrest₂⟩
  simp [tokenRun, htrim, hget, heof, hstring]

/-- A digit begins a number. -/
theorem runOperator_digit (hs : s.rest = c :: r) (hc : isDigit c = true) :
    ∃ s' : FinshToken, s.runOperator = s'.tokenProcNumber ∧ s'.rest = c :: r := by
  have hread := read_next s
  rw [hs] at hread
  have hch := hread.eq_of_cons
  refine ⟨s.tokenNextChar.2.tokenPrevChar, ?_, hread.back⟩
  have hop : operator c = none := by
    unfold operator
    split <;> first | rfl | exact absurd hc (by decide)
  have hne : ∀ d, isDigit d = false → c ≠ d := fun d hd heq => by simp [heq ▸ hd] at hc
  rw [runOperator]
  simp only [hch, hop, if_neg (hne '+' (by decide)), if_neg (hne '-' (by decide)), if_neg (hne '/' (by decide)),
    if_neg (hne '<' (by decide)), if_neg (hne '>' (by decide)), if_neg (hne '\'' (by decide)), if_neg (hne '"' (by decide)),
    if_pos hc]

end FinshToken

end CoreLink.RtThread
