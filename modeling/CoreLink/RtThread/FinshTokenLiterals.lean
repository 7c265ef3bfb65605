/-
# `CoreLink.RtThread.FinshTokenLiterals` — which literals the tokenizer of finsh decodes.

A number, a character or a string as C writes it, with the value that C gives it. `finsh_token_literals` says exactly for
which of them `token_run` stores that value and goes on behind the literal: not for a 0 with a suffix, not for a hexadecimal
number with a suffix (the suffix is taken for a digit), not for an octal escape in a character (`atoi` gets the end of the
digits), and so on.
-/
import CoreLink.RtThread.FinshTokenNumbers

namespace CoreLink.RtThread

namespace FinshToken

variable {s t : FinshToken} {ch c : Char} {r : List Char}

/-! ## Characters and strings of C -/

/-- The escapes of one character that either function knows. -/
def escapes : List (Char × ℕ) :=
  [('n', 10), ('t', 9), ('v', 11), ('b', 8), ('r', 13), ('f', 12), ('a', 7), ('"', 34), ('\\', 92), ('\'', 39)]

/-- A character of a literal, or an escape. -/
inductive CharItem where
  | plain (c : Char)
  | simple (e : Char × ℕ)
  | octal (ds : List Char)
  | hex (ds : List Char)

namespace CharItem

def text : CharItem → List Char
  | plain c => [c]
  | simple e => ['\\', e.1]
  | octal ds => '\\' :: ds
  | hex ds => '\\' :: 'x' :: ds

/-- The value in C, as a byte. -/
def value : CharItem → ℕ
  | plain c => c.toNat % 256
  | simple e => e.2
  | octal ds => ds.foldl (fun v d => v * 8 + digitValue d) 0 % 256
  | hex ds => ds.foldl (fun v d => v * 16 + digitValue d) 0 % 256

/-- **An item of C**, in a literal with this quote. -/
def WellFormed (quote : Char) : CharItem → Prop
  | plain c => inLine c = true ∧ c ≠ quote ∧ c ≠ '\\'
  | simple e => e ∈ escapes
  | octal ds => ds ≠ [] ∧ ds.length ≤ 3 ∧ ∀ d ∈ ds, isOctal d = true
  | hex ds => ds ≠ [] ∧ ∀ d ∈ ds, isXdigit d = true

/-- The item ends in front of the text: an escape is as long as can be. -/
def EndsBefore : CharItem → List Char → Prop
  | plain _, _ => True
  | simple _, _ => True
  | octal ds, tail => ds.length < 3 → ∀ c ∈ tail.head?, isOctal c = false
  | hex _, tail => ∀ c ∈ tail.head?, isXdigit c = false

/-- The items that `token_proc_char` decodes. -/
def CharOk : CharItem → Prop
  | plain _ => True
  | simple e => (charEscape e.1).isSome
  | octal ds => ds.foldl (fun v d => v * 8 + digitValue d) 0 % 256 = 0
  | hex _ => False

/-- The items that `token_proc_escape` decodes, in front of a text. -/
def StringOk : CharItem → List Char → Prop
  | plain _, _ => True
  | simple e, _ => (stringEscape e.1).isSome
  | octal _, tail => ∀ c ∈ tail.head?, isOctal c = false
  | hex _, _ => True

end CharItem

/-! ## A character -/

theorem charEnd_fst (v : ℕ) (s : FinshToken) : (charEnd v s).1 = v := by
  unfold charEnd
  split <;> rfl

theorem rest_charEnd_of_eq (v : ℕ) (hs : s.rest = '\'' :: r) : (charEnd v s).2.rest = r := by
  have hread := read_next s
  rw [hs] at hread
  rw [charEnd, if_neg (not_not_intro hread.eq_of_cons)]
  exact hread.rest_of_cons

/-- Without the quote nothing is taken. -/
theorem rest_charEnd_of_ne (v : ℕ) {c : Char} (hc : c ≠ '\'') (hs : s.rest = c :: r) : (charEnd v s).2.rest = c :: r := by
  have hread := read_next s
  rw [hs] at hread
  rw [charEnd, if_pos (hread.eq_of_cons ▸ hc)]
  exact hread.back

theorem ne_of_length_lt {l : List Char} (h : r.length < l.length) : l ≠ r := fun heq => Nat.ne_of_lt h (heq ▸ rfl)

/-- What an escape begins with. -/
theorem tokenProcChar_escape {tail : List Char} (hs : s.rest = '\\' :: c :: tail) : ∃ s₁ : FinshToken, Read s₁ c (c :: tail) ∧
    (∀ v, charEscape c = some v → s.tokenProcChar = some (charEnd v s₁)) ∧
    (charEscape c = none → s.tokenProcChar = (scanLoop isDigit (fun n _ => n + 1) s₁.fuel 0 c s₁).bind fun r =>
      if 4 ≤ r.1 then none else some (charEnd 0 r.2.2.tokenPrevChar)) := by
  have hread := read_next s
  rw [hs] at hread
  have hread₁ := read_next s.tokenNextChar.2
  rw [hread.rest_of_cons] at hread₁
  refine ⟨_, hread₁.eq_of_cons ▸ hread₁, fun v hv => ?_, fun hnone => ?_⟩
  · rw [tokenProcChar]
    simp only [hread.eq_of_cons, hread₁.eq_of_cons, hv, if_pos]
  · rw [tokenProcChar]
    simp only [hread.eq_of_cons, hread₁.eq_of_cons, hnone, if_pos]

/-- Digits are skipped, and count for 0. -/
theorem tokenProcChar_digits {ds tail rest : List Char} (hs : s.rest = '\\' :: c :: tail) (hnone : charEscape c = none)
    (htail : c :: tail = ds ++ rest) (hds : ∀ d ∈ ds, isDigit d = true) (hrest : ∀ d ∈ rest.head?, isDigit d = false)
    (hlen : ds.length ≤ 3) : ∃ s' : FinshToken, s.tokenProcChar = some (charEnd 0 s') ∧ s'.rest = rest := by
  obtain ⟨s₁, hread, -, hrun⟩ := tokenProcChar_escape hs
  rw [htail] at hread
  obtain ⟨ch', s', heq, hread', -⟩ := hread.scanLoop isDigit (fun n _ => n + 1) 0 hds hrest (by decide)
  have hcount : ds.foldl (fun n _ => n + 1) 0 = ds.length := by
    simp
  rw [hcount] at heq
  exact ⟨_, by rw [hrun hnone, heq, Option.bind_some, if_neg (Nat.not_le.mpr (Nat.lt_succ_of_le hlen))], hread'.back⟩

/-- **A character**, with the quote behind it. -/
theorem tokenProcChar_iff {item : CharItem} (hs : s.rest = item.text ++ '\'' :: r) (hw : item.WellFormed '\'') :
    ∃ res, s.tokenProcChar = some res ∧ (res.1 = item.value ∧ res.2.rest = r ↔ item.CharOk) := by
  cases item with
  | plain c =>
    have hread := read_next s
    rw [hs] at hread
    have hrun : s.tokenProcChar = some (charEnd (c.toNat % 256) s.tokenNextChar.2) := by
      rw [tokenProcChar]
      simp only [hread.eq_of_cons, if_neg hw.2.2]
    refine ⟨_, hrun, iff_of_true ⟨charEnd_fst _ _, rest_charEnd_of_eq _ hread.rest_of_cons⟩ trivial⟩
  | simple e =>
    have hs : s.rest = '\\' :: e.1 :: '\'' :: r := hs
    obtain ⟨s₁, hread, hsome, -⟩ := tokenProcChar_escape hs
    have hvalue : ∀ e ∈ escapes, ∀ v, charEscape e.1 = some v → v = e.2 := by decide
    cases he : charEscape e.1 with
    | some v =>
      refine ⟨_, hsome v he, iff_of_true ⟨?_, rest_charEnd_of_eq _ hread.rest_of_cons⟩ (by simp [CharItem.CharOk, he])⟩
      exact (charEnd_fst _ _).trans (hvalue e hw v he)
    | none =>
      have hother : ∀ e ∈ escapes, charEscape e.1 = none → isDigit e.1 = false ∧ e.1 ≠ '\'' := by decide
      obtain ⟨hdigit, hquote⟩ := hother e hw he
      obtain ⟨s', hrun, hrest⟩ := tokenProcChar_digits hs he (List.nil_append _).symm (fun d hd => absurd hd List.not_mem_nil)
        (fun d hd => Option.mem_some_iff.mp hd ▸ hdigit) (Nat.zero_le 3)
      refine ⟨_, hrun, iff_of_false (fun h => ?_) (by simp [CharItem.CharOk, he])⟩
      have hmore := rest_charEnd_of_ne 0 hquote hrest
      exact ne_of_length_lt (by rw [hmore]; simp only [List.length_cons]; omega) h.2
  | octal ds =>
    obtain ⟨hne, hlen, hds⟩ := hw
    obtain ⟨d, ds, rfl⟩ := List.exists_cons_of_ne_nil hne
    have hnone : charEscape d = none := by
      have hd := hds d List.mem_cons_self
      unfold charEscape
      split <;> first | rfl | exact absurd hd (by decide)
    obtain ⟨s', hrun, hrest⟩ := tokenProcChar_digits hs hnone rfl (fun d hd => isDigit_of_isOctal (hds d hd))
      (by rintro d ⟨⟩; rfl) hlen
    refine ⟨_, hrun, ?_⟩
    rw [charEnd_fst, rest_charEnd_of_eq 0 hrest]
    exact ⟨fun h => h.1.symm, fun h => ⟨h.symm, rfl⟩⟩
  | hex ds =>
    have hs : s.rest = '\\' :: 'x' :: (ds ++ '\'' :: r) := hs
    obtain ⟨s', hrun, hrest⟩ := tokenProcChar_digits hs rfl (List.nil_append _).symm (fun d hd => absurd hd List.not_mem_nil)
      (by rintro d ⟨⟩; rfl) (Nat.zero_le 3)
    refine ⟨_, hrun, iff_of_false (fun h => ?_) id⟩
    have hmore := rest_charEnd_of_ne 0 (by decide) hrest
    exact ne_of_length_lt (by rw [hmore]; simp only [List.length_append, List.length_cons]; omega) h.2

/-! ## A string -/

/-- The text of some items. -/
def itemsText (items : List CharItem) : List Char := items.flatMap CharItem.text

/-- **The items of a string literal of C.** -/
def ItemsWellFormed : List CharItem → Prop
  | [] => True
  | item :: items => item.WellFormed '"' ∧ item.EndsBefore (itemsText items) ∧ ItemsWellFormed items

/-- All items are decoded. -/
def ItemsOk : List CharItem → Prop
  | [] => True
  | item :: items => item.StringOk (itemsText items) ∧ ItemsOk items

/-- An octal digit that stands for itself. -/
def CharItem.isOctalDigit : CharItem → Bool
  | .plain c => isOctal c
  | _ => false

@[simp] theorem itemsText_cons (item : CharItem) (items : List CharItem) :
    itemsText (item :: items) = item.text ++ itemsText items := rfl

/-- Octal digits of a text are items. -/
theorem dropWhile_itemsText (items : List CharItem) :
    (itemsText items ++ '"' :: r).dropWhile isOctal = itemsText (items.dropWhile CharItem.isOctalDigit) ++ '"' :: r := by
  induction items with
  | nil => exact List.dropWhile_cons_of_neg (by decide)
  | cons item items ih =>
    have hcons : ∀ c tail, item.text = c :: tail → isOctal c = false → item.isOctalDigit = false →
        (itemsText (item :: items) ++ '"' :: r).dropWhile isOctal =
          itemsText ((item :: items).dropWhile CharItem.isOctalDigit) ++ '"' :: r := by
      intro c tail htext hc hitem
      rw [List.dropWhile_cons_of_neg (by simp [hitem]), itemsText_cons, htext, List.cons_append, List.cons_append,
        List.dropWhile_cons_of_neg (by simp [hc])]
    cases item with
    | plain c =>
      by_cases hc : isOctal c = true
      · have hitem : (CharItem.plain c).isOctalDigit = true := hc
        rw [List.dropWhile_cons_of_pos hitem, ← ih]
        exact List.dropWhile_cons_of_pos hc
      · exact hcons c [] rfl (Bool.not_eq_true _ ▸ hc) (Bool.not_eq_true _ ▸ hc)
    | simple e => exact hcons _ _ rfl (by decide) rfl
    | octal ds => exact hcons _ _ rfl (by decide) rfl
    | hex ds => exact hcons _ _ rfl (by decide) rfl

/-- What an escape begins with. -/
theorem tokenProcEscape_escape {tail : List Char} (hs : s.rest = c :: tail) : ∃ s₁ : FinshToken, Read s₁ c (c :: tail) ∧
    (∀ v, stringEscape c = some v → s.tokenProcEscape = some (v, s₁)) ∧
    (stringEscape c = none → s.tokenProcEscape =
      if c = 'x' ∨ c = 'X' then
        (s₁.scan isXdigit (fun result ch => (result * 16 + digitValue ch) % 2 ^ 32) 0).map fun r => (r.1, r.2.2.tokenPrevChar)
      else if isOctal c then
        (scanLoop isOctal (fun result ch => (result * 8 + (ch.toNat - '0'.toNat)) % 2 ^ 32) s₁.fuel 0 c s₁).map fun r =>
          (r.1, r.2.2.tokenPrevChar)
      else some (0, s₁)) := by
  have hread := read_next s
  rw [hs] at hread
  refine ⟨_, hread.eq_of_cons ▸ hread, fun v hv => ?_, fun hnone => ?_⟩
  · rw [tokenProcEscape]
    simp only [hread.eq_of_cons, hv]
  · rw [tokenProcEscape]
    simp only [hread.eq_of_cons, hnone]

/-- A simple escape is one byte: the right one, or 0. -/
theorem tokenProcEscape_simple {e : Char × ℕ} (hs : s.rest = e.1 :: r) (he : e ∈ escapes) : ∃ res,
    s.tokenProcEscape = some res ∧ res.2.rest = r ∧ (res.1 % 256 = e.2 ↔ (stringEscape e.1).isSome) := by
  obtain ⟨s₁, hread, hsome, hnone⟩ := tokenProcEscape_escape hs
  cases hv : stringEscape e.1 with
  | some v =>
    have hvalue : ∀ e ∈ escapes, ∀ v, stringEscape e.1 = some v → v % 256 = e.2 := by decide
    exact ⟨_, hsome v hv, hread.rest_of_cons, iff_of_true (hvalue e he v hv) rfl⟩
  | none =>
    have hother : ∀ e ∈ escapes, stringEscape e.1 = none →
        ¬(e.1 = 'x' ∨ e.1 = 'X') ∧ ¬isOctal e.1 = true ∧ 0 % 256 ≠ e.2 := by decide
    obtain ⟨hx, ho, hzero⟩ := hother e he hv
    refine ⟨_, (hnone hv).trans ((if_neg hx).trans (if_neg ho)), hread.rest_of_cons, iff_of_false hzero nofun⟩

/-- A hexadecimal escape. -/
theorem tokenProcEscape_hex {ds : List Char} (hs : s.rest = 'x' :: (ds ++ r)) (hds : ∀ d ∈ ds, isXdigit d = true)
    (hr : ∀ c ∈ r.head?, isXdigit c = false) : ∃ res, s.tokenProcEscape = some res ∧ res.2.rest = r ∧
      res.1 % 256 = ds.foldl (fun v d => v * 16 + digitValue d) 0 % 256 := by
  obtain ⟨s₁, hread, -, hnone⟩ := tokenProcEscape_escape hs
  have hread₁ := read_next s₁
  rw [hread.rest_of_cons] at hread₁
  obtain ⟨ch', s', heq, hread', -⟩ := hread₁.scanLoop isXdigit (fun result ch => (result * 16 + digitValue ch) % 2 ^ 32) 0
    hds hr (by decide)
  have hfuel : s₁.tokenNextChar.2.fuel = s₁.fuel := by simp [fuel]
  rw [hfuel] at heq
  refine ⟨_, (hnone rfl).trans ((if_pos (.inl rfl)).trans (congrArg (Option.map _) heq)), hread'.back, ?_⟩
  have hfold := foldl_digits_mod (b := 16) (m := 2 ^ 32) ds (fun _ _ => rfl) 0
  exact (congrArg (· % 256) hfold).trans (Nat.mod_mod_of_dvd _ (by decide))

/-- An octal escape takes all octal digits that follow. -/
theorem tokenProcEscape_octal {ds : List Char} (hs : s.rest = ds ++ r) (hne : ds ≠ []) (hds : ∀ d ∈ ds, isOctal d = true) :
    ∃ res, s.tokenProcEscape = some res ∧ res.2.rest = r.dropWhile isOctal ∧
      res.1 % 256 = (ds ++ r.takeWhile isOctal).foldl (fun v d => v * 8 + digitValue d) 0 % 256 := by
  obtain ⟨d, ds, rfl⟩ := List.exists_cons_of_ne_nil hne
  obtain ⟨s₁, hread, -, hrun⟩ := tokenProcEscape_escape hs
  have hd := hds d List.mem_cons_self
  have hnone : stringEscape d = none := by
    unfold stringEscape
    split <;> first | rfl | exact absurd hd (by decide)
  have hx : ¬(d = 'x' ∨ d = 'X') := by
    rintro (rfl | rfl) <;> exact absurd hd (by decide)
  obtain ⟨ch', s', heq, hread', -⟩ := hread.scanLoop_span isOctal
    (fun result ch => (result * 8 + (ch.toNat - '0'.toNat)) % 2 ^ 32) 0 (by decide)
  refine ⟨_, (hrun hnone).trans ((if_neg hx).trans ((if_pos hd).trans (congrArg (Option.map _) heq))), ?_, ?_⟩
  · exact hread'.back.trans (List.dropWhile_append_of_pos hds)
  · have htake : (d :: ds ++ r).takeWhile isOctal = d :: ds ++ r.takeWhile isOctal := List.takeWhile_append_of_pos hds
    have hall : ∀ c ∈ d :: ds ++ r.takeWhile isOctal, c.toNat - '0'.toNat = digitValue c := by
      intro c hc
      have ho : isOctal c = true := (List.mem_append.mp hc).elim (hds c) List.mem_takeWhile_imp
      exact (digitValue_of_isDigit (isDigit_of_isOctal ho)).symm
    have hfold := foldl_digits_mod (b := 8) (m := 2 ^ 32) _ hall 0
    rw [← htake] at hfold ⊢
    exact (congrArg (· % 256) hfold).trans (Nat.mod_mod_of_dvd _ (by decide))

/-- One character of a string. -/
theorem stringLoop_cons (fuel : ℕ) {acc : List ℕ} (hacc : acc.length < finshStringMax) (hs : s.rest = c :: r) :
    ∃ s₁ : FinshToken, s₁.rest = r ∧ stringLoop (fuel + 1) acc s =
      if c = '\\' then s₁.tokenProcEscape.bind fun res => stringLoop fuel (acc ++ [res.1 % 256]) res.2
      else if c = '"' then some { s₁ with string := acc }
      else stringLoop fuel (acc ++ [c.toNat % 256]) s₁ := by
  have hread := read_next s
  rw [hs] at hread
  refine ⟨_, hread.rest_of_cons, ?_⟩
  rw [stringLoop, if_neg (Nat.not_le.mpr hacc)]
  simp only [hread.eq_of_cons, hread.eof_of_cons, Bool.false_eq_true, if_false]

theorem head?_itemsText (items : List CharItem) {p : Char → Bool} (hp : p '"' = false)
    (h : ∀ c ∈ (itemsText items).head?, p c = false) : ∀ c ∈ (itemsText items ++ '"' :: r).head?, p c = false := by
  cases htext : itemsText items with
  | nil =>
    rintro c ⟨⟩
    exact hp
  | cons d tail =>
    rw [htext] at h
    exact h

theorem ItemsWellFormed.dropWhile {items : List CharItem} (p : CharItem → Bool) (h : ItemsWellFormed items) :
    ItemsWellFormed (items.dropWhile p) := by
  induction items with
  | nil => exact h
  | cons item items ih =>
    rw [List.dropWhile_cons]
    split
    · exact ih h.2.2
    · exact h

/-- The items that an octal escape takes with it: none, when it is decoded. -/
theorem dropWhile_isOctalDigit (items : List CharItem) :
    ((∀ c ∈ (itemsText items).head?, isOctal c = false) → (items.dropWhile CharItem.isOctalDigit) = items) ∧
      (¬(∀ c ∈ (itemsText items).head?, isOctal c = false) →
        (items.dropWhile CharItem.isOctalDigit).length < items.length) := by
  cases items with
  | nil => exact ⟨fun _ => rfl, fun hno => absurd nofun hno⟩
  | cons item items =>
    by_cases hitem : item.isOctalDigit = true
    · have hlt : ((item :: items).dropWhile CharItem.isOctalDigit).length < (item :: items).length := by
        rw [List.dropWhile_cons_of_pos hitem]
        exact Nat.lt_succ_of_le (List.dropWhile_sublist _).length_le
      refine ⟨fun hhead => ?_, fun _ => hlt⟩
      cases item with
      | plain c => exact absurd ((hhead c rfl).symm.trans hitem) Bool.false_ne_true
      | simple e => exact absurd hitem Bool.false_ne_true
      | octal ds => exact absurd hitem Bool.false_ne_true
      | hex ds => exact absurd hitem Bool.false_ne_true
    · refine ⟨fun _ => List.dropWhile_cons_of_neg hitem, fun hno => absurd (fun c hc => ?_) hno⟩
      cases item with
      | plain d =>
        cases hc
        exact Bool.not_eq_true _ ▸ hitem
      | simple e =>
        cases hc
        rfl
      | octal ds =>
        cases hc
        rfl
      | hex ds =>
        cases hc
        rfl

theorem takeWhile_eq_nil {p : Char → Bool} (h : ∀ c ∈ r.head?, p c = false) : r.takeWhile p = [] := by
  cases r with
  | nil => rfl
  | cons c r => exact List.takeWhile_cons_of_neg (Bool.not_eq_true _ ▸ h c rfl)

/-- **One item of a string**: what is stored, and which items are left. -/
theorem stringLoop_item (fuel : ℕ) {acc : List ℕ} {item : CharItem} {items : List CharItem}
    (hacc : acc.length < finshStringMax) (hs : s.rest = itemsText (item :: items) ++ '"' :: r)
    (hw : ItemsWellFormed (item :: items)) :
    ∃ (b : ℕ) (items' : List CharItem) (s' : FinshToken), stringLoop (fuel + 1) acc s = stringLoop fuel (acc ++ [b]) s' ∧
      s'.rest = itemsText items' ++ '"' :: r ∧ ItemsWellFormed items' ∧
      (item.StringOk (itemsText items) → b = item.value ∧ items' = items) ∧
      (¬item.StringOk (itemsText items) → items' = items ∧ b ≠ item.value ∨ items'.length < items.length) := by
  obtain ⟨hitem, hends, hitems⟩ := hw
  rw [itemsText_cons, List.append_assoc] at hs
  cases item with
  | plain c =>
    obtain ⟨s₁, hrest, heq⟩ := stringLoop_cons fuel hacc hs
    rw [if_neg hitem.2.2, if_neg hitem.2.1] at heq
    exact ⟨_, items, s₁, heq, hrest, hitems, fun _ => ⟨rfl, rfl⟩, fun hno => absurd trivial hno⟩
  | simple e =>
    obtain ⟨s₁, hrest, heq⟩ := stringLoop_cons fuel hacc hs
    obtain ⟨res, hrun, hrest', hiff⟩ := tokenProcEscape_simple hrest hitem
    rw [if_pos rfl, hrun, Option.bind_some] at heq
    exact ⟨_, items, _, heq, hrest', hitems, fun hok => ⟨hiff.mpr hok, rfl⟩, fun hno => .inl ⟨rfl, fun hb => hno (hiff.mp hb)⟩⟩
  | octal ds =>
    obtain ⟨s₁, hrest, heq⟩ := stringLoop_cons fuel hacc hs
    obtain ⟨res, hrun, hrest', hval⟩ := tokenProcEscape_octal hrest hitem.1 hitem.2.2
    rw [if_pos rfl, hrun, Option.bind_some] at heq
    obtain ⟨hsame, hless⟩ := dropWhile_isOctalDigit items
    refine ⟨_, _, _, heq, hrest'.trans (dropWhile_itemsText items), hitems.dropWhile _, fun hok => ⟨?_, hsame hok⟩,
      fun hno => .inr (hless hno)⟩
    rw [hval, takeWhile_eq_nil (head?_itemsText items (by decide) hok), List.append_nil]
    rfl
  | hex ds =>
    obtain ⟨s₁, hrest, heq⟩ := stringLoop_cons fuel hacc hs
    obtain ⟨res, hrun, hrest', hval⟩ := tokenProcEscape_hex hrest hitem.2 (head?_itemsText items (by decide) hends)
    rw [if_pos rfl, hrun, Option.bind_some] at heq
    exact ⟨_, items, _, heq, hrest', hitems, fun _ => ⟨hval, rfl⟩, fun hno => absurd trivial hno⟩

/-- The end of the array. -/
theorem stringLoop_full (fuel : ℕ) {acc : List ℕ} {items : List CharItem} (hacc : finshStringMax ≤ acc.length)
    (hs : s.rest = itemsText items ++ '"' :: r) :
    ∃ s', stringLoop (fuel + 1) acc s = some s' ∧ s'.rest ≠ r := by
  refine ⟨{ s with string := acc }, by rw [stringLoop, if_pos hacc], ?_⟩
  exact ne_of_length_lt (hs ▸ by simp; omega : r.length < s.rest.length)

/-- The end of the string. -/
theorem stringLoop_nil (fuel : ℕ) {acc : List ℕ} (hacc : acc.length < finshStringMax) (hs : s.rest = '"' :: r) :
    ∃ s', stringLoop (fuel + 1) acc s = some s' ∧ s'.string = acc ∧ s'.rest = r := by
  obtain ⟨s₁, hrest, heq⟩ := stringLoop_cons fuel hacc hs
  exact ⟨_, heq, rfl, hrest⟩

/-- A string stores at most one byte for an item, when it ends where it should. -/
theorem stringLoop_bound {fuel : ℕ} {acc : List ℕ} {items : List CharItem} (hfuel : fuel + acc.length = finshStringMax)
    (hw : ItemsWellFormed items) (hs : s.rest = itemsText items ++ '"' :: r) :
    ∃ s', stringLoop (fuel + 1) acc s = some s' ∧
      (s'.rest = r → ∃ bytes, s'.string = acc ++ bytes ∧ bytes.length ≤ items.length) := by
  induction fuel generalizing acc items s with
  | zero =>
    have hacc : finshStringMax ≤ acc.length := by omega
    obtain ⟨s', heq, hne⟩ := stringLoop_full 0 hacc hs
    exact ⟨s', heq, fun h => absurd h hne⟩
  | succ fuel ih =>
    have hacc : acc.length < finshStringMax := by omega
    cases items with
    | nil =>
      obtain ⟨s', heq, hstring, -⟩ := stringLoop_nil (fuel + 1) hacc hs
      exact ⟨s', heq, fun _ => ⟨[], hstring.trans (List.append_nil _).symm, Nat.le_refl 0⟩⟩
    | cons item items =>
      obtain ⟨b, items', s₁, heq, hs₁, hw₁, hok, hno⟩ := stringLoop_item (fuel + 1) hacc hs hw
      have hfuel₁ : fuel + (acc ++ [b]).length = finshStringMax := by
        rw [List.length_append, List.length_singleton]
        omega
      obtain ⟨s', heq', himp⟩ := ih hfuel₁ hw₁ hs₁
      refine ⟨s', heq.trans heq', fun hrest => ?_⟩
      obtain ⟨bytes, hstring, hlen⟩ := himp hrest
      refine ⟨b :: bytes, by rw [hstring, List.append_assoc]; rfl, ?_⟩
      have hle : items'.length ≤ items.length := by
        by_cases h : item.StringOk (itemsText items)
        · exact (hok h).2 ▸ Nat.le_refl _
        · rcases hno h with ⟨rfl, -⟩ | hlt
          · exact Nat.le_refl _
          · exact Nat.le_of_lt hlt
      exact Nat.succ_le_succ (hlen.trans hle)

/-- **A string** is decoded when its items are, and have place. -/
theorem stringLoop_iff {fuel : ℕ} {acc : List ℕ} {items : List CharItem} (hfuel : fuel + acc.length = finshStringMax)
    (hw : ItemsWellFormed items) (hs : s.rest = itemsText items ++ '"' :: r) :
    ∃ s', stringLoop (fuel + 1) acc s = some s' ∧ (s'.string = acc ++ items.map CharItem.value ∧ s'.rest = r ↔
      items.length < fuel ∧ ItemsOk items) := by
  induction items generalizing fuel acc s with
  | nil =>
    cases fuel with
    | zero =>
      have hacc : finshStringMax ≤ acc.length := by omega
      obtain ⟨s', heq, hne⟩ := stringLoop_full 0 hacc hs
      exact ⟨s', heq, iff_of_false (fun h => hne h.2) fun h => Nat.not_lt_zero _ h.1⟩
    | succ fuel =>
      have hacc : acc.length < finshStringMax := by omega
      obtain ⟨s', heq, hstring, hrest⟩ := stringLoop_nil (fuel + 1) hacc hs
      exact ⟨s', heq, iff_of_true ⟨hstring.trans (List.append_nil _).symm, hrest⟩ ⟨Nat.succ_pos _, trivial⟩⟩
  | cons item items ih =>
    cases fuel with
    | zero =>
      have hacc : finshStringMax ≤ acc.length := by omega
      obtain ⟨s', heq, hne⟩ := stringLoop_full 0 hacc hs
      exact ⟨s', heq, iff_of_false (fun h => hne h.2) fun h => Nat.not_lt_zero _ h.1⟩
    | succ fuel =>
      have hacc : acc.length < finshStringMax := by omega
      obtain ⟨b, items', s₁, heq, hs₁, hw₁, hok, hno⟩ := stringLoop_item (fuel + 1) hacc hs hw
      have hfuel₁ : fuel + (acc ++ [b]).length = finshStringMax := by
        rw [List.length_append, List.length_singleton]
        omega
      by_cases h : item.StringOk (itemsText items)
      · obtain ⟨rfl, rfl⟩ := hok h
        obtain ⟨s', heq', hiff⟩ := ih hfuel₁ hw₁ hs₁
        refine ⟨s', heq.trans heq', ?_⟩
        rw [List.map_cons, List.length_cons, Nat.succ_lt_succ_iff, ItemsOk, and_iff_right h, ← hiff, List.append_assoc]
        rfl
      · obtain ⟨s', heq', himp⟩ := stringLoop_bound hfuel₁ hw₁ hs₁
        refine ⟨s', heq.trans heq', iff_of_false ?_ fun hall => h hall.2.1⟩
        rintro ⟨hstring, hrest⟩
        obtain ⟨bytes, hbytes, hlen⟩ := himp hrest
        rw [hstring, List.append_assoc, List.append_cancel_left_eq, List.map_cons, List.singleton_append,
          List.cons.injEq] at hbytes
        rcases hno h with ⟨-, hb⟩ | hlt
        · exact hb hbytes.1.symm
        · rw [← hbytes.2, List.length_map] at hlen
          exact absurd hlen (Nat.not_le.mpr hlt)

/-! ## Literals -/

/-- **A literal** of C. -/
inductive Literal where
  | int (lit : IntLiteral)
  | char (item : CharItem)
  | string (items : List CharItem)

namespace Literal

def text : Literal → List Char
  | int lit => lit.text
  | char item => '\'' :: (item.text ++ ['\''])
  | string items => '"' :: (itemsText items ++ ['"'])

/-- The literal is one of C, and ends in front of the text. -/
def WellFormed (tail : List Char) : Literal → Prop
  | int lit => lit.WellFormed ∧ EndsNumber tail
  | char item => item.WellFormed '\''
  | string items => ItemsWellFormed items

/-- The token has the value of the literal. -/
def IsValue (t : FinshToken) : Literal → Prop
  | int lit => IsInt t (lit.value % 2 ^ 32)
  | char item => t.currentToken = .valueChar ∧ t.charValue = item.value
  | string items => t.currentToken = .valueString ∧ t.string = items.map CharItem.value

/-- **Which literals are decoded.** -/
def Ok : Literal → Prop
  | int lit => lit.Ok
  | char item => item.CharOk
  | string items => items.length < finshStringMax ∧ ItemsOk items

end Literal

/-- A quote begins a character. -/
theorem runOperator_char (hs : s.rest = '\'' :: r) : ∃ s' : FinshToken, s'.rest = r ∧
    s.runOperator = s'.tokenProcChar.map fun r => { r.2 with charValue := r.1, currentToken := .valueChar } := by
  have hread := read_next s
  rw [hs] at hread
  refine ⟨_, hread.rest_of_cons, ?_⟩
  rw [runOperator]
  simp only [hread.eq_of_cons]
  rfl

/-- A double quote begins a string. -/
theorem runOperator_string (hs : s.rest = '"' :: r) : ∃ s' : FinshToken, s'.rest = r ∧
    s.runOperator = s'.tokenProcString.map fun s => s.setToken .valueString := by
  have hread := read_next s
  rw [hs] at hread
  refine ⟨_, hread.rest_of_cons, ?_⟩
  rw [runOperator]
  simp only [hread.eq_of_cons]
  rfl

/-- The first character of an integer literal. -/
theorem IntLiteral.WellFormed.text_cons {lit : IntLiteral} (hw : lit.WellFormed) :
    ∃ c tail, lit.text = c :: tail ∧ isDigit c = true := by
  obtain ⟨radix, digits, suffix⟩ := lit
  cases radix with
  | dec =>
    obtain ⟨d, ds, rfl⟩ := List.exists_cons_of_ne_nil (hw.nonempty nofun)
    exact ⟨d, ds ++ suffix, rfl, hw.digits d List.mem_cons_self⟩
  | oct => exact ⟨'0', _, rfl, rfl⟩
  | hex upper => exact ⟨'0', _, rfl, rfl⟩
  | bin upper => exact ⟨'0', _, rfl, rfl⟩

/-- **Literals.** Wherever a literal stands in a line, behind any blanks, the tokenizer of finsh stores its value and goes on
behind it if and only if it is one of `Literal.Ok`: a number whose digits have place in the buffer, without a suffix when it is
0 or hexadecimal (but for the one value each that the suffix as a digit does not change); a character that is not escaped by
`\f`, `\a`, `\"` or `\x`, and by octal digits for 0 only; a string of less than 128 items without `\\` and `\'`, and without
an octal digit behind an octal escape of three digits. -/
theorem finsh_token_literals (s : FinshToken) (lit : Literal) (blanks r : List Char)
    (hs : s.rest = blanks ++ (lit.text ++ r)) (hb : ∀ b ∈ blanks, isBlank b = true) (hw : lit.WellFormed r) :
    (∃ t, s.tokenRun = some t ∧ lit.IsValue t ∧ t.rest = r) ↔ lit.Ok := by
  cases lit with
  | int lit =>
    obtain ⟨c, tail, htext, hc⟩ := hw.1.text_cons
    simp only [Literal.text, htext, List.cons_append] at hs
    have hblank : isBlank c = false := by
      by_contra hne
      simp only [isBlank, Bool.not_eq_false, Bool.or_eq_true, beq_iff_eq] at hne
      rcases hne with (rfl | rfl) | rfl <;> exact absurd hc (by decide)
    obtain ⟨s₁, heq, hs₁⟩ := tokenRun_spec hs hb hblank (.inl hc)
    obtain ⟨s₂, heq₂, hs₂⟩ := runOperator_digit hs₁ hc
    rw [heq, heq₂]
    rw [← List.cons_append, ← htext] at hs₂
    exact tokenProcNumber_iff hs₂ hw.1 hw.2
  | char item =>
    simp only [Literal.text, List.cons_append, List.append_assoc] at hs
    obtain ⟨s₁, heq, hs₁⟩ := tokenRun_spec hs hb (by decide) (.inr (by decide))
    obtain ⟨s₂, hs₂, heq₂⟩ := runOperator_char hs₁
    obtain ⟨res, hrun, hiff⟩ := tokenProcChar_iff hs₂ hw
    rw [heq, heq₂, hrun]
    simp only [Option.map_some, Option.some_inj, exists_eq_left']
    exact (and_congr_left' (and_iff_right rfl)).trans hiff
  | string items =>
    simp only [Literal.text, List.cons_append, List.append_assoc] at hs
    obtain ⟨s₁, heq, hs₁⟩ := tokenRun_spec hs hb (by decide) (.inr (by decide))
    obtain ⟨s₂, hs₂, heq₂⟩ := runOperator_string hs₁
    have hfuel : finshStringMax + ([] : List ℕ).length = finshStringMax := rfl
    obtain ⟨t, hrun, hiff⟩ := stringLoop_iff hfuel hw hs₂
    rw [heq, heq₂, tokenProcString, hrun]
    simp only [Option.map_some, Option.some_inj, exists_eq_left']
    exact (and_congr_left' (and_iff_right rfl)).trans hiff

/-- `0x2A` behind two blanks. -/
theorem finsh_token_literals_hex : ∃ t, (init "  0x2A;".toList).tokenRun = some t ∧ IsInt t 42 ∧ t.rest = [';'] := by
  have hw : (Literal.int ⟨.hex false, ['2', 'A'], []⟩).WellFormed [';'] :=
    ⟨⟨List.all_eq_true.mp rfl, fun _ => nofun, nofun, .inl rfl⟩, by rintro c ⟨⟩; rfl⟩
  exact (finsh_token_literals (init "  0x2A;".toList) (.int ⟨.hex false, ['2', 'A'], []⟩) [' ', ' '] [';']
    rfl (List.all_eq_true.mp rfl) hw).mpr ⟨by decide, nofun, nofun⟩

/-- `'\113'` is 75 in C; the token is 0. -/
theorem finsh_token_literals_lost : ∃ (s : FinshToken) (lit : Literal) (r : List Char), s.rest = lit.text ++ r ∧ lit.WellFormed r ∧
    ¬∃ t, s.tokenRun = some t ∧ lit.IsValue t ∧ t.rest = r := by
  refine ⟨init "'\\113';".toList, .char (.octal ['1', '1', '3']), [';'], by decide, ⟨nofun, Nat.le_refl 3, List.all_eq_true.mp rfl⟩, ?_⟩
  rintro ⟨t, hrun, ⟨-, hvalue⟩, -⟩
  have hzero : (init "'\\113';".toList).tokenRun.map (·.charValue) = some 0 := by decide
  rw [hrun, Option.map_some, hvalue] at hzero
  exact absurd hzero (by decide)

end FinshToken

end CoreLink.RtThread
