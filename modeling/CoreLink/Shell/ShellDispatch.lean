/-
# `CoreLink.Shell.ShellDispatch` — which command `shell` calls, and what it returns.

The search takes an entry for the right one if `str_cmp` says so: for an empty name it always does, and where the two strings
agree on 257 characters its index, an `uint8_t`, goes round and round. The count that is compared with the arguments of the
entry includes the command itself, so a command that lacks one argument is called with a null pointer. And what the function
returns goes through an `int16_t` and an `int8_t`.

`shell_dispatch_iff` says for which tables, lines and results none of this matters.
-/
import CoreLink.Shell.ShellLine
import Mathlib.Data.BitVec

namespace CoreLink.Shell

open CoreLink.Lib

/-! ## `str_cmp` -/

/-- `str[i]`. -/
def charAt (str : List UInt8) (i : ℕ) : UInt8 := str.getD i 0

/-- The loop of `str_cmp`, with at most a number of rounds. -/
def strCmpLoop (str1 str2 : List UInt8) : ℕ → ℕ → Option Bool
  | 0, _ => none
  | n + 1, i =>
    if charAt str1 i ≠ 0 ∧ charAt str2 i ≠ 0 then
      if charAt str1 i ≠ charAt str2 i ∨ charAt str1 (i + 1) ≠ charAt str2 (i + 1) then some false
      else strCmpLoop str1 str2 n ((i + 1) % 2 ^ 8)
    else some true

/-- `str_cmp`. After 256 rounds the index is 0 again, and the loop does not end. -/
def strCmp (str1 str2 : List UInt8) : Option Bool := strCmpLoop str1 str2 (2 ^ 8) 0

/-! ## `shell` -/

/-- `SH_CMD_NOTFND`, `SH_CMD_ERROR`, `SH_CMD_ARGCNT` and `SH_CMD_SUCCESS`. -/
def shCmdNotfnd : ℤ := -127

@[inherit_doc shCmdNotfnd] def shCmdError : ℤ := -126

@[inherit_doc shCmdNotfnd] def shCmdArgcnt : ℤ := -125

@[inherit_doc shCmdNotfnd] def shCmdSuccess : ℤ := 1

/-- The arguments of a function; a null pointer is `none`. -/
abbrev Arguments := List (Option (List UInt8))

/-- `struct shell_act`. What the function returns is an `int`. -/
structure ShellAct where
  name : List UInt8
  func : Arguments → BitVec 32
  argc : ℕ
  noNul : 0 ∉ name

/-- What a run of `shell` does: the function that is called with its arguments, and the result. -/
structure ShellRun where
  call : Option (ShellAct × Arguments)
  code : ℤ

/-- The search for the command; there is no result if a comparison does not end. -/
def findAct (arg0 : List UInt8) : List ShellAct → Option (Option ShellAct)
  | [] => some none
  | act :: acts => (strCmp act.name arg0).bind fun found => if found then some (some act) else findAct arg0 acts

/-- The result of `shell`, from what the function has returned: through `ret_code`, an `int16_t`. -/
def retCode (value : BitVec 32) : ℤ :=
  if (value.setWidth 16).toInt < 0 then shCmdError else ((value.setWidth 16).setWidth 8).toInt

/-- `cmd.arg[1]` and so on; `cmd` is all zero before it is filled. -/
def argumentsOf (arg : List (List UInt8)) (argc : ℕ) : Arguments := (List.range argc).map fun i => arg[i + 1]?

/-- What is done with the entry that has been found. -/
def callAct (act : ShellAct) (arg : List (List UInt8)) : ShellRun :=
  if arg.length < act.argc then ⟨none, shCmdArgcnt⟩
  else if act.argc ≤ 4 then ⟨some (act, argumentsOf arg act.argc), retCode (act.func (argumentsOf arg act.argc))⟩
  else ⟨none, 0⟩

/-- `shell`, behind the loop over the words. -/
def dispatch (table : List ShellAct) (arg : List (List UInt8)) : Option ShellRun :=
  (findAct (arg.headD []) table).map fun found =>
    match found with
    | none => ⟨none, shCmdNotfnd⟩
    | some act => callAct act arg

/-- `shell`. -/
def Ram.shell (m : Ram) (table : List ShellAct) (str : ℕ) : Option ShellRun :=
  match m.shellCmd str with
  | none => some ⟨none, shCmdSuccess⟩
  | some r => dispatch table (r.1.map r.2.string)

/-! ## What it should do -/

/-- The result for what a function has returned. -/
structure CodeOf (value code : ℤ) : Prop where
  found : code ≠ shCmdNotfnd
  enough : code ≠ shCmdArgcnt
  error : code = shCmdError ↔ value < 0
  fits : 0 ≤ value → value < 2 ^ 7 → code = value

/-- **A command is dispatched as it should be**: to the first entry of its name, if there are as many arguments as the entry
has. -/
inductive Dispatched (table : List ShellAct) (word : List UInt8) (args : List (List UInt8)) (run : ShellRun) : Prop
  | notfnd (hnone : ∀ act ∈ table, act.name ≠ word) (hrun : run = ⟨none, shCmdNotfnd⟩)
  | argcnt (act : ShellAct) (hact : table.find? (fun act => decide (act.name = word)) = some act)
      (hfew : args.length < act.argc) (hrun : run = ⟨none, shCmdArgcnt⟩)
  | called (act : ShellAct) (hact : table.find? (fun act => decide (act.name = word)) = some act)
      (henough : act.argc ≤ args.length) (hcall : run.call = some (act, (args.take act.argc).map some))
      (hcode : CodeOf (act.func ((args.take act.argc).map some)).toInt run.code)

/-! ## Comparisons -/

section Compare

variable {s w : List UInt8}

/-- Two strings that agree on 257 characters, the last of which may be the NULs. -/
def Endless (s w : List UInt8) : Prop :=
  (∀ i, i ≤ 2 ^ 8 → charAt s i = charAt w i) ∧ ∀ i, i < 2 ^ 8 → charAt s i ≠ 0

theorem charAt_of_lt {i : ℕ} (h : i < s.length) : charAt s i = s[i] := by
  rw [charAt, List.getD_eq_getElem?_getD, List.getElem?_eq_getElem h, Option.getD_some]

theorem charAt_of_le {i : ℕ} (h : s.length ≤ i) : charAt s i = 0 := by
  rw [charAt, List.getD_eq_getElem?_getD, List.getElem?_eq_none h, Option.getD_none]

/-- Without a NUL in a string, its characters tell its length. -/
theorem charAt_eq_zero_iff (hs : 0 ∉ s) {i : ℕ} : charAt s i = 0 ↔ s.length ≤ i := by
  refine ⟨fun h => ?_, charAt_of_le⟩
  by_contra hlt
  rw [charAt_of_lt (by omega)] at h
  exact hs (h ▸ List.getElem_mem _)

/-- The first difference of two strings. -/
theorem exists_differ (hs : 0 ∉ s) (hw : 0 ∉ w) (hne : s ≠ w) :
    ∃ d, charAt s d ≠ charAt w d ∧ ∀ i, i < d → charAt s i = charAt w i ∧ charAt s i ≠ 0 := by
  have hdiffer : ∃ d, charAt s d ≠ charAt w d := by
    by_contra hall
    have hall : ∀ d, charAt s d = charAt w d := fun d => by_contra fun h => hall ⟨d, h⟩
    have hlength : s.length = w.length := by
      have hsw := (charAt_eq_zero_iff hs).mp ((hall w.length).trans (charAt_of_le (Nat.le_refl _)))
      have hws := (charAt_eq_zero_iff hw).mp ((hall s.length).symm.trans (charAt_of_le (Nat.le_refl _)))
      omega
    refine hne (List.ext_getElem hlength fun i hi hi' => ?_)
    rw [← charAt_of_lt hi, ← charAt_of_lt hi', hall]
  refine ⟨Nat.find hdiffer, Nat.find_spec hdiffer, fun i hi => ?_⟩
  have hsame : charAt s i = charAt w i := not_not.mp (Nat.find_min hdiffer hi)
  refine ⟨hsame, fun hzero => Nat.find_spec hdiffer ?_⟩
  -- behind the NULs there would be no difference
  have hsle := (charAt_eq_zero_iff hs).mp hzero
  have hwle := (charAt_eq_zero_iff hw).mp (hsame.symm.trans hzero)
  rw [charAt_of_le (by omega), charAt_of_le (by omega)]

theorem strCmpLoop_self (h : s.length < 2 ^ 8) {n i : ℕ} (hi : i ≤ s.length) (hn : s.length < i + n) (hs : 0 ∉ s) :
    strCmpLoop s s n i = some true := by
  induction n generalizing i with
  | zero => omega
  | succ n ih =>
    rw [strCmpLoop]
    by_cases hend : i = s.length
    · rw [if_neg (by rw [charAt_of_le (by omega)]; simp)]
    · have hnz : charAt s i ≠ 0 := fun hzero => hend (by have := (charAt_eq_zero_iff hs).mp hzero; omega)
      rw [if_pos ⟨hnz, hnz⟩, if_neg (by simp), Nat.mod_eq_of_lt (by omega)]
      exact ih (by omega) (by omega)

theorem strCmpLoop_endless (h : Endless s w) {n i : ℕ} (hn : i + n = 2 ^ 8) : strCmpLoop s w n i = none := by
  induction n generalizing i with
  | zero => rfl
  | succ n ih =>
    have hnz := h.2 i (by omega)
    rw [strCmpLoop, if_pos ⟨hnz, by rwa [← h.1 i (by omega)]⟩, if_neg (by rw [h.1 i (by omega), h.1 (i + 1) (by omega)]; simp)]
    cases n with
    | zero => rfl
    | succ n =>
      rw [Nat.mod_eq_of_lt (by omega)]
      exact ih (by omega)

theorem strCmpLoop_differ {d : ℕ} (hd : charAt s d ≠ charAt w d)
    (hbefore : ∀ i, i < d → charAt s i = charAt w i ∧ charAt s i ≠ 0) {n i : ℕ} (hid : i < d) (hdn : d ≤ i + n)
    (hn : i + n ≤ 2 ^ 8) : strCmpLoop s w n i = some false := by
  induction n generalizing i with
  | zero => omega
  | succ n ih =>
    obtain ⟨hsame, hnz⟩ := hbefore i hid
    rw [strCmpLoop, if_pos ⟨hnz, hsame ▸ hnz⟩]
    by_cases hnext : i + 1 = d
    · rw [if_pos (Or.inr (hnext ▸ hd))]
    · rw [if_neg (by rw [hsame, (hbefore (i + 1) (by omega)).1]; simp), Nat.mod_eq_of_lt (by omega)]
      exact ih (by omega) (by omega) (by omega)

theorem strCmp_nil : strCmp [] w = some true := rfl

theorem strCmp_endless (h : Endless s w) : strCmp s w = none := strCmpLoop_endless h (Nat.zero_add _)

/-- **The comparison**, where it is one. -/
theorem strCmp_eq (hs : 0 ∉ s) (hw : 0 ∉ w) (hsne : s ≠ []) (hwne : w ≠ []) (hends : ¬Endless s w) :
    strCmp s w = some (decide (s = w)) := by
  by_cases heq : s = w
  · subst heq
    rw [decide_eq_true rfl]
    refine strCmpLoop_self ?_ (Nat.zero_le _) ?_ hs
    all_goals
      by_contra hlong
      refine hends ⟨fun i _ => rfl, fun i hi hzero => ?_⟩
      have hle := (charAt_eq_zero_iff hs).mp hzero
      omega
  · rw [decide_eq_false heq]
    obtain ⟨d, hd, hbefore⟩ := exists_differ hs hw heq
    have hshort : d ≤ 2 ^ 8 := by
      by_contra hlong
      exact hends ⟨fun i hi => (hbefore i (by omega)).1, fun i hi => (hbefore i (by omega)).2⟩
    cases d with
    | zero =>
      -- the first characters
      have hs0 : charAt s 0 ≠ 0 := fun h => hsne (List.length_eq_zero_iff.mp (Nat.le_zero.mp ((charAt_eq_zero_iff hs).mp h)))
      have hw0 : charAt w 0 ≠ 0 := fun h => hwne (List.length_eq_zero_iff.mp (Nat.le_zero.mp ((charAt_eq_zero_iff hw).mp h)))
      unfold strCmp
      rw [show (2 : ℕ) ^ 8 = 255 + 1 from rfl, strCmpLoop, if_pos ⟨hs0, hw0⟩, if_pos (Or.inl hd)]
    | succ d => exact strCmpLoop_differ hd hbefore (Nat.succ_pos d) (by omega) (by omega)

end Compare

/-! ## The search -/

/-- The comparisons end, up to the entry that the search takes. -/
def Ends (table : List ShellAct) (word : List UInt8) : Prop :=
  ∀ l act l', table = l ++ act :: l' → (∀ a ∈ l, a.name ≠ [] ∧ a.name ≠ word) → ¬Endless act.name word

/-- **The search** takes the first entry whose name is the word, or empty. -/
theorem findAct_eq {word : List UInt8} (hw : 0 ∉ word) (hne : word ≠ []) {table : List ShellAct} (h : Ends table word) :
    findAct word table = some (table.find? fun act => decide (act.name = [] ∨ act.name = word)) := by
  induction table with
  | nil => rfl
  | cons act acts ih =>
    have hact : ¬Endless act.name word := h [] act acts rfl fun a ha => absurd ha List.not_mem_nil
    rw [findAct]
    by_cases hempty : act.name = []
    · rw [hempty, strCmp_nil, Option.bind_some, if_pos rfl, List.find?_cons_of_pos (by simp [hempty])]
    · rw [strCmp_eq act.noNul hw hempty hne hact, Option.bind_some]
      by_cases heq : act.name = word
      · rw [if_pos (decide_eq_true heq), List.find?_cons_of_pos (by simp [heq])]
      · rw [if_neg (by simpa using heq), List.find?_cons_of_neg (by simp [hempty, heq])]
        refine ih fun l a l' hsplit hl => h (act :: l) a l' (by rw [hsplit]; rfl) fun b hb => ?_
        obtain rfl | hb := List.mem_cons.mp hb
        · exact ⟨hempty, heq⟩
        · exact hl b hb

theorem findAct_endless {word : List UInt8} (hw : 0 ∉ word) (hne : word ≠ []) {table : List ShellAct} (h : ¬Ends table word) :
    findAct word table = none := by
  induction table with
  | nil => exact absurd (fun l act l' hsplit => absurd hsplit.symm (by simp)) h
  | cons act acts ih =>
    rw [findAct]
    by_cases hact : Endless act.name word
    · rw [strCmp_endless hact, Option.bind_none]
    · have hrest : act.name ≠ [] ∧ act.name ≠ word ∧ ¬Ends acts word := by
        by_contra hstop
        refine h fun l a l' hsplit hl => ?_
        cases l with
        | nil =>
          obtain ⟨rfl, -⟩ := List.cons.inj hsplit
          exact hact
        | cons b l =>
          obtain ⟨rfl, hacts⟩ := List.cons.inj hsplit
          obtain ⟨hb, hb'⟩ := hl act List.mem_cons_self
          have hends : Ends acts word := not_not.mp fun hno => hstop ⟨hb, hb', hno⟩
          exact hends l a l' hacts fun c hc => hl c (List.mem_cons_of_mem _ hc)
      rw [strCmp_eq act.noNul hw hrest.1 hne hact, Option.bind_some, if_neg (by simpa using hrest.2.1)]
      exact ih hrest.2.2

/-! ## The result -/

/-- **Results that arrive**: a negative one is still negative in 16 bits, or becomes `SH_CMD_ERROR` by chance; one that does not
fit is not taken for a status. -/
def Kept (value : ℤ) : Prop :=
  if value < 0 then 2 ^ 15 ≤ value % 2 ^ 16 ∨ value % 2 ^ 8 = 130
  else value < 2 ^ 7 ∨ value % 2 ^ 16 < 2 ^ 15 ∧ value % 2 ^ 8 ∉ [129, 130, 131]

theorem retCode_eq (value : BitVec 32) : retCode value =
    if 2 ^ 15 ≤ value.toInt % 2 ^ 16 then shCmdError
    else if 2 ^ 7 ≤ value.toInt % 2 ^ 8 then value.toInt % 2 ^ 8 - 2 ^ 8 else value.toInt % 2 ^ 8 := by
  have hlt := value.isLt
  unfold retCode
  simp only [BitVec.toInt_eq_toNat_bmod, BitVec.toNat_setWidth, Int.bmod_def]
  split <;> split <;> split <;> split <;> omega

theorem codeOf_retCode_iff (value : BitVec 32) : CodeOf value.toInt (retCode value) ↔ Kept value.toInt := by
  have hge := BitVec.le_toInt value
  have hlt : value.toInt < 2 ^ (32 - 1) := BitVec.toInt_lt
  have hcode := retCode_eq value
  generalize retCode value = code at hcode ⊢
  generalize value.toInt = v at *
  unfold shCmdError at hcode
  have hiff : CodeOf v code ↔ (code ≠ -127 ∧ code ≠ -125 ∧ (code = -126 ↔ v < 0) ∧ (0 ≤ v → v < 2 ^ 7 → code = v)) :=
    ⟨fun h => ⟨h.found, h.enough, h.error, h.fits⟩, fun h => ⟨h.1, h.2.1, h.2.2.1, h.2.2.2⟩⟩
  rw [hiff]
  unfold Kept
  simp only [List.mem_cons, List.not_mem_nil, or_false]
  split at hcode <;> split <;> omega

/-! ## The dispatcher -/

/-- **When a command is dispatched as it should be.** The search ends. If no entry has the name, none is nameless either. If one
has it, it is the one that the search takes, and the arguments are enough and the result arrives, or at least two too few; or
else a nameless entry is in front of it, which needs at least two more arguments, and both lack some. -/
def Dispatches (table : List ShellAct) (word : List UInt8) (args : List (List UInt8)) : Prop :=
  Ends table word ∧
    ((∀ act ∈ table, act.name ≠ [] ∧ act.name ≠ word) ∨
      ∃ f act, table.find? (fun a => decide (a.name = [] ∨ a.name = word)) = some f ∧
        table.find? (fun a => decide (a.name = word)) = some act ∧
        (args.length + 1 < f.argc ∧ args.length < act.argc ∨
          f.name = word ∧ act.argc ≤ args.length ∧ Kept (act.func ((args.take act.argc).map some)).toInt))

theorem argumentsOf_cons (word : List UInt8) {args : List (List UInt8)} {n : ℕ} (h : n ≤ args.length) :
    argumentsOf (word :: args) n = (args.take n).map some := by
  refine List.ext_getElem (by simp [argumentsOf, h]) fun i hi hi' => ?_
  simp only [argumentsOf, List.length_map, List.length_range] at hi
  simp [argumentsOf, List.getElem?_eq_getElem (show i < args.length by omega)]

/-- If the search takes an entry of the name, it is the first of the name. -/
theorem find_eq {table : List ShellAct} {word : List UInt8} {f act : ShellAct}
    (hf : table.find? (fun a => decide (a.name = [] ∨ a.name = word)) = some f)
    (hact : table.find? (fun a => decide (a.name = word)) = some act) (hname : f.name = word) : f = act := by
  obtain ⟨-, l, l', hsplit, hbefore⟩ := List.find?_eq_some_iff_append.mp hf
  have hfirst : table.find? (fun a => decide (a.name = word)) = some f := by
    refine List.find?_eq_some_iff_append.mpr ⟨decide_eq_true hname, l, l', hsplit, fun a ha => ?_⟩
    have hno := hbefore a ha
    simp only [Bool.not_eq_true', decide_eq_false_iff_not, not_or] at hno ⊢
    exact hno.2
  exact Option.some.inj (hfirst.symm.trans hact)

theorem callAct_argcnt_iff (f : ShellAct) (arg : List (List UInt8)) :
    callAct f arg = ⟨none, shCmdArgcnt⟩ ↔ arg.length < f.argc := by
  unfold callAct
  split
  · exact iff_of_true rfl ‹_›
  · refine iff_of_false (fun h => ?_) ‹_›
    split at h
    · cases congrArg ShellRun.call h
    · exact absurd (congrArg ShellRun.code h) (by decide)

theorem callAct_notfnd (f : ShellAct) (arg : List (List UInt8)) : callAct f arg ≠ ⟨none, shCmdNotfnd⟩ := by
  intro h
  unfold callAct at h
  split at h
  · exact absurd (congrArg ShellRun.code h) (by decide)
  · split at h
    · cases congrArg ShellRun.call h
    · exact absurd (congrArg ShellRun.code h) (by decide)

/-- With enough arguments, the function is called. -/
theorem callAct_called (act : ShellAct) (word : List UInt8) {args : List (List UInt8)} (henough : act.argc ≤ args.length)
    (hargs : args.length + 1 ≤ maxArgc) : callAct act (word :: args) =
      ⟨some (act, (args.take act.argc).map some), retCode (act.func ((args.take act.argc).map some))⟩ := by
  unfold maxArgc at hargs
  unfold callAct
  rw [if_neg (by rw [List.length_cons]; omega), if_pos (by omega), argumentsOf_cons word henough]

theorem eq_of_call {f act : ShellAct} {arg : List (List UInt8)} {xs : Arguments}
    (h : (callAct f arg).call = some (act, xs)) : f = act := by
  unfold callAct at h
  split at h
  · cases h
  · split at h
    · exact (Prod.mk.inj (Option.some.inj h)).1
    · cases h

/-- The entry that the search takes, and the first one of the name. -/
theorem dispatched_callAct_iff {table : List ShellAct} {word : List UInt8} {args : List (List UInt8)} {f act : ShellAct}
    (hargs : args.length + 1 ≤ maxArgc)
    (hf : table.find? (fun a => decide (a.name = [] ∨ a.name = word)) = some f)
    (hact : table.find? (fun a => decide (a.name = word)) = some act) :
    Dispatched table word args (callAct f (word :: args)) ↔
      args.length + 1 < f.argc ∧ args.length < act.argc ∨
        f.name = word ∧ act.argc ≤ args.length ∧ Kept (act.func ((args.take act.argc).map some)).toInt := by
  have hname : act.name = word := by simpa using List.find?_some hact
  constructor
  · rintro (⟨hnone, -⟩ | ⟨act', hact', hfew, hrun⟩ | ⟨act', hact', henough, hcall, hcode⟩)
    · exact absurd hname (hnone act (List.mem_of_find?_eq_some hact))
    · obtain rfl := Option.some.inj (hact.symm.trans hact')
      have hlt := (callAct_argcnt_iff f _).mp hrun
      rw [List.length_cons] at hlt
      exact Or.inl ⟨hlt, hfew⟩
    · obtain rfl := Option.some.inj (hact.symm.trans hact')
      obtain rfl := eq_of_call hcall
      rw [callAct_called f word henough hargs] at hcode
      exact Or.inr ⟨hname, henough, (codeOf_retCode_iff _).mp hcode⟩
  · rintro (⟨hlt, hfew⟩ | ⟨hfname, henough, hkept⟩)
    · exact .argcnt act hact hfew ((callAct_argcnt_iff f _).mpr (by rwa [List.length_cons]))
    · obtain rfl := find_eq hf hact hfname
      rw [callAct_called f word henough hargs]
      exact .called f hact henough rfl ((codeOf_retCode_iff _).mpr hkept)

theorem dispatch_iff {table : List ShellAct} {word : List UInt8} {args : List (List UInt8)} (hw : 0 ∉ word) (hne : word ≠ [])
    (hargs : args.length + 1 ≤ maxArgc) :
    (∃ run, dispatch table (word :: args) = some run ∧ Dispatched table word args run) ↔ Dispatches table word args := by
  unfold dispatch Dispatches
  rw [List.headD_cons]
  by_cases hends : Ends table word
  · rw [findAct_eq hw hne hends, Option.map_some]
    have hdispatch : ∀ run, (∃ run', some run = some run' ∧ Dispatched table word args run') ↔ Dispatched table word args run :=
      fun run => ⟨fun ⟨_, heq, h⟩ => Option.some.inj heq ▸ h, fun h => ⟨run, rfl, h⟩⟩
    rw [hdispatch, and_iff_right hends]
    cases hf : table.find? fun a => decide (a.name = [] ∨ a.name = word) with
    | none =>
      have hnone : ∀ act ∈ table, act.name ≠ [] ∧ act.name ≠ word := by simpa using hf
      exact iff_of_true (.notfnd (fun act hact => (hnone act hact).2) rfl) (Or.inl hnone)
    | some f =>
      have hfname : f.name = [] ∨ f.name = word := by simpa using List.find?_some hf
      have hfmem := List.mem_of_find?_eq_some hf
      have hleft : ¬∀ act ∈ table, act.name ≠ [] ∧ act.name ≠ word := fun hall =>
        hfname.elim (hall f hfmem).1 (hall f hfmem).2
      rw [or_iff_right hleft]
      cases hact : table.find? fun a => decide (a.name = word) with
      | none =>
        refine iff_of_false ?_ ?_
        · rintro (⟨-, hrun⟩ | ⟨act, hact', -, -⟩ | ⟨act, hact', -, -, -⟩)
          · exact callAct_notfnd f _ hrun
          · cases hact.symm.trans hact'
          · cases hact.symm.trans hact'
        · rintro ⟨f', act', -, hact', -⟩
          cases hact'
      | some act =>
        dsimp only
        rw [dispatched_callAct_iff hargs hf hact]
        constructor
        · exact fun h => ⟨f, act, rfl, rfl, h⟩
        · rintro ⟨f', act', hf', hact', h⟩
          obtain rfl := Option.some.inj hf'
          obtain rfl := Option.some.inj hact'
          exact h
  · rw [findAct_endless hw hne hends]
    exact iff_of_false (fun ⟨run, hrun, _⟩ => by cases hrun) fun h => hends h.1

/-- The dispatcher gets the words of the line. -/
theorem shell_eq (m : Ram) (table : List ShellAct) (str : ℕ) {word : List UInt8} {args : List (List UInt8)}
    (hline : words space (m.string str) = word :: args) :
    m.shell table str = dispatch table (word :: args.take (maxArgc - 1)) := by
  obtain ⟨e, hle, hnul, hbefore, hstring⟩ := m.string_end str
  have hwords := m.shellCmd_spec ⟨by omega, hnul, hbefore⟩ hle
  rw [← hstring, hline, if_neg (List.cons_ne_nil _ _)] at hwords
  obtain ⟨r, hr, hargs⟩ := Option.map_eq_some_iff.mp hwords
  unfold Ram.shell
  rw [hr]
  exact congrArg (dispatch table) hargs

/-- **The dispatch of a line.** The line is dispatched as it should be, exactly if the table, the words and the result of the
function are of the kind `Dispatches`. -/
theorem shell_dispatch_iff (m : Ram) (table : List ShellAct) (str : ℕ) {word : List UInt8} {args : List (List UInt8)}
    (hline : words space (m.string str) = word :: args) :
    (∃ run, m.shell table str = some run ∧ Dispatched table word (args.take (maxArgc - 1)) run) ↔
      Dispatches table word (args.take (maxArgc - 1)) := by
  obtain ⟨hne, hsub⟩ := of_mem_words (hline ▸ List.mem_cons_self)
  rw [shell_eq m table str hline]
  refine dispatch_iff (fun hzero => m.zero_notMem_string str (hsub hzero)) hne ?_
  have hlen := List.length_take_le (maxArgc - 1) args
  unfold maxArgc at hlen ⊢
  omega

/-- The memory with the line `a`. -/
def lineRam : Ram where
  byte p := if p = 0 then 97 else 0
  size := 1
  outside p hp := if_neg (by omega)

theorem words_lineRam : words space (lineRam.string 0) = [[97]] := by
  decide

/-- The command `a`, which returns 7. -/
def sevenAct (argc : ℕ) : ShellAct := ⟨[97], fun _ => 7, argc, by decide⟩

theorem ends_sevenAct (argc : ℕ) : Ends [sevenAct argc] [97] := by
  intro l act l' hsplit _ hendless
  obtain rfl : act = sevenAct argc := List.mem_singleton.mp (hsplit ▸ List.mem_append_right l List.mem_cons_self)
  exact hendless.2 1 (by decide) rfl

/-- `a` without arguments. -/
theorem shell_dispatch_seven : ∃ run, lineRam.shell [sevenAct 0] 0 = some run ∧ Dispatched [sevenAct 0] [97] [] run := by
  refine (shell_dispatch_iff lineRam _ 0 words_lineRam).mpr ⟨ends_sevenAct 0, Or.inr ⟨_, _, rfl, rfl, Or.inr ⟨rfl, ?_, ?_⟩⟩⟩
  · exact Nat.le_refl 0
  · unfold Kept
    decide

/-- **A command without its argument.** The entry of `a` has one, the line is `a`, and the function is called. -/
theorem shell_dispatch_few : ∃ (m : Ram) (table : List ShellAct) (word : List UInt8) (args : List (List UInt8)),
    words space (m.string 0) = word :: args ∧
      ¬∃ run, m.shell table 0 = some run ∧ Dispatched table word (args.take (maxArgc - 1)) run := by
  refine ⟨lineRam, [sevenAct 1], [97], [], words_lineRam, fun h => ?_⟩
  rw [shell_eq lineRam _ 0 words_lineRam] at h
  obtain ⟨-, hall | ⟨f, act, hf, hact, hcase⟩⟩ := (dispatch_iff (by decide) (by decide) (by decide)).mp h
  · exact (hall _ List.mem_cons_self).2 rfl
  · obtain rfl := Option.some.inj hf
    obtain rfl := Option.some.inj hact
    obtain ⟨hlt, -⟩ | ⟨-, hle, -⟩ := hcase
    · exact absurd hlt (by decide)
    · exact absurd hle (by decide)

end CoreLink.Shell
