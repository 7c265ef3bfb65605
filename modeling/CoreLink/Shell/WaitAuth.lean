/-
# `CoreLink.Shell.WaitAuth` — `finsh_wait_auth` of `finsh/shell.c`: the password prompt.

The characters are put into a buffer that is compared with the password at the end of the line. A backspace writes the terminator
behind the character that it takes back, and leaves this one in the buffer; and where the buffer is full, it writes behind it.
-/
import Mathlib.Data.List.TakeWhile
import Mathlib.Tactic.Common

namespace CoreLink.Shell.WaitAuth

/-! ## The function -/

/-- A printable character, as `finsh_getchar` gives it. -/
def Printable (ch : ℤ) : Prop := 0x20 ≤ ch ∧ ch ≤ 0x7e

instance (ch : ℤ) : Decidable (Printable ch) := inferInstanceAs (Decidable (_ ∧ _))

/-- The end of the line. -/
def Enter (ch : ℤ) : Prop := ch = 0x0d ∨ ch = 0x0a

instance (ch : ℤ) : Decidable (Enter ch) := inferInstanceAs (Decidable (_ ∨ _))

/-- The conversion to `char`. -/
def toChar (ch : ℤ) : UInt8 := UInt8.ofNat (ch % 256).toNat

/-- `!rt_strncmp(cs, ct, count)`, of two arrays of `count` bytes. -/
def strncmp : ℕ → List UInt8 → List UInt8 → Bool
  | 0, _, _ => true
  | count + 1, a :: cs, b :: ct => if a ≠ b ∨ a = 0 then a = b else strncmp count cs ct
  | _ + 1, _, _ => false

/-- The variables `password` and `cur_pos`. -/
structure Input where
  password : List UInt8
  cur_pos : ℕ
deriving DecidableEq, Repr

/-- How far the function gets with the keys there are. -/
inductive Answer
  | waiting
  /-- It returns; `rest` are the keys that it leaves. -/
  | granted (rest : List ℤ)
deriving DecidableEq, Repr

section Function

-- `max` is `FINSH_PASSWORD_MAX`, `shell` the array `shell->password`
variable (max : ℕ) (shell : List UInt8)

/-- The buffer after a prompt. -/
def Input.start : Input := ⟨List.replicate max 0, 0⟩

/-- The loops; there is no result when something is written outside of the buffer. -/
def loop : Input → List ℤ → Option Answer
  | _, [] => some .waiting
  | s, ch :: keys =>
    if ch < 0 then loop s keys
    else if Printable ch ∧ s.cur_pos < max then loop ⟨s.password.set s.cur_pos (toChar ch), s.cur_pos + 1⟩ keys
    else if ch = 0x08 ∧ 0 < s.cur_pos then
      if s.cur_pos < max then loop ⟨s.password.set s.cur_pos 0, s.cur_pos - 1⟩ keys else none
    else if Enter ch then
      if strncmp max shell s.password then some (.granted keys) else loop (Input.start max) keys
    else loop s keys

/-- **`finsh_wait_auth`.** -/
def finsh_wait_auth (keys : List ℤ) : Option Answer :=
  if shell.head? = some 0 then some (.granted keys) else loop max shell (Input.start max) keys

end Function

/-! ## The prompt as it should be -/

/-- What the keys should lead to, with the text since the prompt. -/
def entry (password : List UInt8) : List UInt8 → List ℤ → Answer
  | _, [] => .waiting
  | text, ch :: keys =>
    if Printable ch then entry password (text ++ [toChar ch]) keys
    else if ch = 0x08 then entry password text.dropLast keys
    else if Enter ch then
      if text = password then .granted keys else entry password [] keys
    else entry password text keys

/-- **The condition.** `text` is the text since the prompt, and `erased` the character that the last key took back, where it did:
no backspace comes at `max` characters or more; at no end of a line the password is the text before or after a last backspace;
and at none it is the beginning of a text that is longer than the buffer. -/
def Clean (max : ℕ) (password : List UInt8) : List UInt8 → Option UInt8 → List ℤ → Prop
  | _, _, [] => True
  | text, erased, ch :: keys =>
    if Printable ch then Clean max password (text ++ [toChar ch]) none keys
    else if ch = 0x08 then text.length < max ∧ Clean max password text.dropLast (text.getLast?.or erased) keys
    else if Enter ch then
      (∀ c ∈ erased, password ≠ text ∧ password ≠ text ++ [c]) ∧ (max < text.length → password ≠ text.take max) ∧
        (text ≠ password → Clean max password [] none keys)
    else Clean max password text erased keys

/-! ## Comparing -/

/-- The string in an array. -/
def string (cells : List UInt8) : List UInt8 := cells.takeWhile fun c => c ≠ 0

/-- **Two arrays compare equal when the strings in them are.** -/
theorem strncmp_iff {count : ℕ} : ∀ {cs ct : List UInt8}, cs.length = count → ct.length = count →
    (strncmp count cs ct = true ↔ string cs = string ct) := by
  induction count with
  | zero =>
    intro cs ct hcs hct
    rw [List.eq_nil_of_length_eq_zero hcs, List.eq_nil_of_length_eq_zero hct]
    exact iff_of_true rfl rfl
  | succ count ih =>
    intro cs ct hcs hct
    obtain ⟨a, cs, rfl⟩ := List.exists_cons_of_length_eq_add_one hcs
    obtain ⟨b, ct, rfl⟩ := List.exists_cons_of_length_eq_add_one hct
    have hrest := ih (Nat.succ.inj hcs) (Nat.succ.inj hct)
    unfold string at hrest ⊢
    rw [strncmp]
    by_cases hab : a = b
    · subst hab
      by_cases ha : a = 0
      · simp [ha]
      · simp [ha, hrest]
    · by_cases ha : a = 0
      · have hb : b ≠ 0 := fun h => hab (ha.trans h.symm)
        simp [ha, hb, hb.symm]
      · by_cases hb : b = 0
        · simp [ha, hb]
        · simp [hab, ha, hb]

theorem string_append {text rest : List UInt8} (htext : 0 ∉ text) : string (text ++ rest) = text ++ string rest := by
  apply List.takeWhile_append_of_pos
  intro c hc
  exact decide_eq_true fun h => htext (h ▸ hc)

/-! ## The buffer -/

/-- What is in the buffer: the text, and behind it the character that was erased last, if no other has replaced it. -/
structure Holds (max : ℕ) (s : Input) (text : List UInt8) (erased : Option UInt8) : Prop where
  password : s.password =
    if text.length < max then text ++ erased.getD 0 :: List.replicate (max - text.length - 1) 0 else text.take max
  cur_pos : s.cur_pos = min text.length max
  nonzero : 0 ∉ text
  erased : ∀ c ∈ erased, c ≠ 0 ∧ text.length < max

namespace Holds

variable {max : ℕ} {s : Input} {text : List UInt8} {erased : Option UInt8}

theorem start : Holds max (Input.start max) [] none where
  password := by
    cases max with
    | zero => rfl
    | succ max => exact List.replicate_succ
  cur_pos := (Nat.zero_min max).symm
  nonzero := List.not_mem_nil
  erased := fun _ hc => absurd hc (Option.not_mem_none _)

/-- A character replaces what is behind the text. -/
theorem type {c : UInt8} (h : Holds max s text erased) (hlt : text.length < max) (hc : c ≠ 0) :
    Holds max ⟨s.password.set s.cur_pos c, s.cur_pos + 1⟩ (text ++ [c]) none where
  password := by
    have hset : s.password.set s.cur_pos c = text ++ c :: List.replicate (max - text.length - 1) 0 := by
      rw [h.password, h.cur_pos, if_pos hlt, Nat.min_eq_left hlt.le]
      simp
    rw [hset, List.length_append, List.length_singleton]
    split
    case isTrue hroom =>
      obtain ⟨n, hn⟩ : ∃ n, max - text.length - 1 = n + 1 := ⟨max - text.length - 2, by omega⟩
      rw [hn, List.replicate_succ, show max - (text.length + 1) - 1 = n by omega]
      simp
    case isFalse hfull =>
      rw [show max - text.length - 1 = 0 by omega, List.take_of_length_le (by rw [List.length_append, List.length_singleton]; omega)]
      rfl
  cur_pos := by
    show s.cur_pos + 1 = _
    rw [h.cur_pos, List.length_append, List.length_singleton]
    omega
  nonzero := by
    intro hmem
    rcases List.mem_append.mp hmem with hmem | hmem
    · exact h.nonzero hmem
    · exact hc (List.mem_singleton.mp hmem).symm
  erased := fun _ hc => absurd hc (Option.not_mem_none _)

/-- A character that finds no room. -/
theorem overflow {c : UInt8} (h : Holds max s text erased) (hfull : max ≤ text.length) (hc : c ≠ 0) :
    Holds max s (text ++ [c]) none where
  password := by
    rw [h.password, if_neg (not_lt.mpr hfull), if_neg (by rw [List.length_append]; omega), List.take_append_of_le_length hfull]
  cur_pos := by
    rw [h.cur_pos, List.length_append]
    omega
  nonzero := by
    intro hmem
    rcases List.mem_append.mp hmem with hmem | hmem
    · exact h.nonzero hmem
    · exact hc (List.mem_singleton.mp hmem).symm
  erased := fun _ hc => absurd hc (Option.not_mem_none _)

/-- A backspace leaves the character where it was. -/
theorem erase {c : UInt8} (h : Holds max s (text ++ [c]) erased) (hlt : (text ++ [c]).length < max) :
    Holds max ⟨s.password.set s.cur_pos 0, s.cur_pos - 1⟩ text (some c) := by
  rw [List.length_append, List.length_singleton] at hlt
  constructor
  case password =>
    obtain ⟨n, hn⟩ : ∃ n, max - text.length - 1 = n + 1 := ⟨max - text.length - 2, by omega⟩
    rw [h.password, h.cur_pos, List.length_append, List.length_singleton, if_pos hlt, if_pos (by omega), Nat.min_eq_left hlt.le, hn,
      show max - (text.length + 1) - 1 = n by omega]
    simp [List.replicate_succ]
  case cur_pos =>
    show s.cur_pos - 1 = _
    rw [h.cur_pos, List.length_append, List.length_singleton]
    omega
  case nonzero => exact fun hmem => h.nonzero (List.mem_append_left _ hmem)
  case erased =>
    intro c' hc'
    obtain rfl := Option.some.inj hc'
    refine ⟨?_, by omega⟩
    rintro rfl
    exact h.nonzero (List.mem_append_right _ List.mem_cons_self)

/-- **The string in the buffer.** -/
theorem string_password (h : Holds max s text erased) : string s.password = text.take max ++ erased.toList := by
  have hzeros : ∀ n, string (List.replicate n 0) = [] := fun n => by
    cases n with
    | zero => rfl
    | succ n => rfl
  rw [h.password]
  split
  case isTrue hlt =>
    rw [string_append h.nonzero, List.take_of_length_le hlt.le]
    cases hcase : erased with
    | none => rfl
    | some c =>
      have hc : c ≠ 0 := (h.erased c hcase).1
      have hsingle : string ([c] ++ List.replicate (max - text.length - 1) 0) = [c] ++ string (List.replicate (max - text.length - 1) 0) :=
        string_append fun hmem => hc (List.mem_singleton.mp hmem).symm
      rw [hzeros] at hsingle
      exact congrArg (text ++ ·) hsingle
  case isFalse hfull =>
    have hnone : erased = none := Option.eq_none_iff_forall_not_mem.mpr fun c hc => hfull (h.erased c hc).2
    have hstring : string (text.take max ++ []) = text.take max ++ string [] :=
      string_append fun hmem => h.nonzero (List.mem_of_mem_take hmem)
    rw [List.append_nil] at hstring
    rw [hnone, hstring]
    rfl

theorem length_password (h : Holds max s text erased) : s.password.length = max := by
  rw [h.password]
  split
  case isTrue hlt =>
    simp
    omega
  case isFalse hfull => exact List.length_take_of_le (not_lt.mp hfull)

end Holds

/-! ## Runs -/

theorem toChar_ne_zero {ch : ℤ} (h : Printable ch) : toChar ch ≠ 0 := by
  obtain ⟨hlow, hhigh⟩ := h
  intro hzero
  have hnat := congrArg UInt8.toNat hzero
  unfold toChar at hnat
  rw [UInt8.toNat_ofNat'] at hnat
  have hword : (ch % 256).toNat % 2 ^ 8 = (ch % 256).toNat := Nat.mod_eq_of_lt (by omega)
  rw [hword] at hnat
  simp at hnat
  omega

/-- When access is granted, the keys that are left are less than there were. -/
theorem loop_rest {max : ℕ} {shell : List UInt8} {rest keys : List ℤ} : ∀ {s : Input},
    loop max shell s keys = some (.granted rest) → rest.length < keys.length := by
  induction keys with
  | nil =>
    intro s h
    exact absurd (Option.some.inj h) Answer.noConfusion
  | cons ch keys ih =>
    intro s h
    have hlater : ∀ {s' : Input}, loop max shell s' keys = some (.granted rest) → rest.length < (ch :: keys).length :=
      fun h' => (ih h').trans (Nat.lt_succ_self _)
    rw [loop] at h
    split_ifs at h with hneg hprint hback hroom henter hgrant
    · exact hlater h
    · exact hlater h
    · exact hlater h
    · obtain rfl := Answer.granted.inj (Option.some.inj h)
      exact Nat.lt_succ_self _
    · exact hlater h
    · exact hlater h

theorem entry_rest {password : List UInt8} {rest keys : List ℤ} : ∀ {text : List UInt8},
    entry password text keys = .granted rest → rest.length < keys.length := by
  induction keys with
  | nil => exact fun h => absurd h Answer.noConfusion
  | cons ch keys ih =>
    intro text h
    have hlater : ∀ {text' : List UInt8}, entry password text' keys = .granted rest → rest.length < (ch :: keys).length :=
      fun h' => (ih h').trans (Nat.lt_succ_self _)
    rw [entry] at h
    split_ifs at h with hprint hback henter hgrant
    · exact hlater h
    · exact hlater h
    · obtain rfl := Answer.granted.inj h
      exact Nat.lt_succ_self _
    · exact hlater h
    · exact hlater h

section Runs

variable {max : ℕ} {shell : List UInt8} (hshell : shell.length = max)

section Decision

include hshell

/-- **What the end of the line decides.** -/
theorem Holds.granted_iff {s : Input} {text : List UInt8} {erased : Option UInt8} (h : Holds max s text erased) :
    strncmp max shell s.password = true ↔ string shell = text.take max ++ erased.toList := by
  rw [strncmp_iff hshell h.length_password, h.string_password]

/-- The decision is right where the condition on it is met. -/
theorem Holds.decision {s : Input} {text : List UInt8} {erased : Option UInt8} (h : Holds max s text erased) :
    (strncmp max shell s.password = true ↔ text = string shell) ↔
      (∀ c ∈ erased, string shell ≠ text ∧ string shell ≠ text ++ [c]) ∧ (max < text.length → string shell ≠ text.take max) := by
  rw [h.granted_iff hshell]
  cases herased : erased with
  | none =>
    rw [Option.toList_none, List.append_nil]
    rcases lt_or_ge max text.length with hlong | hshort
    · have hne : text ≠ string shell := by
        intro heq
        have hle : (string shell).length ≤ shell.length := (List.takeWhile_prefix _).length_le
        rw [← heq, hshell] at hle
        exact absurd hlong (not_lt.mpr hle)
      rw [iff_false_right hne]
      exact ⟨fun h => ⟨fun c hc => absurd hc (Option.not_mem_none c), fun _ => h⟩, fun h => h.2 hlong⟩
    · rw [List.take_of_length_le hshort]
      exact iff_of_true eq_comm ⟨fun c hc => absurd hc (Option.not_mem_none c), fun hlong => absurd hlong (not_lt.mpr hshort)⟩
  | some c =>
    have hlt := (h.erased c herased).2
    rw [Option.toList_some, List.take_of_length_le hlt.le]
    have hboth : text ≠ text ++ [c] := fun heq => by simpa using congrArg List.length heq
    constructor
    · intro hiff
      refine ⟨?_, fun hlong => absurd hlong (not_lt.mpr hlt.le)⟩
      intro c' hc'
      obtain rfl := Option.some.inj hc'
      exact ⟨fun heq => hboth (heq.symm.trans (hiff.mpr heq.symm)), fun heq => hboth ((hiff.mp heq).trans heq)⟩
    · rintro ⟨herase, -⟩
      obtain ⟨hbefore, hafter⟩ := herase c rfl
      exact iff_of_false hafter (Ne.symm hbefore)

end Decision

include hshell in
/-- **The loop does what it should exactly under the condition.** By induction on the keys: the buffer holds the text and the erased
character as long as nothing has gone wrong, and once it has, the run never comes back. -/
theorem loop_eq_iff (hmax : 0 < max) : ∀ (keys : List ℤ) {s : Input} {text : List UInt8} {erased : Option UInt8}, Holds max s text erased →
    (loop max shell s keys = some (entry (string shell) text keys) ↔ Clean max (string shell) text erased keys)
  | [], _, _, _, _ => iff_of_true rfl trivial
  | ch :: keys, s, text, erased, h => by
    rw [loop, entry, Clean]
    by_cases hneg : ch < 0
    · have hprint : ¬Printable ch := fun hp => absurd hp.1 (by omega)
      have hback : ch ≠ 0x08 := by omega
      have henter : ¬Enter ch := by
        unfold Enter
        omega
      rw [if_pos hneg, if_neg hprint, if_neg hback, if_neg henter, if_neg hprint, if_neg hback, if_neg henter]
      exact loop_eq_iff hmax keys h
    · rw [if_neg hneg]
      by_cases hprint : Printable ch
      · have hchar := toChar_ne_zero hprint
        have hback : ch ≠ 0x08 := by
          obtain ⟨hlow, -⟩ := hprint
          omega
        have henter : ¬Enter ch := by
          obtain ⟨hlow, -⟩ := hprint
          unfold Enter
          omega
        rw [if_pos hprint, if_pos hprint]
        by_cases hroom : s.cur_pos < max
        · rw [if_pos ⟨hprint, hroom⟩]
          have hlt : text.length < max := by
            rw [h.cur_pos] at hroom
            omega
          exact loop_eq_iff hmax keys (h.type hlt hchar)
        · have hfull : max ≤ text.length := by
            rw [h.cur_pos] at hroom
            omega
          rw [if_neg fun hp => hroom hp.2, if_neg fun hb => hback hb.1, if_neg henter]
          exact loop_eq_iff hmax keys (h.overflow hfull hchar)
      · rw [if_neg fun hp => hprint hp.1, if_neg hprint, if_neg hprint]
        by_cases hback : ch = 0x08
        · have henter : ¬Enter ch := by
            unfold Enter
            omega
          rw [if_pos hback, if_pos hback]
          rcases List.eq_nil_or_concat text with rfl | ⟨text, c, htext⟩
          · have hcur : ¬0 < s.cur_pos := by
              rw [h.cur_pos]
              simp
            rw [if_neg fun hb => hcur hb.2, if_neg henter, List.dropLast_nil, List.getLast?_nil, Option.none_or]
            exact (loop_eq_iff hmax keys h).trans (and_iff_right hmax).symm
          · rw [List.concat_eq_append] at htext
            subst htext
            have hcur := h.cur_pos
            have hlength : (text ++ [c]).length = text.length + 1 := List.length_append
            rw [if_pos ⟨hback, by omega⟩, List.dropLast_concat, List.getLast?_concat, Option.some_or]
            by_cases hroom : (text ++ [c]).length < max
            · rw [if_pos (by omega), loop_eq_iff hmax keys (h.erase hroom), and_iff_right hroom]
            · rw [if_neg (by omega)]
              exact iff_of_false (Option.some_ne_none _).symm fun hclean => hroom hclean.1
        · rw [if_neg fun hb => hback hb.1, if_neg hback, if_neg hback]
          by_cases henter : Enter ch
          · rw [if_pos henter, if_pos henter, if_pos henter, ← and_assoc, ← h.decision hshell]
            by_cases hgrant : strncmp max shell s.password = true
            · rw [if_pos hgrant, iff_true_left hgrant]
              by_cases heq : text = string shell
              · rw [if_pos heq]
                exact iff_of_true rfl ⟨heq, fun hne => absurd heq hne⟩
              · rw [if_neg heq]
                refine iff_of_false (fun h' => ?_) fun h' => heq h'.1
                exact absurd (entry_rest (Option.some.inj h').symm) (lt_irrefl _)
            · rw [if_neg hgrant, iff_false_left hgrant]
              by_cases heq : text = string shell
              · rw [if_pos heq]
                refine iff_of_false (fun h' => ?_) fun h' => h'.1 heq
                exact absurd (loop_rest h') (lt_irrefl _)
              · rw [if_neg heq, loop_eq_iff hmax keys Holds.start]
                exact ⟨fun hclean => ⟨heq, fun _ => hclean⟩, fun h' => h'.2 heq⟩
          · rw [if_neg henter, if_neg henter, if_neg henter]
            exact loop_eq_iff hmax keys h

end Runs

/-- **`finsh_wait_auth` grants access exactly where it should, and writes inside the buffer, exactly under the condition.** -/
theorem finsh_wait_auth_iff {max : ℕ} {shell : List UInt8} (hshell : shell.length = max) (hset : string shell ≠ []) (keys : List ℤ) :
    finsh_wait_auth max shell keys = some (entry (string shell) [] keys) ↔ Clean max (string shell) [] none keys := by
  cases shell with
  | nil => exact absurd rfl hset
  | cons c cs =>
    have hc : c ≠ 0 := by
      rintro rfl
      exact hset rfl
    have hmax : 0 < max := hshell ▸ Nat.succ_pos _
    have hhead : (c :: cs).head? ≠ some 0 := fun h => hc (Option.some.inj h)
    rw [finsh_wait_auth, if_neg hhead]
    exact loop_eq_iff hshell hmax keys Holds.start

/-- `rtthread` in an array of 8, after a line with another text. -/
theorem finsh_wait_auth_rtthread :
    finsh_wait_auth 8 [0x72, 0x74, 0x74, 0x68, 0x72, 0x65, 0x61, 0x64] [0x78, 0x0d, 0x72, 0x74, 0x74, 0x68, 0x72, 0x65, 0x61, 0x64, 0x0d] =
      some (entry (string [0x72, 0x74, 0x74, 0x68, 0x72, 0x65, 0x61, 0x64]) []
        [0x78, 0x0d, 0x72, 0x74, 0x74, 0x68, 0x72, 0x65, 0x61, 0x64, 0x0d]) := by
  refine (finsh_wait_auth_iff rfl (by decide) _).mpr ?_
  simp [Clean, Printable, Enter, toChar, string]

/-- `secret`, typed with one character too many and a backspace, is refused. -/
theorem finsh_wait_auth_backspace :
    ¬∀ (max : ℕ) (shell : List UInt8) (keys : List ℤ), shell.length = max → string shell ≠ [] →
      finsh_wait_auth max shell keys = some (entry (string shell) [] keys) := by
  intro h
  have hrun := h 8 [0x73, 0x65, 0x63, 0x72, 0x65, 0x74, 0, 0] [0x73, 0x65, 0x63, 0x72, 0x65, 0x74, 0x78, 0x08, 0x0d] rfl (by decide)
  exact absurd hrun (by decide)

end CoreLink.Shell.WaitAuth
