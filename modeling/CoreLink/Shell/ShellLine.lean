/-
# `CoreLink.Shell.ShellLine` — how `src/shell/shell.c` cuts a line into words.

`shell_get_cmd` finds the end of the line, and `shell_get_args` puts a NUL behind one word after the other. Behind the last
word it is called once more with a pointer behind the line, and looks at whatever is stored there; what it finds is rejected
since it is not before the end that `shell_get_cmd` has found. The count of the arguments is tested behind the call, so a word
too many is also cut off.

`shell_words` says that the words of the line come out, up to `MAX_ARGC` of them, for every memory.
-/
import CoreLink.Lib.Scan

namespace CoreLink.Shell

open CoreLink.Lib

/-! ## Memory -/

/-- The memory: `size` bytes, and zeros behind them. -/
structure Ram where
  byte : ℕ → UInt8
  size : ℕ
  outside : ∀ p, size ≤ p → byte p = 0

namespace Ram

/-- `*p = 0`. -/
def clear (m : Ram) (p : ℕ) : Ram where
  byte := Function.update m.byte p 0
  size := m.size
  outside q hq := by
    by_cases h : q = p
    · rw [h, Function.update_self]
    · rw [Function.update_of_ne h, m.outside q hq]

/-- A pointer that moves on from `p` to the first byte that stops it. -/
def seek (m : Ram) (stop : UInt8 → Bool) (p : ℕ) : ℕ := scan (fun i => stop (m.byte i)) (m.size - p) p

/-- The bytes from `p` to before `q`. -/
def bytes (m : Ram) (p q : ℕ) : List UInt8 := (List.range' p (q - p)).map m.byte

/-- The string at `p`. -/
def string (m : Ram) (p : ℕ) : List UInt8 := m.bytes p (m.seek (· == 0) p)

end Ram

/-! ## The source -/

/-- `MAX_ARGC`. -/
def maxArgc : ℕ := 5

/-- `' '`. -/
def space : UInt8 := 32

namespace Ram

/-- `shell_get_cmd`: `*headp` and `*tailp` after it, if it returns true. -/
def shellGetCmd (m : Ram) (head : ℕ) (c : UInt8) : Option (ℕ × ℕ × Ram) :=
  if m.byte head = 0 then none
  else
    let head := m.seek (· != c) head
    if m.byte head = 0 then none
    else
      let tail := m.seek (· == 0) head
      some (head, tail + 1, m.clear tail)

/-- `shell_get_args`: `*headp` and `*tailp` after it, if it returns true. -/
def shellGetArgs (m : Ram) (head endp : ℕ) (c : UInt8) : Option (ℕ × ℕ × Ram) :=
  let head := m.seek (fun b => b != c || b == 0) head
  if m.byte head = 0 then none
  else
    let tail := m.seek (fun b => b == c || b == 0) head
    if endp ≤ tail then none else some (head, tail + 1, m.clear tail)

/-- The loop over the words, with room for `n` more in `cmd.arg`: the arguments that it adds. -/
def argsLoop (endp : ℕ) : ℕ → Ram → ℕ → List ℕ × Ram
  | 0, m, head =>
    match m.shellGetArgs head endp space with
    | none => ([], m)
    | some r => ([], r.2.2)
  | n + 1, m, head =>
    match m.shellGetArgs head endp space with
    | none => ([], m)
    | some r => (r.1 :: (argsLoop endp n r.2.2 r.2.1).1, (argsLoop endp n r.2.2 r.2.1).2)

/-- `shell`, up to the search for the command: `cmd.arg` as far as it is filled, of which `cmd.argc` is the length. There is
none if there is no command on the line. -/
def shellCmd (m : Ram) (str : ℕ) : Option (List ℕ × Ram) :=
  (m.shellGetCmd str space).map fun r => argsLoop r.2.1 maxArgc r.2.2 r.1

/-! ## Strings -/

variable (m : Ram) {stop : UInt8 → Bool} {p q r : ℕ}

theorem clear_self : (m.clear p).byte p = 0 := Function.update_self p 0 m.byte

theorem clear_of_ne (h : q ≠ p) : (m.clear p).byte q = m.byte q := Function.update_of_ne h 0 m.byte

theorem seek_spec (stop : UInt8 → Bool) (hstop : stop 0 = true) (p : ℕ) :
    p ≤ m.seek stop p ∧ stop (m.byte (m.seek stop p)) = true ∧ ∀ i, p ≤ i → i < m.seek stop p → stop (m.byte i) = false := by
  have hend : stop (m.byte (p + (m.size - p))) = true := by rw [m.outside _ (by omega), hstop]
  obtain ⟨hle, -, hfound, hbefore⟩ := @scan_spec (fun i => stop (m.byte i)) _ _ _ (Nat.le_add_right p _) (Nat.le_refl _) hend
  exact ⟨hle, hfound, hbefore⟩

theorem seek_eq (hstop : stop 0 = true) (hle : p ≤ q) (hq : stop (m.byte q) = true)
    (hbefore : ∀ i, p ≤ i → i < q → stop (m.byte i) = false) : m.seek stop p = q := by
  refine scan_eq hle ?_ hq hbefore
  by_contra hlt
  have hend := hbefore (p + (m.size - p)) (by omega) (by omega)
  rw [m.outside _ (by omega), hstop] at hend
  cases hend

theorem mem_bytes {b : UInt8} : b ∈ m.bytes p q ↔ ∃ i, p ≤ i ∧ i < q ∧ m.byte i = b := by
  unfold bytes
  rw [List.mem_map]
  constructor
  · rintro ⟨i, hi, rfl⟩
    rw [List.mem_range'_1] at hi
    exact ⟨i, hi.1, by omega, rfl⟩
  · rintro ⟨i, hp, hq, rfl⟩
    exact ⟨i, List.mem_range'_1.mpr ⟨hp, by omega⟩, rfl⟩

theorem bytes_append (hpq : p ≤ q) (hqr : q ≤ r) : m.bytes p r = m.bytes p q ++ m.bytes q r := by
  unfold bytes
  rw [← List.map_append, show q = p + (q - p) by omega, Nat.add_sub_cancel_left, List.range'_append_1]
  congr 2
  omega

theorem bytes_cons (h : p < q) : m.bytes p q = m.byte p :: m.bytes (p + 1) q := by
  unfold bytes
  rw [show q - p = (q - (p + 1)) + 1 by omega, List.range'_succ, List.map_cons]

theorem bytes_eq_nil (h : q ≤ p) : m.bytes p q = [] := by
  unfold bytes
  rw [Nat.sub_eq_zero_of_le h]
  rfl

theorem bytes_congr {m m' : Ram} (h : ∀ i, p ≤ i → i < q → m'.byte i = m.byte i) : m'.bytes p q = m.bytes p q := by
  unfold bytes
  refine List.map_congr_left fun i hi => ?_
  rw [List.mem_range'_1] at hi
  exact h i hi.1 (by omega)

theorem string_eq (hle : p ≤ q) (hq : m.byte q = 0) (hbefore : ∀ i, p ≤ i → i < q → m.byte i ≠ 0) :
    m.string p = m.bytes p q := by
  have hseek : m.seek (· == 0) p = q :=
    m.seek_eq rfl hle (by rw [hq]; rfl) fun i hi hlt => beq_eq_false_iff_ne.mpr (hbefore i hi hlt)
  unfold string
  rw [hseek]

/-- Every string has an end. -/
theorem string_end (p : ℕ) : ∃ e, p ≤ e ∧ m.byte e = 0 ∧ (∀ i, p ≤ i → i < e → m.byte i ≠ 0) ∧ m.string p = m.bytes p e := by
  obtain ⟨hle, hfound, hbefore⟩ := m.seek_spec (· == 0) rfl p
  exact ⟨_, hle, beq_iff_eq.mp hfound, fun i hi hlt => beq_eq_false_iff_ne.mp (hbefore i hi hlt), rfl⟩

theorem zero_notMem_string (p : ℕ) : 0 ∉ m.string p := by
  obtain ⟨e, -, -, hbefore, hstring⟩ := m.string_end p
  rw [hstring, m.mem_bytes]
  rintro ⟨i, hi, hlt, hzero⟩
  exact hbefore i hi hlt hzero

/-! ## Words -/

/-- Where a line ends: `e` is the first NUL from `p` on, or the byte before `p`. -/
structure EndsAt (m : Ram) (p e : ℕ) : Prop where
  le : p ≤ e + 1
  nul : m.byte e = 0
  before : ∀ i, p ≤ i → i < e → m.byte i ≠ 0

/-- **One word.** `shell_get_args` cuts off the first word before the end of the line, if there is one; it does not matter
what is behind. -/
theorem shellGetArgs_cases {e : ℕ} (h : m.EndsAt p e) :
    (m.shellGetArgs p (e + 1) space = none ∧ words space (m.bytes p e) = []) ∨
      ∃ hd t, m.shellGetArgs p (e + 1) space = some (hd, t + 1, m.clear t) ∧ p ≤ hd ∧ hd < t ∧ t ≤ e ∧
        words space (m.bytes p e) = m.bytes hd t :: words space (m.bytes (t + 1) e) := by
  obtain ⟨hle, hfound, hskipped⟩ := m.seek_spec (fun b => b != space || b == 0) rfl p
  obtain ⟨hle', hfound', hword⟩ := m.seek_spec (fun b => b == space || b == 0) rfl (m.seek (fun b => b != space || b == 0) p)
  unfold shellGetArgs
  dsimp only
  generalize m.seek (fun b => b != space || b == 0) p = hd at *
  generalize m.seek (fun b => b == space || b == 0) hd = t at *
  simp only [Bool.or_eq_false_iff, bne_eq_false_iff_eq, beq_eq_false_iff_ne] at hskipped hword
  simp only [Bool.or_eq_true, bne_iff_ne, beq_iff_eq] at hfound hfound'
  have hspaces : m.bytes p hd = List.replicate (m.bytes p hd).length space := by
    refine List.eq_replicate_of_mem fun b hb => ?_
    obtain ⟨i, hi, hlt, rfl⟩ := m.mem_bytes.mp hb
    exact (hskipped i hi hlt).1
  have hend : p ≤ e → hd ≤ e := by
    intro hpe
    by_contra hlt
    exact (hskipped e hpe (by omega)).2 h.nul
  by_cases hnul : m.byte hd = 0
  · -- only spaces are left
    refine Or.inl ⟨if_pos hnul, ?_⟩
    by_cases hpe : p ≤ e
    · obtain rfl : hd = e := by
        by_contra hne
        exact h.before hd hle (by have := hend hpe; omega) hnul
      rw [hspaces, ← List.append_nil (List.replicate _ _), words_replicate_append, words_nil]
    · rw [m.bytes_eq_nil (by omega), words_nil]
  · rw [if_neg hnul]
    have hstart := hfound.resolve_right hnul
    have hlt : hd < t := by
      refine Nat.lt_of_le_of_ne hle' fun heq => ?_
      rw [← heq] at hfound'
      exact hfound'.elim hstart hnul
    by_cases hpe : p ≤ e
    · have hhd := hend hpe
      have ht : t ≤ e := by
        by_contra hgt
        exact (hword e hhd (by omega)).2 h.nul
      refine Or.inr ⟨hd, t, if_neg (by omega), hle, hlt, ht, ?_⟩
      have hsep : space ∉ m.bytes hd t := by
        intro hmem
        obtain ⟨i, hi, hlt, hi'⟩ := m.mem_bytes.mp hmem
        exact (hword i hi hlt).1 hi'
      have hne : m.bytes hd t ≠ [] := by
        rw [m.bytes_cons hlt]
        exact List.cons_ne_nil _ _
      rw [m.bytes_append hle hhd, hspaces, words_replicate_append]
      by_cases hlast : t = e
      · -- the last word ends with the line
        rw [hlast, m.bytes_eq_nil (Nat.le_succ e), words_nil]
        rw [hlast] at hsep hne
        exact words_of_notMem hsep hne
      · have hspace : m.byte t = space := hfound'.resolve_right (h.before t (by omega) (by omega))
        rw [m.bytes_append hle' ht, m.bytes_cons (by omega : t < e), hspace, words_append hsep, words_of_notMem hsep hne]
        rfl
    · -- what is behind the line is rejected
      refine Or.inl ⟨if_pos (by omega), ?_⟩
      rw [m.bytes_eq_nil (by omega), words_nil]

/-- **The loop** takes the words of the rest of the line, and leaves what is before it alone. -/
theorem argsLoop_spec {e : ℕ} (n : ℕ) {m : Ram} (h : m.EndsAt p e) :
    (argsLoop (e + 1) n m p).1.map (argsLoop (e + 1) n m p).2.string = (words space (m.bytes p e)).take n ∧
      ∀ i, i < p → (argsLoop (e + 1) n m p).2.byte i = m.byte i := by
  induction n generalizing m p with
  | zero =>
    rw [List.take_zero, argsLoop]
    obtain ⟨hnone, -⟩ | ⟨hd, t, hsome, hp, hlt, -, -⟩ := m.shellGetArgs_cases h
    · rw [hnone]
      exact ⟨rfl, fun i _ => rfl⟩
    · rw [hsome]
      exact ⟨rfl, fun i hi => m.clear_of_ne (by omega)⟩
  | succ n ih =>
    rw [argsLoop]
    obtain ⟨hnone, hwords⟩ | ⟨hd, t, hsome, hp, hlt, ht, hwords⟩ := m.shellGetArgs_cases h
    · rw [hnone, hwords]
      exact ⟨rfl, fun i _ => rfl⟩
    · rw [hsome, hwords]
      dsimp only
      have hnext : (m.clear t).EndsAt (t + 1) e := by
        refine ⟨by omega, ?_, fun i hi hie => ?_⟩
        · by_cases hte : e = t
          · rw [hte, m.clear_self]
          · rw [m.clear_of_ne hte, h.nul]
        · rw [m.clear_of_ne (by omega)]
          exact h.before i (by omega) hie
      obtain ⟨hargs, hframe⟩ := ih hnext
      generalize argsLoop (e + 1) n (m.clear t) (t + 1) = r at hargs hframe
      have hkept : ∀ i, i < t → r.2.byte i = m.byte i := fun i hi =>
        (hframe i (by omega)).trans (m.clear_of_ne (by omega))
      -- the word keeps its NUL
      have hword : r.2.string hd = m.bytes hd t := by
        have hnul : r.2.byte t = 0 := (hframe t (by omega)).trans m.clear_self
        rw [r.2.string_eq (Nat.le_of_lt hlt) hnul fun i hi hit => ?_]
        · exact bytes_congr fun i _ hit => hkept i hit
        · rw [hkept i hit]
          exact h.before i (by omega) (by omega)
      refine ⟨?_, fun i hi => hkept i (by omega)⟩
      rw [List.map_cons, hword, hargs, List.take_succ_cons, bytes_congr fun i hi _ => m.clear_of_ne (by omega)]

/-- The whole line. -/
theorem shellCmd_spec {str e : ℕ} (h : m.EndsAt str e) (hle : str ≤ e) :
    (m.shellCmd str).map (fun r => r.1.map r.2.string) =
      if words space (m.bytes str e) = [] then none else some ((words space (m.bytes str e)).take maxArgc) := by
  obtain ⟨hp, hfound, hskipped⟩ := m.seek_spec (· != space) rfl str
  unfold shellCmd shellGetCmd
  dsimp only
  by_cases hempty : m.byte str = 0
  · -- the line is empty
    obtain rfl : str = e := by
      by_contra hne
      exact h.before str (Nat.le_refl str) (by omega) hempty
    rw [if_pos hempty, m.bytes_eq_nil (Nat.le_refl str)]
    rfl
  · rw [if_neg hempty]
    generalize m.seek (· != space) str = hd at *
    simp only [bne_eq_false_iff_eq] at hskipped
    have hhd : hd ≤ e := by
      by_contra hlt
      have hspace := hskipped e hle (by omega)
      rw [h.nul] at hspace
      cases hspace
    have hspaces : m.bytes str hd = List.replicate (m.bytes str hd).length space := by
      refine List.eq_replicate_of_mem fun b hb => ?_
      obtain ⟨i, hi, hlt, rfl⟩ := m.mem_bytes.mp hb
      exact hskipped i hi hlt
    rw [m.bytes_append hp hhd, hspaces, words_replicate_append]
    by_cases hblank : m.byte hd = 0
    · -- it has nothing but spaces
      obtain rfl : hd = e := by
        by_contra hne
        exact h.before hd hp (by omega) hblank
      rw [if_pos hblank, m.bytes_eq_nil (Nat.le_refl hd)]
      rfl
    · have hlt : hd < e := Nat.lt_of_le_of_ne hhd fun heq => hblank (heq ▸ h.nul)
      have htail : m.seek (· == 0) hd = e :=
        m.seek_eq rfl hhd (by rw [h.nul]; rfl) fun i hi hlt => beq_eq_false_iff_ne.mpr (h.before i (by omega) hlt)
      have hwords : words space (m.bytes hd e) ≠ [] := by
        rw [m.bytes_cons hlt]
        exact words_cons_ne_nil (by simpa using hfound) _
      have hends : (m.clear e).EndsAt hd e := by
        refine ⟨by omega, m.clear_self, fun i hi hie => ?_⟩
        rw [m.clear_of_ne (by omega)]
        exact h.before i (by omega) hie
      rw [if_neg hblank, if_neg hwords, htail, Option.map_some, Option.map_some]
      dsimp only
      rw [(argsLoop_spec maxArgc hends).1, bytes_congr fun i _ hie => m.clear_of_ne (by omega)]

/-- **The words of a line.** For every memory and every pointer to a line in it, `cmd.arg` has the first `MAX_ARGC` words of the
line, each as a string of its own, whatever is stored behind the line. If there are none, the line is not a command. -/
theorem shell_words (m : Ram) (str : ℕ) :
    (m.shellCmd str).map (fun r => r.1.map r.2.string) =
      if words space (m.string str) = [] then none else some ((words space (m.string str)).take maxArgc) := by
  obtain ⟨e, hle, hnul, hbefore, hstring⟩ := m.string_end str
  rw [hstring]
  exact m.shellCmd_spec ⟨by omega, hnul, hbefore⟩ hle

end Ram

end CoreLink.Shell
