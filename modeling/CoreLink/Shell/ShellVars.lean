/-
# `CoreLink.Shell.ShellVars` — the variables of the shell: `get` and `set` of `src/shell/shell.c`.

Both compare as many bytes as the name in the table has, so that the first variable whose name is a prefix of the argument is
taken. And `set` copies into a string as many bytes as the name on the command line has, not as many as the value.

`shell_vars_iff` says when the right variable is taken, and when a string is stored as it should be.
-/
import CoreLink.Shell.ShellLine
import CoreLink.Xprintf.Xatoi

namespace CoreLink.Shell

open CoreLink.Xprintf

/-! ## Memory -/

namespace Ram

/-- One byte is stored. -/
def store (m : Ram) (p : ℕ) (b : UInt8) : Ram where
  byte := Function.update m.byte p b
  size := max m.size (p + 1)
  outside q hq := by
    rw [Function.update_of_ne (by omega), m.outside q (by omega)]

/-- Bytes are stored one after the other. -/
def storeAll (m : Ram) (stores : List (ℕ × UInt8)) : Ram := stores.foldl (fun m st => m.store st.1 st.2) m

/-- The number in `n` bytes, the lowest first. -/
def load (m : Ram) : ℕ → ℕ → ℕ
  | 0, _ => 0
  | n + 1, p => (m.byte p).toNat + 256 * m.load n (p + 1)

/-- `memcmp(p, name, strlen(name)) == 0`. -/
def memcmp (m : Ram) : ℕ → List UInt8 → Bool
  | _, [] => true
  | p, c :: name => m.byte p == c && m.memcmp (p + 1) name

end Ram

/-! ## The source -/

/-- `enum shell_var_type`. -/
inductive ShellVarType where
  | int8
  | uint8
  | int16
  | uint16
  | int32
  | uint32
  | float
  | double
  | string
  | ptr
  deriving DecidableEq

/-- `struct shell_var`, an entry of the table. `type` is an `int`: `none` is any value that is none of the constants. -/
structure ShellVar where
  name : List UInt8
  addr : ℕ
  type : Option ShellVarType
  name_nul : 0 ∉ name

/-- What `printf` is called with: the name, the address and what is stored there, or the text alone. -/
inductive Message where
  | string (name : List UInt8) (addr : ℕ) (text : List UInt8)
  | hex (name : List UInt8) (addr digits value : ℕ)
  | double (name : List UInt8) (addr bits : ℕ)
  | float (name : List UInt8) (addr bits : ℕ)
  | notSupportDouble
  | invalidType
  deriving DecidableEq

namespace Ram

/-- The `switch` of `get`. A `short` is extended by its sign. -/
def printVar (m : Ram) (v : ShellVar) : Message :=
  match v.type with
  | some .string => .string v.name v.addr (m.string v.addr)
  | some .ptr => .hex v.name v.addr 8 (m.load 4 v.addr)
  | some .double => .double v.name v.addr (m.load 8 v.addr)
  | some .float => .float v.name v.addr (m.load 4 v.addr)
  | some .int8 | some .uint8 => .hex v.name v.addr 2 (m.load 1 v.addr)
  | some .int16 | some .uint16 =>
    .hex v.name v.addr 4 (if m.load 2 v.addr < 2 ^ 15 then m.load 2 v.addr else m.load 2 v.addr + (2 ^ 32 - 2 ^ 16))
  | some .int32 | some .uint32 => .hex v.name v.addr 8 (m.load 4 v.addr)
  | none => .invalidType

/-- The loop of `get`: `_shell_var` after it, as a place in the table, and what is printed. -/
def getLoop (m : Ram) (arg1 : ℕ) : List ShellVar → ℕ → ℕ × Option Message
  | [], i => (i, none)
  | v :: vars, i => if m.memcmp arg1 v.name then (i, some (m.printVar v)) else getLoop m arg1 vars (i + 1)

/-- `get`. -/
def get (m : Ram) (table : List ShellVar) (arg1 : ℕ) : ℕ × Option Message := getLoop m arg1 table 0

/-- `memcpy(addr, src, n)`, as the stores that it makes; the two regions do not overlap. -/
def memcpy (m : Ram) (addr src n : ℕ) : List (ℕ × UInt8) := (List.range n).map fun i => (addr + i, m.byte (src + i))

/-- The low `n` bytes of a `long`, the lowest first. -/
def number (addr n value : ℕ) : List (ℕ × UInt8) := (List.range n).map fun i => (addr + i, UInt8.ofNat (value / 256 ^ i))

/-- What the `switch` of `set` stores. A string that `xatoi` rejects counts as zero. -/
def setStores (m : Ram) (v : ShellVar) (arg1 arg2 : ℕ) : List (ℕ × UInt8) :=
  match v.type with
  | some .string => m.memcpy v.addr arg2 (m.string arg1).length
  | some .ptr | some .int32 | some .uint32 | some .float => number v.addr 4 (xatoi (m.string arg2)).res
  | some .int8 | some .uint8 => number v.addr 1 (xatoi (m.string arg2)).res
  | some .int16 | some .uint16 => number v.addr 2 (xatoi (m.string arg2)).res
  | some .double | none => []

/-- And what it prints, but for `SHELL_VAR_DOUBLE` the same as `get` then. -/
def setMessage (m : Ram) (v : ShellVar) : Message := if v.type = some .double then .notSupportDouble else m.printVar v

end Ram

/-- What `set` leaves: `_shell_var`, the stores, and what is printed. -/
structure SetRun where
  var : ℕ
  stores : List (ℕ × UInt8)
  message : Option Message

namespace Ram

/-- The loop of `set`. -/
def setLoop (m : Ram) (arg1 arg2 : ℕ) : List ShellVar → ℕ → SetRun
  | [], i => ⟨i, [], none⟩
  | v :: vars, i =>
    if m.memcmp arg1 v.name then
      ⟨i, m.setStores v arg1 arg2, some ((m.storeAll (m.setStores v arg1 arg2)).setMessage v)⟩
    else setLoop m arg1 arg2 vars (i + 1)

/-- `set`. -/
def set (m : Ram) (table : List ShellVar) (arg1 arg2 : ℕ) : SetRun := setLoop m arg1 arg2 table 0

end Ram

/-! ## What they should do -/

/-- The bytes of a variable that is no string. -/
def ShellVar.size (v : ShellVar) : ℕ :=
  match v.type with
  | some .int8 | some .uint8 => 1
  | some .int16 | some .uint16 => 2
  | some .int32 | some .uint32 | some .float | some .ptr => 4
  | some .double => 8
  | some .string | none => 0

/-- The place of the variable with a name; behind the table, if there is none. -/
def named (table : List ShellVar) (name : List UInt8) : ℕ := table.findIdx (·.name == name)

/-- **`get` is about the variable that is named.** -/
structure GetOk (m : Ram) (table : List ShellVar) (arg1 : ℕ) : Prop where
  var : (m.get table arg1).1 = named table (m.string arg1)
  message : (m.get table arg1).2 = table[named table (m.string arg1)]?.map m.printVar

/-- **`set` is about the variable that is named**: nothing else is stored to. A string is the second argument then, with its NUL,
and nothing behind it is stored to. -/
structure SetOk (m : Ram) (table : List ShellVar) (arg1 arg2 : ℕ) : Prop where
  var : (m.set table arg1 arg2).var = named table (m.string arg1)
  missing : table[named table (m.string arg1)]? = none → (m.set table arg1 arg2).stores = [] ∧ (m.set table arg1 arg2).message = none
  message : ∀ v, table[named table (m.string arg1)]? = some v →
    (m.set table arg1 arg2).message = some ((m.storeAll (m.set table arg1 arg2).stores).setMessage v)
  scalar : ∀ v, table[named table (m.string arg1)]? = some v → v.type ≠ some .string →
    ∀ st ∈ (m.set table arg1 arg2).stores, v.addr ≤ st.1 ∧ st.1 < v.addr + v.size
  string : ∀ v, table[named table (m.string arg1)]? = some v → v.type = some .string →
    (∀ st ∈ (m.set table arg1 arg2).stores, v.addr ≤ st.1 ∧ st.1 ≤ v.addr + (m.string arg2).length) ∧
      ∀ i, i ≤ (m.string arg2).length →
        (m.storeAll (m.set table arg1 arg2).stores).byte (v.addr + i) = m.byte (arg2 + i)

/-- No variable in front of the one that is named has a name that is a prefix of its name. -/
def Unhidden (table : List ShellVar) (name : List UInt8) : Prop :=
  ∀ i, i < named table name → ∀ v, table[i]? = some v → ¬v.name <+: name

/-- The name is not longer than the value and its NUL, and what it is too short for is stored there already. -/
def Fits (m : Ram) (v : ShellVar) (arg1 arg2 : ℕ) : Prop :=
  (m.string arg1).length ≤ (m.string arg2).length + 1 ∧
    ∀ i, (m.string arg1).length ≤ i → i ≤ (m.string arg2).length → m.byte (v.addr + i) = m.byte (arg2 + i)

/-! ## Which variable is taken -/

namespace Ram

variable (m : Ram)

theorem string_zero {p : ℕ} (h : m.byte p = 0) : m.string p = [] := by
  rw [m.string_eq (Nat.le_refl p) h fun i hi hlt => by omega, m.bytes_eq_nil (Nat.le_refl p)]

theorem string_cons {p : ℕ} (h : m.byte p ≠ 0) : m.string p = m.byte p :: m.string (p + 1) := by
  obtain ⟨e, hle, hzero, hbefore, hstring⟩ := m.string_end (p + 1)
  rw [m.string_eq (show p ≤ e by omega) hzero, m.bytes_cons hle, hstring]
  intro i hi hlt
  by_cases hip : i = p
  · rwa [hip]
  · exact hbefore i (by omega) hlt

/-- The comparison asks for a prefix. -/
theorem memcmp_iff {name : List UInt8} (hname : 0 ∉ name) (p : ℕ) : m.memcmp p name = true ↔ name <+: m.string p := by
  induction name generalizing p with
  | nil => exact iff_of_true rfl (List.nil_prefix)
  | cons c name ih =>
    have hc : 0 ≠ c := fun h => hname (h ▸ List.mem_cons_self)
    have hrest : 0 ∉ name := fun h => hname (List.mem_cons_of_mem c h)
    rw [memcmp, Bool.and_eq_true, beq_iff_eq]
    by_cases hp : m.byte p = 0
    · rw [m.string_zero hp, hp]
      exact iff_of_false (fun h => hc h.1) (fun h => List.cons_ne_nil _ _ (List.prefix_nil.mp h))
    · rw [m.string_cons hp, List.cons_prefix_cons, ih hrest]
      exact and_congr_left' eq_comm

/-- The variable that the loops stop at. -/
def selected (table : List ShellVar) (arg1 : ℕ) : ℕ := table.findIdx fun v => m.memcmp arg1 v.name

theorem getLoop_eq (arg1 : ℕ) (table : List ShellVar) (i : ℕ) :
    m.getLoop arg1 table i = (i + m.selected table arg1, table[m.selected table arg1]?.map m.printVar) := by
  unfold selected
  induction table generalizing i with
  | nil => rfl
  | cons v table ih =>
    rw [getLoop, List.findIdx_cons]
    cases hcmp : m.memcmp arg1 v.name with
    | true => rfl
    | false =>
      rw [if_neg Bool.false_ne_true, ih, cond_false, List.getElem?_cons_succ, Nat.add_assoc, Nat.add_comm 1]

theorem setLoop_eq (arg1 arg2 : ℕ) (table : List ShellVar) (i : ℕ) : m.setLoop arg1 arg2 table i =
    ⟨i + m.selected table arg1, (table[m.selected table arg1]?.map fun v => m.setStores v arg1 arg2).getD [],
      table[m.selected table arg1]?.map fun v => (m.storeAll (m.setStores v arg1 arg2)).setMessage v⟩ := by
  unfold selected
  induction table generalizing i with
  | nil => rfl
  | cons v table ih =>
    rw [setLoop, List.findIdx_cons]
    cases hcmp : m.memcmp arg1 v.name with
    | true => rfl
    | false =>
      rw [if_neg Bool.false_ne_true, ih, cond_false, List.getElem?_cons_succ, Nat.add_assoc, Nat.add_comm 1]

theorem selected_le (table : List ShellVar) (arg1 : ℕ) : m.selected table arg1 ≤ named table (m.string arg1) := by
  refine List.findIdx_le_findIdx fun v _ hv => ?_
  exact (m.memcmp_iff v.name_nul arg1).mpr (beq_iff_eq.mp hv ▸ List.prefix_refl v.name)

/-- **The right variable is taken** if and only if none is in front of it whose name is a prefix. -/
theorem selected_eq_iff (table : List ShellVar) (arg1 : ℕ) :
    m.selected table arg1 = named table (m.string arg1) ↔ Unhidden table (m.string arg1) := by
  constructor
  · intro h i hi v hv hprefix
    obtain ⟨hlt, rfl⟩ := List.getElem?_eq_some_iff.mp hv
    have hnot : m.memcmp arg1 table[i].name = false := List.not_of_lt_findIdx (h ▸ hi : i < m.selected table arg1)
    rw [(m.memcmp_iff table[i].name_nul arg1).mpr hprefix] at hnot
    cases hnot
  · intro h
    refine Nat.le_antisymm (m.selected_le table arg1) (Nat.le_of_not_lt fun hlt => ?_)
    have hlen : m.selected table arg1 < table.length := lt_of_lt_of_le hlt List.findIdx_le_length
    have hcmp : m.memcmp arg1 table[m.selected table arg1].name = true :=
      List.findIdx_getElem (p := fun v : ShellVar => m.memcmp arg1 v.name) (w := hlen)
    exact h _ hlt _ (List.getElem?_eq_getElem hlen) ((m.memcmp_iff (ShellVar.name_nul _) arg1).mp hcmp)

theorem get_ok_iff (table : List ShellVar) (arg1 : ℕ) : GetOk m table arg1 ↔ Unhidden table (m.string arg1) := by
  have hget := m.getLoop_eq arg1 table 0
  rw [Nat.zero_add] at hget
  rw [← m.selected_eq_iff]
  constructor
  · rintro ⟨hvar, -⟩
    rwa [get, hget] at hvar
  · intro h
    rw [h] at hget
    exact ⟨congrArg Prod.fst hget, congrArg Prod.snd hget⟩

/-! ## What is stored -/

/-- Bytes that are stored side by side. -/
theorem storeAll_range (p n : ℕ) (f : ℕ → UInt8) (q : ℕ) :
    (m.storeAll ((List.range n).map fun i => (p + i, f i))).byte q = if p ≤ q ∧ q < p + n then f (q - p) else m.byte q := by
  induction n with
  | zero =>
    rw [if_neg (by omega)]
    rfl
  | succ n ih =>
    unfold storeAll at ih ⊢
    rw [List.range_succ, List.map_append, List.foldl_append, List.map_singleton, List.foldl_cons, List.foldl_nil]
    show Function.update (List.foldl _ m _).byte (p + n) (f n) q = _
    by_cases hq : q = p + n
    · rw [hq, Function.update_self, if_pos (by omega), Nat.add_sub_cancel_left]
    · rw [Function.update_of_ne hq, ih]
      exact if_congr (by omega) rfl rfl

theorem mem_stores {p n : ℕ} {f : ℕ → UInt8} {st : ℕ × UInt8} (h : st ∈ (List.range n).map fun i => (p + i, f i)) :
    p ≤ st.1 ∧ st.1 < p + n := by
  obtain ⟨i, hi, rfl⟩ := List.mem_map.mp h
  have hlt := List.mem_range.mp hi
  exact ⟨Nat.le_add_right p i, Nat.add_lt_add_left hlt p⟩

/-- What is no string is stored to in its own bytes. -/
theorem setStores_scalar {v : ShellVar} (hv : v.type ≠ some .string) (arg1 arg2 : ℕ) :
    ∀ st ∈ m.setStores v arg1 arg2, v.addr ≤ st.1 ∧ st.1 < v.addr + v.size := by
  intro st hst
  unfold setStores at hst
  unfold ShellVar.size
  cases htype : v.type with
  | none =>
    rw [htype] at hst
    exact absurd hst List.not_mem_nil
  | some type =>
    rw [htype] at hst hv
    cases type with
    | string => exact absurd rfl hv
    | double => exact absurd hst List.not_mem_nil
    | int8 | uint8 | int16 | uint16 | int32 | uint32 | float | ptr => exact mem_stores hst

/-- **A string is stored as it should be** if and only if the name on the command line has a length that does. -/
theorem setStores_string_iff {v : ShellVar} (hv : v.type = some .string) (arg1 arg2 : ℕ) :
    ((∀ st ∈ m.setStores v arg1 arg2, v.addr ≤ st.1 ∧ st.1 ≤ v.addr + (m.string arg2).length) ∧
      ∀ i, i ≤ (m.string arg2).length → (m.storeAll (m.setStores v arg1 arg2)).byte (v.addr + i) = m.byte (arg2 + i)) ↔
      Fits m v arg1 arg2 := by
  have hstores : m.setStores v arg1 arg2 = m.memcpy v.addr arg2 (m.string arg1).length := by
    unfold setStores
    rw [hv]
  have hbyte : ∀ i, (m.storeAll (m.setStores v arg1 arg2)).byte (v.addr + i) =
      if i < (m.string arg1).length then m.byte (arg2 + i) else m.byte (v.addr + i) := by
    intro i
    rw [hstores, memcpy, m.storeAll_range, Nat.add_sub_cancel_left]
    exact if_congr (by omega) rfl rfl
  unfold Fits
  generalize (m.string arg1).length = n at hstores hbyte ⊢
  constructor
  · rintro ⟨hin, hstored⟩
    constructor
    · by_contra hlong
      have hst := hin (v.addr + (n - 1), m.byte (arg2 + (n - 1)))
        (by rw [hstores]; exact List.mem_map.mpr ⟨n - 1, List.mem_range.mpr (by omega), rfl⟩)
      dsimp only at hst
      omega
    · intro i hi hle
      have hi' := hstored i hle
      rwa [hbyte, if_neg (Nat.not_lt.mpr hi)] at hi'
  · rintro ⟨hle, hsame⟩
    constructor
    · intro st hst
      rw [hstores] at hst
      have hrange := mem_stores hst
      omega
    · intro i hi
      rw [hbyte]
      split
      · rfl
      · exact hsame i (by omega) hi

theorem set_ok_iff (table : List ShellVar) (arg1 arg2 : ℕ) : SetOk m table arg1 arg2 ↔ Unhidden table (m.string arg1) ∧
    ∀ v, table[named table (m.string arg1)]? = some v → v.type = some .string → Fits m v arg1 arg2 := by
  have hset := m.setLoop_eq arg1 arg2 table 0
  rw [Nat.zero_add] at hset
  rw [← m.selected_eq_iff]
  constructor
  · intro h
    have hsel : m.selected table arg1 = named table (m.string arg1) := by
      have hvar := h.var
      rwa [set, hset] at hvar
    refine ⟨hsel, fun v hv hstring => ?_⟩
    have hstores : (m.set table arg1 arg2).stores = m.setStores v arg1 arg2 := by
      rw [set, hset, hsel, hv]
      rfl
    have hok := h.string v hv hstring
    rw [hstores] at hok
    exact (m.setStores_string_iff hstring arg1 arg2).mp hok
  · rintro ⟨hsel, hfits⟩
    rw [hsel] at hset
    have hstores : ∀ v, table[named table (m.string arg1)]? = some v → (m.set table arg1 arg2).stores = m.setStores v arg1 arg2 := by
      intro v hv
      rw [set, hset, hv]
      rfl
    constructor
    · rw [set, hset]
    · intro hnone
      rw [set, hset, hnone]
      exact ⟨rfl, rfl⟩
    · intro v hv
      rw [hstores v hv, set, hset, hv]
      rfl
    · intro v hv hscalar
      rw [hstores v hv]
      exact m.setStores_scalar hscalar arg1 arg2
    · intro v hv hstring
      rw [hstores v hv]
      exact (m.setStores_string_iff hstring arg1 arg2).mpr (hfits v hv hstring)

/-- **`get` and `set` do what they should** if and only if the variable that is named is not hidden by one whose name is a prefix
of its name, or of a name that is not in the table; and, for `set` on a string, the length of the name is right for the value. -/
theorem shell_vars_iff (table : List ShellVar) (arg1 arg2 : ℕ) :
    (GetOk m table arg1 ↔ Unhidden table (m.string arg1)) ∧
      (SetOk m table arg1 arg2 ↔ Unhidden table (m.string arg1) ∧
        ∀ v, table[named table (m.string arg1)]? = some v → v.type = some .string → Fits m v arg1 arg2) :=
  ⟨m.get_ok_iff table arg1, m.set_ok_iff table arg1 arg2⟩

/-- The memory behind `set v on`: the arguments at 4 and 6, and a string variable at 16. -/
def setRam : Ram where
  byte p := [115, 101, 116, 0, 118, 0, 111, 110, 0].getD p 0
  size := 9
  outside _ hp := List.getD_eq_default _ _ hp

/-- And the variable. -/
def stringVar : ShellVar := ⟨[118], 16, some .string, by decide⟩

/-- The one character of its name is all that is copied of the value. -/
theorem set_short : ¬∀ (m : Ram) (table : List ShellVar) (arg1 arg2 : ℕ), GetOk m table arg1 ∧ SetOk m table arg1 arg2 := by
  intro h
  obtain ⟨-, hset⟩ := h setRam [stringVar] 4 6
  obtain ⟨-, hstored⟩ := hset.string stringVar rfl rfl
  have hsecond := hstored 1 (by decide)
  revert hsecond
  decide

end Ram

end CoreLink.Shell
