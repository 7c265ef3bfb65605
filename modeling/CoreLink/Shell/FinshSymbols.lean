/-
# `CoreLink.Shell.FinshSymbols` — what a name stands for.

`finsh_node_new_id` looks a name up in the variables, then in the system variables, then in the system calls. The two latter
are arrays that the linker fills and lists that grow in front at run time. The arrays are compared with `strcmp`, but the
lists with `strncmp` and the length of the name: there a name stands for the newest entry that begins with it. And a name of
`FINSH_NAME_MAX` characters gets into the buffer of `proc_primary_expr` without a NUL behind it, so what the functions see
goes on with the bytes that were there. `resolve_exact_iff` says when neither matters.
-/
import CoreLink.Shell.FinshParser

namespace CoreLink.Shell.Finsh

open RtThread

/-! ## Strings -/

/-- `strncmp(cs, ct, count) == 0`, for strings without their NULs. -/
def strncmp : List UInt8 → List UInt8 → ℕ → Bool
  | _, _, 0 => true
  | [], [], _ + 1 => true
  | [], _ :: _, _ + 1 => false
  | _ :: _, [], _ + 1 => false
  | a :: cs, b :: ct, count + 1 => decide (a = b) && strncmp cs ct count

theorem strncmp_iff (cs ct : List UInt8) (count : ℕ) : strncmp cs ct count = true ↔ cs.take count = ct.take count := by
  induction count generalizing cs ct with
  | zero => exact iff_of_true (by cases cs <;> cases ct <;> rfl) rfl
  | succ count ih =>
    cases cs with
    | nil => cases ct <;> simp [strncmp]
    | cons a cs =>
      cases ct with
      | nil => simp [strncmp]
      | cons b ct => simp [strncmp, ih]

/-- With its own length, `strncmp` asks whether a string is the beginning of the other one. -/
theorem strncmp_length_iff (cs ct : List UInt8) : strncmp cs ct ct.length = true ↔ ct <+: cs := by
  rw [strncmp_iff, List.take_length, List.prefix_iff_eq_take]
  exact eq_comm

/-! ## The tables -/

/-- `struct finsh_sysvar` or `struct finsh_syscall`. -/
structure FinshEntry where
  name : List UInt8
  symbol : Symbol

/-- The array between `_sysvar_table_begin` and `_sysvar_table_end` and `global_sysvar_list`, or those of the system
calls. -/
structure SymbolTable where
  exported : List FinshEntry
  appended : List FinshEntry

namespace SymbolTable

/-- `finsh_sysvar_append`, `finsh_syscall_append`: the entry becomes the head of the list. -/
def append (t : SymbolTable) (name : List UInt8) (symbol : Symbol) : SymbolTable :=
  { t with appended := ⟨name, symbol⟩ :: t.appended }

/-- `finsh_sysvar_lookup`, `finsh_syscall_lookup`. -/
def lookup (t : SymbolTable) (name : List UInt8) : Option FinshEntry :=
  match t.exported.find? fun e => decide (e.name = name) with
  | some e => some e
  | none => t.appended.find? fun e => strncmp e.name name name.length

/-- All that is registered. -/
def entries (t : SymbolTable) : List FinshEntry := t.exported ++ t.appended

end SymbolTable

/-- `FINSH_IDTYPE_VAR`, `FINSH_IDTYPE_SYSVAR`, `FINSH_IDTYPE_SYSCALL`. -/
inductive IdKind where
  | var | sysvar | syscall
  deriving DecidableEq

/-- The `idtype` of a node. -/
def IdKind.idtype : IdKind → Byte
  | var => idtypeVar
  | sysvar => idtypeSysvar
  | syscall => idtypeSyscall

/-- `global_variable`, at its address, and the two tables. The name of a variable is cut off at `FINSH_NAME_MAX` characters;
an entry that is not used has none. -/
structure FinshTables where
  base : Dword
  vars : List FinshVar
  sysvars : SymbolTable
  syscalls : SymbolTable
  fits : ∀ v ∈ vars, v.name.length ≤ nameMax

namespace FinshTables

/-- `finsh_var_insert`; `none` is its -1. The name is cut off by `strncpy`. -/
def varInsert (t : FinshTables) (name : List UInt8) (type : FinshType) : Option FinshTables :=
  if t.vars.any fun v => strncmp v.name name nameMax then none
  else
    (t.vars.findIdx? fun v => decide (v.type = .unknown)).map fun i =>
      { t with
        vars := t.vars.modify i fun v => { v with name := name.take nameMax, type := type }
        fits := by
          intro v hv
          obtain ⟨j, hj, rfl⟩ := List.getElem_of_mem hv
          rw [List.getElem_modify]
          split
          · exact List.length_take_le nameMax name
          · exact t.fits _ (List.getElem_mem _) }

/-- `finsh_var_delete`; `none` is its -1. -/
def varDelete (t : FinshTables) (name : List UInt8) : Option FinshTables :=
  (t.vars.findIdx? fun v => strncmp v.name name nameMax).map fun i =>
    { t with
      vars := t.vars.set i ⟨[], .unknown, 0⟩
      fits := by
        intro v hv
        obtain hv | rfl := List.mem_or_eq_of_mem_set hv
        · exact t.fits v hv
        · exact Nat.zero_le nameMax }

/-- `&global_variable[i]`. -/
def varEntry (t : FinshTables) (i : ℕ) (v : FinshVar) : FinshEntry :=
  ⟨v.name, { ptr := t.base + BitVec.ofNat 32 (24 * i), type := v.type }⟩

/-- The entries of the variables. -/
def varEntries (t : FinshTables) : List FinshEntry := t.vars.mapIdx t.varEntry

/-- `finsh_var_lookup`. -/
def varLookup (t : FinshTables) (name : List UInt8) : Option FinshEntry :=
  t.varEntries.find? fun e => strncmp e.name name nameMax

/-- The entries of a kind. -/
def entries (t : FinshTables) : IdKind → List FinshEntry
  | .var => t.varEntries
  | .sysvar => t.sysvars.entries
  | .syscall => t.syscalls.entries

/-- The three lookups of `finsh_node_new_id`. -/
def resolve (t : FinshTables) (id : List UInt8) : Option (IdKind × FinshEntry) :=
  match t.varLookup id with
  | some e => some (.var, e)
  | none =>
    match t.sysvars.lookup id with
    | some e => some (.sysvar, e)
    | none => (t.syscalls.lookup id).map fun e => (.syscall, e)

/-- `finsh_node_new_id`. -/
def finshNodeNewId (t : FinshTables) (id : List UInt8) : Proc Tree :=
  FinshParser.newId ((t.resolve id).map fun r => (r.1.idtype, r.2.symbol))

end FinshTables

/-- The string in `char id[FINSH_NAME_MAX + 1]` behind `strncpy(id, token, FINSH_NAME_MAX)`; `stale` is the string that was at
`id[FINSH_NAME_MAX]`. -/
def idBuffer (token stale : List UInt8) : List UInt8 :=
  if token.length < nameMax then token else token.take nameMax ++ stale

namespace FinshTables

/-- The tables as the parser takes them. -/
def system (t : FinshTables) (heapBase : Dword) : FinshSystem where
  sysvar id := (t.sysvars.lookup id).map FinshEntry.symbol
  syscall id := (t.syscalls.lookup id).map FinshEntry.symbol
  variableBase := t.base
  heapBase := heapBase

/-- A variable is compared with as many characters as it can have. -/
theorem strncmp_var_iff (t : FinshTables) {v : FinshVar} (hv : v ∈ t.vars) (s : List UInt8) :
    strncmp v.name s nameMax = true ↔ v.name = s.take nameMax := by
  rw [strncmp_iff, List.take_of_length_le (t.fits v hv)]

/-- **What the parser finds**: `finsh_node_new_id` of these tables, for the names that the parser hands to it. -/
theorem lookup_system (t : FinshTables) (heapBase : Dword) {id : List UInt8} (hid : id.length ≤ nameMax) :
    FinshParser.lookup (t.system heapBase) t.vars id = (t.resolve id).map fun r => (r.1.idtype, r.2.symbol) := by
  have hstrncmp : ∀ v ∈ t.vars, (strncmp v.name id nameMax = true ↔ v.name = id) := by
    intro v hv
    rw [t.strncmp_var_iff hv, List.take_of_length_le hid]
  unfold FinshParser.lookup resolve varLookup
  cases hvar : t.vars.findIdx? fun v => decide (v.name = id) with
  | some i =>
    obtain ⟨hi, hname, hbefore⟩ := List.findIdx?_eq_some_iff_getElem.mp hvar
    have hfind : t.varEntries.find? (fun e => strncmp e.name id nameMax) = some (t.varEntry i t.vars[i]) := by
      refine List.find?_eq_some_iff_getElem.mpr ⟨(hstrncmp _ (List.getElem_mem hi)).mpr (of_decide_eq_true hname), i, ?_, ?_, ?_⟩
      · rwa [varEntries, List.length_mapIdx]
      · exact List.getElem_mapIdx
      · intro j hj
        have hlater : ¬t.vars[j].name = id := fun h => absurd (decide_eq_true h) (by simpa using hbefore j hj)
        have hlength : j < t.varEntries.length := by
          rw [varEntries, List.length_mapIdx]
          omega
        have hne : t.varEntries[j] = t.varEntry j t.vars[j] := List.getElem_mapIdx
        rw [hne, Bool.not_eq_true', Bool.eq_false_iff]
        exact fun h => hlater ((hstrncmp _ (List.getElem_mem _)).mp h)
    rw [hfind]
    dsimp only [Option.map_some]
    rw [List.getD_eq_getElem?_getD, List.getElem?_map, List.getElem?_eq_getElem hi]
    rfl
  | none =>
    have hfind : t.varEntries.find? (fun e => strncmp e.name id nameMax) = none := by
      rw [List.find?_eq_none]
      intro e he
      obtain ⟨i, hi, rfl⟩ := List.mem_mapIdx.mp he
      have hnone := List.findIdx?_eq_none_iff.mp hvar _ (List.getElem_mem hi)
      exact fun h => absurd (decide_eq_true ((hstrncmp _ (List.getElem_mem hi)).mp h)) (by simpa using hnone)
    rw [hfind]
    unfold system
    dsimp only
    cases t.sysvars.lookup id with
    | some e => rfl
    | none =>
      rw [Option.map_none, Option.map_map]
      cases t.syscalls.lookup id <;> rfl

end FinshTables

/-! ## Names as they should be found -/

/-- **A symbol for exactly this name**, if there is one, and the variables before the system variables before the system
calls. -/
structure FinshTables.Exact (t : FinshTables) (token : List UInt8) (r : Option (IdKind × FinshEntry)) : Prop where
  symbol : ∀ k e, r = some (k, e) → e ∈ t.entries k ∧ e.name = token
  found : ∀ k, ∀ e ∈ t.entries k, e.name = token → r.isSome = true
  var : ∀ e ∈ t.entries .var, e.name = token → ∀ k e', r = some (k, e') → k = .var
  sysvar : ∀ e ∈ t.entries .sysvar, e.name = token → ∀ k e', r = some (k, e') → k ≠ .syscall

/-- **A table in which a name is found as it should be.** If `s` is the name, it is exported, or every appended entry that it
is the beginning of has this name or is behind one that has. If more characters follow in `s`, neither they nor the name may
find an entry. -/
def SymbolTable.Clear (t : SymbolTable) (token s : List UInt8) : Prop :=
  if s = token then
    (∃ e ∈ t.exported, e.name = token) ∨
      ∀ l e l', t.appended = l ++ e :: l' → token <+: e.name → e.name = token ∨ ∃ e' ∈ l, e'.name = token
  else ∀ e ∈ t.entries, e.name ≠ token ∧ (e ∈ t.exported → e.name ≠ s) ∧ (e ∈ t.appended → ¬s <+: e.name)

/-- The names that the parser hands to `finsh_node_new_id`. -/
structure Identifier where
  token : List UInt8
  nonempty : token ≠ []
  fits : token.length ≤ nameMax

/-- The string that `finsh_node_new_id` gets. -/
def Identifier.buffer (id : Identifier) (stale : List UInt8) : List UInt8 := idBuffer id.token stale

theorem Identifier.buffer_cases (id : Identifier) (stale : List UInt8) :
    id.buffer stale = id.token ∨ nameMax < (id.buffer stale).length ∧ id.token <+: id.buffer stale := by
  have hfits := id.fits
  unfold Identifier.buffer idBuffer
  split
  · exact Or.inl rfl
  · rw [List.take_of_length_le hfits]
    cases stale with
    | nil => exact Or.inl (List.append_nil _)
    | cons c stale =>
      refine Or.inr ⟨?_, List.prefix_append _ _⟩
      rw [List.length_append, List.length_cons]
      omega

theorem Identifier.take_buffer (id : Identifier) (stale : List UInt8) : (id.buffer stale).take nameMax = id.token := by
  have hfits := id.fits
  unfold Identifier.buffer idBuffer
  split
  · exact List.take_of_length_le hfits
  · rw [List.take_of_length_le hfits, List.take_append_of_le_length (by omega), List.take_of_length_le hfits]

/-! ## The lookups -/

/-- What a lookup in a table should find. -/
structure SymbolTable.Exact (t : SymbolTable) (token : List UInt8) (r : Option FinshEntry) : Prop where
  symbol : ∀ e, r = some e → e ∈ t.entries ∧ e.name = token
  found : ∀ e ∈ t.entries, e.name = token → r.isSome = true

theorem SymbolTable.lookup_mem (t : SymbolTable) {s : List UInt8} {e : FinshEntry} (h : t.lookup s = some e) :
    e ∈ t.entries ∧ s <+: e.name := by
  unfold lookup at h
  cases hexported : t.exported.find? fun e => decide (e.name = s) with
  | some e' =>
    rw [hexported] at h
    cases h
    have hname := List.find?_some hexported
    rw [decide_eq_true_eq] at hname
    exact ⟨List.mem_append_left _ (List.mem_of_find?_eq_some hexported), hname ▸ List.prefix_refl _⟩
  | none =>
    rw [hexported] at h
    have hname := List.find?_some h
    exact ⟨List.mem_append_right _ (List.mem_of_find?_eq_some h), (strncmp_length_iff _ _).mp hname⟩

theorem SymbolTable.lookup_none (t : SymbolTable) {s : List UInt8} :
    t.lookup s = none ↔ (∀ e ∈ t.exported, e.name ≠ s) ∧ ∀ e ∈ t.appended, ¬s <+: e.name := by
  unfold lookup
  cases hexported : t.exported.find? fun e => decide (e.name = s) with
  | some e =>
    have hname := List.find?_some hexported
    rw [decide_eq_true_eq] at hname
    exact iff_of_false (by intro h; cases h) fun h => h.1 e (List.mem_of_find?_eq_some hexported) hname
  | none =>
    have hnone : ∀ e ∈ t.exported, e.name ≠ s := by simpa using hexported
    simp only [List.find?_eq_none, strncmp_length_iff]
    exact ⟨fun h => ⟨hnone, h⟩, fun h => h.2⟩

/-- **A name with its NUL.** -/
theorem SymbolTable.exact_lookup_iff (t : SymbolTable) (token : List UInt8) :
    t.Exact token (t.lookup token) ↔ t.Clear token token := by
  unfold Clear
  rw [if_pos rfl]
  by_cases hexported : ∃ e ∈ t.exported, e.name = token
  · -- the array is right about it
    refine iff_of_true ?_ (Or.inl hexported)
    have hfind : ∃ e ∈ t.exported, e.name = token ∧ t.lookup token = some e := by
      unfold lookup
      cases hfind : t.exported.find? fun e => decide (e.name = token) with
      | some e =>
        have hname := List.find?_some hfind
        rw [decide_eq_true_eq] at hname
        exact ⟨e, List.mem_of_find?_eq_some hfind, hname, rfl⟩
      | none =>
        obtain ⟨e, he, hname⟩ := hexported
        exact absurd (decide_eq_true hname) (List.find?_eq_none.mp hfind e he)
    obtain ⟨e, he, hname, hlookup⟩ := hfind
    rw [hlookup]
    refine ⟨fun e' h => ?_, fun _ _ _ => rfl⟩
    cases h
    exact ⟨List.mem_append_left _ he, hname⟩
  · -- the list is
    have hnone : t.exported.find? (fun e => decide (e.name = token)) = none :=
      List.find?_eq_none.mpr fun e he h => hexported ⟨e, he, of_decide_eq_true h⟩
    have hlookup : t.lookup token = t.appended.find? fun e => strncmp e.name token token.length := by
      unfold lookup
      rw [hnone]
    rw [or_iff_right hexported]
    constructor
    · intro h l e l' hsplit hprefix
      by_contra hwrong
      rw [not_or, not_exists] at hwrong
      cases hfirst : l.find? fun e => strncmp e.name token token.length with
      | some e' =>
        have hfound : t.lookup token = some e' := by rw [hlookup, hsplit, List.find?_append, hfirst, Option.some_or]
        exact hwrong.2 e' ⟨List.mem_of_find?_eq_some hfirst, (h.symbol e' hfound).2⟩
      | none =>
        have hmatch : (fun e : FinshEntry => strncmp e.name token token.length) e = true :=
          (strncmp_length_iff _ _).mpr hprefix
        have hhead : (e :: l').find? (fun e => strncmp e.name token token.length) = some e := List.find?_cons_of_pos hmatch
        have hfound : t.lookup token = some e := by
          rw [hlookup, hsplit, List.find?_append, hfirst, Option.none_or, hhead]
        exact hwrong.1 (h.symbol e hfound).2
    · intro h
      refine ⟨fun e hfound => ⟨(t.lookup_mem hfound).1, ?_⟩, fun e he hname => ?_⟩
      · rw [hlookup] at hfound
        obtain ⟨hmatch, l, l', hsplit, hbefore⟩ := List.find?_eq_some_iff_append.mp hfound
        obtain hname | ⟨e', he', hname⟩ := h l e l' hsplit ((strncmp_length_iff _ _).mp hmatch)
        · exact hname
        · have hmatch' : strncmp e'.name token token.length = true :=
            (strncmp_length_iff _ _).mpr (hname ▸ List.prefix_refl _)
          exact absurd hmatch' (by simpa using hbefore e' he')
      · cases hnone' : t.lookup token with
        | some e' => rfl
        | none =>
          obtain ⟨h₁, h₂⟩ := t.lookup_none.mp hnone'
          obtain he | he := List.mem_append.mp he
          · exact absurd hname (h₁ e he)
          · exact absurd (hname ▸ List.prefix_refl _) (h₂ e he)

/-- **A name without its NUL.** -/
theorem SymbolTable.exact_lookup_stale (t : SymbolTable) {token s : List UInt8} (hs : token.length < s.length) :
    t.Exact token (t.lookup s) ↔ t.Clear token s := by
  have hne : s ≠ token := fun h => absurd (congrArg List.length h) (by omega)
  unfold Clear
  rw [if_neg hne]
  constructor
  · intro h
    cases hlookup : t.lookup s with
    | some e =>
      rw [hlookup] at h
      -- what is found has a longer name
      have hprefix := (t.lookup_mem hlookup).2
      rw [(h.symbol e rfl).2] at hprefix
      exact absurd hprefix.length_le (by omega)
    | none =>
      rw [hlookup] at h
      obtain ⟨h₁, h₂⟩ := t.lookup_none.mp hlookup
      exact fun e he => ⟨fun hname => absurd (h.found e he hname) (by decide), h₁ e, h₂ e⟩
  · intro h
    have hlookup : t.lookup s = none := t.lookup_none.mpr ⟨fun e he => (h e (List.mem_append_left _ he)).2.1 he,
      fun e he => (h e (List.mem_append_right _ he)).2.2 he⟩
    rw [hlookup]
    exact ⟨fun e h' => (by cases h'), fun e he hname => absurd hname (h e he).1⟩

theorem SymbolTable.exact_buffer_iff (t : SymbolTable) (id : Identifier) (stale : List UInt8) :
    t.Exact id.token (t.lookup (id.buffer stale)) ↔ t.Clear id.token (id.buffer stale) := by
  obtain h | ⟨hlong, -⟩ := id.buffer_cases stale
  · rw [h]
    exact t.exact_lookup_iff id.token
  · exact t.exact_lookup_stale (Nat.lt_of_le_of_lt id.fits hlong)

/-- **The variables**: all characters that a name can have are compared, so the NUL is not missed. -/
theorem FinshTables.varLookup_buffer (t : FinshTables) (id : Identifier) (stale : List UInt8) :
    (∀ e, t.varLookup (id.buffer stale) = some e → e ∈ t.varEntries ∧ e.name = id.token) ∧
      ∀ e ∈ t.varEntries, e.name = id.token → (t.varLookup (id.buffer stale)).isSome = true := by
  have hstrncmp : ∀ e ∈ t.varEntries, (strncmp e.name (id.buffer stale) nameMax = true ↔ e.name = id.token) := by
    intro e he
    obtain ⟨i, hi, rfl⟩ := List.mem_mapIdx.mp he
    rw [show (t.varEntry i t.vars[i]).name = t.vars[i].name from rfl, t.strncmp_var_iff (List.getElem_mem hi), id.take_buffer]
  unfold varLookup
  refine ⟨fun e h => ?_, fun e he hname => ?_⟩
  · have hmem := List.mem_of_find?_eq_some h
    have hmatch := List.find?_some h
    exact ⟨hmem, (hstrncmp e hmem).mp hmatch⟩
  · rw [List.find?_isSome]
    exact ⟨e, he, (hstrncmp e he).mpr hname⟩

/-! ## The name of a node -/

/-- **The names that are resolved exactly**: one of a variable, or else one that both searched tables are clear about. The
system calls are not searched when there is a system variable of the name. -/
def FinshTables.Clear (t : FinshTables) (id : Identifier) (stale : List UInt8) : Prop :=
  (∃ e ∈ t.varEntries, e.name = id.token) ∨
    t.sysvars.Clear id.token (id.buffer stale) ∧
      ((∃ e ∈ t.sysvars.entries, e.name = id.token) ∨ t.syscalls.Clear id.token (id.buffer stale))

/-- **A name stands for what it should**, exactly if the tables are clear about it. -/
theorem resolve_exact_iff (t : FinshTables) (id : Identifier) (stale : List UInt8) :
    t.Exact id.token (t.resolve (id.buffer stale)) ↔ t.Clear id stale := by
  obtain ⟨hvar, hvar'⟩ := t.varLookup_buffer id stale
  unfold FinshTables.Clear FinshTables.resolve
  rw [← t.sysvars.exact_buffer_iff, ← t.syscalls.exact_buffer_iff]
  cases hv : t.varLookup (id.buffer stale) with
  | some e =>
    -- a variable
    obtain ⟨he, hname⟩ := hvar e hv
    refine iff_of_true ⟨fun k e' h => ?_, fun _ _ _ _ => rfl, fun _ _ _ k e' h => ?_, fun _ _ _ k e' h => ?_⟩
      (Or.inl ⟨e, he, hname⟩)
    · cases h
      exact ⟨he, hname⟩
    · cases h
      rfl
    · cases h
      decide
  | none =>
    have hnovar : ¬∃ e ∈ t.varEntries, e.name = id.token := by
      rintro ⟨e, he, hname⟩
      have hsome := hvar' e he hname
      rw [hv] at hsome
      exact absurd hsome (by decide)
    rw [or_iff_right hnovar]
    cases hs : t.sysvars.lookup (id.buffer stale) with
    | some e =>
      dsimp only
      constructor
      · intro h
        obtain ⟨he, hname⟩ := h.symbol .sysvar e rfl
        refine ⟨⟨fun e' h' => ?_, fun _ _ _ => rfl⟩, Or.inl ⟨e, he, hname⟩⟩
        cases h'
        exact ⟨he, hname⟩
      · rintro ⟨h, -⟩
        obtain ⟨he, hname⟩ := h.symbol e rfl
        refine ⟨fun k e' h' => ?_, fun _ _ _ _ => rfl, fun e' he' hname' => absurd ⟨e', he', hname'⟩ hnovar, fun _ _ _ k e' h' => ?_⟩
        · cases h'
          exact ⟨he, hname⟩
        · cases h'
          decide
    | none =>
      dsimp only
      constructor
      · intro h
        have hnosysvar : ∀ e ∈ t.sysvars.entries, e.name ≠ id.token := by
          intro e he hname
          have hsome := h.found .sysvar e he hname
          obtain ⟨⟨k, e'⟩, hr⟩ := Option.isSome_iff_exists.mp hsome
          obtain ⟨e'', -, heq⟩ := Option.map_eq_some_iff.mp hr
          cases heq
          exact h.sysvar e he hname _ _ hr rfl
        refine ⟨⟨fun e h' => (by cases h'), fun e he hname => absurd hname (hnosysvar e he)⟩, Or.inr ⟨fun e h' => ?_, fun e he hname => ?_⟩⟩
        · exact h.symbol .syscall e (by rw [h']; rfl)
        · have hsome := h.found .syscall e he hname
          rwa [Option.isSome_map] at hsome
      · rintro ⟨hsysvars, hsyscalls⟩
        have hnosysvar : ¬∃ e ∈ t.sysvars.entries, e.name = id.token := by
          rintro ⟨e, he, hname⟩
          exact absurd (hsysvars.found e he hname) (by decide)
        have hexact := hsyscalls.resolve_left hnosysvar
        refine ⟨fun k e h' => ?_, fun k e he hname => ?_, fun e he hname => absurd ⟨e, he, hname⟩ hnovar,
          fun e he hname => absurd ⟨e, he, hname⟩ hnosysvar⟩
        · obtain ⟨e', hlookup, heq⟩ := Option.map_eq_some_iff.mp h'
          cases heq
          exact hexact.symbol e hlookup
        · rw [Option.isSome_map]
          cases k with
          | var => exact absurd ⟨e, he, hname⟩ hnovar
          | sysvar => exact absurd ⟨e, he, hname⟩ hnosysvar
          | syscall => exact hexact.found e he hname

/-- The system calls `ver` and `version` are appended in this order: `ver` stands for `version`. -/
theorem resolve_prefix : ∃ (t : FinshTables) (id : Identifier),
    (∃ e ∈ t.syscalls.appended, e.name = id.token) ∧ ¬t.Exact id.token (t.resolve (id.buffer [])) := by
  refine ⟨⟨0, [], ⟨[], []⟩, (SymbolTable.append ⟨[], []⟩ [118, 101, 114] { ptr := 4 }).append
      [118, 101, 114, 115, 105, 111, 110] { ptr := 8 }, fun v h => by cases h⟩,
    ⟨[118, 101, 114], by decide, by decide⟩, ⟨⟨_, { ptr := 4 }⟩, by simp [SymbolTable.append], rfl⟩, fun h => ?_⟩
  exact absurd (h.symbol .syscall ⟨[118, 101, 114, 115, 105, 111, 110], { ptr := 8 }⟩ rfl).2 (by decide)

end CoreLink.Shell.Finsh
