/-
# `CoreLink.Shell.FinshCorrect` — the byte code of a list of statements computes their values.

The machine is seen through `Config`: the program counter, the slots below the stack pointer, and the memory. `Exec`
says that the machine gets from one configuration to another, whatever lies above the stack pointer, and composes; each
instruction has one lemma about it. From there the proof goes up by layers: an expression (`Expr.exec`, by induction, with
its code anywhere in the text segment and any values below it on the stack), a list of statements (`exec_statements`), and
`finsh_preserves_meaning`.

No depth of the stack is computed on the way: a load takes five bytes of code for the slot it fills, so the invariant
`5 * slots ≤ pc` keeps the stack within its 64 slots as long as the code is within the text segment.
-/
import CoreLink.Shell.FinshExpr

namespace CoreLink.Shell.Finsh

/-! ## Code in the text segment -/

/-- The text segment has `code` at `pc`. -/
def CodeAt (text : List Byte) (pc : ℕ) (code : List Byte) : Prop := ∃ tail, text.drop pc = code ++ tail

namespace CodeAt

variable {text a b : List Byte} {pc : ℕ}

theorem left (h : CodeAt text pc (a ++ b)) : CodeAt text pc a := by
  obtain ⟨tail, ht⟩ := h
  exact ⟨b ++ tail, by rw [ht, List.append_assoc]⟩

theorem right (h : CodeAt text pc (a ++ b)) : CodeAt text (pc + a.length) b := by
  obtain ⟨tail, ht⟩ := h
  refine ⟨tail, ?_⟩
  rw [← List.drop_drop, ht, List.append_assoc, List.drop_left]

/-- Code lies within the text segment. -/
theorem length_le (h : CodeAt text pc a) (ha : 0 < a.length) : pc + a.length ≤ text.length := by
  obtain ⟨tail, ht⟩ := h
  have hlen := congrArg List.length ht
  rw [List.length_drop, List.length_append] at hlen
  omega

end CodeAt

/-! ## The slots of the stack -/

/-- The slots below a stack pointer, the last pushed first. -/
def slots (stack : ℕ → Dword) : ℕ → List Dword
  | 0 => []
  | n + 1 => stack n :: slots stack n

theorem slots_length (stack : ℕ → Dword) (n : ℕ) : (slots stack n).length = n := by
  induction n with
  | zero => rfl
  | succ n ih => rw [slots, List.length_cons, ih]

/-- An assignment at or above the stack pointer is not seen. -/
theorem slots_update_of_le (stack : ℕ → Dword) {i n : ℕ} (v : Dword) (h : n ≤ i) :
    slots (Function.update stack i v) n = slots stack n := by
  induction n with
  | zero => rfl
  | succ n ih => rw [slots, slots, ih (by omega), Function.update_of_ne (by omega)]

theorem slots_update_self (stack : ℕ → Dword) (n : ℕ) (v : Dword) :
    slots (Function.update stack n v) (n + 1) = v :: slots stack n := by
  rw [slots, Function.update_self, slots_update_of_le _ _ (Nat.le_refl n)]

/-- A stack that is not empty. -/
theorem slots_eq_cons {stack : ℕ → Dword} {n : ℕ} {a : Dword} {xs : List Dword} (h : slots stack n = a :: xs) :
    ∃ k, n = k + 1 ∧ stack k = a ∧ slots stack k = xs := by
  cases n with
  | zero => cases h
  | succ k => exact ⟨k, rfl, List.head_eq_of_cons_eq h, List.tail_eq_of_cons_eq h⟩

/-! ## Configurations -/

/-- What code sees of the machine. -/
structure Config where
  pc : ℕ
  stack : List Dword
  mem : Memory

/-- A machine in a configuration, with the text segment `text`. -/
structure Shows (text : List Byte) (c : Config) (vm : Vm) : Prop where
  text : vm.text = text
  pc : vm.pc = c.pc
  stack : slots vm.stack vm.sp = c.stack
  mem : vm.mem = c.mem

/-- The machine gets from one configuration to another. -/
def Exec (call : SysFunc) (text : List Byte) (c c' : Config) : Prop :=
  ∀ vm, Shows text c vm → ∃ vm', Rounds call vm vm' ∧ Shows text c' vm'

namespace Exec

variable {call : SysFunc} {text : List Byte} {c c' c'' : Config}

theorem trans (h : Exec call text c c') (h' : Exec call text c' c'') : Exec call text c c'' := by
  intro vm hvm
  obtain ⟨vm₁, hrounds, hvm₁⟩ := h vm hvm
  obtain ⟨vm₂, hrounds', hvm₂⟩ := h' vm₁ hvm₁
  exact ⟨vm₂, hrounds.trans hrounds', hvm₂⟩

theorem at_pc {pc pc' : ℕ} {xs : List Dword} {m : Memory} (h : Exec call text c ⟨pc, xs, m⟩) (hpc : pc = pc') :
    Exec call text c ⟨pc', xs, m⟩ := hpc ▸ h

/-- One instruction: its opcode selects `f`, and `f` finds the program counter at the operands. -/
theorem instr {f : Vm → Option Vm} {op : Byte} {operands : List Byte} (htext : text.length = textMax)
    (hcode : CodeAt text c.pc (op :: operands)) (hop : (opTable call)[op.toNat]? = some f)
    (hf : ∀ vm tail, Shows text { c with pc := c.pc + 1 } vm → vm.rest = operands ++ tail →
      ∃ vm', f vm = some vm' ∧ Shows text c' vm') : Exec call text c c' := by
  intro vm hvm
  obtain ⟨tail, htail⟩ := hcode
  have hrest : vm.rest = op :: (operands ++ tail) := by rw [Vm.rest, hvm.text, hvm.pc, htail, List.cons_append]
  have hrest' : ({ vm with pc := vm.pc + 1 } : Vm).rest = operands ++ tail := by
    rw [Vm.rest, ← List.drop_drop, ← Vm.rest, hrest, List.drop_one, List.tail_cons]
  obtain ⟨vm', hvm', hshows⟩ :=
    hf { vm with pc := vm.pc + 1 } tail ⟨hvm.text, congrArg (· + 1) hvm.pc, hvm.stack, hvm.mem⟩ hrest'
  have hpc : vm.pc < textMax := by
    have hle := CodeAt.length_le ⟨tail, htail⟩ (Nat.succ_pos _)
    rw [List.length_cons, htext] at hle
    rw [hvm.pc]
    omega
  have hstep : step call vm = some vm' := by
    simp only [step, hrest, hop, Option.bind_some]
    exact hvm'
  exact ⟨vm', .single ⟨hpc, hstep⟩, hshows⟩

end Exec

/-! ## The instructions, on double words -/

section Instructions

variable (call : SysFunc) {text : List Byte} {pc : ℕ} (xs : List Dword) (m : Memory)

/-- A push of a double word. -/
theorem shows_push {xs : List Dword} {m : Memory} {vm : Vm} {v : Dword} {n : ℕ} (hvm : Shows text ⟨pc, xs, m⟩ vm) (hlen : xs.length < stackMax) :
    ∃ vm', vm.push .dword v n = some vm' ∧ Shows text ⟨pc + n, v :: xs, m⟩ vm' := by
  have hsp : vm.sp < stackMax := by
    rw [← slots_length vm.stack vm.sp, hvm.stack]
    exact hlen
  refine ⟨_, if_pos hsp, hvm.text, congrArg (· + n) hvm.pc, ?_, hvm.mem⟩
  exact (slots_update_self vm.stack vm.sp v).trans (congrArg (v :: ·) hvm.stack)

theorem exec_loadLong (htext : text.length = textMax) {v : Dword} (hcode : CodeAt text pc (loadLong v))
    (hlen : xs.length < stackMax) : Exec call text ⟨pc, xs, m⟩ ⟨pc + 5, v :: xs, m⟩ := by
  refine Exec.instr (f := opLdImm .dword) htext hcode rfl fun vm tail hvm hrest => ?_
  have hload : opLdImm .dword vm = vm.push .dword v 4 := by
    unfold opLdImm
    rw [hrest]
    exact congrArg (fun x => vm.push .dword x 4) (Memory.dwordOf_extract v)
  rw [hload]
  exact shows_push hvm hlen

theorem exec_loadVar (htext : text.length = textMax) {a : Dword} (hcode : CodeAt text pc (loadVar a))
    (hlen : xs.length < stackMax) : Exec call text ⟨pc, xs, m⟩ ⟨pc + 5, m.load a.toNat .dword :: xs, m⟩ := by
  refine Exec.instr (f := opLdVar .dword) htext hcode rfl fun vm tail hvm hrest => ?_
  have hload : opLdVar .dword vm = vm.push .dword (vm.mem.load a.toNat .dword) 4 := by
    unfold opLdVar
    rw [hrest]
    exact congrArg (fun x => vm.push .dword (vm.mem.load (BitVec.toNat x) .dword) 4) (Memory.dwordOf_extract a)
  rw [hload, hvm.mem]
  exact shows_push hvm hlen

/-- The entry of an operator with two operands in the table. -/
theorem opTable_op (f : BinOp) : (opTable call)[(f.op .dword).toNat]? = some (opBin f .dword) := by
  cases f <;> rfl

theorem exec_bin (htext : text.length = textMax) {f : BinOp} {a b : Dword} {r : ℤ}
    (hcode : CodeAt text pc [f.op .dword]) (hr : f.apply a.toInt b.toInt = some r) :
    Exec call text ⟨pc, b :: a :: xs, m⟩ ⟨pc + 1, toLong r :: xs, m⟩ := by
  refine Exec.instr htext hcode (opTable_op call f) fun vm tail hvm _ => ?_
  obtain ⟨k, hk, hb, hrest⟩ := slots_eq_cons hvm.stack
  obtain ⟨n, rfl, ha, hxs⟩ := slots_eq_cons hrest
  have hvalue : opBin f .dword vm = some { vm.setSlot n .dword (BitVec.ofInt 32 r) with sp := n + 1 } := by
    rw [opBin, if_pos (by omega), show vm.sp - 2 = n by omega, show vm.sp - 1 = n + 1 by omega, ha, hb,
      Width.read_dword, Width.read_dword, hr, Option.map_some]
  exact ⟨_, hvalue, hvm.text, hvm.pc, (slots_update_self vm.stack n _).trans (congrArg _ hxs), hvm.mem⟩

theorem exec_bitwise (htext : text.length = textMax) {a : Dword} (hcode : CodeAt text pc [opBitwise .dword]) :
    Exec call text ⟨pc, a :: xs, m⟩ ⟨pc + 1, toLong (complement a.toInt) :: xs, m⟩ := by
  refine Exec.instr (f := opBw .dword) htext hcode rfl fun vm tail hvm _ => ?_
  obtain ⟨n, hn, ha, hxs⟩ := slots_eq_cons hvm.stack
  have hvalue : opBw .dword vm = some (vm.setSlot n .dword (BitVec.ofInt 32 (complement a.toInt))) := by
    rw [opBw, if_pos (by omega), show vm.sp - 1 = n by omega, ha, Width.read_dword]
  refine ⟨_, hvalue, hvm.text, hvm.pc, ?_, hvm.mem⟩
  change slots _ vm.sp = _
  rw [hn]
  exact (slots_update_self vm.stack n _).trans (congrArg _ hxs)

theorem exec_loadStack (htext : text.length = textMax) {a : Dword} (hcode : CodeAt text pc [opLdValueStack .dword]) :
    Exec call text ⟨pc, a :: xs, m⟩ ⟨pc + 1, m.load a.toNat .dword :: xs, m⟩ := by
  refine Exec.instr (f := opLdStack .dword) htext hcode rfl fun vm tail hvm _ => ?_
  obtain ⟨n, hn, ha, hxs⟩ := slots_eq_cons hvm.stack
  have hvalue : opLdStack .dword vm = some (vm.setSlot n .dword (m.load a.toNat .dword)) := by
    rw [opLdStack, if_pos (by omega), show vm.sp - 1 = n by omega, ha, hvm.mem]
  refine ⟨_, hvalue, hvm.text, hvm.pc, ?_, hvm.mem⟩
  change slots _ vm.sp = _
  rw [hn]
  exact (slots_update_self vm.stack n _).trans (congrArg _ hxs)

theorem exec_store (htext : text.length = textMax) {a v : Dword} (hcode : CodeAt text pc [opSt .dword]) :
    Exec call text ⟨pc, v :: a :: xs, m⟩ ⟨pc + 1, a :: xs, m.store a.toNat v .dword⟩ := by
  refine Exec.instr (f := opStore .dword) htext hcode rfl fun vm tail hvm _ => ?_
  obtain ⟨k, hk, hv, hrest⟩ := slots_eq_cons hvm.stack
  obtain ⟨n, rfl, ha, hxs⟩ := slots_eq_cons hrest
  have hvalue : opStore .dword vm = some { vm with mem := m.store a.toNat v .dword, sp := n + 1 } := by
    rw [opStore, if_pos (by omega), show vm.sp - 2 = n by omega, show vm.sp - 1 = n + 1 by omega, ha, hv, hvm.mem]
  exact ⟨_, hvalue, hvm.text, hvm.pc, hrest, rfl⟩

theorem exec_pop (htext : text.length = textMax) {a : Dword} (hcode : CodeAt text pc [opPop]) :
    Exec call text ⟨pc, a :: xs, m⟩ ⟨pc + 1, xs, m⟩ := by
  refine Exec.instr (f := opPopTop) htext hcode rfl fun vm tail hvm _ => ?_
  obtain ⟨n, hn, -, hxs⟩ := slots_eq_cons hvm.stack
  have hvalue : opPopTop vm = some { vm with sp := n } := by
    rw [opPopTop, if_pos (by omega), show vm.sp - 1 = n by omega]
  exact ⟨_, hvalue, hvm.text, hvm.pc, hxs, hvm.mem⟩

/-- The zeros behind the code do nothing. -/
theorem rounds_noOps {call : SysFunc} {n : ℕ} {vm : Vm} (hrest : vm.rest = List.replicate n 0) (hpc : vm.pc + n ≤ textMax) :
    Rounds call vm { vm with pc := vm.pc + n } := by
  induction n generalizing vm with
  | zero => exact .refl
  | succ n ih =>
    rw [List.replicate_succ] at hrest
    have hstep : step call vm = some { vm with pc := vm.pc + 1 } := by
      rw [step, hrest]
      rfl
    have hrest' : ({ vm with pc := vm.pc + 1 } : Vm).rest = List.replicate n 0 := by
      rw [Vm.rest, ← List.drop_drop, ← Vm.rest, hrest, List.drop_one, List.tail_cons]
    have hnext := ih hrest' (by simp only; omega)
    rw [show vm.pc + 1 + n = vm.pc + (n + 1) by omega] at hnext
    exact .head ⟨by omega, hstep⟩ hnext

theorem exec_noOps {code : List Byte} {n : ℕ} (htext : text.length = textMax)
    (hcode : text = code ++ List.replicate n 0) :
    Exec call text ⟨code.length, xs, m⟩ ⟨code.length + n, xs, m⟩ := by
  intro vm hvm
  have hrest : vm.rest = List.replicate n 0 := by rw [Vm.rest, hvm.text, hvm.pc, hcode, List.drop_left]
  have hlen : vm.pc + n ≤ textMax := by
    have hpc : vm.pc = code.length := hvm.pc
    have hlen := congrArg List.length hcode
    rw [List.length_append, List.length_replicate, htext] at hlen
    omega
  exact ⟨_, rounds_noOps hrest hlen, hvm.text, congrArg (· + n) hvm.pc, hvm.stack, hvm.mem⟩

end Instructions

/-! ## The variables in memory -/

/-- The variables have their values in `m`, which is otherwise `m₀`. -/
structure Holds (table : VarTable) (m₀ m : Memory) (σ : Store) : Prop where
  var : ∀ x, m.load (table.addr x) .dword = σ x
  frame : ∀ p, (∀ x, p < table.addr x ∨ table.addr x + 4 ≤ p) → m p = m₀ p

/-- An assignment to a variable. -/
theorem Holds.store {table : VarTable} {m₀ m : Memory} {σ : Store} (h : Holds table m₀ m σ) (x : Fin varMax) (v : Dword) :
    Holds table m₀ (m.store (table.addr x) v .dword) (Function.update σ x v) where
  var y := by
    by_cases hyx : y = x
    · rw [hyx, Memory.load_store, Function.update_self]
    · rw [Memory.load_store_of_disjoint m v (table.addr_disjoint hyx), Function.update_of_ne hyx, h.var]
  frame p hp := by rw [Memory.store_of_outside m v (hp x), h.frame p hp]

/-! ## Expressions -/

section Expressions

variable (call : SysFunc) {text : List Byte} {table : VarTable} {m₀ : Memory}

/-- There is room on the stack for one more value, where the code that pushes it has five bytes. -/
theorem room (htext : text.length = textMax) {pc n : ℕ} {code : List Byte} (hcode : CodeAt text pc code)
    (hlen : 5 ≤ code.length) (hdepth : 5 * n ≤ pc) : n < stackMax := by
  have hle := hcode.length_le (by omega)
  rw [htext] at hle
  unfold textMax at hle
  unfold stackMax
  omega

/-- The step of `++` and `--`: the address of the variable is on the stack, and stays there. -/
theorem exec_step (xs : List Dword) (tail : List Byte) (htext : text.length = textMax) (s : Step) (x : Fin varMax)
    {pc : ℕ} {m : Memory} {σ : Store} {r : ℤ} (hr : s.op.apply (σ x).toInt 1 = some r)
    (hcode : CodeAt text pc
      (loadVar (table.var x).valueAddr ++ loadLong 1 ++ ([s.op.op .dword] ++ ([opSt .dword] ++ tail))))
    (hdepth : 5 * (xs.length + 1) ≤ pc) (hm : Holds table m₀ m σ) :
    Exec call text ⟨pc, (table.var x).valueAddr :: xs, m⟩
      ⟨pc + 12, (table.var x).valueAddr :: xs, m.store (table.addr x) (toLong r) .dword⟩ := by
  have hcodeVar := hcode.left.left
  have hcodeOne : CodeAt text (pc + 5) (loadLong 1) := hcode.left.right
  have hload := exec_loadVar call ((table.var x).valueAddr :: xs) m htext hcodeVar
    (room htext hcodeVar (Nat.le_refl 5) hdepth)
  rw [table.toNat_valueAddr, hm.var] at hload
  have hone := exec_loadLong call (σ x :: (table.var x).valueAddr :: xs) m htext hcodeOne
    (room htext hcodeOne (Nat.le_refl 5) (by simp only [List.length_cons]; omega))
  have hop := exec_bin call ((table.var x).valueAddr :: xs) m htext
    (hcode.right.left : CodeAt text (pc + 10) _) (b := 1) hr
  have hstore := exec_store call xs m (v := toLong r) (a := (table.var x).valueAddr) htext
    (hcode.right.right.left : CodeAt text (pc + 11) _)
  rw [table.toNat_valueAddr] at hstore
  exact ((hload.trans hone).trans hop).trans hstore

/-- **Expressions.** The code of an expression pushes its value, and leaves the variables with their values. -/
theorem Expr.exec (htext : text.length = textMax) {e : Expr} {v : Dword} {σ σ' : Store}
    (heval : e.eval σ = some (v, σ')) {pc : ℕ} (xs : List Dword) {m : Memory} (hcode : CodeAt text pc (e.code table))
    (hdepth : 5 * xs.length ≤ pc) (hm : Holds table m₀ m σ) :
    ∃ m', Holds table m₀ m' σ' ∧
      Exec call text ⟨pc, xs, m⟩ ⟨pc + (e.code table).length, v :: xs, m'⟩ := by
  induction e generalizing v σ σ' pc xs m with
  | int w =>
    obtain ⟨rfl, rfl⟩ := Prod.mk.inj (Option.some.inj heval)
    exact ⟨m, hm, exec_loadLong call xs m htext hcode (room htext hcode (Nat.le_refl 5) hdepth)⟩
  | long w =>
    obtain ⟨rfl, rfl⟩ := Prod.mk.inj (Option.some.inj heval)
    exact ⟨m, hm, exec_loadLong call xs m htext hcode (room htext hcode (Nat.le_refl 5) hdepth)⟩
  | var x =>
    obtain ⟨rfl, rfl⟩ := Prod.mk.inj (Option.some.inj heval)
    have hload := exec_loadVar call xs m htext hcode (room htext hcode (Nat.le_refl 5) hdepth)
    rw [table.toNat_valueAddr, hm.var] at hload
    exact ⟨m, hm, hload⟩
  | bin f l r ihl ihr =>
    obtain ⟨⟨a, σ₁⟩, ha, heval⟩ := Option.bind_eq_some_iff.mp heval
    obtain ⟨⟨b, σ₂⟩, hb, heval⟩ := Option.bind_eq_some_iff.mp heval
    obtain ⟨c, hc, heval⟩ := Option.map_eq_some_iff.mp heval
    obtain ⟨rfl, rfl⟩ := Prod.mk.inj heval
    have hlenl := l.five_le_code_length table
    -- the value of the left operand lies below the code of the right one
    obtain ⟨m₁, hm₁, hl⟩ := ihl ha xs hcode.left.left hdepth hm
    obtain ⟨m₂, hm₂, hr⟩ := ihr hb (a :: xs) hcode.left.right (by rw [List.length_cons]; omega) hm₁
    have hop : Exec call text ⟨_, b :: a :: xs, m₂⟩ _ := exec_bin call xs m₂ htext hcode.right hc
    rw [List.length_append, ← Nat.add_assoc] at hop
    refine ⟨m₂, hm₂, ((hl.trans hr).trans hop).at_pc ?_⟩
    simp only [Expr.code, List.length_append, List.length_singleton]
    omega
  | neg e ih =>
    obtain ⟨⟨a, σ₁⟩, ha, heval⟩ := Option.map_eq_some_iff.mp heval
    obtain ⟨rfl, rfl⟩ := Prod.mk.inj heval
    have hzero := exec_loadLong call xs m htext hcode.left.left
      (room htext hcode.left.left (Nat.le_refl 5) hdepth)
    obtain ⟨m₁, hm₁, he⟩ := ih ha (0 :: xs) hcode.left.right (by simp only [loadLong_length, List.length_cons]; omega) hm
    have hneg : BinOp.sub.apply (0 : Dword).toInt a.toInt = some (-a.toInt) := by
      rw [BinOp.apply, show (0 : Dword).toInt = 0 from rfl, Int.zero_sub]
    have hop : Exec call text ⟨_, a :: 0 :: xs, m₁⟩ _ := exec_bin call xs m₁ htext hcode.right hneg
    rw [List.length_append, ← Nat.add_assoc] at hop
    refine ⟨m₁, hm₁, ((hzero.trans he).trans hop).at_pc ?_⟩
    simp only [Expr.code, List.length_append, List.length_singleton]
    omega
  | not e ih =>
    obtain ⟨⟨a, σ₁⟩, ha, heval⟩ := Option.map_eq_some_iff.mp heval
    obtain ⟨rfl, rfl⟩ := Prod.mk.inj heval
    obtain ⟨m₁, hm₁, he⟩ := ih ha xs hcode.left hdepth hm
    refine ⟨m₁, hm₁, (he.trans (exec_bitwise call xs m₁ htext hcode.right)).at_pc ?_⟩
    simp only [Expr.code, List.length_append, List.length_singleton]
    omega
  | assign x e ih =>
    obtain ⟨⟨a, σ₁⟩, ha, heval⟩ := Option.map_eq_some_iff.mp heval
    obtain ⟨rfl, rfl⟩ := Prod.mk.inj heval
    have haddr := exec_loadLong call xs m htext hcode.left.left
      (room htext hcode.left.left (Nat.le_refl 5) hdepth)
    obtain ⟨m₁, hm₁, he⟩ := ih ha ((table.var x).valueAddr :: xs) hcode.left.right
      (by simp only [loadLong_length, List.length_cons]; omega) hm
    have hcodeOps := hcode.right
    rw [List.length_append, ← Nat.add_assoc] at hcodeOps
    have hstore := exec_store call xs m₁ (v := a) (a := (table.var x).valueAddr) htext
      (CodeAt.left (b := [opLdValueStack .dword]) hcodeOps)
    have hload := exec_loadStack call xs (m₁.store (table.addr x) a .dword)
      (a := (table.var x).valueAddr) htext (CodeAt.right (a := [opSt .dword]) hcodeOps)
    -- the value is read back from where it has been written
    rw [table.toNat_valueAddr] at hstore hload
    rw [Memory.load_store] at hload
    refine ⟨_, hm₁.store x a, (((haddr.trans he).trans hstore).trans hload).at_pc ?_⟩
    simp only [Expr.code, List.length_append, List.length_cons, List.length_nil, loadLong_length]
    omega
  | pre s x =>
    obtain ⟨r, hr, heval⟩ := Option.map_eq_some_iff.mp heval
    obtain ⟨rfl, rfl⟩ := Prod.mk.inj heval
    have haddr := exec_loadLong call xs m htext hcode.left
      (room htext hcode.left (Nat.le_refl 5) hdepth)
    have hstep := exec_step call xs [opLdValueStack .dword] htext s x hr hcode.right
      (by simp only [loadLong_length]; omega) hm
    have hload := exec_loadStack call xs (m.store (table.addr x) (toLong r) .dword)
      (a := (table.var x).valueAddr) htext
      (CodeAt.right (a := loadVar (table.var x).valueAddr ++ loadLong 1 ++ [s.op.op .dword, opSt .dword])
        (by simpa only [List.append_assoc, List.cons_append, List.nil_append] using hcode.right))
    rw [table.toNat_valueAddr, Memory.load_store] at hload
    exact ⟨_, hm.store x _, (haddr.trans hstep).trans hload⟩
  | post s x =>
    obtain ⟨r, hr, heval⟩ := Option.map_eq_some_iff.mp heval
    obtain ⟨rfl, rfl⟩ := Prod.mk.inj heval
    have hold := exec_loadVar call xs m htext hcode.left
      (room htext hcode.left (Nat.le_refl 5) hdepth)
    rw [table.toNat_valueAddr, hm.var] at hold
    have haddr := exec_loadLong call (σ x :: xs) m htext hcode.right.left
      (room htext hcode.right.left (Nat.le_refl 5) (by simp only [loadVar_length, List.length_cons]; omega))
    have hstep := exec_step call (σ x :: xs) [opPop] htext s x hr hcode.right.right
      (by simp only [loadLong_length, loadVar_length, List.length_cons]; omega) hm
    have hpop := exec_pop call (σ x :: xs) (m.store (table.addr x) (toLong r) .dword)
      (a := (table.var x).valueAddr) htext
      (CodeAt.right (a := loadVar (table.var x).valueAddr ++ loadLong 1 ++ [s.op.op .dword, opSt .dword])
        (by simpa only [List.append_assoc, List.cons_append, List.nil_append] using hcode.right.right))
    exact ⟨_, hm.store x _, ((hold.trans haddr).trans hstep).trans hpop⟩

/-- **Statements.** The code of a list of statements leaves the value of the last on the stack, and the variables with
their values. -/
theorem exec_statements (htext : text.length = textMax) {es : List Expr} (hes : es ≠ []) {v v' : Dword} {σ σ' : Store}
    (heval : evalStatements es v σ = some (v', σ')) {pc : ℕ} {m : Memory} (hcode : CodeAt text pc (statementsCode table es))
    (hm : Holds table m₀ m σ) :
    ∃ m', Holds table m₀ m' σ' ∧
      Exec call text ⟨pc, [], m⟩ ⟨pc + (statementsCode table es).length, [v'], m'⟩ := by
  induction es generalizing v σ pc m with
  | nil => exact absurd rfl hes
  | cons e es ih =>
    obtain ⟨⟨a, σ₁⟩, ha, heval⟩ := Option.bind_eq_some_iff.mp heval
    obtain ⟨m₁, hm₁, he⟩ := Expr.exec call htext ha [] hcode.left.left (Nat.zero_le _) hm
    cases es with
    | nil =>
      obtain ⟨rfl, rfl⟩ := Prod.mk.inj (Option.some.inj heval)
      refine ⟨m₁, hm₁, he.at_pc ?_⟩
      simp [statementsCode]
    | cons e' es =>
      -- the value of a statement is dropped before the next one
      have hpop := exec_pop call ([]) m₁ (a := a) htext hcode.left.right
      obtain ⟨m₂, hm₂, hes⟩ := ih (List.cons_ne_nil _ _) heval hcode.right hm₁
      rw [List.length_append, ← Nat.add_assoc] at hes
      refine ⟨m₂, hm₂, ((he.trans hpop).trans hes).at_pc ?_⟩
      have hcons : statementsCode table (e :: e' :: es) =
          e.code table ++ (if (e' :: es).length = 0 then [] else [opPop]) ++ statementsCode table (e' :: es) := rfl
      have hpop : (if (e' :: es).length = 0 then [] else [opPop] : List Byte).length = 1 := rfl
      rw [hcons, List.length_append, List.length_append, hpop]
      omega

end Expressions

/-! ## A line of the shell -/

/-- The values of the variables in memory. -/
def VarTable.store (table : VarTable) (m : Memory) : Store := fun x => m.load (table.addr x) .dword

/-- The values that memory has hold. -/
theorem Holds.store_self (table : VarTable) (m : Memory) : Holds table m m (table.store m) :=
  ⟨fun _ => rfl, fun _ _ => rfl⟩

/-- The end of the text segment is reached from the end of the code. -/
theorem finshVmRun_of_exec {call : SysFunc} {text code : List Byte} {n : ℕ} {m m' : Memory} {xs : List Dword} (vm : Vm)
    (htext : text = code ++ List.replicate n 0) (hlen : text.length = textMax) (hvm : vm.text = text) (hmem : vm.mem = m)
    (h : Exec call text ⟨0, [], m⟩ ⟨code.length, xs, m'⟩) :
    ∃ vm', finshVmRun call vm = some vm' ∧ vm'.mem = m' ∧ slots vm'.stack vm'.sp = xs := by
  have hend := h.trans (exec_noOps call xs m' hlen htext)
  obtain ⟨vm', hrounds, hvm'⟩ := hend { vm with sp := 0, pc := 0 } ⟨hvm, rfl, rfl, hmem⟩
  have hpc : textMax ≤ vm'.pc := by
    have hpc : vm'.pc = code.length + n := hvm'.pc
    have htotal := congrArg List.length htext
    rw [List.length_append, List.length_replicate, hlen] at htotal
    omega
  exact ⟨vm', finshVmRun_of_rounds hrounds hpc, hvm'.mem, hvm'.stack⟩

/-- **The compiler and the machine preserve meaning.** For a list of statements over declared `int` and `long`
variables whose code fits, and whose values are defined from the variables in memory, the line runs to its end; then every
variable has its value, the bottom of the stack has the value of the last statement, and the rest of the memory is as it
was. -/
theorem finsh_preserves_meaning (call : SysFunc) (table : VarTable) {es : List Expr} (hes : ∀ e ∈ es, e.Declared table)
    (hfit : (finshCode (statementsTree table es)).length ≤ textMax) (vm : Vm) {v : Dword} {σ : Store}
    (heval : evalStatements es 0 (table.store vm.mem) = some (v, σ)) :
    ∃ vm', finshRunLine call (statementsTree table es) vm = some vm' ∧
      (∀ x, vm'.mem.load (table.addr x) .dword = σ x) ∧
      finshStackBottom vm' = v ∧
      ∀ p, (∀ x, p < table.addr x ∨ table.addr x + 4 ≤ p) → vm'.mem p = vm.mem p := by
  have hcode := finshCode_tree hes
  rw [hcode] at hfit
  have hlen : (statementsCode table es ++ List.replicate (textMax - (statementsCode table es).length) 0).length =
      textMax := by
    rw [List.length_append, List.length_replicate]
    omega
  have hrun : finshRunLine call (statementsTree table es) vm = finshVmRun call
      { vm with
        text := statementsCode table es ++ List.replicate (textMax - (statementsCode table es).length) 0
        stack := Function.update vm.stack 0 0 } := by
    rw [finshRunLine, finshCompilerRun, hcode, if_pos hfit, Option.bind_some, finshErrno_tree hes]
    rfl
  rw [hrun]
  by_cases hnil : es = []
  · -- there is no code: the bottom of the stack is what `finsh_compiler_run` has left there
    subst hnil
    obtain ⟨rfl, rfl⟩ := Prod.mk.inj (Option.some.inj heval)
    have hbottom : Function.update vm.stack 0 0 0 = 0 := Function.update_self 0 _ _
    refine ⟨_, finshVmRun_of_rounds (rounds_noOps (n := textMax) rfl (Nat.le_of_eq (Nat.zero_add _)))
      (Nat.le_of_eq (Nat.zero_add _).symm),
      fun _ => rfl, hbottom, fun _ _ => rfl⟩
  · obtain ⟨m', hm', hexec⟩ := exec_statements call hlen hnil heval
      (show CodeAt _ 0 _ from ⟨_, by rw [List.drop_zero]⟩) (Holds.store_self table vm.mem)
    rw [Nat.zero_add] at hexec
    obtain ⟨vm', hvm', hmem, hslots⟩ := finshVmRun_of_exec ({ vm with
      text := statementsCode table es ++ List.replicate (textMax - (statementsCode table es).length) 0
      stack := Function.update vm.stack 0 0 } : Vm) rfl hlen rfl rfl hexec
    obtain ⟨n, -, hn, hnil⟩ := slots_eq_cons hslots
    obtain rfl : n = 0 := by rw [← slots_length vm'.stack n, hnil, List.length_nil]
    exact ⟨vm', hvm', by rw [hmem]; exact hm'.var, hn, by rw [hmem]; exact hm'.frame⟩

/-- The variables `a` and `b`, of type `int`. -/
def lineTable : VarTable where
  base := 0x20000000
  type := fun _ => .int
  fits := by decide

/-- `a = 5; b = a++ * 3 - ~a; -b;` -/
def line (a b : Fin varMax) : List Expr :=
  [.assign a (.int 5), .assign b (.bin .sub (.bin .mul (.post .inc a) (.int 3)) (.not (.var a))), .neg (.var b)]

/-- A machine whose memory is zero. -/
def lineVm : Vm where
  text := []
  stack := fun _ => 0
  sp := 0
  pc := 0
  mem := fun _ => 0

/-- In memory that is zero, the line leaves six in `a` and 22 in `b`, and its value is -22. -/
theorem finsh_preserves_meaning_line :
    ∃ vm', finshRunLine (fun _ _ m => (0, m)) (statementsTree lineTable (line ⟨0, by decide⟩ ⟨1, by decide⟩)) lineVm =
        some vm' ∧
      vm'.mem.load (lineTable.addr ⟨0, by decide⟩) .dword = 6 ∧
      vm'.mem.load (lineTable.addr ⟨1, by decide⟩) .dword = 22 ∧
      finshStackBottom vm' = BitVec.ofInt 32 (-22) := by
  have hes : ∀ e ∈ line ⟨0, by decide⟩ ⟨1, by decide⟩, e.Declared lineTable := by
    simp [line, Expr.Declared, VarTable.IsLong, lineTable]
  obtain ⟨vm', hrun, hvar, hbottom, -⟩ :=
    finsh_preserves_meaning (fun _ _ m => (0, m)) lineTable hes (by decide +kernel) lineVm rfl
  exact ⟨vm', hrun, (hvar _).trans (by decide +kernel), (hvar _).trans (by decide +kernel), hbottom.trans (by decide +kernel)⟩

end CoreLink.Shell.Finsh
