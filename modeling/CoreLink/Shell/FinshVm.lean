/-
# `CoreLink.Shell.FinshVm` — the virtual machine of `components/finsh/finsh_vm.c` and `finsh_ops.c`.

A stack machine over untyped slots. An instruction in a width reads and writes the low bytes of the slots, with the
conversions that C makes; `char` has no sign, as on the Arm cores. A step has no result where the C code has no meaning:
the stack pointer leaves the stack, the operands of an instruction leave the text segment, an opcode has no entry in the
table, a divisor is zero, or the amount of a shift is negative or at least 32.

`finshVmRun_of_rounds` turns a sequence of steps to the end of the text segment into a result of the loop. The loop is
written with a bound on its steps, which is never what ends it, since every instruction moves on (`step_pc`).
-/
import CoreLink.Shell.FinshCompiler
import Mathlib.Algebra.Order.Ring.Int

namespace CoreLink.Shell.Finsh

/-! ## C -/

/-- The operators of C on `int`, before the result is converted to its type. -/
def BinOp.apply (f : BinOp) (a b : ℤ) : Option ℤ :=
  match f with
  | .add => some (a + b)
  | .sub => some (a - b)
  | .mul => some (a * b)
  | .div => if b = 0 then none else some (a.tdiv b)
  | .mod => if b = 0 then none else some (a.tmod b)
  | .and => some (BitVec.ofInt 32 a &&& BitVec.ofInt 32 b).toInt
  | .or => some (BitVec.ofInt 32 a ||| BitVec.ofInt 32 b).toInt
  | .xor => some (BitVec.ofInt 32 a ^^^ BitVec.ofInt 32 b).toInt
  | .shl => if 0 ≤ b ∧ b < 32 then some (a * 2 ^ b.toNat) else none
  | .shr => if 0 ≤ b ∧ b < 32 then some (a >>> b.toNat) else none

/-- The operator `~` of C on `int`. -/
def complement (a : ℤ) : ℤ := (~~~BitVec.ofInt 32 a).toInt

namespace Width

/-- The member of a width of a `finsh_value`, promoted to `int`. -/
def read : Width → Dword → ℤ
  | byte, x => (x.setWidth 8).toNat
  | word, x => (x.setWidth 16).toInt
  | dword, x => x.toInt

/-- An assignment to the member of a width of a `finsh_value`, which leaves its other bytes alone. -/
def write : Width → Dword → Dword → Dword
  | byte, old, x => (old.extractLsb' 8 24 ++ x.extractLsb' 0 8 : BitVec (24 + 8))
  | word, old, x => (old.extractLsb' 16 16 ++ x.extractLsb' 0 16 : BitVec (16 + 16))
  | dword, _, x => x

@[simp] theorem read_dword (x : Dword) : read dword x = x.toInt := rfl

@[simp] theorem write_dword (old x : Dword) : write dword old x = x := rfl

end Width

/-! ## Memory -/

/-- The memory outside of the machine. -/
abbrev Memory := ℕ → Byte

namespace Memory

/-- Four bytes, the least significant first: `FINSH_GET32`. -/
def dwordOf (b0 b1 b2 b3 : Byte) : Dword := (b3 ++ b2 ++ b1 ++ b0 : BitVec (8 + 8 + 8 + 8))

/-- A read through a pointer to a value of a width. -/
def load (m : Memory) (a : ℕ) : Width → Dword
  | .byte => (m a).setWidth 32
  | .word => (m (a + 1) ++ m a : BitVec (8 + 8)).setWidth 32
  | .dword => dwordOf (m a) (m (a + 1)) (m (a + 2)) (m (a + 3))

/-- A write through a pointer to a value of a width. -/
def store (m : Memory) (a : ℕ) (x : Dword) : Width → Memory
  | .byte => Function.update m a (x.extractLsb' 0 8)
  | .word => Function.update (Function.update m a (x.extractLsb' 0 8)) (a + 1) (x.extractLsb' 8 8)
  | .dword =>
    Function.update (Function.update (Function.update (Function.update m a (x.extractLsb' 0 8))
      (a + 1) (x.extractLsb' 8 8)) (a + 2) (x.extractLsb' 16 8)) (a + 3) (x.extractLsb' 24 8)

/-- The bytes of a double word make it up. -/
theorem dwordOf_extract (x : Dword) :
    dwordOf (x.extractLsb' 0 8) (x.extractLsb' 8 8) (x.extractLsb' 16 8) (x.extractLsb' 24 8) = x := by
  apply BitVec.eq_of_getLsbD_eq
  intro i hi
  simp only [dwordOf, BitVec.getLsbD_append, BitVec.getLsbD_extractLsb']
  by_cases h1 : i < 8
  · simp [h1]
  by_cases h2 : i - 8 < 8
  · simp [h1, h2, show 8 + (i - 8) = i by omega]
  by_cases h3 : i - 8 - 8 < 8
  · simp [h1, h2, h3, show 16 + (i - 8 - 8) = i by omega]
  · simp [h1, h2, h3, show 24 + (i - 8 - 8 - 8) = i by omega, show i - 8 - 8 - 8 < 8 by omega]

/-- What has been written is read. -/
@[simp] theorem load_store (m : Memory) (a : ℕ) (x : Dword) : (m.store a x .dword).load a .dword = x := by
  simp only [load, store, Function.update_apply]
  simp [dwordOf_extract]

/-- A write of a double word leaves the bytes outside of its cell alone. -/
theorem store_of_outside (m : Memory) {a p : ℕ} (x : Dword) (hp : p < a ∨ a + 4 ≤ p) :
    m.store a x .dword p = m p := by
  simp only [store, Function.update_apply]
  rw [if_neg (by omega), if_neg (by omega), if_neg (by omega), if_neg (by omega)]

/-- A write of a double word leaves a double word in another cell alone. -/
theorem load_store_of_disjoint (m : Memory) {a b : ℕ} (x : Dword) (hab : b + 4 ≤ a ∨ a + 4 ≤ b) :
    (m.store a x .dword).load b .dword = m.load b .dword := by
  simp only [load]
  rw [store_of_outside m x (by omega), store_of_outside m x (by omega), store_of_outside m x (by omega),
    store_of_outside m x (by omega)]

end Memory

/-! ## The machine -/

/-- `FINSH_STACK_MAX`. -/
def stackMax : ℕ := 64

/-- `text_segment`, `finsh_vm_stack`, `finsh_sp` and `finsh_pc`, as distances from the beginnings, and the memory. -/
structure Vm where
  text : List Byte
  stack : ℕ → Dword
  sp : ℕ
  pc : ℕ
  mem : Memory

namespace Vm

/-- What is left of the text segment. -/
def rest (vm : Vm) : List Byte := vm.text.drop vm.pc

/-- An assignment to the member of a width of a slot. -/
def setSlot (vm : Vm) (i : ℕ) (w : Width) (x : Dword) : Vm :=
  { vm with stack := Function.update vm.stack i (w.write (vm.stack i) x) }

/-- A push of a value of a width, with the operands of the instruction skipped. -/
def push (vm : Vm) (w : Width) (x : Dword) (operands : ℕ) : Option Vm :=
  if vm.sp < stackMax then
    some { vm.setSlot vm.sp w x with sp := vm.sp + 1, pc := vm.pc + operands }
  else none

end Vm

/-! ## The instructions -/

/-- A system call: the function, its arguments, and the memory before and after. -/
abbrev SysFunc := Dword → List Dword → Memory → Dword × Memory

/-- `OP_no_op`. -/
def opNoOp (vm : Vm) : Option Vm := some vm

/-- `OP_BIN_BYTE`, `OP_BIN_WORD` and `OP_BIN_DWORD`. -/
def opBin (f : BinOp) (w : Width) (vm : Vm) : Option Vm :=
  if 2 ≤ vm.sp then
    (f.apply (w.read (vm.stack (vm.sp - 2))) (w.read (vm.stack (vm.sp - 1)))).map fun r =>
      { vm.setSlot (vm.sp - 2) w (BitVec.ofInt 32 r) with sp := vm.sp - 1 }
  else none

/-- `OP_bw_byte`, …. -/
def opBw (w : Width) (vm : Vm) : Option Vm :=
  if 1 ≤ vm.sp then
    some (vm.setSlot (vm.sp - 1) w (BitVec.ofInt 32 (complement (w.read (vm.stack (vm.sp - 1))))))
  else none

/-- `OP_ld_byte`, `OP_ld_word` and `OP_ld_dword`. -/
def opLdImm (w : Width) (vm : Vm) : Option Vm :=
  match w, vm.rest with
  | .byte, b0 :: _ => vm.push .byte (b0.setWidth 32) 1
  | .word, b0 :: b1 :: _ => vm.push .word ((b1 ++ b0 : BitVec (8 + 8)).setWidth 32) 2
  | .dword, b0 :: b1 :: b2 :: b3 :: _ => vm.push .dword (Memory.dwordOf b0 b1 b2 b3) 4
  | _, _ => none

/-- `OP_ld_value_byte`, …. -/
def opLdVar (w : Width) (vm : Vm) : Option Vm :=
  match vm.rest with
  | b0 :: b1 :: b2 :: b3 :: _ => vm.push w (vm.mem.load (Memory.dwordOf b0 b1 b2 b3).toNat w) 4
  | _ => none

/-- `OP_ld_value_byte_stack`, …. -/
def opLdStack (w : Width) (vm : Vm) : Option Vm :=
  if 1 ≤ vm.sp then
    some (vm.setSlot (vm.sp - 1) w (vm.mem.load (vm.stack (vm.sp - 1)).toNat w))
  else none

/-- `OP_st_byte`, …. The address stays on the stack. -/
def opStore (w : Width) (vm : Vm) : Option Vm :=
  if 2 ≤ vm.sp then
    some { vm with
      mem := vm.mem.store (vm.stack (vm.sp - 2)).toNat (vm.stack (vm.sp - 1)) w
      sp := vm.sp - 1 }
  else none

/-- `OP_pop`. -/
def opPopTop (vm : Vm) : Option Vm :=
  if 1 ≤ vm.sp then some { vm with sp := vm.sp - 1 } else none

/-- `OP_call`. The array of the arguments has 16 entries. -/
def opCall (call : SysFunc) (vm : Vm) : Option Vm :=
  match vm.rest with
  | [] => none
  | b :: _ =>
    if b.toNat ≤ 16 ∧ b.toNat + 1 ≤ vm.sp then
      let func := vm.sp - 1 - b.toNat
      let args := (List.range b.toNat).map fun i => vm.stack (func + 1 + i)
      let r := call (vm.stack func) args vm.mem
      some { vm.setSlot func .dword r.1 with mem := r.2, sp := func + 1, pc := vm.pc + 1 }
    else none

/-- `op_table`. -/
def opTable (call : SysFunc) : List (Vm → Option Vm) :=
  [ opNoOp,
    opBin .add .byte, opBin .add .word, opBin .add .dword,
    opBin .sub .byte, opBin .sub .word, opBin .sub .dword,
    opBin .div .byte, opBin .div .word, opBin .div .dword,
    opBin .mod .byte, opBin .mod .word, opBin .mod .dword,
    opBin .mul .byte, opBin .mul .word, opBin .mul .dword,
    opBin .and .byte, opBin .and .word, opBin .and .dword,
    opBin .or .byte, opBin .or .word, opBin .or .dword,
    opBin .xor .byte, opBin .xor .word, opBin .xor .dword,
    opBw .byte, opBw .word, opBw .dword,
    opBin .shl .byte, opBin .shl .word, opBin .shl .dword,
    opBin .shr .byte, opBin .shr .word, opBin .shr .dword,
    opLdImm .byte, opLdImm .word, opLdImm .dword,
    opLdVar .byte, opLdVar .word, opLdVar .dword,
    opStore .byte, opStore .word, opStore .dword,
    opPopTop,
    opCall call,
    opLdStack .byte, opLdStack .word, opLdStack .dword ]

/-- One round of the loop of `finsh_vm_run`. -/
def step (call : SysFunc) (vm : Vm) : Option Vm :=
  match vm.rest with
  | [] => none
  | op :: _ => (opTable call)[op.toNat]?.bind fun f => f { vm with pc := vm.pc + 1 }

/-- The loop, with at most a number of rounds. -/
def loop (call : SysFunc) : ℕ → Vm → Option Vm
  | 0, vm => if vm.pc < textMax then none else some vm
  | n + 1, vm => if vm.pc < textMax then (step call vm).bind (loop call n) else some vm

/-- `finsh_vm_run`. -/
def finshVmRun (call : SysFunc) (vm : Vm) : Option Vm := loop call textMax { vm with sp := 0, pc := 0 }

/-- `finsh_stack_bottom`. -/
def finshStackBottom (vm : Vm) : Dword := vm.stack 0

/-- `finsh_run_line`, after the parser: the machine runs if the compiler has set no error. -/
def finshRunLine (call : SysFunc) (node : Tree) (vm : Vm) : Option Vm :=
  (finshCompilerRun node vm.stack).bind fun p =>
    if finshErrno node then some { vm with text := p.1, stack := p.2 }
    else finshVmRun call { vm with text := p.1, stack := p.2 }

/-! ## Every instruction moves on -/

/-- An instruction that does not move the program counter back. -/
def Forward (f : Vm → Option Vm) : Prop := ∀ vm vm', f vm = some vm' → vm.pc ≤ vm'.pc

theorem forward_push {vm vm' : Vm} {w : Width} {x : Dword} {n : ℕ} (h : vm.push w x n = some vm') : vm.pc ≤ vm'.pc := by
  unfold Vm.push at h
  split at h
  · obtain rfl := Option.some.inj h
    exact Nat.le_add_right _ _
  · cases h

theorem forward_noOp : Forward opNoOp := by
  intro vm vm' h
  obtain rfl := Option.some.inj h
  exact Nat.le_refl _

theorem forward_bin (f : BinOp) (w : Width) : Forward (opBin f w) := by
  intro vm vm' h
  unfold opBin at h
  split at h
  · obtain ⟨r, -, rfl⟩ := Option.map_eq_some_iff.mp h
    exact Nat.le_refl _
  · cases h

theorem forward_bw (w : Width) : Forward (opBw w) := by
  intro vm vm' h
  unfold opBw at h
  split at h
  · obtain rfl := Option.some.inj h
    exact Nat.le_refl _
  · cases h

theorem forward_ldImm (w : Width) : Forward (opLdImm w) := by
  intro vm vm' h
  unfold opLdImm at h
  split at h
  · exact forward_push h
  · exact forward_push h
  · exact forward_push h
  · cases h

theorem forward_ldVar (w : Width) : Forward (opLdVar w) := by
  intro vm vm' h
  unfold opLdVar at h
  split at h
  · exact forward_push h
  · cases h

theorem forward_ldStack (w : Width) : Forward (opLdStack w) := by
  intro vm vm' h
  unfold opLdStack at h
  split at h
  · obtain rfl := Option.some.inj h
    exact Nat.le_refl _
  · cases h

theorem forward_store (w : Width) : Forward (opStore w) := by
  intro vm vm' h
  unfold opStore at h
  split at h
  · obtain rfl := Option.some.inj h
    exact Nat.le_refl _
  · cases h

theorem forward_pop : Forward opPopTop := by
  intro vm vm' h
  unfold opPopTop at h
  split at h
  · obtain rfl := Option.some.inj h
    exact Nat.le_refl _
  · cases h

theorem forward_call (call : SysFunc) : Forward (opCall call) := by
  intro vm vm' h
  unfold opCall at h
  split at h
  · cases h
  · split at h
    · obtain rfl := Option.some.inj h
      exact Nat.le_add_right _ _
    · cases h

/-- No instruction of the table moves the program counter back. -/
theorem forward_opTable (call : SysFunc) : ∀ f ∈ opTable call, Forward f := by
  simp only [opTable, List.forall_mem_cons, forward_noOp, forward_bin, forward_bw, forward_ldImm, forward_ldVar,
    forward_ldStack, forward_store, forward_pop, forward_call, true_and]
  exact fun f hf => absurd hf List.not_mem_nil

/-- A round of the loop consumes an opcode. -/
theorem step_pc {call : SysFunc} {vm vm' : Vm} (h : step call vm = some vm') : vm.pc < vm'.pc := by
  unfold step at h
  split at h
  · cases h
  · obtain ⟨f, hf, h⟩ := Option.bind_eq_some_iff.mp h
    exact forward_opTable call f (List.mem_of_getElem? hf) _ _ h

/-- The rounds that the loop makes. -/
def Round (call : SysFunc) (vm vm' : Vm) : Prop := vm.pc < textMax ∧ step call vm = some vm'

/-- Sequences of rounds. -/
abbrev Rounds (call : SysFunc) : Vm → Vm → Prop := Relation.ReflTransGen (Round call)

/-- Rounds that lead out of the text segment are what the loop makes, as long as its bound is that of the text. -/
theorem loop_of_rounds {call : SysFunc} {vm vm' : Vm} (h : Rounds call vm vm') (hend : textMax ≤ vm'.pc) :
    ∀ n, textMax ≤ vm.pc + n → loop call n vm = some vm' := by
  induction h using Relation.ReflTransGen.head_induction_on with
  | refl =>
    intro n _
    cases n with
    | zero => exact if_neg (by omega)
    | succ n => exact if_neg (by omega)
  | @head vm vm₁ hround _ ih =>
    intro n hn
    obtain ⟨hpc, hstep⟩ := hround
    have hlt := step_pc hstep
    cases n with
    | zero => omega
    | succ n =>
      rw [loop, if_pos hpc, hstep, Option.bind_some]
      exact ih n (by omega)

/-- `finsh_vm_run` ends where rounds from the beginning lead out of the text segment. -/
theorem finshVmRun_of_rounds {call : SysFunc} {vm vm' : Vm} (h : Rounds call { vm with sp := 0, pc := 0 } vm')
    (hend : textMax ≤ vm'.pc) : finshVmRun call vm = some vm' :=
  loop_of_rounds h hend textMax (Nat.le_add_left _ _)

end CoreLink.Shell.Finsh
