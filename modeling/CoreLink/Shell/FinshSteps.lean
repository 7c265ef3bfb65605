/-
# `CoreLink.Shell.FinshSteps` — what `++` and `--` touch.

The code of `++x`, `--x`, `x++` and `x--` loads the address of the operand, steps the value there and stores it. The
emitter takes the operand for a declared variable: `child->id.var` is a union, and of a system variable it is the pointer
to the entry of the table, so that `&(var->value)` is 20 bytes behind the beginning of that entry. A step before the
operand then reloads four bytes, in every width.

`Reading` is a run of the machine together with the bytes of the memory that it reads. `steps_touch_iff` says for which
operands a step touches nothing else, wherever its code stands in the run of a line. A push costs at least two bytes of
the text segment, so the stack has always room for a step (`Paid`).
-/
import CoreLink.Shell.FinshCorrect
import CoreLink.Shell.FinshSymbols

namespace CoreLink.Shell.Finsh

/-! ## Widths and memory -/

namespace Width

/-- How many bytes a width has. -/
def bytes : Width → ℕ
  | byte => 1
  | word => 2
  | dword => 4

/-- How many values a width has. -/
def modulus (w : Width) : ℕ := 2 ^ (8 * w.bytes)

theorem bytes_bounds (w : Width) : 0 < w.bytes ∧ w.bytes ≤ 4 := by
  cases w <;> decide

@[simp] theorem modulus_byte : modulus .byte = 256 := rfl

@[simp] theorem modulus_word : modulus .word = 65536 := rfl

@[simp] theorem modulus_dword : modulus .dword = 4294967296 := rfl

theorem modulus_dvd (w : Width) : w.modulus ∣ 2 ^ 32 := by
  cases w <;> decide

/-- A member of a slot has the value that is assigned to it. -/
theorem write_mod (w : Width) (old x : Dword) : (w.write old x).toNat % w.modulus = x.toNat % w.modulus := by
  cases w with
  | byte =>
    rw [write, BitVec.toNat_append, BitVec.extractLsb'_toNat 0 8 x, Nat.shiftRight_zero,
      ← Nat.shiftLeft_add_eq_or_of_lt (Nat.mod_lt _ (Nat.two_pow_pos 8)), Nat.shiftLeft_eq, modulus_byte]
    omega
  | word =>
    rw [write, BitVec.toNat_append, BitVec.extractLsb'_toNat 0 16 x, Nat.shiftRight_zero,
      ← Nat.shiftLeft_add_eq_or_of_lt (Nat.mod_lt _ (Nat.two_pow_pos 16)), Nat.shiftLeft_eq, modulus_word]
    omega
  | dword => rfl

/-- What is read in a width is the value, up to a multiple of the modulus. -/
theorem read_mod (w : Width) (x : Dword) : w.read x % (w.modulus : ℤ) = x.toNat % (w.modulus : ℤ) := by
  cases w with
  | byte =>
    rw [read, BitVec.toNat_setWidth, modulus_byte]
    omega
  | word =>
    rw [read, BitVec.toInt_eq_toNat_bmod, BitVec.toNat_setWidth, Int.bmod_def, modulus_word]
    split <;> omega
  | dword =>
    rw [read, BitVec.toInt_eq_toNat_bmod, Int.bmod_def, modulus_dword]
    split <;> omega

end Width

namespace Memory

/-- A write in a width leaves the bytes outside of its cell alone. -/
theorem store_frame (m : Memory) {a p : ℕ} (x : Dword) (w : Width) (hp : p < a ∨ a + w.bytes ≤ p) :
    m.store a x w p = m p := by
  cases w with
  | byte =>
    simp only [Width.bytes] at hp
    rw [store, Function.update_of_ne (by omega)]
  | word =>
    simp only [Width.bytes] at hp
    rw [store, Function.update_of_ne (by omega), Function.update_of_ne (by omega)]
  | dword => exact store_of_outside m x hp

/-- What is read in a width. -/
theorem load_lt (m : Memory) (a : ℕ) (w : Width) : (m.load a w).toNat < w.modulus := by
  cases w with
  | byte =>
    rw [load, BitVec.toNat_setWidth]
    exact (Nat.mod_le _ _).trans_lt (m a).isLt
  | word =>
    rw [load, BitVec.toNat_setWidth]
    exact (Nat.mod_le _ _).trans_lt (BitVec.isLt _)
  | dword => exact BitVec.isLt _

/-- What has been written in a width is read. -/
theorem load_store_mod (m : Memory) (a : ℕ) (x : Dword) (w : Width) :
    ((m.store a x w).load a w).toNat = x.toNat % w.modulus := by
  cases w with
  | byte =>
    rw [load, store, Function.update_self, BitVec.toNat_setWidth, BitVec.extractLsb'_toNat, Nat.shiftRight_zero,
      Width.modulus_byte]
    omega
  | word =>
    rw [load, store, Function.update_self, Function.update_of_ne (by omega), Function.update_self, BitVec.toNat_setWidth,
      BitVec.toNat_append, BitVec.extractLsb'_toNat, BitVec.extractLsb'_toNat, Nat.shiftRight_zero,
      ← Nat.shiftLeft_add_eq_or_of_lt (Nat.mod_lt _ (Nat.two_pow_pos 8)), Nat.shiftLeft_eq, Nat.shiftRight_eq_div_pow,
      Width.modulus_word]
    omega
  | dword =>
    rw [load_store]
    exact (Nat.mod_eq_of_lt x.isLt).symm

end Memory

/-! ## Room on the stack -/

/-- What an instruction does to the text segment, and what it pays for the stack: a push costs two bytes of the text, one of
which is the opcode in front of `vm`. -/
structure Paid (vm vm' : Vm) : Prop where
  text : vm'.text = vm.text
  sp : 2 * vm'.sp + vm.pc ≤ 2 * vm.sp + vm'.pc + 1

/-- An instruction that pays for what it pushes. -/
def Pays (f : Vm → Option Vm) : Prop := ∀ vm vm', f vm = some vm' → Paid vm vm'

theorem paid_push {vm vm' : Vm} {w : Width} {x : Dword} {n : ℕ} (hn : 0 < n) (h : vm.push w x n = some vm') : Paid vm vm' := by
  unfold Vm.push at h
  split at h
  · obtain rfl := Option.some.inj h
    exact ⟨rfl, by dsimp only; omega⟩
  · cases h

theorem pays_noOp : Pays opNoOp := by
  intro vm vm' h
  obtain rfl := Option.some.inj h
  exact ⟨rfl, Nat.le_succ _⟩

theorem pays_bin (f : BinOp) (w : Width) : Pays (opBin f w) := by
  intro vm vm' h
  unfold opBin at h
  split at h
  · obtain ⟨r, -, rfl⟩ := Option.map_eq_some_iff.mp h
    exact ⟨rfl, by dsimp only [Vm.setSlot]; omega⟩
  · cases h

theorem pays_bw (w : Width) : Pays (opBw w) := by
  intro vm vm' h
  unfold opBw at h
  split at h
  · obtain rfl := Option.some.inj h
    exact ⟨rfl, Nat.le_succ _⟩
  · cases h

theorem pays_ldImm (w : Width) : Pays (opLdImm w) := by
  intro vm vm' h
  unfold opLdImm at h
  split at h
  · exact paid_push (by decide) h
  · exact paid_push (by decide) h
  · exact paid_push (by decide) h
  · cases h

theorem pays_ldVar (w : Width) : Pays (opLdVar w) := by
  intro vm vm' h
  unfold opLdVar at h
  split at h
  · exact paid_push (by decide) h
  · cases h

theorem pays_ldStack (w : Width) : Pays (opLdStack w) := by
  intro vm vm' h
  unfold opLdStack at h
  split at h
  · obtain rfl := Option.some.inj h
    exact ⟨rfl, Nat.le_succ _⟩
  · cases h

theorem pays_store (w : Width) : Pays (opStore w) := by
  intro vm vm' h
  unfold opStore at h
  split at h
  · obtain rfl := Option.some.inj h
    exact ⟨rfl, by dsimp only; omega⟩
  · cases h

theorem pays_pop : Pays opPopTop := by
  intro vm vm' h
  unfold opPopTop at h
  split at h
  · obtain rfl := Option.some.inj h
    exact ⟨rfl, by dsimp only; omega⟩
  · cases h

theorem pays_call (call : SysFunc) : Pays (opCall call) := by
  intro vm vm' h
  unfold opCall at h
  split at h
  · cases h
  · split at h
    · obtain rfl := Option.some.inj h
      exact ⟨rfl, by dsimp only; omega⟩
    · cases h

/-- Every instruction of the table pays. -/
theorem pays_opTable (call : SysFunc) : ∀ f ∈ opTable call, Pays f := by
  simp only [opTable, List.forall_mem_cons, pays_noOp, pays_bin, pays_bw, pays_ldImm, pays_ldVar, pays_ldStack, pays_store,
    pays_pop, pays_call, true_and]
  exact fun f hf => absurd hf List.not_mem_nil

/-- **The stack in a run**: the text segment is as it was, and no more is on the stack than the text before the program
counter has paid for. -/
theorem rounds_paid {call : SysFunc} {start vm : Vm} (h : Rounds call start vm) (hstart : 2 * start.sp ≤ start.pc) :
    vm.text = start.text ∧ 2 * vm.sp ≤ vm.pc := by
  induction h with
  | refl => exact ⟨rfl, hstart⟩
  | @tail vm vm' _ hround ih =>
    obtain ⟨-, hstep⟩ := hround
    unfold step at hstep
    split at hstep
    · cases hstep
    · obtain ⟨f, hf, hstep⟩ := Option.bind_eq_some_iff.mp hstep
      have hpaid := pays_opTable call f (List.mem_of_getElem? hf) _ _ hstep
      have hsp := hpaid.sp
      refine ⟨hpaid.text.trans ih.1, ?_⟩
      have hle := ih.2
      dsimp only at hsp
      omega

/-! ## Runs with what they read -/

/-- The widths. -/
def Width.all : List Width := [.byte, .word, .dword]

/-- The bytes of the memory that the next instruction reads; what a system call reads is its own affair. -/
def Vm.reads (vm : Vm) : List ℕ :=
  match vm.rest with
  | [] => []
  | op :: operands =>
    match Width.all.find? fun w => op = opLdValue w with
    | some w =>
      match operands with
      | b0 :: b1 :: b2 :: b3 :: _ => List.range' (Memory.dwordOf b0 b1 b2 b3).toNat w.bytes
      | _ => []
    | none =>
      match Width.all.find? fun w => op = opLdValueStack w with
      | some w => List.range' (vm.stack (vm.sp - 1)).toNat w.bytes
      | none => []

/-- The machine gets from one state to another by rounds that read these bytes. -/
inductive Reading (call : SysFunc) : Vm → List ℕ → Vm → Prop
  | done (vm : Vm) : Reading call vm [] vm
  | round {vm vm₁ vm₂ : Vm} {rs : List ℕ} (hround : Round call vm vm₁) (hrest : Reading call vm₁ rs vm₂) :
      Reading call vm (vm.reads ++ rs) vm₂

namespace Reading

variable {call : SysFunc} {vm vm₁ vm₂ : Vm} {rs rs' : List ℕ}

theorem trans (h : Reading call vm rs vm₁) (h' : Reading call vm₁ rs' vm₂) : Reading call vm (rs ++ rs') vm₂ := by
  induction h with
  | done vm => exact h'
  | round hround hrest ih =>
    rw [List.append_assoc]
    exact .round hround (ih h')

theorem le_pc (h : Reading call vm rs vm₁) : vm.pc ≤ vm₁.pc := by
  induction h with
  | done vm => exact Nat.le_refl _
  | round hround hrest ih => exact (step_pc hround.2).le.trans ih

/-- The machine has one run, so what it has read when it is somewhere is determined. -/
theorem unique (h : Reading call vm rs vm₁) (h' : Reading call vm rs' vm₂) (hpc : vm₁.pc = vm₂.pc) : rs = rs' ∧ vm₁ = vm₂ := by
  induction h generalizing rs' with
  | done vm =>
    cases h' with
    | done => exact ⟨rfl, rfl⟩
    | round hround hrest =>
      have hlt := step_pc hround.2
      have hle := hrest.le_pc
      omega
  | round hround hrest ih =>
    cases h' with
    | done =>
      have hlt := step_pc hround.2
      have hle := hrest.le_pc
      omega
    | round hround' hrest' =>
      obtain rfl := Option.some.inj (hround.2.symm.trans hround'.2)
      obtain ⟨rfl, rfl⟩ := ih hrest' hpc
      exact ⟨rfl, rfl⟩

/-- One instruction: its opcode selects `f`, and `f` finds the program counter at the operands. -/
theorem instr {text : List Byte} {c : Config} {f : Vm → Option Vm} {op : Byte} {operands : List Byte} {P : Vm → Prop}
    (htext : text.length = textMax) (hcode : CodeAt text c.pc (op :: operands)) (hvm : Shows text c vm)
    (hop : (opTable call)[op.toNat]? = some f)
    (hf : ∀ vm₁ tail, Shows text { c with pc := c.pc + 1 } vm₁ → vm₁.rest = operands ++ tail → ∃ vm', f vm₁ = some vm' ∧ P vm')
    (hreads : ∀ tail, vm.rest = op :: (operands ++ tail) → vm.reads = rs) : ∃ vm', Reading call vm rs vm' ∧ P vm' := by
  have hpc : vm.pc < textMax := by
    have hle := hcode.length_le (Nat.succ_pos _)
    rw [List.length_cons, htext] at hle
    rw [hvm.pc]
    omega
  obtain ⟨tail, htail⟩ := hcode
  have hrest : vm.rest = op :: (operands ++ tail) := by rw [Vm.rest, hvm.text, hvm.pc, htail, List.cons_append]
  have hrest' : ({ vm with pc := vm.pc + 1 } : Vm).rest = operands ++ tail := by
    rw [Vm.rest, ← List.drop_drop, ← Vm.rest, hrest, List.drop_one, List.tail_cons]
  obtain ⟨vm', hvm', hP⟩ :=
    hf { vm with pc := vm.pc + 1 } tail ⟨hvm.text, congrArg (· + 1) hvm.pc, hvm.stack, hvm.mem⟩ hrest'
  have hstep : step call vm = some vm' := by
    simp only [step, hrest, hop, Option.bind_some]
    exact hvm'
  refine ⟨vm', ?_, hP⟩
  rw [← hreads tail hrest, ← List.append_nil vm.reads]
  exact .round ⟨hpc, hstep⟩ (.done vm')

end Reading

theorem Vm.reads_ldValue {vm : Vm} {w : Width} {a : Dword} {tail : List Byte}
    (h : vm.rest = opLdValue w :: (codeDword a ++ tail)) : vm.reads = List.range' a.toNat w.bytes := by
  have hwidth : Width.all.find? (fun w' => opLdValue w = opLdValue w') = some w := by cases w <;> decide
  rw [Vm.reads, h]
  dsimp only
  rw [hwidth]
  exact congrArg (fun x => List.range' (BitVec.toNat x) w.bytes) (Memory.dwordOf_extract a)

theorem Vm.reads_ldValueStack {vm : Vm} {w : Width} {tail : List Byte} (h : vm.rest = opLdValueStack w :: tail) :
    vm.reads = List.range' (vm.stack (vm.sp - 1)).toNat w.bytes := by
  have hvalue : Width.all.find? (fun w' => opLdValueStack w = opLdValue w') = none := by cases w <;> decide
  have hwidth : Width.all.find? (fun w' => opLdValueStack w = opLdValueStack w') = some w := by cases w <;> decide
  rw [Vm.reads, h]
  dsimp only
  rw [hvalue]
  dsimp only
  rw [hwidth]

/-- The other instructions read no memory. -/
theorem Vm.reads_other {vm : Vm} {op : Byte} {tail : List Byte} (h : vm.rest = op :: tail)
    (hvalue : ∀ w ∈ Width.all, op ≠ opLdValue w) (hstack : ∀ w ∈ Width.all, op ≠ opLdValueStack w) : vm.reads = [] := by
  have hnone : Width.all.find? (fun w' => op = opLdValue w') = none :=
    List.find?_eq_none.mpr fun w hw h => hvalue w hw (of_decide_eq_true h)
  have hnone' : Width.all.find? (fun w' => op = opLdValueStack w') = none :=
    List.find?_eq_none.mpr fun w hw h => hstack w hw (of_decide_eq_true h)
  rw [Vm.reads, h]
  dsimp only
  rw [hnone]
  dsimp only
  rw [hnone']

/-! ## The instructions of a step -/

namespace Step

/-- What a step computes. -/
def apply : Step → ℤ → ℤ → ℤ
  | inc, a, b => a + b
  | dec, a, b => a - b

theorem op_apply (s : Step) (a b : ℤ) : s.op.apply a b = some (s.apply a b) := by
  cases s <;> rfl

/-- The value after one of `m` values, modulo `m`, or that before it. -/
def next (m : ℕ) : Step → ℕ → ℕ
  | inc, v => (v + 1) % m
  | dec, v => (v + (m - 1)) % m

/-- **The step in a width**: whatever was in the slots, and however the members of a width are read. -/
theorem next_eq (s : Step) (w : Width) {old old' v : Dword} (hv : v.toNat < w.modulus) :
    (BitVec.ofInt 32 (s.apply (w.read (w.write old v)) (w.read (w.write old' 1)))).toNat % w.modulus =
      s.next w.modulus v.toNat := by
  have hvalue : w.read (w.write old v) % (w.modulus : ℤ) = v.toNat := by
    have hmod := congrArg Int.ofNat ((w.write_mod old v).trans (Nat.mod_eq_of_lt hv))
    exact (w.read_mod _).trans hmod
  have hone : w.read (w.write old' 1) % (w.modulus : ℤ) = 1 := by
    have hmod := congrArg Int.ofNat (w.write_mod old' 1)
    refine (w.read_mod _).trans (hmod.trans ?_)
    cases w <;> rfl
  have hint : ((BitVec.ofInt 32 (s.apply (w.read (w.write old v)) (w.read (w.write old' 1)))).toNat : ℤ) % w.modulus =
      s.apply (w.read (w.write old v)) (w.read (w.write old' 1)) % w.modulus := by
    rw [BitVec.toNat_ofInt, Int.toNat_of_nonneg (Int.emod_nonneg _ (by decide))]
    exact Int.emod_emod_of_dvd _ (Int.natCast_dvd_natCast.mpr w.modulus_dvd)
  generalize w.read (w.write old v) = a at hvalue hint ⊢
  generalize w.read (w.write old' 1) = b at hone hint ⊢
  cases s with
  | inc =>
    simp only [apply, next] at hint ⊢
    cases w <;> simp only [Width.modulus_byte, Width.modulus_word, Width.modulus_dword] at * <;> omega
  | dec =>
    simp only [apply, next] at hint ⊢
    cases w <;> simp only [Width.modulus_byte, Width.modulus_word, Width.modulus_dword] at * <;> omega

end Step

section Instructions

variable (call : SysFunc) {text : List Byte} {pc : ℕ} {xs : List Dword} {m : Memory} {vm : Vm}

/-- A push in a width: the slot keeps what it had in its other bytes. -/
theorem shows_write {w : Width} {v : Dword} {n : ℕ} (hvm : Shows text ⟨pc, xs, m⟩ vm) (hlen : xs.length < stackMax) :
    ∃ vm', vm.push w v n = some vm' ∧ ∃ old, Shows text ⟨pc + n, w.write old v :: xs, m⟩ vm' := by
  have hsp : vm.sp < stackMax := by
    rw [← slots_length vm.stack vm.sp, hvm.stack]
    exact hlen
  refine ⟨_, if_pos hsp, vm.stack vm.sp, hvm.text, congrArg (· + n) hvm.pc, ?_, hvm.mem⟩
  exact (slots_update_self vm.stack vm.sp _).trans (congrArg (w.write (vm.stack vm.sp) v :: ·) hvm.stack)

theorem reading_loadAddr (htext : text.length = textMax) {a : Dword} (hcode : CodeAt text pc (loadLong a))
    (hlen : xs.length < stackMax) (hvm : Shows text ⟨pc, xs, m⟩ vm) :
    ∃ vm', Reading call vm [] vm' ∧ Shows text ⟨pc + 5, a :: xs, m⟩ vm' := by
  refine Reading.instr (f := opLdImm .dword) htext hcode hvm rfl (fun vm₁ tail hvm₁ hrest => ?_) fun tail hrest => ?_
  · have hload : opLdImm .dword vm₁ = vm₁.push .dword a 4 := by
      unfold opLdImm
      rw [hrest]
      exact congrArg (fun x => vm₁.push .dword x 4) (Memory.dwordOf_extract a)
    rw [hload]
    exact shows_push hvm₁ hlen
  · exact Vm.reads_other hrest (by decide) (by decide)

theorem reading_loadVar (htext : text.length = textMax) {w : Width} {a : Dword}
    (hcode : CodeAt text pc (opLdValue w :: codeDword a)) (hlen : xs.length < stackMax) (hvm : Shows text ⟨pc, xs, m⟩ vm) :
    ∃ vm', Reading call vm (List.range' a.toNat w.bytes) vm' ∧
      ∃ old, Shows text ⟨pc + 5, w.write old (m.load a.toNat w) :: xs, m⟩ vm' := by
  have hop : (opTable call)[(opLdValue w).toNat]? = some (opLdVar w) := by cases w <;> rfl
  refine Reading.instr htext hcode hvm hop (fun vm₁ tail hvm₁ hrest => ?_) fun tail hrest => Vm.reads_ldValue hrest
  have hload : opLdVar w vm₁ = vm₁.push w (vm₁.mem.load a.toNat w) 4 := by
    unfold opLdVar
    rw [hrest]
    exact congrArg (fun x => vm₁.push w (vm₁.mem.load (BitVec.toNat x) w) 4) (Memory.dwordOf_extract a)
  rw [hload, hvm₁.mem]
  exact shows_write hvm₁ hlen

theorem reading_one (htext : text.length = textMax) {w : Width} (hcode : CodeAt text pc (codeOne w))
    (hlen : xs.length < stackMax) (hvm : Shows text ⟨pc, xs, m⟩ vm) :
    ∃ vm', Reading call vm [] vm' ∧ ∃ old, Shows text ⟨pc + (codeOne w).length, w.write old 1 :: xs, m⟩ vm' := by
  cases w with
  | byte =>
    refine Reading.instr (f := opLdImm .byte) htext hcode hvm rfl (fun vm₁ tail hvm₁ hrest => ?_) fun tail hrest => ?_
    · unfold opLdImm
      rw [hrest]
      exact shows_write hvm₁ hlen
    · exact Vm.reads_other hrest (by decide) (by decide)
  | word =>
    refine Reading.instr (f := opLdImm .word) htext hcode hvm rfl (fun vm₁ tail hvm₁ hrest => ?_) fun tail hrest => ?_
    · unfold opLdImm
      rw [hrest]
      exact shows_write hvm₁ hlen
    · exact Vm.reads_other hrest (by decide) (by decide)
  | dword =>
    obtain ⟨vm', hreading, hvm'⟩ := reading_loadAddr call htext hcode hlen hvm
    exact ⟨vm', hreading, 0, hvm'⟩

theorem reading_op (htext : text.length = textMax) {s : Step} {w : Width} {a b : Dword} (hcode : CodeAt text pc [s.op.op w])
    (hvm : Shows text ⟨pc, b :: a :: xs, m⟩ vm) :
    ∃ vm', Reading call vm [] vm' ∧
      Shows text ⟨pc + 1, w.write a (BitVec.ofInt 32 (s.apply (w.read a) (w.read b))) :: xs, m⟩ vm' := by
  have hop : (opTable call)[(s.op.op w).toNat]? = some (opBin s.op w) := by cases s <;> cases w <;> rfl
  refine Reading.instr htext hcode hvm hop (fun vm₁ tail hvm₁ _ => ?_) fun tail hrest => ?_
  · obtain ⟨k, hk, hb, hrest⟩ := slots_eq_cons hvm₁.stack
    obtain ⟨n, rfl, ha, hxs⟩ := slots_eq_cons hrest
    have hvalue : opBin s.op w vm₁ =
        some { vm₁.setSlot n w (BitVec.ofInt 32 (s.apply (w.read a) (w.read b))) with sp := n + 1 } := by
      rw [opBin, if_pos (by omega), show vm₁.sp - 2 = n by omega, show vm₁.sp - 1 = n + 1 by omega, ha, hb, s.op_apply,
        Option.map_some]
    refine ⟨_, hvalue, hvm₁.text, hvm₁.pc, ?_, hvm₁.mem⟩
    refine (slots_update_self vm₁.stack n _).trans ?_
    rw [ha, hxs]
  · refine Vm.reads_other hrest ?_ ?_ <;> cases s <;> cases w <;> decide

theorem reading_store (htext : text.length = textMax) {w : Width} {a v : Dword} (hcode : CodeAt text pc [opSt w])
    (hvm : Shows text ⟨pc, v :: a :: xs, m⟩ vm) :
    ∃ vm', Reading call vm [] vm' ∧ Shows text ⟨pc + 1, a :: xs, m.store a.toNat v w⟩ vm' := by
  have hop : (opTable call)[(opSt w).toNat]? = some (opStore w) := by cases w <;> rfl
  refine Reading.instr htext hcode hvm hop (fun vm₁ tail hvm₁ _ => ?_) fun tail hrest => ?_
  · obtain ⟨k, hk, hv, hrest⟩ := slots_eq_cons hvm₁.stack
    obtain ⟨n, rfl, ha, hxs⟩ := slots_eq_cons hrest
    have hvalue : opStore w vm₁ = some { vm₁ with mem := m.store a.toNat v w, sp := n + 1 } := by
      rw [opStore, if_pos (by omega), show vm₁.sp - 2 = n by omega, show vm₁.sp - 1 = n + 1 by omega, ha, hv, hvm₁.mem]
    exact ⟨_, hvalue, hvm₁.text, hvm₁.pc, hrest, rfl⟩
  · refine Vm.reads_other hrest ?_ ?_ <;> cases w <;> decide

theorem reading_reload (htext : text.length = textMax) {a : Dword} (hcode : CodeAt text pc [opLdValueStack .dword])
    (hvm : Shows text ⟨pc, a :: xs, m⟩ vm) :
    ∃ vm', Reading call vm (List.range' a.toNat 4) vm' ∧ Shows text ⟨pc + 1, m.load a.toNat .dword :: xs, m⟩ vm' := by
  refine Reading.instr (f := opLdStack .dword) htext hcode hvm rfl (fun vm₁ tail hvm₁ _ => ?_) fun tail hrest => ?_
  · obtain ⟨n, hn, ha, hxs⟩ := slots_eq_cons hvm₁.stack
    have hvalue : opLdStack .dword vm₁ = some (vm₁.setSlot n .dword (m.load a.toNat .dword)) := by
      rw [opLdStack, if_pos (by omega), show vm₁.sp - 1 = n by omega, ha, hvm₁.mem]
    refine ⟨_, hvalue, hvm₁.text, hvm₁.pc, ?_, hvm₁.mem⟩
    change slots _ vm₁.sp = _
    rw [hn]
    exact (slots_update_self vm₁.stack n _).trans (congrArg _ hxs)
  · obtain ⟨n, hn, ha, -⟩ := slots_eq_cons hvm.stack
    have hreads := Vm.reads_ldValueStack hrest
    rwa [hn, Nat.add_sub_cancel, ha] at hreads

theorem reading_pop (htext : text.length = textMax) {a : Dword} (hcode : CodeAt text pc [opPop])
    (hvm : Shows text ⟨pc, a :: xs, m⟩ vm) :
    ∃ vm', Reading call vm [] vm' ∧ Shows text ⟨pc + 1, xs, m⟩ vm' := by
  refine Reading.instr (f := opPopTop) htext hcode hvm rfl (fun vm₁ tail hvm₁ _ => ?_) fun tail hrest => ?_
  · obtain ⟨n, hn, -, hxs⟩ := slots_eq_cons hvm₁.stack
    have hvalue : opPopTop vm₁ = some { vm₁ with sp := n } := by
      rw [opPopTop, if_pos (by omega), show vm₁.sp - 1 = n by omega]
    exact ⟨_, hvalue, hvm₁.text, hvm₁.pc, hxs, hvm₁.mem⟩
  · exact Vm.reads_other hrest (by decide) (by decide)

end Instructions

/-! ## The code of a step -/

/-- `++x` and `--x`, or `x++` and `x--`. -/
inductive Form
  | pre | post
  deriving DecidableEq

/-- The node of a step. -/
def Form.node : Form → Step → NodeType
  | pre, s => s.preNode
  | post, s => s.postNode

/-- What both forms have in common: the value at `var` is loaded and stepped, and stored where the slot below points to. -/
def stepCode (s : Step) (w : Width) (var : Dword) : List Byte :=
  opLdValue w :: codeDword var ++ (codeOne w ++ ([s.op.op w] ++ [opSt w]))

/-- The common part: it reads the value at `var` and nothing else, and steps it. -/
theorem reading_step (call : SysFunc) {text : List Byte} {pc : ℕ} {xs : List Dword} {m : Memory} {vm : Vm} {s : Step}
    {w : Width} {var a : Dword} (htext : text.length = textMax) (hcode : CodeAt text pc (stepCode s w var))
    (hlen : xs.length + 3 ≤ stackMax) (hvm : Shows text ⟨pc, a :: xs, m⟩ vm) :
    ∃ vm' x, Reading call vm (List.range' var.toNat w.bytes) vm' ∧
      Shows text ⟨pc + (stepCode s w var).length, a :: xs, m.store a.toNat x w⟩ vm' ∧
      x.toNat % w.modulus = s.next w.modulus (m.load var.toNat w).toNat := by
  obtain ⟨vm₁, hload, old, hvm₁⟩ := reading_loadVar call htext hcode.left (by rw [List.length_cons]; omega) hvm
  obtain ⟨vm₂, hone, old', hvm₂⟩ :=
    reading_one call htext hcode.right.left (by rw [List.length_cons, List.length_cons]; omega) hvm₁
  obtain ⟨vm₃, hop, hvm₃⟩ := reading_op call htext hcode.right.right.left hvm₂
  obtain ⟨vm₄, hstore, hvm₄⟩ := reading_store call htext hcode.right.right.right hvm₃
  have hreading := ((hload.trans hone).trans hop).trans hstore
  rw [List.append_nil, List.append_nil, List.append_nil] at hreading
  refine ⟨vm₄, _, hreading, ⟨hvm₄.text, hvm₄.pc.trans ?_, hvm₄.stack, hvm₄.mem⟩, ?_⟩
  · simp only [stepCode, List.length_append, List.length_cons, List.length_nil, codeDword_length]
    omega
  · rw [w.write_mod]
    exact s.next_eq w (m.load_lt var.toNat w)

/-! ## Operands -/

/-- The width of an integer type. -/
def FinshType.intWidth : FinshType → Option Width
  | .char | .uchar => some .byte
  | .short | .ushort => some .word
  | .int | .uint | .long | .ulong => some .dword
  | _ => none

theorem FinshType.intWidth_some {type : FinshType} {w : Width} (h : type.intWidth = some w) :
    type.loadWidth = some w ∧ type.dataType = some w.dataType := by
  cases type <;> cases h <;> exact ⟨rfl, rfl⟩

/-- **An identifier of an integer type**: a declared variable, or a system variable. -/
structure Operand where
  kind : IdKind
  symbol : Symbol
  width : Width
  assignable : kind ≠ .syscall
  integer : symbol.type.intWidth = some width

namespace Operand

variable (x : Operand) (s : Step) (form : Form)

/-- Where the value is. -/
def addr : Dword :=
  match x.kind with
  | .var => x.symbol.valueAddr
  | _ => x.symbol.target

/-- How many bytes the object has that the value is in: the union of a declared variable, or the system variable itself. -/
def size : ℕ :=
  match x.kind with
  | .var => 4
  | _ => x.width.bytes

/-- What the parser makes of a step: `proc_unary_expr`, `proc_postfix_expr` and `finsh_node_new_id`. -/
def tree : Tree := makeSysNode (form.node s) (.node (FinshParser.idNode (x.kind.idtype, x.symbol)) .nil .nil) .nil

/-- What the compiler makes of it. -/
def code : List Byte := finshCompile (finshTypeCheck (x.tree s form) nodeValue)

/-- The node of the identifier after the type check. -/
def node (isAddr : Byte) : FinshNode where
  nodeType := .id
  idtype := x.kind.idtype ||| isAddr
  dataType := x.width.dataType
  id := some x.symbol

theorem typeCheck (isAddr : Byte) (haddr : isAddr = nodeValue ∨ isAddr = idtypeAddress) :
    finshTypeCheck (.node (FinshParser.idNode (x.kind.idtype, x.symbol)) .nil .nil) isAddr = .node (x.node isAddr) .nil .nil := by
  obtain ⟨-, hdata⟩ := FinshType.intWidth_some x.integer
  have hkind := x.assignable
  cases hk : x.kind with
  | syscall => exact absurd hk hkind
  | var | sysvar =>
    rcases haddr with rfl | rfl <;>
      simp [finshTypeCheck, FinshParser.idNode, IdKind.idtype, setAttributes, FinshNode.setAddr, leafType, FinshNode.isVariable,
        Tree.head, node, hk, hdata, idtypeVar, idtypeSysvar, idtypeSyscall, idtypeAddress, nodeValue]

/-- The identifier asks for its value or for its address, where it really is. -/
theorem codeId_node : codeId (x.node nodeValue) = opLdValue x.width :: codeDword x.addr ∧
    codeId (x.node idtypeAddress) = loadLong x.addr := by
  obtain ⟨hload, -⟩ := FinshType.intWidth_some x.integer
  have hkind := x.assignable
  cases hk : x.kind with
  | syscall => exact absurd hk hkind
  | var | sysvar =>
    simp [codeId, node, addr, hk, IdKind.idtype, codeLoadId, hload, loadLong, idtypeVar, idtypeSysvar, idtypeSyscall, idtypeAddress,
      nodeValue]

theorem code_pre : x.code s .pre =
    loadLong x.addr ++ (stepCode s x.width x.symbol.valueAddr ++ [opLdValueStack .dword]) := by
  have hcheck := x.typeCheck idtypeAddress (.inr rfl)
  have hcompile : finshCompile (.node (x.node idtypeAddress) .nil .nil) = loadLong x.addr := by
    rw [← x.codeId_node.2]
    exact (List.append_nil _)
  unfold code tree makeSysNode Form.node
  rw [Tree.setSibling, finshTypeCheck, s.childAddr_preNode, hcheck, finshCompile, hcompile]
  cases s <;>
    simp [setAttributes, Tree.head, finshCompile, codeNode, codePre, childVar, stepCode, Step.preNode, Step.op, FinshNode.setAddr,
      finshTypeCheck, node, idtypeSyscall]

theorem code_post : x.code s .post =
    opLdValue x.width :: codeDword x.addr ++
      (loadLong x.symbol.valueAddr ++ (stepCode s x.width x.symbol.valueAddr ++ [opPop])) := by
  have hcheck := x.typeCheck nodeValue (.inl rfl)
  have hcompile : finshCompile (.node (x.node nodeValue) .nil .nil) = opLdValue x.width :: codeDword x.addr := by
    rw [← x.codeId_node.1]
    exact (List.append_nil _)
  unfold code tree makeSysNode Form.node
  rw [Tree.setSibling, finshTypeCheck, s.childAddr_postNode, hcheck, finshCompile, hcompile]
  cases s <;>
    simp [setAttributes, Tree.head, finshCompile, codeNode, codePost, childVar, stepCode, Step.postNode, Step.op, FinshNode.setAddr,
      finshTypeCheck, node, idtypeSyscall, loadLong]

/-! ## What a step touches -/

/-- **What a step should do** between two states of the machine: it changes the operand and no other byte, by one modulo its
width, and reads no other object. -/
structure Touches (vm : Vm) (rs : List ℕ) (vm' : Vm) : Prop where
  frame : ∀ p, p < x.addr.toNat ∨ x.addr.toNat + x.width.bytes ≤ p → vm'.mem p = vm.mem p
  value : (vm'.mem.load x.addr.toNat x.width).toNat =
    s.next x.width.modulus (vm.mem.load x.addr.toNat x.width).toNat
  reads : ∀ p ∈ rs, x.addr.toNat ≤ p ∧ p < x.addr.toNat + x.size

/-- The machine gets through the code of the step, and does there what it should. -/
def TouchesOnly (call : SysFunc) (vm : Vm) : Prop :=
  ∃ rs vm', Reading call vm rs vm' ∧ vm'.pc = vm.pc + (x.code s form).length ∧ x.Touches s vm rs vm'

/-- **The operands that the emitter is right about**: the declared variables, and a system variable that happens to lie where
the value of a declared variable would, if four bytes are not read in place of fewer. -/
def Supported : Prop :=
  x.kind = .var ∨ x.symbol.target = x.symbol.valueAddr ∧ (form = .post ∨ x.width = .dword)

/-- What the code of a step reads: the operand, if it stands for its value, then what the emitter takes for the operand, and
four bytes of the operand, if its value is loaded again. -/
def readsOf : List ℕ :=
  match form with
  | .pre => List.range' x.symbol.valueAddr.toNat x.width.bytes ++ List.range' x.addr.toNat 4
  | .post => List.range' x.addr.toNat x.width.bytes ++ List.range' x.symbol.valueAddr.toNat x.width.bytes

/-- Where the code of a step stores. -/
def storeAddr : Dword :=
  match form with
  | .pre => x.addr
  | .post => x.symbol.valueAddr

/-- **The code of a step**, with room for it on the stack. -/
theorem reading_code (call : SysFunc) {vm : Vm} (htext : vm.text.length = textMax) (hroom : vm.sp + 4 ≤ stackMax)
    (hcode : CodeAt vm.text vm.pc (x.code s form)) :
    ∃ vm' v, Reading call vm (x.readsOf form) vm' ∧ vm'.pc = vm.pc + (x.code s form).length ∧
      vm'.mem = vm.mem.store (x.storeAddr form).toNat v x.width ∧
      v.toNat % x.width.modulus = s.next x.width.modulus (vm.mem.load x.symbol.valueAddr.toNat x.width).toNat := by
  have hlen := slots_length vm.stack vm.sp
  have hvm : Shows vm.text ⟨vm.pc, slots vm.stack vm.sp, vm.mem⟩ vm := ⟨rfl, rfl, rfl, rfl⟩
  cases form with
  | pre =>
    rw [x.code_pre] at hcode ⊢
    obtain ⟨vm₁, haddr, hvm₁⟩ := reading_loadAddr call htext hcode.left (by omega) hvm
    obtain ⟨vm₂, v, hstep, hvm₂, hv⟩ := reading_step call htext hcode.right.left (by omega) hvm₁
    obtain ⟨vm₃, hreload, hvm₃⟩ := reading_reload call htext hcode.right.right hvm₂
    refine ⟨vm₃, v, ?_, hvm₃.pc.trans ?_, hvm₃.mem, hv⟩
    · exact (haddr.trans hstep).trans hreload
    · simp only [List.length_append, loadLong_length, List.length_singleton]
      omega
  | post =>
    rw [x.code_post] at hcode ⊢
    obtain ⟨vm₁, hold, old, hvm₁⟩ := reading_loadVar call htext hcode.left (by omega) hvm
    obtain ⟨vm₂, haddr, hvm₂⟩ := reading_loadAddr call htext hcode.right.left (by rw [List.length_cons]; omega) hvm₁
    obtain ⟨vm₃, v, hstep, hvm₃, hv⟩ := reading_step call htext hcode.right.right.left (by rw [List.length_cons]; omega) hvm₂
    obtain ⟨vm₄, hpop, hvm₄⟩ := reading_pop call htext hcode.right.right.right hvm₃
    have hreading := ((hold.trans haddr).trans hstep).trans hpop
    rw [List.append_nil, List.append_nil] at hreading
    refine ⟨vm₄, v, hreading, hvm₄.pc.trans ?_, hvm₄.mem, hv⟩
    simp only [List.length_append, loadLong_length, List.length_cons, List.length_nil, codeDword_length]
    omega

/-- The object has the bytes of the value. -/
theorem bytes_le_size : x.width.bytes ≤ x.size := by
  unfold size
  split
  · exact x.width.bytes_bounds.2
  · exact Nat.le_refl _

/-- The machine has one run, so its code is right if that run is. -/
theorem touchesOnly_iff (call : SysFunc) {vm : Vm} (htext : vm.text.length = textMax) (hroom : vm.sp + 4 ≤ stackMax)
    (hcode : CodeAt vm.text vm.pc (x.code s form)) : x.TouchesOnly s form call vm ↔ x.Supported form := by
  obtain ⟨vm', v, hreading, hpc, hmem, hv⟩ := x.reading_code s form call htext hroom hcode
  have hsize := x.bytes_le_size
  have hbytes := x.width.bytes_bounds
  constructor
  · rintro ⟨rs, vm'', hreading', hpc', htouches⟩
    obtain ⟨rfl, rfl⟩ := hreading.unique hreading' (hpc.trans hpc'.symm)
    have hreads := htouches.reads
    refine or_iff_not_imp_left.mpr fun hkind => ?_
    have haddr : x.addr = x.symbol.target := by
      unfold addr
      split
      · exact absurd ‹_› hkind
      · rfl
    have hobject : x.size = x.width.bytes := by
      unfold size
      split
      · exact absurd ‹_› hkind
      · rfl
    -- the first and the last byte that are read for the value
    have hvalue : ∀ p, x.symbol.valueAddr.toNat ≤ p → p < x.symbol.valueAddr.toNat + x.width.bytes → p ∈ x.readsOf form := by
      intro p hp hp'
      have hrange := List.mem_range'_1.mpr ⟨hp, hp'⟩
      cases form with
      | pre => exact List.mem_append_left _ hrange
      | post => exact List.mem_append_right _ hrange
    have hfirst := hreads _ (hvalue _ (Nat.le_refl _) (by omega))
    have hlast := hreads _ (hvalue (x.symbol.valueAddr.toNat + (x.width.bytes - 1)) (by omega) (by omega))
    refine ⟨?_, ?_⟩
    · rw [← haddr]
      exact BitVec.eq_of_toNat_eq (by omega)
    · cases form with
      | post => exact .inl rfl
      | pre =>
        have hreload := hreads (x.addr.toNat + 3) (List.mem_append_right _ (List.mem_range'_1.mpr ⟨by omega, by omega⟩))
        refine .inr ?_
        cases hw : x.width with
        | dword => rfl
        | byte | word =>
          rw [hobject, hw] at hreload
          simp only [Width.bytes] at hreload
          omega
  · intro h
    have haddr : x.addr = x.symbol.valueAddr := by
      unfold addr
      split
      · rfl
      · obtain hkind | ⟨htarget, -⟩ := h
        · contradiction
        · exact htarget
    have hstore : x.storeAddr form = x.addr := by cases form <;> simp [storeAddr, haddr]
    refine ⟨_, vm', hreading, hpc, ⟨fun p hp => ?_, ?_, fun p hp => ?_⟩⟩
    · rw [hmem, hstore, Memory.store_frame _ _ _ hp]
    · rw [hmem, hstore, Memory.load_store_mod, hv, haddr]
    · have hfour : form = .pre → 4 ≤ x.size := by
        intro hform
        obtain hkind | ⟨-, hpost | hdword⟩ := h
        · rw [size, hkind]
        · rw [hpost] at hform
          cases hform
        · rw [hdword] at hsize
          exact hsize
      cases form with
      | pre =>
        have hfour := hfour rfl
        rw [readsOf, List.mem_append, List.mem_range'_1, List.mem_range'_1, ← haddr] at hp
        omega
      | post =>
        rw [readsOf, List.mem_append, List.mem_range'_1, List.mem_range'_1, ← haddr] at hp
        omega

/-- The code of a step fits, and is longer than what it needs of the stack. -/
theorem code_length_bounds : 15 ≤ (x.code s form).length ∧ (x.code s form).length ≤ textMax := by
  have hone : 2 ≤ (codeOne x.width).length ∧ (codeOne x.width).length ≤ 5 := by cases x.width <;> decide
  unfold textMax
  cases form with
  | pre =>
    rw [x.code_pre]
    simp only [stepCode, List.length_append, List.length_cons, List.length_nil, loadLong_length, codeDword_length]
    omega
  | post =>
    rw [x.code_post]
    simp only [stepCode, List.length_append, List.length_cons, List.length_nil, loadLong_length, codeDword_length]
    omega

end Operand

/-! ## In the run of a line -/

/-- A state of the machine in the run of a line, which begins with the machine `vm₀`. -/
def Running (call : SysFunc) (node : Tree) (vm₀ vm : Vm) : Prop :=
  ∃ text stack, finshCompilerRun node vm₀.stack = some (text, stack) ∧
    Rounds call { vm₀ with text := text, stack := stack, sp := 0, pc := 0 } vm

theorem Running.paid {call : SysFunc} {node : Tree} {vm₀ vm : Vm} (h : Running call node vm₀ vm) :
    vm.text.length = textMax ∧ 2 * vm.sp ≤ vm.pc := by
  obtain ⟨text, stack, hcompile, hrounds⟩ := h
  have hpaid := rounds_paid hrounds (Nat.le_refl 0)
  refine ⟨?_, hpaid.2⟩
  rw [hpaid.1]
  unfold finshCompilerRun at hcompile
  split at hcompile
  · obtain ⟨rfl, -⟩ := Prod.mk.inj (Option.some.inj hcompile)
    rw [List.length_append, List.length_replicate]
    omega
  · cases hcompile

/-- **Steps touch their operands only**: wherever the code of a step stands in a run of a line, it changes the operand by one
and nothing else, and reads no other object, exactly if the operand is supported. -/
theorem steps_touch_iff (call : SysFunc) (node : Tree) (vm₀ vm : Vm) (hrun : Running call node vm₀ vm) (x : Operand)
    (s : Step) (form : Form) (hcode : CodeAt vm.text vm.pc (x.code s form)) :
    x.TouchesOnly s form call vm ↔ x.Supported form := by
  obtain ⟨htext, hpaid⟩ := hrun.paid
  have hlong := (x.code_length_bounds s form).1
  have hle := hcode.length_le (by omega)
  rw [htext] at hle
  refine x.touchesOnly_iff s form call htext ?_ hcode
  unfold textMax at hle
  unfold stackMax
  omega

/-- A line that is only a step is compiled to the code of the step. -/
theorem running_line (call : SysFunc) (x : Operand) (s : Step) (form : Form) (vm₀ : Vm) :
    ∃ vm, Running call (x.tree s form) vm₀ vm ∧ CodeAt vm.text vm.pc (x.code s form) := by
  have hcode : finshCode (x.tree s form) = x.code s form := by
    unfold finshCode Operand.code Operand.tree makeSysNode
    rw [finshTypeCheck, finshTypeCheck, compileStatements, Tree.siblings, if_pos rfl, compileStatements, List.append_nil,
      List.append_nil]
  have hcompile : finshCompilerRun (x.tree s form) vm₀.stack =
      some (x.code s form ++ List.replicate (textMax - (x.code s form).length) 0, Function.update vm₀.stack 0 0) := by
    rw [finshCompilerRun, hcode, if_pos (x.code_length_bounds s form).2]
  exact ⟨_, ⟨_, _, hcompile, .refl⟩, List.replicate (textMax - (x.code s form).length) 0, rfl⟩

/-- The variable `x` of type `char`. -/
def charVar : Operand where
  kind := .var
  symbol := { ptr := 0x20000000, type := .char }
  width := .byte
  assignable := by decide
  integer := rfl

/-- `++x`, for a declared variable of type `char`. -/
theorem steps_touch_charVar : ∃ vm, Running (fun _ _ m => (0, m)) (charVar.tree .inc .pre) lineVm vm ∧
    charVar.TouchesOnly .inc .pre (fun _ _ m => (0, m)) vm := by
  obtain ⟨vm, hrun, hcode⟩ := running_line (fun _ _ m => (0, m)) charVar .inc .pre lineVm
  exact ⟨vm, hrun, (steps_touch_iff _ _ _ vm hrun charVar .inc .pre hcode).mpr (.inl rfl)⟩

/-- The system variable `x` of type `int`. -/
def intSysvar : Operand where
  kind := .sysvar
  symbol := { ptr := 0x08001000, type := .int, target := 0x20000000 }
  width := .dword
  assignable := by decide
  integer := rfl

/-- `x++`, for a system variable of type `int`. -/
theorem steps_touch_elsewhere : ∃ vm, Running (fun _ _ m => (0, m)) (intSysvar.tree .inc .post) lineVm vm ∧
    CodeAt vm.text vm.pc (intSysvar.code .inc .post) ∧ ¬intSysvar.TouchesOnly .inc .post (fun _ _ m => (0, m)) vm := by
  obtain ⟨vm, hrun, hcode⟩ := running_line (fun _ _ m => (0, m)) intSysvar .inc .post lineVm
  obtain ⟨htext, hpaid⟩ := hrun.paid
  have hlong := (intSysvar.code_length_bounds .inc .post).1
  have hle := hcode.length_le (by omega)
  rw [htext] at hle
  refine ⟨vm, hrun, hcode, fun h => ?_⟩
  have hroom : vm.sp + 4 ≤ stackMax := by
    unfold textMax at hle
    unfold stackMax
    omega
  obtain hkind | ⟨htarget, -⟩ := (intSysvar.touchesOnly_iff .inc .post _ htext hroom hcode).mp h
  · exact absurd hkind (by decide)
  · exact absurd htarget (by decide)

end CoreLink.Shell.Finsh
