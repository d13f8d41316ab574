/-
# `Vm.Fetch` — instructions as `compute` fetches them

A turn fetches first: the byte at the program counter, then the operands that the
opcode has, each under the check that its address is not below 8.  Only then is the
instruction executed, with whatever bytes its operands are.

    fetch      reads the memory from address 8 on, and changes nothing
    execute    reads the memory anywhere, and writes cell 0 at most

What a turn fetches is therefore what the image held at the start.
-/
import Nyctomek.Vm.Basic

namespace Nyctomek.Vm

open Prog

/-- An opcode with its operand bytes. -/
inductive Fetched where
  | load (register address : UInt8)
  | store (register address : UInt8)
  | add (arg1 arg2 : UInt8)
  | sub (arg1 arg2 : UInt8)
  | addi (arg1 arg2 : UInt8)
  | subi (arg1 arg2 : UInt8)
  | jump (address : UInt8)
  | beqz (register offset : UInt8)
  | halt
  | illegal (op : UInt8)
  deriving DecidableEq, Repr

/-- The bytes that were fetched. -/
def Fetched.code : Fetched → Bytes
  | .load register address => [Load, register, address]
  | .store register address => [Store, register, address]
  | .add arg1 arg2 => [Add, arg1, arg2]
  | .sub arg1 arg2 => [Sub, arg1, arg2]
  | .addi arg1 arg2 => [Addi, arg1, arg2]
  | .subi arg1 arg2 => [Subi, arg1, arg2]
  | .jump address => [Jump, address]
  | .beqz register offset => [Beqz, register, offset]
  | .halt => [Halt]
  | .illegal op => [op]

/-- The two operands behind an opcode. -/
def fetchOperands (memory : Bytes) (pc : UInt8) (instruction : UInt8 → UInt8 → Fetched) :
    Except Stop Fetched := do
  let operand1 ← readMemory memory (pc + 1) .OpCode
  let operand2 ← readMemory memory (pc + 2) .OpCode
  .ok (instruction operand1 operand2)

def fetch (memory : Bytes) (pc : UInt8) : Except Stop Fetched := do
  let op ← readMemory memory pc .OpCode
  if op = Load then fetchOperands memory pc .load
  else if op = Store then fetchOperands memory pc .store
  else if op = Add then fetchOperands memory pc .add
  else if op = Sub then fetchOperands memory pc .sub
  else if op = Addi then fetchOperands memory pc .addi
  else if op = Subi then fetchOperands memory pc .subi
  else if op = Jump then
    let address ← readMemory memory (pc + 1) .OpCode
    .ok (.jump address)
  else if op = Beqz then fetchOperands memory pc .beqz
  else if op = Halt then .ok .halt
  else .ok (.illegal op)

def Fetched.execute (s : State) : Fetched → Except Stop (Turn State Bytes)
  | .load register address => do
      let value ← readMemory s.memory address .Data
      let registers ← s.registers.write register value
      .ok (State.advance { s with registers })
  | .store register address => do
      let value ← s.registers.read register
      let memory ← writeMemory s.memory address value
      .ok (State.advance { s with memory })
  | .add arg1 arg2 => do
      let value1 ← s.registers.read arg1
      let value2 ← s.registers.read arg2
      let registers ← s.registers.write arg1 (value1 + value2)
      .ok (State.advance { s with registers })
  | .sub arg1 arg2 => do
      let value1 ← s.registers.read arg1
      let value2 ← s.registers.read arg2
      let registers ← s.registers.write arg1 (value1 - value2)
      .ok (State.advance { s with registers })
  | .addi arg1 arg2 => do
      let value1 ← s.registers.read arg1
      let registers ← s.registers.write arg1 (value1 + arg2)
      .ok (State.advance { s with registers })
  | .subi arg1 arg2 => do
      let value1 ← s.registers.read arg1
      let registers ← s.registers.write arg1 (value1 - arg2)
      .ok (State.advance { s with registers })
  | .jump address => .ok (.again (s.setPc address))
  | .beqz register offset => do
      let value ← s.registers.read register
      if value = 0 then .ok (State.advance (s.setPc (s.pc + offset))) else .ok (State.advance s)
  | .halt => .ok (.stop s.memory)
  | .illegal op => .error (.exit IllegalOpCode ("Illegal opcode: " ++ toString op ++ ".\n"))

theorem fetchOperands_bind (memory : Bytes) (pc : UInt8) (instruction : UInt8 → UInt8 → Fetched)
    {α : Type} (f : Fetched → Except Stop α) :
    (fetchOperands memory pc instruction >>= f) =
      readMemory memory (pc + 1) .OpCode >>= fun operand1 =>
        readMemory memory (pc + 2) .OpCode >>= fun operand2 =>
          f (instruction operand1 operand2) := by
  simp only [fetchOperands, bind_assoc, ok_bind]

/-- **A turn** fetches an instruction and then executes it. -/
theorem computeTurn_eq_bind (s : State) :
    computeTurn s = fetch s.memory s.pc >>= Fetched.execute s := by
  have hite : ∀ (p : Prop) [Decidable p] (x y : Except Stop Fetched),
      ((if p then x else y) >>= Fetched.execute s)
        = if p then x >>= Fetched.execute s else y >>= Fetched.execute s := by
    intro p _ x y
    split <;> rfl
  simp only [computeTurn, fetch, bind_assoc, hite, fetchOperands_bind, ok_bind]
  rfl

/-! ## What is fetched -/

variable {memory memory' : Bytes} {s s' : State} {i : Fetched} {a pc v : UInt8}

theorem readMemory_eq_ok (h : readMemory memory a .OpCode = .ok v) :
    8 ≤ a.toNat ∧ memory[a.toNat]? = some v := by
  unfold readMemory at h
  split at h
  · cases h
  · rename_i hcode
    have hlow : ¬ a < AddrOpCodeStart := fun hlt => hcode ⟨rfl, hlt⟩
    refine ⟨UInt8.le_iff_toNat_le.mp (UInt8.not_lt.mp hlow), ?_⟩
    cases hindex : memory.index a.toNat with
    | error p => simp [hindex, checked] at h
    | ok w =>
        rw [hindex] at h
        obtain rfl := Except.ok.inj h
        exact Bytes.index_eq_ok.mp hindex

/-- From `pc` on, and round to address 0 behind 255, `bytes` are read as code. -/
def CodeAt (memory : Bytes) : UInt8 → Bytes → Prop
  | _, [] => True
  | pc, v :: vs => readMemory memory pc .OpCode = .ok v ∧ CodeAt memory (pc + 1) vs

theorem CodeAt.readMemory_eq {bytes : Bytes} (h : CodeAt memory pc bytes) {k : Nat}
    (hv : bytes[k]? = some v) : readMemory memory (pc + UInt8.ofNat k) .OpCode = .ok v := by
  induction bytes generalizing pc k with
  | nil => cases hv
  | cons w ws ih =>
      obtain ⟨hw, hws⟩ := h
      cases k with
      | zero =>
          obtain rfl := Option.some.inj hv
          rwa [show UInt8.ofNat 0 = 0 from rfl, UInt8.add_zero]
      | succ k =>
          have hpc : pc + UInt8.ofNat (k + 1) = pc + 1 + UInt8.ofNat k := by
            rw [UInt8.ofNat_add]
            ac_rfl
          rw [hpc]
          exact ih hws hv

theorem codeAt_of_fetchOperands {op : UInt8} {instruction : UInt8 → UInt8 → Fetched}
    (hcode : ∀ x y, (instruction x y).code = [op, x, y])
    (hop : readMemory memory pc .OpCode = .ok op)
    (h : fetchOperands memory pc instruction = .ok i) : CodeAt memory pc i.code := by
  obtain ⟨operand1, h1, h⟩ := bind_eq_ok h
  obtain ⟨operand2, h2, h⟩ := bind_eq_ok h
  obtain rfl := Except.ok.inj h
  have htwo : pc + 1 + 1 = pc + 2 := by rw [UInt8.add_assoc]; rfl
  rw [hcode]
  refine ⟨hop, h1, ?_, trivial⟩
  rwa [htwo]

/-- What holds of each of the cases of an opcode holds of what is fetched. -/
theorem fetch_induction {P : Except Stop Fetched → Prop} {op : UInt8}
    (hop : readMemory memory pc .OpCode = .ok op)
    (operands : ∀ instruction, (∀ x y, Fetched.code (instruction x y) = [op, x, y]) →
      P (fetchOperands memory pc instruction))
    (jump : op = Jump →
      P (readMemory memory (pc + 1) .OpCode >>= fun address => .ok (.jump address)))
    (halt : op = Halt → P (.ok .halt)) (illegal : P (.ok (.illegal op))) :
    P (fetch memory pc) := by
  have hoperands : ∀ {code : UInt8} {instruction : UInt8 → UInt8 → Fetched},
      (∀ x y, (instruction x y).code = [code, x, y]) → op = code →
      P (fetchOperands memory pc instruction) := by
    rintro code instruction hcode rfl
    exact operands instruction hcode
  rw [fetch, hop, ok_bind]
  refine iteInduction (hoperands fun _ _ => rfl) fun _ => ?_
  refine iteInduction (hoperands fun _ _ => rfl) fun _ => ?_
  refine iteInduction (hoperands fun _ _ => rfl) fun _ => ?_
  refine iteInduction (hoperands fun _ _ => rfl) fun _ => ?_
  refine iteInduction (hoperands fun _ _ => rfl) fun _ => ?_
  refine iteInduction (hoperands fun _ _ => rfl) fun _ => ?_
  refine iteInduction jump fun _ => ?_
  refine iteInduction (hoperands fun _ _ => rfl) fun _ => ?_
  exact iteInduction halt fun _ => illegal

/-- The bytes of a fetched instruction stand at the program counter, all of them read as
code. -/
theorem codeAt_of_fetch (h : fetch memory pc = .ok i) : CodeAt memory pc i.code := by
  obtain ⟨op, hop, -⟩ := bind_eq_ok h
  revert h
  refine fetch_induction (P := fun fetched => fetched = .ok i → CodeAt memory pc i.code) hop
    ?_ ?_ ?_ ?_
  · intro instruction hcode h
    exact codeAt_of_fetchOperands hcode hop h
  · rintro rfl h
    obtain ⟨address, haddress, h⟩ := bind_eq_ok h
    obtain rfl := Except.ok.inj h
    exact ⟨hop, haddress, trivial⟩
  · rintro rfl h
    obtain rfl := Except.ok.inj h
    exact ⟨hop, trivial⟩
  · intro h
    obtain rfl := Except.ok.inj h
    exact ⟨hop, trivial⟩

/-! ## What stays -/

/-- Two memories with the same cells from address 1 on. -/
structure SameImage (memory memory' : Bytes) : Prop where
  length : memory'.length = memory.length
  cell : ∀ {a : Nat}, a ≠ 0 → memory'[a]? = memory[a]?

theorem SameImage.refl (memory : Bytes) : SameImage memory memory := ⟨rfl, fun _ => rfl⟩

theorem SameImage.trans {memory'' : Bytes} (h : SameImage memory memory')
    (h' : SameImage memory' memory'') : SameImage memory memory'' :=
  ⟨h'.length.trans h.length, fun ha => (h'.cell ha).trans (h.cell ha)⟩

theorem SameImage.readMemory_eq (h : SameImage memory memory') (a : UInt8) :
    readMemory memory' a .OpCode = readMemory memory a .OpCode := by
  unfold readMemory
  split
  · rfl
  · rename_i hcode
    have ha : a.toNat ≠ 0 := by
      intro hzero
      apply hcode
      refine ⟨rfl, UInt8.lt_iff_toNat_lt.mpr ?_⟩
      rw [hzero]
      exact Nat.succ_pos 7
    rw [Bytes.index, Bytes.index, h.cell ha, h.length]

theorem SameImage.fetch_eq (h : SameImage memory memory') (pc : UInt8) :
    fetch memory' pc = fetch memory pc := by
  simp only [fetch, fetchOperands, h.readMemory_eq]

theorem sameImage_of_writeMemory {value : UInt8} (h : writeMemory memory a value = .ok memory') :
    SameImage memory memory' := by
  unfold writeMemory at h
  split at h
  · cases h
  · rename_i haddress
    obtain rfl : a = 0 := not_not.mp haddress
    cases hset : memory.setIndex 0 value with
    | error p =>
        rw [show (0 : UInt8).toNat = 0 from rfl, hset] at h
        cases h
    | ok cells =>
        rw [show (0 : UInt8).toNat = 0 from rfl, hset] at h
        obtain rfl := Except.ok.inj h
        unfold Bytes.setIndex at hset
        split at hset
        · obtain rfl := Except.ok.inj hset
          exact ⟨List.length_set, fun ha => List.getElem?_set_ne (Ne.symm ha)⟩
        · cases hset

/-- **One step.**  Only `halt` returns, with the memory as it is; any other instruction
changes the first cell at most. -/
theorem execute_cases {t : Turn State Bytes} (h : i.execute s = .ok t) :
    (i = .halt ∧ t = .stop s.memory) ∨ ∃ s', t = .again s' ∧ SameImage s.memory s'.memory := by
  cases i with
  | load register address =>
      obtain ⟨value, -, h⟩ := bind_eq_ok h
      obtain ⟨registers, -, h⟩ := bind_eq_ok h
      cases h
      exact .inr ⟨_, rfl, .refl _⟩
  | store register address =>
      obtain ⟨value, -, h⟩ := bind_eq_ok h
      obtain ⟨cells, hwrite, h⟩ := bind_eq_ok h
      cases h
      exact .inr ⟨_, rfl, sameImage_of_writeMemory hwrite⟩
  | add arg1 arg2 =>
      obtain ⟨value1, -, h⟩ := bind_eq_ok h
      obtain ⟨value2, -, h⟩ := bind_eq_ok h
      obtain ⟨registers, -, h⟩ := bind_eq_ok h
      cases h
      exact .inr ⟨_, rfl, .refl _⟩
  | sub arg1 arg2 =>
      obtain ⟨value1, -, h⟩ := bind_eq_ok h
      obtain ⟨value2, -, h⟩ := bind_eq_ok h
      obtain ⟨registers, -, h⟩ := bind_eq_ok h
      cases h
      exact .inr ⟨_, rfl, .refl _⟩
  | addi arg1 arg2 =>
      obtain ⟨value1, -, h⟩ := bind_eq_ok h
      obtain ⟨registers, -, h⟩ := bind_eq_ok h
      cases h
      exact .inr ⟨_, rfl, .refl _⟩
  | subi arg1 arg2 =>
      obtain ⟨value1, -, h⟩ := bind_eq_ok h
      obtain ⟨registers, -, h⟩ := bind_eq_ok h
      cases h
      exact .inr ⟨_, rfl, .refl _⟩
  | jump address =>
      cases h
      exact .inr ⟨_, rfl, .refl _⟩
  | beqz register offset =>
      obtain ⟨value, -, h⟩ := bind_eq_ok h
      split at h <;> cases h <;> exact .inr ⟨_, rfl, .refl _⟩
  | halt =>
      cases h
      exact .inl ⟨rfl, rfl⟩
  | illegal op => cases h

theorem sameImage_of_execute (h : i.execute s = .ok (.again s')) :
    SameImage s.memory s'.memory := by
  rcases execute_cases h with ⟨-, ht⟩ | ⟨s'', ht, hsame⟩
  · cases ht
  · cases ht
    exact hsame

theorem execute_eq_stop {final : Bytes} (h : i.execute s = .ok (.stop final)) :
    i = .halt ∧ final = s.memory := by
  rcases execute_cases h with ⟨hi, ht⟩ | ⟨s'', ht, -⟩
  · cases ht
    exact ⟨hi, rfl⟩
  · cases ht

/-- **A run** of any length. -/
theorem sameImage_of_turns (h : Turns computeTurn s s') : SameImage s.memory s'.memory := by
  induction h with
  | refl s => exact .refl _
  | head hturn _ ih =>
      rw [computeTurn_eq_bind] at hturn
      obtain ⟨i, -, hexecute⟩ := bind_eq_ok hturn
      exact (sameImage_of_execute hexecute).trans ih

/-- **The code is immutable.**  However many turns have been executed, all cells but the
first hold what they held at the start, also where the run returns; every byte that is
fetched as code is a byte of the initial image, from address 8 on; and a turn does what an
instruction fetched from the initial image does. -/
theorem code_immutable (hrun : Turns computeTurn (initial memory) s) :
    (∀ a, a ≠ 0 → s.memory[a]? = memory[a]?) ∧
      (∀ final, computeTurn s = .ok (.stop final) → ∀ a, a ≠ 0 → final[a]? = memory[a]?) ∧
      (∀ a v, readMemory s.memory a .OpCode = .ok v → 8 ≤ a.toNat ∧ memory[a.toNat]? = some v) ∧
      computeTurn s = fetch memory s.pc >>= Fetched.execute s ∧
      ∀ i, fetch memory s.pc = .ok i → ∀ k v, i.code[k]? = some v →
        8 ≤ (s.pc + UInt8.ofNat k).toNat ∧ memory[(s.pc + UInt8.ofNat k).toNat]? = some v := by
  have hsame : SameImage memory s.memory := sameImage_of_turns hrun
  refine ⟨fun a ha => hsame.cell ha, ?_, ?_, ?_, ?_⟩
  · intro final hstop a ha
    rw [computeTurn_eq_bind] at hstop
    obtain ⟨i, -, hexecute⟩ := bind_eq_ok hstop
    obtain ⟨-, rfl⟩ := execute_eq_stop hexecute
    exact hsame.cell ha
  · intro a v hread
    rw [hsame.readMemory_eq] at hread
    exact readMemory_eq_ok hread
  · rw [computeTurn_eq_bind, hsame.fetch_eq]
  · intro i hfetch k v hv
    exact readMemory_eq_ok ((codeAt_of_fetch hfetch).readMemory_eq hv)

/-- A jump to address 254, where a `load` begins: its second operand would be cell 0. -/
def jumpToEnd : Bytes :=
  List.replicate 8 1 ++ [Jump, 254] ++ List.replicate 244 0 ++ [Load, 1]

theorem code_immutable_jumpToEnd :
    computeTurn ⟨#v[254, 0, 0], jumpToEnd⟩ = .error (.exit IllegalMemoryAccess
        "Invalid address 0 for Opcode access.\n") ∧
      ∀ a v, readMemory jumpToEnd a .OpCode = .ok v → 8 ≤ a.toNat ∧ jumpToEnd[a.toNat]? = some v :=
  ⟨by rfl, (@code_immutable jumpToEnd ⟨#v[254, 0, 0], jumpToEnd⟩ (.single (by rfl))).2.2.1⟩

end Nyctomek.Vm
