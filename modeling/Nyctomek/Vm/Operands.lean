/-
# `Vm.Operands` — operand bytes that no assembler writes

The opcode is checked by `compute` and the addresses are checked by `readMemory` and
`writeMemory`, each with an exit code of its own.  A register operand is used as it
was fetched:

    3 .. 255    the array of three registers is indexed out of range
    0           the operand is the program counter

Both is exact: as long as no instruction that is reached has an operand of the first
kind, every turn ends in a defined way; as long as none writes another value to
register 0, only `jump` and `beqz` move the program counter.
-/
import Nyctomek.Vm.Fetch

namespace Nyctomek.Vm

open Prog

/-- The operands that index the registers. -/
def Fetched.registerOperands : Fetched → List UInt8
  | .load register _ | .store register _ | .beqz register _ => [register]
  | .add arg1 arg2 | .sub arg1 arg2 => [arg1, arg2]
  | .addi arg1 _ | .subi arg1 _ => [arg1]
  | .jump _ | .halt | .illegal _ => []

/-- A turn goes on, returns, or exits with one of the two codes. -/
inductive DefinedEnd : Except Stop (Turn State Bytes) → Prop
  | again (s : State) : DefinedEnd (.ok (.again s))
  | stop (memory : Bytes) : DefinedEnd (.ok (.stop memory))
  | illegalMemoryAccess (message : String) :
      DefinedEnd (.error (.exit IllegalMemoryAccess message))
  | illegalOpCode (message : String) : DefinedEnd (.error (.exit IllegalOpCode message))

variable {memory : Bytes} {s s' : State} {i : Fetched} {a pc register v : UInt8}

/-! ## Accesses -/

theorem exists_readMemory_data (hlength : memory.length = 256) (a : UInt8) :
    ∃ v, readMemory memory a .Data = .ok v := by
  have ha : a.toNat < memory.length := hlength ▸ a.toNat_lt
  exact ⟨memory[a.toNat], by simp [readMemory, Bytes.index_eq_ok.mpr (List.getElem?_eq_getElem ha),
    checked]⟩

/-- In a memory of 256 bytes an address is refused or read. -/
theorem readMemory_cases (hlength : memory.length = 256) (a : UInt8) :
    (∃ v, readMemory memory a .OpCode = .ok v) ∨
      ∃ message, readMemory memory a .OpCode = .error (.exit IllegalMemoryAccess message) := by
  by_cases hlow : a < AddrOpCodeStart
  · exact .inr ⟨_, by rw [readMemory, if_pos ⟨rfl, hlow⟩]⟩
  · obtain ⟨v, hv⟩ := exists_readMemory_data hlength a
    refine .inl ⟨v, ?_⟩
    rw [readMemory, if_neg (by simp)] at hv
    rw [readMemory, if_neg (by simp [hlow]), hv]

theorem writeMemory_cases (hlength : memory.length = 256) (a v : UInt8) :
    (∃ cells, writeMemory memory a v = .ok cells) ∨
      ∃ message, writeMemory memory a v = .error (.exit IllegalMemoryAccess message) := by
  by_cases ha : a ≠ AddrStoreLocation
  · exact .inr ⟨_, by rw [writeMemory, if_pos ha]⟩
  · have hlt : a.toNat < memory.length := hlength ▸ a.toNat_lt
    exact .inl ⟨_, by rw [writeMemory, if_neg ha, Bytes.setIndex_of_lt hlt, checked]⟩

theorem Registers.read_of_lt (registers : Registers) (h : register.toNat < 3) :
    registers.read register = .ok registers[register.toNat] :=
  dif_pos h

theorem Registers.write_of_lt (registers : Registers) (h : register.toNat < 3) (v : UInt8) :
    registers.write register v = .ok (registers.set register.toNat v) :=
  dif_pos h

theorem Registers.read_of_le (registers : Registers) (h : 3 ≤ register.toNat) :
    registers.read register = .error (.panic (.indexOutOfRange register.toNat 3)) :=
  dif_neg (Nat.not_lt.mpr h)

theorem Registers.write_of_le (registers : Registers) (h : 3 ≤ register.toNat) (v : UInt8) :
    registers.write register v = .error (.panic (.indexOutOfRange register.toNat 3)) :=
  dif_neg (Nat.not_lt.mpr h)

theorem fetchOperands_cases (hlength : memory.length = 256) (pc : UInt8)
    (instruction : UInt8 → UInt8 → Fetched) :
    (∃ i, fetchOperands memory pc instruction = .ok i) ∨
      ∃ message, fetchOperands memory pc instruction
        = .error (.exit IllegalMemoryAccess message) := by
  unfold fetchOperands
  rcases readMemory_cases hlength (pc + 1) with ⟨operand1, h1⟩ | ⟨message, h1⟩
  · rcases readMemory_cases hlength (pc + 2) with ⟨operand2, h2⟩ | ⟨message, h2⟩
    · exact .inl ⟨_, by rw [h1, ok_bind, h2, ok_bind]⟩
    · exact .inr ⟨_, by rw [h1, ok_bind, h2, error_bind]⟩
  · exact .inr ⟨_, by rw [h1, error_bind]⟩

theorem fetch_cases (hlength : memory.length = 256) (pc : UInt8) :
    (∃ i, fetch memory pc = .ok i) ∨
      ∃ message, fetch memory pc = .error (.exit IllegalMemoryAccess message) := by
  rcases readMemory_cases hlength pc with ⟨op, hop⟩ | ⟨message, hop⟩
  · refine fetch_induction (P := fun fetched => (∃ i, fetched = .ok i) ∨
      ∃ message, fetched = .error (.exit IllegalMemoryAccess message)) hop ?_ ?_ ?_ ?_
    · exact fun instruction _ => fetchOperands_cases hlength pc instruction
    · intro _
      rcases readMemory_cases hlength (pc + 1) with ⟨address, h1⟩ | ⟨message, h1⟩
      · exact .inl ⟨_, by rw [h1, ok_bind]⟩
      · exact .inr ⟨_, by rw [h1, error_bind]⟩
    · exact fun _ => .inl ⟨_, rfl⟩
    · exact .inl ⟨_, rfl⟩
  · exact .inr ⟨_, by rw [fetch, hop, error_bind]⟩

/-! ## Register operands above 2 -/

/-- With operands in range an instruction ends in a defined way. -/
theorem definedEnd_execute (hlength : s.memory.length = 256)
    (hrange : ∀ register ∈ i.registerOperands, register.toNat < 3) :
    DefinedEnd (i.execute s) := by
  cases i with
  | load register address =>
      have hregister := hrange register (List.mem_singleton_self _)
      obtain ⟨value, hvalue⟩ := exists_readMemory_data hlength address
      rw [Fetched.execute, hvalue, ok_bind, Registers.write_of_lt _ hregister, ok_bind]
      exact .again _
  | store register address =>
      have hregister := hrange register (List.mem_singleton_self _)
      rw [Fetched.execute, Registers.read_of_lt _ hregister, ok_bind]
      rcases writeMemory_cases hlength address s.registers[register.toNat] with
        ⟨cells, hcells⟩ | ⟨message, hcells⟩
      · rw [hcells, ok_bind]
        exact .again _
      · rw [hcells, error_bind]
        exact .illegalMemoryAccess _
  | add arg1 arg2 =>
      have harg1 := hrange arg1 List.mem_cons_self
      have harg2 := hrange arg2 (List.mem_cons_of_mem _ (List.mem_singleton_self _))
      rw [Fetched.execute, Registers.read_of_lt _ harg1, ok_bind, Registers.read_of_lt _ harg2,
        ok_bind, Registers.write_of_lt _ harg1, ok_bind]
      exact .again _
  | sub arg1 arg2 =>
      have harg1 := hrange arg1 List.mem_cons_self
      have harg2 := hrange arg2 (List.mem_cons_of_mem _ (List.mem_singleton_self _))
      rw [Fetched.execute, Registers.read_of_lt _ harg1, ok_bind, Registers.read_of_lt _ harg2,
        ok_bind, Registers.write_of_lt _ harg1, ok_bind]
      exact .again _
  | addi arg1 arg2 =>
      have harg1 := hrange arg1 (List.mem_singleton_self _)
      rw [Fetched.execute, Registers.read_of_lt _ harg1, ok_bind, Registers.write_of_lt _ harg1,
        ok_bind]
      exact .again _
  | subi arg1 arg2 =>
      have harg1 := hrange arg1 (List.mem_singleton_self _)
      rw [Fetched.execute, Registers.read_of_lt _ harg1, ok_bind, Registers.write_of_lt _ harg1,
        ok_bind]
      exact .again _
  | jump address => exact .again _
  | beqz register offset =>
      have hregister := hrange register (List.mem_singleton_self _)
      rw [Fetched.execute, Registers.read_of_lt _ hregister, ok_bind]
      split <;> exact .again _
  | halt => exact .stop _
  | illegal op => exact .illegalOpCode _

/-- The two operands of an addition or a subtraction. -/
theorem read_read_eq_panic {α : Type} {arg1 arg2 : UInt8} (registers : Registers)
    (hmem : register ∈ [arg1, arg2]) (hrange : 3 ≤ register.toNat)
    (f : UInt8 → UInt8 → Except Stop α) :
    ∃ p, (registers.read arg1 >>= fun value1 => registers.read arg2 >>= f value1)
      = .error (.panic p) := by
  by_cases harg1 : arg1.toNat < 3
  · have harg2 : register = arg2 := by
      rcases List.mem_pair.mp hmem with rfl | rfl
      · exact absurd harg1 (Nat.not_lt.mpr hrange)
      · rfl
    subst harg2
    exact ⟨_, by rw [Registers.read_of_lt _ harg1, ok_bind, Registers.read_of_le _ hrange,
      error_bind]⟩
  · exact ⟨_, by rw [Registers.read_of_le _ (Nat.not_lt.mp harg1), error_bind]⟩

/-- With an operand out of range it panics. -/
theorem execute_eq_panic (hlength : s.memory.length = 256) (hmem : register ∈ i.registerOperands)
    (hrange : 3 ≤ register.toNat) : ∃ p, i.execute s = .error (.panic p) := by
  cases i with
  | load r address =>
      obtain rfl := List.mem_singleton.mp hmem
      obtain ⟨value, hvalue⟩ := exists_readMemory_data hlength address
      exact ⟨_, by rw [Fetched.execute, hvalue, ok_bind, Registers.write_of_le _ hrange,
        error_bind]⟩
  | store r address =>
      obtain rfl := List.mem_singleton.mp hmem
      exact ⟨_, by rw [Fetched.execute, Registers.read_of_le _ hrange, error_bind]⟩
  | add arg1 arg2 => exact read_read_eq_panic s.registers hmem hrange _
  | sub arg1 arg2 => exact read_read_eq_panic s.registers hmem hrange _
  | addi arg1 arg2 =>
      obtain rfl := List.mem_singleton.mp hmem
      exact ⟨_, by rw [Fetched.execute, Registers.read_of_le _ hrange, error_bind]⟩
  | subi arg1 arg2 =>
      obtain rfl := List.mem_singleton.mp hmem
      exact ⟨_, by rw [Fetched.execute, Registers.read_of_le _ hrange, error_bind]⟩
  | jump address => cases hmem
  | beqz r offset =>
      obtain rfl := List.mem_singleton.mp hmem
      exact ⟨_, by rw [Fetched.execute, Registers.read_of_le _ hrange, error_bind]⟩
  | halt => cases hmem
  | illegal op => cases hmem

/-- A turn ends in a defined way exactly if the instruction at the program counter has its
register operands in range. -/
theorem definedEnd_computeTurn_iff (hlength : s.memory.length = 256) :
    DefinedEnd (computeTurn s) ↔
      ∀ i, fetch s.memory s.pc = .ok i → ∀ register ∈ i.registerOperands, register.toNat < 3 := by
  rw [computeTurn_eq_bind]
  rcases fetch_cases hlength s.pc with ⟨i, hi⟩ | ⟨message, hmessage⟩
  · rw [hi, ok_bind]
    constructor
    · intro hdefined j hj register hmem
      obtain rfl := Except.ok.inj hj
      by_contra hrange
      obtain ⟨p, hp⟩ := execute_eq_panic hlength hmem (Nat.not_lt.mp hrange)
      rw [hp] at hdefined
      cases hdefined
    · exact fun hrange => definedEnd_execute hlength (hrange i rfl)
  · rw [hmessage, error_bind]
    refine ⟨?_, fun _ => .illegalMemoryAccess _⟩
    intro _ i hi
    cases hi

/-- What a reached state and the initial image have in common. -/
theorem length_of_turns (hlength : memory.length = 256)
    (hrun : Turns computeTurn (initial memory) s) :
    s.memory.length = 256 ∧ fetch s.memory s.pc = fetch memory s.pc := by
  have hsame : SameImage memory s.memory := sameImage_of_turns hrun
  exact ⟨hsame.length.trans hlength, hsame.fetch_eq s.pc⟩

/-- **How the machine ends.**  Every turn of a run goes on, returns at `halt` or exits with
`IllegalMemoryAccess` or `IllegalOpCode`, exactly if no instruction of the image that the
run comes to has a register operand above 2. -/
theorem defined_iff_registerOperands (hlength : memory.length = 256) :
    (∀ s, Turns computeTurn (initial memory) s → DefinedEnd (computeTurn s) ∧
        ∀ final, computeTurn s = .ok (.stop final) → fetch s.memory s.pc = .ok .halt) ↔
      ∀ s, Turns computeTurn (initial memory) s → ∀ i, fetch memory s.pc = .ok i →
        ∀ register ∈ i.registerOperands, register.toNat < 3 := by
  constructor
  · intro hdefined s hrun
    obtain ⟨hlen, hfetch⟩ := length_of_turns hlength hrun
    rw [← hfetch]
    exact (definedEnd_computeTurn_iff hlen).mp (hdefined s hrun).1
  · intro hrange s hrun
    obtain ⟨hlen, hfetch⟩ := length_of_turns hlength hrun
    refine ⟨(definedEnd_computeTurn_iff hlen).mpr (hfetch ▸ hrange s hrun), ?_⟩
    intro final hstop
    rw [computeTurn_eq_bind] at hstop
    obtain ⟨i, hi, hexecute⟩ := bind_eq_ok hstop
    obtain ⟨rfl, -⟩ := execute_eq_stop hexecute
    exact hi

/-- A program that adds 3 to the first register, subtracts the second and halts. -/
def addThenHalt : Bytes :=
  List.replicate 8 0 ++ [Addi, 1, 3, Sub, 1, 2, Halt] ++ List.replicate 241 0

theorem length_addThenHalt : addThenHalt.length = 256 := by
  simp only [addThenHalt, List.length_append, List.length_replicate, List.length_cons,
    List.length_nil]

theorem defined_addThenHalt : DefinedEnd (computeTurn (initial addThenHalt)) ∧
    fetch addThenHalt 8 = .ok (.addi 1 3) := by
  have hstays : ∀ s, Turns computeTurn (initial addThenHalt) s →
      ∀ i, fetch addThenHalt s.pc = .ok i → ∀ register ∈ i.registerOperands, register.toNat < 3 := by
    intro s hrun i hi register hmem
    cases hrun with
    | refl _ =>
        obtain rfl : Fetched.addi 1 3 = i := Except.ok.inj hi
        rw [List.mem_singleton.mp hmem]
        decide
    | head hturn hrest =>
        cases hturn
        cases hrest with
        | refl _ =>
            obtain rfl : Fetched.sub 1 2 = i := Except.ok.inj hi
            rcases List.mem_pair.mp hmem with rfl | rfl <;> decide
        | head hturn hrest =>
            cases hturn
            cases hrest with
            | refl _ =>
                obtain rfl : Fetched.halt = i := Except.ok.inj hi
                cases hmem
            | head hturn _ => cases hturn
  have hdefined := (defined_iff_registerOperands length_addThenHalt).mpr hstays
    (initial addThenHalt) (.refl _)
  exact ⟨hdefined.1, rfl⟩

/-- A program that loads cell 0 into a fourth register. -/
def loadThree : Bytes := List.replicate 8 0 ++ [Load, 3, 0] ++ List.replicate 245 0

theorem length_loadThree : loadThree.length = 256 := by
  simp only [loadThree, List.length_append, List.length_replicate, List.length_cons,
    List.length_nil]

theorem not_defined_loadThree :
    ¬ ∀ memory : Bytes, memory.length = 256 → ∀ s, Turns computeTurn (initial memory) s →
      DefinedEnd (computeTurn s) := by
  intro h
  have hend := h loadThree length_loadThree _ (.refl _)
  have hpanic : computeTurn (initial loadThree) = .error (.panic (.indexOutOfRange 3 3)) := by rfl
  rw [hpanic] at hend
  cases hend

/-! ## Register operand 0 -/

/-- The opcodes behind which the program counter is advanced by `StandardOpCodeSize`. -/
def straightOpCodes : List UInt8 := [Load, Store, Add, Sub, Addi, Subi]

/-- An instruction that is no jump ends the run, or leaves the program counter three
further. -/
def Advances (s : State) : Prop :=
  ∀ op ∈ straightOpCodes, readMemory s.memory s.pc .OpCode = .ok op →
    (∃ stop, computeTurn s = .error stop) ∨
      ∃ s', computeTurn s = .ok (.again s') ∧ s'.pc = s.pc + StandardOpCodeSize

/-- The instruction has another destination than register 0, or puts there what it holds. -/
def Fetched.KeepsPc (s : State) : Fetched → Prop
  | .load register address =>
      register = 0 → ∀ value, readMemory s.memory address .Data = .ok value → value = s.pc
  | .add arg1 arg2 | .sub arg1 arg2 =>
      arg1 = 0 → ∀ value, s.registers.read arg2 = .ok value → value = 0
  | .addi arg1 arg2 | .subi arg1 arg2 => arg1 = 0 → arg2 = 0
  | .store _ _ | .jump _ | .beqz _ _ | .halt | .illegal _ => True

theorem State.pc_of_write {registers : Registers}
    (h : s.registers.write register v = .ok registers) :
    State.pc ⟨registers, memory⟩ = if register = 0 then v else s.pc := by
  unfold Registers.write at h
  split at h
  · obtain rfl := Except.ok.inj h
    have hzero : register.toNat = (0 : UInt8).toNat ↔ register = 0 := UInt8.toNat_inj
    rw [State.pc, Vector.getElem_set]
    exact if_congr hzero rfl rfl
  · cases h

@[simp] theorem State.pc_setPc (s : State) (address : UInt8) : (s.setPc address).pc = address :=
  Vector.getElem_set_self _

/-- Behind a written register the program counter is three further, unless that register
was the program counter. -/
theorem next_pc_of_write {registers : Registers}
    (h : s.registers.write register v = .ok registers) :
    (State.setPc ⟨registers, memory⟩ (State.pc ⟨registers, memory⟩ + StandardOpCodeSize)).pc
        = s.pc + StandardOpCodeSize ↔ (register = 0 → v = s.pc) := by
  rw [State.pc_setPc, UInt8.add_left_inj, State.pc_of_write h]
  by_cases hregister : register = 0
  · simp only [hregister, if_true, true_imp_iff]
  · simp only [hregister, if_false, false_imp_iff]

theorem sub_eq_left {a b : UInt8} : a - b = a ↔ b = 0 := by
  rw [UInt8.sub_eq_iff_eq_add, eq_comm, UInt8.add_eq_left]

/-- What `add` and `sub` do to register 0. -/
theorem keeps_two {f : UInt8 → UInt8 → UInt8} {arg1 arg2 value1 value2 : UInt8}
    (hf : ∀ v, f s.pc v = s.pc ↔ v = 0) (h1 : s.registers.read arg1 = .ok value1)
    (h2 : s.registers.read arg2 = .ok value2) :
    (arg1 = 0 → f value1 value2 = s.pc) ↔
      (arg1 = 0 → ∀ value, s.registers.read arg2 = .ok value → value = 0) := by
  constructor
  · rintro hkeep rfl value hvalue
    obtain rfl : s.pc = value1 := Except.ok.inj h1
    obtain rfl := Except.ok.inj (h2.symm.trans hvalue)
    exact (hf value2).mp (hkeep rfl)
  · rintro hkeep rfl
    obtain rfl : s.pc = value1 := Except.ok.inj h1
    exact (hf value2).mpr (hkeep rfl value2 h2)

/-- What `addi` and `subi` do to register 0. -/
theorem keeps_one {f : UInt8 → UInt8 → UInt8} {arg1 arg2 value1 : UInt8}
    (hf : f s.pc arg2 = s.pc ↔ arg2 = 0) (h1 : s.registers.read arg1 = .ok value1) :
    (arg1 = 0 → f value1 arg2 = s.pc) ↔ (arg1 = 0 → arg2 = 0) := by
  refine forall_congr' fun hzero => ?_
  subst hzero
  obtain rfl : s.pc = value1 := Except.ok.inj h1
  exact hf

/-- **One step** of the program counter. -/
theorem pc_of_execute {op : UInt8} (hcode : i.code.head? = some op) (hop : op ∈ straightOpCodes)
    (h : i.execute s = .ok (.again s')) :
    s'.pc = s.pc + StandardOpCodeSize ↔ i.KeepsPc s := by
  cases i with
  | load register address =>
      obtain ⟨value, hvalue, h⟩ := bind_eq_ok h
      obtain ⟨registers, hwrite, h⟩ := bind_eq_ok h
      cases h
      rw [next_pc_of_write hwrite]
      refine ⟨fun hkeep hregister w hw => ?_, fun hkeep hregister => hkeep hregister _ hvalue⟩
      obtain rfl := Except.ok.inj (hvalue.symm.trans hw)
      exact hkeep hregister
  | store register address =>
      obtain ⟨value, -, h⟩ := bind_eq_ok h
      obtain ⟨cells, -, h⟩ := bind_eq_ok h
      cases h
      exact iff_of_true (State.pc_setPc _ _) trivial
  | add arg1 arg2 =>
      obtain ⟨value1, h1, h⟩ := bind_eq_ok h
      obtain ⟨value2, h2, h⟩ := bind_eq_ok h
      obtain ⟨registers, hwrite, h⟩ := bind_eq_ok h
      cases h
      rw [next_pc_of_write hwrite]
      exact keeps_two (fun _ => UInt8.add_eq_left) h1 h2
  | sub arg1 arg2 =>
      obtain ⟨value1, h1, h⟩ := bind_eq_ok h
      obtain ⟨value2, h2, h⟩ := bind_eq_ok h
      obtain ⟨registers, hwrite, h⟩ := bind_eq_ok h
      cases h
      rw [next_pc_of_write hwrite]
      exact keeps_two (fun _ => sub_eq_left) h1 h2
  | addi arg1 arg2 =>
      obtain ⟨value1, h1, h⟩ := bind_eq_ok h
      obtain ⟨registers, hwrite, h⟩ := bind_eq_ok h
      cases h
      rw [next_pc_of_write hwrite]
      exact keeps_one UInt8.add_eq_left h1
  | subi arg1 arg2 =>
      obtain ⟨value1, h1, h⟩ := bind_eq_ok h
      obtain ⟨registers, hwrite, h⟩ := bind_eq_ok h
      cases h
      rw [next_pc_of_write hwrite]
      exact keeps_one sub_eq_left h1
  | jump address =>
      obtain rfl := Option.some.inj hcode
      exact absurd hop (by decide)
  | beqz register offset =>
      obtain rfl := Option.some.inj hcode
      exact absurd hop (by decide)
  | halt => cases h
  | illegal op => cases h

/-- An instruction that stops the run does so whatever it would write. -/
theorem keepsPc_of_error {stop : Stop} (h : i.execute s = .error stop) : i.KeepsPc s := by
  cases i with
  | load register address =>
      rintro rfl value hvalue
      rw [Fetched.execute, hvalue] at h
      cases h
  | add arg1 arg2 =>
      rintro rfl value hvalue
      rw [Fetched.execute, hvalue] at h
      cases h
  | sub arg1 arg2 =>
      rintro rfl value hvalue
      rw [Fetched.execute, hvalue] at h
      cases h
  | addi arg1 arg2 =>
      rintro rfl
      cases h
  | subi arg1 arg2 =>
      rintro rfl
      cases h
  | store register address => trivial
  | jump address => trivial
  | beqz register offset => trivial
  | halt => trivial
  | illegal op => trivial

/-- The opcode of a fetched instruction. -/
theorem opCode_of_fetch (h : fetch memory pc = .ok i) :
    ∃ op, i.code.head? = some op ∧ readMemory memory pc .OpCode = .ok op := by
  have hat := codeAt_of_fetch h
  cases hcode : i.code with
  | nil => cases i <;> cases hcode
  | cons op operands =>
      rw [hcode] at hat
      exact ⟨op, rfl, hat.1⟩

/-- What is neither one of the six opcodes nor stops the run has no say in this. -/
theorem keepsPc_of_opCode {op : UInt8} (hcode : i.code.head? = some op)
    (hop : op ∉ straightOpCodes) : i.KeepsPc s := by
  cases i with
  | store register address => trivial
  | jump address => trivial
  | beqz register offset => trivial
  | halt => trivial
  | illegal op => trivial
  | load register address =>
      obtain rfl := Option.some.inj hcode
      exact absurd (by decide) hop
  | add arg1 arg2 =>
      obtain rfl := Option.some.inj hcode
      exact absurd (by decide) hop
  | sub arg1 arg2 =>
      obtain rfl := Option.some.inj hcode
      exact absurd (by decide) hop
  | addi arg1 arg2 =>
      obtain rfl := Option.some.inj hcode
      exact absurd (by decide) hop
  | subi arg1 arg2 =>
      obtain rfl := Option.some.inj hcode
      exact absurd (by decide) hop

theorem advances_iff : Advances s ↔ ∀ i, fetch s.memory s.pc = .ok i → i.KeepsPc s := by
  constructor
  · intro hadvances i hi
    obtain ⟨op, hcode, hread⟩ := opCode_of_fetch hi
    by_cases hop : op ∈ straightOpCodes
    · have hturn : computeTurn s = i.execute s := by rw [computeTurn_eq_bind, hi, ok_bind]
      rcases hadvances op hop hread with ⟨stop, hstop⟩ | ⟨s', hagain, hpc⟩
      · exact keepsPc_of_error (hturn.symm.trans hstop)
      · exact (pc_of_execute hcode hop (hturn.symm.trans hagain)).mp hpc
    · exact keepsPc_of_opCode hcode hop
  · intro hkeeps op hop hread
    cases hturn : computeTurn s with
    | error stop => exact .inl ⟨stop, rfl⟩
    | ok t =>
        rw [computeTurn_eq_bind] at hturn
        obtain ⟨i, hi, hexecute⟩ := bind_eq_ok hturn
        obtain ⟨op', hcode, hread'⟩ := opCode_of_fetch hi
        obtain rfl := Except.ok.inj (hread.symm.trans hread')
        rcases execute_cases hexecute with ⟨rfl, -⟩ | ⟨s', rfl, -⟩
        · obtain rfl := Option.some.inj hcode
          exact absurd hop (by decide)
        · exact .inr ⟨s', rfl, (pc_of_execute hcode hop hexecute).mpr (hkeeps i hi)⟩

/-- **What moves the program counter.**  In every state that a run reaches, an instruction
that is neither `jump` nor `beqz` ends the run or leaves the program counter three further,
exactly if none that the run comes to puts another value into register 0. -/
theorem advances_iff_keepsPc :
    (∀ s, Turns computeTurn (initial memory) s → Advances s) ↔
      ∀ s, Turns computeTurn (initial memory) s → ∀ i, fetch memory s.pc = .ok i →
        i.KeepsPc s := by
  refine forall_congr' fun s => forall_congr' fun hrun => ?_
  have hsame : SameImage memory s.memory := sameImage_of_turns hrun
  rw [advances_iff, hsame.fetch_eq]

/-- A program that adds 5 to register 0. -/
def addToPc : Bytes := List.replicate 8 0 ++ [Addi, 0, 5] ++ List.replicate 245 0

theorem length_addToPc : addToPc.length = 256 := by
  simp only [addToPc, List.length_append, List.length_replicate, List.length_cons, List.length_nil]

/-- The byte that is fetched next is the one at address 16. -/
theorem not_advances_addToPc :
    ¬ ∀ memory : Bytes, memory.length = 256 → ∀ s, Turns computeTurn (initial memory) s →
      Advances s := by
  intro h
  have hturn : computeTurn (initial addToPc) = .ok (.again ⟨#v[16, 0, 0], addToPc⟩) := by rfl
  rcases h addToPc length_addToPc _ (.refl _) Addi (by decide) (by rfl) with
    ⟨stop, hstop⟩ | ⟨s', hagain, hpc⟩
  · cases hturn.symm.trans hstop
  · cases hturn.symm.trans hagain
    exact absurd hpc (by decide)

end Nyctomek.Vm
