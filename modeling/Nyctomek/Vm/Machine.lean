/-
# `Vm.Machine` — the machine that programs are written for

A `Machine` runs a list of instructions, each at its start address, without
fetching or decoding anything; on an address where no instruction starts its
behaviour is undefined.

    load       any byte of the image
    store      to address 0, otherwise an error stop
    jump       to an absolute address
    beqz       by an offset from the address of the instruction that follows

`compute` on the image that `assemble` makes goes through the same states.
-/
import Nyctomek.Vm.Assembler

namespace Nyctomek.Vm

open Prog

def Instr.size (i : Instr) : Nat := i.encode.length

/-- Instructions with their start addresses, the first at `address`. -/
def listing : Nat → List Instr → List (Nat × Instr)
  | _, [] => []
  | address, i :: is => (address, i) :: listing (address + i.size) is

/-- The memory: the data, the code from `AddrOpCodeStart` on, and zeros. -/
def image (code : Bytes) (data : Vector UInt8 8) : Bytes :=
  data.toList ++ code ++ List.replicate (248 - code.length) 0

structure Machine where
  pc : UInt8
  r1 : UInt8
  r2 : UInt8
  data : Vector UInt8 8
  deriving DecidableEq, Repr

namespace Machine

def get (m : Machine) : Reg → UInt8
  | .r1 => m.r1
  | .r2 => m.r2

def put (m : Machine) (v : UInt8) : Reg → Machine
  | .r1 => { m with r1 := v }
  | .r2 => { m with r2 := v }

/-- `data[0] = v`. -/
def store (m : Machine) (v : UInt8) : Machine :=
  { m with data := m.data.set 0 v (Nat.succ_pos 7) }

/-- Past an instruction. -/
def next (m : Machine) (i : Instr) : Machine := { m with pc := m.pc + UInt8.ofNat i.size }

end Machine

/-- What a number of steps comes to. -/
inductive Outcome where
  | running (m : Machine)
  | halted (m : Machine)
  | stopped (m : Machine) (address : UInt8)
  deriving DecidableEq, Repr

/-- What an instruction does. -/
def execute (program : List Instr) (m : Machine) : Instr → Outcome
  | .load r address =>
      let value := (image (machineCode program) m.data).getD address.toNat 0
      .running ((m.put value r).next (.load r address))
  | .store r address =>
      if address = 0 then .running ((m.store (m.get r)).next (.store r address))
      else .stopped m address
  | .add r s => .running ((m.put (m.get r + m.get s) r).next (.add r s))
  | .sub r s => .running ((m.put (m.get r - m.get s) r).next (.sub r s))
  | .addi r value => .running ((m.put (m.get r + value) r).next (.addi r value))
  | .subi r value => .running ((m.put (m.get r - value) r).next (.subi r value))
  | .jump address => .running { m with pc := address }
  | .beqz r offset =>
      let m' := m.next (.beqz r offset)
      if m.get r = 0 then .running { m' with pc := m'.pc + offset } else .running m'
  | .halt => .halted m

/-- The instruction that starts at the machine's address is executed. -/
def step (program : List Instr) (m : Machine) : Option Outcome :=
  ((listing 8 program).lookup m.pc.toNat).map (execute program m)

/-- `n` steps, unless the machine comes to an end before; `none` if it leaves the
start addresses. -/
def run (program : List Instr) : Nat → Machine → Option Outcome
  | 0, m => some (.running m)
  | n + 1, m =>
      match step program m with
      | some (.running m') => run program n m'
      | o => o

/-- Registers zero, at the first instruction. -/
def start (data : Vector UInt8 8) : Machine := ⟨8, 0, 0, data⟩

/-! ## The image -/

variable {program : List Instr} {i : Instr} {code : Bytes} {data : Vector UInt8 8}

theorem length_image (hfits : code.length ≤ 248) : (image code data).length = 256 := by
  simp only [image, List.length_append, Vector.length_toList, List.length_replicate]
  omega

/-- The code of an instruction stands at its start address. -/
theorem at_of_mem_listing {pre : Bytes} {a : Nat} (h : (a, i) ∈ listing pre.length program)
    (suf : Bytes) :
    Bytes.At (pre ++ (machineCode program ++ suf)) a i.encode ∧
      pre.length ≤ a ∧ a + i.size ≤ pre.length + (machineCode program).length := by
  induction program generalizing pre with
  | nil => simp [listing] at h
  | cons j is ih =>
      have hcode : machineCode (j :: is) = j.encode ++ machineCode is := by simp [machineCode]
      have hlen : (pre ++ j.encode).length = pre.length + j.size := by
        simp [Instr.size]
      simp only [listing, List.mem_cons, Prod.mk.injEq] at h
      rw [hcode, List.length_append, ← Instr.size]
      rcases h with ⟨rfl, rfl⟩ | h
      · refine ⟨?_, Nat.le_refl _, by omega⟩
        rw [List.append_assoc]
        exact Bytes.at_middle _ _ _
      · rw [← hlen] at h
        obtain ⟨hat, hlow, hhigh⟩ := ih h
        rw [hlen] at hlow hhigh
        refine ⟨?_, by omega, by omega⟩
        simpa only [List.append_assoc] using hat

/-- An instruction that starts at the address `a` has its code there, all of it
behind the data. -/
structure Placed (memory : Bytes) (a : UInt8) (i : Instr) : Prop where
  code : memory.At a.toNat i.encode
  low : 8 ≤ a.toNat
  high : a.toNat + i.size ≤ 256

theorem placed_of_lookup {a : UInt8} (data : Vector UInt8 8) (hfits : (machineCode program).length ≤ 248)
    (h : (listing 8 program).lookup a.toNat = some i) :
    Placed (image (machineCode program) data) a i := by
  obtain ⟨before, behind, hlist, -⟩ := List.lookup_eq_some_iff.mp h
  have hmem : (a.toNat, i) ∈ listing data.toList.length program := by
    rw [Vector.length_toList, hlist]
    simp
  obtain ⟨hat, hlow, hhigh⟩ := at_of_mem_listing hmem
    (List.replicate (248 - (machineCode program).length) 0)
  rw [Vector.length_toList] at hlow hhigh
  refine ⟨?_, hlow, by omega⟩
  rw [image, List.append_assoc]
  exact hat

/-! ## One turn -/

theorem readMemory_opCode {memory : Bytes} {a v : UInt8} (h : memory[a.toNat]? = some v)
    (hlow : 8 ≤ a.toNat) : readMemory memory a .OpCode = .ok v := by
  have hcode : ¬ a < AddrOpCodeStart := UInt8.not_lt.mpr (UInt8.le_iff_toNat_le.mpr hlow)
  simp [readMemory, hcode, Bytes.index_eq_ok.mpr h, checked]

namespace Placed
variable {memory : Bytes} {a op x y : UInt8} {ops : Bytes}

/-- A byte of an instruction is read where it stands. -/
theorem byte {k v : UInt8} (h : Placed memory a i) (hv : i.encode[k.toNat]? = some v) :
    readMemory memory (a + k) .OpCode = .ok v := by
  have hlow := h.low
  have hhigh := h.high
  obtain ⟨hk, -⟩ := List.getElem?_eq_some_iff.mp hv
  rw [Instr.size] at hhigh
  have ha : (a + k).toNat = a.toNat + k.toNat := by
    rw [UInt8.toNat_add]
    omega
  refine readMemory_opCode ?_ (by omega)
  rw [ha]
  exact h.code.getElem? hv

theorem first (h : Placed memory a i) (he : i.encode = op :: ops) :
    readMemory memory a .OpCode = .ok op := by
  have hread := h.byte (k := 0) (congrArg (·[0]?) he)
  rwa [UInt8.add_zero] at hread

theorem second (h : Placed memory a i) (he : i.encode = op :: x :: ops) :
    readMemory memory (a + 1) .OpCode = .ok x :=
  h.byte (congrArg (·[1]?) he)

theorem third (h : Placed memory a i) (he : i.encode = op :: x :: y :: ops) :
    readMemory memory (a + 2) .OpCode = .ok y :=
  h.byte (congrArg (·[2]?) he)

end Placed

/-- The registers of `compute` that belong to a machine. -/
def Machine.registers (m : Machine) : Registers := #v[m.pc, m.r1, m.r2]

/-- The state of `compute` that belongs to a machine. -/
def Machine.state (code : Bytes) (m : Machine) : State := ⟨m.registers, image code m.data⟩

/-- How `compute` is to come out. -/
def Outcome.concrete (code : Bytes) : Outcome → Except Stop (Turn State Bytes)
  | .running m => .ok (.again (m.state code))
  | .halted m => .ok (.stop (image code m.data))
  | .stopped _ address =>
      .error (.exit IllegalMemoryAccess ("Invalid address " ++ toString address ++ " for write.\n"))

theorem read_registers (m : Machine) (r : Reg) : m.registers.read r.code = .ok (m.get r) := by
  cases r <;> rfl

theorem write_registers (m : Machine) (r : Reg) (v : UInt8) :
    m.registers.write r.code v = .ok (m.put v r).registers := by
  cases r <;> rfl

@[simp] theorem Machine.data_put (m : Machine) (r : Reg) (v : UInt8) :
    (m.put v r).data = m.data := by
  cases r <;> rfl

/-- The common increment of the program counter. -/
theorem advance_state {m : Machine} {memory : Bytes} (hi : i.size = 3)
    (hmemory : memory = image code m.data) :
    State.advance ⟨m.registers, memory⟩ = .again ((m.next i).state code) := by
  subst hmemory
  simp only [State.advance, Machine.next, hi]
  rfl

/-- Loading reads one of the 256 bytes. -/
theorem readMemory_data (hfits : code.length ≤ 248) (address : UInt8) :
    readMemory (image code data) address .Data = .ok ((image code data).getD address.toNat 0) := by
  have hlt : address.toNat < (image code data).length := by
    rw [length_image hfits]
    exact address.toNat_lt
  have hget : (image code data)[address.toNat]? = some ((image code data).getD address.toNat 0) := by
    simp [hlt]
  simp [readMemory, Bytes.index_eq_ok.mpr hget, checked]

/-- A store changes a data byte. -/
theorem writeMemory_store (v : UInt8) :
    writeMemory (image code data) 0 v = .ok (image code (data.set 0 v (Nat.succ_pos 7))) := by
  have hlt : 0 < (image code data).length := by
    rw [image, List.length_append, List.length_append, Vector.length_toList]
    omega
  have hset : (image code data).set 0 v = image code (data.set 0 v (Nat.succ_pos 7)) := by
    simp [image, Vector.toList_set]
  have hzero : (0 : UInt8).toNat = 0 := rfl
  rw [writeMemory, if_neg (by simp [AddrStoreLocation]), hzero, Bytes.setIndex_of_lt hlt, hset,
    checked]

/-- **One step.**  A turn of `compute` does what the instruction does. -/
theorem computeTurn_eq {m : Machine} (hfits : (machineCode program).length ≤ 248)
    (hi : (listing 8 program).lookup m.pc.toNat = some i) :
    computeTurn (m.state (machineCode program))
      = (execute program m i).concrete (machineCode program) := by
  have hp := placed_of_lookup m.data hfits hi
  have hpc : (m.state (machineCode program)).pc = m.pc := rfl
  unfold computeTurn
  rw [hpc]
  simp only [Machine.state] at *
  cases i with
  | load r address =>
      simp only [hp.first rfl, hp.second rfl, hp.third rfl, ok_bind, readMemory_data hfits,
        write_registers, if_true]
      exact congrArg Except.ok (advance_state rfl (by simp))
  | store r address =>
      simp +decide only [hp.first rfl, hp.second rfl, hp.third rfl, ok_bind, read_registers,
        execute, if_true, if_false]
      by_cases haddress : address = 0
      · subst haddress
        simp only [writeMemory_store, ok_bind, if_true]
        exact congrArg Except.ok (advance_state (m := m.store (m.get r)) rfl rfl)
      · simp only [writeMemory, AddrStoreLocation, ne_eq, haddress, not_false_eq_true, if_true,
          if_false]
        rfl
  | add r s =>
      simp +decide only [hp.first rfl, hp.second rfl, hp.third rfl, ok_bind, read_registers,
        write_registers, if_true, if_false]
      exact congrArg Except.ok (advance_state rfl (by simp))
  | sub r s =>
      simp +decide only [hp.first rfl, hp.second rfl, hp.third rfl, ok_bind, read_registers,
        write_registers, if_true, if_false]
      exact congrArg Except.ok (advance_state rfl (by simp))
  | addi r v =>
      simp +decide only [hp.first rfl, hp.second rfl, hp.third rfl, ok_bind, read_registers,
        write_registers, if_true, if_false]
      exact congrArg Except.ok (advance_state rfl (by simp))
  | subi r v =>
      simp +decide only [hp.first rfl, hp.second rfl, hp.third rfl, ok_bind, read_registers,
        write_registers, if_true, if_false]
      exact congrArg Except.ok (advance_state rfl (by simp))
  | jump address =>
      simp +decide only [hp.first rfl, hp.second rfl, ok_bind, if_true, if_false]
      rfl
  | beqz r offset =>
      simp +decide only [hp.first rfl, hp.second rfl, hp.third rfl, ok_bind, read_registers,
        execute, if_true, if_false]
      by_cases hzero : m.get r = 0
      · simp only [hzero, if_true]
        have hnext : { m with pc := m.pc + offset }.next (.beqz r offset)
            = { m.next (.beqz r offset) with pc := (m.next (.beqz r offset)).pc + offset } := by
          simp only [Machine.next, Machine.mk.injEq, and_true]
          ac_rfl
        rw [← hnext]
        exact congrArg Except.ok (advance_state (m := { m with pc := m.pc + offset }) rfl rfl)
      · simp only [hzero, if_false]
        exact congrArg Except.ok (advance_state rfl rfl)
  | halt =>
      simp +decide only [hp.first rfl, ok_bind, if_true, if_false]
      rfl

/-! ## Runs -/

/-- **The machine and `compute`** are at the same place after the same number of steps. -/
theorem after_eq (hfits : (machineCode program).length ≤ 248) {n : Nat} {m : Machine} {o : Outcome}
    (hrun : run program n m = some o) :
    after computeTurn n (m.state (machineCode program)) = o.concrete (machineCode program) := by
  induction n generalizing m with
  | zero =>
      obtain rfl := Option.some.inj hrun
      rfl
  | succ n ih =>
      simp only [run, step] at hrun
      cases hi : (listing 8 program).lookup m.pc.toNat with
      | none => simp [hi] at hrun
      | some i =>
          have hturn := computeTurn_eq hfits hi
          rw [hi, Option.map_some] at hrun
          rw [after, hturn]
          cases ho : execute program m i with
          | running m' =>
              rw [ho] at hrun
              exact ih hrun
          | halted m' =>
              rw [ho] at hrun
              obtain rfl := Option.some.inj hrun
              rfl
          | stopped m' address =>
              rw [ho] at hrun
              obtain rfl := Option.some.inj hrun
              rfl

/-- **The virtual machine executes what the assembler wrote.**  As long as the machine
stays on start addresses, `compute` is in the same state after the same number of
steps, and has returned exactly if the machine has halted. -/
theorem compute_executes {asm : Text} (hasm : Lists asm program) (hcode : assemble asm = .ok code)
    (hfits : code.length ≤ 248) (data : Vector UInt8 8) {n : Nat} {o : Outcome}
    (hrun : run program n (start data) = some o) :
    after computeTurn n (initial (image code data)) = o.concrete code ∧
      ((∃ memory, compute n (image code data) = done (.ok memory)) ↔ ∃ m, o = .halted m) := by
  obtain rfl := Except.ok.inj ((assemble_eq hasm).symm.trans hcode)
  have hafter : after computeTurn n (initial (image (machineCode program) data))
      = o.concrete (machineCode program) := after_eq (m := start data) hfits hrun
  refine ⟨hafter, ?_⟩
  rw [compute, loop_eq_after, hafter]
  cases o with
  | running m =>
      refine ⟨fun ⟨_, hend⟩ => absurd hend (noFuel_ne_done _), ?_⟩
      rintro ⟨_, hm⟩
      cases hm
  | halted m => exact ⟨fun _ => ⟨m, rfl⟩, fun _ => ⟨_, rfl⟩⟩
  | stopped m address =>
      refine ⟨fun ⟨_, hend⟩ => absurd (done_inj hend) (by simp), ?_⟩
      rintro ⟨_, hm⟩
      cases hm

/-- A branch over a store. -/
theorem compute_executes_branch :
    after computeTurn 3 (initial (image
        [0x01, 1, 1, 0x08, 1, 3, 0x02, 1, 0, 0xff] #v[7, 0, 0, 0, 0, 0, 0, 0]))
      = .ok (.stop (image
        [0x01, 1, 1, 0x08, 1, 3, 0x02, 1, 0, 0xff] #v[7, 0, 0, 0, 0, 0, 0, 0])) := by
  have hne : [Instr.load .r1 1, .beqz .r1 3, .store .r1 0, .halt] ≠ [] := by simp
  exact (compute_executes (lists_programText hne) (assemble_eq (lists_programText hne)) (by decide)
    #v[7, 0, 0, 0, 0, 0, 0, 0] (o := .halted ⟨17, 0, 0, #v[7, 0, 0, 0, 0, 0, 0, 0]⟩)
    (by decide)).1

end Nyctomek.Vm
