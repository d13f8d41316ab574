/-
# `Vm.Basic` — the virtual machine of `vm.go`

`compute` fetches, decodes and executes until it returns.  Its program counter is
register 0 of the array that the two data registers live in; all arithmetic is on
bytes and wraps.  One turn of its `for` loop is `computeTurn`.

    exit(-1)     an opcode or operand fetched below address 8, a store beyond address 0
    exit(-2)     an opcode that is none
    panic        a register operand above 2, a memory shorter than an address
-/
import Nyctomek.Prog.GoSlice
import Nyctomek.Prog.Loop

namespace Nyctomek.Vm

open Prog

def Load : UInt8 := 0x01
def Store : UInt8 := 0x02
def Add : UInt8 := 0x03
def Sub : UInt8 := 0x04
def Halt : UInt8 := 0xff
def Addi : UInt8 := 0x05
def Subi : UInt8 := 0x06
def Jump : UInt8 := 0x07
def Beqz : UInt8 := 0x08

def AddrStoreLocation : UInt8 := 0
def AddrOpCodeStart : UInt8 := 8

/-- The standard encoding size, by which the program counter advances. -/
def StandardOpCodeSize : UInt8 := 3

def IllegalMemoryAccess : Int := -1
def IllegalOpCode : Int := -2

/-- Type of read operation. -/
inductive AccessType where
  | Data
  | OpCode
  deriving DecidableEq, Repr

/-- How a run ends without returning. -/
inductive Stop where
  | exit (code : Int) (message : String)
  | panic (p : Panic)
  deriving DecidableEq, Repr

/-- A slice access whose panic ends the run. -/
def checked {α : Type} (access : Except Panic α) : Except Stop α :=
  match access with
  | .ok v => .ok v
  | .error p => .error (.panic p)

def readMemory (memory : Bytes) (address : UInt8) (accessType : AccessType) : Except Stop UInt8 :=
  if accessType = .OpCode ∧ address < AddrOpCodeStart then
    .error (.exit IllegalMemoryAccess
      ("Invalid address " ++ toString address ++ " for Opcode access.\n"))
  else checked (memory.index address.toNat)

def writeMemory (memory : Bytes) (address value : UInt8) : Except Stop Bytes :=
  if address ≠ AddrStoreLocation then
    .error (.exit IllegalMemoryAccess ("Invalid address " ++ toString address ++ " for write.\n"))
  else checked (memory.setIndex address.toNat value)

/-- PC, R1 and R2. -/
abbrev Registers := Vector UInt8 3

/-- `registers[register]`. -/
def Registers.read (registers : Registers) (register : UInt8) : Except Stop UInt8 :=
  if h : register.toNat < 3 then .ok registers[register.toNat]
  else .error (.panic (.indexOutOfRange register.toNat 3))

/-- `registers[register] = value`. -/
def Registers.write (registers : Registers) (register value : UInt8) : Except Stop Registers :=
  if h : register.toNat < 3 then .ok (registers.set register.toNat value)
  else .error (.panic (.indexOutOfRange register.toNat 3))

structure State where
  registers : Registers
  memory : Bytes
  deriving DecidableEq, Repr

/-- `registers[0]`. -/
def State.pc (s : State) : UInt8 := s.registers[0]

def State.setPc (s : State) (address : UInt8) : State :=
  { s with registers := s.registers.set 0 address }

/-- `registers[0] += StandardOpCodeSize`, and round again. -/
def State.advance (s : State) : Turn State Bytes := .again (s.setPc (s.pc + StandardOpCodeSize))

/-- One turn of `compute`. -/
def computeTurn (s : State) : Except Stop (Turn State Bytes) := do
  let pc := s.pc
  let op ← readMemory s.memory pc .OpCode
  if op = Load then
    let register ← readMemory s.memory (pc + 1) .OpCode
    let address ← readMemory s.memory (pc + 2) .OpCode
    let value ← readMemory s.memory address .Data
    let registers ← s.registers.write register value
    .ok (State.advance { s with registers })
  else if op = Store then
    let register ← readMemory s.memory (pc + 1) .OpCode
    let address ← readMemory s.memory (pc + 2) .OpCode
    let value ← s.registers.read register
    let memory ← writeMemory s.memory address value
    .ok (State.advance { s with memory })
  else if op = Add then
    let arg1 ← readMemory s.memory (pc + 1) .OpCode
    let arg2 ← readMemory s.memory (pc + 2) .OpCode
    let value1 ← s.registers.read arg1
    let value2 ← s.registers.read arg2
    let registers ← s.registers.write arg1 (value1 + value2)
    .ok (State.advance { s with registers })
  else if op = Sub then
    let arg1 ← readMemory s.memory (pc + 1) .OpCode
    let arg2 ← readMemory s.memory (pc + 2) .OpCode
    let value1 ← s.registers.read arg1
    let value2 ← s.registers.read arg2
    let registers ← s.registers.write arg1 (value1 - value2)
    .ok (State.advance { s with registers })
  else if op = Addi then
    let arg1 ← readMemory s.memory (pc + 1) .OpCode
    let arg2 ← readMemory s.memory (pc + 2) .OpCode
    let value1 ← s.registers.read arg1
    let registers ← s.registers.write arg1 (value1 + arg2)
    .ok (State.advance { s with registers })
  else if op = Subi then
    let arg1 ← readMemory s.memory (pc + 1) .OpCode
    let arg2 ← readMemory s.memory (pc + 2) .OpCode
    let value1 ← s.registers.read arg1
    let registers ← s.registers.write arg1 (value1 - arg2)
    .ok (State.advance { s with registers })
  else if op = Jump then
    let address ← readMemory s.memory (pc + 1) .OpCode
    -- `continue`: the program counter is not advanced
    .ok (.again (s.setPc address))
  else if op = Beqz then
    let register ← readMemory s.memory (pc + 1) .OpCode
    let offset ← readMemory s.memory (pc + 2) .OpCode
    let value ← s.registers.read register
    if value = 0 then .ok (State.advance (s.setPc (pc + offset))) else .ok (State.advance s)
  else if op = Halt then .ok (.stop s.memory)
  else .error (.exit IllegalOpCode ("Illegal opcode: " ++ toString op ++ ".\n"))

/-- `registers := [3]byte{8, 0, 0}`. -/
def initial (memory : Bytes) : State := ⟨#v[8, 0, 0], memory⟩

/-- `compute`: the memory it leaves. -/
def compute (fuel : Nat) (memory : Bytes) : Exec Stop Bytes :=
  loop computeTurn fuel (initial memory)

end Nyctomek.Vm
