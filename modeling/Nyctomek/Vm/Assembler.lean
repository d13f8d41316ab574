/-
# `Vm.Assembler` — the assembler of `vm_test.go`

`assemble` goes through the lines of a text, each a mnemonic and its operands with
a single space between them, and appends their codes.  `Lists asm program` says
that the text consists of the instructions of `program`, one a line.

    load store addi subi beqz     mnemonic  register  number      three bytes
    add sub                       mnemonic  register  register    three bytes
    jump                          mnemonic  number                two bytes
    halt                          mnemonic                        one byte
-/
import Mathlib.Data.List.Forall2
import Mathlib.Algebra.Ring.Int.Defs
import Nyctomek.Prog.Decimal
import Nyctomek.Vm.Basic

namespace Nyctomek.Vm

open Prog

abbrev Text := List Char

/-! ## `strings` -/

/-- `unicode.IsSpace`. -/
def isSpace (c : Char) : Bool :=
  [0x09, 0x0A, 0x0B, 0x0C, 0x0D, 0x20, 0x85, 0xA0, 0x1680, 0x2028, 0x2029, 0x202F, 0x205F,
    0x3000].contains c.toNat || (0x2000 ≤ c.toNat && c.toNat ≤ 0x200A)

/-- `strings.TrimSpace`. -/
def trimSpace (s : Text) : Text := ((s.dropWhile isSpace).reverse.dropWhile isSpace).reverse

/-- The bytes of a text. -/
def utf8 (s : Text) : Bytes := s.flatMap String.utf8EncodeChar

/-! ## `assemble` -/

/-- What the assembler panics with. -/
inductive AsmPanic where
  | index (p : Panic)
  | number (err : NumError)
  | message (text : Text)
  deriving DecidableEq, Repr

/-- `parts[i]`. -/
def part (parts : List Text) (i : Nat) : Except AsmPanic Text :=
  match parts[i]? with
  | some s => .ok s
  | none => .error (.index (.indexOutOfRange i parts.length))

/-- `reg`: the zero value for a name that is not in the map. -/
def reg (s : Text) : UInt8 :=
  if s = "r1".toList then 0x01 else if s = "r2".toList then 0x02 else 0

def mem (s : Text) : Except AsmPanic UInt8 :=
  match atoi (utf8 s) with
  | (i, none) => .ok (UInt8.ofInt i.toInt)
  | (_, some err) => .error (.number err)

def imm (s : Text) : Except AsmPanic UInt8 := mem s

/-- The code of one line. -/
def assembleLine (line : Text) : Except AsmPanic Bytes := do
  let parts := (trimSpace line).splitOn ' '
  let op ← part parts 0
  if op = "load".toList then
    let register ← part parts 1
    let address ← part parts 2
    let address ← mem address
    .ok [0x01, reg register, address]
  else if op = "store".toList then
    let register ← part parts 1
    let address ← part parts 2
    let address ← mem address
    .ok [0x02, reg register, address]
  else if op = "add".toList then
    let arg1 ← part parts 1
    let arg2 ← part parts 2
    .ok [0x03, reg arg1, reg arg2]
  else if op = "sub".toList then
    let arg1 ← part parts 1
    let arg2 ← part parts 2
    .ok [0x04, reg arg1, reg arg2]
  else if op = "addi".toList then
    let register ← part parts 1
    let value ← part parts 2
    let value ← imm value
    .ok [0x05, reg register, value]
  else if op = "subi".toList then
    let register ← part parts 1
    let value ← part parts 2
    let value ← imm value
    .ok [0x06, reg register, value]
  else if op = "jump".toList then
    let address ← part parts 1
    let address ← imm address
    .ok [0x07, address]
  else if op = "beqz".toList then
    let register ← part parts 1
    let offset ← part parts 2
    let offset ← imm offset
    .ok [0x08, reg register, offset]
  else if op = "halt".toList then .ok [0xff]
  else .error (.message ("Invalid operation: ".toList ++ op))

def assemble (asm : Text) : Except AsmPanic Bytes :=
  ((trimSpace asm).splitOn '\n').foldlM (fun mc line => do
    let code ← assembleLine line
    .ok (mc ++ code)) []

/-! ## Instructions -/

/-- The data registers. -/
inductive Reg where
  | r1
  | r2
  deriving DecidableEq, Repr

def Reg.name : Reg → Text
  | .r1 => "r1".toList
  | .r2 => "r2".toList

def Reg.code : Reg → UInt8
  | .r1 => 1
  | .r2 => 2

inductive Instr where
  | load (r : Reg) (address : UInt8)
  | store (r : Reg) (address : UInt8)
  | add (r s : Reg)
  | sub (r s : Reg)
  | addi (r : Reg) (value : UInt8)
  | subi (r : Reg) (value : UInt8)
  | jump (address : UInt8)
  | beqz (r : Reg) (offset : UInt8)
  | halt
  deriving DecidableEq, Repr

namespace Instr

def encode : Instr → Bytes
  | load r address => [Load, r.code, address]
  | store r address => [Store, r.code, address]
  | add r s => [Add, r.code, s.code]
  | sub r s => [Sub, r.code, s.code]
  | addi r value => [Addi, r.code, value]
  | subi r value => [Subi, r.code, value]
  | jump address => [Jump, address]
  | beqz r offset => [Beqz, r.code, offset]
  | halt => [Halt]

/-- The text `s` is a number of one byte. -/
def Operand (s : Text) (v : UInt8) : Prop := decimal (utf8 s) = some (v.toNat : Int)

/-- The words of a line are an instruction. -/
inductive Writes : List Text → Instr → Prop
  | load {s v} (r : Reg) : Operand s v → Writes ["load".toList, r.name, s] (load r v)
  | store {s v} (r : Reg) : Operand s v → Writes ["store".toList, r.name, s] (store r v)
  | add (r s : Reg) : Writes ["add".toList, r.name, s.name] (add r s)
  | sub (r s : Reg) : Writes ["sub".toList, r.name, s.name] (sub r s)
  | addi {s v} (r : Reg) : Operand s v → Writes ["addi".toList, r.name, s] (addi r v)
  | subi {s v} (r : Reg) : Operand s v → Writes ["subi".toList, r.name, s] (subi r v)
  | jump {s v} : Operand s v → Writes ["jump".toList, s] (jump v)
  | beqz {s v} (r : Reg) : Operand s v → Writes ["beqz".toList, r.name, s] (beqz r v)
  | halt : Writes ["halt".toList] halt

end Instr

/-- The lines of the text are the instructions of the program. -/
def Lists (asm : Text) (program : List Instr) : Prop :=
  List.Forall₂ (fun line i => Instr.Writes ((trimSpace line).splitOn ' ') i)
    ((trimSpace asm).splitOn '\n') program

/-- The machine code of a program. -/
def machineCode (program : List Instr) : Bytes := program.flatMap Instr.encode

theorem reg_name (r : Reg) : reg r.name = r.code := by
  cases r <;> rfl

theorem mem_eq {s : Text} {v : UInt8} (h : Instr.Operand s v) : mem s = .ok v := by
  have hlt : v.toNat < 256 := v.toNat_lt
  have hmod : ((v.toNat : Int) % 2 ^ 8).toNat = v.toNat := by omega
  have hv : UInt8.ofInt (v.toNat : Int) = v := by rw [UInt8.ofInt, hmod, UInt8.ofNat_toNat]
  have hlow : Int64.minValue.toInt ≤ (v.toNat : Int) := Int.le_trans (by decide) (Int.natCast_nonneg _)
  have hhigh : (v.toNat : Int) ≤ Int64.maxValue.toInt :=
    Int.le_trans (Int.ofNat_le.mpr (Nat.le_of_lt_succ hlt)) (by decide)
  have hatoi : atoi (utf8 s) = (Int64.ofIntClamp v.toNat, none) := by
    rw [atoi, show decimal (utf8 s) = _ from h]
    simp only [if_pos (And.intro hlow hhigh)]
  rw [mem, hatoi]
  simp only [Int64.toInt_ofIntClamp hlow hhigh, hv]

theorem assembleLine_eq {line : Text} {i : Instr}
    (h : Instr.Writes ((trimSpace line).splitOn ' ') i) : assembleLine line = .ok i.encode := by
  unfold assembleLine
  generalize (trimSpace line).splitOn ' ' = parts at h
  cases h with
  | load r hs => simp [part, bind, Except.bind, mem_eq hs, reg_name, Instr.encode, Load]
  | store r hs => simp [part, bind, Except.bind, mem_eq hs, reg_name, Instr.encode, Store]
  | add r s => simp [part, bind, Except.bind, reg_name, Instr.encode, Add]
  | sub r s => simp [part, bind, Except.bind, reg_name, Instr.encode, Sub]
  | addi r hs => simp [part, bind, Except.bind, imm, mem_eq hs, reg_name, Instr.encode, Addi]
  | subi r hs => simp [part, bind, Except.bind, imm, mem_eq hs, reg_name, Instr.encode, Subi]
  | jump hs => simp [part, bind, Except.bind, imm, mem_eq hs, Instr.encode, Jump]
  | beqz r hs => simp [part, bind, Except.bind, imm, mem_eq hs, reg_name, Instr.encode, Beqz]
  | halt => simp [part, bind, Except.bind, Instr.encode, Halt]

/-- **The assembler** writes the codes of the instructions one behind the other. -/
theorem assemble_eq {asm : Text} {program : List Instr} (h : Lists asm program) :
    assemble asm = .ok (machineCode program) := by
  have hlines : ∀ (lines : List Text) (program : List Instr) (mc : Bytes),
      List.Forall₂ (fun line i => Instr.Writes ((trimSpace line).splitOn ' ') i) lines program →
      lines.foldlM (fun mc line => do
        let code ← assembleLine line
        .ok (mc ++ code)) mc = .ok (mc ++ machineCode program) := by
    intro lines program mc hall
    induction hall generalizing mc with
    | nil => simp [machineCode, pure, Except.pure]
    | cons hline _ ih =>
        rw [List.foldlM_cons, assembleLine_eq hline, ok_bind, ok_bind, ih]
        simp [machineCode]
  exact hlines _ program [] h

/-! ## Every program has a text -/

namespace Instr

/-- The words of an instruction, its number in decimal. -/
def words : Instr → List Text
  | load r address => ["load".toList, r.name, Nat.toDigits 10 address.toNat]
  | store r address => ["store".toList, r.name, Nat.toDigits 10 address.toNat]
  | add r s => ["add".toList, r.name, s.name]
  | sub r s => ["sub".toList, r.name, s.name]
  | addi r value => ["addi".toList, r.name, Nat.toDigits 10 value.toNat]
  | subi r value => ["subi".toList, r.name, Nat.toDigits 10 value.toNat]
  | jump address => ["jump".toList, Nat.toDigits 10 address.toNat]
  | beqz r offset => ["beqz".toList, r.name, Nat.toDigits 10 offset.toNat]
  | halt => ["halt".toList]

def line (i : Instr) : Text := [' '].intercalate i.words

end Instr

/-- The program, an instruction a line. -/
def programText (program : List Instr) : Text := ['\n'].intercalate (program.map Instr.line)

/-- Not empty, and without white space around it. -/
structure Solid (s : Text) : Prop where
  head : ∃ c rest, s = c :: rest ∧ ¬ isSpace c
  last : ∃ init c, s = init ++ [c] ∧ ¬ isSpace c

theorem Solid.trimSpace_eq {s : Text} (h : Solid s) : trimSpace s = s := by
  have hhead : s.dropWhile isSpace = s := by
    obtain ⟨c, rest, rfl, hc⟩ := h.head
    rw [List.dropWhile_cons_of_neg hc]
  obtain ⟨init, c, rfl, hc⟩ := h.last
  rw [trimSpace, hhead, List.reverse_append, List.reverse_singleton, List.singleton_append,
    List.dropWhile_cons_of_neg hc]
  simp

theorem Solid.append {s t : Text} (hs : Solid s) (between : Text) (ht : Solid t) :
    Solid (s ++ between ++ t) := by
  obtain ⟨c, rest, rfl, hc⟩ := hs.head
  obtain ⟨init, d, rfl, hd⟩ := ht.last
  exact ⟨⟨c, rest ++ between ++ (init ++ [d]), by simp, hc⟩,
    ⟨c :: rest ++ between ++ init, d, by simp, hd⟩⟩

theorem solid_intercalate {sep : Text} {ls : List Text} (hne : ls ≠ []) (h : ∀ l ∈ ls, Solid l) :
    Solid (sep.intercalate ls) := by
  induction ls with
  | nil => exact absurd rfl hne
  | cons l ls ih =>
      cases ls with
      | nil => simpa using h l (by simp)
      | cons l' ls =>
          have htail := ih (by simp) fun m hm => h m (List.mem_cons_of_mem _ hm)
          have hall := (h l (by simp)).append sep htail
          rwa [List.intercalate_cons_cons]

theorem notMem_intercalate {c : Char} {sep : Text} {ls : List Text} (hsep : c ∉ sep)
    (h : ∀ l ∈ ls, c ∉ l) : c ∉ sep.intercalate ls := by
  induction ls with
  | nil => simp
  | cons l ls ih =>
      cases ls with
      | nil => simpa using h l (by simp)
      | cons l' ls =>
          have htail := ih fun m hm => h m (List.mem_cons_of_mem _ hm)
          rw [List.intercalate_cons_cons]
          simp [h l (by simp), hsep, htail]

/-- Not empty, and without white space in it. -/
def Word (s : Text) : Prop := s ≠ [] ∧ ∀ c ∈ s, ¬ isSpace c

theorem word_of_all {s : Text} (h : (!s.isEmpty && s.all fun c => !isSpace c) = true) : Word s := by
  simp only [Bool.and_eq_true, Bool.not_eq_true', List.isEmpty_eq_false_iff, List.all_eq_true] at h
  exact ⟨h.1, fun c hc => by simp [h.2 c hc]⟩

theorem Word.solid {s : Text} (h : Word s) : Solid s := by
  obtain ⟨hne, h⟩ := h
  constructor
  · obtain ⟨c, rest, rfl⟩ := List.exists_cons_of_ne_nil hne
    exact ⟨c, rest, rfl, h c (by simp)⟩
  · refine ⟨s.dropLast, s.getLast hne, (List.dropLast_append_getLast hne).symm, ?_⟩
    exact h _ (List.getLast_mem hne)

theorem isDigit_of_mem_decimal {n : Nat} : ∀ c ∈ Nat.toDigits 10 n, c.isDigit :=
  fun _ hc => Nat.isDigit_of_mem_toDigits (by decide) (by decide) hc

theorem isSpace_of_isDigit {c : Char} (h : c.isDigit) : ¬ isSpace c := by
  obtain ⟨hlow, hhigh⟩ := Char.isDigit_iff_toNat.mp h
  rw [show '0'.toNat = 48 from rfl] at hlow
  rw [show '9'.toNat = 57 from rfl] at hhigh
  simp [isSpace]
  omega

theorem word_decimal (n : Nat) : Word (Nat.toDigits 10 n) :=
  ⟨Nat.toDigits_ne_nil, fun c hc => isSpace_of_isDigit (isDigit_of_mem_decimal c hc)⟩

theorem word_name (r : Reg) : Word r.name := by
  cases r with
  | r1 => exact word_of_all (by decide)
  | r2 => exact word_of_all (by decide)

/-- A digit is one byte. -/
theorem utf8_decimal (n : Nat) : utf8 (Nat.toDigits 10 n) = digits n := by
  rw [utf8, digits, List.map_eq_flatMap]
  refine List.flatMap_congr fun c hc => ?_
  obtain ⟨-, hhigh⟩ := Char.isDigit_iff_toNat.mp (isDigit_of_mem_decimal c hc)
  rw [show '9'.toNat = 57 from rfl] at hhigh
  rw [String.utf8EncodeChar_eq_singleton (Char.utf8Size_eq_one_iff.mpr ?_)]
  · rfl
  · rw [UInt32.le_iff_toNat_le]
    exact Nat.le_trans hhigh (by decide)

theorem operand_decimal (v : UInt8) : Instr.Operand (Nat.toDigits 10 v.toNat) v := by
  rw [Instr.Operand, utf8_decimal, decimal_digits]

namespace Instr

theorem writes_words (i : Instr) : Writes i.words i := by
  cases i with
  | load r v => exact .load r (operand_decimal v)
  | store r v => exact .store r (operand_decimal v)
  | add r s => exact .add r s
  | sub r s => exact .sub r s
  | addi r v => exact .addi r (operand_decimal v)
  | subi r v => exact .subi r (operand_decimal v)
  | jump v => exact .jump (operand_decimal v)
  | beqz r v => exact .beqz r (operand_decimal v)
  | halt => exact .halt

theorem word_of_mem_words (i : Instr) : ∀ s ∈ i.words, Word s := by
  have hmnemonic : ∀ s ∈ ["load".toList, "store".toList, "add".toList, "sub".toList,
      "addi".toList, "subi".toList, "jump".toList, "beqz".toList, "halt".toList],
      (!s.isEmpty && s.all fun c => !isSpace c) = true := by decide
  cases i <;> simp only [words, List.forall_mem_cons, word_decimal, word_name, true_and] <;>
    exact ⟨word_of_all (hmnemonic _ (by decide)), by simp⟩

/-- A line is split into the words it was put together from. -/
theorem splitOn_line (i : Instr) : i.line.splitOn ' ' = i.words := by
  refine List.splitOn_intercalate ' ' ?_ (by cases i <;> simp [words])
  intro s hs hmem
  exact (i.word_of_mem_words s hs).2 ' ' hmem (by decide)

theorem solid_line (i : Instr) : Solid i.line :=
  solid_intercalate (by cases i <;> simp [words]) fun s hs => (i.word_of_mem_words s hs).solid

theorem newline_notMem_line (i : Instr) : '\n' ∉ i.line := by
  refine notMem_intercalate (by simp) ?_
  intro s hs hmem
  exact (i.word_of_mem_words s hs).2 '\n' hmem (by decide)

end Instr

/-- **Every program has a text**, which the assembler reads back. -/
theorem lists_programText {program : List Instr} (hne : program ≠ []) :
    Lists (programText program) program := by
  have hsolid : Solid (programText program) := by
    refine solid_intercalate (by simpa using hne) ?_
    intro l hl
    obtain ⟨i, -, rfl⟩ := List.mem_map.mp hl
    exact i.solid_line
  have hlines : (programText program).splitOn '\n' = program.map Instr.line := by
    refine List.splitOn_intercalate '\n' ?_ (by simpa using hne)
    intro l hl
    obtain ⟨i, -, rfl⟩ := List.mem_map.mp hl
    exact i.newline_notMem_line
  rw [Lists, hsolid.trimSpace_eq, hlines, List.forall₂_map_left_iff, List.forall₂_same]
  intro i _
  rw [i.solid_line.trimSpace_eq, i.splitOn_line]
  exact i.writes_words

end Nyctomek.Vm
