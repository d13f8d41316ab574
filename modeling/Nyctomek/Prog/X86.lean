/-
# `Prog.X86` — routines in x86-64 assembly

The sixteen registers of 64 bits, the flags that `je`, `jl` and `jg` read, and a
memory of bytes.  A routine is the list of the lines of its text; a label names the
place of the instruction that follows it.  `step` executes one instruction; `ret`
leaves the routine.

    source operands      registers, and immediates of 32 bits, sign-extended
    flags                undefined behind a shift by more than one, as documented
    destinations         registers only: no instruction here writes to the memory

A register that no instruction names as its destination comes back as the caller had
it (`regs_of_run`).
-/
import Mathlib.Algebra.Group.Nat.Defs
import Mathlib.Logic.Function.Basic
import Nyctomek.Prog.Loop

namespace Prog.X86

inductive Reg where
  | rax | rbx | rcx | rdx | rsi | rdi | rbp | rsp
  | r8 | r9 | r10 | r11 | r12 | r13 | r14 | r15
  deriving DecidableEq, Repr

abbrev Word := BitVec 64

inductive Operand where
  | reg (r : Reg)
  | imm (v : BitVec 32)
  deriving DecidableEq, Repr

/-- When a conditional jump is taken: equal, less, greater, both as signed numbers. -/
inductive Cond where
  | e
  | l
  | g
  deriving DecidableEq, Repr

/-- The instructions, over the labels `L` of a routine. -/
inductive Instr (L : Type) where
  | mov (dst : Reg) (src : Operand)
  /-- `movzx dst, byte [base]` -/
  | movzxByte (dst base : Reg)
  | inc (dst : Reg)
  | add (dst : Reg) (src : Operand)
  | sub (dst : Reg) (src : Operand)
  | or (dst : Reg) (src : Operand)
  /-- `shl dst, cl` -/
  | shlCl (dst : Reg)
  | cmp (left : Reg) (right : Operand)
  | jmp (label : L)
  | jcc (cond : Cond) (label : L)
  | ret
  deriving DecidableEq, Repr

inductive Line (L : Type) where
  | label (l : L)
  | instr (i : Instr L)
  deriving DecidableEq, Repr

/-- Flags; `none` where the last operation leaves one undefined. -/
structure Flags where
  zero : Option Bool
  sign : Option Bool
  overflow : Option Bool
  deriving DecidableEq, Repr

/-- The flags of a result. -/
def Flags.of (result : Word) (overflow : Option Bool) : Flags :=
  ⟨some (result == 0), some result.msb, overflow⟩

def Flags.ofAdd (a b : Word) : Flags :=
  .of (a + b) (some (a.msb == b.msb && (a + b).msb != a.msb))

def Flags.ofSub (a b : Word) : Flags :=
  .of (a - b) (some (a.msb != b.msb && (a - b).msb != a.msb))

def Cond.holds (flags : Flags) : Cond → Option Bool
  | .e => flags.zero
  | .l => do
      let sign ← flags.sign
      let overflow ← flags.overflow
      some (sign != overflow)
  | .g => do
      let zero ← flags.zero
      let sign ← flags.sign
      let overflow ← flags.overflow
      some (!zero && sign == overflow)

structure State where
  regs : Reg → Word
  flags : Flags
  memory : Word → UInt8
  /-- The place of the next instruction among those of the routine. -/
  pc : Nat

namespace State

def set (s : State) (r : Reg) (v : Word) : State :=
  { s with regs := Function.update s.regs r v }

def next (s : State) : State := { s with pc := s.pc + 1 }

/-- An arithmetic instruction. -/
def result (s : State) (dst : Reg) (v : Word) (flags : Flags) : State :=
  { s.set dst v with flags }.next

end State

def Operand.value (s : State) : Operand → Word
  | .reg r => s.regs r
  | .imm v => v.signExtend 64

inductive Fault where
  | noInstruction (pc : Nat)
  | noLabel
  | undefinedFlag
  deriving DecidableEq, Repr

section
variable {L : Type} [DecidableEq L]

/-- The instructions of a text. -/
def code : List (Line L) → List (Instr L)
  | [] => []
  | .label _ :: lines => code lines
  | .instr i :: lines => i :: code lines

/-- The place of a label. -/
def target : List (Line L) → L → Option Nat
  | [], _ => none
  | .label l :: lines, l' => if l = l' then some 0 else target lines l'
  | .instr _ :: lines, l' => (target lines l').map (· + 1)

def jumpTo (lines : List (Line L)) (s : State) (l : L) : Except Fault (Turn State State) :=
  match target lines l with
  | none => .error .noLabel
  | some place => .ok (.again { s with pc := place })

def exec (lines : List (Line L)) (s : State) : Instr L → Except Fault (Turn State State)
  | .mov dst src => .ok (.again (s.set dst (src.value s)).next)
  | .movzxByte dst base =>
      .ok (.again (s.set dst ((s.memory (s.regs base)).toBitVec.setWidth 64)).next)
  | .inc dst => .ok (.again (s.result dst (s.regs dst + 1) (.ofAdd (s.regs dst) 1)))
  | .add dst src =>
      .ok (.again (s.result dst (s.regs dst + src.value s) (.ofAdd (s.regs dst) (src.value s))))
  | .sub dst src =>
      .ok (.again (s.result dst (s.regs dst - src.value s) (.ofSub (s.regs dst) (src.value s))))
  | .or dst src =>
      .ok (.again (s.result dst (s.regs dst ||| src.value s)
        (.of (s.regs dst ||| src.value s) (some false))))
  | .shlCl dst =>
      -- the count is masked to six bits; no flag changes for a count of zero
      let count := (s.regs .rcx).toNat % 256 % 64
      let shifted := s.regs dst <<< count
      .ok (.again (s.result dst shifted (if count = 0 then s.flags
        else .of shifted (if count = 1 then some (shifted.msb != (s.regs dst).msb) else none))))
  | .cmp left right =>
      .ok (.again { s with flags := .ofSub (s.regs left) (right.value s) }.next)
  | .jmp label => jumpTo lines s label
  | .jcc cond label =>
      match cond.holds s.flags with
      | none => .error .undefinedFlag
      | some true => jumpTo lines s label
      | some false => .ok (.again s.next)
  -- the return address is taken off the stack
  | .ret => .ok (.stop (s.set .rsp (s.regs .rsp + 8)))

def step (lines : List (Line L)) (s : State) : Except Fault (Turn State State) :=
  match (code lines)[s.pc]? with
  | none => .error (.noInstruction s.pc)
  | some i => exec lines s i

/-- A routine is entered at its first instruction. -/
def run (lines : List (Line L)) (s : State) (fuel : Nat) : Exec Fault State :=
  loop (step lines) fuel { s with pc := 0 }

/-- The register that an instruction is to change. -/
def Instr.dst : Instr L → Option Reg
  | .mov dst _ | .movzxByte dst _ | .inc dst | .add dst _ | .sub dst _ | .or dst _ | .shlCl dst =>
      some dst
  | .cmp _ _ | .jmp _ | .jcc _ _ | .ret => none

/-! ## Conditions behind a comparison -/

theorem sub_beq_zero (a b : Word) : (a - b == 0) = (a == b) := by
  rw [Bool.eq_iff_iff, beq_iff_eq, beq_iff_eq, BitVec.sub_eq_iff_eq_add]
  exact Eq.congr_right (BitVec.zero_add b)

/-- Sign and overflow of a difference together say which of two signed numbers is less. -/
theorem sign_ne_overflow (a b : Word) :
    ((a - b).msb != (a.msb != b.msb && (a - b).msb != a.msb)) = a.slt b := by
  have ha := a.toInt_lt
  have ha' := a.le_toInt
  have hb := b.toInt_lt
  have hb' := b.le_toInt
  have hdiff : (a - b).toInt = (a.toInt - b.toInt).bmod (2 ^ 64) := BitVec.toInt_sub
  rw [Int.bmod_def] at hdiff
  rw [BitVec.slt_eq_decide, BitVec.msb_eq_toInt, BitVec.msb_eq_toInt, BitVec.msb_eq_toInt]
  generalize (a - b).toInt = d at hdiff
  by_cases hsa : a.toInt < 0 <;> by_cases hsb : b.toInt < 0 <;> by_cases hsd : d < 0 <;>
    by_cases hlt : a.toInt < b.toInt <;>
    simp only [hsa, hsb, hsd, hlt, decide_true, decide_false] <;>
    first | rfl | omega

theorem holds_e (a b : Word) : Cond.e.holds (.ofSub a b) = some (a == b) :=
  congrArg some (sub_beq_zero a b)

theorem holds_l (a b : Word) : Cond.l.holds (.ofSub a b) = some (a.slt b) :=
  congrArg some (sign_ne_overflow a b)

theorem holds_g (a b : Word) : Cond.g.holds (.ofSub a b) = some (b.slt a) := by
  have hsign : Cond.g.holds (.ofSub a b)
      = some (!(a - b == 0) && !((a - b).msb != (a.msb != b.msb && (a - b).msb != a.msb))) := by
    rw [bne, Bool.not_not]
    rfl
  rw [hsign, sub_beq_zero, sign_ne_overflow, Option.some_inj, Bool.eq_iff_iff]
  simp only [Bool.and_eq_true, Bool.not_eq_true', beq_eq_false_iff_ne, ne_eq, BitVec.slt_eq_decide,
    decide_eq_true_eq, decide_eq_false_iff_not, ← BitVec.toInt_inj]
  omega

theorem toInt_ofNat {a : Nat} (ha : a < 2 ^ 63) : (BitVec.ofNat 64 a).toInt = a := by
  rw [BitVec.toInt_ofNat', Int.bmod_def]
  omega

theorem slt_ofNat {a b : Nat} (ha : a < 2 ^ 63) (hb : b < 2 ^ 63) :
    (BitVec.ofNat 64 a).slt (BitVec.ofNat 64 b) = decide (a < b) := by
  rw [BitVec.slt_eq_decide, toInt_ofNat ha, toInt_ofNat hb, decide_eq_decide]
  exact Int.ofNat_lt

/-- What a condition says of natural numbers. -/
def Cond.compare (a b : Nat) : Cond → Bool
  | .e => decide (a = b)
  | .l => decide (a < b)
  | .g => decide (b < a)

/-- Below the sign bit numbers compare as natural numbers. -/
theorem holds_compare (cond : Cond) {v w : Word} {a b : Nat} (hv : v = BitVec.ofNat 64 a)
    (hw : w = BitVec.ofNat 64 b) (ha : a < 2 ^ 63) (hb : b < 2 ^ 63) :
    cond.holds (.ofSub v w) = some (cond.compare a b) := by
  subst hv hw
  cases cond with
  | e =>
      have hinj : BitVec.ofNat 64 a = BitVec.ofNat 64 b ↔ a = b := by
        rw [← BitVec.toInt_inj, toInt_ofNat ha, toInt_ofNat hb, Int.ofNat_inj]
      rw [holds_e, Cond.compare, Option.some_inj, Bool.eq_iff_iff, beq_iff_eq, decide_eq_true_eq]
      exact hinj
  | l => rw [holds_l, slt_ofNat ha hb, Cond.compare]
  | g => rw [holds_g, slt_ofNat hb ha, Cond.compare]

theorem value_imm {v : BitVec 32} (s : State) (hv : v.toNat < 2 ^ 31) :
    (Operand.imm v).value s = BitVec.ofNat 64 v.toNat := by
  have hmsb : v.msb = false := BitVec.msb_eq_false_iff_two_mul_lt.mpr (by omega)
  rw [Operand.value, BitVec.signExtend_eq_setWidth_of_msb_false hmsb, BitVec.ofNat_toNat]

/-! ## One instruction -/

variable {lines : List (Line L)} {s s' : State} {i : Instr L} {dst base left : Reg}
  {src right : Operand} {cond : Cond} {label : L} {place : Nat}

theorem step_of_code (h : (code lines)[s.pc]? = some i) : step lines s = exec lines s i := by
  simp only [step, h]

/-- An instruction that goes on to the next one. -/
theorem step_again (h : (code lines)[s.pc]? = some i)
    (hexec : exec lines s i = .ok (.again s')) : step lines s = .ok (.again s') :=
  (step_of_code h).trans hexec

theorem step_ret (h : (code lines)[s.pc]? = some .ret) :
    step lines s = .ok (.stop (s.set .rsp (s.regs .rsp + 8))) :=
  step_of_code h

theorem step_jmp (h : (code lines)[s.pc]? = some (.jmp label))
    (hlabel : target lines label = some place) :
    step lines s = .ok (.again { s with pc := place }) := by
  rw [step_of_code h, exec, jumpTo, hlabel]

theorem step_jcc (h : (code lines)[s.pc]? = some (.jcc cond label))
    (hcond : cond.holds s.flags = some true) (hlabel : target lines label = some place) :
    step lines s = .ok (.again { s with pc := place }) := by
  rw [step_of_code h, exec, hcond, jumpTo, hlabel]

theorem step_jcc_not (h : (code lines)[s.pc]? = some (.jcc cond label))
    (hcond : cond.holds s.flags = some false) : step lines s = .ok (.again s.next) := by
  rw [step_of_code h, exec, hcond]

/-- A comparison and the jump behind it. -/
theorem turns_compare {a b : Nat} (hcmp : (code lines)[s.pc]? = some (.cmp left right))
    (hjcc : (code lines)[s.pc + 1]? = some (.jcc cond label))
    (hlabel : target lines label = some place) (ha : s.regs left = BitVec.ofNat 64 a)
    (hb : right.value s = BitVec.ofNat 64 b) (ha' : a < 2 ^ 63) (hb' : b < 2 ^ 63) :
    Turns (step lines) s { s with
      flags := .ofSub (s.regs left) (right.value s)
      pc := if cond.compare a b then place else s.pc + 2 } := by
  have hcond := holds_compare cond ha hb ha' hb'
  refine .head (step_again hcmp rfl) ?_
  cases hcompare : cond.compare a b with
  | true => exact .single (step_jcc hjcc (hcond.trans (congrArg some hcompare)) hlabel)
  | false => exact .single (step_jcc_not hjcc (hcond.trans (congrArg some hcompare)))

/-! ## What a routine leaves alone -/

theorem State.regs_set_ne {r : Reg} (hr : some dst ≠ some r) (v : Word) :
    (s.set dst v).regs r = s.regs r :=
  Function.update_of_ne (fun h => hr (congrArg some h.symm)) _ _

theorem jumpTo_again (h : jumpTo lines s label = .ok (.again s')) :
    s'.memory = s.memory ∧ s'.regs = s.regs := by
  unfold jumpTo at h
  split at h
  · cases h
  · cases h
    exact ⟨rfl, rfl⟩

/-- **One step.** -/
theorem exec_again (h : exec lines s i = .ok (.again s')) :
    s'.memory = s.memory ∧ ∀ r, i.dst ≠ some r → s'.regs r = s.regs r := by
  cases i with
  | mov dst src => cases h; exact ⟨rfl, fun r hr => State.regs_set_ne hr _⟩
  | movzxByte dst base => cases h; exact ⟨rfl, fun r hr => State.regs_set_ne hr _⟩
  | inc dst => cases h; exact ⟨rfl, fun r hr => State.regs_set_ne hr _⟩
  | add dst src => cases h; exact ⟨rfl, fun r hr => State.regs_set_ne hr _⟩
  | sub dst src => cases h; exact ⟨rfl, fun r hr => State.regs_set_ne hr _⟩
  | or dst src => cases h; exact ⟨rfl, fun r hr => State.regs_set_ne hr _⟩
  | shlCl dst => cases h; exact ⟨rfl, fun r hr => State.regs_set_ne hr _⟩
  | cmp left right => cases h; exact ⟨rfl, fun r _ => rfl⟩
  | jmp label =>
      obtain ⟨hmemory, hregs⟩ := jumpTo_again h
      exact ⟨hmemory, fun r _ => congrFun hregs r⟩
  | jcc cond label =>
      simp only [exec] at h
      split at h
      · cases h
      · obtain ⟨hmemory, hregs⟩ := jumpTo_again h
        exact ⟨hmemory, fun r _ => congrFun hregs r⟩
      · cases h
        exact ⟨rfl, fun r _ => rfl⟩
  | ret => cases h

/-- Only `ret` leaves a routine. -/
theorem exec_stop (h : exec lines s i = .ok (.stop s')) :
    s' = s.set .rsp (s.regs .rsp + 8) := by
  cases i with
  | ret => cases h; rfl
  | jmp label =>
      simp only [exec, jumpTo] at h
      split at h <;> cases h
  | jcc cond label =>
      simp only [exec, jumpTo] at h
      split at h
      · cases h
      · split at h <;> cases h
      · cases h
  | mov dst src => cases h
  | movzxByte dst base => cases h
  | inc dst => cases h
  | add dst src => cases h
  | sub dst src => cases h
  | or dst src => cases h
  | shlCl dst => cases h
  | cmp left right => cases h

theorem step_eq_ok {t : Turn State State} (h : step lines s = .ok t) :
    ∃ i ∈ code lines, exec lines s i = .ok t := by
  unfold step at h
  split at h
  · cases h
  · rename_i i hi
    exact ⟨i, List.mem_of_getElem? hi, h⟩

/-- The value of a register in the caller: the call has pushed its return address. -/
def State.atCall (s : State) (r : Reg) : Word := if r = .rsp then s.regs .rsp + 8 else s.regs r

theorem atCall_of_ret {r : Reg} {entry : State} (hregs : s.regs r = entry.regs r) :
    (s.set .rsp (s.regs .rsp + 8)).regs r = entry.atCall r := by
  unfold State.atCall
  split
  · rename_i hr
    subst hr
    rw [← hregs]
    exact Function.update_self Reg.rsp (s.regs .rsp + 8) s.regs
  · rename_i hr
    rw [← hregs]
    exact Function.update_of_ne hr (s.regs .rsp + 8) s.regs

/-- **A run** gives back what no instruction is to change. -/
theorem regs_of_run {r : Reg} {entry final : State} {fuel : Nat}
    (hr : ∀ i ∈ code lines, i.dst ≠ some r) (h : run lines entry fuel = done (.ok final)) :
    final.regs r = entry.atCall r := by
  refine loop_invariant (I := fun s => s.regs r = entry.regs r)
    (Q := fun s => s.regs r = entry.atCall r) ?_ ?_ rfl h
  · intro s s' hs hstep
    obtain ⟨i, hi, hexec⟩ := step_eq_ok hstep
    exact ((exec_again hexec).2 r (hr i hi)).trans hs
  · intro s s' hs hstep
    obtain ⟨i, -, hexec⟩ := step_eq_ok hstep
    rw [exec_stop hexec]
    exact atCall_of_ret hs

/-- The registers that a routine has to give back under the System V calling convention. -/
def calleeSaved : List Reg := [.rbx, .rbp, .rsp, .r12, .r13, .r14, .r15]

end

/-! ## Strings in memory -/

/-- At an address stand the bytes `cs`, none of them NUL, and then a NUL. -/
def CString (memory : Word → UInt8) : Word → List UInt8 → Prop
  | address, [] => memory address = 0
  | address, c :: cs => memory address = c ∧ c ≠ 0 ∧ CString memory (address + 1) cs

end Prog.X86
