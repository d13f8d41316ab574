/-
# `Assembly.BinaryConvert` — `binary_convert.asm`

The routine reads a text up to its NUL.  At every character it doubles what it has, adds the
character and subtracts the character `0`; its C prototype takes an `int` out of the low half of
`rax`.

    rax     the number so far
    rdi     the address of the next character
    rsi     the character

Nothing else is changed, so the routine keeps to the calling convention.
-/
import Nyctomek.Assembly.SumToN

namespace Nyctomek.Assembly

open Prog Prog.X86

/-- `shl dst, 1`, with the result and the flags of `add dst, dst`. -/
def shlOne {L : Type} (dst : Reg) : Instr L := .add dst (.reg dst)

/-- It does what `shl dst, cl` does with a count of 1. -/
theorem exec_shlOne {L : Type} [DecidableEq L] {lines : List (Line L)} {s : State} (dst : Reg)
    (hcount : s.regs .rcx = 1) :
    exec lines s (shlOne dst) = exec lines s (.shlCl dst) := by
  have hone : (s.regs .rcx).toNat % 256 % 64 = 1 := by
    rw [hcount]
    rfl
  have hshift : s.regs dst <<< 1 = s.regs dst + s.regs dst := by
    rw [BitVec.shiftLeft_eq_mul_twoPow, ← BitVec.mul_two]
    rfl
  simp only [shlOne, exec, hone, hshift, Operand.value, Flags.ofAdd, one_ne_zero, if_false, if_true,
    beq_self_eq_true, Bool.true_and]

inductive ConvertLabel where
  | loopexpr
  | «return»
  deriving DecidableEq, Repr

/-- `binary_convert` -/
def binaryConvert : List (Line ConvertLabel) := [
  .instr (.mov .rax (.imm 0)),
  .label .loopexpr,
  .instr (.movzxByte .rsi .rdi),
  .instr (.cmp .rsi (.imm 0)),
  .instr (.jcc .e .return),
  .instr (shlOne .rax),
  .instr (.add .rax (.reg .rsi)),
  .instr (.sub .rax (.imm 48)),
  .instr (.add .rdi (.imm 1)),
  .instr (.jmp .loopexpr),
  .label .return,
  .instr .ret]

variable {s : State} {cs : List UInt8} {c : UInt8}

/-- A character comes behind the number. -/
def shiftIn (v : Word) (c : UInt8) : Word := v + v + c.toBitVec.setWidth 64 - 48

/-! ## The loop -/

/-- What is loaded is 0 at the NUL only. -/
theorem loaded_beq_zero (c : UInt8) : (c.toBitVec.setWidth 64 == (0 : Word)) = (c == 0) := by
  rw [Bool.eq_iff_iff, beq_iff_eq, beq_iff_eq, ← BitVec.toNat_inj, BitVec.toNat_setWidth,
    Nat.mod_eq_of_lt (Nat.lt_of_lt_of_le c.toBitVec.isLt (by decide)), ← UInt8.toNat_inj]
  rfl

/-- Once round. -/
theorem convert_round (hpc : s.pc = 1) (hc : s.memory (s.regs .rdi) = c) (hne : c ≠ 0) :
    ∃ s', Turns (step binaryConvert) s s' ∧ s'.pc = 1 ∧ s'.memory = s.memory ∧
      s'.regs .rax = shiftIn (s.regs .rax) c ∧ s'.regs .rdi = s.regs .rdi + 1 := by
  obtain ⟨regs, flags, memory, pc⟩ := s
  subst hpc
  subst hc
  refine ⟨_, .head (step_again rfl rfl) (.head (step_again rfl rfl) (.head (step_jcc_not rfl ?_)
    (.head (step_again rfl rfl) (.head (step_again rfl rfl) (.head (step_again rfl rfl)
      (.head (step_again rfl rfl) (.single (step_jmp rfl rfl)))))))), rfl, rfl, ?_, ?_⟩
  · refine (holds_e _ _).trans (congrArg some ?_)
    exact (loaded_beq_zero _).trans (beq_eq_false_iff_ne.mpr hne)
  · rfl
  · rfl

/-- At the NUL. -/
theorem convert_return (hpc : s.pc = 1) (hc : s.memory (s.regs .rdi) = 0) :
    ∃ s', Ends (fun n => loop (step binaryConvert) n s) (.ok s') ∧ s'.memory = s.memory ∧
      s'.regs .rax = s.regs .rax := by
  obtain ⟨regs, flags, memory, pc⟩ := s
  subst hpc
  refine ⟨_, .of_turns (.head (step_again rfl rfl) (.head (step_again rfl rfl)
    (.single (step_jcc rfl ?_ rfl)))) (.loop_stop (step_ret rfl)), rfl, rfl⟩
  refine (holds_e _ _).trans (congrArg some ?_)
  exact (loaded_beq_zero _).trans (beq_iff_eq.mpr hc)

/-- **The loop**, by induction on what is still to be read. -/
theorem convert_loop (hpc : s.pc = 1) (hcs : CString s.memory (s.regs .rdi) cs) :
    ∃ s', Ends (fun n => loop (step binaryConvert) n s) (.ok s') ∧ s'.memory = s.memory ∧
      s'.regs .rax = cs.foldl shiftIn (s.regs .rax) := by
  induction cs generalizing s with
  | nil => exact convert_return hpc hcs
  | cons c cs ih =>
      obtain ⟨hc, hne, hrest⟩ := hcs
      obtain ⟨s₁, hturns, hpc', hmemory, hrax, hrdi⟩ := convert_round hpc hc hne
      rw [← hmemory, ← hrdi] at hrest
      obtain ⟨s', hend, hmemory', hrax'⟩ := ih hpc' hrest
      exact ⟨s', .of_turns hturns hend, hmemory'.trans hmemory, hrax'.trans (by rw [hrax]; rfl)⟩

/-- A call for a text, of whatever characters. -/
theorem convert_ends (hcs : CString s.memory (s.regs .rdi) cs) :
    ∃ s', Ends (run binaryConvert s) (.ok s') ∧ s'.memory = s.memory ∧
      s'.regs .rax = cs.foldl shiftIn 0 := by
  obtain ⟨s₁, hturns, hpc, hmemory, hrax, hrdi⟩ : ∃ s₁,
      Turns (step binaryConvert) { s with pc := 0 } s₁ ∧ s₁.pc = 1 ∧ s₁.memory = s.memory ∧
        s₁.regs .rax = 0 ∧ s₁.regs .rdi = s.regs .rdi :=
    ⟨_, .single (step_again rfl rfl), rfl, rfl, rfl, rfl⟩
  rw [← hmemory, ← hrdi] at hcs
  obtain ⟨s', hend, hmemory', hrax'⟩ := convert_loop hpc hcs
  exact ⟨s', .of_turns hturns hend, hmemory'.trans hmemory, by rw [hrax', hrax]⟩

/-! ## Binary numbers -/

/-- The character of a digit. -/
def digit (b : Bool) : UInt8 := if b then 49 else 48

/-- The number that is shown by binary digits. -/
def number (bits : List Bool) : Nat := bits.foldl (fun n b => 2 * n + b.toNat) 0

theorem shiftIn_digit (n : Nat) (b : Bool) :
    shiftIn (BitVec.ofNat 64 n) (digit b) = BitVec.ofNat 64 (2 * n + b.toNat) := by
  apply BitVec.eq_of_toNat_eq
  cases b <;> simp [shiftIn, digit] <;> omega

theorem foldl_shiftIn_digits (bits : List Bool) (n : Nat) :
    (bits.map digit).foldl shiftIn (BitVec.ofNat 64 n)
      = BitVec.ofNat 64 (bits.foldl (fun n b => 2 * n + b.toNat) n) := by
  induction bits generalizing n with
  | nil => rfl
  | cons b bits ih => rw [List.map_cons, List.foldl_cons, shiftIn_digit, ih, List.foldl_cons]

/-- **`binary_convert`** of binary digits, however many: it comes back with their number, wrapped
to an `int`, leaves the memory as it is, and gives back what the calling convention asks for. -/
theorem binaryConvert_correct (s : State) (bits : List Bool)
    (hcs : CString s.memory (s.regs .rdi) (bits.map digit)) :
    ∃ s', Ends (run binaryConvert s) (.ok s') ∧
      (lowHalf (s'.regs .rax)).toInt = (number bits : Int).bmod (2 ^ 32) ∧
      s'.memory = s.memory ∧ ∀ r ∈ calleeSaved, s'.regs r = s.atCall r := by
  obtain ⟨s', hend, hmemory, hrax⟩ := convert_ends hcs
  refine ⟨s', hend, ?_, hmemory, ?_⟩
  · have hnumber : s'.regs .rax = BitVec.ofNat 64 (number bits) :=
      hrax.trans (foldl_shiftIn_digits bits 0)
    rw [hnumber, lowHalf_ofNat, BitVec.toInt_ofNat']
  · intro r hr
    have hdst : ∀ i ∈ code binaryConvert, i.dst ≠ some r := by
      revert r
      decide
    obtain ⟨fuel, hfuel⟩ := hend
    exact regs_of_run hdst (hfuel fuel (Nat.le_refl fuel))

/-- A call with `rdi` at the text "110". -/
def readingSix : State :=
  ⟨fun _ => 0, ⟨none, none, none⟩, fun a => if a < 2 then 49 else if a = 2 then 48 else 0, 0⟩

theorem binaryConvert_correct_six : ∃ s', Ends (run binaryConvert readingSix) (.ok s') ∧
    (lowHalf (s'.regs .rax)).toInt = 6 := by
  obtain ⟨s', hend, hrax, -⟩ := binaryConvert_correct readingSix [true, true, false]
    ⟨rfl, by decide, rfl, by decide, rfl, by decide, rfl⟩
  exact ⟨s', hend, hrax.trans (by decide)⟩

end Nyctomek.Assembly
