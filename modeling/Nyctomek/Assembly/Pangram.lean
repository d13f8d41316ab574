/-
# `Assembly.Pangram` — `pangram.asm`

The routine reads a text up to its NUL and keeps the letters it has seen as bits of
`rax`, the case of a letter left aside.  At the end the bits are compared with those of
the whole alphabet.

    rax     a bit for each letter that has been seen
    rbx     the bit of the letter that was seen last
    rcx     its place in the alphabet
    rdi     the address of the next byte
    rsi     the byte

`rbx` belongs to the caller, and the routine does not give it back.
-/
import Nyctomek.Prog.X86

namespace Nyctomek.Assembly

open Prog Prog.X86

inductive PangramLabel where
  | loopOverInput
  | recordCharacter
  | biasForLowercase
  | record
  | computeRval
  | setRvalToTrue
  | «return»
  deriving DecidableEq, Repr

def pangram : List (Line PangramLabel) := [
  .instr (.mov .rax (.imm 0)),
  .label .loopOverInput,
  .instr (.movzxByte .rsi .rdi),
  .instr (.inc .rdi),
  .instr (.cmp .rsi (.imm 0)),
  .instr (.jcc .e .computeRval),
  .instr (.cmp .rsi (.imm 65)),
  .instr (.jcc .l .loopOverInput),
  .instr (.cmp .rsi (.imm 122)),
  .instr (.jcc .g .loopOverInput),
  .instr (.cmp .rsi (.imm 91)),
  .instr (.jcc .l .recordCharacter),
  .instr (.cmp .rsi (.imm 96)),
  .instr (.jcc .g .recordCharacter),
  .instr (.jmp .loopOverInput),
  .label .recordCharacter,
  .instr (.sub .rsi (.imm 65)),
  .instr (.cmp .rsi (.imm 25)),
  .instr (.jcc .g .biasForLowercase),
  .instr (.jmp .record),
  .label .biasForLowercase,
  .instr (.sub .rsi (.imm 32)),
  .label .record,
  .instr (.mov .rcx (.reg .rsi)),
  .instr (.mov .rbx (.imm 1)),
  .instr (.shlCl .rbx),
  .instr (.or .rax (.reg .rbx)),
  .instr (.jmp .loopOverInput),
  .label .computeRval,
  .instr (.cmp .rax (.imm 0x03FFFFFF)),
  .instr (.jcc .e .setRvalToTrue),
  .instr (.mov .rax (.imm 0)),
  .instr (.jmp .return),
  .label .setRvalToTrue,
  .instr (.mov .rax (.imm 1)),
  .label .return,
  .instr .ret]

/-! ## Letters -/

/-- The place of a letter in the alphabet, upper or lower case. -/
def letter (c : UInt8) : Option Nat :=
  if 65 ≤ c.toNat ∧ c.toNat ≤ 90 then some (c.toNat - 65)
  else if 97 ≤ c.toNat ∧ c.toNat ≤ 122 then some (c.toNat - 97)
  else none

theorem letter_eq_some {c : UInt8} {i : Nat} : letter c = some i ↔
    (65 ≤ c.toNat ∧ c.toNat ≤ 90) ∧ c.toNat - 65 = i ∨
      (97 ≤ c.toNat ∧ c.toNat ≤ 122) ∧ c.toNat - 97 = i := by
  unfold letter
  split
  · rw [Option.some_inj]
    omega
  · split
    · rw [Option.some_inj]
      omega
    · simp only [reduceCtorEq, false_iff]
      omega

theorem letter_eq_none {c : UInt8} : letter c = none ↔
    ¬((65 ≤ c.toNat ∧ c.toNat ≤ 90) ∨ (97 ≤ c.toNat ∧ c.toNat ≤ 122)) := by
  unfold letter
  split
  · simp only [reduceCtorEq, false_iff]
    omega
  · split
    · simp only [reduceCtorEq, false_iff]
      omega
    · simp only [true_iff]
      omega

theorem letter_lt {c : UInt8} {i : Nat} (hc : letter c = some i) : i < 26 := by
  rcases letter_eq_some.mp hc with ⟨hupper, rfl⟩ | ⟨hlower, rfl⟩
  · omega
  · omega

/-- A letter in both cases. -/
theorem letter_eq_some_iff {c : UInt8} {j : Nat} (hj : j < 26) :
    letter c = some j ↔ c = UInt8.ofNat (65 + j) ∨ c = UInt8.ofNat (97 + j) := by
  have hofNat : ∀ n < 256, (c = UInt8.ofNat n ↔ c.toNat = n) := by
    intro n hn
    rw [← UInt8.toNat_inj, UInt8.toNat_ofNat']
    omega
  rw [hofNat _ (by omega), hofNat _ (by omega), letter_eq_some]
  omega

/-- Every letter of the alphabet occurs, in upper or lower case. -/
def Pangram (cs : List UInt8) : Prop :=
  ∀ i < 26, UInt8.ofNat (65 + i) ∈ cs ∨ UInt8.ofNat (97 + i) ∈ cs

instance (cs : List UInt8) : Decidable (Pangram cs) :=
  inferInstanceAs (Decidable (∀ i < 26, UInt8.ofNat (65 + i) ∈ cs ∨ UInt8.ofNat (97 + i) ∈ cs))

/-- The bit of a letter. -/
def bit (i : Nat) : Word := 1#64 <<< i

/-- The letters seen behind a byte. -/
def record (seen : Word) (c : UInt8) : Word :=
  match letter c with
  | some i => seen ||| bit i
  | none => seen

/-- The bit of the letter seen last behind a byte. -/
def recordLast (last : Word) (c : UInt8) : Word :=
  match letter c with
  | some i => bit i
  | none => last

/-! ## The pieces of one round -/

/-- What matters of a state between the pieces: where it is, what has been seen, and what
is still to be read. -/
structure At (place : Nat) (seen last address : Word) (memory : Word → UInt8) (s : State) :
    Prop where
  pc : s.pc = place
  rax : s.regs .rax = seen
  rbx : s.regs .rbx = last
  rdi : s.regs .rdi = address
  memory : s.memory = memory

variable {s : State} {seen last address : Word} {memory : Word → UInt8} {c : UInt8}
  {cs : List UInt8} {i n : Nat}

/-- A byte is compared, and a jump is taken or not. -/
theorem turns_compare_rsi {cond : Cond} {label : PangramLabel} {v : BitVec 32} {place there : Nat}
    {taken : Bool} (h : At place seen last address memory s)
    (hcmp : (code pangram)[place]? = some (.cmp .rsi (.imm v)))
    (hjcc : (code pangram)[place + 1]? = some (.jcc cond label))
    (hlabel : target pangram label = some there) (hv : v.toNat < 256)
    (hrsi : s.regs .rsi = BitVec.ofNat 64 n) (hn : n < 256)
    (htaken : cond.compare n v.toNat = taken) :
    ∃ s', Turns (step pangram) s s' ∧
      At (if taken then there else place + 2) seen last address memory s' ∧
      s'.regs .rsi = BitVec.ofNat 64 n := by
  obtain ⟨regs, flags, cells, pc⟩ := s
  obtain ⟨rfl, rfl, rfl, rfl, rfl⟩ := h
  rw [← htaken]
  exact ⟨_, turns_compare hcmp hjcc hlabel hrsi (value_imm _ (by omega)) (by omega) (by omega),
    ⟨rfl, rfl, rfl, rfl, rfl⟩, hrsi⟩

theorem turns_jmp {label : PangramLabel} {place there : Nat}
    (h : At place seen last address memory s)
    (hjmp : (code pangram)[place]? = some (.jmp label))
    (hlabel : target pangram label = some there) (hrsi : s.regs .rsi = BitVec.ofNat 64 n) :
    ∃ s', Turns (step pangram) s s' ∧ At there seen last address memory s' ∧
      s'.regs .rsi = BitVec.ofNat 64 n := by
  obtain ⟨regs, flags, cells, pc⟩ := s
  obtain ⟨rfl, rfl, rfl, rfl, rfl⟩ := h
  exact ⟨_, .single (step_jmp hjmp hlabel), ⟨rfl, rfl, rfl, rfl, rfl⟩, hrsi⟩

/-- `.loopOverInput`: a byte is read. -/
theorem turns_read (h : At 1 seen last address memory s) (hc : memory address = c) :
    ∃ s', Turns (step pangram) s s' ∧
      At (if c = 0 then 24 else 5) seen last (address + 1) memory s' ∧
      s'.regs .rsi = BitVec.ofNat 64 c.toNat := by
  obtain ⟨s₁, hturns₁, hat₁, hrsi₁⟩ : ∃ s₁, Turns (step pangram) s s₁ ∧
      At 3 seen last (address + 1) memory s₁ ∧ s₁.regs .rsi = c.toBitVec.setWidth 64 := by
    obtain ⟨regs, flags, cells, pc⟩ := s
    obtain ⟨rfl, rfl, rfl, rfl, rfl⟩ := h
    subst hc
    exact ⟨_, .head (step_again rfl rfl) (.single (step_again rfl rfl)),
      ⟨rfl, rfl, rfl, rfl, rfl⟩, rfl⟩
  have hbyte : c.toBitVec.setWidth 64 = BitVec.ofNat 64 c.toNat :=
    (BitVec.ofNat_toNat 64 c.toBitVec).symm
  by_cases hzero : c = 0
  · rw [if_pos hzero]
    obtain ⟨s₂, hturns₂, hat₂, hrsi₂⟩ := turns_compare_rsi hat₁ rfl rfl rfl (by decide)
      (hrsi₁.trans hbyte) c.toNat_lt (decide_eq_true (congrArg UInt8.toNat hzero))
    exact ⟨s₂, hturns₁.trans hturns₂, hat₂, hrsi₂⟩
  · rw [if_neg hzero]
    obtain ⟨s₂, hturns₂, hat₂, hrsi₂⟩ := turns_compare_rsi hat₁ rfl rfl rfl (by decide)
      (hrsi₁.trans hbyte) c.toNat_lt (decide_eq_false fun h => hzero (UInt8.toNat_inj.mp h))
    exact ⟨s₂, hturns₁.trans hturns₂, hat₂, hrsi₂⟩

/-- Between `A` and `Z`, between `a` and `z`, or neither. -/
theorem turns_classify (h : At 5 seen last address memory s)
    (hrsi : s.regs .rsi = BitVec.ofNat 64 n) (hn : n < 256) :
    ∃ s', Turns (step pangram) s s' ∧
      At (if (65 ≤ n ∧ n ≤ 90) ∨ (97 ≤ n ∧ n ≤ 122) then 14 else 1) seen last address memory s' ∧
      s'.regs .rsi = BitVec.ofNat 64 n := by
  by_cases h65 : n < 65
  · rw [if_neg (by omega)]
    exact turns_compare_rsi h rfl rfl rfl (by decide) hrsi hn (decide_eq_true h65)
  obtain ⟨s₁, hturns₁, h₁, hrsi₁⟩ :=
    turns_compare_rsi h rfl rfl rfl (by decide) hrsi hn (decide_eq_false h65)
  by_cases h122 : 122 < n
  · rw [if_neg (by omega)]
    obtain ⟨s₂, hturns₂, h₂, hrsi₂⟩ :=
      turns_compare_rsi h₁ rfl rfl rfl (by decide) hrsi₁ hn (decide_eq_true h122)
    exact ⟨s₂, hturns₁.trans hturns₂, h₂, hrsi₂⟩
  obtain ⟨s₂, hturns₂, h₂, hrsi₂⟩ :=
    turns_compare_rsi h₁ rfl rfl rfl (by decide) hrsi₁ hn (decide_eq_false h122)
  have hturns := hturns₁.trans hturns₂
  by_cases h91 : n < 91
  · rw [if_pos (by omega)]
    obtain ⟨s₃, hturns₃, h₃, hrsi₃⟩ :=
      turns_compare_rsi h₂ rfl rfl rfl (by decide) hrsi₂ hn (decide_eq_true h91)
    exact ⟨s₃, hturns.trans hturns₃, h₃, hrsi₃⟩
  obtain ⟨s₃, hturns₃, h₃, hrsi₃⟩ :=
    turns_compare_rsi h₂ rfl rfl rfl (by decide) hrsi₂ hn (decide_eq_false h91)
  by_cases h96 : 96 < n
  · rw [if_pos (by omega)]
    obtain ⟨s₄, hturns₄, h₄, hrsi₄⟩ :=
      turns_compare_rsi h₃ rfl rfl rfl (by decide) hrsi₃ hn (decide_eq_true h96)
    exact ⟨s₄, (hturns.trans hturns₃).trans hturns₄, h₄, hrsi₄⟩
  · rw [if_neg (by omega)]
    obtain ⟨s₄, hturns₄, h₄, hrsi₄⟩ :=
      turns_compare_rsi h₃ rfl rfl rfl (by decide) hrsi₃ hn (decide_eq_false h96)
    obtain ⟨s₅, hturns₅, h₅, hrsi₅⟩ := turns_jmp h₄ rfl rfl hrsi₄
    exact ⟨s₅, ((hturns.trans hturns₃).trans hturns₄).trans hturns₅, h₅, hrsi₅⟩

theorem turns_sub_rsi {v : BitVec 32} {place : Nat} (h : At place seen last address memory s)
    (hsub : (code pangram)[place]? = some (.sub .rsi (.imm v))) (hv : v.toNat ≤ n)
    (hrsi : s.regs .rsi = BitVec.ofNat 64 n) (hn : n < 256) :
    ∃ s', Turns (step pangram) s s' ∧ At (place + 1) seen last address memory s' ∧
      s'.regs .rsi = BitVec.ofNat 64 (n - v.toNat) := by
  obtain ⟨regs, flags, cells, pc⟩ := s
  obtain ⟨rfl, rfl, rfl, rfl, rfl⟩ := h
  refine ⟨_, .single (step_again hsub rfl), ⟨rfl, rfl, rfl, rfl, rfl⟩, ?_⟩
  show regs .rsi - (Operand.imm v).value _ = _
  rw [value_imm _ (by omega), BitVec.sub_eq_iff_eq_add, ← BitVec.ofNat_add, Nat.sub_add_cancel hv]
  exact hrsi

/-- `.recordCharacter`, `.biasForLowercase`: a letter is turned into its place. -/
theorem turns_bias (h : At 14 seen last address memory s)
    (hrsi : s.regs .rsi = BitVec.ofNat 64 c.toNat) (hc : letter c = some i) :
    ∃ s', Turns (step pangram) s s' ∧ At 19 seen last address memory s' ∧
      s'.regs .rsi = BitVec.ofNat 64 i := by
  have hn := c.toNat_lt
  have hlt : c.toNat - 65 < 256 := by omega
  rcases letter_eq_some.mp hc with ⟨hupper, rfl⟩ | ⟨hlower, rfl⟩
  · have hplace : ¬ 25 < c.toNat - 65 := by omega
    obtain ⟨s₁, hturns₁, h₁, hrsi₁⟩ := turns_sub_rsi h rfl hupper.1 hrsi hn
    obtain ⟨s₂, hturns₂, h₂, hrsi₂⟩ := turns_compare_rsi h₁ rfl rfl rfl (by decide) hrsi₁ hlt
      (decide_eq_false hplace)
    obtain ⟨s₃, hturns₃, h₃, hrsi₃⟩ := turns_jmp h₂ rfl rfl hrsi₂
    exact ⟨s₃, (hturns₁.trans hturns₂).trans hturns₃, h₃, hrsi₃⟩
  · have h65 : 65 ≤ c.toNat := by omega
    have hplace : 25 < c.toNat - 65 := by omega
    have h32 : 32 ≤ c.toNat - 65 := by omega
    have hsub : c.toNat - 65 - 32 = c.toNat - 97 := by omega
    obtain ⟨s₁, hturns₁, h₁, hrsi₁⟩ := turns_sub_rsi h rfl h65 hrsi hn
    obtain ⟨s₂, hturns₂, h₂, hrsi₂⟩ := turns_compare_rsi h₁ rfl rfl rfl (by decide) hrsi₁ hlt
      (decide_eq_true hplace)
    obtain ⟨s₃, hturns₃, h₃, hrsi₃⟩ := turns_sub_rsi h₂ rfl h32 hrsi₂ hlt
    exact ⟨s₃, (hturns₁.trans hturns₂).trans hturns₃, h₃, hsub ▸ hrsi₃⟩

/-- `.record`: the bit of a letter is set. -/
theorem turns_record (h : At 19 seen last address memory s)
    (hrsi : s.regs .rsi = BitVec.ofNat 64 i) (hi : i < 26) :
    ∃ s', Turns (step pangram) s s' ∧ At 1 (seen ||| bit i) (bit i) address memory s' := by
  obtain ⟨regs, flags, cells, pc⟩ := s
  obtain ⟨rfl, rfl, rfl, rfl, rfl⟩ := h
  have hcount : (regs .rsi).toNat % 256 % 64 = i := by
    rw [show regs .rsi = BitVec.ofNat 64 i from hrsi, BitVec.toNat_ofNat]
    omega
  have hbit : ((1 : BitVec 32).signExtend 64) <<< ((regs .rsi).toNat % 256 % 64) = bit i := by
    rw [hcount]
    rfl
  exact ⟨_, .head (step_again rfl rfl) (.head (step_again rfl rfl) (.head (step_again rfl rfl)
    (.head (step_again rfl rfl) (.single (step_jmp rfl rfl))))),
    ⟨rfl, congrArg (regs .rax ||| ·) hbit, hbit, rfl, rfl⟩⟩

/-- **Once round.** -/
theorem pangram_round (h : At 1 seen last address memory s) (hc : memory address = c)
    (hne : c ≠ 0) :
    ∃ s', Turns (step pangram) s s' ∧
      At 1 (record seen c) (recordLast last c) (address + 1) memory s' := by
  obtain ⟨s₁, hturns₁, h₁, hrsi₁⟩ := turns_read h hc
  rw [if_neg hne] at h₁
  obtain ⟨s₂, hturns₂, h₂, hrsi₂⟩ := turns_classify h₁ hrsi₁ c.toNat_lt
  unfold record recordLast
  cases hletter : letter c with
  | none =>
      rw [if_neg (letter_eq_none.mp hletter)] at h₂
      exact ⟨s₂, hturns₁.trans hturns₂, h₂⟩
  | some i =>
      have hsome := (letter_eq_some.mp hletter).imp And.left And.left
      rw [if_pos hsome] at h₂
      obtain ⟨s₃, hturns₃, h₃, hrsi₃⟩ := turns_bias h₂ hrsi₂ hletter
      obtain ⟨s₄, hturns₄, h₄⟩ := turns_record h₃ hrsi₃ (letter_lt hletter)
      exact ⟨s₄, ((hturns₁.trans hturns₂).trans hturns₃).trans hturns₄, h₄⟩

/-- `.computeRval`: the bits are compared with those of the alphabet. -/
theorem pangram_return (h : At 24 seen last address memory s) :
    ∃ s', Ends (fun n => loop (step pangram) n s) (.ok s') ∧
      s'.regs .rax = (if seen = 0x03FFFFFF then 1 else 0) ∧ s'.regs .rbx = last := by
  obtain ⟨regs, flags, cells, pc⟩ := s
  obtain ⟨rfl, rfl, rfl, rfl, rfl⟩ := h
  by_cases hall : regs .rax = 0x03FFFFFF
  · have hequal : Cond.e.holds (.ofSub (regs .rax) 0x03FFFFFF) = some true := by
      rw [holds_e, hall]
      rfl
    exact ⟨_, .of_turns (.head (step_again rfl rfl) (.head (step_jcc rfl hequal rfl)
      (.single (step_again rfl rfl)))) (.loop_stop (step_ret rfl)), (if_pos hall).symm, rfl⟩
  · have hdiffer : Cond.e.holds (.ofSub (regs .rax) 0x03FFFFFF) = some false := by
      rw [holds_e, beq_false_of_ne hall]
    exact ⟨_, .of_turns (.head (step_again rfl rfl) (.head (step_jcc_not rfl hdiffer)
      (.head (step_again rfl rfl) (.single (step_jmp rfl rfl))))) (.loop_stop (step_ret rfl)),
      (if_neg hall).symm, rfl⟩

/-- **The loop**, by induction on what is still to be read. -/
theorem pangram_loop (h : At 1 seen last address memory s) (hcs : CString memory address cs) :
    ∃ s', Ends (fun n => loop (step pangram) n s) (.ok s') ∧
      s'.regs .rax = (if cs.foldl record seen = 0x03FFFFFF then 1 else 0) ∧
      s'.regs .rbx = cs.foldl recordLast last := by
  induction cs generalizing s seen last address with
  | nil =>
      obtain ⟨s₁, hturns₁, h₁, -⟩ := turns_read h hcs
      rw [if_pos rfl] at h₁
      obtain ⟨s', hend, hrax, hrbx⟩ := pangram_return h₁
      exact ⟨s', .of_turns hturns₁ hend, hrax, hrbx⟩
  | cons c cs ih =>
      obtain ⟨hc, hne, hrest⟩ := hcs
      obtain ⟨s₁, hturns₁, h₁⟩ := pangram_round h hc hne
      obtain ⟨s', hend, hs'⟩ := ih h₁ hrest
      exact ⟨s', .of_turns hturns₁ hend, hs'⟩

/-- A call for a text. -/
theorem pangram_ends (hcs : CString s.memory (s.regs .rdi) cs) :
    ∃ s', Ends (run pangram s) (.ok s') ∧
      s'.regs .rax = (if cs.foldl record 0 = 0x03FFFFFF then 1 else 0) ∧
      s'.regs .rbx = cs.foldl recordLast (s.regs .rbx) := by
  obtain ⟨s₁, hturns₁, h₁⟩ : ∃ s₁, Turns (step pangram) { s with pc := 0 } s₁ ∧
      At 1 0 (s.regs .rbx) (s.regs .rdi) s.memory s₁ :=
    ⟨_, .single (step_again rfl rfl), ⟨rfl, rfl, rfl, rfl, rfl⟩⟩
  obtain ⟨s', hend, hs'⟩ := pangram_loop h₁ hcs
  exact ⟨s', .of_turns hturns₁ hend, hs'⟩

/-! ## The letters of a text -/

theorem getLsbD_bit (hi : i < 26) (j : Nat) : (bit i).getLsbD j = decide (i = j) := by
  rw [bit, BitVec.getLsbD_shiftLeft, BitVec.getLsbD_one, Bool.eq_iff_iff]
  simp only [Bool.and_eq_true, Bool.not_eq_true', decide_eq_true_eq, decide_eq_false_iff_not]
  omega

/-- The bit of a letter is set if it has been, or if the letter occurs. -/
theorem getLsbD_foldl_record (cs : List UInt8) (seen : Word) (j : Nat) :
    (cs.foldl record seen).getLsbD j = true ↔
      seen.getLsbD j = true ∨ ∃ c ∈ cs, letter c = some j := by
  induction cs generalizing seen with
  | nil => simp only [List.foldl_nil, List.not_mem_nil, false_and, exists_false, or_false]
  | cons c cs ih =>
      have hrecord : (record seen c).getLsbD j = true ↔
          seen.getLsbD j = true ∨ letter c = some j := by
        unfold record
        cases hletter : letter c with
        | none => simp only [reduceCtorEq, or_false]
        | some i =>
            rw [BitVec.getLsbD_or, getLsbD_bit (letter_lt hletter), Bool.or_eq_true,
              decide_eq_true_eq, Option.some_inj]
      rw [List.foldl_cons, ih, hrecord, or_assoc]
      simp only [List.mem_cons, exists_eq_or_imp]

theorem getLsbD_alphabet (j : Nat) : (0x03FFFFFF : Word).getLsbD j = decide (j < 26) := by
  have hones : (0x03FFFFFF : Word) = BitVec.ofNat 64 (2 ^ 26 - 1) := rfl
  rw [hones, BitVec.getLsbD_ofNat, Nat.testBit_two_pow_sub_one, Bool.eq_iff_iff]
  simp only [Bool.and_eq_true, decide_eq_true_eq]
  omega

/-- All bits are set exactly for a pangram. -/
theorem foldl_record_eq_iff (cs : List UInt8) :
    cs.foldl record 0 = 0x03FFFFFF ↔ Pangram cs := by
  have hseen : ∀ j, (cs.foldl record 0).getLsbD j = true ↔ ∃ c ∈ cs, letter c = some j := by
    intro j
    have hzero : (0 : Word).getLsbD j = false := BitVec.getLsbD_zero
    rw [getLsbD_foldl_record, hzero]
    simp only [Bool.false_eq_true, false_or]
  have hoccurs : ∀ j < 26, (∃ c ∈ cs, letter c = some j) ↔
      UInt8.ofNat (65 + j) ∈ cs ∨ UInt8.ofNat (97 + j) ∈ cs := by
    intro j hj
    simp only [letter_eq_some_iff hj, and_or_left, exists_or, exists_eq_right]
  constructor
  · intro hall j hj
    rw [← hoccurs j hj, ← hseen, hall, getLsbD_alphabet, decide_eq_true hj]
  · intro hpangram
    refine BitVec.eq_of_getLsbD_eq fun j _ => ?_
    rw [getLsbD_alphabet, Bool.eq_iff_iff, hseen, decide_eq_true_eq]
    constructor
    · rintro ⟨c, -, hc⟩
      exact letter_lt hc
    · exact fun hj => (hoccurs j hj).mpr (hpangram j hj)

/-- **`pangram` decides pangrams.** -/
theorem pangram_correct (s : State) (cs : List UInt8)
    (hcs : CString s.memory (s.regs .rdi) cs) :
    ∃ s', Ends (run pangram s) (.ok s') ∧ s'.regs .rax = if Pangram cs then 1 else 0 := by
  obtain ⟨s', hend, hrax, -⟩ := pangram_ends hcs
  refine ⟨s', hend, hrax.trans ?_⟩
  exact if_congr (foldl_record_eq_iff cs) rfl rfl

/-- A state in which a text stands at address 4096, the registers holding `v`. -/
def reading (v : Word) (cs : List UInt8) : State where
  regs r := if r = .rdi then 4096 else v
  flags := ⟨none, none, none⟩
  memory address := cs.getD (address - 4096).toNat 0
  pc := 0

/-- "The quick brown fox jumps over the lazy dog" -/
def quickBrownFox : List UInt8 :=
  [84, 104, 101, 32, 113, 117, 105, 99, 107, 32, 98, 114, 111, 119, 110, 32, 102, 111, 120, 32,
    106, 117, 109, 112, 115, 32, 111, 118, 101, 114, 32, 116, 104, 101, 32, 108, 97, 122, 121, 32,
    100, 111, 103]

theorem pangram_correct_quickBrownFox :
    ∃ s', Ends (run pangram (reading 7 quickBrownFox)) (.ok s') ∧ s'.regs .rax = 1 := by
  obtain ⟨s', hend, hrax⟩ := pangram_correct (reading 7 quickBrownFox) quickBrownFox
    (by simp +decide [quickBrownFox, CString, reading])
  exact ⟨s', hend, hrax.trans (if_pos (by decide))⟩

/-! ## The registers of the caller -/

/-- The letter that is seen last. -/
def lastLetter (cs : List UInt8) : Option Nat := (cs.filterMap letter).getLast?

theorem lastLetter_append (cs : List UInt8) (c : UInt8) :
    lastLetter (cs ++ [c]) = (letter c).or (lastLetter cs) := by
  rw [lastLetter, List.filterMap_append, List.getLast?_append]
  cases hletter : letter c with
  | none => simp only [List.filterMap_cons, hletter, List.filterMap_nil, List.getLast?_nil]; rfl
  | some i => simp only [List.filterMap_cons, hletter, List.filterMap_nil, List.getLast?_singleton,
      Option.some_or]

theorem foldl_recordLast (cs : List UInt8) (last : Word) :
    cs.foldl recordLast last = ((lastLetter cs).map bit).getD last := by
  induction cs using List.reverseRecOn with
  | nil => rfl
  | append_singleton cs c ih =>
      rw [List.foldl_append, ih, lastLetter_append]
      cases hletter : letter c with
      | none => simp only [List.foldl_cons, List.foldl_nil, recordLast, hletter, Option.none_or]
      | some i => simp only [List.foldl_cons, List.foldl_nil, recordLast, hletter, Option.some_or,
          Option.map_some, Option.getD_some]

/-- What no instruction names as its destination. -/
theorem dst_ne_of_calleeSaved {r : Reg} (hr : r ∈ calleeSaved) (hrbx : r ≠ .rbx) :
    ∀ i ∈ code pangram, i.dst ≠ some r := by
  revert r
  decide

/-- What a call does to the callee-saved registers. -/
theorem pangram_calleeSaved (hcs : CString s.memory (s.regs .rdi) cs) :
    ∃ s', Ends (run pangram s) (.ok s') ∧
      s'.regs .rbx = ((lastLetter cs).map bit).getD (s.regs .rbx) ∧
      ∀ r ∈ calleeSaved, r ≠ .rbx → s'.regs r = s.atCall r := by
  obtain ⟨s', hend, -, hrbx⟩ := pangram_ends hcs
  refine ⟨s', hend, hrbx.trans (foldl_recordLast cs _), ?_⟩
  intro r hr hne
  obtain ⟨fuel, hfuel⟩ := hend
  exact regs_of_run (dst_ne_of_calleeSaved hr hne) (hfuel fuel (Nat.le_refl fuel))

/-- **`pangram` and the calling convention.**  The callee-saved registers come back as the
caller had them exactly if the text has no letter, or `rbx` already held the bit of its last
letter. -/
theorem pangram_preserves_iff (s : State) (cs : List UInt8)
    (hcs : CString s.memory (s.regs .rdi) cs) :
    (∃ s', Ends (run pangram s) (.ok s') ∧ ∀ r ∈ calleeSaved, s'.regs r = s.atCall r) ↔
      ∀ i, lastLetter cs = some i → s.regs .rbx = bit i := by
  obtain ⟨s', hend, hrbx, hothers⟩ := pangram_calleeSaved hcs
  have hcall : s.atCall .rbx = s.regs .rbx := rfl
  constructor
  · rintro ⟨s'', hend', hall⟩ i hi
    obtain rfl := Except.ok.inj (hend.unique hend')
    rw [← hcall, ← hall .rbx List.mem_cons_self, hrbx, hi]
    rfl
  · intro hlast
    refine ⟨s', hend, ?_⟩
    intro r hr
    by_cases hne : r = .rbx
    · subst hne
      rw [hrbx, hcall]
      cases hi : lastLetter cs with
      | none => rfl
      | some i => exact (hlast i hi).symm
    · exact hothers r hr hne

/-- "a!" with the bit of `a` in `rbx`. -/
theorem pangram_preserves_one :
    ∃ s', Ends (run pangram (reading 1 [97, 33])) (.ok s') ∧
      ∀ r ∈ calleeSaved, s'.regs r = (reading 1 [97, 33]).atCall r := by
  refine (pangram_preserves_iff (reading 1 [97, 33]) [97, 33]
    ⟨rfl, by decide, rfl, by decide, rfl⟩).mpr ?_
  intro i hi
  obtain rfl : 0 = i := Option.some.inj hi
  rfl

/-- "a" with 7 in `rbx`, which comes back as 1. -/
theorem not_pangram_preserves :
    ¬ ∀ (s : State) (cs : List UInt8), CString s.memory (s.regs .rdi) cs →
      ∃ s', Ends (run pangram s) (.ok s') ∧ ∀ r ∈ calleeSaved, s'.regs r = s.atCall r := by
  intro h
  have hcs : CString (reading 7 [97]).memory ((reading 7 [97]).regs .rdi) [97] :=
    ⟨rfl, by decide, rfl⟩
  obtain ⟨s', hend, hrbx, -⟩ := pangram_calleeSaved hcs
  obtain ⟨s'', hend', hall⟩ := h _ _ hcs
  obtain rfl := Except.ok.inj (hend.unique hend')
  have hback := hrbx.symm.trans (hall .rbx List.mem_cons_self)
  exact absurd hback (by decide)

end Nyctomek.Assembly
