/-
# `Assembly.SumToN` — `sum_to_n.asm`

The routine adds `1`, `2`, … up to the number in `rdi`.  Its C prototype passes an
`int`, of which the calling convention promises the low half of `rdi` only; the loop
compares all 64 bits.

    n          the low half of rdi, as a signed number
    upper      the upper half, as a signed number
    m          rdi as a signed number, which the loop goes up to
-/
import Mathlib.Algebra.Ring.Parity
import Mathlib.Data.Nat.Prime.Basic
import Mathlib.Tactic.NormNum
import Mathlib.Tactic.Ring
import Nyctomek.Prog.X86

namespace Nyctomek.Assembly

open Prog Prog.X86

inductive SumLabel where
  | testexpr
  | addtosum
  | «return»
  deriving DecidableEq, Repr

/-- `sum_to_n` -/
def sumToN : List (Line SumLabel) := [
  .instr (.mov .rax (.imm 0)),
  .instr (.mov .rsi (.imm 1)),
  .label .testexpr,
  .instr (.cmp .rsi (.reg .rdi)),
  .instr (.jcc .g .return),
  .label .addtosum,
  .instr (.add .rax (.reg .rsi)),
  .instr (.inc .rsi),
  .instr (.jmp .testexpr),
  .label .return,
  .instr .ret]

/-- The place of `.testexpr`. -/
def testexpr : Nat := 2

variable {s : State} {k m : Nat}

/-! ## The loop -/

/-- Once round. -/
theorem sumToN_round (hpc : s.pc = testexpr) (hle : (s.regs .rdi).slt (s.regs .rsi) = false) :
    ∃ s₁ s', step sumToN s = .ok (.again s₁) ∧ Turns (step sumToN) s₁ s' ∧ s'.pc = testexpr ∧
      s'.regs .rax = s.regs .rax + s.regs .rsi ∧ s'.regs .rsi = s.regs .rsi + 1 ∧
      s'.regs .rdi = s.regs .rdi := by
  obtain ⟨regs, flags, memory, pc⟩ := s
  subst hpc
  refine ⟨_, _, step_again rfl rfl, .head (step_jcc_not rfl ?_) (.head (step_again rfl rfl)
    (.head (step_again rfl rfl) (.single (step_jmp rfl rfl)))), rfl, ?_, ?_, ?_⟩
  · exact (holds_g _ _).trans (congrArg some hle)
  · rfl
  · rfl
  · rfl

/-- Behind the last number. -/
theorem sumToN_return (hpc : s.pc = testexpr) (hlt : (s.regs .rdi).slt (s.regs .rsi) = true) :
    ∃ s', Ends (fun n => loop (step sumToN) n s) (.ok s') ∧ s'.regs .rax = s.regs .rax := by
  obtain ⟨regs, flags, memory, pc⟩ := s
  subst hpc
  refine ⟨_, .of_turns (.head (step_again rfl rfl) (.single (step_jcc rfl ?_ rfl)))
    (.loop_stop (step_ret rfl)), rfl⟩
  exact (holds_g _ _).trans (congrArg some hlt)

/-- The sum of the numbers from 1 to `n`. -/
def triangle (n : Nat) : Nat := n * (n + 1) / 2

theorem two_mul_triangle (n : Nat) : 2 * triangle n = n * (n + 1) :=
  Nat.two_mul_div_two_of_even (Nat.even_mul_succ_self n)

theorem triangle_succ (n : Nat) : triangle (n + 1) = triangle n + (n + 1) := by
  have hn := two_mul_triangle n
  have hsucc := two_mul_triangle (n + 1)
  have hring : (n + 1) * (n + 1 + 1) = n * (n + 1) + 2 * (n + 1) := by ring
  omega

/-- **The loop** from the number `k + 1` on. -/
theorem sumToN_loop (hm : m + 1 < 2 ^ 63) (hk : k ≤ m) (hpc : s.pc = testexpr)
    (hrdi : s.regs .rdi = BitVec.ofNat 64 m) (hrsi : s.regs .rsi = BitVec.ofNat 64 (k + 1))
    (hrax : s.regs .rax = BitVec.ofNat 64 (triangle k)) :
    ∃ s', Ends (fun n => loop (step sumToN) n s) (.ok s') ∧
      s'.regs .rax = BitVec.ofNat 64 (triangle m) := by
  obtain ⟨d, rfl⟩ := Nat.exists_eq_add_of_le hk
  clear hk
  induction d generalizing s k with
  | zero =>
      have hlt : (s.regs .rdi).slt (s.regs .rsi) = true := by
        rw [hrdi, hrsi, slt_ofNat (by omega) (by omega), decide_eq_true_eq]
        omega
      obtain ⟨s', hend, hs'⟩ := sumToN_return hpc hlt
      exact ⟨s', hend, hs'.trans hrax⟩
  | succ d ih =>
      have hle : (s.regs .rdi).slt (s.regs .rsi) = false := by
        rw [hrdi, hrsi, slt_ofNat (by omega) (by omega), decide_eq_false_iff_not]
        omega
      obtain ⟨s₁, s₂, hstep, hturns, hpc', hrax', hrsi', hrdi'⟩ := sumToN_round hpc hle
      have hsum : k + 1 + d = k + (d + 1) := by omega
      rw [← hsum] at hm hrdi ⊢
      have hrsi₂ : s₂.regs .rsi = BitVec.ofNat 64 (k + 1 + 1) := by
        rw [hrsi', hrsi, BitVec.ofNat_add (k + 1)]
        rfl
      have hrax₂ : s₂.regs .rax = BitVec.ofNat 64 (triangle (k + 1)) := by
        rw [hrax', hrax, hrsi, triangle_succ, BitVec.ofNat_add (triangle k)]
      obtain ⟨s', hend, hs'⟩ := ih hpc' hrsi₂ hrax₂ hm (hrdi'.trans hrdi)
      exact ⟨s', .of_turns (.head hstep hturns) hend, hs'⟩

/-! ## A call -/

/-- At the head of the loop for the first time. -/
theorem sumToN_enter (s : State) :
    ∃ s', Turns (step sumToN) { s with pc := 0 } s' ∧ s'.pc = testexpr ∧
      s'.regs .rax = 0 ∧ s'.regs .rsi = 1 ∧ s'.regs .rdi = s.regs .rdi :=
  ⟨_, .head (step_again rfl rfl) (.single (step_again rfl rfl)), rfl, rfl, rfl, rfl⟩

/-- A number that is not positive: the loop is left at once. -/
theorem sumToN_of_le (hm : (s.regs .rdi).toInt ≤ 0) :
    ∃ s', Ends (run sumToN s) (.ok s') ∧ s'.regs .rax = 0 := by
  obtain ⟨s₁, hturns, hpc, hrax, hrsi, hrdi⟩ := sumToN_enter s
  have hlt : (s₁.regs .rdi).slt (s₁.regs .rsi) = true := by
    rw [hrdi, hrsi, BitVec.slt_iff_toInt_lt]
    exact Int.lt_of_le_of_lt hm (by decide)
  obtain ⟨s', hend, hs'⟩ := sumToN_return hpc hlt
  exact ⟨s', .of_turns hturns hend, hs'.trans hrax⟩

/-- A positive number below the greatest one. -/
theorem sumToN_of_lt (hm : m + 1 < 2 ^ 63) (hrdi : s.regs .rdi = BitVec.ofNat 64 m) :
    ∃ s', Ends (run sumToN s) (.ok s') ∧ s'.regs .rax = BitVec.ofNat 64 (triangle m) := by
  obtain ⟨s₁, hturns, hpc, hrax, hrsi, hrdi'⟩ := sumToN_enter s
  obtain ⟨s', hend, hs'⟩ := sumToN_loop hm (Nat.zero_le m) hpc (hrdi'.trans hrdi) hrsi hrax
  exact ⟨s', .of_turns hturns hend, hs'⟩

/-- The greatest one: no number is greater, and the loop goes on for ever. -/
theorem sumToN_of_max (hm : (s.regs .rdi).toInt = 2 ^ 63 - 1) (r : Except X86.Fault State) :
    ¬ Ends (run sumToN s) r := by
  obtain ⟨s₁, hturns, hpc, -, -, hrdi⟩ := sumToN_enter s
  intro hend
  refine not_ends_of_turns (I := fun t => t.pc = testexpr ∧ t.regs .rdi = s.regs .rdi) ?_
    ⟨hpc, hrdi⟩ r (hend.behind_turns hturns)
  rintro t ⟨htpc, htrdi⟩
  have hle : (t.regs .rdi).slt (t.regs .rsi) = false := by
    have hrsi := (t.regs .rsi).toInt_lt
    rw [htrdi, BitVec.slt_eq_decide, hm, decide_eq_false_iff_not]
    omega
  obtain ⟨s₁, s₂, hstep, hturns, hpc', -, -, hrdi'⟩ := sumToN_round htpc hle
  exact ⟨s₁, hstep, s₂, hturns, hpc', hrdi'.trans htrdi⟩

/-! ## Sums modulo `2 ^ 32` -/

/-- Only the lowest bit of the upper half counts. -/
theorem triangle_halves (u w : Nat) :
    triangle (u + 2 ^ 32 * w) % 2 ^ 32 = (triangle u + 2 ^ 31 * w) % 2 ^ 32 := by
  have hm := two_mul_triangle (u + 2 ^ 32 * w)
  have hu := two_mul_triangle u
  have hring : (u + 2 ^ 32 * w) * (u + 2 ^ 32 * w + 1)
      = u * (u + 1) + 2 * (2 ^ 32 * (u * w)) + 2 ^ 32 * w + 2 * (2 ^ 32 * (2 ^ 31 * (w * w))) := by
    ring
  omega

/-- A triangle of the upper half of the numbers is read from below. -/
theorem triangle_complement {b : Nat} (hb : b < 2 ^ 32) :
    (triangle (2 ^ 32 - 1 - b) + 2 ^ 31) % 2 ^ 32 = triangle b % 2 ^ 32 := by
  obtain ⟨u, hu⟩ : ∃ u, u + b + 1 = 2 ^ 32 := ⟨2 ^ 32 - 1 - b, by omega⟩
  have hsub : 2 ^ 32 - 1 - b = u := by omega
  have h2u := two_mul_triangle u
  have h2b := two_mul_triangle b
  have hring : u * (u + 1) + (u + b + 1) * (2 * b + 1)
      = (u + b + 1) * (u + b + 1) + b * (b + 1) := by
    ring
  rw [hu] at hring
  rw [hsub]
  omega

/-- A number below `2 ^ 31` is too small for its triangle to be a multiple of that. -/
theorem eq_zero_of_dvd_triangle {b : Nat} (hb : b < 2 ^ 31) (hdvd : 2 ^ 31 ∣ triangle b) :
    b = 0 := by
  have htwo : 2 ^ 32 ∣ b * (b + 1) := by
    rw [← two_mul_triangle, pow_succ']
    exact mul_dvd_mul_left 2 hdvd
  rcases Nat.even_or_odd b with heven | hodd
  · have hnot : ¬ 2 ∣ b + 1 := by
      obtain ⟨c, rfl⟩ := heven
      omega
    have hpow := Nat.prime_two.prime.pow_dvd_of_dvd_mul_right 32 hnot htwo
    exact Nat.eq_zero_of_dvd_of_lt hpow (by omega)
  · have hnot : ¬ 2 ∣ b := by
      obtain ⟨c, rfl⟩ := hodd
      omega
    have hpow := Nat.prime_two.prime.pow_dvd_of_dvd_mul_left 32 hnot htwo
    exact absurd (Nat.le_of_dvd (Nat.succ_pos b) hpow) (by omega)

/-- The sum is right for a register with a positive upper half … -/
theorem triangle_halves_iff {u : Nat} (hu : u < 2 ^ 32) (w : Nat) :
    triangle (u + 2 ^ 32 * w) % 2 ^ 32 = (if u < 2 ^ 31 then triangle u % 2 ^ 32 else 0) ↔
      (u < 2 ^ 31 ∧ w % 2 = 0) ∨ (u = 2 ^ 32 - 1 ∧ w % 2 = 1) := by
  rw [triangle_halves]
  by_cases hlow : u < 2 ^ 31
  · rw [if_pos hlow]
    omega
  · rw [if_neg hlow]
    obtain ⟨b, rfl⟩ : ∃ b, u = 2 ^ 32 - 1 - b := ⟨2 ^ 32 - 1 - u, by omega⟩
    have hb : 2 ^ 32 - 1 - b ≥ 2 ^ 31 := Nat.not_lt.mp hlow
    have hcomplement := triangle_complement (b := b) (by omega)
    have hzero : triangle 0 = 0 := rfl
    constructor
    · intro hsum
      obtain rfl : b = 0 := eq_zero_of_dvd_triangle (by omega) (by omega)
      exact .inr ⟨rfl, by omega⟩
    · rintro (⟨hlow', -⟩ | ⟨hu', hodd⟩)
      · exact absurd hlow' hlow
      · obtain rfl : b = 0 := by omega
        omega

/-- … and with a negative one. -/
theorem triangle_mod_eq_zero_iff {u : Nat} :
    0 = (if u < 2 ^ 31 then triangle u % 2 ^ 32 else 0) ↔ u = 0 ∨ 2 ^ 31 ≤ u := by
  by_cases hlow : u < 2 ^ 31
  · rw [if_pos hlow]
    constructor
    · intro hzero
      exact .inl (eq_zero_of_dvd_triangle hlow (by omega))
    · rintro (rfl | hhigh)
      · rfl
      · exact absurd hlow (Nat.not_lt.mpr hhigh)
  · rw [if_neg hlow]
    exact iff_of_true rfl (.inr (Nat.not_lt.mp hlow))

/-! ## The halves of a register -/

def lowHalf (v : Word) : BitVec 32 := v.setWidth 32

def highHalf (v : Word) : BitVec 32 := (v >>> 32).setWidth 32

/-- What the routine is to return for an `int`. -/
def sumTo (n : BitVec 32) : BitVec 32 :=
  if n.toInt < 0 then 0 else BitVec.ofInt 32 (n.toInt * (n.toInt + 1) / 2)

/-- The routine returns, in the low half of `rax`, the sum for the `int` in the low half of
`rdi`. -/
def SumsRight (s : State) : Prop :=
  ∃ s', Ends (run sumToN s) (.ok s') ∧ lowHalf (s'.regs .rax) = sumTo (lowHalf (s.regs .rdi))

/-- The `int` and the upper half of its register go together. -/
def HalvesFit (n upper : Int) : Prop :=
  (upper < 0 ∧ n ≤ 0) ∨ (0 ≤ upper ∧ upper % 2 = 0 ∧ 0 ≤ n) ∨
    (0 ≤ upper ∧ upper % 2 = 1 ∧ n = -1 ∧ upper ≠ 2 ^ 31 - 1)

theorem toNat_halves (v : Word) : v.toNat = (lowHalf v).toNat + 2 ^ 32 * (highHalf v).toNat := by
  have hv := v.isLt
  rw [lowHalf, highHalf, BitVec.toNat_setWidth, BitVec.toNat_setWidth, BitVec.toNat_ushiftRight,
    Nat.shiftRight_eq_div_pow]
  omega

theorem lowHalf_ofNat (x : Nat) : lowHalf (BitVec.ofNat 64 x) = BitVec.ofNat 32 x := by
  apply BitVec.eq_of_toNat_eq
  rw [lowHalf, BitVec.toNat_setWidth, BitVec.toNat_ofNat, BitVec.toNat_ofNat]
  omega

theorem toInt_eq_ite {w : Nat} (v : BitVec w) :
    v.toInt = if 2 * v.toNat < 2 ^ w then (v.toNat : Int) else v.toNat - 2 ^ w := by
  rw [BitVec.toInt_eq_toNat_cond]
  norm_cast

/-- The sum in terms of the bits. -/
theorem toNat_sumTo (n : BitVec 32) :
    (sumTo n).toNat = if n.toNat < 2 ^ 31 then triangle n.toNat % 2 ^ 32 else 0 := by
  have hn := n.isLt
  have hint := toInt_eq_ite n
  unfold sumTo
  by_cases hlow : n.toNat < 2 ^ 31
  · have hnat : n.toInt = (n.toNat : Int) := by rw [hint, if_pos (by omega)]
    have hcast : ((n.toNat : Int) * (n.toNat + 1) / 2) = ((triangle n.toNat : Nat) : Int) := by
      rw [triangle]
      push_cast
      rfl
    rw [if_pos hlow, hnat, if_neg (by omega), hcast, BitVec.ofInt_natCast, BitVec.toNat_ofNat]
  · have hneg : n.toInt < 0 := by
      rw [hint, if_neg (by omega)]
      omega
    rw [if_neg hlow, if_pos hneg]
    rfl

theorem sumsRight_iff_of_ends {s' : State} (h : Ends (run sumToN s) (.ok s')) :
    SumsRight s ↔ (lowHalf (s'.regs .rax)).toNat = (sumTo (lowHalf (s.regs .rdi))).toNat := by
  rw [BitVec.toNat_inj]
  constructor
  · rintro ⟨s'', hend, hright⟩
    obtain rfl := Except.ok.inj (h.unique hend)
    exact hright
  · exact fun hright => ⟨s', h, hright⟩

/-- **`sum_to_n` for an `int`.**  The routine comes back with the sum exactly if the upper
half of the register goes with the number: a negative one with a negative number or 0, a
positive one with a positive number if it is even, and an odd one with -1. -/
theorem sumsRight_iff (s : State) :
    SumsRight s ↔
      HalvesFit (lowHalf (s.regs .rdi)).toInt (highHalf (s.regs .rdi)).toInt := by
  have hlow := (lowHalf (s.regs .rdi)).isLt
  have hhigh := (highHalf (s.regs .rdi)).isLt
  have hnat := toNat_halves (s.regs .rdi)
  have hint := toInt_eq_ite (s.regs .rdi)
  have hn := toInt_eq_ite (lowHalf (s.regs .rdi))
  have hupper := toInt_eq_ite (highHalf (s.regs .rdi))
  unfold HalvesFit
  by_cases hneg : 2 ^ 31 ≤ (highHalf (s.regs .rdi)).toNat
  · obtain ⟨s', hend, hrax⟩ := sumToN_of_le (s := s) (by omega)
    have hzero : (lowHalf 0).toNat = 0 := rfl
    rw [sumsRight_iff_of_ends hend, hrax, hzero, toNat_sumTo, triangle_mod_eq_zero_iff]
    omega
  · by_cases hmax : (s.regs .rdi).toNat = 2 ^ 63 - 1
    · have hends := sumToN_of_max (s := s) (by omega)
      refine iff_of_false ?_ (by omega)
      rintro ⟨s', hend, -⟩
      exact hends _ hend
    · obtain ⟨s', hend, hrax⟩ := sumToN_of_lt (s := s) (m := (s.regs .rdi).toNat) (by omega)
        (by rw [BitVec.ofNat_toNat, BitVec.setWidth_eq])
      rw [sumsRight_iff_of_ends hend, hrax, lowHalf_ofNat, BitVec.toNat_ofNat, toNat_sumTo, hnat,
        triangle_halves_iff hlow]
      omega

/-- A call of `sum_to_n(-1)`: a 32-bit move has cleared the upper half of `rdi`. -/
def minusOne : State :=
  ⟨fun r => if r = .rdi then 0xFFFFFFFF else 0, ⟨none, none, none⟩, fun _ => 0, 0⟩

/-- The numbers from 1 to `2 ^ 32 - 1` are added up, to -2147483648. -/
theorem not_sumsRight_minusOne : ¬ ∀ s, SumsRight s := by
  intro h
  obtain ⟨s', hend, hrax⟩ := sumToN_of_lt (s := minusOne) (m := 2 ^ 32 - 1) (by decide) rfl
  have hright := (sumsRight_iff_of_ends hend).mp (h minusOne)
  rw [hrax] at hright
  exact absurd hright (by decide)

end Nyctomek.Assembly
