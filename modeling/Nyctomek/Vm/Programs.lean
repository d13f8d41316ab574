/-
# `Vm.Programs` — the programs of `vm_test.go`

`testCompute` assembles a program once and runs it on one memory for all cases.  Between two
cases it clears the inputs, not the output: what a case finds in cell 0 is what the case
before has left there.

    Computes program f    from any data the program comes to a halt, with `f x y v` in cell 0,
                          for the inputs `x` and `y` and the byte `v` that was there
    testCompute_ends      which cases a test passes, then
    tests_verdict         and so for each of the eight programs
-/
import Mathlib.Algebra.BigOperators.Intervals
import Nyctomek.Prog.Triple
import Nyctomek.Vm.Machine

namespace Nyctomek.Vm

open Prog

/-! ## `testCompute` -/

structure VmCase where
  x : UInt8
  y : UInt8
  out : UInt8
  deriving DecidableEq, Repr

structure VmTest where
  asm : Text
  cases : List VmCase
  deriving DecidableEq, Repr

/-- How a test ends that does not pass. -/
inductive Failure where
  | fatalf (c : VmCase) (actual : UInt8)
  | assembler (p : AsmPanic)
  | stop (stop : Stop)
  deriving DecidableEq, Repr

/-- `copy(memory[8:], code)` -/
def copyCode (memory code : Bytes) : Bytes :=
  memory.take 8 ++ (code.take (memory.length - 8) ++ memory.drop (8 + code.length))

/-- One case: the memory it leaves. -/
def testCase (fuel : Nat) (memory : Bytes) (c : VmCase) : Exec Failure Bytes := do
  let memory ← ExceptT.adapt Failure.stop (compute fuel ((memory.set 1 c.x).set 2 c.y))
  let actual := memory.headD 0
  if actual ≠ c.out then throw (.fatalf c actual) else pure ((memory.set 1 0).set 2 0)

def testCompute (test : VmTest) (fuel : Nat) : Exec Failure Unit := do
  let code ← liftM ((assemble test.asm).mapError Failure.assembler)
  let _ ← test.cases.foldlM (testCase fuel) (copyCode (List.replicate 256 0) code)
  pure ()

/-! ## Programs that compute a function -/

section
variable {program : List Instr} {P Q : Machine → Prop} {S : Bytes → Prop}

/-- The states of `compute` that belong to machines. -/
def On (program : List Instr) (P : Machine → Prop) (s : State) : Prop :=
  ∃ m, s = m.state (machineCode program) ∧ P m

/-- Some steps of the machine, in which it does not halt. -/
theorem triple_run (hfits : (machineCode program).length ≤ 248) (n : Nat)
    (h : ∀ m, P m → ∃ m', run program n m = some (.running m') ∧ Q m') :
    Triple computeTurn (On program P) (On program Q) := by
  rintro s ⟨m, rfl, hm⟩
  obtain ⟨m', hrun, hm'⟩ := h m hm
  refine ⟨_, ?_, m', rfl, hm'⟩
  exact Turns.of_after (after_eq hfits hrun)

/-- **One instruction**, which stands at `a`. -/
theorem triple_step (hfits : (machineCode program).length ≤ 248) {a : UInt8} {i : Instr}
    (hi : (listing 8 program).lookup a.toNat = some i)
    (h : ∀ m, P m → m.pc = a ∧ ∃ m', execute program m i = .running m' ∧ Q m') :
    Triple computeTurn (On program P) (On program Q) := by
  refine triple_run hfits 1 ?_
  intro m hm
  obtain ⟨rfl, m', hexecute, hm'⟩ := h m hm
  refine ⟨m', ?_, hm'⟩
  rw [run, step, hi, Option.map_some, hexecute]
  rfl

/-- The last steps of the machine. -/
theorem finishes_run (hfits : (machineCode program).length ≤ 248) (n : Nat)
    (h : ∀ m, P m → ∃ m', run program n m = some (.halted m') ∧
      S (image (machineCode program) m'.data)) :
    Finishes computeTurn (On program P) S := by
  rintro s ⟨m, rfl, hm⟩
  obtain ⟨m', hrun, hm'⟩ := h m hm
  refine ⟨_, (loop_mono _ _).ends (n := n) ?_, hm'⟩
  rw [loop_eq_after, after_eq hfits hrun]
  rfl

/-- There is a cell for the output. -/
theorem output_lt : 0 < 8 := Nat.succ_pos 7

/-- The program puts into cell 0 a function of the inputs and of what has been there. -/
def Computes (program : List Instr) (f : UInt8 → UInt8 → UInt8 → UInt8) : Prop :=
  ∀ data : Vector UInt8 8, Finishes computeTurn (On program (· = start data))
    (· = image (machineCode program) (data.set 0 (f (data.get 1) (data.get 2) (data.get 0))
      output_lt))

/-! ## The verdict of a test -/

/-- The first case whose output is not the function's value, if there is one; `v` is in cell 0. -/
def verdict (f : UInt8 → UInt8 → UInt8 → UInt8) : UInt8 → List VmCase → Except Failure Unit
  | _, [] => .ok ()
  | v, c :: cases =>
      if f c.x c.y v = c.out then verdict f c.out cases else .error (.fatalf c (f c.x c.y v))

/-- Data with nothing but an output. -/
def outputOnly (v : UInt8) : Vector UInt8 8 := (Vector.replicate 8 0).set 0 v output_lt

theorem image_inputs (code : Bytes) (v x y : UInt8) :
    ((image code (outputOnly v)).set 1 x).set 2 y
      = image code (((outputOnly v).set 1 x (by decide)).set 2 y (by decide)) := by
  simp only [image, Vector.toList_set, List.append_assoc]
  rfl

theorem image_cleared (code : Bytes) (v x y w : UInt8) :
    ((image code ((((outputOnly v).set 1 x (by decide)).set 2 y (by decide)).set 0 w
      output_lt)).set 1 0).set 2 0 = image code (outputOnly w) := by
  simp only [image, Vector.toList_set, List.append_assoc]
  rfl

variable {f : UInt8 → UInt8 → UInt8 → UInt8}

/-- **One case.** -/
theorem testCase_ends (h : Computes program f) (v : UInt8) (c : VmCase) :
    Ends (fun fuel => testCase fuel (image (machineCode program) (outputOnly v)) c)
      (if f c.x c.y v = c.out then .ok (image (machineCode program) (outputOnly c.out))
        else .error (.fatalf c (f c.x c.y v))) := by
  let inputs := ((outputOnly v).set 1 c.x (by decide)).set 2 c.y (by decide)
  obtain ⟨memory, hends, hmemory⟩ := h inputs _ ⟨start inputs, rfl, rfl⟩
  have hvalue : f (inputs.get 1) (inputs.get 2) (inputs.get 0) = f c.x c.y v := rfl
  rw [hvalue] at hmemory
  subst hmemory
  have hcompute : Ends (fun fuel => ExceptT.adapt Failure.stop (compute fuel
      (((image (machineCode program) (outputOnly v)).set 1 c.x).set 2 c.y)))
      (.ok (image (machineCode program) (inputs.set 0 (f c.x c.y v) output_lt))) := by
    rw [image_inputs]
    exact hends.adapt Failure.stop
  refine hcompute.bind ?_
  have hactual : (image (machineCode program) (inputs.set 0 (f c.x c.y v)
      output_lt)).headD 0 = f c.x c.y v := rfl
  simp only [hactual, image_cleared, inputs]
  by_cases hout : f c.x c.y v = c.out
  · rw [if_pos hout, if_neg (not_not.mpr hout), hout]
    exact Ends.const _
  · rw [if_neg hout, if_pos hout]
    exact Ends.const _

theorem testCases_ends (h : Computes program f) (v : UInt8) (cases : List VmCase) :
    Ends (fun fuel => do
        let _ ← cases.foldlM (testCase fuel) (image (machineCode program) (outputOnly v))
        pure ()) (verdict f v cases) := by
  induction cases generalizing v with
  | nil => exact Ends.const _
  | cons c cases ih =>
      have hcase := testCase_ends h v c
      simp only [List.foldlM_cons, bind_assoc, verdict]
      by_cases hout : f c.x c.y v = c.out
      · rw [if_pos hout] at hcase ⊢
        exact hcase.bind (ih c.out)
      · rw [if_neg hout] at hcase ⊢
        exact hcase.bind_error

theorem copyCode_image {code : Bytes} (hfits : code.length ≤ 248) :
    copyCode (List.replicate 256 0) code = image code (outputOnly 0) := by
  rw [copyCode, List.length_replicate, List.take_of_length_le hfits, List.take_replicate,
    List.drop_replicate, image, List.append_assoc, show 256 - (8 + code.length) = 248 - code.length
      by omega]
  rfl

/-- **A test** says which is the first case whose output the program does not give. -/
theorem testCompute_ends {asm : Text} (hasm : assemble asm = .ok (machineCode program))
    (hfits : (machineCode program).length ≤ 248) (h : Computes program f) (cases : List VmCase) :
    Ends (testCompute ⟨asm, cases⟩) (verdict f 0 cases) := by
  have hcode : Ends (fun _ => (liftM ((assemble asm).mapError Failure.assembler) :
      Exec Failure Bytes)) (.ok (machineCode program)) := by
    rw [hasm]
    exact Ends.const _
  refine hcode.bind ?_
  rw [copyCode_image hfits]
  exact testCases_ends h 0 cases

end

/-! ## The tests -/

/-- The text of a test, the program that it lists, and what that computes. -/
structure Source where
  asm : Text
  program : List Instr
  result : UInt8 → UInt8 → UInt8 → UInt8

/-- `"Halt"`: the output is left alone. -/
def haltTest : Source where
  asm := "
halt".toList
  program := [.halt]
  result := fun _ _ v => v

/-- `"LoadStore"` -/
def loadStoreTest : Source where
  asm := "
load r1 1
store r1 0
halt".toList
  program := [.load .r1 1, .store .r1 0, .halt]
  result := fun x _ _ => x

/-- `"Add"` -/
def addTest : Source where
  asm := "
load r1 1
load r2 2
add r1 r2
store r1 0
halt".toList
  program := [.load .r1 1, .load .r2 2, .add .r1 .r2, .store .r1 0, .halt]
  result := fun x y _ => x + y

/-- `"Subtract"` -/
def subtractTest : Source where
  asm := "
load r1 1
load r2 2
sub r1 r2
store r1 0
halt".toList
  program := [.load .r1 1, .load .r2 2, .sub .r1 .r2, .store .r1 0, .halt]
  result := fun x y _ => x - y

/-- `"Jump"`: over the store. -/
def jumpTest : Source where
  asm := "
load r1 1
jump 16
store r1 0
halt".toList
  program := [.load .r1 1, .jump 16, .store .r1 0, .halt]
  result := fun _ _ v => v

/-- `"Beqz"`: over the store, if the second input is zero. -/
def beqzTest : Source where
  asm := "
load r1 1
load r2 2
beqz r2 3
store r1 0
halt".toList
  program := [.load .r1 1, .load .r2 2, .beqz .r2 3, .store .r1 0, .halt]
  result := fun x y v => if y = 0 then v else x

/-- `"Addi"` -/
def addiTest : Source where
  asm := "
load r1 1
addi r1 3
addi r1 5
store r1 0
halt".toList
  program := [.load .r1 1, .addi .r1 3, .addi .r1 5, .store .r1 0, .halt]
  result := fun x _ _ => x + 8

/-- `"Sum to n"`, modulo 256. -/
def sumTest : Source where
  asm := "
load r1 1
beqz r1 8
add r2 r1
subi r1 1
jump 11
store r2 0
halt".toList
  program := [.load .r1 1, .beqz .r1 8, .add .r2 .r1, .subi .r1 1, .jump 11, .store .r2 0, .halt]
  result := fun x _ _ => UInt8.ofNat (∑ i ∈ Finset.range (x.toNat + 1), i)

/-- `mainTests`, and `stretchGoalTests` behind them. -/
def tests : List Source :=
  [haltTest, loadStoreTest, addTest, subtractTest, jumpTest, beqzTest, addiTest, sumTest]

theorem exists_bytes (data : Vector UInt8 8) :
    ∃ v x y a b c d e, data = #v[v, x, y, a, b, c, d, e] := by
  refine ⟨data.get 0, data.get 1, data.get 2, data.get 3, data.get 4, data.get 5, data.get 6,
    data.get 7, ?_⟩
  apply Vector.ext
  intro i hi
  match i, hi with
  | 0, _ | 1, _ | 2, _ | 3, _ | 4, _ | 5, _ | 6, _ | 7, _ => rfl

/-- A program without branches is executed once and for all. -/
theorem computes_of_run {program : List Instr} {f : UInt8 → UInt8 → UInt8 → UInt8}
    (hfits : (machineCode program).length ≤ 248) (n : Nat)
    (h : ∀ v x y a b c d e, ∃ m, run program n (start #v[v, x, y, a, b, c, d, e]) = some (.halted m) ∧
      m.data = #v[f x y v, x, y, a, b, c, d, e]) : Computes program f := by
  intro data
  refine finishes_run hfits n ?_
  rintro m rfl
  obtain ⟨v, x, y, a, b, c, d, e, rfl⟩ := exists_bytes data
  obtain ⟨m, hrun, hdata⟩ := h v x y a b c d e
  exact ⟨m, hrun, congrArg (image (machineCode program)) hdata⟩

theorem computes_halt : Computes haltTest.program haltTest.result :=
  computes_of_run (by decide) 1 fun _ _ _ _ _ _ _ _ => ⟨_, rfl, rfl⟩

theorem computes_loadStore : Computes loadStoreTest.program loadStoreTest.result :=
  computes_of_run (by decide) 3 fun _ _ _ _ _ _ _ _ => ⟨_, rfl, rfl⟩

theorem computes_add : Computes addTest.program addTest.result :=
  computes_of_run (by decide) 5 fun _ _ _ _ _ _ _ _ => ⟨_, rfl, rfl⟩

theorem computes_subtract : Computes subtractTest.program subtractTest.result :=
  computes_of_run (by decide) 5 fun _ _ _ _ _ _ _ _ => ⟨_, rfl, rfl⟩

theorem computes_jump : Computes jumpTest.program jumpTest.result :=
  computes_of_run (by decide) 3 fun _ _ _ _ _ _ _ _ => ⟨_, rfl, rfl⟩

theorem computes_addi : Computes addiTest.program addiTest.result := by
  refine computes_of_run (by decide) 5 fun v x y a b c d e => ⟨_, rfl, ?_⟩
  have hsum : x + 3 + 5 = x + 8 := UInt8.add_assoc x 3 5
  show #v[x + 3 + 5, x, y, a, b, c, d, e] = #v[x + 8, x, y, a, b, c, d, e]
  rw [hsum]

/-- The branch is taken, or the store is executed behind it. -/
theorem computes_beqz : Computes beqzTest.program beqzTest.result := by
  have hfits : (machineCode beqzTest.program).length ≤ 248 := by decide
  intro data
  obtain ⟨v, x, y, a, b, c, d, e, rfl⟩ := exists_bytes data
  have hloads : Triple computeTurn
      (On beqzTest.program (· = start #v[v, x, y, a, b, c, d, e]))
      (On beqzTest.program (· = ⟨14, x, y, #v[v, x, y, a, b, c, d, e]⟩)) := by
    refine triple_run hfits 2 ?_
    rintro m rfl
    exact ⟨_, rfl, rfl⟩
  refine hloads.finishes ?_
  by_cases hy : y = 0
  · subst hy
    have hbranch : Triple computeTurn
        (On beqzTest.program (· = ⟨14, x, 0, #v[v, x, 0, a, b, c, d, e]⟩))
        (On beqzTest.program (· = ⟨20, x, 0, #v[v, x, 0, a, b, c, d, e]⟩)) := by
      refine triple_step hfits (a := 14) rfl ?_
      rintro m rfl
      exact ⟨rfl, _, rfl, rfl⟩
    refine hbranch.finishes (finishes_run hfits 1 ?_)
    rintro m rfl
    exact ⟨_, rfl, rfl⟩
  · have hbranch : Triple computeTurn
        (On beqzTest.program (· = ⟨14, x, y, #v[v, x, y, a, b, c, d, e]⟩))
        (On beqzTest.program (· = ⟨17, x, y, #v[v, x, y, a, b, c, d, e]⟩)) := by
      refine triple_step hfits (a := 14) rfl ?_
      rintro m rfl
      exact ⟨rfl, _, if_neg hy, rfl⟩
    refine hbranch.finishes (finishes_run hfits 2 ?_)
    rintro m rfl
    refine ⟨_, rfl, ?_⟩
    have hresult : beqzTest.result x y v = x := if_neg hy
    show _ = image _ #v[beqzTest.result x y v, x, y, a, b, c, d, e]
    rw [hresult]
    rfl

/-- The numbers up to `k` are still to be added. -/
structure Summing (x : UInt8) (data : Vector UInt8 8) (pc : UInt8) (k : Nat) (m : Machine) :
    Prop where
  pc : m.pc = pc
  left : m.r1 = UInt8.ofNat k
  le : k ≤ x.toNat
  sum : m.r2 + UInt8.ofNat (∑ i ∈ Finset.range (k + 1), i)
    = UInt8.ofNat (∑ i ∈ Finset.range (x.toNat + 1), i)
  data : m.data = data

/-- **Once round**: the greatest number left is added. -/
theorem summing_round (x : UInt8) (data : Vector UInt8 8) (k : Nat) :
    Triple computeTurn (On sumTest.program (Summing x data 11 (k + 1)))
      (On sumTest.program (Summing x data 11 k)) := by
  have hfits : (machineCode sumTest.program).length ≤ 248 := by decide
  have hbranch : Triple computeTurn (On sumTest.program (Summing x data 11 (k + 1)))
      (On sumTest.program (Summing x data 14 (k + 1))) := by
    refine triple_step hfits (a := 11) rfl ?_
    rintro ⟨pc, r1, r2, data'⟩ ⟨hpc, hleft, hle, hsum, hdata⟩
    simp only at hpc hleft hsum hdata
    subst hpc hleft hdata
    refine ⟨rfl, _, if_neg ?_, rfl, rfl, hle, hsum, rfl⟩
    have hx := x.toNat_lt
    intro hzero
    have hnat := congrArg UInt8.toNat hzero
    simp only [Machine.get, UInt8.toNat_ofNat', UInt8.toNat_zero] at hnat
    omega
  refine hbranch.seq (triple_run hfits 3 ?_)
  rintro ⟨pc, r1, r2, data'⟩ ⟨hpc, hleft, hle, hsum, hdata⟩
  simp only at hpc hleft hsum hdata
  subst hpc hleft hdata
  refine ⟨_, rfl, rfl, ?_, Nat.le_of_succ_le hle, ?_, rfl⟩
  · show UInt8.ofNat (k + 1) - 1 = UInt8.ofNat k
    rw [UInt8.ofNat_add]
    exact UInt8.add_sub_cancel _ _
  · show r2 + UInt8.ofNat (k + 1) + UInt8.ofNat (∑ i ∈ Finset.range (k + 1), i) = _
    have hlast : ∑ i ∈ Finset.range (k + 1 + 1), i = (k + 1) + ∑ i ∈ Finset.range (k + 1), i := by
      rw [Finset.sum_range_succ _ (k + 1), Nat.add_comm]
    rw [hlast, UInt8.ofNat_add (k + 1), ← UInt8.add_assoc] at hsum
    exact hsum

theorem computes_sum : Computes sumTest.program sumTest.result := by
  have hfits : (machineCode sumTest.program).length ≤ 248 := by decide
  intro data
  obtain ⟨v, x, y, a, b, c, d, e, rfl⟩ := exists_bytes data
  have hload : Triple computeTurn (On sumTest.program (· = start #v[v, x, y, a, b, c, d, e]))
      (On sumTest.program (Summing x #v[v, x, y, a, b, c, d, e] 11 x.toNat)) := by
    refine triple_run hfits 1 ?_
    rintro m rfl
    exact ⟨_, rfl, rfl, UInt8.ofNat_toNat.symm, Nat.le_refl _, UInt8.zero_add _, rfl⟩
  have hloop : Triple computeTurn
      (On sumTest.program (Summing x #v[v, x, y, a, b, c, d, e] 11 x.toNat))
      (On sumTest.program (Summing x #v[v, x, y, a, b, c, d, e] 11 0)) :=
    .countdown (I := fun k => On sumTest.program (Summing x #v[v, x, y, a, b, c, d, e] 11 k))
      (summing_round x _) x.toNat
  refine (hload.seq hloop).finishes (finishes_run hfits 3 ?_)
  rintro ⟨pc, r1, r2, data⟩ ⟨hpc, hleft, -, hsum, hdata⟩
  simp only at hpc hleft hsum hdata
  subst hpc hleft hdata
  refine ⟨_, rfl, ?_⟩
  have hzero : r2 + UInt8.ofNat (∑ i ∈ Finset.range (0 + 1), i) = r2 := UInt8.add_zero r2
  rw [hzero] at hsum
  subst hsum
  rfl

/-- The eight programs, assembled. -/
theorem tests_computes : ∀ t ∈ tests, assemble t.asm = .ok (machineCode t.program) ∧
    (machineCode t.program).length ≤ 248 ∧ Computes t.program t.result := by
  simp only [tests, List.forall_mem_cons, List.not_mem_nil, false_implies, implies_true, and_true]
  exact ⟨⟨rfl, by decide, computes_halt⟩, ⟨rfl, by decide, computes_loadStore⟩,
    ⟨rfl, by decide, computes_add⟩, ⟨rfl, by decide, computes_subtract⟩,
    ⟨rfl, by decide, computes_jump⟩, ⟨rfl, by decide, computes_beqz⟩,
    ⟨rfl, by decide, computes_addi⟩, ⟨rfl, by decide, computes_sum⟩⟩

/-- **The tests of the virtual machine**, with whatever cases: `testCompute` comes to an end, and
fails at the first case whose output is not the function's value. -/
theorem tests_verdict (t : Source) (ht : t ∈ tests) (cases : List VmCase) :
    Ends (testCompute ⟨t.asm, cases⟩) (verdict t.result 0 cases) := by
  obtain ⟨hasm, hfits, hcomputes⟩ := tests_computes t ht
  exact testCompute_ends hasm hfits hcomputes cases

/-- Where the branch is taken the output of the case before is still there. -/
theorem tests_verdict_beqz :
    Ends (testCompute ⟨beqzTest.asm, [⟨42, 1, 42⟩, ⟨7, 0, 42⟩, ⟨7, 0, 0⟩]⟩)
      (.error (.fatalf ⟨7, 0, 0⟩ 42)) :=
  tests_verdict beqzTest (by simp [tests]) [⟨42, 1, 42⟩, ⟨7, 0, 42⟩, ⟨7, 0, 0⟩]

end Nyctomek.Vm
