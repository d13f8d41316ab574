/-
# `MatrixMultiply.Benchmark` — the benchmark, in whatever arithmetic

`benchmark.c` multiplies two random square matrices with both functions and compares what they
leave with `!=` on doubles.  That is sound although the additions of doubles are not associative:
both add up the products of an entry in the same order, from 0 on (`accumulate`).

    matrix_multiply         C[i][j] gets its products one behind the other
    fast_matrix_multiply    C[i][k] gets one in every round of j

No law of the arithmetic is assumed here, so it may round as it likes.
-/
import Mathlib.Data.ZMod.Defs
import Nyctomek.MatrixMultiply
import Nyctomek.Prog.Loop

namespace Nyctomek.MatrixMultiply

open Prog

variable {R : Type}

/-! ## The program -/

/-- `matrix_alloc`: `calloc` leaves zeros. -/
def matrix_alloc [Zero R] (m n : Nat) : Rows R := List.replicate m (List.replicate n 0)

/-- `matrix_fill_random`, with `drawn` numbers drawn before. -/
def matrix_fill_random (rand : Nat → R) (matrix : Rows R) (drawn m n : Nat) :
    Except OutOfRange (Rows R × Nat) :=
  forUpTo m (fun i => forUpTo n fun j s => do
    let matrix ← s.1.set i j (rand s.2)
    .ok (matrix, s.2 + 1)) (matrix, drawn)

/-- `matrix_equal`; `equal` is `==` on doubles.  Behind the `return false` nothing is read. -/
def matrix_equal (equal : R → R → Bool) (A B : Rows R) (m n : Nat) : Except OutOfRange Bool :=
  forUpTo m (fun i => forUpTo n fun j same => do
    if same then
      let a ← A.get i j
      let b ← B.get i j
      .ok (equal a b)
    else .ok false) true

/-- `main` with the argument `n`: whether it prints that the results did not match. -/
def benchmark [Add R] [Mul R] [Zero R] (rand : Nat → R) (equal : R → R → Bool) (n : Int) :
    Except OutOfRange Bool := do
  let n := n.toNat
  let (A, drawn) ← matrix_fill_random rand (matrix_alloc n n) 0 n n
  let (B, _) ← matrix_fill_random rand (matrix_alloc n n) drawn n n
  let _ ← matrix_multiply (matrix_alloc n n) A B n n n
  let C_naive ← matrix_multiply (matrix_alloc n n) A B n n n
  let C_fast ← fast_matrix_multiply (matrix_alloc n n) A B n n n
  let same ← matrix_equal equal C_naive C_fast n n
  .ok (!same)

/-! ## The order of the additions -/

section
variable [Add R] [Mul R] {a b f : Nat → Nat → R} {a_rows rows cols i j : Nat}

/-- One turn of an innermost loop. -/
theorem addProduct_ok (hi : i < rows) (hj : j < cols) {p q r s : Nat}
    {a_r a_c b_r b_c : Nat} (hp : p < a_r) (hq : q < a_c) (hr : r < b_r) (hs : s < b_c) :
    Rows.addProduct (tabulate a_r a_c a) (tabulate b_r b_c b) i j p q r s (tabulate rows cols f)
      = .ok (tabulate rows cols (update f i j (f i j + a p q * b r s))) := by
  simp only [Rows.addProduct, get_tabulate hi hj, get_tabulate hp hq, get_tabulate hr hs, ok_bind,
    set_tabulate hi hj]

/-- A round of `j`: every entry of the row gets its product. -/
theorem fast_round {n : Nat} (hi : i < a_rows) (hj : j < n) (f : Nat → Nat → R) :
    forUpTo n (fun k => Rows.addProduct (tabulate a_rows n a) (tabulate n n b) i k i j j k)
        (tabulate a_rows n f)
      = .ok (tabulate a_rows n fun i' k' =>
          if i' = i then f i' k' + a i j * b j k' else f i' k') := by
  have hturn : ∀ k, k < n →
      Rows.addProduct (tabulate a_rows n a) (tabulate n n b) i k i j j k
        (tabulate a_rows n fun i' k' =>
          if i' = i ∧ k' < k then f i' k' + a i j * b j k' else f i' k')
      = .ok (tabulate a_rows n fun i' k' =>
          if i' = i ∧ k' < k + 1 then f i' k' + a i j * b j k' else f i' k') := by
    intro k hk
    rw [addProduct_ok hi hk hi hj hj hk]
    refine congrArg Except.ok (tabulate_congr ?_)
    intro i' k' _ _
    simp only [update]
    grind
  have hturns := forUpTo_eq (F := fun k => tabulate a_rows n fun i' k' =>
    if i' = i ∧ k' < k then f i' k' + a i j * b j k' else f i' k') hturn
  refine (congrArg _ ?_).trans (hturns.trans (congrArg Except.ok (tabulate_congr ?_)))
  · simp
  · intro i' k' _ hk'
    simp [hk']

variable [Zero R]

/-- The first `n` products of row `i` and column `j`, added up one after the other. -/
def accumulate (a b : Nat → Nat → R) (i j : Nat) : Nat → R
  | 0 => 0
  | n + 1 => accumulate a b i j n + a i n * b n j

theorem matrix_multiply_accumulates (a b f : Nat → Nat → R) (a_rows a_cols b_cols : Nat) :
    matrix_multiply (tabulate a_rows b_cols f) (tabulate a_rows a_cols a)
        (tabulate a_cols b_cols b) a_rows a_cols b_cols
      = .ok (tabulate a_rows b_cols fun i j => accumulate a b i j a_cols) := by
  refine fill_eq ?_
  intro i j f hi hj
  rw [set_tabulate hi hj, ok_bind]
  refine forUpTo_eq (F := fun k => tabulate a_rows b_cols (update f i j (accumulate a b i j k))) ?_
  intro k hk
  rw [addProduct_ok hi hj hi hk hk hj, update_update, update_self]
  rfl

/-- **Rounds over `j` add up in the same order.** -/
theorem fast_accumulates (a b f : Nat → Nat → R) (a_rows n : Nat) :
    fast_matrix_multiply (tabulate a_rows n f) (tabulate a_rows n a) (tabulate n n b) a_rows n n
      = .ok (tabulate a_rows n fun i j => accumulate a b i j n) := by
  have hclear : forUpTo a_rows (fun i => forUpTo n fun j C => C.set i j 0) (tabulate a_rows n f)
      = .ok (tabulate a_rows n fun _ _ => (0 : R)) :=
    fill_eq fun i j f hi hj => set_tabulate hi hj 0
  have hrow : ∀ i, i < a_rows → forUpTo n (fun j => forUpTo n fun k =>
        Rows.addProduct (tabulate a_rows n a) (tabulate n n b) i k i j j k)
      (tabulate a_rows n fun i' j' => if i' < i then accumulate a b i' j' n else 0)
      = .ok (tabulate a_rows n fun i' j' => if i' < i + 1 then accumulate a b i' j' n else 0) := by
    intro i hi
    have hround : ∀ j, j < n →
        forUpTo n (fun k => Rows.addProduct (tabulate a_rows n a) (tabulate n n b) i k i j j k)
          (tabulate a_rows n fun i' k' => if i' < i then accumulate a b i' k' n
            else if i' = i then accumulate a b i' k' j else 0)
        = .ok (tabulate a_rows n fun i' k' => if i' < i then accumulate a b i' k' n
            else if i' = i then accumulate a b i' k' (j + 1) else 0) := by
      intro j hj
      rw [fast_round hi hj]
      refine congrArg Except.ok (tabulate_congr ?_)
      intro i' k' _ _
      grind [accumulate]
    have hrounds := forUpTo_eq (F := fun j => tabulate a_rows n fun i' k' =>
      if i' < i then accumulate a b i' k' n
      else if i' = i then accumulate a b i' k' j else 0) hround
    refine (congrArg _ (tabulate_congr ?_)).trans
      (hrounds.trans (congrArg Except.ok (tabulate_congr ?_)))
    · intro i' k' _ _
      simp [accumulate]
    · intro i' k' _ _
      grind
  simp only [fast_matrix_multiply, hclear, ok_bind]
  refine (congrArg _ (tabulate_congr ?_)).trans ((forUpTo_eq (F := fun i => tabulate a_rows n
    fun i' j' => if i' < i then accumulate a b i' j' n else 0) hrow).trans
      (congrArg Except.ok (tabulate_congr ?_)))
  · simp
  · intro i' j' hi' _
    rw [if_pos hi']

end

/-- **The fast product is the naive one to the last bit**, of a matrix and a square one, whatever
the addition and the multiplication are and whatever the results hold before. -/
theorem fast_eq_naive [Add R] [Mul R] [Zero R] {a_rows n : Nat} {A B C C' : Rows R}
    (hA : Dims A a_rows n) (hB : Dims B n n) (hC : Dims C a_rows n) (hC' : Dims C' a_rows n) :
    ∃ M, fast_matrix_multiply C A B a_rows n n = .ok M ∧
      matrix_multiply C' A B a_rows n n = .ok M := by
  obtain ⟨a, rfl⟩ := hA.eq_tabulate
  obtain ⟨b, rfl⟩ := hB.eq_tabulate
  obtain ⟨f, rfl⟩ := hC.eq_tabulate
  obtain ⟨g, rfl⟩ := hC'.eq_tabulate
  exact ⟨_, fast_accumulates a b f a_rows n, matrix_multiply_accumulates a b g a_rows n n⟩

/-- Machine numbers of one digit: `9 + 1` is `0`. -/
theorem fast_eq_naive_wrapping : ∃ M,
    fast_matrix_multiply [[0, 0], [0, 0]] [[9, 4], [2, 7]] [[3, 1], [6, 8]] 2 2 2 = .ok M ∧
      matrix_multiply [[5, 5], [5, 5]] [[9, 4], [2, 7]] [[3, 1], [6, 8]] 2 2 2
        = .ok (M : Rows (Fin 10)) :=
  fast_eq_naive ⟨rfl, by decide⟩ ⟨rfl, by decide⟩ ⟨rfl, by decide⟩ ⟨rfl, by decide⟩

/-! ## What the benchmark prints -/

section
variable {a b f : Nat → Nat → R} {rand : Nat → R} {equal : R → R → Bool} {drawn m n : Nat}

theorem matrix_alloc_eq [Zero R] (m n : Nat) :
    (matrix_alloc m n : Rows R) = tabulate m n fun _ _ => 0 := by
  refine List.ext_getElem (by simp [matrix_alloc, tabulate]) ?_
  intro i hi hi'
  simp [matrix_alloc, tabulate]

/-- The entries are drawn row by row. -/
theorem matrix_fill_random_eq (rand : Nat → R) (f : Nat → Nat → R) (drawn m n : Nat) :
    matrix_fill_random rand (tabulate m n f) drawn m n
      = .ok (tabulate m n fun i j => rand (drawn + i * n + j), drawn + m * n) := by
  have hrow : ∀ i f d, i < m → forUpTo n (fun j (s : Rows R × Nat) => do
      let matrix ← s.1.set i j (rand s.2)
      .ok (matrix, s.2 + 1)) (tabulate m n f, d)
      = .ok (tabulate m n fun i' j' => if i' = i then rand (d + j') else f i' j', d + n) := by
    intro i f d hi
    refine (congrArg _ ?_).trans ((forUpTo_eq (F := fun j => (tabulate m n fun i' j' =>
      if i' = i ∧ j' < j then rand (d + j') else f i' j', d + j)) ?_).trans ?_)
    · simp
    · intro j hj
      simp only [set_tabulate hi hj, ok_bind]
      refine congrArg (fun M => Except.ok (M, d + j + 1)) (tabulate_congr ?_)
      intro i' j' _ _
      simp only [update]
      grind
    · refine congrArg (fun M => Except.ok (M, d + n)) (tabulate_congr ?_)
      intro i' j' _ hj'
      simp [hj']
  rw [matrix_fill_random]
  refine (congrArg _ ?_).trans ((forUpTo_eq (F := fun i => (tabulate m n fun i' j' =>
    if i' < i then rand (drawn + i' * n + j') else f i' j', drawn + i * n)) ?_).trans ?_)
  · simp
  · intro i hi
    rw [hrow i _ _ hi, Nat.add_assoc, ← Nat.succ_mul]
    refine congrArg (fun M => Except.ok (M, drawn + (i + 1) * n)) (tabulate_congr ?_)
    intro i' j' _ _
    grind
  · refine congrArg (fun M => Except.ok (M, drawn + m * n)) (tabulate_congr ?_)
    intro i' j' hi' _
    rw [if_pos hi']

/-- Whether all entries are equal, and so for the first ones. -/
theorem matrix_equal_eq (equal : R → R → Bool) (a b : Nat → Nat → R) (m n : Nat) :
    matrix_equal equal (tabulate m n a) (tabulate m n b) m n
      = .ok ((List.range m).all fun i => (List.range n).all fun j => equal (a i j) (b i j)) := by
  refine forUpTo_eq (F := fun i =>
    (List.range i).all fun i' => (List.range n).all fun j => equal (a i' j) (b i' j)) ?_
  intro i hi
  refine (congrArg _ ?_).trans ((forUpTo_eq (F := fun j =>
    ((List.range i).all fun i' => (List.range n).all fun j => equal (a i' j) (b i' j)) &&
      (List.range j).all fun j' => equal (a i j') (b i j')) ?_).trans ?_)
  · simp
  · intro j hj
    simp only [List.range_succ, List.all_append, List.all_cons, List.all_nil, Bool.and_true]
    split
    · next hsame =>
      rw [get_tabulate hi hj, get_tabulate hi hj, ok_bind, ok_bind, ← Bool.and_assoc, hsame,
        Bool.true_and]
    · next hsame =>
      rw [← Bool.and_assoc, Bool.eq_false_iff.mpr hsame, Bool.false_and]
  · rw [List.range_succ, List.all_append, List.all_cons, List.all_nil, Bool.and_true]

variable [Add R] [Mul R] [Zero R]

/-- The entry of the product of the two matrices that are drawn. -/
def entry (rand : Nat → R) (n i j : Nat) : R :=
  accumulate (fun i j => rand (i * n + j)) (fun i j => rand (n * n + i * n + j)) i j n

end

/-- **What the benchmark prints**: it never leaves a matrix, and says that the results did not
match exactly if an entry of the product is not equal to itself, as a NaN is not. -/
theorem benchmark_iff [Add R] [Mul R] [Zero R] (rand : Nat → R) (equal : R → R → Bool) (n : Int) :
    ∃ printed, benchmark rand equal n = .ok printed ∧
      (printed = true ↔ ∃ i < n.toNat, ∃ j < n.toNat,
        equal (entry rand n.toNat i j) (entry rand n.toNat i j) = false) := by
  refine ⟨!((List.range n.toNat).all fun i => (List.range n.toNat).all fun j =>
    equal (entry rand n.toNat i j) (entry rand n.toNat i j)), ?_, ?_⟩
  · simp only [benchmark, matrix_alloc_eq, matrix_fill_random_eq, ok_bind,
      matrix_multiply_accumulates, fast_accumulates, matrix_equal_eq, Nat.zero_add]
    rfl
  · simp

end Nyctomek.MatrixMultiply
