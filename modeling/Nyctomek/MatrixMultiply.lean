/-
# `MatrixMultiply` — the naive product and the fast one

Both functions of `matrix-multiply.c` work on `double**`, here lists of rows over
any semiring: the arithmetic is exact, and what is kept is which entries are read
and written, in which order.  An access beyond a row, or beyond the rows, fails.

    matrix_multiply         i < a_rows, j < b_cols, k < a_cols    C[i][j] += A[i][k] * B[k][j]
    fast_matrix_multiply    i < a_rows, j < a_cols                C[i][j] = 0
                            i < a_rows, j < b_cols, k < a_cols    C[i][k] += A[i][j] * B[j][k]

In the fast version the bounds of `j` and `k` have changed places.
-/
import Nyctomek.Prog.ForLoop
import Mathlib.Algebra.BigOperators.Group.Finset.Basic
import Mathlib.Algebra.Ring.Int.Defs
import Mathlib.Algebra.GroupWithZero.NeZero

namespace Nyctomek.MatrixMultiply

open Prog

/-- An entry that is not there. -/
structure OutOfRange where
  row : Nat
  column : Nat
  deriving DecidableEq, Repr

/-- `double**`: the rows of a matrix. -/
abbrev Rows (R : Type) := List (List R)

variable {R : Type}

/-- `M[i][j]`. -/
def Rows.get (M : Rows R) (i j : Nat) : Except OutOfRange R :=
  match M[i]?.bind fun row => row[j]? with
  | some v => .ok v
  | none => .error ⟨i, j⟩

/-- `M[i][j] = v`. -/
def Rows.set (M : Rows R) (i j : Nat) (v : R) : Except OutOfRange (Rows R) :=
  match M[i]? with
  | some row => if j < row.length then .ok (List.set M i (row.set j v)) else .error ⟨i, j⟩
  | none => .error ⟨i, j⟩

/-- `C[i][j] += A[p][q] * B[r][s]`. -/
def Rows.addProduct [Add R] [Mul R] (A B : Rows R) (i j p q r s : Nat) (C : Rows R) :
    Except OutOfRange (Rows R) := do
  let c ← C.get i j
  let a ← A.get p q
  let b ← B.get r s
  C.set i j (c + a * b)

section
variable [Add R] [Mul R] [Zero R]

def matrix_multiply (C A B : Rows R) (a_rows a_cols b_cols : Nat) : Except OutOfRange (Rows R) :=
  forUpTo a_rows (fun i => forUpTo b_cols fun j C => do
    let C ← C.set i j 0
    forUpTo a_cols (fun k => Rows.addProduct A B i j i k k j) C) C

def fast_matrix_multiply (C A B : Rows R) (a_rows a_cols b_cols : Nat) :
    Except OutOfRange (Rows R) := do
  let C ← forUpTo a_rows (fun i => forUpTo a_cols fun j C => C.set i j 0) C
  forUpTo a_rows (fun i => forUpTo b_cols fun j => forUpTo a_cols fun k =>
    Rows.addProduct A B i k i j j k) C

end

/-! ## Matrices by their entries -/

/-- The rows of the matrix with the entries `f i j`. -/
def tabulate (rows cols : Nat) (f : Nat → Nat → R) : Rows R :=
  (List.range rows).map fun i => (List.range cols).map (f i)

/-- `M` has `rows` rows of `cols` entries. -/
structure Dims (M : Rows R) (rows cols : Nat) : Prop where
  rows : M.length = rows
  cols : ∀ row ∈ M, row.length = cols

/-- `f` with another entry at `i`, `j`. -/
def update (f : Nat → Nat → R) (i j : Nat) (v : R) (i' j' : Nat) : R :=
  if i' = i ∧ j' = j then v else f i' j'

section
variable {rows cols i j : Nat} {f g v : Nat → Nat → R}

theorem dims_tabulate (rows cols : Nat) (f : Nat → Nat → R) : Dims (tabulate rows cols f) rows cols where
  rows := by simp [tabulate]
  cols := by
    intro row hrow
    obtain ⟨i, -, rfl⟩ := List.mem_map.mp hrow
    simp

theorem tabulate_congr (h : ∀ i j, i < rows → j < cols → f i j = g i j) :
    tabulate rows cols f = tabulate rows cols g := by
  refine List.map_congr_left ?_
  intro i hi
  refine List.map_congr_left ?_
  intro j hj
  exact h i j (List.mem_range.mp hi) (List.mem_range.mp hj)

theorem Dims.eq_tabulate [Zero R] {M : Rows R} (h : Dims M rows cols) :
    ∃ f, M = tabulate rows cols f := by
  obtain ⟨rfl, hcols⟩ := h
  refine ⟨fun i j => (M.getD i []).getD j 0, ?_⟩
  refine List.ext_getElem (by simp [tabulate]) ?_
  intro i hi hi'
  have hlen := hcols M[i] (List.getElem_mem hi)
  refine List.ext_getElem (by simp [tabulate, hlen]) ?_
  intro j hj hj'
  simp [tabulate, hi, hj]

theorem get_tabulate (hi : i < rows) (hj : j < cols) : (tabulate rows cols f).get i j = .ok (f i j) := by
  simp [Rows.get, tabulate, hi, hj]

theorem get_tabulate_of_le (h : rows ≤ i ∨ cols ≤ j) :
    (tabulate rows cols f).get i j = .error ⟨i, j⟩ := by
  by_cases hi : i < rows
  · have hj : cols ≤ j := h.resolve_left (Nat.not_le_of_lt hi)
    simp [Rows.get, tabulate, hi, hj]
  · simp [Rows.get, tabulate, Nat.le_of_not_lt hi]

theorem set_tabulate (hi : i < rows) (hj : j < cols) (v : R) :
    (tabulate rows cols f).set i j v = .ok (tabulate rows cols (update f i j v)) := by
  have hrow : (tabulate rows cols f)[i]? = some ((List.range cols).map (f i)) := by
    simp [tabulate, hi]
  simp only [Rows.set, hrow, List.length_map, List.length_range, if_pos hj]
  refine congrArg Except.ok (List.ext_getElem (by simp [tabulate]) ?_)
  intro i' hi' hi''
  refine List.ext_getElem (by rw [List.getElem_set]; split <;> simp [tabulate]) ?_
  intro j' hj' hj''
  rw [List.getElem_set] at hj'
  by_cases hii : i = i'
  · subst hii
    by_cases hjj : j = j'
    · subst hjj
      simp [tabulate, update]
    · simp [tabulate, update, hjj, Ne.symm hjj]
  · simp [tabulate, update, hii, Ne.symm hii]

theorem set_tabulate_of_le (h : cols ≤ j) (v : R) :
    (tabulate rows cols f).set i j v = .error ⟨i, j⟩ := by
  by_cases hi : i < rows
  · simp [Rows.set, tabulate, hi, Nat.not_lt.mpr h]
  · simp [Rows.set, tabulate, Nat.le_of_not_lt hi]

theorem update_update (f : Nat → Nat → R) (i j : Nat) (v w : R) :
    update (update f i j v) i j w = update f i j w := by
  funext i' j'
  simp only [update]
  split <;> rfl

theorem update_self (f : Nat → Nat → R) (i j : Nat) (v : R) : update f i j v i j = v :=
  if_pos ⟨rfl, rfl⟩

/-- Two loops over all entries that give each its value leave the matrix of the values. -/
theorem fill_eq {body : Nat → Nat → Rows R → Except OutOfRange (Rows R)}
    (hbody : ∀ i j f, i < rows → j < cols →
      body i j (tabulate rows cols f) = .ok (tabulate rows cols (update f i j (v i j)))) :
    forUpTo rows (fun i => forUpTo cols (body i)) (tabulate rows cols f)
      = .ok (tabulate rows cols v) := by
  have hrow : ∀ i, i < rows → ∀ f, forUpTo cols (body i) (tabulate rows cols f) = .ok
      (tabulate rows cols fun i' j' => if i' = i ∧ j' < cols then v i' j' else f i' j') := by
    intro i hi f
    refine (congrArg _ ?_).trans (forUpTo_eq (F := fun j => tabulate rows cols
      fun i' j' => if i' = i ∧ j' < j then v i' j' else f i' j') ?_)
    · simp
    · intro j hj
      rw [hbody i j _ hi hj]
      refine congrArg Except.ok (tabulate_congr ?_)
      intro i' j' _ _
      simp only [update]
      grind
  refine (congrArg _ ?_).trans ((forUpTo_eq (F := fun i => tabulate rows cols
    fun i' j' => if i' < i then v i' j' else f i' j') ?_).trans ?_)
  · simp
  · intro i hi
    rw [hrow i hi]
    refine congrArg Except.ok (tabulate_congr ?_)
    intro i' j' _ hj'
    grind
  · refine congrArg Except.ok (tabulate_congr ?_)
    intro i' j' hi' _
    rw [if_pos hi']

end

/-! ## What the loops leave -/

section
variable [Semiring R] {a b f : Nat → Nat → R} {a_rows a_cols b_cols rows cols i j : Nat}

/-- The first `n` products of row `i` and column `j`, summed up. -/
def dot (a b : Nat → Nat → R) (i j n : Nat) : R := ∑ k ∈ Finset.range n, a i k * b k j

theorem addProduct_tabulate (hi : i < rows) (hj : j < cols) {p q r s : Nat}
    {a_r a_c b_r b_c : Nat} (hp : p < a_r) (hq : q < a_c) (hr : r < b_r) (hs : s < b_c) :
    Rows.addProduct (tabulate a_r a_c a) (tabulate b_r b_c b) i j p q r s (tabulate rows cols f)
      = .ok (tabulate rows cols (update f i j (f i j + a p q * b r s))) := by
  simp only [Rows.addProduct, get_tabulate hi hj, get_tabulate hp hq, get_tabulate hr hs, bind,
    Except.bind, set_tabulate hi hj]

/-- **The naive product** is the product. -/
theorem matrix_multiply_eq (a b f : Nat → Nat → R) (a_rows a_cols b_cols : Nat) :
    matrix_multiply (tabulate a_rows b_cols f) (tabulate a_rows a_cols a)
        (tabulate a_cols b_cols b) a_rows a_cols b_cols
      = .ok (tabulate a_rows b_cols fun i j => dot a b i j a_cols) := by
  refine fill_eq ?_
  intro i j f hi hj
  simp only [set_tabulate hi hj, bind, Except.bind]
  have hinner : forUpTo a_cols (fun k => Rows.addProduct (tabulate a_rows a_cols a)
      (tabulate a_cols b_cols b) i j i k k j)
      (tabulate a_rows b_cols (update f i j (dot a b i j 0)))
      = .ok (tabulate a_rows b_cols (update f i j (dot a b i j a_cols))) := by
    refine forUpTo_eq (F := fun k => tabulate a_rows b_cols (update f i j (dot a b i j k))) ?_
    intro k hk
    rw [addProduct_tabulate hi hj hi hk hk hj, update_update, update_self, dot, dot,
      Finset.sum_range_succ]
  rw [← hinner]
  simp [dot]

/-- One row of the fast product, the row being cleared before. -/
theorem fast_row_eq {n i : Nat} (hi : i < a_rows) (hzero : ∀ j, f i j = 0) :
    forUpTo n (fun j => forUpTo n fun k =>
      Rows.addProduct (tabulate a_rows n a) (tabulate n n b) i k i j j k) (tabulate a_rows n f)
      = .ok (tabulate a_rows n fun i' j' => if i' = i then dot a b i j' n else f i' j') := by
  have hinner : ∀ j, j < n → ∀ f, forUpTo n
      (fun k => Rows.addProduct (tabulate a_rows n a) (tabulate n n b) i k i j j k)
      (tabulate a_rows n f) = .ok (tabulate a_rows n fun i' k' =>
        if i' = i ∧ k' < n then f i' k' + a i j * b j k' else f i' k') := by
    intro j hj f
    refine (congrArg _ ?_).trans (forUpTo_eq (F := fun k => tabulate a_rows n
      fun i' k' => if i' = i ∧ k' < k then f i' k' + a i j * b j k' else f i' k') ?_)
    · simp
    · intro k hk
      rw [addProduct_tabulate hi hk hi hj hj hk]
      refine congrArg Except.ok (tabulate_congr ?_)
      intro i' k' _ _
      simp only [update]
      grind
  refine (congrArg _ ?_).trans (forUpTo_eq (F := fun j => tabulate a_rows n
    fun i' j' => if i' = i then dot a b i j' j else f i' j') ?_)
  · refine tabulate_congr ?_
    intro i' j' _ _
    by_cases hii : i' = i
    · simp [hii, hzero, dot]
    · simp [hii]
  · intro j hj
    rw [hinner j hj]
    refine congrArg Except.ok (tabulate_congr ?_)
    intro i' k' _ hk'
    by_cases hii : i' = i
    · simp [hii, hk', dot, Finset.sum_range_succ]
    · simp [hii]

/-- **The fast product** of a matrix and a square one is the product. -/
theorem fast_matrix_multiply_eq (a b f : Nat → Nat → R) (a_rows n : Nat) :
    fast_matrix_multiply (tabulate a_rows n f) (tabulate a_rows n a) (tabulate n n b) a_rows n n
      = .ok (tabulate a_rows n fun i j => dot a b i j n) := by
  have hclear : forUpTo a_rows (fun i => forUpTo n fun j C => C.set i j 0) (tabulate a_rows n f)
      = .ok (tabulate a_rows n fun _ _ => (0 : R)) :=
    fill_eq fun i j f hi hj => set_tabulate hi hj 0
  simp only [fast_matrix_multiply, hclear, bind, Except.bind]
  refine (congrArg _ ?_).trans ((forUpTo_eq (F := fun i => tabulate a_rows n
    fun i' j' => if i' < i then dot a b i' j' n else 0) ?_).trans ?_)
  · simp
  · intro i hi
    rw [fast_row_eq hi fun j => if_neg (Nat.lt_irrefl i)]
    refine congrArg Except.ok (tabulate_congr ?_)
    intro i' j' _ _
    grind
  · refine congrArg Except.ok (tabulate_congr ?_)
    intro i' j' hi' _
    rw [if_pos hi']

/-! ### Where the fast product goes wrong -/

/-- Without columns in `A` nothing is cleared. -/
theorem fast_leaves (C A B : Rows R) (a_rows b_cols : Nat) :
    fast_matrix_multiply C A B a_rows 0 b_cols = .ok C := by
  have hclear : forUpTo a_rows (fun i => forUpTo 0 fun j C => C.set i j 0) C = .ok C :=
    forUpTo_eq (F := fun _ => C) fun _ _ => rfl
  simp only [fast_matrix_multiply, hclear, bind, Except.bind]
  refine forUpTo_eq (F := fun _ => C) fun i _ => ?_
  exact forUpTo_eq (F := fun _ => C) fun _ _ => rfl

/-- With more columns than `C` has, clearing leaves the first row. -/
theorem fast_clears_beyond (hrows : 0 < a_rows) (hcols : b_cols < a_cols) (A B : Rows R) :
    ∃ e, fast_matrix_multiply (tabulate a_rows b_cols f) A B a_rows a_cols b_cols = .error e := by
  have hrow : ∃ e, forUpTo a_cols (fun j C => Rows.set C 0 j 0) (tabulate a_rows b_cols f)
      = .error e := by
    refine forUpTo_error (I := fun _ C => ∃ g, C = tabulate a_rows b_cols g) hcols ⟨f, rfl⟩ ?_ ?_
    · rintro j _ hj ⟨g, rfl⟩
      exact ⟨_, set_tabulate hrows hj 0, _, rfl⟩
    · rintro _ ⟨g, rfl⟩
      exact ⟨_, set_tabulate_of_le (Nat.le_refl _) 0⟩
  obtain ⟨e, he⟩ := hrow
  have hclear : forUpTo a_rows (fun i => forUpTo a_cols fun j C => C.set i j 0)
      (tabulate a_rows b_cols f) = .error e := forUpTo_error_of_le (m := 1) he hrows
  exact ⟨e, by simp only [fast_matrix_multiply, hclear, bind, Except.bind]⟩

/-- With fewer columns than `B` has, but some, the first row of `A` is left. -/
theorem fast_reads_beyond (hrows : 0 < a_rows) (hpos : 0 < a_cols) (hcols : a_cols < b_cols) :
    ∃ e, fast_matrix_multiply (tabulate a_rows b_cols f) (tabulate a_rows a_cols a)
      (tabulate a_cols b_cols b) a_rows a_cols b_cols = .error e := by
  have hclear : ∃ C, forUpTo a_rows (fun i => forUpTo a_cols fun j C => C.set i j 0)
      (tabulate a_rows b_cols f) = .ok C ∧ ∃ g, C = tabulate a_rows b_cols g := by
    refine forUpTo_invariant (I := fun _ C => ∃ g, C = tabulate a_rows b_cols g) ⟨f, rfl⟩ ?_
    rintro i _ hi ⟨g, rfl⟩
    refine forUpTo_invariant (I := fun _ C => ∃ g, C = tabulate a_rows b_cols g) ⟨g, rfl⟩ ?_
    rintro j _ hj ⟨g, rfl⟩
    exact ⟨_, set_tabulate hi (Nat.lt_trans hj hcols) 0, _, rfl⟩
  obtain ⟨_, hclear, g, rfl⟩ := hclear
  have hrow : ∃ e, forUpTo b_cols (fun j => forUpTo a_cols fun k =>
      Rows.addProduct (tabulate a_rows a_cols a) (tabulate a_cols b_cols b) 0 k 0 j j k)
      (tabulate a_rows b_cols g) = .error e := by
    refine forUpTo_error (I := fun _ C => ∃ g, C = tabulate a_rows b_cols g) hcols ⟨g, rfl⟩ ?_ ?_
    · rintro j _ hj ⟨g, rfl⟩
      refine forUpTo_invariant (I := fun _ C => ∃ g, C = tabulate a_rows b_cols g) ⟨g, rfl⟩ ?_
      rintro k _ hk ⟨g, rfl⟩
      have hk' := Nat.lt_trans hk hcols
      exact ⟨_, addProduct_tabulate hrows hk' hrows hj hj hk', _, rfl⟩
    · rintro _ ⟨g, rfl⟩
      refine ⟨⟨0, a_cols⟩, forUpTo_error_of_le (m := 1) ?_ hpos⟩
      simp only [forUpTo, Rows.addProduct, get_tabulate hrows (Nat.lt_trans hpos hcols),
        get_tabulate_of_le (.inr (Nat.le_refl a_cols)), bind, Except.bind]
  obtain ⟨e, he⟩ := hrow
  refine ⟨e, ?_⟩
  simp only [fast_matrix_multiply, hclear, bind, Except.bind]
  exact forUpTo_error_of_le (m := 1) he hrows

end

/-! ## When the two agree -/

/-- The fast product stays inside the matrices and leaves what the naive one leaves. -/
def Agree [Semiring R] (C A B : Rows R) (a_rows a_cols b_cols : Nat) : Prop :=
  ∃ C', fast_matrix_multiply C A B a_rows a_cols b_cols = .ok C' ∧
    matrix_multiply C A B a_rows a_cols b_cols = .ok C'

/-- **When the fast product is the product.**  Whatever `C` holds before, exactly if
there are no rows or `B` is square. -/
theorem agree_iff [Semiring R] [Nontrivial R] {a_rows a_cols b_cols : Nat} {A B : Rows R}
    (hA : Dims A a_rows a_cols) (hB : Dims B a_cols b_cols) :
    (∀ C, Dims C a_rows b_cols → Agree C A B a_rows a_cols b_cols) ↔
      a_rows = 0 ∨ a_cols = b_cols := by
  obtain ⟨a, rfl⟩ := hA.eq_tabulate
  obtain ⟨b, rfl⟩ := hB.eq_tabulate
  constructor
  · intro hagree
    by_contra hne
    obtain ⟨hrows, hcols⟩ := not_or.mp hne
    have hpos : 0 < a_rows := Nat.pos_of_ne_zero hrows
    obtain ⟨C', hfast, hnaive⟩ := hagree _ (dims_tabulate a_rows b_cols fun _ _ => 1)
    rcases Nat.lt_or_gt_of_ne hcols with hlt | hgt
    · rcases Nat.eq_zero_or_pos a_cols with rfl | hapos
      · rw [fast_leaves] at hfast
        rw [matrix_multiply_eq, ← hfast] at hnaive
        have hget := congrArg (fun M => Rows.get M 0 0) (Except.ok.inj hnaive)
        simp only [get_tabulate hpos hlt, dot, Finset.sum_range_zero, Except.ok.injEq] at hget
        exact absurd hget.symm one_ne_zero
      · obtain ⟨e, he⟩ := fast_reads_beyond (f := fun _ _ => 1) (a := a) (b := b) hpos hapos hlt
        exact absurd (hfast.symm.trans he) (by simp)
    · obtain ⟨e, he⟩ := fast_clears_beyond (f := fun _ _ => 1) hpos hgt
        (tabulate a_rows a_cols a) (tabulate a_cols b_cols b)
      exact absurd (hfast.symm.trans he) (by simp)
  · rintro hcase C hC
    obtain ⟨f, rfl⟩ := hC.eq_tabulate
    rcases hcase with rfl | rfl
    · exact ⟨[], rfl, rfl⟩
    · exact ⟨_, fast_matrix_multiply_eq a b f a_rows a_cols, matrix_multiply_eq a b f _ _ _⟩

/-- Three rows of two columns, times a square. -/
theorem agree_threeRows : Agree ([[7, 7], [7, 7], [7, 7]] : Rows Int) [[1, 2], [3, 4], [5, 6]]
    [[1, -1], [0, 2]] 3 2 2 := by
  have hA : Dims ([[1, 2], [3, 4], [5, 6]] : Rows Int) 3 2 := ⟨rfl, by simp⟩
  have hB : Dims ([[1, -1], [0, 2]] : Rows Int) 2 2 := ⟨rfl, by simp⟩
  exact (agree_iff hA hB).mpr (.inr rfl) [[7, 7], [7, 7], [7, 7]] ⟨rfl, by simp⟩

/-- A 1 × 1 matrix times a 1 × 2 one: `A[0][1]` is read. -/
theorem disagree_wide : Dims ([[1]] : Rows Int) 1 1 ∧ Dims ([[1, 1]] : Rows Int) 1 2 ∧
    ¬ ∀ C, Dims C 1 2 → Agree C ([[1]] : Rows Int) [[1, 1]] 1 1 2 := by
  refine ⟨⟨rfl, by decide⟩, ⟨rfl, by decide⟩, ?_⟩
  intro hagree
  obtain ⟨C', hfast, -⟩ := hagree [[0, 0]] ⟨rfl, by decide⟩
  have hfails : fast_matrix_multiply ([[0, 0]] : Rows Int) [[1]] [[1, 1]] 1 1 2
      = .error ⟨0, 1⟩ := by decide
  exact absurd (hfast.symm.trans hfails) (by simp)

end Nyctomek.MatrixMultiply
