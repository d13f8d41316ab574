/-
# `Ls.Columns` — the layout in columns, and the terminals for which there is one

`listFilesMultiColumnOutput` fills a table from top to bottom and then from left to
right.  Its width comes from the environment, as an `int` of either sign:

    w = 0                   one name per line, no loop
    0 < |w| < columnWidth   no columns: a division by zero
    columnWidth ≤ w         the table
    w ≤ -columnWidth        a negative number of columns, as a `size_t` in the loop
-/
import Mathlib.Algebra.Order.Floor.Semiring
import Mathlib.Data.Rat.Floor
import Nyctomek.Ls
import Nyctomek.Prog.ForLoop

namespace Nyctomek.Ls

open Prog

variable {fileInfo : List FileInfo} {relativePath : Bytes} {sys : System}
  {columnWidth numRows : Int} {numColumns : Nat}

/-! ## The table -/

/-- A name that is padded to the width of a column. -/
def entryText (relativePath : Bytes) (columnWidth : Int) (file : FileInfo) : Bytes :=
  padRight columnWidth (file.displayFileName relativePath)

/-- The rows of a table, whose items are files and their indices. -/
def printTable (relativePath : Bytes) (columnWidth : Int) (table : List (List (FileInfo × Nat))) :
    List Printed :=
  table.flatMap fun row =>
    row.map (fun item => .entry item.1 (entryText relativePath columnWidth item.1))
      ++ [.text [newline]]

/-- What is printed before the newline. -/
def rowWidth (relativePath : Bytes) (columnWidth : Int) (row : List (FileInfo × Nat)) : Nat :=
  (row.map fun item => (entryText relativePath columnWidth item.1).length).sum

theorem flatMap_cell {rows row : Nat} (hrows : rows < 2 ^ 31) (hcolumns : numColumns < 2 ^ 31)
    (hrow : row < rows) : ((List.range numColumns).flatMap fun column =>
      cell fileInfo relativePath columnWidth rows row column)
      = (gridRow fileInfo.zipIdx rows numColumns row).map fun item =>
          .entry item.1 (entryText relativePath columnWidth item.1) := by
  rw [gridRow, List.map_filterMap, List.filterMap_eq_flatMap_toList]
  refine List.flatMap_congr ?_
  intro column hcolumn
  rw [cell, index_eq hrows hcolumns hrow (List.mem_range.mp hcolumn), List.getElem?_zipIdx]
  cases fileInfo[column * rows + row]? <;> rfl

theorem printRows_eq {rows : Nat} (hrows : rows < 2 ^ 31) (hcolumns : numColumns < 2 ^ 31) :
    printRows fileInfo relativePath columnWidth rows numColumns
      = printTable relativePath columnWidth (grid fileInfo.zipIdx rows numColumns) := by
  have hsize : toSize rows = rows := by
    rw [toSize]
    omega
  rw [printRows, printTable, grid, List.flatMap_map, hsize]
  refine List.flatMap_congr ?_
  intro row hrow
  rw [flatMap_cell hrows hcolumns (List.mem_range.mp hrow)]

theorem le_foldl_max (relativePath : Bytes) (files : List FileInfo) (maxLen : Nat) :
    maxLen ≤ files.foldl (fun maxLen file => max (file.displayFileName relativePath).length maxLen)
      maxLen := by
  induction files generalizing maxLen with
  | nil => exact Nat.le_refl _
  | cons file rest ih => exact (Nat.le_max_right _ _).trans (ih _)

theorem length_le_maxFileNameLen {file : FileInfo} (h : file ∈ fileInfo) :
    (file.displayFileName relativePath).length ≤ maxFileNameLen fileInfo relativePath := by
  obtain ⟨before, behind, rfl⟩ := List.append_of_mem h
  rw [maxFileNameLen, List.foldl_append, List.foldl_cons]
  exact (Nat.le_max_left _ _).trans (le_foldl_max relativePath behind _)

/-- Every name has its column's width. -/
theorem length_entryText {file : FileInfo} (h : file ∈ fileInfo) :
    ((entryText relativePath (maxFileNameLen fileInfo relativePath + COLUMN_PADDING) file).length : Int)
      = maxFileNameLen fileInfo relativePath + COLUMN_PADDING := by
  have hlen := @length_le_maxFileNameLen fileInfo relativePath file h
  have hpadding : COLUMN_PADDING = 5 := rfl
  rw [entryText, padRight, List.length_append, List.length_replicate]
  omega

theorem rowWidth_eq {row : List (FileInfo × Nat)} (h : ∀ item ∈ row, item.1 ∈ fileInfo) :
    (rowWidth relativePath (maxFileNameLen fileInfo relativePath + COLUMN_PADDING) row : Int)
      = row.length * (maxFileNameLen fileInfo relativePath + COLUMN_PADDING) := by
  induction row with
  | nil => simp [rowWidth]
  | cons item row ih =>
      have htail := ih fun item hitem => h item (List.mem_cons_of_mem _ hitem)
      rw [rowWidth] at htail ⊢
      rw [List.map_cons, List.sum_cons, Nat.cast_add, htail, length_entryText (h item (by simp)),
        List.length_cons]
      push_cast
      ring

theorem mem_of_mem_gridRow {rows row : Nat} {item : FileInfo × Nat}
    (h : item ∈ gridRow fileInfo.zipIdx rows numColumns row) : item.1 ∈ fileInfo := by
  obtain ⟨column, -, hitem⟩ := List.mem_filterMap.mp h
  exact List.fst_mem_of_mem_zipIdx (List.mem_of_getElem? hitem)

/-- No row is wider than the terminal. -/
theorem rowWidth_le (hwidth : maxFileNameLen fileInfo relativePath + COLUMN_PADDING ≤ sys.terminalWidth)
    {rows : Nat} {row : List (FileInfo × Nat)}
    (h : row ∈ grid fileInfo.zipIdx rows (columnCount sys fileInfo relativePath)) :
    (rowWidth relativePath (maxFileNameLen fileInfo relativePath + COLUMN_PADDING) row : Int)
      ≤ sys.terminalWidth := by
  obtain ⟨r, -, rfl⟩ := List.mem_map.mp h
  have hpadding : COLUMN_PADDING = 5 := rfl
  have hpos : 0 < columnCount sys fileInfo relativePath := (columnCount_bounds hwidth).1
  have hlen := length_gridRow_le fileInfo.zipIdx rows (columnCount sys fileInfo relativePath) r
  have hcount : (columnCount sys fileInfo relativePath : Int)
      = sys.terminalWidth / (maxFileNameLen fileInfo relativePath + COLUMN_PADDING) :=
    Int.toNat_of_nonneg (by rw [columnCount] at hpos; omega)
  rw [rowWidth_eq fun item hitem => mem_of_mem_gridRow hitem]
  calc ((gridRow fileInfo.zipIdx rows (columnCount sys fileInfo relativePath) r).length : Int)
        * (maxFileNameLen fileInfo relativePath + COLUMN_PADDING)
      ≤ columnCount sys fileInfo relativePath
        * (maxFileNameLen fileInfo relativePath + COLUMN_PADDING) :=
        Int.mul_le_mul_of_nonneg_right (by exact_mod_cast hlen) (by omega)
    _ ≤ sys.terminalWidth := by
        rw [hcount]
        exact Int.ediv_mul_le _ (by omega)

/-- The rows that are needed are as many as the columns have room for. -/
theorem rowsNeeded_eq_ceil {count columns : Nat} (hcolumns : 0 < columns) :
    rowsNeeded count columns = ⌈(count : ℚ) / columns⌉₊ := by
  refine eq_of_forall_ge_iff ?_
  intro rows
  rw [← rowsNeeded_le hcolumns, Nat.ceil_le, div_le_iff₀ (by exact_mod_cast hcolumns)]
  rw [Nat.mul_comm]
  exact_mod_cast Iff.rfl

/-- **In columns** every index is printed once, in the order of the list from top to bottom
and then from left to right, in as many rows as are needed and within the terminal. -/
theorem multiColumn_columnMajor (hne : fileInfo ≠ []) (hcount : fileInfo.length < 2 ^ 31)
    (hwidth : ∀ file ∈ fileInfo,
      (file.displayFileName relativePath).length + COLUMN_PADDING ≤ sys.terminalWidth) :
    ∃ table : List (List (FileInfo × Nat)),
      listFilesMultiColumnOutput sys fileInfo relativePath = .ok (printTable relativePath
        (maxFileNameLen fileInfo relativePath + COLUMN_PADDING) table)
      ∧ table.flatten.Perm fileInfo.zipIdx
      ∧ readColumns (columnCount sys fileInfo relativePath) table = fileInfo.zipIdx
      ∧ table.length
        = ⌈(fileInfo.length : ℚ) / columnCount sys fileInfo relativePath⌉₊
      ∧ ∀ row ∈ table, (rowWidth relativePath
          (maxFileNameLen fileInfo relativePath + COLUMN_PADDING) row : Int) ≤ sys.terminalWidth := by
  have hwide := width_of_forall hne hwidth
  obtain ⟨hpos, hlt⟩ := columnCount_bounds hwide
  have hall : fileInfo.length ≤ columnCount sys fileInfo relativePath
      * rowsNeeded fileInfo.length (columnCount sys fileInfo relativePath) :=
    (rowsNeeded_le hpos).mpr (Nat.le_refl _)
  have hrows : rowsNeeded fileInfo.length (columnCount sys fileInfo relativePath) < 2 ^ 31 :=
    ((rowsNeeded_le hpos).mp (Nat.le_mul_of_pos_left _ hpos)).trans_lt hcount
  obtain ⟨hover, hrowCount⟩ := rowCount_of_lt hrows
  have htake : fileInfo.zipIdx.take (columnCount sys fileInfo relativePath
      * rowsNeeded fileInfo.length (columnCount sys fileInfo relativePath)) = fileInfo.zipIdx :=
    List.take_of_length_le (by rwa [List.length_zipIdx])
  refine ⟨grid fileInfo.zipIdx (rowsNeeded fileInfo.length (columnCount sys fileInfo relativePath))
    (columnCount sys fileInfo relativePath), ?_, ?_, ?_, ?_, fun row => rowWidth_le hwide⟩
  · have hmin : INT_MIN = -2 ^ 31 := rfl
    rw [multiColumn_eq hne hwide, if_neg hover, hrowCount, if_neg (by omega), printRows_eq hrows hlt]
  · refine (flatten_grid_perm _ _ _).trans (List.Perm.of_eq htake)
  · rw [readColumns_grid, htake]
  · rw [length_grid, rowsNeeded_eq_ceil hpos]

theorem letter_short (b : UInt8) : [b].length < MAX_FILE_NAME_LEN := by simp [MAX_FILE_NAME_LEN]

/-- Five files in a terminal of 14 columns. -/
def fiveFiles : List FileInfo := (ascii "abcde").map fun b => plainFile [b] (letter_short b)
def fourteenColumns : System := { pipe with columns := some 14 }

/-- There are two names in a row, and three rows. -/
theorem multiColumn_fiveFiles : ∃ table : List (List (FileInfo × Nat)),
    listFilesMultiColumnOutput fourteenColumns fiveFiles [] = .ok (printTable [] 6 table) ∧
      readColumns 2 table = fiveFiles.zipIdx ∧ table.length = 3 := by
  obtain ⟨table, hout, -, hcolumns, hlen, -⟩ :=
    @multiColumn_columnMajor fiveFiles [] fourteenColumns (by decide) (by decide) (by decide)
  refine ⟨table, hout, hcolumns, hlen.trans ?_⟩
  rw [← rowsNeeded_eq_ceil (by decide)]
  rfl

/-! ## Any terminal -/

/-- What has been printed in how many rows, and how many turns the inner loop has taken. -/
structure Count where
  printed : List Printed
  numRows : Int
  turns : Nat

/-- The two loops, with a counter in the inner one. -/
def countRows (fileInfo : List FileInfo) (relativePath : Bytes) (columnWidth numRows : Int)
    (numColumns : Nat) : Except Crash (List Printed × Nat) :=
  forUpTo (toSize numRows) (fun row s => do
    let s ← forUpTo numColumns (fun column s =>
      .ok (s.1 ++ cell fileInfo relativePath columnWidth numRows row column, s.2 + 1)) s
    return (s.1 ++ [.text [newline]], s.2)) ([], 0)

/-- `listFilesMultiColumnOutput` with the counter. -/
def countMultiColumnOutput (sys : System) (fileInfo : List FileInfo) (relativePath : Bytes) :
    Except Crash Count := do
  let count := fileInfo.length
  if count = 0 then return ⟨[], 0, 0⟩
  let terminalWidth := sys.terminalWidth
  if terminalWidth ≠ 0 then
    let columnWidth := maxFileNameLen fileInfo relativePath + COLUMN_PADDING
    let numColumns := terminalWidth.tdiv columnWidth
    if numColumns = 0 then throw .divisionByZero
    let numColumns := toSize numColumns
    let numRows := toInt (count / numColumns)
    if count % numColumns ≠ 0 ∧ numRows = INT_MAX then throw .overflow
    let numRows := if count % numColumns ≠ 0 then numRows + 1 else numRows
    if numRows = INT_MIN then throw .overflow
    let counted ← countRows fileInfo relativePath columnWidth numRows numColumns
    return ⟨counted.1, numRows, counted.2⟩
  else
    return ⟨fileInfo.map fun file => .entry file (file.filename ++ [newline]), 0, 0⟩

theorem countRow_eq (s : List Printed × Nat) (row : Nat) :
    forUpTo numColumns (fun column s => (.ok (s.1 ++ cell fileInfo relativePath columnWidth numRows
      row column, s.2 + 1) : Except Crash (List Printed × Nat))) s
      = .ok (s.1 ++ (List.range numColumns).flatMap fun column =>
          cell fileInfo relativePath columnWidth numRows row column, s.2 + numColumns) := by
  induction numColumns with
  | zero => simp [forUpTo]
  | succ n ih =>
      rw [forUpTo_succ ih]
      simp [List.range_succ, Nat.add_assoc]

/-- **The turns** are as many as the product of the two bounds. -/
theorem countRows_eq : countRows fileInfo relativePath columnWidth numRows numColumns
    = .ok (printRows fileInfo relativePath columnWidth numRows numColumns,
        toSize numRows * numColumns) := by
  unfold countRows printRows
  generalize toSize numRows = rows
  induction rows with
  | zero => simp [forUpTo]
  | succ row ih =>
      rw [forUpTo_succ ih]
      simp only [countRow_eq]
      show Except.ok _ = Except.ok _
      simp [List.range_succ, Nat.succ_mul]

/-- The counter changes nothing. -/
theorem printed_countMultiColumnOutput :
    (countMultiColumnOutput sys fileInfo relativePath).map Count.printed
      = listFilesMultiColumnOutput sys fileInfo relativePath := by
  rw [countMultiColumnOutput, listFilesMultiColumnOutput]
  simp only [countRows_eq, apply_ite (Except.map Count.printed)]
  rfl

/-- All is defined, and the loops take no more turns than there are rows and columns in the
terminal. -/
def Safe (sys : System) (fileInfo : List FileInfo) (relativePath : Bytes) : Prop :=
  ∃ run, countMultiColumnOutput sys fileInfo relativePath = .ok run ∧
    ∃ columns : Nat, columns ≤ sys.terminalWidth.toNat ∧ (run.turns : Int) ≤ run.numRows * columns

/-! ### Which terminals -/

/-- The number of rows, computed in 32 bits, does not come out negative. -/
def RowsCounted (count columns : Nat) : Prop :=
  if count % columns = 0 then count / columns % 2 ^ 32 < 2 ^ 31
  else count / columns % 2 ^ 32 < 2 ^ 31 - 1 ∨ count / columns % 2 ^ 32 = 2 ^ 32 - 1

theorem rowsCounted_iff {count columns : Nat} : RowsCounted count columns ↔
    ¬ (count % columns ≠ 0 ∧ toInt (count / columns) = INT_MAX) ∧ 0 ≤ rowCount count columns := by
  have hmax : INT_MAX = 2 ^ 31 - 1 := rfl
  unfold RowsCounted rowCount
  generalize count / columns = rows
  by_cases hmod : count % columns = 0
  · simp only [hmod, if_true, ne_eq, not_true_eq_false, if_false, false_and, not_false_eq_true,
      true_and]
    rcases toInt_cases rows with ⟨_, hint⟩ | ⟨_, hint⟩ <;> omega
  · simp only [hmod, if_false, ne_eq, not_false_eq_true, if_true, true_and]
    rcases toInt_cases rows with ⟨_, hint⟩ | ⟨_, hint⟩ <;> omega

section
variable {numColumns : Int}

/-- A terminal in which there are columns, be their number negative. -/
theorem countMultiColumnOutput_eq (hne : fileInfo ≠ []) (hwidth : sys.terminalWidth ≠ 0)
    (hcolumns : sys.terminalWidth.tdiv (maxFileNameLen fileInfo relativePath + COLUMN_PADDING)
      = numColumns) (hzero : numColumns ≠ 0) :
    countMultiColumnOutput sys fileInfo relativePath =
      if fileInfo.length % toSize numColumns ≠ 0 ∧
          toInt (fileInfo.length / toSize numColumns) = INT_MAX then .error .overflow
      else if rowCount fileInfo.length (toSize numColumns) = INT_MIN then .error .overflow
      else .ok ⟨printRows fileInfo relativePath
          (maxFileNameLen fileInfo relativePath + COLUMN_PADDING)
          (rowCount fileInfo.length (toSize numColumns)) (toSize numColumns),
        rowCount fileInfo.length (toSize numColumns),
        toSize (rowCount fileInfo.length (toSize numColumns)) * toSize numColumns⟩ := by
  have hlen : fileInfo.length ≠ 0 := fun h => hne (List.length_eq_zero_iff.mp h)
  simp only [countMultiColumnOutput, countRows_eq, hlen, hwidth, hcolumns, hzero, if_false, ne_eq,
    not_false_eq_true, if_true, rowCount]
  split
  · rfl
  · split
    · rfl
    · rfl

theorem not_safe_of_no_columns (hne : fileInfo ≠ []) (hwidth : sys.terminalWidth ≠ 0)
    (hcolumns : sys.terminalWidth.tdiv (maxFileNameLen fileInfo relativePath + COLUMN_PADDING) = 0) :
    ¬ Safe sys fileInfo relativePath := by
  have hlen : fileInfo.length ≠ 0 := fun h => hne (List.length_eq_zero_iff.mp h)
  rintro ⟨run, hrun, -⟩
  simp only [countMultiColumnOutput, hlen, hwidth, hcolumns, if_false, ne_eq, not_false_eq_true,
    if_true] at hrun
  cases hrun

/-- With columns all depends on the rows, if there are no more columns than in the terminal. -/
theorem safe_iff_of_columns (hne : fileInfo ≠ []) (hwidth : sys.terminalWidth ≠ 0)
    (hcolumns : sys.terminalWidth.tdiv (maxFileNameLen fileInfo relativePath + COLUMN_PADDING)
      = numColumns) (hsize : 0 < toSize numColumns) :
    Safe sys fileInfo relativePath ↔ RowsCounted fileInfo.length (toSize numColumns) ∧
      ∃ columns : Nat, columns ≤ sys.terminalWidth.toNat ∧
        rowCount fileInfo.length (toSize numColumns) * toSize numColumns
          ≤ rowCount fileInfo.length (toSize numColumns) * columns := by
  have hzero : numColumns ≠ 0 := by
    rintro rfl
    exact absurd hsize (by decide)
  rw [Safe, countMultiColumnOutput_eq hne hwidth hcolumns hzero, rowsCounted_iff]
  generalize toSize numColumns = n at *
  by_cases hover : fileInfo.length % n ≠ 0 ∧ toInt (fileInfo.length / n) = INT_MAX
  · simp [hover]
  · rw [if_neg hover]
    have hhigh := rowCount_lt hover
    have hlow := le_rowCount fileInfo.length n
    generalize rowCount fileInfo.length n = rows at *
    by_cases hmin : rows = INT_MIN
    · rw [if_pos hmin]
      constructor
      · rintro ⟨_, hrun, -⟩
        cases hrun
      · rintro ⟨⟨-, hnonneg⟩, -⟩
        rw [hmin] at hnonneg
        exact absurd hnonneg (by decide)
    · rw [if_neg hmin]
      simp only [Except.ok.injEq, exists_eq_left', hover, not_false_eq_true, true_and]
      rcases Int.lt_or_le rows 0 with hneg | hnonneg
      · -- the bound of the outer loop is near 2^64
        have hturns : 0 < toSize rows * n := by
          refine Nat.mul_pos ?_ hsize
          rw [toSize]
          omega
        refine ⟨?_, fun h => absurd h.1 (Int.not_le.mpr hneg)⟩
        rintro ⟨columns, -, hle⟩
        have hbound : rows * columns ≤ 0 :=
          Int.mul_nonpos_of_nonpos_of_nonneg (Int.le_of_lt hneg) (Int.natCast_nonneg columns)
        omega
      · have hturns : ((toSize rows * n : Nat) : Int) = rows * n := by
          rw [Nat.cast_mul, toSize, Int.toNat_of_nonneg (by omega)]
          congr 1
          omega
        rw [hturns]
        exact ⟨fun h => ⟨hnonneg, h⟩, fun h => h.2⟩

end

/-- Which terminals are wide enough, and for how many files. -/
def WideEnough (sys : System) (fileInfo : List FileInfo) (relativePath : Bytes) : Prop :=
  sys.terminalWidth = 0 ∨
    (maxFileNameLen fileInfo relativePath + COLUMN_PADDING ≤ sys.terminalWidth ∧
      RowsCounted fileInfo.length (columnCount sys fileInfo relativePath))

theorem le_terminalWidth (sys : System) : -2 ^ 31 ≤ sys.terminalWidth := by
  unfold System.terminalWidth
  split
  · exact Int32.le_toInt _
  · split <;> omega

/-- More columns than half the numbers of a `size_t`. -/
theorem rowCount_pos {count columns : Nat} (hpos : 0 < count) (hcount : count < 2 ^ 64)
    (hcolumns : 2 ^ 63 < columns) : 0 < rowCount count columns := by
  rw [rowCount]
  rcases Nat.lt_or_ge count columns with hlt | hge
  · rw [Nat.div_eq_of_lt hlt, Nat.mod_eq_of_lt hlt, if_pos (by omega)]
    decide
  · have hdiv : count / columns = 1 := by
      refine (Nat.div_eq_iff (by omega)).mpr ?_
      omega
    rw [hdiv]
    split <;> decide

/-- A negative width has no column, or more of them than any terminal. -/
theorem not_safe_of_neg (hne : fileInfo ≠ []) (hcount : fileInfo.length < 2 ^ 64)
    (hneg : sys.terminalWidth < 0) : ¬ Safe sys fileInfo relativePath := by
  have hpadding : COLUMN_PADDING = 5 := rfl
  have hlow := le_terminalWidth sys
  have htdiv : sys.terminalWidth.tdiv (maxFileNameLen fileInfo relativePath + COLUMN_PADDING)
      = -(-sys.terminalWidth / (maxFileNameLen fileInfo relativePath + COLUMN_PADDING)) := by
    rw [← Int.tdiv_eq_ediv_of_nonneg (by omega), Int.neg_tdiv, Int.neg_neg]
  have hnonneg : 0 ≤ -sys.terminalWidth / (maxFileNameLen fileInfo relativePath + COLUMN_PADDING) :=
    Int.ediv_nonneg (by omega) (by omega)
  have hself := Int.ediv_le_self (a := -sys.terminalWidth)
    (maxFileNameLen fileInfo relativePath + COLUMN_PADDING) (by omega)
  generalize -sys.terminalWidth / (maxFileNameLen fileInfo relativePath + COLUMN_PADDING) = k at *
  rcases Int.lt_or_eq_of_le hnonneg with hpos | hzero
  · have hsize : 2 ^ 63 < toSize (-k) := by
      rw [toSize]
      omega
    rw [safe_iff_of_columns hne (by omega) htdiv (by omega)]
    rintro ⟨-, columns, hcolumns, hle⟩
    have hnone : columns = 0 := by omega
    have hrows : 0 < rowCount fileInfo.length (toSize (-k)) :=
      rowCount_pos (List.length_pos_of_ne_nil hne) hcount hsize
    have hturns : 0 < rowCount fileInfo.length (toSize (-k)) * (toSize (-k) : Int) :=
      Int.mul_pos hrows (by omega)
    rw [hnone] at hle
    omega
  · refine not_safe_of_no_columns hne (by omega) ?_
    rw [htdiv, ← hzero]
    rfl

/-- **Which terminals are safe**: those of unknown width, and those as wide as a column if
the number of rows is one of an `int`.  The number of files is a `size_t`. -/
theorem multiColumn_safe_iff (hne : fileInfo ≠ []) (hcount : fileInfo.length < 2 ^ 64) :
    Safe sys fileInfo relativePath ↔ WideEnough sys fileInfo relativePath := by
  have hpadding : COLUMN_PADDING = 5 := rfl
  unfold WideEnough
  rcases Int.lt_trichotomy sys.terminalWidth 0 with hneg | hzero | hpos
  · refine ⟨fun h => absurd h (not_safe_of_neg hne hcount hneg), ?_⟩
    rintro (hzero | ⟨hwide, -⟩) <;> omega
  · refine ⟨fun _ => .inl hzero, fun _ => ?_⟩
    have hlen : fileInfo.length ≠ 0 := fun h => hne (List.length_eq_zero_iff.mp h)
    have hrun : countMultiColumnOutput sys fileInfo relativePath
        = .ok ⟨fileInfo.map fun file => .entry file (file.filename ++ [newline]), 0, 0⟩ := by
      simp only [countMultiColumnOutput, hlen, if_false, hzero, ne_eq, not_true_eq_false]
      rfl
    exact ⟨_, hrun, 0, Nat.zero_le _, Int.le_refl _⟩
  · have htdiv := Int.tdiv_eq_ediv_of_nonneg (b := maxFileNameLen fileInfo relativePath + COLUMN_PADDING)
      (Int.le_of_lt hpos)
    rcases Int.lt_or_le sys.terminalWidth (maxFileNameLen fileInfo relativePath + COLUMN_PADDING)
      with hnarrow | hwide
    · -- a name does not fit
      have hnone := htdiv.trans (Int.ediv_eq_zero_of_lt (Int.le_of_lt hpos) hnarrow)
      refine ⟨fun h => absurd h (not_safe_of_no_columns hne (by omega) hnone), ?_⟩
      rintro (hzero | ⟨hwide, -⟩) <;> omega
    · obtain ⟨hcolumns, hlt⟩ := columnCount_bounds hwide
      have hcount : sys.terminalWidth / (maxFileNameLen fileInfo relativePath + COLUMN_PADDING)
          = columnCount sys fileInfo relativePath :=
        (Int.toNat_of_nonneg (by rw [columnCount] at hcolumns; omega)).symm
      have hsize : toSize (columnCount sys fileInfo relativePath) = columnCount sys fileInfo relativePath := by
        rw [toSize]
        omega
      have hself : columnCount sys fileInfo relativePath ≤ sys.terminalWidth.toNat := by
        have := Int.ediv_le_self (a := sys.terminalWidth)
          (maxFileNameLen fileInfo relativePath + COLUMN_PADDING) (Int.le_of_lt hpos)
        omega
      rw [safe_iff_of_columns hne (by omega) (htdiv.trans hcount) (by omega), hsize]
      constructor
      · rintro ⟨hrows, -⟩
        exact .inr ⟨hwide, hrows⟩
      · rintro (hzero | ⟨-, hrows⟩)
        · omega
        · exact ⟨hrows, _, hself, Int.le_refl _⟩

theorem safe_fiveFiles : Safe fourteenColumns fiveFiles [] := by
  refine (multiColumn_safe_iff (by decide) (by decide)).mpr (.inr ⟨by decide, ?_⟩)
  rw [RowsCounted]
  decide

/-- `COLUMNS=3 ls -C a` divides by zero. -/
theorem not_safe_narrow : countMultiColumnOutput { pipe with columns := some 3 }
      [plainFile [97] (by decide)] [] = .error .divisionByZero ∧
    ¬ Safe { pipe with columns := some 3 } [plainFile [97] (by decide)] [] := by
  have hcrash : countMultiColumnOutput { pipe with columns := some 3 }
      [plainFile [97] (by decide)] [] = .error .divisionByZero := rfl
  refine ⟨hcrash, ?_⟩
  rintro ⟨run, hrun, -⟩
  rw [hcrash] at hrun
  cases hrun

end Nyctomek.Ls
