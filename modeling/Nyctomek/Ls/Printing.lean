/-
# `Ls.Printing` — which lists of files can be printed

`listFileInfo` is called for every directory that is listed, and the program goes no further
than a call that has no defined outcome.

    -l              an owner, a group or a time that the system does not know
    in columns      a terminal that is narrower than a column, or rows that an `int` cannot count
    otherwise       nothing to go wrong

`listFileInfo_ok_iff` says so exactly.  What is asked of the files does not depend on their
order, so that it can be asked of the entries as `readdir` returns them.
-/
import Nyctomek.Ls

namespace Nyctomek.Ls

open Prog

/-- Neither `numRows++` nor `numRows-1` overflows. -/
def RowsDefined (count columns : Nat) : Prop :=
  if count % columns = 0 then count / columns % 2 ^ 32 ≠ 2 ^ 31
  else count / columns % 2 ^ 32 ≠ 2 ^ 31 - 1

instance (count columns : Nat) : Decidable (RowsDefined count columns) :=
  inferInstanceAs (Decidable (ite _ _ _))

/-- There is nothing to print, the width is not known, or it has room for a column, be it
negative. -/
def ColumnsDefined (sys : System) (fileInfo : List FileInfo) (relativePath : Bytes) : Prop :=
  fileInfo = [] ∨ sys.terminalWidth = 0 ∨
    (maxFileNameLen fileInfo relativePath + COLUMN_PADDING ≤ sys.terminalWidth.natAbs ∧
      RowsDefined fileInfo.length (columnsOf sys fileInfo relativePath))

instance (sys : System) (fileInfo : List FileInfo) (relativePath : Bytes) :
    Decidable (ColumnsDefined sys fileInfo relativePath) :=
  inferInstanceAs (Decidable (_ ∨ _ ∨ (_ ∧ _)))

/-- What `listFileInfo` asks of the system, of the files and of the terminal. -/
def Printable (sys : System) (options : UInt32) (fileInfo : List FileInfo) (relativePath : Bytes) :
    Prop :=
  if options &&& DASH_l ≠ 0 then ∀ file ∈ fileInfo, Known sys options file
  else options &&& DASH_1 = 0 → (options &&& DASH_C ≠ 0 ∨ sys.isatty) →
    ColumnsDefined sys fileInfo relativePath

variable {sys : System} {fileInfo fileInfo' : List FileInfo} {relativePath : Bytes}
  {options : UInt32}

/-! ## In columns -/

/-- There is a column exactly if the terminal is as wide, in either direction. -/
theorem tdiv_eq_zero_iff (width : Int) {column : Int} (hcolumn : 0 < column) :
    width.tdiv column = 0 ↔ ¬ column ≤ width.natAbs := by
  rw [← Int.natAbs_eq_zero, Int.natAbs_tdiv]
  show width.natAbs / column.natAbs = 0 ↔ _
  rw [Nat.div_eq_zero_iff]
  omega

/-- The checks on the number of rows. -/
theorem rowsDefined_iff {count columns : Nat} : RowsDefined count columns ↔
    ¬ (count % columns ≠ 0 ∧ toInt (count / columns) = INT_MAX) ∧
      rowCount count columns ≠ INT_MIN := by
  have hmax : INT_MAX = 2 ^ 31 - 1 := rfl
  have hmin : INT_MIN = -2 ^ 31 := rfl
  unfold RowsDefined rowCount
  generalize count / columns = rows
  by_cases hmod : count % columns = 0
  · rw [if_pos hmod, if_neg (not_not.mpr hmod)]
    rcases toInt_cases rows with ⟨_, hint⟩ | ⟨_, hint⟩ <;> omega
  · rw [if_neg hmod, if_pos hmod]
    rcases toInt_cases rows with ⟨_, hint⟩ | ⟨_, hint⟩ <;> omega

theorem multiColumn_ok_iff :
    (∃ out, listFilesMultiColumnOutput sys fileInfo relativePath = .ok out) ↔
      ColumnsDefined sys fileInfo relativePath := by
  rw [ColumnsDefined]
  by_cases hne : fileInfo = []
  · subst hne
    exact iff_of_true ⟨[], rfl⟩ (.inl rfl)
  by_cases hwidth : sys.terminalWidth = 0
  · exact iff_of_true ⟨_, unknownWidth_eq hne hwidth⟩ (.inr (.inl hwidth))
  have hpos : (0 : Int) < maxFileNameLen fileInfo relativePath + COLUMN_PADDING := by
    rw [COLUMN_PADDING]
    omega
  have hnone := tdiv_eq_zero_iff sys.terminalWidth hpos
  simp only [hne, hwidth, false_or]
  by_cases hcolumn :
      sys.terminalWidth.tdiv (maxFileNameLen fileInfo relativePath + COLUMN_PADDING) = 0
  · have hlen : fileInfo.length ≠ 0 := fun h => hne (List.length_eq_zero_iff.mp h)
    refine iff_of_false ?_ fun h => hnone.mp hcolumn h.1
    rintro ⟨out, hout⟩
    simp only [listFilesMultiColumnOutput, hlen, hwidth, hcolumn, if_false, ne_eq,
      not_false_eq_true, if_true] at hout
    cases hout
  · have hwide := not_not.mp (mt hnone.mpr hcolumn)
    rw [multiColumn_of_column hne hwidth hcolumn, rowsDefined_iff, and_iff_right hwide]
    by_cases hover : fileInfo.length % columnsOf sys fileInfo relativePath ≠ 0 ∧
        toInt (fileInfo.length / columnsOf sys fileInfo relativePath) = INT_MAX
    · simp [hover]
    · by_cases hmin : rowCount fileInfo.length (columnsOf sys fileInfo relativePath) = INT_MIN
      · simp [hmin]
      · simp [hover, hmin]

/-! ## All formats -/

/-- **Which calls of `listFileInfo` have a defined outcome.** -/
theorem listFileInfo_ok_iff :
    (∃ out, listFileInfo sys fileInfo options relativePath = .ok out) ↔
      Printable sys options fileInfo relativePath := by
  unfold listFileInfo Printable
  by_cases hl : options &&& DASH_l ≠ 0
  · rw [if_pos hl, if_pos hl]
    constructor
    · rintro ⟨out, hout⟩
      exact known_of_long hout
    · intro hknown
      have hshown : ∃ out, listFilesLongOutput sys fileInfo options relativePath = .ok out ∧
          Shown fileInfo relativePath out := long_shown_iff.mpr hknown
      obtain ⟨out, hout, -⟩ := hshown
      exact ⟨out, hout⟩
  · rw [if_neg hl, if_neg hl]
    by_cases hone : options &&& DASH_1 ≠ 0
    · rw [if_pos hone]
      exact iff_of_true ⟨_, rfl⟩ fun h => absurd h hone
    · rw [if_neg hone]
      by_cases hcolumns : options &&& DASH_C ≠ 0 ∨ sys.isatty
      · rw [if_pos hcolumns, multiColumn_ok_iff]
        exact ⟨fun h _ _ => h, fun h => h (not_not.mp hone) hcolumns⟩
      · rw [if_neg hcolumns]
        exact iff_of_true ⟨[], rfl⟩ fun _ h => absurd h hcolumns

/-! ## In any order -/

theorem maxFileNameLen_perm (h : fileInfo.Perm fileInfo') :
    maxFileNameLen fileInfo relativePath = maxFileNameLen fileInfo' relativePath := by
  unfold maxFileNameLen
  exact h.foldl_eq' (fun _ _ _ _ _ => by omega) 0

/-- The order of the files does not matter. -/
theorem Printable.perm (h : fileInfo.Perm fileInfo') :
    Printable sys options fileInfo relativePath ↔ Printable sys options fileInfo' relativePath := by
  have hnil : fileInfo = [] ↔ fileInfo' = [] := by
    rw [← List.length_eq_zero_iff, h.length_eq, List.length_eq_zero_iff]
  simp only [Printable, ColumnsDefined, columnsOf, hnil, maxFileNameLen_perm h, h.length_eq,
    h.mem_iff]

/-- A system that knows every owner, group and time, and no terminal width. -/
def calm : System where
  isatty := false
  columns := none
  ws_col := none
  getpwuid := fun _ => some []
  getgrgid := fun _ => some []
  strftime := fun _ _ => some []
  log10 := fun _ => 0

/-- There all can be printed. -/
theorem printable_calm (options : UInt32) (fileInfo : List FileInfo) (relativePath : Bytes) :
    Printable calm options fileInfo relativePath := by
  unfold Printable
  split
  · exact fun _ _ => ⟨⟨_, rfl⟩, ⟨_, rfl⟩, ⟨_, rfl⟩⟩
  · exact fun _ _ => .inr (.inl rfl)

end Nyctomek.Ls
