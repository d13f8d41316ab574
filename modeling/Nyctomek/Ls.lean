/-
# `Ls` — the listing of `ls.c`

`listFileInfo` chooses one of three formatters.  What they print is kept as the
sequence of their `printf` calls, with the file that a printed name belongs to.

    -l                      listFilesLongOutput
    -1                      listFilesOneEntryPerLine
    -C, or a terminal       listFilesMultiColumnOutput
    otherwise               nothing, although DASH_1 is to be the default then

`int` is 32 bits wide and `size_t` 64; what overflows an `int` has no defined
behaviour, and neither has a null pointer.
-/
import Mathlib.Data.Int.Basic
import Nyctomek.Prog.Decimal
import Nyctomek.Prog.Grid
import Nyctomek.Prog.Loop

namespace Nyctomek.Ls

open Prog

def MAX_FILE_NAME_LEN : Nat := 1024

def DASH_1 : UInt32 := 0x00000001
def DASH_l : UInt32 := 0x00000010
def DASH_T : UInt32 := 0x00000200
def DASH_C : UInt32 := 0x00000400

/-- The members of `struct stat` that are listed. -/
structure Stat where
  st_mode : UInt16
  st_nlink : Nat
  st_uid : Nat
  st_gid : Nat
  st_size : Nat
  st_blocks : Nat
  st_mtime : Int
  deriving DecidableEq, Repr

/-- `FileInfo_t`, with a terminated file name. -/
structure FileInfo where
  filename : Bytes
  statInfo : Stat
  terminated : filename.length < MAX_FILE_NAME_LEN
  deriving DecidableEq, Repr

/-- What the listing asks the system for. -/
structure System where
  isatty : Bool
  /-- `atoi(getenv("COLUMNS"))`, if the variable is set. -/
  columns : Option Int32
  /-- `ws_col` of `ioctl(0, TIOCGWINSZ, &w)`, if that succeeds. -/
  ws_col : Option UInt16
  getpwuid : Nat → Option Bytes
  getgrgid : Nat → Option Bytes
  /-- `strftime` of `localtime`, which may be null. -/
  strftime : String → Int → Option Bytes
  /-- `(int)(log10((double)n))`. -/
  log10 : Nat → Nat

/-- Undefined behaviour. -/
inductive Crash where
  | nullPointer
  | divisionByZero
  | overflow
  deriving DecidableEq, Repr

/-- A call of `printf`: an entry has the name of a file in it. -/
inductive Printed where
  | text (s : Bytes)
  | entry (file : FileInfo) (s : Bytes)
  deriving DecidableEq, Repr

def newline : UInt8 := 10
def space : UInt8 := 32

/-- `%-*s`. -/
def padRight (width : Int) (s : Bytes) : Bytes :=
  s ++ List.replicate (width.toNat - s.length) space

/-- `%*d` of a number that is not negative. -/
def padLeft (width : Nat) (n : Nat) : Bytes :=
  List.replicate (width - (digits n).length) space ++ digits n

def getFileNameWithoutPath (filename relativePath : Bytes) : Bytes :=
  if relativePath <+: filename then filename.drop relativePath.length else filename

def FileInfo.displayFileName (relativePath : Bytes) (file : FileInfo) : Bytes :=
  getFileNameWithoutPath file.filename relativePath

/-! ## In columns -/

/-- Conversion of a `size_t` to `int`. -/
def toInt (n : Nat) : Int :=
  if n % 2 ^ 32 < 2 ^ 31 then (n % 2 ^ 32 : Nat) else (n % 2 ^ 32 : Nat) - 2 ^ 32

/-- Conversion of an `int` to `size_t`. -/
def toSize (n : Int) : Nat := (n % 2 ^ 64).toNat

def INT_MIN : Int := -2 ^ 31
def INT_MAX : Int := 2 ^ 31 - 1

def System.terminalWidth (sys : System) : Int :=
  match sys.columns with
  | some columns => columns.toInt
  | none =>
      match sys.ws_col with
      | some ws_col => ws_col.toNat
      | none => 0

def maxFileNameLen (fileInfo : List FileInfo) (relativePath : Bytes) : Nat :=
  fileInfo.foldl (fun maxLen file => max (file.displayFileName relativePath).length maxLen) 0

def COLUMN_PADDING : Int := 5

/-- What is printed for a row and a column. -/
def cell (fileInfo : List FileInfo) (relativePath : Bytes) (columnWidth numRows : Int)
    (row column : Nat) : List Printed :=
  let i := (column * toSize (numRows - 1) + column + row) % 2 ^ 64
  match fileInfo[i]? with
  | some file => [.entry file (padRight columnWidth (file.displayFileName relativePath))]
  | none => []

/-- The two loops. -/
def printRows (fileInfo : List FileInfo) (relativePath : Bytes) (columnWidth numRows : Int)
    (numColumns : Nat) : List Printed :=
  (List.range (toSize numRows)).flatMap fun row =>
    ((List.range numColumns).flatMap fun column =>
      cell fileInfo relativePath columnWidth numRows row column) ++ [.text [newline]]

def listFilesMultiColumnOutput (sys : System) (fileInfo : List FileInfo) (relativePath : Bytes) :
    Except Crash (List Printed) := do
  let count := fileInfo.length
  if count = 0 then return []
  let terminalWidth := sys.terminalWidth
  if terminalWidth ≠ 0 then
    let columnWidth := maxFileNameLen fileInfo relativePath + COLUMN_PADDING
    let numColumns := terminalWidth.tdiv columnWidth
    if numColumns = 0 then throw .divisionByZero
    let numColumns := toSize numColumns
    let numRows := toInt (count / numColumns)
    if count % numColumns ≠ 0 ∧ numRows = INT_MAX then throw .overflow
    let numRows := if count % numColumns ≠ 0 then numRows + 1 else numRows
    if numRows = INT_MIN then throw .overflow
    return printRows fileInfo relativePath columnWidth numRows numColumns
  else
    -- Unable to print in multi column mode.
    return fileInfo.map fun file => .entry file (file.filename ++ [newline])

/-! ## In long form, and one per line -/

/-- `formatFileMode`: the eleven characters, and the zero behind them. -/
def formatFileMode (st_mode : UInt16) : Bytes :=
  let kind :=
    if st_mode &&& 0o170000 = 0o010000 then "p"
    else if st_mode &&& 0o170000 = 0o020000 then "c"
    else if st_mode &&& 0o170000 = 0o040000 then "d"
    else if st_mode &&& 0o170000 = 0o060000 then "b"
    else if st_mode &&& 0o170000 = 0o120000 then "l"
    else if st_mode &&& 0o170000 = 0o140000 then "s"
    else if st_mode &&& 0o170000 = 0o100000 then "-"
    else " "
  let bit (mask : UInt16) (letter : String) := if st_mode &&& mask ≠ 0 then letter else "-"
  ascii (kind ++ bit 0o400 "r" ++ bit 0o200 "w" ++ bit 0o100 "x" ++ bit 0o040 "r" ++ bit 0o020 "w"
    ++ bit 0o010 "x" ++ bit 0o004 "r" ++ bit 0o002 "w" ++ bit 0o001 "x" ++ " ")

/-- What a null pointer crashes. -/
def deref {α : Type} : Option α → Except Crash α
  | some v => .ok v
  | none => .error .nullPointer

/-- The widths of the long form, and the number of blocks. -/
structure Widths where
  maxNumLinks : Nat
  maxFileSize : Nat
  maxUserNameLen : Nat
  maxGroupNameLen : Nat
  blockCount : Nat
  deriving DecidableEq, Repr

def Widths.add (sys : System) (w : Widths) (element : FileInfo) : Except Crash Widths := do
  let userName ← deref (sys.getpwuid element.statInfo.st_uid)
  let groupName ← deref (sys.getgrgid element.statInfo.st_gid)
  return {
    maxNumLinks := max w.maxNumLinks element.statInfo.st_nlink
    maxFileSize := max w.maxFileSize element.statInfo.st_size
    maxUserNameLen := max w.maxUserNameLen userName.length
    maxGroupNameLen := max w.maxGroupNameLen groupName.length
    blockCount := (w.blockCount + element.statInfo.st_blocks) % 2 ^ 64 }

def timeFormat (options : UInt32) : String :=
  if options &&& DASH_T ≠ 0 then "%b %e %T %Y" else "%b %e %R"

/-- The line of a file. -/
def longLine (sys : System) (w : Widths) (options : UInt32) (relativePath : Bytes)
    (file : FileInfo) : Except Crash (List Printed) := do
  let stat := file.statInfo
  let numLinksWidth := if w.maxNumLinks ≠ 0 then sys.log10 w.maxNumLinks + 1 else 1
  let fileSizeWidth := if w.maxFileSize ≠ 0 then sys.log10 w.maxFileSize + 1 else 1
  let userName ← deref (sys.getpwuid stat.st_uid)
  let groupName ← deref (sys.getgrgid stat.st_gid)
  let timeModified ← deref (sys.strftime (timeFormat options) stat.st_mtime)
  return [
    .text (padRight 12 (formatFileMode stat.st_mode)),
    .text (padLeft numLinksWidth stat.st_nlink ++ [space]),
    .text (padRight (w.maxUserNameLen + 2) userName),
    .text (padRight (w.maxGroupNameLen + 2) groupName),
    .text (padLeft fileSizeWidth stat.st_size ++ [space]),
    .text (timeModified ++ [space]),
    .entry file (file.displayFileName relativePath ++ [newline])]

def listFilesLongOutput (sys : System) (fileInfo : List FileInfo) (options : UInt32)
    (relativePath : Bytes) : Except Crash (List Printed) := do
  let w ← fileInfo.foldlM (Widths.add sys) ⟨0, 0, 0, 0, 0⟩
  let lines ← fileInfo.mapM (longLine sys w options relativePath)
  return .text (ascii "total " ++ padLeft 0 w.blockCount ++ [newline]) :: lines.flatten

def listFilesOneEntryPerLine (fileInfo : List FileInfo) (relativePath : Bytes) : List Printed :=
  fileInfo.map fun file => .entry file (file.displayFileName relativePath ++ [newline])

def listFileInfo (sys : System) (fileInfo : List FileInfo) (options : UInt32)
    (relativePath : Bytes) : Except Crash (List Printed) :=
  if options &&& DASH_l ≠ 0 then listFilesLongOutput sys fileInfo options relativePath
  else if options &&& DASH_1 ≠ 0 then .ok (listFilesOneEntryPerLine fileInfo relativePath)
  else if options &&& DASH_C ≠ 0 ∨ sys.isatty then
    listFilesMultiColumnOutput sys fileInfo relativePath
  else .ok []

/-! ## Every file once -/

/-- The files whose names are printed, and what is printed. -/
def entries (out : List Printed) : List (FileInfo × Bytes) :=
  out.filterMap fun
    | .text _ => none
    | .entry file s => some (file, s)

/-- Every file has one entry, with its name in it. -/
structure Shown (fileInfo : List FileInfo) (relativePath : Bytes) (out : List Printed) : Prop where
  once : ((entries out).map Prod.fst).Perm fileInfo
  named : ∀ e ∈ entries out, e.1.displayFileName relativePath <:+: e.2

variable {fileInfo : List FileInfo} {relativePath : Bytes} {sys : System} {options : UInt32}

/-- One entry after the other. -/
theorem shown_of_entries {out : List Printed} {name : FileInfo → Bytes}
    (hname : ∀ file, file.displayFileName relativePath <:+: name file)
    (h : entries out = fileInfo.map fun file => (file, name file)) :
    Shown fileInfo relativePath out := by
  constructor
  · rw [h, List.map_map]
    exact List.Perm.of_eq (List.map_id _)
  · intro e he
    rw [h] at he
    obtain ⟨file, -, rfl⟩ := List.mem_map.mp he
    exact hname file

theorem entries_map (name : FileInfo → Bytes) :
    entries (fileInfo.map fun file => .entry file (name file))
      = fileInfo.map fun file => (file, name file) := by
  simp [entries, List.filterMap_map]

theorem displayFileName_suffix (file : FileInfo) :
    file.displayFileName relativePath <:+ file.filename := by
  unfold FileInfo.displayFileName getFileNameWithoutPath
  split
  · exact List.drop_suffix _ _
  · exact List.suffix_refl _

theorem displayFileName_line (file : FileInfo) :
    file.displayFileName relativePath <:+: file.displayFileName relativePath ++ [newline] :=
  (List.prefix_append _ _).isInfix

theorem onePerLine_shown :
    Shown fileInfo relativePath (listFilesOneEntryPerLine fileInfo relativePath) :=
  shown_of_entries displayFileName_line (entries_map _)

/-! ### The long form -/

/-- The system knows the file's owner, its group and the day of its time. -/
structure Known (sys : System) (options : UInt32) (file : FileInfo) : Prop where
  owner : ∃ name, sys.getpwuid file.statInfo.st_uid = some name
  group : ∃ name, sys.getgrgid file.statInfo.st_gid = some name
  time : ∃ s, sys.strftime (timeFormat options) file.statInfo.st_mtime = some s

theorem longLine_of_known (w : Widths) (relativePath : Bytes) {file : FileInfo}
    (h : Known sys options file) :
    ∃ line, longLine sys w options relativePath file = .ok line ∧
      entries line = [(file, file.displayFileName relativePath ++ [newline])] := by
  obtain ⟨⟨owner, howner⟩, ⟨group, hgroup⟩, ⟨s, hs⟩⟩ := h
  simp only [longLine, howner, hgroup, hs, deref]
  exact ⟨_, rfl, rfl⟩

theorem known_of_longLine {w : Widths} {file : FileInfo} {line : List Printed}
    (h : longLine sys w options relativePath file = .ok line) : Known sys options file := by
  simp only [longLine] at h
  cases howner : sys.getpwuid file.statInfo.st_uid with
  | none => simp [howner, deref, bind, Except.bind] at h
  | some owner =>
      cases hgroup : sys.getgrgid file.statInfo.st_gid with
      | none => simp [howner, hgroup, deref, bind, Except.bind] at h
      | some group =>
          cases htime : sys.strftime (timeFormat options) file.statInfo.st_mtime with
          | none => simp [howner, hgroup, htime, deref, bind, Except.bind] at h
          | some s => exact ⟨⟨owner, howner⟩, ⟨group, hgroup⟩, ⟨s, htime⟩⟩

theorem foldlM_add_of_known (h : ∀ file ∈ fileInfo, Known sys options file) (w : Widths) :
    ∃ w', fileInfo.foldlM (Widths.add sys) w = .ok w' := by
  induction fileInfo generalizing w with
  | nil => exact ⟨w, rfl⟩
  | cons file rest ih =>
      obtain ⟨⟨owner, howner⟩, ⟨group, hgroup⟩, -⟩ := h file (by simp)
      obtain ⟨w', hw'⟩ := ih (fun f hf => h f (List.mem_cons_of_mem _ hf)) _
      refine ⟨w', ?_⟩
      rw [List.foldlM_cons, Widths.add, howner, hgroup]
      exact hw'

theorem mapM_longLine_of_known {w : Widths} (h : ∀ file ∈ fileInfo, Known sys options file) :
    ∃ lines, fileInfo.mapM (longLine sys w options relativePath) = .ok lines ∧
      entries lines.flatten
        = fileInfo.map fun file => (file, file.displayFileName relativePath ++ [newline]) := by
  induction fileInfo with
  | nil => exact ⟨[], rfl, rfl⟩
  | cons file rest ih =>
      obtain ⟨line, hline, hentry⟩ := longLine_of_known w relativePath (h file (by simp))
      obtain ⟨lines, hlines, hentries⟩ := ih fun f hf => h f (List.mem_cons_of_mem _ hf)
      refine ⟨line :: lines, ?_, ?_⟩
      · rw [List.mapM_cons, hline, hlines]
        rfl
      · rw [List.flatten_cons, entries, List.filterMap_append, ← entries, ← entries, hentry,
          hentries]
        rfl

theorem known_of_mapM_longLine {w : Widths} {lines : List (List Printed)}
    (h : fileInfo.mapM (longLine sys w options relativePath) = .ok lines) :
    ∀ file ∈ fileInfo, Known sys options file := by
  induction fileInfo generalizing lines with
  | nil => simp
  | cons file rest ih =>
      rw [List.mapM_cons] at h
      obtain ⟨line, hline, h⟩ := bind_eq_ok h
      obtain ⟨lines', hlines, -⟩ := bind_eq_ok h
      exact List.forall_mem_cons.mpr ⟨known_of_longLine hline, ih hlines⟩

theorem known_of_long {out : List Printed}
    (h : listFilesLongOutput sys fileInfo options relativePath = .ok out) :
    ∀ file ∈ fileInfo, Known sys options file := by
  obtain ⟨w, -, h⟩ := bind_eq_ok h
  obtain ⟨lines, hlines, -⟩ := bind_eq_ok h
  exact known_of_mapM_longLine hlines

/-- **The long form** has every file once exactly if it knows what to print of each. -/
theorem long_shown_iff :
    (∃ out, listFilesLongOutput sys fileInfo options relativePath = .ok out ∧
      Shown fileInfo relativePath out) ↔ ∀ file ∈ fileInfo, Known sys options file := by
  constructor
  · rintro ⟨out, hout, -⟩
    exact known_of_long hout
  · intro hknown
    obtain ⟨w, hw⟩ := foldlM_add_of_known hknown ⟨0, 0, 0, 0, 0⟩
    obtain ⟨lines, hlines, hentries⟩ := mapM_longLine_of_known (w := w) hknown
    refine ⟨.text (ascii "total " ++ padLeft 0 w.blockCount ++ [newline]) :: lines.flatten, ?_,
      shown_of_entries displayFileName_line hentries⟩
    simp only [listFilesLongOutput, hw, bind, Except.bind, hlines]
    rfl

/-! ### The columns -/

section
variable {columnWidth numRows : Int} {numColumns : Nat}

theorem entries_cell (relativePath : Bytes) (columnWidth : Int) (row column : Nat) :
    (entries (cell fileInfo relativePath columnWidth numRows row column)).map Prod.fst
      = fileInfo[(column * toSize (numRows - 1) + column + row) % 2 ^ 64]?.toList := by
  simp only [cell]
  cases fileInfo[(column * toSize (numRows - 1) + column + row) % 2 ^ 64]? <;> rfl

theorem files_printRows :
    (entries (printRows fileInfo relativePath columnWidth numRows numColumns)).map Prod.fst
      = (List.range (toSize numRows)).flatMap fun row => (List.range numColumns).flatMap fun column =>
          fileInfo[(column * toSize (numRows - 1) + column + row) % 2 ^ 64]?.toList := by
  simp only [← entries_cell relativePath columnWidth]
  simp [entries, printRows, List.filterMap_flatMap, List.map_flatMap, List.filterMap_append]

theorem mem_entries {out : List Printed} {e : FileInfo × Bytes} :
    e ∈ entries out ↔ .entry e.1 e.2 ∈ out := by
  rw [entries, List.mem_filterMap]
  constructor
  · rintro ⟨p, hp, he⟩
    cases p with
    | text s => simp at he
    | entry file s =>
        obtain rfl := Option.some.inj he
        exact hp
  · intro he
    exact ⟨_, he, rfl⟩

theorem printRows_named :
    ∀ e ∈ entries (printRows fileInfo relativePath columnWidth numRows numColumns),
      e.1.displayFileName relativePath <:+: e.2 := by
  intro e he
  simp only [mem_entries, printRows, List.mem_flatMap, List.mem_append, List.mem_singleton,
    reduceCtorEq, or_false, cell] at he
  obtain ⟨row, -, column, -, he⟩ := he
  split at he
  · simp only [List.mem_singleton, Printed.entry.injEq] at he
    obtain ⟨hfile, hname⟩ := he
    rw [hname, hfile]
    exact (List.prefix_append _ _).isInfix
  · simp at he

/-- The index in the loops is the one of the grid. -/
theorem index_eq {rows row column : Nat} (hrows : rows < 2 ^ 31) (hcolumns : numColumns < 2 ^ 31)
    (hrow : row < rows) (hcolumn : column < numColumns) :
    (column * toSize (rows - 1) + column + row) % 2 ^ 64 = column * rows + row := by
  have hbelow : toSize (rows - 1) = rows - 1 := by
    rw [toSize]
    omega
  have hsum : column * (rows - 1) + column = column * rows := by
    rw [← Nat.mul_succ, Nat.succ_eq_add_one, Nat.sub_add_cancel (by omega)]
  have hlt : column * rows < 2 ^ 31 * 2 ^ 31 :=
    Nat.mul_lt_mul_of_lt_of_lt (by omega) hrows
  rw [hbelow, hsum, Nat.mod_eq_of_lt (by omega)]

/-- A number of rows that is not negative: the columns take up the first files. -/
theorem files_printRows_of_nonneg (fileInfo : List FileInfo) (relativePath : Bytes)
    (columnWidth : Int) {rows : Nat} (hrows : rows < 2 ^ 31) (hcolumns : numColumns < 2 ^ 31) :
    ((entries (printRows fileInfo relativePath columnWidth rows numColumns)).map Prod.fst).Perm
      (fileInfo.take (numColumns * rows)) := by
  have hsize : toSize rows = rows := by
    rw [toSize]
    omega
  rw [files_printRows, hsize]
  refine (List.Perm.of_eq ?_).trans (columnMajor_perm fileInfo rows numColumns)
  refine List.flatMap_congr ?_
  intro row hrow
  refine List.flatMap_congr ?_
  intro column hcolumn
  rw [index_eq hrows hcolumns (List.mem_range.mp hrow) (List.mem_range.mp hcolumn)]

/-- A negative number of rows: each column has the files again. -/
theorem files_printRows_of_neg (relativePath : Bytes) (columnWidth : Int) (numColumns : Nat)
    {k : Nat} (hk : 0 < k) (hk' : k < 2 ^ 31)
    (hcount : 8 * fileInfo.length < 2 ^ 64) :
    ∃ others, ((entries (printRows fileInfo relativePath columnWidth (-k : Int) (numColumns + 1))).map
      Prod.fst).Perm (fileInfo ++ others) ∧
      (others = [] ↔ fileInfo = [] ∨ numColumns = 0) := by
  have hsize : toSize (-k) = 2 ^ 64 - k := by
    rw [toSize]
    omega
  have hbelow : toSize (-k - 1) = 2 ^ 64 - k - 1 := by
    rw [toSize]
    omega
  have hall : ((List.range (2 ^ 64 - k)).flatMap fun row =>
      fileInfo[(0 * (2 ^ 64 - k - 1) + 0 + row) % 2 ^ 64]?.toList) = fileInfo := by
    refine (List.flatMap_congr ?_).trans ((flatMap_range_getElem? fileInfo (2 ^ 64 - k)).trans ?_)
    · intro row hrow
      have hrow' := List.mem_range.mp hrow
      have hindex : (0 * (2 ^ 64 - k - 1) + 0 + row) % 2 ^ 64 = row := by omega
      rw [hindex]
    · exact List.take_of_length_le (by omega)
  refine ⟨((List.range numColumns).map (· + 1)).flatMap fun column =>
    (List.range (2 ^ 64 - k)).flatMap fun row =>
      fileInfo[(column * (2 ^ 64 - k - 1) + column + row) % 2 ^ 64]?.toList, ?_, ?_⟩
  · rw [files_printRows, hsize, hbelow]
    refine (flatMap_swap_perm _ _ _).trans (List.Perm.of_eq ?_)
    rw [List.range_succ_eq_map, List.flatMap_cons, hall]
  · constructor
    · intro hnil
      by_contra hsome
      obtain ⟨hfiles, hcolumns⟩ := not_or.mp hsome
      obtain ⟨file, rest, rfl⟩ := List.exists_cons_of_ne_nil hfiles
      have hindex : (1 * (2 ^ 64 - k - 1) + 1 + k) % 2 ^ 64 = 0 := by omega
      rw [List.flatMap_eq_nil_iff] at hnil
      have hcolumn := hnil 1 (List.mem_map.mpr ⟨0, List.mem_range.mpr (by omega), rfl⟩)
      rw [List.flatMap_eq_nil_iff] at hcolumn
      have hrow := hcolumn k (List.mem_range.mpr (by omega))
      rw [hindex] at hrow
      simp at hrow
    · rintro (rfl | rfl)
      · rw [List.flatMap_eq_nil_iff]
        intro column _
        rw [List.flatMap_eq_nil_iff]
        intro row _
        rfl
      · rfl

theorem shown_printRows_iff : Shown fileInfo relativePath
    (printRows fileInfo relativePath columnWidth numRows numColumns) ↔
    ((entries (printRows fileInfo relativePath columnWidth numRows numColumns)).map Prod.fst).Perm
      fileInfo :=
  ⟨fun h => h.once, fun h => ⟨h, printRows_named⟩⟩

theorem shown_iff_of_nonneg {rows : Nat} (hrows : rows < 2 ^ 31) (hcolumns : numColumns < 2 ^ 31) :
    Shown fileInfo relativePath (printRows fileInfo relativePath columnWidth rows numColumns) ↔
      fileInfo.length ≤ numColumns * rows := by
  have hperm := files_printRows_of_nonneg fileInfo relativePath columnWidth hrows hcolumns
  rw [shown_printRows_iff]
  constructor
  · intro hshown
    have hlen := (hperm.symm.trans hshown).length_eq
    rw [List.length_take] at hlen
    omega
  · intro hle
    rwa [List.take_of_length_le hle] at hperm

theorem shown_iff_of_neg {k : Nat} (hk : 0 < k) (hk' : k < 2 ^ 31) (hne : fileInfo ≠ [])
    (hcount : 8 * fileInfo.length < 2 ^ 64) (hcolumns : 0 < numColumns) :
    Shown fileInfo relativePath (printRows fileInfo relativePath columnWidth (-k : Int) numColumns) ↔
      numColumns = 1 := by
  obtain ⟨m, rfl⟩ : ∃ m, numColumns = m + 1 := ⟨numColumns - 1, by omega⟩
  obtain ⟨others, hperm, hothers⟩ :=
    files_printRows_of_neg relativePath columnWidth m hk hk' hcount
  rw [shown_printRows_iff]
  constructor
  · intro hshown
    have hlen := (hperm.symm.trans hshown).length_eq
    rw [List.length_append] at hlen
    have hnil : others = [] := List.length_eq_zero_iff.mp (by omega)
    have hm := (hothers.mp hnil).resolve_left hne
    omega
  · intro hone
    obtain rfl := hothers.mpr (.inr (by omega))
    rwa [List.append_nil] at hperm

end

/-! ### How many columns, and how many rows -/

theorem toInt_cases (n : Nat) :
    (n % 2 ^ 32 < 2 ^ 31 ∧ toInt n = (n % 2 ^ 32 : Nat)) ∨
      (2 ^ 31 ≤ n % 2 ^ 32 ∧ toInt n = (n % 2 ^ 32 : Nat) - 2 ^ 32) := by
  unfold toInt
  split
  · rename_i hlt
    exact .inl ⟨hlt, rfl⟩
  · rename_i hge
    exact .inr ⟨Nat.le_of_not_lt hge, rfl⟩

theorem toInt_of_lt {n : Nat} (h : n < 2 ^ 31) : toInt n = n := by
  rcases toInt_cases n with ⟨_, hint⟩ | ⟨hlarge, _⟩
  · omega
  · omega

theorem terminalWidth_lt (sys : System) : sys.terminalWidth < 2 ^ 31 := by
  unfold System.terminalWidth
  split
  · exact Int32.toInt_lt _
  · split
    · rename_i ws_col _
      have hlt : ws_col.toNat < 65536 := ws_col.toNat_lt
      omega
    · omega

/-- The number of columns that fit in the terminal. -/
def columnCount (sys : System) (fileInfo : List FileInfo) (relativePath : Bytes) : Nat :=
  (sys.terminalWidth / (maxFileNameLen fileInfo relativePath + COLUMN_PADDING)).toNat

/-- The number of rows that `count` files take up. -/
def rowsNeeded (count columns : Nat) : Nat :=
  count / columns + if count % columns = 0 then 0 else 1

/-- The rows can be counted by an `int`, or go wrong without harm. -/
def RowsFit (count columns : Nat) : Prop :=
  rowsNeeded count columns < 2 ^ 31 ∨ (columns = 1 ∧ 2 ^ 31 < count % 2 ^ 32)

/-- `numRows`. -/
def rowCount (count columns : Nat) : Int :=
  if count % columns ≠ 0 then toInt (count / columns) + 1 else toInt (count / columns)

theorem columnCount_bounds
    (hwidth : maxFileNameLen fileInfo relativePath + COLUMN_PADDING ≤ sys.terminalWidth) :
    0 < columnCount sys fileInfo relativePath ∧ columnCount sys fileInfo relativePath < 2 ^ 31 := by
  have hlt := terminalWidth_lt sys
  rw [COLUMN_PADDING] at hwidth
  have hpos : (0 : Int) < maxFileNameLen fileInfo relativePath + 5 := by omega
  have hone : 1 ≤ sys.terminalWidth / (maxFileNameLen fileInfo relativePath + 5) :=
    (Int.le_ediv_iff_mul_le hpos).mpr (by omega)
  have hself := Int.ediv_le_self (a := sys.terminalWidth)
    (maxFileNameLen fileInfo relativePath + 5) (by omega)
  rw [columnCount, COLUMN_PADDING]
  omega

/-- `numColumns`, as the division for the rows takes it. -/
def columnsOf (sys : System) (fileInfo : List FileInfo) (relativePath : Bytes) : Nat :=
  toSize (sys.terminalWidth.tdiv (maxFileNameLen fileInfo relativePath + COLUMN_PADDING))

/-- What the formatter does where there is a column, also to the left of zero. -/
theorem multiColumn_of_column (hne : fileInfo ≠ []) (hwidth : sys.terminalWidth ≠ 0)
    (hcolumn : sys.terminalWidth.tdiv (maxFileNameLen fileInfo relativePath + COLUMN_PADDING) ≠ 0) :
    listFilesMultiColumnOutput sys fileInfo relativePath =
      if fileInfo.length % columnsOf sys fileInfo relativePath ≠ 0 ∧
          toInt (fileInfo.length / columnsOf sys fileInfo relativePath) = INT_MAX then
        .error .overflow
      else if rowCount fileInfo.length (columnsOf sys fileInfo relativePath) = INT_MIN then
        .error .overflow
      else .ok (printRows fileInfo relativePath (maxFileNameLen fileInfo relativePath + COLUMN_PADDING)
        (rowCount fileInfo.length (columnsOf sys fileInfo relativePath))
        (columnsOf sys fileInfo relativePath)) := by
  have hlen : fileInfo.length ≠ 0 := fun h => hne (List.length_eq_zero_iff.mp h)
  obtain ⟨numColumns, hcolumns⟩ :
      ∃ n, sys.terminalWidth.tdiv (maxFileNameLen fileInfo relativePath + COLUMN_PADDING) = n :=
    ⟨_, rfl⟩
  rw [hcolumns] at hcolumn
  simp only [listFilesMultiColumnOutput, columnsOf, hlen, hwidth, hcolumns, hcolumn, if_false, ne_eq,
    not_false_eq_true, if_true, rowCount]
  split
  · rfl
  · split
    · rfl
    · rfl

/-- And what it does in a terminal that is wide enough. -/
theorem multiColumn_eq (hne : fileInfo ≠ [])
    (hwidth : maxFileNameLen fileInfo relativePath + COLUMN_PADDING ≤ sys.terminalWidth) :
    listFilesMultiColumnOutput sys fileInfo relativePath =
      if fileInfo.length % columnCount sys fileInfo relativePath ≠ 0 ∧
          toInt (fileInfo.length / columnCount sys fileInfo relativePath) = INT_MAX then
        .error .overflow
      else if rowCount fileInfo.length (columnCount sys fileInfo relativePath) = INT_MIN then
        .error .overflow
      else .ok (printRows fileInfo relativePath (maxFileNameLen fileInfo relativePath + COLUMN_PADDING)
        (rowCount fileInfo.length (columnCount sys fileInfo relativePath))
        (columnCount sys fileInfo relativePath)) := by
  obtain ⟨hpos, hlt⟩ := columnCount_bounds hwidth
  have hwide : 0 < sys.terminalWidth := by
    rw [COLUMN_PADDING] at hwidth
    omega
  have hcolumns : sys.terminalWidth.tdiv (maxFileNameLen fileInfo relativePath + COLUMN_PADDING)
      = (columnCount sys fileInfo relativePath : Int) := by
    rw [Int.tdiv_eq_ediv_of_nonneg (Int.le_of_lt hwide)]
    exact (Int.toNat_of_nonneg (by rw [columnCount] at hpos; omega)).symm
  have hsize : columnsOf sys fileInfo relativePath = columnCount sys fileInfo relativePath := by
    rw [columnsOf, hcolumns, toSize]
    omega
  rw [multiColumn_of_column hne (by omega) (by omega), hsize]

section
variable {count columns : Nat}

/-- As long as the rows can be counted they are. -/
theorem rowCount_of_lt (h : rowsNeeded count columns < 2 ^ 31) :
    ¬ (count % columns ≠ 0 ∧ toInt (count / columns) = INT_MAX) ∧
      rowCount count columns = rowsNeeded count columns := by
  rw [rowsNeeded] at h
  have hint : toInt (count / columns) = (count / columns : Nat) :=
    toInt_of_lt (Nat.lt_of_le_of_lt (Nat.le_add_right _ _) h)
  have hmax : INT_MAX = 2 ^ 31 - 1 := rfl
  rw [rowsNeeded, rowCount, hint]
  generalize count / columns = q at *
  by_cases hmod : count % columns = 0
  · simp [hmod]
  · rw [if_neg hmod] at h ⊢
    rw [if_pos hmod]
    omega

theorem le_rowCount (count columns : Nat) : -2 ^ 31 ≤ rowCount count columns := by
  unfold rowCount
  rcases toInt_cases (count / columns) with ⟨_, hint⟩ | ⟨_, hint⟩ <;> split <;> omega

theorem rowCount_lt (h : ¬ (count % columns ≠ 0 ∧ toInt (count / columns) = INT_MAX)) :
    rowCount count columns < 2 ^ 31 := by
  have hmax : INT_MAX = 2 ^ 31 - 1 := rfl
  unfold rowCount
  rcases toInt_cases (count / columns) with ⟨_, hint⟩ | ⟨_, hint⟩ <;> split <;> omega

/-- A single column has as many rows as there are files. -/
theorem rowCount_one : rowCount count 1 = toInt count := by
  simp [rowCount, Nat.mod_one]

/-- Fewer rows do not have room for the files. -/
theorem rowsNeeded_le {rows : Nat} (hcolumns : 0 < columns) :
    count ≤ columns * rows ↔ rowsNeeded count columns ≤ rows := by
  have hdiv := Nat.div_add_mod count columns
  have hmod := Nat.mod_lt count hcolumns
  rw [rowsNeeded]
  constructor
  · intro hle
    split
    · exact Nat.div_le_of_le_mul hle
    · have hlt : count / columns < rows := by
        by_contra hge
        have := Nat.mul_le_mul_left columns (Nat.le_of_not_lt hge)
        omega
      omega
  · intro hle
    have hmul := Nat.mul_le_mul_left columns hle
    rw [Nat.mul_add] at hmul
    split at hmul
    · omega
    · omega

end

/-- **In columns** every file is shown once exactly if the rows fit. -/
theorem multiColumn_shown_iff (hne : fileInfo ≠ []) (hcount : 8 * fileInfo.length < 2 ^ 64)
    (hwidth : maxFileNameLen fileInfo relativePath + COLUMN_PADDING ≤ sys.terminalWidth) :
    (∃ out, listFilesMultiColumnOutput sys fileInfo relativePath = .ok out ∧
      Shown fileInfo relativePath out) ↔
      RowsFit fileInfo.length (columnCount sys fileInfo relativePath) := by
  obtain ⟨hpos, hlt⟩ := columnCount_bounds hwidth
  rw [multiColumn_eq hne hwidth]
  generalize columnCount sys fileInfo relativePath = columns at *
  by_cases hover : fileInfo.length % columns ≠ 0 ∧ toInt (fileInfo.length / columns) = INT_MAX
  · rw [if_pos hover]
    refine ⟨fun ⟨_, hout, _⟩ => by simp at hout, ?_⟩
    rintro (hfit | ⟨rfl, -⟩)
    · exact absurd hover (rowCount_of_lt hfit).1
    · exact absurd (Nat.mod_one _) hover.1
  · rw [if_neg hover]
    by_cases hmin : rowCount fileInfo.length columns = INT_MIN
    · rw [if_pos hmin]
      refine ⟨fun ⟨_, hout, _⟩ => by simp at hout, ?_⟩
      have hmin' : INT_MIN = -2 ^ 31 := rfl
      rintro (hfit | ⟨rfl, hlarge⟩)
      · rw [(rowCount_of_lt hfit).2] at hmin
        omega
      · rw [rowCount_one] at hmin
        rcases toInt_cases fileInfo.length with ⟨hsmall, _⟩ | ⟨_, hint⟩
        · omega
        · omega
    · rw [if_neg hmin]
      simp only [Except.ok.injEq, exists_eq_left']
      rcases Int.lt_or_le (rowCount fileInfo.length columns) 0 with hneg | hnonneg
      · -- below zero
        obtain ⟨k, hk⟩ : ∃ k : Nat, rowCount fileInfo.length columns = -k :=
          ⟨(-rowCount fileInfo.length columns).toNat, by omega⟩
        have hlow := le_rowCount fileInfo.length columns
        rw [hk] at hneg hmin hlow ⊢
        have hmin' : INT_MIN = -2 ^ 31 := rfl
        rw [shown_iff_of_neg (by omega) (by omega) hne hcount hpos]
        constructor
        · rintro rfl
          rw [rowCount_one] at hk
          rcases toInt_cases fileInfo.length with ⟨_, hint⟩ | ⟨_, hint⟩
          · omega
          · exact .inr ⟨rfl, by omega⟩
        · rintro (hfit | ⟨hone, -⟩)
          · have hrows := (rowCount_of_lt hfit).2
            omega
          · exact hone
      · obtain ⟨rows, hrows⟩ : ∃ rows : Nat, rowCount fileInfo.length columns = rows :=
          ⟨(rowCount fileInfo.length columns).toNat, by omega⟩
        have hhigh := rowCount_lt hover
        rw [hrows] at hhigh ⊢
        rw [shown_iff_of_nonneg (by omega) hlt, rowsNeeded_le hpos]
        constructor
        · intro hle
          exact .inl (by omega)
        · rintro (hfit | ⟨rfl, hlarge⟩)
          · have hfit' := (rowCount_of_lt hfit).2
            omega
          · rw [rowCount_one] at hrows
            rcases toInt_cases fileInfo.length with ⟨hsmall, _⟩ | ⟨_, hint⟩
            · omega
            · omega

/-! ### All three -/

theorem maxFileNameLen_le {n : Nat}
    (h : ∀ file ∈ fileInfo, (file.displayFileName relativePath).length ≤ n) :
    maxFileNameLen fileInfo relativePath ≤ n := by
  have hfold : ∀ (files : List FileInfo) (maxLen : Nat), maxLen ≤ n →
      (∀ file ∈ files, (file.displayFileName relativePath).length ≤ n) →
      files.foldl (fun maxLen file => max (file.displayFileName relativePath).length maxLen) maxLen
        ≤ n := by
    intro files
    induction files with
    | nil => exact fun _ hmax _ => hmax
    | cons file rest ih =>
        intro maxLen hmax hfiles
        refine ih _ (Nat.max_le.mpr ⟨hfiles file (by simp), hmax⟩) ?_
        exact fun f hf => hfiles f (List.mem_cons_of_mem _ hf)
  exact hfold fileInfo 0 (Nat.zero_le n) h

theorem width_of_forall (hne : fileInfo ≠ []) (h : ∀ file ∈ fileInfo,
    (file.displayFileName relativePath).length + COLUMN_PADDING ≤ sys.terminalWidth) :
    maxFileNameLen fileInfo relativePath + COLUMN_PADDING ≤ sys.terminalWidth := by
  have hpadding : COLUMN_PADDING = 5 := rfl
  obtain ⟨file, hfile⟩ := List.exists_mem_of_ne_nil fileInfo hne
  have hfirst := h file hfile
  have hmax : maxFileNameLen fileInfo relativePath ≤ (sys.terminalWidth - 5).toNat := by
    refine maxFileNameLen_le ?_
    intro file hfile
    have hname := h file hfile
    omega
  omega

theorem unknownWidth_eq (hne : fileInfo ≠ []) (hwidth : sys.terminalWidth = 0) :
    listFilesMultiColumnOutput sys fileInfo relativePath
      = .ok (fileInfo.map fun file => .entry file (file.filename ++ [newline])) := by
  have hlen : fileInfo.length ≠ 0 := fun h => hne (List.length_eq_zero_iff.mp h)
  simp only [listFilesMultiColumnOutput, hlen, if_false, hwidth, ne_eq, not_true_eq_false]
  rfl

/-- When `listFileInfo` has an entry for every file. -/
def Complete (sys : System) (fileInfo : List FileInfo) (options : UInt32) (relativePath : Bytes) :
    Prop :=
  if options &&& DASH_l ≠ 0 then ∀ file ∈ fileInfo, Known sys options file
  else options &&& DASH_1 ≠ 0 ∨ ((options &&& DASH_C ≠ 0 ∨ sys.isatty) ∧
    (sys.terminalWidth = 0 ∨ RowsFit fileInfo.length (columnCount sys fileInfo relativePath)))

/-- **Which listings show every file once**, if the terminal is wide enough: with `-l`
those of known owners, groups and times, with `-1` all, and otherwise only those with `-C`
or in a terminal, as long as the rows can be counted.  The files are an array of pointers
in memory. -/
theorem listFileInfo_shown_iff (hne : fileInfo ≠ []) (hcount : 8 * fileInfo.length < 2 ^ 64)
    (hwidth : sys.terminalWidth = 0 ∨ ∀ file ∈ fileInfo,
      (file.displayFileName relativePath).length + COLUMN_PADDING ≤ sys.terminalWidth) :
    (∃ out, listFileInfo sys fileInfo options relativePath = .ok out ∧
      Shown fileInfo relativePath out) ↔ Complete sys fileInfo options relativePath := by
  unfold listFileInfo Complete
  by_cases hl : options &&& DASH_l ≠ 0
  · rw [if_pos hl, if_pos hl]
    exact long_shown_iff
  · rw [if_neg hl, if_neg hl]
    by_cases hone : options &&& DASH_1 ≠ 0
    · rw [if_pos hone]
      exact ⟨fun _ => .inl hone, fun _ => ⟨_, rfl, onePerLine_shown⟩⟩
    · rw [if_neg hone]
      by_cases hcolumns : options &&& DASH_C ≠ 0 ∨ sys.isatty
      · rw [if_pos hcolumns]
        have hmode : (options &&& DASH_1 ≠ 0 ∨ ((options &&& DASH_C ≠ 0 ∨ sys.isatty) ∧
            (sys.terminalWidth = 0 ∨ RowsFit fileInfo.length (columnCount sys fileInfo relativePath)))) ↔
            (sys.terminalWidth = 0 ∨ RowsFit fileInfo.length (columnCount sys fileInfo relativePath)) := by
          simp [hone, hcolumns]
        rw [hmode]
        by_cases hzero : sys.terminalWidth = 0
        · refine ⟨fun _ => .inl hzero, fun _ => ⟨_, unknownWidth_eq hne hzero, ?_⟩⟩
          refine shown_of_entries (fun file => ?_) (entries_map _)
          exact ((displayFileName_suffix file).isInfix).trans (List.prefix_append _ _).isInfix
        · have hwide := width_of_forall hne (hwidth.resolve_left hzero)
          rw [multiColumn_shown_iff hne hcount hwide]
          simp [hzero]
      · rw [if_neg hcolumns]
        constructor
        · rintro ⟨out, hout, hshown⟩
          obtain rfl := Except.ok.inj hout
          exact absurd (List.nil_perm.mp hshown.once) hne
        · rintro (h | ⟨h, -⟩)
          · exact absurd h hone
          · exact absurd h hcolumns

/-- Standard output is a pipe, and nothing is known. -/
def pipe : System where
  isatty := false
  columns := none
  ws_col := none
  getpwuid := fun _ => none
  getgrgid := fun _ => none
  strftime := fun _ _ => none
  log10 := fun _ => 0

/-- A file that is listed by its name. -/
def plainFile (filename : Bytes) (h : filename.length < MAX_FILE_NAME_LEN) : FileInfo :=
  ⟨filename, ⟨0o100644, 1, 0, 0, 0, 0, 0⟩, h⟩

theorem shown_terminal :
    ∃ out, listFileInfo { pipe with isatty := true, ws_col := some 80 }
      [plainFile [97] (by decide), plainFile [98] (by decide)] 0 [] = .ok out ∧
      Shown [plainFile [97] (by decide), plainFile [98] (by decide)] [] out := by
  refine (listFileInfo_shown_iff (by simp) (by simp) (.inr (by decide))).mpr ?_
  exact .inr ⟨.inr rfl, .inr (.inl (by decide))⟩

/-- `ls a | cat` prints nothing. -/
theorem not_shown_pipe : pipe.terminalWidth = 0 ∧
    ¬ ∃ out, listFileInfo pipe [plainFile [97] (by decide)] 0 [] = .ok out ∧
      Shown [plainFile [97] (by decide)] [] out := by
  refine ⟨rfl, ?_⟩
  rintro ⟨out, hout, hshown⟩
  obtain rfl : out = [] := Except.ok.inj (hout.symm.trans rfl)
  exact absurd hshown.once.length_eq (by decide)

end Nyctomek.Ls
