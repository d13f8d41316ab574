/-
# `Ls.Directories` — listing directories, and the directories in them

`listDirectoryContents` collects the entries of a directory that are not filtered out, sorts
them, hands them to `listFileInfo`, and with -R calls itself for those of them that are
directories.  The calls of `listFileInfo` are kept in their order, with what each of them has
printed; one without a defined outcome is the end of the run.

    . and ..              filtered out without -a
    another dot in front  filtered out without -A and -a
    a symbolic link       listed, not followed: `lstat` does not say that it is a directory

`DirTree` is a finite directory tree, and `Reachable` a directory in it that is come to.  If they
can all be printed, the listing has each of these once, and in it each entry once
(`DirTree.listsBelow`).
-/
import Nyctomek.Ls.Printing
import Nyctomek.Ls.Sorting

namespace Nyctomek.Ls

open Prog

def DASH_A : UInt32 := 0x00000002
def DASH_a : UInt32 := 0x00000004
def DASH_R : UInt32 := 0x00000020

def S_IFMT : UInt16 := 0o170000
def S_IFDIR : UInt16 := 0o040000

/-- What is asked of the file system: the names in a directory in the order of `readdir`, if
`opendir` opens it, and `lstat`. -/
structure FileSystem where
  readdir : Bytes → Option (List Bytes)
  lstat : Bytes → Option Stat

def dot : UInt8 := 46
def slash : UInt8 := 47

def Stat.isDirectory (statInfo : Stat) : Prop := statInfo.st_mode &&& S_IFMT = S_IFDIR

instance (statInfo : Stat) : Decidable statInfo.isDirectory :=
  inferInstanceAs (Decidable (statInfo.st_mode &&& S_IFMT = S_IFDIR))

/-- The text in a `char filename[MAX_FILE_NAME_LEN]`. -/
abbrev FileName := {s : Bytes // s.length < MAX_FILE_NAME_LEN}

/-- `snprintf(filename, sizeof filename, …)`. -/
def snprintf (s : Bytes) : FileName :=
  ⟨s.take (MAX_FILE_NAME_LEN - 1), Nat.lt_of_le_of_lt (List.length_take_le _ s) (by decide)⟩

/-- `getFileInfo`, null if `lstat` fails. -/
def getFileInfo (fs : FileSystem) (filename : FileName) : Option FileInfo :=
  match fs.lstat filename.1 with
  | none => none
  | some statInfo => some ⟨filename.1, statInfo, filename.2⟩

/-- Whether the loop over the entries goes on without this one. -/
def isSkipped (options : UInt32) (d_name : Bytes) : Bool :=
  if (d_name = [dot] ∨ d_name = [dot, dot]) ∧ options &&& DASH_a = 0 then true
  else d_name.head? = some dot ∧ options &&& DASH_A = 0 ∧ options &&& DASH_a = 0

/-- The variables of the loop over the entries. -/
structure Reading where
  list : FileInfoList
  fileInfoCount : Nat
  deriving DecidableEq, Repr

/-- The body of the loop over the entries. -/
def readEntry (fs : FileSystem) (options : UInt32) (directory : Bytes) (s : Reading)
    (d_name : Bytes) : Except Fault Reading :=
  if isSkipped options d_name then .ok s
  else
    let filename := snprintf (directory ++ slash :: d_name)
    match getFileInfo fs filename with
    | none => .ok s
    | some fileInfo => do
        let list ← addFileInfoToList fileInfo s.list
        .ok ⟨list, s.fileInfoCount + 1⟩

/-- The loop over the entries. -/
def readEntries (fs : FileSystem) (options : UInt32) (directory : Bytes)
    (heap : Heap FileInfoListNode) (entries : List Bytes) : Except Fault Reading :=
  entries.foldlM (readEntry fs options directory) ⟨⟨heap, none, none⟩, 0⟩

/-- A call of `listFileInfo`: its arguments, the header row in front of it, and what it has
printed. -/
structure Listing where
  directory : Bytes
  printHeaderRow : Bool
  fileInfo : List FileInfo
  relativePath : Bytes
  printed : List Printed
  deriving DecidableEq, Repr

/-- What has no defined outcome in `listFileInfo` has none in its callers. -/
def Crash.fault : Crash → Fault
  | nullPointer => .nullPointer
  | divisionByZero => .divisionByZero
  | overflow => .overflow

/-- The call of `listFileInfo`. -/
def callListFileInfo (sys : System) (fileInfo : List FileInfo) (options : UInt32)
    (relativePath : Bytes) : Exec Fault (List Printed) :=
  done ((listFileInfo sys fileInfo options relativePath).mapError Crash.fault)

/-- The body of the loop over the sorted entries. -/
def listSubdirectory (recurse : Heap FileInfoListNode → FileInfo →
      Exec Fault (List Listing × Heap FileInfoListNode))
    (s : List Listing × Heap FileInfoListNode) (file : FileInfo) :
    Exec Fault (List Listing × Heap FileInfoListNode) :=
  if file.statInfo.isDirectory then do
    let (deeper, heap) ← recurse s.2 file
    return (s.1 ++ deeper, heap)
  else return s

/-- The loop over the sorted entries, with -R. -/
def listSubdirectories (options : UInt32) (recurse : Heap FileInfoListNode → FileInfo →
      Exec Fault (List Listing × Heap FileInfoListNode))
    (sortedFileInfo : List FileInfo) (s : List Listing × Heap FileInfoListNode) :
    Exec Fault (List Listing × Heap FileInfoListNode) :=
  if options &&& DASH_R ≠ 0 then sortedFileInfo.foldlM (listSubdirectory recurse) s
  else return s

def listDirectoryContents (sys : System) (std : StdSort) (fs : FileSystem) (options : UInt32) :
    Nat → Heap FileInfoListNode → FileInfo → Bool →
      Exec Fault (List Listing × Heap FileInfoListNode)
  | 0, _, _, _ => noFuel
  | fuel + 1, heap, directoryInfo, printHeaderRow =>
      match fs.readdir directoryInfo.filename with
      | none => done (.error .nullPointer)
      | some entries => do
          let s ← (readEntries fs options directoryInfo.filename heap entries : Exec Fault Reading)
          let sortedFileInfo ←
            sortFileInfo std fuel s.list.heap s.list.head s.fileInfoCount options
          let relativePath := snprintf (directoryInfo.filename ++ [slash])
          let printed ← callListFileInfo sys sortedFileInfo options relativePath.1
          let listing : Listing :=
            ⟨directoryInfo.filename, printHeaderRow, sortedFileInfo, relativePath.1, printed⟩
          let (listings, heap) ← listSubdirectories options
            (fun heap file => listDirectoryContents sys std fs options fuel heap file true)
            sortedFileInfo ([listing], s.list.heap)
          let heap ← freeFileInfoList fuel heap s.list.head
          return (listings, heap)

/-! ## Directory trees -/

/-- An entry that is not filtered out, without -a. -/
def Visible (options : UInt32) (name : Bytes) : Prop :=
  name ≠ [dot] ∧ name ≠ [dot, dot] ∧ (name.head? = some dot → options &&& DASH_A ≠ 0)

instance (options : UInt32) (name : Bytes) : Decidable (Visible options name) :=
  inferInstanceAs (Decidable
    (name ≠ [dot] ∧ name ≠ [dot, dot] ∧ (name.head? = some dot → options &&& DASH_A ≠ 0)))

/-- A finite directory tree: directories that can be opened, with entries that `lstat` knows,
and paths that are not too long. -/
inductive DirTree (fs : FileSystem) : Bytes → Prop
  | directory {path : Bytes} {entries : List Bytes} (opened : fs.readdir path = some entries)
      (nodup : entries.Nodup) (names : ∀ n ∈ entries, slash ∉ n)
      (short : ∀ n ∈ entries, n ≠ [dot] → n ≠ [dot, dot] →
        (path ++ slash :: n).length < MAX_FILE_NAME_LEN)
      (known : ∀ n ∈ entries, n ≠ [dot] → n ≠ [dot, dot] →
        ∃ statInfo, fs.lstat (path ++ slash :: n) = some statInfo)
      (deeper : ∀ n ∈ entries, n ≠ [dot] → n ≠ [dot, dot] →
        ∀ statInfo, fs.lstat (path ++ slash :: n) = some statInfo → statInfo.isDirectory →
          DirTree fs (path ++ slash :: n)) :
      DirTree fs path

/-- A directory that is come to from `path`, through directories that are not filtered out. -/
inductive Reachable (fs : FileSystem) (options : UInt32) : Bytes → Bytes → Prop
  | here (path : Bytes) : Reachable fs options path path
  | through {path q n : Bytes} {entries : List Bytes} {statInfo : Stat}
      (opened : fs.readdir path = some entries) (entry : n ∈ entries) (visible : Visible options n)
      (known : fs.lstat (path ++ slash :: n) = some statInfo) (directory : statInfo.isDirectory)
      (rest : Reachable fs options (path ++ slash :: n) q) : Reachable fs options path q

/-- The listing of a directory has its entries that are not filtered out, each once. -/
structure Listing.IsComplete (fs : FileSystem) (options : UInt32) (listing : Listing) : Prop where
  entries : ∃ entries, fs.readdir listing.directory = some entries ∧
    (listing.fileInfo.map FileInfo.filename).Perm
      ((entries.filter fun n => Visible options n).map fun n => listing.directory ++ slash :: n)
  nodup : (listing.fileInfo.map FileInfo.filename).Nodup
  statInfo : ∀ file ∈ listing.fileInfo, fs.lstat file.filename = some file.statInfo

/-- Each directory that is come to from `path` is listed, once and completely, and no other. -/
structure ListsTree (fs : FileSystem) (options : UInt32) (path : Bytes) (listings : List Listing) :
    Prop where
  nodup : (listings.map Listing.directory).Nodup
  mem : ∀ q, q ∈ listings.map Listing.directory ↔ Reachable fs options path q
  complete : ∀ listing ∈ listings, listing.IsComplete fs options

section
variable {sys : System} {std : StdSort} {fs : FileSystem} {options : UInt32}
  {heap : Heap FileInfoListNode} {path q n : Bytes} {entries : List Bytes}

/-! ## The entries of one directory -/

/-- Without -a exactly the entries that are to be filtered out are skipped. -/
theorem isSkipped_iff (ha : options &&& DASH_a = 0) (name : Bytes) :
    isSkipped options name = true ↔ ¬ Visible options name := by
  unfold isSkipped
  split
  · next hdots =>
    refine iff_of_true rfl ?_
    rintro ⟨hdot, hdotdot, -⟩
    rcases hdots.1 with hname | hname
    · exact hdot hname
    · exact hdotdot hname
  · next hdots =>
    obtain ⟨hdot, hdotdot⟩ := not_or.mp fun h => hdots ⟨h, ha⟩
    simp only [Visible, decide_eq_true_eq, ha, and_true, ne_eq, hdot, hdotdot, not_false_eq_true,
      true_and, Classical.not_imp, not_not]

/-- What has been read so far: the files, and their number. -/
structure HasRead (h : Heap FileInfoListNode) (s : Reading) (cells : List (Ptr × FileInfo)) :
    Prop where
  collected : Collected h s.list cells
  count : s.fileInfoCount = cells.length

/-- The files of the entries that are not filtered out, as far as `lstat` knows them. -/
def collect (fs : FileSystem) (options : UInt32) (directory : Bytes) (entries : List Bytes) :
    List FileInfo :=
  (entries.filter fun n => !isSkipped options n).filterMap fun n =>
    getFileInfo fs (snprintf (directory ++ slash :: n))

theorem lstat_of_getFileInfo {filename : FileName} {file : FileInfo}
    (h : getFileInfo fs filename = some file) :
    file.filename = filename.1 ∧ fs.lstat filename.1 = some file.statInfo := by
  unfold getFileInfo at h
  split at h
  · cases h
  · rename_i statInfo hstat
    obtain rfl := Option.some.inj h
    exact ⟨rfl, hstat⟩

theorem mem_collect {file : FileInfo} : file ∈ collect fs options path entries ↔
    ∃ n ∈ entries, isSkipped options n = false ∧
      getFileInfo fs (snprintf (path ++ slash :: n)) = some file := by
  simp only [collect, List.mem_filterMap, List.mem_filter, Bool.not_eq_true', and_assoc]

theorem lstat_of_mem_collect {file : FileInfo} (h : file ∈ collect fs options path entries) :
    fs.lstat file.filename = some file.statInfo := by
  obtain ⟨n, -, -, hinfo⟩ := mem_collect.mp h
  obtain ⟨hname, hstat⟩ := lstat_of_getFileInfo hinfo
  rw [hname, hstat]

theorem collect_concat (n : Bytes) : collect fs options path (entries ++ [n])
    = collect fs options path entries ++ if isSkipped options n then [] else
        (getFileInfo fs (snprintf (path ++ slash :: n))).toList := by
  rw [collect, collect, List.filter_append, List.filterMap_append]
  congr 1
  cases hskip : isSkipped options n with
  | true => simp [hskip]
  | false =>
      rw [List.filter_cons_of_pos (by simp [hskip]), List.filter_nil]
      cases hinfo : getFileInfo fs (snprintf (path ++ slash :: n)) <;> simp [hinfo]

theorem readEntries_concat {s : Reading} (hread : readEntries fs options path heap entries = .ok s)
    (n : Bytes) :
    readEntries fs options path heap (entries ++ [n]) = readEntry fs options path s n := by
  rw [readEntries] at hread
  rw [readEntries, List.foldlM_append, hread, ok_bind, List.foldlM_cons]
  cases readEntry fs options path s n <;> rfl

/-- **The whole loop** never fails, whatever the options are and whatever `lstat` says. -/
theorem readEntries_collect (fs : FileSystem) (options : UInt32) (path : Bytes)
    (heap : Heap FileInfoListNode) (entries : List Bytes) :
    ∃ s cells, readEntries fs options path heap entries = .ok s ∧ HasRead heap s cells ∧
      cells.map Prod.snd = collect fs options path entries := by
  induction entries using List.reverseRecOn with
  | nil => exact ⟨_, [], rfl, ⟨collected_nil heap, rfl⟩, rfl⟩
  | append_singleton entries n ih =>
      obtain ⟨s, cells, hread, ⟨hlist, hcount⟩, hfiles⟩ := ih
      rw [readEntries_concat hread, collect_concat, readEntry]
      cases hskip : isSkipped options n with
      | true => exact ⟨s, cells, rfl, ⟨hlist, hcount⟩, by simpa using hfiles⟩
      | false =>
          cases hinfo : getFileInfo fs (snprintf (path ++ slash :: n)) with
          | none =>
              refine ⟨s, cells, ?_, ⟨hlist, hcount⟩, by simpa using hfiles⟩
              simp only [Bool.false_eq_true, if_false, hinfo]
          | some file =>
              obtain ⟨list, hadd, hlist'⟩ := hlist.add file
              refine ⟨⟨list, s.fileInfoCount + 1⟩, _, ?_, ⟨hlist', ?_⟩, ?_⟩
              · simp only [Bool.false_eq_true, if_false, hinfo, hadd, ok_bind]
              · rw [hcount, List.length_append, List.length_singleton]
              · simp [hfiles]

theorem snprintf_of_short {s : Bytes} (h : s.length < MAX_FILE_NAME_LEN) : snprintf s = ⟨s, h⟩ :=
  Subtype.ext (List.take_of_length_le (Nat.le_pred_of_lt h))

/-- With short paths that `lstat` knows these are all entries that are not filtered out. -/
theorem collect_of_known (ha : options &&& DASH_a = 0)
    (hshort : ∀ n ∈ entries, n ≠ [dot] → n ≠ [dot, dot] →
      (path ++ slash :: n).length < MAX_FILE_NAME_LEN)
    (hknown : ∀ n ∈ entries, n ≠ [dot] → n ≠ [dot, dot] →
      ∃ statInfo, fs.lstat (path ++ slash :: n) = some statInfo) :
    (collect fs options path entries).map FileInfo.filename
      = (entries.filter fun n => Visible options n).map fun n => path ++ slash :: n := by
  have hfilter : (entries.filter fun n => !isSkipped options n)
      = entries.filter fun n => Visible options n := by
    refine List.filter_congr ?_
    intro n _
    have hiff := isSkipped_iff ha n
    by_cases hn : Visible options n <;> simp_all
  rw [collect, hfilter, List.map_filterMap, ← List.filterMap_eq_map]
  refine List.filterMap_congr ?_
  intro n hn
  obtain ⟨hentry, hvisible⟩ := List.mem_filter.mp hn
  obtain ⟨hdot, hdotdot, -⟩ := of_decide_eq_true hvisible
  obtain ⟨statInfo, hstat⟩ := hknown n hentry hdot hdotdot
  rw [snprintf_of_short (hshort n hentry hdot hdotdot)]
  simp [getFileInfo, hstat]

/-! ## One call -/

/-- What has been collected of a directory, as it is handed to `listFileInfo`. -/
def listedFiles (std : StdSort) (fs : FileSystem) (options : UInt32) (path : Bytes)
    (entries : List Bytes) : List FileInfo :=
  sortedFiles std options (collect fs options path entries)

/-- What a directory has in it can be printed. -/
def DirectoryPrintable (sys : System) (fs : FileSystem) (options : UInt32) (path : Bytes) : Prop :=
  ∀ entries, fs.readdir path = some entries →
    Printable sys options (collect fs options path entries) (snprintf (path ++ [slash])).1

theorem callListFileInfo_of_printable {files : List FileInfo} {relativePath : Bytes}
    (h : Printable sys options files relativePath) :
    ∃ printed, listFileInfo sys files options relativePath = .ok printed ∧
      callListFileInfo sys files options relativePath = done (.ok printed) := by
  obtain ⟨printed, hprinted⟩ := listFileInfo_ok_iff.mpr h
  refine ⟨printed, hprinted, ?_⟩
  rw [callListFileInfo, hprinted]
  rfl

theorem callListFileInfo_of_not_printable {files : List FileInfo} {relativePath : Bytes}
    (h : ¬ Printable sys options files relativePath) :
    ∃ e, callListFileInfo sys files options relativePath = done (.error e) := by
  rw [callListFileInfo]
  cases hcall : listFileInfo sys files options relativePath with
  | ok printed => exact absurd (listFileInfo_ok_iff.mp ⟨printed, hcall⟩) h
  | error e => exact ⟨e.fault, rfl⟩

theorem printable_listedFiles (hopened : fs.readdir path = some entries) :
    Printable sys options (listedFiles std fs options path entries) (snprintf (path ++ [slash])).1 ↔
      DirectoryPrintable sys fs options path := by
  rw [listedFiles, Printable.perm (sortedFiles_perm std options _), DirectoryPrintable]
  simp only [hopened, Option.some.injEq, forall_eq']

theorem sortFileInfo_mono (p : Option Ptr) (count : Nat) :
    FuelMono fun fuel => sortFileInfo std fuel heap p count options :=
  (loop_mono _ _).bind fun _ => FuelMono.const _

theorem freeFileInfoList_mono (p : Option Ptr) : FuelMono fun fuel => freeFileInfoList fuel heap p :=
  loop_mono _ _

/-- The listing of a directory. -/
def listingOf (std : StdSort) (fs : FileSystem) (options : UInt32) (path : Bytes)
    (entries : List Bytes) (printHeaderRow : Bool) (printed : List Printed) : Listing :=
  ⟨path, printHeaderRow, listedFiles std fs options path entries, (snprintf (path ++ [slash])).1,
    printed⟩

/-- **What a call does** that has opened its directory: it reads the entries, and if they can be
printed it goes on with the loop over them and with freeing the list. -/
theorem listDirectoryContents_cases {file : FileInfo} {printHeaderRow : Bool} {fuel : Nat}
    {r : Except Fault (List Listing × Heap FileInfoListNode)}
    (hopened : fs.readdir file.filename = some entries)
    (hdone : listDirectoryContents sys std fs options (fuel + 1) heap file printHeaderRow = done r) :
    ∃ s cells, readEntries fs options file.filename heap entries = .ok s ∧ HasRead heap s cells ∧
      ((¬ DirectoryPrintable sys fs options file.filename ∧ ∃ e, r = .error e) ∨
        ∃ printed result, DirectoryPrintable sys fs options file.filename ∧
          listFileInfo sys (listedFiles std fs options file.filename entries) options
            (snprintf (file.filename ++ [slash])).1 = .ok printed ∧
          listSubdirectories options
            (fun heap file => listDirectoryContents sys std fs options fuel heap file true)
            (listedFiles std fs options file.filename entries)
            ([listingOf std fs options file.filename entries printHeaderRow printed], s.list.heap)
            = done result ∧
          ((∃ e, result = .error e ∧ r = .error e) ∨
            ∃ listings h', result = .ok (listings, h') ∧
              (do
                let heap ← freeFileInfoList fuel h' s.list.head
                return (listings, heap)) = done r)) := by
  obtain ⟨s, cells, hread, hs, hfiles⟩ := readEntries_collect fs options file.filename heap entries
  have hsort := sortFileInfo_eq std options hs.collected.linked
  rw [← hs.count, hfiles, ← listedFiles] at hsort
  refine ⟨s, cells, hread, hs, ?_⟩
  rw [listDirectoryContents] at hdone
  simp only [hopened, hread, lift_eq_done, done_ok_bind] at hdone
  have hdone := (sortFileInfo_mono s.list.head s.fileInfoCount).bind_eq_done hsort hdone
  rw [← @printable_listedFiles sys std _ _ _ _ hopened]
  by_cases hprintable : Printable sys options (listedFiles std fs options file.filename entries)
      (snprintf (file.filename ++ [slash])).1
  · obtain ⟨printed, hprinted, hcall⟩ := callListFileInfo_of_printable hprintable
    rw [hcall, done_ok_bind] at hdone
    rcases bind_eq_done hdone with ⟨⟨listings, h'⟩, hloop, hdone⟩ | ⟨e, hloop, rfl⟩
    · exact .inr ⟨printed, _, hprintable, hprinted, hloop, .inr ⟨listings, h', rfl, hdone⟩⟩
    · exact .inr ⟨printed, _, hprintable, hprinted, hloop, .inl ⟨e, rfl, rfl⟩⟩
  · obtain ⟨e, hcall⟩ := callListFileInfo_of_not_printable hprintable
    rw [hcall, done_error_bind] at hdone
    exact .inl ⟨hprintable, e, (done_inj hdone).symm⟩

/-- What cannot be printed is the end of the run. -/
theorem listDirectoryContents_of_unprintable {file : FileInfo} (printHeaderRow : Bool)
    (hopened : fs.readdir file.filename = some entries)
    (hprintable : ¬ DirectoryPrintable sys fs options file.filename) :
    ∃ e, Ends (fun fuel => listDirectoryContents sys std fs options fuel heap file printHeaderRow)
      (.error e) := by
  obtain ⟨s, cells, hread, hs, hfiles⟩ := readEntries_collect fs options file.filename heap entries
  have hsort := sortFileInfo_eq std options hs.collected.linked
  rw [← hs.count, hfiles, ← listedFiles] at hsort
  obtain ⟨e, hcall⟩ :=
    callListFileInfo_of_not_printable (mt (@printable_listedFiles sys std _ _ _ _ hopened).mp hprintable)
  refine ⟨e, Ends.succ (fun n => by rw [listDirectoryContents, hopened]) ?_⟩
  simp only [hread, lift_eq_done, done_ok_bind]
  refine hsort.bind ?_
  rw [hcall]
  exact Ends.const _

/-- **And so it ends** otherwise, if the loop over the entries does. -/
theorem listDirectoryContents_of_opened {file : FileInfo} (printHeaderRow : Bool)
    (hopened : fs.readdir file.filename = some entries)
    (hprintable : DirectoryPrintable sys fs options file.filename) :
    ∃ (s : Reading) (printed : List Printed), ∀ result, Ends (fun fuel => listSubdirectories options
          (fun heap file => listDirectoryContents sys std fs options fuel heap file true)
          (listedFiles std fs options file.filename entries)
          ([listingOf std fs options file.filename entries printHeaderRow printed], s.list.heap))
          result →
        (∀ e, result = .error e → Ends (fun fuel =>
          listDirectoryContents sys std fs options fuel heap file printHeaderRow) (.error e)) ∧
        ∀ listings h', result = .ok (listings, h') → s.list.heap.Keeps h' →
          ∃ heap', Ends (fun fuel =>
            listDirectoryContents sys std fs options fuel heap file printHeaderRow)
            (.ok (listings, heap')) ∧ heap.Keeps heap' := by
  obtain ⟨s, cells, hread, hs, hfiles⟩ := readEntries_collect fs options file.filename heap entries
  have hsort := sortFileInfo_eq std options hs.collected.linked
  rw [← hs.count, hfiles, ← listedFiles] at hsort
  obtain ⟨printed, -, hcall⟩ :=
    callListFileInfo_of_printable ((printable_listedFiles hopened).mpr hprintable)
  refine ⟨s, printed, fun result hloop => ⟨?_, ?_⟩⟩
  · rintro e rfl
    refine Ends.succ (fun n => by rw [listDirectoryContents, hopened]) ?_
    simp only [hread, lift_eq_done, done_ok_bind]
    refine hsort.bind ?_
    rw [hcall]
    exact hloop.bind_error
  · rintro listings h' rfl hkeeps
    -- the recursive calls leave the list of this call alone
    obtain ⟨heap', hfree, hfresh, -, hkept⟩ := free_list (hs.collected.linked.of_keeps hkeeps)
    refine ⟨heap', ?_, keeps_of_free (hs.collected.keeps.trans hkeeps) hs.collected.newer hfresh hkept⟩
    refine Ends.succ (fun n => by rw [listDirectoryContents, hopened]) ?_
    simp only [hread, lift_eq_done, done_ok_bind]
    refine hsort.bind ?_
    rw [hcall]
    exact hloop.bind (hfree.bind (Ends.const _))

/-! ## Paths -/

/-- A path that begins with a name goes on with a slash, if it goes on. -/
theorem takeWhile_name {rest : Bytes} (hn : slash ∉ n)
    (hrest : rest = [] ∨ ∃ more, rest = slash :: more) :
    (n ++ rest).takeWhile (· != slash) = n := by
  have hname : ∀ b ∈ n, (b != slash) = true := by
    intro b hb
    rw [bne_iff_ne]
    rintro rfl
    exact hn hb
  rw [List.takeWhile_append_of_pos hname]
  rcases hrest with rfl | ⟨more, rfl⟩
  · simp
  · simp

/-- What is come to lies below. -/
theorem Reachable.path_eq (h : Reachable fs options path q) :
    ∃ rest, q = path ++ rest ∧ (rest = [] ∨ ∃ more, rest = slash :: more) := by
  induction h with
  | here path => exact ⟨[], (List.append_nil path).symm, .inl rfl⟩
  | through _ _ _ _ _ _ ih =>
      obtain ⟨rest, rfl, -⟩ := ih
      exact ⟨_, List.append_assoc _ _ _, .inr ⟨_, rfl⟩⟩

/-- Below two entries of a directory lies nothing in common. -/
theorem Reachable.entry_unique {n' : Bytes} (hn : slash ∉ n) (hn' : slash ∉ n')
    (h : Reachable fs options (path ++ slash :: n) q)
    (h' : Reachable fs options (path ++ slash :: n') q) : n = n' := by
  obtain ⟨rest, hq, hrest⟩ := h.path_eq
  obtain ⟨rest', hq', hrest'⟩ := h'.path_eq
  rw [hq, List.append_assoc, List.append_assoc, List.append_cancel_left_eq] at hq'
  have hnames : n ++ rest = n' ++ rest' := (List.cons.inj hq').2
  rw [← takeWhile_name hn hrest, hnames, takeWhile_name hn' hrest']

theorem Reachable.entry_ne (h : Reachable fs options (path ++ slash :: n) q) : q ≠ path := by
  obtain ⟨rest, rfl, -⟩ := h.path_eq
  intro heq
  have hlength := congrArg List.length heq
  rw [List.length_append, List.length_append, List.length_cons] at hlength
  omega

/-! ## The directories in a directory -/

/-- What the loop has listed, of the directory and of the entries that it has passed. -/
structure HasListed (fs : FileSystem) (options : UInt32) (h : Heap FileInfoListNode) (path : Bytes)
    (past : List FileInfo) (s : List Listing × Heap FileInfoListNode) : Prop where
  nodup : (s.1.map Listing.directory).Nodup
  mem : ∀ q, q ∈ s.1.map Listing.directory ↔ q = path ∨
    ∃ file ∈ past, file.statInfo.isDirectory ∧ Reachable fs options file.filename q
  complete : ∀ listing ∈ s.1, listing.IsComplete fs options
  keeps : h.Keeps s.2

/-- Before the loop the directory itself has been listed. -/
theorem hasListed_nil {listing : Listing} (hlisting : listing.IsComplete fs options)
    (h : Heap FileInfoListNode) : HasListed fs options h listing.directory [] ([listing], h) where
  nodup := List.nodup_singleton _
  mem q := by simp
  complete := by simpa using hlisting
  keeps := .refl h

/-- The directory of a file is listed, with what is below it. -/
def ListsBelow (sys : System) (std : StdSort) (fs : FileSystem) (options : UInt32) (file : FileInfo) : Prop :=
  ∀ (heap : Heap FileInfoListNode) (printHeaderRow : Bool), ∃ listings heap',
    Ends (fun fuel => listDirectoryContents sys std fs options fuel heap file printHeaderRow)
      (.ok (listings, heap')) ∧ heap.Keeps heap' ∧ ListsTree fs options file.filename listings

/-- One turn of the loop: the file's directory is listed behind the others, if it is one. -/
theorem HasListed.step {h : Heap FileInfoListNode} {past : List FileInfo} {file : FileInfo}
    {s : List Listing × Heap FileInfoListNode} (hs : HasListed fs options h path past s)
    (hname : ∀ f ∈ past ++ [file], ∃ n, slash ∉ n ∧ f.filename = path ++ slash :: n)
    (hnodup : ((past ++ [file]).map FileInfo.filename).Nodup)
    (hbelow : file.statInfo.isDirectory → ListsBelow sys std fs options file) :
    ∃ s', Ends (fun fuel => listSubdirectory (fun heap file =>
        listDirectoryContents sys std fs options fuel heap file true) s file) (.ok s') ∧
      HasListed fs options h path (past ++ [file]) s' := by
  have hmem : ∀ q,
      (∃ f ∈ past ++ [file], f.statInfo.isDirectory ∧ Reachable fs options f.filename q) ↔
      (∃ f ∈ past, f.statInfo.isDirectory ∧ Reachable fs options f.filename q) ∨
        (file.statInfo.isDirectory ∧ Reachable fs options file.filename q) := by
    intro q
    simp only [List.mem_append, List.mem_singleton, or_and_right, exists_or, exists_eq_left]
  by_cases hdir : file.statInfo.isDirectory
  · obtain ⟨deeper, heap', hends, hkeeps, hlists⟩ := hbelow hdir s.2 true
    refine ⟨(s.1 ++ deeper, heap'), ?_, ?_, ?_, ?_, hs.keeps.trans hkeeps⟩
    · simp only [listSubdirectory, if_pos hdir]
      exact hends.bind (Ends.const _)
    · rw [List.map_append, List.nodup_append']
      refine ⟨hs.nodup, hlists.nodup, ?_⟩
      intro q hq hq'
      obtain ⟨n, hn, hfile⟩ := hname file (List.mem_append_right _ List.mem_cons_self)
      have hreach := (hlists.mem q).mp hq'
      rw [hfile] at hreach
      rcases (hs.mem q).mp hq with rfl | ⟨f, hf, -, hreach'⟩
      · exact hreach.entry_ne rfl
      · obtain ⟨n', hn', hf'⟩ := hname f (List.mem_append_left _ hf)
        rw [hf'] at hreach'
        obtain rfl := hreach.entry_unique hn hn' hreach'
        rw [List.map_append, List.nodup_append'] at hnodup
        exact hnodup.2.2 (List.mem_map.mpr ⟨f, hf, hf'⟩) (by simp [hfile])
    · intro q
      rw [List.map_append, List.mem_append, hs.mem, hlists.mem, or_assoc, hmem]
      simp only [hdir, true_and]
    · intro listing hlisting
      rcases List.mem_append.mp hlisting with hold | hnew
      · exact hs.complete listing hold
      · exact hlists.complete listing hnew
  · refine ⟨s, ?_, hs.nodup, ?_, hs.complete, hs.keeps⟩
    · simp only [listSubdirectory, if_neg hdir]
      exact Ends.const _
    · intro q
      rw [hs.mem, hmem]
      simp only [hdir, false_and, or_false]

/-- **The loop over the entries**, by what is below each of them. -/
theorem subdirectories_end {h : Heap FileInfoListNode} {files : List FileInfo}
    {s : List Listing × Heap FileInfoListNode} (hs : HasListed fs options h path [] s)
    (hname : ∀ f ∈ files, ∃ n, slash ∉ n ∧ f.filename = path ++ slash :: n)
    (hnodup : (files.map FileInfo.filename).Nodup)
    (hbelow : ∀ f ∈ files, f.statInfo.isDirectory → ListsBelow sys std fs options f) :
    ∃ s', Ends (fun fuel => files.foldlM (listSubdirectory fun heap file =>
        listDirectoryContents sys std fs options fuel heap file true) s) (.ok s') ∧
      HasListed fs options h path files s' := by
  refine Ends.foldlM (I := HasListed fs options h path) hs files ?_
  intro past file hprefix s hs
  have hsub := hprefix.sublist
  refine hs.step (fun f hf => hname f (hsub.subset hf)) (hnodup.sublist (hsub.map _)) ?_
  exact hbelow file (hsub.subset (List.mem_append_right _ List.mem_cons_self))

/-! ## Whole trees -/

/-- A file of a complete listing is an entry of the directory. -/
theorem Listing.IsComplete.entry {listing : Listing} (hlisting : listing.IsComplete fs options)
    (hopened : fs.readdir listing.directory = some entries) {file : FileInfo}
    (hfile : file ∈ listing.fileInfo) :
    ∃ n ∈ entries, Visible options n ∧ file.filename = listing.directory ++ slash :: n ∧
      fs.lstat (listing.directory ++ slash :: n) = some file.statInfo := by
  obtain ⟨entries', hopened', hperm⟩ := hlisting.entries
  obtain rfl : entries = entries' := Option.some.inj (hopened.symm.trans hopened')
  obtain ⟨n, hn, hname⟩ := List.mem_map.mp (hperm.mem_iff.mp (List.mem_map_of_mem hfile))
  obtain ⟨hentry, hvisible⟩ := List.mem_filter.mp hn
  refine ⟨n, hentry, of_decide_eq_true hvisible, hname.symm, ?_⟩
  rw [hname]
  exact hlisting.statInfo file hfile

/-- What is come to from a directory, by its entries. -/
theorem reachable_iff {listing : Listing} (hlisting : listing.IsComplete fs options) (q : Bytes) :
    Reachable fs options listing.directory q ↔ q = listing.directory ∨
      ∃ file ∈ listing.fileInfo, file.statInfo.isDirectory ∧
        Reachable fs options file.filename q := by
  obtain ⟨entries, hopened, hperm⟩ := hlisting.entries
  constructor
  · intro hreach
    cases hreach with
    | here => exact .inl rfl
    | @through _ _ n entries' statInfo opened entry visible known directory rest =>
        obtain rfl : entries = entries' := Option.some.inj (hopened.symm.trans opened)
        have hmem : listing.directory ++ slash :: n ∈ listing.fileInfo.map FileInfo.filename := by
          rw [hperm.mem_iff]
          exact List.mem_map_of_mem (List.mem_filter.mpr ⟨entry, decide_eq_true visible⟩)
        obtain ⟨file, hfile, hname⟩ := List.mem_map.mp hmem
        have hstat := hlisting.statInfo file hfile
        rw [hname, known] at hstat
        rw [Option.some.inj hstat] at directory
        exact .inr ⟨file, hfile, directory, hname ▸ rest⟩
  · rintro (rfl | ⟨file, hfile, hdir, rest⟩)
    · exact .here _
    · obtain ⟨n, hentry, hvisible, hname, hstat⟩ := hlisting.entry hopened hfile
      exact .through hopened hentry hvisible hstat hdir (hname ▸ rest)

/-- The sorted files are those of the entries. -/
theorem isComplete_listingOf (hopened : fs.readdir path = some entries) (hnodup : entries.Nodup)
    (hnames : (collect fs options path entries).map FileInfo.filename
      = (entries.filter fun n => Visible options n).map fun n => path ++ slash :: n)
    (printHeaderRow : Bool) (printed : List Printed) :
    (listingOf std fs options path entries printHeaderRow printed).IsComplete fs options := by
  have hperm := sortedFiles_perm std options (collect fs options path entries)
  have hpaths := hperm.map FileInfo.filename
  rw [hnames] at hpaths
  refine ⟨⟨entries, hopened, hpaths⟩, hpaths.nodup_iff.mpr ((hnodup.filter _).map ?_), ?_⟩
  · intro n n' heq
    exact (List.cons.inj (List.append_cancel_left heq)).2
  · exact fun file hfile => lstat_of_mem_collect (hperm.mem_iff.mp hfile)

/-- **A directory tree is listed**, by induction on it, if all that is come to can be printed. -/
theorem DirTree.listsBelow (ha : options &&& DASH_a = 0) (hR : options &&& DASH_R ≠ 0)
    (htree : DirTree fs path)
    (hprintable : ∀ q, Reachable fs options path q → DirectoryPrintable sys fs options q)
    (file : FileInfo) (hfile : file.filename = path) : ListsBelow sys std fs options file := by
  induction htree generalizing file with
  | @directory path entries opened nodup names short known deeper ih =>
      subst hfile
      intro heap printHeaderRow
      obtain ⟨s, printed, hcall⟩ := listDirectoryContents_of_opened printHeaderRow opened
        (hprintable _ (.here _))
      have hcomplete := @isComplete_listingOf std _ _ _ _ opened nodup
        (collect_of_known ha short known) printHeaderRow printed
      have hname : ∀ f ∈ listedFiles std fs options file.filename entries,
          ∃ n, slash ∉ n ∧ f.filename = file.filename ++ slash :: n := by
        intro f hf
        obtain ⟨n, hn, -, hname, -⟩ := hcomplete.entry opened hf
        exact ⟨n, names n hn, hname⟩
      have hbelow : ∀ f ∈ listedFiles std fs options file.filename entries,
          f.statInfo.isDirectory → ListsBelow sys std fs options f := by
        intro f hf hdir
        obtain ⟨n, hn, hvisible, hname, hstat⟩ := hcomplete.entry opened hf
        refine ih n hn hvisible.1 hvisible.2.1 f.statInfo hstat hdir ?_ f hname
        exact fun q hq => hprintable q (.through opened hn hvisible hstat hdir hq)
      obtain ⟨⟨listings, heap₁⟩, hsub, hlisted⟩ :=
        subdirectories_end (hasListed_nil hcomplete s.list.heap) hname hcomplete.nodup hbelow
      obtain ⟨heap', hends, hkeeps⟩ := (hcall _
        (hsub.congr fun fuel => by rw [listSubdirectories, if_pos hR])).2 _ _ rfl hlisted.keeps
      refine ⟨listings, heap', hends, hkeeps, hlisted.nodup, ?_, hlisted.complete⟩
      intro q
      rw [hlisted.mem]
      exact (reachable_iff hcomplete q).symm

end

/-- A directory with a file, a directory and a hidden one. -/
def smallTree : FileSystem where
  readdir path :=
    if path = ascii "d" then some [ascii ".", ascii "..", ascii "b", ascii "a", ascii ".c"]
    else if path = ascii "d/b" ∨ path = ascii "d/.c" then some [ascii "..", ascii "."]
    else none
  lstat path :=
    if path = ascii "d" ∨ path = ascii "d/b" ∨ path = ascii "d/.c" then
      some ⟨0o040755, 2, 0, 0, 64, 0, 1262304000⟩
    else if path = ascii "d/a" then some ⟨0o100644, 1, 0, 0, 5, 8, 1262304000⟩
    else none

theorem smallTree_leaf {path : Bytes} (hpath : path = ascii "d/b" ∨ path = ascii "d/.c") :
    DirTree smallTree path := by
  have hopened : smallTree.readdir path = some [ascii "..", ascii "."] := by
    rcases hpath with rfl | rfl <;> rfl
  have hdots : ∀ n ∈ [ascii "..", ascii "."], n ≠ [dot] → n ≠ [dot, dot] → False := by decide
  refine .directory hopened (by decide) (by decide) ?_ ?_ ?_
  · exact fun n hn hdot hdotdot => (hdots n hn hdot hdotdot).elim
  · exact fun n hn hdot hdotdot => (hdots n hn hdot hdotdot).elim
  · exact fun n hn hdot hdotdot => (hdots n hn hdot hdotdot).elim

theorem smallTree_dirTree : DirTree smallTree (ascii "d") := by
  have hopened : smallTree.readdir (ascii "d")
      = some [ascii ".", ascii "..", ascii "b", ascii "a", ascii ".c"] := rfl
  refine .directory hopened (by decide) (by decide) (by decide) ?_ ?_
  · intro n hn hdot hdotdot
    refine Option.ne_none_iff_exists'.mp ?_
    revert n
    decide
  · have hname : ∀ n ∈ [ascii ".", ascii "..", ascii "b", ascii "a", ascii ".c"], n ≠ [dot] →
        n ≠ [dot, dot] → n = ascii "b" ∨ n = ascii "a" ∨ n = ascii ".c" := by decide
    intro n hn hdot hdotdot statInfo hstat hdir
    rcases hname n hn hdot hdotdot with rfl | rfl | rfl
    · exact smallTree_leaf (.inl rfl)
    · obtain rfl := Option.some.inj hstat
      exact absurd hdir (by decide)
    · exact smallTree_leaf (.inr rfl)

end Nyctomek.Ls
